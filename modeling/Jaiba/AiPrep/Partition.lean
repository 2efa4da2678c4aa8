import Jaiba.Lib.Except
import Jaiba.Engine.Retry
import Jaiba.AiPrep.Manifest

/-!
# Splits of a dataset (`ai_split_dataset` in `ai_prep/features.rs`)

The records are cut at the rounded ratios, after a shuffle if there is one. An
index out of range is a panic, `none` here. How a ratio of the length rounds is
a parameter; the sum of two of them is far below `2 ^ 64`.
-/

namespace Jaiba.AiPrep
open Jaiba.Lib

/-- The ratios of `train` and `validation`, of whatever type. -/
structure AiSplitDataset (F : Type) where
  train : F
  validation : F
  shuffle : Bool
  seed : UInt64

/-! ### The shuffle -/

def xorshift (state : UInt64) : UInt64 :=
  let state := state ^^^ (state <<< 13)
  let state := state ^^^ (state >>> 7)
  state ^^^ (state <<< 17)

/-- `records.swap(i, j)`. -/
def swap (records : List Json) (i j : ℕ) : Option (List Json) :=
  match records[i]?, records[j]? with
  | some a, some b => some ((records.set i b).set j a)
  | _, _ => none

/-- The loop over `(1..=i).rev()`. -/
def shuffleFrom : ℕ → UInt64 → List Json → Option (List Json)
  | 0, _, records => some records
  | i + 1, state, records =>
    (swap records (i + 1) ((xorshift state).toNat % (i + 2))).bind (shuffleFrom i (xorshift state))

def fisherYatesShuffle (records : List Json) (seed : UInt64) : Option (List Json) :=
  shuffleFrom (records.length - 1) (if seed = 0 then 0x9E3779B97F4A7C15 else seed) records

theorem swap_perm {records : List Json} {i j : ℕ} (hi : i < records.length) (hj : j < records.length) :
    ∃ swapped, swap records i j = some swapped ∧ swapped.Perm records := by
  refine ⟨(records.set i records[j]).set j records[i], ?_, List.set_set_perm hi hj⟩
  rw [swap, List.getElem?_eq_getElem hi, List.getElem?_eq_getElem hj]

/-- Every index of the shuffle is in range, and it only reorders. -/
theorem shuffleFrom_perm (i : ℕ) (state : UInt64) (records : List Json) (hi : i < records.length ∨ i = 0) :
    ∃ shuffled, shuffleFrom i state records = some shuffled ∧ shuffled.Perm records := by
  induction i generalizing state records with
  | zero => exact ⟨records, rfl, .refl _⟩
  | succ i ih =>
    have hlt : i + 1 < records.length := by omega
    have hmod : (xorshift state).toNat % (i + 2) < i + 2 := Nat.mod_lt _ (Nat.succ_pos _)
    obtain ⟨swapped, hswap, hperm⟩ := swap_perm hlt (j := (xorshift state).toNat % (i + 2)) (by omega)
    obtain ⟨shuffled, hshuffle, hrest⟩ := ih (xorshift state) swapped
      (.inl (by rw [hperm.length_eq]; omega))
    refine ⟨shuffled, ?_, hrest.trans hperm⟩
    rw [shuffleFrom, hswap, Option.bind_some, hshuffle]

/-! ### The cut -/

/-- `records[a..b]`. -/
def slice (records : List Json) (a b : ℕ) : Option (List Json) :=
  if a ≤ b ∧ b ≤ records.length then some ((records.take b).drop a) else none

namespace AiSplitDataset

variable {F : Type} (p : AiSplitDataset F)

def reorder (records : List Json) : Option (List Json) :=
  if p.shuffle then fisherYatesShuffle records p.seed else some records

/-- The three pieces, `share total ratio` being `((total as f64) * ratio).round() as usize`. -/
def split (share : ℕ → F → ℕ) (records : List Json) : Option (List Json × List Json × List Json) := do
  let total := records.length
  let records ← p.reorder records
  let trainEnd := share total p.train
  let validationEnd := trainEnd + share total p.validation
  let trainEnd := min trainEnd total
  let validationEnd := min validationEnd total
  let train ← slice records 0 trainEnd
  let validation ← slice records trainEnd validationEnd
  let test ← slice records validationEnd records.length
  return (train, validation, test)

/-- The packet of one piece, with the fresh identifier it draws. -/
def piece (template : DataPacket) (fresh : Split → String) (relationship : Split) (records : List Json) :
    String × DataPacket :=
  (relationship.name, (DataPacket.setAttribute
    { DataPacket.empty (fresh relationship) with
      content := .records records, attributes := template.attributes } "ai.split" relationship.name).setAttribute
        "ai.split_group" template.id)

def execute (share : ℕ → F → ℕ) (processorId : String) (fresh : Split → String) (packet : DataPacket) :
    Option Engine.Attempt :=
  match packet.records with
  | .error message => some ⟨[], .error (.processor processorId message)⟩
  | .ok records =>
    match requireObjects processorId 0 records with
    | .error e => some ⟨[], .error e⟩
    | .ok () => (p.split share records).map fun pieces =>
        ⟨[piece packet fresh .train pieces.1, piece packet fresh .validation pieces.2.1,
          piece packet fresh .test pieces.2.2], .ok ()⟩

/-- The pieces of a cut are the whole list. -/
theorem slices_append (records : List Json) {a b : ℕ} (ha : a ≤ b) (hb : b ≤ records.length) :
    ∃ first second third, slice records 0 a = some first ∧ slice records a b = some second ∧
      slice records b records.length = some third ∧ first ++ second ++ third = records := by
  refine ⟨_, _, _, if_pos ⟨Nat.zero_le a, Nat.le_trans ha hb⟩, if_pos ⟨ha, hb⟩, if_pos ⟨hb, Nat.le_refl _⟩, ?_⟩
  have htake : (records.take b).take a = records.take a := by rw [List.take_take, Nat.min_eq_left ha]
  rw [List.drop_zero, List.take_length, ← htake, List.take_append_drop, List.take_append_drop]

/-- The three outputs are a permutation of the records, the records themselves without a shuffle,
and no index is out of range. -/
theorem split_partitions (share : ℕ → F → ℕ) (records : List Json) :
    ∃ train validation test, p.split share records = some (train, validation, test) ∧
      (train ++ validation ++ test).Perm records ∧
      (p.shuffle = false → train ++ validation ++ test = records) := by
  obtain ⟨shuffled, hshuffled, hperm, hsame⟩ : ∃ shuffled,
      p.reorder records = some shuffled ∧ shuffled.Perm records ∧ (p.shuffle = false → shuffled = records) := by
    unfold reorder
    cases hshuffle : p.shuffle with
    | false => exact ⟨records, rfl, .refl _, fun _ => rfl⟩
    | true =>
      obtain ⟨shuffled, h, hperm⟩ := shuffleFrom_perm (records.length - 1)
        (if p.seed = 0 then 0x9E3779B97F4A7C15 else p.seed) records (by omega)
      exact ⟨shuffled, h, hperm, fun h => (by cases h)⟩
  have hlength := hperm.length_eq
  obtain ⟨train, validation, test, htrain, hvalidation, htest, happend⟩ := slices_append shuffled
    (a := min (share records.length p.train) records.length)
    (b := min (share records.length p.train + share records.length p.validation) records.length)
    (by omega) (by omega)
  refine ⟨train, validation, test, ?_, ?_, fun h => ?_⟩
  · simp only [split, hshuffled, htrain, hvalidation, htest, bind, Option.bind, pure]
  · rw [happend]
    exact hperm
  · rw [happend, hsame h]

/-- What is emitted for records that are objects: one packet for each of the three pieces. -/
theorem outputs_partition (share : ℕ → F → ℕ) (processorId : String) (fresh : Split → String)
    (packet : DataPacket) (records : List Json) (hrecords : packet.records = .ok records)
    (hobjects : ∀ record ∈ records, isObject record = true) :
    ∃ train validation test, p.execute share processorId fresh packet =
        some ⟨[piece packet fresh .train train, piece packet fresh .validation validation,
          piece packet fresh .test test], .ok ()⟩ ∧
      (train ++ validation ++ test).Perm records ∧
      (p.shuffle = false → train ++ validation ++ test = records) := by
  obtain ⟨train, validation, test, hsplit, hperm, hsame⟩ := p.split_partitions share records
  refine ⟨train, validation, test, ?_, hperm, hsame⟩
  unfold execute
  rw [hrecords]
  dsimp only
  rw [requireObjects_ok.mpr hobjects, hsplit]
  rfl

def sampleRecord (n : ℕ) : Json := .object [("row", .number (.posInt n))]

def samplePacket : DataPacket :=
  { DataPacket.empty "p1" with content := .records [sampleRecord 0, sampleRecord 1, sampleRecord 2] }

/-- Ratios in tenths, rounded up: three records cut at 3 and 4. -/
def sampleSplit : AiSplitDataset ℕ := ⟨7, 2, true, 1⟩

def tenthsUp (total ratio : ℕ) : ℕ := (total * ratio + 9) / 10

theorem outputs_partition_sample : ∃ train validation test,
    sampleSplit.execute tenthsUp "split" Split.name samplePacket =
        some ⟨[piece samplePacket Split.name .train train, piece samplePacket Split.name .validation validation,
          piece samplePacket Split.name .test test], .ok ()⟩ ∧
    (train ++ validation ++ test).Perm [sampleRecord 0, sampleRecord 1, sampleRecord 2] := by
  obtain ⟨train, validation, test, hexecute, hperm, -⟩ := sampleSplit.outputs_partition tenthsUp "split" Split.name
    samplePacket [sampleRecord 0, sampleRecord 1, sampleRecord 2] rfl (by simp [sampleRecord, isObject])
  exact ⟨train, validation, test, hexecute, hperm⟩

end AiSplitDataset

end Jaiba.AiPrep
