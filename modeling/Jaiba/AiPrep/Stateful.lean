import Mathlib.Data.Finset.Basic
import Jaiba.AiPrep.Support

/-!
# Processors with a state (`ai_prep/transforms.rs`, `ai_prep/features.rs`)

`ai_remove_duplicates` with its window, `ai_fill_missing` and `ai_normalize` with
what they have seen. Each changes its state while it transforms the records.
-/

namespace Jaiba.AiPrep
open Jaiba.Lib

/-! ### Duplicates -/

structure AiRemoveDuplicates where
  keyFields : List String
  window : Option ℕ
  keyFields_ne : keyFields ≠ []
  window_pos : ∀ n, window = some n → 0 < n

/-- `window_state`: the keys seen, and their order. -/
structure Window (capacity : ℕ) where
  seen : Finset String
  order : List String
  same : ∀ key, key ∈ seen ↔ key ∈ order
  nodup : order.Nodup
  bounded : order.length ≤ capacity

/-- The loop that pops the oldest key while there are too many. -/
def expire (capacity : ℕ) : Finset String → List String → Finset String × List String
  | seen, [] => (seen, [])
  | seen, oldest :: rest =>
    if capacity < (oldest :: rest).length then expire capacity (seen.erase oldest) rest
    else (seen, oldest :: rest)

theorem expire_order (capacity : ℕ) (seen : Finset String) (order : List String) :
    (expire capacity seen order).2 = order.drop (order.length - capacity) := by
  induction order generalizing seen with
  | nil =>
    rw [List.drop_nil]
    rfl
  | cons oldest rest ih =>
    rw [expire]
    split
    next h =>
      rw [List.length_cons] at h ⊢
      have hmore : rest.length + 1 - capacity = (rest.length - capacity) + 1 := by omega
      rw [ih, hmore, List.drop_succ_cons]
    next h =>
      have hzero : (oldest :: rest).length - capacity = 0 := by omega
      rw [hzero, List.drop_zero]

theorem expire_same (capacity : ℕ) {seen : Finset String} {order : List String} (hnodup : order.Nodup)
    (h : ∀ key, key ∈ seen ↔ key ∈ order) (key : String) :
    key ∈ (expire capacity seen order).1 ↔ key ∈ (expire capacity seen order).2 := by
  induction order generalizing seen with
  | nil => exact h key
  | cons oldest rest ih =>
    rw [expire]
    split
    · obtain ⟨hoff, hrest⟩ := List.nodup_cons.mp hnodup
      refine ih hrest fun k => ?_
      rw [Finset.mem_erase, h k, List.mem_cons]
      constructor
      · rintro ⟨hne, hk | hk⟩
        · exact absurd hk hne
        · exact hk
      · intro hk
        refine ⟨?_, .inr hk⟩
        rintro rfl
        exact hoff hk
    · exact h key

namespace Window

variable {capacity : ℕ}

def empty (capacity : ℕ) : Window capacity where
  seen := ∅
  order := []
  same := fun key => by simp
  nodup := List.nodup_nil
  bounded := Nat.zero_le _

/-- A key that is not in the window. -/
def push (window : Window capacity) (key : String) (h : key ∉ window.seen) : Window capacity where
  seen := (expire capacity (insert key window.seen) (window.order ++ [key])).1
  order := (expire capacity (insert key window.seen) (window.order ++ [key])).2
  same := by
    refine fun k => expire_same capacity ?_ (fun k' => ?_) k
    · refine List.nodup_append.mpr ⟨window.nodup, List.nodup_singleton key, fun a ha b hb => ?_⟩
      rw [List.mem_singleton.mp hb]
      rintro rfl
      exact h ((window.same a).mpr ha)
    · rw [Finset.mem_insert, List.mem_append, List.mem_singleton, window.same, or_comm]
  nodup := by
    rw [expire_order]
    refine List.Sublist.nodup (List.drop_sublist _ _)
      (List.nodup_append.mpr ⟨window.nodup, List.nodup_singleton key, fun a ha b hb => ?_⟩)
    rw [List.mem_singleton.mp hb]
    rintro rfl
    exact h ((window.same a).mpr ha)
  bounded := by
    rw [expire_order, List.length_drop]
    omega

/-- `records.retain` with the window. -/
def retain (key : Json → String) : List Json → Window capacity → List Json × Window capacity
  | [], window => ([], window)
  | record :: rest, window =>
    if h : key record ∈ window.seen then retain key rest window
    else
      let kept := retain key rest (window.push (key record) h)
      (record :: kept.1, kept.2)

end Window

/-- `records.retain` with the keys of this packet alone. -/
def retainFirst (key : Json → String) : List Json → Finset String → List Json
  | [], _ => []
  | record :: rest, seen =>
    if key record ∈ seen then retainFirst key rest seen
    else record :: retainFirst key rest (insert (key record) seen)

namespace AiRemoveDuplicates

variable (p : AiRemoveDuplicates)

abbrev State := Window (p.window.getD 0)

def work (records : List Json) (s : p.State) : List Json × p.State :=
  match p.window with
  | some _ => Window.retain (fieldKey p.keyFields) records s
  | none => (retainFirst (fieldKey p.keyFields) records ∅, s)

def execute (processorId : String) : DataPacket → Option FlowError → p.State →
    Except FlowError (List Json) × p.State := runWork processorId p.work

end AiRemoveDuplicates

/-! ### Missing values -/

inductive FillStrategy where
  | previous
  | constant
  | mean
  | median
  deriving DecidableEq

structure AiFillMissing where
  fields : List String
  strategy : FillStrategy
  constant : Option Json
  cumulative : Bool
  fields_ne : fields ≠ []
  constant_some : strategy = .constant → constant ≠ none

variable {F : Type}

/-- `NumericAgg`. -/
structure NumericAgg (F : Type) where
  count : ℕ
  sum : F
  samples : List F

namespace NumericAgg

def init (f : Floats F) : NumericAgg F := ⟨0, f.zero, []⟩

def observe (f : Floats F) (strategy : FillStrategy) (entry : NumericAgg F) (number : F) : NumericAgg F where
  count := entry.count + 1
  sum := f.add entry.sum number
  samples := if strategy = .median then entry.samples ++ [number] else entry.samples

end NumericAgg

namespace AiFillMissing

variable (p : AiFillMissing) (f : Floats F)

/-- The entry of a field after the numbers of a packet. -/
def observed (records : List Json) (s : Entries (NumericAgg F)) (field : String) : NumericAgg F :=
  (f.numbers records field).foldl (NumericAgg.observe f p.strategy) ((s field).getD (NumericAgg.init f))

def aggregate (entry : NumericAgg F) : F :=
  if p.strategy = .median then f.medianOf entry.samples else f.div entry.sum (f.ofCount entry.count)

/-- The loop over the fields with `cumulative`: the state and the aggregates. -/
def accumulate (records : List Json) : List String → Entries (NumericAgg F) → Entries F →
    Entries F × Entries (NumericAgg F)
  | [], s, stats => (stats, s)
  | field :: rest, s, stats =>
    let entry := p.observed f records s field
    accumulate records rest (Function.update s field (some entry))
      (if entry.count = 0 then stats else Function.update stats field (some (p.aggregate f entry)))

/-- The aggregates of the packet alone. -/
def batchStats (records : List Json) (field : String) : Option F :=
  let values := f.numbers records field
  if field ∈ p.fields ∧ values ≠ [] then
    some (if p.strategy = .median then f.medianOf values
      else f.div (values.foldl f.add f.zero) (f.ofCount values.length))
  else none

def statistical : Bool := p.strategy == .mean || p.strategy == .median

def fillField (stats : Entries F) (object : Json) (previous : Entries Json) (field : String) :
    Json × Entries Json :=
  if isMissing (object.get field) then
    let fill := match p.strategy with
      | .previous => previous field
      | .constant => p.constant
      | .mean | .median => (stats field).map f.jsonNumber
    (match fill with
      | some value => insertField field value object
      | none => object, previous)
  else (object, Function.update previous field (object.get field))

/-- The second pass. -/
def fill (stats : Entries F) : List Json → Entries Json → List Json
  | [], _ => []
  | record :: rest, previous =>
    let filled := p.fields.foldl (fun acc field => p.fillField f stats acc.1 acc.2 field) (record, previous)
    filled.1 :: fill stats rest filled.2

def work (records : List Json) (s : Entries (NumericAgg F)) : List Json × Entries (NumericAgg F) :=
  if p.statistical && p.cumulative then
    let r := p.accumulate f records p.fields s (fun _ => none)
    (p.fill f r.1 records (fun _ => none), r.2)
  else
    let stats := if p.statistical then p.batchStats f records else fun _ => none
    (p.fill f stats records (fun _ => none), s)

def execute (processorId : String) : DataPacket → Option FlowError → Entries (NumericAgg F) →
    Except FlowError (List Json) × Entries (NumericAgg F) := runWork processorId (p.work f)

end AiFillMissing

/-! ### Scales -/

inductive NormalizeMethod where
  | minMax
  | zScore
  deriving DecidableEq

structure AiNormalize where
  fields : List String
  method : NormalizeMethod
  cumulative : Bool
  fields_ne : fields ≠ []

structure FieldStats (F : Type) where
  count : ℕ
  sum : F
  sumSq : F
  min : F
  max : F

namespace FieldStats

variable (f : Floats F)

def init : FieldStats F := ⟨0, f.zero, f.zero, f.zero, f.zero⟩

def observe (s : FieldStats F) (value : F) : FieldStats F where
  count := s.count + 1
  sum := f.add s.sum value
  sumSq := f.add s.sumSq (f.mul value value)
  min := if s.count = 0 then value else f.min s.min value
  max := if s.count = 0 then value else f.max s.max value

def mean (s : FieldStats F) : F := if s.count = 0 then f.zero else f.div s.sum (f.ofCount s.count)

def stdDev (s : FieldStats F) : F :=
  if s.count < 2 then f.zero
  else f.sqrt (f.max (f.sub (f.div s.sumSq (f.ofCount s.count)) (f.mul (s.mean f) (s.mean f))) f.zero)

/-- The entry of the state after a batch, which has a number. -/
def merge (entry batch : FieldStats F) : FieldStats F where
  count := entry.count + batch.count
  sum := f.add entry.sum batch.sum
  sumSq := f.add entry.sumSq batch.sumSq
  min := if batch.count = 0 then entry.min
    else if entry.count = 0 then batch.min else f.min entry.min batch.min
  max := if batch.count = 0 then entry.max
    else if entry.count = 0 then batch.max else f.max entry.max batch.max

end FieldStats

namespace AiNormalize

variable (p : AiNormalize) (f : Floats F)

/-- The first pass: a field that is named twice is observed twice. -/
def batchStats (records : List Json) : List String → Entries (FieldStats F) → Entries (FieldStats F)
  | [], stats => stats
  | field :: rest, stats =>
    batchStats records rest (match f.numbers records field with
      | [] => stats
      | number :: numbers => Function.update stats field
          (some ((number :: numbers).foldl (FieldStats.observe f) ((stats field).getD (FieldStats.init f)))))

/-- The loop over the batch's entries, each of which touches its own. -/
def mergeAll (batch s : Entries (FieldStats F)) : Entries (FieldStats F) := fun field =>
  match batch field with
  | none => s field
  | some stats => some (((s field).getD (FieldStats.init f)).merge f stats)

def scale (stats : FieldStats F) (number : F) : F :=
  match p.method with
  | .minMax =>
    let span := f.sub stats.max stats.min
    if f.isZero span then f.zero else f.div (f.sub number stats.min) span
  | .zScore =>
    let std := stats.stdDev f
    if f.isZero std then f.zero else f.div (f.sub number (stats.mean f)) std

def scaleField (view : Entries (FieldStats F)) (object : Json) (field : String) : Json :=
  match (object.get field).bind f.asF64, view field with
  | some number, some stats => insertField field (f.jsonNumber (p.scale f stats number)) object
  | _, _ => object

def work (records : List Json) (s : Entries (FieldStats F)) : List Json × Entries (FieldStats F) :=
  let batch := batchStats f records p.fields (fun _ => none)
  let view := if p.cumulative then mergeAll f batch s else batch
  (records.map fun record => p.fields.foldl (p.scaleField f view) record,
    if p.cumulative then mergeAll f batch s else s)

def execute (processorId : String) : DataPacket → Option FlowError → Entries (FieldStats F) →
    Except FlowError (List Json) × Entries (FieldStats F) := runWork processorId (p.work f)

end AiNormalize

end Jaiba.AiPrep
