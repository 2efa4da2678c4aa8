import Jaiba.AiPrep.Stateful

/-!
# Retries of stateful processors

A failed attempt leaves its state behind, and the retry starts from it. It is as
a single attempt exactly when the work, done again on the same records, changes
nothing and emits the same.
-/

namespace Jaiba.AiPrep
open Jaiba.Lib

/-! ### Attempts of one packet -/

/-- The packet and the state after failed attempts, as `execute_with_retry` makes them. -/
def afterFailures {σ : Type}
    (execute : DataPacket → Option FlowError → σ → Except FlowError (List Json) × σ) :
    List FlowError → DataPacket → σ → DataPacket × σ
  | [], packet, s => (packet, s)
  | e :: rest, packet, s =>
    afterFailures execute rest { packet with attempt := packet.attempt + 1 } (execute packet (some e) s).2

/-- Whatever attempts failed before, an attempt that succeeds emits what a first one would have
emitted, and leaves the same state. -/
def RetryTransparent {σ : Type}
    (execute : DataPacket → Option FlowError → σ → Except FlowError (List Json) × σ)
    (packet : DataPacket) (s : σ) : Prop :=
  ∀ failures emitted,
    (execute (afterFailures execute failures packet s).1 none
      (afterFailures execute failures packet s).2).1 = .ok emitted →
    execute (afterFailures execute failures packet s).1 none
      (afterFailures execute failures packet s).2 = execute packet none s

section attempts
variable {σ : Type} {processorId : String} {work : List Json → σ → List Json × σ} {packet : DataPacket}

theorem runWork_failed {records : List Json} (hcontent : packet.content = .records records)
    (hobjects : ∀ record ∈ records, isObject record = true) (e : FlowError) (s : σ) :
    runWork processorId work packet (some e) s = (.error e, (work records s).2) := by
  unfold runWork DataPacket.records
  rw [hcontent]
  dsimp only
  rw [requireObjects_ok.mpr hobjects]

theorem runWork_done {records : List Json} (hcontent : packet.content = .records records)
    (hobjects : ∀ record ∈ records, isObject record = true) (s : σ) :
    runWork processorId work packet none s = (.ok (work records s).1, (work records s).2) := by
  unfold runWork DataPacket.records
  rw [hcontent]
  dsimp only
  rw [requireObjects_ok.mpr hobjects]

/-- A packet without records that are objects never succeeds. -/
theorem runWork_ok_content {failure : Option FlowError} {s : σ} {emitted : List Json}
    (h : (runWork processorId work packet failure s).1 = .ok emitted) :
    ∃ records, packet.content = .records records ∧ ∀ record ∈ records, isObject record = true := by
  unfold runWork DataPacket.records at h
  cases hcontent : packet.content with
  | encoded mediaType bytes =>
    rw [hcontent] at h
    cases h
  | records records =>
    rw [hcontent] at h
    dsimp only at h
    cases hobjects : requireObjects processorId 0 records with
    | error e =>
      rw [hobjects] at h
      cases h
    | ok => exact ⟨records, rfl, requireObjects_ok.mp hobjects⟩

theorem afterFailures_content (failures : List FlowError) (s : σ) :
    (afterFailures (runWork processorId work) failures packet s).1.content = packet.content := by
  induction failures generalizing packet s with
  | nil => rfl
  | cons e failures ih =>
    rw [afterFailures]
    exact ih _

/-- Once the work changes nothing, neither do more failures. -/
theorem afterFailures_settled {records : List Json} (hcontent : packet.content = .records records)
    (hobjects : ∀ record ∈ records, isObject record = true) {s : σ}
    (hsettled : (work records s).2 = s) (failures : List FlowError) :
    (afterFailures (runWork processorId work) failures packet s).2 = s := by
  induction failures generalizing packet with
  | nil => rfl
  | cons e failures ih =>
    rw [afterFailures, runWork_failed hcontent hobjects, hsettled]
    exact @ih { packet with attempt := packet.attempt + 1 } hcontent

/-- The retry of a packet is transparent exactly when its work is idempotent on the state. -/
theorem retryTransparent_iff (s : σ) : RetryTransparent (runWork processorId work) packet s ↔
    ∀ records, packet.content = .records records → (∀ record ∈ records, isObject record = true) →
      work records (work records s).2 = work records s := by
  constructor
  · intro h records hcontent hobjects
    have hretried : afterFailures (runWork processorId work) [.channelClosed] packet s =
        ({ packet with attempt := packet.attempt + 1 }, (work records s).2) := by
      rw [afterFailures, runWork_failed hcontent hobjects]
      rfl
    have hsecond : runWork processorId work { packet with attempt := packet.attempt + 1 } none
        (work records s).2 = (.ok (work records (work records s).2).1, (work records (work records s).2).2) :=
      runWork_done hcontent hobjects _
    have hsame := h [.channelClosed] (work records (work records s).2).1
    rw [hretried] at hsame
    dsimp only at hsame
    rw [hsecond, runWork_done hcontent hobjects] at hsame
    obtain ⟨hemitted, hstate⟩ := Prod.mk.inj (hsame rfl)
    exact Prod.ext (Except.ok.inj hemitted) hstate
  · intro h failures emitted hemitted
    obtain ⟨records, hcontent', hobjects⟩ := runWork_ok_content hemitted
    have hcontent : packet.content = .records records := by
      rw [← hcontent', afterFailures_content]
    rw [runWork_done hcontent' hobjects, runWork_done hcontent hobjects]
    cases failures with
    | nil => rfl
    | cons e failures =>
      have hidempotent := h records hcontent hobjects
      have hsettled := @afterFailures_settled _ processorId work
        { packet with attempt := packet.attempt + 1 } records hcontent hobjects (work records s).2
        (congrArg Prod.snd hidempotent) failures
      rw [afterFailures, runWork_failed hcontent hobjects]
      dsimp only
      rw [hsettled, hidempotent]

end attempts

/-! ### The window of keys -/

/-- The last keys of an order that new ones follow. -/
def latest (capacity : ℕ) (order new : List String) : List String :=
  (order ++ new).drop (order.length + new.length - capacity)

/-- The keys that are new to a window, each having entered it when the next is looked at. -/
def fresh (capacity : ℕ) : List String → List String → List String
  | _, [] => []
  | order, key :: keys =>
    if key ∈ order then fresh capacity order keys
    else key :: fresh capacity (latest capacity order [key]) keys

theorem latest_latest (capacity : ℕ) (order a b : List String) :
    latest capacity (latest capacity order a) b = latest capacity order (a ++ b) := by
  have hle : order.length + a.length - capacity ≤ (order ++ a).length := by
    rw [List.length_append]
    omega
  unfold latest
  rw [← List.drop_append_of_le_length hle, List.drop_drop, List.append_assoc, List.length_drop,
    List.length_append, List.length_append]
  congr 1
  omega

theorem latest_nil {capacity : ℕ} {order : List String} (h : order.length ≤ capacity) :
    latest capacity order [] = order := by
  have hzero : order.length + ([] : List String).length - capacity = 0 := by
    rw [List.length_nil]
    omega
  rw [latest, hzero, List.append_nil, List.drop_zero]

/-- New keys enough to fill the window are all that is left of it. -/
theorem latest_full {capacity : ℕ} {new : List String} (h : capacity ≤ new.length) (order : List String) :
    latest capacity order new = new.drop (new.length - capacity) := by
  have hcount : order.length + new.length - capacity = order.length + (new.length - capacity) := by
    omega
  rw [latest, hcount, List.drop_append, List.drop_eq_nil_of_le (by omega), List.nil_append]
  congr 1
  omega

/-- Fewer stay in it. -/
theorem mem_latest {capacity : ℕ} {order new : List String} (h : new.length ≤ capacity) {key : String}
    (hkey : key ∈ new) : key ∈ latest capacity order new := by
  rw [latest, List.drop_append_of_le_length (by omega)]
  exact List.mem_append_right _ hkey

/-- The first new key was not in the window. -/
theorem fresh_head {capacity : ℕ} {order keys : List String} {key : String} {rest : List String}
    (h : fresh capacity order keys = key :: rest) : key ∉ order := by
  induction keys with
  | nil => cases h
  | cons first keys ih =>
    rw [fresh] at h
    split at h
    · exact ih h
    next hnew =>
      cases h
      exact hnew

/-- A window whose new keys are still new once it has them is left as it was. -/
theorem latest_settled {capacity : ℕ} {order keys : List String} (horder : order.length ≤ capacity)
    (h : fresh capacity (latest capacity order (fresh capacity order keys)) keys = fresh capacity order keys) :
    latest capacity (latest capacity order (fresh capacity order keys)) (fresh capacity order keys) =
      latest capacity order (fresh capacity order keys) := by
  generalize hnew : fresh capacity order keys = new at h ⊢
  by_cases hfull : capacity ≤ new.length
  · rw [latest_full hfull, latest_full hfull]
  · cases new with
    | nil => rw [latest_nil horder, latest_nil horder]
    | cons first rest =>
      refine absurd (mem_latest (by omega) List.mem_cons_self) (fresh_head h)

namespace Window

variable {capacity : ℕ} {key : Json → String}

theorem ext_order {a b : Window capacity} (h : a.order = b.order) : a = b := by
  obtain ⟨seen, order, hsame, _, _⟩ := a
  obtain ⟨seen', order', hsame', _, _⟩ := b
  cases h
  have hseen : seen = seen' := Finset.ext fun k => (hsame k).trans (hsame' k).symm
  cases hseen
  rfl

theorem push_order (window : Window capacity) (k : String) (h : k ∉ window.seen) :
    (window.push k h).order = latest capacity window.order [k] := by
  refine (expire_order capacity _ _).trans ?_
  rw [latest, List.length_append]

/-- What is kept has the fresh keys, and they are the last to have entered the window. -/
theorem retain_fresh (records : List Json) (window : Window capacity) :
    (window.retain key records).1.map key = fresh capacity window.order (records.map key) ∧
      (window.retain key records).2.order =
        latest capacity window.order (fresh capacity window.order (records.map key)) := by
  induction records generalizing window with
  | nil => exact ⟨rfl, (latest_nil window.bounded).symm⟩
  | cons record records ih =>
    rw [retain, List.map_cons, fresh]
    by_cases hseen : key record ∈ window.seen
    · rw [dif_pos hseen, if_pos ((window.same _).mp hseen)]
      exact ih window
    · have hnew : key record ∉ window.order := fun h => hseen ((window.same _).mpr h)
      rw [dif_neg hseen, if_neg hnew]
      obtain ⟨hkeys, horder⟩ := ih (window.push (key record) hseen)
      rw [push_order] at hkeys horder
      refine ⟨?_, ?_⟩
      · rw [List.map_cons, hkeys]
      · rw [horder, latest_latest]
        rfl

/-- Windows to which the same keys are new keep the same records: between two new keys nothing
enters a window. -/
theorem retain_congr {records : List Json} {a b : Window capacity}
    (h : fresh capacity a.order (records.map key) = fresh capacity b.order (records.map key)) :
    (a.retain key records).1 = (b.retain key records).1 := by
  induction records generalizing a b with
  | nil => rfl
  | cons record records ih =>
    rw [List.map_cons, fresh, fresh] at h
    rw [retain, retain]
    by_cases ha : key record ∈ a.seen
    · have ha' := (a.same _).mp ha
      rw [if_pos ha'] at h
      by_cases hb : key record ∈ b.seen
      · rw [if_pos ((b.same _).mp hb)] at h
        rw [dif_pos ha, dif_pos hb]
        exact ih h
      · rw [if_neg fun hmem => hb ((b.same _).mpr hmem)] at h
        exact absurd ha' (fresh_head h)
    · rw [if_neg fun hmem => ha ((a.same _).mpr hmem)] at h
      by_cases hb : key record ∈ b.seen
      · have hb' := (b.same _).mp hb
        rw [if_pos hb'] at h
        exact absurd hb' (fresh_head h.symm)
      · rw [if_neg fun hmem => hb ((b.same _).mpr hmem)] at h
        rw [dif_neg ha, dif_neg hb]
        have hrest := (List.cons.inj h).2
        rw [← push_order a (key record) ha, ← push_order b (key record) hb] at hrest
        exact congrArg (List.cons record) (ih hrest)

/-- Deduplicating the same records again changes nothing exactly when their new keys are
still new to the window that has them. -/
theorem retain_again_iff {records : List Json} {window : Window capacity} :
    (window.retain key records).2.retain key records = window.retain key records ↔
      fresh capacity (latest capacity window.order (fresh capacity window.order (records.map key)))
        (records.map key) = fresh capacity window.order (records.map key) := by
  obtain ⟨hkeys, horder⟩ := @retain_fresh _ key records window
  obtain ⟨hkeys', horder'⟩ := @retain_fresh _ key records (window.retain key records).2
  constructor
  · intro h
    rw [← horder, ← hkeys', h, hkeys]
  · intro h
    refine Prod.ext (retain_congr ?_) (ext_order ?_)
    · rw [horder, h]
    · rw [horder', horder, h]
      exact latest_settled window.bounded h

end Window

/-! ### Counts of what was seen -/

section counts
variable {F : Type} {f : Floats F} {records : List Json}

/-- No record has a number in one of the fields. -/
def NoNumbers (f : Floats F) (fields : List String) (records : List Json) : Prop :=
  ∀ field ∈ fields, f.numbers records field = []

theorem exists_number_of_not {fields : List String} (h : ¬ NoNumbers f fields records) :
    ∃ field ∈ fields, 0 < (f.numbers records field).length := by
  by_contra hno
  refine h fun field hfield => ?_
  by_contra hne
  exact hno ⟨field, hfield, List.length_pos_iff.mpr hne⟩

theorem observe_count (strategy : FillStrategy) (numbers : List F) (entry : NumericAgg F) :
    (numbers.foldl (NumericAgg.observe f strategy) entry).count = entry.count + numbers.length := by
  induction numbers generalizing entry with
  | nil => rfl
  | cons number numbers ih =>
    have hone : (NumericAgg.observe f strategy entry number).count = entry.count + 1 := rfl
    rw [List.foldl_cons, ih, List.length_cons, hone]
    omega

theorem observe_stats_count (numbers : List F) (stats : FieldStats F) :
    (numbers.foldl (FieldStats.observe f) stats).count = stats.count + numbers.length := by
  induction numbers generalizing stats with
  | nil => rfl
  | cons number numbers ih =>
    have hone : (FieldStats.observe f stats number).count = stats.count + 1 := rfl
    rw [List.foldl_cons, ih, List.length_cons, hone]
    omega

namespace AiFillMissing

variable {p : AiFillMissing}

/-- The entry of a field, or the one it begins with. -/
def entryOf (f : Floats F) (s : Entries (NumericAgg F)) (field : String) : NumericAgg F :=
  (s field).getD (NumericAgg.init f)

theorem entryOf_update (s : Entries (NumericAgg F)) (field other : String) (entry : NumericAgg F) :
    entryOf f (Function.update s field (some entry)) other =
      if other = field then entry else entryOf f s other := by
  unfold entryOf
  by_cases h : other = field
  · rw [if_pos h, h, Function.update_self]
    rfl
  · rw [if_neg h, Function.update_of_ne h]

/-- The numbers of a field are added to its count. -/
theorem accumulate_count (fields : List String) (s : Entries (NumericAgg F)) (stats : Entries F)
    (field : String) :
    (entryOf f s field).count + (if field ∈ fields then (f.numbers records field).length else 0) ≤
      (entryOf f (p.accumulate f records fields s stats).2 field).count := by
  induction fields generalizing s stats with
  | nil => exact Nat.le_refl _
  | cons first fields ih =>
    rw [accumulate]
    refine Nat.le_trans ?_ (ih _ _)
    rw [entryOf_update]
    have hcount : (p.observed f records s first).count =
        (entryOf f s first).count + (f.numbers records first).length := observe_count _ _ _
    by_cases h : field = first
    · rw [if_pos h, if_pos (h ▸ List.mem_cons_self), hcount, h]
      omega
    · rw [if_neg h]
      by_cases hmem : field ∈ fields
      · rw [if_pos hmem, if_pos (List.mem_cons_of_mem _ hmem)]
      · rw [if_neg hmem, if_neg fun hcons => hmem ((List.mem_cons.mp hcons).resolve_left h)]

/-- Without numbers the fields only get their entries. -/
theorem accumulate_quiet {fields : List String} (h : NoNumbers f fields records)
    (s : Entries (NumericAgg F)) (stats : Entries F) :
    p.accumulate f records fields s stats =
      (fun k => if k ∈ fields ∧ (entryOf f s k).count ≠ 0 then some (p.aggregate f (entryOf f s k))
          else stats k,
        fun k => if k ∈ fields then some (entryOf f s k) else s k) := by
  induction fields generalizing s stats with
  | nil =>
    refine Prod.ext (funext fun k => ?_) (funext fun k => ?_)
    · simp only [accumulate, List.not_mem_nil, false_and, if_false]
    · simp only [accumulate, List.not_mem_nil, if_false]
  | cons first fields ih =>
    have hentry : p.observed f records s first = entryOf f s first := by
      rw [observed, h first List.mem_cons_self]
      rfl
    have hsame : ∀ k, entryOf f (Function.update s first (some (entryOf f s first))) k = entryOf f s k := by
      intro k
      rw [entryOf_update]
      split
      next hk => rw [hk]
      · rfl
    rw [accumulate, hentry, ih fun field hfield => h field (List.mem_cons_of_mem _ hfield)]
    refine Prod.ext (funext fun k => ?_) (funext fun k => ?_)
    · simp only [hsame]
      by_cases hk : k = first
      · subst hk
        by_cases hcount : (entryOf f s k).count = 0
        · simp only [hcount, ne_eq, not_true_eq_false, and_false, if_false, if_true]
        · simp only [hcount, ne_eq, not_false_eq_true, and_true, if_false, List.mem_cons_self, if_true,
            Function.update_self, ite_self]
      · by_cases hcount : (entryOf f s first).count = 0
        · simp only [hcount, if_true, List.mem_cons, hk, false_or]
        · simp only [hcount, if_false, List.mem_cons, hk, false_or, Function.update_of_ne hk]
    · simp only [hsame]
      by_cases hk : k = first
      · subst hk
        simp only [Function.update_self, ite_self, List.mem_cons_self, if_true]
      · simp only [List.mem_cons, hk, false_or, Function.update_of_ne hk]

theorem work_cumulative (h : (p.statistical && p.cumulative) = true) (s : Entries (NumericAgg F)) :
    p.work f records s = (p.fill f (p.accumulate f records p.fields s fun _ => none).1 records (fun _ => none),
      (p.accumulate f records p.fields s fun _ => none).2) := by
  rw [work, if_pos h]

theorem work_stateless (h : ¬ (p.statistical && p.cumulative) = true) (s : Entries (NumericAgg F)) :
    (p.work f records s).2 = s := by
  rw [work, if_neg h]

theorem accumulate_again (h : NoNumbers f p.fields records) (s : Entries (NumericAgg F)) :
    p.accumulate f records p.fields (p.accumulate f records p.fields s fun _ => none).2 (fun _ => none) =
      p.accumulate f records p.fields s fun _ => none := by
  have hsame : ∀ k, entryOf f (p.accumulate f records p.fields s fun _ => none).2 k = entryOf f s k := by
    intro k
    rw [accumulate_quiet h]
    unfold entryOf
    dsimp only
    split <;> rfl
  rw [accumulate_quiet h (p.accumulate f records p.fields s fun _ => none).2]
  simp only [hsame]
  rw [accumulate_quiet h s]
  refine Prod.ext rfl (funext fun k => ?_)
  dsimp only
  split <;> rfl

/-- Accumulating again changes nothing exactly when there is nothing to accumulate. -/
theorem work_again_iff (s : Entries (NumericAgg F)) :
    p.work f records (p.work f records s).2 = p.work f records s ↔
      (p.statistical = true → p.cumulative = true → NoNumbers f p.fields records) := by
  by_cases hmode : (p.statistical && p.cumulative) = true
  · rw [work_cumulative hmode, work_cumulative hmode]
    dsimp only
    rw [Bool.and_eq_true] at hmode
    constructor
    · intro hagain _ _
      by_contra hnumbers
      obtain ⟨field, hfield, hpos⟩ := exists_number_of_not hnumbers
      have hmore := @accumulate_count _ f records p p.fields
        (p.accumulate f records p.fields s fun _ => none).2 (fun _ => none) field
      rw [if_pos hfield] at hmore
      have hstate := congrArg Prod.snd hagain
      dsimp only at hstate
      rw [hstate] at hmore
      omega
    · intro hquiet
      rw [accumulate_again (hquiet hmode.1 hmode.2)]
  · rw [work_stateless hmode]
    refine ⟨fun _ hstatistical hcumulative => ?_, fun _ => rfl⟩
    refine absurd ?_ hmode
    rw [hstatistical, hcumulative]
    rfl

end AiFillMissing

namespace AiNormalize

variable {p : AiNormalize}

def countOf (s : Entries (FieldStats F)) (field : String) : ℕ :=
  match s field with
  | some stats => stats.count
  | none => 0

/-- A field with numbers gets an entry. -/
theorem batchStats_count (fields : List String) (stats : Entries (FieldStats F)) (field : String) :
    countOf stats field ≤ countOf (batchStats f records fields stats) field ∧
      (field ∈ fields → (f.numbers records field).length ≤
        countOf (batchStats f records fields stats) field) := by
  induction fields generalizing stats with
  | nil => exact ⟨Nat.le_refl _, fun h => absurd h List.not_mem_nil⟩
  | cons first fields ih =>
    rw [batchStats]
    cases hnumbers : f.numbers records first with
    | nil =>
      obtain ⟨hle, hmem⟩ := ih stats
      refine ⟨hle, fun h => ?_⟩
      rcases List.mem_cons.mp h with rfl | h
      · rw [hnumbers]
        exact Nat.zero_le _
      · exact hmem h
    | cons number numbers =>
      dsimp only
      obtain ⟨hle, hmem⟩ := ih (Function.update stats first (some ((number :: numbers).foldl
        (FieldStats.observe f) ((stats first).getD (FieldStats.init f)))))
      have hcount : ((number :: numbers).foldl (FieldStats.observe f)
          ((stats first).getD (FieldStats.init f))).count = countOf stats first + (number :: numbers).length := by
        rw [observe_stats_count, countOf]
        cases stats first with
        | none => rfl
        | some entry => rfl
      refine ⟨?_, fun h => ?_⟩
      · by_cases hfield : field = first
        · subst hfield
          refine Nat.le_trans ?_ hle
          rw [countOf, countOf, Function.update_self]
          dsimp only
          rw [hcount]
          exact Nat.le_add_right _ _
        · rw [countOf, Function.update_of_ne hfield] at hle
          exact hle
      · rcases List.mem_cons.mp h with rfl | h
        · refine Nat.le_trans ?_ hle
          rw [countOf, Function.update_self]
          dsimp only
          rw [hcount, hnumbers]
          exact Nat.le_add_left _ _
        · exact hmem h

theorem batchStats_quiet {fields : List String} (h : NoNumbers f fields records)
    (stats : Entries (FieldStats F)) : batchStats f records fields stats = stats := by
  induction fields with
  | nil => rfl
  | cons first fields ih =>
    rw [batchStats, h first List.mem_cons_self]
    exact ih fun field hfield => h field (List.mem_cons_of_mem _ hfield)

theorem mergeAll_count (batch s : Entries (FieldStats F)) (field : String) :
    countOf (mergeAll f batch s) field = countOf s field + countOf batch field := by
  unfold countOf mergeAll
  cases batch field with
  | none => rfl
  | some stats =>
    cases s field with
    | none => rfl
    | some entry => rfl

theorem work_cumulative (h : p.cumulative = true) (s : Entries (FieldStats F)) :
    p.work f records s =
      (records.map fun record => p.fields.foldl (p.scaleField f
          (mergeAll f (batchStats f records p.fields fun _ => none) s)) record,
        mergeAll f (batchStats f records p.fields fun _ => none) s) := by
  simp only [work, h, if_true]

theorem work_stateless (h : ¬ p.cumulative = true) (s : Entries (FieldStats F)) :
    (p.work f records s).2 = s := if_neg h

/-- Merging again changes nothing exactly when the packet has no number to merge. -/
theorem work_again_iff (s : Entries (FieldStats F)) :
    p.work f records (p.work f records s).2 = p.work f records s ↔
      (p.cumulative = true → NoNumbers f p.fields records) := by
  by_cases hcumulative : p.cumulative = true
  · rw [work_cumulative hcumulative, work_cumulative hcumulative]
    dsimp only
    constructor
    · intro hagain _
      by_contra hnumbers
      obtain ⟨field, hfield, hpos⟩ := exists_number_of_not hnumbers
      have hcount := (@batchStats_count _ f records p.fields (fun _ => none) field).2 hfield
      have hstate := congrArg (fun r => countOf r.2 field) hagain
      dsimp only at hstate
      rw [mergeAll_count, mergeAll_count] at hstate
      omega
    · intro hquiet
      rw [batchStats_quiet (hquiet hcumulative)]
      rfl
  · rw [work_stateless hcumulative]
    exact ⟨fun _ h => absurd h hcumulative, fun _ => rfl⟩

end AiNormalize

end counts

namespace AiRemoveDuplicates

/-- The new keys of the records are as new to the window that has them. -/
def Unchanged (p : AiRemoveDuplicates) (records : List Json) (s : p.State) : Prop :=
  ∀ n, p.window = some n →
    fresh n (latest n s.order (fresh n s.order (records.map (fieldKey p.keyFields))))
      (records.map (fieldKey p.keyFields)) = fresh n s.order (records.map (fieldKey p.keyFields))

theorem work_again_iff (p : AiRemoveDuplicates) (records : List Json) (s : p.State) :
    p.work records (p.work records s).2 = p.work records s ↔ p.Unchanged records s := by
  obtain ⟨keyFields, window, hkeys, hwindow⟩ := p
  cases window with
  | none =>
    refine ⟨fun _ n h => ?_, fun _ => rfl⟩
    cases h
  | some n =>
    refine Window.retain_again_iff.trans ⟨fun h m hm => ?_, fun h => h n rfl⟩
    cases hm
    exact h

end AiRemoveDuplicates

/-- The retry of a packet is as its only attempt exactly when the failed one had nothing to
remember: no key that the window then knows, no number that was added. -/
theorem retry_transparent_iff {F : Type} (f : Floats F) (processorId : String)
    (duplicates : AiRemoveDuplicates) (missing : AiFillMissing) (normalize : AiNormalize) (packet : DataPacket)
    (window : duplicates.State) (aggregates : Entries (NumericAgg F)) (stats : Entries (FieldStats F)) :
    (RetryTransparent (duplicates.execute processorId) packet window ↔
        ∀ records, packet.content = .records records → (∀ record ∈ records, isObject record = true) →
          duplicates.Unchanged records window) ∧
      (RetryTransparent (missing.execute f processorId) packet aggregates ↔
        ∀ records, packet.content = .records records → (∀ record ∈ records, isObject record = true) →
          missing.statistical = true → missing.cumulative = true → NoNumbers f missing.fields records) ∧
      (RetryTransparent (normalize.execute f processorId) packet stats ↔
        ∀ records, packet.content = .records records → (∀ record ∈ records, isObject record = true) →
          normalize.cumulative = true → NoNumbers f normalize.fields records) := by
  refine ⟨?_, ?_, ?_⟩
  · refine (retryTransparent_iff window).trans ?_
    refine forall_congr' fun records => forall_congr' fun _ => forall_congr' fun _ => ?_
    exact duplicates.work_again_iff records window
  · refine (retryTransparent_iff aggregates).trans ?_
    refine forall_congr' fun records => forall_congr' fun _ => forall_congr' fun _ => ?_
    exact AiFillMissing.work_again_iff aggregates
  · refine (retryTransparent_iff stats).trans ?_
    refine forall_congr' fun records => forall_congr' fun _ => forall_congr' fun _ => ?_
    exact AiNormalize.work_again_iff stats

/-! ### Large windows -/

theorem fresh_eq_nil_iff {capacity : ℕ} {order keys : List String} :
    fresh capacity order keys = [] ↔ ∀ key ∈ keys, key ∈ order := by
  induction keys with
  | nil =>
    refine ⟨fun _ key h => ?_, fun _ => rfl⟩
    cases h
  | cons key keys ih =>
    rw [fresh, List.forall_mem_cons, ← ih]
    split
    next h => exact ⟨fun hrest => ⟨h, hrest⟩, fun hall => hall.2⟩
    next h =>
      refine ⟨fun hcons => ?_, fun hall => absurd hall.1 h⟩
      cases hcons

theorem fresh_length (capacity : ℕ) (order keys : List String) :
    (fresh capacity order keys).length ≤ keys.length := by
  induction keys generalizing order with
  | nil => exact Nat.le_refl _
  | cons key keys ih =>
    rw [fresh]
    split
    · exact Nat.le_succ_of_le (ih order)
    · exact Nat.succ_le_succ (ih _)

/-- In a window that holds all keys of a packet, the retry is as the first attempt exactly when
it held them before. -/
theorem unchanged_iff_known {p : AiRemoveDuplicates} {records : List Json} {s : p.State} {n : ℕ}
    (hwindow : p.window = some n) (hlarge : records.length ≤ n) :
    p.Unchanged records s ↔ ∀ record ∈ records, fieldKey p.keyFields record ∈ s.order := by
  have hcapacity : p.window.getD 0 = n := by
    rw [hwindow]
    rfl
  have hbounded : s.order.length ≤ n := s.bounded.trans (Nat.le_of_eq hcapacity)
  have hknown : (∀ record ∈ records, fieldKey p.keyFields record ∈ s.order) ↔
      fresh n s.order (records.map (fieldKey p.keyFields)) = [] := by
    rw [fresh_eq_nil_iff, List.forall_mem_map]
  rw [hknown]
  constructor
  · intro h
    have hagain := h n hwindow
    cases hnew : fresh n s.order (records.map (fieldKey p.keyFields)) with
    | nil => rfl
    | cons first rest =>
      have hlength := fresh_length n s.order (records.map (fieldKey p.keyFields))
      rw [hnew] at hagain hlength
      rw [List.length_map] at hlength
      exact absurd (mem_latest (hlength.trans hlarge) List.mem_cons_self) (fresh_head hagain)
  · intro hnone m hm
    rw [hwindow] at hm
    cases hm
    rw [hnone, latest_nil hbounded, hnone]

def byId : AiRemoveDuplicates where
  keyFields := ["id"]
  window := some 10
  keyFields_ne := List.cons_ne_nil _ _
  window_pos := by
    intro n h
    cases h
    decide

def newRecord : Json := .object [("id", .number (.posInt 1))]

/-- A record that no one has seen is dropped when its first attempt could not be emitted. -/
theorem retry_drops_new_record :
    ¬ ∀ (processorId : String) (duplicates : AiRemoveDuplicates) (packet : DataPacket)
      (window : duplicates.State), RetryTransparent (duplicates.execute processorId) packet window := by
  intro hclaim
  have hunchanged : byId.Unchanged [newRecord] (Window.empty 10) :=
    (byId.work_again_iff [newRecord] (Window.empty 10)).mp
      ((retryTransparent_iff (Window.empty 10)).mp
        (hclaim "dedupe" byId ⟨"p", [], .records [newRecord], none, 1⟩ (Window.empty 10))
        [newRecord] rfl (fun record h => (by rw [List.mem_singleton.mp h]; rfl)))
  have hknown := (unchanged_iff_known rfl (by decide)).mp hunchanged newRecord List.mem_cons_self
  exact List.not_mem_nil hknown

end Jaiba.AiPrep
