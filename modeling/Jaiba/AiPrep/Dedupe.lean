import Jaiba.AiPrep.Retry
import Jaiba.JsonText
import Jaiba.Lib.Recency

/-!
# Window of `ai_remove_duplicates`

The window forgets the key that entered first, and a key that is found does not
move.  The records that come out are those whose key is none of the keys used
last, as long as each key that is pushed out is also the one that was not used
for the longest time.
-/

namespace Jaiba.AiPrep
open Jaiba.Lib Jaiba.Lib.Recency

/-! ### Keys -/

/-- The values of the key fields; a field that is absent counts as `null`. -/
def keyTuple (fields : List String) (record : Json) : List Json :=
  fields.map fun field => (record.get field).getD .null

theorem fieldKey_eq (fields : List String) (record : Json) :
    fieldKey fields record = "\u001f".intercalate ((keyTuple fields record).map Json.render) := by
  rw [fieldKey, keyTuple, List.map_map]
  congr 1
  refine List.map_congr_left fun field _ => ?_
  show _ = Json.render ((record.get field).getD .null)
  cases record.get field <;> rfl

theorem valid_of_lookup {fields : List (String × Json)} (h : Json.ValidFields fields) {field : String}
    {v : Json} (hv : fields.lookup field = some v) : Json.Valid v := by
  induction fields with
  | nil => cases hv
  | cons e fields ih =>
    obtain ⟨k, w⟩ := e
    rw [List.lookup_cons] at hv
    split at hv
    · cases hv
      exact h.1
    · exact ih h.2 hv

theorem valid_keyTuple {record : Json} (h : Json.Valid record) (fields : List String) :
    ∀ v ∈ keyTuple fields record, Json.Valid v := by
  intro v hv
  obtain ⟨field, -, rfl⟩ := List.mem_map.mp hv
  cases hget : record.get field with
  | none => trivial
  | some w =>
    cases record with
    | object members => exact valid_of_lookup h hget
    | _ => cases hget

/-- Two records have one key exactly when their tuples are equal. -/
theorem fieldKey_inj {fields : List String} {r s : Json} (hr : Json.Valid r) (hs : Json.Valid s) :
    fieldKey fields r = fieldKey fields s ↔ keyTuple fields r = keyTuple fields s := by
  rw [fieldKey_eq, fieldKey_eq]
  refine ⟨fun h => ?_, fun h => by rw [h]⟩
  refine Json.intercalate_inj ?_ (valid_keyTuple hr fields) (valid_keyTuple hs fields) h
  rw [keyTuple, keyTuple, List.length_map, List.length_map]

/-! ### The window after some records -/

namespace Window

variable {capacity : ℕ} {key : Json → String}

theorem push_enter (window : Window capacity) (k : String) (h : k ∉ window.seen) :
    (window.push k h).order = enter capacity window.order k := by
  have hnew : k ∉ window.order := fun hk => h ((window.same k).mpr hk)
  rw [push_order, latest, enter, if_neg hnew, List.length_singleton]

theorem retain_order (records : List Json) (window : Window capacity) :
    (window.retain key records).2.order = (records.map key).foldl (enter capacity) window.order := by
  induction records generalizing window with
  | nil => rfl
  | cons record records ih =>
    rw [retain, List.map_cons, List.foldl_cons]
    split
    next hseen =>
      rw [ih, enter, if_pos ((window.same _).mp hseen)]
    next hseen =>
      show ((window.push (key record) hseen).retain key records).2.order = _
      rw [ih, push_enter]

end Window

/-! ### Runs -/

/-- The records of a packet that the processor works on. -/
def workedOn (packet : DataPacket) : List Json :=
  match packet.records with
  | .ok records => if records.all isObject then records else []
  | .error _ => []

def processed (calls : List (DataPacket × Option FlowError)) : List Json :=
  calls.flatMap fun call => workedOn call.1

theorem processed_append (calls calls' : List (DataPacket × Option FlowError)) :
    processed (calls ++ calls') = processed calls ++ processed calls' := List.flatMap_append

theorem processed_singleton (packet : DataPacket) (failure : Option FlowError) :
    processed [(packet, failure)] = workedOn packet := List.flatMap_singleton ..

namespace AiRemoveDuplicates

/-- The window after some packets; each may have failed behind the processor. -/
def after (p : AiRemoveDuplicates) (processorId : String)
    (calls : List (DataPacket × Option FlowError)) : p.State :=
  calls.foldl (fun s call => (p.execute processorId call.1 call.2 s).2) (Window.empty _)

section
variable {p : AiRemoveDuplicates} {n : ℕ} {processorId : String}
  {calls before : List (DataPacket × Option FlowError)}

theorem work_of_window (hwindow : p.window = some n) (records : List Json) (s : p.State) :
    p.work records s = Window.retain (fieldKey p.keyFields) records s := by
  unfold work
  split
  · rfl
  next hnone =>
    rw [hnone] at hwindow
    cases hwindow

theorem execute_order (hwindow : p.window = some n) (packet : DataPacket) (failure : Option FlowError)
    (s : p.State) : (p.execute processorId packet failure s).2.order =
      ((workedOn packet).map (fieldKey p.keyFields)).foldl (enter n) s.order := by
  obtain ⟨keyFields, window, hkeys, hpos⟩ := p
  cases hwindow
  unfold execute workedOn runWork DataPacket.records
  cases packet.content with
  | encoded mediaType bytes => rfl
  | records records =>
    dsimp only
    by_cases hobjects : records.all isObject = true
    · rw [requireObjects_ok.mpr (List.all_eq_true.mp hobjects), if_pos hobjects]
      cases failure with
      | some e =>
        dsimp only
        rw [work_of_window rfl, Window.retain_order]
        rfl
      | none =>
        dsimp only
        rw [work_of_window rfl, Window.retain_order]
        rfl
    · rw [if_neg hobjects]
      cases hcheck : requireObjects processorId 0 records with
      | error e => rfl
      | ok => exact absurd (List.all_eq_true.mpr (requireObjects_ok.mp hcheck)) hobjects

/-- The window has the keys of all the records in order of entry. -/
theorem after_order (hwindow : p.window = some n) (calls : List (DataPacket × Option FlowError)) :
    (p.after processorId calls).order = entered n ((processed calls).map (fieldKey p.keyFields)) := by
  induction calls using List.reverseRecOn with
  | nil => rfl
  | append_singleton calls call ih =>
    rw [after, List.foldl_concat, execute_order hwindow, processed_append, processed_singleton,
      List.map_append, entered, List.foldl_append]
    exact congrArg (List.foldl (enter n) · _) ih

end

end AiRemoveDuplicates

/-! ### The records that a window of keys used last lets through -/

section
open Classical

/-- What is emitted when a record passes exactly if its tuple is none of the `n`
tuples used last. -/
noncomputable def unused (n : ℕ) (fields : List String) (history : List Json) : List Json → List Json
  | [] => []
  | record :: rest =>
    if Recent n (history.map (keyTuple fields)) (keyTuple fields record) then
      unused n fields (history ++ [record]) rest
    else record :: unused n fields (history ++ [record]) rest

theorem recent_key_iff {n : ℕ} {fields : List String} {history : List Json} {record : Json}
    (hvalid : ∀ r ∈ record :: history, Json.Valid r) :
    Recent n (history.map (fieldKey fields)) (fieldKey fields record) ↔
      Recent n (history.map (keyTuple fields)) (keyTuple fields record) := by
  have hkeys : history.map (fieldKey fields) = (history.map (keyTuple fields)).map
      fun tuple => "\u001f".intercalate (tuple.map Json.render) := by
    rw [List.map_map]
    exact List.map_congr_left fun r _ => fieldKey_eq fields r
  rw [hkeys, fieldKey_eq]
  refine recent_map _ fun y hy z hz heq => ?_
  rw [← List.map_cons] at hy hz
  obtain ⟨r, hr, rfl⟩ := List.mem_map.mp hy
  obtain ⟨s, hs, rfl⟩ := List.mem_map.mp hz
  rw [← fieldKey_eq, ← fieldKey_eq] at heq
  exact (fieldKey_inj (hvalid r hr) (hvalid s hs)).mp heq

/-- While the window forgets what was not used for the longest time, it lets through
what is not among the keys used last. -/
theorem retain_unused {n : ℕ} (hn : 0 < n) {fields : List String} {history records : List Json}
    {window : Window n} (horder : window.order = entered n (history.map (fieldKey fields)))
    (horderly : Orderly n ((history ++ records).map (fieldKey fields)))
    (hvalid : ∀ r ∈ history ++ records, Json.Valid r) :
    (window.retain (fieldKey fields) records).1 = unused n fields history records := by
  induction records generalizing window history with
  | nil => rfl
  | cons record records ih =>
    have hagrees : Agrees n (history.map (fieldKey fields)) := by
      refine (agrees_iff hn _).mpr horderly _ ?_
      rw [List.map_append]
      exact List.prefix_append _ _
    have hrecords : ∀ r ∈ record :: history, Json.Valid r := by
      intro r hr
      rcases List.mem_cons.mp hr with rfl | hr
      · exact hvalid r (List.mem_append_right _ List.mem_cons_self)
      · exact hvalid r (List.mem_append_left _ hr)
    have hseen : fieldKey fields record ∈ window.seen ↔
        Recent n (history.map (keyTuple fields)) (keyTuple fields record) := by
      rw [window.same, horder, hagrees, recent_key_iff hrecords]
    have hnext : (history ++ [record]).map (fieldKey fields) =
        history.map (fieldKey fields) ++ [fieldKey fields record] := by
      rw [List.map_append, List.map_singleton]
    have hsplit : history ++ record :: records = (history ++ [record]) ++ records := by
      rw [List.append_assoc, List.singleton_append]
    rw [hsplit] at horderly hvalid
    rw [Window.retain, unused]
    by_cases hin : fieldKey fields record ∈ window.seen
    · rw [dif_pos hin, if_pos (hseen.mp hin)]
      refine ih ?_ horderly hvalid
      rw [hnext, entered_concat, ← horder, enter, if_pos ((window.same _).mp hin)]
    · rw [dif_neg hin, if_neg fun h => hin (hseen.mpr h)]
      refine congrArg (List.cons record) (ih ?_ horderly hvalid)
      rw [Window.push_enter, hnext, entered_concat, horder]

theorem retain_empty_order {n : ℕ} (fields : List String) (history : List Json) :
    ((Window.empty n).retain (fieldKey fields) history).2.order =
      entered n (history.map (fieldKey fields)) := Window.retain_order history _

/-- The window tells the tuples used last from the others, for every record that may
come, throughout a history that is orderly, and in no other one. -/
theorem seen_iff_orderly {n : ℕ} (hn : 0 < n) {fields : List String} {records : List Json}
    (hvalid : ∀ r ∈ records, Json.Valid r) :
    (∀ history, history <+: records → ∀ next, Json.Valid next →
      (fieldKey fields next ∈ ((Window.empty n).retain (fieldKey fields) history).2.seen ↔
        Recent n (history.map (keyTuple fields)) (keyTuple fields next))) ↔
      Orderly n (records.map (fieldKey fields)) := by
  rw [← agrees_iff hn]
  constructor
  · intro h before hbefore
    obtain ⟨history, hhistory, rfl⟩ := List.prefix_map_iff.mp hbefore
    have hknown : ∀ x ∈ history.map (fieldKey fields),
        (x ∈ entered n (history.map (fieldKey fields)) ↔
          Recent n (history.map (fieldKey fields)) x) := by
      intro x hx
      obtain ⟨r, hr, rfl⟩ := List.mem_map.mp hx
      have hrecords : ∀ s ∈ r :: history, Json.Valid s := by
        intro s hs
        rcases List.mem_cons.mp hs with rfl | hs
        · exact hvalid s (hhistory.subset hr)
        · exact hvalid s (hhistory.subset hs)
      rw [recent_key_iff hrecords, ← h history hhistory r (hvalid r (hhistory.subset hr)), Window.same,
        retain_empty_order]
    intro x
    refine ⟨fun hx => (hknown x (mem_history_of_entered hx)).mp hx, fun hx => (hknown x hx.1).mpr hx⟩
  · intro h history hhistory next hnext
    have hrecords : ∀ s ∈ next :: history, Json.Valid s := by
      intro s hs
      rcases List.mem_cons.mp hs with rfl | hs
      · exact hnext
      · exact hvalid s (hhistory.subset hs)
    rw [Window.same, retain_empty_order, h _ (hhistory.map _), recent_key_iff hrecords]

/-- Records with one field, in a packet. -/
def sampleRecord (id : String) : Json := .object [("id", .string id)]

def samplePacket (ids : List String) : DataPacket :=
  ⟨"p-1", [], .records (ids.map sampleRecord), none, 0⟩

theorem sampleFields_ne : ["id"] ≠ [] := List.cons_ne_nil _ _

def sampleDedupe : AiRemoveDuplicates where
  keyFields := ["id"]
  window := some 2
  keyFields_ne := sampleFields_ne
  window_pos n h := by
    cases h
    decide

theorem valid_sampleRecord (id : String) : Json.Valid (sampleRecord id) := ⟨trivial, trivial⟩

end

end Jaiba.AiPrep
