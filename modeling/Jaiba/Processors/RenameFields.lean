import Jaiba.AiPrep.ComputeFields
import Jaiba.Error
import Jaiba.Lib.Moves
import Jaiba.Packet

/-!
# Renamed fields (`processors/rename_fields.rs`)

The renames of a `HashMap` are made one after another on the record itself, in
the order in which the map gives them.
-/

namespace Jaiba.Processors
open Jaiba.Lib
open Jaiba.AiPrep (Record)

/-- `fields` as the entries of the map. -/
structure RenameFields where
  fields : List (String × String)
  nodup : (fields.map Prod.fst).Nodup

namespace RenameFields

variable (p : RenameFields)

/-- The loop over the fields of one record. -/
def renameFields : List (String × String) → List (String × Json) → List (String × Json)
  | [], object => object
  | (oldName, newName) :: rest, object =>
    match object.lookup oldName with
    | some value =>
      renameFields rest (OrderedDict.insertEntry newName value (object.filter fun field => field.1 != oldName))
    | none => renameFields rest object

/-- The loop over the records: the first that is not an object ends it. -/
def renameRecords (order : List (String × String)) : List Json → Except String (List Json)
  | [] => .ok []
  | .object object :: records => do
    let renamed ← renameRecords order records
    .ok (.object (renameFields order object) :: renamed)
  | _ :: _ => .error "rename_fields expects JSON objects"

/-- The packet that goes to the output. -/
def execute (processorId : String) (order : List (String × String)) (packet : DataPacket) :
    Except FlowError DataPacket :=
  match packet.records with
  | .error message => .error (.processor processorId message)
  | .ok records =>
    match renameRecords order records with
    | .error message => .error (.processor processorId message)
    | .ok renamed => .ok { packet with content := .records renamed }

theorem renameFields_eq_foldl (order : List (String × String)) (object : List (String × Json)) :
    renameFields order object = order.foldl Moves.moveEntry object := by
  induction order generalizing object with
  | nil => rfl
  | cons e rest ih =>
    rw [renameFields, List.foldl_cons, Moves.moveEntry]
    cases object.lookup e.1 with
    | none => exact ih _
    | some value => exact ih _

theorem renameFields_sorted (order : List (String × String)) {object : List (String × Json)}
    (h : (object.map Prod.fst).Pairwise (· < ·)) : ((renameFields order object).map Prod.fst).Pairwise (· < ·) := by
  rw [renameFields_eq_foldl]
  induction order generalizing object with
  | nil => exact h
  | cons e rest ih => exact ih (Moves.moveEntry_sorted h e)

/-- One record with the renames made in the given order. -/
def rename (order : List (String × String)) (object : Record) : Record :=
  ⟨renameFields order object.entries, renameFields_sorted order object.sorted⟩

theorem rename_eq_moveAll (order : List (String × String)) (object : Record) :
    rename order object = Moves.moveAll object order := by
  induction order generalizing object with
  | nil => rfl
  | cons e rest ih =>
    have hhead : rename (e :: rest) object = rename rest (Moves.move object e) := by
      have hentries : renameFields (e :: rest) object.entries = renameFields rest (Moves.move object e).entries := by
        rw [renameFields_eq_foldl, renameFields_eq_foldl]
        rfl
      simp only [rename, hentries]
    rw [hhead, ih]
    rfl

/-- The record is an object, and the output is that object renamed. -/
def IsRenamed (order : List (String × String)) (record out : Json) : Prop :=
  ∃ object, record = .object object ∧ out = .object (renameFields order object)

theorem renameRecords_ok {order : List (String × String)} {records renamed : List Json} :
    renameRecords order records = .ok renamed ↔ List.Forall₂ (IsRenamed order) records renamed := by
  induction records generalizing renamed with
  | nil =>
    rw [renameRecords, List.forall₂_nil_left_iff]
    exact ⟨fun h => (Except.ok.inj h).symm, fun h => congrArg Except.ok h.symm⟩
  | cons record records ih =>
    rw [List.forall₂_cons_left_iff]
    constructor
    · intro h
      cases record with
      | object object =>
        obtain ⟨tail, htail, hout⟩ := bind_ok h
        exact ⟨_, tail, ⟨object, rfl, rfl⟩, ih.mp htail, (Except.ok.inj hout).symm⟩
      | _ => cases h
    · rintro ⟨out, tail, ⟨object, rfl, rfl⟩, hrest, rfl⟩
      rw [renameRecords, ih.mpr hrest]
      rfl

/-- A packet that passes keeps everything but its records, which are renamed one by one. -/
theorem execute_ok {processorId : String} {order : List (String × String)} {packet out : DataPacket}
    (h : execute processorId order packet = .ok out) :
    ∃ records renamed, packet.content = .records records ∧ out = { packet with content := .records renamed } ∧
      List.Forall₂ (IsRenamed order) records renamed := by
  rw [execute] at h
  cases hrecords : packet.records with
  | error message =>
    rw [hrecords] at h
    cases h
  | ok records =>
    rw [hrecords] at h
    have hcontent : packet.content = .records records := by
      rw [DataPacket.records] at hrecords
      cases hc : packet.content with
      | records r =>
        rw [hc] at hrecords
        exact congrArg _ (Except.ok.inj hrecords)
      | encoded mediaType bytes =>
        rw [hc] at hrecords
        cases hrecords
    cases hrenamed : renameRecords order records with
    | error message =>
      simp only [hrenamed] at h
      cases h
    | ok renamed =>
      simp only [hrenamed] at h
      cases h
      exact ⟨records, renamed, hcontent, rfl, renameRecords_ok.mp hrenamed⟩

/-! ### The renaming as one step -/

/-- The targets are different and none of them is a field of the record that is not renamed itself. -/
def Apart (object : Record) : Prop :=
  (p.fields.map Prod.snd).Nodup ∧ ∀ e ∈ p.fields, e.2 ∉ p.fields.map Prod.fst → object.get? e.2 = none

/-- Every renamed field has its value under the new name, every other field is kept, and the
record has as many fields as before. -/
def Renamed (object out : Record) : Prop :=
  (∀ e ∈ p.fields, ∀ value, object.get? e.1 = some value → out.get? e.2 = some value) ∧
    (∀ key value, object.get? key = some value → key ∉ p.fields.map Prod.fst → out.get? key = some value) ∧
      out.entries.length = object.entries.length

/-- No field of the record is renamed to a name that a later entry of the order renames. -/
def Unhindered (object : Record) (order : List (String × String)) : Prop :=
  order.Pairwise fun e f => object.get? e.1 ≠ none → e.2 ≠ f.1

variable {p}

theorem renamed_iff_simultaneous {order : List (String × String)} (horder : order.Perm p.fields) {object out : Record} :
    p.Renamed object out ↔ Moves.Simultaneous order object out := by
  have hkeys : ∀ key, key ∈ order.map Prod.fst ↔ key ∈ p.fields.map Prod.fst := fun key => (horder.map _).mem_iff
  rw [Renamed, Moves.Simultaneous]
  simp only [horder.mem_iff, hkeys]

theorem apart_perm {order : List (String × String)} (horder : order.Perm p.fields) {object : Record}
    (h : p.Apart object) :
    (order.map Prod.snd).Nodup ∧ ∀ e ∈ order, e.2 ∉ order.map Prod.fst → object.get? e.2 = none := by
  refine ⟨(horder.map _).nodup_iff.mpr h.1, fun e he hk => ?_⟩
  exact h.2 e (horder.mem_iff.mp he) fun hmem => hk ((horder.map _).mem_iff.mpr hmem)

/-- In a given order of the map the record is renamed in one step exactly when no field is renamed
to a name that a later entry takes away. -/
theorem rename_renamed_iff (p : RenameFields) (object : Record) (order : List (String × String))
    (horder : order.Perm p.fields) (hapart : p.Apart object) :
    p.Renamed object (rename order object) ↔ Unhindered object order := by
  obtain ⟨htargets, hclash⟩ := apart_perm horder hapart
  rw [renamed_iff_simultaneous horder, rename_eq_moveAll]
  exact Moves.simultaneous_iff ((horder.map _).nodup_iff.mpr p.nodup) htargets hclash

/-- `name` to `title`. -/
def nameToTitle : RenameFields := ⟨[("name", "title")], by decide⟩

theorem rename_renamed_iff_name :
    nameToTitle.Renamed (OrderedDict.empty.insert "name" .null)
        (rename [("name", "title")] (OrderedDict.empty.insert "name" .null)) ↔
      Unhindered (OrderedDict.empty.insert "name" .null) [("name", "title")] :=
  rename_renamed_iff nameToTitle (OrderedDict.empty.insert "name" .null) [("name", "title")] (.refl _)
    ⟨by decide, fun e he _ => by
      rw [List.mem_singleton.mp he]
      rfl⟩

/-- Every order of the map renames the record in one step exactly when no field of it is renamed to
the old name of another entry. -/
theorem every_order_renamed_iff {object : Record} (hapart : p.Apart object) :
    (∀ order : List (String × String), order.Perm p.fields → p.Renamed object (rename order object)) ↔
      ∀ e ∈ p.fields, ∀ f ∈ p.fields, e ≠ f → object.get? e.1 ≠ none → e.2 ≠ f.1 := by
  rw [← Moves.every_order_iff p.nodup hapart.1 hapart.2]
  refine forall₂_congr fun order horder => ?_
  rw [renamed_iff_simultaneous horder, rename_eq_moveAll]

/-! ### A chain of renames -/

/-- `a` to `b` and `b` to `c`. -/
def chain : RenameFields := ⟨[("a", "b"), ("b", "c")], by decide⟩

def chainRecord : Record := (OrderedDict.empty.insert "a" (.bool true)).insert "b" (.bool false)

/-- Taken in this order, the value of `a` ends up under `c` and that of `b` is lost. -/
theorem chain_order : ¬ ∀ (p : RenameFields) (object : Record) (order : List (String × String)),
    order.Perm p.fields → p.Apart object → p.Renamed object (rename order object) := by
  intro h
  have hrenamed := h chain chainRecord [("a", "b"), ("b", "c")] (.refl _) ⟨by decide, ?_⟩
  · have hlength := hrenamed.2.2
    have hout : (rename [("a", "b"), ("b", "c")] chainRecord).entries.length = 1 := by decide
    have hin : chainRecord.entries.length = 2 := by decide
    rw [hout, hin] at hlength
    exact absurd hlength (by decide)
  · intro e he hk
    rcases List.mem_cons.mp he with rfl | he
    · exact absurd (List.mem_cons_of_mem _ List.mem_cons_self) hk
    · rw [List.mem_singleton.mp he]
      rfl

end RenameFields

end Jaiba.Processors
