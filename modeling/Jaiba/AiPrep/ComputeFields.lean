import Jaiba.AiPrep.Evaluation
import Jaiba.Lib.Assignments

/-!
# Computed fields (`AiComputeFields` in `ai_prep/features.rs`)

The expressions of a `HashMap` are evaluated one after another over the record
that already holds the earlier results. All orders agree exactly when none of
them can be evaluated or no expression reads another target.
-/

namespace Jaiba.AiPrep
open Jaiba.Lib

inductive OnError where
  | drop | fail
  deriving DecidableEq

/-- `fields` as the entries of the map. -/
structure AiComputeFields where
  fields : List (String × String)
  onError : OnError
  nodup : (fields.map Prod.fst).Nodup

/-- `Map<String, Value>`. -/
abbrev Record := OrderedDict String Json

namespace AiComputeFields

variable {F : Type} (f : Arithmetic F) (p : AiComputeFields)

/-- The loop over the fields, in the order in which the map gives them. -/
def computeFields : List (String × String) → Record → Except String Record
  | [], object => .ok object
  | (target, expr) :: rest, object =>
    match f.evalExpr expr.toList (.object object.entries) with
    | .ok value => computeFields rest (object.insert target (f.jsonNumber value))
    | .error message => .error message

/-- What becomes of one record: it is kept, dropped or an error. -/
def computeRecord (order : List (String × String)) (object : Record) : Except String (Option Record) :=
  match computeFields f order object with
  | .ok object => .ok (some object)
  | .error message =>
    match p.onError with
    | .drop => .ok none
    | .fail => .error message

/-- The records in turn, each with the order of the map. -/
def compute (order : List (String × String)) (records : List Record) : Except String (List Record) :=
  (records.mapM (p.computeRecord f order)).map fun kept => kept.filterMap id

/-- The number that an expression gives on a record. -/
def number (e : String × String) (object : Record) : Option Json :=
  (f.evalExpr e.2.toList (.object object.entries)).toOption.map f.jsonNumber

/-- The output record, if there is one. -/
def output (order : List (String × String)) (object : Record) : Option Record :=
  (p.computeRecord f order object).toOption.join

/-- The record with the numbers that the expressions give on it under their targets. -/
def withResults (object : Record) (done : List (String × String)) : Record :=
  Assignments.stored (number f) object done

theorem computeFields_run (order : List (String × String)) (object : Record) :
    (computeFields f order object).toOption = Assignments.run (number f) order object := by
  induction order generalizing object with
  | nil => rfl
  | cons e rest ih =>
    rw [computeFields, Assignments.run, number]
    cases f.evalExpr e.2.toList (.object object.entries) with
    | error message => rfl
    | ok value => exact ih _

theorem output_run (order : List (String × String)) (object : Record) :
    p.output f order object = Assignments.run (number f) order object := by
  rw [← computeFields_run, output, computeRecord]
  cases computeFields f order object with
  | ok object => rfl
  | error message => cases p.onError <;> rfl

/-- Some expression of the order fails on the record as it stands when its turn comes. -/
def Blocked (object : Record) : List (String × String) → Prop
  | [] => False
  | (target, expr) :: rest =>
    match f.evalExpr expr.toList (.object object.entries) with
    | .ok value => Blocked (object.insert target (f.jsonNumber value)) rest
    | .error _ => True

theorem blocked_iff (order : List (String × String)) (object : Record) :
    Blocked f object order ↔ Assignments.run (number f) order object = none := by
  induction order generalizing object with
  | nil => simp [Blocked, Assignments.run]
  | cons e rest ih =>
    rw [Blocked, Assignments.run, number]
    cases f.evalExpr e.2.toList (.object object.entries) with
    | error message => exact ⟨fun _ => rfl, fun _ => trivial⟩
    | ok value => exact ih _

/-- Every expression gives the same number whichever of the other targets already hold theirs. -/
def Independent (object : Record) : Prop :=
  ∀ done e rest, (done ++ e :: rest).Perm p.fields →
    (number f e object).isSome ∧ number f e (withResults f object done) = number f e object

/-- The output of a record is the same in every order of the map exactly when every order meets an
expression that fails, or the expressions are independent on the record. -/
theorem output_orders_agree_iff (f : Arithmetic F) (p : AiComputeFields) (object : Record) :
    (∀ order order' : List (String × String), order.Perm p.fields → order'.Perm p.fields →
      p.output f order object = p.output f order' object) ↔
      (∀ order : List (String × String), order.Perm p.fields → Blocked f object order) ∨ p.Independent f object := by
  simp only [output_run, blocked_iff]
  exact Assignments.agree_iff p.nodup

/-- Where the expressions are independent on every record, so is the whole packet of the order. -/
theorem compute_of_independent {records : List Record} {order order' : List (String × String)}
    (h : ∀ object ∈ records, p.Independent f object) (horder : order.Perm p.fields)
    (horder' : order'.Perm p.fields) : p.compute f order records = p.compute f order' records := by
  have hrecord : ∀ object ∈ records, p.computeRecord f order object = p.computeRecord f order' object := by
    intro object hobject
    have hrun : ∀ {o : List (String × String)}, o.Perm p.fields →
        (computeFields f o object).toOption = some (withResults f object o) := by
      intro o ho
      rw [computeFields_run]
      exact Assignments.run_of_independent [] (h object hobject) ho
    have hsame : withResults f object order = withResults f object order' :=
      Assignments.stored_perm (((horder.map Prod.fst).nodup_iff).mpr p.nodup) (horder.trans horder'.symm)
    have hok : ∀ {o : List (String × String)}, o.Perm p.fields →
        computeFields f o object = .ok (withResults f object o) := by
      intro o ho
      have hsome := hrun ho
      cases hfields : computeFields f o object with
      | error message =>
        rw [hfields] at hsome
        cases hsome
      | ok out =>
        rw [hfields] at hsome
        exact congrArg Except.ok (Option.some.inj hsome)
    rw [computeRecord, computeRecord, hok horder, hok horder', hsame]
  have hrecords : records.mapM (p.computeRecord f order) = records.mapM (p.computeRecord f order') := by
    clear h
    induction records with
    | nil => rfl
    | cons object records ih =>
      rw [List.mapM_cons, List.mapM_cons, hrecord object List.mem_cons_self,
        ih fun o ho => hrecord o (List.mem_cons_of_mem object ho)]
  rw [compute, compute, hrecords]

/-! ### A target that reads another -/

/-- Whole numbers written as floats. -/
def floatNumbers : Arithmetic ℤ :=
  { wholeNumbers with
    ofNumber := fun n => match n with
      | .posInt n => some n
      | .negInt n => some n
      | .float text => some ((text.toList.takeWhile Char.isDigit).foldl (fun n c => 10 * n + (c.toNat - 48 : ℕ)) 0)
    toNumber := fun x => some (.float (toString x ++ ".0")) }

/-- `a` is computed from `b`, and so is `b` itself. -/
def crossFields : AiComputeFields := ⟨[("a", "b"), ("b", "1")], .drop, by decide⟩

def crossRecord : Record := OrderedDict.empty.insert "b" (.number (.posInt 5))

theorem crossFields_order : ¬ ∀ (F : Type) (f : Arithmetic F) (p : AiComputeFields) (object : Record)
    (order order' : List (String × String)), order.Perm p.fields → order'.Perm p.fields →
      p.output f order object = p.output f order' object := by
  intro h
  have hsame := h ℤ floatNumbers crossFields crossRecord [("a", "b"), ("b", "1")] [("b", "1"), ("a", "b")]
    (.refl _) (.swap _ _ _)
  have hread := congrArg (fun out => out.bind fun object => object.get? "a") hsame
  have hfirst : ((crossFields.output floatNumbers [("a", "b"), ("b", "1")] crossRecord).bind fun object =>
      object.get? "a") = some (.number (.float "5.0")) := by rfl
  have hlast : ((crossFields.output floatNumbers [("b", "1"), ("a", "b")] crossRecord).bind fun object =>
      object.get? "a") = some (.number (.float "1.0")) := by rfl
  rw [hfirst, hlast] at hread
  exact absurd (Number.float.inj (Json.number.inj (Option.some.inj hread))) (by decide)

end AiComputeFields

end Jaiba.AiPrep
