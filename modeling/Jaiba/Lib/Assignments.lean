import Mathlib.Data.List.Induction
import Mathlib.Data.List.Perm.Basic
import Jaiba.Lib.Dict

/-!
# Assignments one after another

Each entry computes a value from the record as it stands and stores it under its
key. All orders of the entries agree exactly when none of them can be run, or
when no entry reads what another stores.
-/

namespace Jaiba.Lib.Assignments

variable {κ ν β : Type} [LinearOrder κ] {value : κ × β → OrderedDict κ ν → Option ν} {d : OrderedDict κ ν}

/-- The entries in their order; nothing where one of them has no value. -/
def run (value : κ × β → OrderedDict κ ν → Option ν) : List (κ × β) → OrderedDict κ ν → Option (OrderedDict κ ν)
  | [], d => some d
  | e :: rest, d => (value e d).bind fun v => run value rest (d.insert e.1 v)

/-- The record with the values that the entries have in it. -/
def stored (value : κ × β → OrderedDict κ ν → Option ν) (d : OrderedDict κ ν) (done : List (κ × β)) :
    OrderedDict κ ν :=
  done.foldl (fun acc e => (value e d).elim acc fun v => acc.insert e.1 v) d

/-- Every entry has a value, and the same one where any of the others have stored theirs. -/
def Independent (value : κ × β → OrderedDict κ ν → Option ν) (d : OrderedDict κ ν) (entries : List (κ × β)) : Prop :=
  ∀ done e rest, (done ++ e :: rest).Perm entries →
    (value e d).isSome ∧ value e (stored value d done) = value e d

theorem stored_concat (done : List (κ × β)) (e : κ × β) :
    stored value d (done ++ [e]) = (value e d).elim (stored value d done) fun v => (stored value d done).insert e.1 v := by
  rw [stored, List.foldl_append]
  rfl

theorem insert_comm {k k' : κ} (h : k ≠ k') (d : OrderedDict κ ν) (v v' : ν) :
    (d.insert k v).insert k' v' = (d.insert k' v').insert k v := by
  apply OrderedDict.ext_get?
  intro x
  simp only [OrderedDict.get?_insert]
  by_cases hx : x = k'
  · rw [if_pos hx, if_neg (fun hk : x = k => h (hk.symm.trans hx)), if_pos hx]
  · rw [if_neg hx, if_neg hx]

/-- Where the keys differ, the order in which values are stored is of no effect. -/
theorem stored_perm {done done' : List (κ × β)} (hnodup : (done.map Prod.fst).Nodup) (hperm : done.Perm done') :
    stored value d done = stored value d done' := by
  refine hperm.foldl_eq' (fun a ha b hb acc => ?_) d
  by_cases hkey : a.1 = b.1
  · rw [List.inj_on_of_nodup_map hnodup ha hb hkey]
  · cases value a d with
    | none => rfl
    | some v =>
      cases value b d with
      | none => rfl
      | some v' => exact insert_comm hkey acc v v'

theorem run_of_independent {entries : List (κ × β)} (done : List (κ × β)) {rest : List (κ × β)} (h : Independent value d entries)
    (hperm : (done ++ rest).Perm entries) :
    run value rest (stored value d done) = some (stored value d (done ++ rest)) := by
  induction rest generalizing done with
  | nil => rw [run, List.append_nil]
  | cons e rest ih =>
    obtain ⟨hsome, hsame⟩ := h done e rest hperm
    obtain ⟨v, hv⟩ := Option.isSome_iff_exists.mp hsome
    have hnext : stored value d (done ++ [e]) = (stored value d done).insert e.1 v := by
      rw [stored_concat, hv]
      rfl
    have hassoc : done ++ e :: rest = done ++ [e] ++ rest := by simp
    rw [run, hsame, hv, Option.bind_some, ← hnext, hassoc]
    exact ih (done ++ [e]) (hassoc ▸ hperm)

/-- A run leaves the keys of other entries alone. -/
theorem get?_of_run {rest : List (κ × β)} {d out : OrderedDict κ ν} {k : κ} (h : run value rest d = some out)
    (hk : k ∉ rest.map Prod.fst) : out.get? k = d.get? k := by
  induction rest generalizing d with
  | nil =>
    cases h
    rfl
  | cons e rest ih =>
    rw [List.map_cons, List.mem_cons, not_or] at hk
    obtain ⟨v, -, hrest⟩ := Option.bind_eq_some_iff.mp h
    rw [ih hrest hk.2, OrderedDict.get?_insert, if_neg hk.1]

/-- The entry that a run comes to first has the value that it ends with. -/
theorem value_of_run {e : κ × β} {rest : List (κ × β)} {d out : OrderedDict κ ν}
    (h : run value (e :: rest) d = some out) (hk : e.1 ∉ rest.map Prod.fst) : value e d = out.get? e.1 := by
  obtain ⟨v, hv, hrest⟩ := Option.bind_eq_some_iff.mp h
  rw [hv, get?_of_run hrest hk, OrderedDict.get?_insert, if_pos rfl]

omit [LinearOrder κ] in
theorem key_not_mem {e : κ × β} (done : List (κ × β)) {rest : List (κ × β)} (h : ((done ++ e :: rest).map Prod.fst).Nodup) :
    e.1 ∉ rest.map Prod.fst := by
  rw [List.map_append, List.map_cons, List.nodup_append] at h
  exact (List.nodup_cons.mp h.2.1).1

theorem independent_of_agree {entries : List (κ × β)} {out : OrderedDict κ ν}
    (hnodup : (entries.map Prod.fst).Nodup) (hrun : ∀ order, order.Perm entries → run value order d = some out) :
    Independent value d entries := by
  have hkeys : ∀ {order : List (κ × β)}, order.Perm entries → (order.map Prod.fst).Nodup :=
    fun hperm => (hperm.map Prod.fst).nodup_iff.mpr hnodup
  -- each entry in turn comes first
  have hfirst : ∀ {done e rest}, (done ++ e :: rest).Perm entries → value e d = out.get? e.1 := by
    intro done e rest hperm
    have hfront : (e :: (done ++ rest)).Perm entries := List.perm_middle.symm.trans hperm
    exact value_of_run (hrun _ hfront) (key_not_mem [] (hkeys hfront))
  -- what an order has done so far are the values of the record it began with
  have hsofar : ∀ done rest, (done ++ rest).Perm entries → run value rest (stored value d done) = some out := by
    intro done
    induction done using List.reverseRecOn with
    | nil => exact fun rest hperm => hrun rest hperm
    | append_singleton done e ih =>
      intro rest hperm
      rw [List.append_assoc, List.singleton_append] at hperm
      have hbefore := ih (e :: rest) hperm
      have hvalue := value_of_run hbefore (key_not_mem done (hkeys hperm))
      rw [run, hvalue, ← hfirst hperm] at hbefore
      obtain ⟨v, hv, hrest⟩ := Option.bind_eq_some_iff.mp hbefore
      rw [stored_concat, hv]
      exact hrest
  intro done e rest hperm
  have hvalue := value_of_run (hsofar done (e :: rest) hperm) (key_not_mem done (hkeys hperm))
  obtain ⟨v, hv, -⟩ := Option.bind_eq_some_iff.mp (hsofar done (e :: rest) hperm)
  rw [hfirst hperm, ← hvalue]
  exact ⟨Option.isSome_of_eq_some hv, rfl⟩

/-- All orders agree exactly when none of them can be run or no entry reads what another stores. -/
theorem agree_iff {entries : List (κ × β)} (hnodup : (entries.map Prod.fst).Nodup) :
    (∀ order order', order.Perm entries → order'.Perm entries → run value order d = run value order' d) ↔
      (∀ order, order.Perm entries → run value order d = none) ∨ Independent value d entries := by
  constructor
  · intro h
    cases hrun : run value entries d with
    | none => exact .inl fun order hperm => (h order entries hperm (.refl _)).trans hrun
    | some out =>
      exact .inr (independent_of_agree hnodup fun order hperm => (h order entries hperm (.refl _)).trans hrun)
  · rintro (h | h) order order' hperm hperm'
    · rw [h order hperm, h order' hperm']
    · have hrun : ∀ {o : List (κ × β)}, o.Perm entries → run value o d = some (stored value d o) :=
        fun ho => run_of_independent [] h ho
      rw [hrun hperm, hrun hperm', stored_perm (((hperm.map Prod.fst).nodup_iff).mpr hnodup) (hperm.trans hperm'.symm)]

end Jaiba.Lib.Assignments
