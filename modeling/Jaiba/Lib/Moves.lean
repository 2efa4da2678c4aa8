import Mathlib.Data.List.Induction
import Mathlib.Data.List.Nodup
import Mathlib.Data.List.Perm.Basic
import Jaiba.Lib.Dict

/-!
# Moves one after another

A move takes the value of one key to another key. Moves made in sequence on the
same dictionary are one simultaneous renaming exactly when no move puts a value
under a key that a later move takes away.
-/

namespace Jaiba.Lib.Moves

variable {κ ν : Type} [LinearOrder κ]

/-- Take the value of `e.1`, where there is one, to `e.2`. -/
def moveEntry (es : List (κ × ν)) (e : κ × κ) : List (κ × ν) :=
  match es.lookup e.1 with
  | some v => OrderedDict.insertEntry e.2 v (es.filter fun x => x.1 != e.1)
  | none => es

theorem moveEntry_sorted {es : List (κ × ν)} (h : (es.map Prod.fst).Pairwise (· < ·)) (e : κ × κ) :
    ((moveEntry es e).map Prod.fst).Pairwise (· < ·) := by
  rw [moveEntry]
  split
  · exact OrderedDict.insertEntry_sorted e.2 _ (h.sublist (List.filter_sublist.map _))
  · exact h

def move (d : OrderedDict κ ν) (e : κ × κ) : OrderedDict κ ν := ⟨moveEntry d.entries e, moveEntry_sorted d.sorted e⟩

def moveAll (d : OrderedDict κ ν) (moves : List (κ × κ)) : OrderedDict κ ν := moves.foldl move d

theorem moveAll_concat (d : OrderedDict κ ν) (moves : List (κ × κ)) (e : κ × κ) :
    moveAll d (moves ++ [e]) = move (moveAll d moves) e := by
  rw [moveAll, List.foldl_append]
  rfl

/-! ### One move -/

theorem move_absent {d : OrderedDict κ ν} {e : κ × κ} (h : d.get? e.1 = none) : move d e = d := by
  obtain ⟨es, hes⟩ := d
  have hentries : moveEntry es e = es := by
    rw [OrderedDict.get?] at h
    rw [moveEntry, h]
  simp only [move, hentries]

theorem get?_move {d : OrderedDict κ ν} {e : κ × κ} {v : ν} (h : d.get? e.1 = some v) (k : κ) :
    (move d e).get? k = if k = e.2 then some v else if k = e.1 then none else d.get? k := by
  have hentries : (move d e).get? k = (moveEntry d.entries e).lookup k := rfl
  rw [OrderedDict.get?] at h
  rw [hentries, moveEntry, h, OrderedDict.lookup_insertEntry,
    OrderedDict.lookup_filter_key (fun key => key != e.1) d.entries k, OrderedDict.get?]
  by_cases hk : k = e.1 <;> simp [hk]

/-- The key that is taken away is gone, unless the value comes back to it. -/
theorem get?_move_source (d : OrderedDict κ ν) {e : κ × κ} (hne : e.2 ≠ e.1) : (move d e).get? e.1 = none := by
  cases h : d.get? e.1 with
  | none => rw [move_absent h, h]
  | some v => rw [get?_move h, if_neg hne.symm, if_pos rfl]

theorem get?_move_of_ne (d : OrderedDict κ ν) {e : κ × κ} {k : κ} (hnone : d.get? k = none) (hk : k ≠ e.2) :
    (move d e).get? k = none := by
  cases h : d.get? e.1 with
  | none => rw [move_absent h, hnone]
  | some v => rw [get?_move h, if_neg hk, hnone, ite_self]

theorem length_insertEntry {k : κ} (v : ν) {es : List (κ × ν)} (h : k ∉ es.map Prod.fst) :
    (OrderedDict.insertEntry k v es).length = es.length + 1 := by
  induction es with
  | nil => rfl
  | cons e es ih =>
    rw [List.map_cons, List.mem_cons, not_or] at h
    rw [OrderedDict.insertEntry]
    split_ifs with h1 h2
    · rfl
    · rw [List.length_cons, ih h.2, List.length_cons]
    · exact absurd (le_antisymm (not_lt.mp h2) (not_lt.mp h1)) h.1

theorem length_filter_key {k : κ} {es : List (κ × ν)} (hnodup : (es.map Prod.fst).Nodup) (h : k ∈ es.map Prod.fst) :
    (es.filter fun x => x.1 != k).length + 1 = es.length := by
  induction es with
  | nil => cases h
  | cons e es ih =>
    rw [List.map_cons, List.nodup_cons] at hnodup
    rw [List.filter_cons]
    by_cases hk : e.1 = k
    · have hrest : es.filter (fun x => x.1 != k) = es := by
        refine List.filter_eq_self.mpr fun x hx => bne_iff_ne.mpr ?_
        rintro rfl
        exact hnodup.1 (hk ▸ List.mem_map_of_mem hx)
      rw [if_neg (by simp [hk]), hrest, List.length_cons]
    · rw [List.map_cons] at h
      have hmem : k ∈ es.map Prod.fst := (List.mem_cons.mp h).resolve_left fun heq => hk heq.symm
      rw [if_pos (bne_iff_ne.mpr hk), List.length_cons, ih hnodup.2 hmem, List.length_cons]

/-- A move to a key that is free keeps the number of entries. -/
theorem length_move (d : OrderedDict κ ν) {e : κ × κ} (hfree : e.2 = e.1 ∨ d.get? e.2 = none) :
    (move d e).entries.length = d.entries.length := by
  cases h : d.get? e.1 with
  | none => rw [move_absent h]
  | some v =>
    have hentries : (move d e).entries = OrderedDict.insertEntry e.2 v (d.entries.filter fun x => x.1 != e.1) := by
      have hmove : (move d e).entries = moveEntry d.entries e := rfl
      rw [OrderedDict.get?] at h
      rw [hmove, moveEntry, h]
    have habsent : e.2 ∉ (d.entries.filter fun x => x.1 != e.1).map Prod.fst := by
      intro hmem
      obtain ⟨x, hx, hkey⟩ := List.mem_map.mp hmem
      obtain ⟨hin, hne⟩ := List.mem_filter.mp hx
      rw [bne_iff_ne, hkey] at hne
      rcases hfree with hsame | hnone
      · exact hne hsame
      · exact OrderedDict.get?_none_iff.mp hnone x hin hkey
    have hmem : e.1 ∈ d.entries.map Prod.fst := OrderedDict.mem_keys_iff.mpr (h ▸ Option.some_ne_none v)
    rw [hentries, length_insertEntry v habsent, length_filter_key d.nodup_keys hmem]

/-! ### Moves in sequence -/

/-- All moves made at once: every value is under its new key, the other keys keep theirs and
no entry is lost. -/
def Simultaneous (moves : List (κ × κ)) (d out : OrderedDict κ ν) : Prop :=
  (∀ e ∈ moves, ∀ v, d.get? e.1 = some v → out.get? e.2 = some v) ∧
    (∀ k v, d.get? k = some v → k ∉ moves.map Prod.fst → out.get? k = some v) ∧
      out.entries.length = d.entries.length

/-- No move puts a value under a key that a later one takes away. -/
def Unhindered (d : OrderedDict κ ν) (moves : List (κ × κ)) : Prop :=
  moves.Pairwise fun e f => d.get? e.1 ≠ none → e.2 ≠ f.1

/-- What some moves have made of a dictionary. -/
structure Moved (d : OrderedDict κ ν) (done : List (κ × κ)) (cur : OrderedDict κ ν) : Prop where
  arrived : ∀ e ∈ done, ∀ v, d.get? e.1 = some v → cur.get? e.2 = some v
  left : ∀ k ∈ done.map Prod.fst, (∀ e ∈ done, d.get? e.1 ≠ none → e.2 ≠ k) → cur.get? k = none
  kept : ∀ k ∉ done.map Prod.fst, (∀ e ∈ done, d.get? e.1 ≠ none → e.2 ≠ k) → cur.get? k = d.get? k
  length : cur.entries.length = d.entries.length

/-- A key where nothing is put holds what it held, or nothing once it was taken away. -/
theorem Moved.free {d cur : OrderedDict κ ν} {done : List (κ × κ)} (h : Moved d done cur) {k : κ}
    (hput : ∀ e ∈ done, d.get? e.1 ≠ none → e.2 ≠ k) (hk : k ∈ done.map Prod.fst ∨ d.get? k = none) :
    cur.get? k = none := by
  by_cases hdone : k ∈ done.map Prod.fst
  · exact h.left k hdone hput
  · rw [h.kept k hdone hput]
    exact hk.resolve_left hdone

theorem moved_step {d cur : OrderedDict κ ν} {done : List (κ × κ)} {e : κ × κ} (h : Moved d done cur)
    (hsource : e.1 ∉ done.map Prod.fst) (htarget : e.2 ∉ done.map Prod.snd)
    (hput : ∀ f ∈ done, d.get? f.1 ≠ none → f.2 ≠ e.1)
    (hfree : d.get? e.1 ≠ none → e.2 = e.1 ∨ e.2 ∈ done.map Prod.fst ∨ d.get? e.2 = none) :
    Moved d (done ++ [e]) (move cur e) := by
  have hsame : cur.get? e.1 = d.get? e.1 := h.kept e.1 hsource hput
  have htarget' : ∀ f ∈ done, f.2 ≠ e.2 := fun f hf heq => htarget (heq ▸ List.mem_map_of_mem hf)
  cases hv : d.get? e.1 with
  | none =>
    rw [move_absent (hsame.trans hv)]
    refine ⟨fun f hf v hfv => ?_, fun k hk hne => ?_, fun k hk hne => ?_, h.length⟩
    · rcases List.mem_append.mp hf with hf | hf
      · exact h.arrived f hf v hfv
      · rw [List.mem_singleton.mp hf, hv] at hfv
        cases hfv
    · have hne' := fun f hf => hne f (List.mem_append_left [e] hf)
      rw [List.map_append, List.mem_append] at hk
      rcases hk with hk | hk
      · exact h.left k hk hne'
      · rw [List.mem_singleton.mp hk]
        exact hsame.trans hv
    · rw [List.map_append, List.mem_append, not_or] at hk
      exact h.kept k hk.1 fun f hf => hne f (List.mem_append_left [e] hf)
  | some v =>
    have hcur : cur.get? e.1 = some v := hsame.trans hv
    have hpresent : d.get? e.1 ≠ none := hv ▸ Option.some_ne_none v
    refine ⟨fun f hf w hfw => ?_, fun k hk hne => ?_, fun k hk hne => ?_, ?_⟩
    · rcases List.mem_append.mp hf with hf | hf
      · rw [get?_move hcur, if_neg (htarget' f hf), if_neg (hput f hf (hfw ▸ Option.some_ne_none w))]
        exact h.arrived f hf w hfw
      · rw [List.mem_singleton.mp hf] at hfw ⊢
        rw [get?_move hcur, if_pos rfl, ← hv, hfw]
    · have hne' := fun f hf => hne f (List.mem_append_left [e] hf)
      have hnew : e.2 ≠ k := hne e (List.mem_append_right done List.mem_cons_self) hpresent
      rw [get?_move hcur, if_neg hnew.symm]
      rw [List.map_append, List.mem_append] at hk
      rcases hk with hk | hk
      · rw [h.left k hk hne', ite_self]
      · rw [if_pos (List.mem_singleton.mp hk)]
    · have hnew : e.2 ≠ k := hne e (List.mem_append_right done List.mem_cons_self) hpresent
      rw [List.map_append, List.mem_append, not_or] at hk
      rw [get?_move hcur, if_neg hnew.symm, if_neg fun heq => hk.2 (List.mem_singleton.mpr heq)]
      exact h.kept k hk.1 fun f hf => hne f (List.mem_append_left [e] hf)
    · refine (length_move cur ?_).trans h.length
      exact (hfree hpresent).imp_right (h.free fun f hf _ => htarget' f hf)

/-- Moves that are not hindered do what they say, up to any point of the sequence. -/
theorem moved_of_unhindered {d : OrderedDict κ ν} {moves : List (κ × κ)} (hsources : (moves.map Prod.fst).Nodup)
    (htargets : (moves.map Prod.snd).Nodup)
    (hclash : ∀ e ∈ moves, e.2 ∉ moves.map Prod.fst → d.get? e.2 = none) (h : Unhindered d moves)
    {done rest : List (κ × κ)} (hsplit : done ++ rest = moves) : Moved d done (moveAll d done) := by
  induction done using List.reverseRecOn generalizing rest with
  | nil =>
    refine ⟨fun e he => ?_, fun k hk => ?_, fun k _ _ => rfl, rfl⟩
    · cases he
    · cases hk
  | append_singleton done e ih =>
    have hsplit' : done ++ e :: rest = moves := by rw [← hsplit, List.append_assoc, List.singleton_append]
    rw [moveAll_concat]
    obtain ⟨-, hlater, hput⟩ := List.pairwise_append.mp (hsplit'.symm ▸ h)
    rw [← hsplit', List.map_append, List.nodup_append] at hsources htargets
    refine moved_step (ih hsplit') (fun hmem => ?_) (fun hmem => ?_) (fun f hf => hput f hf e List.mem_cons_self)
      fun hpresent => ?_
    · exact hsources.2.2 _ hmem _ List.mem_cons_self rfl
    · exact htargets.2.2 _ hmem _ List.mem_cons_self rfl
    · by_cases hsource : e.2 ∈ moves.map Prod.fst
      · rw [← hsplit', List.map_append, List.mem_append, List.map_cons, List.mem_cons] at hsource
        rcases hsource with hdone | heq | hrest
        · exact .inr (.inl hdone)
        · exact .inl heq
        · obtain ⟨f, hf, hkey⟩ := List.mem_map.mp hrest
          exact absurd hkey.symm (List.rel_of_pairwise_cons hlater hf hpresent)
      · refine .inr (.inr (hclash e ?_ hsource))
        rw [← hsplit']
        exact List.mem_append_right done List.mem_cons_self

/-- A value that is put under a key which a later move takes away is lost. -/
theorem moveAll_lost {d : OrderedDict κ ν} {k : κ} {moves : List (κ × κ)} {f : κ × κ} (hf : f ∈ moves) (hk : f.1 = k)
    (hput : ∀ g ∈ moves, g.2 ≠ k) : (moveAll d moves).get? k = none := by
  induction moves using List.reverseRecOn with
  | nil => cases hf
  | append_singleton moves g ih =>
    rw [moveAll_concat]
    have hg : g.2 ≠ k := hput g (List.mem_append_right moves List.mem_cons_self)
    rcases List.mem_append.mp hf with hf | hf
    · exact get?_move_of_ne _ (ih hf fun x hx => hput x (List.mem_append_left [g] hx)) hg.symm
    · rw [List.mem_singleton.mp hf] at hk
      rw [← hk] at hg ⊢
      exact get?_move_source _ hg

theorem moveAll_append (d : OrderedDict κ ν) (moves rest : List (κ × κ)) :
    moveAll d (moves ++ rest) = moveAll (moveAll d moves) rest := List.foldl_append

/-- Moves with distinct targets that hit no other key are simultaneous exactly when none hinders another. -/
theorem simultaneous_iff {d : OrderedDict κ ν} {moves : List (κ × κ)} (hsources : (moves.map Prod.fst).Nodup)
    (htargets : (moves.map Prod.snd).Nodup) (hclash : ∀ e ∈ moves, e.2 ∉ moves.map Prod.fst → d.get? e.2 = none) :
    Simultaneous moves d (moveAll d moves) ↔ Unhindered d moves := by
  constructor
  · intro h
    rw [Unhindered, List.pairwise_iff_forall_sublist]
    intro e f hsub hpresent heq
    obtain ⟨v, hv⟩ := Option.ne_none_iff_exists'.mp hpresent
    obtain ⟨front, back, hsplit, he, hback⟩ := List.cons_sublist_iff.mp hsub
    have hf : f ∈ back := List.singleton_sublist.mp hback
    rw [hsplit, List.map_append, List.nodup_append] at htargets
    have hlost : (moveAll (moveAll d front) back).get? e.2 = none := by
      refine moveAll_lost hf heq.symm fun g hg hsame => ?_
      exact htargets.2.2 _ (List.mem_map_of_mem he) _ (List.mem_map_of_mem hg) hsame.symm
    have harrived := h.1 e (hsub.subset List.mem_cons_self) v hv
    rw [hsplit, moveAll_append, hlost] at harrived
    cases harrived
  · intro h
    have hall := moved_of_unhindered hsources htargets hclash h (List.append_nil moves)
    refine ⟨hall.arrived, fun k v hv hk => ?_, hall.length⟩
    rw [hall.kept k hk, hv]
    intro e he hpresent heq
    have hnone := hclash e he (heq ▸ hk)
    rw [heq, hv] at hnone
    cases hnone

/-- In every order the moves are simultaneous exactly when no value is put under a source of another move. -/
theorem every_order_iff {d : OrderedDict κ ν} {moves : List (κ × κ)} (hsources : (moves.map Prod.fst).Nodup)
    (htargets : (moves.map Prod.snd).Nodup) (hclash : ∀ e ∈ moves, e.2 ∉ moves.map Prod.fst → d.get? e.2 = none) :
    (∀ order : List (κ × κ), order.Perm moves → Simultaneous order d (moveAll d order)) ↔
      ∀ e ∈ moves, ∀ f ∈ moves, e ≠ f → d.get? e.1 ≠ none → e.2 ≠ f.1 := by
  have horder : ∀ {order : List (κ × κ)}, order.Perm moves →
      (Simultaneous order d (moveAll d order) ↔ Unhindered d order) := by
    intro order hperm
    refine simultaneous_iff ((hperm.map _).nodup_iff.mpr hsources) ((hperm.map _).nodup_iff.mpr htargets)
      fun e he hk => ?_
    exact hclash e (hperm.mem_iff.mp he) fun hmem => hk ((hperm.map _).mem_iff.mpr hmem)
  constructor
  · intro h e he f hf hne
    -- an order that begins with the two moves
    have hf' : f ∈ moves.erase e := (List.mem_erase_of_ne hne.symm).mpr hf
    have hperm : (e :: f :: (moves.erase e).erase f).Perm moves :=
      ((List.perm_cons_erase hf').symm.cons e).trans (List.perm_cons_erase he).symm
    exact List.rel_of_pairwise_cons ((horder hperm).mp (h _ hperm)) List.mem_cons_self
  · intro h order hperm
    refine (horder hperm).mpr ?_
    have hnodup : order.Nodup := .of_map Prod.fst ((hperm.map _).nodup_iff.mpr hsources)
    refine hnodup.imp_of_mem fun {e f} he hf hne => ?_
    exact h e (hperm.mem_iff.mp he) f (hperm.mem_iff.mp hf) hne

end Jaiba.Lib.Moves
