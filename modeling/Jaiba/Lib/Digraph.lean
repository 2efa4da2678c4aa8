import Mathlib.Data.Finset.Card
import Mathlib.Data.List.Nodup
import Mathlib.Logic.Relation
import Mathlib.Order.Bounds.Basic
import Mathlib.Order.WellFounded
import Mathlib.Order.Lattice.Nat
import Mathlib.Data.Fintype.Order
import Mathlib.Data.Finite.Prod

/-!
# Finite directed multigraphs

A graph is its list of edges; parallel edges are entries of their own. Acyclic
graphs, topological orders and longest paths.
-/

namespace Jaiba.Lib.Digraph

variable {α : Type}

/-- No vertex is reached from itself by a nonempty path. -/
def Acyclic (edges : List (α × α)) : Prop :=
  ∀ a, ¬ Relation.TransGen (fun a b => (a, b) ∈ edges) a a

/-- `Path edges n a b`: a path of `n` edges from `a` to `b`. -/
inductive Path (edges : List (α × α)) : ℕ → α → α → Prop where
  | nil (a : α) : Path edges 0 a a
  | cons {n : ℕ} {a b c : α} (hedge : (a, b) ∈ edges) (hrest : Path edges n b c) : Path edges (n + 1) a c

/-- Every edge goes forward in the list. -/
def Topological [DecidableEq α] (edges : List (α × α)) (order : List α) : Prop :=
  ∀ e ∈ edges, order.idxOf e.1 < order.idxOf e.2

variable {edges : List (α × α)}

theorem Topological.acyclic [DecidableEq α] {order : List α} (h : Topological edges order) : Acyclic edges := by
  intro a hcycle
  have hforward : ∀ {x y : α}, Relation.TransGen (fun a b => (a, b) ∈ edges) x y →
      order.idxOf x < order.idxOf y := by
    intro x y hpath
    induction hpath with
    | single hedge => exact h _ hedge
    | tail _ hedge ih => exact Nat.lt_trans ih (h _ hedge)
  exact Nat.lt_irrefl _ (hforward hcycle)

/-- In an acyclic graph some vertex of a nonempty list has no edge from the list into it. -/
theorem Acyclic.exists_source (h : Acyclic edges) {vs : List α} (hne : vs ≠ []) :
    ∃ v ∈ vs, ∀ e ∈ edges, e.2 = v → e.1 ∉ vs := by
  let r : {v // v ∈ vs} → {v // v ∈ vs} → Prop :=
    fun a b => Relation.TransGen (fun a b => (a, b) ∈ edges) a.1 b.1
  have hfinite : Finite {v // v ∈ vs} := (List.finite_toSet vs)
  have htrans : IsTrans {v // v ∈ vs} r := ⟨fun _ _ _ hab hbc => hab.trans hbc⟩
  have hirrefl : Std.Irrefl r := ⟨fun a => h a.1⟩
  have hwf : WellFounded r := Finite.wellFounded_of_trans_of_irrefl r
  obtain ⟨v, hv⟩ := List.exists_mem_of_ne_nil vs hne
  obtain ⟨m, -, hmin⟩ := hwf.has_min Set.univ ⟨⟨v, hv⟩, trivial⟩
  refine ⟨m.1, m.2, fun e he htarget hsource => ?_⟩
  refine hmin ⟨e.1, hsource⟩ trivial (.single ?_)
  show (e.1, m.1) ∈ edges
  rw [← htarget]
  exact he

/-! ### Paths -/

theorem Path.append {m n : ℕ} {a b c : α} (h : Path edges m a b) (h' : Path edges n b c) :
    Path edges (m + n) a c := by
  induction h with
  | nil a =>
    rw [Nat.zero_add]
    exact h'
  | cons hedge _ ih =>
    rw [Nat.succ_add]
    exact .cons hedge (ih h')

/-- The vertices of a path after the first one. -/
theorem Path.exists_targets {n : ℕ} {a b : α} (h : Path edges n a b) :
    ∃ ts : List α, ts.length = n ∧ (∀ t ∈ ts, t ∈ edges.map Prod.snd) ∧
      (∀ t ∈ ts, Relation.TransGen (fun a b => (a, b) ∈ edges) a t) ∧
      ts.Pairwise (Relation.TransGen fun a b => (a, b) ∈ edges) := by
  induction h with
  | nil a => exact ⟨[], rfl, by simp, by simp, .nil⟩
  | @cons n a b c hedge _ ih =>
    obtain ⟨ts, hlength, hmem, hreach, hpairwise⟩ := ih
    refine ⟨b :: ts, by rw [List.length_cons, hlength], ?_, ?_, List.pairwise_cons.mpr ⟨hreach, hpairwise⟩⟩
    · intro t ht
      rcases List.mem_cons.mp ht with rfl | ht
      · exact List.mem_map.mpr ⟨_, hedge, rfl⟩
      · exact hmem t ht
    · intro t ht
      rcases List.mem_cons.mp ht with rfl | ht
      · exact .single hedge
      · exact .head hedge (hreach t ht)

/-- A path of an acyclic graph has at most as many edges as the graph. -/
theorem Acyclic.path_le (h : Acyclic edges) {n : ℕ} {a b : α} (hpath : Path edges n a b) : n ≤ edges.length := by
  obtain ⟨ts, hlength, hmem, -, hpairwise⟩ := hpath.exists_targets
  have hnodup : ts.Nodup := by
    refine hpairwise.imp fun {x y} hxy heq => ?_
    subst heq
    exact h _ hxy
  have hle := (List.subperm_of_subset hnodup hmem).length_le
  rw [List.length_map] at hle
  omega

/-! ### Longest paths -/

/-- The number of edges of the longest path from a vertex. -/
noncomputable def longest (edges : List (α × α)) (a : α) : ℕ := sSup {n | ∃ b, Path edges n a b}

theorem Acyclic.isGreatest_longest (h : Acyclic edges) (a : α) :
    IsGreatest {n | ∃ b, Path edges n a b} (longest edges a) := by
  have hbounded : BddAbove {n | ∃ b, Path edges n a b} := ⟨edges.length, fun n hn => by
    obtain ⟨b, hb⟩ := hn
    exact h.path_le hb⟩
  exact ⟨Nat.sSup_mem ⟨0, a, .nil a⟩ hbounded, fun n hn => le_csSup hbounded hn⟩

theorem Acyclic.longest_le (h : Acyclic edges) (a : α) : longest edges a ≤ edges.length := by
  obtain ⟨b, hb⟩ := (h.isGreatest_longest a).1
  exact h.path_le hb

/-- Longest paths get shorter along an edge. -/
theorem Acyclic.longest_lt (h : Acyclic edges) {a b : α} (hedge : (a, b) ∈ edges) :
    longest edges b < longest edges a := by
  obtain ⟨c, hc⟩ := (h.isGreatest_longest b).1
  exact (h.isGreatest_longest a).2 ⟨c, .cons hedge hc⟩

/-- A longest path ends in a vertex without edges. -/
theorem Acyclic.isGreatest_to_sink (h : Acyclic edges) (a : α) :
    IsGreatest {n | ∃ b, Path edges n a b ∧ ∀ c, (b, c) ∉ edges} (longest edges a) := by
  obtain ⟨⟨b, hb⟩, hmax⟩ := h.isGreatest_longest a
  refine ⟨⟨b, hb, fun c hedge => ?_⟩, fun n hn => ?_⟩
  · have hlonger := hmax ⟨c, hb.append (.cons hedge (.nil c))⟩
    omega
  · obtain ⟨c, hc, -⟩ := hn
    exact hmax ⟨c, hc⟩

/-- The successors of a vertex decide its longest path. -/
theorem Acyclic.longest_eq [DecidableEq α] (h : Acyclic edges) (a : α) :
    longest edges a = (edges.filter fun e => e.1 = a).foldl (fun d e => max d (1 + longest edges e.2)) 0 := by
  have hfold : ∀ (es : List (α × α)) (d m : ℕ), d ≤ m → (∀ e ∈ es, 1 + longest edges e.2 ≤ m) →
      (d = m ∨ ∃ e ∈ es, 1 + longest edges e.2 = m) →
      es.foldl (fun d e => max d (1 + longest edges e.2)) d = m := by
    intro es
    induction es with
    | nil =>
      intro d m _ _ hex
      rcases hex with rfl | ⟨e, he, -⟩
      · rfl
      · cases he
    | cons e es ih =>
      intro d m hd hle hex
      rw [List.foldl_cons]
      have he := hle e List.mem_cons_self
      refine ih _ m (max_le hd he) (fun e' he' => hle e' (List.mem_cons_of_mem e he')) ?_
      rcases hex with rfl | ⟨e', he', heq⟩
      · exact .inl (max_eq_left he)
      · rcases List.mem_cons.mp he' with rfl | he'
        · exact .inl (by omega)
        · exact .inr ⟨e', he', heq⟩
  symm
  refine hfold _ 0 _ (Nat.zero_le _) (fun e he => ?_) ?_
  · have hmem := List.mem_filter.mp he
    have hsource : e.1 = a := of_decide_eq_true hmem.2
    have hlt := h.longest_lt (a := a) (b := e.2) (hsource ▸ hmem.1)
    omega
  · obtain ⟨b, hb⟩ := (h.isGreatest_longest a).1
    generalize hn : longest edges a = n at hb
    cases hb with
    | nil => exact .inl rfl
    | @cons n _ c _ hedge hrest =>
      refine .inr ⟨(a, c), List.mem_filter.mpr ⟨hedge, decide_eq_true rfl⟩, ?_⟩
      have hge := (h.isGreatest_longest c).2 ⟨b, hrest⟩
      have hlt := h.longest_lt hedge
      show 1 + longest edges c = n + 1
      omega

/-- Renaming the vertices one to one keeps longest paths. -/
theorem longest_map {β : Type} {f : α → β} {vs : Set α} (hf : Set.InjOn f vs)
    (hedges : ∀ e ∈ edges, e.1 ∈ vs ∧ e.2 ∈ vs) {a : α} (ha : a ∈ vs) :
    longest (edges.map fun e => (f e.1, f e.2)) (f a) = longest edges a := by
  have hpush : ∀ {n : ℕ} {a b : α}, Path edges n a b →
      Path (edges.map fun e => (f e.1, f e.2)) n (f a) (f b) := by
    intro n a b h
    induction h with
    | nil a => exact .nil _
    | cons hedge _ ih => exact .cons (List.mem_map.mpr ⟨_, hedge, rfl⟩) ih
  have hpull : ∀ (n : ℕ) {a : α} {y : β}, a ∈ vs → Path (edges.map fun e => (f e.1, f e.2)) n (f a) y →
      ∃ b, Path edges n a b := by
    intro n
    induction n with
    | zero => exact fun _ _ => ⟨_, .nil _⟩
    | succ n ih =>
      intro a y ha h
      obtain ⟨z, hedge, hrest⟩ : ∃ z, (f a, z) ∈ edges.map (fun e => (f e.1, f e.2)) ∧
          Path (edges.map fun e => (f e.1, f e.2)) n z y := by
        cases h with
        | cons hedge hrest => exact ⟨_, hedge, hrest⟩
      obtain ⟨e, he, heq⟩ := List.mem_map.mp hedge
      obtain ⟨hsource, rfl⟩ := Prod.mk.inj heq
      have hfirst : e.1 = a := hf (hedges e he).1 ha hsource
      obtain ⟨b, hb⟩ := ih (hedges e he).2 hrest
      refine ⟨b, .cons (b := e.2) ?_ hb⟩
      rw [← hfirst]
      exact he
  unfold longest
  congr 1
  ext n
  constructor
  · rintro ⟨y, hy⟩
    exact hpull n ha hy
  · rintro ⟨b, hb⟩
    exact ⟨f b, hpush hb⟩

end Jaiba.Lib.Digraph
