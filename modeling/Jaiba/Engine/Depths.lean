import Jaiba.GraphOrder
import Jaiba.Engine.Validation

/-!
# Downstream depths (`engine/executor/validation.rs`)

In an acyclic graph the memo of `processor_downstream_depths` holds the longest
path of every id it has an entry for, in whatever order they are visited.
-/

namespace Jaiba.Engine
open Jaiba.Lib.Digraph
open FlowGraph (edges)

/-- Every entry is the length of the longest path from its id. -/
def Measured (connections : List ConnectionConfig) (memo : Depths) : Prop :=
  ∀ e ∈ memo, e.2 = longest (edges connections) e.1

theorem mem_of_lookup {memo : Depths} {id : String} {depth : ℕ} (h : memo.lookup id = some depth) :
    (id, depth) ∈ memo := by
  induction memo with
  | nil => cases h
  | cons e memo ih =>
    rw [List.lookup_cons] at h
    split at h
    next heq =>
      cases h
      rw [eq_of_beq heq]
      exact List.mem_cons_self
    · exact List.mem_cons_of_mem e (ih h)

theorem lookup_of_mem_keys {memo : Depths} {id : String} (h : id ∈ memo.map Prod.fst) :
    ∃ depth, memo.lookup id = some depth := by
  induction memo with
  | nil => cases h
  | cons e memo ih =>
    rw [List.lookup_cons]
    split
    · exact ⟨_, rfl⟩
    next hne =>
      rcases List.mem_cons.mp h with rfl | h
      · exact absurd hne (by simp)
      · exact ih h

section fold

variable {β μ : Type} {f : β → ℕ} {step : β → μ → ℕ × μ} {P : μ → μ → Prop}

/-- The loop over the successors: each step gives its value and keeps what `P` says of the memo. -/
theorem foldl_max (hrefl : ∀ m, P m m) (htrans : ∀ a b c, P a b → P b c → P a c) {bs : List β} {m₀ : μ}
    (h : ∀ b ∈ bs, ∀ m, P m₀ m → (step b m).1 = f b ∧ P m (step b m).2) (d : ℕ) :
    (bs.foldl (fun acc b => (max acc.1 (step b acc.2).1, (step b acc.2).2)) (d, m₀)).1 =
        bs.foldl (fun d b => max d (f b)) d ∧
      P m₀ (bs.foldl (fun acc b => (max acc.1 (step b acc.2).1, (step b acc.2).2)) (d, m₀)).2 := by
  have hfrom : ∀ bs' : List β, (∀ b ∈ bs', b ∈ bs) → ∀ (d : ℕ) (m : μ), P m₀ m →
      (bs'.foldl (fun acc b => (max acc.1 (step b acc.2).1, (step b acc.2).2)) (d, m)).1 =
          bs'.foldl (fun d b => max d (f b)) d ∧
        P m₀ (bs'.foldl (fun acc b => (max acc.1 (step b acc.2).1, (step b acc.2).2)) (d, m)).2 := by
    intro bs'
    induction bs' with
    | nil => exact fun _ d m hm => ⟨rfl, hm⟩
    | cons b bs' ih =>
      intro hmem d m hm
      obtain ⟨hvalue, hkept⟩ := h b (hmem b List.mem_cons_self) m hm
      rw [List.foldl_cons, List.foldl_cons, ← hvalue]
      exact ih (fun x hx => hmem x (List.mem_cons_of_mem b hx)) _ _ (htrans _ _ _ hm hkept)
  exact hfrom bs (fun b hb => hb) d m₀ (hrefl m₀)

end fold

theorem longest_eq_foldl {connections : List ConnectionConfig} (h : Acyclic (edges connections)) (id : String) :
    longest (edges connections) id = (connections.filter fun k => k.source = id).foldl
      (fun d k => max d (1 + longest (edges connections) k.target)) 0 := by
  rw [h.longest_eq id]
  have hfilter : (edges connections).filter (fun e => e.1 = id) =
      (connections.filter fun k => k.source = id).map fun k => (k.source, k.target) := by
    rw [edges, List.filter_map]
    rfl
  rw [hfilter, List.foldl_map]

/-- One call: the ids on the stack all lead to the one that is visited. -/
theorem visit_spec {connections : List ConnectionConfig} (h : Acyclic (edges connections)) (calls : ℕ)
    (visiting : List String) {processor : String} {memo : Depths}
    (hcalls : longest (edges connections) processor < calls)
    (hstack : ∀ id ∈ visiting, Relation.TransGen (fun a b => (a, b) ∈ edges connections) id processor)
    (hmemo : Measured connections memo) :
    (visit connections calls visiting processor memo).1 = longest (edges connections) processor ∧
      Measured connections (visit connections calls visiting processor memo).2 ∧
      processor ∈ (visit connections calls visiting processor memo).2.map Prod.fst ∧
      memo.map Prod.fst ⊆ (visit connections calls visiting processor memo).2.map Prod.fst := by
  induction calls generalizing visiting processor memo with
  | zero => exact absurd hcalls (Nat.not_lt_zero _)
  | succ calls ih =>
    rw [visit]
    cases hlookup : memo.lookup processor with
    | some depth =>
      have hmem := mem_of_lookup hlookup
      exact ⟨hmemo _ hmem, hmemo, List.mem_map.mpr ⟨_, hmem, rfl⟩, List.Subset.refl _⟩
    | none =>
      have hnot : processor ∉ visiting := fun hmem => h _ (hstack _ hmem)
      dsimp only
      rw [if_neg hnot]
      let P : Depths → Depths → Prop := fun a b =>
        (Measured connections a → Measured connections b) ∧ a.map Prod.fst ⊆ b.map Prod.fst
      let step : ConnectionConfig → Depths → ℕ × Depths := fun k m =>
        (1 + (visit connections calls (processor :: visiting) k.target m).1,
          (visit connections calls (processor :: visiting) k.target m).2)
      have hsteps : ∀ k ∈ connections.filter (fun k => k.source = processor), ∀ m, P memo m →
          (step k m).1 = 1 + longest (edges connections) k.target ∧ P m (step k m).2 := by
        intro k hk m hm
        obtain ⟨hmem, hsource⟩ := List.mem_filter.mp hk
        have hedge : (processor, k.target) ∈ edges connections :=
          List.mem_map.mpr ⟨k, hmem, by rw [of_decide_eq_true hsource]⟩
        have hlt := h.longest_lt hedge
        have hreach : ∀ id ∈ processor :: visiting,
            Relation.TransGen (fun a b => (a, b) ∈ edges connections) id k.target := by
          intro id hid
          rcases List.mem_cons.mp hid with rfl | hid
          · exact .single hedge
          · exact (hstack id hid).tail hedge
        obtain ⟨hvalue, hmeasured, -, hkeys⟩ := ih (processor :: visiting) (by omega) hreach (hm.1 hmemo)
        exact ⟨congrArg (1 + ·) hvalue, fun _ => hmeasured, hkeys⟩
      obtain ⟨hdepth, hmeasured, hkeys⟩ := foldl_max (P := P) (fun _ => ⟨id, List.Subset.refl _⟩)
        (fun _ _ _ hab hbc => ⟨fun ha => hbc.1 (hab.1 ha), List.Subset.trans hab.2 hbc.2⟩) hsteps 0
      rw [← longest_eq_foldl h processor] at hdepth
      refine ⟨hdepth, ?_, List.mem_cons_self, fun id hid => List.mem_cons_of_mem _ (hkeys hid)⟩
      intro e he
      rcases List.mem_cons.mp he with rfl | he
      · exact hdepth
      · exact hmeasured hmemo e he

/-- The memo after all processors are visited. -/
theorem depths_measured {config : FlowConfig} (h : Acyclic (edges config.connections)) :
    Measured config.connections (processorDownstreamDepths config) ∧
      ∀ p ∈ config.processors, p.id ∈ (processorDownstreamDepths config).map Prod.fst := by
  have hfold : ∀ (ps : List ProcessorConfig) (memo : Depths), Measured config.connections memo →
      Measured config.connections (ps.foldl
        (fun depths p => (visit config.connections (config.connections.length + 1) [] p.id depths).2) memo) ∧
      (∀ p ∈ ps, p.id ∈ (ps.foldl
        (fun depths p => (visit config.connections (config.connections.length + 1) [] p.id depths).2) memo).map
          Prod.fst) ∧
      memo.map Prod.fst ⊆ (ps.foldl
        (fun depths p => (visit config.connections (config.connections.length + 1) [] p.id depths).2) memo).map
          Prod.fst := by
    intro ps
    induction ps with
    | nil => exact fun memo hmemo => ⟨hmemo, by simp, List.Subset.refl _⟩
    | cons p ps ih =>
      intro memo hmemo
      have hle := h.longest_le p.id
      rw [edges, List.length_map] at hle
      obtain ⟨-, hmeasured, hvisited, hkeys⟩ := visit_spec h (config.connections.length + 1) []
        (Nat.lt_succ_of_le hle) (by simp) hmemo
      obtain ⟨hrest, hmem, hsub⟩ := ih _ hmeasured
      refine ⟨hrest, fun q hq => ?_, List.Subset.trans hkeys hsub⟩
      rcases List.mem_cons.mp hq with rfl | hq
      · exact hsub hvisited
      · exact hmem q hq
  obtain ⟨hmeasured, hmem, -⟩ := hfold config.processors [] (by simp [Measured])
  exact ⟨hmeasured, hmem⟩

theorem depthOf_eq_longest {config : FlowConfig} (h : Acyclic (edges config.connections)) {id : String}
    (hid : id ∈ config.processors.map ProcessorConfig.id) :
    depthOf config id = longest (edges config.connections) id := by
  obtain ⟨hmeasured, hmem⟩ := depths_measured h
  obtain ⟨p, hp, rfl⟩ := List.mem_map.mp hid
  obtain ⟨depth, hdepth⟩ := lookup_of_mem_keys (hmem p hp)
  rw [depthOf, hdepth, Option.getD_some]
  exact hmeasured _ (mem_of_lookup hdepth)

/-- The slots that `validate` requires are one more than the longest path of the graph. -/
theorem requiredPipelineSlots_eq {config : FlowConfig} (h : Acyclic (edges config.connections))
    (hne : config.processors ≠ [])
    (hknown : ∀ k ∈ config.connections, k.source ∈ config.processors.map ProcessorConfig.id) :
    ∃ n, requiredPipelineSlots config = 1 + n ∧
      IsGreatest {n | ∃ a b, Path (edges config.connections) n a b} n := by
  obtain ⟨hmeasured, hmem⟩ := depths_measured h
  obtain ⟨p, hp⟩ := List.exists_mem_of_ne_nil _ hne
  obtain ⟨first, hfirst, -⟩ := List.mem_map.mp (hmem p hp)
  cases hmax : ((processorDownstreamDepths config).map Prod.snd).max? with
  | none =>
    rw [List.max?_eq_none_iff, List.map_eq_nil_iff] at hmax
    rw [hmax] at hfirst
    cases hfirst
  | some n =>
    obtain ⟨hn, hle⟩ := List.max?_eq_some_iff.mp hmax
    obtain ⟨e, he, rfl⟩ := List.mem_map.mp hn
    refine ⟨e.2, by rw [requiredPipelineSlots, hmax, Option.getD_some, Nat.add_comm], ?_, ?_⟩
    · obtain ⟨b, hb⟩ := (h.isGreatest_longest e.1).1
      rw [← hmeasured e he] at hb
      exact ⟨e.1, b, hb⟩
    · rintro m ⟨a, b, hpath⟩
      cases hpath with
      | nil => exact Nat.zero_le _
      | cons hedge hrest =>
        obtain ⟨k, hk, heq⟩ := List.mem_map.mp hedge
        obtain ⟨q, hq, hqid⟩ := List.mem_map.mp (hknown k hk)
        have hsource : q.id = a := hqid.trans (congrArg Prod.fst heq)
        obtain ⟨entry, hentry, hkey⟩ := List.mem_map.mp (hmem q hq)
        have hlongest := (h.isGreatest_longest a).2 ⟨b, .cons hedge hrest⟩
        have hbound := hle entry.2 (List.mem_map.mpr ⟨entry, hentry, rfl⟩)
        rw [hmeasured entry hentry, hkey, hsource] at hbound
        exact Nat.le_trans hlongest hbound

end Jaiba.Engine
