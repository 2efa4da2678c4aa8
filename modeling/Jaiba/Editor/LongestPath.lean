import Jaiba.Engine.Depths

/-!
# Concurrency that the visual editor asks for (`jaiba-ui/src/builder/yaml.ts`)

`longestPath` counts the nodes of the longest path of the drawn graph. The nodes
and edges of the editor have internal ids; what is deployed has the processor
ids in their place.
-/

namespace Jaiba.Editor
open Jaiba.Lib.Digraph
open FlowGraph (edges)

/-- Of a node of the canvas, its internal id and the id of the processor. -/
structure ProcessorNode where
  id : String
  processorId : String

/-- Of an edge of the canvas, its ends. -/
structure ConnectionEdge where
  source : String
  target : String

abbrev Memo := List (String × ℕ)

/-- `visit`. A path on the stack has at most one id for each edge, so one call more than there are
edges is never nested. -/
def visit (edges : List ConnectionEdge) (nodes : ℕ) : ℕ → List String → String → Memo → ℕ × Memo
  | 0, _, _, memo => (0, memo)
  | calls + 1, visiting, id, memo =>
    if id ∈ visiting then (nodes + 1, memo)
    else
      match memo.lookup id with
      | some cached => (cached, memo)
      | none =>
        let below := (edges.filter fun e => e.source = id).foldl
          (fun acc e =>
            let v := visit edges nodes calls (id :: visiting) e.target acc.2
            (max acc.1 v.1, v.2))
          (0, memo)
        (1 + below.1, (id, 1 + below.1) :: below.2)

def longestPath (nodes : List ProcessorNode) (edges : List ConnectionEdge) : ℕ :=
  (nodes.foldl
    (fun acc node =>
      let v := visit edges nodes.length (edges.length + 1) [] node.id acc.2
      (max acc.1 v.1, v.2))
    ((0, []) : ℕ × Memo)).1

/-- The check of `validateFlow` on the concurrency. -/
def concurrencyIssue (maxConcurrency : ℕ) (nodes : List ProcessorNode) (edges : List ConnectionEdge) : Option String :=
  if 0 < nodes.length && maxConcurrency < longestPath nodes edges then
    some ("La concurrencia máxima debe ser al menos " ++ toString (longestPath nodes edges) ++
      " para la ruta más larga.")
  else none

/-! ### Longest paths of the canvas -/

def drawn (edges : List ConnectionEdge) : List (String × String) := edges.map fun e => (e.source, e.target)

/-- Every entry counts the nodes of the longest path from its id. -/
def Counted (edges : List ConnectionEdge) (memo : Memo) : Prop := ∀ e ∈ memo, e.2 = 1 + longest (drawn edges) e.1

theorem longest_eq_foldl {edges : List ConnectionEdge} (h : Acyclic (drawn edges)) (id : String) :
    longest (drawn edges) id = (edges.filter fun e => e.source = id).foldl
      (fun d e => max d (1 + longest (drawn edges) e.target)) 0 := by
  rw [h.longest_eq id]
  have hfilter : (drawn edges).filter (fun e => e.1 = id) =
      (edges.filter fun e => e.source = id).map fun e => (e.source, e.target) := by
    rw [drawn, List.filter_map]
    rfl
  rw [hfilter, List.foldl_map]

/-- One call: the ids on the stack all lead to the one that is visited. -/
theorem visit_spec {edges : List ConnectionEdge} (h : Acyclic (drawn edges)) (nodes calls : ℕ)
    (visiting : List String) {id : String} {memo : Memo} (hcalls : longest (drawn edges) id < calls)
    (hstack : ∀ x ∈ visiting, Relation.TransGen (fun a b => (a, b) ∈ drawn edges) x id)
    (hmemo : Counted edges memo) :
    (visit edges nodes calls visiting id memo).1 = 1 + longest (drawn edges) id ∧
      Counted edges (visit edges nodes calls visiting id memo).2 := by
  induction calls generalizing visiting id memo with
  | zero => exact absurd hcalls (Nat.not_lt_zero _)
  | succ calls ih =>
    have hnot : id ∉ visiting := fun hmem => h _ (hstack _ hmem)
    rw [visit, if_neg hnot]
    cases hlookup : memo.lookup id with
    | some cached => exact ⟨hmemo _ (Engine.mem_of_lookup hlookup), hmemo⟩
    | none =>
      dsimp only
      let P : Memo → Memo → Prop := fun a b => Counted edges a → Counted edges b
      let step : ConnectionEdge → Memo → ℕ × Memo := fun e m => visit edges nodes calls (id :: visiting) e.target m
      have hsteps : ∀ e ∈ edges.filter (fun e => e.source = id), ∀ m, P memo m →
          (step e m).1 = 1 + longest (drawn edges) e.target ∧ P m (step e m).2 := by
        intro e he m hm
        obtain ⟨hmem, hsource⟩ := List.mem_filter.mp he
        have hedge : (id, e.target) ∈ drawn edges :=
          List.mem_map.mpr ⟨e, hmem, by rw [of_decide_eq_true hsource]⟩
        have hlt := h.longest_lt hedge
        have hreach : ∀ x ∈ id :: visiting,
            Relation.TransGen (fun a b => (a, b) ∈ drawn edges) x e.target := by
          intro x hx
          rcases List.mem_cons.mp hx with rfl | hx
          · exact .single hedge
          · exact (hstack x hx).tail hedge
        obtain ⟨hvalue, hcounted⟩ := ih (id :: visiting) (by omega) hreach (hm hmemo)
        exact ⟨hvalue, fun _ => hcounted⟩
      obtain ⟨hbelow, hcounted⟩ := Engine.foldl_max (P := P) (fun _ h => h)
        (fun _ _ _ hab hbc ha => hbc (hab ha)) hsteps 0
      rw [← longest_eq_foldl h id] at hbelow
      refine ⟨congrArg (1 + ·) hbelow, fun e he => ?_⟩
      rcases List.mem_cons.mp he with rfl | he
      · exact congrArg (1 + ·) hbelow
      · exact hcounted hmemo e he

/-- `longestPath` is one more than the longest path of an acyclic canvas. -/
theorem longestPath_eq {nodes : List ProcessorNode} {edges : List ConnectionEdge} (h : Acyclic (drawn edges))
    (hne : nodes ≠ []) (hends : ∀ e ∈ edges, e.source ∈ nodes.map ProcessorNode.id) :
    ∃ n, longestPath nodes edges = 1 + n ∧ IsGreatest {n | ∃ a b, Path (drawn edges) n a b} n := by
  let step : ProcessorNode → Memo → ℕ × Memo := fun node m =>
    visit edges nodes.length (edges.length + 1) [] node.id m
  have hsteps : ∀ node ∈ nodes, ∀ m, (Counted edges [] → Counted edges m) →
      (step node m).1 = 1 + longest (drawn edges) node.id ∧ (Counted edges m → Counted edges (step node m).2) := by
    intro node _ m hm
    have hle := h.longest_le node.id
    rw [drawn, List.length_map] at hle
    obtain ⟨hvalue, hcounted⟩ := visit_spec h nodes.length (edges.length + 1) []
      (Nat.lt_succ_of_le hle) (by simp) (hm (by simp [Counted]))
    exact ⟨hvalue, fun _ => hcounted⟩
  obtain ⟨hfold, -⟩ := Engine.foldl_max (P := fun a b => Counted edges a → Counted edges b) (fun _ => id)
    (fun _ _ _ hab hbc ha => hbc (hab ha)) hsteps 0
  have hpath : longestPath nodes edges =
      nodes.foldl (fun d node => max d (1 + longest (drawn edges) node.id)) 0 := hfold
  -- the fold is the greatest of its values
  have hmax : ∀ (ns : List ProcessorNode) (d : ℕ),
      (∀ node ∈ ns, 1 + longest (drawn edges) node.id ≤
        ns.foldl (fun d node => max d (1 + longest (drawn edges) node.id)) d) ∧
      d ≤ ns.foldl (fun d node => max d (1 + longest (drawn edges) node.id)) d ∧
      (ns.foldl (fun d node => max d (1 + longest (drawn edges) node.id)) d = d ∨
        ∃ node ∈ ns, ns.foldl (fun d node => max d (1 + longest (drawn edges) node.id)) d =
          1 + longest (drawn edges) node.id) := by
    intro ns
    induction ns with
    | nil => exact fun d => ⟨by simp, Nat.le_refl d, .inl rfl⟩
    | cons node ns ih =>
      intro d
      obtain ⟨hle, hd, hattained⟩ := ih (max d (1 + longest (drawn edges) node.id))
      rw [List.foldl_cons]
      refine ⟨fun x hx => ?_, Nat.le_trans (le_max_left _ _) hd, ?_⟩
      · rcases List.mem_cons.mp hx with rfl | hx
        · exact Nat.le_trans (le_max_right _ _) hd
        · exact hle x hx
      · rcases hattained with heq | ⟨x, hx, heq⟩
        · rcases max_choice d (1 + longest (drawn edges) node.id) with hchoice | hchoice
          · exact .inl (heq.trans hchoice)
          · exact .inr ⟨node, List.mem_cons_self, heq.trans hchoice⟩
        · exact .inr ⟨x, List.mem_cons_of_mem node hx, heq⟩
  obtain ⟨hle, -, hattained⟩ := hmax nodes 0
  rw [← hpath] at hle hattained
  obtain ⟨first, hfirst⟩ := List.exists_mem_of_ne_nil nodes hne
  have hpos := hle first hfirst
  obtain ⟨node, -, heq⟩ := hattained.resolve_left (by omega)
  refine ⟨longest (drawn edges) node.id, heq, ⟨node.id, (h.isGreatest_longest node.id).1⟩, ?_⟩
  · rintro n ⟨a, b, hab⟩
    cases hab with
    | nil => exact Nat.zero_le _
    | cons hedge hrest =>
      obtain ⟨e, he, hends'⟩ := List.mem_map.mp hedge
      obtain ⟨source, hsource, hid⟩ := List.mem_map.mp (hends e he)
      have hlongest := (h.isGreatest_longest a).2 ⟨b, .cons hedge hrest⟩
      have hbound := hle source hsource
      have hfrom : e.source = a := congrArg Prod.fst hends'
      rw [hid, hfrom] at hbound
      omega

/-! ### The deployed flow -/

/-- `idByNode.get(id)`. -/
def processorOf (nodes : List ProcessorNode) (id : String) : String :=
  ((nodes.find? fun node => node.id = id).map ProcessorNode.processorId).getD ""

/-- A canvas with distinct internal ids and edges between its nodes, and the processors and
connections that it is exported to. -/
structure Exports (nodes : List ProcessorNode) (edges : List ConnectionEdge) (config : FlowConfig) : Prop where
  ids : (nodes.map ProcessorNode.id).Nodup
  ends : ∀ e ∈ edges, e.source ∈ nodes.map ProcessorNode.id ∧ e.target ∈ nodes.map ProcessorNode.id
  processors : config.processors.map ProcessorConfig.id = nodes.map ProcessorNode.processorId
  connections : FlowGraph.edges config.connections =
    edges.map fun e => (processorOf nodes e.source, processorOf nodes e.target)

theorem processorOf_of_mem {nodes : List ProcessorNode} (hids : (nodes.map ProcessorNode.id).Nodup)
    {node : ProcessorNode} (h : node ∈ nodes) : processorOf nodes node.id = node.processorId := by
  obtain ⟨found, hfound⟩ := Option.isSome_iff_exists.mp
    (List.find?_isSome.mpr ⟨node, h, decide_eq_true rfl⟩ : (nodes.find? fun n => n.id = node.id).isSome)
  have hid := List.find?_some hfound
  rw [decide_eq_true_eq] at hid
  have hsame : found = node := List.inj_on_of_nodup_map hids (List.mem_of_find?_eq_some hfound) h hid
  rw [processorOf, hfound, hsame]
  rfl

/-- Different nodes are different processors. -/
theorem Exports.injOn {nodes : List ProcessorNode} {edges : List ConnectionEdge} {config : FlowConfig}
    (h : Exports nodes edges config) (hnodup : (config.processors.map ProcessorConfig.id).Nodup) :
    Set.InjOn (processorOf nodes) {id | id ∈ nodes.map ProcessorNode.id} := by
  intro x hx y hy hxy
  obtain ⟨a, ha, rfl⟩ := List.mem_map.mp hx
  obtain ⟨b, hb, rfl⟩ := List.mem_map.mp hy
  rw [processorOf_of_mem h.ids ha, processorOf_of_mem h.ids hb] at hxy
  rw [h.processors] at hnodup
  rw [List.inj_on_of_nodup_map hnodup ha hb hxy]

theorem Exports.edges_eq {nodes : List ProcessorNode} {edges : List ConnectionEdge} {config : FlowConfig}
    (h : Exports nodes edges config) : FlowGraph.edges config.connections =
      (drawn edges).map fun e => (processorOf nodes e.1, processorOf nodes e.2) := by
  rw [h.connections, drawn, List.map_map]
  rfl

/-- Where what is deployed is acyclic, so is the canvas. -/
theorem Exports.acyclic {nodes : List ProcessorNode} {edges : List ConnectionEdge} {config : FlowConfig}
    (h : Exports nodes edges config) (hacyclic : Acyclic (FlowGraph.edges config.connections)) :
    Acyclic (drawn edges) := by
  intro id hcycle
  refine hacyclic (processorOf nodes id) (hcycle.lift (processorOf nodes) fun a b hedge => ?_)
  rw [h.edges_eq]
  exact List.mem_map.mpr ⟨(a, b), hedge, rfl⟩

/-- The editor and the engine ask for the same concurrency. -/
theorem Exports.longestPath_eq {nodes : List ProcessorNode} {edges : List ConnectionEdge} {config : FlowConfig}
    (h : Exports nodes edges config) (hwell : FlowGraph.WellFormed config)
    (hacyclic : Acyclic (FlowGraph.edges config.connections)) :
    longestPath nodes edges = Engine.requiredPipelineSlots config := by
  have hnodes : nodes ≠ [] := by
    intro hnil
    have hprocessors := h.processors
    rw [hnil, List.map_nil, List.map_eq_nil_iff] at hprocessors
    exact hwell.nonempty hprocessors
  have hcanvas := h.acyclic hacyclic
  have hrename : ∀ id ∈ nodes.map ProcessorNode.id,
      longest (FlowGraph.edges config.connections) (processorOf nodes id) = longest (drawn edges) id := by
    intro id hid
    rw [h.edges_eq]
    refine longest_map (h.injOn hwell.nodup) (fun e he => ?_) hid
    obtain ⟨k, hk, rfl⟩ := List.mem_map.mp he
    exact h.ends k hk
  obtain ⟨n, hpath, ⟨⟨a, b, hab⟩, hmax⟩⟩ := Editor.longestPath_eq hcanvas hnodes fun e he => (h.ends e he).1
  obtain ⟨m, hslots, ⟨⟨c, d, hcd⟩, hmax'⟩⟩ :=
    Engine.requiredPipelineSlots_eq hacyclic hwell.nonempty fun k hk => (hwell.known k hk).1
  have hle : n ≤ m := by
    cases hab with
    | nil => exact Nat.zero_le _
    | cons hedge hrest =>
      obtain ⟨e, he, heq⟩ := List.mem_map.mp hedge
      have hsource : e.source = a := congrArg Prod.fst heq
      have hlongest := (hcanvas.isGreatest_longest a).2 ⟨b, .cons hedge hrest⟩
      rw [← hrename a (hsource ▸ (h.ends e he).1)] at hlongest
      exact Nat.le_trans hlongest (hmax' ⟨_, (hacyclic.isGreatest_longest _).1⟩)
  have hge : m ≤ n := by
    cases hcd with
    | nil => exact Nat.zero_le _
    | cons hedge hrest =>
      have hlongest := (hacyclic.isGreatest_longest c).2 ⟨d, .cons hedge hrest⟩
      rw [h.connections] at hedge
      obtain ⟨e, he, heq⟩ := List.mem_map.mp hedge
      have hsource : processorOf nodes e.source = c := congrArg Prod.fst heq
      rw [← hsource, hrename e.source (h.ends e he).1] at hlongest
      exact Nat.le_trans hlongest (hmax ⟨_, (hcanvas.isGreatest_longest _).1⟩)
  rw [hpath, hslots]
  omega

/-- In an accepted graph every depth is the length of the longest path to a sink, the engine asks
for one slot more than the longest path, and so does the editor on every acyclic canvas. -/
theorem depths_agree {hash : HashOrder} {config : FlowConfig} {order : List String}
    (hbuild : FlowGraph.build hash config = .ok order) :
    (∀ id ∈ config.processors.map ProcessorConfig.id,
      IsGreatest {n | ∃ sink, Path (FlowGraph.edges config.connections) n id sink ∧
        ∀ next, (sink, next) ∉ FlowGraph.edges config.connections} (Engine.depthOf config id)) ∧
    (∀ k ∈ config.connections, Engine.depthOf config k.target < Engine.depthOf config k.source) ∧
    (∃ n, IsGreatest {n | ∃ a b, Path (FlowGraph.edges config.connections) n a b} n ∧
      Engine.requiredPipelineSlots config = 1 + n ∧
      (Engine.validate config = .ok () → 1 + n ≤ config.engine.maxConcurrency)) ∧
    (∀ (nodes : List ProcessorNode) (edges : List ConnectionEdge), nodes ≠ [] →
      (∀ e ∈ edges, e.source ∈ nodes.map ProcessorNode.id) → Acyclic (drawn edges) →
      ∃ n, IsGreatest {n | ∃ a b, Path (drawn edges) n a b} n ∧ longestPath nodes edges = 1 + n) ∧
    ∀ (nodes : List ProcessorNode) (edges : List ConnectionEdge), Exports nodes edges config →
      longestPath nodes edges = Engine.requiredPipelineSlots config ∧
      (concurrencyIssue config.engine.maxConcurrency nodes edges = none ↔
        ¬ config.engine.maxConcurrency < Engine.requiredPipelineSlots config) := by
  obtain ⟨hne, hnodup, hknown, hacyclic⟩ := (FlowGraph.build_decides hash config).1.mp ⟨order, hbuild⟩
  have hwell : FlowGraph.WellFormed config := ⟨hne, hnodup, hknown⟩
  refine ⟨fun id hid => ?_, fun k hk => ?_, ?_, fun nodes edges hnodes hends hcanvas => ?_,
    fun nodes edges hexports => ?_⟩
  · rw [Engine.depthOf_eq_longest hacyclic hid]
    exact hacyclic.isGreatest_to_sink id
  · rw [Engine.depthOf_eq_longest hacyclic (hknown k hk).1, Engine.depthOf_eq_longest hacyclic (hknown k hk).2]
    exact hacyclic.longest_lt (List.mem_map.mpr ⟨k, hk, rfl⟩)
  · obtain ⟨n, hslots, hgreatest⟩ :=
      Engine.requiredPipelineSlots_eq hacyclic hne fun k hk => (hknown k hk).1
    refine ⟨n, hgreatest, hslots, fun hvalid => ?_⟩
    rw [← hslots]
    exact (Engine.validate_ok hvalid).2.2.2.2
  · obtain ⟨n, hpath, hgreatest⟩ := longestPath_eq hcanvas hnodes hends
    exact ⟨n, hgreatest, hpath⟩
  · have hsame := hexports.longestPath_eq hwell hacyclic
    have hpos : 0 < nodes.length := by
      have hlength := congrArg List.length hexports.processors
      rw [List.length_map, List.length_map] at hlength
      rw [← hlength]
      exact List.length_pos_iff.mpr hne
    refine ⟨hsame, ?_⟩
    unfold concurrencyIssue
    rw [hsame, decide_eq_true hpos, Bool.true_and]
    by_cases hlow : config.engine.maxConcurrency < Engine.requiredPipelineSlots config
    · rw [if_pos (decide_eq_true hlow)]
      exact ⟨fun h => (by cases h), fun h => absurd hlow h⟩
    · rw [if_neg (fun h => hlow (of_decide_eq_true h))]
      exact ⟨fun _ => hlow, fun _ => rfl⟩

/-- Two parallel edges and one more: two edges on the longest path, three slots. -/
theorem depths_parallel : Engine.depthOf FlowGraph.parallelFlow "source" = 2 ∧
    longestPath [⟨"n1", "sink"⟩, ⟨"n2", "source"⟩, ⟨"n3", "middle"⟩]
      [⟨"n2", "n3"⟩, ⟨"n2", "n3"⟩, ⟨"n3", "n1"⟩] = Engine.requiredPipelineSlots FlowGraph.parallelFlow := by
  have hbuild : FlowGraph.build .asStored FlowGraph.parallelFlow = .ok ["source", "middle", "sink"] := rfl
  have hexports : Exports [⟨"n1", "sink"⟩, ⟨"n2", "source"⟩, ⟨"n3", "middle"⟩]
      [⟨"n2", "n3"⟩, ⟨"n2", "n3"⟩, ⟨"n3", "n1"⟩] FlowGraph.parallelFlow :=
    ⟨by decide, by decide, rfl, rfl⟩
  exact ⟨rfl, ((depths_agree hbuild).2.2.2.2 _ _ hexports).1⟩

end Jaiba.Editor
