import Jaiba.Graph
import Jaiba.Lib.Digraph

/-!
# Topological orders of a flow (`jaiba-core/src/graph.rs`)

`FlowGraph::build` accepts exactly the acyclic graphs, and its order is
topological. A connection is counted as often as it occurs, both in the degrees
and in the rounds that decrement them.
-/

namespace Jaiba.FlowGraph
open Jaiba.Lib Jaiba.Lib.Digraph

/-- The connections as pairs of ids. -/
def edges (connections : List ConnectionConfig) : List (String × String) :=
  connections.map fun k => (k.source, k.target)

theorem firstDuplicate_none_iff {seen ids : List String} :
    firstDuplicate seen ids = none ↔ ids.Nodup ∧ ∀ id ∈ ids, id ∉ seen := by
  induction ids generalizing seen with
  | nil => simp [firstDuplicate]
  | cons id ids ih =>
    rw [firstDuplicate, List.nodup_cons]
    split
    next hseen =>
      refine ⟨fun h => (by cases h), fun h => absurd hseen (h.2 id List.mem_cons_self)⟩
    next hseen =>
      rw [ih]
      constructor
      · rintro ⟨hnodup, hfresh⟩
        refine ⟨⟨fun hmem => hfresh id hmem List.mem_cons_self, hnodup⟩, fun x hx => ?_⟩
        rcases List.mem_cons.mp hx with rfl | hx
        · exact hseen
        · exact fun hmem => hfresh x hx (List.mem_cons_of_mem id hmem)
      · rintro ⟨⟨hid, hnodup⟩, hfresh⟩
        refine ⟨hnodup, fun x hx hmem => ?_⟩
        rcases List.mem_cons.mp hmem with rfl | hmem
        · exact hid hx
        · exact hfresh x (List.mem_cons_of_mem id hx) hmem

/-! ### One round -/

/-- A round lowers every degree by the number of its connections, and queues once each id whose
degree they bring to zero. -/
theorem relax_spec {indegree : String → ℕ} (pending : List String) {destinations : List String}
    (hcount : ∀ v, destinations.count v ≤ indegree v) :
    ∃ queued : List String,
      relax indegree pending destinations = (fun v => indegree v - destinations.count v, pending ++ queued) ∧
      queued.Nodup ∧ ∀ v, v ∈ queued ↔ v ∈ destinations ∧ indegree v = destinations.count v := by
  induction destinations generalizing indegree pending with
  | nil => exact ⟨[], by simp [relax], .nil, by simp⟩
  | cons x rest ih =>
    have hx := hcount x
    rw [List.count_cons_self] at hx
    have hrest : ∀ v, rest.count v ≤ Function.update indegree x (indegree x - 1) v := by
      intro v
      by_cases hv : v = x
      · rw [hv, Function.update_self]
        omega
      · have hle := hcount v
        rw [List.count_cons_of_ne (Ne.symm hv)] at hle
        rw [Function.update_of_ne hv]
        exact hle
    have hdegree : ∀ v, Function.update indegree x (indegree x - 1) v - rest.count v =
        indegree v - (x :: rest).count v := by
      intro v
      by_cases hv : v = x
      · rw [hv, Function.update_self, List.count_cons_self]
        omega
      · rw [Function.update_of_ne hv, List.count_cons_of_ne (Ne.symm hv)]
    obtain ⟨queued, hrelax, hnodup, hqueued⟩ :=
      ih (if indegree x - 1 = 0 then pending ++ [x] else pending) hrest
    rw [relax, hrelax]
    by_cases hzero : indegree x - 1 = 0
    · have hnot : x ∉ rest := by
        intro hmem
        have hpos := List.count_pos_iff.mpr hmem
        omega
      have hcountx : rest.count x = 0 := List.count_eq_zero.mpr hnot
      refine ⟨x :: queued, ?_, List.nodup_cons.mpr ⟨fun hmem => hnot ((hqueued x).mp hmem).1, hnodup⟩, fun v => ?_⟩
      · rw [if_pos hzero, List.append_assoc, List.singleton_append]
        exact Prod.ext (funext hdegree) rfl
      · rw [List.mem_cons, hqueued]
        by_cases hv : v = x
        · rw [hv, List.count_cons_self]
          refine ⟨fun _ => ⟨List.mem_cons_self, by omega⟩, fun _ => .inl rfl⟩
        · rw [Function.update_of_ne hv, List.mem_cons, List.count_cons_of_ne (Ne.symm hv)]
          simp [hv]
    · refine ⟨queued, ?_, hnodup, fun v => ?_⟩
      · rw [if_neg hzero]
        exact Prod.ext (funext hdegree) rfl
      · rw [hqueued]
        by_cases hv : v = x
        · rw [hv, Function.update_self, List.count_cons_self]
          constructor
          · rintro ⟨-, heq⟩
            exact ⟨List.mem_cons_self, by omega⟩
          · rintro ⟨-, heq⟩
            exact ⟨List.count_pos_iff.mp (by omega), by omega⟩
        · rw [Function.update_of_ne hv, List.mem_cons, List.count_cons_of_ne (Ne.symm hv)]
          simp [hv]

/-! ### The outer loop -/

/-- The ids that are ordered or queued are those that no connection of an unordered id reaches. -/
structure Ordering (connections : List ConnectionConfig) (ids : List String) (indegree : String → ℕ)
    (pending order : List String) : Prop where
  nodup : (order ++ pending).Nodup
  known : ∀ v ∈ order ++ pending, v ∈ ids
  degree : ∀ v, indegree v = connections.countP fun k => k.target = v ∧ k.source ∉ order
  ready : ∀ v ∈ ids, v ∈ order ++ pending ↔ indegree v = 0
  forward : ∀ i v, order[i]? = some v → ∀ k ∈ connections, k.target = v → k.source ∈ order.take i

variable {connections : List ConnectionConfig} {ids : List String}

/-- Before the first round. -/
theorem Ordering.start (hash : HashOrder) (hnodup : ids.Nodup) :
    Ordering connections ids (fun id => connections.countP fun k => k.target = id)
      (hash.iter (ids.filter fun id => connections.countP (fun k => k.target = id) = 0)) [] where
  nodup := by
    rw [List.nil_append]
    exact (hash.perm _).nodup_iff.mpr (hnodup.filter _)
  known := by
    intro v hv
    exact (List.mem_filter.mp ((hash.perm _).mem_iff.mp hv)).1
  degree := by
    intro v
    simp
  ready := by
    intro v hv
    rw [List.nil_append, (hash.perm _).mem_iff, List.mem_filter, decide_eq_true_eq]
    exact ⟨fun h => h.2, fun h => ⟨hv, h⟩⟩
  forward := by
    intro i v hi
    cases hi

/-- What the ordering of an id takes from the degrees. -/
theorem degree_split (connections : List ConnectionConfig) {id : String} {order : List String} (hnew : id ∉ order)
    (v : String) :
    (connections.countP fun k => k.target = v ∧ k.source ∉ order) =
      (connections.countP fun k => k.target = v ∧ k.source ∉ order ++ [id]) +
        ((connections.filter fun k => k.source = id).map ConnectionConfig.target).count v := by
  rw [List.countP_eq_countP_filter_add connections _ fun k => k.source = id, Nat.add_comm]
  congr 1
  · rw [List.countP_filter]
    refine List.countP_congr fun k _ => ?_
    simp [and_assoc]
  · rw [List.count, List.countP_map]
    refine List.countP_congr fun k hk => ?_
    have hsource : k.source = id := of_decide_eq_true (List.mem_filter.mp hk).2
    simp [hsource, hnew]

theorem Ordering.round {indegree : String → ℕ} {id : String} {pending order : List String}
    (h : Ordering connections ids indegree (id :: pending) order)
    (htargets : ∀ k ∈ connections, k.target ∈ ids) :
    Ordering connections ids
      (relax indegree pending ((connections.filter fun k => k.source = id).map ConnectionConfig.target)).1
      (relax indegree pending ((connections.filter fun k => k.source = id).map ConnectionConfig.target)).2
      (order ++ [id]) := by
  have hnew : id ∉ order := by
    have hnodup := h.nodup
    rw [List.nodup_append] at hnodup
    exact fun hmem => hnodup.2.2 id hmem id List.mem_cons_self rfl
  have hsplit := degree_split connections hnew
  have hcount : ∀ v, ((connections.filter fun k => k.source = id).map ConnectionConfig.target).count v ≤
      indegree v := by
    intro v
    rw [h.degree v, hsplit]
    omega
  obtain ⟨queued, hrelax, hqnodup, hqueued⟩ := relax_spec pending hcount
  rw [hrelax]
  have horder : order ++ [id] ++ (pending ++ queued) = order ++ id :: pending ++ queued := by
    rw [List.append_assoc, List.append_assoc, List.singleton_append, List.cons_append]
  have hdegree : ∀ v, indegree v -
      ((connections.filter fun k => k.source = id).map ConnectionConfig.target).count v =
        connections.countP fun k => k.target = v ∧ k.source ∉ order ++ [id] := by
    intro v
    rw [h.degree v, hsplit]
    omega
  have htarget : ∀ v ∈ queued, v ∈ ids ∧ indegree v ≠ 0 := by
    intro v hv
    obtain ⟨hmem, heq⟩ := (hqueued v).mp hv
    obtain ⟨k, hk, rfl⟩ := List.mem_map.mp hmem
    have hpos := List.count_pos_iff.mpr hmem
    exact ⟨htargets k (List.mem_filter.mp hk).1, by omega⟩
  refine ⟨?_, ?_, hdegree, ?_, ?_⟩
  · rw [horder]
    refine List.nodup_append.mpr ⟨h.nodup, hqnodup, fun v hv w hw heq => ?_⟩
    subst heq
    exact (htarget v hw).2 ((h.ready v (htarget v hw).1).mp hv)
  · intro v hv
    rw [horder] at hv
    rcases List.mem_append.mp hv with hv | hv
    · exact h.known v hv
    · exact (htarget v hv).1
  · intro v hv
    rw [horder, List.mem_append, h.ready v hv, hqueued]
    have hle := hcount v
    constructor
    · rintro (hzero | ⟨-, heq⟩)
      · show indegree v - _ = 0
        omega
      · show indegree v - _ = 0
        omega
    · intro hzero
      have hsub : indegree v - ((connections.filter fun k => k.source = id).map
        ConnectionConfig.target).count v = 0 := hzero
      by_cases hv0 : indegree v = 0
      · exact .inl hv0
      · exact .inr ⟨List.count_pos_iff.mp (by omega), by omega⟩
  · intro i v hi k hk hkv
    have hlast : order.length ≤ i → i = order.length ∧ id = v := by
      intro hge
      rw [List.getElem?_append_right hge, List.getElem?_singleton] at hi
      split at hi
      · exact ⟨by omega, Option.some.inj hi⟩
      · cases hi
    by_cases hlt : i < order.length
    · rw [List.getElem?_append_left hlt] at hi
      rw [List.take_append_of_le_length (Nat.le_of_lt hlt)]
      exact h.forward i v hi k hk hkv
    · obtain ⟨rfl, rfl⟩ := hlast (Nat.not_lt.mp hlt)
      rw [List.take_left]
      by_contra hsource
      have hmem : id ∈ order ++ id :: pending := List.mem_append_right _ List.mem_cons_self
      have hzero := (h.ready id (h.known id hmem)).mp hmem
      rw [h.degree, List.countP_eq_zero] at hzero
      exact hzero k hk (decide_eq_true ⟨hkv, hsource⟩)

/-- The loop ends with an empty queue. -/
theorem Ordering.drain (htargets : ∀ k ∈ connections, k.target ∈ ids) {rounds : ℕ} {indegree : String → ℕ}
    {pending order : List String} (h : Ordering connections ids indegree pending order)
    (hrounds : ids.length ≤ order.length + rounds) :
    ∃ indegree', Ordering connections ids indegree' [] (FlowGraph.drain connections rounds indegree pending order) := by
  induction rounds generalizing indegree pending order with
  | zero =>
    have hlength := (List.subperm_of_subset h.nodup h.known).length_le
    rw [List.length_append] at hlength
    have hnil : pending = [] := List.length_eq_zero_iff.mp (by omega)
    rw [hnil] at h
    exact ⟨indegree, h⟩
  | succ rounds ih =>
    cases pending with
    | nil => exact ⟨indegree, h⟩
    | cons id pending =>
      refine ih (h.round htargets) ?_
      rw [List.length_append, List.length_singleton]
      omega

/-! ### The result -/

theorem Ordering.topological {indegree : String → ℕ} {order : List String}
    (h : Ordering connections ids indegree [] order) (hall : ∀ v ∈ ids, v ∈ order)
    (htargets : ∀ k ∈ connections, k.target ∈ ids) : Topological (edges connections) order := by
  intro e he
  obtain ⟨k, hk, rfl⟩ := List.mem_map.mp he
  have htarget := hall k.target (htargets k hk)
  have hlt := List.idxOf_lt_length_iff.mpr htarget
  have hget : order[order.idxOf k.target]? = some k.target := by
    rw [List.getElem?_eq_getElem hlt, List.getElem_idxOf]
  have hbefore := h.forward _ _ hget k hk rfl
  exact (List.mem_take_iff_idxOf_lt (List.mem_of_mem_take hbefore)).mp hbefore

/-- Where an id is left over, so is one with a connection into it. -/
theorem Ordering.complete {indegree : String → ℕ} {order : List String}
    (h : Ordering connections ids indegree [] order) (hacyclic : Acyclic (edges connections))
    (hsources : ∀ k ∈ connections, k.source ∈ ids) : ∀ v ∈ ids, v ∈ order := by
  by_contra hleft
  push Not at hleft
  obtain ⟨w, hw, hworder⟩ := hleft
  have hne : ids.filter (fun v => v ∉ order) ≠ [] :=
    List.ne_nil_of_mem (List.mem_filter.mpr ⟨hw, decide_eq_true hworder⟩)
  obtain ⟨v, hv, hfirst⟩ := hacyclic.exists_source hne
  obtain ⟨hid, hvorder⟩ := List.mem_filter.mp hv
  rw [decide_eq_true_eq] at hvorder
  have hready := h.ready v hid
  rw [List.append_nil] at hready
  refine hvorder (hready.mpr ?_)
  rw [h.degree, List.countP_eq_zero]
  intro k hk hboth
  obtain ⟨htarget, hsource⟩ := of_decide_eq_true hboth
  refine hfirst (k.source, k.target) (List.mem_map.mpr ⟨k, hk, rfl⟩) htarget ?_
  exact List.mem_filter.mpr ⟨hsources k hk, decide_eq_true hsource⟩

/-- What the loops of `build` compute. -/
def loops (hash : HashOrder) (config : FlowConfig) : List String :=
  let ids := config.processors.map ProcessorConfig.id
  drain config.connections ids.length (fun id => config.connections.countP fun k => k.target = id)
    (hash.iter (ids.filter fun id => config.connections.countP (fun k => k.target = id) = 0)) []

/-- The ids are distinct and there is one, and every connection names known ones. -/
structure WellFormed (config : FlowConfig) : Prop where
  nonempty : config.processors ≠ []
  nodup : (config.processors.map ProcessorConfig.id).Nodup
  known : ∀ k ∈ config.connections, k.source ∈ config.processors.map ProcessorConfig.id ∧
    k.target ∈ config.processors.map ProcessorConfig.id

theorem build_ok_iff {hash : HashOrder} {config : FlowConfig} {order : List String} :
    build hash config = .ok order ↔
      WellFormed config ∧ loops hash config = order ∧ order.length = config.processors.length := by
  have hunknown : (config.connections.find? fun k => k.source ∉ config.processors.map ProcessorConfig.id ||
      k.target ∉ config.processors.map ProcessorConfig.id) = none ↔
      ∀ k ∈ config.connections, k.source ∈ config.processors.map ProcessorConfig.id ∧
        k.target ∈ config.processors.map ProcessorConfig.id := by
    rw [List.find?_eq_none]
    refine forall₂_congr fun k _ => ?_
    rw [Bool.or_eq_true, decide_eq_true_eq, decide_eq_true_eq, not_or, not_not, not_not]
  unfold build
  by_cases hempty : config.processors.isEmpty
  · rw [if_pos hempty]
    refine ⟨fun h => (by cases h), fun h => absurd (List.isEmpty_iff.mp hempty) h.1.nonempty⟩
  · rw [if_neg hempty]
    have hne : config.processors ≠ [] := fun h => hempty (List.isEmpty_iff.mpr h)
    dsimp only
    cases hdup : firstDuplicate [] (config.processors.map ProcessorConfig.id) with
    | some id =>
      refine ⟨fun h => (by cases h), fun h => ?_⟩
      have hnone := firstDuplicate_none_iff.mpr ⟨h.1.nodup, fun id _ => List.not_mem_nil⟩
      rw [hdup] at hnone
      cases hnone
    | none =>
      have hnodup := (firstDuplicate_none_iff.mp hdup).1
      cases hfind : config.connections.find? fun k => k.source ∉ config.processors.map ProcessorConfig.id ||
          k.target ∉ config.processors.map ProcessorConfig.id with
      | some k =>
        refine ⟨fun h => (by cases h), fun h => ?_⟩
        rw [hunknown.mpr h.1.known] at hfind
        cases hfind
      | none =>
        have hwell : WellFormed config := ⟨hne, hnodup, hunknown.mp hfind⟩
        show (if (loops hash config).length ≠ (config.processors.map ProcessorConfig.id).length then
          Except.error GraphError.cycle else Except.ok (loops hash config)) = .ok order ↔ _
        rw [List.length_map]
        by_cases hlength : (loops hash config).length = config.processors.length
        · rw [if_neg (not_not.mpr hlength), Except.ok.injEq]
          exact ⟨fun h => ⟨hwell, h, h ▸ hlength⟩, fun h => h.2.1⟩
        · rw [if_pos hlength]
          refine ⟨fun h => (by cases h), fun h => ?_⟩
          exact absurd (h.2.1 ▸ h.2.2) hlength

/-- The loops order what no cycle holds back. -/
theorem loops_ordering (hash : HashOrder) {config : FlowConfig} (h : WellFormed config) :
    ∃ indegree, Ordering config.connections (config.processors.map ProcessorConfig.id) indegree []
      (loops hash config) :=
  (Ordering.start hash h.nodup).drain (fun k hk => (h.known k hk).2) (by simp)

/-- `build` accepts the nonempty lists of distinct ids with connections between them and without a
cycle, and its order is a permutation of the ids in which every connection goes forward. -/
theorem build_decides (hash : HashOrder) (config : FlowConfig) :
    ((∃ order, build hash config = .ok order) ↔
      config.processors ≠ [] ∧ (config.processors.map ProcessorConfig.id).Nodup ∧
        (∀ k ∈ config.connections, k.source ∈ config.processors.map ProcessorConfig.id ∧
          k.target ∈ config.processors.map ProcessorConfig.id) ∧
        Acyclic (edges config.connections)) ∧
    ∀ order, build hash config = .ok order →
      order.Perm (config.processors.map ProcessorConfig.id) ∧ Topological (edges config.connections) order := by
  have hresult : ∀ order, build hash config = .ok order → WellFormed config ∧
      order.Perm (config.processors.map ProcessorConfig.id) ∧ Topological (edges config.connections) order := by
    intro order hbuild
    obtain ⟨hwell, rfl, hlength⟩ := build_ok_iff.mp hbuild
    obtain ⟨indegree, hordering⟩ := loops_ordering hash hwell
    have hnodup := hordering.nodup
    have hknown := hordering.known
    rw [List.append_nil] at hnodup hknown
    have hperm : (loops hash config).Perm (config.processors.map ProcessorConfig.id) :=
      (List.subperm_of_subset hnodup hknown).perm_of_length_le (by rw [List.length_map, hlength])
    exact ⟨hwell, hperm, hordering.topological (fun v hv => hperm.mem_iff.mpr hv) fun k hk => (hwell.known k hk).2⟩
  refine ⟨⟨?_, ?_⟩, fun order hbuild => (hresult order hbuild).2⟩
  · rintro ⟨order, hbuild⟩
    obtain ⟨hwell, -, htopological⟩ := hresult order hbuild
    exact ⟨hwell.nonempty, hwell.nodup, hwell.known, htopological.acyclic⟩
  · rintro ⟨hne, hnodup, hknown, hacyclic⟩
    have hwell : WellFormed config := ⟨hne, hnodup, hknown⟩
    obtain ⟨indegree, hordering⟩ := loops_ordering hash hwell
    have hall := hordering.complete hacyclic fun k hk => (hknown k hk).1
    have honodup := hordering.nodup
    have hoknown := hordering.known
    rw [List.append_nil] at honodup hoknown
    refine ⟨loops hash config, build_ok_iff.mpr ⟨hwell, rfl, ?_⟩⟩
    have hle := (List.subperm_of_subset honodup hoknown).length_le
    have hge := (List.subperm_of_subset hnodup hall).length_le
    rw [List.length_map] at hle hge
    exact Nat.le_antisymm hle hge

def sampleProcessor (id : String) : ProcessorConfig where
  id := id
  processorType := "log_records"
  retry := ⟨0, 250, 30000⟩
  scheduling := ⟨1, none, .auto, .unordered, none⟩
  mode := .real

/-- Two parallel connections and one more. -/
def parallelFlow : FlowConfig where
  id := "graph"
  engine := {
    queueCapacity := 100
    maxConcurrency := 4
    drainTimeoutSeconds := 60
    admin := ⟨true, .bearer, "JAIBA_ADMIN_TOKEN", 1048576⟩
    workers := ⟨0, 0⟩
    repositoryEnabled := false
    abandonedAfterSeconds := 0
    domainMemoryEnabled := false }
  processors := [sampleProcessor "sink", sampleProcessor "source", sampleProcessor "middle"]
  connections := [⟨"source", "success", "middle", 100⟩, ⟨"source", "failure", "middle", 100⟩,
    ⟨"middle", "success", "sink", 100⟩]

theorem build_parallel : build .asStored parallelFlow = .ok ["source", "middle", "sink"] ∧
    Topological (edges parallelFlow.connections) ["source", "middle", "sink"] := by
  have hbuild : build .asStored parallelFlow = .ok ["source", "middle", "sink"] := rfl
  exact ⟨hbuild, ((build_decides .asStored parallelFlow).2 _ hbuild).2⟩

end Jaiba.FlowGraph
