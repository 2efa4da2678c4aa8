import Mathlib.Algebra.BigOperators.Group.List.Basic
import Jaiba.Engine.Delivery
import Jaiba.Engine.Progress

/-!
# Occupancy of the processors

How many tasks run at once: in all, for each processor and for each partition
key. The counters of `run_inner` are exact while the run is alive.
-/

namespace Jaiba.Engine
open Jaiba.Lib Jaiba.Control Jaiba.Repository

/-- Processor and partition key of the tasks that have a key. -/
def keyed (roster : List (String × Option String)) : List (String × String) :=
  roster.filterMap fun r => r.2.map fun key => (r.1, key)

structure Occupied (config : FlowConfig) (roster : List (String × Option String))
    (partitions : String → List String) : Prop where
  bound : roster.length ≤ config.engine.maxConcurrency
  kind : ∀ r ∈ roster, ∃ p, config.definition? r.1 = some p ∧
    (r.2.isSome ↔ p.scheduling.ordering = .partitioned)
  limit : ∀ id p, config.definition? id = some p →
    (roster.countP fun r => r.1 = id) ≤ processorLimit p
  keys : (keyed roster).Nodup
  taken : ∀ id key, (id, some key) ∈ roster → key ∈ partitions id

/-! ### Starts and completions -/

section roster
variable {config : FlowConfig} {roster rest : List (String × Option String)}
  {partitions : String → List String} {id key : String}

theorem mem_keyed : (id, key) ∈ keyed roster ↔ (id, some key) ∈ roster := by
  simp only [keyed, List.mem_filterMap, Option.map_eq_some_iff, Prod.mk.injEq]
  constructor
  · rintro ⟨⟨id', key'⟩, hr, k, hk, rfl, rfl⟩
    rw [show some k = key' from hk.symm]
    exact hr
  · intro hr
    exact ⟨(id, some key), hr, key, rfl, rfl, rfl⟩

theorem keyed_perm (h : rest.Perm roster) : (keyed rest).Perm (keyed roster) := h.filterMap _

theorem partitionKeyOf_kind {p : ProcessorConfig} {w : WorkItem} {key : Option String}
    (h : partitionKeyOf p w = .ok key) :
    key.isSome ↔ p.scheduling.ordering = .partitioned := by
  unfold partitionKeyOf at h
  cases hord : p.scheduling.ordering with
  | partitioned =>
    simp only [hord] at h
    split at h <;> cases h
    simp
  | unordered | preserve =>
    simp only [hord] at h
    cases h
    simp

theorem Occupied.start {key : Option String} {p : ProcessorConfig}
    (h : Occupied config roster partitions) (hp : config.definition? id = some p)
    (hkind : key.isSome ↔ p.scheduling.ordering = .partitioned)
    (hslots : roster.length + 1 ≤ config.engine.maxConcurrency)
    (hlimit : (roster.countP fun r => r.1 = id) < processorLimit p)
    (hfree : ∀ k, key = some k → k ∉ partitions id) :
    Occupied config (roster ++ [(id, key)]) (insertPartition partitions id key) := by
  constructor
  · rw [List.length_append, List.length_singleton]
    exact hslots
  · intro r hr
    rcases List.mem_append.mp hr with hr | hr
    · exact h.kind r hr
    · rw [List.mem_singleton.mp hr]
      exact ⟨p, hp, hkind⟩
  · intro id' p' hp'
    rw [List.countP_append, List.countP_singleton]
    have hold := h.limit id' p' hp'
    by_cases hid : id = id'
    · subst hid
      rw [hp] at hp'
      cases hp'
      simp only [decide_true, if_true]
      omega
    · simp only [hid, decide_false, Bool.false_eq_true, if_false]
      omega
  · cases key with
    | none =>
      simp only [keyed, List.filterMap_append, List.filterMap_cons, Option.map_none,
        List.filterMap_nil, List.append_nil]
      exact h.keys
    | some k =>
      have hnew : (id, k) ∉ keyed roster := fun hmem =>
        hfree k rfl (h.taken id k (mem_keyed.mp hmem))
      simp only [keyed, List.filterMap_append, List.filterMap_cons, Option.map_some,
        List.filterMap_nil]
      exact List.nodup_append.mpr ⟨h.keys, List.nodup_singleton _, fun a ha b hb hab =>
        hnew (by rwa [hab, List.mem_singleton.mp hb] at ha)⟩
  · intro id' k' hmem
    rcases List.mem_append.mp hmem with hmem | hmem
    · have hold := h.taken id' k' hmem
      cases key with
      | none => exact hold
      | some k =>
        by_cases hid : id' = id
        · subst hid
          simp only [insertPartition, Function.update_self]
          exact List.mem_cons_of_mem k hold
        · simpa only [insertPartition, Function.update_of_ne hid] using hold
    · cases List.mem_singleton.mp hmem
      simp [insertPartition]

/-- A task leaves; the keys of the others stay taken. -/
theorem Occupied.drop {key : Option String} {partitions' : String → List String}
    (h : Occupied config roster partitions) (hperm : ((id, key) :: rest).Perm roster)
    (htaken : ∀ id' k, (id', some k) ∈ rest → k ∈ partitions' id') :
    Occupied config rest partitions' := by
  have hsub : ∀ r ∈ rest, r ∈ roster := fun r hr => hperm.subset (List.mem_cons_of_mem _ hr)
  constructor
  · have hlen := hperm.length_eq
    rw [List.length_cons] at hlen
    have hbound := h.bound
    omega
  · exact fun r hr => h.kind r (hsub r hr)
  · intro id' p hp
    have hcount := hperm.countP_eq fun r => r.1 = id'
    rw [List.countP_cons] at hcount
    have hold := h.limit id' p hp
    omega
  · have hkeys := (keyed_perm hperm).nodup_iff.mpr h.keys
    rw [keyed, List.filterMap_cons] at hkeys
    split at hkeys
    · exact hkeys
    · exact (List.nodup_cons.mp hkeys).2
  · exact htaken

/-- Only the key of the joined task is released. -/
theorem Occupied.erase {key : Option String} (h : Occupied config roster partitions)
    (hperm : ((id, key) :: rest).Perm roster) :
    Occupied config rest (removePartition partitions id key) := by
  refine h.drop hperm fun id' k hmem => ?_
  have hold := h.taken id' k (hperm.subset (List.mem_cons_of_mem _ hmem))
  cases key with
  | none => exact hold
  | some key =>
    by_cases hid : id' = id
    · subst hid
      simp only [removePartition, Function.update_self]
      have hkeys := (keyed_perm hperm).nodup_iff.mpr h.keys
      have hne : k ≠ key := by
        rintro rfl
        exact (List.nodup_cons.mp hkeys).1 (mem_keyed.mpr hmem)
      exact (List.mem_erase_of_ne hne).mpr hold
    · simpa only [removePartition, Function.update_of_ne hid] using hold

end roster

/-! ### Steps -/

variable {σ : Setup} {s t : State}

/-- Routing does not look at the running tasks. -/
theorem route_roster (input : RouteInput) (s : State) (e : ProcessorEmission) (next : Phase) :
    (holdUnrouted e next (routeEmission σ input s e)).roster = s.roster ∧
      (holdUnrouted e next (routeEmission σ input s e)).partitions = s.partitions := by
  have hpub : ∀ {ks : List ConnectionConfig} {u : State}, Publishes σ e s ks u →
      u.roster = s.roster ∧ u.partitions = s.partitions := by
    intro ks u hp
    rw [hp.frame]
    exact ⟨rfl, rfl⟩
  rcases routeEmission_cases σ input s e with
    ⟨u, hu, hp⟩ | ⟨hu, _⟩ | ⟨error, hu, _⟩ | ⟨error, u, v, done, hu, _, hp, hleft⟩ <;> rw [hu]
  · obtain ⟨hr, hpart⟩ := hpub hp
    exact ⟨hr, hpart⟩
  · exact ⟨rfl, rfl⟩
  · exact ⟨rfl, rfl⟩
  · obtain ⟨hr, hpart⟩ := hpub hp
    rw [hleft.frame]
    exact ⟨hr, hpart⟩

theorem Occupied.same (h : Occupied σ.config s.roster s.partitions) (hr : t.roster = s.roster)
    (hp : t.partitions = s.partitions) : Occupied σ.config t.roster t.partitions := by
  rw [hr, hp]
  exact h

theorem Schedules.occupied {input : ScheduleInput} {backlog : ℕ}
    (hs : Schedules σ input backlog s t) (hc : Coherent σ s)
    (h : Occupied σ.config s.roster s.partitions) : Occupied σ.config t.roster t.partitions := by
  induction hs with
  | idle | stop => exact h
  | @start s t w p key db pending dropped hperm _ hst _ ih =>
    have hroster : (s.start σ w p key db pending).roster = s.roster ++ [(w.processorId, key)] := by
      simp only [State.roster, State.start, List.map_append, taskOf]
      rfl
    refine ih (hc.start hperm hst) ?_
    rw [hroster]
    have hslots := hst.slots
    refine h.start hst.definition (partitionKeyOf_kind hst.keyOf) ?_ ?_ hst.partition
    · rw [State.roster, List.length_map]
      omega
    · rw [← hc.roster.active]
      exact hst.limit

theorem step_occupied {a : Action} (hc : Coherent σ s)
    (h : Occupied σ.config s.roster s.partitions) (hs : step σ s a = some t) :
    Occupied σ.config t.roster t.partitions := by
  obtain ⟨_, htr⟩ := step_transition hs
  cases htr with
  | control | abort | leave | resume | refill | finish | giveUp | select | stall | maintain
    | deadlock => exact h
  | acquire hx => exact h.same (map_set_of_eq _ hx rfl) rfl
  | emit hx _ _ hemit =>
    unfold State.emit at hemit
    simp only at hemit
    split_ifs at hemit <;> cases hemit <;> exact h.same (map_set_of_eq _ hx rfl) rfl
  | @route input e =>
    obtain ⟨hr, hp⟩ := route_roster (σ := σ) input { s with deferred := none } e .scheduling
    exact h.same hr hp
  | @receive input e rest =>
    obtain ⟨hr, hp⟩ := route_roster (σ := σ) input { s with channel := rest } e .head
    exact h.same hr hp
  | @schedule input =>
    rcases scheduleAvailable_cases σ input s with ⟨_, heq⟩ | ⟨_, hsch⟩
    · rw [heq]
      exact h
    · exact hsch.occupied hc h
  | @join i x now _ hx =>
    have hperm := roster_erase hx
    unfold State.complete
    split
    · exact h.drop hperm fun id k hmem =>
        h.taken id k (hperm.subset (List.mem_cons_of_mem _ hmem))
    · exact h.erase hperm

/-! ### Runs -/

theorem start_empty {l : Launch} (h : start σ l = .ok s) :
    s.running = [] ∧ s.partitions = fun _ => [] := by
  unfold start at h
  split at h
  · split at h <;> cases h
    exact ⟨rfl, rfl⟩
  · cases h
    exact ⟨rfl, rfl⟩

theorem reachable_occupied {l : Launch} {s₀ : State} (hstart : start σ l = .ok s₀)
    (h : (engine σ).Reachable s₀ s) :
    ((∃ exit, s.phase = .ended exit) ∨ Coherent σ s) ∧
      Occupied σ.config s.roster s.partitions := by
  obtain ⟨hrun, _⟩ := start_empty hstart
  have hempty : s₀.roster = [] := by rw [State.roster, hrun, List.map_nil]
  have hocc : Occupied σ.config s₀.roster s₀.partitions := by
    rw [hempty]
    exact ⟨Nat.zero_le _, by simp, by simp, List.nodup_nil, by simp⟩
  refine Machine.Reach.invariant (I := fun s => ((∃ exit, s.phase = .ended exit) ∨ Coherent σ s) ∧
    Occupied σ.config s.roster s.partitions) h ⟨.inr (start_coherent hstart), hocc⟩
    fun u a v hu _ hs => ?_
  obtain ⟨⟨exit, he⟩ | hc, ho⟩ := hu
  · exact absurd he ((step_transition hs).1 exit)
  · exact ⟨step_coherent hc hs, step_occupied hc ho hs⟩

theorem index_unique {α β : Type} {f : α → Option β} {l : List α} (hn : (l.filterMap f).Nodup)
    {i j : ℕ} {x y : α} {b : β} (hi : l[i]? = some x) (hj : l[j]? = some y) (hx : f x = some b)
    (hy : f y = some b) : i = j := by
  rw [List.Nodup, List.pairwise_filterMap, List.pairwise_iff_getElem] at hn
  obtain ⟨hil, rfl⟩ := List.getElem?_eq_some_iff.mp hi
  obtain ⟨hjl, rfl⟩ := List.getElem?_eq_some_iff.mp hj
  rcases Nat.lt_trichotomy i j with hlt | heq | hlt
  · exact absurd rfl (hn i j hil hjl hlt b hx b hy)
  · exact heq
  · exact absurd rfl (hn j i hjl hil hlt b hy b hx)

/-- Every task has one processor, so the counters add up to the tasks. -/
theorem sum_countP {ids : List String} (hn : ids.Nodup)
    (roster : List (String × Option String)) (h : ∀ r ∈ roster, r.1 ∈ ids) :
    (ids.map fun id => roster.countP fun r => r.1 = id).sum = roster.length := by
  induction roster with
  | nil => simp
  | cons r roster ih =>
    have hcount : ∀ l : List String, (l.map fun id => if r.1 = id then 1 else 0).sum =
        l.count r.1 := by
      intro l
      induction l with
      | nil => rfl
      | cons id l ih =>
        rw [List.map_cons, List.sum_cons, ih, List.count_cons, Nat.add_comm]
        simp only [beq_iff_eq, eq_comm (a := id)]
    have hone := hcount ids
    rw [List.count_eq_one_of_mem hn (h r List.mem_cons_self)] at hone
    have hrest := ih fun r' hr' => h r' (List.mem_cons_of_mem r hr')
    simp only [List.countP_cons, decide_eq_true_eq, List.sum_map_add, hrest, hone,
      List.length_cons]

/-- The tasks of a processor. -/
def State.tasksOf (s : State) (id : String) : ℕ := s.running.countP fun x => x.processorId = id

theorem tasksOf_roster (s : State) (id : String) :
    (s.roster.countP fun r => r.1 = id) = s.tasksOf id := by
  rw [State.roster, List.countP_map]
  rfl

/-- In every state of a run the tasks keep within `max_concurrency`, within the
limit of their processor and one a partition key; and as long as the run is
alive the counters are the numbers of tasks. -/
theorem tasks_within_limits (σ : Setup) (haccepted : Accepted σ.config) (l : Launch) {s₀ s : State}
    (hstart : start σ l = .ok s₀) (h : (engine σ).Reachable s₀ s) :
    s.running.length ≤ σ.config.engine.maxConcurrency ∧
    (∀ p ∈ σ.config.processors, (s.Live → s.active p.id = s.tasksOf p.id) ∧
      (p.scheduling.ordering = .preserve → s.tasksOf p.id ≤ 1) ∧
      (p.scheduling.ordering ≠ .preserve → s.tasksOf p.id ≤ p.scheduling.concurrentTasks)) ∧
    (∀ x ∈ s.running, ∃ p ∈ σ.config.processors, p.id = x.processorId ∧
      (x.partitionKey.isSome ↔ p.scheduling.ordering = .partitioned)) ∧
    (∀ (i j : ℕ) (x y : Task) (key : String), s.running[i]? = some x → s.running[j]? = some y →
      x.processorId = y.processorId → x.partitionKey = some key → y.partitionKey = some key →
      i = j) ∧
    (s.Live → (σ.config.processors.map fun p => s.active p.id).sum = s.running.length) := by
  obtain ⟨hcoh, hocc⟩ := reachable_occupied hstart h
  have hids := haccepted.ids_nodup
  have hactive : s.Live → ∀ id, s.active id = s.tasksOf id := by
    intro hlive id
    have hc : Coherent σ s := hcoh.resolve_left fun ⟨exit, he⟩ => hlive exit he
    rw [hc.roster.active, tasksOf_roster]
  have hlen : s.roster.length = s.running.length := by rw [State.roster, List.length_map]
  have hkind : ∀ r ∈ s.roster, r.1 ∈ σ.config.processors.map ProcessorConfig.id := by
    intro r hr
    obtain ⟨p, hp, _⟩ := hocc.kind r hr
    rw [← FlowConfig.definition?_id hp]
    exact List.mem_map_of_mem (FlowConfig.definition?_mem hp)
  refine ⟨hlen ▸ hocc.bound, fun p hp => ⟨fun hlive => hactive hlive p.id, ?_⟩, ?_, ?_, ?_⟩
  · have hlimit := hocc.limit p.id p (FlowConfig.definition?_of_mem hids hp)
    rw [tasksOf_roster] at hlimit
    unfold processorLimit at hlimit
    constructor
    · intro hord
      simpa only [hord] using hlimit
    · intro hord
      cases hord' : p.scheduling.ordering with
      | preserve => exact absurd hord' hord
      | unordered | partitioned => simpa only [hord'] using hlimit
  · intro x hx
    obtain ⟨p, hp, hk⟩ := hocc.kind _ (List.mem_map_of_mem hx)
    exact ⟨p, FlowConfig.definition?_mem hp, FlowConfig.definition?_id hp, hk⟩
  · intro i j x y key hi hj hid hx hy
    by_contra hne
    have hkeys : (s.running.filterMap fun x => x.partitionKey.map fun key =>
        (x.processorId, key)).Nodup := by
      have hn := hocc.keys
      rw [keyed, State.roster, List.filterMap_map] at hn
      exact hn
    exact hne (index_unique hkeys hi hj (by rw [hx]; rfl) (by rw [hy, hid]; rfl))
  · intro hlive
    have hsum := sum_countP hids s.roster hkind
    rw [List.map_map, hlen] at hsum
    rw [← hsum]
    refine congrArg List.sum (List.map_congr_left fun p _ => ?_)
    rw [hactive hlive, Function.comp_apply, tasksOf_roster]

/-- The task of `q-1` has emitted and the packet it emitted has started on `b`. -/
theorem tasks_within_limits_of_two :
    ∃ s₀ s, start pairSetup pairLaunch = .ok s₀ ∧
      (engine pairSetup).exec s₀ [.head (grantedAt 21 []), .schedule (claimsAt 22), .check, .emit 0,
        .receive (grantedAt 23 ["q-2"]), .head (grantedAt 24 []), .schedule (claimsAt 25)] = some s ∧
      s.tasksOf "a" = 1 ∧ s.tasksOf "b" = 1 ∧ s.running.length ≤ 2 := by
  refine ⟨_, _, rfl, rfl, by decide, by decide,
    (tasks_within_limits pairSetup ⟨.asStored, rfl⟩ pairLaunch rfl ?_).1⟩
  exact .of_exec [.head (grantedAt 21 []), .schedule (claimsAt 22), .check, .emit 0,
    .receive (grantedAt 23 ["q-2"]), .head (grantedAt 24 []), .schedule (claimsAt 25)] rfl (by simp)

end Jaiba.Engine
