import Jaiba.Editor.Preserve

/-!
# Exported processors and connections, read again

Each option of an exported block is read as the canvas has it: where it was not
edited the imported value is still there and reads the same, and where it was
edited the merge has set or removed it.
-/

namespace Jaiba.Editor.Yaml
open Jaiba.Lib Jaiba.Lib.Value

/-! ### One option -/

/-- How a member of an export comes about: the edits merged into what was imported, or as it was drawn. -/
def Settled (source baseline current v : Option Value) : Prop :=
  v = mergeAt identity source baseline current ∨ v = current

/-- An option is read as it was edited, if it is so from what was drawn now and,
where nothing new was drawn, from what was imported. -/
theorem Settled.read {α : Type} (read : Option Value → α) {x : α} {source baseline current v : Option Value}
    (h : Settled source baseline current v) (hplain : ∀ w, current = some w → Scalar w) (hcurrent : read current = x)
    (hsource : SameText baseline current → read source = x) : read v = x := by
  rcases h with rfl | rfl
  · by_cases hsame : SameText baseline current
    · rw [mergeAt_same hsame]
      exact hsource hsame
    · cases current with
      | none =>
        have hne : baseline ≠ none := fun heq => hsame (by rw [heq]; exact .refl _)
        rw [mergeAt, if_neg hne]
        exact hcurrent
      | some w =>
        rw [mergeAt, merge_scalar (hplain w rfl) hsame]
        exact hcurrent
  · exact hcurrent

theorem SameText.string {s t : String} (h : SameText (some (.string s)) (some (.string t))) : s = t :=
  Value.string.inj (Option.some_inj.mp h)

def Finite (n : Double) : Prop := ∃ q, n = .finite q

theorem SameText.number {m n : Double} (hm : Finite m) (hn : Finite n)
    (h : SameText (some (.number m)) (some (.number n))) : m = n := by
  obtain ⟨p, rfl⟩ := hm
  obtain ⟨q, rfl⟩ := hn
  exact Value.number.inj (Option.some_inj.mp h)

theorem numberOr_finite (v : Option Value) {d : Double} (hd : Finite d) : Finite (numberOr v d) := by
  unfold numberOr
  split
  · exact ⟨_, rfl⟩
  · exact hd

theorem numberOr_number {n d : Double} (hn : Finite n) : numberOr (some (.number n)) d = n := by
  obtain ⟨q, rfl⟩ := hn
  rfl

/-- An option that is always drawn. -/
theorem Settled.drawn {α : Type} (read : Option Value → α) (write : α → Value) {x : α}
    {source baseline v : Option Value} (h : Settled source baseline (some (write x)) v) (hscalar : Scalar (write x))
    (hbaseline : baseline = none ∨ baseline = some (write (read source))) (hcurrent : read (some (write x)) = x)
    (hinj : SameText (some (write (read source))) (some (write x)) → read source = x) : read v = x := by
  refine Settled.read read h (fun w hw => ?_) hcurrent fun hsame => ?_
  · cases hw
    exact hscalar
  · rcases hbaseline with rfl | rfl
    · cases hsame
    · exact hinj hsame

/-- An option that is not drawn at its default. -/
theorem Settled.defaulted {α : Type} [DecidableEq α] (read : Option Value → α) (write : α → Value) {x d : α}
    {source baseline v : Option Value} (h : Settled source baseline (if x ≠ d then some (write x) else none) v)
    (hscalar : Scalar (write x)) (hbaseline : baseline = if read source ≠ d then some (write (read source)) else none)
    (hnone : read none = d) (hcurrent : read (some (write x)) = x)
    (hinj : SameText (some (write (read source))) (some (write x)) → read source = x) : read v = x := by
  refine Settled.read read h (fun w hw => ?_) ?_ fun hsame => ?_
  · split_ifs at hw
    cases hw
    exact hscalar
  · split_ifs with hx
    · exact hcurrent
    · rw [hnone]
      exact (not_not.mp hx).symm
  · subst hbaseline
    by_cases hs : read source = d
    · by_cases hx : x = d
      · rw [hs, hx]
      · rw [if_neg (not_not.mpr hs), if_pos hx] at hsame
        cases hsame
    · by_cases hx : x = d
      · rw [if_pos hs, if_neg (not_not.mpr hx)] at hsame
        cases hsame
      · rw [if_pos hs, if_pos hx] at hsame
        exact hinj hsame

/-- A number in a block that is not drawn where all its options are at their defaults. -/
theorem Settled.inBlock {β : Type} [DecidableEq β] (option : β → Double) {r x d : β}
    {source baseline current v : Option Value} (h : Settled source baseline current v)
    (hcurrent : current = if x = d then none else some (.number (option x)))
    (hbaseline : baseline = if r = d then none else some (.number (option r)))
    (hr : option r = numberOr source (option d)) (hd : Finite (option d)) (hx : Finite (option x)) :
    numberOr v (option d) = option x := by
  subst hcurrent hbaseline
  refine Settled.read (fun v => numberOr v (option d)) h (fun w hw => ?_) ?_ fun hsame => ?_
  · split_ifs at hw
    cases hw
    trivial
  · split_ifs with heq
    · rw [heq]
      rfl
    · exact numberOr_number hx
  · rw [← hr]
    by_cases hrd : r = d
    · by_cases hxd : x = d
      · rw [hrd, hxd]
      · rw [if_pos hrd, if_neg hxd] at hsame
        cases hsame
    · by_cases hxd : x = d
      · rw [if_neg hrd, if_pos hxd] at hsame
        cases hsame
      · rw [if_neg hrd, if_neg hxd] at hsame
        exact SameText.number (hr ▸ numberOr_finite source hd) hx hsame

/-! ### Processors -/

theorem processorBlock_lookup (data : ProcessorNodeData) (k : String) :
    (processorBlock data).lookup k = ([("id", some (.string data.processorId)), ("type", some (.string data.type)),
      ("config", if cleanConfig data.config ≠ [] then some (.object (cleanConfig data.config)) else none),
      ("retry", retryBlock data.retry), ("scheduling", schedulingBlock data.scheduling),
      ("simulation", simulationBlock data.simulation)].lookup k).join := by
  rw [processorBlock, lookup_block (by simp [Members.keys])]

theorem retryBlock_member (r : RetrySettings) {key : String} {option : RetrySettings → Double}
    (h : [("maximum_attempts", Value.number r.maximumAttempts), ("initial_delay_ms", .number r.initialDelayMs),
      ("maximum_delay_ms", .number r.maximumDelayMs)].lookup key = some (.number (option r))) :
    (membersOf (retryBlock r)).lookup key = if r = retryDefaults then none else some (.number (option r)) := by
  by_cases hr : r = retryDefaults
  · subst hr
    rfl
  · have hnot : ¬ (r.maximumAttempts = retryDefaults.maximumAttempts ∧
        r.initialDelayMs = retryDefaults.initialDelayMs ∧ r.maximumDelayMs = retryDefaults.maximumDelayMs) := by
      rintro ⟨ha, hi, hm⟩
      cases r
      cases ha
      cases hi
      cases hm
      exact hr rfl
    rw [retryBlock, if_neg hnot, if_neg hr]
    exact h

theorem membersOf_unlessEmpty (fields : Members) :
    membersOf (if fields = [] then none else some (.object fields)) = fields := by
  split_ifs with h
  · exact h.symm
  · rfl

theorem membersOf_nonempty (fields : Members) :
    membersOf (if fields ≠ [] then some (.object fields) else none) = fields := by
  rw [ite_not, membersOf_unlessEmpty]

theorem schedulingBlock_members (s : SchedulingSettings) (key : String) :
    (membersOf (schedulingBlock s)).lookup key = ([
      ("concurrent_tasks", if s.concurrentTasks ≠ schedulingDefaults.concurrentTasks then
        some (Value.number s.concurrentTasks) else none),
      ("maximum_in_flight", s.maximumInFlight.map .number),
      ("timeout_ms", s.timeoutMs.map .number),
      ("execution_mode", if s.executionMode ≠ schedulingDefaults.executionMode then
        some (.string s.executionMode.text) else none),
      ("ordering", if s.ordering ≠ schedulingDefaults.ordering then some (.string s.ordering.text) else none),
      ("partition_by", if s.ordering = .partitioned ∧ s.partitionBy.getD "" ≠ "" then
        s.partitionBy.map .string else none)].lookup key).join := by
  rw [← lookup_block (by simp [Members.keys])]
  exact congrArg (List.lookup key) (membersOf_unlessEmpty _)

theorem simulationBlock_members (s : SimulationSettings) (key : String) :
    (membersOf (simulationBlock s)).lookup key = ([
      ("mode", if s.mode ≠ simulationDefaults.mode ∨ s.options ≠ [] then some (Value.string s.mode.text) else none),
      ("options", if s.options ≠ [] then some (.object s.options) else none)].lookup key).join := by
  rw [← lookup_block (by simp [Members.keys]), simulationBlock]
  by_cases h : s.mode ≠ simulationDefaults.mode ∨ s.options ≠ []
  · rw [if_pos h, if_pos h]
    rfl
  · rw [if_neg h, if_neg h, if_neg (not_or.mp h).2]
    rfl

/-! ### Data of processors that mean the same -/

/-- Dropped by `cleanConfig`. -/
def Blank (v : Value) : Prop := isBlank v = true ∨ v = .array [] ∨ v = .object []

instance (v : Value) : Decidable (Blank v) := inferInstanceAs (Decidable (_ ∨ _))

/-- An option of a configuration, unless it is blank. -/
def filled (v : Option Value) : Option Value := v.filter fun v => ¬ Blank v

/-- The data of two nodes mean the same; the selector counts for a partitioned order alone. -/
structure SameData (a b : ProcessorNodeData) : Prop where
  processorId : a.processorId = b.processorId
  type : a.type = b.type
  config : ∀ key, Agree (filled (a.config.lookup key)) (filled (b.config.lookup key))
  retry : a.retry = b.retry
  concurrentTasks : a.scheduling.concurrentTasks = b.scheduling.concurrentTasks
  maximumInFlight : a.scheduling.maximumInFlight = b.scheduling.maximumInFlight
  timeoutMs : a.scheduling.timeoutMs = b.scheduling.timeoutMs
  executionMode : a.scheduling.executionMode = b.scheduling.executionMode
  ordering : a.scheduling.ordering = b.scheduling.ordering
  partitionBy : b.scheduling.ordering = .partitioned → a.scheduling.partitionBy = b.scheduling.partitionBy
  mode : a.simulation.mode = b.simulation.mode
  options : Agree (some (.object a.simulation.options)) (some (.object b.simulation.options))

/-- Numbers are numbers, a configuration has each key once, and a partitioned order has a selector. -/
structure SoundData (data : ProcessorNodeData) : Prop where
  config : (Members.keys data.config).Nodup
  maximumAttempts : Finite data.retry.maximumAttempts
  initialDelayMs : Finite data.retry.initialDelayMs
  maximumDelayMs : Finite data.retry.maximumDelayMs
  concurrentTasks : Finite data.scheduling.concurrentTasks
  maximumInFlight : ∀ n, data.scheduling.maximumInFlight = some n → Finite n
  timeoutMs : ∀ n, data.scheduling.timeoutMs = some n → Finite n
  partitionBy : data.scheduling.ordering = .partitioned → data.scheduling.partitionBy.getD "" ≠ ""

theorem ExecutionMode.text_injective : Function.Injective ExecutionMode.text := by
  intro a b h
  cases a <;> cases b <;> first | rfl | exact absurd h (by decide)

theorem OrderingMode.text_injective : Function.Injective OrderingMode.text := by
  intro a b h
  cases a <;> cases b <;> first | rfl | exact absurd h (by decide)

theorem SimulationMode.text_injective : Function.Injective SimulationMode.text := by
  intro a b h
  cases a <;> cases b <;> first | rfl | exact absurd h (by decide)

section processor
variable {source : Members} {before data : ProcessorNodeData} {ms : Members}

/-- The members of an exported processor, one by one. -/
structure SettledBlock (source : Members) (before data : ProcessorNodeData) (ms : Members) : Prop where
  member : ∀ k, k ∉ ["scheduling", "retry", "simulation"] →
    Settled (source.lookup k) ((processorBlock before).lookup k) ((processorBlock data).lookup k) (ms.lookup k)
  inner : ∀ k ∈ ["scheduling", "retry", "simulation"], ∀ j,
    Settled ((membersOf (source.lookup k)).lookup j) ((membersOf ((processorBlock before).lookup k)).lookup j)
      ((membersOf ((processorBlock data).lookup k)).lookup j) ((membersOf (ms.lookup k)).lookup j)

theorem SettledBlock.retry (h : SettledBlock source before data ms)
    (hbefore : before.retry = readRetry (membersOf (source.lookup "retry"))) (hsound : SoundData data) :
    readRetry (membersOf (ms.lookup "retry")) = data.retry := by
  have hretry : ∀ (d : ProcessorNodeData), (processorBlock d).lookup "retry" = retryBlock d.retry := fun d => by
    rw [processorBlock_lookup]
    rfl
  have hinner := h.inner "retry" (by simp)
  simp only [hretry] at hinner
  have hattempts := Settled.inBlock RetrySettings.maximumAttempts (hinner "maximum_attempts")
    (retryBlock_member _ rfl) (retryBlock_member _ rfl) (by rw [hbefore]; rfl) ⟨_, rfl⟩ hsound.maximumAttempts
  have hinitial := Settled.inBlock RetrySettings.initialDelayMs (hinner "initial_delay_ms")
    (retryBlock_member _ rfl) (retryBlock_member _ rfl) (by rw [hbefore]; rfl) ⟨_, rfl⟩ hsound.initialDelayMs
  have hmaximum := Settled.inBlock RetrySettings.maximumDelayMs (hinner "maximum_delay_ms")
    (retryBlock_member _ rfl) (retryBlock_member _ rfl) (by rw [hbefore]; rfl) ⟨_, rfl⟩ hsound.maximumDelayMs
  rw [readRetry, hattempts, hinitial, hmaximum]

/-- A number that is not drawn where there is none. -/
theorem Settled.optional {x r : Option Double} {source baseline current v : Option Value}
    (h : Settled source baseline current v) (hcurrent : current = x.map .number) (hbaseline : baseline = r.map .number)
    (hr : r = source.map fun v => numberOr (some v) (.finite 1)) (hx : ∀ n, x = some n → Finite n) :
    (v.map fun v => numberOr (some v) (.finite 1)) = x := by
  subst hcurrent hbaseline
  refine Settled.read (fun v => v.map fun v => numberOr (some v) (.finite 1)) h (fun w hw => ?_) ?_ fun hsame => ?_
  · obtain ⟨n, -, rfl⟩ := Option.map_eq_some_iff.mp hw
    trivial
  · cases x with
    | none => rfl
    | some n => exact congrArg some (numberOr_number (hx n rfl))
  · rw [← hr]
    cases r with
    | none =>
      cases x with
      | none => rfl
      | some n => cases hsame
    | some m =>
      cases x with
      | none => cases hsame
      | some n =>
        obtain ⟨w, -, hw⟩ := Option.map_eq_some_iff.mp hr.symm
        have hm : Finite m := hw ▸ numberOr_finite (some w) ⟨_, rfl⟩
        exact congrArg some (SameText.number hm (hx n rfl) hsame)

theorem SettledBlock.scheduling (h : SettledBlock source before data ms)
    (hbefore : before.scheduling = readScheduling (membersOf (source.lookup "scheduling"))) (hsound : SoundData data) :
    let s := readScheduling (membersOf (ms.lookup "scheduling"))
    s.concurrentTasks = data.scheduling.concurrentTasks ∧ s.maximumInFlight = data.scheduling.maximumInFlight ∧
      s.timeoutMs = data.scheduling.timeoutMs ∧ s.executionMode = data.scheduling.executionMode ∧
      s.ordering = data.scheduling.ordering ∧
      (data.scheduling.ordering = .partitioned → s.partitionBy = data.scheduling.partitionBy) := by
  have hblock : ∀ (d : ProcessorNodeData), (processorBlock d).lookup "scheduling" = schedulingBlock d.scheduling :=
    fun d => by
      rw [processorBlock_lookup]
      rfl
  have hinner := h.inner "scheduling" (by simp)
  simp only [hblock, schedulingBlock_members] at hinner
  refine ⟨?_, ?_, ?_, ?_, ?_, fun hpartitioned => ?_⟩
  · refine Settled.defaulted (fun v => numberOr v schedulingDefaults.concurrentTasks) .number
      (hinner "concurrent_tasks") trivial ?_ rfl (numberOr_number hsound.concurrentTasks)
      (SameText.number (numberOr_finite _ ⟨_, rfl⟩) hsound.concurrentTasks)
    rw [hbefore]
    rfl
  · exact (hinner "maximum_in_flight").optional rfl rfl (by rw [hbefore]; rfl) hsound.maximumInFlight
  · exact (hinner "timeout_ms").optional rfl rfl (by rw [hbefore]; rfl) hsound.timeoutMs
  · refine Settled.defaulted (fun v => oneOf [.asyncIo, .blockingIo, .cpu] ExecutionMode.text v .auto)
      (fun m => .string m.text) (hinner "execution_mode") trivial ?_ rfl ?_
      fun hsame => ExecutionMode.text_injective (SameText.string hsame)
    · rw [hbefore]
      rfl
    · cases data.scheduling.executionMode <;> rfl
  · refine Settled.defaulted (fun v => oneOf [.preserve, .partitioned] OrderingMode.text v .unordered)
      (fun m => .string m.text) (hinner "ordering") trivial ?_ rfl ?_
      fun hsame => OrderingMode.text_injective (SameText.string hsame)
    · rw [hbefore]
      rfl
    · cases data.scheduling.ordering <;> rfl
  · have hselector := hsound.partitionBy hpartitioned
    obtain ⟨selector, hx⟩ : ∃ selector, data.scheduling.partitionBy = some selector := by
      cases hx : data.scheduling.partitionBy with
      | none =>
        rw [hx] at hselector
        exact absurd rfl hselector
      | some selector => exact ⟨selector, rfl⟩
    let drawn : SchedulingSettings → Option Value := fun s =>
      if s.ordering = .partitioned ∧ s.partitionBy.getD "" ≠ "" then s.partitionBy.map .string else none
    have hcurrent : drawn data.scheduling = some (.string selector) := by
      dsimp only [drawn]
      rw [if_pos ⟨hpartitioned, hselector⟩, hx]
      rfl
    have hsettled : Settled _ (drawn before.scheduling) (drawn data.scheduling) _ := hinner "partition_by"
    rw [hcurrent] at hsettled
    rw [hx]
    refine Settled.read stringOrNull hsettled (fun w hw => ?_) rfl fun hsame => ?_
    · cases hw
      trivial
    · dsimp only [drawn] at hsame
      split_ifs at hsame
      · have hread : before.scheduling.partitionBy =
            stringOrNull ((membersOf (source.lookup "scheduling")).lookup "partition_by") := by
          rw [hbefore]
          rfl
        rw [← hread]
        cases hb : before.scheduling.partitionBy with
        | none =>
          rw [hb] at hsame
          cases hsame
        | some r =>
          rw [hb] at hsame
          exact congrArg some (SameText.string hsame)
      · cases hsame

/-- What is drawn of free members, and read again. -/
theorem agree_object {v : Option Value} {ms : Members} (h : Agree v (some (.object ms))) :
    Agree (some (.object (membersOf v))) (some (.object ms)) := by
  have hshape : v.map shape = some (.object []) := h []
  cases v with
  | none => cases hshape
  | some v =>
    cases v with
    | object => exact h
    | number n => cases n <;> cases hshape
    | _ => cases hshape

theorem eq_object_of_members {v : Option Value} (h : membersOf v ≠ []) : v = some (.object (membersOf v)) := by
  cases v with
  | none => exact absurd rfl h
  | some v =>
    cases v with
    | object => rfl
    | _ => exact absurd rfl h

theorem agree_freeMembers (s : Option Value) (x : Members) :
    let drawn : Members → Option Value := fun options => if options ≠ [] then some (.object options) else none
    Agree (some (.object (membersOf (mergeAt identity s (drawn (membersOf s)) (drawn x))))) (some (.object x)) := by
  dsimp only
  by_cases hx : x = []
  · subst hx
    by_cases hs : membersOf s = []
    · rw [if_neg (not_not.mpr rfl), if_neg (not_not.mpr hs), mergeAt, if_pos rfl, hs]
      exact .refl _
    · rw [if_neg (not_not.mpr rfl), if_pos hs]
      exact .refl _
  · rw [if_pos hx]
    by_cases hs : membersOf s = []
    · rw [if_neg (not_not.mpr hs)]
      exact agree_object (merge_fresh_agree hs (Option.some_ne_none _))
    · rw [if_pos hs, ← eq_object_of_members hs]
      exact agree_object (merge_agree s _)

theorem SettledBlock.simulation (h : SettledBlock source before data ms)
    (hbefore : before.simulation = readSimulation (membersOf (source.lookup "simulation"))) :
    let s := readSimulation (membersOf (ms.lookup "simulation"))
    s.mode = data.simulation.mode ∧ Agree (some (.object s.options)) (some (.object data.simulation.options)) := by
  have hblock : ∀ (d : ProcessorNodeData), (processorBlock d).lookup "simulation" = simulationBlock d.simulation :=
    fun d => by
      rw [processorBlock_lookup]
      rfl
  have hinner := h.inner "simulation" (by simp)
  simp only [hblock, simulationBlock_members] at hinner
  have hmode : before.simulation.mode = oneOf [.mock, .replay] SimulationMode.text
      ((membersOf (source.lookup "simulation")).lookup "mode") .real := by
    rw [hbefore]
    rfl
  have hoptions : before.simulation.options =
      membersOf ((membersOf (source.lookup "simulation")).lookup "options") := by
    rw [hbefore]
    rfl
  refine ⟨?_, ?_⟩
  · let drawn : SimulationSettings → Option Value := fun s =>
      if s.mode ≠ simulationDefaults.mode ∨ s.options ≠ [] then some (.string s.mode.text) else none
    have hnone : ∀ s, drawn s = none → s.mode = .real := by
      intro s hs
      dsimp only [drawn] at hs
      split_ifs at hs with hdrawn
      exact not_not.mp (not_or.mp hdrawn).1
    have hsome : ∀ s w, drawn s = some w → w = .string s.mode.text := by
      intro s w hs
      dsimp only [drawn] at hs
      split_ifs at hs
      exact (Option.some_inj.mp hs).symm
    have hsettled : Settled _ (drawn before.simulation) (drawn data.simulation) _ := hinner "mode"
    refine Settled.read (fun v => oneOf [.mock, .replay] SimulationMode.text v .real) hsettled
      (fun w hw => ?_) ?_ fun hsame => ?_
    · rw [hsome _ w hw]
      trivial
    · cases hx : drawn data.simulation with
      | none => exact (hnone _ hx).symm
      | some w =>
        rw [hsome _ w hx]
        cases data.simulation.mode <;> rfl
    · refine hmode.symm.trans ?_
      cases hb : drawn before.simulation with
      | none =>
        cases hx : drawn data.simulation with
        | none => exact (hnone _ hb).trans (hnone _ hx).symm
        | some w =>
          rw [hb, hx] at hsame
          cases hsame
      | some r =>
        cases hx : drawn data.simulation with
        | none =>
          rw [hb, hx] at hsame
          cases hsame
        | some w =>
          rw [hb, hx, hsome _ r hb, hsome _ w hx] at hsame
          exact SimulationMode.text_injective (SameText.string hsame)
  · let drawn : Members → Option Value := fun options => if options ≠ [] then some (.object options) else none
    have hsettled : Settled ((membersOf (source.lookup "simulation")).lookup "options")
        (drawn before.simulation.options) (drawn data.simulation.options)
        ((membersOf (ms.lookup "simulation")).lookup "options") := hinner "options"
    rw [hoptions] at hsettled
    show Agree (some (.object (membersOf ((membersOf (ms.lookup "simulation")).lookup "options")))) _
    generalize (membersOf (ms.lookup "simulation")).lookup "options" = v at hsettled ⊢
    generalize (membersOf (source.lookup "simulation")).lookup "options" = s at hsettled
    generalize data.simulation.options = x at hsettled ⊢
    rcases hsettled with rfl | rfl
    · exact agree_freeMembers s x
    · dsimp only [drawn]
      rw [membersOf_nonempty]
      exact .refl _

/-! ### Configurations -/

theorem filled_eq_some {v : Option Value} {w : Value} : filled v = some w ↔ v = some w ∧ ¬ Blank w := by
  rw [filled, Option.filter_eq_some_iff, decide_eq_true_iff]

theorem filled_eq_none {v : Option Value} : filled v = none ↔ ∀ w, v = some w → Blank w := by
  rw [filled, Option.filter_eq_none_iff]
  simp only [decide_eq_true_iff, not_not]

theorem filled_filled (v : Option Value) : filled (filled v) = filled v := by
  cases h : filled v with
  | none => rfl
  | some w => exact filled_eq_some.mpr ⟨rfl, (filled_eq_some.mp h).2⟩

theorem mem_cleanConfig {config : Members} {m : String × Value} : m ∈ cleanConfig config ↔ m ∈ config ∧ ¬ Blank m.2 := by
  rw [cleanConfig, List.mem_filter]
  simp [Blank, and_assoc]

theorem lookup_cleanConfig {config : Members} (hnodup : (Members.keys config).Nodup) (k : String) :
    (cleanConfig config).lookup k = filled (config.lookup k) := by
  have hclean : (Members.keys (cleanConfig config)).Nodup := hnodup.sublist (List.filter_sublist.map _)
  refine Option.ext fun w => ?_
  rw [filled_eq_some]
  constructor
  · intro h
    obtain ⟨hmem, hblank⟩ := mem_cleanConfig.mp (Members.mem_of_lookup h)
    exact ⟨Members.lookup_of_mem hnodup hmem, hblank⟩
  · rintro ⟨h, hblank⟩
    exact Members.lookup_of_mem hclean (mem_cleanConfig.mpr ⟨Members.mem_of_lookup h, hblank⟩)

theorem membersOf_blank {v : Option Value} (h : filled v = none) : membersOf v = [] := by
  cases v with
  | none => rfl
  | some v =>
    have hblank := filled_eq_none.mp h v rfl
    cases v with
    | object ms =>
      rcases hblank with hblank | hblank | hblank
      · cases hblank
      · cases hblank
      · cases hblank
        rfl
    | _ => rfl

/-- An option that was drawn where it is not blank agrees with what is asked for. -/
theorem merge_filled_agree {s : Option Value} {w : Value} :
    Agree (merge identity s (filled s) w) (some w) := by
  cases h : filled s with
  | none =>
    have hfresh := @merge_fresh_agree _ _ identity s (some w) (membersOf_blank h) (Option.some_ne_none _)
    exact hfresh
  | some u =>
    obtain ⟨rfl, -⟩ := filled_eq_some.mp h
    exact merge_agree (some u) (some w)

theorem merge_filled {s : Option Value} {w : Value} (hw : ¬ Blank w) :
    ∃ u, merge identity s (filled s) w = some u ∧ ¬ Blank u := by
  by_cases hsame : SameText (filled s) (some w)
  · rw [merge_same hsame]
    cases h : filled s with
    | none =>
      rw [h] at hsame
      cases hsame
    | some u => exact ⟨u, filled_eq_some.mp h⟩
  · have hagree := @merge_filled_agree s w
    cases w with
    | array items =>
      rw [merge, if_neg hsame]
      have hitems : items ≠ [] := fun heq => hw (.inr (.inl (congrArg Value.array heq)))
      split_ifs
      · refine ⟨_, rfl, fun hblank => ?_⟩
        rcases hblank with hblank | hblank | hblank
        · cases hblank
        · have hlength := congrArg List.length (Value.array.inj hblank)
          rw [length_mergeItems] at hlength
          exact hitems (List.length_eq_zero_iff.mp hlength)
        · cases hblank
      · exact ⟨_, rfl, hw⟩
    | object ms =>
      obtain ⟨members, hmembers⟩ : ∃ members, merge identity s (filled s) (.object ms) = some (.object members) := by
        rw [merge, if_neg hsame]
        exact ⟨_, rfl⟩
      refine ⟨_, hmembers, fun hblank => ?_⟩
      rcases hblank with hblank | hblank | hblank
      · cases hblank
      · cases hblank
      · rw [hmembers, hblank] at hagree
        cases ms with
        | nil => exact hw (.inr (.inr rfl))
        | cons m ms =>
          have hshape := hagree [.key m.1]
          dsimp only [descend, List.foldl, child, membersOf] at hshape
          rw [Members.lookup_cons, if_pos rfl] at hshape
          cases hshape
    | _ =>
      rw [merge_scalar (by trivial) hsame]
      exact ⟨_, rfl, hw⟩

theorem filled_merge_agree (s x : Option Value) :
    Agree (filled (mergeAt identity s (filled s) (filled x))) (filled x) := by
  cases hx : filled x with
  | none =>
    rw [mergeAt]
    split_ifs with hs
    · rw [hs]
      exact .refl _
    · exact .refl _
  | some w =>
    obtain ⟨u, hu, hblank⟩ := @merge_filled s w (filled_eq_some.mp hx).2
    have hagree := @merge_filled_agree s w
    rw [hu] at hagree
    rw [mergeAt, hu, filled_eq_some.mpr ⟨rfl, hblank⟩]
    exact hagree

theorem SettledBlock.config (h : SettledBlock source before data ms)
    (hbefore : before.config = membersOf (source.lookup "config"))
    (hnodup : (Members.keys (membersOf (source.lookup "config"))).Nodup) (hsound : SoundData data) (key : String) :
    Agree (filled ((membersOf (ms.lookup "config")).lookup key)) (filled (data.config.lookup key)) := by
  let drawn : Members → Option Value := fun config => if config ≠ [] then some (.object config) else none
  have hdrawn : ∀ (d : ProcessorNodeData), (processorBlock d).lookup "config" = drawn (cleanConfig d.config) :=
    fun d => by
      rw [processorBlock_lookup]
      rfl
  have hsettled := h.member "config" (by simp)
  rw [hdrawn, hdrawn, hbefore] at hsettled
  rw [← lookup_cleanConfig hsound.config]
  generalize source.lookup "config" = s at hsettled hnodup
  generalize ms.lookup "config" = v at hsettled
  have hclean := lookup_cleanConfig hnodup key
  have hnow := lookup_cleanConfig hsound.config key
  rcases hsettled with rfl | rfl
  · by_cases hx : cleanConfig data.config = []
    · have hnone : filled (data.config.lookup key) = none := by
        rw [← hnow, hx]
        rfl
      rw [hnow, hnone]
      dsimp only [drawn]
      rw [hx, if_neg (not_not.mpr rfl), mergeAt]
      by_cases hs : cleanConfig (membersOf s) = []
      · rw [hs] at hclean ⊢
        rw [if_neg (not_not.mpr rfl), if_pos rfl, ← hclean]
        exact .refl _
      · rw [if_pos hs, if_neg (Option.some_ne_none _)]
        exact .refl _
    · have hmember := @lookup_merge _ _ identity s (drawn (cleanConfig (membersOf s))) (cleanConfig data.config) key
      rw [membersOf_nonempty, hclean, hnow] at hmember
      dsimp only [drawn]
      rw [if_pos hx, mergeAt, hmember, hnow]
      exact filled_merge_agree _ _
  · dsimp only [drawn]
    rw [membersOf_nonempty, hnow, filled_filled]
    exact .refl _

/-- The exported processor is read as the node that was drawn. -/
theorem SettledBlock.sameData {i : ℕ} (h : SettledBlock source (readProcessor i source) data ms)
    (hid : ∃ name, source.lookup "id" = some (.string name))
    (hnodup : (Members.keys (membersOf (source.lookup "config"))).Nodup) (hsound : SoundData data) (j : ℕ) :
    SameData (readProcessor j ms) data := by
  obtain ⟨name, hname⟩ := hid
  have hmember := h.member
  simp only [processorBlock_lookup] at hmember
  have hscheduling := h.scheduling rfl hsound
  have hsimulation := h.simulation rfl
  refine
    { processorId := ?_
      type := ?_
      config := h.config rfl hnodup hsound
      retry := h.retry rfl hsound
      concurrentTasks := hscheduling.1
      maximumInFlight := hscheduling.2.1
      timeoutMs := hscheduling.2.2.1
      executionMode := hscheduling.2.2.2.1
      ordering := hscheduling.2.2.2.2.1
      partitionBy := hscheduling.2.2.2.2.2
      mode := hsimulation.1
      options := hsimulation.2 }
  · refine Settled.drawn (fun v => stringOr v ("processor_" ++ toString (j + 1))) .string (hmember "id" (by simp))
      trivial (.inr ?_) rfl SameText.string
    dsimp only [readProcessor]
    rw [hname]
    rfl
  · exact Settled.drawn (fun v => stringOr v "") .string (hmember "type" (by simp)) trivial (.inr rfl) rfl
      SameText.string

end processor

/-! ### The copies of an edited canvas -/

/-- What stands under an id was made of one pair of the two lists. -/
theorem copies_of_lookup {α β γ : Type} {xs : List α} {ys : List β} {name : α → String} {value : ℕ → β → γ}
    {k : String} {v : γ}
    (h : (Members.fromEntries ((xs.zip ys).mapIdx fun index p => (name p.1, value index p.2))).lookup k = some v) :
    ∃ (i : ℕ) (x : α) (y : β), xs[i]? = some x ∧ ys[i]? = some y ∧ k = name x := by
  rw [Members.lookup_fromEntries] at h
  obtain ⟨i, hi⟩ := List.mem_iff_getElem?.mp (List.mem_reverse.mp (Members.mem_of_lookup h))
  rw [List.getElem?_mapIdx] at hi
  obtain ⟨⟨x, y⟩, hxy, heq⟩ := Option.map_eq_some_iff.mp hi
  obtain ⟨hx, hy⟩ := List.getElem?_zip_eq_some.mp hxy
  exact ⟨i, x, y, hx, hy, (congrArg Prod.fst heq).symm⟩

theorem processorBlock_object {data : ProcessorNodeData} {k : String} (hk : k ∈ ["scheduling", "retry", "simulation"])
    {v : Value} (h : (processorBlock data).lookup k = some v) : ∃ ms, v = .object ms := by
  rw [processorBlock_lookup] at h
  simp only [List.mem_cons, List.not_mem_nil, or_false] at hk
  rcases hk with rfl | rfl | rfl
  · have hblock : schedulingBlock data.scheduling = some v := h
    unfold schedulingBlock at hblock
    dsimp only at hblock
    generalize block _ = fields at hblock
    split_ifs at hblock
    exact ⟨fields, (Option.some_inj.mp hblock).symm⟩
  · have hblock : retryBlock data.retry = some v := h
    unfold retryBlock at hblock
    split_ifs at hblock
    exact ⟨_, (Option.some_inj.mp hblock).symm⟩
  · have hblock : simulationBlock data.simulation = some v := h
    unfold simulationBlock at hblock
    by_cases hdrawn : data.simulation.mode ≠ simulationDefaults.mode ∨ data.simulation.options ≠ []
    · rw [if_pos hdrawn] at hblock
      exact ⟨_, (Option.some_inj.mp hblock).symm⟩
    · rw [if_neg hdrawn] at hblock
      cases hblock

theorem connectionBlock_some {nodes : List ProcessorNode} {edge : ConnectionEdge} {b : Members}
    (h : connectionBlock nodes edge = some b) :
    ∃ origin target, idByNode nodes edge.source = some origin ∧ idByNode nodes edge.target = some target ∧
      origin ≠ "" ∧ target ≠ "" ∧ ∀ k, b.lookup k = ([("from", some (Value.string origin)),
        ("relationship", some (.string (relationshipOf edge).text)), ("to", some (.string target)),
        ("queue", if queueCapacityOf edge ≠ .finite 100 then
          some (.object [("capacity", .number (queueCapacityOf edge))]) else none)].lookup k).join := by
  unfold connectionBlock at h
  split at h
  next origin target hs ht =>
    by_cases hempty : origin = "" ∨ target = ""
    · rw [if_pos hempty] at h
      cases h
    · rw [if_neg hempty] at h
      cases h
      obtain ⟨hne, hne'⟩ := not_or.mp hempty
      exact ⟨origin, target, hs, ht, hne, hne', fun k => lookup_block (by simp [Members.keys]) k⟩
  next => cases h

theorem readEdge_data {nodes : List ProcessorNode} {i : ℕ} {c : Members} {e : ConnectionEdge}
    (h : readEdge nodes i c = some e) :
    relationshipOf e = parseRelationship (c.lookup "relationship") ∧
      queueCapacityOf e = numberOr ((membersOf (c.lookup "queue")).lookup "capacity") (.finite 100) := by
  unfold readEdge at h
  split at h
  next => cases h; exact ⟨rfl, rfl⟩
  next => cases h

theorem capacityOf_queue (n : Double) :
    (membersOf (if n ≠ .finite 100 then some (Value.object [("capacity", .number n)]) else none)).lookup "capacity" =
      if n ≠ .finite 100 then some (.number n) else none := by
  split_ifs <;> rfl

section edited
variable {text : Value → String} {root : Members} {flow : FlowMeta}
  (hflow : flow.imported = some (importedOf text root))

/-- A node that is new counts as an edit of a processor without options. -/
def unnamed : Members := [("id", .string "")]

include hflow in
theorem exportProcessor_settled (node : ProcessorNode) :
    ∃ i source ms, exportProcessor flow.imported node = .object ms ∧
      SettledBlock source (readProcessor i source) node.data ms ∧
      (source ∈ objectsOf (root.lookup "processors") ∨ source = unnamed) := by
  dsimp only [exportProcessor]
  rw [hflow, Option.bind_some]
  cases h : (importedOf text root).processors.lookup node.id with
  | none =>
    exact ⟨0, unnamed, _, rfl, ⟨fun k _ => .inr rfl, fun k _ j => .inr rfl⟩, .inr rfl⟩
  | some original =>
    obtain ⟨i, x, p, hx, hp, hid⟩ := @copies_of_lookup _ _ _ _ _ ProcessorNode.id
      (fun index p => Original.mk (.object p)
        (itemsOf ((membersOf (some (importedOf text root).baseline)).lookup "processors"))[index]?) _ _ h
    rw [readNodes_getElem?, hp] at hx
    cases hx
    rw [hid, lookup_processors hp] at h
    cases h
    refine ⟨i, p, _, rfl, ⟨fun k hk => .inl ?_, fun k hk j => .inl ?_⟩, .inl (List.mem_of_getElem? hp)⟩
    · rw [lookup_settings, if_neg fun hreset => hk hreset.1]
      rfl
    · exact lookup_block_settings hk (fun v hv => processorBlock_object hk hv) j

/-- What was drawn of a connection; of one that is new nothing was. -/
structure DrawnConnection (source drawn : Members) : Prop where
  origin : drawn.lookup "from" = none ∨ drawn.lookup "from" = some (.string (stringOr (source.lookup "from") ""))
  target : drawn.lookup "to" = none ∨ drawn.lookup "to" = some (.string (stringOr (source.lookup "to") ""))
  relationship : drawn.lookup "relationship" = none ∨
    drawn.lookup "relationship" = some (.string (parseRelationship (source.lookup "relationship")).text)
  capacity : (membersOf (drawn.lookup "queue")).lookup "capacity" =
    if numberOr ((membersOf (source.lookup "queue")).lookup "capacity") (.finite 100) ≠ .finite 100 then
      some (.number (numberOr ((membersOf (source.lookup "queue")).lookup "capacity") (.finite 100)))
    else none

/-- An exported connection, member by member. -/
structure SettledConnection (source : Members) (drawn current ms : Members) : Prop where
  member : ∀ k ∈ ["from", "relationship", "to"],
    Settled (source.lookup k) (drawn.lookup k) (current.lookup k) (ms.lookup k)
  capacity : Settled ((membersOf (source.lookup "queue")).lookup "capacity")
    ((membersOf (drawn.lookup "queue")).lookup "capacity") ((membersOf (current.lookup "queue")).lookup "capacity")
    ((membersOf (ms.lookup "queue")).lookup "capacity")

theorem drawnConnection {i : ℕ} {source drawn : Members} {before : ConnectionEdge}
    (hread : readEdge (readNodes root) i source = some before)
    (hdrawn : connectionBlock (readNodes root) before = some drawn) : DrawnConnection source drawn := by
  obtain ⟨-, hs, ht⟩ := readEdge_some hread
  obtain ⟨hrelationship, hcapacity⟩ := readEdge_data hread
  obtain ⟨origin, target, hs', ht', -, -, hlookup⟩ := connectionBlock_some hdrawn
  cases hs.symm.trans hs'
  cases ht.symm.trans ht'
  rw [hrelationship, hcapacity] at hlookup
  refine ⟨.inr (hlookup "from"), .inr (hlookup "to"), .inr (hlookup "relationship"), ?_⟩
  rw [hlookup "queue"]
  exact capacityOf_queue _

include hflow in
theorem exportConnection_settled (hjoined : ∀ c ∈ objectsOf (root.lookup "connections"), Joined root c)
    {nodes : List ProcessorNode} {edge : ConnectionEdge} {current : Members}
    (hcurrent : connectionBlock nodes edge = some current) :
    ∃ source drawn ms, exportConnection flow.imported nodes edge = some (.object ms) ∧
      SettledConnection source drawn current ms ∧
      DrawnConnection source drawn := by
  dsimp only [exportConnection]
  rw [hcurrent, hflow, Option.bind_some, Option.map_some]
  cases h : (importedOf text root).connections.lookup edge.id with
  | none => exact ⟨[], [], _, rfl, ⟨fun k _ => .inr rfl, .inr rfl⟩, ⟨.inl rfl, .inl rfl, .inl rfl, rfl⟩⟩
  | some original =>
    obtain ⟨i, before, c, hbefore, hc, hid⟩ := @copies_of_lookup _ _ _ _ _ ConnectionEdge.id
      (fun index p => Original.mk (.object p)
        (itemsOf ((membersOf (some (importedOf text root).baseline)).lookup "connections"))[index]?) _ _ h
    rw [edges_of_joined hjoined, hc, Option.bind_some] at hbefore
    obtain ⟨e, drawn, he, hdrawn⟩ := (@joined_iff root i c).mp (hjoined c (List.mem_of_getElem? hc))
    cases hbefore.symm.trans he
    rw [hid, lookup_connections hjoined hc hbefore hdrawn] at h
    cases h
    obtain ⟨_, _, -, -, -, -, hlookup⟩ := connectionBlock_some hcurrent
    refine ⟨c, drawn, _, rfl, ⟨fun k hk => .inl ?_, .inl ?_⟩, drawnConnection hbefore hdrawn⟩
    · have hnot : k ≠ "queue" := by
        rintro rfl
        simp at hk
      rw [lookup_settings, if_neg fun hreset => hnot (List.mem_singleton.mp hreset.1)]
      rfl
    · refine lookup_block_settings (List.mem_singleton.mpr rfl) (fun v hv => ?_) "capacity"
      rw [hlookup] at hv
      have hqueue : (if queueCapacityOf edge ≠ .finite 100 then
          some (Value.object [("capacity", .number (queueCapacityOf edge))]) else none) = some v := hv
      split_ifs at hqueue
      exact ⟨_, (Option.some_inj.mp hqueue).symm⟩

/-! ### Edges -/

theorem Relationship.text_injective : Function.Injective Relationship.text := by
  intro a b h
  cases a <;> cases b <;> first | rfl | exact absurd h (by decide)

/-- Two edges between processors of the same ids. -/
structure SameEdge (nodes nodes' : List ProcessorNode) (a b : ConnectionEdge) : Prop where
  source : idByNode nodes a.source = idByNode nodes' b.source
  target : idByNode nodes a.target = idByNode nodes' b.target
  relationship : relationshipOf a = relationshipOf b
  queueCapacity : queueCapacityOf a = queueCapacityOf b

/-- The exported connection is drawn as the edge. -/
theorem SettledConnection.sameEdge {source drawn current ms : Members} {nodes : List ProcessorNode}
    {edge : ConnectionEdge} (h : SettledConnection source drawn current ms)
    (hcurrent : connectionBlock nodes edge = some current)
    (hsource : DrawnConnection source drawn)
    (hcapacity : Finite (queueCapacityOf edge)) {out : Members}
    (hids : ∀ n ∈ nodes, n.data.processorId ∈ (readNodes out).map fun n => n.data.processorId) (j : ℕ) :
    ∃ e, readEdge (readNodes out) j ms = some e ∧ SameEdge (readNodes out) nodes e edge := by
  obtain ⟨origin, target, hs, ht, hne, hne', hlookup⟩ := connectionBlock_some hcurrent
  have hmember := h.member
  have hqueue := h.capacity
  simp only [hlookup] at hmember hqueue
  have hfrom : stringOr (ms.lookup "from") "" = origin :=
    Settled.drawn (fun v => stringOr v "") .string (hmember "from" (by simp)) trivial hsource.origin rfl
      SameText.string
  have hto : stringOr (ms.lookup "to") "" = target :=
    Settled.drawn (fun v => stringOr v "") .string (hmember "to" (by simp)) trivial hsource.target rfl
      SameText.string
  have hrelationship : parseRelationship (ms.lookup "relationship") = relationshipOf edge := by
    refine Settled.drawn parseRelationship (fun r => .string r.text) (hmember "relationship" (by simp)) trivial
      hsource.relationship ?_ fun hsame => Relationship.text_injective (SameText.string hsame)
    cases relationshipOf edge <;> rfl
  have hnumber : numberOr ((membersOf (ms.lookup "queue")).lookup "capacity") (.finite 100) = queueCapacityOf edge := by
    have hdrawn : Settled _ _ (if queueCapacityOf edge ≠ .finite 100 then some (.number (queueCapacityOf edge)) else none)
      _ := (capacityOf_queue (queueCapacityOf edge)) ▸ hqueue
    exact Settled.defaulted (fun v => numberOr v (.finite 100)) .number hdrawn trivial hsource.capacity rfl
      (numberOr_number hcapacity) (SameText.number (numberOr_finite _ ⟨_, rfl⟩) hcapacity)
  have hmem : ∀ {node id : String}, idByNode nodes node = some id →
      (nodeByProcessor (readNodes out) id).isSome := by
    intro node id hid
    obtain ⟨n, hn, heq⟩ := List.mem_map.mp (Members.mem_of_lookup hid)
    cases heq
    exact nodeByProcessor_isSome.mpr (hids n (List.mem_reverse.mp hn))
  obtain ⟨source', hs'⟩ := Option.isSome_iff_exists.mp (hmem hs)
  obtain ⟨target', ht'⟩ := Option.isSome_iff_exists.mp (hmem ht)
  obtain ⟨e, he⟩ : ∃ e, readEdge (readNodes out) j ms = some e := by
    unfold readEdge
    rw [hfrom, hto, hs', ht']
    exact ⟨_, rfl⟩
  obtain ⟨-, hes, het⟩ := readEdge_some he
  obtain ⟨her, hec⟩ := readEdge_data he
  rw [hfrom] at hes
  rw [hto] at het
  exact ⟨e, he, ⟨hes.trans hs.symm, het.trans ht.symm, her.trans hrelationship, hec.trans hnumber⟩⟩

end edited

end Jaiba.Editor.Yaml
