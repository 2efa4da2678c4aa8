import Mathlib.Data.List.DropRight
import Mathlib.Data.List.TakeWhile
import Jaiba.Editor.Blocks

/-!
# Exported settings of a flow, read again

Parameters and connections by their names, the schedule as far as it is in use,
and the engine.
-/

namespace Jaiba.Editor.Yaml
open Jaiba.Lib Jaiba.Lib.Value

theorem trim_trim (s : String) : trim (trim s) = trim s := by
  have htrim : ∀ u : String, (trim u).toList = (u.toList.dropWhile isWhitespace).rdropWhile isWhitespace := fun _ =>
    String.toList_ofList
  have hfront : ((s.toList.dropWhile isWhitespace).rdropWhile isWhitespace).dropWhile isWhitespace =
      (s.toList.dropWhile isWhitespace).rdropWhile isWhitespace := by
    obtain ⟨back, hback⟩ := List.rdropWhile_prefix isWhitespace (s.toList.dropWhile isWhitespace)
    generalize (s.toList.dropWhile isWhitespace).rdropWhile isWhitespace = front at hback ⊢
    cases front with
    | nil => rfl
    | cons c front =>
      have hstart : (s.toList.dropWhile isWhitespace).head? = some c := by
        rw [← hback]
        rfl
      have hc : isWhitespace c = false := by
        have hnot := List.head?_dropWhile_not isWhitespace s.toList
        rw [hstart] at hnot
        simpa using hnot
      rw [List.dropWhile_cons_of_neg (by rw [hc]; nofun)]
  refine String.toList_injective ?_
  rw [htrim, htrim, hfront, List.rdropWhile_idempotent]

/-! ### Entries under names -/

section named
variable {α : Type} {name : α → String} {value : α → Value} {read : String × Value → α}

/-- Names that are not blank stand once. -/
def Distinct (entries : List α) (name : α → String) : Prop :=
  ((entries.filter fun e => trim (name e) ≠ "").map name).Nodup

theorem lookup_named {entries : List α} (h : Distinct entries name) {k : String} (hk : trim k ≠ "") :
    (membersOf (some (named entries name value))).lookup k = (entries.find? fun e => name e = k).map value := by
  dsimp only [named, membersOf]
  have hkeys : Members.keys ((entries.filter fun e => trim (name e) ≠ "").map fun e => (name e, value e)) =
      (entries.filter fun e => trim (name e) ≠ "").map name := by
    rw [Members.keys, List.map_map]
    rfl
  cases hfind : entries.find? fun e => name e = k with
  | some e =>
    have hname : name e = k := by simpa using List.find?_some hfind
    have hmem : e ∈ entries.filter fun e => trim (name e) ≠ "" :=
      List.mem_filter.mpr ⟨List.mem_of_find?_eq_some hfind, by rw [hname]; simpa using hk⟩
    exact Members.fromEntries_of_mem (hkeys ▸ h) (hname ▸ List.mem_map_of_mem hmem)
  | none =>
    rw [Members.lookup_fromEntries]
    refine Members.lookup_eq_none_iff.mpr fun hmem => ?_
    rw [Members.keys, List.map_reverse, List.mem_reverse, ← Members.keys, hkeys] at hmem
    obtain ⟨e, he, rfl⟩ := List.mem_map.mp hmem
    have hnot := List.find?_eq_none.mp hfind e (List.mem_filter.mp he).1
    simp at hnot

theorem find?_read (hname : ∀ e, name (read e) = e.1) (ms : Members) (k : String) :
    ((ms.map read).find? fun e => name e = k) = (ms.lookup k).map fun v => read (k, v) := by
  induction ms with
  | nil => rfl
  | cons m ms ih =>
    obtain ⟨j, v⟩ := m
    rw [List.map_cons, Members.lookup_cons]
    by_cases hk : k = j
    · subst hk
      rw [List.find?_cons_of_pos (by simp [hname]), if_pos rfl]
      rfl
    · rw [List.find?_cons_of_neg (by simpa [hname] using Ne.symm hk), if_neg hk, ih]

theorem distinct_read (hname : ∀ e, name (read e) = e.1) {ms : Members} (h : (Members.keys ms).Nodup) :
    Distinct (ms.map read) name := by
  have hkeys : (ms.map read).map name = Members.keys ms := by
    rw [List.map_map]
    exact List.map_congr_left fun e _ => hname e
  exact ((hkeys ▸ h : ((ms.map read).map name).Nodup)).sublist (List.filter_sublist.map _)

/-- An exported entry is the imported one and the edit of it. -/
theorem named_merge (hname : ∀ e, name (read e) = e.1) {s : Option Value} (hs : (Members.keys (membersOf s)).Nodup)
    {current : List α} (hcurrent : Distinct current name) {k : String} (hk : trim k ≠ "") :
    let drawn : List α → Option Value := fun entries => if entries ≠ [] then some (named entries name value) else none
    (membersOf (mergeAt identity s (drawn ((membersOf s).map read)) (drawn current))).lookup k =
      mergeAt identity ((membersOf s).lookup k) (((membersOf s).lookup k).map fun v => value (read (k, v)))
        ((current.find? fun e => name e = k).map value) := by
  intro drawn
  have hdrawn : ∀ entries : List α, Distinct entries name →
      (membersOf (drawn entries)).lookup k = (entries.find? fun e => name e = k).map value := by
    intro entries h
    dsimp only [drawn]
    split_ifs with hempty
    · exact lookup_named h hk
    · rw [not_not.mp hempty]
      rfl
  have hbefore := hdrawn _ (distinct_read hname hs)
  rw [find?_read hname, Option.map_map] at hbefore
  have hnow := hdrawn _ hcurrent
  rw [← hnow]
  have hgoal : (((membersOf s).lookup k).map fun v => value (read (k, v))) =
      (membersOf (drawn ((membersOf s).map read))).lookup k := hbefore.symm
  rw [hgoal]
  by_cases hempty : current = []
  · have hnone : drawn current = none := by
      dsimp only [drawn]
      rw [hempty, if_neg (not_not.mpr rfl)]
    rw [hnone]
    by_cases hms : (membersOf s).map read = []
    · have hnone : drawn ((membersOf s).map read) = none := by
        dsimp only [drawn]
        rw [hms, if_neg (not_not.mpr rfl)]
      rw [hnone]
      rfl
    · have hsome : drawn ((membersOf s).map read) ≠ none := by
        dsimp only [drawn]
        rw [if_pos hms]
        nofun
      rw [mergeAt, if_neg hsome, ← hgoal]
      cases (membersOf s).lookup k <;> rfl
  · have hsome : drawn current = some (named current name value) := if_pos hempty
    rw [hsome]
    exact lookup_merge _ k

/-- Entries are read as they were edited, if each of them is. -/
theorem named_read (hname : ∀ e, name (read e) = e.1) {s v : Option Value}
    (hs : (Members.keys (membersOf s)).Nodup) {current : List α} (hcurrent : Distinct current name)
    (hv : v = mergeAt identity s
      (if (membersOf s).map read ≠ [] then some (named ((membersOf s).map read) name value) else none)
      (if current ≠ [] then some (named current name value) else none))
    (hentry : ∀ (source : Option Value) e, e ∈ current → ∃ u,
      mergeAt identity source (source.map fun v => value (read (name e, v))) (some (value e)) = some u ∧
        read (name e, u) = e) {k : String} (hk : trim k ≠ "") :
    (((membersOf v).map read).find? fun e => name e = k) = current.find? fun e => name e = k := by
  subst hv
  rw [find?_read hname, named_merge hname hs hcurrent hk]
  cases hfind : current.find? fun e => name e = k with
  | none =>
    cases (membersOf s).lookup k <;> rfl
  | some e =>
    have hek : name e = k := by simpa using List.find?_some hfind
    obtain ⟨u, hu, hread⟩ := hentry ((membersOf s).lookup k) e (List.mem_of_find?_eq_some hfind)
    rw [hek] at hu hread
    rw [Option.map_some, hu, Option.map_some, hread]

end named

theorem parameter_read (text : Value → String) (source : Option Value) (p : ParameterEntry) :
    ∃ u, mergeAt identity source (source.map fun v => .string (readParameter text (p.name, v)).value)
        (some (.string p.value)) = some u ∧ readParameter text (p.name, u) = p := by
  by_cases hsame : SameText (source.map fun v => .string (readParameter text (p.name, v)).value)
      (some (.string p.value))
  · rw [mergeAt_same hsame]
    cases source with
    | none => cases hsame
    | some v =>
      have hvalue := SameText.string hsame
      exact ⟨v, rfl, congrArg (ParameterEntry.mk p.name) hvalue⟩
  · rw [mergeAt, merge_scalar (by trivial) hsame]
    exact ⟨_, rfl, rfl⟩

/-- The members of an entry that is a block. -/
theorem entry_members (source : Option Value) (before : Value → Members) (current : Members) :
    ∃ u, mergeAt identity source (source.map fun v => .object (before v)) (some (.object current)) = some u ∧
      ∀ k, Settled ((membersOf source).lookup k) ((membersOf (source.map fun v => .object (before v))).lookup k)
        (current.lookup k) ((membersOf (some u)).lookup k) := by
  have hne : merge identity source (source.map fun v => .object (before v)) (.object current) ≠ none := by
    refine merge_ne_none fun hnone hsame => ?_
    subst hnone
    cases hsame
  obtain ⟨u, hu⟩ := Option.ne_none_iff_exists'.mp hne
  refine ⟨u, hu, fun k => .inl ?_⟩
  rw [← hu]
  exact lookup_merge current k

theorem entry_before (source : Option Value) (before : Value → Members) (k : String) (w : Option Value → Value)
    (hw : ∀ v, (before v).lookup k = some (w (some v))) :
    (membersOf (source.map fun v => .object (before v))).lookup k = none ∨
      (membersOf (source.map fun v => .object (before v))).lookup k = some (w source) := by
  cases source with
  | none => exact .inl rfl
  | some v => exact .inr (hw v)

theorem database_read (source : Option Value) (c : DatabaseConnection) (hmaximum : Finite c.maxConnections) :
    let block : DatabaseConnection → Members := fun c =>
      [("type", .string c.type), ("url_env", .string c.urlEnv), ("max_connections", .number c.maxConnections)]
    ∃ u, mergeAt identity source (source.map fun v => .object (block (readDatabaseConnection (c.name, v))))
        (some (.object (block c))) = some u ∧ readDatabaseConnection (c.name, u) = c := by
  intro block
  obtain ⟨u, hu, hsettled⟩ :=
    entry_members source (fun v => block (readDatabaseConnection (c.name, v))) (block c)
  have hbaseline := entry_before source fun v => block (readDatabaseConnection (c.name, v))
  have htype := Settled.drawn (fun v => stringOr v "postgres") .string (hsettled "type") trivial
    (hbaseline "type" (fun s => .string (stringOr ((membersOf s).lookup "type") "postgres")) fun _ => rfl) rfl
    SameText.string
  have hurl := Settled.drawn (fun v => stringOr v "") .string (hsettled "url_env") trivial
    (hbaseline "url_env" (fun s => .string (stringOr ((membersOf s).lookup "url_env") "")) fun _ => rfl) rfl
    SameText.string
  have hnumber := Settled.drawn (fun v => numberOr v (.finite 5)) .number (hsettled "max_connections") trivial
    (hbaseline "max_connections" (fun s => .number (numberOr ((membersOf s).lookup "max_connections") (.finite 5)))
      fun _ => rfl) (numberOr_number hmaximum) (SameText.number (numberOr_finite _ ⟨_, rfl⟩) hmaximum)
  refine ⟨u, hu, ?_⟩
  rw [readDatabaseConnection]
  dsimp only
  rw [htype, hurl, hnumber]

theorem kafka_read (source : Option Value) (c : KafkaConnection) :
    let block : KafkaConnection → Members := fun c =>
      [("brokers_env", .string c.brokersEnv), ("client_id", .string c.clientId)]
    ∃ u, mergeAt identity source (source.map fun v => .object (block (readKafkaConnection (c.name, v))))
        (some (.object (block c))) = some u ∧ readKafkaConnection (c.name, u) = c := by
  intro block
  obtain ⟨u, hu, hsettled⟩ := entry_members source (fun v => block (readKafkaConnection (c.name, v))) (block c)
  have hbaseline := entry_before source fun v => block (readKafkaConnection (c.name, v))
  have hbrokers := Settled.drawn (fun v => stringOr v "") .string (hsettled "brokers_env") trivial
    (hbaseline "brokers_env" (fun s => .string (stringOr ((membersOf s).lookup "brokers_env") "")) fun _ => rfl) rfl
    SameText.string
  have hclient := Settled.drawn (fun v => stringOr v "jaiva") .string (hsettled "client_id") trivial
    (hbaseline "client_id" (fun s => .string (stringOr ((membersOf s).lookup "client_id") "jaiva")) fun _ => rfl) rfl
    SameText.string
  refine ⟨u, hu, ?_⟩
  rw [readKafkaConnection]
  dsimp only
  rw [hbrokers, hclient]

/-! ### The schedule -/

/-- Two schedules mean the same: of one that is off nothing else counts, and of one that is on the trigger in use. -/
structure SameSchedule (a b : ScheduleSettings) : Prop where
  enabled : a.enabled = b.enabled
  overlap : b.enabled = true → a.overlap = b.overlap
  catchUp : b.enabled = true → a.catchUp = b.catchUp
  triggerType : b.enabled = true → a.triggerType = b.triggerType
  everySeconds : b.enabled = true → b.triggerType = .interval → a.everySeconds = b.everySeconds
  cronExpression : b.enabled = true → b.triggerType = .cron → a.cronExpression = b.cronExpression
  timezone : b.enabled = true → b.triggerType = .cron → trim a.timezone = trim b.timezone

/-- The seconds are a number, and a cron schedule has a time zone. -/
structure SoundSchedule (schedule : ScheduleSettings) : Prop where
  everySeconds : Finite schedule.everySeconds
  timezone : schedule.triggerType = .cron → trim schedule.timezone ≠ ""

theorem ScheduleTriggerType.text_injective : Function.Injective ScheduleTriggerType.text := by
  intro a b h
  cases a <;> cases b <;> first | rfl | exact absurd h (by decide)

theorem OverlapPolicy.text_injective : Function.Injective OverlapPolicy.text := by
  intro a b h
  cases a <;> cases b <;> first | rfl | exact absurd h (by decide)

theorem CatchUpPolicy.text_injective : Function.Injective CatchUpPolicy.text := by
  intro a b h
  cases a <;> cases b <;> first | rfl | exact absurd h (by decide)

theorem scheduleBlock_off {schedule : ScheduleSettings} (h : schedule.enabled = false) :
    scheduleBlock schedule = none := by
  rw [scheduleBlock, h]
  rfl

theorem scheduleBlock_on {schedule : ScheduleSettings} (h : schedule.enabled = true) :
    ∃ members : Members, scheduleBlock schedule = some (.object members) ∧
      ∀ k, members.lookup k = ([("enabled", some (Value.bool true)),
        ("overlap", some (.string schedule.overlap.text)), ("catch_up", some (.string schedule.catchUp.text)),
        ("trigger", some (triggerBlock schedule)),
        ("timezone", if schedule.triggerType = .cron ∧ trim schedule.timezone ≠ "" then
          some (.string (trim schedule.timezone)) else none)].lookup k).join := by
  refine ⟨_, ?_, fun k => lookup_block (by simp [Members.keys]) k⟩
  rw [scheduleBlock, if_pos h]

theorem scheduleBlock_members (schedule : ScheduleSettings) (k : String) :
    (membersOf (scheduleBlock schedule)).lookup k = if schedule.enabled then ([("enabled", some (Value.bool true)),
        ("overlap", some (.string schedule.overlap.text)), ("catch_up", some (.string schedule.catchUp.text)),
        ("trigger", some (triggerBlock schedule)),
        ("timezone", if schedule.triggerType = .cron ∧ trim schedule.timezone ≠ "" then
          some (.string (trim schedule.timezone)) else none)].lookup k).join
      else none := by
  cases hon : schedule.enabled with
  | false =>
    rw [scheduleBlock_off hon]
    rfl
  | true =>
    obtain ⟨members, hmembers, hlookup⟩ := scheduleBlock_on hon
    rw [hmembers]
    exact hlookup k

/-- What is drawn of an option is nothing where the schedule is off. -/
theorem ite_before {c : Prop} [Decidable c] {w : Option Value} {v : Value} (h : w = none ∨ w = some v) :
    (if c then w else none) = none ∨ (if c then w else none) = some v := by
  split_ifs
  · exact h
  · exact .inl rfl

theorem trigger_members (schedule : ScheduleSettings) : ∃ members, triggerBlock schedule = .object members := by
  unfold triggerBlock
  cases schedule.triggerType <;> exact ⟨_, rfl⟩

theorem trigger_type (schedule : ScheduleSettings) :
    (membersOf (some (triggerBlock schedule))).lookup "type" = some (.string schedule.triggerType.text) := by
  unfold triggerBlock
  cases schedule.triggerType <;> rfl

theorem trigger_seconds (schedule : ScheduleSettings) :
    (membersOf (some (triggerBlock schedule))).lookup "every_seconds" =
      if schedule.triggerType = .interval then some (.number schedule.everySeconds) else none := by
  unfold triggerBlock
  cases schedule.triggerType <;> rfl

theorem trigger_expression (schedule : ScheduleSettings) :
    (membersOf (some (triggerBlock schedule))).lookup "expression" =
      if schedule.triggerType = .cron then some (.string schedule.cronExpression) else none := by
  unfold triggerBlock
  cases schedule.triggerType <;> rfl

theorem schedule_read {s v : Option Value} {schedule : ScheduleSettings} (hsound : SoundSchedule schedule)
    (hv : v = mergeAt identity s (scheduleBlock (readSchedule (membersOf s))) (scheduleBlock schedule)) :
    SameSchedule (readSchedule (membersOf v)) schedule := by
  subst hv
  cases hon : schedule.enabled with
  | false =>
    have hoff : (readSchedule (membersOf (mergeAt identity s (scheduleBlock (readSchedule (membersOf s)))
        (scheduleBlock schedule)))).enabled = false := by
      rw [scheduleBlock_off hon, mergeAt]
      split_ifs with hnone
      · cases hs : (readSchedule (membersOf s)).enabled with
        | false => rfl
        | true =>
          obtain ⟨members, hmembers, -⟩ := scheduleBlock_on hs
          rw [hmembers] at hnone
          cases hnone
      · rfl
    have hnot : ∀ {P : Prop}, schedule.enabled = true → P := fun h => by
      rw [hon] at h
      cases h
    exact ⟨hoff.trans hon.symm, hnot, hnot, hnot, fun h => hnot h, fun h => hnot h, fun h => hnot h⟩
  | true =>
    obtain ⟨current, hcurrent, hlookup⟩ := scheduleBlock_on hon
    rw [hcurrent]
    have hexact : ∀ k, (membersOf (mergeAt identity s (scheduleBlock (readSchedule (membersOf s)))
          (some (.object current)))).lookup k =
        mergeAt identity ((membersOf s).lookup k) ((membersOf (scheduleBlock (readSchedule (membersOf s)))).lookup k)
          (current.lookup k) := fun k => lookup_merge current k
    generalize mergeAt identity s (scheduleBlock (readSchedule (membersOf s))) (some (.object current)) = v at hexact ⊢
    have hbefore := scheduleBlock_members (readSchedule (membersOf s))
    have htrigger : ∀ j, Settled ((membersOf ((membersOf s).lookup "trigger")).lookup j)
        (if (readSchedule (membersOf s)).enabled then
          (membersOf (some (triggerBlock (readSchedule (membersOf s))))).lookup j else none)
        ((membersOf (some (triggerBlock schedule))).lookup j)
        ((membersOf ((membersOf v).lookup "trigger")).lookup j) := by
      intro j
      obtain ⟨members, hmembers⟩ := trigger_members schedule
      have hdrawn : (membersOf ((membersOf (scheduleBlock (readSchedule (membersOf s)))).lookup "trigger")).lookup j =
          if (readSchedule (membersOf s)).enabled then
            (membersOf (some (triggerBlock (readSchedule (membersOf s))))).lookup j else none := by
        rw [hbefore]
        split_ifs <;> rfl
      left
      rw [← hdrawn, hexact, hlookup]
      show (membersOf (mergeAt identity _ _ (some (triggerBlock schedule)))).lookup j = _
      rw [hmembers]
      exact lookup_merge members j
    have hmember : ∀ k, Settled ((membersOf s).lookup k) _ _ ((membersOf v).lookup k) := fun k => .inl (hexact k)
    simp only [hbefore, hlookup] at hmember
    have htype := htrigger "type"
    have hseconds := htrigger "every_seconds"
    have hexpression := htrigger "expression"
    rw [trigger_type, trigger_type] at htype
    rw [trigger_seconds, trigger_seconds] at hseconds
    rw [trigger_expression, trigger_expression] at hexpression
    refine ⟨?_, fun _ => ?_, fun _ => ?_, fun _ => ?_, fun _ hinterval => ?_, fun _ hcron => ?_, fun _ hcron => ?_⟩
    · have henabled : Settled ((membersOf s).lookup "enabled")
          (if (readSchedule (membersOf s)).enabled then some (.bool true) else none) (some (.bool true))
          ((membersOf v).lookup "enabled") := hmember "enabled"
      refine Settled.read truthy henabled (fun w hw => ?_) hon.symm fun hsame => ?_
      · cases hw
        trivial
      · split_ifs at hsame with hs
        · exact hs.trans hon.symm
        · cases hsame
    · refine Settled.drawn (fun v => oneOf [.skip, .queue, .replace] OverlapPolicy.text v .skip)
        (fun o => .string o.text) (hmember "overlap") trivial (ite_before (.inr rfl)) ?_
        fun hsame => OverlapPolicy.text_injective (SameText.string hsame)
      cases schedule.overlap <;> rfl
    · refine Settled.drawn (fun v => oneOf [.none, .one] CatchUpPolicy.text v .none)
        (fun o => .string o.text) (hmember "catch_up") trivial (ite_before (.inr rfl)) ?_
        fun hsame => CatchUpPolicy.text_injective (SameText.string hsame)
      cases schedule.catchUp <;> rfl
    · refine Settled.drawn (fun v => oneOf [.interval, .cron, .webhook] ScheduleTriggerType.text v .interval)
        (fun o => .string o.text) htype trivial (ite_before (.inr rfl)) ?_
        fun hsame => ScheduleTriggerType.text_injective (SameText.string hsame)
      cases schedule.triggerType <;> rfl
    · rw [if_pos hinterval] at hseconds
      refine Settled.drawn (fun v => numberOr v scheduleDefaults.everySeconds) .number hseconds trivial
        (ite_before (ite_before (.inr rfl))) (numberOr_number hsound.everySeconds)
        (SameText.number (numberOr_finite _ ⟨_, rfl⟩) hsound.everySeconds)
    · rw [if_pos hcron] at hexpression
      exact Settled.drawn (fun v => stringOr v scheduleDefaults.cronExpression) .string hexpression trivial
        (ite_before (ite_before (.inr rfl))) rfl SameText.string
    · have hzone := hmember "timezone"
      have hcurrent : (if schedule.triggerType = .cron ∧ trim schedule.timezone ≠ "" then
          some (Value.string (trim schedule.timezone)) else none) = some (.string (trim schedule.timezone)) :=
        if_pos ⟨hcron, hsound.timezone hcron⟩
      have hzone : Settled ((membersOf s).lookup "timezone")
          (if (readSchedule (membersOf s)).enabled then
            (if (readSchedule (membersOf s)).triggerType = .cron ∧ trim (readSchedule (membersOf s)).timezone ≠ "" then
              some (.string (trim (readSchedule (membersOf s)).timezone)) else none)
          else none) (some (.string (trim schedule.timezone))) ((membersOf v).lookup "timezone") :=
        hcurrent ▸ hzone
      exact Settled.drawn (fun v => trim (stringOr v scheduleDefaults.timezone)) .string hzone trivial
        (ite_before (ite_before (.inr rfl))) (trim_trim _) SameText.string

/-! ### The engine -/

structure SoundEngine (engine : EngineSettings) : Prop where
  queueCapacity : Finite engine.queueCapacity
  maxConcurrency : Finite engine.maxConcurrency
  memoryMaximumPercent : Finite engine.memoryMaximumPercent

theorem AdminAuthentication.text_injective : Function.Injective AdminAuthentication.text := by
  intro a b h
  cases a <;> cases b <;> first | rfl | exact absurd h (by decide)

theorem SameText.bool {a b : Bool} (h : SameText (some (.bool a)) (some (.bool b))) : a = b :=
  Value.bool.inj (Option.some_inj.mp h)

theorem engine_read {s v : Option Value} {engine : EngineSettings} (hsound : SoundEngine engine)
    (hv : v = mergeAt identity s (some (engineBlock (readEngine (membersOf s)))) (some (engineBlock engine))) :
    readEngine (membersOf v) = engine := by
  subst hv
  have hmember : ∀ k, (membersOf (mergeAt identity s (some (engineBlock (readEngine (membersOf s))))
        (some (engineBlock engine)))).lookup k =
      mergeAt identity ((membersOf s).lookup k) ((membersOf (some (engineBlock (readEngine (membersOf s))))).lookup k)
        ((membersOf (some (engineBlock engine))).lookup k) := fun k => lookup_merge _ k
  generalize mergeAt identity s _ (some (engineBlock engine)) = v at hmember ⊢
  have hinner : ∀ {k : String} {before current : Members},
      (membersOf (some (engineBlock (readEngine (membersOf s))))).lookup k = some (.object before) →
      (membersOf (some (engineBlock engine))).lookup k = some (.object current) → ∀ j,
      Settled ((membersOf ((membersOf s).lookup k)).lookup j) (before.lookup j) (current.lookup j)
        ((membersOf ((membersOf v).lookup k)).lookup j) := by
    intro k before current hbefore hcurrent j
    left
    rw [hmember, hbefore, hcurrent]
    exact lookup_merge current j
  have hqueue := Settled.drawn (fun v => numberOr v engineDefaults.queueCapacity) .number
    (.inl (hmember "queue_capacity")) trivial (.inr rfl) (numberOr_number hsound.queueCapacity)
    (SameText.number (numberOr_finite _ ⟨_, rfl⟩) hsound.queueCapacity)
  have hconcurrency := Settled.drawn (fun v => numberOr v engineDefaults.maxConcurrency) .number
    (.inl (hmember "max_concurrency")) trivial (.inr rfl) (numberOr_number hsound.maxConcurrency)
    (SameText.number (numberOr_finite _ ⟨_, rfl⟩) hsound.maxConcurrency)
  have hmemory := Settled.drawn (fun v => numberOr v engineDefaults.memoryMaximumPercent) .number
    (hinner (k := "memory") rfl rfl "maximum_percent") trivial (.inr rfl) (numberOr_number hsound.memoryMaximumPercent)
    (SameText.number (numberOr_finite _ ⟨_, rfl⟩) hsound.memoryMaximumPercent)
  have hrepository := Settled.drawn (fun v => boolOr v engineDefaults.repositoryEnabled) .bool
    (hinner (k := "repository") rfl rfl "enabled") trivial (.inr rfl) rfl SameText.bool
  have hcircuit := Settled.drawn (fun v => boolOr v engineDefaults.circuitBreakerEnabled) .bool
    (hinner (k := "circuit_breaker") rfl rfl "enabled") trivial (.inr rfl) rfl SameText.bool
  have hadmin := Settled.drawn (fun v => boolOr v engineDefaults.adminEnabled) .bool
    (hinner (k := "admin") rfl rfl "enabled") trivial (.inr rfl) rfl SameText.bool
  have hauthentication := Settled.drawn
    (fun v => oneOf [.none] AdminAuthentication.text v engineDefaults.adminAuthentication) (fun a => .string a.text)
    (hinner (k := "admin") rfl rfl "authentication") trivial (.inr rfl)
    (by cases engine.adminAuthentication <;> rfl)
    fun hsame => AdminAuthentication.text_injective (SameText.string hsame)
  have htoken := Settled.drawn (fun v => stringOr v engineDefaults.adminTokenEnv) .string
    (hinner (k := "admin") rfl rfl "token_env") trivial (.inr rfl) rfl SameText.string
  rw [readEngine, hqueue, hconcurrency, hmemory, hrepository, hcircuit, hadmin, hauthentication, htoken]

end Jaiba.Editor.Yaml
