import Mathlib.Data.Nat.Find
import Mathlib.Tactic.Tauto
import Jaiba.Server.Scheduler

/-!
# Catch-up (`should_catch_up`, `delay_until_next_cron`)

`should_catch_up` decides from the time since the last fire and the time to the
next occurrence. Against it stand the occurrences themselves: those a schedule
has had since it last fired.
-/

namespace Jaiba.Server.FlowScheduler

/-- The seconds at which an expression occurs in a time zone. -/
abbrev Occurrences := String → String → ℕ → Prop

/-- The next occurrence after `now`. -/
structure Next (occurs : Occurrences) (expression zone : String) (now t : ℕ) : Prop where
  after : now < t
  present : occurs expression zone t
  first : ∀ u, now < u → occurs expression zone u → t ≤ u

/-- `upcoming(tz).next()` is the first occurrence after the clock, which stands
`fraction` milliseconds after the second; `delay_until_next_cron` waits for at
least 50 milliseconds. -/
structure Calendar.Tells (calendar : Calendar) (occurs : Occurrences) (fraction : ℕ) : Prop where
  below : fraction < 1000
  never : ∀ expression zone now, (∀ t, now < t → ¬ occurs expression zone t) →
    calendar.delay expression zone now = none
  next : ∀ expression zone now t, Next occurs expression zone now t →
    calendar.delay expression zone now = some (max (1000 * (t - now) - fraction) 50)

/-- The schedule has an occurrence after `last` that has passed. -/
def ScheduleConfig.Missed (occurs : Occurrences) (c : ScheduleConfig) (last now : ℕ) : Prop :=
  match c.trigger with
  | .interval everySeconds => last + everySeconds ≤ now
  | .cron expression => ∃ t, last < t ∧ t ≤ now ∧ occurs expression (c.timezone.getD "UTC") t
  | .webhook => False

/-- An occurrence comes within two seconds of the clock. -/
def Soon (occurs : Occurrences) (fraction : ℕ) (expression zone : String) (now : ℕ) : Prop :=
  ∃ t, now < t ∧ 1000 * (t - now) < 2000 + fraction ∧ occurs expression zone t

/-- An interval; or a missed occurrence that is a minute old or has another one
close behind it; or no missed occurrence, a fire of the last minute, and no
occurrence close ahead. -/
def ScheduleConfig.Apparent (occurs : Occurrences) (fraction : ℕ) (c : ScheduleConfig)
    (last now : ℕ) : Prop :=
  match c.trigger with
  | .cron expression =>
    c.Missed occurs last now ∧
        (last + 60 ≤ now ∨ Soon occurs fraction expression (c.timezone.getD "UTC") now) ∨
      ¬ c.Missed occurs last now ∧ now < last + 60 ∧
        ¬ Soon occurs fraction expression (c.timezone.getD "UTC") now
  | _ => True

variable {calendar : Calendar} {occurs : Occurrences} {fraction : ℕ}

theorem exists_next {expression zone : String} {now t : ℕ} (hlt : now < t)
    (ht : occurs expression zone t) : ∃ u, Next occurs expression zone now u ∧ u ≤ t := by
  classical
  have hex : ∃ u, now < u ∧ occurs expression zone u := ⟨t, hlt, ht⟩
  obtain ⟨hafter, hoccurs⟩ := Nat.find_spec hex
  exact ⟨Nat.find hex, ⟨hafter, hoccurs, fun u hu hou => Nat.find_min' hex ⟨hu, hou⟩⟩,
    Nat.find_min' hex ⟨hlt, ht⟩⟩

/-- The delay is below two seconds exactly when an occurrence comes as soon. -/
theorem delay_soon_iff (h : calendar.Tells occurs fraction) (expression zone : String) (now : ℕ) :
    (calendar.delay expression zone now).elim false (fun delay => delay < 2000) = true ↔
      Soon occurs fraction expression zone now := by
  have hfraction := h.below
  by_cases hex : ∃ t, now < t ∧ occurs expression zone t
  · obtain ⟨t, hlt, ht⟩ := hex
    obtain ⟨u, hu, -⟩ := exists_next hlt ht
    have hafter := hu.after
    rw [h.next expression zone now u hu, Option.elim_some, decide_eq_true_eq]
    constructor
    · intro hdelay
      exact ⟨u, hafter, by omega, hu.present⟩
    · rintro ⟨w, hw, hsoon, hwoccurs⟩
      have hle := hu.first w hw hwoccurs
      omega
  · have hnone : ∀ t, now < t → ¬ occurs expression zone t := fun t hlt ht => hex ⟨t, hlt, ht⟩
    rw [h.never expression zone now hnone, Option.elim_none]
    constructor
    · intro hfalse
      cases hfalse
    · rintro ⟨t, hlt, -, ht⟩
      exact absurd ht (hnone t hlt)

theorem shouldCatchUp_cron_iff (h : calendar.Tells occurs fraction) {c : ScheduleConfig}
    {expression : String} (hc : c.trigger = .cron expression) {last now : ℕ} (hle : last ≤ now) :
    shouldCatchUp calendar c (some last) now = true ↔
      last + 60 ≤ now ∨ Soon occurs fraction expression (c.timezone.getD "UTC") now := by
  have helapsed : 60 ≤ now - last ↔ last + 60 ≤ now := by omega
  simp only [shouldCatchUp, hc, ScheduleConfig.delay, Bool.or_eq_true, decide_eq_true_eq,
    delay_soon_iff h, helapsed]
  exact or_comm

theorem catchUp_right_iff (h : calendar.Tells occurs fraction) (c : ScheduleConfig) {last now : ℕ}
    (hle : last ≤ now) :
    (shouldCatchUp calendar c (some last) now = true ↔ c.Missed occurs last now) ↔
      c.Apparent occurs fraction last now := by
  cases hc : c.trigger with
  | interval everySeconds =>
    simp only [shouldCatchUp, hc, ScheduleConfig.Missed, ScheduleConfig.Apparent, decide_eq_true_eq,
      iff_true]
    omega
  | cron expression =>
    rw [shouldCatchUp_cron_iff h hc hle]
    simp only [ScheduleConfig.Apparent, hc]
    have hlate : now < last + 60 ↔ ¬ last + 60 ≤ now := Nat.not_le.symm
    rw [hlate]
    tauto
  | webhook =>
    simp [shouldCatchUp, hc, ScheduleConfig.Missed, ScheduleConfig.Apparent]

/-- A second before an occurrence that was fired in this very second, or a
minute after the last fire of an expression that never occurs. -/
theorem cron_mistaken (h : calendar.Tells occurs fraction) {c : ScheduleConfig} {expression : String}
    (hc : c.trigger = .cron expression) : ∃ last now, last ≤ now ∧
      shouldCatchUp calendar c (some last) now = true ∧ ¬ c.Missed occurs last now := by
  by_cases hex : ∃ t, 0 < t ∧ occurs expression (c.timezone.getD "UTC") t
  · obtain ⟨t, hpos, ht⟩ := hex
    refine ⟨t - 1, t - 1, le_refl _, (shouldCatchUp_cron_iff h hc (le_refl _)).mpr
      (.inr ⟨t, by omega, by omega, ht⟩), ?_⟩
    simp only [ScheduleConfig.Missed, hc]
    rintro ⟨u, hlt, hle, -⟩
    omega
  · refine ⟨0, 60, by omega, (shouldCatchUp_cron_iff h hc (by omega)).mpr (.inl (by omega)), ?_⟩
    simp only [ScheduleConfig.Missed, hc]
    rintro ⟨u, hlt, -, hu⟩
    exact hex ⟨u, hlt, hu⟩

/-- Every midnight, whatever the expression and the zone. -/
def midnight : Occurrences := fun _ _ t => t % 86400 = 0

/-- The calendar of `midnight` on a clock of whole seconds. -/
def daily : Calendar where
  schedule := fun _ => .ok ()
  zone := fun _ => true
  delay := fun _ _ now => some (1000 * (86400 - now % 86400))

theorem daily_tells : daily.Tells midnight 0 where
  below := by decide
  never := fun expression zone now hnone => by
    have hnext : midnight expression zone (now + (86400 - now % 86400)) := by
      unfold midnight
      omega
    exact absurd hnext (hnone _ (by omega))
  next := fun expression zone now t ht => by
    have hpresent : t % 86400 = 0 := ht.present
    have hafter := ht.after
    have hnext : midnight expression zone (now + (86400 - now % 86400)) := by
      unfold midnight
      omega
    have hfirst := ht.first _ (by omega) hnext
    have hsame : t - now = 86400 - now % 86400 := by omega
    rw [hsame, daily]
    simp only [Option.some.injEq]
    omega

def everyMinute : ScheduleConfig := ⟨true, .interval 60, none, .skip, .one⟩

def atMidnight : ScheduleConfig := ⟨true, .cron "0 0 0 * * *", none, .skip, .one⟩

end Jaiba.Server.FlowScheduler
