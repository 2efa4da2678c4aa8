import Jaiba.Memory.Keyed
import Jaiba.Server.SqlBuilder

/-!
# Durations (`jaiba-memory/src/duration.rs`, instants in `hot.rs`)

`parse_duration` splits its text one byte before the end, and Hot adds the
`ttl` of a class to the clock. Both panic where there is no such place in the
text or no such instant.
-/

namespace Jaiba.Memory
open Jaiba.Lib

/-! ### `parse_duration` -/

/-- `str::split_at` one byte before the end, `none` for its panic inside a character. -/
def splitLast (value : List Char) : Option (List Char × Char) :=
  match value.getLast? with
  | some c => if c.utf8Size = 1 then some (value.dropLast, c) else none
  | none => none

/-- `str::parse::<u64>`. -/
def parseU64 (text : List Char) : Option ℕ :=
  let digits := match text with
    | '+' :: rest => rest
    | _ => text
  if digits.isEmpty || !digits.all Char.isDigit then none
  else
    let n := digits.foldl (fun n c => 10 * n + (c.toNat - '0'.toNat)) 0
    if n < 2 ^ 64 then some n else none

/-- The seconds of a unit. -/
def unitSeconds : Char → Option ℕ
  | 's' => some 1
  | 'm' => some 60
  | 'h' => some 3600
  | 'd' => some 86400
  | _ => none

/-- `parse_duration` once the text is split, in seconds. -/
def durationOf (value number : List Char) (unit : Char) : Except MemoryError ℕ :=
  match parseU64 number with
  | none => .error (.configuration
      ("duración inválida '" ++ String.ofList value ++ "'; usa p. ej. 30s, 5m, 2h"))
  | some amount =>
    match unitSeconds unit with
    | none => .error (.configuration
        ("unidad de duración desconocida en '" ++ String.ofList value ++ "' (usa s|m|h|d)"))
    | some factor =>
      let secs := min (amount * factor) (2 ^ 64 - 1)
      if secs = 0 then .error (.configuration "la duración debe ser mayor que cero") else .ok secs

/-- `none` is a panic. -/
def parseDuration (text : String) : Option (Except MemoryError ℕ) :=
  let value := Server.SqlBuilder.trim text.toList
  if value.isEmpty then
    some (.error (.configuration "duración vacía; usa p. ej. 30s, 5m, 2h"))
  else (splitLast value).map fun split => durationOf value split.1 split.2

/-- The text, without the blanks around it, is empty or ends in a byte of its own. -/
def SplitsAtEnd (text : String) : Prop :=
  ∀ c, (Server.SqlBuilder.trim text.toList).getLast? = some c → c.utf8Size = 1

theorem parseDuration_ne_none_iff (text : String) :
    parseDuration text ≠ none ↔ SplitsAtEnd text := by
  unfold parseDuration SplitsAtEnd splitLast
  simp only
  generalize Server.SqlBuilder.trim text.toList = value
  cases hlast : value.getLast? with
  | none =>
    rw [List.getLast?_eq_none_iff.mp hlast]
    simp
  | some c =>
    have hne : value.isEmpty = false := by
      cases value with
      | nil => cases hlast
      | cons x xs => rfl
    rw [hne]
    by_cases hc : c.utf8Size = 1
    · simp [hc]
    · simp [hc]

/-! ### Instants -/

/-- `now + ttl` has no instant, `last` being the last one the platform has. -/
def ClassPolicy.overflows (c : ClassPolicy) (last now : ℕ) : Bool :=
  c.ttl.any fun ttl => last < now + ttl

namespace Manager

variable (policy : MemoryPolicy) (platform : Platform) (last : ℕ)

/-- `prepare_upsert` panics: it has its victims and adds the `ttl` to the clock. -/
def prepareUpsertPanics (s : Manager) (key : String) (value : Value) (c : ClassPolicy) (now : ℕ) :
    Bool :=
  (s.hot.prepareUpsert platform.order key value c now).isOk && c.overflows last now

/-- An object of a class is admitted, by `upsert_at` or when a copy is promoted. -/
def admissionPanics (s : Manager) (key : String) (value : Value) (className : String) (now : ℕ) :
    Bool :=
  match policy.class? className with
  | .error _ => false
  | .ok c => s.prepareUpsertPanics platform last key value c now

def getPanics (s : Manager) (key : String) (now : ℕ) : Bool :=
  let flushed := (s.flushDeferredAt platform now false).2
  match flushed.hot.get key now with
  | (some _, _) => false
  | (none, hot) =>
    let missed := { flushed with hot := hot }
    match ((missed.tierGet platform .warm key).or (missed.tierGet platform .cold key)).or
      (missed.tierGet platform .frozen key) with
    | some entry =>
      missed.admissionPanics policy platform last key entry.value entry.className now
    | none => false

end Manager

/-- The operation adds a duration to an instant and there is no such instant.
The flush and idle times are compared with `duration_since`, which saturates,
and `checked_duration_since`: only an admission adds. -/
def MemoryOp.panics (policy : MemoryPolicy) (platform : Platform) (last : ℕ) (m : Manager) :
    MemoryOp → Bool
  | .upsert key value className now => m.admissionPanics policy platform last key value className now
  | .get key now => m.getPanics policy platform last key now
  | .remove _ | .notifyPressure _ | .poll _ => false

variable {policy : MemoryPolicy} {platform : Platform} {last now : ℕ}

/-- Every class can be admitted now. -/
def MemoryPolicy.FitsClock (policy : MemoryPolicy) (last now : ℕ) : Prop :=
  ∀ c ∈ policy.classes.rows, ∀ ttl, c.ttl = some ttl → now + ttl ≤ last

theorem admissionPanics_of_fits (h : policy.FitsClock last now) (platform : Platform) (s : Manager)
    (key : String) (value : Value) (className : String) :
    s.admissionPanics policy platform last key value className now = false := by
  unfold Manager.admissionPanics
  split
  · rfl
  next c hc =>
    have hfits : c.overflows last now = false := by
      rw [ClassPolicy.overflows, Option.any_eq_false]
      intro ttl httl
      have hle := h c (Table.find?_mem (MemoryPolicy.class?_ok_iff.mp hc)) ttl httl
      simpa using hle
    rw [Manager.prepareUpsertPanics, hfits, Bool.and_false]

theorem not_panics_of_fits (h : policy.FitsClock last now) (platform : Platform) (m : Manager)
    {op : MemoryOp} (hnow : op.now? = some now) : op.panics policy platform last m = false := by
  cases op with
  | upsert key value className n =>
    cases Option.some.inj hnow
    exact admissionPanics_of_fits h platform m key value className
  | get key n =>
    cases Option.some.inj hnow
    simp only [MemoryOp.panics, Manager.getPanics]
    split
    · rfl
    · split
      · exact admissionPanics_of_fits h platform _ key _ _
      · rfl
  | remove key => rfl
  | notifyPressure n => rfl
  | poll n => rfl

/-- The manager of a process that starts, with a sink. -/
def startManager (policy : MemoryPolicy) : Manager where
  hot := ⟨Dict.empty, policy.maxEntries, policy.maxHotBytes⟩
  tiers := fun _ => Dict.empty
  sink := some []
  deferred := ⟨OrderedDict.empty, policy.maxPendingDeferred⟩

/-- An object of one byte is admitted to an empty Hot. -/
theorem prepareUpsert_start (policy : MemoryPolicy) (order : IterOrder) (c : ClassPolicy) (now : ℕ) :
    ((startManager policy).hot.prepareUpsert order "" one c now).isOk = true := by
  have hbytes := policy.maxHotBytes_pos
  have hentries := policy.maxEntries_pos
  have hsize : "".utf8ByteSize + jsonLen one = 1 := by decide +kernel
  have hneeded : (startManager policy).hot.needed "" now = 0 := by
    have hone : 0 + 1 - policy.maxEntries = 0 := by omega
    exact hone
  have hresident : (startManager policy).hot.residentBytes "" now = 0 := rfl
  have hselect : ∀ rounds candidates, (startManager policy).hot.selectVictims 0 1 rounds candidates 0
      [] = .ok [] := by
    intro rounds candidates
    unfold HotStore.selectVictims
    rw [if_neg]
    simp only [startManager, List.length_nil]
    omega
  simp only [HotStore.prepareUpsert, hsize, hneeded, hresident, hselect]
  rw [if_neg (by simp only [startManager]; omega)]
  rfl

theorem panics_of_overflow {c : ClassPolicy} (hc : c ∈ policy.classes.rows) {ttl : ℕ}
    (httl : c.ttl = some ttl) (hlate : last < now + ttl) (platform : Platform) :
    (MemoryOp.upsert "" one c.name now).panics policy platform last (startManager policy) = true := by
  have hclass : policy.class? c.name = .ok c :=
    MemoryPolicy.class?_ok_iff.mpr (Table.find?_of_mem hc)
  have hover : c.overflows last now = true := by
    rw [ClassPolicy.overflows, httl, Option.any_some]
    exact decide_eq_true hlate
  simp only [MemoryOp.panics, Manager.admissionPanics, hclass]
  rw [Manager.prepareUpsertPanics, prepareUpsert_start, hover, Bool.and_true]

/-- `parse_duration` does not panic exactly on texts that end in a byte of their
own, and no operation of a manager panics now exactly when the clock has room
for the `ttl` of every class. -/
theorem durations_never_panic_iff (text : String) (policy : MemoryPolicy) (last now : ℕ) :
    (parseDuration text ≠ none ↔ SplitsAtEnd text) ∧
      ((∀ platform m (op : MemoryOp), op.now? = some now →
        op.panics policy platform last m = false) ↔ policy.FitsClock last now) := by
  refine ⟨parseDuration_ne_none_iff text, fun h c hc ttl httl => ?_, fun h platform m op hnow =>
    not_panics_of_fits h platform m hnow⟩
  by_contra hlate
  have hnone := h (.reliable .asStored) (startManager policy) (.upsert "" one c.name now) rfl
  rw [panics_of_overflow hc httl (by omega)] at hnone
  cases hnone

/-- The largest `ttl` that a policy can write. -/
def foreverPolicy : MemoryPolicy where
  maxEntries := 4
  maxHotBytes := 1024
  maxPendingDeferred := 8
  backends := ⟨false, false, false⟩
  classes := ⟨[⟨"ticks", .volatile, .hot, some ((2 ^ 64 - 1) * 10 ^ 9), none, .normal, none⟩],
    by decide⟩
  accepted := by
    intro c hc
    cases List.mem_singleton.mp hc
    constructor <;> simp
  maxEntries_pos := sampleEntries_pos
  maxHotBytes_pos := sampleBytes_pos
  maxPendingDeferred_pos := samplePending_pos

/-- A text whose last letter is not of one byte; and a `ttl` that no clock of
`i64` seconds can be advanced by. -/
theorem long_duration_panics :
    parseDuration "5ñ" = none ∧ parseDuration "18446744073709551615s" = some (.ok (2 ^ 64 - 1)) ∧
      (MemoryOp.upsert "" one "ticks" 0).panics foreverPolicy (.reliable .asStored)
        (2 ^ 63 * 10 ^ 9 - 1) (startManager foreverPolicy) = true := by
  refine ⟨by decide +kernel, by decide +kernel, ?_⟩
  exact panics_of_overflow (c := ⟨"ticks", .volatile, .hot, some ((2 ^ 64 - 1) * 10 ^ 9), none,
    .normal, none⟩) List.mem_cons_self rfl (by decide) _

end Jaiba.Memory
