import Jaiba.Lib.Ledger
import Jaiba.Lib.Machine
import Jaiba.Engine.Recovery

/-!
# Packet memory (`engine/memory.rs`)

The limiters of the flows of one process and their reservations. Bytes become
units of 64 KiB; a reservation takes its units from the semaphore of its limiter
and then from the one of the process, in two steps, and gives them back in two.
-/

namespace Jaiba.Engine.PacketMemory
open Jaiba.Lib

/-- `PROCESS_BUDGET`: at least one unit, and no more than a `u32` counts. -/
structure ProcessBudget where
  bytes : ℕ
  fits : unitBytes ≤ bytes ∧ bytes / unitBytes ≤ 2 ^ 32 - 1

def ProcessBudget.units (p : ProcessBudget) : ℕ := p.bytes / unitBytes

/-- The permits of a limiter that no one holds are `available`. -/
structure Limiter where
  budgetBytes : ℕ
  available : ℕ
  deriving Repr, DecidableEq

def Limiter.totalUnits (l : Limiter) : ℕ := min (max (l.budgetBytes / unitBytes) 1) (2 ^ 32 - 1)

/-- `from_budget`. -/
def Limiter.fromBudget (budgetBytes : ℕ) : Limiter :=
  ⟨budgetBytes, (⟨budgetBytes, 0⟩ : Limiter).totalUnits⟩

/-- The checks of `reserve` and `try_reserve`. -/
def Limiter.Takes (l : Limiter) (bytes : ℕ) : Prop :=
  bytes ≤ l.budgetBytes ∧ MemoryLimiter.units bytes ≤ l.totalUnits

/-- Where a call of `reserve` or `try_reserve` stands; a semaphore assigns its
permits to a waiting call little by little. -/
inductive Stage where
  /-- waits for the permits of the limiter -/
  | own (got : ℕ)
  /-- holds the permits of the limiter -/
  | owned
  /-- waits for the permits of the process -/
  | shared (got : ℕ)
  /-- the reservation is alive -/
  | live
  /-- drops the permits of the limiter and returns, or is cancelled -/
  | letGo (error : Option FlowError)
  /-- the reservation has dropped its permits of the limiter -/
  | releasing
  | done (error : Option FlowError)
  deriving Repr, DecidableEq

/-- A call and the reservation it returns; `bytes` is at least one, and `waits`
tells `reserve` from `try_reserve`. -/
structure Call where
  limiter : ℕ
  bytes : ℕ
  waits : Bool
  stage : Stage
  deriving Repr, DecidableEq

namespace Call

def units (c : Call) : ℕ := MemoryLimiter.units c.bytes

/-- Permits of the limiter that the call holds. -/
def own (c : Call) : ℕ :=
  match c.stage with
  | .own got => got
  | .owned | .shared _ | .live | .letGo _ => c.units
  | .releasing | .done _ => 0

/-- Permits of the process that the call holds. -/
def shared (c : Call) : ℕ :=
  match c.stage with
  | .shared got => got
  | .live | .releasing => c.units
  | .own _ | .owned | .letGo _ | .done _ => 0

/-- The call has not returned, or its reservation holds permits. -/
def pending (c : Call) : Bool :=
  match c.stage with
  | .done _ => false
  | _ => true

/-- The bytes of a live reservation. -/
def liveBytes (c : Call) : ℕ := if c.stage = .live then c.bytes else 0

def ownOf (j : ℕ) (c : Call) : ℕ := if c.limiter = j then c.own else 0

def liveBytesOf (j : ℕ) (c : Call) : ℕ := if c.limiter = j then c.liveBytes else 0

end Call

structure State where
  process : Option ProcessBudget
  /-- permits of the process that no one holds -/
  shared : ℕ
  limiters : List Limiter
  calls : List Call

def State.start : State := ⟨none, 0, [], []⟩

/-- `JAIBA_MEMORY_MAX_BYTES`, parsed. -/
inductive EnvVar where
  | notPresent
  | notUnicode
  | value (parsed : Option ℕ)
  deriving Repr, DecidableEq

inductive Action where
  /-- `detect`, with the memory of the machine -/
  | detect (available percent : ℕ) (setting : EnvVar)
  /-- `reserve`; `pressure` is the error of the domain memory under pressure -/
  | reserve (limiter bytes : ℕ) (pressure : Option FlowError)
  | tryReserve (limiter bytes : ℕ)
  /-- a semaphore assigns permits to a waiting call -/
  | assign (i n : ℕ)
  | advance (i : ℕ)
  /-- the future of a waiting call is dropped -/
  | cancel (i : ℕ)
  /-- the last clone of a reservation is dropped -/
  | drop (i : ℕ)

namespace State

variable (s : State)

/-- The bytes of `PROCESS_BUDGET` on the first `detect`. -/
def processBytes (available : ℕ) : EnvVar → Except FlowError ℕ
  | .value (some bytes) => .ok bytes
  | .value none => .error (.configuration "JAIBA_MEMORY_MAX_BYTES must be a positive integer")
  | .notPresent => .ok (Repository.Database.saturatingMul available 42 / 100)
  | .notUnicode => .error (.configuration "invalid JAIBA_MEMORY_MAX_BYTES")

def addLimiter (budgetBytes : ℕ) : State :=
  { s with limiters := s.limiters ++ [.fromBudget budgetBytes] }

/-- `detect`. -/
def detect (available percent : ℕ) (setting : EnvVar) : Except FlowError State :=
  if percent < 1 || 90 < percent then
    .error (.configuration "memory maximum_percent must be between 1 and 90")
  else
    let budgetBytes := Repository.Database.saturatingMul available percent / 100
    match s.process with
    | some process => .ok (s.addLimiter (min budgetBytes process.bytes))
    | none =>
      match processBytes available setting with
      | .error e => .error e
      | .ok bytes =>
        if fits : unitBytes ≤ bytes ∧ bytes / unitBytes ≤ 2 ^ 32 - 1 then
          .ok ({ s with process := some ⟨bytes, fits⟩, shared := bytes / unitBytes }.addLimiter
            (min budgetBytes bytes))
        else
          .error (.configuration
            "process memory budget must fit 1..=u32::MAX units of 64 KiB")

/-- A call starts; `available` is what the limiter is left with. -/
def enter (c : Call) (available : ℕ) : State :=
  { s with
    limiters := s.limiters.modify c.limiter fun l => { l with available := available }
    calls := s.calls ++ [c] }

/-- Call `i` comes to a stage; `available` and `shared` are what the semaphores
are left with. -/
def settle (i : ℕ) (c : Call) (stage : Stage) (available shared : ℕ) : State :=
  { s with
    shared := shared
    limiters := s.limiters.modify c.limiter fun l => { l with available := available }
    calls := s.calls.set i { c with stage := stage } }

/-- `reserve` up to its first wait. -/
def reserve (j bytes : ℕ) (pressure : Option FlowError) : Option State :=
  s.limiters[j]?.map fun l =>
    let c : Call := ⟨j, max bytes 1, true, .owned⟩
    if l.budgetBytes < c.bytes then
      s.enter { c with stage := .done (some (.packetTooLarge c.bytes l.budgetBytes)) } l.available
    else if l.totalUnits < c.units then
      s.enter
        { c with stage := .done (some (.packetTooLarge c.bytes (l.totalUnits * unitBytes))) }
        l.available
    else if c.units ≤ l.available then s.enter c (l.available - c.units)
    else
      match pressure with
      | some e => s.enter { c with stage := .done (some e) } l.available
      | none => s.enter { c with stage := .own 0 } l.available

/-- `try_reserve` up to the semaphore of the process. -/
def tryReserve (j bytes : ℕ) : Option State :=
  s.limiters[j]?.map fun l =>
    let c : Call := ⟨j, max bytes 1, false, .owned⟩
    if l.budgetBytes < c.bytes || l.totalUnits < c.units then
      s.enter { c with stage := .done (some (.packetTooLarge c.bytes l.budgetBytes)) } l.available
    else if c.units ≤ l.available then s.enter c (l.available - c.units)
    else s.enter { c with stage := .done (some (.memoryCapacity c.bytes)) } l.available

/-- A semaphore assigns `n` permits to a call that waits for it. -/
def assign (i n : ℕ) (c : Call) (l : Limiter) : Option State :=
  match c.stage with
  | .own got =>
    if n ≤ l.available && got + n ≤ c.units then
      some (s.settle i c (.own (got + n)) (l.available - n) s.shared)
    else none
  | .shared got =>
    if n ≤ s.shared && got + n ≤ c.units then
      some (s.settle i c (.shared (got + n)) l.available (s.shared - n))
    else none
  | _ => none

/-- A call goes on with what it holds. -/
def advance (i : ℕ) (c : Call) (l : Limiter) : Option State :=
  match c.stage with
  | .own got => if got = c.units then some (s.settle i c .owned l.available s.shared) else none
  | .owned =>
    if c.units ≤ s.shared then some (s.settle i c .live l.available (s.shared - c.units))
    else if c.waits then some (s.settle i c (.shared 0) l.available s.shared)
    else some (s.settle i c (.letGo (some (.memoryCapacity c.bytes))) l.available s.shared)
  | .shared got => if got = c.units then some (s.settle i c .live l.available s.shared) else none
  | .letGo error => some (s.settle i c (.done error) (l.available + c.units) s.shared)
  | .releasing => some (s.settle i c (.done none) l.available (s.shared + c.units))
  | .live | .done _ => none

def cancel (i : ℕ) (c : Call) (l : Limiter) : Option State :=
  match c.stage with
  | .own got => some (s.settle i c (.done none) (l.available + got) s.shared)
  | .shared got => some (s.settle i c (.letGo none) l.available (s.shared + got))
  | _ => none

def drop (i : ℕ) (c : Call) (l : Limiter) : Option State :=
  match c.stage with
  | .live => some (s.settle i c .releasing (l.available + c.units) s.shared)
  | _ => none

/-- A step of call `i` and its limiter. -/
def onCall (i : ℕ) (f : Call → Limiter → Option State) : Option State :=
  s.calls[i]?.bind fun c => s.limiters[c.limiter]?.bind fun l => f c l

end State

def step (s : State) : Action → Option State
  | .detect available percent setting =>
    match s.detect available percent setting with
    | .ok t => some t
    | .error _ => some s
  | .reserve j bytes pressure => s.reserve j bytes pressure
  | .tryReserve j bytes => s.tryReserve j bytes
  | .assign i n => s.onCall i (s.assign i n)
  | .advance i => s.onCall i (s.advance i)
  | .cancel i => s.onCall i (s.cancel i)
  | .drop i => s.onCall i (s.drop i)

/-- The limiters of a process under any number of concurrent calls. -/
def memory : Machine State Action := ⟨step⟩

/-! ### Units -/

/-- The units of a request cover its bytes, and there is at least one. -/
theorem le_units (bytes : ℕ) : bytes ≤ MemoryLimiter.units bytes * unitBytes ∧
    1 ≤ MemoryLimiter.units bytes := by
  have hmax : 1 ≤ max bytes 1 := Nat.le_max_right bytes 1
  have hle : bytes ≤ max bytes 1 := Nat.le_max_left bytes 1
  unfold MemoryLimiter.units unitBytes
  omega

/-- Where the budget has a unit, the permits are under it; else there is one. -/
theorem Limiter.totalUnits_le (l : Limiter) :
    l.totalUnits * unitBytes ≤ l.budgetBytes ∨ l.totalUnits = 1 := by
  unfold Limiter.totalUnits unitBytes
  omega

theorem ProcessBudget.units_le (p : ProcessBudget) : p.units * unitBytes ≤ p.bytes :=
  Nat.div_mul_le_self p.bytes unitBytes

/-- A limiter has no more permits than its process. -/
theorem totalUnits_le_process {l : Limiter} {p : ProcessBudget} (h : l.budgetBytes ≤ p.bytes) :
    l.totalUnits ≤ p.units := by
  obtain ⟨hunit, _⟩ := p.fits
  unfold Limiter.totalUnits ProcessBudget.units unitBytes at *
  omega

/-! ### The invariant -/

structure Inv (s : State) : Prop where
  own : ∀ j l, s.limiters[j]? = some l →
    Lib.Balanced (Call.ownOf j) l.available l.totalUnits s.calls
  shared : ∀ p, s.process = some p → Lib.Balanced Call.shared s.shared p.units s.calls
  bounded : ∀ l ∈ s.limiters, ∃ p, s.process = some p ∧ l.budgetBytes ≤ p.bytes
  limiter : ∀ c ∈ s.calls, c.limiter < s.limiters.length
  accepted : ∀ c ∈ s.calls, c.pending = true → ∀ l, s.limiters[c.limiter]? = some l →
    l.Takes c.bytes

variable {s t : State} {i j : ℕ} {c : Call} {l : Limiter}

@[simp] theorem Call.units_stage (c : Call) (stage : Stage) :
    Call.units { c with stage := stage } = c.units := rfl

theorem getElem?_modify_limiter {limiters : List Limiter} {available : ℕ} {l' : Limiter}
    (hl : limiters[c.limiter]? = some l)
    (h : (limiters.modify c.limiter fun l => { l with available := available })[j]? = some l') :
    (c.limiter = j ∧ l' = { l with available := available }) ∨
      c.limiter ≠ j ∧ limiters[j]? = some l' := by
  rw [List.getElem?_modify] at h
  by_cases hj : c.limiter = j
  · subst hj
    rw [hl] at h
    simp only [if_true, Option.map_eq_map, Option.map_some, Option.some.injEq] at h
    exact .inl ⟨rfl, h.symm⟩
  · simp only [hj, if_false, Option.map_eq_map, Option.map_id_fun', id_eq] at h
    exact .inr ⟨hj, h⟩

/-- What a limiter takes does not change. -/
theorem takes_modify {limiters : List Limiter} {available : ℕ} {l₀ l' : Limiter}
    (hl : limiters[c.limiter]? = some l)
    (h : (limiters.modify c.limiter fun l => { l with available := available })[j]? = some l')
    (hl₀ : limiters[j]? = some l₀) {bytes : ℕ} (htakes : l₀.Takes bytes) : l'.Takes bytes := by
  rcases getElem?_modify_limiter hl h with ⟨rfl, rfl⟩ | ⟨_, hold⟩
  · rw [hl] at hl₀
    rw [← Option.some.inj hl₀] at htakes
    exact htakes
  · rw [hold] at hl₀
    rw [Option.some.inj hl₀]
    exact htakes

/-- A call that gives back what it lets go of, and takes what it holds, keeps the
invariant. -/
theorem Inv.settle (h : Inv s) (hc : s.calls[i]? = some c) (hl : s.limiters[c.limiter]? = some l)
    {stage : Stage} {available shared : ℕ} (hpending : c.pending = true)
    (hown : available + Call.own { c with stage := stage } = l.available + c.own)
    (hshared : shared + Call.shared { c with stage := stage } = s.shared + c.shared) :
    Inv (s.settle i c stage available shared) := by
  have hmem := List.mem_of_getElem? hc
  have hcalls : ∀ d ∈ s.calls.set i { c with stage := stage },
      d ∈ s.calls ∨ d = { c with stage := stage } := fun d hd => List.mem_or_eq_of_mem_set hd
  constructor
  · intro j l' hl'
    rcases getElem?_modify_limiter hl hl' with ⟨rfl, rfl⟩ | ⟨hj, hold⟩
    · refine (h.own _ l hl).set hc ?_
      simpa only [Call.ownOf, if_true] using hown
    · refine (h.own j l' hold).set hc ?_
      simp only [Call.ownOf, hj, if_false]
  · intro p hp
    exact (h.shared p hp).set hc hshared
  · intro l' hl'
    obtain ⟨j, hj⟩ := List.mem_iff_getElem?.mp hl'
    rcases getElem?_modify_limiter hl hj with ⟨_, rfl⟩ | ⟨_, hold⟩
    · exact h.bounded l (List.mem_of_getElem? hl)
    · exact h.bounded l' (List.mem_of_getElem? hold)
  · intro d hd
    rw [State.settle, List.length_modify]
    rcases hcalls d hd with hd | rfl
    · exact h.limiter d hd
    · exact h.limiter c hmem
  · intro d hd hopen l' hl'
    rcases hcalls d hd with hd | rfl
    · obtain ⟨l₀, hl₀⟩ : ∃ l₀, s.limiters[d.limiter]? = some l₀ :=
        ⟨_, List.getElem?_eq_getElem (h.limiter d hd)⟩
      exact takes_modify hl hl' hl₀ (h.accepted d hd hopen l₀ hl₀)
    · exact takes_modify hl hl' hl (h.accepted c hmem hpending l hl)

/-- A call that starts keeps the invariant. -/
theorem Inv.enter (h : Inv s) (hl : s.limiters[c.limiter]? = some l) {available : ℕ}
    (hown : available + c.own = l.available) (hshared : c.shared = 0)
    (haccepted : c.pending = true → l.Takes c.bytes) : Inv (s.enter c available) := by
  have hlt : c.limiter < s.limiters.length := (List.getElem?_eq_some_iff.mp hl).1
  constructor
  · intro j l' hl'
    rcases getElem?_modify_limiter hl hl' with ⟨rfl, rfl⟩ | ⟨hj, hold⟩
    · refine (h.own _ l hl).append ?_
      simpa only [Call.ownOf, if_true] using hown
    · refine (h.own j l' hold).append ?_
      simp only [Call.ownOf, hj, if_false, Nat.add_zero]
  · intro p hp
    refine (h.shared p hp).append ?_
    rw [hshared]
    rfl
  · intro l' hl'
    obtain ⟨j, hj⟩ := List.mem_iff_getElem?.mp hl'
    rcases getElem?_modify_limiter hl hj with ⟨_, rfl⟩ | ⟨_, hold⟩
    · exact h.bounded l (List.mem_of_getElem? hl)
    · exact h.bounded l' (List.mem_of_getElem? hold)
  · intro d hd
    rw [State.enter, List.length_modify]
    rcases List.mem_append.mp hd with hd | hd
    · exact h.limiter d hd
    · rw [List.mem_singleton.mp hd]
      exact hlt
  · intro d hd hopen l' hl'
    rcases List.mem_append.mp hd with hd | hd
    · obtain ⟨l₀, hl₀⟩ : ∃ l₀, s.limiters[d.limiter]? = some l₀ :=
        ⟨_, List.getElem?_eq_getElem (h.limiter d hd)⟩
      exact takes_modify hl hl' hl₀ (h.accepted d hd hopen l₀ hl₀)
    · obtain rfl := List.mem_singleton.mp hd
      exact takes_modify hl hl' hl (haccepted hopen)

theorem Inv.addLimiter (h : Inv s) {p : ProcessBudget} (hp : s.process = some p) {budgetBytes : ℕ}
    (hle : budgetBytes ≤ p.bytes) : Inv (s.addLimiter budgetBytes) := by
  have hnew : ∀ j l, (s.addLimiter budgetBytes).limiters[j]? = some l →
      s.limiters[j]? = some l ∨ j = s.limiters.length ∧ l = .fromBudget budgetBytes := by
    intro j l hl
    rw [State.addLimiter, List.getElem?_append] at hl
    split_ifs at hl with hlt
    · exact .inl hl
    · obtain ⟨hj, hl⟩ := List.getElem?_eq_some_iff.mp hl
      rw [List.length_singleton] at hj
      refine .inr ⟨by omega, ?_⟩
      rw [← hl, List.getElem_singleton]
  constructor
  · intro j l hl
    rcases hnew j l hl with hl | ⟨rfl, rfl⟩
    · exact h.own j l hl
    · -- no call is made to the new limiter
      have hzero : (s.calls.map (Call.ownOf s.limiters.length)).sum = 0 := by
        apply sum_map_eq_zero
        intro c hc
        exact if_neg (Nat.ne_of_lt (h.limiter c hc))
      unfold Lib.Balanced
      rw [State.addLimiter, hzero]
      exact Nat.add_zero _
  · exact h.shared
  · intro l hl
    obtain ⟨j, hj⟩ := List.mem_iff_getElem?.mp hl
    rcases hnew j l hj with hj | ⟨_, rfl⟩
    · exact h.bounded l (List.mem_of_getElem? hj)
    · exact ⟨p, hp, hle⟩
  · intro c hc
    have hlt := h.limiter c hc
    rw [State.addLimiter, List.length_append, List.length_singleton]
    omega
  · intro c hc hopen l hl
    rcases hnew c.limiter l hl with hl | ⟨hlen, _⟩
    · exact h.accepted c hc hopen l hl
    · exact absurd hlen (Nat.ne_of_lt (h.limiter c hc))

theorem Inv.detect (h : Inv s) {available percent : ℕ} {setting : EnvVar}
    (hd : s.detect available percent setting = .ok t) : Inv t := by
  unfold State.detect at hd
  split_ifs at hd
  simp only at hd
  split at hd
  next p hp =>
    cases hd
    exact h.addLimiter hp (Nat.min_le_right _ _)
  next hnone =>
    split at hd
    · cases hd
    next bytes _ =>
      split_ifs at hd with hfits
      cases hd
      have hlimiters : s.limiters = [] := by
        refine List.eq_nil_iff_forall_not_mem.mpr fun l hl => ?_
        obtain ⟨p, hp, _⟩ := h.bounded l hl
        rw [hnone] at hp
        cases hp
      have hcalls : s.calls = [] := by
        refine List.eq_nil_iff_forall_not_mem.mpr fun c hc => ?_
        have hlt := h.limiter c hc
        rw [hlimiters] at hlt
        exact absurd hlt (Nat.not_lt_zero _)
      have hfirst : Inv { s with process := some ⟨bytes, hfits⟩, shared := bytes / unitBytes } := by
        refine ⟨h.own, fun p hp => ?_, fun l hl => ?_, h.limiter, h.accepted⟩
        · cases hp
          unfold Lib.Balanced
          rw [hcalls]
          rfl
        · rw [hlimiters] at hl
          cases hl
      exact hfirst.addLimiter rfl (Nat.min_le_right _ _)

theorem Inv.reserve (h : Inv s) {bytes : ℕ} {pressure : Option FlowError}
    (hs : s.reserve j bytes pressure = some t) : Inv t := by
  obtain ⟨l, hl, rfl⟩ := Option.map_eq_some_iff.mp hs
  simp only
  split_ifs with hbudget hunits havailable
  · exact h.enter hl rfl rfl fun hopen => by cases hopen
  · exact h.enter hl rfl rfl fun hopen => by cases hopen
  · exact h.enter hl (Nat.sub_add_cancel havailable) rfl fun _ =>
      ⟨Nat.not_lt.mp hbudget, Nat.not_lt.mp hunits⟩
  · split
    · exact h.enter hl rfl rfl fun hopen => by cases hopen
    · exact h.enter hl rfl rfl fun _ => ⟨Nat.not_lt.mp hbudget, Nat.not_lt.mp hunits⟩

theorem Inv.tryReserve (h : Inv s) {bytes : ℕ} (hs : s.tryReserve j bytes = some t) : Inv t := by
  obtain ⟨l, hl, rfl⟩ := Option.map_eq_some_iff.mp hs
  simp only
  split_ifs with hlarge havailable
  · exact h.enter hl rfl rfl fun hopen => by cases hopen
  · rw [Bool.or_eq_true, not_or, decide_eq_true_eq, decide_eq_true_eq] at hlarge
    exact h.enter hl (Nat.sub_add_cancel havailable) rfl fun _ =>
      ⟨Nat.not_lt.mp hlarge.1, Nat.not_lt.mp hlarge.2⟩
  · exact h.enter hl rfl rfl fun hopen => by cases hopen

theorem Inv.assign (h : Inv s) (hc : s.calls[i]? = some c)
    (hl : s.limiters[c.limiter]? = some l) {n : ℕ} (hs : s.assign i n c l = some t) : Inv t := by
  unfold State.assign at hs
  split at hs
  next got hstage =>
    split_ifs at hs with hroom
    rw [Bool.and_eq_true, decide_eq_true_eq, decide_eq_true_eq] at hroom
    cases hs
    refine h.settle hc hl (by simp [Call.pending, hstage]) ?_ (by simp [Call.shared, hstage])
    simp only [Call.own, hstage]
    omega
  next got hstage =>
    split_ifs at hs with hroom
    rw [Bool.and_eq_true, decide_eq_true_eq, decide_eq_true_eq] at hroom
    cases hs
    refine h.settle hc hl (by simp [Call.pending, hstage]) (by simp [Call.own, hstage, Call.units_stage]) ?_
    simp only [Call.shared, hstage]
    omega
  · cases hs

theorem Inv.advance (h : Inv s) (hc : s.calls[i]? = some c)
    (hl : s.limiters[c.limiter]? = some l) (hs : s.advance i c l = some t) : Inv t := by
  unfold State.advance at hs
  split at hs
  next got hstage =>
    split_ifs at hs with hgot
    cases hs
    refine h.settle hc hl (by simp [Call.pending, hstage]) ?_ (by simp [Call.shared, hstage])
    simp only [Call.own, hstage, hgot, Call.units_stage]
  next hstage =>
    split_ifs at hs with hroom hwaits
    · cases hs
      refine h.settle hc hl (by simp [Call.pending, hstage])
        (by simp [Call.own, hstage, Call.units_stage]) ?_
      simp only [Call.shared, hstage]
      exact Nat.sub_add_cancel hroom
    · cases hs
      exact h.settle hc hl (by simp [Call.pending, hstage])
        (by simp [Call.own, hstage, Call.units_stage]) (by simp [Call.shared, hstage])
    · cases hs
      exact h.settle hc hl (by simp [Call.pending, hstage])
        (by simp [Call.own, hstage, Call.units_stage]) (by simp [Call.shared, hstage])
  next got hstage =>
    split_ifs at hs with hgot
    cases hs
    refine h.settle hc hl (by simp [Call.pending, hstage])
      (by simp [Call.own, hstage, Call.units_stage]) ?_
    simp only [Call.shared, hstage, hgot, Call.units_stage]
  next error hstage =>
    cases hs
    refine h.settle hc hl (by simp [Call.pending, hstage]) ?_ (by simp [Call.shared, hstage])
    have hown : c.own = c.units := by rw [Call.own, hstage]
    rw [hown]
    exact Nat.add_zero _
  next hstage =>
    cases hs
    refine h.settle hc hl (by simp [Call.pending, hstage]) (by simp [Call.own, hstage]) ?_
    have hshared : c.shared = c.units := by rw [Call.shared, hstage]
    rw [hshared]
    exact Nat.add_zero _
  · cases hs
  · cases hs

theorem Inv.cancel (h : Inv s) (hc : s.calls[i]? = some c)
    (hl : s.limiters[c.limiter]? = some l) (hs : s.cancel i c l = some t) : Inv t := by
  unfold State.cancel at hs
  split at hs
  next got hstage =>
    cases hs
    refine h.settle hc hl (by simp [Call.pending, hstage]) ?_ (by simp [Call.shared, hstage])
    simp only [Call.own, hstage, Nat.add_zero]
  next got hstage =>
    cases hs
    refine h.settle hc hl (by simp [Call.pending, hstage])
      (by simp [Call.own, hstage, Call.units_stage]) ?_
    simp only [Call.shared, hstage, Nat.add_zero]
  · cases hs

theorem Inv.drop (h : Inv s) (hc : s.calls[i]? = some c)
    (hl : s.limiters[c.limiter]? = some l) (hs : s.drop i c l = some t) : Inv t := by
  unfold State.drop at hs
  split at hs
  next hstage =>
    cases hs
    refine h.settle hc hl (by simp [Call.pending, hstage]) ?_
      (by simp [Call.shared, hstage, Call.units_stage])
    have hown : c.own = c.units := by rw [Call.own, hstage]
    rw [hown]
    exact Nat.add_zero _
  · cases hs

theorem step_inv (h : Inv s) {a : Action} (hs : step s a = some t) : Inv t := by
  have hcall : ∀ (i : ℕ) (f : Call → Limiter → Option State), s.onCall i f = some t →
      ∃ c l, s.calls[i]? = some c ∧ s.limiters[c.limiter]? = some l ∧ f c l = some t := by
    intro i f hf
    obtain ⟨c, hc, hf⟩ := Option.bind_eq_some_iff.mp hf
    obtain ⟨l, hl, hf⟩ := Option.bind_eq_some_iff.mp hf
    exact ⟨c, l, hc, hl, hf⟩
  cases a with
  | detect available percent setting =>
    unfold step at hs
    simp only at hs
    split at hs
    next u hu =>
      cases hs
      exact h.detect hu
    · cases hs
      exact h
  | reserve j bytes pressure => exact h.reserve hs
  | tryReserve j bytes => exact h.tryReserve hs
  | assign i n =>
    obtain ⟨c, l, hc, hl, hs⟩ := hcall i _ hs
    exact h.assign hc hl hs
  | advance i =>
    obtain ⟨c, l, hc, hl, hs⟩ := hcall i _ hs
    exact h.advance hc hl hs
  | cancel i =>
    obtain ⟨c, l, hc, hl, hs⟩ := hcall i _ hs
    exact h.cancel hc hl hs
  | drop i =>
    obtain ⟨c, l, hc, hl, hs⟩ := hcall i _ hs
    exact h.drop hc hl hs

theorem reachable_inv (h : memory.Reachable .start s) : Inv s := by
  refine h.invariant ⟨?_, ?_, ?_, ?_, ?_⟩ fun u a v hu _ hs => step_inv hu hs
  · intro j l hl
    cases hl
  · intro p hp
    cases hp
  · intro l hl
    cases hl
  · intro c hc
    cases hc
  · intro c hc
    cases hc

/-! ### What the invariant says -/

/-- The reservations of a limiter keep within its budget. -/
theorem Inv.liveBytesOf_le (h : Inv s) (hl : s.limiters[j]? = some l) :
    (s.calls.map (Call.liveBytesOf j)).sum ≤ l.budgetBytes := by
  have hsum := (h.own j l hl).sum_le
  have hweight : ∀ c ∈ s.calls, c.liveBytesOf j ≤ c.ownOf j * unitBytes := by
    intro c _
    unfold Call.liveBytesOf Call.ownOf Call.liveBytes
    split_ifs with hj hlive
    · rw [Call.own, hlive]
      exact (le_units c.bytes).1
    · exact Nat.zero_le _
    · exact Nat.zero_le _
  rcases l.totalUnits_le with hunits | hone
  · calc (s.calls.map (Call.liveBytesOf j)).sum
        ≤ (s.calls.map (Call.ownOf j)).sum * unitBytes := sum_map_le hweight
      _ ≤ l.totalUnits * unitBytes := Nat.mul_le_mul_right unitBytes hsum
      _ ≤ l.budgetBytes := hunits
  · -- a budget under one unit: a single reservation at a time
    refine sum_map_le_of_sum_le_one (hone ▸ hsum) (fun c hc hzero => ?_)
      fun c hc => ?_
    · have hle := hweight c hc
      rw [hzero, Nat.zero_mul] at hle
      exact Nat.le_zero.mp hle
    · unfold Call.liveBytesOf Call.liveBytes
      split_ifs with hj hlive
      · have hpending : c.pending = true := by rw [Call.pending, hlive]
        exact (h.accepted c hc hpending l (hj ▸ hl)).1
      · exact Nat.zero_le _
      · exact Nat.zero_le _

/-- The reservations of all limiters keep within the budget of the process. -/
theorem Inv.liveBytes_le (h : Inv s) {p : ProcessBudget} (hp : s.process = some p) :
    (s.calls.map Call.liveBytes).sum ≤ p.bytes := by
  have hsum := (h.shared p hp).sum_le
  have hweight : ∀ c ∈ s.calls, c.liveBytes ≤ c.shared * unitBytes := by
    intro c _
    unfold Call.liveBytes
    split_ifs with hlive
    · rw [Call.shared, hlive]
      exact (le_units c.bytes).1
    · exact Nat.zero_le _
  calc (s.calls.map Call.liveBytes).sum
      ≤ (s.calls.map Call.shared).sum * unitBytes := sum_map_le hweight
    _ ≤ p.units * unitBytes := Nat.mul_le_mul_right unitBytes hsum
    _ ≤ p.bytes := p.units_le

/-- A limiter takes no more than its process could. -/
theorem Inv.takes_le_process (h : Inv s) (hl : s.limiters[j]? = some l) {p : ProcessBudget}
    (hp : s.process = some p) {bytes : ℕ} (htakes : l.Takes bytes) :
    bytes ≤ p.bytes ∧ MemoryLimiter.units bytes ≤ p.units := by
  obtain ⟨p', hp', hle⟩ := h.bounded l (List.mem_of_getElem? hl)
  obtain rfl : p = p' := Option.some.inj (hp.symm.trans hp')
  exact ⟨htakes.1.trans hle, htakes.2.trans (totalUnits_le_process hle)⟩

/-- A request that a limiter does not take is refused when it is made. -/
theorem refused_of_not_takes (hl : s.limiters[j]? = some l) {bytes : ℕ}
    (h : ¬ l.Takes (max bytes 1)) (pressure : Option FlowError) :
    (∃ m, s.reserve j bytes pressure = some (s.enter
      ⟨j, max bytes 1, true, .done (some (.packetTooLarge (max bytes 1) m))⟩ l.available)) ∧
    ∃ m, s.tryReserve j bytes = some (s.enter
      ⟨j, max bytes 1, false, .done (some (.packetTooLarge (max bytes 1) m))⟩ l.available) := by
  have hlarge : l.budgetBytes < max bytes 1 ∨
      l.totalUnits < MemoryLimiter.units (max bytes 1) := by
    unfold Limiter.Takes at h
    omega
  constructor
  · rw [State.reserve, hl, Option.map_some]
    by_cases hbudget : l.budgetBytes < max bytes 1
    · exact ⟨_, congrArg some (if_pos hbudget)⟩
    · have hunits : l.totalUnits < MemoryLimiter.units (max bytes 1) :=
        hlarge.resolve_left hbudget
      exact ⟨_, congrArg some ((if_neg hbudget).trans (if_pos hunits))⟩
  · have hrefuse : (decide (l.budgetBytes < max bytes 1) ||
        decide (l.totalUnits < MemoryLimiter.units (max bytes 1))) = true := by
      rw [Bool.or_eq_true, decide_eq_true_eq, decide_eq_true_eq]
      exact hlarge
    rw [State.tryReserve, hl, Option.map_some]
    exact ⟨_, congrArg some (if_pos hrefuse)⟩

/-- The semaphores are as if call `i` had not been made. -/
def Untouched (s : State) (i : ℕ) : Prop :=
  (∀ j l, s.limiters[j]? = some l →
    Lib.Balanced (Call.ownOf j) l.available l.totalUnits (s.calls.eraseIdx i)) ∧
  ∀ p, s.process = some p → Lib.Balanced Call.shared s.shared p.units (s.calls.eraseIdx i)

theorem Inv.untouched (h : Inv s) (hc : s.calls[i]? = some c) {error : Option FlowError}
    (hdone : c.stage = .done error) : Untouched s i := by
  have hown : c.own = 0 := by rw [Call.own, hdone]
  have hshared : c.shared = 0 := by rw [Call.shared, hdone]
  refine ⟨fun j l hl => (h.own j l hl).eraseIdx hc ?_, fun p hp =>
    (h.shared p hp).eraseIdx hc hshared⟩
  unfold Call.ownOf
  split_ifs
  · exact hown
  · rfl

/-- A request too large for its limiter or for the process. -/
def NeverFits (l : Limiter) (p : ProcessBudget) (bytes : ℕ) : Prop :=
  l.budgetBytes < bytes ∨ l.totalUnits < MemoryLimiter.units bytes ∨ p.bytes < bytes ∨
    p.units < MemoryLimiter.units bytes

/-- In every run the live reservations keep within the budgets of their limiter
and of the process, a call that fails leaves the semaphores as if it had not been
made, and a request that can never fit is refused at once. -/
theorem memory_budget {s : State} (h : memory.Reachable .start s) :
    (∀ j l, s.limiters[j]? = some l →
      (s.calls.map (Call.liveBytesOf j)).sum ≤ l.budgetBytes) ∧
    (∀ p, s.process = some p → (s.calls.map Call.liveBytes).sum ≤ p.bytes) ∧
    (∀ i c error, s.calls[i]? = some c → c.stage = .done (some error) → Untouched s i) ∧
    (∀ j l p bytes pressure, s.limiters[j]? = some l → s.process = some p →
      NeverFits l p (max bytes 1) →
      (∃ m, s.reserve j bytes pressure = some (s.enter
        ⟨j, max bytes 1, true, .done (some (.packetTooLarge (max bytes 1) m))⟩ l.available)) ∧
      ∃ m, s.tryReserve j bytes = some (s.enter
        ⟨j, max bytes 1, false, .done (some (.packetTooLarge (max bytes 1) m))⟩ l.available)) ∧
    ∀ c ∈ s.calls, c.pending = true → ∀ l p, s.limiters[c.limiter]? = some l →
      s.process = some p → ¬ NeverFits l p c.bytes := by
  have hinv := reachable_inv h
  have hfits : ∀ (j : ℕ) (l : Limiter) (p : ProcessBudget) (bytes : ℕ),
      s.limiters[j]? = some l → s.process = some p → l.Takes bytes → ¬ NeverFits l p bytes := by
    intro j l p bytes hl hp htakes hnever
    obtain ⟨hbytes, hunits⟩ := hinv.takes_le_process hl hp htakes
    obtain ⟨hbudget, htotal⟩ := htakes
    unfold NeverFits at hnever
    omega
  refine ⟨fun j l hl => hinv.liveBytesOf_le hl, fun p hp => hinv.liveBytes_le hp,
    fun i c error hc hdone => hinv.untouched hc hdone, ?_, ?_⟩
  · intro j l p bytes pressure hl hp hnever
    exact refused_of_not_takes hl (fun htakes => hfits j l p _ hl hp htakes hnever) pressure
  · intro c hc hpending l p hl hp
    exact hfits c.limiter l p c.bytes hl hp (hinv.accepted c hc hpending l hl)

/-- One unit for the process: the first call holds it, the second finds the process
full and lets go of its own. -/
def sampleCalls : List Action :=
  [.detect 131072 50 (.value (some 65536)), .detect 131072 50 .notPresent,
    .reserve 0 65536 none, .advance 0, .tryReserve 1 1, .advance 1, .advance 1]

theorem memory_budget_sample : ∃ s, memory.exec .start sampleCalls = some s ∧
    s.calls = [⟨0, 65536, true, .live⟩, ⟨1, 1, false, .done (some (.memoryCapacity 1))⟩] ∧
    (s.calls.map (Call.liveBytesOf 0)).sum ≤ 65536 ∧
    (s.calls.map Call.liveBytes).sum ≤ 65536 ∧ Untouched s 1 := by
  have hrun : (memory.exec .start sampleCalls).any (fun s =>
      s.calls = [⟨0, 65536, true, .live⟩, ⟨1, 1, false, .done (some (.memoryCapacity 1))⟩] ∧
      s.limiters[0]?.map Limiter.budgetBytes = some 65536 ∧
      s.process.map ProcessBudget.bytes = some 65536) = true := by decide +kernel
  obtain ⟨s, hs, hfacts⟩ := (Option.any_eq_true _ _).mp hrun
  obtain ⟨hcalls, hl, hp⟩ := of_decide_eq_true hfacts
  obtain ⟨l, hl, hbudget⟩ := Option.map_eq_some_iff.mp hl
  obtain ⟨p, hp, hbytes⟩ := Option.map_eq_some_iff.mp hp
  obtain ⟨hlimiter, hprocess, hfailed, -⟩ :=
    memory_budget (Machine.Reach.of_exec sampleCalls hs fun _ _ _ => trivial)
  refine ⟨s, hs, hcalls, hbudget ▸ hlimiter 0 l hl, hbytes ▸ hprocess p hp, ?_⟩
  exact hfailed 1 _ _ (by rw [hcalls]; rfl) rfl

end Jaiba.Engine.PacketMemory
