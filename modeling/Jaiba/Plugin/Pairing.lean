import Mathlib.Data.List.Perm.Basic
import Jaiba.Plugin.Host

/-!
# Requests and responses of a plugin

A call returns the next line of its process, which carries its id. Where a
plugin answers only ids that it was asked for, that line was written after the
request; and a process on which a call did not end well is not used again.
-/

namespace Jaiba.Plugin
open Jaiba.Lib

/-! ### What a step does to the logs and the ids -/

/-- The ids that the call which holds the mutex has drawn and not written. -/
def Stage.unwritten (call : Call) : Stage → List ℕ
  | .spawning | .described .. | .writing _ => [call.number]
  | .describing _ number => [number, call.number]
  | .reading .. => []

def heldNumbers : Option (Call × Stage) → List ℕ
  | none => []
  | some (call, stage) => stage.unwritten call

/-- The ids that are drawn and not written. -/
def Host.unwritten (s : Host) : List ℕ := s.waiting.map Call.number ++ heldNumbers s.holder

/-- An id is drawn, a request is written, a process answers, or nothing of the kind happens. -/
inductive Moves (plugin : String) (a : Action) (s t : Host) : Prop where
  | drawn (hnumbers : t.unwritten.Perm (s.nextRequest :: s.unwritten)) (hnext : t.nextRequest = s.counted)
    (hlog : ∀ p, (t.processes p).log = (s.processes p).log)
  | asked (pid number : ℕ) (request : PluginRequest) (hid : request.requestId = requestId plugin number)
    (hnumbers : s.unwritten.Perm (number :: t.unwritten)) (hnext : t.nextRequest = s.nextRequest)
    (hlog : ∀ p, (t.processes p).log =
      if p = pid then (s.processes p).log ++ [.asked number request] else (s.processes p).log)
  | answered (pid : ℕ) (line : Bytes) (haction : a = .answer pid line) (hnumbers : t.unwritten = s.unwritten)
    (hnext : t.nextRequest = s.nextRequest)
    (hlog : ∀ p, (t.processes p).log =
      if p = pid then (s.processes p).log ++ [.answered line] else (s.processes p).log)
  | quiet (hnumbers : ∃ l, t.unwritten.Perm l ∧ l.Sublist s.unwritten) (hnext : t.nextRequest = s.nextRequest)
    (hlog : ∀ p, (t.processes p).log = (s.processes p).log)

theorem consume_log (s : Host) (pid p : ℕ) : (s.consume pid p).log = (s.processes p).log := by
  unfold Host.consume
  by_cases hp : p = pid
  · rw [hp, Function.update_self]
  · rw [Function.update_of_ne hp]

theorem ask_log (s : Host) (pid number : ℕ) (request : PluginRequest) (p : ℕ) :
    (s.ask pid number request p).log =
      if p = pid then (s.processes p).log ++ [.asked number request] else (s.processes p).log := by
  unfold Host.ask
  by_cases hp : p = pid
  · rw [hp, Function.update_self, if_pos rfl]
  · rw [Function.update_of_ne hp, if_neg hp]

theorem answer_log (s : Host) (pid : ℕ) (line : Bytes) (p : ℕ) :
    ((s.answer pid line).processes p).log =
      if p = pid then (s.processes p).log ++ [.answered line] else (s.processes p).log := by
  unfold Host.answer
  dsimp only
  by_cases hp : p = pid
  · rw [hp, Function.update_self, if_pos rfl]
  · rw [Function.update_of_ne hp, if_neg hp]

/-- Dropping the holder drops at most its ids. -/
theorem unwritten_released {s t : Host} (hwaiting : t.waiting = s.waiting) (hholder : t.holder = none) :
    ∃ l, t.unwritten.Perm l ∧ l.Sublist s.unwritten := by
  refine ⟨_, .refl _, ?_⟩
  rw [Host.unwritten, Host.unwritten, hwaiting, hholder, heldNumbers, List.append_nil]
  exact List.sublist_append_left _ _

theorem unwritten_kept {s t : Host} (hwaiting : t.waiting = s.waiting)
    (hholder : heldNumbers t.holder = heldNumbers s.holder) : ∃ l, t.unwritten.Perm l ∧ l.Sublist s.unwritten := by
  refine ⟨_, .refl _, ?_⟩
  rw [Host.unwritten, Host.unwritten, hwaiting, hholder]

theorem Moves.failed {plugin : String} {a : Action} (s : Host) (pid : ℕ) : Moves plugin a s (s.failed pid) :=
  .quiet (unwritten_released rfl rfl) rfl fun _ => rfl

/-- A waiting call that takes the mutex keeps its id. -/
theorem unwritten_lock {waiting : List Call} {i : ℕ} {call : Call} (h : waiting[i]? = some call) :
    ((waiting.eraseIdx i).map Call.number ++ [call.number]).Perm (waiting.map Call.number) := by
  obtain ⟨hlt, rfl⟩ := List.getElem?_eq_some_iff.mp h
  have hperm := (List.getElem_cons_eraseIdx_perm hlt).map Call.number
  rw [List.map_cons] at hperm
  have hcomm : ((waiting.eraseIdx i).map Call.number ++ [waiting[i].number]).Perm
      ([waiting[i].number] ++ (waiting.eraseIdx i).map Call.number) := List.perm_append_comm
  exact hcomm.trans hperm

variable {requests : Serde PluginRequest} {responses : Serde PluginResponse} {plugin : String}

theorem Moves.lock {s t : Host} {i : ℕ} (h : s.lock i = some t) : Moves plugin (.lock i) s t := by
  unfold Host.lock at h
  split at h
  next call hholder hcall =>
    have hnumbers : ((s.waiting.eraseIdx i).map Call.number ++ [call.number]).Perm s.unwritten := by
      rw [Host.unwritten, hholder, heldNumbers, List.append_nil]
      exact unwritten_lock hcall
    split at h
    · cases h
      exact .quiet ⟨_, hnumbers, .refl _⟩ rfl fun _ => rfl
    · cases h
      exact .quiet ⟨_, hnumbers, .refl _⟩ rfl fun _ => rfl
  · cases h

theorem Moves.write {s t : Host} (h : s.write requests plugin = some t) : Moves plugin .write s t := by
  unfold Host.write at h
  split at h
  next call pid number hholder =>
    split at h
    · cases h
      exact Moves.failed s pid
    · cases h
      refine .asked pid number (describeRequest plugin number) rfl ?_ rfl (ask_log s pid number _)
      rw [Host.unwritten, Host.unwritten, hholder]
      exact List.perm_middle
  next call pid hholder =>
    split at h
    · cases h
      exact Moves.failed s pid
    · cases h
      refine .asked pid call.number (call.request plugin) rfl ?_ rfl (ask_log s pid call.number _)
      rw [Host.unwritten, Host.unwritten, hholder]
      exact List.perm_middle
  · cases h

theorem Moves.read {s t : Host} (h : s.read responses plugin = some t) : Moves plugin .read s t := by
  unfold Host.read at h
  split at h
  next call pid number asked hholder =>
    obtain ⟨found, -, hfound⟩ := Option.map_eq_some_iff.mp h
    split at hfound
    · cases hfound
      exact Moves.failed s pid
    · split_ifs at hfound
      · cases hfound
        refine .quiet (unwritten_kept rfl ?_) rfl (consume_log s pid)
        rw [hholder]
        rfl
      · cases hfound
        exact Moves.failed s pid
  next call pid asked hholder =>
    obtain ⟨found, -, hfound⟩ := Option.map_eq_some_iff.mp h
    split at hfound
    · cases hfound
      exact Moves.failed s pid
    · cases hfound
      exact .quiet (unwritten_released rfl rfl) rfl (consume_log s pid)
  · cases h

theorem Moves.step {s t : Host} {a : Action} (h : s.step requests responses plugin a = some t) :
    Moves plugin a s t := by
  cases a with
  | draw body =>
    cases h
    refine .drawn ?_ rfl fun _ => rfl
    rw [Host.unwritten, Host.unwritten, Host.draw, List.map_append, List.append_assoc]
    exact List.perm_middle
  | lock i => exact Moves.lock h
  | leave i =>
    cases h
    refine .quiet ⟨_, .refl _, ?_⟩ rfl fun _ => rfl
    exact ((List.eraseIdx_sublist s.waiting i).map Call.number).append_right _
  | spawn =>
    have hspawn : s.spawn = some t := h
    unfold Host.spawn at hspawn
    split at hspawn
    next call hholder =>
      cases hspawn
      refine .drawn ?_ rfl fun _ => rfl
      rw [Host.unwritten, Host.unwritten, hholder]
      exact List.perm_middle
    · cases hspawn
  | spawnFails =>
    have hfails : s.spawnFails = some t := h
    unfold Host.spawnFails at hfails
    split at hfails
    · cases hfails
      exact .quiet (unwritten_released rfl rfl) rfl fun _ => rfl
    · cases hfails
  | write => exact Moves.write h
  | read => exact Moves.read h
  | fail =>
    obtain ⟨pid, -, rfl⟩ := Option.map_eq_some_iff.mp h
    exact Moves.failed s pid
  | cancel =>
    obtain ⟨held, -, rfl⟩ := Option.map_eq_some_iff.mp h
    exact .quiet (unwritten_released rfl rfl) rfl fun _ => rfl
  | answer pid line =>
    have hanswer : (if pid < s.spawned then some (s.answer pid line) else none) = some t := h
    split at hanswer
    · cases hanswer
      exact .answered pid line rfl rfl rfl (answer_log s pid line)
    · cases hanswer

section

variable {l l' : List Event} {e x : Event} {c : Prop} [Decidable c]

theorem getElem?_grown (hl : l' = if c then l ++ [e] else l) {i : ℕ} (h : l[i]? = some x) : l'[i]? = some x := by
  obtain ⟨hlt, -⟩ := List.getElem?_eq_some_iff.mp h
  rw [hl]
  split_ifs
  · rw [List.getElem?_append_left hlt]
    exact h
  · exact h

theorem grown_cases (hl : l' = if c then l ++ [e] else l) {i : ℕ} (h : l'[i]? = some x) :
    l[i]? = some x ∨ (c ∧ i = l.length ∧ x = e) := by
  rw [hl] at h
  split_ifs at h with hc
  · rw [List.getElem?_append] at h
    split_ifs at h with hlt
    · exact .inl h
    · obtain ⟨hidx, heq⟩ := List.getElem?_eq_some_iff.mp h
      rw [List.length_singleton] at hidx
      rw [List.getElem_singleton] at heq
      exact .inr ⟨hc, by omega, heq.symm⟩
  · exact .inl h

end

/-- Logs only grow. -/
theorem Moves.grows {a : Action} {s t : Host} (h : Moves plugin a s t) {p i : ℕ} {e : Event}
    (hi : (s.processes p).log[i]? = some e) : (t.processes p).log[i]? = some e := by
  cases h with
  | drawn _ _ hlog | quiet _ _ hlog =>
    rw [hlog p]
    exact hi
  | asked pid number request _ _ _ hlog => exact getElem?_grown (hlog p) hi
  | answered pid line _ _ _ hlog => exact getElem?_grown (hlog p) hi

/-! ### Ids -/

/-- The plugin writes a response only with an id that it was asked for, and the counter does not
wrap. -/
structure Solicited (responses : Serde PluginResponse) (s : Host) (a : Action) : Prop where
  counter : s.nextRequest + 1 < 18446744073709551616
  answers : ∀ pid line, a = .answer pid line → ∀ request response,
    hostCheck responses line request = .ok response →
      ∃ (i n : ℕ) (asked : PluginRequest), (s.processes pid).log[i]? = some (Event.asked n asked) ∧ asked.requestId = request.requestId

/-- Every id is written at most once, and a response follows a request of its id. -/
structure Numbered (responses : Serde PluginResponse) (plugin : String) (s : Host) : Prop where
  nodup : s.unwritten.Nodup
  bound : ∀ n ∈ s.unwritten, n < s.nextRequest
  asked : ∀ (pid i n : ℕ) (request : PluginRequest), (s.processes pid).log[i]? = some (Event.asked n request) →
    n < s.nextRequest ∧ n ∉ s.unwritten ∧ request.requestId = requestId plugin n
  once : ∀ (pid i j n : ℕ) (request request' : PluginRequest), (s.processes pid).log[i]? = some (Event.asked n request) →
    (s.processes pid).log[j]? = some (Event.asked n request') → i = j
  answered : ∀ (pid j : ℕ) (line : Bytes) (request : PluginRequest) (response : PluginResponse),
    (s.processes pid).log[j]? = some (Event.answered line) →
    hostCheck responses line request = .ok response → ∃ i, i < j ∧ ∃ (n : ℕ) (asked : PluginRequest),
      (s.processes pid).log[i]? = some (Event.asked n asked) ∧ asked.requestId = request.requestId

theorem Numbered.start : Numbered responses plugin Host.start where
  nodup := List.nodup_nil
  bound := fun n hn => (by cases hn)
  asked := fun pid i n request h => (by cases h)
  once := fun pid i j n request request' h => (by cases h)
  answered := fun pid j line request response h => (by cases h)

/-- Steps that write nothing keep what the logs say. -/
theorem Numbered.of_logs {s t : Host} (hs : Numbered responses plugin s)
    (hlog : ∀ p, (t.processes p).log = (s.processes p).log) (hnodup : t.unwritten.Nodup)
    (hbound : ∀ n ∈ t.unwritten, n < t.nextRequest) (hnext : s.nextRequest ≤ t.nextRequest)
    (hfresh : ∀ n, n < s.nextRequest → n ∉ s.unwritten → n ∉ t.unwritten) : Numbered responses plugin t where
  nodup := hnodup
  bound := hbound
  asked := by
    intro pid i n request h
    rw [hlog] at h
    obtain ⟨hlt, hnot, hid⟩ := hs.asked pid i n request h
    exact ⟨Nat.lt_of_lt_of_le hlt hnext, hfresh n hlt hnot, hid⟩
  once := by
    intro pid i j n request request'
    rw [hlog]
    exact hs.once pid i j n request request'
  answered := by
    intro pid j line request response
    rw [hlog]
    exact hs.answered pid j line request response

/-- A request that is written. -/
theorem Numbered.of_asked {s t : Host} (hs : Numbered responses plugin s) {pid number : ℕ}
    {request : PluginRequest} (hid : request.requestId = requestId plugin number)
    (hnumbers : s.unwritten.Perm (number :: t.unwritten)) (hnext : t.nextRequest = s.nextRequest)
    (hlog : ∀ p, (t.processes p).log =
      if p = pid then (s.processes p).log ++ [.asked number request] else (s.processes p).log) :
    Numbered responses plugin t := by
  obtain ⟨hnumber, hnodup⟩ := List.nodup_cons.mp ((hnumbers.nodup_iff).mp hs.nodup)
  have hmem : number ∈ s.unwritten := hnumbers.mem_iff.mpr List.mem_cons_self
  have hsubset : ∀ n ∈ t.unwritten, n ∈ s.unwritten :=
    fun n hn => hnumbers.mem_iff.mpr (List.mem_cons_of_mem _ hn)
  refine ⟨hnodup, fun n hn => ?_, fun p i n r h => ?_, fun p i j n r r' hi hj => ?_,
    fun p j line r response hj hcheck => ?_⟩
  · rw [hnext]
    exact hs.bound n (hsubset n hn)
  · rw [hnext]
    rcases grown_cases (hlog p) h with hold | ⟨-, -, heq⟩
    · obtain ⟨hlt, hnot, hid⟩ := hs.asked p i n r hold
      exact ⟨hlt, fun hn => hnot (hsubset n hn), hid⟩
    · cases heq
      exact ⟨hs.bound number hmem, hnumber, hid⟩
  · rcases grown_cases (hlog p) hi with hi | ⟨-, hlast, heq⟩
    · rcases grown_cases (hlog p) hj with hj | ⟨-, -, heq⟩
      · exact hs.once p i j n r r' hi hj
      · cases heq
        exact absurd hmem (hs.asked p i number r hi).2.1
    · cases heq
      rcases grown_cases (hlog p) hj with hj | ⟨-, hlast', -⟩
      · exact absurd hmem (hs.asked p j number r' hj).2.1
      · exact hlast.trans hlast'.symm
  · rcases grown_cases (hlog p) hj with hj | ⟨-, -, heq⟩
    · obtain ⟨i, hlt, n, asked, hi, hid⟩ := hs.answered p j line r response hj hcheck
      exact ⟨i, hlt, n, asked, getElem?_grown (hlog p) hi, hid⟩
    · cases heq

/-- A line that is written. -/
theorem Numbered.of_answered {s t : Host} (hs : Numbered responses plugin s) {pid : ℕ} {line : Bytes}
    (hok : Solicited responses s (.answer pid line)) (hnumbers : t.unwritten = s.unwritten)
    (hnext : t.nextRequest = s.nextRequest)
    (hlog : ∀ p, (t.processes p).log =
      if p = pid then (s.processes p).log ++ [.answered line] else (s.processes p).log) :
    Numbered responses plugin t := by
  refine ⟨hnumbers ▸ hs.nodup, fun n hn => ?_, fun p i n r h => ?_, fun p i j n r r' hi hj => ?_,
    fun p j line' r response hj hcheck => ?_⟩
  · rw [hnext]
    exact hs.bound n (hnumbers ▸ hn)
  · rw [hnext, hnumbers]
    rcases grown_cases (hlog p) h with hold | ⟨-, -, heq⟩
    · exact hs.asked p i n r hold
    · cases heq
  · rcases grown_cases (hlog p) hi with hi | ⟨-, -, heq⟩
    · rcases grown_cases (hlog p) hj with hj | ⟨-, -, heq⟩
      · exact hs.once p i j n r r' hi hj
      · cases heq
    · cases heq
  · rcases grown_cases (hlog p) hj with hj | ⟨hp, hlast, heq⟩
    · obtain ⟨i, hlt, n, asked, hi, hid⟩ := hs.answered p j line' r response hj hcheck
      exact ⟨i, hlt, n, asked, getElem?_grown (hlog p) hi, hid⟩
    · cases heq
      obtain ⟨i, n, asked, hi, hid⟩ := hok.answers pid line rfl r response hcheck
      rw [← hp] at hi
      obtain ⟨hlt, -⟩ := List.getElem?_eq_some_iff.mp hi
      exact ⟨i, hlast ▸ hlt, n, asked, getElem?_grown (hlog p) hi, hid⟩

theorem Numbered.moves {s t : Host} {a : Action} (hs : Numbered responses plugin s)
    (hok : Solicited responses s a) (h : Moves plugin a s t) : Numbered responses plugin t := by
  cases h with
  | drawn hnumbers hnext hlog =>
    have hcounted : t.nextRequest = s.nextRequest + 1 := by
      rw [hnext, Host.counted, Nat.mod_eq_of_lt hok.counter]
    have hnew : s.nextRequest ∉ s.unwritten := fun hn => Nat.lt_irrefl _ (hs.bound _ hn)
    refine hs.of_logs hlog (hnumbers.nodup_iff.mpr (List.nodup_cons.mpr ⟨hnew, hs.nodup⟩)) (fun n hn => ?_)
      (by omega) fun n hlt hnot hn => ?_
    · rcases List.mem_cons.mp (hnumbers.mem_iff.mp hn) with rfl | hn
      · omega
      · have hbound := hs.bound n hn
        omega
    · rcases List.mem_cons.mp (hnumbers.mem_iff.mp hn) with rfl | hn
      · exact Nat.lt_irrefl _ hlt
      · exact hnot hn
  | asked pid number request hid hnumbers hnext hlog => exact hs.of_asked hid hnumbers hnext hlog
  | answered pid line haction hnumbers hnext hlog =>
    rw [haction] at hok
    exact hs.of_answered hok hnumbers hnext hlog
  | quiet hnumbers hnext hlog =>
    obtain ⟨l, hperm, hsub⟩ := hnumbers
    have hsubset : ∀ n ∈ t.unwritten, n ∈ s.unwritten := fun n hn => hsub.subset (hperm.mem_iff.mp hn)
    refine hs.of_logs hlog (hperm.nodup_iff.mpr (hsub.nodup hs.nodup)) (fun n hn => ?_) (by omega)
      fun n _ hnot hn => hnot (hsubset n hn)
    rw [hnext]
    exact hs.bound n (hsubset n hn)

/-! ### Processes in use -/

/-- The process of the slot is in use, with `in_flight` set. -/
def Stage.inSlot : Stage → Bool
  | .writing _ | .reading .. => true
  | _ => false

/-- No call uses a process on which another one did not end well. -/
structure Used (s : Host) : Prop where
  busy : ∀ call stage pid, s.holder = some (call, stage) → stage.pid? = some pid →
    pid < s.spawned ∧ pid ∉ s.spoiled
  outside : ∀ call stage, s.holder = some (call, stage) → stage.inSlot = false → s.slot = none
  inside : ∀ call stage, s.holder = some (call, stage) → stage.inSlot = true → s.inFlight = true
  slot : ∀ pid, s.slot = some pid → pid < s.spawned
  clean : ∀ pid, s.slot = some pid → (s.holder ≠ none ∨ s.inFlight = false) → pid ∉ s.spoiled
  spoiled : ∀ pid ∈ s.spoiled, pid < s.spawned

theorem Used.start : Used Host.start where
  busy := fun call stage pid h => (by cases h)
  outside := fun call stage h => (by cases h)
  inside := fun call stage h => (by cases h)
  slot := fun pid h => (by cases h)
  clean := fun pid h => (by cases h)
  spoiled := fun pid h => (by cases h)

/-- Steps that touch neither the mutex nor the slot. -/
theorem Used.of_eq {s t : Host} (hs : Used s) (hholder : t.holder = s.holder) (hslot : t.slot = s.slot)
    (hflight : t.inFlight = s.inFlight) (hspawned : t.spawned = s.spawned) (hspoiled : t.spoiled = s.spoiled) :
    Used t where
  busy := by
    rw [hholder, hspawned, hspoiled]
    exact hs.busy
  outside := by
    rw [hholder, hslot]
    exact hs.outside
  inside := by
    rw [hholder, hflight]
    exact hs.inside
  slot := by
    rw [hslot, hspawned]
    exact hs.slot
  clean := by
    rw [hslot, hholder, hflight, hspoiled]
    exact hs.clean
  spoiled := by
    rw [hspawned, hspoiled]
    exact hs.spoiled

/-- The call goes on with its process. -/
theorem Used.advance {s t : Host} (hs : Used s) {call call' : Call} {stage stage' : Stage}
    (hholder : s.holder = some (call, stage)) (hnext : t.holder = some (call', stage'))
    (hpid : stage'.pid? = stage.pid?) (hinside : stage'.inSlot = stage.inSlot) (hslot : t.slot = s.slot)
    (hflight : t.inFlight = s.inFlight) (hspawned : t.spawned = s.spawned) (hspoiled : t.spoiled = s.spoiled) :
    Used t := by
  refine ⟨fun c stage₂ pid h hp => ?_, fun c stage₂ h hin => ?_, fun c stage₂ h hin => ?_, fun pid h => ?_,
    fun pid h _ => ?_, fun pid h => ?_⟩
  · rw [hnext] at h
    cases h
    rw [hspawned, hspoiled]
    exact hs.busy call stage pid hholder (hpid ▸ hp)
  · rw [hnext] at h
    cases h
    rw [hslot]
    exact hs.outside call stage hholder (hinside ▸ hin)
  · rw [hnext] at h
    cases h
    rw [hflight]
    exact hs.inside call stage hholder (hinside ▸ hin)
  · rw [hspawned]
    exact hs.slot pid (hslot ▸ h)
  · rw [hspoiled]
    refine hs.clean pid (hslot ▸ h) (.inl ?_)
    rw [hholder]
    exact Option.some_ne_none _
  · rw [hspawned]
    exact hs.spoiled pid (hspoiled ▸ h)

theorem Used.failed {s : Host} (hs : Used s) {pid : ℕ} (hpid : pid < s.spawned) : Used (s.failed pid) where
  busy := fun call stage pid h => (by cases h)
  outside := fun call stage h => (by cases h)
  inside := fun call stage h => (by cases h)
  slot := fun pid h => (by cases h)
  clean := fun pid h => (by cases h)
  spoiled := by
    intro other h
    rcases List.mem_cons.mp h with rfl | h
    · exact hpid
    · exact hs.spoiled other h

theorem Used.lock {s t : Host} {i : ℕ} (hs : Used s) (h : s.lock i = some t) : Used t := by
  unfold Host.lock at h
  split at h
  next call hholder hcall =>
    split at h
    · cases h
      refine ⟨fun c stage pid h hp => ?_, fun c stage h _ => rfl, fun c stage h hin => ?_, fun pid h => (by cases h),
        fun pid h => (by cases h), hs.spoiled⟩
      · cases h
        cases hp
      · cases h
        cases hin
    next pid hfree =>
      cases h
      have hflight : s.inFlight = false ∧ s.slot = some pid := by
        split_ifs at hfree with hflight
        exact ⟨Bool.eq_false_iff.mpr hflight, hfree⟩
      have hclean := hs.clean pid hflight.2 (.inr hflight.1)
      refine ⟨fun c stage p h hp => ?_, fun c stage h hin => ?_, fun c stage h _ => rfl, hs.slot,
        fun p hslot _ => ?_, hs.spoiled⟩
      · cases h
        cases hp
        exact ⟨hs.slot pid hflight.2, hclean⟩
      · cases h
        cases hin
      · have hsame : some p = some pid := hslot.symm.trans hflight.2
        cases hsame
        exact hclean
  · cases h

theorem Used.spawn {s t : Host} (hs : Used s) (h : s.spawn = some t) : Used t := by
  unfold Host.spawn at h
  split at h
  next call hholder =>
    cases h
    have hnone := hs.outside call .spawning hholder rfl
    refine ⟨fun c stage pid h hp => ?_, fun c stage h _ => hnone, fun c stage h hin => ?_, fun pid hslot => ?_,
      fun pid hslot => ?_, fun pid hpid => Nat.lt_succ_of_lt (hs.spoiled pid hpid)⟩
    · cases h
      cases hp
      exact ⟨Nat.lt_succ_self _, fun hmem => Nat.lt_irrefl _ (hs.spoiled _ hmem)⟩
    · cases h
      cases hin
    · exact absurd (hslot.symm.trans hnone) (Option.some_ne_none _)
    · exact absurd (hslot.symm.trans hnone) (Option.some_ne_none _)
  · cases h

theorem Used.spawnFails {s t : Host} (hs : Used s) (h : s.spawnFails = some t) : Used t := by
  unfold Host.spawnFails at h
  split at h
  next call hholder =>
    cases h
    have hnone := hs.outside call .spawning hholder rfl
    refine ⟨fun c stage pid h => (by cases h), fun c stage h => (by cases h), fun c stage h => (by cases h),
      hs.slot, fun pid hslot => ?_, hs.spoiled⟩
    exact absurd (hslot.symm.trans hnone) (Option.some_ne_none _)
  · cases h

theorem Used.write {s t : Host} (hs : Used s) (h : s.write requests plugin = some t) : Used t := by
  unfold Host.write at h
  split at h
  next call pid number hholder =>
    split at h
    · cases h
      exact hs.failed (hs.busy _ _ pid hholder rfl).1
    · cases h
      exact hs.advance hholder rfl rfl rfl rfl rfl rfl rfl
  next call pid hholder =>
    split at h
    · cases h
      exact hs.failed (hs.busy _ _ pid hholder rfl).1
    · cases h
      exact hs.advance hholder rfl rfl rfl rfl rfl rfl rfl
  · cases h

theorem Used.read {s t : Host} (hs : Used s) (h : s.read responses plugin = some t) : Used t := by
  unfold Host.read at h
  split at h
  next call pid number asked hholder =>
    obtain ⟨found, -, hfound⟩ := Option.map_eq_some_iff.mp h
    have hbusy := hs.busy _ _ pid hholder rfl
    split at hfound
    · cases hfound
      exact hs.failed hbusy.1
    · split_ifs at hfound
      · cases hfound
        refine ⟨fun c stage p h hp => ?_, fun c stage h hin => ?_, fun c stage h _ => rfl, fun p hslot => ?_,
          fun p hslot _ => ?_, hs.spoiled⟩
        · cases h
          cases hp
          exact hbusy
        · cases h
          cases hin
        · cases hslot
          exact hbusy.1
        · cases hslot
          exact hbusy.2
      · cases hfound
        exact hs.failed hbusy.1
  next call pid asked hholder =>
    obtain ⟨found, -, hfound⟩ := Option.map_eq_some_iff.mp h
    have hbusy := hs.busy _ _ pid hholder rfl
    split at hfound
    · cases hfound
      exact hs.failed hbusy.1
    · cases hfound
      refine ⟨fun c stage p h => (by cases h), fun c stage h => (by cases h), fun c stage h => (by cases h),
        hs.slot, fun p hslot _ => ?_, hs.spoiled⟩
      refine hs.clean p hslot (.inl ?_)
      rw [hholder]
      exact Option.some_ne_none _
  · cases h

theorem Used.cancel {s t : Host} (hs : Used s) (h : s.cancel = some t) : Used t := by
  obtain ⟨held, hheld, rfl⟩ := Option.map_eq_some_iff.mp h
  obtain ⟨call, stage⟩ := held
  refine ⟨fun c stage pid h => (by cases h), fun c stage h => (by cases h), fun c stage h => (by cases h),
    hs.slot, fun pid hslot hfree => ?_, fun pid hpid => ?_⟩
  · exfalso
    cases hin : stage.inSlot with
    | true =>
      rcases hfree with hfree | hfree
      · exact hfree rfl
      · exact Bool.noConfusion ((hs.inside call stage hheld hin).symm.trans hfree)
    | false => exact Option.some_ne_none _ (hslot.symm.trans (hs.outside call stage hheld hin))
  · rcases List.mem_append.mp hpid with hpid | hpid
    · exact (hs.busy call stage pid hheld (Option.mem_toList.mp hpid)).1
    · exact hs.spoiled pid hpid

theorem Used.step {s t : Host} {a : Action} (hs : Used s)
    (h : s.step requests responses plugin a = some t) : Used t := by
  cases a with
  | draw body | leave i =>
    cases h
    exact hs.of_eq rfl rfl rfl rfl rfl
  | lock i => exact hs.lock h
  | spawn => exact hs.spawn h
  | spawnFails => exact hs.spawnFails h
  | write => exact hs.write h
  | read => exact hs.read h
  | fail =>
    obtain ⟨pid, hpid, rfl⟩ := Option.map_eq_some_iff.mp h
    obtain ⟨⟨call, stage⟩, hheld, hpid⟩ := Option.bind_eq_some_iff.mp hpid
    exact hs.failed (hs.busy call stage pid hheld hpid).1
  | cancel => exact hs.cancel h
  | answer pid line =>
    have hanswer : (if pid < s.spawned then some (s.answer pid line) else none) = some t := h
    split at hanswer
    · cases hanswer
      exact hs.of_eq rfl rfl rfl rfl rfl
    · cases hanswer

/-! ### Returned responses -/

/-- The response came with the id of the call, in a line of the process that its request was
written to. -/
structure Paired (responses : Serde PluginResponse) (plugin : String) (s : Host) (r : Return) : Prop where
  id : r.response.requestId = requestId plugin r.call.number
  asked : (s.processes r.pid).log[r.asked]? = some (Event.asked r.call.number (r.call.request plugin))
  answered : (s.processes r.pid).log[r.answered]? = some (Event.answered r.line)
  checked : hostCheck responses r.line (r.call.request plugin) = .ok r.response

/-- The call that awaits its response has written its request, and what was returned is paired. -/
structure Answering (responses : Serde PluginResponse) (plugin : String) (s : Host) : Prop where
  reading : ∀ call pid asked, s.holder = some (call, .reading pid asked) →
    (s.processes pid).log[asked]? = some (Event.asked call.number (call.request plugin))
  returned : ∀ r ∈ s.returns, Paired responses plugin s r

theorem Answering.start : Answering responses plugin Host.start where
  reading := fun call pid asked h => (by cases h)
  returned := fun r h => (by cases h)

theorem Paired.grows {s t : Host} {a : Action} {r : Return} (hr : Paired responses plugin s r)
    (h : Moves plugin a s t) : Paired responses plugin t r :=
  ⟨hr.id, h.grows hr.asked, h.grows hr.answered, hr.checked⟩

/-- What a step does to the call that awaits its response, and to the calls that returned. -/
inductive Turns (responses : Serde PluginResponse) (plugin : String) (s t : Host) : Prop where
  | kept (hholder : t.holder = s.holder) (hreturns : t.returns = s.returns)
  | other (hholder : ∀ call pid asked, t.holder ≠ some (call, .reading pid asked)) (hreturns : t.returns = s.returns)
  | wrote (call : Call) (pid : ℕ) (hholder : t.holder = some (call, .reading pid (s.processes pid).log.length))
    (hlog : (t.processes pid).log = (s.processes pid).log ++ [.asked call.number (call.request plugin)])
    (hreturns : t.returns = s.returns)
  | returned (call : Call) (pid asked answered : ℕ) (line : Bytes) (response : PluginResponse)
    (hholder : s.holder = some (call, .reading pid asked)) (hreleased : t.holder = none)
    (hline : (s.processes pid).log[answered]? = some (Event.answered line))
    (hchecked : hostCheck responses line (call.request plugin) = .ok response)
    (hreturns : t.returns = ⟨pid, call, response, line, asked, answered⟩ :: s.returns)

theorem Turns.released {s t : Host} (hholder : t.holder = none) (hreturns : t.returns = s.returns) :
    Turns responses plugin s t :=
  .other (fun _ _ _ h => Option.some_ne_none _ (h.symm.trans hholder)) hreturns

theorem Turns.lock {s t : Host} {i : ℕ} (h : s.lock i = some t) : Turns responses plugin s t := by
  unfold Host.lock at h
  split at h
  · split at h
    · cases h
      exact .other (fun _ _ _ h => (by cases h)) rfl
    · cases h
      exact .other (fun _ _ _ h => (by cases h)) rfl
  · cases h

theorem Turns.write {s t : Host} (h : s.write requests plugin = some t) : Turns responses plugin s t := by
  unfold Host.write at h
  split at h
  next call pid number hholder =>
    split at h
    · cases h
      exact .released rfl rfl
    · cases h
      exact .other (fun _ _ _ h => (by cases h)) rfl
  next call pid hholder =>
    split at h
    · cases h
      exact .released rfl rfl
    · cases h
      exact .wrote call pid rfl ((ask_log s pid _ _ pid).trans (if_pos rfl)) rfl
  · cases h

theorem Turns.read {s t : Host} (h : s.read responses plugin = some t) : Turns responses plugin s t := by
  unfold Host.read at h
  split at h
  next call pid number asked hholder =>
    obtain ⟨found, -, hfound⟩ := Option.map_eq_some_iff.mp h
    split at hfound
    · cases hfound
      exact .released rfl rfl
    · split_ifs at hfound
      · cases hfound
        exact .other (fun _ _ _ h => (by cases h)) rfl
      · cases hfound
        exact .released rfl rfl
  next call pid asked hholder =>
    obtain ⟨⟨answered, line⟩, hline, hfound⟩ := Option.map_eq_some_iff.mp h
    split at hfound
    · cases hfound
      exact .released rfl rfl
    next response hchecked =>
      cases hfound
      exact .returned call pid asked answered line response hholder rfl (getElem?_of_nthLine hline) hchecked rfl
  · cases h

theorem Turns.step {s t : Host} {a : Action} (h : s.step requests responses plugin a = some t) :
    Turns responses plugin s t := by
  cases a with
  | draw body | leave i =>
    cases h
    exact .kept rfl rfl
  | lock i => exact Turns.lock h
  | spawn =>
    have hspawn : s.spawn = some t := h
    unfold Host.spawn at hspawn
    split at hspawn
    · cases hspawn
      exact .other (fun _ _ _ h => (by cases h)) rfl
    · cases hspawn
  | spawnFails =>
    have hfails : s.spawnFails = some t := h
    unfold Host.spawnFails at hfails
    split at hfails
    · cases hfails
      exact .released rfl rfl
    · cases hfails
  | write => exact Turns.write h
  | read => exact Turns.read h
  | fail =>
    obtain ⟨pid, -, rfl⟩ := Option.map_eq_some_iff.mp h
    exact .released rfl rfl
  | cancel =>
    obtain ⟨held, -, rfl⟩ := Option.map_eq_some_iff.mp h
    exact .released rfl rfl
  | answer pid line =>
    have hanswer : (if pid < s.spawned then some (s.answer pid line) else none) = some t := h
    split at hanswer
    · cases hanswer
      exact .kept rfl rfl
    · cases hanswer

theorem Answering.step {s t : Host} {a : Action} (hs : Answering responses plugin s)
    (h : s.step requests responses plugin a = some t) : Answering responses plugin t := by
  have hmoves := Moves.step h
  have hpaired : ∀ r ∈ s.returns, Paired responses plugin t r := fun r hr => (hs.returned r hr).grows hmoves
  cases Turns.step h with
  | kept hholder hreturns =>
    refine ⟨fun call pid asked h => ?_, hreturns ▸ hpaired⟩
    exact hmoves.grows (hs.reading call pid asked (hholder ▸ h))
  | other hholder hreturns => exact ⟨fun call pid asked h => absurd h (hholder call pid asked), hreturns ▸ hpaired⟩
  | wrote call pid hholder hlog hreturns =>
    refine ⟨fun call' pid' asked h => ?_, hreturns ▸ hpaired⟩
    cases hholder.symm.trans h
    rw [hlog]
    exact List.getElem?_concat_length
  | returned call pid asked answered line response hholder hreleased hline hchecked hreturns =>
    refine ⟨fun call' pid' asked' h => absurd (h.symm.trans hreleased) (Option.some_ne_none _), fun r hr => ?_⟩
    rw [hreturns] at hr
    rcases List.mem_cons.mp hr with rfl | hr
    · have hasked := hs.reading call pid asked hholder
      exact ⟨hostCheck_ok responses hchecked, hmoves.grows hasked, hmoves.grows hline, hchecked⟩
    · exact hpaired r hr

/-- A paired response was written after the request, where the plugin answers only what it was
asked. -/
theorem Numbered.asked_lt_answered {s : Host} {r : Return} (hs : Numbered responses plugin s)
    (hr : Paired responses plugin s r) : r.asked < r.answered := by
  obtain ⟨i, hlt, n, request, hi, hid⟩ := hs.answered _ _ _ _ _ hr.answered hr.checked
  obtain ⟨-, -, hn⟩ := hs.asked _ _ _ _ hi
  have hnumber : n = r.call.number := requestId_inj (hn.symm.trans hid)
  rw [hnumber] at hi
  rw [← hs.once _ _ _ _ _ _ hi hr.asked]
  exact hlt

/-- Every response that a call returns carries the id of the call and is a line of the process that
its request was written to, no call uses a process on which another one failed, timed out or was
dropped, and where the plugin writes a response only with an id that it was asked for, the line was
written after the request. -/
theorem calls_paired (requests : Serde PluginRequest) (responses : Serde PluginResponse) (plugin : String) :
    (∀ s : Host, (host requests responses plugin).Reachable Host.start s →
      (∀ r ∈ s.returns, Paired responses plugin s r) ∧
      ∀ call stage pid, s.holder = some (call, stage) → stage.pid? = some pid → pid ∉ s.spoiled) ∧
    ∀ s : Host, (host requests responses plugin).Reach (Solicited responses) Host.start s →
      ∀ r ∈ s.returns, r.asked < r.answered := by
  have hanswering : ∀ s : Host, (host requests responses plugin).Reachable Host.start s →
      Answering responses plugin s :=
    fun s hreach => hreach.invariant .start fun _ _ _ hs _ h => hs.step h
  refine ⟨fun s hreach => ⟨(hanswering s hreach).returned, ?_⟩, fun s hreach r hr => ?_⟩
  · have hused : Used s := hreach.invariant .start fun _ _ _ hs _ h => hs.step h
    exact fun call stage pid hheld hpid => (hused.busy call stage pid hheld hpid).2
  · have hnumbered : Numbered responses plugin s :=
      hreach.invariant .start fun _ _ _ hs hok h => hs.moves hok (Moves.step h)
    have hany := hreach.mono fun _ _ _ => trivial
    exact hnumbered.asked_lt_answered ((hanswering s hany).returned r hr)

/-! ### Samples -/

def echoDescriptor : PluginDescriptor := ⟨"echo", "1.0.0", "Echo", "util", 0, []⟩

def echoDescribed : PluginResponse := ⟨1, "echo-2", some (.descriptor echoDescriptor), none⟩
def echoFirst : PluginResponse := ⟨1, "echo-1", some (.packets []), none⟩
def echoThird : PluginResponse := ⟨1, "echo-3", some (.packets []), none⟩

def echoJson (response : PluginResponse) : Json :=
  .object [("protocol_version", .number (.posInt response.protocolVersion.toNat)),
    ("request_id", .string response.requestId),
    ("result", if response.requestId = "echo-2" then
      .object [("kind", .string "descriptor"), ("descriptor", .object [("id", .string "echo"),
        ("version", .string "1.0.0"), ("display_name", .string "Echo"), ("category", .string "util"),
        ("default_port", .number (.posInt 0)), ("capabilities", .array [])])]
      else .object [("kind", .string "packets"), ("packets", .array [])]), ("error", .null)]

def echoText (response : PluginResponse) : Bytes := utf8 (echoJson response).render

def echoes : List PluginResponse := [echoDescribed, echoFirst, echoThird]

/-- `serde_json` on the three responses above. -/
def echoResponses : Serde PluginResponse where
  toVec response := .ok (echoText response)
  fromSlice bytes := match (echoes.findIdx? (echoText · == bytes)).bind (echoes[·]?) with
    | some response => .ok response
    | none => .error "expected value at line 1 column 1"

def echoBody : PluginRequest := ⟨1, "", .execute, .null, some (.records []), some ⟨"flow", "echo", []⟩⟩

/-- Two calls; the process answers the second one before it is asked. -/
def earlyRun : List Action :=
  [.draw echoBody, .lock 0, .spawn, .write, .answer 0 (echoText echoDescribed), .read, .write,
    .answer 0 (echoText echoFirst), .answer 0 (echoText echoThird), .read,
    .draw echoBody, .lock 0, .write, .read]

/-- The same calls, each answered after it is asked. -/
def echoRun : List Action :=
  [.draw echoBody, .lock 0, .spawn, .write, .answer 0 (echoText echoDescribed), .read, .write,
    .answer 0 (echoText echoFirst), .read, .draw echoBody, .lock 0, .write,
    .answer 0 (echoText echoThird), .read]

def Event.asks (id : String) : Event → Bool
  | .asked _ request => request.requestId = id
  | .answered _ => false

def Action.solicited (responses : Serde PluginResponse) (s : Host) : Action → Bool
  | .answer pid line => match responses.fromSlice line with
    | .ok response => (s.processes pid).log.any (Event.asks response.requestId)
    | .error _ => true
  | _ => true

def solicitedGuard (responses : Serde PluginResponse) (s : Host) (a : Action) : Bool :=
  decide (s.nextRequest + 1 < 18446744073709551616) && a.solicited responses s

theorem hostCheck_parsed {line : Bytes} {request : PluginRequest} {response : PluginResponse}
    (h : hostCheck responses line request = .ok response) : responses.fromSlice line = .ok response := by
  unfold hostCheck at h
  split at h
  · cases h
  · obtain ⟨parsed, hparsed, h⟩ := bind_ok h
    unfold checkResponse at h
    split at h
    · cases h
    · obtain ⟨_, -, h⟩ := bind_ok h
      split at h
      · cases h
      · cases h
        cases hslice : responses.fromSlice line with
        | error e =>
          rw [hslice] at hparsed
          cases hparsed
        | ok value =>
          rw [hslice] at hparsed
          cases hparsed
          rfl

theorem solicited_of_guard {s : Host} {a : Action} (h : solicitedGuard responses s a = true) :
    Solicited responses s a := by
  rw [solicitedGuard, Bool.and_eq_true, decide_eq_true_eq] at h
  refine ⟨h.1, fun pid line ha request response hcheck => ?_⟩
  have hsolicited := h.2
  rw [ha, Action.solicited, hostCheck_parsed hcheck] at hsolicited
  obtain ⟨event, hmem, hasks⟩ := List.any_eq_true.mp hsolicited
  obtain ⟨i, hi⟩ := List.mem_iff_getElem?.mp hmem
  cases event with
  | answered line => cases hasks
  | asked n asked =>
    exact ⟨i, n, asked, hi, (of_decide_eq_true hasks).trans (hostCheck_ok responses hcheck)⟩

/-- Two responses, each after its request. -/
theorem calls_paired_sample : ∃ s : Host,
    (host sampleRequests echoResponses "echo").Reach (Solicited echoResponses) Host.start s ∧
    s.returns.length = 2 ∧ ∀ r ∈ s.returns, Paired echoResponses "echo" s r ∧ r.asked < r.answered := by
  have hrun : (((host sampleRequests echoResponses "echo").guarded (solicitedGuard echoResponses)).exec
      Host.start echoRun).any (fun s => decide (s.returns.length = 2)) = true := by
    decide +kernel
  obtain ⟨s, hexec, htwo⟩ := (Option.any_eq_true _ _).mp hrun
  have hreach := Machine.Reach.of_guarded (fun _ _ => solicited_of_guard) echoRun hexec
  obtain ⟨hany, hordered⟩ := calls_paired sampleRequests echoResponses "echo"
  refine ⟨s, hreach, of_decide_eq_true htwo, fun r hr => ⟨?_, hordered s hreach r hr⟩⟩
  exact (hany s (hreach.mono fun _ _ _ => trivial)).1 r hr

/-- A response that the process wrote before the request. -/
theorem early_response_returned :
    ¬ ∀ (requests : Serde PluginRequest) (responses : Serde PluginResponse) (plugin : String) (s : Host),
      (host requests responses plugin).Reachable Host.start s →
        ∀ r ∈ s.returns, r.response.requestId = requestId plugin r.call.number ∧ r.asked < r.answered := by
  intro hclaim
  have hrun : ((host sampleRequests echoResponses "echo").exec Host.start earlyRun).any
      (fun s => s.returns.any fun r => decide (r.answered < r.asked)) = true := by
    decide +kernel
  obtain ⟨s, hexec, hearly⟩ := (Option.any_eq_true _ _).mp hrun
  obtain ⟨r, hr, hlt⟩ := List.any_eq_true.mp hearly
  have hordered := (hclaim sampleRequests echoResponses "echo" s
    (.of_exec earlyRun hexec fun _ _ _ => trivial) r hr).2
  exact Nat.lt_asymm hordered (of_decide_eq_true hlt)

end Jaiba.Plugin
