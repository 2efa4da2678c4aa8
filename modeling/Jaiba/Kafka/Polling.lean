import Mathlib.Data.Nat.Find
import Jaiba.Kafka.ConsumeKafka

/-!
# When the polling loop ends

A message always brings the loop nearer to its end, and so does a timeout; a
transient error moves the idle deadline. The loop keeps the configured deadline
exactly when no chain of such errors is renewed past it.
-/

namespace Jaiba.Kafka

/-- A transport or join error that the loop may tolerate. -/
def Round.transient (r : Round) : Bool :=
  match r.received with
  | .error e => e.isTransientJoin
  | _ => false

/-- Nothing but a timeout or such an error. -/
def Round.quiet (r : Round) : Bool :=
  match r.received with
  | .timeout => true
  | _ => r.transient

/-- The reading that the idle deadline counts from while nothing is consumed. -/
def Session.lastRenewal (s : Session) : ℕ → ℕ
  | 0 => s.opened
  | i + 1 => if (s.round i).transient then (s.round i).seen else s.lastRenewal i

namespace ConsumeKafka

variable {p : ConsumeKafka} {d : Decoder} {s : Session}

/-! ### One round -/

/-- A round after which the loop goes on. -/
theorem poll_polling {started : ℕ} {r : Round} {c c' : Cycle} (h : p.poll d started r c = .polling c') :
    c.consumed < p.maxPollMessages ∧ r.head < c.idleDeadline ∧
      (c'.consumed = c.consumed + 1 ∧ c'.outputs.length = c.outputs.length + 1 ∧ (∃ m, r.received = .message m) ∨
        c.consumed = 0 ∧ r.quiet = true ∧
          c' = { c with idleDeadline := if r.transient then p.renewed r.seen else c.idleDeadline }) := by
  rw [poll] at h
  split at h
  · cases h
  next hguard =>
    refine ⟨by omega, by omega, ?_⟩
    unfold Round.quiet Round.transient
    cases hreceived : r.received with
    | message m =>
      rw [hreceived] at h
      dsimp only [onMessage] at h
      split at h
      · cases h
      · split at h
        · cases h
        · cases h
          exact .inl ⟨rfl, List.length_append, m, rfl⟩
    | error e =>
      rw [hreceived] at h
      dsimp only at h
      split at h
      next hrenewed =>
        rw [Bool.and_eq_true, beq_iff_eq] at hrenewed
        cases h
        refine .inr ⟨hrenewed.2, hrenewed.1, ?_⟩
        dsimp only
        rw [if_pos hrenewed.1]
      · cases h
    | timeout =>
      rw [hreceived] at h
      dsimp only at h
      split at h
      next hzero =>
        cases h
        exact .inr ⟨hzero, rfl, rfl⟩
      · cases h

/-- A quiet round before the deadline, with nothing consumed. -/
theorem poll_quiet {started : ℕ} {r : Round} {c : Cycle} (hconsumed : c.consumed = 0) (hhead : r.head < c.idleDeadline)
    (hquiet : r.quiet = true) : p.poll d started r c =
      .polling { c with idleDeadline := if r.transient then p.renewed r.seen else c.idleDeadline } := by
  have hmessages := p.messages_pos
  rw [poll, if_neg (by omega)]
  unfold Round.quiet Round.transient at hquiet
  unfold Round.transient
  cases hreceived : r.received with
  | message m =>
    rw [hreceived] at hquiet
    cases hquiet
  | error e =>
    rw [hreceived] at hquiet
    dsimp only at hquiet ⊢
    rw [if_pos (by rw [hquiet, hconsumed]; rfl), if_pos hquiet]
  | timeout =>
    dsimp only
    rw [if_pos hconsumed]
    rfl

theorem poll_ended_ok {started : ℕ} {r : Round} {c c' : Cycle} {failed : Bool}
    (h : p.poll d started r c = .ended c' (.ok ()) failed) : c' = c := by
  rw [poll] at h
  split at h
  · cases h
    rfl
  · cases hreceived : r.received with
    | message m =>
      rw [hreceived] at h
      dsimp only [onMessage] at h
      split at h
      · cases h
      · split at h
        · cases h
        · cases h
    | error e =>
      rw [hreceived] at h
      dsimp only at h
      split at h
      · cases h
      · cases h
    | timeout =>
      rw [hreceived] at h
      dsimp only at h
      split at h
      · cases h
      · cases h
        rfl

/-! ### The rounds of a cycle -/

theorem after_succ {n : ℕ} {c : Cycle} (h : p.after d s n = .polling c) :
    p.after d s (n + 1) = p.poll d s.started (s.round n) c := by
  rw [after, h]

theorem polling_before {n : ℕ} {c' : Cycle} (h : p.after d s (n + 1) = .polling c') :
    ∃ c, p.after d s n = .polling c ∧ p.poll d s.started (s.round n) c = .polling c' := by
  cases hbefore : p.after d s n with
  | polling c =>
    rw [after_succ hbefore] at h
    exact ⟨c, rfl, h⟩
  | ended c result failed =>
    rw [after, hbefore] at h
    cases h

/-- The state while nothing is consumed. -/
def waiting (p : ConsumeKafka) (s : Session) (i : ℕ) : Cycle :=
  { p.start s with idleDeadline := p.renewed (s.lastRenewal i) }

theorem waiting_succ (i : ℕ) : p.waiting s (i + 1) = { p.waiting s i with
    idleDeadline := if (s.round i).transient then p.renewed (s.round i).seen else (p.waiting s i).idleDeadline } := by
  unfold waiting
  rw [Session.lastRenewal]
  split <;> rfl

/-- Quiet rounds, each begun within the idle time of the last renewal, keep the loop going. -/
theorem after_quiet {n : ℕ} (hquiet : ∀ i < n, (s.round i).quiet = true)
    (hhead : ∀ i < n, (s.round i).head < p.renewed (s.lastRenewal i)) : p.after d s n = .polling (p.waiting s n) := by
  induction n with
  | zero => rfl
  | succ n ih =>
    have hbefore := ih (fun i hi => hquiet i (Nat.lt_succ_of_lt hi)) (fun i hi => hhead i (Nat.lt_succ_of_lt hi))
    have hround : (s.round n).head < (p.waiting s n).idleDeadline := hhead n (Nat.lt_succ_self n)
    rw [after_succ hbefore, poll_quiet rfl hround (hquiet n (Nat.lt_succ_self n)), waiting_succ]

/-- What is known of a cycle that goes on: it put out a packet for each message, and has waited from
the start if there was none. -/
theorem after_polling {n : ℕ} {c : Cycle} (h : p.after d s n = .polling c) :
    c.outputs.length = c.consumed ∧ (c.consumed = 0 → c = p.waiting s n ∧
      ∀ i < n, (s.round i).quiet = true ∧ (s.round i).head < p.renewed (s.lastRenewal i)) := by
  induction n generalizing c with
  | zero =>
    cases h
    refine ⟨rfl, fun _ => ⟨rfl, fun i hi => ?_⟩⟩
    omega
  | succ n ih =>
    obtain ⟨b, hbefore, hpoll⟩ := polling_before h
    obtain ⟨houtputs, hwaiting⟩ := ih hbefore
    obtain ⟨-, hhead, hmessage | ⟨hzero, hquiet, rfl⟩⟩ := poll_polling hpoll
    · exact ⟨by omega, fun hzero => by omega⟩
    · obtain ⟨rfl, hrounds⟩ := hwaiting hzero
      refine ⟨houtputs, fun _ => ⟨(waiting_succ n).symm, fun i hi => ?_⟩⟩
      rcases Nat.lt_succ_iff_lt_or_eq.mp hi with hi | rfl
      · exact hrounds i hi
      · exact ⟨hquiet, hhead⟩

/-! ### The end of the cycle -/

/-- The loop ends with a result; if it is not an error, each message was put out. -/
def Ends (p : ConsumeKafka) (d : Decoder) (s : Session) : Prop :=
  ∃ n c result failed, p.after d s n = .ended c result failed ∧ (result = .ok () → c.outputs.length = c.consumed)

/-- An error that does not end the loop was met by a `recv` that began before the configured deadline. -/
def Tolerates (p : ConsumeKafka) (d : Decoder) (s : Session) : Prop :=
  ∀ n c c' e, p.after d s n = .polling c → (s.round n).received = .error e → p.after d s (n + 1) = .polling c' →
    (s.round n).head < p.renewed s.opened

/-- Before any message the rounds are timeouts and transient errors, each begun within the idle time
of the last error, up to an error of a round that begins when the configured deadline has passed. -/
def RenewedPast (p : ConsumeKafka) (s : Session) : Prop :=
  ∃ i, (s.round i).transient = true ∧ (∀ j < i, (s.round j).quiet = true) ∧
    (∀ j ≤ i, (s.round j).head < p.renewed (s.lastRenewal j)) ∧ p.renewed s.opened ≤ (s.round i).head

theorem Round.quiet_of_transient {r : Round} (h : r.transient = true) : r.quiet = true := by
  unfold Round.quiet
  split
  · rfl
  · exact h

theorem transient_of_error {r : Round} {e : KafkaError} (h : r.received = .error e) (hquiet : r.quiet = true) :
    r.transient = true := by
  unfold Round.quiet at hquiet
  rw [h] at hquiet
  exact hquiet

theorem tolerates_iff : Tolerates p d s ↔ ¬ RenewedPast p s := by
  constructor
  · rintro h ⟨i, htransient, hquiet, hheads, hlate⟩
    have hbefore := after_quiet (d := d) hquiet fun j hj => hheads j (Nat.le_of_lt hj)
    have hnext := after_quiet (d := d) (p := p) (s := s) (n := i + 1)
      (fun j hj => by
        rcases Nat.lt_succ_iff_lt_or_eq.mp hj with hj | rfl
        · exact hquiet j hj
        · exact Round.quiet_of_transient htransient)
      (fun j hj => hheads j (Nat.le_of_lt_succ hj))
    cases hreceived : (s.round i).received with
    | error e => exact absurd (h i _ _ e hbefore hreceived hnext) (Nat.not_lt.mpr hlate)
    | message m =>
      rw [Round.transient, hreceived] at htransient
      cases htransient
    | timeout =>
      rw [Round.transient, hreceived] at htransient
      cases htransient
  · intro h n c c' e hbefore hreceived hnext
    by_contra hlate
    rw [after_succ hbefore] at hnext
    obtain ⟨-, hhead, ⟨-, -, m, hmessage⟩ | ⟨hzero, hquiet, -⟩⟩ := poll_polling hnext
    · rw [hreceived] at hmessage
      cases hmessage
    · obtain ⟨-, hwaiting⟩ := after_polling hbefore
      obtain ⟨rfl, hrounds⟩ := hwaiting hzero
      refine h ⟨n, transient_of_error hreceived hquiet, fun j hj => (hrounds j hj).1, fun j hj => ?_, Nat.not_lt.mp hlate⟩
      rcases Nat.lt_or_eq_of_le hj with hj | rfl
      · exact (hrounds j hj).2
      · exact hhead

theorem head_ge (hclock : s.Advances) (n : ℕ) : s.opened + millis n ≤ (s.round n).head := by
  induction n with
  | zero => exact hclock.opened_le
  | succ n ih =>
    have hwait := hclock.wait n
    have hnext := hclock.next n
    have hmillis : millis (n + 1) = millis n + millis 1 := Nat.add_mul n 1 1000000
    omega

/-- Once no transient error is met any more, the deadline stands. -/
theorem lastRenewal_const {n : ℕ} (h : ∀ i, n ≤ i → (s.round i).transient = false) (k : ℕ) :
    s.lastRenewal (n + k) = s.lastRenewal n := by
  induction k with
  | zero => rfl
  | succ k ih =>
    rw [← Nat.add_assoc, Session.lastRenewal, h (n + k) (Nat.le_add_right n k), if_neg Bool.false_ne_true]
    exact ih

/-- A loop that never ends never consumes: each message after the first would be followed by
another, and their number is bounded. -/
theorem never_consumes {c : ℕ → Cycle} (h : ∀ n, p.after d s n = .polling (c n)) (n : ℕ) : (c n).consumed = 0 := by
  have hstep : ∀ m, (c m).consumed < p.maxPollMessages ∧
      ((c (m + 1)).consumed = (c m).consumed + 1 ∨ (c m).consumed = 0 ∧ (c (m + 1)).consumed = 0) := by
    intro m
    have hpoll := h (m + 1)
    rw [after_succ (h m)] at hpoll
    obtain ⟨hlt, -, ⟨hnext, -, -⟩ | ⟨hzero, -, hnext⟩⟩ := poll_polling hpoll
    · exact ⟨hlt, .inl hnext⟩
    · refine ⟨hlt, .inr ⟨hzero, ?_⟩⟩
      rw [hnext]
      exact hzero
  by_contra hpos
  have hgrows : ∀ k, (c (n + k)).consumed = (c n).consumed + k := by
    intro k
    induction k with
    | zero => rfl
    | succ k ih =>
      rcases (hstep (n + k)).2 with hnext | ⟨hzero, -⟩
      · rw [← Nat.add_assoc, hnext, ih]
        omega
      · omega
  have hlast := (hstep (n + p.maxPollMessages)).1
  rw [hgrows] at hlast
  omega

/-- A loop that keeps to the configured deadline ends. -/
theorem ends_of_tolerates (hclock : s.Advances) (h : Tolerates p d s) : Ends p d s := by
  by_cases hend : ∃ n c result failed, p.after d s n = .ended c result failed
  · -- the first round that ended the loop
    classical
    obtain ⟨c, result, failed, hfirst⟩ := Nat.find_spec hend
    have hleast := fun {m} => Nat.find_min (m := m) hend
    refine ⟨Nat.find hend, c, result, failed, hfirst, ?_⟩
    rintro rfl
    cases hn : Nat.find hend with
    | zero =>
      rw [hn] at hfirst
      cases hfirst
    | succ m =>
      rw [hn] at hfirst
      cases hbefore : p.after d s m with
      | ended c' result' failed' => exact absurd ⟨c', result', failed', hbefore⟩ (hleast (by omega))
      | polling b =>
        rw [after_succ hbefore] at hfirst
        rw [poll_ended_ok hfirst]
        exact (after_polling hbefore).1
  · have hpolling : ∀ n, ∃ c, p.after d s n = .polling c := by
      intro n
      cases hn : p.after d s n with
      | polling c => exact ⟨c, rfl⟩
      | ended c result failed => exact absurd ⟨n, c, result, failed, hn⟩ hend
    choose c hc using hpolling
    have hzero := never_consumes hc
    have hrounds : ∀ n, (s.round n).quiet = true ∧ (s.round n).head < p.renewed (s.lastRenewal n) := by
      intro n
      obtain ⟨-, hwaiting⟩ := after_polling (hc (n + 1))
      exact (hwaiting (hzero (n + 1))).2 n (Nat.lt_succ_self n)
    -- from the configured deadline on no error is tolerated
    have hcalm : ∀ i, p.maxIdleMs ≤ i → (s.round i).transient = false := by
      intro i hi
      by_contra htransient
      rw [Bool.not_eq_false] at htransient
      cases hreceived : (s.round i).received with
      | error e =>
        have hearly := h i _ _ e (hc i) hreceived (hc (i + 1))
        have hhead := head_ge hclock i
        unfold renewed millis at hearly
        unfold millis at hhead
        omega
      | message m =>
        rw [Round.transient, hreceived] at htransient
        cases htransient
      | timeout =>
        rw [Round.transient, hreceived] at htransient
        cases htransient
    have hconst := lastRenewal_const hcalm (p.renewed (s.lastRenewal p.maxIdleMs))
    have hlast := (hrounds (p.maxIdleMs + p.renewed (s.lastRenewal p.maxIdleMs))).2
    have hhead := head_ge hclock (p.maxIdleMs + p.renewed (s.lastRenewal p.maxIdleMs))
    rw [hconst] at hlast
    unfold millis at hhead
    omega

/-- The loop ends and keeps to the configured deadline exactly when no chain of transient errors is
renewed past it. -/
theorem polling_ends_iff (p : ConsumeKafka) (d : Decoder) (s : Session) (hclock : s.Advances) :
    Ends p d s ∧ Tolerates p d s ↔ ¬ RenewedPast p s := by
  rw [← tolerates_iff (d := d)]
  exact ⟨And.right, fun h => ⟨ends_of_tolerates hclock h, h⟩⟩

/-! ### A broker that is down -/

def samplePolling : ConsumeKafka := ⟨"events", "orders", "readers", 100, 2000, .json, by decide, by decide⟩

def sampleDecoder : Decoder := ⟨fun _ => .error "EOF while parsing a value", fun _ => ""⟩

def halfSecondRound (received : Received) (n : ℕ) : Round where
  head := millis (500 * n)
  received := received
  seen := millis (500 * n + 500)
  fresh := "p" ++ toString n
  emitted := .ok ()
  committed := .ok ()

/-- Every 500 ms the same. -/
def steadySession (received : Received) : Session := ⟨0, 0, halfSecondRound received⟩

theorem steadySession_advances (received : Received) : (steadySession received).Advances where
  opened_le := Nat.zero_le _
  wait i := by
    simp only [steadySession, halfSecondRound, millis]
    omega
  next i := by
    simp only [steadySession, halfSecondRound, millis]
    omega

theorem polling_ends_idle : Ends samplePolling sampleDecoder (steadySession .timeout) ∧
    Tolerates samplePolling sampleDecoder (steadySession .timeout) := by
  refine (polling_ends_iff _ _ _ (steadySession_advances _)).mpr ?_
  rintro ⟨i, htransient, -⟩
  cases htransient

def transportFailure : KafkaError :=
  ⟨.other, some .brokerTransportFailure, "Message consumption error: BrokerTransportFailure"⟩

theorem transportFailure_transient : transportFailure.isTransientJoin = true := by
  rw [KafkaError.isTransientJoin, Bool.or_eq_true]
  exact .inr rfl

/-- The broker stays down: the loop waits for ever. -/
theorem broker_down_never_ends : ¬ ∀ (p : ConsumeKafka) (d : Decoder) (s : Session), s.Advances →
    Ends p d s ∧ Tolerates p d s := by
  intro h
  obtain ⟨⟨n, c, result, failed, hended, -⟩, -⟩ := h samplePolling sampleDecoder
    (steadySession (.error transportFailure)) (steadySession_advances _)
  have htransient : ∀ i, ((steadySession (.error transportFailure)).round i).transient = true :=
    fun _ => transportFailure_transient
  have hpolling := after_quiet (d := sampleDecoder) (p := samplePolling) (n := n)
    (s := steadySession (.error transportFailure))
    (fun i _ => Round.quiet_of_transient (htransient i)) ?_
  · rw [hended] at hpolling
    cases hpolling
  · intro i _
    cases i with
    | zero => decide
    | succ i =>
      rw [Session.lastRenewal, if_pos (htransient i)]
      simp only [steadySession, halfSecondRound, renewed, samplePolling, millis]
      omega

end ConsumeKafka

end Jaiba.Kafka
