import Jaiba.Engine.Delivery

/-!
# Which emissions have their rows

An accepted emission has a row for each of its connections exactly when the loop
has routed it, or when it has no connection. An error in the middle of
`route_emission` leaves some of the rows only, and the emission with it.
-/

namespace Jaiba.Engine
open Jaiba.Lib Jaiba.Control Jaiba.Repository

variable {σ : Setup} {s t : State} {db db' : Database} {e : ProcessorEmission}

/-- What was published for one emission. -/
def rowsOf (published : Published) (serial : ℕ) : Published :=
  published.filter fun p => p.1 = serial

/-- There is nothing to route, or `route_emission` has returned `Routed`. -/
def Passed (σ : Setup) (s : State) (e : ProcessorEmission) : Prop :=
  σ.config.outgoing e.processorId e.relationship = [] ∨ e ∈ s.trace.routed

theorem Sent.length_le {published : Published} (h : Sent σ published db e) :
    (σ.config.outgoing e.processorId e.relationship).length ≤ (rowsOf published e.serial).length := by
  obtain ⟨queueIds, hn, hall⟩ := h
  have hsub : queueIds ⊆ (rowsOf published e.serial).map fun p => p.2.2 := by
    intro q hq
    obtain ⟨i, hi, rfl⟩ := List.mem_iff_getElem.mp hq
    have hi' : i < (σ.config.outgoing e.processorId e.relationship).length := by
      rw [hall.length_eq]
      exact hi
    have hmem := ((List.forall₂_iff_get.mp hall).2 i hi' hi).1
    exact List.mem_map.mpr ⟨_, List.mem_filter.mpr ⟨hmem, decide_eq_true rfl⟩, rfl⟩
  have hle := (hn.subperm hsub).length_le
  rw [List.length_map] at hle
  rw [hall.length_eq]
  exact hle

theorem rowsOf_append (published : Published) (n : ℕ) (p : ℕ × ConnectionConfig × String) :
    rowsOf (published ++ [p]) n = rowsOf published n ++ if p.1 = n then [p] else [] := by
  rw [rowsOf, List.filter_append, List.filter_singleton]
  by_cases hp : p.1 = n
  · rw [if_pos hp, decide_eq_true hp]
    rfl
  · rw [if_neg hp, decide_eq_false hp]
    rfl

/-- Publishing adds rows of this emission only, at most one a connection. -/
theorem Publishes.rowsOf {ks : List ConnectionConfig} (h : Publishes σ e s ks t) :
    (∀ n, n ≠ e.serial → rowsOf t.trace.published n = rowsOf s.trace.published n) ∧
      (rowsOf t.trace.published e.serial).length ≤
        (rowsOf s.trace.published e.serial).length + ks.length := by
  induction h with
  | nil => exact ⟨fun _ _ => rfl, Nat.le_refl _⟩
  | volatile _ _ ih =>
    refine ⟨ih.1, ih.2.trans ?_⟩
    rw [List.length_cons]
    exact Nat.add_le_add_left (Nat.le_succ _) _
  | @durable s t k ks now queueId db db' _ _ _ ih =>
    have hpub : (s.pushRow e k queueId db').trace.published =
        s.trace.published ++ [(e.serial, k, queueId)] := rfl
    rw [hpub] at ih
    refine ⟨fun n hn => ?_, ?_⟩
    · rw [ih.1 n hn, rowsOf_append, if_neg (Ne.symm hn), List.append_nil]
    · have hle := ih.2
      rw [rowsOf_append, if_pos rfl, List.length_append, List.length_singleton] at hle
      rw [List.length_cons]
      omega

/-- Accepted emissions are told apart, and one that has not passed lacks a row. -/
structure Counted (σ : Setup) (s : State) : Prop where
  distinct : (s.trace.accepted.map ProcessorEmission.serial).Nodup
  short : ∀ e ∈ s.trace.accepted, ¬ Passed σ s e →
    (rowsOf s.trace.published e.serial).length <
      (σ.config.outgoing e.processorId e.relationship).length

theorem Counted.frame (h : Counted σ s) (ht : t.trace = s.trace) : Counted σ t := by
  refine ⟨ht ▸ h.distinct, fun e he hno => ?_⟩
  rw [ht] at he ⊢
  refine h.short e he fun hp => hno ?_
  rw [Passed, ht]
  exact hp

theorem Counted.serial_ne (h : Counted σ s) {y : ProcessorEmission} (hy : y ∈ s.trace.accepted)
    (he : e ∈ s.trace.accepted) (hne : y ≠ e) : y.serial ≠ e.serial :=
  fun heq => hne (List.inj_on_of_nodup_map h.distinct hy he heq)

/-- Routing of the oldest waiting emission: it passes, it stays, or the error
leaves fewer rows than connections. -/
theorem Counted.route {rest : List ProcessorEmission} (h : Counted σ s) (hi : Inv σ s db)
    (input : RouteInput) (hw : s.waiting = e :: rest) (next : Phase)
    (ht : t = holdUnrouted e next
      (routeEmission σ input { s with deferred := none, channel := rest } e)) : Counted σ t := by
  have hmem : e ∈ s.waiting := hw ▸ List.mem_cons_self
  have he : e ∈ s.trace.accepted := hi.ledger.known e hmem
  have hnone : rowsOf s.trace.published e.serial = [] := by
    refine List.filter_eq_nil_iff.mpr fun p hp hserial => ?_
    exact hi.ledger.unpublished e hmem p hp (of_decide_eq_true hserial)
  rcases routeEmission_cases σ input { s with deferred := none, channel := rest } e with
    ⟨u, hu, hp⟩ | ⟨hu, _⟩ | ⟨error, hu, _⟩ | ⟨error, u, v, done, hu, hdone, hp, hleft⟩ <;>
    rw [hu] at ht
  · have hframe := hp.frame
    obtain ⟨hother, _⟩ := hp.rowsOf
    have hacc : t.trace.accepted = s.trace.accepted := by rw [ht, hframe]; rfl
    have hrouted : t.trace.routed = s.trace.routed ++ [e] := by rw [ht, hframe]; rfl
    have hpub : t.trace.published = u.trace.published := by rw [ht]; rfl
    refine ⟨hacc ▸ h.distinct, fun y hy hno => ?_⟩
    rw [hacc] at hy
    have hne : y ≠ e := by
      rintro rfl
      exact hno (.inr (hrouted ▸ List.mem_append_right _ List.mem_cons_self))
    rw [hpub, hother _ (h.serial_ne hy he hne)]
    refine h.short y hy fun hpass => hno (hpass.imp_right fun hr => ?_)
    rw [hrouted]
    exact List.mem_append_left _ hr
  · exact h.frame (by rw [ht]; rfl)
  · exact h.frame (by rw [ht]; rfl)
  · have hframe := hp.frame
    obtain ⟨hother, hcount⟩ := hp.rowsOf
    have hv := hleft.frame
    have hacc : t.trace.accepted = s.trace.accepted := by rw [ht, hv, hframe]; rfl
    have hrouted : t.trace.routed = s.trace.routed := by rw [ht, hv, hframe]; rfl
    have hpub : t.trace.published = u.trace.published := by rw [ht, hv]; rfl
    refine ⟨hacc ▸ h.distinct, fun y hy hno => ?_⟩
    rw [hacc] at hy
    rw [hpub]
    by_cases hye : y = e
    · subst hye
      have hshort := hdone.short (by simp)
      have hzero : (rowsOf s.trace.published y.serial).length = 0 := by rw [hnone]; rfl
      have hcount' : (rowsOf u.trace.published y.serial).length ≤
          (rowsOf s.trace.published y.serial).length + done.length := hcount
      omega
    · rw [hother _ (h.serial_ne hy he hye)]
      refine h.short y hy fun hpass => hno (hpass.imp_right fun hr => ?_)
      rw [hrouted]
      exact hr

theorem emit_trace {i : ℕ} {x : Task} {relationship : String} {packet : DataPacket}
    {rest : List (String × DataPacket)} (hs : s.emit σ i x relationship packet rest = some t) :
    t.trace = { s.trace with
      accepted := s.trace.accepted ++ [s.emission x relationship packet] } := by
  unfold State.emit at hs
  simp only at hs
  split_ifs at hs
  · cases hs
    rfl
  · cases hs
    rfl

/-- A new emission has a serial of its own and no row yet. -/
theorem Counted.emit {i : ℕ} {x : Task} {relationship : String} {packet : DataPacket}
    {rest : List (String × DataPacket)} (h : Counted σ s) (hi : Inv σ s db)
    (hs : s.emit σ i x relationship packet rest = some t) : Counted σ t := by
  have htrace := emit_trace hs
  have hserial : (s.emission x relationship packet).serial = s.next := rfl
  refine ⟨?_, fun y hy hno => ?_⟩
  · rw [htrace, List.map_append, List.map_cons, List.map_nil, List.nodup_append]
    refine ⟨h.distinct, List.nodup_singleton _, fun a ha b hb hab => ?_⟩
    obtain ⟨y, hy, rfl⟩ := List.mem_map.mp ha
    have hlt := hi.ledger.accepted y hy
    rw [List.mem_singleton.mp hb, hserial] at hab
    omega
  · rw [htrace] at hy ⊢
    have hno' : ¬ Passed σ s y := by
      intro hpass
      refine hno (hpass.imp_right fun hr => ?_)
      rw [htrace]
      exact hr
    rcases List.mem_append.mp hy with hy | hy
    · exact h.short y hy hno'
    · rw [List.mem_singleton.mp hy] at hno' ⊢
      have hnone : rowsOf s.trace.published s.next = [] := by
        refine List.filter_eq_nil_iff.mpr fun p hp hp' => ?_
        have hlt := hi.ledger.published p hp
        have heq := of_decide_eq_true hp'
        omega
      rw [hserial, hnone]
      exact List.length_pos_iff.mpr fun hnil => hno' (.inl hnil)

theorem step_counted {a : Action} (h : Counted σ s) (hi : Inv σ s db)
    (hs : step σ s a = some t) : Counted σ t := by
  obtain ⟨_, htr⟩ := step_transition hs
  cases htr with
  | control | abort | leave | resume | finish | giveUp | select | stall | maintain | deadlock
  | acquire | refill => exact h.frame rfl
  | emit _ _ _ hemit => exact h.emit hi hemit
  | @route input e _ hdef =>
    have hw : s.waiting = e :: s.channel := by rw [State.waiting, hdef]; rfl
    exact h.route hi input hw .scheduling rfl
  | @schedule input =>
    rcases scheduleAvailable_cases σ input s with ⟨_, heq⟩ | ⟨_, hsch⟩
    · rw [heq]
      exact h.frame rfl
    · refine h.frame ?_
      rw [hsch.frame]
  | join => exact h.frame (complete_frame _ _ _ _).1
  | @receive input e rest _ hdef hc =>
    have hw : s.waiting = e :: rest := by
      rw [State.waiting, hdef, hc]
      rfl
    have heq : ({ s with channel := rest } : State) = { s with deferred := none, channel := rest } := by
      rw [← hdef]
    refine h.route hi input hw .head ?_
    rw [← heq]

/-! ### Runs -/

/-- What is known of the emissions in every state of a run. -/
structure Account (σ : Setup) (s : State) (db : Database) : Prop where
  inv : Inv σ s db
  counted : Counted σ s
  routed : ∀ e ∈ s.trace.routed, Sent σ s.trace.published db e

theorem start_account {l : Launch} {s₀ : State} (henabled : σ.config.engine.repositoryEnabled)
    (hstart : start σ l = .ok s₀) : ∃ db, Account σ s₀ db := by
  obtain ⟨db, hi, _, hrouted⟩ := start_inv henabled hstart
  have haccepted : s₀.trace.accepted = [] := by
    unfold start at hstart
    rw [if_pos henabled] at hstart
    split at hstart
    · cases hstart
    · cases hstart
      rfl
  refine ⟨db, hi, ⟨?_, fun e he => ?_⟩, fun e he => ?_⟩
  · rw [haccepted]
    exact List.nodup_nil
  · rw [haccepted] at he
    cases he
  · rw [hrouted] at he
    cases he

theorem Account.step {a : Action} (h : Account σ s db) (hs : step σ s a = some t) :
    ∃ db', Account σ t db' ∧ Grows σ s t db db' := by
  obtain ⟨db', hi, hg, _⟩ := step_delivered h.inv hs
  refine ⟨db', ⟨hi, step_counted h.counted h.inv hs, fun e he => ?_⟩, hg⟩
  rcases hg.routed e he with hold | hsent
  · exact (h.routed e hold).keep hg.keeps hg.published
  · exact hsent

/-- An accepted emission has its rows exactly when it has passed. -/
theorem Account.sent_iff (h : Account σ s db) (he : e ∈ s.trace.accepted) :
    Sent σ s.trace.published db e ↔ Passed σ s e := by
  constructor
  · intro hsent
    by_contra hno
    exact absurd hsent.length_le (Nat.not_le.mpr (h.counted.short e he hno))
  · rintro (hnil | hrouted)
    · refine ⟨[], List.nodup_nil, ?_⟩
      rw [hnil]
      exact .nil
    · exact h.routed e hrouted

/-- While the run goes on, what does not wait has passed. -/
theorem Account.passed_of_live (h : Account σ s db) (he : e ∈ s.trace.accepted)
    (hlive : ∀ exit, s.phase ≠ .ended exit) (hw : e ∉ s.waiting) : Passed σ s e := by
  have hkept := h.inv.kept.resolve_left fun ⟨exit, hx⟩ => hlive exit hx
  exact (h.sent_iff he).mp ((hkept e he).resolve_left hw)

theorem Account.not_waiting (h : Account σ s db) (he : e ∈ s.trace.accepted)
    (hpass : Passed σ s e) : e ∉ s.waiting :=
  fun hw => h.inv.not_sent hw ((h.sent_iff he).mpr hpass)

/-- Where an emission stands when its rows are there: it does not wait, and a run
that has ended did not end before it was routed. -/
theorem Account.settled_iff (h : Account σ s db) (he : e ∈ s.trace.accepted) :
    (e ∉ s.waiting ∧ ∀ exit, s.phase = .ended exit → Passed σ s e) ↔
      Sent σ s.trace.published db e := by
  rw [h.sent_iff he]
  constructor
  · rintro ⟨hw, hended⟩
    by_cases hlive : ∀ exit, s.phase ≠ .ended exit
    · exact h.passed_of_live he hlive hw
    · simp only [not_forall, not_not] at hlive
      obtain ⟨exit, hexit⟩ := hlive
      exact hended exit hexit
  · exact fun hpass => ⟨h.not_waiting he hpass, fun _ _ => hpass⟩

end Jaiba.Engine
