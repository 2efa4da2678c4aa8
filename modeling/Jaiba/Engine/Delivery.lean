import Jaiba.Engine.Loop
import Jaiba.Engine.Recovery
import Jaiba.Repository.Identity

/-!
# Delivery of accepted emissions

When the row of an execution is `COMPLETED`, what the execution emitted should
be in the repository: one row for each connection of the relationship. The
completion is written as soon as the task is joined, while its last emissions
may still wait in the channel or in the deferred slot.
-/

namespace Jaiba.Engine
open Jaiba.Lib Jaiba.Control Jaiba.Repository

abbrev Published := List (ℕ × ConnectionConfig × String)

/-- The row carries the packet of the emission to the target of the connection. -/
def Durable (σ : Setup) (db : Database) (e : ProcessorEmission) (k : ConnectionConfig)
    (queueId : String) : Prop :=
  db.identityOf queueId = some
    ((newRow σ.codec queueId σ.config.id k.target e.relationship e.packet).toRow 0).identity

/-- Every connection of the emission has a durable row of its own. -/
def Sent (σ : Setup) (published : Published) (db : Database) (e : ProcessorEmission) : Prop :=
  ∃ queueIds : List String, queueIds.Nodup ∧
    List.Forall₂ (fun k queueId => (e.serial, k, queueId) ∈ published ∧ Durable σ db e k queueId)
      (σ.config.outgoing e.processorId e.relationship) queueIds

/-- No row serves two emissions, and what an execution emitted before its row
was completed has been enqueued. -/
structure Delivered (σ : Setup) (s : State) : Prop where
  distinct : (s.trace.published.map fun p => p.2.2).Nodup
  sent : ∀ db e q, s.db = some db → e ∈ s.trace.accepted → e.source = some q →
    db.statusOf q = some .completed → Sent σ s.trace.published db e

/-- The condition on a step: a row is completed when no emission of its
execution is waiting. -/
def Quiet (s : State) : Action → Prop
  | .join i _ => ∀ t q, s.running[i]? = some t → t.program.outcome = .ok none →
      t.queueId = some q → ∀ e ∈ s.waiting, e.source ≠ some q
  | _ => True

/-! ### Rows of an emission -/

section rows
variable {σ : Setup} {db db' : Database} {e : ProcessorEmission} {k : ConnectionConfig}
  {queueId : String}

theorem Durable.keep (h : Durable σ db e k queueId) (hk : db.Keeps db') :
    Durable σ db' e k queueId := hk _ _ h

theorem Sent.keep {published published' : Published} (h : Sent σ published db e)
    (hk : db.Keeps db') (hp : published ⊆ published') : Sent σ published' db' e := by
  obtain ⟨queueIds, hn, hall⟩ := h
  exact ⟨queueIds, hn, hall.imp fun _ _ ⟨hm, hd⟩ => ⟨hp hm, hd.keep hk⟩⟩

end rows

/-! ### The invariant -/

/-- The marks of the model: serials are used once, published rows exist and
have distinct ids, and nothing is published for a waiting emission. -/
structure Ledger (σ : Setup) (waiting : List ProcessorEmission) (db : Database) (next : ℕ)
    (trace : Trace) : Prop where
  distinct : (trace.published.map fun p => p.2.2).Nodup
  rows : ∀ p ∈ trace.published, (db.statusOf p.2.2).isSome
  published : ∀ p ∈ trace.published, p.1 < next
  accepted : ∀ e ∈ trace.accepted, e.serial < next
  known : ∀ e ∈ waiting, e ∈ trace.accepted
  serials : (waiting.map ProcessorEmission.serial).Nodup
  unpublished : ∀ e ∈ waiting, ∀ p ∈ trace.published, p.1 ≠ e.serial
  routed : ∀ e ∈ waiting, σ.config.outgoing e.processorId e.relationship ≠ []

/-- The rows that running tasks execute. -/
def State.held (s : State) : List String := s.running.filterMap Task.queueId

/-- They are `RUNNING`, and no two tasks execute the same. -/
structure Claimed (db : Database) (held : List String) : Prop where
  running : ∀ q ∈ held, db.statusOf q = some .running
  nodup : held.Nodup

structure Inv (σ : Setup) (s : State) (db : Database) : Prop where
  repository : s.db = some db
  ledger : Ledger σ s.waiting db s.next s.trace
  claimed : Claimed db s.held
  kept : (∃ exit, s.phase = .ended exit) ∨
    ∀ e ∈ s.trace.accepted, e ∈ s.waiting ∨ Sent σ s.trace.published db e

variable {σ : Setup} {s t : State} {db db' : Database}

theorem Ledger.keep {waiting : List ProcessorEmission} {next : ℕ} {trace : Trace}
    (h : Ledger σ waiting db next trace) (hk : db.Keeps db') :
    Ledger σ waiting db' next trace :=
  { h with rows := fun p hp => hk.isSome (h.rows p hp) }

/-- Of a waiting emission nothing has been sent. -/
theorem Inv.not_sent (h : Inv σ s db) {e : ProcessorEmission} (he : e ∈ s.waiting) :
    ¬ Sent σ s.trace.published db' e := by
  rintro ⟨queueIds, _, hall⟩
  have hne := h.ledger.routed e he
  cases hk : σ.config.outgoing e.processorId e.relationship with
  | nil => exact hne hk
  | cons k ks =>
    rw [hk] at hall
    cases hall with
    | cons hhead _ => exact h.ledger.unpublished e he _ hhead.1 rfl

/-- The places where `Inv` looks at a state. -/
theorem Inv.frame (h : Inv σ s db) (hdb : t.db = s.db) (hw : t.waiting = s.waiting)
    (hn : t.next = s.next) (ht : t.trace = s.trace) (hr : t.held = s.held)
    (hp : ∀ exit, s.phase = .ended exit → ∃ exit, t.phase = .ended exit) : Inv σ t db where
  repository := hdb.trans h.repository
  ledger := by
    rw [hw, hn, ht]
    exact h.ledger
  claimed := hr ▸ h.claimed
  kept := by
    rcases h.kept with ⟨exit, he⟩ | hk
    · exact .inl (hp exit he)
    · rw [hw, ht]
      exact .inr hk

/-- From `s` to `t` the rows and the marks stay, and what was routed is sent. -/
structure Grows (σ : Setup) (s t : State) (db db' : Database) : Prop where
  keeps : db.Keeps db'
  accepted : s.trace.accepted ⊆ t.trace.accepted
  published : s.trace.published ⊆ t.trace.published
  routed : ∀ e ∈ t.trace.routed, e ∈ s.trace.routed ∨ Sent σ t.trace.published db' e

theorem Grows.same (ht : t.trace = s.trace) (hk : db.Keeps db') : Grows σ s t db db' := by
  refine ⟨hk, ?_, ?_, fun e he => .inl ?_⟩
  · rw [ht]
    exact List.Subset.refl _
  · rw [ht]
    exact List.Subset.refl _
  · rwa [ht] at he

theorem Grows.trans {u : State} {db'' : Database} (h : Grows σ s t db db')
    (h' : Grows σ t u db' db'') : Grows σ s u db db'' := by
  refine ⟨h.keeps.trans h'.keeps, fun e he => h'.accepted (h.accepted he),
    fun p hp => h'.published (h.published hp), fun e he => ?_⟩
  rcases h'.routed e he with he | hsent
  · exact (h.routed e he).imp_right fun hsent => hsent.keep h'.keeps h'.published
  · exact .inr hsent

/-- `Delivered` does not look at the queue. -/
theorem Delivered.frame (h : Delivered σ s) (hdb : t.db = s.db) (ht : t.trace = s.trace) :
    Delivered σ t := by
  refine ⟨ht ▸ h.distinct, fun db e q hd he hq hst => ?_⟩
  rw [ht] at he ⊢
  exact h.sent db e q (hdb ▸ hd) he hq hst

/-- `Delivered` is kept where no row becomes `COMPLETED` and nothing is accepted. -/
theorem Delivered.keep (h : Delivered σ s) (hs : s.db = some db) (ht : t.db = some db')
    (hk : db.Keeps db') (hc : ∀ q, db'.statusOf q = some .completed →
      db.statusOf q = some .completed) (ha : t.trace.accepted = s.trace.accepted)
    (hp : s.trace.published ⊆ t.trace.published)
    (hd : (t.trace.published.map fun p => p.2.2).Nodup) : Delivered σ t := by
  refine ⟨hd, fun d e q hd he hq hst => ?_⟩
  rw [ht] at hd
  cases hd
  rw [ha] at he
  exact (h.sent db e q hs he hq (hc q hst)).keep hk hp

/-! ### Tasks -/

theorem held_set {running : List Task} {i : ℕ} {x y : Task} (h : running[i]? = some x)
    (hq : y.queueId = x.queueId) :
    (running.set i y).filterMap Task.queueId = running.filterMap Task.queueId := by
  induction running generalizing i with
  | nil => rfl
  | cons z running ih =>
    cases i with
    | zero =>
      cases Option.some.inj h
      simp only [List.set_cons_zero, List.filterMap_cons, hq]
    | succ i =>
      simp only [List.set_cons_succ, List.filterMap_cons, ih h]

theorem held_erase {running : List Task} {i : ℕ} {x : Task} (h : running[i]? = some x) :
    (x.queueId.toList ++ (running.eraseIdx i).filterMap Task.queueId).Perm
      (running.filterMap Task.queueId) := by
  obtain ⟨hi, hx⟩ := List.getElem?_eq_some_iff.mp h
  have hperm := (List.getElem_cons_eraseIdx_perm hi).filterMap Task.queueId
  rw [hx, List.filterMap_cons] at hperm
  cases hq : x.queueId <;> simpa [hq] using hperm

theorem Claimed.erase {running : List Task} {i : ℕ} {x : Task} (h : running[i]? = some x)
    (hc : Claimed db (running.filterMap Task.queueId)) :
    Claimed db ((running.eraseIdx i).filterMap Task.queueId) ∧
      ∀ q, x.queueId = some q → db.statusOf q = some .running ∧
        q ∉ (running.eraseIdx i).filterMap Task.queueId := by
  have hperm := held_erase h
  have hn := hperm.nodup_iff.mpr hc.nodup
  refine ⟨⟨fun q hq => hc.running q (hperm.subset (List.mem_append_right _ hq)),
    (List.nodup_append.mp hn).2.1⟩, fun q hq => ⟨hc.running q (hperm.subset ?_), fun hm => ?_⟩⟩
  · rw [hq]
    exact List.mem_append_left _ List.mem_cons_self
  · rw [hq] at hn
    exact (List.nodup_cons.mp hn).1 hm

/-! ### Routing -/

theorem Ledger.tail {e : ProcessorEmission} {rest : List ProcessorEmission} {next : ℕ}
    {trace : Trace} (h : Ledger σ (e :: rest) db next trace) : Ledger σ rest db next trace where
  distinct := h.distinct
  rows := h.rows
  published := h.published
  accepted := h.accepted
  known := fun x hx => h.known x (List.mem_cons_of_mem e hx)
  serials := (List.nodup_cons.mp h.serials).2
  unpublished := fun x hx => h.unpublished x (List.mem_cons_of_mem e hx)
  routed := fun x hx => h.routed x (List.mem_cons_of_mem e hx)

/-- A fresh row is published for an emission that is not waiting. -/
theorem Ledger.publish {e : ProcessorEmission} {rest : List ProcessorEmission} {next : ℕ}
    {trace : Trace} {k : ConnectionConfig} {queueId : String} {now : ℤ}
    (h : Ledger σ rest db next trace) (he : e.serial < next)
    (hne : ∀ x ∈ rest, x.serial ≠ e.serial)
    (hrow : enqueueRow σ db now e k queueId = some db') :
    Ledger σ rest db' (next + 1)
      { trace with published := trace.published ++ [(e.serial, k, queueId)] } := by
  obtain ⟨hfresh, hkeeps, _, hstatus⟩ := enqueueRow_spec hrow
  have hnew : ∀ p ∈ trace.published ++ [(e.serial, k, queueId)],
      p ∈ trace.published ∨ p = (e.serial, k, queueId) := by
    intro p hp
    rcases List.mem_append.mp hp with hp | hp
    · exact .inl hp
    · exact .inr (List.mem_singleton.mp hp)
  constructor
  · rw [List.map_append, List.map_cons, List.map_nil, List.nodup_append]
    refine ⟨h.distinct, List.nodup_singleton _, fun a ha b hb hab => ?_⟩
    obtain ⟨p, hp, rfl⟩ := List.mem_map.mp ha
    have hsome := h.rows p hp
    rw [hab, List.mem_singleton.mp hb, hfresh] at hsome
    cases hsome
  · intro p hp
    rcases hnew p hp with hp | rfl
    · exact hkeeps.isSome (h.rows p hp)
    · simp [hstatus]
  · intro p hp
    rcases hnew p hp with hp | rfl
    · exact Nat.lt_succ_of_lt (h.published p hp)
    · exact Nat.lt_succ_of_lt he
  · exact fun x hx => Nat.lt_succ_of_lt (h.accepted x hx)
  · exact h.known
  · exact h.serials
  · intro x hx p hp
    rcases hnew p hp with hp | rfl
    · exact h.unpublished x hx p hp
    · exact fun heq => hne x hx heq.symm
  · exact h.routed

/-- What publishing the packets of an emission leaves. -/
structure PublishResult (σ : Setup) (e : ProcessorEmission) (rest : List ProcessorEmission)
    (s : State) (db : Database) (ks : List ConnectionConfig) (t : State) (db' : Database) :
    Prop where
  repository : t.db = some db'
  ledger : Ledger σ rest db' t.next t.trace
  keeps : db.Keeps db'
  accepted : t.trace.accepted = s.trace.accepted
  published : s.trace.published ⊆ t.trace.published
  status : ∀ q st, st ≠ .pending → (db'.statusOf q = some st ↔ db.statusOf q = some st)
  sent : ∃ queueIds : List String, queueIds.Nodup ∧ (∀ q ∈ queueIds, db.statusOf q = none) ∧
    List.Forall₂ (fun k queueId =>
      (e.serial, k, queueId) ∈ t.trace.published ∧ Durable σ db' e k queueId) ks queueIds

theorem Publishes.result {e : ProcessorEmission} {rest : List ProcessorEmission}
    {ks : List ConnectionConfig} (h : Publishes σ e s ks t) (hdb : s.db = some db)
    (hl : Ledger σ rest db s.next s.trace) (he : e.serial < s.next)
    (hne : ∀ x ∈ rest, x.serial ≠ e.serial) : ∃ db', PublishResult σ e rest s db ks t db' := by
  induction h generalizing db with
  | nil s =>
    exact ⟨db, hdb, hl, .refl db, rfl, List.Subset.refl _, fun _ _ _ => Iff.rfl, [],
      List.nodup_nil, by simp, .nil⟩
  | volatile hnone =>
    rw [hdb] at hnone
    cases hnone
  | @durable s t k ks now queueId d d' hd hrow hpub ih =>
    rw [hdb] at hd
    cases hd
    obtain ⟨hfresh, hkeeps, hrowId, hstatus⟩ := enqueueRow_spec hrow
    have hdurable : Durable σ d' e k queueId := hrowId
    obtain ⟨db', hr⟩ := ih rfl (hl.publish he hne hrow) (Nat.lt_succ_of_lt he)
    obtain ⟨queueIds, hn, hnew, hall⟩ := hr.sent
    have hsub : s.trace.published ++ [(e.serial, k, queueId)] ⊆ t.trace.published := hr.published
    refine ⟨db', hr.repository, hr.ledger, hkeeps.trans hr.keeps, hr.accepted, ?_, ?_,
      queueId :: queueIds, ?_, ?_, .cons ⟨?_, hdurable.keep hr.keeps⟩ hall⟩
    · exact fun p hp => hsub (List.mem_append_left _ hp)
    · intro q st hst
      rw [hr.status q st hst, hstatus]
      split_ifs with hq
      · subst hq
        rw [hfresh]
        simp [Ne.symm hst]
      · rfl
    · refine List.nodup_cons.mpr ⟨fun hm => ?_, hn⟩
      have hbad := hnew queueId hm
      rw [hstatus, if_pos rfl] at hbad
      cases hbad
    · intro q hq
      rcases List.mem_cons.mp hq with rfl | hq
      · exact hfresh
      · have hold := hnew q hq
        rw [hstatus] at hold
        split_ifs at hold
        exact hold
    · exact hsub (List.mem_append_right _ List.mem_cons_self)

/-- The mark of a routed emission is not in the ledger. -/
theorem Ledger.noteRouted {waiting : List ProcessorEmission}
    (h : Ledger σ waiting db s.next s.trace) (e : ProcessorEmission) :
    Ledger σ waiting db (s.noteRouted e).next (s.noteRouted e).trace :=
  ⟨h.distinct, h.rows, h.published, h.accepted, h.known, h.serials, h.unpublished, h.routed⟩

theorem Claimed.keep {held : List String} (h : Claimed db held)
    (hs : ∀ q, db.statusOf q = some .running → db'.statusOf q = some .running) :
    Claimed db' held := ⟨fun q hq => hs q (h.running q hq), h.nodup⟩

/-- Routing of the oldest waiting emission. -/
theorem Inv.route {e : ProcessorEmission} {rest : List ProcessorEmission} (h : Inv σ s db)
    (input : RouteInput) (hw : s.waiting = e :: rest)
    (hlive : ∀ exit, s.phase ≠ .ended exit) (next : Phase)
    (ht : t = holdUnrouted e next
      (routeEmission σ input { s with deferred := none, channel := rest } e)) :
    ∃ db', Inv σ t db' ∧ Grows σ s t db db' ∧ (Delivered σ s → Delivered σ t) := by
  have hkept := h.kept.resolve_left fun ⟨exit, he⟩ => hlive exit he
  have hled := h.ledger
  rw [hw] at hled hkept
  have hlt : e.serial < s.next := hled.accepted e (hled.known e List.mem_cons_self)
  have hne : ∀ x ∈ rest, x.serial ≠ e.serial := fun x hx heq =>
    (List.nodup_cons.mp hled.serials).1 (heq ▸ List.mem_map_of_mem hx)
  -- whatever has been published, the rest of the state is as it was
  have hpub : ∀ {ks u}, Publishes σ e { s with deferred := none, channel := rest } ks u →
      ∃ db', PublishResult σ e rest s db ks u db' ∧ Claimed db' u.held ∧
        (Delivered σ s → Delivered σ u) ∧ u.waiting = rest := by
    intro ks u hu
    obtain ⟨db', hr⟩ := hu.result h.repository hled.tail hlt hne
    have hf := hu.frame
    have hr' : PublishResult σ e rest s db ks u db' := ⟨hr.repository, hr.ledger, hr.keeps,
      hr.accepted, hr.published, hr.status, hr.sent⟩
    refine ⟨db', hr', ?_, ?_, ?_⟩
    · have hheld : u.held = s.held := by rw [hf]; rfl
      rw [hheld]
      exact h.claimed.keep fun q => (hr.status q .running (by simp)).mpr
    · exact fun hd => hd.keep h.repository hr.repository hr.keeps
        (fun q => (hr.status q .completed (by simp)).mp) hr.accepted hr.published
        hr.ledger.distinct
    · rw [hf]
      rfl
  rcases routeEmission_cases σ input { s with deferred := none, channel := rest } e with
    ⟨u, hu, hp⟩ | ⟨hu, _⟩ | ⟨error, hu, _⟩ | ⟨error, u, v, done, hu, _, hp, hleft⟩ <;>
    rw [hu] at ht
  · obtain ⟨db', hr, hc, hdel, hwait⟩ := hpub hp
    have hwt : t.waiting = rest := by
      rw [ht, ← hwait, Publishes.frame hp]
      rfl
    obtain ⟨queueIds, hn, _, hall⟩ := hr.sent
    have hsent : Sent σ u.trace.published db' e := ⟨queueIds, hn, hall⟩
    refine ⟨db', ⟨?_, ?_, ?_, .inr ?_⟩, ⟨hr.keeps, ?_, ?_, ?_⟩, ?_⟩
    · rw [ht]
      exact hr.repository
    · rw [hwt, ht]
      exact hr.ledger.noteRouted e
    · rw [ht]
      exact hc
    · rw [hwt, ht]
      intro x hx
      have hx' : x ∈ s.trace.accepted := hr.accepted ▸ hx
      rcases hkept x hx' with hm | hsent
      · rcases List.mem_cons.mp hm with rfl | hm
        · exact .inr hsent
        · exact .inl hm
      · exact .inr (hsent.keep hr.keeps hr.published)
    · rw [ht]
      exact fun x hx => hr.accepted ▸ hx
    · rw [ht]
      exact hr.published
    · rw [ht]
      intro x hx
      have hx' : x ∈ u.trace.routed ++ [e] := hx
      rcases List.mem_append.mp hx' with hx' | hx'
      · rw [Publishes.frame hp] at hx'
        exact .inl hx'
      · rw [List.mem_singleton.mp hx']
        exact .inr hsent
    · rw [ht]
      exact fun hd => ⟨(hdel hd).distinct, (hdel hd).sent⟩
  · have hwt : t.waiting = s.waiting := by
      rw [hw, ht]
      rfl
    have hinv : Inv σ t db := h.frame (by rw [ht]; rfl) hwt (by rw [ht]; rfl) (by rw [ht]; rfl)
      (by rw [ht]; rfl) fun exit hx => absurd hx (hlive exit)
    exact ⟨db, hinv, .same (by rw [ht]; rfl) (.refl db),
      fun hd => hd.frame (by rw [ht]; rfl) (by rw [ht]; rfl)⟩
  · have hwt : t.waiting = s.waiting := by
      rw [hw, ht]
      rfl
    have hinv : Inv σ t db := h.frame (by rw [ht]; rfl) hwt (by rw [ht]; rfl) (by rw [ht]; rfl)
      (by rw [ht]; rfl) fun exit hx => absurd hx (hlive exit)
    exact ⟨db, hinv, .same (by rw [ht]; rfl) (.refl db),
      fun hd => hd.frame (by rw [ht]; rfl) (by rw [ht]; rfl)⟩
  · obtain ⟨d, hr, hc, hdel, hwait⟩ := hpub hp
    obtain ⟨db', hdb', hkeeps, hrun, hcompleted⟩ : ∃ db', v.db = some db' ∧ d.Keeps db' ∧
        (∀ q, d.statusOf q = some .running → db'.statusOf q = some .running) ∧
        ∀ q, db'.statusOf q = some .completed → d.statusOf q = some .completed := by
      cases hleft with
      | clean => exact ⟨d, hr.repository, .refl d, fun _ hq => hq, fun _ hq => hq⟩
      | @row now queueId k d₀ d' hd₀ hrow =>
        rw [hr.repository] at hd₀
        cases hd₀
        have hfresh : d.statusOf queueId = none := (Database.insertPending_spec hrow).1
        refine ⟨d', rfl, Database.insertPending_keeps hrow, fun q hq => ?_, fun q hq => ?_⟩
        · rw [Database.insertPending_statusOf hrow, if_neg]
          · exact hq
          · rintro rfl
            rw [hfresh] at hq
            cases hq
        · rw [Database.insertPending_statusOf hrow] at hq
          split_ifs at hq
          · cases hq
          · exact hq
    have hv := hleft.frame
    refine ⟨db', ⟨?_, ?_, ?_, .inl ⟨.failed error, ?_⟩⟩, ⟨hr.keeps.trans hkeeps, ?_, ?_, ?_⟩, ?_⟩
    · rw [ht]
      exact hdb'
    · have hwt : t.waiting = rest := by
        rw [ht, ← hwait, hv]
        rfl
      rw [hwt, ht, hv]
      exact hr.ledger.keep hkeeps
    · rw [ht, hv]
      exact hc.keep hrun
    · rw [ht]
      rfl
    · rw [ht, hv]
      exact fun x hx => hr.accepted ▸ hx
    · rw [ht, hv]
      exact hr.published
    · rw [ht, hv, Publishes.frame hp]
      exact fun x hx => .inl hx
    · intro hd
      have hu := hdel hd
      have hdel' : Delivered σ v := hu.keep hr.repository hdb' hkeeps hcompleted
        (by rw [hv]) (by rw [hv]; exact List.Subset.refl _) (by rw [hv]; exact hu.distinct)
      rw [ht]
      exact ⟨hdel'.distinct, hdel'.sent⟩

/-! ### Scheduling -/

theorem held_start (w : WorkItem) (p : ProcessorConfig) (key : Option String)
    (d : Option Database) (pending : List WorkItem) :
    (s.start σ w p key d pending).held = s.held ++ w.queueId.toList := by
  simp only [State.held, State.start, List.filterMap_append, List.filterMap_cons, taskOf]
  cases w.queueId <;> rfl

theorem Schedules.inv {input : ScheduleInput} {backlog : ℕ}
    (hs : Schedules σ input backlog s t) (h : Inv σ s db)
    (hlive : ∀ exit, s.phase ≠ .ended exit) :
    ∃ db', Inv σ t db' ∧ Grows σ s t db db' ∧ (Delivered σ s → Delivered σ t) := by
  induction hs generalizing db with
  | idle =>
    refine ⟨db, ?_, .same rfl (.refl db), fun hd => hd.frame rfl rfl⟩
    exact h.frame rfl rfl rfl rfl rfl fun exit hx => absurd hx (hlive exit)
  | stop =>
    refine ⟨db, ?_, .same rfl (.refl db), fun hd => hd.frame rfl rfl⟩
    exact h.frame rfl rfl rfl rfl rfl fun exit hx => absurd hx (hlive exit)
  | @start s t w p key db' pending dropped hp _ hst _ ih =>
    rcases hst.claim with ⟨hdb, hnone⟩ | ⟨d, d', queueId, hsdb, hw, hdb, hclaim⟩
    · -- nothing to claim
      have hw : w.queueId = none := by
        rcases hnone with hn | hn
        · rw [h.repository] at hn
          cases hn
        · exact hn
      have hheld : (s.start σ w p key db' pending).held = s.held := by
        rw [held_start, hw, Option.toList_none, List.append_nil]
      have hinv : Inv σ (s.start σ w p key db' pending) db :=
        h.frame hdb rfl rfl rfl hheld fun exit hx => absurd hx (hlive exit)
      obtain ⟨d', hi, hg, ht⟩ := ih hinv hlive
      have hsame : Grows σ s (s.start σ w p key db' pending) db db := .same rfl (.refl db)
      exact ⟨d', hi, hsame.trans hg, fun hd => ht (hd.frame hdb rfl)⟩
    · rw [h.repository] at hsdb
      cases hsdb
      subst hdb
      obtain ⟨hpending, hkeeps, hstatus⟩ := Database.claim_spec hclaim
      have hheld : (s.start σ w p key (some d') pending).held = s.held ++ [queueId] := by
        rw [held_start, hw]
        rfl
      have hnew : queueId ∉ s.held := by
        intro hm
        have hr := h.claimed.running queueId hm
        rw [hpending] at hr
        cases hr
      have hinv : Inv σ (s.start σ w p key (some d') pending) d' := by
        refine ⟨rfl, h.ledger.keep hkeeps, ⟨fun q hq => ?_, ?_⟩, ?_⟩
        · rw [hheld] at hq
          rw [hstatus]
          split_ifs with hqi
          · rfl
          · rcases List.mem_append.mp hq with hq | hq
            · exact h.claimed.running q hq
            · exact absurd (List.mem_singleton.mp hq) hqi
        · rw [hheld]
          refine List.nodup_append.mpr ⟨h.claimed.nodup, List.nodup_singleton _, ?_⟩
          intro a ha b hb hab
          exact hnew (List.mem_singleton.mp hb ▸ hab ▸ ha)
        · rcases h.kept with hx | hx
          · exact .inl hx
          · exact .inr fun e he => (hx e he).imp_right fun hsent =>
              hsent.keep hkeeps (List.Subset.refl _)
      have hcomplete : ∀ q, d'.statusOf q = some .completed → db.statusOf q = some .completed := by
        intro q hq
        rw [hstatus] at hq
        split_ifs at hq
        · cases hq
        · exact hq
      obtain ⟨d'', hi, hg, ht⟩ := ih hinv hlive
      have hsame : Grows σ s (s.start σ w p key (some d') pending) db d' := .same rfl hkeeps
      exact ⟨d'', hi, hsame.trans hg, fun hd => ht (hd.keep h.repository rfl hkeeps hcomplete rfl
        (List.Subset.refl _) hd.distinct)⟩

/-! ### Emission -/

theorem outgoing_eq_nil {config : FlowConfig} {id relationship : String} :
    config.outgoing id relationship = [] ↔ config.routes id relationship = false := by
  simp [FlowConfig.outgoing, FlowConfig.routes]

/-- An emission enters the ledger with a fresh serial, terminal or at the end of
the channel. -/
theorem Inv.emit {i : ℕ} {x : Task} {relationship : String} {packet : DataPacket}
    {rest : List (String × DataPacket)} (h : Inv σ s db)
    (hi : s.running[i]? = some x) (hlive : ∀ exit, s.phase ≠ .ended exit)
    (hs : s.emit σ i x relationship packet rest = some t) :
    Inv σ t db ∧ Grows σ s t db db ∧ (Delivered σ s → Delivered σ t) := by
  have hkept := h.kept.resolve_left fun ⟨exit, he⟩ => hlive exit he
  have hl := h.ledger
  unfold State.emit at hs
  simp only at hs
  generalize he : s.emission x relationship packet = e at hs
  have hserial : e.serial = s.next := he ▸ rfl
  have hout : σ.config.outgoing e.processorId e.relationship =
      σ.config.outgoing x.processorId relationship := he ▸ rfl
  have hnew : ∀ p ∈ s.trace.published, p.1 ≠ e.serial := by
    intro p hp heq
    have hlt := hl.published p hp
    omega
  have hrow : ∀ q, x.queueId = some q → db.statusOf q = some .running := by
    intro q hq
    refine h.claimed.running q (List.mem_filterMap.mpr ⟨x, ?_, hq⟩)
    exact List.mem_of_getElem? hi
  have hacc : ∀ y ∈ s.trace.accepted ++ [e], y ∈ s.trace.accepted ∨ y = e := by
    intro y hy
    rcases List.mem_append.mp hy with hy | hy
    · exact .inl hy
    · exact .inr (List.mem_singleton.mp hy)
  have hclaimed : ∀ u : State, u.running =
      s.running.set i { x with program := { x.program with emits := rest } } →
      Claimed db u.held := by
    intro u hu
    have hheld : u.held = s.held := by
      rw [State.held, hu]
      exact held_set hi rfl
    rw [hheld]
    exact h.claimed
  have hdel : Delivered σ s →
      Delivered σ { s with trace := { s.trace with accepted := s.trace.accepted ++ [e] } } := by
    refine fun hd => ⟨hd.distinct, fun d y q hdb hy hq hst => ?_⟩
    rcases hacc y hy with hy | rfl
    · exact hd.sent d y q hdb hy hq hst
    · have hq' : x.queueId = some q := by rw [← hq, ← he]; rfl
      have hdb' : s.db = some d := hdb
      rw [h.repository] at hdb'
      cases hdb'
      rw [hrow q hq'] at hst
      cases hst
  have hledger : ∀ waiting, (waiting = s.waiting ∨ waiting = s.waiting ++ [e] ∧
      σ.config.outgoing e.processorId e.relationship ≠ []) →
      Ledger σ waiting db (s.next + 1)
        { s.trace with accepted := s.trace.accepted ++ [e] } := by
    intro waiting hw
    have hmem : ∀ y ∈ waiting, y ∈ s.waiting ∨
        y = e ∧ σ.config.outgoing e.processorId e.relationship ≠ [] := by
      intro y hy
      rcases hw with rfl | ⟨rfl, hne⟩
      · exact .inl hy
      · rcases List.mem_append.mp hy with hy | hy
        · exact .inl hy
        · exact .inr ⟨List.mem_singleton.mp hy, hne⟩
    constructor
    · exact hl.distinct
    · exact hl.rows
    · exact fun p hp => Nat.lt_succ_of_lt (hl.published p hp)
    · intro y hy
      rcases hacc y hy with hy | rfl
      · exact Nat.lt_succ_of_lt (hl.accepted y hy)
      · omega
    · intro y hy
      rcases hmem y hy with hy | ⟨rfl, _⟩
      · exact List.mem_append_left _ (hl.known y hy)
      · exact List.mem_append_right _ List.mem_cons_self
    · rcases hw with rfl | ⟨rfl, _⟩
      · exact hl.serials
      · rw [List.map_append, List.map_cons, List.map_nil, List.nodup_append]
        refine ⟨hl.serials, List.nodup_singleton _, fun a ha b hb hab => ?_⟩
        obtain ⟨y, hy, rfl⟩ := List.mem_map.mp ha
        have hlt := hl.accepted y (hl.known y hy)
        rw [List.mem_singleton.mp hb] at hab
        omega
    · intro y hy
      rcases hmem y hy with hy | ⟨rfl, _⟩
      · exact hl.unpublished y hy
      · exact hnew
    · intro y hy
      rcases hmem y hy with hy | ⟨rfl, hne⟩
      · exact hl.routed y hy
      · exact hne
  split_ifs at hs with hroutes hplace
  · -- terminal: there is nothing to send
    have hnil : σ.config.outgoing e.processorId e.relationship = [] := by
      rw [hout, outgoing_eq_nil]
      simpa using hroutes
    cases hs
    refine ⟨⟨h.repository, hledger _ (.inl rfl), hclaimed _ rfl, .inr fun y hy => ?_⟩,
      ⟨.refl db, fun _ hy => List.mem_append_left _ hy, List.Subset.refl _, fun _ hy => .inl hy⟩,
      fun hd => ⟨(hdel hd).distinct, (hdel hd).sent⟩⟩
    rcases hacc y hy with hy | rfl
    · exact hkept y hy
    · refine .inr ⟨[], List.nodup_nil, ?_⟩
      rw [hnil]
      exact .nil
  · have hne : σ.config.outgoing e.processorId e.relationship ≠ [] := by
      rw [hout, Ne, outgoing_eq_nil]
      simpa using hroutes
    cases hs
    refine ⟨⟨h.repository, hledger _ (.inr ⟨?_, hne⟩), hclaimed _ rfl, .inr fun y hy => ?_⟩,
      ⟨.refl db, fun _ hy => List.mem_append_left _ hy, List.Subset.refl _, fun _ hy => .inl hy⟩,
      fun hd => ⟨(hdel hd).distinct, (hdel hd).sent⟩⟩
    · simp only [State.waiting, State.accept, List.append_assoc]
    · rcases hacc y hy with hy | rfl
      · refine (hkept y hy).imp_left fun hm => ?_
        simp only [State.waiting, State.accept, ← List.append_assoc]
        exact List.mem_append_left _ hm
      · refine .inl ?_
        simp only [State.waiting]
        simp

/-! ### Completion -/

/-- A completion keeps delivery unless it completes the row of an emission that
waits. -/
theorem Inv.join {i : ℕ} {x : Task} {now : ℤ} (h : Inv σ s db)
    (hi : s.running[i]? = some x) (hlive : ∀ exit, s.phase ≠ .ended exit) :
    ∃ db', Inv σ (s.complete i x now) db' ∧ Grows σ s (s.complete i x now) db db' ∧
      (Delivered σ s → (Delivered σ (s.complete i x now) ↔ Quiet s (.join i now))) := by
  have hkept := h.kept.resolve_left fun ⟨exit, he⟩ => hlive exit he
  obtain ⟨hrest, hclosed⟩ := h.claimed.erase hi
  obtain ⟨htrace, hwait, hnext, hrunning⟩ := complete_frame s i x now
  have hclose : ∀ db', (s.complete i x now).db = some db' → db.Keeps db' →
      (∀ q ∈ (s.running.eraseIdx i).filterMap Task.queueId,
        db'.statusOf q = db.statusOf q) → Inv σ (s.complete i x now) db' := by
    intro db' hdb hkeeps hsame
    refine ⟨hdb, ?_, ⟨fun q hq => ?_, ?_⟩, .inr fun e he => ?_⟩
    · rw [hwait, hnext, htrace]
      exact h.ledger.keep hkeeps
    · rw [State.held, hrunning] at hq
      rw [hsame q hq]
      exact hrest.running q hq
    · rw [State.held, hrunning]
      exact hrest.nodup
    · rw [htrace] at he ⊢
      rw [hwait]
      exact (hkept e he).imp_right fun hsent => hsent.keep hkeeps (List.Subset.refl _)
  have hdrop : ∀ db', (s.complete i x now).db = some db' → db.Keeps db' →
      (∀ q, db'.statusOf q = some .completed → db.statusOf q = some .completed) →
      Delivered σ s → Delivered σ (s.complete i x now) := by
    intro db' hdb hkeeps hc hd
    have hp := congrArg Trace.published htrace
    exact hd.keep h.repository hdb hkeeps hc (congrArg Trace.accepted htrace)
      (fun _ hx => hp ▸ hx) (hp ▸ hd.distinct)
  rcases complete_db i x now h.repository with
    ⟨hdb, hno⟩ | ⟨q, error, attempt, hq, hout, hdb⟩ | ⟨q, hq, hout, hdb⟩
  · refine ⟨db, hclose db hdb (.refl db) fun _ _ => rfl, .same htrace (.refl db),
      fun hd => ⟨fun _ t q ht ho hqt => ?_, fun _ => hdrop db hdb (.refl db) (fun _ h => h) hd⟩⟩
    rw [hi] at ht
    cases ht
    rcases hno with hno | hno
    · exact absurd ho hno
    · rw [hno] at hqt
      cases hqt
  · obtain ⟨_, hnot⟩ := hclosed q hq
    have hkeeps := db.fail_keeps now q error attempt
    refine ⟨_, hclose _ hdb hkeeps fun q' hq' => ?_, .same htrace hkeeps,
      fun hd => ⟨fun _ t q' ht ho => ?_, fun _ => hdrop _ hdb hkeeps (fun q' hq' => ?_) hd⟩⟩
    · rw [Database.fail_statusOf, if_neg]
      rintro ⟨rfl, _⟩
      exact hnot hq'
    · rw [hi] at ht
      cases ht
      rw [hout] at ho
      cases ho
    · rw [Database.fail_statusOf] at hq'
      split_ifs at hq'
      · cases hq'
      · exact hq'
  · obtain ⟨hrun, hnot⟩ := hclosed q hq
    have hkeeps := db.complete_keeps now q .completed
    have hstatus : ∀ q', (db.complete now q .completed).statusOf q' =
        if q' = q then some .completed else db.statusOf q' := by
      intro q'
      rw [Database.complete_statusOf]
      simp only [hrun, and_true]
    refine ⟨_, hclose _ hdb hkeeps fun q' hq' => ?_, .same htrace hkeeps,
      fun hd => ⟨fun hdel t q' ht _ hqt e he hsrc => ?_,
        fun hquiet => ⟨htrace ▸ hd.distinct, fun d e q' hd' he hsrc hst => ?_⟩⟩⟩
    · rw [hstatus, if_neg]
      rintro rfl
      exact hnot hq'
    · -- the emission waits, yet its row is completed
      rw [hi] at ht
      cases ht
      rw [hq] at hqt
      cases hqt
      have hsent := hdel.sent _ e q hdb (htrace ▸ h.ledger.known e he) hsrc
        (by rw [hstatus, if_pos rfl])
      rw [htrace] at hsent
      exact h.not_sent he hsent
    · rw [hdb] at hd'
      cases hd'
      rw [htrace] at he ⊢
      rw [hstatus] at hst
      split_ifs at hst with hqq
      · subst hqq
        rcases hkept e he with hw | hsent
        · exact absurd hsrc (hquiet x q' hi hout hq e hw)
        · exact hsent.keep hkeeps (List.Subset.refl _)
      · exact (hd.sent db e q' h.repository he hsrc hst).keep hkeeps (List.Subset.refl _)

/-! ### Runs -/

/-- One step: the invariant is kept, and delivery is kept by exactly the steps
that meet the condition. -/
theorem step_delivered {a : Action} (h : Inv σ s db) (hs : step σ s a = some t) :
    ∃ db', Inv σ t db' ∧ Grows σ s t db db' ∧ (Delivered σ s → (Delivered σ t ↔ Quiet s a)) := by
  obtain ⟨hlive, htr⟩ := step_transition hs
  have hquiet : ∀ {db'}, Inv σ t db' ∧ Grows σ s t db db' ∧ (Delivered σ s → Delivered σ t) →
      Quiet s a → ∃ db', Inv σ t db' ∧ Grows σ s t db db' ∧
        (Delivered σ s → (Delivered σ t ↔ Quiet s a)) :=
    fun ⟨hi, hg, ht⟩ hq => ⟨_, hi, hg, fun hd => ⟨fun _ => hq, fun _ => ht hd⟩⟩
  have hp : ∀ (u : State) exit, s.phase = .ended exit → ∃ exit, u.phase = .ended exit :=
    fun u exit he => absurd he (hlive exit)
  cases htr with
  | control | abort | leave | resume | finish | giveUp | select | stall | maintain | deadlock =>
    exact hquiet ⟨h.frame rfl rfl rfl rfl rfl (hp _), .same rfl (.refl db),
      fun hd => hd.frame rfl rfl⟩ trivial
  | acquire hx =>
    exact hquiet ⟨h.frame rfl rfl rfl rfl (held_set hx rfl) (hp _), .same rfl (.refl db),
      fun hd => hd.frame rfl rfl⟩ trivial
  | emit hx _ _ hemit => exact hquiet (h.emit hx hlive hemit) trivial
  | @route input e _ hdef =>
    have hw : s.waiting = e :: s.channel := by rw [State.waiting, hdef]; rfl
    obtain ⟨db', hroute⟩ := h.route input hw hlive .scheduling rfl
    exact hquiet hroute trivial
  | @schedule input =>
    rcases scheduleAvailable_cases σ input s with ⟨_, heq⟩ | ⟨_, hsch⟩
    · rw [heq]
      exact ⟨db, h.frame rfl rfl rfl rfl rfl (hp _), .same rfl (.refl db),
        fun hd => ⟨fun _ => trivial, fun _ => hd.frame rfl rfl⟩⟩
    · obtain ⟨db', hschedule⟩ := hsch.inv h hlive
      exact hquiet hschedule trivial
  | @refill e rest _ _ _ hdef hc =>
    have hw : ({ s with deferred := some e, channel := rest, phase := .head } : State).waiting =
        s.waiting := by
      simp only [State.waiting, hdef, hc]
      rfl
    exact hquiet ⟨h.frame rfl hw rfl rfl rfl (hp _), .same rfl (.refl db),
      fun hd => hd.frame rfl rfl⟩ trivial
  | join _ hx => exact h.join hx hlive
  | @receive input e rest _ hdef hc =>
    have hw : s.waiting = e :: rest := by
      rw [State.waiting, hdef, hc]
      rfl
    have heq : ({ s with channel := rest } : State) = { s with deferred := none, channel := rest } := by
      rw [← hdef]
    obtain ⟨db', hroute⟩ := h.route input hw hlive .head rfl
    rw [← heq] at hroute
    exact hquiet hroute trivial

theorem inv_init (recovered : List WorkItem) (packetId : ℕ → String) (db : Database) :
    Inv σ (.init σ packetId recovered (some db)) db ∧
      Delivered σ (.init σ packetId recovered (some db)) := by
  refine ⟨⟨rfl, ⟨List.nodup_nil, ?_, ?_, ?_, ?_, List.nodup_nil, ?_, ?_⟩, ⟨?_, List.nodup_nil⟩,
    .inr ?_⟩, ⟨List.nodup_nil, ?_⟩⟩
  all_goals
    intros
    contradiction

theorem start_inv {l : Launch} {s₀ : State} (henabled : σ.config.engine.repositoryEnabled)
    (hstart : start σ l = .ok s₀) :
    ∃ db, Inv σ s₀ db ∧ Delivered σ s₀ ∧ s₀.trace.routed = [] := by
  unfold start at hstart
  rw [if_pos henabled] at hstart
  split at hstart
  · cases hstart
  next recovered db _ =>
    cases hstart
    obtain ⟨hinv, hdel⟩ := inv_init (σ := σ) recovered l.packetId db
    exact ⟨db, hinv, hdel, rfl⟩

/-- In every run in which rows are completed when no emission of their
execution is waiting, a completed execution has all its emissions in the
repository, whatever the state in which the run stops; and in such a run a step
keeps this exactly when it meets the condition. -/
theorem completed_delivered (σ : Setup) (l : Launch) {s₀ s : State}
    (henabled : σ.config.engine.repositoryEnabled) (hstart : start σ l = .ok s₀)
    (h : (engine σ).Reach Quiet s₀ s) :
    Delivered σ s ∧ ∀ a t, step σ s a = some t → (Delivered σ t ↔ Quiet s a) := by
  have hinv : ∃ db, Inv σ s db ∧ Delivered σ s := by
    refine h.invariant (I := fun s => ∃ db, Inv σ s db ∧ Delivered σ s) ?_
      fun s a t hi hq hs => ?_
    · obtain ⟨db, hi, hd, _⟩ := start_inv henabled hstart
      exact ⟨db, hi, hd⟩
    · obtain ⟨db, hi, hd⟩ := hi
      obtain ⟨db', hi', _, hiff⟩ := step_delivered hi hs
      exact ⟨db', hi', (hiff hd).mpr hq⟩
  obtain ⟨db, hi, hd⟩ := hinv
  refine ⟨hd, fun a t hs => ?_⟩
  obtain ⟨_, _, _, hiff⟩ := step_delivered hi hs
  exact hiff hd

/-- `a` forwards its packet to `b`. -/
def pairSetup : Setup where
  config := pairFlow
  codec := exampleCodec
  execute := fun _ id packet => ⟨if id = "a" then [("success", packet)] else [], .ok ()⟩
  processorMode := fun _ => .asyncIo
  pool := fun _ => 1

def pairLaunch : Launch := exampleLaunch [exampleRow "q-1" "a"]

/-- The task of `q-1` has emitted and is joined after its emission was routed. -/
theorem completed_delivered_after_receive :
    ∃ s₀ s, start pairSetup pairLaunch = .ok s₀ ∧
      (engine pairSetup).exec s₀ [.head (grantedAt 21 []), .schedule (claimsAt 22), .check, .emit 0,
        .receive (grantedAt 23 ["q-2"]), .head (grantedAt 24 []), .schedule (claimsAt 25), .check,
        .join 0 26] = some s ∧
      (s.db.bind fun db => db.statusOf "q-1") = some .completed ∧
      (s.db.bind fun db => db.statusOf "q-2") = some .running ∧ Delivered pairSetup s := by
  refine ⟨_, _, rfl, rfl, by decide, by decide, (completed_delivered pairSetup pairLaunch rfl rfl ?_).1⟩
  refine .step (a := .join 0 26) (.of_exec [.head (grantedAt 21 []), .schedule (claimsAt 22),
    .check, .emit 0, .receive (grantedAt 23 ["q-2"]), .head (grantedAt 24 []),
    .schedule (claimsAt 25), .check] rfl (by simp [Quiet])) ?_ rfl
  intro t q _ _ _ e he
  cases he

/-- The task of `q-1` is joined while its emission is in the channel: the row is
`COMPLETED` and there is no row for `b`. -/
theorem completed_not_delivered :
    ∃ s₀ s, create .asStored pairFlow = .ok pairFlow ∧ start pairSetup pairLaunch = .ok s₀ ∧
      (engine pairSetup).exec s₀ [.head (grantedAt 21 []), .schedule (claimsAt 22), .check, .emit 0,
        .join 0 26] = some s ∧
      (s.db.bind fun db => db.statusOf "q-1") = some .completed ∧ ¬ Delivered pairSetup s := by
  refine ⟨_, _, rfl, rfl, rfl, by decide, fun h => ?_⟩
  obtain ⟨queueIds, _, hall⟩ := h.sent _ _ "q-1" rfl List.mem_cons_self rfl (by decide)
  cases (hall : List.Forall₂ _ [exampleConnection "a" "b"] queueIds) with
  | cons hhead _ => exact absurd hhead.1 List.not_mem_nil

end Jaiba.Engine
