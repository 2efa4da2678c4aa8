import Jaiba.Server.Versions

/-!
# Running flows and their engines

Whose engine is alive: every one is recorded in `running` or in the hands of the
call that stops or starts it, as long as no activation starts a flow while it is
being unloaded and a stop that fails finds its place still free.
-/

namespace Jaiba.Server
open Jaiba.Lib

/-- The condition on a step: only the operations of clients; no engine is started
for a flow that is being unloaded or has been put back meanwhile; and an unload
whose stop fails finds room for its entry beside the places granted to others. -/
def RuntimeSound (s : Registry) : Action → Prop
  | .call (.seedRunning ..) => False
  | .call _ | .finish _ => True
  | .advance i input => ∀ c, s.calls[i]? = some c →
    match c.stage, input.fault with
    | .start a _ none, none => Dict.get? s.running a.id = none ∧
        ∀ d ∈ s.calls, ∀ previous, d.stage ≠ .unloadStop a.id previous
    | .unloadStop id _, some _ => s.running.rows.length < s.maxConcurrent ∧
        ∀ d ∈ s.calls, ∀ other, d.stage.place = some other → other ≠ id →
          Dict.get? s.running other = none → s.running.rows.length + 1 < s.maxConcurrent
    | _, _ => True

/-- Who has what: the lock, the flows in hand, the engines and the places. -/
structure Owned (s : Registry) : Prop where
  locked : ∀ (j : ℕ) (c : Call), s.calls[j]? = some c → c.stage.activating = true →
    s.lock = some j
  apart : ∀ (j k : ℕ) (c d : Call) (id : String) (n m : Option ℕ), s.calls[j]? = some c →
    s.calls[k]? = some d → c.stage.holds = some (id, n) → d.stage.holds = some (id, m) → j = k
  absent : ∀ (j : ℕ) (c : Call) (id : String) (n : Option ℕ), s.calls[j]? = some c →
    c.stage.holds = some (id, n) → Dict.get? s.running id = none
  live : ∀ n id, (n, id) ∈ s.live →
    (∃ r, Dict.get? s.running id = some r ∧ r.supervisor = n) ∨
      ∃ (j : ℕ) (c : Call), s.calls[j]? = some c ∧ c.stage.holds = some (id, some n)
  fresh : ∀ e ∈ s.live, e.1 < s.supervisors
  distinct : (s.live.map Prod.fst).Nodup
  room : s.running.rows.length ≤ s.maxConcurrent
  places : ∀ (j : ℕ) (c : Call) (id : String), s.calls[j]? = some c → c.stage.place = some id →
    Dict.get? s.running id = none → s.running.rows.length < s.maxConcurrent
  unseeded : ∀ (j : ℕ) (c : Call), s.calls[j]? = some c → c.stage.seeding = false

section steps
variable {codec : Codec} {s t : Registry} {c d : Call} {i : ℕ} {input : Input} {id : String}

theorem Stage.activating_of_place {stage : Stage} {id : String} (h : stage.place = some id) :
    stage.activating = true := by
  cases stage <;> first | rfl | cases h

/-- A call that does not have the lock has no place. -/
theorem Owned.place_unique (h : Owned s) (hc : s.calls[i]? = some c)
    (ha : c.stage.activating = true) {j : ℕ} (hj : j ≠ i) {b : Call} (hb : s.calls[j]? = some b)
    (id : String) : b.stage.place ≠ some id := by
  intro hp
  have hlock := h.locked j b hb (Stage.activating_of_place hp)
  rw [h.locked i c hc ha] at hlock
  exact hj (Option.some.inj hlock).symm

/-- One call moves on; `touched` are the flows it has in hand before or after. -/
theorem Owned.move (h : Owned s) (touched : String → Prop) (hc : s.calls[i]? = some c)
    (hcalls : t.calls = s.calls.set i d)
    (hlock : ∀ j, j ≠ i → s.lock = some j → t.lock = some j)
    (hown : d.stage.activating = true → t.lock = some i)
    (hbefore : ∀ id n, c.stage.holds = some (id, n) → touched id)
    (hafter : ∀ id n, d.stage.holds = some (id, n) → touched id)
    (hsole : ∀ j b id n, j ≠ i → s.calls[j]? = some b → touched id →
      b.stage.holds ≠ some (id, n))
    (hrunning : ∀ id, ¬ touched id → Dict.get? t.running id = Dict.get? s.running id)
    (habsent : ∀ id n, d.stage.holds = some (id, n) → Dict.get? t.running id = none)
    (hothers : ∀ n id, (n, id) ∈ t.live → ¬ touched id → (n, id) ∈ s.live)
    (hlive : ∀ n id, (n, id) ∈ t.live → touched id →
      (∃ r, Dict.get? t.running id = some r ∧ r.supervisor = n) ∨
        d.stage.holds = some (id, some n))
    (hfresh : ∀ e ∈ t.live, e.1 < t.supervisors) (hdistinct : (t.live.map Prod.fst).Nodup)
    (hroom : t.running.rows.length ≤ t.maxConcurrent)
    (hplace : ∀ id, d.stage.place = some id → Dict.get? t.running id = none →
      t.running.rows.length < t.maxConcurrent)
    (hplaces : ∀ j b id, j ≠ i → s.calls[j]? = some b → b.stage.place = some id →
      Dict.get? t.running id = none → t.running.rows.length < t.maxConcurrent)
    (hseed : d.stage.seeding = false) : Owned t := by
  have hlt := (List.getElem?_eq_some_iff.mp hc).1
  have hself : t.calls[i]? = some d := by rw [hcalls, List.getElem?_set_self hlt]
  have hother : ∀ j, j ≠ i → t.calls[j]? = s.calls[j]? := fun j hj => by
    rw [hcalls, List.getElem?_set_ne (Ne.symm hj)]
  -- a call of the new state is the one that has moved or an old one
  have hcase : ∀ (j : ℕ) (b : Call), t.calls[j]? = some b →
      j = i ∧ b = d ∨ j ≠ i ∧ s.calls[j]? = some b := by
    intro j b hb
    by_cases hj : j = i
    · rw [hj, hself] at hb
      exact .inl ⟨hj, (Option.some.inj hb).symm⟩
    · exact .inr ⟨hj, hother j hj ▸ hb⟩
  refine ⟨fun j b hb ha => ?_, fun j k b e id n m hb he hn hm => ?_, fun j b id n hb hn => ?_,
    fun n id hmem => ?_, hfresh, hdistinct, hroom, fun j b id hb hp hnone => ?_, fun j b hb => ?_⟩
  · rcases hcase j b hb with ⟨rfl, rfl⟩ | ⟨hj, hb⟩
    · exact hown ha
    · exact hlock j hj (h.locked j b hb ha)
  · rcases hcase j b hb with ⟨rfl, rfl⟩ | ⟨hj, hb⟩
    · rcases hcase k e he with ⟨rfl, rfl⟩ | ⟨hk, he⟩
      · rfl
      · exact absurd hm (hsole k e id m hk he (hafter id n hn))
    · rcases hcase k e he with ⟨rfl, rfl⟩ | ⟨hk, he⟩
      · exact absurd hn (hsole j b id n hj hb (hafter id m hm))
      · exact h.apart j k b e id n m hb he hn hm
  · rcases hcase j b hb with ⟨rfl, rfl⟩ | ⟨hj, hb⟩
    · exact habsent id n hn
    · rw [hrunning id fun hid => hsole j b id n hj hb hid hn]
      exact h.absent j b id n hb hn
  · by_cases hid : touched id
    · rcases hlive n id hmem hid with hrec | hheld
      · exact .inl hrec
      · exact .inr ⟨i, d, hself, hheld⟩
    · rcases h.live n id (hothers n id hmem hid) with ⟨r, hr, hn⟩ | ⟨j, b, hb, hheld⟩
      · exact .inl ⟨r, by rw [hrunning id hid, hr], hn⟩
      · have hj : j ≠ i := by
          rintro rfl
          rw [hc] at hb
          cases hb
          exact hid (hbefore id _ hheld)
        exact .inr ⟨j, b, by rw [hother j hj, hb], hheld⟩
  · rcases hcase j b hb with ⟨rfl, rfl⟩ | ⟨hj, hb⟩
    · exact hplace id hp hnone
    · exact hplaces j b id hj hb hp hnone
  · rcases hcase j b hb with ⟨rfl, rfl⟩ | ⟨hj, hb⟩
    · exact hseed
    · exact h.unseeded j b hb

/-- A call that has nothing in hand moves on and changes no flow. -/
theorem Owned.pass (h : Owned s) (hc : s.calls[i]? = some c) (hcalls : t.calls = s.calls.set i d)
    (hlock : ∀ j, j ≠ i → s.lock = some j → t.lock = some j)
    (hown : d.stage.activating = true → t.lock = some i)
    (hrunning : t.running = s.running) (hlive : t.live = s.live)
    (hsupervisors : s.supervisors ≤ t.supervisors) (hmax : t.maxConcurrent = s.maxConcurrent)
    (hbefore : c.stage.holds = none) (hafter : d.stage.holds = none)
    (hplace : ∀ id, d.stage.place = some id → Dict.get? s.running id = none →
      s.running.rows.length < s.maxConcurrent)
    (hseed : d.stage.seeding = false) : Owned t := by
  refine h.move (fun _ => False) hc hcalls hlock hown (fun id n hn => ?_) (fun id n hn => ?_)
    (fun _ _ _ _ _ _ hfalse => hfalse.elim) (fun id _ => by rw [hrunning]) (fun id n hn => ?_)
    (fun n id hmem _ => hlive ▸ hmem) (fun _ _ _ hfalse => hfalse.elim) (fun e he => ?_)
    (hlive ▸ h.distinct) ?_ (fun id hid hnone => ?_) (fun j b id _ hb hid hnone => ?_) hseed
  · rw [hbefore] at hn
    cases hn
  · rw [hafter] at hn
    cases hn
  · rw [hafter] at hn
    cases hn
  · exact (h.fresh e (hlive ▸ he)).trans_le hsupervisors
  · rw [hrunning, hmax]
    exact h.room
  · rw [hrunning] at hnone ⊢
    rw [hmax]
    exact hplace id hid hnone
  · rw [hrunning] at hnone ⊢
    rw [hmax]
    exact h.places j b id hb hid hnone

theorem lockAfter_other {j : ℕ} {next : Stage} (hj : j ≠ i) (hlock : s.lock = some j) :
    s.lockAfter i next = some j := by
  unfold Registry.lockAfter
  split
  · rw [hlock, if_neg]
    intro heq
    exact hj (Option.some.inj heq)
  · exact hlock

theorem holds_of_not_engaged {stage : Stage} (h : stage.engaged = false) :
    stage.activating = false ∧ stage.holds = none ∧ stage.place = none ∧
      stage.seeding = false := by
  cases stage <;> first | exact ⟨rfl, rfl, rfl, rfl⟩ | cases h

/-- A stage outside of activations and unloads. -/
theorem Owned.aside (h : Owned s) (hc : s.calls[i]? = some c) (hcalls : t.calls = s.calls.set i d)
    (hst : s.Still i t d.stage) (hbefore : c.stage.engaged = false)
    (hafter : d.stage.engaged = false) : Owned t := by
  obtain ⟨hact, hholds, hplace, hseed⟩ := holds_of_not_engaged hafter
  refine h.pass hc hcalls (fun j hj hlock => by rw [hst.lock, lockAfter_other hj hlock])
    (fun ha => ?_) hst.running hst.live hst.supervisors.ge hst.maxConcurrent
    (holds_of_not_engaged hbefore).2.1 hholds (fun id hid => ?_) hseed
  · rw [hact] at ha
    cases ha
  · rw [hplace] at hid
    cases hid

theorem lockAfter_activating {next : Stage} (h : next.activating = true) :
    s.lockAfter i next = s.lock := by
  cases next <;> first | rfl | cases h

theorem Owned.check (h : Owned s) (hc : s.calls[i]? = some c)
    (hs : s.stepCheck i codec input c.stage = some t) : Owned t := by
  obtain ⟨next, hm, _, hk, _⟩ := Registry.stepCheck_cases hs
  have hcalls := hm.calls.trans (set_of_modify hc)
  have hplace : ∀ id, next.place = some id → Dict.get? s.running id = none →
      s.running.rows.length < s.maxConcurrent := by
    intro id hid hnone
    rcases hk.place id hid with hold | hroom
    · exact h.places i c id hc hold hnone
    · exact hroom hnone
  rcases hk.still with ⟨hact, hst⟩ | ⟨_, hfree, rfl⟩
  · refine h.pass hc hcalls (fun j hj hlock => by rw [hst.lock, lockAfter_other hj hlock])
      (fun ha => ?_) hst.running hst.live hst.supervisors.ge hst.maxConcurrent hk.holds.1
      hk.holds.2 hplace hk.unseeded
    rw [hst.lock, lockAfter_activating ha]
    exact h.locked i c hc hact
  · refine h.pass hc hcalls (fun j _ hlock => ?_) (fun _ => rfl) rfl rfl (Nat.le_refl _) rfl
      hk.holds.1 hk.holds.2 hplace hk.unseeded
    rw [hfree] at hlock
    cases hlock

/-! ### Steps on the running flows -/

/-- No other call has the flow of a call in hand. -/
theorem Owned.sole (h : Owned s) (hc : s.calls[i]? = some c) {n : Option ℕ}
    (hn : c.stage.holds = some (id, n)) (j : ℕ) (b : Call) (m : Option ℕ) (hj : j ≠ i)
    (hb : s.calls[j]? = some b) : b.stage.holds ≠ some (id, m) :=
  fun hm => hj (h.apart j i b c id m n hb hc hm hn)

/-- No call has a recorded flow in hand. -/
theorem Owned.recorded (h : Owned s) {r : RunningFlow} (hr : Dict.get? s.running id = some r)
    (j : ℕ) (b : Call) (m : Option ℕ) (hb : s.calls[j]? = some b) :
    b.stage.holds ≠ some (id, m) := by
  intro hm
  rw [h.absent j b id m hb hm] at hr
  cases hr

/-- The live engine of a flow in hand is the one in hand. -/
theorem Owned.live_held (h : Owned s) (hc : s.calls[i]? = some c) {n : Option ℕ}
    (hn : c.stage.holds = some (id, n)) {m : ℕ} (hm : (m, id) ∈ s.live) : n = some m := by
  rcases h.live m id hm with ⟨r, hr, _⟩ | ⟨j, b, hb, hheld⟩
  · rw [h.absent i c id n hc hn] at hr
    cases hr
  · have hj : j = i := h.apart j i b c id _ _ hb hc hheld hn
    subst hj
    rw [hb] at hc
    cases hc
    rw [hn] at hheld
    exact congrArg Prod.snd (Option.some.inj hheld)

/-- An entry is taken out of `running`. -/
theorem Owned.take (h : Owned s) (hc : s.calls[i]? = some c) (hbefore : c.stage.holds = none)
    {r : RunningFlow} (hr : Dict.get? s.running id = some r) {next : Stage}
    (hnext : next.holds = some (id, some r.supervisor)) (hseed : next.seeding = false)
    (hown : next.activating = true → s.lock = some i) :
    Owned ((s.unsetRunning id).goto i next) := by
  have hroom := h.room
  have hlt : (Dict.erase s.running id).rows.length < s.running.rows.length :=
    Dict.length_erase_lt hr
  refine h.move (d := { c with stage := next }) (· = id) hc (set_of_modify hc)
    (fun _ _ hlock => hlock) hown (fun id' n hn => ?_) (fun id' n hn => ?_)
    (fun j b id' n _ hb hid => ?_) (fun id' hid => ?_) (fun id' n hn => ?_)
    (fun _ _ hmem _ => hmem) (fun n id' hmem hid => ?_) h.fresh h.distinct
    (hlt.le.trans hroom) (fun _ _ _ => hlt.trans_le hroom) (fun _ _ _ _ _ _ _ => hlt.trans_le hroom)
    hseed
  · rw [hbefore] at hn
    cases hn
  · have heq := hnext.symm.trans hn
    simp only [Option.some.injEq, Prod.mk.injEq] at heq
    exact heq.1.symm
  · rw [hid]
    exact h.recorded hr j b n hb
  · simp only [Registry.goto, Registry.unsetRunning, Dict.get?_erase, hid, if_false]
  · have heq := hnext.symm.trans hn
    simp only [Option.some.injEq, Prod.mk.injEq] at heq
    simp only [Registry.goto, Registry.unsetRunning, ← heq.1, Dict.get?_erase_self]
  · subst hid
    refine .inr (hnext.trans ?_)
    rcases h.live n id' hmem with ⟨r', hr', hn⟩ | ⟨j, b, hb, hheld⟩
    · rw [hr] at hr'
      cases hr'
      rw [hn]
    · exact absurd hheld (h.recorded hr j b _ hb)

/-- The flow in hand goes into `running`. -/
theorem Owned.put (h : Owned s) (hc : s.calls[i]? = some c) {entry : RunningFlow}
    (hn : c.stage.holds = some (id, some entry.supervisor))
    (hcalls : t.calls = s.calls.set i d)
    (hlock : ∀ j, j ≠ i → s.lock = some j → t.lock = some j)
    (hown : d.stage.activating = true → t.lock = some i)
    (hrunning : t.running = Dict.insert s.running id entry) (hlive : t.live = s.live)
    (hsupervisors : t.supervisors = s.supervisors) (hmax : t.maxConcurrent = s.maxConcurrent)
    (hroom : s.running.rows.length < s.maxConcurrent)
    (hplaces : ∀ j b id', j ≠ i → s.calls[j]? = some b → b.stage.place = some id' → id' ≠ id →
      Dict.get? s.running id' = none → s.running.rows.length + 1 < s.maxConcurrent)
    (hholds : d.stage.holds = none) (hplace : d.stage.place = none)
    (hseed : d.stage.seeding = false) : Owned t := by
  have habsent := h.absent i c id _ hc hn
  have hlen : t.running.rows.length = s.running.rows.length + 1 := by
    rw [hrunning, Dict.length_insert_of_none habsent]
  refine h.move (· = id) hc hcalls hlock hown (fun id' n hn' => ?_) (fun id' n hn' => ?_)
    (fun j b id' n hj hb hid => ?_) (fun id' hid => ?_) (fun id' n hn' => ?_)
    (fun n id' hmem _ => hlive ▸ hmem) (fun n id' hmem hid => ?_) (fun e he => ?_)
    (hlive ▸ h.distinct) ?_ (fun id' hid => ?_) (fun j b id' hj hb hid hnone => ?_) hseed
  · have heq := hn.symm.trans hn'
    simp only [Option.some.injEq, Prod.mk.injEq] at heq
    exact heq.1.symm
  · rw [hholds] at hn'
    cases hn'
  · rw [hid]
    exact h.sole hc hn j b n hj hb
  · rw [hrunning, Dict.get?_insert, if_neg hid]
  · rw [hholds] at hn'
    cases hn'
  · subst hid
    have hsup := h.live_held hc hn (hlive ▸ hmem)
    exact .inl ⟨entry, by rw [hrunning, Dict.get?_insert_self], Option.some.inj hsup⟩
  · rw [hsupervisors]
    exact h.fresh e (hlive ▸ he)
  · rw [hlen, hmax]
    exact hroom
  · rw [hplace] at hid
    cases hid
  · rw [hrunning, Dict.get?_insert] at hnone
    split_ifs at hnone with hne
    rw [hlen, hmax]
    exact hplaces j b id' hj hb hid hne hnone

/-- The flow in hand stays there or is dropped with its engine. -/
theorem Owned.keep (h : Owned s) (hc : s.calls[i]? = some c) {n : Option ℕ}
    (hn : c.stage.holds = some (id, n)) (hcalls : t.calls = s.calls.set i d)
    (hlock : ∀ j, j ≠ i → s.lock = some j → t.lock = some j)
    (hown : d.stage.activating = true → t.lock = some i)
    (hrunning : t.running = s.running) (hlive : t.live.Sublist s.live)
    (hsupervisors : s.supervisors ≤ t.supervisors) (hmax : t.maxConcurrent = s.maxConcurrent)
    (hafter : ∀ id' m, d.stage.holds = some (id', m) → id' = id)
    (hgone : ∀ m, (m, id) ∉ t.live)
    (hplace : ∀ id', d.stage.place = some id' → c.stage.place = some id')
    (hseed : d.stage.seeding = false) : Owned t := by
  refine h.move (· = id) hc hcalls hlock hown (fun id' m hm => ?_) hafter
    (fun j b id' m hj hb hid => ?_) (fun id' _ => by rw [hrunning]) (fun id' m hm => ?_)
    (fun m id' hmem _ => hlive.subset hmem) (fun m id' hmem hid => ?_) (fun e he => ?_)
    (h.distinct.sublist (hlive.map _)) ?_ (fun id' hid hnone => ?_)
    (fun j b id' _ hb hid hnone => ?_) hseed
  · have heq := hn.symm.trans hm
    simp only [Option.some.injEq, Prod.mk.injEq] at heq
    exact heq.1.symm
  · rw [hid]
    exact h.sole hc hn j b m hj hb
  · rw [hrunning, hafter id' m hm]
    exact h.absent i c id n hc hn
  · rw [hid] at hmem
    exact absurd hmem (hgone m)
  · exact (h.fresh e (hlive.subset he)).trans_le hsupervisors
  · rw [hrunning, hmax]
    exact h.room
  · rw [hrunning] at hnone ⊢
    rw [hmax]
    exact h.places i c id' hc (hplace id' hid) hnone
  · rw [hrunning] at hnone ⊢
    rw [hmax]
    exact h.places j b id' hb hid hnone

/-- An engine is started for a flow that is in no other hands. -/
theorem Owned.spawn (h : Owned s) (hc : s.calls[i]? = some c)
    (hbefore : ∀ id' n, c.stage.holds = some (id', n) → id' = id ∧ n = none)
    (hsole : ∀ j b n, j ≠ i → s.calls[j]? = some b → b.stage.holds ≠ some (id, n))
    (hfree : Dict.get? s.running id = none) (hact : c.stage.activating = true) {next : Stage}
    (hnext : next.holds = some (id, some s.supervisors))
    (hplace : ∀ id', next.place = some id' → c.stage.place = some id')
    (hseed : next.seeding = false) : Owned ((s.spawn id).goto i next) := by
  have hlock := h.locked i c hc hact
  have hnone : ∀ n, (n, id) ∉ s.live := by
    intro n hmem
    rcases h.live n id hmem with ⟨r, hr, _⟩ | ⟨j, b, hb, hheld⟩
    · rw [hfree] at hr
      cases hr
    · by_cases hj : j = i
      · subst hj
        rw [hc] at hb
        cases hb
        cases (hbefore id _ hheld).2
      · exact hsole j b _ hj hb hheld
  refine h.move (d := { c with stage := next }) (· = id) hc (set_of_modify hc)
    (fun _ _ hlock => hlock) (fun _ => hlock) (fun id' n hn => (hbefore id' n hn).1)
    (fun id' n hn => ?_) (fun j b id' n hj hb hid => ?_) (fun _ _ => rfl) (fun id' n hn => ?_)
    (fun n id' hmem hid => ?_) (fun n id' hmem hid => ?_) (fun e he => ?_) ?_ h.room
    (fun id' hid hnone => h.places i c id' hc (hplace id' hid) hnone)
    (fun j b id' _ hb hid hnone => h.places j b id' hb hid hnone) hseed
  · have heq := hnext.symm.trans hn
    simp only [Option.some.injEq, Prod.mk.injEq] at heq
    exact heq.1.symm
  · rw [hid]
    exact hsole j b n hj hb
  · have heq := hnext.symm.trans hn
    simp only [Option.some.injEq, Prod.mk.injEq] at heq
    rw [← heq.1]
    exact hfree
  · rcases List.mem_append.mp hmem with hmem | hmem
    · exact hmem
    · cases List.mem_singleton.mp hmem
      exact absurd rfl hid
  · rcases List.mem_append.mp hmem with hmem | hmem
    · rw [hid] at hmem
      exact absurd hmem (hnone n)
    · cases List.mem_singleton.mp hmem
      exact .inr hnext
  · rcases List.mem_append.mp he with he | he
    · exact (h.fresh e he).trans (Nat.lt_succ_self _)
    · cases List.mem_singleton.mp he
      exact Nat.lt_succ_self _
  · have hlive : ((s.spawn id).goto i next).live = s.live ++ [(s.supervisors, id)] := rfl
    rw [hlive, List.map_append, List.map_cons, List.map_nil]
    refine List.nodup_append.mpr ⟨h.distinct, List.nodup_singleton _, ?_⟩
    rintro n hn m hm rfl
    obtain ⟨e, he, rfl⟩ := List.mem_map.mp hn
    exact (h.fresh e he).ne (List.mem_singleton.mp hm)

theorem finish_lock {j : ℕ} (hj : j ≠ i) (hlock : s.lock = some j) :
    (if s.lock = some i then none else s.lock) = some j := by
  rw [hlock, if_neg]
  intro heq
  exact hj (Option.some.inj heq)

theorem Stage.holds_cases {stage : Stage} {n : Option ℕ} (h : stage.holds = some (id, n)) :
    stage.activating = true ∨ ∃ previous, stage = .unloadStop id previous := by
  cases stage <;> first | exact .inl rfl | cases h
  exact .inr ⟨_, rfl⟩

theorem not_mem_kill {n : ℕ} (h : Owned s) (hc : s.calls[i]? = some c)
    (hn : c.stage.holds = some (id, some n)) (m : ℕ) : (m, id) ∉ (s.kill n).live := by
  intro hmem
  obtain ⟨hlive, hne⟩ := List.mem_filter.mp hmem
  have heq := Option.some.inj (h.live_held hc hn hlive)
  simp [heq] at hne

theorem Owned.runtime (h : Owned s) (hc : s.calls[i]? = some c)
    (hok : RuntimeSound s (.advance i input))
    (hs : s.stepRuntime i codec input c.stage = some t) : Owned t := by
  obtain ⟨stage, wrote⟩ := c
  have hcond := hok _ hc
  have hlock : stage.activating = true → s.lock = some i := h.locked i _ hc
  have hroom : ∀ id n, stage.holds = some (id, n) → stage.place = some id →
      s.running.rows.length < s.maxConcurrent := fun id n hn hp =>
    h.places i _ id hc hp (h.absent i _ id n hc hn)
  have hplaces : stage.activating = true → ∀ j b id' (id : String), j ≠ i → s.calls[j]? = some b →
      b.stage.place = some id' → id' ≠ id → Dict.get? s.running id' = none →
      s.running.rows.length + 1 < s.maxConcurrent := fun ha j b id' _ hj hb hp _ _ =>
    absurd hp (h.place_unique hc ha hj hb id')
  cases stage with
  | drain a source =>
    simp only [Registry.stepRuntime] at hs
    split at hs
    next previous hr =>
      cases hs
      exact h.take hc rfl hr rfl rfl hlock
    next hr =>
      split_ifs at hs with hstart <;> cases hs
      · refine h.pass (d := ⟨.start a source none, wrote⟩) hc (set_of_modify hc)
          (fun _ _ hj => hj) hlock rfl rfl (Nat.le_refl _) rfl rfl rfl (fun id hid hnone => ?_) rfl
        refine h.places i _ id hc ?_ hnone
        simpa only [Stage.place, hstart, if_true] using hid
      · exact h.pass (d := ⟨.record a s.supervisors, wrote⟩) hc (set_of_modify hc)
          (fun _ _ hj => hj) hlock rfl rfl (Nat.le_succ _) rfl rfl rfl
          (fun id hid => (by cases hid)) rfl
  | stop a source previous =>
    simp only [Registry.stepRuntime] at hs
    split at hs
    next e he =>
      cases hs
      exact h.put (d := ⟨.done (.error (.internal e)), wrote⟩) hc rfl (set_of_modify hc)
        (fun j hj hl => finish_lock hj hl) (fun ha => (by cases ha)) rfl rfl rfl rfl
        (hroom a.id _ rfl rfl) (fun j b id' => hplaces rfl j b id' a.id) rfl rfl rfl
    next he =>
      have hgone := not_mem_kill h hc rfl
      split_ifs at hs <;> cases hs
      · refine h.keep (d := ⟨.start a source (some previous), wrote⟩) hc rfl (set_of_modify hc)
          (fun _ _ hj => hj) hlock rfl List.filter_sublist (Nat.le_refl _) rfl (fun id' m hm => ?_)
          hgone (fun id' hid => hid) rfl
        cases hm
        rfl
      · exact h.keep (d := ⟨.record a s.supervisors, wrote⟩) hc rfl (set_of_modify hc)
          (fun _ _ hj => hj) hlock rfl List.filter_sublist (Nat.le_succ _) rfl
          (fun id' m hm => (by cases hm)) hgone (fun id' hid => (by cases hid)) rfl
  | start a source before =>
    cases hfault : input.fault with
    | some e =>
      cases before with
      | none =>
        simp only [Registry.stepRuntime, hfault] at hs
        cases hs
        exact h.pass (d := ⟨.done (.error (.internal e)), wrote⟩) hc (set_of_modify hc)
          (fun j hj hl => finish_lock hj hl) (fun ha => (by cases ha)) rfl rfl (Nat.le_refl _) rfl
          rfl rfl (fun id hid => (by cases hid)) rfl
      | some previous =>
        simp only [Registry.stepRuntime, hfault] at hs
        cases hs
        refine h.keep (d := ⟨.restore a previous e, wrote⟩) hc rfl (set_of_modify hc)
          (fun _ _ hj => hj) hlock rfl (List.Sublist.refl _) (Nat.le_refl _) rfl
          (fun id' m hm => ?_) (fun m hm => ?_) (fun id' hid => hid) rfl
        · cases hm
          rfl
        · have hnone := h.live_held hc rfl hm
          cases hnone
    | none =>
      simp only [Registry.stepRuntime, hfault] at hs
      cases hs
      cases before with
      | none =>
        rw [hfault] at hcond
        obtain ⟨hfree, hunload⟩ := hcond
        refine h.spawn hc (fun id' n hn => (by cases hn)) (fun j b n hj hb hn => ?_) hfree rfl rfl
          (fun id' hid => hid) rfl
        rcases Stage.holds_cases hn with ha | ⟨previous, hstage⟩
        · have hlj := h.locked j b hb ha
          rw [hlock rfl] at hlj
          exact hj (Option.some.inj hlj).symm
        · exact hunload b (List.mem_of_getElem? hb) previous hstage
      | some previous =>
        refine h.spawn hc (fun id' n hn => ?_) (h.sole hc rfl) (h.absent i _ a.id none hc rfl) rfl
          rfl (fun id' hid => hid) rfl
        cases hn
        exact ⟨rfl, rfl⟩
  | restore a previous error =>
    have hnone : ∀ m, (m, a.id) ∉ s.live := by
      intro m hm
      have hheld := h.live_held hc rfl hm
      cases hheld
    simp only [Registry.stepRuntime] at hs
    split at hs <;> cases hs
    · refine h.keep (d := ⟨.reinsert a previous error, wrote⟩) hc rfl (set_of_modify hc)
        (fun _ _ hj => hj) hlock rfl (List.Sublist.refl _) (Nat.le_refl _) rfl (fun id' m hm => ?_)
        hnone (fun id' hid => hid) rfl
      cases hm
      rfl
    · refine h.keep (d := ⟨.reinsert a { previous with supervisor := s.supervisors } error, wrote⟩)
        hc rfl (set_of_modify hc) (fun _ _ hj => hj) hlock rfl (List.Sublist.refl _)
        (Nat.le_succ _) rfl (fun id' m hm => ?_) hnone (fun id' hid => hid) rfl
      cases hm
      rfl
    · refine h.spawn hc (fun id' n hn => ?_) (h.sole hc rfl) (h.absent i _ a.id none hc rfl) rfl
        rfl (fun id' hid => hid) rfl
      cases hn
      exact ⟨rfl, rfl⟩
  | reinsert a previous error =>
    cases hs
    exact h.put (d := ⟨.done (.error (.internal error)), wrote⟩) hc rfl (set_of_modify hc)
      (fun j hj hl => finish_lock hj hl) (fun ha => (by cases ha)) rfl rfl rfl rfl
      (hroom a.id _ rfl rfl) (fun j b id' => hplaces rfl j b id' a.id) rfl rfl rfl
  | insert a source supervisor =>
    cases hs
    exact h.put (d := ⟨.record a supervisor, wrote⟩) hc rfl (set_of_modify hc)
      (fun _ _ hj => hj) hlock rfl rfl rfl rfl (hroom a.id _ rfl rfl)
      (fun j b id' => hplaces rfl j b id' a.id) rfl rfl rfl
  | record a supervisor =>
    simp only [Registry.stepRuntime] at hs
    split at hs <;> cases hs
    · exact h.pass (d := ⟨.done _, wrote⟩) hc (set_of_modify hc)
        (fun j hj hl => finish_lock hj hl) (fun ha => (by cases ha)) rfl rfl (Nat.le_refl _) rfl rfl
        rfl (fun id hid => (by cases hid)) rfl
    · exact h.pass (d := ⟨.persist (.deployed supervisor), _⟩) hc (set_of_modify hc)
        (fun _ _ hj => hj) (fun ha => (by cases ha)) rfl rfl (Nat.le_refl _) rfl rfl
        rfl (fun id hid => (by cases hid)) rfl
  | unload id =>
    simp only [Registry.stepRuntime] at hs
    split at hs
    next hr =>
      cases hs
      exact h.pass (d := ⟨.done _, wrote⟩) hc (set_of_modify hc)
        (fun j hj hl => finish_lock hj hl) (fun ha => (by cases ha)) rfl rfl (Nat.le_refl _) rfl rfl
        rfl (fun id hid => (by cases hid)) rfl
    next previous hr =>
      cases hs
      exact h.take hc rfl hr rfl rfl (fun ha => (by cases ha))
  | unloadStop id previous =>
    simp only [Registry.stepRuntime] at hs
    split at hs
    next e he =>
      rw [he] at hcond
      obtain ⟨hroom, hothers⟩ := hcond
      cases hs
      exact h.put (d := ⟨.done (.error (.internal e)), wrote⟩) hc rfl (set_of_modify hc)
        (fun j hj hl => finish_lock hj hl) (fun ha => (by cases ha)) rfl rfl rfl rfl hroom
        (fun j b id' _ hb hp hne hnone => hothers b (List.mem_of_getElem? hb) id' hp hne hnone)
        rfl rfl rfl
    next he =>
      have hgone := not_mem_kill h hc rfl
      cases hs
      exact h.keep (d := ⟨.done _, wrote⟩) hc rfl (set_of_modify hc)
        (fun j hj hl => finish_lock hj hl) (fun ha => (by cases ha)) rfl List.filter_sublist
        (Nat.le_refl _) rfl (fun id' m hm => (by cases hm)) hgone (fun id' hid => (by cases hid)) rfl
  | _ => cases hs

theorem Writes.not_engaged {r : FlowRecord} {stage next : Stage}
    (h : Writes codec s input stage id r next) (hseed : stage.seeding = false) :
    next.engaged = false ∧ stage.holds = none := by
  cases h <;> first | exact ⟨rfl, rfl⟩ | cases hseed

/-- A call joins, at a stage where it has nothing. -/
theorem Owned.join (h : Owned s) (hcalls : t.calls = s.calls ++ [c]) (hlock : t.lock = s.lock)
    (hrunning : t.running = s.running) (hlive : t.live = s.live)
    (hsupervisors : t.supervisors = s.supervisors) (hmax : t.maxConcurrent = s.maxConcurrent)
    (hstage : c.stage.engaged = false ∨ ∃ id, c.stage = .unload id) : Owned t := by
  have hnone : c.stage.activating = false ∧ c.stage.holds = none ∧ c.stage.place = none ∧
      c.stage.seeding = false := by
    rcases hstage with hstage | ⟨id, hstage⟩
    · exact holds_of_not_engaged hstage
    · rw [hstage]
      exact ⟨rfl, rfl, rfl, rfl⟩
  obtain ⟨hact, hholds, hplace, hseed⟩ := hnone
  have hold : ∀ (j : ℕ) (b : Call), t.calls[j]? = some b → s.calls[j]? = some b ∨ b = c := by
    intro j b hb
    rw [hcalls, List.getElem?_append] at hb
    split_ifs at hb with hlt
    · exact .inl hb
    · exact .inr (List.mem_singleton.mp (List.mem_of_getElem? hb))
  refine ⟨fun j b hb ha => ?_, fun j k b e id n m hb he hn hm => ?_, fun j b id n hb hn => ?_,
    fun n id hmem => ?_, hlive ▸ hsupervisors ▸ h.fresh, hlive ▸ h.distinct,
    hrunning ▸ hmax ▸ h.room, fun j b id hb hp => ?_, fun j b hb => ?_⟩
  · rcases hold j b hb with hb | rfl
    · exact hlock ▸ h.locked j b hb ha
    · rw [hact] at ha
      cases ha
  · rcases hold j b hb with hb | rfl
    · rcases hold k e he with he | rfl
      · exact h.apart j k b e id n m hb he hn hm
      · rw [hholds] at hm
        cases hm
    · rw [hholds] at hn
      cases hn
  · rcases hold j b hb with hb | rfl
    · exact hrunning ▸ h.absent j b id n hb hn
    · rw [hholds] at hn
      cases hn
  · rcases h.live n id (hlive ▸ hmem) with hrec | ⟨j, b, hb, hheld⟩
    · exact .inl (hrunning ▸ hrec)
    · refine .inr ⟨j, b, ?_, hheld⟩
      rw [hcalls, List.getElem?_append_left (List.getElem?_eq_some_iff.mp hb).1, hb]
  · rcases hold j b hb with hb | rfl
    · rw [hrunning, hmax]
      exact h.places j b id hb hp
    · rw [hplace] at hp
      cases hp
  · rcases hold j b hb with hb | rfl
    · exact h.unseeded j b hb
    · exact hseed

theorem Owned.kill (h : Owned s) (supervisor : ℕ) : Owned (s.kill supervisor) where
  locked := h.locked
  apart := h.apart
  absent := h.absent
  live := fun n id hmem => h.live n id (List.mem_filter.mp hmem).1
  fresh := fun e he => h.fresh e (List.mem_filter.mp he).1
  distinct := h.distinct.sublist (List.filter_sublist.map _)
  room := h.room
  places := h.places
  unseeded := h.unseeded

theorem step_owned {a : Action} (h : Owned s) (hok : RuntimeSound s a)
    (hs : step codec s a = some t) : Owned t := by
  cases a with
  | call request =>
    cases Option.some.inj hs
    cases request with
    | seedRunning id source => cases hok
    | stopAndUnload id => exact h.join rfl rfl rfl rfl rfl rfl (.inr ⟨id, rfl⟩)
    | _ => exact h.join rfl rfl rfl rfl rfl rfl (.inl rfl)
  | finish supervisor =>
    cases Option.some.inj hs
    exact h.kill supervisor
  | advance i input =>
    obtain ⟨c, hc, hadv⟩ := Option.bind_eq_some_iff.mp hs
    have hseed := h.unseeded i c hc
    rcases Registry.advance_cases hadv with hr | hr | hr | hr
    · have hstage := Registry.not_engaged_of_stepRecords hr hseed
      rcases Registry.stepRecords_cases hr with ⟨next, hm, _, hn, hst, _⟩ | ⟨id, r, next, hw, rfl⟩
      · exact h.aside (d := { c with stage := next }) hc (hm.calls.trans (set_of_modify hc))
          (hst hseed) hstage hn
      · obtain ⟨hact, hholds, hplace, hnext⟩ := holds_of_not_engaged (hw.not_engaged hseed).1
        refine h.pass (d := ⟨next, some (s.revision + 1)⟩) hc (set_of_modify hc) (fun _ _ hj => hj)
          (fun ha => ?_) rfl rfl (Nat.le_refl _) rfl (hw.not_engaged hseed).2 hholds
          (fun id' hid => ?_) hnext
        · rw [hact] at ha
          cases ha
        · rw [hplace] at hid
          cases hid
    · exact h.check hc hr
    · exact h.runtime hc hok hr
    · obtain ⟨next, hm, hst, hn, hstage, _⟩ := Registry.stepPersist_cases hr
      exact h.aside (d := { c with stage := next }) hc (hm.calls.trans (set_of_modify hc)) hst
        hstage hn.1

theorem create_owned (persistent : Bool) (maxConcurrent : ℕ) :
    Owned (.create persistent maxConcurrent) := by
  refine ⟨?_, ?_, ?_, ?_, ?_, List.nodup_nil, Nat.zero_le _, ?_, ?_⟩
  · intro j c hc
    cases hc
  · intro j k c d id n m hc
    cases hc
  · intro j c id n hc
    cases hc
  · intro n id hmem
    cases hmem
  · intro e he
    cases he
  · intro j c id hc
    cases hc
  · intro j c hc
    cases hc

/-! ### Activations that fail -/

/-- The records are written once, at the end of the early stages. -/
theorem step_unwritten {a : Action}
    (h : ∀ c ∈ s.calls, c.stage.early = true → c.wrote = none)
    (hs : step codec s a = some t) : ∀ c ∈ t.calls, c.stage.early = true → c.wrote = none := by
  cases a with
  | call request =>
    cases Option.some.inj hs
    have hnew : ∀ c : Call, c.wrote = none → ∀ b ∈ s.calls ++ [c], b.stage.early = true →
        b.wrote = none := by
      intro c hc b hb
      rcases List.mem_append.mp hb with hb | hb
      · exact h b hb
      · rw [List.mem_singleton.mp hb]
        exact fun _ => hc
    cases request <;> exact hnew _ rfl
  | finish supervisor =>
    cases Option.some.inj hs
    exact h
  | advance i input =>
    obtain ⟨c, hc, hadv⟩ := Option.bind_eq_some_iff.mp hs
    intro b hb hearly
    rcases Registry.advance_spec hadv with ⟨next, hm, _, hl, _⟩ | ⟨id, r, next, hw, rfl⟩ | hp
    · rw [hm.calls] at hb
      rcases mem_modify hb with hb | ⟨d, hd, rfl⟩
      · exact h b hb hearly
      · rw [hc] at hd
        cases hd
        rcases hl with ⟨hl, _⟩ | ⟨_, rfl⟩
        · exact h c (List.mem_of_getElem? hc) hl
        · cases hearly
    · rcases mem_modify hb with hb | ⟨d, _, rfl⟩
      · exact h b hb hearly
      · rw [Stage.early, hw.late] at hearly
        cases hearly
    · obtain ⟨next, hm, _, hn, _⟩ := Registry.stepPersist_cases hp
      rw [hm.calls] at hb
      rcases mem_modify hb with hb | ⟨d, _, rfl⟩
      · exact h b hb hearly
      · rw [hn.2] at hearly
        cases hearly

/-- The call has returned an error. -/
def Failed (t : Registry) (i : ℕ) : Prop :=
  ∃ e, (t.calls[i]?).map Call.stage = some (.done (.error e))

theorem not_failed {next : Stage} (hc : s.calls[i]? = some c)
    (hcalls : t.calls = s.calls.modify i fun c => { c with stage := next })
    (hnext : next.isDone = false) : ¬ Failed t i := by
  rintro ⟨e, he⟩
  have hlt := (List.getElem?_eq_some_iff.mp hc).1
  rw [hcalls, set_of_modify hc, List.getElem?_set_self hlt] at he
  cases Option.some.inj he
  cases hnext

theorem seeding_of_activating {stage : Stage} (h : stage.activating = true) :
    stage.seeding = false := by
  cases stage <;> first | rfl | cases h

theorem early_of_activating {stage : Stage} (h : stage.activating = true) :
    stage.early = true := by
  cases stage <;> first | rfl | cases h

/-- A step after which a call has failed does not write the records. -/
theorem fails_records (hc : s.calls[i]? = some c) (hs : step codec s (.advance i input) = some t)
    (hfail : Failed t i) : t.records = s.records := by
  obtain ⟨c', hc', hadv⟩ := Option.bind_eq_some_iff.mp hs
  rw [hc] at hc'
  cases hc'
  rcases Registry.advance_moves hadv with ⟨_, hm, _⟩ | ⟨id, r, next, hw, rfl⟩
  · exact hm.records
  · obtain ⟨e, he⟩ := hfail
    have hlt := (List.getElem?_eq_some_iff.mp hc).1
    rw [Registry.write, set_of_modify hc, List.getElem?_set_self hlt] at he
    have hnext : next = .done (.error e) := Option.some.inj he
    have hlate := hw.late
    rw [hnext] at hlate
    cases hlate

/-- An activation that fails before it has taken a flow changes none. -/
theorem fails_before (hfound : Found s.records c.stage) (hc : s.calls[i]? = some c)
    (hact : c.stage.activating = true) (hholds : c.stage.holds = none)
    (hs : step codec s (.advance i input) = some t) (hfail : Failed t i) :
    t.running = s.running := by
  obtain ⟨c', hc', hadv⟩ := Option.bind_eq_some_iff.mp hs
  rw [hc] at hc'
  cases hc'
  rcases Registry.advance_cases hadv with hr | hr | hr | hr
  · have hstage := Registry.not_engaged_of_stepRecords hr (seeding_of_activating hact)
    rw [(holds_of_not_engaged hstage).1] at hact
    cases hact
  · obtain ⟨next, hm, _, hk, _⟩ := Registry.stepCheck_cases hr
    rcases hk.still with ⟨_, hst⟩ | ⟨_, _, rfl⟩
    · exact hst.running
    · rfl
  · obtain ⟨stage, wrote⟩ := c
    cases stage with
    | drain a source =>
      simp only [Registry.stepRuntime] at hr
      split at hr
      · cases hr
        exact absurd hfail (not_failed hc rfl rfl)
      · split_ifs at hr <;> cases hr
        · exact absurd hfail (not_failed hc rfl rfl)
        · exact absurd hfail (not_failed hc rfl rfl)
    | start a source before =>
      cases before with
      | some previous => cases hholds
      | none =>
        cases hfault : input.fault with
        | some e =>
          simp only [Registry.stepRuntime, hfault] at hr
          cases hr
          rfl
        | none =>
          simp only [Registry.stepRuntime, hfault] at hr
          cases hr
          exact absurd hfail (not_failed hc rfl rfl)
    | record a supervisor =>
      obtain ⟨r, hget, _⟩ := hfound _ rfl
      simp only [Registry.stepRuntime, hget] at hr
      cases hr
      obtain ⟨e, he⟩ := hfail
      have hlt := (List.getElem?_eq_some_iff.mp hc).1
      simp only [Registry.write, set_of_modify hc, List.getElem?_set_self hlt] at he
      cases he
    | stop | restore | reinsert | insert => cases hholds
    | unload | unloadStop => cases hact
    | _ => cases hr
  · obtain ⟨next, hm, hst, hn, hstage, _⟩ := Registry.stepPersist_cases hr
    rw [(holds_of_not_engaged hstage).1] at hact
    cases hact

/-- The two entries run the same version. -/
def RunningFlow.Same (p q : RunningFlow) : Prop := p.version = q.version ∧ p.source = q.source

/-- The activation has taken the entry `q` of a flow and can still put it back,
or it is past that. -/
def Taken (id : String) (q : RunningFlow) : Stage → Prop
  | .stop a _ p | .start a _ (some p) | .restore a p _ | .reinsert a p _ => a.id = id ∧ p.Same q
  | .insert .. | .record .. => True
  | stage => stage.early = false

variable {q : RunningFlow}

theorem taken_of_not_early {stage : Stage} (h : stage.early = false) : Taken id q stage := by
  cases stage <;> first | exact h | cases h

/-- One stage of the call that has taken the entry. -/
theorem Taken.advance (h : Taken id q c.stage) (hc : s.calls[i]? = some c)
    (hs : s.advance i codec input c.stage = some t) :
    ∃ d, t.calls[i]? = some d ∧ Taken id q d.stage := by
  have hlt := (List.getElem?_eq_some_iff.mp hc).1
  have hat : ∀ f : Call → Call, t.calls = s.calls.modify i f → Taken id q (f c).stage →
      ∃ d, t.calls[i]? = some d ∧ Taken id q d.stage := by
    intro f hcalls hnext
    exact ⟨f c, by rw [hcalls, set_of_modify hc, List.getElem?_set_self hlt], hnext⟩
  by_cases hearly : c.stage.early = true
  · rcases Registry.advance_cases hs with hr | hr | hr | hr
    · obtain ⟨stage, wrote⟩ := c
      cases stage with
      | stop | start | restore | reinsert | insert | record => cases hr
      | _ => exact absurd hearly (by rw [h]; exact Bool.false_ne_true)
    · obtain ⟨stage, wrote⟩ := c
      cases stage with
      | stop | start | restore | reinsert | insert | record => cases hr
      | _ => exact absurd hearly (by rw [h]; exact Bool.false_ne_true)
    · obtain ⟨stage, wrote⟩ := c
      cases stage with
      | stop a source p =>
        simp only [Registry.stepRuntime] at hr
        split at hr
        · cases hr
          exact hat _ rfl rfl
        · split_ifs at hr <;> cases hr
          · exact hat _ rfl h
          · exact hat _ rfl trivial
      | start a source before =>
        cases before with
        | none => cases h
        | some p =>
          cases hfault : input.fault with
          | some e =>
            simp only [Registry.stepRuntime, hfault] at hr
            cases hr
            exact hat _ rfl h
          | none =>
            simp only [Registry.stepRuntime, hfault] at hr
            cases hr
            exact hat _ rfl trivial
      | restore a p error =>
        simp only [Registry.stepRuntime] at hr
        split at hr <;> cases hr
        · exact hat _ rfl h
        · exact hat _ rfl h
        · exact hat _ rfl h
      | reinsert a p error =>
        cases hr
        exact hat _ rfl rfl
      | insert a source supervisor =>
        cases hr
        exact hat _ rfl trivial
      | record a supervisor =>
        simp only [Registry.stepRuntime] at hr
        split at hr <;> cases hr
        · exact hat _ rfl rfl
        · exact hat _ rfl rfl
      | _ => exact absurd hearly (by rw [h]; exact Bool.false_ne_true)
    · obtain ⟨_, _, _, _, _, hnot⟩ := Registry.stepPersist_cases hr
      rw [hnot] at hearly
      cases hearly
  · rcases Registry.advance_spec hs with ⟨next, hm, _, hl, _⟩ | ⟨id', r, next, hw, rfl⟩ | hp
    · rcases hl with ⟨hl, _⟩ | ⟨_, rfl⟩
      · exact absurd hl hearly
      · exact hat _ hm.calls rfl
    · exact absurd hw.early hearly
    · obtain ⟨next, hm, _, hn, _⟩ := Registry.stepPersist_cases hp
      exact hat _ hm.calls (taken_of_not_early hn.2)

theorem step_taken {a : Action} (h : ∃ c, s.calls[i]? = some c ∧ Taken id q c.stage)
    (hs : step codec s a = some t) : ∃ d, t.calls[i]? = some d ∧ Taken id q d.stage := by
  obtain ⟨c, hc, htaken⟩ := h
  cases a with
  | call request =>
    cases Option.some.inj hs
    refine ⟨c, ?_, htaken⟩
    have hlt := (List.getElem?_eq_some_iff.mp hc).1
    cases request <;> exact (List.getElem?_append_left hlt).trans hc
  | finish supervisor =>
    cases Option.some.inj hs
    exact ⟨c, hc, htaken⟩
  | advance j input =>
    obtain ⟨b, hb, hadv⟩ := Option.bind_eq_some_iff.mp hs
    by_cases hj : j = i
    · subst hj
      rw [hc] at hb
      cases hb
      exact htaken.advance hc hadv
    · refine ⟨c, ?_, htaken⟩
      rcases Registry.advance_moves hadv with ⟨next, hm, _⟩ | ⟨id', r, next, _, rfl⟩
      · rw [hm.calls, List.getElem?_modify, hc]
        exact congrArg some (if_neg hj)
      · rw [Registry.write, List.getElem?_modify, hc]
        exact congrArg some (if_neg hj)

/-- An activation that fails after it has taken an entry puts the same version back. -/
theorem fails_after (hfound : Found s.records c.stage) (hc : s.calls[i]? = some c)
    (hact : c.stage.activating = true) (htaken : Taken id q c.stage)
    (hs : step codec s (.advance i input) = some t) (hfail : Failed t i) :
    ∃ r, Dict.get? t.running id = some r ∧ r.Same q := by
  obtain ⟨c', hc', hadv⟩ := Option.bind_eq_some_iff.mp hs
  rw [hc] at hc'
  cases hc'
  obtain ⟨stage, wrote⟩ := c
  have hr : s.stepRuntime i codec input stage = some t := by
    rcases Registry.advance_cases hadv with hr | hr | hr | hr
    · have hstage := Registry.not_engaged_of_stepRecords hr (seeding_of_activating hact)
      rw [(holds_of_not_engaged hstage).1] at hact
      cases hact
    · cases stage with
      | stop | start | restore | reinsert | insert | record => cases hr
      | _ => exact absurd (early_of_activating hact) (by rw [htaken]; exact Bool.false_ne_true)
    · exact hr
    · obtain ⟨_, _, _, _, hstage, _⟩ := Registry.stepPersist_cases hr
      rw [(holds_of_not_engaged hstage).1] at hact
      cases hact
  cases stage with
  | stop a source p =>
    obtain ⟨rfl, hsame⟩ := htaken
    simp only [Registry.stepRuntime] at hr
    split at hr
    · cases hr
      exact ⟨p, Dict.get?_insert_self _ _ _, hsame⟩
    · split_ifs at hr <;> cases hr
      · exact absurd hfail (not_failed hc rfl rfl)
      · exact absurd hfail (not_failed hc rfl rfl)
  | start a source before =>
    cases before with
    | none => cases htaken
    | some p =>
      cases hfault : input.fault with
      | some e =>
        simp only [Registry.stepRuntime, hfault] at hr
        cases hr
        exact absurd hfail (not_failed hc rfl rfl)
      | none =>
        simp only [Registry.stepRuntime, hfault] at hr
        cases hr
        exact absurd hfail (not_failed hc rfl rfl)
  | restore a p error =>
    simp only [Registry.stepRuntime] at hr
    split at hr <;> cases hr
    · exact absurd hfail (not_failed hc rfl rfl)
    · exact absurd hfail (not_failed hc rfl rfl)
    · exact absurd hfail (not_failed hc rfl rfl)
  | reinsert a p error =>
    obtain ⟨rfl, hsame⟩ := htaken
    cases hr
    exact ⟨p, Dict.get?_insert_self _ _ _, hsame⟩
  | insert a source supervisor =>
    cases hr
    exact absurd hfail (not_failed hc rfl rfl)
  | record a supervisor =>
    obtain ⟨r, hget, _⟩ := hfound _ rfl
    simp only [Registry.stepRuntime, hget] at hr
    cases hr
    obtain ⟨e, he⟩ := hfail
    have hlt := (List.getElem?_eq_some_iff.mp hc).1
    simp only [Registry.write, set_of_modify hc, List.getElem?_set_self hlt] at he
    cases he
  | unload | unloadStop => cases hact
  | drain => exact absurd (early_of_activating hact) (by rw [htaken]; exact Bool.false_ne_true)
  | _ => cases hr

theorem Owned.agree (h : Owned s) {n m : ℕ} (hn : (n, id) ∈ s.live) (hm : (m, id) ∈ s.live) :
    n = m := by
  rcases h.live n id hn with ⟨r, hr, hrn⟩ | ⟨j, b, hb, hheld⟩
  · rcases h.live m id hm with ⟨r', hr', hrm⟩ | ⟨k, e, he, hheld⟩
    · rw [hr] at hr'
      cases hr'
      exact hrn.symm.trans hrm
    · exact absurd hheld (h.recorded hr k e _ he)
  · exact Option.some.inj (h.live_held hb hheld hm)

theorem Owned.single (h : Owned s) : (s.live.map Prod.snd).Nodup := by
  refine List.Nodup.map_on ?_ h.distinct.of_map
  rintro ⟨n, id⟩ hn ⟨m, id'⟩ hm heq
  cases heq
  rw [h.agree hn hm]

end steps

/-- The engines and the recorded flows. -/
structure Agrees (s : Registry) : Prop where
  -- a flow has one live engine at most
  single : (s.live.map Prod.snd).Nodup
  -- which is the recorded one, or in the hands of the call that stops or starts it
  owner : ∀ n id, (n, id) ∈ s.live →
    (∃ r, Dict.get? s.running id = some r ∧ r.supervisor = n) ∨
      ∃ c ∈ s.calls, c.stage.holds = some (id, some n)
  recorded : (∀ c ∈ s.calls, c.stage.isDone = true) → ∀ n id, (n, id) ∈ s.live →
    ∃ r, Dict.get? s.running id = some r ∧ r.supervisor = n
  quota : s.running.rows.length ≤ s.maxConcurrent

theorem Owned.agrees {s : Registry} (h : Owned s) : Agrees s := by
  have howner : ∀ n id, (n, id) ∈ s.live →
      (∃ r, Dict.get? s.running id = some r ∧ r.supervisor = n) ∨
        ∃ c ∈ s.calls, c.stage.holds = some (id, some n) := by
    intro n id hmem
    rcases h.live n id hmem with hrec | ⟨j, c, hc, hheld⟩
    · exact .inl hrec
    · exact .inr ⟨c, List.mem_of_getElem? hc, hheld⟩
  refine ⟨h.single, howner, fun hidle n id hmem => ?_, h.room⟩
  rcases howner n id hmem with hrec | ⟨c, hc, hheld⟩
  · exact hrec
  · have hdone := hidle c hc
    obtain ⟨stage, wrote⟩ := c
    cases stage with
    | done => cases hheld
    | _ => cases hdone

/-- A call whose supervisor answers with the error of its engine. -/
def broken : Input := ⟨1, some (.processor "log" "sink closed"), none, 0⟩

theorem no_unload {calls : List Call} {id : String}
    (h : calls.all (fun c => c.stage.holds.isNone) = true) :
    ∀ d ∈ calls, ∀ previous, d.stage ≠ .unloadStop id previous := by
  intro d hd previous heq
  have hnone := List.all_eq_true.mp h d hd
  rw [heq] at hnone
  cases hnone

/-- While a flow is unloaded another version of it is deployed; then its engine
ends with an error, and so does the stop. -/
def overlap : List Action := List.flatten [
  [.call (.createDraft sampleFlow none)], List.replicate 2 (.advance 0 calm),
  [.call (.validateVersion "registry-test" 1)], List.replicate 4 (.advance 1 calm),
  [.call (.deployVersion "registry-test" 1 true)], List.replicate 10 (.advance 2 calm),
  [.call (.createDraft sampleFlow none)], List.replicate 2 (.advance 3 calm),
  [.call (.validateVersion "registry-test" 2)], List.replicate 4 (.advance 4 calm),
  [.call (.stopAndUnload "registry-test"), .advance 5 calm],
  [.call (.deployVersion "registry-test" 2 true)], List.replicate 10 (.advance 6 calm),
  [.finish 0, .advance 5 broken]]

end Jaiba.Server
