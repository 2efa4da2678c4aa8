import Jaiba.Server.Versions

/-!
# Whose flow a call works for

Every call of the registry is made for one flow. What it writes, takes out, puts
back and answers is of that flow, whatever the other calls do meanwhile.
-/

namespace Jaiba.Server
open Jaiba.Lib

/-- The record of a flow, whose sources are all of that flow. -/
structure FlowRecord.OfFlow (codec : Codec) (id : String) (r : FlowRecord) : Prop where
  named : r.id = id
  sources : ∀ v ∈ r.versions, codec.flowId v.source = .ok id

/-- For which flow a supervisor was made, `none` where it was not made yet. -/
abbrev Owner := ℕ → Option String

def Owner.Extends (owner owner' : Owner) : Prop := ∀ n id, owner n = some id → owner' n = some id

section stages
variable (codec : Codec) (owner : Owner) (id : String)

def After.WorksFor : After → Prop
  | .created id' _ | .report id' => id' = id
  | .deployed supervisor => owner supervisor = some id
  | .seeded => False

def Reply.WorksFor : Reply → Prop
  | .created id' _ => id' = id
  | .record r => r.OfFlow codec id
  | .snapshot supervisor => owner supervisor = some id
  | .seeded => False

/-- The stage of a call that works for the flow; the flow of the command line,
which is there before any call, is left out. -/
def Stage.WorksFor : Stage → Prop
  | .createDraft yaml _ => ∀ id', codec.flowId yaml = .ok id' → id' = id
  | .validate id' _ | .validateWrite id' _ | .archive id' _ | .archiveWrite id' _
  | .deploy id' _ _ | .rollback id' _ | .selectTarget id' _ | .unload id' | .report id' => id' = id
  | .source a | .checkState a _ | .checkQuota a _ _ | .openRepository a _ _ | .drain a _
  | .start a _ none => a.id = id
  | .stop a _ previous | .start a _ (some previous) | .restore a previous _
  | .reinsert a previous _ => a.id = id ∧ owner previous.supervisor = some id
  | .insert a _ supervisor | .record a supervisor => a.id = id ∧ owner supervisor = some id
  | .unloadStop id' previous => id' = id ∧ owner previous.supervisor = some id
  | .seed .. | .seedRunning .. => False
  | .persist after | .openTmp after _ | .writeTmp after _ _ | .rename after _ =>
    after.WorksFor owner id
  | .done reply => ∀ r, reply = .ok r → r.WorksFor codec owner id

end stages

/-- Each call works for its flow, and what is in the records and among the
running flows is under the right name. -/
structure Registry.Works (codec : Codec) (owner : Owner) (flow : ℕ → String) (s : Registry) :
    Prop where
  calls : ∀ (i : ℕ) (c : Call), s.calls[i]? = some c → c.stage.WorksFor codec owner (flow i)
  records : ∀ id r, Dict.get? s.records id = some r → r.OfFlow codec id
  running : ∀ id e, Dict.get? s.running id = some e → owner e.supervisor = some id
  known : ∀ n id, owner n = some id → n < s.supervisors

/-- The registries differ in one flow at most. -/
structure Registry.Only (s : Registry) (id : String) (t : Registry) : Prop where
  records : ∀ id', id' ≠ id → Dict.get? t.records id' = Dict.get? s.records id'
  running : ∀ id', id' ≠ id → Dict.get? t.running id' = Dict.get? s.running id'

/-! ### Records -/

section records
variable {codec : Codec} {s : Registry} {input : Input} {stage next : Stage} {id : String}
  {r t : FlowRecord}

theorem FlowRecord.OfFlow.of_identity (h : r.OfFlow codec id) (hid : t.id = r.id)
    (hvs : t.versions.map FlowVersion.identity = r.versions.map FlowVersion.identity) :
    t.OfFlow codec id where
  named := hid.trans h.named
  sources := by
    intro v hv
    have hmem : v.identity ∈ r.versions.map FlowVersion.identity := by
      rw [← hvs]
      exact List.mem_map_of_mem hv
    obtain ⟨w, hw, heq⟩ := List.mem_map.mp hmem
    have hsource : w.source = v.source := congrArg (fun p => p.2.1) heq
    rw [← hsource]
    exact h.sources w hw

theorem FlowRecord.OfFlow.update (h : r.OfFlow codec id) {f : FlowVersion → FlowVersion} {n : ℕ}
    (hid : t.id = r.id) (hvs : t.versions = updateFirst n f r.versions)
    (hf : ∀ v, (f v).identity = v.identity) : t.OfFlow codec id := by
  refine h.of_identity hid ?_
  rw [hvs, map_identity_updateFirst n r.versions hf]

theorem FlowRecord.OfFlow.retire (h : r.OfFlow codec id) (n now : ℕ) :
    (r.retire n now).OfFlow codec id := by
  unfold FlowRecord.retire
  split
  · exact h
  · split_ifs
    · exact h.update rfl rfl fun _ => rfl
    · exact h

theorem FlowRecord.OfFlow.draft (h : r.OfFlow codec id) {source : String}
    (hsource : codec.flowId source = .ok id) (checksum : String) (note : Option String) (now : ℕ) :
    (r.draft source checksum note now).OfFlow codec id where
  named := h.named
  sources := by
    intro v hv
    rcases List.mem_append.mp hv with hv | hv
    · exact h.sources v hv
    · rw [List.mem_singleton.mp hv]
      exact hsource

theorem FlowRecord.fresh_ofFlow (codec : Codec) (id : String) (now : ℕ) :
    (FlowRecord.fresh id now).OfFlow codec id :=
  ⟨rfl, fun _ hv => (List.not_mem_nil hv).elim⟩

/-- The record that is written is that of the flow of the stage. -/
theorem Writes.ofFlow (h : Writes codec s input stage id r next) (hseed : stage.seeding = false)
    (hold : ∀ old, Dict.get? s.records id = some old → old.OfFlow codec id) :
    r.OfFlow codec id := by
  cases h with
  | draft record hid hrec =>
    have hrecord : record.OfFlow codec id := by
      rw [hrec]
      cases hget : Dict.get? s.records id with
      | none => exact FlowRecord.fresh_ofFlow codec id _
      | some old => exact hold old hget
    exact hrecord.draft hid _ _ _
  | validated hr => exact (hold _ hr).update rfl rfl fun _ => rfl
  | archived hr => exact (hold _ hr).update rfl rfl fun _ => rfl
  | seeded => cases hseed
  | activated hr => exact ((hold _ hr).retire _ _).update rfl rfl fun _ => rfl

end records

/-! ### Steps -/

section steps
variable {codec : Codec} {owner owner' : Owner} {flow : ℕ → String} {id : String}
  {s t : Registry} {i : ℕ} {c : Call} {input : Input} {stage next : Stage}

theorem Owner.Extends.refl (owner : Owner) : owner.Extends owner := fun _ _ h => h

theorem After.WorksFor.mono {after : After} (h : after.WorksFor owner id) (hext : owner.Extends owner') :
    after.WorksFor owner' id := by
  cases after with
  | deployed => exact hext _ _ h
  | _ => exact h

theorem Reply.WorksFor.mono {reply : Reply} (h : reply.WorksFor codec owner id)
    (hext : owner.Extends owner') : reply.WorksFor codec owner' id := by
  cases reply with
  | snapshot => exact hext _ _ h
  | _ => exact h

theorem Stage.WorksFor.mono (h : stage.WorksFor codec owner id) (hext : owner.Extends owner') :
    stage.WorksFor codec owner' id := by
  cases stage with
  | start a source previous =>
    cases previous with
    | none => exact h
    | some previous => exact ⟨h.1, hext _ _ h.2⟩
  | stop | restore | reinsert | insert | record | unloadStop => exact ⟨h.1, hext _ _ h.2⟩
  | persist | openTmp | writeTmp | rename => exact After.WorksFor.mono h hext
  | done => exact fun r hr => (h r hr).mono hext
  | _ => exact h

/-- One more supervisor, made for the flow. -/
def Owner.make (owner : Owner) (supervisor : ℕ) (id : String) : Owner :=
  fun n => if n = supervisor then some id else owner n

@[simp] theorem Owner.make_self (owner : Owner) (n : ℕ) (id : String) : owner.make n id n = some id :=
  if_pos rfl

theorem Owner.extends_make (hknown : ∀ n id, owner n = some id → n < s.supervisors) :
    owner.Extends (owner.make s.supervisors id) := by
  intro n id' hn
  rw [Owner.make, if_neg (hknown n id' hn).ne]
  exact hn

theorem Owner.make_known (hknown : ∀ n id, owner n = some id → n < s.supervisors) :
    ∀ n id', owner.make s.supervisors id n = some id' → n < s.supervisors + 1 := by
  intro n id' hn
  unfold Owner.make at hn
  split_ifs at hn with heq
  · omega
  · exact (hknown n id' hn).trans (Nat.lt_succ_self _)

/-- What a step makes: no supervisor, or one for the flow. -/
def Registry.Makes (s : Registry) (id : String) (owner : Owner) (t : Registry) (owner' : Owner) : Prop :=
  owner' = owner ∧ t.supervisors = s.supervisors ∨
    owner' = owner.make s.supervisors id ∧ t.supervisors = s.supervisors + 1

theorem Registry.Works.extends (h : s.Works codec owner flow) (hmakes : s.Makes id owner t owner') :
    owner.Extends owner' ∧ ∀ n id, owner' n = some id → n < t.supervisors := by
  rcases hmakes with ⟨rfl, hsup⟩ | ⟨rfl, hsup⟩
  · rw [hsup]
    exact ⟨.refl _, h.known⟩
  · rw [hsup]
    exact ⟨Owner.extends_make h.known, Owner.make_known h.known⟩

/-- What one stage of a call may do to the rest of the registry. -/
def Registry.Minds (codec : Codec) (owner : Owner) (flow : ℕ → String) (i : ℕ) (s t : Registry) :
    Prop :=
  ∃ owner', s.Makes (flow i) owner t owner' ∧ t.Works codec owner' flow ∧ s.Only (flow i) t

theorem Registry.Works.minds (h : s.Works codec owner flow) (hmakes : s.Makes (flow i) owner t owner')
    {f : Call → Call} (hcalls : t.calls = s.calls.modify i f)
    (hstage : ∀ c, (f c).stage.WorksFor codec owner' (flow i))
    (hrecords : t.records = s.records ∨
      ∃ r, t.records = Dict.insert s.records (flow i) r ∧ r.OfFlow codec (flow i))
    (hrunning : t.running = s.running ∨ ∃ id, id = flow i ∧ (t.running = Dict.erase s.running id ∨
      ∃ e, t.running = Dict.insert s.running id e ∧ owner' e.supervisor = some (flow i))) :
    Registry.Minds codec owner flow i s t := by
  obtain ⟨hext, hknown⟩ := h.extends hmakes
  refine ⟨owner', hmakes, ⟨fun j b hb => ?_, fun id r hr => ?_, fun id e he => ?_, hknown⟩,
    ⟨fun id hid => ?_, fun id hid => ?_⟩⟩
  · rw [hcalls, List.getElem?_modify] at hb
    obtain ⟨b', hb', rfl⟩ := Option.map_eq_some_iff.mp hb
    split_ifs with hij
    · rw [← hij]
      exact hstage b'
    · exact (h.calls j b' hb').mono hext
  · rcases hrecords with hsame | ⟨r', hinsert, hof⟩
    · exact h.records id r (hsame ▸ hr)
    · rw [hinsert, Dict.get?_insert] at hr
      split_ifs at hr with hid
      · cases hr
        rw [hid]
        exact hof
      · exact h.records id r hr
  · rcases hrunning with hsame | ⟨_, rfl, herase | ⟨e', hinsert, hof⟩⟩
    · exact hext _ _ (h.running id e (hsame ▸ he))
    · rw [herase, Dict.get?_erase] at he
      split_ifs at he
      exact hext _ _ (h.running id e he)
    · rw [hinsert, Dict.get?_insert] at he
      split_ifs at he with hid
      · cases he
        rw [hid]
        exact hof
      · exact hext _ _ (h.running id e he)
  · rcases hrecords with hsame | ⟨r', hinsert, -⟩
    · rw [hsame]
    · rw [hinsert, Dict.get?_insert, if_neg hid]
  · rcases hrunning with hsame | ⟨_, rfl, herase | ⟨e', hinsert, -⟩⟩
    · rw [hsame]
    · rw [herase, Dict.get?_erase, if_neg hid]
    · rw [hinsert, Dict.get?_insert, if_neg hid]

theorem Registry.Works.goto (h : s.Works codec owner flow)
    (hnext : next.WorksFor codec owner (flow i)) :
    Registry.Minds codec owner flow i s (s.goto i next) :=
  h.minds (.inl ⟨rfl, rfl⟩) rfl (fun _ => hnext) (.inl rfl) (.inl rfl)

theorem Registry.Works.fail (h : s.Works codec owner flow) (error : RegistryError) :
    Registry.Minds codec owner flow i s (s.finish i (.error error)) :=
  h.minds (.inl ⟨rfl, rfl⟩) rfl (fun _ _ hr => nomatch hr) (.inl rfl) (.inl rfl)

theorem Registry.Works.write {r : FlowRecord} (h : s.Works codec owner flow)
    (hw : Writes codec s input stage id r next) (hseed : stage.seeding = false) (hid : id = flow i)
    (hnext : next.WorksFor codec owner (flow i)) :
    Registry.Minds codec owner flow i s (s.write i id r next) := by
  subst hid
  exact h.minds (.inl ⟨rfl, rfl⟩) rfl (fun _ => hnext)
    (.inr ⟨r, rfl, hw.ofFlow hseed fun old hold => h.records _ old hold⟩) (.inl rfl)

theorem Registry.Works.stepRecords (h : s.Works codec owner flow)
    (hw : stage.WorksFor codec owner (flow i)) (hs : s.stepRecords i codec input stage = some t) :
    Registry.Minds codec owner flow i s t := by
  unfold Registry.stepRecords at hs
  split at hs
  · split at hs
    · cases hs
      exact h.fail _
    next id hid =>
      split_ifs at hs <;> cases hs
      · exact h.fail _
      · exact h.write (.draft _ hid rfl) rfl (hw id hid) (hw id hid)
  · split at hs
    · cases hs
      exact h.fail _
    · split at hs <;> cases hs
      · exact h.fail _
      · exact h.goto hw
  · split at hs
    · cases hs
      exact h.fail _
    next r hr =>
      split at hs
      · cases hs
        exact h.fail _
      next v hv =>
        split_ifs at hs with hstate <;> cases hs
        · exact h.fail _
        · exact h.write (.validated hr hv hstate) rfl hw hw
  · split_ifs at hs <;> cases hs
    · exact h.fail _
    · exact h.goto hw
  · split at hs
    · cases hs
      exact h.fail _
    next r hr =>
      split at hs
      · cases hs
        exact h.fail _
      next v hv =>
        cases hs
        exact h.write (.archived hr (by rw [hv]; rfl)) rfl hw hw
  · exact hw.elim
  · exact hw.elim
  · cases hs

theorem Registry.Works.stepCheck (h : s.Works codec owner flow)
    (hw : stage.WorksFor codec owner (flow i)) (hs : s.stepCheck i codec input stage = some t) :
    Registry.Minds codec owner flow i s t := by
  unfold Registry.stepCheck at hs
  split at hs
  · split_ifs at hs
    cases hs
    exact h.minds (.inl ⟨rfl, rfl⟩) rfl (fun _ => hw) (.inl rfl) (.inl rfl)
  · split_ifs at hs
    cases hs
    exact h.minds (.inl ⟨rfl, rfl⟩) rfl (fun _ => hw) (.inl rfl) (.inl rfl)
  · split at hs
    · cases hs
      exact h.fail _
    · split at hs <;> cases hs
      · exact h.fail _
      · exact h.goto hw
  · split at hs <;> cases hs
    · exact h.fail _
    · exact h.goto hw
  · split at hs
    · cases hs
      exact h.fail _
    · split_ifs at hs
      · cases hs
        exact h.fail _
      · cases hs
        exact h.fail _
      · split at hs <;> cases hs
        · exact h.fail _
        · exact h.goto hw
  · split_ifs at hs <;> cases hs
    · exact h.fail _
    · exact h.goto hw
  · split at hs <;> cases hs
    · exact h.fail _
    · exact h.goto hw
  · cases hs

/-- A supervisor is made for the flow of the call. -/
theorem Registry.Works.make (h : s.Works codec owner flow) (ht : t.supervisors = s.supervisors + 1)
    (hcalls : t.calls = s.calls.modify i fun c => { c with stage := next })
    (hnext : next.WorksFor codec (owner.make s.supervisors (flow i)) (flow i))
    (hrecords : t.records = s.records) (hrunning : t.running = s.running) :
    Registry.Minds codec owner flow i s t :=
  h.minds (.inr ⟨rfl, ht⟩) hcalls (fun _ => hnext) (.inl hrecords) (.inl hrunning)

theorem Registry.Works.stepRuntime (h : s.Works codec owner flow)
    (hw : stage.WorksFor codec owner (flow i)) (hs : s.stepRuntime i codec input stage = some t) :
    Registry.Minds codec owner flow i s t := by
  unfold Registry.stepRuntime at hs
  split at hs
  next a source =>
    split at hs
    next previous hprevious =>
      cases hs
      refine h.minds (.inl ⟨rfl, rfl⟩) rfl (fun _ => ⟨hw, ?_⟩) (.inl rfl) (.inr ⟨_, hw, .inl rfl⟩)
      rw [← show a.id = flow i from hw]
      exact h.running _ _ hprevious
    · split_ifs at hs <;> cases hs
      · exact h.goto hw
      · exact h.make rfl rfl ⟨hw, Owner.make_self ..⟩ rfl rfl
  next a source previous =>
    obtain ⟨hid, howner⟩ : a.id = flow i ∧ owner previous.supervisor = some (flow i) := hw
    split at hs
    · cases hs
      exact h.minds (.inl ⟨rfl, rfl⟩) rfl (fun _ _ hr => nomatch hr) (.inl rfl)
        (.inr ⟨_, hid, .inr ⟨previous, rfl, howner⟩⟩)
    · split_ifs at hs <;> cases hs
      · exact h.minds (.inl ⟨rfl, rfl⟩) rfl (fun _ => ⟨hid, howner⟩) (.inl rfl) (.inl rfl)
      · exact h.make rfl rfl ⟨hid, Owner.make_self ..⟩ rfl rfl
  next a source previous =>
    have hid : a.id = flow i := by
      cases previous with
      | none => exact hw
      | some previous => exact hw.1
    split at hs <;> cases hs
    · exact h.fail _
    · exact h.goto hw
    · exact h.make rfl rfl ⟨hid, by rw [Owner.make_self]⟩ rfl rfl
  next a previous error =>
    obtain ⟨hid, howner⟩ : a.id = flow i ∧ owner previous.supervisor = some (flow i) := hw
    split at hs <;> cases hs
    · exact h.goto ⟨hid, howner⟩
    · exact h.make rfl rfl ⟨hid, by rw [Owner.make_self]⟩ rfl rfl
    · exact h.make rfl rfl ⟨hid, by rw [Owner.make_self]⟩ rfl rfl
  next a previous error =>
    cases hs
    obtain ⟨hid, howner⟩ : a.id = flow i ∧ owner previous.supervisor = some (flow i) := hw
    exact h.minds (.inl ⟨rfl, rfl⟩) rfl (fun _ _ hr => nomatch hr) (.inl rfl)
      (.inr ⟨_, hid, .inr ⟨previous, rfl, howner⟩⟩)
  next a source supervisor =>
    cases hs
    obtain ⟨hid, howner⟩ : a.id = flow i ∧ owner supervisor = some (flow i) := hw
    exact h.minds (.inl ⟨rfl, rfl⟩) rfl (fun _ => ⟨hid, howner⟩) (.inl rfl)
      (.inr ⟨_, hid, .inr ⟨_, rfl, howner⟩⟩)
  next a supervisor =>
    split at hs
    · cases hs
      exact h.fail _
    next r hr =>
      cases hs
      exact h.write (.activated hr) rfl hw.1 hw.2
  next id =>
    split at hs
    · cases hs
      exact h.fail _
    next previous hprevious =>
      cases hs
      refine h.minds (.inl ⟨rfl, rfl⟩) rfl (fun _ => ⟨hw, ?_⟩) (.inl rfl) (.inr ⟨_, hw, .inl rfl⟩)
      rw [← show id = flow i from hw]
      exact h.running _ _ hprevious
  next id previous =>
    obtain ⟨hid, howner⟩ : id = flow i ∧ owner previous.supervisor = some (flow i) := hw
    split at hs <;> cases hs
    · exact h.minds (.inl ⟨rfl, rfl⟩) rfl (fun _ _ hr => nomatch hr) (.inl rfl)
        (.inr ⟨_, hid, .inr ⟨previous, rfl, howner⟩⟩)
    · refine h.minds (.inl ⟨rfl, rfl⟩) rfl (fun _ r hr => ?_) (.inl rfl) (.inl rfl)
      cases hr
      exact howner
  · cases hs

theorem Registry.Works.persisted (h : s.Works codec owner flow) {after : After}
    (hafter : after.WorksFor owner (flow i)) :
    Registry.Minds codec owner flow i s (s.persisted i after) := by
  cases after with
  | created | deployed =>
    refine h.minds (.inl ⟨rfl, rfl⟩) rfl (fun _ r hr => ?_) (.inl rfl) (.inl rfl)
    cases hr
    exact hafter
  | report => exact h.goto hafter
  | seeded => exact hafter.elim

theorem Registry.Works.unpersisted (h : s.Works codec owner flow) {after : After}
    (hafter : after.WorksFor owner (flow i)) (error : RegistryError) :
    Registry.Minds codec owner flow i s (s.unpersisted i error after) := by
  cases after with
  | deployed =>
    refine h.minds (.inl ⟨rfl, rfl⟩) rfl (fun _ r hr => ?_) (.inl rfl) (.inl rfl)
    cases hr
    exact hafter
  | created | report | seeded => exact h.fail _

theorem Registry.Works.stepPersist (h : s.Works codec owner flow)
    (hw : stage.WorksFor codec owner (flow i)) (hs : s.stepPersist i codec input stage = some t) :
    Registry.Minds codec owner flow i s t := by
  -- the files are not part of what calls share
  have hdisk : ∀ disk published, Registry.Works codec owner flow
      { s with disk := disk, published := published } := fun _ _ => ⟨h.calls, h.records, h.running, h.known⟩
  unfold Registry.stepPersist at hs
  split at hs
  · split_ifs at hs
    · cases hs
      exact h.persisted hw
    · split at hs <;> cases hs
      · exact h.unpersisted hw _
      · exact h.goto hw
  · split at hs <;> cases hs
    · exact h.unpersisted hw _
    · exact h.minds (.inl ⟨rfl, rfl⟩) rfl (fun _ => hw) (.inl rfl) (.inl rfl)
    · exact h.minds (.inl ⟨rfl, rfl⟩) rfl (fun _ => hw) (.inl rfl) (.inl rfl)
  · simp only at hs
    split at hs <;> cases hs
    · obtain ⟨owner', hmakes, hworks, honly⟩ := (hdisk _ s.published).unpersisted hw _
      exact ⟨owner', hmakes, hworks, honly.records, honly.running⟩
    · exact h.minds (.inl ⟨rfl, rfl⟩) rfl (fun _ => hw) (.inl rfl) (.inl rfl)
  · split at hs <;> cases hs
    · exact h.unpersisted hw _
    · exact h.unpersisted hw _
    · obtain ⟨owner', hmakes, hworks, honly⟩ := (hdisk _ _).persisted hw
      exact ⟨owner', hmakes, hworks, honly.records, honly.running⟩
  · split at hs <;> cases hs
    · exact h.fail _
    next r hr =>
      refine h.minds (.inl ⟨rfl, rfl⟩) rfl (fun _ r' hr' => ?_) (.inl rfl) (.inl rfl)
      cases hr'
      exact h.records _ _ (hw ▸ hr)
  · cases hs

/-- A stage of a call changes the flow of the call at most, and the call goes on
working for that flow. -/
theorem Registry.Works.advance (h : s.Works codec owner flow) (hc : s.calls[i]? = some c)
    (hs : s.advance i codec input c.stage = some t) : Registry.Minds codec owner flow i s t := by
  have hw := h.calls i c hc
  rcases Registry.advance_cases hs with hs | hs | hs | hs
  · exact h.stepRecords hw hs
  · exact h.stepCheck hw hs
  · exact h.stepRuntime hw hs
  · exact h.stepPersist hw hs

/-- The flow of a stage that may make a supervisor. -/
def Stage.maker : Stage → String
  | .drain a _ | .stop a _ _ | .start a _ _ | .restore a _ _ => a.id
  | _ => ""

theorem Registry.stepRuntime_supervisors (hs : s.stepRuntime i codec input stage = some t)
    (hw : stage.WorksFor codec owner id) : t.supervisors = s.supervisors ∨ stage.maker = id := by
  cases stage with
  | drain => exact .inr hw
  | stop | restore => exact .inr hw.1
  | start a source previous =>
    refine .inr ?_
    cases previous with
    | none => exact hw
    | some previous => exact hw.1
  | reinsert | insert =>
    cases hs
    exact .inl rfl
  | record | unload | unloadStop =>
    dsimp only [Registry.stepRuntime] at hs
    split at hs <;> cases hs <;> exact .inl rfl
  | _ => cases hs

/-- A supervisor is made for the flow of the stage. -/
theorem Registry.advance_supervisors (hs : s.advance i codec input stage = some t)
    (hw : stage.WorksFor codec owner id) : t.supervisors = s.supervisors ∨ stage.maker = id := by
  rcases Registry.advance_cases hs with hs | hs | hs | hs
  · have hseed : stage.seeding = false := by
      cases stage <;> first | rfl | exact hw.elim
    rcases Registry.stepRecords_cases hs with ⟨next, -, -, -, hstill, -⟩ | ⟨id, r, next, -, rfl⟩
    · exact .inl (hstill hseed).supervisors
    · exact .inl rfl
  · obtain ⟨next, -, -, hchecks, -⟩ := Registry.stepCheck_cases hs
    rcases hchecks.still with ⟨-, hstill⟩ | ⟨-, -, rfl⟩
    · exact .inl hstill.supervisors
    · exact .inl rfl
  · exact Registry.stepRuntime_supervisors hs hw
  · obtain ⟨next, -, hstill, -⟩ := Registry.stepPersist_cases hs
    exact .inl hstill.supervisors

/-- One more call, for one more flow. -/
theorem Registry.Works.accept (h : s.Works codec owner flow) (hstage : stage.WorksFor codec owner id) :
    Registry.Works codec owner (Function.update flow s.calls.length id)
      { s with calls := s.calls ++ [⟨stage, none⟩] } where
  calls := by
    intro k c hc
    rcases Nat.lt_or_ge k s.calls.length with hlt | hge
    · rw [Function.update_of_ne hlt.ne]
      rw [List.getElem?_append_left hlt] at hc
      exact h.calls k c hc
    · rw [List.getElem?_append_right hge, List.getElem?_singleton] at hc
      split_ifs at hc with hk
      cases hc
      rw [show k = s.calls.length by omega, Function.update_self]
      exact hstage
  records := h.records
  running := h.running
  known := h.known

theorem Registry.advance_length (hs : s.advance i codec input stage = some t) :
    t.calls.length = s.calls.length := by
  rcases Registry.advance_moves hs with ⟨next, hm, -⟩ | ⟨id, r, next, -, rfl⟩
  · rw [hm.calls, List.length_modify]
  · exact List.length_modify ..

end steps

end Jaiba.Server
