import Jaiba.Connections.Compensation

/-!
# Calls of the connection manager in parallel

A call goes on from one access of a shared object to the next: the profiles under
their lock, the file, the secret store. Between two accesses of one call the others
make theirs. The check of `update` and the lock of its `upsert` are two accesses.
-/

namespace Jaiba.Connections
open Jaiba.Lib

/-- What is left to undo if a call of `upsert` fails, and with it who called it: `update`,
`update_with_secret` or `duplicate`. -/
inductive After where
  | update
  | restore (reference : String) (previous : ConnectionSecret)
  | remove (reference : String)

def After.replacing : After → Bool
  | .remove _ => false
  | _ => true

/-- The next access of a call. -/
inductive Stage where
  | updateCheck (profile : ConnectionProfile) (after : After)
  | upsertLock (profile : ConnectionProfile) (after : After)
  | upsertSave (profile : ConnectionProfile) (pending : Profiles) (after : After)
  | upsertPublish (profile : ConnectionProfile) (pending : Profiles) (after : After)
  | undo (after : After) (error : ConnectionManagerError)
  | secretResolve (profile : ConnectionProfile) (secret : ConnectionSecret)
  | secretStore (profile : ConnectionProfile) (secret previous : ConnectionSecret)
  | duplicateGet (id name : String)
  | duplicateResolve (original : ConnectionProfile) (name : String)
  | duplicateStore (original : ConnectionProfile) (name : String) (secret : ConnectionSecret)
  | deleteLock (id : String)
  | deleteSave (id : String) (pending : Profiles)
  | deletePublish (id : String) (pending : Profiles)
  | dropLock (id : String)
  | dropResolve (id : String) (profile : ConnectionProfile) (pending : Profiles)
  | dropSave (id : String) (profile : ConnectionProfile) (shared : Bool) (pending : Profiles)
  | dropRemove (id : String) (profile : ConnectionProfile) (pending : Profiles)
  | dropRevert (id : String) (pending : Profiles) (error : ConnectionManagerError)
  | dropPublish (id : String) (pending : Profiles)
  | done (result : Except ConnectionManagerError Unit)

/-- The call has the write lock of the profiles. -/
def Stage.holds : Stage → Bool
  | .upsertSave .. | .upsertPublish .. | .deleteSave .. | .deletePublish .. | .dropResolve .. | .dropSave ..
  | .dropRemove .. | .dropRevert .. | .dropPublish .. => true
  | _ => false

/-- The next access waits for the lock of the profiles, to read or to write them. -/
def Stage.waits : Stage → Bool
  | .updateCheck .. | .upsertLock .. | .duplicateGet .. | .deleteLock .. | .dropLock .. => true
  | _ => false

/-- Where a failed `upsert` goes on. -/
def failed (error : ConnectionManagerError) : After → Stage
  | .update => .done (.error error)
  | after => .undo after error

/-- One access: the manager after it and the next one. `world` draws the uuids and says how
the writes go. -/
def advance (m : Manager) (world : CallWorld) : Stage → Manager × Stage
  | .updateCheck profile after =>
    if m.contains profile.id then (m, .upsertLock profile after)
    else (m, failed (.notFound profile.id) after)
  | .upsertLock profile after =>
    if m.rejects profile after.replacing then (m, failed (.duplicateName profile.name) after)
    else (m, .upsertSave profile (m.profiles.insert profile.id profile) after)
  | .upsertSave profile pending after =>
    match m.persistProfiles world 0 pending with
    | (.error e, m) => (m, failed e after)
    | (.ok (), m) => (m, .upsertPublish profile pending after)
  | .upsertPublish _ pending _ => ({ m with profiles := pending }, .done (.ok ()))
  | .undo (.restore reference previous) error =>
    match m.writeSecret world 0 (.store reference previous) with
    | (.error rollback, m) =>
      (m, .done (.error (.persistence ("no se pudo actualizar el perfil (" ++ error.text ++
        ") ni restaurar su secreto (" ++ rollback.text ++ ")"))))
    | (.ok (), m) => (m, .done (.error error))
  | .undo (.remove reference) error =>
    match m.writeSecret world 0 (.remove reference) with
    | (.error rollback, m) =>
      (m, .done (.error (.persistence ("no se pudo crear el perfil (" ++ error.text ++
        ") ni eliminar el secreto provisional (" ++ rollback.text ++ ")"))))
    | (.ok (), m) => (m, .done (.error error))
  | .undo .update error => (m, .done (.error error))
  | .secretResolve profile secret =>
    match m.resolveSecret profile.secretRef with
    | .error e => (m, .done (.error e))
    | .ok previous => (m, .secretStore profile secret previous)
  | .secretStore profile secret previous =>
    match m.writeSecret world 0 (.store profile.secretRef secret) with
    | (.error e, m) => (m, .done (.error e))
    | (.ok (), m) => (m, .updateCheck profile (.restore profile.secretRef previous))
  | .duplicateGet id name =>
    match m.get id with
    | .error e => (m, .done (.error e))
    | .ok original => (m, .duplicateResolve original name)
  | .duplicateResolve original name =>
    match m.resolveSecret original.secretRef with
    | .error e => (m, .done (.error e))
    | .ok secret => (m, .duplicateStore original name secret)
  | .duplicateStore original name secret =>
    let secretRef := freshSecretRef (world.uuid 0)
    match m.writeSecret world 0 (.store secretRef secret) with
    | (.error e, m) => (m, .done (.error e))
    | (.ok (), m) =>
      (m, .upsertLock ⟨world.uuid 1, name, original.connectionType, original.endpoint, secretRef, []⟩
        (.remove secretRef))
  | .deleteLock id =>
    match m.get id with
    | .error e => (m, .done (.error e))
    | .ok _ => (m, .deleteSave id (m.remove id))
  | .deleteSave id pending =>
    match m.persistProfiles world 0 pending with
    | (.error e, m) => (m, .done (.error e))
    | (.ok (), m) => (m, .deletePublish id pending)
  | .deletePublish _ pending => ({ m with profiles := pending }, .done (.ok ()))
  | .dropLock id =>
    match m.get id with
    | .error e => (m, .done (.error e))
    | .ok profile =>
      if m.secretIsShared profile id then (m, .dropSave id profile true (m.remove id))
      else (m, .dropResolve id profile (m.remove id))
  | .dropResolve id profile pending =>
    match m.resolveSecret profile.secretRef with
    | .error e => (m, .done (.error e))
    | .ok _ => (m, .dropSave id profile false pending)
  | .dropSave id profile shared pending =>
    match m.persistProfiles world 0 pending with
    | (.error e, m) => (m, .done (.error e))
    | (.ok (), m) => if shared then (m, .dropPublish id pending) else (m, .dropRemove id profile pending)
  | .dropRemove id profile pending =>
    match m.writeSecret world 0 (.remove profile.secretRef) with
    | (.error e, m) => (m, .dropRevert id pending e)
    | (.ok (), m) => (m, .dropPublish id pending)
  | .dropRevert _ pending error =>
    match m.persistProfiles world 0 m.profiles with
    | (.error rollback, m) =>
      ({ m with profiles := pending }, .done (.error (.persistence ("no se pudo eliminar el secreto (" ++
        error.text ++ ") ni revertir la baja (" ++ rollback.text ++ ")"))))
    | (.ok (), m) => (m, .done (.error error))
  | .dropPublish _ pending => ({ m with profiles := pending }, .done (.ok ()))
  | .done result => (m, .done result)

/-- The profile whose deletion the access makes good. -/
def Stage.deletes : Stage → Option String
  | .deletePublish id _ | .dropPublish id _ => some id
  | _ => none

/-- The manager, the calls in the order in which they came, and, to state what is wanted,
the ids of the profiles whose deletion has returned `Ok`. -/
structure Traffic where
  manager : Manager
  calls : List Stage
  deleted : List String

/-- The operations that may overlap. -/
inductive Request where
  | update (profile : ConnectionProfile)
  | updateWithSecret (profile : ConnectionProfile) (secret : ConnectionSecret)
  | delete (id : String)
  | deleteWithSecret (id : String)
  | duplicate (id name : String)

def Request.stage : Request → Stage
  | .update profile => .updateCheck profile .update
  | .updateWithSecret profile secret => .secretResolve profile secret
  | .delete id => .deleteLock id
  | .deleteWithSecret id => .dropLock id
  | .duplicate id name => .duplicateGet id name

inductive Turn where
  | call (request : Request)
  | advance (i : ℕ) (world : CallWorld)

def traffic : Machine Traffic Turn where
  step s
    | .call request => some { s with calls := s.calls ++ [request.stage] }
    | .advance i world => do
      let stage ← s.calls[i]?
      if stage.waits && s.calls.any Stage.holds then none
      else
        let (manager, next) := advance s.manager world stage
        some ⟨manager, s.calls.set i next, stage.deletes.toList ++ s.deleted⟩

def Traffic.start (m : Manager) : Traffic := ⟨m, [], []⟩

def Stage.isDone : Stage → Bool
  | .done _ => true
  | _ => false

/-- No call is in progress. -/
def Traffic.Quiet (s : Traffic) : Prop := ∀ stage ∈ s.calls, stage.isDone = true

def Manager.HasSecret (m : Manager) (reference : String) : Prop := (m.secrets.map reference).isSome

/-- Every profile is stored under its id and its secret is in the secret store. -/
structure Manager.Consistent (m : Manager) : Prop where
  ids : ∀ k p, m.profiles.get? k = some p → p.id = k
  secrets : ∀ k p, m.profiles.get? k = some p → m.HasSecret p.secretRef

/-- The reference that a `duplicate` in progress has drawn and still answers for. -/
def After.provisional : After → Option String
  | .remove reference => some reference
  | _ => none

def Stage.provisional : Stage → Option String
  | .updateCheck _ after | .upsertLock _ after | .upsertSave _ _ after | .upsertPublish _ _ after
  | .undo after _ => after.provisional
  | _ => none

/-- A uuid that `duplicate` draws is nobody else's: no profile and no other call has the new
reference, and the new id has not been in use. -/
def Traffic.uuidsFresh (s : Traffic) : Turn → Bool
  | .call _ => true
  | .advance i world =>
    match s.calls[i]? with
    | some (.duplicateStore _ _ _) =>
      s.manager.profiles.entries.all (fun e => e.2.secretRef ≠ freshSecretRef (world.uuid 0)) &&
        s.calls.all fun stage => stage.provisional ≠ some (freshSecretRef (world.uuid 0))
    | some (.upsertPublish profile _ (.remove _)) => profile.id ∉ s.deleted
    | some (.upsertPublish profile _ _) => s.calls.all fun stage => stage.provisional ≠ some profile.secretRef
    | _ => true

/-- An update publishes a profile that has not been deleted since it was checked, and whose
secret is there. -/
def Traffic.upToDate (s : Traffic) : Turn → Bool
  | .call _ => true
  | .advance i _ =>
    match s.calls[i]? with
    | some (.upsertPublish _ _ (.remove _)) => true
    | some (.upsertPublish profile _ _) =>
      profile.id ∉ s.deleted && (s.manager.secrets.map profile.secretRef).isSome
    | _ => true

/-! ### What the calls in progress know -/

/-- What a call that has the lock has read under it. -/
def Stage.UpToDate (m : Manager) : Stage → Prop
  | .upsertSave profile pending _ | .upsertPublish profile pending _ =>
    pending = m.profiles.insert profile.id profile
  | .deleteSave id pending | .deletePublish id pending | .dropRevert id pending _ | .dropPublish id pending =>
    pending = m.remove id
  | .dropSave id profile true pending => pending = m.remove id ∧ m.profiles.get? id = some profile
  | .dropResolve id profile pending | .dropSave id profile false pending | .dropRemove id profile pending =>
    pending = m.remove id ∧ m.profiles.get? id = some profile ∧ m.secretIsShared profile id = false
  | _ => True

/-- The profile whose secret has been removed while it is still stored. -/
def Stage.orphan : Stage → Option String
  | .dropPublish id _ => some id
  | _ => none

/-- A copy that `duplicate` is to publish has the reference that was drawn for it. -/
def Stage.Copies : Stage → Prop
  | .updateCheck profile (.remove reference) | .upsertLock profile (.remove reference)
  | .upsertSave profile _ (.remove reference) | .upsertPublish profile _ (.remove reference) => profile.secretRef = reference
  | _ => True

structure Traffic.Inv (s : Traffic) : Prop where
  ids : ∀ k p, s.manager.profiles.get? k = some p → p.id = k
  lock : ∀ (i j : ℕ) (c d : Stage), s.calls[i]? = some c → s.calls[j]? = some d →
    c.holds = true → d.holds = true → i = j
  upToDate : ∀ c ∈ s.calls, c.UpToDate s.manager
  copies : ∀ c ∈ s.calls, c.Copies
  secrets : ∀ k p, s.manager.profiles.get? k = some p →
    s.manager.HasSecret p.secretRef ∨ ∃ c ∈ s.calls, c.orphan = some k
  absent : ∀ id ∈ s.deleted, s.manager.profiles.get? id = none
  provisional : ∀ c ∈ s.calls, ∀ reference, c.provisional = some reference →
    s.manager.HasSecret reference ∧ ∀ k p, s.manager.profiles.get? k = some p → p.secretRef ≠ reference
  distinct : ∀ (i j : ℕ) (c d : Stage) (reference : String), s.calls[i]? = some c → s.calls[j]? = some d →
    c.provisional = some reference → d.provisional = some reference → i = j

theorem Stage.holds_of_orphan {c : Stage} {k : String} (h : c.orphan = some k) : c.holds = true := by
  cases c <;> first | rfl | cases h

theorem Stage.orphan_of_isDone {c : Stage} (h : c.isDone = true) : c.orphan = none := by
  cases c <;> first | rfl | cases h

theorem upToDate_congr {m m' : Manager} (h : m'.profiles = m.profiles) {c : Stage} (hc : c.UpToDate m) :
    c.UpToDate m' := by
  have hremove : ∀ id, m'.remove id = m.remove id := fun id => by rw [Manager.remove, Manager.remove, h]
  have hshared : ∀ profile id, m'.secretIsShared profile id = m.secretIsShared profile id :=
    fun profile id => by rw [Manager.secretIsShared, Manager.secretIsShared, h]
  cases c with
  | dropSave id profile shared pending =>
    cases shared with
    | true =>
      simp only [Stage.UpToDate, h, hremove] at hc ⊢
      exact hc
    | false =>
      simp only [Stage.UpToDate, h, hremove, hshared] at hc ⊢
      exact hc
  | _ =>
    simp only [Stage.UpToDate, h, hremove, hshared] at hc ⊢
    first | exact hc | done

namespace Traffic

variable {s : Traffic} {i : ℕ} {c d : Stage} {m : Manager}

/-- A call of the new state is the one that has moved or an old one. -/
theorem of_getElem?_set {calls : List Stage} {j : ℕ} {b : Stage} (h : (calls.set i d)[j]? = some b) :
    j = i ∧ b = d ∨ j ≠ i ∧ calls[j]? = some b := by
  rw [List.getElem?_set] at h
  split at h
  next hij =>
    split at h
    · exact .inl ⟨hij.symm, (Option.some.inj h).symm⟩
    · cases h
  next hij => exact .inr ⟨fun hji => hij hji.symm, h⟩

/-- One call moves on. Where it changes the profiles it has the lock until then, so what
the others have read stands. -/
theorem Inv.move (h : s.Inv) (hc : s.calls[i]? = some c) {deleted : List String}
    (hids : ∀ k p, m.profiles.get? k = some p → p.id = k)
    (hlock : d.holds = true → c.holds = true ∨ ∀ e ∈ s.calls, e.holds = false)
    (hprofiles : m.profiles = s.manager.profiles ∨ c.holds = true)
    (hupToDate : d.UpToDate m) (hcopies : d.Copies)
    (hsecrets : ∀ k p, m.profiles.get? k = some p → m.HasSecret p.secretRef ∨ d.orphan = some k ∨
      ∃ (j : ℕ) (e : Stage), j ≠ i ∧ s.calls[j]? = some e ∧ e.orphan = some k)
    (habsent : ∀ id ∈ deleted, m.profiles.get? id = none)
    (hothers : ∀ (j : ℕ) (e : Stage) (reference : String), j ≠ i → s.calls[j]? = some e →
      e.provisional = some reference →
        m.HasSecret reference ∧ ∀ k p, m.profiles.get? k = some p → p.secretRef ≠ reference)
    (hprovisional : ∀ reference, d.provisional = some reference →
      m.HasSecret reference ∧ (∀ k p, m.profiles.get? k = some p → p.secretRef ≠ reference) ∧
        ∀ (j : ℕ) (e : Stage), j ≠ i → s.calls[j]? = some e → e.provisional ≠ some reference) :
    Inv ⟨m, s.calls.set i d, deleted⟩ := by
  have hlt := (List.getElem?_eq_some_iff.mp hc).1
  -- while another call has the lock, this one neither takes it nor changes the profiles
  have hother : ∀ (j : ℕ) (e : Stage), j ≠ i → s.calls[j]? = some e → e.holds = true → d.holds = false := by
    intro j e hj he hholds
    cases hd : d.holds with
    | false => rfl
    | true =>
      rcases hlock hd with hci | hfree
      · exact absurd (h.lock j i e c he hc hholds hci) hj
      · rw [hfree e (List.mem_of_getElem? he)] at hholds
        cases hholds
  have hread : ∀ (j : ℕ) (e : Stage), j ≠ i → s.calls[j]? = some e → e.UpToDate m := by
    intro j e hj he
    rcases hprofiles with heq | hci
    · exact upToDate_congr heq (h.upToDate e (List.mem_of_getElem? he))
    · have hfree : e.holds = false := by
        cases hholds : e.holds with
        | false => rfl
        | true => exact absurd (h.lock j i e c he hc hholds hci) hj
      cases e <;> trivial
  refine ⟨hids, fun j k a b ha hb hja hkb => ?_, fun e he => ?_, fun e he => ?_, fun k p hget => ?_, habsent,
    fun e he reference href => ?_, fun j k a b reference ha hb hra hrb => ?_⟩
  · rcases of_getElem?_set ha with ⟨rfl, rfl⟩ | ⟨hj, ha'⟩
    · rcases of_getElem?_set hb with ⟨rfl, rfl⟩ | ⟨hk, hb'⟩
      · rfl
      · rw [hother k b hk hb' hkb] at hja
        cases hja
    · rcases of_getElem?_set hb with ⟨rfl, rfl⟩ | ⟨hk, hb'⟩
      · rw [hother j a hj ha' hja] at hkb
        cases hkb
      · exact h.lock j k a b ha' hb' hja hkb
  · obtain ⟨j, hj⟩ := List.mem_iff_getElem?.mp he
    rcases of_getElem?_set hj with ⟨rfl, rfl⟩ | ⟨hne, hj⟩
    · exact hupToDate
    · exact hread j e hne hj
  · obtain ⟨j, hj⟩ := List.mem_iff_getElem?.mp he
    rcases of_getElem?_set hj with ⟨rfl, rfl⟩ | ⟨hne, hj⟩
    · exact hcopies
    · exact h.copies e (List.mem_of_getElem? hj)
  · rcases hsecrets k p hget with hhas | horphan | ⟨j, e, hj, he, horphan⟩
    · exact .inl hhas
    · exact .inr ⟨d, List.mem_iff_getElem?.mpr ⟨i, List.getElem?_set_self hlt⟩, horphan⟩
    · refine .inr ⟨e, List.mem_iff_getElem?.mpr ⟨j, ?_⟩, horphan⟩
      rw [List.getElem?_set_ne hj.symm]
      exact he
  · obtain ⟨j, hj⟩ := List.mem_iff_getElem?.mp he
    rcases of_getElem?_set hj with ⟨rfl, rfl⟩ | ⟨hne, hj⟩
    · exact ⟨(hprovisional reference href).1, (hprovisional reference href).2.1⟩
    · exact hothers j e reference hne hj href
  · rcases of_getElem?_set ha with ⟨rfl, rfl⟩ | ⟨hj, ha'⟩
    · rcases of_getElem?_set hb with ⟨rfl, rfl⟩ | ⟨hk, hb'⟩
      · rfl
      · exact absurd hrb ((hprovisional reference hra).2.2 k b hk hb')
    · rcases of_getElem?_set hb with ⟨rfl, rfl⟩ | ⟨hk, hb'⟩
      · exact absurd hra ((hprovisional reference hrb).2.2 j a hj ha')
      · exact h.distinct j k a b reference ha' hb' hra hrb

/-- A call moves on without changing the profiles or removing a secret. -/
theorem Inv.pass (h : s.Inv) (hc : s.calls[i]? = some c) (hprofiles : m.profiles = s.manager.profiles)
    (hgrows : ∀ reference, s.manager.HasSecret reference → m.HasSecret reference)
    (hlock : d.holds = true → c.holds = true ∨ ∀ e ∈ s.calls, e.holds = false)
    (hupToDate : d.UpToDate m) (hcopies : d.Copies) (horphan : c.orphan = none)
    (hprovisional : ∀ reference, d.provisional = some reference → c.provisional = some reference ∨
      m.HasSecret reference ∧ (∀ k p, s.manager.profiles.get? k = some p → p.secretRef ≠ reference) ∧
        ∀ e ∈ s.calls, e.provisional ≠ some reference) :
    Inv ⟨m, s.calls.set i d, s.deleted⟩ := by
  refine h.move hc ?_ hlock (.inl hprofiles) hupToDate hcopies (fun k p hget => ?_) ?_
    (fun j e reference _ he href => ?_) fun reference href => ?_
  · rw [hprofiles]
    exact h.ids
  · rw [hprofiles] at hget
    rcases h.secrets k p hget with hhas | ⟨e, he, hek⟩
    · exact .inl (hgrows _ hhas)
    · obtain ⟨j, hj⟩ := List.mem_iff_getElem?.mp he
      refine .inr (.inr ⟨j, e, ?_, hj, hek⟩)
      rintro rfl
      rw [hc] at hj
      cases hj
      rw [horphan] at hek
      cases hek
  · rw [hprofiles]
    exact h.absent
  · obtain ⟨hhas, hfree⟩ := h.provisional e (List.mem_of_getElem? he) reference href
    rw [hprofiles]
    exact ⟨hgrows _ hhas, hfree⟩
  · rw [hprofiles]
    rcases hprovisional reference href with hold | ⟨hhas, hfree, hnew⟩
    · obtain ⟨hhas, hfree⟩ := h.provisional c (List.mem_of_getElem? hc) reference hold
      exact ⟨hgrows _ hhas, hfree, fun j e hj he hother => hj (h.distinct j i e c reference he hc hother hold)⟩
    · exact ⟨hhas, hfree, fun j e _ he => hnew e (List.mem_of_getElem? he)⟩

/-- A call ends without changing the profiles or removing a secret. -/
theorem Inv.finish (h : s.Inv) (hc : s.calls[i]? = some c) (hprofiles : m.profiles = s.manager.profiles)
    (hgrows : ∀ reference, s.manager.HasSecret reference → m.HasSecret reference) (horphan : c.orphan = none)
    (result : Except ConnectionManagerError Unit) : Inv ⟨m, s.calls.set i (.done result), s.deleted⟩ :=
  h.pass hc hprofiles hgrows (fun hd => by cases hd) trivial trivial horphan fun _ href => by cases href

theorem failed_idle (e : ConnectionManagerError) (after : After) :
    (failed e after).holds = false ∧ (failed e after).UpToDate m ∧ (failed e after).Copies ∧
      (failed e after).provisional = after.provisional := by
  cases after <;> exact ⟨rfl, trivial, trivial, rfl⟩

/-- A call of `upsert` fails. -/
theorem Inv.fail (h : s.Inv) (hc : s.calls[i]? = some c) (hprofiles : m.profiles = s.manager.profiles)
    (hsecrets : m.secrets = s.manager.secrets) (horphan : c.orphan = none) (e : ConnectionManagerError)
    {after : After} (hafter : after.provisional = c.provisional) :
    Inv ⟨m, s.calls.set i (failed e after), s.deleted⟩ := by
  obtain ⟨hholds, hupToDate, hcopies, hprovisional⟩ := failed_idle (m := m) e after
  refine h.pass hc hprofiles (fun reference hhas => ?_) (fun hd => ?_) hupToDate hcopies horphan
    fun reference href => .inl ?_
  · rw [Manager.HasSecret, hsecrets]
    exact hhas
  · rw [hholds] at hd
    cases hd
  · rw [← hafter, ← hprovisional]
    exact href

theorem persistProfiles_same {world : CallWorld} {pending : Profiles} {m m' : Manager}
    {result : Except ConnectionManagerError Unit} (h : m.persistProfiles world 0 pending = (result, m')) :
    m'.profiles = m.profiles ∧ m'.secrets = m.secrets := by
  rcases m.persistProfiles_cases world 0 pending with ⟨-, e, hpersist⟩ | ⟨-, hpersist⟩ <;>
    rw [hpersist] at h <;> cases h <;> exact ⟨rfl, rfl⟩

theorem writeSecret_store {world : CallWorld} {reference : String} {secret : ConnectionSecret} {m m' : Manager}
    {result : Except ConnectionManagerError Unit}
    (h : m.writeSecret world 0 (.store reference secret) = (result, m')) :
    m'.profiles = m.profiles ∧ (∀ r, m.HasSecret r → m'.HasSecret r) ∧
      (result = .ok () → m'.HasSecret reference) := by
  rcases m.writeSecret_cases world 0 (.store reference secret) with ⟨e, hwrite⟩ | hwrite <;>
    rw [hwrite] at h <;> cases h
  · refine ⟨rfl, fun _ hhas => hhas, fun hok => ?_⟩
    cases hok
  · have hself : ∀ r, (Function.update m.secrets.map reference (some secret)) r =
        if r = reference then some secret else m.secrets.map r := fun r => Function.update_apply _ _ _ r
    refine ⟨rfl, fun r hhas => ?_, fun _ => ?_⟩
    · have hr : (Function.update m.secrets.map reference (some secret) r).isSome := by
        rw [hself]
        split
        · rfl
        · exact hhas
      exact hr
    · have hr : (Function.update m.secrets.map reference (some secret) reference).isSome := by
        rw [hself, if_pos rfl]
        rfl
      exact hr

/-- Removing a secret takes no other one. -/
theorem writeSecret_remove {world : CallWorld} {reference : String} {m m' : Manager}
    {result : Except ConnectionManagerError Unit}
    (h : m.writeSecret world 0 (.remove reference) = (result, m')) :
    m'.profiles = m.profiles ∧ (∀ r, r ≠ reference → m.HasSecret r → m'.HasSecret r) ∧
      ∀ e, result = .error e → m' = m := by
  rcases m.writeSecret_cases world 0 (.remove reference) with ⟨e, hwrite⟩ | hwrite <;>
    rw [hwrite] at h <;> cases h
  · exact ⟨rfl, fun _ _ hhas => hhas, fun _ _ => rfl⟩
  · refine ⟨rfl, fun r hne hhas => ?_, fun e he => ?_⟩
    · have hr : (Function.update m.secrets.map reference none r).isSome := by
        rw [Function.update_of_ne hne]
        exact hhas
      exact hr
    · cases he

/-! ### The accesses that change the profiles or take a secret away -/

/-- The secret of a stored profile is missing only for the call that has the lock. -/
theorem Inv.secret_of_holds (h : s.Inv) (hc : s.calls[i]? = some c) (hholds : c.holds = true) {k : String}
    {p : ConnectionProfile} (hget : s.manager.profiles.get? k = some p) :
    s.manager.HasSecret p.secretRef ∨ c.orphan = some k := by
  rcases h.secrets k p hget with hhas | ⟨e, he, hek⟩
  · exact .inl hhas
  · obtain ⟨j, hj⟩ := List.mem_iff_getElem?.mp he
    obtain rfl := h.lock j i e c hj hc (Stage.holds_of_orphan hek) hholds
    rw [hc] at hj
    cases hj
    exact .inr hek

theorem Inv.insert (h : s.Inv) {profile : ConnectionProfile} {pending : Profiles} {after : After}
    (hc : s.calls[i]? = some (.upsertPublish profile pending after)) {world : CallWorld}
    (hfresh : s.uuidsFresh (.advance i world) = true) (hcurrent : s.upToDate (.advance i world) = true) :
    Inv ⟨{ s.manager with profiles := pending }, s.calls.set i (.done (.ok ())), s.deleted⟩ := by
  have hmem := List.mem_of_getElem? hc
  have hpending : pending = s.manager.profiles.insert profile.id profile := h.upToDate _ hmem
  have hget : ∀ k, pending.get? k = if k = profile.id then some profile else s.manager.profiles.get? k :=
    fun k => by rw [hpending, OrderedDict.get?_insert]
  -- what the two assumptions say of the profile, for an update and for a copy
  have hnew : profile.id ∉ s.deleted ∧ s.manager.HasSecret profile.secretRef ∧
      ∀ (j : ℕ) (e : Stage), j ≠ i → s.calls[j]? = some e → e.provisional ≠ some profile.secretRef := by
    rw [uuidsFresh] at hfresh
    rw [Traffic.upToDate] at hcurrent
    rw [hc] at hfresh hcurrent
    cases after with
    | remove reference =>
      obtain rfl : profile.secretRef = reference := h.copies _ hmem
      refine ⟨of_decide_eq_true hfresh, (h.provisional _ hmem _ rfl).1, fun j e hj he heq => hj ?_⟩
      exact h.distinct j i e _ _ he hc heq rfl
    | update =>
      rw [Bool.and_eq_true, decide_eq_true_eq] at hcurrent
      refine ⟨hcurrent.1, hcurrent.2, fun j e _ he => ?_⟩
      exact of_decide_eq_true (List.all_eq_true.mp hfresh e (List.mem_of_getElem? he))
    | restore reference previous =>
      rw [Bool.and_eq_true, decide_eq_true_eq] at hcurrent
      refine ⟨hcurrent.1, hcurrent.2, fun j e _ he => ?_⟩
      exact of_decide_eq_true (List.all_eq_true.mp hfresh e (List.mem_of_getElem? he))
  obtain ⟨halive, hhas, hothers⟩ := hnew
  refine h.move hc (fun k p hp => ?_) (fun hd => ?_) (.inr rfl) trivial trivial (fun k p hp => ?_)
    (fun id hid => ?_) (fun j e reference hj he href => ?_) fun _ href => ?_
  · rw [hget] at hp
    split at hp
    next hk =>
      cases hp
      exact hk.symm
    · exact h.ids k p hp
  · cases hd
  · rw [hget] at hp
    split at hp
    · cases hp
      exact .inl hhas
    · rcases h.secret_of_holds hc rfl hp with hhas' | horphan
      · exact .inl hhas'
      · cases horphan
  · have hne : id ≠ profile.id := by
      rintro rfl
      exact halive hid
    exact (hget id).trans ((if_neg hne).trans (h.absent id hid))
  · obtain ⟨hhas', hfree⟩ := h.provisional e (List.mem_of_getElem? he) reference href
    refine ⟨hhas', fun k p hp => ?_⟩
    rw [hget] at hp
    split at hp
    · cases hp
      intro heq
      exact hothers j e hj he (heq ▸ href)
    · exact hfree k p hp
  · cases href

theorem Inv.remove (h : s.Inv) (hc : s.calls[i]? = some c) (hholds : c.holds = true) {id : String}
    (horphan : ∀ k, c.orphan = some k → k = id) {deleted : List String}
    (hdeleted : ∀ k ∈ deleted, k = id ∨ k ∈ s.deleted) (hprofiles : m.profiles = s.manager.remove id)
    (hsecrets : m.secrets = s.manager.secrets) (result : Except ConnectionManagerError Unit) :
    Inv ⟨m, s.calls.set i (.done result), deleted⟩ := by
  have hget : ∀ k, m.profiles.get? k = if k = id then none else s.manager.profiles.get? k :=
    fun k => by rw [hprofiles, Manager.get?_remove]
  have hkept : ∀ k p, m.profiles.get? k = some p → k ≠ id ∧ s.manager.profiles.get? k = some p := by
    intro k p hp
    rw [hget] at hp
    split at hp
    · cases hp
    next hk => exact ⟨hk, hp⟩
  have hsame : ∀ reference, m.HasSecret reference ↔ s.manager.HasSecret reference := by
    intro reference
    rw [Manager.HasSecret, Manager.HasSecret, hsecrets]
  refine h.move hc (fun k p hp => h.ids k p (hkept k p hp).2) (fun hd => ?_) (.inr hholds) trivial trivial
    (fun k p hp => .inl ?_) (fun k hk => ?_) (fun j e reference hj he href => ?_) fun _ href => ?_
  · cases hd
  · obtain ⟨hne, hp⟩ := hkept k p hp
    rcases h.secret_of_holds hc hholds hp with hhas | hek
    · exact (hsame _).mpr hhas
    · exact absurd (horphan k hek) hne
  · rw [hget]
    split
    · rfl
    next hne =>
      rcases hdeleted k hk with hk | hk
      · exact absurd hk hne
      · exact h.absent k hk
  · obtain ⟨hhas, hfree⟩ := h.provisional e (List.mem_of_getElem? he) reference href
    exact ⟨(hsame _).mpr hhas, fun k p hp => hfree k p (hkept k p hp).2⟩
  · cases href

/-- `delete_with_secret` has removed the secret of a profile that nobody shares. -/
theorem Inv.orphaned (h : s.Inv) {id : String} {profile : ConnectionProfile} {pending : Profiles}
    (hc : s.calls[i]? = some (.dropRemove id profile pending)) (hprofiles : m.profiles = s.manager.profiles)
    (hkeeps : ∀ r, r ≠ profile.secretRef → s.manager.HasSecret r → m.HasSecret r) :
    Inv ⟨m, s.calls.set i (.dropPublish id pending), s.deleted⟩ := by
  obtain ⟨hpending, hget, hshared⟩ : _ ∧ _ ∧ _ := h.upToDate _ (List.mem_of_getElem? hc)
  have hupToDate : (Stage.dropPublish id pending).UpToDate m := upToDate_congr hprofiles hpending
  refine h.move hc ?_ (fun _ => .inl rfl) (.inl hprofiles) hupToDate trivial (fun k p hp => ?_) ?_
    (fun j e reference hj he href => ?_) fun _ href => ?_
  · rw [hprofiles]
    exact h.ids
  · rw [hprofiles] at hp
    by_cases hk : k = id
    · rw [hk]
      exact .inr (.inl rfl)
    · have hne : p.secretRef ≠ profile.secretRef := by
        intro heq
        rw [Manager.secretIsShared, List.any_eq_false] at hshared
        have hentry := hshared (k, p) (OrderedDict.mem_of_get? hp)
        rw [h.ids k p hp, heq] at hentry
        exact hentry (by simp [hk])
      rcases h.secret_of_holds hc rfl hp with hhas | hek
      · exact .inl (hkeeps _ hne hhas)
      · cases hek
  · rw [hprofiles]
    exact h.absent
  · obtain ⟨hhas, hfree⟩ := h.provisional e (List.mem_of_getElem? he) reference href
    rw [hprofiles]
    exact ⟨hkeeps _ (hfree id profile hget).symm hhas, hfree⟩
  · cases href

/-- `duplicate` takes its provisional secret back, or fails to. -/
theorem Inv.undone (h : s.Inv) {reference : String} {error : ConnectionManagerError}
    (hc : s.calls[i]? = some (.undo (.remove reference) error)) (hprofiles : m.profiles = s.manager.profiles)
    (hkeeps : ∀ r, r ≠ reference → s.manager.HasSecret r → m.HasSecret r)
    (result : Except ConnectionManagerError Unit) : Inv ⟨m, s.calls.set i (.done result), s.deleted⟩ := by
  have hunused := (h.provisional _ (List.mem_of_getElem? hc) reference rfl).2
  refine h.move hc ?_ (fun hd => ?_) (.inl hprofiles) trivial trivial (fun k p hp => ?_) ?_
    (fun j e r hj he href => ?_) fun _ href => ?_
  · rw [hprofiles]
    exact h.ids
  · cases hd
  · rw [hprofiles] at hp
    rcases h.secrets k p hp with hhas | ⟨e, he, hek⟩
    · exact .inl (hkeeps _ (hunused k p hp) hhas)
    · obtain ⟨j, hj⟩ := List.mem_iff_getElem?.mp he
      refine .inr (.inr ⟨j, e, ?_, hj, hek⟩)
      rintro rfl
      rw [hc] at hj
      cases hj
      cases hek
  · rw [hprofiles]
    exact h.absent
  · obtain ⟨hhas, hfree⟩ := h.provisional e (List.mem_of_getElem? he) r href
    have hne : r ≠ reference := by
      rintro rfl
      exact hj (h.distinct j i e _ r he hc href rfl)
    rw [hprofiles]
    exact ⟨hkeeps _ hne hhas, hfree⟩
  · cases href

/-! ### One access -/

theorem get_ok {m : Manager} {id : String} {profile : ConnectionProfile} (h : m.get id = .ok profile) :
    m.profiles.get? id = some profile := by
  rcases m.get_cases id with ⟨e, hget⟩ | ⟨profile', hget, hprofile⟩
  · rw [hget] at h
    cases h
  · rw [hget] at h
    cases h
    exact hprofile

/-- A call goes on and changes neither profiles nor secrets. -/
theorem Inv.keep (h : s.Inv) (hc : s.calls[i]? = some c) (hprofiles : m.profiles = s.manager.profiles)
    (hsecrets : m.secrets = s.manager.secrets)
    (hlock : d.holds = true → c.holds = true ∨ ∀ e ∈ s.calls, e.holds = false)
    (hupToDate : d.UpToDate m) (hcopies : d.Copies) (horphan : c.orphan = none)
    (hprovisional : d.provisional = none ∨ d.provisional = c.provisional) :
    Inv ⟨m, s.calls.set i d, s.deleted⟩ := by
  refine h.pass hc hprofiles (fun reference hhas => ?_) hlock hupToDate hcopies horphan
    fun reference href => .inl ?_
  · rw [Manager.HasSecret, hsecrets]
    exact hhas
  · rcases hprovisional with hnone | hsame
    · rw [hnone] at href
      cases href
    · exact hsame ▸ href

theorem Inv.advance (h : s.Inv) (hc : s.calls[i]? = some c)
    (hfree : c.waits = true → ∀ e ∈ s.calls, e.holds = false) {world : CallWorld}
    (hfresh : s.uuidsFresh (.advance i world) = true) (hcurrent : s.upToDate (.advance i world) = true) :
    Inv ⟨(advance s.manager world c).1, s.calls.set i (advance s.manager world c).2,
      c.deletes.toList ++ s.deleted⟩ := by
  have hmem := List.mem_of_getElem? hc
  have hread := h.upToDate _ hmem
  have hcopies := h.copies _ hmem
  have hgrows : ∀ reference, s.manager.HasSecret reference → s.manager.HasSecret reference := fun _ hhas => hhas
  cases c with
  | updateCheck profile after =>
    simp only [Connections.advance]
    split
    · refine h.keep hc rfl rfl (fun hd => ?_) trivial ?_ rfl (.inr rfl)
      · cases hd
      · cases after <;> exact hcopies
    · exact h.fail hc rfl rfl rfl _ rfl
  | upsertLock profile after =>
    simp only [Connections.advance]
    split
    · exact h.fail hc rfl rfl rfl _ rfl
    · refine h.keep hc rfl rfl (fun _ => .inr (hfree rfl)) rfl ?_ rfl (.inr rfl)
      cases after <;> exact hcopies
  | upsertSave profile pending after =>
    simp only [Connections.advance]
    split
    next heq =>
      obtain ⟨hprofiles, hsecrets⟩ := persistProfiles_same heq
      exact h.fail hc hprofiles hsecrets rfl _ rfl
    next m' heq =>
      obtain ⟨hprofiles, hsecrets⟩ := persistProfiles_same heq
      have hnext : (Stage.upsertPublish profile pending after).UpToDate m' := upToDate_congr hprofiles hread
      refine h.keep hc hprofiles hsecrets (fun _ => .inl rfl) hnext ?_ rfl (.inr rfl)
      cases after <;> exact hcopies
  | upsertPublish profile pending after => exact h.insert hc hfresh hcurrent
  | undo after error =>
    cases after with
    | update => exact h.finish hc rfl hgrows rfl _
    | restore reference previous =>
      simp only [Connections.advance]
      split
      next heq =>
        obtain ⟨hprofiles, hkeeps, -⟩ := writeSecret_store heq
        exact h.finish hc hprofiles hkeeps rfl _
      next heq =>
        obtain ⟨hprofiles, hkeeps, -⟩ := writeSecret_store heq
        exact h.finish hc hprofiles hkeeps rfl _
    | remove reference =>
      simp only [Connections.advance]
      split
      next heq =>
        obtain ⟨hprofiles, hkeeps, -⟩ := writeSecret_remove heq
        exact h.undone hc hprofiles hkeeps _
      next heq =>
        obtain ⟨hprofiles, hkeeps, -⟩ := writeSecret_remove heq
        exact h.undone hc hprofiles hkeeps _
  | secretResolve profile secret =>
    simp only [Connections.advance]
    split
    · exact h.finish hc rfl hgrows rfl _
    · refine h.keep hc rfl rfl (fun hd => ?_) trivial trivial rfl (.inl rfl)
      cases hd
  | secretStore profile secret previous =>
    simp only [Connections.advance]
    split
    next heq =>
      obtain ⟨hprofiles, hkeeps, -⟩ := writeSecret_store heq
      exact h.finish hc hprofiles hkeeps rfl _
    next heq =>
      obtain ⟨hprofiles, hkeeps, -⟩ := writeSecret_store heq
      refine h.pass hc hprofiles hkeeps (fun hd => ?_) trivial trivial rfl fun _ href => ?_
      · cases hd
      · cases href
  | duplicateGet id name =>
    simp only [Connections.advance]
    split
    · exact h.finish hc rfl hgrows rfl _
    · refine h.keep hc rfl rfl (fun hd => ?_) trivial trivial rfl (.inl rfl)
      cases hd
  | duplicateResolve original name =>
    simp only [Connections.advance]
    split
    · exact h.finish hc rfl hgrows rfl _
    · refine h.keep hc rfl rfl (fun hd => ?_) trivial trivial rfl (.inl rfl)
      cases hd
  | duplicateStore original name secret =>
    simp only [Connections.advance]
    split
    next heq =>
      obtain ⟨hprofiles, hkeeps, -⟩ := writeSecret_store heq
      exact h.finish hc hprofiles hkeeps rfl _
    next heq =>
      obtain ⟨hprofiles, hkeeps, hstored⟩ := writeSecret_store heq
      rw [uuidsFresh, hc, Bool.and_eq_true, List.all_eq_true, List.all_eq_true] at hfresh
      refine h.pass hc hprofiles hkeeps (fun hd => ?_) trivial rfl rfl fun reference href => .inr ?_
      · cases hd
      · cases href
        refine ⟨hstored rfl, fun k p hget => ?_, fun e he => of_decide_eq_true (hfresh.2 e he)⟩
        exact of_decide_eq_true (hfresh.1 (k, p) (OrderedDict.mem_of_get? hget))
  | deleteLock id =>
    simp only [Connections.advance]
    split
    · exact h.finish hc rfl hgrows rfl _
    · exact h.keep hc rfl rfl (fun _ => .inr (hfree rfl)) rfl trivial rfl (.inl rfl)
  | deleteSave id pending =>
    simp only [Connections.advance]
    split
    next heq =>
      obtain ⟨hprofiles, hsecrets⟩ := persistProfiles_same heq
      refine h.keep hc hprofiles hsecrets (fun hd => ?_) trivial trivial rfl (.inl rfl)
      cases hd
    next m' heq =>
      obtain ⟨hprofiles, hsecrets⟩ := persistProfiles_same heq
      have hnext : (Stage.deletePublish id pending).UpToDate m' := upToDate_congr hprofiles hread
      exact h.keep hc hprofiles hsecrets (fun _ => .inl rfl) hnext trivial rfl (.inl rfl)
  | deletePublish id pending =>
    refine h.remove (m := { s.manager with profiles := pending }) hc rfl (fun k hk => ?_)
      (fun k hk => ?_) hread rfl _
    · cases hk
    · exact (List.mem_cons.mp hk)
  | dropLock id =>
    simp only [Connections.advance]
    split
    · exact h.finish hc rfl hgrows rfl _
    next profile hget =>
      split
      · have hnext : (Stage.dropSave id profile true (s.manager.remove id)).UpToDate s.manager :=
          ⟨rfl, get_ok hget⟩
        exact h.keep hc rfl rfl (fun _ => .inr (hfree rfl)) hnext trivial rfl (.inl rfl)
      next hshared =>
        have hnext : (Stage.dropResolve id profile (s.manager.remove id)).UpToDate s.manager :=
          ⟨rfl, get_ok hget, Bool.eq_false_iff.mpr hshared⟩
        exact h.keep hc rfl rfl (fun _ => .inr (hfree rfl)) hnext trivial rfl (.inl rfl)
  | dropResolve id profile pending =>
    simp only [Connections.advance]
    split
    · exact h.finish hc rfl hgrows rfl _
    · exact h.keep hc rfl rfl (fun _ => .inl rfl) hread trivial rfl (.inl rfl)
  | dropSave id profile shared pending =>
    simp only [Connections.advance]
    split
    next heq =>
      obtain ⟨hprofiles, hsecrets⟩ := persistProfiles_same heq
      refine h.keep hc hprofiles hsecrets (fun hd => ?_) trivial trivial rfl (.inl rfl)
      cases hd
    next m' heq =>
      obtain ⟨hprofiles, hsecrets⟩ := persistProfiles_same heq
      cases shared with
      | true =>
        have hnext : (Stage.dropPublish id pending).UpToDate m' := upToDate_congr hprofiles hread.1
        exact h.keep hc hprofiles hsecrets (fun _ => .inl rfl) hnext trivial rfl (.inl rfl)
      | false =>
        have hnext : (Stage.dropRemove id profile pending).UpToDate m' := upToDate_congr hprofiles hread
        exact h.keep hc hprofiles hsecrets (fun _ => .inl rfl) hnext trivial rfl (.inl rfl)
  | dropRemove id profile pending =>
    simp only [Connections.advance]
    split
    next e m' heq =>
      obtain ⟨-, -, hsame⟩ := writeSecret_remove heq
      obtain rfl := hsame e rfl
      exact h.keep hc rfl rfl (fun _ => .inl rfl) hread.1 trivial rfl (.inl rfl)
    next heq =>
      obtain ⟨hprofiles, hkeeps, -⟩ := writeSecret_remove heq
      exact h.orphaned hc hprofiles hkeeps
  | dropRevert id pending error =>
    simp only [Connections.advance]
    split
    next m' heq =>
      obtain ⟨hprofiles, hsecrets⟩ := persistProfiles_same heq
      refine h.remove (m := { m' with profiles := pending }) hc rfl (fun k hk => ?_) (fun k hk => .inr hk) hread hsecrets _
      cases hk
    next heq =>
      obtain ⟨hprofiles, hsecrets⟩ := persistProfiles_same heq
      refine h.keep hc hprofiles hsecrets (fun hd => ?_) trivial trivial rfl (.inl rfl)
      cases hd
  | dropPublish id pending =>
    refine h.remove (m := { s.manager with profiles := pending }) hc rfl (fun k hk => ?_)
      (fun k hk => ?_) hread rfl _
    · exact (Option.some.inj hk).symm
    · exact (List.mem_cons.mp hk)
  | done result => exact h.finish hc rfl hgrows rfl result

theorem Inv.call (h : s.Inv) (request : Request) : Inv { s with calls := s.calls ++ [request.stage] } := by
  have hidle : request.stage.holds = false ∧ request.stage.UpToDate s.manager ∧ request.stage.Copies ∧
      request.stage.provisional = none := by
    cases request <;> exact ⟨rfl, trivial, trivial, rfl⟩
  obtain ⟨hholds, hupToDate, hcopies, hprovisional⟩ := hidle
  -- an index of the longer list is an old one or that of the new call
  have hcase : ∀ {j : ℕ} {b : Stage}, (s.calls ++ [request.stage])[j]? = some b →
      s.calls[j]? = some b ∨ b = request.stage := by
    intro j b hb
    rw [List.getElem?_append] at hb
    split at hb
    · exact .inl hb
    · exact .inr (List.mem_singleton.mp (List.mem_of_getElem? hb))
  refine ⟨h.ids, fun j k a b ha hb hja hkb => ?_, fun e he => ?_, fun e he => ?_, fun k p hget => ?_, h.absent,
    fun e he reference href => ?_, fun j k a b reference ha hb hra hrb => ?_⟩
  · rcases hcase ha with ha | rfl
    · rcases hcase hb with hb | rfl
      · exact h.lock j k a b ha hb hja hkb
      · rw [hholds] at hkb
        cases hkb
    · rw [hholds] at hja
      cases hja
  · rcases List.mem_append.mp he with he | he
    · exact h.upToDate e he
    · exact List.mem_singleton.mp he ▸ hupToDate
  · rcases List.mem_append.mp he with he | he
    · exact h.copies e he
    · exact List.mem_singleton.mp he ▸ hcopies
  · rcases h.secrets k p hget with hhas | ⟨e, he, hek⟩
    · exact .inl hhas
    · exact .inr ⟨e, List.mem_append_left _ he, hek⟩
  · rcases List.mem_append.mp he with he | he
    · exact h.provisional e he reference href
    · rw [List.mem_singleton.mp he, hprovisional] at href
      cases href
  · rcases hcase ha with ha | rfl
    · rcases hcase hb with hb | rfl
      · exact h.distinct j k a b reference ha hb hra hrb
      · rw [hprovisional] at hrb
        cases hrb
    · rw [hprovisional] at hra
      cases hra

theorem Inv.step (h : s.Inv) {turn : Turn} {t : Traffic} (hfresh : s.uuidsFresh turn = true)
    (hcurrent : s.upToDate turn = true) (hstep : traffic.step s turn = some t) : t.Inv := by
  cases turn with
  | call request =>
    cases hstep
    exact h.call request
  | advance i world =>
    simp only [traffic, Option.bind_eq_bind, Option.bind_eq_some_iff] at hstep
    obtain ⟨c, hc, hstep⟩ := hstep
    split at hstep
    · cases hstep
    next hlock =>
      cases hstep
      refine h.advance hc (fun hwaits e he => ?_) hfresh hcurrent
      rw [hwaits, Bool.true_and, List.any_eq_true] at hlock
      cases hholds : e.holds with
      | false => rfl
      | true => exact absurd ⟨e, he, hholds⟩ hlock

theorem Inv.start {m : Manager} (h : m.Consistent) : (Traffic.start m).Inv where
  ids := h.ids
  lock i j c d hc := by cases hc
  upToDate c hc := by cases hc
  copies c hc := by cases hc
  secrets k p hget := .inl (h.secrets k p hget)
  absent id hid := by cases hid
  provisional c hc := by cases hc
  distinct i j c d reference hc := by cases hc

end Traffic

/-- An update that publishes outside of the condition brings a deleted profile back, or one
without its secret. -/
theorem publish_outdated {s t : Traffic} (h : s.Inv) {turn : Turn} (hstep : traffic.step s turn = some t)
    (hout : s.upToDate turn = false) : ∃ profile, t.manager.profiles.get? profile.id = some profile ∧
      (profile.id ∈ t.deleted ∨ ¬ t.manager.HasSecret profile.secretRef) := by
  cases turn with
  | call request => cases hout
  | advance i world =>
    simp only [traffic, Option.bind_eq_bind, Option.bind_eq_some_iff] at hstep
    obtain ⟨c, hc, hstep⟩ := hstep
    rw [Traffic.upToDate, hc] at hout
    have hread := h.upToDate c (List.mem_of_getElem? hc)
    cases c with
    | upsertPublish profile pending after =>
      have hstored : pending.get? profile.id = some profile := by
        rw [show pending = s.manager.profiles.insert profile.id profile from hread, OrderedDict.get?_insert,
          if_pos rfl]
      have hcase : profile.id ∈ s.deleted ∨ ¬ s.manager.HasSecret profile.secretRef := by
        cases after with
        | remove reference => cases hout
        | _ =>
          by_cases hdeleted : profile.id ∈ s.deleted
          · exact .inl hdeleted
          · rw [Bool.and_eq_false_iff] at hout
            rcases hout with hdeleted' | hmissing
            · exact absurd hdeleted (not_not.mpr (not_not.mp (of_decide_eq_false hdeleted')))
            · exact .inr (Bool.eq_false_iff.mp hmissing)
      split at hstep
      · cases hstep
      · cases hstep
        exact ⟨profile, hstored, hcase⟩
    | _ => cases hout

/-- Whatever overlaps: as long as every update publishes a profile that has not been deleted
and has its secret, between the calls every stored profile has its secret and no deleted
profile is stored; and the first update that does not leaves a profile of which one of the
two is false. -/
theorem quiet_consistent (m : Manager) (hm : m.Consistent) (s : Traffic)
    (h : traffic.Reach (fun s turn => s.uuidsFresh turn = true ∧ s.upToDate turn = true) (Traffic.start m) s) :
    (s.Quiet → s.manager.Consistent ∧ ∀ id ∈ s.deleted, s.manager.profiles.get? id = none) ∧
      ∀ turn t, traffic.step s turn = some t → s.upToDate turn = false →
        ∃ profile, t.manager.profiles.get? profile.id = some profile ∧
          (profile.id ∈ t.deleted ∨ ¬ t.manager.HasSecret profile.secretRef) := by
  have hinv : s.Inv := by
    refine h.invariant (Traffic.Inv.start hm) fun s turn t hs hok hstep => ?_
    exact hs.step hok.1 hok.2 hstep
  refine ⟨fun hquiet => ⟨⟨hinv.ids, fun k p hget => ?_⟩, hinv.absent⟩, fun turn t hstep hout =>
    publish_outdated hinv hstep hout⟩
  rcases hinv.secrets k p hget with hhas | ⟨c, hc, horphan⟩
  · exact hhas
  · rw [Stage.orphan_of_isDone (hquiet c hc)] at horphan
    cases horphan

/-! ### One profile -/

def sampleStored : Manager where
  profiles := .insert .empty "p" (sampleProfile "p" "Oracle")
  persistent := true
  file := some [sampleProfile "p" "Oracle"]
  secrets := sampleVault

theorem sampleStored_consistent : sampleStored.Consistent := by
  have hget : ∀ k p, sampleStored.profiles.get? k = some p → k = "p" ∧ p = sampleProfile "p" "Oracle" := by
    intro k p h
    have h : (OrderedDict.insert .empty "p" (sampleProfile "p" "Oracle")).get? k = some p := h
    rw [OrderedDict.get?_insert] at h
    split at h
    next hk => exact ⟨hk, (Option.some.inj h).symm⟩
    · cases h
  refine ⟨fun k p h => ?_, fun k p h => ?_⟩
  · obtain ⟨rfl, rfl⟩ := hget k p h
    rfl
  · obtain ⟨rfl, rfl⟩ := hget k p h
    exact rfl

/-- The update is checked, the profile is deleted with its secret, the update goes on. -/
def sampleTurns : List Turn :=
  [.call (.update (sampleProfile "p" "Oracle 19")), .call (.deleteWithSecret "p"), .advance 0 (sampleCall false)] ++
    List.replicate 5 (.advance 1 (sampleCall false)) ++ List.replicate 3 (.advance 0 (sampleCall false))

theorem deleted_profile_returns :
    ¬ ∀ m : Manager, m.Consistent → ∀ s : Traffic,
      traffic.Reach (fun s turn => s.uuidsFresh turn = true) (Traffic.start m) s → s.Quiet →
        s.manager.Consistent ∧ ∀ id ∈ s.deleted, s.manager.profiles.get? id = none := by
  intro hclaim
  have hrun : ((traffic.guarded Traffic.uuidsFresh).exec (Traffic.start sampleStored) sampleTurns).any (fun s =>
      s.calls.all Stage.isDone && decide ("p" ∈ s.deleted) &&
        (s.manager.profiles.get? "p").isSome) = true := by
    decide +kernel
  obtain ⟨s, hexec, hfacts⟩ := (Option.any_eq_true _ _).mp hrun
  rw [Bool.and_eq_true, Bool.and_eq_true, List.all_eq_true, decide_eq_true_eq] at hfacts
  obtain ⟨⟨hquiet, hdeleted⟩, hstored⟩ := hfacts
  have habsent := (hclaim sampleStored sampleStored_consistent s
    (.of_guarded (fun _ _ hguard => hguard) sampleTurns hexec) hquiet).2 "p" hdeleted
  rw [habsent] at hstored
  cases hstored

/-- The deletion alone. -/
theorem quiet_consistent_sample : ∃ s : Traffic, s.Quiet ∧ s.deleted = ["p"] ∧ s.manager.Consistent ∧
    ∀ id ∈ s.deleted, s.manager.profiles.get? id = none := by
  have hrun : ((traffic.guarded fun s turn => s.uuidsFresh turn && s.upToDate turn).exec
      (Traffic.start sampleStored)
      (.call (.deleteWithSecret "p") :: List.replicate 5 (.advance 0 (sampleCall false)))).any (fun s =>
        s.calls.all Stage.isDone && decide (s.deleted = ["p"])) = true := by
    decide +kernel
  obtain ⟨s, hexec, hfacts⟩ := (Option.any_eq_true _ _).mp hrun
  rw [Bool.and_eq_true, List.all_eq_true, decide_eq_true_eq] at hfacts
  have hreach : traffic.Reach (fun s turn => s.uuidsFresh turn = true ∧ s.upToDate turn = true)
      (Traffic.start sampleStored) s :=
    .of_guarded (fun _ _ hguard => (Bool.and_eq_true _ _).mp hguard) _ hexec
  exact ⟨s, hfacts.1, hfacts.2, (quiet_consistent sampleStored sampleStored_consistent s hreach).1 hfacts.1⟩

end Jaiba.Connections
