import Jaiba.Connections.Profiles

/-!
# Failed operations of the connection manager

Every operation that fails undoes what it wrote; only the loop of `import` keeps
the profiles it has already saved.
-/

namespace Jaiba.Connections
open Jaiba.Lib

/-! ### What the steps of an operation do -/

namespace Manager

variable {m m' : Manager} {world : CallWorld} {i : ℕ}

/-- The `i`-th saving of the call goes through. -/
def Saves (m : Manager) (world : CallWorld) (i : ℕ) : Prop := m.persistent = true → world.save i = .ok ()

def saved (m : Manager) (pending : Profiles) : Manager :=
  { m with file := if m.persistent then some (snapshot pending) else m.file }

def published (m : Manager) (pending : Profiles) : Manager := { m.saved pending with profiles := pending }

theorem persistProfiles_cases (m : Manager) (world : CallWorld) (i : ℕ) (pending : Profiles) :
    (¬ m.Saves world i ∧ ∃ e, m.persistProfiles world i pending = (.error e, m)) ∨
      (m.Saves world i ∧ m.persistProfiles world i pending = (.ok (), m.saved pending)) := by
  obtain ⟨profiles, persistent, file, secrets⟩ := m
  unfold persistProfiles Saves saved
  cases persistent with
  | false =>
    refine .inr ⟨fun h => ?_, rfl⟩
    cases h
  | true =>
    cases hsave : world.save i with
    | error e =>
      refine .inl ⟨fun h => ?_, ⟨.persistence e, rfl⟩⟩
      cases h rfl
    | ok u => exact .inr ⟨fun _ => rfl, rfl⟩

theorem writeSecret_cases (m : Manager) (world : CallWorld) (i : ℕ) (call : Call) :
    (∃ e, m.writeSecret world i call = (.error e, m)) ∨
      m.writeSecret world i call = (.ok (), { m with secrets := m.secrets.call call }) := by
  unfold writeSecret
  cases world.secret i with
  | error e => exact .inl ⟨.persistence e, rfl⟩
  | ok u => exact .inr rfl

theorem writeSecret_ok (h : world.secret i = .ok ()) (call : Call) :
    m.writeSecret world i call = (.ok (), { m with secrets := m.secrets.call call }) := by
  rw [writeSecret, h]

theorem publish_cases (m : Manager) (world : CallWorld) (i : ℕ) (pending : Profiles) :
    (¬ m.Saves world i ∧ ∃ e, m.publish world i pending = (.error e, m)) ∨
      (m.Saves world i ∧ m.publish world i pending = (.ok (), m.published pending)) := by
  unfold publish
  rcases m.persistProfiles_cases world i pending with ⟨hsaves, e, h⟩ | ⟨hsaves, h⟩
  · rw [h]
    exact .inl ⟨hsaves, e, rfl⟩
  · rw [h]
    exact .inr ⟨hsaves, rfl⟩

theorem upsert_cases (m : Manager) (world : CallWorld) (i : ℕ) (profile : ConnectionProfile)
    (replacing : Bool) :
    ((m.rejects profile replacing = true ∨ ¬ m.Saves world i) ∧
        ∃ e, m.upsert world i profile replacing = (.error e, m)) ∨
      (m.rejects profile replacing = false ∧ m.Saves world i ∧
        m.upsert world i profile replacing =
          (.ok (), m.published (m.profiles.insert profile.id profile))) := by
  unfold upsert
  cases hrejects : m.rejects profile replacing with
  | true =>
    rw [if_pos rfl]
    exact .inl ⟨.inl rfl, ⟨_, rfl⟩⟩
  | false =>
    rw [if_neg Bool.false_ne_true]
    rcases m.publish_cases world i (m.profiles.insert profile.id profile) with ⟨hsaves, h⟩ | ⟨hsaves, h⟩
    · exact .inl ⟨.inr hsaves, h⟩
    · exact .inr ⟨rfl, hsaves, h⟩

theorem create_cases (m : Manager) (world : CallWorld) (i : ℕ) (name : String)
    (connectionType : ConnectionType) (endpoint : ConnectionEndpoint) (secretRef : String) :
    (∃ e, m.create world i name connectionType endpoint secretRef = (.error e, m)) ∨
      ∃ profile, m.rejects profile false = false ∧
        m.create world i name connectionType endpoint secretRef =
          (.ok profile, m.published (m.profiles.insert profile.id profile)) := by
  unfold create
  dsimp only
  rcases m.upsert_cases world 0 ⟨world.uuid i, name, connectionType, endpoint, secretRef, []⟩ false with
    ⟨-, e, h⟩ | ⟨hrejects, -, h⟩
  · rw [h]
    exact .inl ⟨e, rfl⟩
  · rw [h]
    exact .inr ⟨_, hrejects, rfl⟩

theorem update_cases (m : Manager) (world : CallWorld) (profile : ConnectionProfile) :
    (∃ e, m.update world profile = (.error e, m)) ∨
      (m.rejects profile true = false ∧
        m.update world profile = (.ok (), m.published (m.profiles.insert profile.id profile))) := by
  unfold update
  split
  · rcases m.upsert_cases world 0 profile true with ⟨-, h⟩ | ⟨hrejects, -, h⟩
    · exact .inl h
    · exact .inr ⟨hrejects, h⟩
  · exact .inl ⟨_, rfl⟩

theorem get_cases (m : Manager) (id : String) :
    (∃ e, m.get id = .error e) ∨ ∃ profile, m.get id = .ok profile ∧ m.profiles.get? id = some profile := by
  unfold get
  cases m.profiles.get? id with
  | none => exact .inl ⟨_, rfl⟩
  | some profile => exact .inr ⟨profile, rfl, rfl⟩

theorem delete_cases (m : Manager) (world : CallWorld) (id : String) :
    (∃ e, m.delete world id = (.error e, m)) ∨
      ∃ profile, m.delete world id = (.ok profile, m.published (m.remove id)) := by
  unfold delete
  rcases m.get_cases id with ⟨e, hget⟩ | ⟨profile, hget, -⟩
  · rw [hget]
    exact .inl ⟨e, rfl⟩
  · rw [hget]
    dsimp only
    rcases m.publish_cases world 0 (m.remove id) with ⟨-, e, h⟩ | ⟨-, h⟩
    · rw [h]
      exact .inl ⟨e, rfl⟩
    · rw [h]
      exact .inr ⟨profile, rfl⟩

theorem resolveSecret_cases (m : Manager) (reference : String) :
    (∃ e, m.resolveSecret reference = .error e) ∨
      ∃ secret, m.resolveSecret reference = .ok secret ∧ m.secrets.map reference = some secret := by
  unfold resolveSecret
  cases m.secrets.map reference with
  | none => exact .inl ⟨_, rfl⟩
  | some secret => exact .inr ⟨secret, rfl, rfl⟩

theorem call_store_remove {v : Vault} {reference : String} (h : v.map reference = none)
    (secret : ConnectionSecret) : (v.call (.store reference secret)).call (.remove reference) = v := by
  have hmap : Function.update (Function.update v.map reference (some secret)) reference none = v.map := by
    rw [Function.update_idem, ← h, Function.update_eq_self]
  simp only [Vault.call, hmap]

theorem call_store_store {v : Vault} {reference : String} {previous : ConnectionSecret}
    (h : v.map reference = some previous) (secret : ConnectionSecret) :
    (v.call (.store reference secret)).call (.store reference previous) = v := by
  have hmap : Function.update (Function.update v.map reference (some secret)) reference (some previous) =
      v.map := by
    rw [Function.update_idem, ← h, Function.update_eq_self]
  simp only [Vault.call, hmap]

/-- No secret has a name that a uuid of the call will give. -/
def Fresh (m : Manager) (world : CallWorld) : Prop :=
  ∀ i, m.secrets.map (freshSecretRef (world.uuid i)) = none

theorem duplicate_cases (m : Manager) (world : CallWorld) (id name : String) :
    (∃ e v, m.duplicate world id name = (.error e, { m with secrets := v }) ∧
        (m.Fresh world → world.secret 1 = .ok () → v = m.secrets)) ∨
      ∃ profile v, m.rejects profile false = false ∧ m.duplicate world id name =
        (.ok profile, { m.published (m.profiles.insert profile.id profile) with secrets := v }) := by
  unfold duplicate
  rcases m.get_cases id with ⟨e, hget⟩ | ⟨original, hget, -⟩
  · rw [hget]
    exact .inl ⟨e, m.secrets, rfl, fun _ _ => rfl⟩
  · rw [hget]
    dsimp only
    rcases m.resolveSecret_cases original.secretRef with ⟨e, hresolve⟩ | ⟨secret, hresolve, -⟩
    · rw [hresolve]
      exact .inl ⟨e, m.secrets, rfl, fun _ _ => rfl⟩
    · rw [hresolve]
      dsimp only
      generalize hcall : Call.store (freshSecretRef (world.uuid 0)) secret = call
      rcases m.writeSecret_cases world 0 call with ⟨e, hwrite⟩ | hwrite
      · rw [hwrite]
        exact .inl ⟨e, m.secrets, rfl, fun _ _ => rfl⟩
      · rw [hwrite]
        dsimp only
        rcases create_cases { m with secrets := m.secrets.call call } world 1 name original.connectionType
          original.endpoint (freshSecretRef (world.uuid 0)) with ⟨e, hcreate⟩ | ⟨profile, hrejects, hcreate⟩
        · rw [hcreate]
          dsimp only
          -- the provisional secret is removed; where that fails, it stays
          rcases writeSecret_cases { m with secrets := m.secrets.call call } world 1
            (.remove (freshSecretRef (world.uuid 0))) with ⟨e', hremove⟩ | hremove
          · rw [hremove]
            refine .inl ⟨_, m.secrets.call call, rfl, fun _ hok => ?_⟩
            rw [writeSecret_ok hok] at hremove
            cases hremove
          · rw [hremove]
            refine .inl ⟨e, (m.secrets.call call).call (.remove (freshSecretRef (world.uuid 0))), rfl,
              fun hfresh _ => ?_⟩
            rw [← hcall]
            exact call_store_remove (hfresh 0) secret
        · rw [hcreate]
          exact .inr ⟨profile, m.secrets.call call, hrejects, rfl⟩

theorem updateWithSecret_cases (m : Manager) (world : CallWorld) (profile : ConnectionProfile)
    (secret : ConnectionSecret) :
    (∃ e v, m.updateWithSecret world profile secret = (.error e, { m with secrets := v }) ∧
        (world.secret 1 = .ok () → v = m.secrets)) ∨
      ∃ v, m.rejects profile true = false ∧ m.updateWithSecret world profile secret =
        (.ok (), { m.published (m.profiles.insert profile.id profile) with secrets := v }) := by
  unfold updateWithSecret
  rcases m.resolveSecret_cases profile.secretRef with ⟨e, hresolve⟩ | ⟨previous, hresolve, hprevious⟩
  · rw [hresolve]
    exact .inl ⟨e, m.secrets, rfl, fun _ => rfl⟩
  · rw [hresolve]
    dsimp only
    generalize hcall : Call.store profile.secretRef secret = call
    rcases m.writeSecret_cases world 0 call with ⟨e, hwrite⟩ | hwrite
    · rw [hwrite]
      exact .inl ⟨e, m.secrets, rfl, fun _ => rfl⟩
    · rw [hwrite]
      dsimp only
      rcases update_cases { m with secrets := m.secrets.call call } world profile with
        ⟨e, hupdate⟩ | ⟨hrejects, hupdate⟩
      · rw [hupdate]
        dsimp only
        -- the previous secret is restored; where that fails, the new one stays
        rcases writeSecret_cases { m with secrets := m.secrets.call call } world 1
          (.store profile.secretRef previous) with ⟨e', hrestore⟩ | hrestore
        · rw [hrestore]
          refine .inl ⟨_, m.secrets.call call, rfl, fun hok => ?_⟩
          rw [writeSecret_ok hok] at hrestore
          cases hrestore
        · rw [hrestore]
          refine .inl ⟨e, (m.secrets.call call).call (.store profile.secretRef previous), rfl, fun _ => ?_⟩
          rw [← hcall]
          exact call_store_store hprevious secret
      · rw [hupdate]
        exact .inr ⟨m.secrets.call call, hrejects, rfl⟩

theorem saved_saved (m : Manager) (pending pending' : Profiles) :
    (m.saved pending).saved pending' = m.saved pending' := by
  unfold saved
  cases m.persistent <;> rfl

theorem removeWithSecret_cases (m : Manager) (world : CallWorld) (id : String) (profile : ConnectionProfile) :
    (∃ e, m.removeWithSecret world id profile = (.error e, m)) ∨
      (∃ e, m.removeWithSecret world id profile = (.error e, m.saved m.profiles)) ∨
      ∃ result v, m.removeWithSecret world id profile =
          (result, { m.published (m.remove id) with secrets := v }) ∧
        (world.save 1 = .ok () → result = .ok profile) := by
  unfold removeWithSecret
  rcases m.persistProfiles_cases world 0 (m.remove id) with ⟨-, e, hpersist⟩ | ⟨-, hpersist⟩
  · rw [hpersist]
    exact .inl ⟨e, rfl⟩
  · rw [hpersist]
    dsimp only
    rcases (m.saved (m.remove id)).writeSecret_cases world 0 (.remove profile.secretRef) with
      ⟨e, hwrite⟩ | hwrite
    · rw [hwrite]
      dsimp only
      rcases (m.saved (m.remove id)).persistProfiles_cases world 1 m.profiles with
        ⟨hsaves, e', hrevert⟩ | ⟨-, hrevert⟩
      · rw [hrevert]
        exact .inr (.inr ⟨_, m.secrets, rfl, fun hok => absurd (fun _ => hok) hsaves⟩)
      · rw [hrevert, saved_saved]
        exact .inr (.inl ⟨e, rfl⟩)
    · rw [hwrite]
      exact .inr (.inr ⟨_, _, rfl, fun _ => rfl⟩)

theorem deleteWithSecret_cases (m : Manager) (world : CallWorld) (id : String) :
    (∃ e, m.deleteWithSecret world id = (.error e, m)) ∨
      (m.profiles.get? id ≠ none ∧ ∃ e, m.deleteWithSecret world id = (.error e, m.saved m.profiles)) ∨
      ∃ result v, m.deleteWithSecret world id = (result, { m.published (m.remove id) with secrets := v }) ∧
        (world.save 1 = .ok () → ∃ profile, result = .ok profile) := by
  unfold deleteWithSecret
  rcases m.get_cases id with ⟨e, hget⟩ | ⟨profile, hget, hprofile⟩
  · rw [hget]
    exact .inl ⟨e, rfl⟩
  · rw [hget]
    dsimp only
    split
    · rcases m.publish_cases world 0 (m.remove id) with ⟨-, e, h⟩ | ⟨-, h⟩
      · rw [h]
        exact .inl ⟨e, rfl⟩
      · rw [h]
        exact .inr (.inr ⟨.ok profile, m.secrets, rfl, fun _ => ⟨profile, rfl⟩⟩)
    · rcases m.resolveSecret_cases profile.secretRef with ⟨e, hresolve⟩ | ⟨secret, hresolve, -⟩
      · rw [hresolve]
        exact .inl ⟨e, rfl⟩
      · rw [hresolve]
        dsimp only
        rcases m.removeWithSecret_cases world id profile with h | ⟨e, h⟩ | ⟨result, v, h, hok⟩
        · exact .inl h
        · have hpresent : m.profiles.get? id ≠ none := by
            rw [hprofile]
            exact Option.some_ne_none _
          exact .inr (.inl ⟨hpresent, e, h⟩)
        · exact .inr (.inr ⟨result, v, h, fun hsave => ⟨profile, hok hsave⟩⟩)

/-! ### The file between the operations -/

end Manager

/-- A profile is stored under its id, and no two profiles have the same name. -/
structure Keyed (profiles : Profiles) : Prop where
  ids : ∀ k p, profiles.get? k = some p → p.id = k
  names : ∀ k p k' p', profiles.get? k = some p → profiles.get? k' = some p' →
    eqIgnoreAsciiCase p.name p'.name = true → k = k'

/-- The file holds the profiles in memory; after a restart, until it is loaded, the file
holds those of the run before. -/
structure Manager.Saved (m : Manager) : Prop where
  keyed : Keyed m.profiles
  file : m.persistent = true → m.file = some (snapshot m.profiles) ∨
    m.profiles = .empty ∧ ∀ loaded, m.file = some loaded →
      ∃ profiles, Keyed profiles ∧ loaded = snapshot profiles

theorem Keyed.empty : Keyed .empty where
  ids _ _ h := by cases h
  names _ _ _ _ h := by cases h

theorem eqIgnoreAsciiCase_comm (a b : String) : eqIgnoreAsciiCase a b = eqIgnoreAsciiCase b a := by
  unfold eqIgnoreAsciiCase
  exact decide_eq_decide.mpr eq_comm

theorem eqIgnoreAsciiCase_self (a : String) : eqIgnoreAsciiCase a a = true := decide_eq_true rfl

theorem mem_snapshot {profiles : Profiles} (hkeyed : Keyed profiles) {p : ConnectionProfile} :
    p ∈ snapshot profiles ↔ profiles.get? p.id = some p := by
  rw [snapshot, List.mem_insertionSort, List.mem_map]
  constructor
  · rintro ⟨e, he, rfl⟩
    have hget := OrderedDict.get?_of_mem he
    rwa [hkeyed.ids e.1 e.2 hget]
  · intro hget
    exact ⟨(p.id, p), OrderedDict.mem_of_get? hget, rfl⟩

/-- The order in which the map is iterated does not show in the file. -/
theorem snapshot_unique {profiles : Profiles} (hkeyed : Keyed profiles) {values : List ConnectionProfile}
    (hperm : values.Perm (profiles.entries.map Prod.snd))
    (hsorted : values.Pairwise fun left right => left.name ≤ right.name) : values = snapshot profiles := by
  have hmem : ∀ p ∈ values, profiles.get? p.id = some p := by
    intro p hp
    rw [← mem_snapshot hkeyed, snapshot, List.mem_insertionSort]
    exact hperm.mem_iff.mp hp
  refine List.Perm.eq_of_pairwise (fun a b ha hb hab hba => ?_) hsorted (List.pairwise_insertionSort _ _)
    (hperm.trans (List.perm_insertionSort _ _).symm)
  have hname : a.name = b.name := le_antisymm hab hba
  have hgeta := hmem a ha
  have hgetb := (mem_snapshot hkeyed).mp hb
  have hid := hkeyed.names a.id a b.id b hgeta hgetb (hname ▸ eqIgnoreAsciiCase_self a.name)
  rw [hid, hgetb] at hgeta
  exact (Option.some.inj hgeta).symm

theorem get?_loaded {profiles : Profiles} {loaded : List ConnectionProfile}
    (hloaded : ∀ p ∈ loaded, profiles.get? p.id = some p) {base : Profiles}
    (hbase : ∀ k p, base.get? k = some p → profiles.get? k = some p) (k : String) :
    (loaded.foldl (fun profiles profile => profiles.insert profile.id profile) base).get? k =
      if ∃ p ∈ loaded, p.id = k then profiles.get? k else base.get? k := by
  induction loaded generalizing base with
  | nil => simp
  | cons p loaded ih =>
    rw [List.forall_mem_cons] at hloaded
    have hinsert : ∀ k' p', (base.insert p.id p).get? k' = some p' → profiles.get? k' = some p' := by
      intro k' p' hget
      rw [OrderedDict.get?_insert] at hget
      split at hget
      next h =>
        cases hget
        exact h ▸ hloaded.1
      · exact hbase k' p' hget
    have hcons := List.exists_mem_cons_iff (fun q : ConnectionProfile => q.id = k) p loaded
    rw [List.foldl_cons, ih hloaded.2 hinsert, OrderedDict.get?_insert]
    by_cases hrest : ∃ q ∈ loaded, q.id = k
    · rw [if_pos hrest, if_pos (hcons.mpr (.inr hrest))]
    · rw [if_neg hrest]
      by_cases hk : k = p.id
      · rw [if_pos hk, if_pos (hcons.mpr (.inl hk.symm)), hk, hloaded.1]
      · rw [if_neg hk, if_neg]
        intro hmem
        rcases hcons.mp hmem with h | h
        · exact hk h.symm
        · exact hrest h

/-- Loading a file on top of a part of its profiles gives its profiles. -/
theorem load_snapshot {profiles base : Profiles} (hkeyed : Keyed profiles)
    (hbase : ∀ k p, base.get? k = some p → profiles.get? k = some p) :
    (snapshot profiles).foldl (fun profiles profile => profiles.insert profile.id profile) base =
      profiles := by
  refine OrderedDict.ext_get? fun k => ?_
  rw [get?_loaded (fun p hp => (mem_snapshot hkeyed).mp hp) hbase]
  split
  · rfl
  next hnone =>
    cases hget : profiles.get? k with
    | none =>
      cases hb : base.get? k with
      | none => rfl
      | some p =>
        rw [hbase k p hb] at hget
        cases hget
    | some p =>
      have hid := hkeyed.ids k p hget
      refine absurd ⟨p, ?_, hid⟩ hnone
      rw [mem_snapshot hkeyed, hid]
      exact hget

namespace Manager

variable {m : Manager}

theorem not_rejects {profile : ConnectionProfile} {replacing : Bool}
    (h : m.rejects profile replacing = false) {k : String} {p : ConnectionProfile}
    (hget : m.profiles.get? k = some p) (hname : eqIgnoreAsciiCase p.name profile.name = true) :
    p.id = profile.id := by
  unfold rejects nameTaken at h
  rw [Bool.or_eq_false_iff, List.any_eq_false] at h
  have hfree := h.1 (k, p) (OrderedDict.mem_of_get? hget)
  rw [hname, Bool.true_and, decide_eq_true_eq, not_not] at hfree
  exact hfree

theorem Saved.of_published {pending : Profiles} (hkeyed : Keyed pending) (v : Vault) :
    Saved { m.published pending with secrets := v } where
  keyed := hkeyed
  file hp := by
    have hp : m.persistent = true := hp
    exact .inl (if_pos hp)

theorem Saved.keyed_insert (h : m.Saved) {profile : ConnectionProfile} {replacing : Bool}
    (hrejects : m.rejects profile replacing = false) :
    Keyed (m.profiles.insert profile.id profile) where
  ids k p hget := by
    rw [OrderedDict.get?_insert] at hget
    split at hget
    next hk =>
      cases hget
      exact hk.symm
    · exact h.keyed.ids k p hget
  names k p k' p' hget hget' hname := by
    rw [OrderedDict.get?_insert] at hget hget'
    split at hget <;> split at hget'
    next hk hk' => exact hk.trans hk'.symm
    next hk hk' =>
      cases hget
      rw [eqIgnoreAsciiCase_comm] at hname
      rw [hk, ← h.keyed.ids k' p' hget', not_rejects hrejects hget' hname]
    next hk hk' =>
      cases hget'
      rw [hk', ← h.keyed.ids k p hget, not_rejects hrejects hget hname]
    · exact h.keyed.names k p k' p' hget hget' hname

theorem get?_remove (m : Manager) (id k : String) :
    (m.remove id).get? k = if k = id then none else m.profiles.get? k := by
  have hretain := m.profiles.get?_retain_key (fun key => decide (key ≠ id)) k
  rw [remove, hretain]
  by_cases h : k = id <;> simp [h]

theorem Saved.keyed_remove (h : m.Saved) (id : String) : Keyed (m.remove id) where
  ids k p hget := by
    rw [get?_remove] at hget
    split at hget
    · cases hget
    · exact h.keyed.ids k p hget
  names k p k' p' hget hget' hname := by
    rw [get?_remove] at hget hget'
    split at hget
    · cases hget
    · split at hget'
      · cases hget'
      · exact h.keyed.names k p k' p' hget hget' hname

theorem Saved.secrets (h : m.Saved) (v : Vault) : Saved { m with secrets := v } := ⟨h.keyed, h.file⟩

theorem Saved.saved (h : m.Saved) : Saved (m.saved m.profiles) := ⟨h.keyed, fun hp => .inl (if_pos hp)⟩

/-- With a profile in memory, the file is the one that saving it again would write. -/
theorem Saved.saved_eq (h : m.Saved) {id : String} (hid : m.profiles.get? id ≠ none) :
    m.saved m.profiles = m := by
  obtain ⟨profiles, persistent, file, secrets⟩ := m
  unfold Manager.saved
  cases persistent with
  | false => rfl
  | true =>
    rcases h.file rfl with hfile | ⟨hempty, -⟩
    · have hfile : file = some (snapshot profiles) := hfile
      rw [hfile]
      rfl
    · have hempty : profiles = .empty := hempty
      rw [hempty] at hid
      exact absurd rfl hid

theorem Saved.loadPersisted (h : m.Saved) : m.loadPersisted.Saved := by
  obtain ⟨profiles, persistent, file, secrets⟩ := m
  unfold Manager.loadPersisted
  cases persistent with
  | false => exact h
  | true =>
    cases file with
    | none => exact h
    | some loaded =>
      have hsnapshot : ∃ d, Keyed d ∧ loaded = snapshot d ∧
          ∀ k p, profiles.get? k = some p → d.get? k = some p := by
        rcases h.file rfl with hfile | ⟨hempty, hfile⟩
        · exact ⟨profiles, h.keyed, Option.some.inj hfile, fun _ _ hget => hget⟩
        · obtain ⟨d, hd, hloaded⟩ := hfile loaded rfl
          refine ⟨d, hd, hloaded, fun k p hget => ?_⟩
          have hempty : profiles = .empty := hempty
          rw [hempty] at hget
          cases hget
      obtain ⟨d, hd, rfl, hbase⟩ := hsnapshot
      refine ⟨?_, fun _ => .inl ?_⟩
      · dsimp only
        rw [load_snapshot hd hbase]
        exact hd
      · dsimp only
        rw [load_snapshot hd hbase]

theorem Saved.restart (h : m.Saved) : Saved { m with profiles := .empty } where
  keyed := .empty
  file hp := by
    refine .inr ⟨rfl, fun loaded hloaded => ?_⟩
    rcases h.file hp with hfile | ⟨-, hfile⟩
    · rw [hfile] at hloaded
      cases hloaded
      exact ⟨m.profiles, h.keyed, rfl⟩
    · exact hfile loaded hloaded

theorem Saved.start (persistent : Bool) (secrets : Vault) : (Manager.start persistent secrets).Saved where
  keyed := .empty
  file _ := .inr ⟨rfl, fun _ h => by cases h⟩

theorem Saved.upsert (h : m.Saved) (world : CallWorld) (i : ℕ) (profile : ConnectionProfile)
    (replacing : Bool) : (m.upsert world i profile replacing).2.Saved := by
  rcases m.upsert_cases world i profile replacing with ⟨-, e, hupsert⟩ | ⟨hrejects, -, hupsert⟩
  · rw [hupsert]
    exact h
  · rw [hupsert]
    exact Saved.of_published (h.keyed_insert hrejects) m.secrets

theorem Saved.importFrom {world : CallWorld} {i : ℕ} {imported profiles : List ConnectionProfile}
    (h : m.Saved) : (importFrom world i imported profiles m).2.Saved := by
  induction profiles generalizing i imported m with
  | nil => exact h
  | cons profile rest ih =>
    have hupsert := h.upsert world i (fillId world i profile) false
    rw [Manager.importFrom]
    split
    next e m' heq =>
      rw [heq] at hupsert
      exact hupsert
    next m' heq =>
      rw [heq] at hupsert
      exact ih hupsert

theorem Saved.create (h : m.Saved) (world : CallWorld) (i : ℕ) (name : String)
    (connectionType : ConnectionType) (endpoint : ConnectionEndpoint) (secretRef : String) :
    (m.create world i name connectionType endpoint secretRef).2.Saved := by
  rcases m.create_cases world i name connectionType endpoint secretRef with
    ⟨e, hcreate⟩ | ⟨profile, hrejects, hcreate⟩
  · rw [hcreate]
    exact h
  · rw [hcreate]
    exact Saved.of_published (h.keyed_insert hrejects) m.secrets

theorem Saved.update (h : m.Saved) (world : CallWorld) (profile : ConnectionProfile) :
    (m.update world profile).2.Saved := by
  rcases m.update_cases world profile with ⟨e, hupdate⟩ | ⟨hrejects, hupdate⟩
  · rw [hupdate]
    exact h
  · rw [hupdate]
    exact Saved.of_published (h.keyed_insert hrejects) m.secrets

theorem Saved.delete (h : m.Saved) (world : CallWorld) (id : String) : (m.delete world id).2.Saved := by
  rcases m.delete_cases world id with ⟨e, hdelete⟩ | ⟨profile, hdelete⟩
  · rw [hdelete]
    exact h
  · rw [hdelete]
    exact Saved.of_published (h.keyed_remove id) m.secrets

theorem Saved.duplicate (h : m.Saved) (world : CallWorld) (id name : String) :
    (m.duplicate world id name).2.Saved := by
  rcases m.duplicate_cases world id name with ⟨e, v, hduplicate, -⟩ | ⟨profile, v, hrejects, hduplicate⟩
  · rw [hduplicate]
    exact h.secrets v
  · rw [hduplicate]
    exact Saved.of_published (h.keyed_insert hrejects) v

theorem Saved.updateWithSecret (h : m.Saved) (world : CallWorld) (profile : ConnectionProfile)
    (secret : ConnectionSecret) : (m.updateWithSecret world profile secret).2.Saved := by
  rcases m.updateWithSecret_cases world profile secret with ⟨e, v, hupdate, -⟩ | ⟨v, hrejects, hupdate⟩
  · rw [hupdate]
    exact h.secrets v
  · rw [hupdate]
    exact Saved.of_published (h.keyed_insert hrejects) v

theorem Saved.deleteWithSecret (h : m.Saved) (world : CallWorld) (id : String) :
    (m.deleteWithSecret world id).2.Saved := by
  rcases m.deleteWithSecret_cases world id with ⟨e, hdelete⟩ | ⟨-, e, hdelete⟩ | ⟨result, v, hdelete, -⟩
  · rw [hdelete]
    exact h
  · rw [hdelete]
    exact h.saved
  · rw [hdelete]
    exact Saved.of_published (h.keyed_remove id) v

theorem Saved.perform (h : m.Saved) (world : CallWorld) (op : Operation) : (m.perform world op).2.Saved := by
  cases op with
  | create name connectionType endpoint secretRef => exact h.create world 0 name connectionType endpoint secretRef
  | upsert profile replacing => exact h.upsert world 0 profile replacing
  | update profile => exact h.update world profile
  | delete id => exact h.delete world id
  | duplicate id name => exact h.duplicate world id name
  | updateWithSecret profile secret => exact h.updateWithSecret world profile secret
  | deleteWithSecret id => exact h.deleteWithSecret world id
  | importProfiles profiles => exact h.importFrom

theorem reach_saved {persistent : Bool} {secrets : Vault}
    (h : managers.Reachable (Manager.start persistent secrets) m) : m.Saved := by
  refine h.invariant (Saved.start persistent secrets) fun s a t hs _ hstep => ?_
  cases a with
  | operation op world =>
    cases hstep
    exact hs.perform world op
  | restart =>
    cases hstep
    exact hs.restart
  | loadPersisted =>
    cases hstep
    exact hs.loadPersisted
  | secret call =>
    cases hstep
    exact hs.secrets _

/-! ### The loop of `import` -/

variable {world : CallWorld} {i : ℕ}

theorem rejects_false_iff {profile : ConnectionProfile} : m.rejects profile false = false ↔
    m.profiles.get? profile.id = none ∧ ∀ k p, m.profiles.get? k = some p →
      eqIgnoreAsciiCase p.name profile.name = true → p.id = profile.id := by
  have hnew : m.contains profile.id = false ↔ m.profiles.get? profile.id = none := by
    rw [contains, Option.isSome_eq_false_iff, Option.isNone_iff_eq_none]
  constructor
  · intro h
    refine ⟨?_, fun k p hget hname => not_rejects h hget hname⟩
    rw [rejects, Bool.or_eq_false_iff] at h
    exact hnew.mp h.2
  · rintro ⟨hnone, hnames⟩
    rw [rejects, Bool.or_eq_false_iff]
    refine ⟨?_, hnew.mpr hnone⟩
    rw [nameTaken, List.any_eq_false]
    intro e he htaken
    rw [Bool.and_eq_true, decide_eq_true_eq] at htaken
    exact htaken.2 (hnames e.1 e.2 (OrderedDict.get?_of_mem he) htaken.1)

end Manager

/-- Two profiles that can both be new. -/
def Compatible (p q : ConnectionProfile) : Prop := p.id ≠ q.id ∧ eqIgnoreAsciiCase p.name q.name = false

namespace Manager

variable {m : Manager} {world : CallWorld} {i : ℕ}

theorem rejects_published {p q : ConnectionProfile} (hp : m.rejects p false = false) :
    (m.published (m.profiles.insert p.id p)).rejects q false = false ↔
      m.rejects q false = false ∧ Compatible p q := by
  rw [rejects_false_iff] at hp
  rw [rejects_false_iff, rejects_false_iff]
  constructor
  · rintro ⟨hnone, hnames⟩
    have hnone : (m.profiles.insert p.id p).get? q.id = none := hnone
    have hget : ∀ k, (m.profiles.insert p.id p).get? k = if k = p.id then some p else m.profiles.get? k :=
      m.profiles.get?_insert p.id p
    rw [hget] at hnone
    have hid : p.id ≠ q.id := by
      intro heq
      rw [if_pos heq.symm] at hnone
      cases hnone
    rw [if_neg hid.symm] at hnone
    refine ⟨⟨hnone, fun k p' hp' hname => ?_⟩, hid, ?_⟩
    · refine hnames k p' ?_ hname
      have hk : k ≠ p.id := by
        rintro rfl
        rw [hp.1] at hp'
        cases hp'
      exact (hget k).trans ((if_neg hk).trans hp')
    · cases hname : eqIgnoreAsciiCase p.name q.name with
      | false => rfl
      | true => exact absurd (hnames p.id p ((hget p.id).trans (if_pos rfl)) hname) hid
  · rintro ⟨⟨hnone, hnames⟩, hid, hname⟩
    refine ⟨?_, fun k p' hp' hname' => ?_⟩
    · exact (m.profiles.get?_insert p.id p q.id).trans ((if_neg hid.symm).trans hnone)
    · have hp' : (m.profiles.insert p.id p).get? k = some p' := hp'
      rw [OrderedDict.get?_insert] at hp'
      split at hp'
      · cases hp'
        rw [hname] at hname'
        cases hname'
      · exact hnames k p' hp' hname'

/-- The profiles of an import, whose first one is the `i`-th of the call, with their ids. -/
def withIds (world : CallWorld) : ℕ → List ConnectionProfile → List ConnectionProfile
  | _, [] => []
  | i, profile :: rest => fillId world i profile :: withIds world (i + 1) rest

/-- Every profile is new, next to those that are stored and next to the others of the list,
and every saving goes through. -/
structure ImportAccepted (m : Manager) (world : CallWorld) (i : ℕ) (profiles : List ConnectionProfile) :
    Prop where
  admitted : ∀ q ∈ withIds world i profiles, m.rejects q false = false
  pairwise : (withIds world i profiles).Pairwise Compatible
  saves : ∀ j < profiles.length, m.Saves world (i + j)

theorem saves_published {pending : Profiles} {j : ℕ} :
    (m.published pending).Saves world j ↔ m.Saves world j := Iff.rfl

theorem importAccepted_cons {profile : ConnectionProfile} {rest : List ConnectionProfile} :
    m.ImportAccepted world i (profile :: rest) ↔
      m.rejects (fillId world i profile) false = false ∧ m.Saves world i ∧
        (m.published (m.profiles.insert (fillId world i profile).id (fillId world i profile))).ImportAccepted
          world (i + 1) rest := by
  constructor
  · rintro ⟨hadmitted, hpairwise, hsaves⟩
    rw [withIds, List.forall_mem_cons] at hadmitted
    rw [withIds, List.pairwise_cons] at hpairwise
    refine ⟨hadmitted.1, hsaves 0 (Nat.succ_pos _), fun q hq => ?_, hpairwise.2, fun j hj => ?_⟩
    · exact (rejects_published hadmitted.1).mpr ⟨hadmitted.2 q hq, hpairwise.1 q hq⟩
    · have hj' := hsaves (j + 1) (Nat.succ_lt_succ hj)
      rwa [show i + 1 + j = i + (j + 1) by omega, saves_published]
  · rintro ⟨hfirst, hsave, hadmitted, hpairwise, hsaves⟩
    have hrest := fun q hq => (rejects_published hfirst).mp (hadmitted q hq)
    refine ⟨?_, ?_, fun j hj => ?_⟩
    · rw [withIds, List.forall_mem_cons]
      exact ⟨hfirst, fun q hq => (hrest q hq).1⟩
    · rw [withIds, List.pairwise_cons]
      exact ⟨fun q hq => (hrest q hq).2, hpairwise⟩
    · cases j with
      | zero => exact hsave
      | succ j =>
        have hj' := hsaves j (Nat.lt_of_succ_lt_succ hj)
        rwa [show i + 1 + j = i + (j + 1) by omega, saves_published] at hj'

theorem importFrom_ok_iff (imported : List ConnectionProfile) {profiles : List ConnectionProfile} :
    (∃ all, (importFrom world i imported profiles m).1 = .ok all) ↔ m.ImportAccepted world i profiles := by
  induction profiles generalizing i imported m with
  | nil =>
    refine ⟨fun _ => ⟨fun q hq => ?_, .nil, fun j hj => ?_⟩, fun _ => ⟨imported, rfl⟩⟩
    · cases hq
    · cases hj
  | cons profile rest ih =>
    rw [importAccepted_cons, importFrom]
    rcases m.upsert_cases world i (fillId world i profile) false with
      ⟨hfails, e, hupsert⟩ | ⟨hrejects, hsaves, hupsert⟩
    · rw [hupsert]
      constructor
      · rintro ⟨all, hall⟩
        cases hall
      · rintro ⟨hrejects, hsaves, -⟩
        rcases hfails with hfails | hfails
        · rw [hrejects] at hfails
          cases hfails
        · exact absurd hsaves hfails
    · rw [hupsert]
      dsimp only
      rw [ih]
      exact ⟨fun h => ⟨hrejects, hsaves, h⟩, fun h => h.2.2⟩

/-- An import never removes a profile. -/
theorem importFrom_keeps (world : CallWorld) (i : ℕ) (imported profiles : List ConnectionProfile) {id : String}
    (h : m.profiles.get? id ≠ none) :
    (importFrom world i imported profiles m).2.profiles.get? id ≠ none := by
  induction profiles generalizing i imported m with
  | nil => exact h
  | cons profile rest ih =>
    rw [importFrom]
    rcases m.upsert_cases world i (fillId world i profile) false with ⟨-, e, hupsert⟩ | ⟨-, -, hupsert⟩
    · rw [hupsert]
      exact h
    · rw [hupsert]
      refine ih (i + 1) _ ?_
      have hget := m.profiles.get?_insert (fillId world i profile).id (fillId world i profile) id
      intro hnone
      have hnone : (m.profiles.insert (fillId world i profile).id (fillId world i profile)).get? id = none :=
        hnone
      rw [hget] at hnone
      split at hnone
      · cases hnone
      · exact h hnone

/-- What an import takes first stays, whatever follows. -/
theorem importFrom_changes (imported rest : List ConnectionProfile) {profile : ConnectionProfile}
    (hrejects : m.rejects (fillId world i profile) false = false) (hsaves : m.Saves world i) :
    (importFrom world i imported (profile :: rest) m).2 ≠ m := by
  intro heq
  rw [importFrom] at heq
  rcases m.upsert_cases world i (fillId world i profile) false with ⟨hfails, -⟩ | ⟨-, -, hupsert⟩
  · rcases hfails with hfails | hfails
    · rw [hrejects] at hfails
      cases hfails
    · exact hfails hsaves
  · rw [hupsert] at heq
    have hnew := (rejects_false_iff.mp hrejects).1
    have hstored : (m.profiles.insert (fillId world i profile).id (fillId world i profile)).get?
        (fillId world i profile).id ≠ none := by
      rw [OrderedDict.get?_insert, if_pos rfl]
      exact Option.some_ne_none _
    have hkept := importFrom_keeps (m := m.published (m.profiles.insert _ _)) world (i + 1)
      (imported ++ [fillId world i profile]) rest hstored
    have heq : (importFrom world (i + 1) (imported ++ [fillId world i profile]) rest
      (m.published (m.profiles.insert _ _))).2 = m := heq
    rw [heq] at hkept
    exact hkept hnew

/-- The first profile of an import, if there is one, is not taken. -/
def FirstRejected (m : Manager) (world : CallWorld) (profiles : List ConnectionProfile) : Prop :=
  ∀ profile ∈ profiles.head?, m.rejects (fillId world 0 profile) false = true ∨ ¬ m.Saves world 0

theorem importProfiles_unchanged_iff {profiles : List ConnectionProfile} :
    (∀ e m', m.importProfiles world profiles = (.error e, m') → m' = m) ↔
      m.FirstRejected world profiles ∨ m.ImportAccepted world 0 profiles := by
  cases profiles with
  | nil =>
    refine ⟨fun _ => .inl fun p hp => ?_, fun _ e m' h => ?_⟩
    · cases hp
    · cases h
  | cons profile rest =>
    unfold importProfiles
    rcases m.upsert_cases world 0 (fillId world 0 profile) false with
      ⟨hfails, e, hupsert⟩ | ⟨hrejects, hsaves, hupsert⟩
    · refine ⟨fun _ => .inl fun p hp => ?_, fun _ e' m' h => ?_⟩
      · cases hp
        exact hfails
      · rw [importFrom, hupsert] at h
        cases h
        rfl
    · have hfirst : ¬ m.FirstRejected world (profile :: rest) := by
        intro h
        rcases h profile rfl with h | h
        · rw [hrejects] at h
          cases h
        · exact h hsaves
      rw [or_iff_right hfirst, ← importFrom_ok_iff []]
      constructor
      · intro hunchanged
        cases hresult : importFrom world 0 [] (profile :: rest) m with
        | mk result m' =>
          cases result with
          | ok all => exact ⟨all, rfl⟩
          | error e =>
            have hm' := hunchanged e m' hresult
            have hchanged := importFrom_changes [] rest hrejects hsaves
            rw [hresult] at hchanged
            exact absurd hm' hchanged
      · rintro ⟨all, hall⟩ e m' h
        rw [h] at hall
        cases hall

end Manager

/-! ### Failed operations -/

/-- What an operation writes to undo its other writes is written. -/
def Operation.RollbackSucceeds (world : CallWorld) : Operation → Prop
  | .duplicate _ _ | .updateWithSecret _ _ => world.secret 1 = .ok ()
  | .deleteWithSecret _ => world.save 1 = .ok ()
  | _ => True

/-- An import takes all of its profiles, or not even the first one. -/
def Operation.AllOrNothing (m : Manager) (world : CallWorld) : Operation → Prop
  | .importProfiles profiles => m.FirstRejected world profiles ∨ m.ImportAccepted world 0 profiles
  | _ => True

theorem map_error {α β : Type} {f : α → β} {outcome : Outcome α} {e : ConnectionManagerError} {m : Manager}
    (h : outcome.map f = (.error e, m)) : outcome = (.error e, m) := by
  obtain ⟨result, m'⟩ := outcome
  cases result with
  | error e' =>
    cases h
    rfl
  | ok a => cases h

/-- An operation other than `import` that fails leaves everything as it was. -/
theorem perform_unchanged {m m' : Manager} (hsaved : m.Saved) {world : CallWorld} (hfresh : m.Fresh world)
    {op : Operation} (hrollback : op.RollbackSucceeds world)
    (himport : ∀ profiles, op ≠ .importProfiles profiles) {e : ConnectionManagerError}
    (h : m.perform world op = (.error e, m')) : m' = m := by
  cases op with
  | create name connectionType endpoint secretRef =>
    have h := map_error h
    rcases m.create_cases world 0 name connectionType endpoint secretRef with
      ⟨e', hcreate⟩ | ⟨profile, -, hcreate⟩ <;> rw [hcreate] at h <;> cases h
    rfl
  | upsert profile replacing =>
    have h := map_error h
    rcases m.upsert_cases world 0 profile replacing with ⟨-, e', hupsert⟩ | ⟨-, -, hupsert⟩ <;>
      rw [hupsert] at h <;> cases h
    rfl
  | update profile =>
    have h := map_error h
    rcases m.update_cases world profile with ⟨e', hupdate⟩ | ⟨-, hupdate⟩ <;> rw [hupdate] at h <;> cases h
    rfl
  | delete id =>
    have h := map_error h
    rcases m.delete_cases world id with ⟨e', hdelete⟩ | ⟨profile, hdelete⟩ <;> rw [hdelete] at h <;> cases h
    rfl
  | duplicate id name =>
    have h := map_error h
    rcases m.duplicate_cases world id name with ⟨e', v, hduplicate, hv⟩ | ⟨profile, v, -, hduplicate⟩ <;>
      rw [hduplicate] at h <;> cases h
    rw [hv hfresh hrollback]
  | updateWithSecret profile secret =>
    have h := map_error h
    rcases m.updateWithSecret_cases world profile secret with ⟨e', v, hupdate, hv⟩ | ⟨v, -, hupdate⟩ <;>
      rw [hupdate] at h <;> cases h
    rw [hv hrollback]
  | deleteWithSecret id =>
    have h := map_error h
    rcases m.deleteWithSecret_cases world id with
      ⟨e', hdelete⟩ | ⟨hid, e', hdelete⟩ | ⟨result, v, hdelete, hok⟩
    · rw [hdelete] at h
      cases h
      rfl
    · rw [hdelete] at h
      cases h
      exact hsaved.saved_eq hid
    · obtain ⟨profile, hresult⟩ := hok hrollback
      rw [hdelete, hresult] at h
      cases h
  | importProfiles profiles => exact absurd rfl (himport profiles)

/-- In every manager in use, an operation whose rollback goes through leaves profiles, file
and secrets as they were when it fails, exactly if it is not an import that stops after
taking some of its profiles. -/
theorem failed_operation_unchanged_iff (persistent : Bool) (secrets : Vault) (m : Manager)
    (hreach : managers.Reachable (Manager.start persistent secrets) m) (op : Operation) (world : CallWorld)
    (hfresh : m.Fresh world) (hrollback : op.RollbackSucceeds world) :
    (∀ e m', m.perform world op = (.error e, m') → m' = m) ↔ op.AllOrNothing m world := by
  have hsaved := Manager.reach_saved hreach
  by_cases himport : ∃ profiles, op = .importProfiles profiles
  · obtain ⟨profiles, rfl⟩ := himport
    exact Manager.importProfiles_unchanged_iff
  · have hother : ∀ profiles, op ≠ .importProfiles profiles := fun profiles heq => himport ⟨profiles, heq⟩
    have hall : op.AllOrNothing m world := by
      cases op with
      | importProfiles profiles => exact absurd rfl (hother profiles)
      | _ => trivial
    exact iff_of_true (fun e m' h => perform_unchanged hsaved hfresh hrollback hother h) hall

/-! ### One manager -/

def sampleEndpoint : ConnectionEndpoint where
  host := "db"
  port := 5432
  database := some "ops"
  ssl := true
  poolMin := 1
  poolMax := 4
  timeoutMs := 5000
  options := .empty

def sampleProfile (id name : String) : ConnectionProfile :=
  ⟨id, name, .postgres, sampleEndpoint, "vault://ops", []⟩

def sampleVault : Vault := ⟨fun reference => if reference = "vault://ops" then some sampleSecret else none, "master"⟩

/-- Every write goes through, but for a saving that is refused if `full`. -/
def sampleCall (full : Bool) : CallWorld where
  uuid i := String.ofList ('u' :: (Nat.toDigits 10 i))
  save _ := if full then .error "disk full" else .ok ()
  secret _ := .ok ()

def sampleManager : Manager :=
  ((Manager.start true sampleVault).perform (sampleCall false)
    (.create "Operations" .postgres sampleEndpoint "vault://ops")).2

theorem sampleManager_secrets : sampleManager.secrets = sampleVault := by
  unfold sampleManager Manager.perform Outcome.map
  dsimp only
  rcases (Manager.start true sampleVault).create_cases (sampleCall false) 0 "Operations" .postgres
    sampleEndpoint "vault://ops" with ⟨e, h⟩ | ⟨profile, -, h⟩ <;> rw [h] <;> rfl

theorem freshSecretRef_ne (uuid : String) : freshSecretRef uuid ≠ "vault://ops" := by
  have hfresh : (freshSecretRef uuid).length = "secret://connection/".length + uuid.length :=
    String.length_append "secret://connection/" uuid
  have hlong : 20 ≤ "secret://connection/".length := by decide +kernel
  have hshort : "vault://ops".length = 11 := by decide +kernel
  intro heq
  have hlength := congrArg String.length heq
  omega

theorem sampleCall_fresh {m : Manager} {full : Bool} (h : m.secrets = sampleVault) :
    m.Fresh (sampleCall full) := by
  intro i
  rw [h, sampleVault]
  dsimp only
  rw [if_neg (freshSecretRef_ne _)]

theorem sampleManager_reachable : managers.Reachable (Manager.start true sampleVault) sampleManager :=
  .step (a := .operation (.create "Operations" .postgres sampleEndpoint "vault://ops") (sampleCall false)) .refl
    trivial rfl

theorem failed_operation_unchanged_iff_sample :
    (∀ e m', sampleManager.perform (sampleCall true) (.duplicate "u0" "Copy") = (.error e, m') →
      m' = sampleManager) ∧
    (sampleManager.perform (sampleCall true) (.duplicate "u0" "Copy")).1 =
      .error (.persistence "disk full") := by
  refine ⟨?_, ?_⟩
  · exact (failed_operation_unchanged_iff true sampleVault sampleManager sampleManager_reachable
      (.duplicate "u0" "Copy") (sampleCall true) (sampleCall_fresh sampleManager_secrets) rfl).mpr trivial
  · decide +kernel

/-- The second profile has the name that the first one has just taken. -/
def sampleImport : Operation := .importProfiles [sampleProfile "a" "Oracle", sampleProfile "b" "ORACLE"]

def emptyManager : Manager := .start true sampleVault

theorem failed_import_keeps_first :
    ¬ ∀ (persistent : Bool) (secrets : Vault) (m : Manager),
      managers.Reachable (Manager.start persistent secrets) m → ∀ (op : Operation) (world : CallWorld),
        m.Fresh world → op.RollbackSucceeds world → ∀ e m', m.perform world op = (.error e, m') → m' = m := by
  intro hclaim
  have herror : (emptyManager.perform (sampleCall false) sampleImport).1 = .error (.duplicateName "ORACLE") := by
    decide +kernel
  have hstored : (emptyManager.perform (sampleCall false) sampleImport).2.file =
      some [sampleProfile "a" "Oracle"] := by
    decide +kernel
  have hunchanged := hclaim true sampleVault emptyManager .refl sampleImport (sampleCall false)
    (sampleCall_fresh rfl) trivial (.duplicateName "ORACLE")
    (emptyManager.perform (sampleCall false) sampleImport).2 (Prod.ext herror rfl)
  rw [hunchanged] at hstored
  cases hstored

end Jaiba.Connections
