import Jaiba.Server.Versions

/-!
# The target of a rollback

`rollback` looks for its target in the versions of the record: the largest
number among those that were deployed. The version that was active before is
not recorded; it is the target only when no larger number was ever active.
-/

namespace Jaiba.Server
open Jaiba.Lib

/-- The versions that a stage makes active for a flow. -/
def Stage.activates (id : String) (records : Records) : Stage → List ℕ
  | .record a _ => if a.id = id ∧ (Dict.get? records id).isSome then [a.version] else []
  | .seed flow _ _ =>
    if flow = id then [((Dict.get? records id).getD (.fresh id 0)).nextVersion] else []
  | _ => []

/-- The versions that a step makes active for a flow. -/
def activations (id : String) (s : Registry) : Action → Registry → List ℕ
  | .advance i _, _ => (s.calls[i]?.map fun c => c.stage.activates id s.records).getD []
  | _, _ => []

/-- The version that was active before the present one. -/
def previousVersion (current : ℕ) (log : List ℕ) : Option ℕ :=
  log.reverse.find? fun m => m ≠ current

/-! ### The first version with a number -/

section first
variable {n m : ℕ} {f : FlowVersion → FlowVersion} {vs : List FlowVersion} {v w : FlowVersion}

theorem mem_updateFirst_or (hv : v ∈ vs) : v ∈ updateFirst n f vs ∨
    (vs.find? fun v => v.version = n) = some v ∧ f v ∈ updateFirst n f vs := by
  induction vs with
  | nil => cases hv
  | cons u vs ih =>
    unfold updateFirst
    by_cases hu : u.version = n
    · rw [if_pos hu]
      rcases List.mem_cons.mp hv with rfl | hv
      · exact .inr ⟨List.find?_cons_of_pos (by simpa using hu), List.mem_cons_self⟩
      · exact .inl (List.mem_cons_of_mem _ hv)
    · rw [if_neg hu, List.find?_cons_of_neg (by simpa using hu)]
      rcases List.mem_cons.mp hv with rfl | hv
      · exact .inl List.mem_cons_self
      · rcases ih hv with h | ⟨h, hf⟩
        · exact .inl (List.mem_cons_of_mem u h)
        · exact .inr ⟨h, List.mem_cons_of_mem u hf⟩

theorem of_mem_updateFirst (hw : w ∈ updateFirst n f vs) :
    w ∈ vs ∨ ∃ v, (vs.find? fun v => v.version = n) = some v ∧ w = f v := by
  induction vs with
  | nil => cases hw
  | cons u vs ih =>
    unfold updateFirst at hw
    by_cases hu : u.version = n
    · rw [if_pos hu] at hw
      rcases List.mem_cons.mp hw with rfl | hw
      · exact .inr ⟨u, List.find?_cons_of_pos (by simpa using hu), rfl⟩
      · exact .inl (List.mem_cons_of_mem u hw)
    · rw [if_neg hu] at hw
      rw [List.find?_cons_of_neg (by simpa using hu)]
      rcases List.mem_cons.mp hw with rfl | hw
      · exact .inl List.mem_cons_self
      · exact (ih hw).imp_left (List.mem_cons_of_mem u)

theorem find?_updateFirst (hf : ∀ v, (f v).version = v.version) :
    ((updateFirst n f vs).find? fun v => v.version = m) =
      if m = n then (vs.find? fun v => v.version = n).map f else vs.find? fun v => v.version = m := by
  induction vs with
  | nil => split_ifs <;> rfl
  | cons u vs ih =>
    unfold updateFirst
    by_cases hu : u.version = n
    · simp only [hu, if_true, List.find?_cons, hf, decide_true]
      by_cases hm : m = n
      · simp [hm]
      · simp [hm, Ne.symm hm]
    · simp only [hu, if_false, List.find?_cons, decide_false, ih]
      by_cases hm : m = n
      · simp [hm, hu]
      · simp only [hm, if_false]

theorem updateFirst_append (h : (vs.find? fun v => v.version = n).isSome) (ws : List FlowVersion) :
    updateFirst n f (vs ++ ws) = updateFirst n f vs ++ ws := by
  induction vs with
  | nil => cases h
  | cons u vs ih =>
    rw [List.cons_append, updateFirst, updateFirst]
    split_ifs with hu
    · rfl
    · rw [List.find?_cons_of_neg (by simpa using hu)] at h
      rw [ih h, List.cons_append]

end first

namespace FlowRecord

variable {r : FlowRecord} {log : List ℕ} {n m now : ℕ} {f : FlowVersion → FlowVersion}

theorem update_version? (hf : ∀ v, (f v).version = v.version) :
    (r.update n f).version? m = if m = n then (r.version? n).map f else r.version? m :=
  find?_updateFirst hf

/-- The version was deployed and may be the target of a rollback. -/
def Returnable (v : FlowVersion) : Prop :=
  v.deployedAt.isSome ∧ (v.state = .archived ∨ v.state = .deployed)

/-- What the record keeps of the versions that were active, `log`. -/
structure Follows (r : FlowRecord) (log : List ℕ) : Prop where
  known : ∀ v ∈ r.versions, v.deployedAt.isSome → v.version ∈ log
  first : ∀ m v, r.version? m = some v → v.state = .deployed → r.activeVersion = some m
  kept : ∀ m ∈ log, ∃ v ∈ r.versions, v.version = m ∧ (Returnable v ∨
    v.deployedAt.isSome ∧ r.version? m = some v ∧ r.activeVersion = some m)
  active : ∀ m, r.activeVersion = some m → m ∈ log

/-- No version but `n` is in use. -/
structure Vacant (r : FlowRecord) (log : List ℕ) (n : Option ℕ) : Prop where
  known : ∀ v ∈ r.versions, v.deployedAt.isSome → v.version ∈ log
  first : ∀ m v, r.version? m = some v → v.state = .deployed → n = some m
  kept : ∀ m ∈ log, n ≠ some m → ∃ v ∈ r.versions, v.version = m ∧ Returnable v

theorem follows_fresh (id : String) (now : ℕ) : (fresh id now).Follows [] where
  known := fun _ h => (by cases h)
  first := fun _ _ h => (by cases h)
  kept := fun _ h => (by cases h)
  active := fun _ h => (by cases h)

theorem Follows.isSome (h : r.Follows log) (hm : r.activeVersion = some m) :
    (r.version? m).isSome := by
  obtain ⟨v, hv, hn, _⟩ := h.kept m (h.active m hm)
  rw [version?_isSome_iff]
  exact List.mem_map.mpr ⟨v, hv, hn⟩

theorem Follows.draft (h : r.Follows log) (source checksum : String) (note : Option String) :
    (r.draft source checksum note now).Follows log := by
  have hfind : ∀ m v, r.version? m = some v →
      (r.draft source checksum note now).version? m = some v := by
    intro m v hv
    simp only [version?, FlowRecord.draft, List.find?_append] at hv ⊢
    rw [hv, Option.some_or]
  constructor
  · intro v hv hd
    rcases List.mem_append.mp hv with hv | hv
    · exact h.known v hv hd
    · rw [List.mem_singleton.mp hv] at hd
      cases hd
  · intro m v hv hs
    cases hold : r.version? m with
    | some u =>
      rw [hfind m u hold, Option.some.injEq] at hv
      exact h.first m u hold (hv ▸ hs)
    | none =>
      simp only [version?, FlowRecord.draft, List.find?_append] at hv hold
      rw [hold, Option.none_or] at hv
      have hmem := List.mem_singleton.mp (List.mem_of_find?_eq_some hv)
      rw [hmem] at hs
      cases hs
  · intro m hm
    obtain ⟨v, hv, hn, hret | ⟨hd, hfirst, hact⟩⟩ := h.kept m hm
    · exact ⟨v, List.mem_append_left _ hv, hn, .inl hret⟩
    · exact ⟨v, List.mem_append_left _ hv, hn, .inr ⟨hd, hfind m v hfirst, hact⟩⟩
  · exact h.active

theorem Follows.validated (h : r.Follows log) {v : FlowVersion} (hv : r.version? n = some v)
    (hstate : v.state ≠ .archived) : (r.validated n now).Follows log := by
  have hfind : ∀ m, (r.validated n now).version? m =
      if m = n then (r.version? n).map (.markValidated now) else r.version? m := fun m =>
    update_version? (f := FlowVersion.markValidated now) fun _ => rfl
  constructor
  · intro w hw hd
    rcases of_mem_updateFirst hw with hw | ⟨u, hu, rfl⟩
    · exact h.known w hw hd
    · exact h.known u (List.mem_of_find?_eq_some hu) hd
  · intro m w hw hs
    rw [hfind] at hw
    split_ifs at hw with hm
    · obtain ⟨u, _, rfl⟩ := Option.map_eq_some_iff.mp hw
      cases hs
    · exact h.first m w hw hs
  · intro m hm
    -- the first version with a number stays the first
    have hsame : ∀ u, r.version? m = some u → u.deployedAt.isSome → r.activeVersion = some m →
        ∃ w ∈ (r.validated n now).versions, w.version = m ∧ (Returnable w ∨
          w.deployedAt.isSome ∧ (r.validated n now).version? m = some w ∧
            (r.validated n now).activeVersion = some m) := by
      intro u hu hd hact
      have hun := (version?_mem hu).2
      by_cases hmn : m = n
      · have hnew : (r.validated n now).version? m = some (u.markValidated now) := by
          rw [hfind, if_pos hmn, ← hmn, hu]
          rfl
        exact ⟨_, (version?_mem hnew).1, hun, .inr ⟨hd, hnew, hact⟩⟩
      · have hnew : (r.validated n now).version? m = some u := by
          rw [hfind, if_neg hmn, hu]
        exact ⟨u, (version?_mem hnew).1, hun, .inr ⟨hd, hnew, hact⟩⟩
    obtain ⟨u, hu, hun, hret | ⟨hd, hfirst, hact⟩⟩ := h.kept m hm
    · rcases mem_updateFirst_or (n := n) (f := .markValidated now) hu with hkeep | ⟨hfirst, _⟩
      · exact ⟨u, hkeep, hun, .inl hret⟩
      · have hmn : m = n := hun.symm.trans (version?_mem hfirst).2
        have hu' : r.version? m = some u := hmn ▸ hfirst
        have huv : u = v := Option.some.inj ((hmn ▸ hu').symm.trans hv)
        refine hsame u hu' hret.1 (h.first m u hu' (hret.2.resolve_left ?_))
        rw [huv]
        exact hstate
    · exact hsame u hfirst hd hact
  · exact h.active

theorem Follows.archived (h : r.Follows log) : (r.archived n now).Follows log := by
  have hfind : ∀ m, (r.archived n now).version? m =
      if m = n then (r.version? n).map (.markArchived now) else r.version? m := fun m =>
    update_version? (f := FlowVersion.markArchived now) fun _ => rfl
  have hact : ∀ m, r.activeVersion = some m → m ≠ n → (r.archived n now).activeVersion = some m := by
    intro m hm hne
    simp only [FlowRecord.archived, hm, Option.some.injEq, hne, if_false]
  constructor
  · intro w hw hd
    rcases of_mem_updateFirst hw with hw | ⟨u, hu, rfl⟩
    · exact h.known w hw hd
    · exact h.known u (List.mem_of_find?_eq_some hu) hd
  · intro m w hw hs
    rw [hfind] at hw
    split_ifs at hw with hm
    · obtain ⟨u, _, rfl⟩ := Option.map_eq_some_iff.mp hw
      cases hs
    · exact hact m (h.first m w hw hs) hm
  · intro m hm
    obtain ⟨u, hu, hun, hret⟩ := h.kept m hm
    have hd : u.deployedAt.isSome := by
      rcases hret with hret | hret
      · exact hret.1
      · exact hret.1
    rcases mem_updateFirst_or (n := n) (f := .markArchived now) hu with hkeep | ⟨_, hmark⟩
    · rcases hret with hret | ⟨_, hfirst, hactive⟩
      · exact ⟨u, hkeep, hun, .inl hret⟩
      · by_cases hmn : m = n
        · have hnew : (r.archived n now).version? m = some (u.markArchived now) := by
            rw [hfind, if_pos hmn, ← hmn, hfirst]
            rfl
          exact ⟨_, (version?_mem hnew).1, hun, .inl ⟨hd, .inl rfl⟩⟩
        · refine ⟨u, hkeep, hun, .inr ⟨hd, ?_, hact m hactive hmn⟩⟩
          rw [hfind, if_neg hmn, hfirst]
    · exact ⟨_, hmark, hun, .inl ⟨hd, .inl rfl⟩⟩
  · intro m hm
    simp only [FlowRecord.archived] at hm
    split_ifs at hm
    exact h.active m hm

/-- The version that was active is archived. -/
theorem Follows.vacate (h : r.Follows log) {previous : ℕ} (hp : r.activeVersion = some previous) :
    (r.update previous (.markArchived now)).Vacant log none := by
  have hfind : ∀ m, (r.update previous (.markArchived now)).version? m =
      if m = previous then (r.version? previous).map (.markArchived now) else r.version? m :=
    fun m => update_version? (f := FlowVersion.markArchived now) fun _ => rfl
  constructor
  · intro w hw hd
    rcases of_mem_updateFirst hw with hw | ⟨u, hu, rfl⟩
    · exact h.known w hw hd
    · exact h.known u (List.mem_of_find?_eq_some hu) hd
  · intro m w hw hs
    rw [hfind] at hw
    split_ifs at hw with hm
    · obtain ⟨u, _, rfl⟩ := Option.map_eq_some_iff.mp hw
      cases hs
    · have hact := h.first m w hw hs
      rw [hp, Option.some.injEq] at hact
      exact absurd hact.symm hm
  · intro m hm _
    obtain ⟨u, hu, hun, hret⟩ := h.kept m hm
    have hd : u.deployedAt.isSome := by
      rcases hret with hret | hret
      · exact hret.1
      · exact hret.1
    rcases mem_updateFirst_or (n := previous) (f := .markArchived now) hu with hkeep | ⟨_, hmark⟩
    · rcases hret with hret | ⟨_, hfirst, hact⟩
      · exact ⟨u, hkeep, hun, hret⟩
      · obtain rfl : m = previous := Option.some.inj (hact.symm.trans hp)
        have hnew : (r.update m (.markArchived now)).version? m = some (u.markArchived now) := by
          rw [hfind, if_pos rfl, hfirst]
          rfl
        exact ⟨_, (version?_mem hnew).1, hun, ⟨hd, .inl rfl⟩⟩
    · exact ⟨_, hmark, hun, ⟨hd, .inl rfl⟩⟩

/-- A record as it stands has no other version in use than the active one. -/
theorem Follows.vacant (h : r.Follows log) : r.Vacant log r.activeVersion where
  known := h.known
  first := h.first
  kept := by
    intro m hm hne
    obtain ⟨v, hv, hn, hret | ⟨_, _, hact⟩⟩ := h.kept m hm
    · exact ⟨v, hv, hn, hret⟩
    · exact absurd hact hne

theorem Vacant.weaken (h : r.Vacant log none) (n : Option ℕ) : r.Vacant log n where
  known := h.known
  first := fun m v hv hs => absurd (h.first m v hv hs) (by simp)
  kept := fun m hm _ => h.kept m hm (by simp)

theorem Follows.retire (h : r.Follows log) (n now : ℕ) : (r.retire n now).Vacant log (some n) := by
  unfold FlowRecord.retire
  split
  next hp =>
    have hv := h.vacant
    rw [hp] at hv
    exact hv.weaken _
  next previous hp =>
    split_ifs with hne
    · exact (h.vacate hp).weaken _
    · have hv := h.vacant
      rwa [hp, not_not.mp hne] at hv

theorem Follows.activated (h : r.Follows log) (hn : (r.version? n).isSome) :
    (r.activated n now).Follows (log ++ [n]) := by
  have hr := h.retire n now
  have hfind : ∀ m, (r.activated n now).version? m = if m = n then
      ((r.retire n now).version? n).map (.markDeployed now) else (r.retire n now).version? m :=
    fun m => update_version? (f := FlowVersion.markDeployed now) fun _ => rfl
  have hexists : ((r.retire n now).version? n).isSome := by
    unfold FlowRecord.retire
    split
    · exact hn
    next previous _ =>
      split_ifs
      · rw [update_version? (f := FlowVersion.markArchived now) fun _ => rfl]
        split_ifs with heq
        · rw [Option.isSome_map, ← heq]
          exact hn
        · exact hn
      · exact hn
  constructor
  · intro w hw hd
    rw [List.mem_append, List.mem_singleton]
    rcases of_mem_updateFirst hw with hw | ⟨u, hu, rfl⟩
    · exact .inl (hr.known w hw hd)
    · exact .inr (version?_mem hu).2
  · intro m w hw hs
    rw [hfind] at hw
    split_ifs at hw with hm
    · rw [hm]
      rfl
    · exact hr.first m w hw hs
  · intro m hm
    by_cases hmn : m = n
    · obtain ⟨u, hu⟩ := Option.isSome_iff_exists.mp hexists
      have hnew : (r.activated n now).version? m = some (u.markDeployed now) := by
        rw [hfind, if_pos hmn, hu]
        rfl
      have hun := (version?_mem hu).2
      exact ⟨_, (version?_mem hnew).1, hun.trans hmn.symm, .inl ⟨rfl, .inr rfl⟩⟩
    · have hold : m ∈ log := by
        rcases List.mem_append.mp hm with hm | hm
        · exact hm
        · exact absurd (List.mem_singleton.mp hm) hmn
      obtain ⟨u, hu, hun, hret⟩ := hr.kept m hold fun he => hmn (Option.some.inj he).symm
      rcases mem_updateFirst_or (n := n) (f := .markDeployed now) hu with hkeep | ⟨hfirst, _⟩
      · exact ⟨u, hkeep, hun, .inl hret⟩
      · exact absurd (hun.symm.trans (version?_mem hfirst).2) hmn
  · intro m hm
    rw [← Option.some.inj hm]
    exact List.mem_append_right _ List.mem_cons_self

/-- A version is added to a record in which none is in use, and is active. -/
theorem Vacant.push (h : r.Vacant log none) {v : FlowVersion} (hv : v.deployedAt.isSome)
    (hs : v.state = .deployed) {s : FlowRecord} (hversions : s.versions = r.versions ++ [v])
    (hactive : s.activeVersion = some v.version) : s.Follows (log ++ [v.version]) := by
  constructor
  · intro w hw hd
    rw [hversions, List.mem_append, List.mem_singleton] at hw
    rw [List.mem_append, List.mem_singleton]
    rcases hw with hw | rfl
    · exact .inl (h.known w hw hd)
    · exact .inr rfl
  · intro m w hw hstate
    rw [version?, hversions, List.find?_append] at hw
    cases hold : r.version? m with
    | some u =>
      have hu : (r.versions.find? fun v => v.version = m) = some u := hold
      rw [hu, Option.some_or, Option.some.injEq] at hw
      have hbad := h.first m u hold (hw ▸ hstate)
      cases hbad
    | none =>
      have hu : (r.versions.find? fun v => v.version = m) = none := hold
      rw [hu, Option.none_or] at hw
      have hw' := List.mem_singleton.mp (List.mem_of_find?_eq_some hw)
      have hm : w.version = m := by simpa using List.find?_some hw
      rw [hactive, ← hm, hw']
  · intro m hm
    rcases List.mem_append.mp hm with hm | hm
    · obtain ⟨u, hu, hun, hret⟩ := h.kept m hm (by simp)
      refine ⟨u, ?_, hun, .inl hret⟩
      rw [hversions]
      exact List.mem_append_left _ hu
    · refine ⟨v, ?_, (List.mem_singleton.mp hm).symm, .inl ⟨hv, .inr hs⟩⟩
      rw [hversions]
      exact List.mem_append_right _ List.mem_cons_self
  · intro m hm
    rw [hactive] at hm
    rw [← Option.some.inj hm]
    exact List.mem_append_right _ List.mem_cons_self

theorem Follows.seeded (h : r.Follows log) (source checksum : String) :
    (r.seeded source checksum now).Follows (log ++ [r.nextVersion]) := by
  unfold FlowRecord.seeded
  simp only
  generalize hnew : (⟨r.nextVersion, .deployed, source, checksum, now, some now, some now, none,
    some "servido por CLI"⟩ : FlowVersion) = new
  obtain ⟨hnumber, hstate, hdeployed⟩ : new.version = r.nextVersion ∧ new.state = .deployed ∧
      new.deployedAt.isSome := by
    rw [← hnew]
    exact ⟨rfl, rfl, rfl⟩
  rw [← hnumber]
  split
  next hp =>
    have hv := h.vacant
    rw [hp] at hv
    exact hv.push hdeployed hstate rfl rfl
  next previous hp =>
    have hsome : (r.versions.find? fun v => v.version = previous).isSome := h.isSome hp
    exact (h.vacate hp).push hdeployed hstate (updateFirst_append hsome [new]) rfl

/-- The versions a rollback chooses from were active before. -/
theorem Follows.candidates (h : r.Follows log) {c : ℕ} (hc : r.activeVersion = some c) :
    m ∈ (r.versions.filter fun v => v.deployedAt.isSome && some v.version ≠ r.activeVersion &&
      (v.state = .archived || v.state = .deployed)).map FlowVersion.version ↔ m ∈ log ∧ m ≠ c := by
  simp only [List.mem_map, List.mem_filter, Bool.and_eq_true, Bool.or_eq_true, decide_eq_true_eq, hc,
    ne_eq, Option.some.injEq]
  constructor
  · rintro ⟨v, ⟨hv, ⟨hd, hne⟩, _⟩, rfl⟩
    exact ⟨h.known v hv hd, hne⟩
  · rintro ⟨hm, hne⟩
    obtain ⟨v, hv, rfl, hret | ⟨_, _, hact⟩⟩ := h.kept m hm
    · exact ⟨v, ⟨hv, ⟨hret.1, hne⟩, hret.2⟩, rfl⟩
    · rw [hc, Option.some.injEq] at hact
      exact absurd hact.symm hne

theorem Follows.rollbackTarget (h : r.Follows log) {p c : ℕ} (hc : r.activeVersion = some c)
    (hp : p ∈ log) (hpc : p ≠ c) :
    r.rollbackTarget = some p ↔ ∀ m ∈ log, m ≠ c → m ≤ p := by
  unfold FlowRecord.rollbackTarget
  rw [List.max?_eq_some_iff]
  constructor
  · rintro ⟨_, hle⟩ m hm hmc
    exact hle m ((h.candidates hc).mpr ⟨hm, hmc⟩)
  · intro hle
    refine ⟨(h.candidates hc).mpr ⟨hp, hpc⟩, fun m hm => ?_⟩
    obtain ⟨hm, hmc⟩ := (h.candidates hc).mp hm
    exact hle m hm hmc

end FlowRecord

/-! ### Runs of the registry -/

/-- The record of a flow follows the versions that were active. -/
def Followed (id : String) (records : Records) (log : List ℕ) : Prop :=
  match Dict.get? records id with
  | none => log = []
  | some r => r.Follows log

section runs
variable {codec : Codec} {s t : Registry} {input : Input} {stage next : Stage} {id flow : String}
  {r : FlowRecord} {log : List ℕ}

theorem Followed.record (h : Followed id s.records log) (hr : Dict.get? s.records id = some r) :
    r.Follows log := by
  unfold Followed at h
  rwa [hr] at h

theorem Followed.getD (h : Followed id s.records log) (now : ℕ) :
    ((Dict.get? s.records id).getD (.fresh id now)).Follows log := by
  unfold Followed at h
  cases hr : Dict.get? s.records id with
  | some r =>
    rw [hr] at h
    exact h
  | none =>
    rw [hr] at h
    rw [h]
    exact FlowRecord.follows_fresh id now

theorem nextVersion_getD (records : Records) (id : String) (now : ℕ) :
    ((Dict.get? records id).getD (.fresh id 0)).nextVersion =
      ((Dict.get? records id).getD (.fresh id now)).nextVersion := by
  cases Dict.get? records id <;> rfl

/-- Every write of a record is a deployment of `log`, or leaves `log` as it is. -/
theorem Writes.followed (h : Writes codec s input stage flow r next)
    (hfound : Found s.records stage) (hf : Followed id s.records log) :
    Followed id (Dict.insert s.records flow r) (log ++ stage.activates id s.records) := by
  unfold Followed
  by_cases hid : flow = id
  · subst hid
    rw [Dict.get?_insert, if_pos rfl]
    simp only
    cases h with
    | draft record _ hrec =>
      subst hrec
      simp only [Stage.activates, List.append_nil]
      exact (hf.getD _).draft _ _ _
    | validated hr hv hs =>
      simp only [Stage.activates, List.append_nil]
      exact (hf.record hr).validated hv hs
    | archived hr _ =>
      simp only [Stage.activates, List.append_nil]
      exact (hf.record hr).archived
    | seeded record hrec =>
      subst hrec
      rw [Stage.activates, if_pos rfl, nextVersion_getD s.records flow input.now]
      exact (hf.getD _).seeded _ _
    | @activated a _ old hr =>
      obtain ⟨r', hr', hv⟩ := hfound _ rfl
      obtain rfl : old = r' := Option.some.inj (hr.symm.trans hr')
      have hsome : (Dict.get? s.records a.id).isSome := by
        rw [hr]
        rfl
      rw [Stage.activates, if_pos ⟨rfl, hsome⟩]
      exact (hf.record hr).activated hv
  · have hnone : stage.activates id s.records = [] := by
      cases h with
      | draft | validated | archived => rfl
      | seeded => exact if_neg hid
      | activated => exact if_neg fun hand => hid hand.1
    rw [Dict.get?_insert, if_neg (Ne.symm hid), hnone, List.append_nil]
    exact hf

/-- A stage that does not write the records makes no version active. -/
theorem activates_of_moves {i : ℕ} (h : s.advance i codec input stage = some t)
    (hrevision : t.revision = s.revision) : stage.activates id s.records = [] := by
  cases stage with
  | record a supervisor =>
    unfold Registry.advance Registry.stepRecords Registry.stepCheck Registry.stepRuntime at h
    simp only [Option.none_or] at h
    split at h
    next hr =>
      refine if_neg fun hand => ?_
      rw [← hand.1, hr] at hand
      cases hand.2
    next r hr =>
      cases h
      exact absurd hrevision (Nat.succ_ne_self _)
  | seed flow source supervisor =>
    cases h
    exact absurd hrevision (Nat.succ_ne_self _)
  | _ => rfl

/-- One step: the record follows the versions that are made active. -/
theorem step_followed {a : Action} (hfound : ∀ c ∈ s.calls, Found s.records c.stage)
    (hf : Followed id s.records log) (hs : step codec s a = some t) :
    Followed id t.records (log ++ activations id s a t) := by
  cases a with
  | call request =>
    cases Option.some.inj hs
    rw [activations, List.append_nil]
    · cases request <;> exact hf
    · intro i input ha
      cases ha
  | finish supervisor =>
    cases Option.some.inj hs
    rw [activations, List.append_nil]
    · exact hf
    · intro i input ha
      cases ha
  | advance i input =>
    obtain ⟨c, hc, hadv⟩ := Option.bind_eq_some_iff.mp hs
    rw [activations, hc, Option.map_some, Option.getD_some]
    rcases Registry.advance_moves hadv with ⟨next, hmoves, _⟩ | ⟨flow, r, next, hw, rfl⟩
    · rw [activates_of_moves hadv hmoves.revision, List.append_nil, hmoves.records]
      exact hf
    · exact hw.followed (hfound c (List.mem_of_getElem? hc)) hf

/-- In every run the record of a flow follows the versions that were active. -/
theorem run_followed {persistent : Bool} {maxConcurrent : ℕ} {s : Registry}
    (h : (registry codec).Logged (fun _ _ => True) (activations id)
      (.create persistent maxConcurrent) s log) : Followed id s.records log := by
  have hinit : Followed id (Registry.create persistent maxConcurrent).records [] := rfl
  have hboth := h.invariant (I := fun s log => (∀ c ∈ s.calls, Found s.records c.stage) ∧
    Followed id s.records log) ⟨fun c hc => (by cases hc), hinit⟩
      fun u a v log hu _ hs => ⟨step_found hu.1 hs, step_followed hu.1 hu.2 hs⟩
  exact hboth.2

end runs

/-- A call of `rollback` goes on to activate the version that was active before
exactly when no version with a larger number was ever active, the present one
apart. -/
theorem rollback_target (codec : Codec) (persistent : Bool) (maxConcurrent : ℕ) {id : String}
    {s : Registry} {log : List ℕ} (h : (registry codec).Logged (fun _ _ => True) (activations id)
      (.create persistent maxConcurrent) s log) {i : ℕ} {call : Call} {start : Bool}
    (hcall : s.calls[i]? = some call) (hstage : call.stage = .selectTarget id start)
    {r : FlowRecord} (hr : Dict.get? s.records id = some r) {c p : ℕ}
    (hc : r.activeVersion = some c) (hp : previousVersion c log = some p) (input : Input) :
    step codec s (.advance i input) = some (s.goto i (.source ⟨id, p, start, true⟩)) ↔
      ∀ m ∈ log, m ≠ c → m ≤ p := by
  have hmem : p ∈ log ∧ p ≠ c := by
    have hin := List.mem_of_find?_eq_some hp
    have hne := List.find?_some hp
    exact ⟨List.mem_reverse.mp hin, by simpa using hne⟩
  rw [← ((run_followed h).record hr).rollbackTarget hc hmem.1 hmem.2]
  have hadvance : step codec s (.advance i input) =
      s.stepCheck i codec input (.selectTarget id start) := by
    rw [step, hcall, Option.bind_some, hstage, Registry.advance]
    simp only [Registry.stepRecords, Registry.stepRuntime, Registry.stepPersist, Option.none_or,
      Option.or_none]
  have hgoto : ∀ stage : Stage, (s.goto i stage).calls[i]? = some ⟨stage, call.wrote⟩ := by
    intro stage
    rw [Registry.goto, List.getElem?_modify, hcall]
    simp only [if_true, Option.map_eq_map, Option.map_some]
  have hsource := hgoto (.source ⟨id, p, start, true⟩)
  rw [hadvance]
  simp only [Registry.stepCheck, hr]
  constructor
  · intro hgo
    cases htarget : r.rollbackTarget with
    | none =>
      rw [htarget, Option.some.injEq] at hgo
      rw [← hgo] at hsource
      have hdone := (hgoto (.done (.error (.invalidState
        "no hay una versión previa desplegada para hacer rollback")))).symm.trans hsource
      simp at hdone
    | some version =>
      rw [htarget, Option.some.injEq] at hgo
      rw [← hgo, hgoto] at hsource
      simp only [Option.some.injEq, Call.mk.injEq, Stage.source.injEq, Activation.mk.injEq,
        true_and, and_true] at hsource
      rw [hsource]
  · intro htarget
    rw [htarget]

/-- Drafts of one flow are created and validated, and versions of it are deployed. -/
def sampleHistory (drafts : ℕ) (deployed : List ℕ) : List Action :=
  (List.range drafts).flatMap (fun i =>
    .call (.createDraft sampleFlow none) :: List.replicate 2 (.advance i calm)) ++
  (List.range drafts).flatMap (fun i =>
    .call (.validateVersion "registry-test" (i + 1)) ::
      List.replicate 4 (.advance (drafts + i) calm)) ++
  deployed.zipIdx.flatMap fun v =>
    .call (.deployVersion "registry-test" v.1 false) ::
      List.replicate 8 (.advance (2 * drafts + v.2) calm)

theorem sample_logged : (registry sampleCodec).Logged (fun _ _ => True)
    (activations "registry-test") (.create false 4) (.create false 4) [] := .refl

/-- The first two versions are deployed in turn, and a rollback is called. -/
theorem rollback_target_first : ∃ s : Registry, step sampleCodec s (.advance 6 calm) =
    some (s.goto 6 (.source ⟨"registry-test", 1, false, true⟩)) := by
  have hlog : (registry sampleCodec).record (activations "registry-test") (.create false 4)
      (sampleHistory 2 [1, 2] ++ [.call (.rollback "registry-test" false), .advance 6 calm]) =
        [1, 2] := by
    decide +kernel
  have hlogged := Machine.Logged.of_exec
    (sampleHistory 2 [1, 2] ++ [.call (.rollback "registry-test" false), .advance 6 calm])
    sample_logged rfl
  rw [List.nil_append, hlog] at hlogged
  have htarget := @rollback_target sampleCodec false 4 "registry-test" _ _ hlogged 6 _ false rfl rfl
    _ rfl 2 1 rfl (by decide) calm
  exact ⟨_, htarget.mpr (by decide)⟩

/-- Versions 3, 1 and 2 are deployed in this order; the rollback activates 3. -/
theorem rollback_takes_largest : ∃ s t log,
    (registry sampleCodec).Logged (fun _ _ => True) (activations "registry-test")
      (.create false 4) s log ∧
    (Dict.get? s.records "registry-test").bind FlowRecord.activeVersion = some 2 ∧
    previousVersion 2 log = some 1 ∧
    (registry sampleCodec).exec s (.call (.rollback "registry-test" false) ::
      List.replicate 9 (.advance 9 calm)) = some t ∧
    (Dict.get? t.records "registry-test").bind FlowRecord.activeVersion = some 3 := by
  have hrun : ((registry sampleCodec).exec (.create false 4) (sampleHistory 3 [3, 1, 2])).any
      (fun s => (Dict.get? s.records "registry-test").bind FlowRecord.activeVersion = some 2 &&
        ((registry sampleCodec).exec s (.call (.rollback "registry-test" false) ::
          List.replicate 9 (.advance 9 calm))).any fun t =>
            (Dict.get? t.records "registry-test").bind FlowRecord.activeVersion = some 3) =
        true := by
    decide +kernel
  obtain ⟨s, hexec, hfacts⟩ := (Option.any_eq_true _ _).mp hrun
  rw [Bool.and_eq_true, decide_eq_true_eq] at hfacts
  obtain ⟨t, ht, hactive⟩ := (Option.any_eq_true _ _).mp hfacts.2
  rw [decide_eq_true_eq] at hactive
  have hlog : (registry sampleCodec).record (activations "registry-test") (.create false 4)
      (sampleHistory 3 [3, 1, 2]) = [3, 1, 2] := by
    decide +kernel
  have hlogged := Machine.Logged.of_exec _ sample_logged hexec
  rw [List.nil_append, hlog] at hlogged
  exact ⟨s, t, _, hlogged, hfacts.1, by decide, ht, hactive⟩

end Jaiba.Server
