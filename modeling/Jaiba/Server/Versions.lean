import Jaiba.Server.Registry

/-!
# Versions and their states

What the writes of the registry keep of a record: numbers are distinct, the
active version is the one that is `DEPLOYED`, and sources do not change.
-/

namespace Jaiba.Server
open Jaiba.Lib

/-- What of a version is never written again. -/
def FlowVersion.identity (v : FlowVersion) : ℕ × String × String := (v.version, v.source, v.checksum)

/-- The state machine of a record. -/
structure FlowRecord.Coherent (r : FlowRecord) : Prop where
  deployed : (r.versions.filter fun v => v.state = .deployed).length ≤ 1
  active : ∀ n, r.activeVersion = some n ↔ ∃ v ∈ r.versions, v.version = n ∧ v.state = .deployed
  numbers : (r.versions.map FlowVersion.version).Nodup

/-- The condition on a step: the `DEPLOYED` version is not validated again, and
the number of a new version is free. -/
def VersionsSound (codec : Codec) (s : Registry) : Action → Prop
  | .advance i _ => ∀ c, s.calls[i]? = some c →
    match c.stage with
    | .validateWrite id version => ∀ r v, Dict.get? s.records id = some r →
        r.version? version = some v → v.state ≠ .deployed
    | .createDraft source _ => ∀ id r, codec.flowId source = .ok id →
        Dict.get? s.records id = some r → r.version? r.nextVersion = none
    | .seed id _ _ => ∀ r, Dict.get? s.records id = some r → r.version? r.nextVersion = none
    | _ => True
  | _ => True

/-! ### Writes to a record -/

section update
variable {n : ℕ} {f : FlowVersion → FlowVersion} {vs : List FlowVersion}

theorem map_identity_updateFirst (n : ℕ) (vs : List FlowVersion)
    (hf : ∀ v, (f v).identity = v.identity) :
    (updateFirst n f vs).map FlowVersion.identity = vs.map FlowVersion.identity := by
  induction vs with
  | nil => rfl
  | cons v vs ih =>
    unfold updateFirst
    split_ifs
    · rw [List.map_cons, List.map_cons, hf]
    · rw [List.map_cons, List.map_cons, ih]

theorem map_version_of_identity {vs ws : List FlowVersion}
    (h : ws.map FlowVersion.identity = vs.map FlowVersion.identity) :
    ws.map FlowVersion.version = vs.map FlowVersion.version := by
  have hfst := congrArg (List.map Prod.fst) h
  simpa only [List.map_map, Function.comp_def, FlowVersion.identity] using hfst

/-- With distinct numbers the versions with the number are the one written. -/
theorem mem_updateFirst (hn : (vs.map FlowVersion.version).Nodup) {w : FlowVersion} :
    w ∈ updateFirst n f vs ↔
      (∃ v ∈ vs, v.version = n ∧ w = f v) ∨ w ∈ vs ∧ w.version ≠ n := by
  induction vs with
  | nil => simp [updateFirst]
  | cons v vs ih =>
    rw [List.map_cons, List.nodup_cons] at hn
    have hfresh : ∀ u ∈ vs, u.version ≠ v.version := fun u hu he =>
      hn.1 (List.mem_map.mpr ⟨u, hu, he⟩)
    unfold updateFirst
    split_ifs with hv
    · constructor
      · intro hw
        rcases List.mem_cons.mp hw with rfl | hw
        · exact .inl ⟨v, List.mem_cons_self, hv, rfl⟩
        · exact .inr ⟨List.mem_cons_of_mem v hw, hv ▸ hfresh w hw⟩
      · rintro (⟨u, hu, hun, rfl⟩ | ⟨hw, hne⟩)
        · rcases List.mem_cons.mp hu with rfl | hu
          · exact List.mem_cons_self
          · exact absurd (hun.trans hv.symm) (hfresh u hu)
        · rcases List.mem_cons.mp hw with rfl | hw
          · exact absurd hv hne
          · exact List.mem_cons_of_mem _ hw
    · rw [List.mem_cons, ih hn.2]
      constructor
      · rintro (rfl | ⟨u, hu, hun, rfl⟩ | ⟨hw, hne⟩)
        · exact .inr ⟨List.mem_cons_self, hv⟩
        · exact .inl ⟨u, List.mem_cons_of_mem v hu, hun, rfl⟩
        · exact .inr ⟨List.mem_cons_of_mem v hw, hne⟩
      · rintro (⟨u, hu, hun, rfl⟩ | ⟨hw, hne⟩)
        · rcases List.mem_cons.mp hu with rfl | hu
          · exact absurd hun hv
          · exact .inr (.inl ⟨u, hu, hun, rfl⟩)
        · rcases List.mem_cons.mp hw with rfl | hw
          · exact .inl rfl
          · exact .inr (.inr ⟨hw, hne⟩)

end update

namespace FlowRecord

variable {r : FlowRecord} {n now : ℕ}

/-- `Coherent` with the deployed versions one by one. -/
structure Tidy (r : FlowRecord) : Prop where
  numbers : (r.versions.map FlowVersion.version).Nodup
  deployed : ∀ v ∈ r.versions, v.state = .deployed → r.activeVersion = some v.version
  active : ∀ n, r.activeVersion = some n → ∃ v ∈ r.versions, v.version = n ∧ v.state = .deployed

theorem Tidy.coherent (h : r.Tidy) : r.Coherent where
  deployed := by
    have hsame : ∀ m ∈ (r.versions.filter fun v => v.state = .deployed).map FlowVersion.version,
        r.activeVersion = some m := by
      intro m hm
      obtain ⟨v, hv, rfl⟩ := List.mem_map.mp hm
      rw [List.mem_filter, decide_eq_true_eq] at hv
      exact h.deployed v hv.1 hv.2
    have hsub := List.filter_sublist (p := fun v : FlowVersion => decide (v.state = .deployed))
      (l := r.versions)
    have hn := h.numbers.sublist (hsub.map FlowVersion.version)
    rw [← List.length_map FlowVersion.version]
    generalize (r.versions.filter fun v => v.state = .deployed).map FlowVersion.version = ms at hn hsame
    match ms with
    | [] => exact Nat.zero_le 1
    | [m] => exact Nat.le_refl 1
    | m :: m' :: ms =>
      have heq : m = m' := by
        have hm := hsame m List.mem_cons_self
        have hm' := hsame m' (List.mem_cons_of_mem m List.mem_cons_self)
        rw [hm] at hm'
        exact Option.some.inj hm'
      rw [heq, List.nodup_cons] at hn
      exact absurd List.mem_cons_self hn.1
  active := fun n => ⟨h.active n, fun ⟨v, hv, hn, hs⟩ => hn ▸ h.deployed v hv hs⟩
  numbers := h.numbers

theorem fresh_tidy (id : String) (now : ℕ) : (fresh id now).Tidy :=
  ⟨List.nodup_nil, fun v hv => (by cases hv), fun n hn => (by cases hn)⟩

theorem version?_none_iff : r.version? n = none ↔ n ∉ r.versions.map FlowVersion.version := by
  simp only [version?, List.find?_eq_none, decide_eq_true_eq, List.mem_map, not_exists, not_and]

theorem version?_isSome_iff : (r.version? n).isSome ↔ n ∈ r.versions.map FlowVersion.version := by
  rw [← Option.ne_none_iff_isSome, ne_eq, version?_none_iff, not_not]

theorem version?_mem {v : FlowVersion} (h : r.version? n = some v) : v ∈ r.versions ∧ v.version = n :=
  ⟨List.mem_of_find?_eq_some h, by simpa using List.find?_some h⟩

/-- The number of a version determines it. -/
theorem Tidy.unique (h : r.Tidy) {v w : FlowVersion} (hv : v ∈ r.versions) (hw : w ∈ r.versions)
    (he : v.version = w.version) : v = w := List.inj_on_of_nodup_map h.numbers hv hw he

/-- One version is written, and the active version with it or not. -/
theorem Tidy.update (h : r.Tidy) {f : FlowVersion → FlowVersion}
    (hf : ∀ v, (f v).identity = v.identity) {s : FlowRecord}
    (hs : s.versions = updateFirst n f r.versions)
    (hdeployed : ∀ v ∈ r.versions, v.version = n → (f v).state = .deployed →
      s.activeVersion = some n)
    (hothers : ∀ v ∈ r.versions, v.version ≠ n → v.state = .deployed →
      s.activeVersion = some v.version)
    (hactive : ∀ m, s.activeVersion = some m → ∃ v ∈ r.versions, v.version = m ∧
      (m = n → (f v).state = .deployed) ∧ (m ≠ n → v.state = .deployed)) : s.Tidy := by
  have hversion : ∀ v, (f v).version = v.version := fun v => congrArg Prod.fst (hf v)
  refine ⟨?_, fun w hw hstate => ?_, fun m hm => ?_⟩
  · rw [hs, map_version_of_identity (map_identity_updateFirst n r.versions hf)]
    exact h.numbers
  · rw [hs, mem_updateFirst h.numbers] at hw
    rcases hw with ⟨v, hv, hn, rfl⟩ | ⟨hw, hne⟩
    · rw [hversion, hn]
      exact hdeployed v hv hn hstate
    · exact hothers w hw hne hstate
  · obtain ⟨v, hv, hvm, heq, hne⟩ := hactive m hm
    by_cases hmn : m = n
    · refine ⟨f v, ?_, (hversion v).trans hvm, heq hmn⟩
      rw [hs, mem_updateFirst h.numbers]
      exact .inl ⟨v, hv, hvm.trans hmn, rfl⟩
    · refine ⟨v, ?_, hvm, hne hmn⟩
      rw [hs, mem_updateFirst h.numbers]
      exact .inr ⟨hv, hvm ▸ hmn⟩

theorem Tidy.validated (h : r.Tidy) {v : FlowVersion} (hv : r.version? n = some v)
    (hstate : v.state ≠ .deployed) : (r.validated n now).Tidy := by
  obtain ⟨hmem, hn⟩ := version?_mem hv
  refine h.update (f := .markValidated now) (fun _ => rfl) rfl (fun w _ _ hw => by cases hw)
    (fun w hw _ hs => h.deployed w hw hs) fun m hm => ?_
  obtain ⟨w, hw, hwm, hs⟩ := h.active m hm
  refine ⟨w, hw, hwm, fun heq => ?_, fun _ => hs⟩
  have hsame := h.unique hw hmem (hwm.trans (heq.trans hn.symm))
  exact absurd (hsame ▸ hs) hstate

theorem Tidy.archived (h : r.Tidy) : (r.archived n now).Tidy := by
  refine h.update (f := .markArchived now) (fun _ => rfl) rfl (fun w _ _ hw => by cases hw)
    (fun w hw hne hs => ?_) fun m hm => ?_
  · have hact := h.deployed w hw hs
    simp only [FlowRecord.archived, hact, Option.some.injEq, hne, if_false]
  · simp only [FlowRecord.archived] at hm
    split_ifs at hm with hact
    obtain ⟨w, hw, hwm, hs⟩ := h.active m hm
    refine ⟨w, hw, hwm, fun heq => ?_, fun _ => hs⟩
    rw [heq] at hm
    exact absurd hm hact

/-- Once the active version is archived, none is deployed. -/
theorem Tidy.retired (h : r.Tidy) (n now : ℕ) :
    ((r.retire n now).versions.map FlowVersion.version).Nodup ∧
    (r.retire n now).versions.map FlowVersion.identity = r.versions.map FlowVersion.identity ∧
    ∀ v ∈ (r.retire n now).versions, v.version ≠ n → v.state ≠ .deployed := by
  unfold retire
  split
  next hact =>
    refine ⟨h.numbers, rfl, fun v hv _ hs => ?_⟩
    have hsome := h.deployed v hv hs
    rw [hact] at hsome
    cases hsome
  next previous hact =>
    split_ifs with hne
    · have hid := map_identity_updateFirst (f := .markArchived now) previous r.versions fun _ => rfl
      refine ⟨?_, hid, fun v hv _ hs => ?_⟩
      · rw [FlowRecord.update, map_version_of_identity hid]
        exact h.numbers
      · rw [FlowRecord.update, mem_updateFirst h.numbers] at hv
        rcases hv with ⟨w, _, _, rfl⟩ | ⟨hv, hvn⟩
        · cases hs
        · have hsome := h.deployed v hv hs
          rw [hact, Option.some.injEq] at hsome
          exact hvn hsome.symm
    · refine ⟨h.numbers, rfl, fun v hv hvn hs => ?_⟩
      have hsome := h.deployed v hv hs
      rw [hact, Option.some.injEq] at hsome
      exact hvn (hsome.symm.trans (not_not.mp hne))

theorem Tidy.activated (h : r.Tidy) (hv : (r.version? n).isSome) : (r.activated n now).Tidy := by
  obtain ⟨hnum, hid, hstate⟩ := h.retired n now
  have hid' := map_identity_updateFirst (f := .markDeployed now) n (r.retire n now).versions
    fun _ => rfl
  refine ⟨?_, fun w hw hs => ?_, fun m hm => ?_⟩
  · rw [FlowRecord.activated, FlowRecord.update, map_version_of_identity hid']
    exact hnum
  · rw [FlowRecord.activated, FlowRecord.update, mem_updateFirst hnum] at hw
    rcases hw with ⟨v, _, hvn, rfl⟩ | ⟨hw, hne⟩
    · exact congrArg some hvn.symm
    · exact absurd hs (hstate w hw hne)
  · obtain rfl := Option.some.inj hm
    rw [version?_isSome_iff, ← map_version_of_identity hid] at hv
    obtain ⟨v, hv, hvn⟩ := List.mem_map.mp hv
    refine ⟨v.markDeployed now, ?_, hvn, rfl⟩
    rw [FlowRecord.activated, FlowRecord.update, mem_updateFirst hnum]
    exact .inl ⟨v, hv, hvn, rfl⟩

theorem Tidy.draft (h : r.Tidy) (hfree : r.version? r.nextVersion = none) (source checksum : String)
    (note : Option String) : (r.draft source checksum note now).Tidy := by
  rw [version?_none_iff] at hfree
  refine ⟨?_, fun v hv hs => ?_, fun m hm => ?_⟩
  · simp only [FlowRecord.draft, List.map_append, List.map_cons, List.map_nil]
    exact List.nodup_append.mpr ⟨h.numbers, List.nodup_singleton _, fun a ha b hb hab =>
      hfree (by rw [← List.mem_singleton.mp hb, ← hab]; exact ha)⟩
  · rcases List.mem_append.mp hv with hv | hv
    · exact h.deployed v hv hs
    · rw [List.mem_singleton.mp hv] at hs
      cases hs
  · obtain ⟨v, hv, hvm, hs⟩ := h.active m hm
    exact ⟨v, List.mem_append_left _ hv, hvm, hs⟩

theorem Tidy.seeded (h : r.Tidy) (hfree : r.version? r.nextVersion = none)
    (source checksum : String) : (r.seeded source checksum now).Tidy := by
  rw [version?_none_iff] at hfree
  have hnew : ∀ v ∈ r.versions, v.version ≠ r.nextVersion := fun v hv he =>
    hfree (List.mem_map.mpr ⟨v, hv, he⟩)
  have hnum : ∀ v : FlowVersion, v.version = r.nextVersion →
      ((r.versions ++ [v]).map FlowVersion.version).Nodup := by
    intro v hv
    rw [List.map_append, List.map_cons, List.map_nil, hv]
    exact List.nodup_append.mpr ⟨h.numbers, List.nodup_singleton _, fun a ha b hb hab =>
      hfree (by rw [← List.mem_singleton.mp hb, ← hab]; exact ha)⟩
  unfold FlowRecord.seeded
  simp only
  generalize hv : (⟨r.nextVersion, .deployed, source, checksum, now, some now, some now, none,
    some "servido por CLI"⟩ : FlowVersion) = v
  have hvn : v.version = r.nextVersion := by rw [← hv]
  have hvs : v.state = .deployed := by rw [← hv]
  split
  next hact =>
    refine ⟨hnum v hvn, fun w hw hs => ?_, fun m hm => ?_⟩
    · rcases List.mem_append.mp hw with hw | hw
      · have hsome := h.deployed w hw hs
        rw [hact] at hsome
        cases hsome
      · rw [List.mem_singleton.mp hw, hvn]
    · obtain rfl := Option.some.inj hm
      exact ⟨v, List.mem_append_right _ List.mem_cons_self, hvn, hvs⟩
  next previous hact =>
    have hid := map_identity_updateFirst (f := .markArchived now) previous (r.versions ++ [v])
      fun _ => rfl
    have hne : r.nextVersion ≠ previous := by
      obtain ⟨w, hw, hwp, _⟩ := h.active previous hact
      exact fun he => hnew w hw (hwp.trans he.symm)
    refine ⟨?_, fun w hw hs => ?_, fun m hm => ?_⟩
    · rw [FlowRecord.update, map_version_of_identity hid]
      exact hnum v hvn
    · rw [FlowRecord.update, mem_updateFirst (hnum v hvn)] at hw
      rcases hw with ⟨u, _, _, rfl⟩ | ⟨hw, hwne⟩
      · cases hs
      · rcases List.mem_append.mp hw with hw | hw
        · have hsome := h.deployed w hw hs
          rw [hact, Option.some.injEq] at hsome
          exact absurd hsome.symm hwne
        · rw [List.mem_singleton.mp hw, hvn]
    · obtain rfl := Option.some.inj hm
      refine ⟨v, ?_, hvn, hvs⟩
      rw [FlowRecord.update, mem_updateFirst (hnum v hvn)]
      exact .inr ⟨List.mem_append_right _ List.mem_cons_self, hvn ▸ hne⟩

/-- The history of `r` is the beginning of that of `s`. -/
def Extends (r s : FlowRecord) : Prop :=
  r.versions.map FlowVersion.identity <+: s.versions.map FlowVersion.identity

theorem Extends.refl (r : FlowRecord) : r.Extends r := List.prefix_rfl

theorem Extends.update {s t : FlowRecord} (h : r.Extends s) {f : FlowVersion → FlowVersion}
    (ht : t.versions = updateFirst n f s.versions) (hf : ∀ v, (f v).identity = v.identity) :
    r.Extends t := by
  unfold Extends at h ⊢
  rwa [ht, map_identity_updateFirst n s.versions hf]

theorem Extends.append (r : FlowRecord) {s : FlowRecord} {v : FlowVersion}
    (hs : s.versions = r.versions ++ [v]) : r.Extends s :=
  ⟨[v.identity], by rw [hs, List.map_append, List.map_cons, List.map_nil]⟩

theorem Extends.version? {s : FlowRecord} (h : r.Extends s) (hn : (r.version? n).isSome) :
    (s.version? n).isSome := by
  rw [version?_isSome_iff] at hn ⊢
  have hfst : ∀ vs : List FlowVersion, (vs.map FlowVersion.identity).map Prod.fst =
      vs.map FlowVersion.version := by
    intro vs
    rw [List.map_map]
    rfl
  rw [← hfst] at hn ⊢
  exact (h.map Prod.fst).subset hn

end FlowRecord

/-! ### Writes of the registry -/

section writes
variable {codec : Codec} {s t : Registry} {input : Input} {stage next : Stage} {id : String}
  {r : FlowRecord}

/-- The record a write starts from, and that its history goes on. -/
theorem Writes.extends (h : Writes codec s input stage id r next) :
    ∀ old, Dict.get? s.records id = some old → old.Extends r := by
  intro old hold
  cases h with
  | draft record _ hrec =>
    rw [hold, Option.getD_some] at hrec
    subst hrec
    exact .append _ rfl
  | validated hr =>
    rw [hold] at hr
    cases hr
    exact (FlowRecord.Extends.refl _).update rfl fun _ => rfl
  | archived hr =>
    rw [hold] at hr
    cases hr
    exact (FlowRecord.Extends.refl _).update rfl fun _ => rfl
  | seeded record hrec =>
    rw [hold, Option.getD_some] at hrec
    subst hrec
    unfold FlowRecord.seeded
    simp only
    split
    · exact .append _ rfl
    · exact (FlowRecord.Extends.append _ rfl).update rfl fun _ => rfl
  | @activated a _ _ hr =>
    obtain rfl : old = _ := Option.some.inj (hold.symm.trans hr)
    have hretired : old.Extends (old.retire a.version input.now) := by
      unfold FlowRecord.retire
      split
      · exact .refl old
      · split_ifs
        · exact (FlowRecord.Extends.refl _).update rfl fun _ => rfl
        · exact .refl old
    exact hretired.update rfl fun _ => rfl

theorem Writes.early (h : Writes codec s input stage id r next) : stage.early = true := by
  cases h <;> rfl

theorem Writes.late (h : Writes codec s input stage id r next) : next.late = true := by
  cases h <;> rfl

theorem Writes.target? (h : Writes codec s input stage id r next) : next.target? = none := by
  cases h <;> rfl

/-- The version of an activation is in the records. -/
def Found (records : Records) (stage : Stage) : Prop :=
  ∀ a, stage.target? = some a → ∃ r, Dict.get? records a.1 = some r ∧ (r.version? a.2).isSome

/-- The records are tidy and activations are about versions that exist. -/
structure Kept (s : Registry) : Prop where
  tidy : ∀ id r, Dict.get? s.records id = some r → r.Tidy
  found : ∀ c ∈ s.calls, Found s.records c.stage

theorem Writes.tidy {c : Call} {i : ℕ} (h : Writes codec s input stage id r next) (hk : Kept s)
    (hc : s.calls[i]? = some c) (hstage : c.stage = stage)
    (hok : VersionsSound codec s (.advance i input)) : r.Tidy := by
  have hcond := hok c hc
  have hfound := hk.found c (List.mem_of_getElem? hc)
  rw [hstage] at hcond hfound
  have hbase : ∀ now, ((Dict.get? s.records id).getD (.fresh id now)).Tidy := by
    intro now
    cases hr : Dict.get? s.records id with
    | none => exact FlowRecord.fresh_tidy id now
    | some r => exact hk.tidy id r hr
  have hfree : ∀ now, (∀ r, Dict.get? s.records id = some r → r.version? r.nextVersion = none) →
      ((Dict.get? s.records id).getD (.fresh id now)).version?
        ((Dict.get? s.records id).getD (.fresh id now)).nextVersion = none := by
    intro now hall
    cases hr : Dict.get? s.records id with
    | none => rfl
    | some r => exact hall r hr
  cases h with
  | draft record hid hrec =>
    subst hrec
    exact (hbase _).draft (hfree _ fun r hr => hcond id r hid hr) _ _ _
  | validated hr hv _ => exact (hk.tidy id _ hr).validated hv (hcond _ _ hr hv)
  | archived hr _ => exact (hk.tidy id _ hr).archived
  | seeded record hrec =>
    subst hrec
    exact (hbase _).seeded (hfree _ hcond) _ _
  | activated hr =>
    obtain ⟨r', hr', hv⟩ := hfound _ rfl
    rw [hr] at hr'
    cases hr'
    exact (hk.tidy _ _ hr).activated hv

theorem set_of_modify {α : Type} {l : List α} {i : ℕ} {f : α → α} {x : α} (h : l[i]? = some x) :
    l.modify i f = l.set i (f x) := by
  refine List.ext_getElem? fun j => ?_
  rw [List.getElem?_modify, List.getElem?_set]
  split_ifs with hij hlt
  · rw [← hij, h]
    rfl
  · exact absurd (List.getElem?_eq_some_iff.mp h).1 hlt
  · simp

theorem mem_modify {α : Type} {l : List α} {i : ℕ} {f : α → α} {x : α} (h : x ∈ l.modify i f) :
    x ∈ l ∨ ∃ y, l[i]? = some y ∧ x = f y := by
  obtain ⟨j, hj⟩ := List.mem_iff_getElem?.mp h
  rw [List.getElem?_modify] at hj
  split_ifs at hj with hij
  · obtain ⟨y, hy, rfl⟩ := Option.map_eq_some_iff.mp hj
    exact .inr ⟨y, hij ▸ hy, rfl⟩
  · exact .inl (List.mem_of_getElem? (by simpa using hj))

theorem Found.mono {records : Records} (h : Found s.records stage)
    (hext : ∀ id old, Dict.get? s.records id = some old →
      ∃ r, Dict.get? records id = some r ∧ old.Extends r) : Found records stage := by
  intro a ha
  obtain ⟨r, hr, hv⟩ := h a ha
  obtain ⟨r', hr', hle⟩ := hext a.1 r hr
  exact ⟨r', hr', hle.version? hv⟩

/-- Every record stays, and its history goes on. -/
def Grows (s t : Registry) : Prop :=
  ∀ id r, Dict.get? s.records id = some r → ∃ r', Dict.get? t.records id = some r' ∧ r.Extends r'

theorem write_grows (h : Writes codec s input stage id r next) (i : ℕ) :
    Grows s (s.write i id r next) := by
  intro id' old hold
  by_cases hid : id' = id
  · subst hid
    exact ⟨r, by simp [Registry.write], h.extends old hold⟩
  · exact ⟨old, by simpa [Registry.write, Dict.get?_insert, hid] using hold, List.prefix_rfl⟩

theorem step_grows {a : Action} (hs : step codec s a = some t) : Grows s t := by
  have hsame : t.records = s.records → Grows s t := by
    intro heq id r hr
    exact ⟨r, heq ▸ hr, List.prefix_rfl⟩
  cases a with
  | call request =>
    cases Option.some.inj hs
    cases request <;> exact hsame rfl
  | finish supervisor =>
    cases Option.some.inj hs
    exact hsame rfl
  | advance i input =>
    obtain ⟨c, _, hadv⟩ := Option.bind_eq_some_iff.mp hs
    rcases Registry.advance_moves hadv with ⟨_, hmoves, _⟩ | ⟨id, r, next, hw, rfl⟩
    · exact hsame hmoves.records
    · exact write_grows hw i

/-- Activations are about versions that exist. -/
theorem step_found {a : Action} (hfound : ∀ c ∈ s.calls, Found s.records c.stage)
    (hs : step codec s a = some t) : ∀ c ∈ t.calls, Found t.records c.stage := by
  have hgrows := step_grows hs
  cases a with
  | call request =>
    cases Option.some.inj hs
    have hnew : ∀ c : Call, c.stage.target? = none →
        ∀ b ∈ s.calls ++ [c], Found s.records b.stage := by
      intro c hc b hb
      rcases List.mem_append.mp hb with hb | hb
      · exact hfound b hb
      · rw [List.mem_singleton.mp hb]
        intro x hx
        rw [hc] at hx
        cases hx
    cases request <;> exact hnew _ rfl
  | finish supervisor =>
    cases Option.some.inj hs
    exact hfound
  | advance i input =>
    obtain ⟨c, hc, hadv⟩ := Option.bind_eq_some_iff.mp hs
    have hmem := List.mem_of_getElem? hc
    intro b hb
    rcases Registry.advance_moves hadv with ⟨next, hmoves, htarget⟩ | ⟨id, r, next, hw, rfl⟩
    · rw [hmoves.records]
      rw [hmoves.calls] at hb
      rcases mem_modify hb with hb | ⟨d, hd, rfl⟩
      · exact hfound b hb
      · rw [hc] at hd
        cases hd
        intro x hx
        simp only at hx
        rcases htarget with ht | ht | ⟨y, source, ht, hsource⟩
        · exact hfound c hmem x (ht ▸ hx)
        · rw [ht] at hx
          cases hx
        · rw [ht] at hx
          cases hx
          unfold Registry.versionSource at hsource
          split at hsource
          · cases hsource
          next r hr =>
            split at hsource
            · cases hsource
            next v hv => exact ⟨r, hr, by rw [hv]; rfl⟩
    · rcases mem_modify hb with hb | ⟨d, _, rfl⟩
      · exact (hfound b hb).mono hgrows
      · intro x hx
        rw [hw.target?] at hx
        cases hx

theorem step_kept {a : Action} (hk : Kept s) (hok : VersionsSound codec s a)
    (hs : step codec s a = some t) : Kept t := by
  refine ⟨?_, step_found hk.found hs⟩
  cases a with
  | call request =>
    cases Option.some.inj hs
    cases request <;> exact hk.tidy
  | finish supervisor =>
    cases Option.some.inj hs
    exact hk.tidy
  | advance i input =>
    obtain ⟨c, hc, hadv⟩ := Option.bind_eq_some_iff.mp hs
    rcases Registry.advance_moves hadv with ⟨next, hmoves, _⟩ | ⟨id, r, next, hw, rfl⟩
    · exact hmoves.records ▸ hk.tidy
    · intro id' r' hr'
      simp only [Registry.write, Dict.get?_insert] at hr'
      split_ifs at hr' with hid
      · cases hr'
        exact hw.tidy hk hc rfl hok
      · exact hk.tidy id' r' hr'

end writes

/-- The flow that the tests of the registry deploy. -/
def sampleFlow : String :=
  "\n" ++
  "id: registry-test\n" ++
  "engine:\n" ++
  "  admin:\n" ++
  "    enabled: true\n" ++
  "    authentication: none\n" ++
  "processors:\n" ++
  "  - id: source\n" ++
  "    type: generate_records\n" ++
  "    config:\n" ++
  "      records: []\n" ++
  "  - id: log\n" ++
  "    type: log_records\n" ++
  "connections:\n" ++
  "  - from: source\n" ++
  "    relationship: success\n" ++
  "    to: log\n"

/-- The codec at `sampleFlow`. -/
def sampleCodec : Codec where
  checksum := fun _ => "2d2278352c9eb18b5d091f497743e4aa1353fdca528c0de6e0d7edef1eeaea51"
  flowId := fun _ => .ok "registry-test"
  parse := fun _ => .ok false
  encode := fun records =>
    ((Json.array (records.map FlowRecord.toJson)).pretty 0).toUTF8.data.toList

/-- A call of which nothing fails. -/
def calm : Input := ⟨1, none, none, 0⟩

end Jaiba.Server
