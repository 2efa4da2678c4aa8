import Jaiba.Lib.Paths
import Jaiba.Memory.Policy
import Jaiba.Server.SqlBuilder

/-!
# Stores of the domain memory

Each flow opens its cold, frozen and persistent stores below a directory named
after it.  The name is the id of the flow with `_` for what a file name should
not have, so that two ids may get one name; and the paths that the policy writes
out are not all scoped.
-/

namespace Jaiba.Engine.DomainMemory

open Jaiba.Lib.Paths Jaiba.Memory

/-- A policy with the paths of its stores. -/
structure DomainPolicy extends MemoryPolicy where
  coldPath : Option Path
  frozenPath : Option Path

def safeChar (c : Char) : Char := if c.isAlphanum || c = '-' || c = '_' then c else '_'

def safeFlowId (flowId : String) : String := String.ofList (flowId.toList.map safeChar)

/-- `data_root.join("jme")`. -/
def jme (dataRoot : Path) : Path := dataRoot.join (.ofString "jme")

def coldBase (p : DomainPolicy) (dataRoot : Path) : Path :=
  p.coldPath.getD ((jme dataRoot).join (.ofString "cold"))

def scopeStorePaths (p : DomainPolicy) (dataRoot : Path) (flowId : String) : DomainPolicy :=
  let flow := Path.ofString (safeFlowId flowId)
  let p := if p.backends.cold then { p with coldPath := some ((coldBase p dataRoot).join flow) } else p
  if p.backends.frozen && p.frozenPath.isNone then
    { p with frozenPath := some (((jme dataRoot).join (.ofString "frozen")).join flow) }
  else p

def persistPath (dataRoot : Path) (flowId : String) : Path :=
  ((jme dataRoot).join (.ofString (safeFlowId flowId))).join (.ofString "persist.jsonl")

/-- The paths that `open_domain_memory` opens for a flow. -/
def openDomainMemory (policy : DomainPolicy) (dataRoot : Path) (flowId : String) : List Path :=
  let p := scopeStorePaths policy dataRoot flowId
  (if p.requiresPersistSink then [persistPath dataRoot flowId] else []) ++
    (if p.backends.cold then p.coldPath.toList else []) ++
    if p.backends.frozen then p.frozenPath.toList else []

/-- The registry takes an id that is not blank. -/
def Accepted (flowId : String) : Prop := Server.SqlBuilder.trim flowId.toList ≠ []

instance (flowId : String) : Decidable (Accepted flowId) := inferInstanceAs (Decidable (_ ≠ _))

/-- Neither place is the other one nor lies in it. -/
def Apart (a b : List String) : Prop := ¬ a <+: b ∧ ¬ b <+: a

/-- The stores of two flows have nothing in common. -/
def Isolated (cwd : List String) (policy : DomainPolicy) (dataRoot : Path) (f g : String) : Prop :=
  ∀ a ∈ openDomainMemory policy dataRoot f, ∀ b ∈ openDomainMemory policy dataRoot g,
    Apart (a.place cwd) (b.place cwd)

/-! ### Names of flows -/

def Kept (c : Char) : Prop := c.isAlphanum = true ∨ c = '-'

/-- Two ids that differ at most in what a name does not keep. -/
def Alike (f g : String) : Prop :=
  List.Forall₂ (fun c d => c = d ∨ ¬ Kept c ∧ ¬ Kept d) f.toList g.toList

theorem safeChar_of_kept {c : Char} (h : Kept c) : safeChar c = c := by
  rcases h with h | rfl
  · simp [safeChar, h]
  · rfl

theorem safeChar_of_not_kept {c : Char} (h : ¬ Kept c) : safeChar c = '_' := by
  rw [Kept, not_or] at h
  unfold safeChar
  split_ifs with hc
  · simpa [h.1, h.2] using hc
  · rfl

theorem not_kept_underscore : ¬ Kept '_' := by
  rintro (h | h) <;> exact absurd h (by decide)

theorem safeChar_eq_iff {c d : Char} : safeChar c = safeChar d ↔ c = d ∨ ¬ Kept c ∧ ¬ Kept d := by
  by_cases hc : Kept c
  · by_cases hd : Kept d
    · simp [safeChar_of_kept hc, safeChar_of_kept hd, hc]
    · rw [safeChar_of_kept hc, safeChar_of_not_kept hd]
      refine ⟨fun h => absurd hc (h ▸ not_kept_underscore), ?_⟩
      rintro (rfl | h)
      · exact absurd hc hd
      · exact absurd hc h.1
  · by_cases hd : Kept d
    · rw [safeChar_of_kept hd, safeChar_of_not_kept hc]
      refine ⟨fun h => absurd hd (h ▸ not_kept_underscore), ?_⟩
      rintro (rfl | h)
      · exact absurd hd hc
      · exact absurd hd h.2
    · simp [safeChar_of_not_kept hc, safeChar_of_not_kept hd, hc, hd]

theorem safeFlowId_eq_iff {f g : String} : safeFlowId f = safeFlowId g ↔ Alike f g := by
  rw [safeFlowId, safeFlowId, String.ofList_inj, ← List.forall₂_eq_eq_eq, List.forall₂_map_left_iff,
    List.forall₂_map_right_iff, Alike]
  simp only [safeChar_eq_iff]

theorem safeChar_ne {c d : Char} (hd : ¬ Kept d) (hne : d ≠ '_') : safeChar c ≠ d := by
  by_cases hc : Kept c
  · rw [safeChar_of_kept hc]
    exact fun h => hd (h ▸ hc)
  · rw [safeChar_of_not_kept hc]
    exact hne.symm

theorem not_mem_safeFlowId {d : Char} (hd : ¬ Kept d) (hne : d ≠ '_') (f : String) :
    d ∉ (safeFlowId f).toList := by
  intro h
  rw [safeFlowId, String.toList_ofList] at h
  obtain ⟨c, -, hc⟩ := List.mem_map.mp h
  exact safeChar_ne hd hne hc

theorem not_kept_dot : ¬ Kept '.' := by
  rintro (h | h) <;> exact absurd h (by decide)

theorem not_kept_slash : ¬ Kept '/' := by
  rintro (h | h) <;> exact absurd h (by decide)

theorem isName_safeFlowId {f : String} (h : Accepted f) : Path.IsName (safeFlowId f) := by
  have hdot : '.' ∉ (safeFlowId f).toList := not_mem_safeFlowId not_kept_dot (by decide) f
  constructor
  · exact not_mem_safeFlowId not_kept_slash (by decide) f
  · intro hnil
    rw [safeFlowId, String.toList_ofList, List.map_eq_nil_iff] at hnil
    rw [Accepted, hnil] at h
    exact h rfl
  · intro heq
    exact hdot (heq ▸ List.mem_cons_self)
  · intro heq
    exact hdot (heq ▸ List.mem_cons_self)

theorem isName_jme : Path.IsName "jme" := by constructor <;> decide

theorem isName_cold : Path.IsName "cold" := by constructor <;> decide

theorem isName_frozen : Path.IsName "frozen" := by constructor <;> decide

theorem isName_persist : Path.IsName "persist.jsonl" := by constructor <;> decide

theorem safeFlowId_ne_persist (f : String) : safeFlowId f ≠ "persist.jsonl" := by
  intro h
  refine not_mem_safeFlowId not_kept_dot (by decide) f ?_
  rw [h]
  decide

theorem eq_of_alike {cs ds : List Char}
    (h : List.Forall₂ (fun c d => c = d ∨ ¬ Kept c ∧ ¬ Kept d) cs ds) (hd : ∀ d ∈ ds, Kept d) :
    cs = ds := by
  induction h with
  | nil => rfl
  | cons hhead _ ih =>
    have hkept := hd _ List.mem_cons_self
    rw [hhead.resolve_right fun hnot => hnot.2 hkept,
      ih fun d hmem => hd d (List.mem_cons_of_mem _ hmem)]

/-- Only `frozen` itself gets the name `frozen`. -/
theorem safeFlowId_eq_frozen {f : String} : safeFlowId f = "frozen" ↔ f = "frozen" := by
  have hself : safeFlowId "frozen" = "frozen" := by decide
  have hkept : ∀ c ∈ "frozen".toList, Kept c := by
    intro c hc
    exact .inl (List.all_eq_true.mp (by decide : "frozen".toList.all Char.isAlphanum = true) c hc)
  refine ⟨fun h => ?_, fun h => h ▸ hself⟩
  exact String.toList_inj.mp (eq_of_alike (safeFlowId_eq_iff.mp (h.trans hself.symm)) hkept)

/-! ### Places -/

theorem Apart.symm {a b : List String} (h : Apart a b) : Apart b a := ⟨h.2, h.1⟩

theorem not_apart_self (a : List String) : ¬ Apart a a := fun h => h.1 (List.prefix_refl a)

theorem apart_concat {a b : List String} {x y : String} :
    Apart (a ++ [x]) (b ++ [y]) ↔ ¬ (a = b ∧ x = y) ∧ ¬ a ++ [x] <+: b ∧ ¬ b ++ [y] <+: a := by
  rw [Apart, List.prefix_concat_iff, List.prefix_concat_iff, List.append_singleton_inj,
    List.append_singleton_inj]
  tauto

theorem not_prefix_of_length {a b : List String} (h : b.length < a.length) : ¬ a <+: b :=
  fun hle => absurd hle.length_le (Nat.not_le.mpr h)

theorem apart_siblings {a : List String} {x y : String} (h : x ≠ y) : Apart (a ++ [x]) (a ++ [y]) :=
  apart_concat.mpr ⟨fun heq => h heq.2, not_prefix_of_length (by simp), not_prefix_of_length (by simp)⟩

/-! ### The paths that are opened -/

section
variable {cwd : List String} {policy : DomainPolicy} {dataRoot : Path} {f g : String}

def coldStore (policy : DomainPolicy) (dataRoot : Path) (flowId : String) : Path :=
  (coldBase policy dataRoot).join (.ofString (safeFlowId flowId))

def frozenStore (policy : DomainPolicy) (dataRoot : Path) (flowId : String) : Path :=
  policy.frozenPath.getD
    (((jme dataRoot).join (.ofString "frozen")).join (.ofString (safeFlowId flowId)))

theorem mem_openDomainMemory {a : Path} : a ∈ openDomainMemory policy dataRoot f ↔
    policy.requiresPersistSink = true ∧ a = persistPath dataRoot f ∨
      policy.backends.cold = true ∧ a = coldStore policy dataRoot f ∨
      policy.backends.frozen = true ∧ a = frozenStore policy dataRoot f := by
  have hsink :
      (scopeStorePaths policy dataRoot f).requiresPersistSink = policy.requiresPersistSink := by
    unfold scopeStorePaths
    dsimp only
    split_ifs <;> rfl
  have hcold : (if (scopeStorePaths policy dataRoot f).backends.cold then
      (scopeStorePaths policy dataRoot f).coldPath.toList else []) =
      if policy.backends.cold then [coldStore policy dataRoot f] else [] := by
    unfold scopeStorePaths
    dsimp only
    split_ifs <;> simp_all [coldStore]
  have hfrozen : (if (scopeStorePaths policy dataRoot f).backends.frozen then
      (scopeStorePaths policy dataRoot f).frozenPath.toList else []) =
      if policy.backends.frozen then [frozenStore policy dataRoot f] else [] := by
    unfold scopeStorePaths
    dsimp only
    cases hpath : policy.frozenPath <;> split_ifs <;> simp_all [frozenStore]
  rw [openDomainMemory, hsink, hcold, hfrozen]
  split_ifs <;> simp_all

/-! ### When the stores of two flows are apart -/

/-- The place of `data_root/jme`. -/
def root (cwd : List String) (dataRoot : Path) : List String := dataRoot.place cwd ++ ["jme"]

theorem place_persistPath (hf : Accepted f) :
    (persistPath dataRoot f).place cwd = root cwd dataRoot ++ [safeFlowId f] ++ ["persist.jsonl"] := by
  rw [persistPath, Path.place_join_name isName_persist, Path.place_join_name (isName_safeFlowId hf),
    jme, Path.place_join_name isName_jme, root]

theorem place_coldStore (hf : Accepted f) :
    (coldStore policy dataRoot f).place cwd =
      (coldBase policy dataRoot).place cwd ++ [safeFlowId f] := by
  rw [coldStore, Path.place_join_name (isName_safeFlowId hf)]

theorem place_frozenStore (hf : Accepted f) (h : policy.frozenPath = none) :
    (frozenStore policy dataRoot f).place cwd = root cwd dataRoot ++ ["frozen"] ++ [safeFlowId f] := by
  rw [frozenStore, h, Option.getD_none, Path.place_join_name (isName_safeFlowId hf),
    Path.place_join_name isName_frozen, jme, Path.place_join_name isName_jme, root]

theorem place_coldBase (h : policy.coldPath = none) :
    (coldBase policy dataRoot).place cwd = root cwd dataRoot ++ ["cold"] := by
  rw [coldBase, h, Option.getD_none, Path.place_join_name isName_cold, jme,
    Path.place_join_name isName_jme, root]

/-- The cold base leaves the flow `f` a directory that is not above, at or below
a store of `g` under `data_root/jme`. -/
structure Clear (policy : DomainPolicy) (base root : List String) (f g : String) : Prop where
  above : policy.requiresPersistSink = true ∨ policy.backends.frozen = true →
    ¬ base ++ [safeFlowId f] <+: root
  atRoot : policy.backends.frozen = true → ¬ (base = root ∧ f = "frozen")
  inFrozen : policy.backends.frozen = true → ¬ root ++ ["frozen"] ++ [safeFlowId g] <+: base
  inPersist : policy.requiresPersistSink = true → ¬ root ++ [safeFlowId g] ++ ["persist.jsonl"] <+: base

/-- What keeps the stores of two flows apart. -/
structure Separate (cwd : List String) (policy : DomainPolicy) (dataRoot : Path) (f g : String) :
    Prop where
  ids : policy.requiresPersistSink = true ∨ policy.backends.cold = true ∨
    policy.backends.frozen = true → ¬ Alike f g
  frozen : policy.backends.frozen = true → policy.frozenPath = none
  cold : ∀ base, policy.backends.cold = true → policy.coldPath = some base →
    Clear policy (base.place cwd) (root cwd dataRoot) f g ∧
      Clear policy (base.place cwd) (root cwd dataRoot) g f

theorem clear_default (policy : DomainPolicy) (root : List String) (f g : String) :
    Clear policy (root ++ ["cold"]) root f g := by
  constructor
  · exact fun _ => not_prefix_of_length (by simp)
  · rintro - ⟨h, -⟩
    simpa using congrArg List.length h
  · exact fun _ => not_prefix_of_length (by simp)
  · exact fun _ => not_prefix_of_length (by simp)

theorem Separate.clear (h : Separate cwd policy dataRoot f g) (hcold : policy.backends.cold = true) :
    Clear policy ((coldBase policy dataRoot).place cwd) (root cwd dataRoot) f g ∧
      Clear policy ((coldBase policy dataRoot).place cwd) (root cwd dataRoot) g f := by
  cases hpath : policy.coldPath with
  | none =>
    rw [place_coldBase hpath]
    exact ⟨clear_default _ _ _ _, clear_default _ _ _ _⟩
  | some base =>
    rw [coldBase, hpath, Option.getD_some]
    exact h.cold base hcold hpath

theorem apart_cold_frozen {base root : List String} (hne : safeFlowId f ≠ safeFlowId g) :
    Apart (base ++ [safeFlowId f]) (root ++ ["frozen"] ++ [safeFlowId g]) ↔
      ¬ base ++ [safeFlowId f] <+: root ∧ ¬ (base = root ∧ f = "frozen") ∧
        ¬ root ++ ["frozen"] ++ [safeFlowId g] <+: base := by
  rw [apart_concat, List.prefix_concat_iff, List.append_singleton_inj, safeFlowId_eq_frozen, not_or]
  constructor
  · rintro ⟨-, ⟨hroot, habove⟩, hbelow⟩
    exact ⟨habove, hroot, hbelow⟩
  · rintro ⟨habove, hroot, hbelow⟩
    exact ⟨fun h => hne h.2, ⟨hroot, habove⟩, hbelow⟩

theorem apart_cold_persist {base root : List String} (hne : safeFlowId f ≠ safeFlowId g) :
    Apart (base ++ [safeFlowId f]) (root ++ [safeFlowId g] ++ ["persist.jsonl"]) ↔
      ¬ base ++ [safeFlowId f] <+: root ∧
        ¬ root ++ [safeFlowId g] ++ ["persist.jsonl"] <+: base := by
  rw [apart_concat, List.prefix_concat_iff, List.append_singleton_inj, not_or]
  constructor
  · rintro ⟨-, ⟨-, habove⟩, hbelow⟩
    exact ⟨habove, hbelow⟩
  · rintro ⟨habove, hbelow⟩
    exact ⟨fun h => safeFlowId_ne_persist f h.2, ⟨fun h => hne h.2, habove⟩, hbelow⟩

theorem apart_frozen_persist (root : List String) (f g : String) :
    Apart (root ++ ["frozen"] ++ [safeFlowId f]) (root ++ [safeFlowId g] ++ ["persist.jsonl"]) := by
  rw [apart_concat]
  exact ⟨fun h => safeFlowId_ne_persist f h.2, not_prefix_of_length (by simp),
    not_prefix_of_length (by simp)⟩

theorem apart_persist (root : List String) (h : safeFlowId f ≠ safeFlowId g) :
    Apart (root ++ [safeFlowId f] ++ ["persist.jsonl"])
      (root ++ [safeFlowId g] ++ ["persist.jsonl"]) := by
  rw [apart_concat]
  exact ⟨fun heq => h (List.append_singleton_inj.mp heq.1).2, not_prefix_of_length (by simp),
    not_prefix_of_length (by simp)⟩

/-- The cold store of one flow and the stores of the other below `data_root/jme`. -/
theorem Clear.apart (hf : Accepted f) (hg : Accepted g) (hne : safeFlowId f ≠ safeFlowId g)
    (hpath : policy.backends.frozen = true → policy.frozenPath = none)
    (h : Clear policy ((coldBase policy dataRoot).place cwd) (root cwd dataRoot) f g) :
    (policy.requiresPersistSink = true →
      Apart ((coldStore policy dataRoot f).place cwd) ((persistPath dataRoot g).place cwd)) ∧
    (policy.backends.frozen = true →
      Apart ((coldStore policy dataRoot f).place cwd) ((frozenStore policy dataRoot g).place cwd)) := by
  rw [place_coldStore hf]
  constructor
  · intro hsink
    rw [place_persistPath hg]
    exact (apart_cold_persist hne).mpr ⟨h.above (.inl hsink), h.inPersist hsink⟩
  · intro hfrozen
    rw [place_frozenStore hg (hpath hfrozen)]
    exact (apart_cold_frozen hne).mpr ⟨h.above (.inr hfrozen), h.atRoot hfrozen, h.inFrozen hfrozen⟩

theorem isolated_of_separate (hf : Accepted f) (hg : Accepted g)
    (h : Separate cwd policy dataRoot f g) : Isolated cwd policy dataRoot f g := by
  intro a ha b hb
  have hne : safeFlowId f ≠ safeFlowId g := by
    rw [Ne, safeFlowId_eq_iff]
    apply h.ids
    rcases mem_openDomainMemory.mp ha with ⟨hp, -⟩ | ⟨hp, -⟩ | ⟨hp, -⟩
    · exact .inl hp
    · exact .inr (.inl hp)
    · exact .inr (.inr hp)
  rcases mem_openDomainMemory.mp ha with ⟨hsink, rfl⟩ | ⟨hcold, rfl⟩ | ⟨hfrozen, rfl⟩
  · rcases mem_openDomainMemory.mp hb with ⟨-, rfl⟩ | ⟨hcold, rfl⟩ | ⟨hfrozen, rfl⟩
    · rw [place_persistPath hf, place_persistPath hg]
      exact apart_persist _ hne
    · exact (((h.clear hcold).2.apart hg hf hne.symm h.frozen).1 hsink).symm
    · rw [place_persistPath hf, place_frozenStore hg (h.frozen hfrozen)]
      exact (apart_frozen_persist _ g f).symm
  · rcases mem_openDomainMemory.mp hb with ⟨hsink, rfl⟩ | ⟨-, rfl⟩ | ⟨hfrozen, rfl⟩
    · exact ((h.clear hcold).1.apart hf hg hne h.frozen).1 hsink
    · rw [place_coldStore hf, place_coldStore hg]
      exact apart_siblings hne
    · exact ((h.clear hcold).1.apart hf hg hne h.frozen).2 hfrozen
  · rcases mem_openDomainMemory.mp hb with ⟨hsink, rfl⟩ | ⟨hcold, rfl⟩ | ⟨-, rfl⟩
    · rw [place_persistPath hg, place_frozenStore hf (h.frozen hfrozen)]
      exact apart_frozen_persist _ f g
    · exact (((h.clear hcold).2.apart hg hf hne.symm h.frozen).2 hfrozen).symm
    · rw [place_frozenStore hf (h.frozen hfrozen), place_frozenStore hg (h.frozen hfrozen)]
      exact apart_siblings hne

theorem Isolated.symm (h : Isolated cwd policy dataRoot f g) : Isolated cwd policy dataRoot g f :=
  fun a ha b hb => (h b hb a ha).symm

theorem Isolated.frozenPath (h : Isolated cwd policy dataRoot f g)
    (hfrozen : policy.backends.frozen = true) : policy.frozenPath = none := by
  cases hpath : policy.frozenPath with
  | none => rfl
  | some path =>
    have hstore (x : String) : path ∈ openDomainMemory policy dataRoot x :=
      mem_openDomainMemory.mpr (.inr (.inr ⟨hfrozen, by rw [frozenStore, hpath, Option.getD_some]⟩))
    exact absurd (h path (hstore f) path (hstore g)) (not_apart_self _)

theorem Isolated.ids (h : Isolated cwd policy dataRoot f g)
    (hopen : policy.requiresPersistSink = true ∨ policy.backends.cold = true ∨
      policy.backends.frozen = true) : ¬ Alike f g := by
  intro halike
  have hname := safeFlowId_eq_iff.mpr halike
  have hscope : scopeStorePaths policy dataRoot f = scopeStorePaths policy dataRoot g := by
    rw [scopeStorePaths, hname]
    rfl
  have hsame : openDomainMemory policy dataRoot f = openDomainMemory policy dataRoot g := by
    rw [openDomainMemory, hscope, persistPath, hname]
    rfl
  have hstore : ∃ a, a ∈ openDomainMemory policy dataRoot f := by
    rcases hopen with hp | hp | hp
    · exact ⟨_, mem_openDomainMemory.mpr (.inl ⟨hp, rfl⟩)⟩
    · exact ⟨_, mem_openDomainMemory.mpr (.inr (.inl ⟨hp, rfl⟩))⟩
    · exact ⟨_, mem_openDomainMemory.mpr (.inr (.inr ⟨hp, rfl⟩))⟩
  obtain ⟨a, ha⟩ := hstore
  exact not_apart_self _ (h a ha a (hsame ▸ ha))

theorem Isolated.clear (hf : Accepted f) (hg : Accepted g) (h : Isolated cwd policy dataRoot f g)
    (hcold : policy.backends.cold = true) :
    Clear policy ((coldBase policy dataRoot).place cwd) (root cwd dataRoot) f g := by
  have hne : safeFlowId f ≠ safeFlowId g := fun heq =>
    h.ids (.inr (.inl hcold)) (safeFlowId_eq_iff.mp heq)
  have hstore : coldStore policy dataRoot f ∈ openDomainMemory policy dataRoot f :=
    mem_openDomainMemory.mpr (.inr (.inl ⟨hcold, rfl⟩))
  have hpersist (hsink : policy.requiresPersistSink = true) := by
    have hapart := h _ hstore _ (mem_openDomainMemory.mpr (.inl ⟨hsink, rfl⟩))
    rw [place_coldStore hf, place_persistPath hg] at hapart
    exact (apart_cold_persist hne).mp hapart
  have hfrozen (hbackend : policy.backends.frozen = true) := by
    have hapart := h _ hstore _ (mem_openDomainMemory.mpr (.inr (.inr ⟨hbackend, rfl⟩)))
    rw [place_coldStore hf, place_frozenStore hg (h.frozenPath hbackend)] at hapart
    exact (apart_cold_frozen hne).mp hapart
  constructor
  · rintro (hsink | hbackend)
    · exact (hpersist hsink).1
    · exact (hfrozen hbackend).1
  · exact fun hbackend => (hfrozen hbackend).2.1
  · exact fun hbackend => (hfrozen hbackend).2.2
  · exact fun hsink => (hpersist hsink).2

/-- The stores that a policy opens for two flows are disjoint exactly when the
ids stay different as names, no frozen path is written out, and a cold base that
is written out keeps clear of `data_root/jme`. -/
theorem isolated_iff (hf : Accepted f) (hg : Accepted g) :
    Isolated cwd policy dataRoot f g ↔ Separate cwd policy dataRoot f g := by
  refine ⟨fun h => ⟨h.ids, h.frozenPath, fun base hcold hpath => ?_⟩, isolated_of_separate hf hg⟩
  have hbase : coldBase policy dataRoot = base := by rw [coldBase, hpath, Option.getD_some]
  rw [← hbase]
  exact ⟨h.clear hf hg hcold, h.symm.clear hg hf hcold⟩

end

/-- A class that degrades to Cold, with the stores on disk. -/
def carrierPolicy (coldPath frozenPath : Option Path) : DomainPolicy where
  maxEntries := 128
  maxHotBytes := 65536
  maxPendingDeferred := 10
  backends := ⟨false, true, true⟩
  classes := ⟨[⟨"carrier", .cache, .cold, some 100, none, .normal, none⟩], by decide⟩
  accepted := by
    intro c hc
    cases List.mem_singleton.mp hc
    constructor <;> simp
  maxEntries_pos := by decide
  maxHotBytes_pos := by decide
  maxPendingDeferred_pos := by decide
  coldPath := coldPath
  frozenPath := frozenPath

def sampleRoot : Path := ⟨false, [.normal "data"]⟩

theorem isolated_plants :
    Isolated ["srv"] (carrierPolicy none none) sampleRoot "plant/a" "plant/b" := by
  refine (isolated_iff (by decide) (by decide)).mpr ⟨fun _ halike => ?_, fun _ => rfl, fun _ _ h => ?_⟩
  · exact absurd (safeFlowId_eq_iff.mpr halike) (by decide)
  · cases h

/-- Two ids with one name; a frozen path that is written out; and a cold base in
which the directory of a flow is that of the frozen stores. -/
theorem not_isolated :
    ¬ Isolated ["srv"] (carrierPolicy none none) sampleRoot "plant a" "plant_a" ∧
      ¬ Isolated ["srv"] (carrierPolicy none (some ⟨true, [.normal "archive"]⟩)) sampleRoot
        "orders" "invoices" ∧
      ¬ Isolated ["srv"] (carrierPolicy (some ⟨false, [.normal "data", .normal "jme"]⟩) none)
        sampleRoot "frozen" "orders" := by
  refine ⟨fun h => ?_, fun h => ?_, fun h => ?_⟩
  · exact h.ids (.inr (.inl rfl)) (safeFlowId_eq_iff.mp (by decide))
  · cases h.frozenPath rfl
  · exact (h.clear (by decide) (by decide) rfl).atRoot rfl ⟨rfl, rfl⟩

end Jaiba.Engine.DomainMemory
