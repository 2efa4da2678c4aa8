import Jaiba.Error
import Jaiba.Lib.Paths

/-!
# The directory of the plugins (`reject_plugin_dir`)

A path is made absolute and normalised by its letters; then the links of its longest existing
part are followed. The system goes from component to component: where a `..` comes after a link, or
the last name is a link to a file that does not exist yet, it ends up elsewhere.
-/

namespace Jaiba.Plugin
open Jaiba.Lib.Paths

/-- What the process sees of its system; the directory it runs in is one. -/
structure System where
  fs : FileSystem
  currentDir : Option (List String)
  /-- `JAIBA_PLUGIN_DIR` -/
  pluginDir : Option String
  current : ∀ p, currentDir = some p → fs.node p = some .dir

namespace System

variable (s : System)

/-- The components of the path behind those of the current directory, unless it is absolute. -/
def absolute (path : String) : Option (List Component) :=
  if isAbsolute path then some (components path)
  else s.currentDir.map fun cwd => cwd.map .normal ++ components path

/-- The loop of `resolve`, with the existing part in reverse. -/
def resolveExisting : List String → List String → Option (List String)
  | [], missing => (s.fs.canonicalize []).map fun resolved => resolved ++ missing
  | x :: existing, missing =>
    match s.fs.canonicalize (x :: existing).reverse with
    | some resolved => some (resolved ++ missing)
    | none => resolveExisting existing (x :: missing)

def resolve (path : String) : Option (List String) :=
  (s.absolute path).bind fun cs => s.resolveExisting (normalize cs).reverse []

def isWithin (path directory : String) : Bool :=
  match s.resolve path, s.resolve directory with
  | some path, some directory => directory.isPrefixOf path
  | _, _ => false

def rejectPluginDir (path processor : String) : Except FlowError Unit :=
  if s.pluginDir.any fun pluginDir => s.isWithin path pluginDir then
    .error (.configuration (processor ++ ": no puede escribir '" ++ path ++
      "' dentro de JAIBA_PLUGIN_DIR"))
  else .ok ()

/-- The file that the system opens, or creates, for a path. -/
def opens (path : String) : Option (List String) :=
  if isAbsolute path then s.fs.walk true s.fs.links [] (components path)
  else s.currentDir.bind fun cwd => s.fs.walk true s.fs.links cwd (components path)

/-- No `..` of the path drops the name of a link, and it does not end at a link to nowhere. -/
def Straight (path : String) : Prop :=
  ∀ cs, s.absolute path = some cs → Climbs s.fs [] cs ∧
    ¬ (LinkAt s.fs (normalize cs) ∧ s.fs.canonicalize (normalize cs) = none)

variable {s} {path dir : String} {p q : List String}

theorem absolute_of_opens (h : s.opens path = some q) : ∃ cs, s.absolute path = some cs ∧
    ∃ l ≤ s.fs.links, Resolves s.fs true l [] cs q := by
  unfold opens at h
  unfold absolute
  split_ifs at h ⊢
  · exact ⟨_, rfl, resolves_of_walk h⟩
  · obtain ⟨cwd, hcwd, h⟩ := Option.bind_eq_some_iff.mp h
    obtain ⟨l, hl, h⟩ := resolves_of_walk h
    have hdir := s.current cwd hcwd
    have hall := (resolves_names hdir).append hdir h
    rw [Nat.zero_add] at hall
    rw [hcwd]
    exact ⟨_, rfl, l, hl, hall⟩

theorem resolveExisting_of_canonicalize {names : List String}
    (h : s.fs.canonicalize names = some p) (missing : List String) :
    s.resolveExisting names.reverse missing = some (p ++ missing) := by
  rcases List.eq_nil_or_concat names with rfl | ⟨pre, x, rfl⟩
  · rw [List.reverse_nil, resolveExisting, h]
    rfl
  · rw [List.concat_eq_append] at h ⊢
    have hreverse : (pre ++ [x]).reverse = x :: pre.reverse := by
      rw [List.reverse_append, List.reverse_singleton, List.singleton_append]
    rw [hreverse, resolveExisting, ← hreverse, List.reverse_reverse, h]

theorem resolveExisting_of_missing {names : List String} {x : String}
    (h : s.fs.canonicalize (names ++ [x]) = none) (missing : List String) :
    s.resolveExisting (names ++ [x]).reverse missing =
      s.resolveExisting names.reverse (x :: missing) := by
  have hreverse : (names ++ [x]).reverse = x :: names.reverse := by
    rw [List.reverse_append, List.reverse_singleton, List.singleton_append]
  rw [hreverse, resolveExisting, ← hreverse, List.reverse_reverse, h]

/-- The loop stops at once where the names exist, and at the parent of a name that does not. -/
theorem resolveExisting_of_resolves {l : ℕ} {names : List String} (hl : l ≤ s.fs.links)
    (h : Resolves s.fs true l [] (names.map .normal) q)
    (hnot : ¬ (LinkAt s.fs names ∧ s.fs.canonicalize names = none)) :
    s.resolveExisting names.reverse [] = some q := by
  cases hcanonical : s.fs.canonicalize names with
  | some r =>
    obtain ⟨m, -, hr⟩ := canonicalize_iff.mp hcanonical
    have hsame : r = q := Resolves.unique hr.mono h
    rw [resolveExisting_of_canonicalize hcanonical, List.append_nil, hsame]
  | none =>
    rcases List.eq_nil_or_concat names with rfl | ⟨pre, x, rfl⟩
    · rw [canonicalize_iff.mpr ⟨0, Nat.zero_le _, .nil []⟩] at hcanonical
      cases hcanonical
    · rw [List.concat_eq_append] at h hnot hcanonical ⊢
      have hnolink : ¬ LinkAt s.fs (pre ++ [x]) := fun hlink => hnot ⟨hlink, hcanonical⟩
      rw [List.map_append] at h
      obtain ⟨b, m, n, hpre, hx, hsum, hb⟩ := h.split (List.cons_ne_nil _ _) s.fs.root
      have hparent : s.fs.canonicalize pre = some b := canonicalize_iff.mpr ⟨m, by omega, hpre⟩
      have habsent : ∀ p, ¬ Resolves s.fs false 0 b [.normal x] p := by
        intro p hp
        rw [canonicalize_iff.mpr ⟨m + 0, by omega, hpre.concat hb hp⟩] at hcanonical
        cases hcanonical
      cases hx with
      | dir hnode hx =>
        cases hx
        exact absurd (.dir hnode (.nil _)) (habsent _)
      | file hnode => exact absurd (.file hnode) (habsent _)
      | link hnode _ => exact absurd ⟨pre, x, b, _, rfl, hparent, hnode⟩ hnolink
      | new _ _ =>
        rw [resolveExisting_of_missing hcanonical, resolveExisting_of_canonicalize hparent]

/-- Where the path is straight, `resolve` finds the file that the system opens. -/
theorem resolve_of_opens (hstraight : s.Straight path) (h : s.opens path = some q) :
    s.resolve path = some q := by
  obtain ⟨cs, hcs, l, hl, h⟩ := absolute_of_opens h
  obtain ⟨hclimbs, hnot⟩ := hstraight cs hcs
  obtain ⟨m, hm, hnormal⟩ := normalize_resolves hclimbs h hl
  rw [resolve, hcs, Option.bind_some]
  exact resolveExisting_of_resolves hm hnormal hnot

end System

def sampleNodes : List (List String × Node) :=
  [([], .dir), (["data"], .dir), (["plugins"], .dir), (["plugins", "echo"], .dir),
    (["plugins", "echo", "plugin.yaml"], .file), (["data", "l"], .link "/plugins/echo"),
    (["data", "new"], .link "../plugins/echo/new.py")]

def sampleSystem : System where
  fs := {
    node := fun p => sampleNodes.lookup p
    root := by decide +kernel
    parent := by
      intro p x h
      have hentry : ∀ e ∈ sampleNodes, e.1 ≠ [] → sampleNodes.lookup e.1.dropLast = some .dir := by
        decide +kernel
      obtain ⟨n, hn⟩ := Option.isSome_iff_exists.mp h
      have hmem : (p ++ [x], n) ∈ sampleNodes := by
        obtain ⟨l, r, hsplit, -⟩ := List.lookup_eq_some_iff.mp hn
        rw [hsplit]
        exact List.mem_append_right _ List.mem_cons_self
      have hparent := hentry _ hmem (List.append_ne_nil_of_right_ne_nil p (List.cons_ne_nil x []))
      rwa [List.dropLast_concat] at hparent
    links := 40 }
  currentDir := some ["data"]
  pluginDir := some "/plugins"
  current := fun p h => by
    cases h
    decide +kernel

theorem sample_accepts {path : String} (h : sampleSystem.isWithin path "/plugins" = false) :
    sampleSystem.rejectPluginDir path "write_file" = .ok () := by
  have hany : sampleSystem.pluginDir.any (fun dir => sampleSystem.isWithin path dir) = false := h
  rw [System.rejectPluginDir, hany]
  rfl

theorem not_linkAt {fs : FileSystem} {pre a : List String} {x : String} {node : Option Node}
    (ha : fs.canonicalize pre = some a) (hnode : fs.node (a ++ [x]) = node)
    (hlink : ∀ target, node ≠ some (.link target)) : ¬ LinkAt fs (pre ++ [x]) := by
  rintro ⟨pre', x', a', target, hnames, ha', hnode'⟩
  obtain ⟨rfl, hx⟩ := List.append_inj' hnames rfl
  obtain rfl := List.singleton_inj.mp hx
  rw [ha] at ha'
  cases ha'
  exact hlink target (hnode.symm.trans hnode')

end Jaiba.Plugin
