import Jaiba.Error
import Jaiba.Lib.Except
import Jaiba.Lib.Paths
import Jaiba.Memory.Duration

/-!
# The catalog of plugins (`plugin_catalog.rs`)

A catalog is checked as a whole when it is loaded: the ids, the versions and the paths of their
files. A path that passes is a list of names below the directory of the plugin.
-/

namespace Jaiba.Plugin
open Jaiba.Lib (bind_ok)
open Jaiba.Memory (parseU64)
open Jaiba.Server.SqlBuilder (isWhitespace trim)

def manifestFile : String := "plugin.yaml"

def installRecord : String := ".jaiba-install.json"

/-- An `f64`: its text, and whether it is finite, above 0 and at most 256. -/
structure Cpus where
  text : String
  inRange : Bool

inductive ContainerNetwork where
  | none
  | bridge

structure ContainerSpec where
  image : String
  network : ContainerNetwork
  memory : String
  cpus : Cpus
  pids : ℕ

structure PluginManifest where
  id : String
  version : String
  description : String
  command : Option String
  container : Option ContainerSpec
  args : List String

structure CatalogFile where
  path : String
  url : String
  sha256 : String
  executable : Bool

structure CatalogVersion where
  version : String
  protocolVersion : ℕ
  command : Option String
  args : List String
  files : List CatalogFile
  container : Option ContainerSpec

structure CatalogPlugin where
  id : String
  description : String
  versions : List CatalogVersion

structure Catalog where
  catalogVersion : ℕ
  plugins : List CatalogPlugin

/-! ### Checks -/

def validPluginId (id : String) : Bool :=
  !id.toList.isEmpty && decide (id.utf8ByteSize ≤ 64) &&
    id.toList.all fun c => c.isLower || c.isDigit || c == '-' || c == '_'

def isSha256Hex (value : List Char) : Bool :=
  value.length == 64 && value.all fun c => c.isDigit || ('a' ≤ c && c ≤ 'f')

/-- `str::rsplit_once`. -/
def rsplitOnce (pattern : List Char) : List Char → Option (List Char × List Char)
  | [] => none
  | c :: text =>
    match rsplitOnce pattern text with
    | some (before, after) => some (c :: before, after)
    | none =>
      if pattern.isPrefixOf (c :: text) then some ([], (c :: text).drop pattern.length) else none

/-- `char::is_control`. -/
def isControl (c : Char) : Bool := decide (c.toNat < 32) || (decide (127 ≤ c.toNat) && decide (c.toNat ≤ 159))

namespace ContainerSpec

def pinnedByDigest (spec : ContainerSpec) : Bool :=
  (rsplitOnce "@sha256:".toList spec.image.toList).any fun split => !split.1.isEmpty && isSha256Hex split.2

def validate (spec : ContainerSpec) : Except String Unit :=
  let image := spec.image.toList
  let memory := spec.memory.toList
  let digits := if memory.getLast?.any fun c => "bkmgBKMG".toList.contains c then memory.dropLast else memory
  if image.isEmpty || decide (255 < spec.image.utf8ByteSize) || image.head? == some '-' ||
      image.any fun c => isWhitespace c || isControl c then
    .error ("container.image inválida '" ++ spec.image ++ "'")
  else if digits.isEmpty || !digits.all Char.isDigit then
    .error ("container.memory inválida '" ++ spec.memory ++ "' (ejemplos: 256m, 1g)")
  else if !spec.cpus.inRange then .error ("container.cpus inválido " ++ spec.cpus.text)
  else if spec.pids = 0 then .error "container.pids debe ser mayor que 0"
  else .ok ()

end ContainerSpec

def PluginManifest.validate (m : PluginManifest) : Except String Unit :=
  if !validPluginId m.id then
    .error ("id de plugin inválido '" ++ m.id ++ "' (usa letras minúsculas, números, '-' o '_')")
  else
    match m.command, m.container with
    | some command, none =>
      if (trim command.toList).isEmpty then .error "define exactamente uno de `command` o `container`"
      else .ok ()
    | none, some spec => spec.validate
    | _, _ => .error "define exactamente uno de `command` o `container`"

def versionPart (part : List Char) : Option ℕ :=
  if !part.isEmpty && part.all Char.isDigit then parseU64 part else none

def parseVersion (version : String) : Option (ℕ × ℕ × ℕ) :=
  match version.toList.splitOn '.' with
  | [major, minor, patch] => do return (← versionPart major, ← versionPart minor, ← versionPart patch)
  | _ => none

/-- What `Path::components` makes of a name between two `/`: the empty ones are dropped before, and
a `.` behind the first. -/
def normalPart (name : List Char) : Option String :=
  if name = ['.', '.'] || name.head? == some '.' || name.contains ':' then none else some (String.ofList name)

def safeRelativePath (path : String) : Option (List String) :=
  let text := path.toList
  let names := (text.splitOn '/').filter fun name => name ≠ []
  if text.isEmpty || text.contains '\\' || text.head? == some '/' then none
  else
    match names with
    | [] => none
    | first :: rest =>
      match (first :: rest.filter fun name => name ≠ ['.']).mapM normalPart with
      | some parts => if parts = [manifestFile] then none else some parts
      | none => none

/-- The loop over the files, with the paths that were seen. -/
def checkFiles : List CatalogFile → List (List String) → Except String Unit
  | [], _ => .ok ()
  | file :: files, paths =>
    match safeRelativePath file.path with
    | none => .error ("ruta de archivo inválida '" ++ file.path ++ "'")
    | some path =>
      if path ∈ paths then .error ("archivo '" ++ file.path ++ "' repetido")
      else if !isSha256Hex file.sha256.toList then
        .error ("sha256 de '" ++ file.path ++ "' debe tener 64 caracteres hex en minúsculas")
      else if (trim file.url.toList).isEmpty then .error ("'" ++ file.path ++ "' no tiene url")
      else checkFiles files (path :: paths)

namespace CatalogVersion

def kind (v : CatalogVersion) : String := if v.container.isSome then "contenedor" else "proceso"

def manifest (v : CatalogVersion) (plugin : CatalogPlugin) : PluginManifest :=
  ⟨plugin.id, v.version, plugin.description, v.command, v.container, v.args⟩

def checkKind (v : CatalogVersion) : Except String Unit :=
  match v.container with
  | some spec =>
    if !spec.pinnedByDigest then
      .error ("la imagen '" ++ spec.image ++ "' debe fijarse por digest (…@sha256:<64 hex>), no por tag")
    else if !v.files.isEmpty then .error "un plugin en contenedor no lleva `files`"
    else .ok ()
  | none => if v.files.isEmpty then .error "un plugin de proceso necesita `files`" else .ok ()

def validate (v : CatalogVersion) (plugin : CatalogPlugin) : Except String Unit := do
  if (parseVersion v.version).isNone then throw "la versión debe ser MAYOR.MENOR.PARCHE (p. ej. 0.1.0)"
  (v.manifest plugin).validate
  v.checkKind
  checkFiles v.files []

end CatalogVersion

/-- The loop over the versions, with those that were seen. -/
def checkVersions (plugin : CatalogPlugin) : List CatalogVersion → List String → Except String Unit
  | [], _ => .ok ()
  | version :: versions, seen =>
    if version.version ∈ seen then .error ("versión " ++ version.version ++ " duplicada")
    else
      match version.validate plugin with
      | .error message => .error (version.version ++ ": " ++ message)
      | .ok () => checkVersions plugin versions (version.version :: seen)

/-- The loop over the plugins, with the ids that were seen. -/
def checkPlugins : List CatalogPlugin → List String → Except FlowError Unit
  | [], _ => .ok ()
  | plugin :: plugins, ids =>
    let checked :=
      if !validPluginId plugin.id then .error "id inválido (usa letras minúsculas, números, '-' o '_')"
      else if plugin.id ∈ ids then .error "id duplicado"
      else if plugin.versions.isEmpty then .error "no tiene versiones"
      else checkVersions plugin plugin.versions []
    match checked with
    | .error message => .error (.configuration ("catálogo, plugin '" ++ plugin.id ++ "': " ++ message))
    | .ok () => checkPlugins plugins (plugin.id :: ids)

namespace Catalog

def validate (c : Catalog) : Except FlowError Unit :=
  if c.catalogVersion ≠ 1 then
    .error (.configuration ("el catálogo usa el formato " ++ toString c.catalogVersion ++
      " y esta versión de Jaiba entiende el 1; actualiza Jaiba"))
  else checkPlugins c.plugins []

def plugin (c : Catalog) (id : String) : Option CatalogPlugin := c.plugins.find? fun plugin => plugin.id == id

end Catalog

namespace CatalogPlugin

def atMost : ℕ × ℕ × ℕ → ℕ × ℕ × ℕ → Bool
  | (a, b, c), (x, y, z) => decide (a < x) || (a == x && (decide (b < y) || (b == y && decide (c ≤ z))))

/-- `max_by_key`: the last of the greatest. -/
def latestOf (best : CatalogVersion) (versions : List CatalogVersion) : CatalogVersion :=
  versions.foldl (fun best v =>
    match parseVersion best.version, parseVersion v.version with
    | some b, some k => if atMost b k then v else best
    | none, _ => v
    | some _, none => best) best

/-- `latest`, `none` for its panic. -/
def latest (plugin : CatalogPlugin) : Option CatalogVersion :=
  match plugin.versions with
  | [] => none
  | first :: rest => some (latestOf first rest)

def version (plugin : CatalogPlugin) (version : String) : Option CatalogVersion :=
  plugin.versions.find? fun candidate => candidate.version == version

end CatalogPlugin

/-! ### What the checks accept -/

/-- Names below a directory, none of them hidden, that are not the manifest. -/
structure IsSafe (parts : List String) : Prop where
  nonempty : parts ≠ []
  shown : ∀ name ∈ parts, name.toList.head? ≠ some '.'
  other : parts ≠ [manifestFile]

theorem normalParts_shown {names : List (List Char)} {parts : List String} (h : names.mapM normalPart = some parts) :
    ∀ part ∈ parts, part.toList.head? ≠ some '.' := by
  induction names generalizing parts with
  | nil =>
    cases h
    exact List.forall_mem_nil _
  | cons name names ih =>
    rw [List.mapM_cons] at h
    obtain ⟨part, hpart, h⟩ := Option.bind_eq_some_iff.mp h
    obtain ⟨rest, hrest, h⟩ := Option.bind_eq_some_iff.mp h
    cases h
    refine List.forall_mem_cons.mpr ⟨?_, ih hrest⟩
    unfold normalPart at hpart
    split_ifs at hpart with hbad
    cases hpart
    rw [String.toList_ofList]
    intro hdot
    refine hbad ?_
    rw [hdot]
    simp

theorem safeRelativePath_safe {path : String} {parts : List String} (h : safeRelativePath path = some parts) :
    IsSafe parts := by
  unfold safeRelativePath at h
  dsimp only at h
  split_ifs at h with hbad
  split at h
  · cases h
  · split at h
    next found hfound =>
      split_ifs at h with hmanifest
      cases h
      refine ⟨?_, normalParts_shown hfound, hmanifest⟩
      rintro rfl
      rw [List.mapM_cons] at hfound
      obtain ⟨part, -, hfound⟩ := Option.bind_eq_some_iff.mp hfound
      obtain ⟨rest, -, hfound⟩ := Option.bind_eq_some_iff.mp hfound
      cases hfound
    · cases h

theorem checkFiles_ok {files : List CatalogFile} {paths : List (List String)} (h : checkFiles files paths = .ok ()) :
    ∃ parts : List (List String), files.map (fun file => safeRelativePath file.path) = parts.map some ∧ parts.Nodup ∧
      ∀ path ∈ parts, path ∉ paths := by
  induction files generalizing paths with
  | nil => exact ⟨[], rfl, List.nodup_nil, List.forall_mem_nil _⟩
  | cons file files ih =>
    unfold checkFiles at h
    split at h
    · cases h
    next path hpath =>
      split_ifs at h with hseen hsha hurl
      obtain ⟨parts, hparts, hnodup, hnot⟩ := ih h
      refine ⟨path :: parts, ?_, List.nodup_cons.mpr ⟨fun hmem => ?_, hnodup⟩, ?_⟩
      · rw [List.map_cons, List.map_cons, hpath, hparts]
      · exact hnot path hmem List.mem_cons_self
      · exact List.forall_mem_cons.mpr ⟨hseen, fun q hq hmem => hnot q hq (List.mem_cons_of_mem path hmem)⟩

theorem CatalogVersion.validate_ok {v : CatalogVersion} {plugin : CatalogPlugin} (h : v.validate plugin = .ok ()) :
    ∃ parts : List (List String), v.files.map (fun file => safeRelativePath file.path) = parts.map some ∧ parts.Nodup := by
  unfold CatalogVersion.validate at h
  split_ifs at h
  · cases h
  · obtain ⟨_, -, h⟩ := bind_ok h
    obtain ⟨_, -, h⟩ := bind_ok h
    obtain ⟨parts, hparts, hnodup, -⟩ := checkFiles_ok h
    exact ⟨parts, hparts, hnodup⟩

theorem checkVersions_ok {plugin : CatalogPlugin} {versions : List CatalogVersion} {seen : List String}
    (h : checkVersions plugin versions seen = .ok ()) : ∀ v ∈ versions, v.validate plugin = .ok () := by
  induction versions generalizing seen with
  | nil => exact List.forall_mem_nil _
  | cons v versions ih =>
    unfold checkVersions at h
    split_ifs at h with hseen
    split at h
    · cases h
    next hvalid => exact List.forall_mem_cons.mpr ⟨hvalid, ih h⟩

/-- What the check says about one plugin. -/
structure CatalogPlugin.Checked (plugin : CatalogPlugin) : Prop where
  id : validPluginId plugin.id = true
  versions : plugin.versions ≠ []
  each : ∀ v ∈ plugin.versions, v.validate plugin = .ok ()

theorem checkPlugins_ok {plugins : List CatalogPlugin} {ids : List String} (h : checkPlugins plugins ids = .ok ()) :
    ∀ plugin ∈ plugins, plugin.Checked := by
  induction plugins generalizing ids with
  | nil => exact List.forall_mem_nil _
  | cons plugin plugins ih =>
    unfold checkPlugins at h
    dsimp only at h
    split at h
    · cases h
    next hchecked =>
      split_ifs at hchecked with hid hseen hversions
      refine List.forall_mem_cons.mpr ⟨⟨?_, ?_, checkVersions_ok hchecked⟩, ih h⟩
      · simpa using hid
      · simpa using hversions

theorem Catalog.validate_ok {c : Catalog} (h : c.validate = .ok ()) : ∀ plugin ∈ c.plugins, plugin.Checked := by
  unfold Catalog.validate at h
  split_ifs at h
  exact checkPlugins_ok h

theorem Catalog.plugin_checked {c : Catalog} (h : c.validate = .ok ()) {id : String} {plugin : CatalogPlugin}
    (hplugin : c.plugin id = some plugin) : plugin.id = id ∧ plugin.Checked :=
  ⟨by simpa using List.find?_some hplugin, Catalog.validate_ok h plugin (List.mem_of_find?_eq_some hplugin)⟩

theorem CatalogPlugin.latest_mem {plugin : CatalogPlugin} {v : CatalogVersion} (h : plugin.latest = some v) :
    v ∈ plugin.versions := by
  have hfold : ∀ (versions : List CatalogVersion) (best : CatalogVersion), latestOf best versions ∈ best :: versions := by
    intro versions
    induction versions with
    | nil => exact fun best => List.mem_cons_self
    | cons next versions ih =>
      intro best
      rw [latestOf, List.foldl_cons]
      split
      · split
        · exact List.mem_cons_of_mem best (ih next)
        · rcases List.mem_cons.mp (ih best) with hbest | hmem
          · exact List.mem_cons.mpr (.inl hbest)
          · exact List.mem_cons_of_mem best (List.mem_cons_of_mem next hmem)
      · exact List.mem_cons_of_mem best (ih next)
      · rcases List.mem_cons.mp (ih best) with hbest | hmem
        · exact List.mem_cons.mpr (.inl hbest)
        · exact List.mem_cons_of_mem best (List.mem_cons_of_mem next hmem)
  unfold latest at h
  split at h
  · cases h
  next first rest hversions =>
    cases h
    rw [hversions]
    exact hfold rest first

theorem CatalogPlugin.version_mem {plugin : CatalogPlugin} {wanted : String} {v : CatalogVersion}
    (h : plugin.version wanted = some v) : v ∈ plugin.versions := List.mem_of_find?_eq_some h

/-- An id that is accepted is one name, and not a hidden one. -/
theorem validPluginId_name {id : String} (h : validPluginId id = true) :
    Lib.Paths.Path.IsName id ∧ id.toList.head? ≠ some '.' := by
  rw [validPluginId, Bool.and_eq_true, Bool.and_eq_true, List.all_eq_true] at h
  obtain ⟨⟨hnonempty, -⟩, hall⟩ := h
  have hdot : '.' ∉ id.toList := fun hmem => absurd (hall '.' hmem) (by decide)
  refine ⟨⟨fun hmem => absurd (hall '/' hmem) (by decide), ?_, ?_, ?_⟩, fun hhead => hdot (List.mem_of_mem_head? hhead)⟩
  · simpa using hnonempty
  · exact fun heq => hdot (heq ▸ List.mem_singleton_self _)
  · exact fun heq => hdot (heq ▸ List.mem_cons_self)

end Jaiba.Plugin
