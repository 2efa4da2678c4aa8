import Jaiba.Lib.FileTree
import Jaiba.Plugin.Catalog

/-!
# The installation of a plugin (`LoadedCatalog::install`, `Staging`)

The files are fetched, checked and written in a staging directory beside the plugin; the old
version is moved away, the new one moved in, and the old one removed. A step may fail, and a call
may fail midway. Links are left out.
-/

namespace Jaiba.Plugin
open Jaiba.Lib Jaiba.Lib.FileTree
open Jaiba.Lib.Paths (Path)

/-- `JAIBA_PLUGIN_DIR`, read from the directory of the process. -/
structure PluginDir where
  path : String
  currentDir : Place

namespace PluginDir

def place (dir : PluginDir) : Place := (Path.ofString dir.path).place dir.currentDir

/-- `Path::join`. -/
def join (dir : PluginDir) (name : String) : Place :=
  ((Path.ofString dir.path).join (Path.ofString name)).place dir.currentDir

/-- `Path::display` of a path below the directory. -/
def display (dir : PluginDir) (names : List String) : String := "/".intercalate (dir.path :: names)

end PluginDir

structure RecordedFile where
  path : String
  sha256 : String

structure InstallRecord where
  catalog : String
  version : String
  installedAt : String
  files : List RecordedFile

/-- A `CatalogSource`: its text, and what its `fetch` comes to. -/
structure Source where
  text : String
  fetched : Except FlowError Lib.Bytes

/-- What an installation takes from other crates and from its surroundings. -/
structure World where
  /-- `CatalogSource::join` with the source of the catalog -/
  join : String → Except FlowError Source
  /-- `to_hex` of `Sha256::digest` -/
  sha256 : Lib.Bytes → String
  /-- a runtime pulls an image: why it does not run, or the status it fails with -/
  pull : String → String → Except String (Option String)
  /-- `serde_yaml` -/
  toYaml : PluginManifest → Except FlowError String
  fromYaml : Lib.Bytes → Option PluginManifest
  /-- `serde_json::to_vec_pretty` -/
  recordJson : InstallRecord → Lib.Bytes
  stagingId : String
  backupId : String
  now : String

structure InstallOptions where
  force : Bool
  pull : Bool
  containerRuntime : String

structure InstallOutcome where
  id : String
  version : String
  kind : String
  directory : Place
  replaced : Option String
  image : Option String

/-- A catalog that was loaded: it has been checked. -/
structure LoadedCatalog where
  source : String
  catalog : Catalog
  valid : catalog.validate = .ok ()

inductive Failure where
  | error (e : FlowError)
  | panic (message : String)

def invalid (message : String) : Failure := .error (.configuration message)

namespace World

variable (w : World)

/-- `pull_image`. -/
def pullImage (runtime image : String) (d : Disk) : Except Failure Unit × Disk :=
  match w.pull runtime image with
  | .error e => d.reject (invalid ("no se pudo ejecutar `" ++ runtime ++ " pull`: " ++ e))
  | .ok (some status) =>
    d.reject (invalid ("`" ++ runtime ++ " pull " ++ image ++ "` falló (" ++ status ++ "); no se instaló nada"))
  | .ok none => (.ok (), d)

/-- `installed_manifest`. -/
def installedManifest (directory : Place) (t : DirTree) : Option PluginManifest :=
  match t.node (directory ++ [manifestFile]) with
  | some (.file content _) => w.fromYaml content
  | _ => none

end World

namespace LoadedCatalog

variable (c : LoadedCatalog) (w : World) (dir : PluginDir)

/-- `split_once('@')`. -/
def splitRequest (request : String) : String × Option String :=
  let id := request.toList.takeWhile (· ≠ '@')
  (String.ofList id,
    match request.toList.drop id.length with
    | [] => none
    | _ :: version => some (String.ofList version))

def select (plugin : CatalogPlugin) (id : String) (wanted : Option String) : Except Failure CatalogVersion :=
  match wanted with
  | some wanted =>
    match plugin.version wanted with
    | some v => .ok v
    | none => .error (invalid ("'" ++ id ++ "' no tiene la versión " ++ wanted ++ "; disponibles: " ++
        ", ".intercalate (plugin.versions.map CatalogVersion.version)))
  | none =>
    match plugin.latest with
    | some v => .ok v
    | none => .error (.panic "validate() exige al menos una versión")

def stagingName (id : String) : String := ".install-" ++ id ++ "-" ++ w.stagingId

/-- `with_file_name`, for the version that is moved away. -/
def backupPlace (target : Place) : Place :=
  target.dropLast ++ [".old-" ++ target.getLast?.getD "plugin" ++ "-" ++ w.backupId]

/-- The closure `io`: the text of a path below the plugin directory. -/
def io {α : Type} (names : List String) (text : String) : Except Failure α :=
  .error (invalid (dir.display names ++ ": " ++ text))

/-- One file below the staging directory, with the directories it needs. -/
def writeFile (name : String) (executable : Bool) (relative : Place) (content : Lib.Bytes) (d : Disk) :
    Except Failure Unit × Disk :=
  let staging := dir.join name
  match d.createDirAll (staging ++ relative.dropLast) with
  | (.error text, d) => (io dir (name :: relative.dropLast) text, d)
  | (.ok (), d) =>
    match d.write (staging ++ relative) content with
    | (.error text, d) => (io dir (name :: relative) text, d)
    | (.ok (), d) =>
      if executable then
        match d.setExecutable (staging ++ relative) with
        | (.error text, d) => (io dir (name :: relative) text, d)
        | (.ok (), d) => (.ok (), d)
      else (.ok (), d)

/-- The loop over the files of the version. -/
def stageFiles (name : String) : List CatalogFile → List RecordedFile → Disk → Except Failure (List RecordedFile) × Disk
  | [], recorded, d => (.ok recorded, d)
  | file :: files, recorded, d =>
    match safeRelativePath file.path with
    | none => d.reject (.panic "validate() revisó la ruta")
    | some relative =>
      match w.join file.url with
      | .error e => d.reject (.error e)
      | .ok source =>
        match source.fetched with
        | .error e => d.reject (.error e)
        | .ok content =>
          let digest := w.sha256 content
          if digest ≠ file.sha256 then
            d.reject (invalid ("checksum distinto en '" ++ file.path ++ "' (" ++ source.text ++ "): se esperaba " ++
              file.sha256 ++ " y llegó " ++ digest ++ "; no se instaló nada"))
          else
            match writeFile dir name file.executable relative content d with
            | (.error f, d) => (.error f, d)
            | (.ok (), d) => stageFiles name files (recorded ++ [⟨file.path, digest⟩]) d

/-- The text of the manifest. -/
def manifestText (yaml : String) : Lib.Bytes :=
  utf8 ("# Instalado con `jaiba plugins install` desde " ++ c.source ++ "\n" ++ yaml)

/-- A file of the installation itself. -/
def writeOwn (name : String) (file : String) (content : Lib.Bytes) (d : Disk) : Except Failure Unit × Disk :=
  match d.write (dir.join name ++ [file]) content with
  | (.error text, d) => (io dir [name, file] text, d)
  | (.ok (), d) => (.ok (), d)

def pullStep (o : InstallOptions) (v : CatalogVersion) (d : Disk) : Except Failure Unit × Disk :=
  match v.container, o.pull with
  | some spec, true => w.pullImage o.containerRuntime spec.image d
  | _, _ => (.ok (), d)

/-- All that happens in the staging directory. -/
def stage (name : String) (o : InstallOptions) (plugin : CatalogPlugin) (v : CatalogVersion) (d : Disk) :
    Except Failure Unit × Disk :=
  match stageFiles w dir name v.files [] d with
  | (.error f, d) => (.error f, d)
  | (.ok recorded, d) =>
    match pullStep w o v d with
    | (.error f, d) => (.error f, d)
    | (.ok (), d) =>
      match w.toYaml (v.manifest plugin) with
      | .error e => d.reject (.error e)
      | .ok yaml =>
        match writeOwn dir name manifestFile (c.manifestText yaml) d with
        | (.error f, d) => (.error f, d)
        | (.ok (), d) =>
          writeOwn dir name installRecord (w.recordJson ⟨c.source, v.version, w.now, recorded⟩) d

/-- `Staging::commit`. -/
def commit (staging target : Place) (id : String) (d : Disk) : Except Failure Unit × Disk :=
  if (d.tree.node target).isSome then
    let backup := backupPlace w target
    match d.rename target backup with
    | (.error text, d) => (io dir [id] text, d)
    | (.ok (), d) =>
      match d.rename staging target with
      | (.error text, d) => (io dir [id] text, (d.rename backup target).2)
      | (.ok (), d) => (.ok (), (d.removeDirAll backup).2)
  else
    match d.rename staging target with
    | (.error text, d) => (io dir [id] text, d)
    | (.ok (), d) => (.ok (), d)

/-- From the staging directory on; `drop` removes it unless it was moved in. -/
def replace (id : String) (o : InstallOptions) (plugin : CatalogPlugin) (v : CatalogVersion) (d : Disk) :
    Except Failure Unit × Disk :=
  let name := stagingName w id
  let staging := dir.join name
  match d.createDir staging with
  | (.error text, d) => (io dir [name] text, d)
  | (.ok (), d) =>
    match stage c w dir name o plugin v d with
    | (.error f, d) => (.error f, (d.removeDirAll staging).2)
    | (.ok (), d) =>
      match commit w dir staging (dir.join id) id d with
      | (.error f, d) => (.error f, (d.removeDirAll staging).2)
      | (.ok (), d) => (.ok (), d)

def install (request : String) (o : InstallOptions) (d : Disk) : Except Failure InstallOutcome × Disk :=
  let (id, wanted) := splitRequest request
  match c.catalog.plugin id with
  | none => (.error (invalid ("'" ++ id ++ "' no está en el catálogo " ++ c.source ++
      "; búscalo con `jaiba plugins search`")), d)
  | some plugin =>
    match select plugin id wanted with
    | .error f => (.error f, d)
    | .ok v =>
      if v.protocolVersion ≠ 1 then
        (.error (invalid (id ++ "@" ++ v.version ++ " usa el protocolo de plugins " ++ toString v.protocolVersion ++
          " y esta versión de Jaiba usa el 1")), d)
      else
        let target := dir.join id
        let replaced := (w.installedManifest target d.tree).map PluginManifest.version
        if (d.tree.node target).isSome && !o.force then
          (.error (invalid ("'" ++ id ++ "' ya está instalado (" ++ replaced.getD "versión desconocida" ++ ") en " ++
            dir.display [id] ++ "; usa --force para reemplazarlo")), d)
        else
          match d.createDirAll dir.place with
          | (.error text, d) => (io dir [] text, d)
          | (.ok (), d) =>
            match replace c w dir id o plugin v d with
            | (.error f, d) => (.error f, d)
            | (.ok (), d) =>
              (.ok ⟨id, v.version, v.kind, target, replaced, v.container.map ContainerSpec.image⟩, d)

end LoadedCatalog

end Jaiba.Plugin
