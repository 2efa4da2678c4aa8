import Jaiba.Error
import Jaiba.Lib.Confinement

/-!
# The extraction of the Oracle client (`extract` in `connectors/oracle_client.rs`)

The entries of the archive below a folder `instantclient_…` are written below the destination,
without that folder. Paths are read from the directory that the destination is; file
contents are left out.
-/

namespace Jaiba.Connectors.OracleClient
open Jaiba.Lib.Paths

/-- The path never climbs above its own start. -/
def neverClimbs : ℕ → List Component → Bool
  | _, [] => true
  | depth, .cur :: cs => neverClimbs depth cs
  | 0, .parent :: _ => false
  | depth + 1, .parent :: cs => neverClimbs depth cs
  | depth, .normal _ :: cs => neverClimbs (depth + 1) cs

/-- What `enclosed_name` of the `zip` crate returns: a relative path that never climbs above its start. -/
abbrev EnclosedName := { cs : List Component // neverClimbs 0 cs = true }

/-- An entry of the archive; `link` is its content as a text, where it is one. -/
structure ZipEntry where
  name : String
  enclosedName : Option EnclosedName
  isDir : Bool
  isSymlink : Bool
  link : Option String
  unixMode : Option ℕ

/-- `Path::components`: a `.` is kept only in front. -/
def stdComponents : List Component → List Component
  | [] => []
  | c :: cs => c :: cs.filter (· ≠ .cur)

/-- The path below the top folder, where the entry is extracted at all. -/
def relativeOf (name : EnclosedName) : Option (List Component) :=
  match stdComponents name.val with
  | .normal top :: relative =>
    if top == "META-INF" || !"instantclient_".toList.isPrefixOf top.toList then none
    else if relative.isEmpty then none
    else some relative
  | _ => none

def Component.text : Component → String
  | .cur => "."
  | .parent => ".."
  | .normal name => name

/-- The destination: the text of its path, and the directory that it is. -/
structure Destination where
  path : String
  dir : List String

namespace Destination

variable (destination : Destination)

/-- `target.display()`. -/
def display (relative : List Component) : String :=
  "/".intercalate (destination.path :: relative.map Component.text)

/-- `io_error`. -/
def ioError (relative : List Component) (e : Errno) : FlowError :=
  let text := match e with
    | .notFound => "No such file or directory (os error 2)"
    | .fileExists => "File exists (os error 17)"
    | .other text => text
  .configuration (destination.display relative ++ ": " ++ text)

/-- `map_err(|error| io_error(path, error))`. -/
def lift {α : Type} (relative : List Component) (out : Disk.Outcome α) : Except FlowError α × Disk :=
  (out.1.mapError (destination.ioError relative), out.2)

/-- `create_symlink`, on Unix. -/
def createSymlink (link : String) (relative : List Component) (d : Disk) : Except FlowError Unit × Disk :=
  match isAbsolute link, stdComponents (components link) with
  | false, [.normal _] => destination.lift relative (d.symlink destination.dir relative link)
  | _, _ =>
    (.error (.configuration ("enlace inseguro en el ZIP: " ++ destination.display relative ++ " -> " ++ link)), d)

/-- A file: created, filled and given its permissions. -/
def extractFile (mode : Option ℕ) (relative : List Component) (d : Disk) : Except FlowError Unit × Disk :=
  match d.createFile destination.dir relative with
  | (.error e, d) => (.error (destination.ioError relative e), d)
  | (.ok output, d) =>
    match d.write output with
    | (.error e, d) => (.error (destination.ioError relative e), d)
    | (.ok (), d) =>
      match mode with
      | none => (.ok (), d)
      | some _ => destination.lift relative (d.setPermissions destination.dir relative)

/-- The body of the loop. -/
def extractEntry (entry : ZipEntry) (d : Disk) : Except FlowError Unit × Disk :=
  match entry.enclosedName with
  | none => (.error (.configuration ("entrada del ZIP con ruta insegura: " ++ entry.name)), d)
  | some name =>
    match relativeOf name with
    | none => (.ok (), d)
    | some relative =>
      if entry.isDir then
        destination.lift relative (d.createDirAll destination.dir relative.reverse)
      else
        match d.createDirAll destination.dir relative.reverse.tail with
        | (.error e, d) => (.error (destination.ioError relative.dropLast e), d)
        | (.ok (), d) =>
          if entry.isSymlink then
            match entry.link with
            | none => (.error (destination.ioError relative (.other "stream did not contain valid UTF-8")), d)
            | some link => destination.createSymlink link relative d
          else destination.extractFile entry.unixMode relative d

/-- The loop over the archive; an entry that cannot be read is an error text. -/
def extractEntries : List (Except String ZipEntry) → Disk → Except FlowError Unit × Disk
  | [], d => (.ok (), d)
  | .error text :: _, d => (.error (.configuration ("ZIP del cliente Oracle: " ++ text)), d)
  | .ok entry :: entries, d =>
    match destination.extractEntry entry d with
    | (.error e, d) => (.error e, d)
    | (.ok (), d) => extractEntries entries d

def extract (entries : List (Except String ZipEntry)) (d : Disk) : Except FlowError Unit × Disk :=
  match d.createDirAll destination.dir [] with
  | (.error e, d) => (.error (destination.ioError [] e), d)
  | (.ok (), d) => destination.extractEntries entries d

/-! ### Confinement -/

/-- Extracted or left out, the entry stays: by its names, the path below its top folder leads to no
place beside the destination. -/
def Admits (entry : ZipEntry) : Prop :=
  ∀ name relative, entry.enclosedName = some name → relativeOf name = some relative →
    Stays destination.dir destination.dir relative

/-- The destination is an empty directory, and nothing has been touched yet. -/
structure Fresh (d : Disk) : Prop where
  here : d.fs.node destination.dir = some .dir
  empty : ∀ p, destination.dir <+: p → p ≠ destination.dir → d.fs.node p = none
  untouched : d.touched = []

variable {destination} {d : Disk} {relative : List Component} {entry : ZipEntry}

theorem node_of_prefix {fs : FileSystem} {p q : List String} (h : fs.node q = some .dir) (hpq : p <+: q) :
    fs.node p = some .dir := by
  obtain ⟨rest, rfl⟩ := hpq
  induction rest using List.reverseRecOn with
  | nil => rwa [List.append_nil] at h
  | append_singleton rest x ih =>
    rw [← List.append_assoc] at h
    exact ih (fs.parent _ x (by rw [h]; rfl))

theorem Fresh.guarded (h : destination.Fresh d) : Guarded destination.dir d.fs := by
  refine ⟨fun p hp => node_of_prefix h.here hp, fun p target hp hlink => ?_⟩
  by_cases heq : p = destination.dir
  · rw [heq, h.here] at hlink
    cases hlink
  · rw [h.empty p hp heq] at hlink
    cases hlink

theorem isSibling_of_components {link name : String} (hrelative : isAbsolute link = false)
    (h : stdComponents (components link) = [.normal name]) : IsSibling link := by
  cases hcs : components link with
  | nil =>
    rw [hcs] at h
    cases h
  | cons c cs =>
    rw [hcs, stdComponents, List.cons.injEq, List.filter_eq_nil_iff] at h
    refine ⟨hrelative, name, cs, by rw [hcs, h.1], fun c hc => ?_⟩
    exact by_contra fun hne => h.2 c hc (by simpa using hne)

theorem keeps_createSymlink {link : String} (hg : Guarded destination.dir d.fs)
    (hs : Stays destination.dir destination.dir relative) :
    Keeps destination.dir d (destination.createSymlink link relative d).2 := by
  rw [createSymlink]
  split
  next hrelative hcomponents => exact Disk.keeps_symlink hg hs (isSibling_of_components hrelative hcomponents)
  next => exact Keeps.refl hg

theorem keeps_extractFile {mode : Option ℕ} (hg : Guarded destination.dir d.fs)
    (hs : Stays destination.dir destination.dir relative) :
    Keeps destination.dir d (destination.extractFile mode relative d).2 := by
  obtain ⟨hcreate, hopened⟩ := Disk.createFile_spec hg hs
  rw [extractFile]
  cases hc : d.createFile destination.dir relative with
  | mk result d₁ =>
    rw [hc] at hcreate hopened
    cases result with
    | error e => exact hcreate
    | ok output =>
      obtain ⟨hin, hwalk⟩ := hopened output rfl
      have hwrite := Disk.keeps_write hcreate.guarded hin
      have hfs := Disk.write_fs d₁ output
      dsimp only at hwalk hwrite ⊢
      cases hw : d₁.write output with
      | mk result d₂ =>
        rw [hw] at hwrite hfs
        cases result with
        | error e => exact hcreate.trans hwrite
        | ok u =>
          cases mode with
          | none => exact hcreate.trans hwrite
          | some mode =>
            refine hcreate.trans (hwrite.trans (Disk.keeps_setPermissions hwrite.guarded hin ?_))
            dsimp only at hfs ⊢
            rw [hfs, hwalk]

/-- An entry that the destination admits is extracted in it, whatever calls fail. -/
theorem keeps_extractEntry (hg : Guarded destination.dir d.fs) (h : destination.Admits entry) :
    Keeps destination.dir d (destination.extractEntry entry d).2 := by
  rw [extractEntry]
  cases hname : entry.enclosedName with
  | none => exact Keeps.refl hg
  | some name =>
    dsimp only
    cases hrelative : relativeOf name with
    | none => exact Keeps.refl hg
    | some relative =>
      have hs := h name relative hname hrelative
      have hparent : Stays destination.dir destination.dir relative.reverse.tail.reverse := by
        rcases List.eq_nil_or_concat relative with rfl | ⟨front, c, rfl⟩
        · exact hs
        · rw [List.concat_eq_append] at hs ⊢
          rw [List.reverse_concat, List.tail_cons, List.reverse_reverse]
          exact hs.front
      dsimp only
      split
      next => exact Disk.keeps_createDirAll hg (by rwa [List.reverse_reverse])
      next =>
        have hdirs := Disk.keeps_createDirAll hg hparent
        cases hd : d.createDirAll destination.dir relative.reverse.tail with
        | mk result d₁ =>
          rw [hd] at hdirs
          cases result with
          | error e => exact hdirs
          | ok u =>
            dsimp only
            split
            next =>
              split
              next => exact hdirs
              next link _ => exact hdirs.trans (keeps_createSymlink hdirs.guarded hs)
            next => exact hdirs.trans (keeps_extractFile hdirs.guarded hs)

theorem keeps_extractEntries {entries : List (Except String ZipEntry)} (hg : Guarded destination.dir d.fs)
    (h : ∀ entry, .ok entry ∈ entries → destination.Admits entry) :
    Keeps destination.dir d (destination.extractEntries entries d).2 := by
  induction entries generalizing d with
  | nil => exact Keeps.refl hg
  | cons head entries ih =>
    cases head with
    | error text => exact Keeps.refl hg
    | ok entry =>
      have hentry := keeps_extractEntry hg (h entry List.mem_cons_self)
      rw [extractEntries]
      cases he : destination.extractEntry entry d with
      | mk result d₁ =>
        rw [he] at hentry
        cases result with
        | error e => exact hentry
        | ok u => exact hentry.trans (ih hentry.guarded fun entry hmem => h entry (List.mem_cons_of_mem _ hmem))

/-- Every place that is created, written or given permissions is in the destination, and outside
of it nothing has changed. -/
def Confined (destination : Destination) (d d' : Disk) : Prop :=
  (∀ p ∈ d'.touched, destination.dir <+: p) ∧ ∀ p, ¬ destination.dir <+: p → d'.fs.node p = d.fs.node p

/-- Where the destination admits every entry of the archive, the extraction is confined, whether it
succeeds or stops at any call. -/
theorem extract_confined (destination : Destination) (entries : List (Except String ZipEntry)) (d : Disk)
    (hfresh : destination.Fresh d) (h : ∀ entry, .ok entry ∈ entries → destination.Admits entry) :
    Confined destination d (destination.extract entries d).2 := by
  have hkeeps : Keeps destination.dir d (destination.extract entries d).2 := by
    have hstart : Stays destination.dir destination.dir ([] : List Component).reverse := .inl (List.prefix_refl _)
    have hdirs := Disk.keeps_createDirAll hfresh.guarded hstart
    rw [extract]
    cases hd : d.createDirAll destination.dir [] with
    | mk result d₁ =>
      rw [hd] at hdirs
      cases result with
      | error e => exact hdirs
      | ok u => exact hdirs.trans (keeps_extractEntries hdirs.guarded h)
  obtain ⟨new, hnew, hin⟩ := hkeeps.touched
  rw [hfresh.untouched, List.nil_append] at hnew
  exact ⟨hnew ▸ hin, hkeeps.outside⟩

/-! ### A path through the top folder -/

/-- A file system that is its root alone. -/
def rootAlone : FileSystem where
  node p := if p = [] then some .dir else none
  root := rfl
  parent p x h := by
    rw [if_neg (List.append_ne_nil_of_right_ne_nil p (List.cons_ne_nil x []))] at h
    cases h
  links := 40

/-- `/tmp/out`. -/
def tmpOut : Destination := ⟨"/tmp/out", ["tmp", "out"]⟩

def tmpDisk : Disk where
  fs := (rootAlone.add ["tmp"] .dir ⟨List.cons_ne_nil _ _, rfl, rfl⟩).add ["tmp", "out"] .dir
    ⟨List.cons_ne_nil _ _, rfl, rfl⟩
  touched := []
  faults := []

theorem tmpOut_fresh : tmpOut.Fresh tmpDisk := by
  refine ⟨rfl, fun p hp hne => ?_, rfl⟩
  obtain ⟨rest, rfl⟩ := hp
  cases rest with
  | nil => exact absurd rfl hne
  | cons x rest => rfl

/-- A file below the top folder, its name as `enclosed_name` gives it. -/
def fileEntry (name : String) (enclosed : EnclosedName) : ZipEntry := ⟨name, some enclosed, false, false, none, some 0o644⟩

/-- `instantclient_1/a/b`. -/
def plainEntry : ZipEntry :=
  fileEntry "instantclient_1/a/b" ⟨[.normal "instantclient_1", .normal "a", .normal "b"], rfl⟩

theorem extract_confined_plain : Confined tmpOut tmpDisk (tmpOut.extract [.ok plainEntry] tmpDisk).2 := by
  refine extract_confined tmpOut [.ok plainEntry] tmpDisk tmpOut_fresh fun entry hentry => ?_
  rw [List.mem_singleton, Except.ok.injEq] at hentry
  subst hentry
  rintro name relative ⟨⟩ hrelative
  have hpath : relativeOf ⟨[.normal "instantclient_1", .normal "a", .normal "b"], rfl⟩ =
      some [.normal "a", .normal "b"] := by decide +kernel
  rw [hpath] at hrelative
  cases hrelative
  have hline : ∀ rest, InLine tmpOut.dir (tmpOut.dir ++ rest) := fun rest => .inl (List.prefix_append _ rest)
  exact ⟨hline [], hline ["a"], hline ["a", "b"]⟩

/-- `instantclient_1/../evil`. -/
def climbingEntry : ZipEntry :=
  fileEntry "instantclient_1/../evil" ⟨[.normal "instantclient_1", .parent, .normal "evil"], rfl⟩

/-- The file `evil` is written beside the destination. -/
theorem extract_not_confined : ¬ ∀ (destination : Destination) (entries : List (Except String ZipEntry)) (d : Disk),
    destination.Fresh d → Confined destination d (destination.extract entries d).2 := by
  intro h
  have hconfined := (h tmpOut [.ok climbingEntry] tmpDisk tmpOut_fresh).1 ["tmp", "evil"]
  have hwritten : (tmpOut.extract [.ok climbingEntry] tmpDisk).2.touched.contains ["tmp", "evil"] = true := by
    decide +kernel
  have hbeside := hconfined (List.contains_iff_mem.mp hwritten)
  exact absurd hbeside (by decide)

end Destination

end Jaiba.Connectors.OracleClient
