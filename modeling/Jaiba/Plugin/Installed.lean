import Jaiba.Plugin.Install

/-!
# An installation happens as a whole or not at all

Up to the commit everything stays below the staging directory. The commit moves whole directories
between three siblings: the plugin, the staging directory and the backup.
-/

namespace Jaiba.Plugin
open Jaiba.Lib Jaiba.Lib.FileTree
open Jaiba.Lib.FileTree.DirTree (Only)
open Jaiba.Lib.Paths (Path)

/-! ### Below the staging directory -/

/-- A part of the installation that works below a directory: it counts its one failure, if any. -/
structure Kept {α : Type} (p : Place) (d : Disk) (out : Except Failure α × Disk) : Prop where
  only : Only p d.tree out.2.tree
  dir : out.2.tree.node p = some .dir
  ok : ∀ a, out.1 = .ok a → out.2.failed = d.failed
  error : ∀ f, out.1 = .error f → out.2.failed = d.failed + 1

variable {α β : Type} {c : LoadedCatalog} {w : World} {dir : PluginDir} {o : InstallOptions} {p : Place} {d d' : Disk}
  {text : String} {f : Failure}

theorem Kept.pure (hdir : d.tree.node p = some .dir) (a : α) : Kept p d (.ok a, d) where
  only := .refl p _
  dir := hdir
  ok _ _ := rfl
  error f hf := by cases hf

theorem Kept.reject (hdir : d.tree.node p = some .dir) (f : Failure) : Kept (α := α) p d (d.reject f) where
  only := .refl p _
  dir := hdir
  ok a ha := by cases ha
  error _ _ := rfl

theorem Kept.bind {a : α} {out : Except Failure β × Disk} (h : Kept p d (.ok a, d')) (h' : Kept p d' out) :
    Kept p d out where
  only := h.only.trans h'.only
  dir := h'.dir
  ok b hb := (h'.ok b hb).trans (h.ok a rfl)
  error f hf := (h'.error f hf).trans (congrArg (· + 1) (h.ok a rfl))

theorem Kept.stop (h : Kept (α := α) p d (.error f, d')) : Kept (α := β) p d (.error f, d') where
  only := h.only
  dir := h.dir
  ok a ha := by cases ha
  error _ _ := h.error f rfl

/-- A call that works below the directory and leaves it there. -/
theorem Kept.done {midway : Fault → Except String DirTree} {done : Except String DirTree}
    (h : d.call midway done = (.ok (), d')) (honly : Only p d.tree d'.tree) (hdir : d'.tree.node p = some .dir) :
    Kept p d (.ok (), d') where
  only := honly
  dir := hdir
  ok _ _ := (Disk.call_ok h).2
  error f hf := by cases hf

theorem Kept.failed {midway : Fault → Except String DirTree} {done : Except String DirTree}
    (h : d.call midway done = (.error text, d')) (honly : Only p d.tree d'.tree) (hdir : d'.tree.node p = some .dir)
    (f : Failure) : Kept (α := α) p d (.error f, d') where
  only := honly
  dir := hdir
  ok a ha := by cases ha
  error _ _ := (Disk.call_error h).2

theorem writeFile_kept {name : String} (hdir : d.tree.node (dir.join name) = some .dir) (executable : Bool)
    {relative : Place} (hrelative : relative ≠ []) (content : Lib.Bytes) :
    Kept (dir.join name) d (LoadedCatalog.writeFile dir name executable relative content d) := by
  have hmade := Disk.createDirAll_only relative.dropLast hdir
  have hmadeDir := Disk.createDirAll_dir (p := dir.join name ++ relative.dropLast) hdir
  unfold LoadedCatalog.writeFile
  dsimp only
  rcases hcreate : d.createDirAll (dir.join name ++ relative.dropLast) with ⟨text | ⟨⟩, d₁⟩ <;>
    rw [hcreate] at hmade hmadeDir
  · exact .failed hcreate hmade hmadeDir _
  · have hwritten := Disk.write_only d₁ (dir.join name ++ relative) content
    refine (Kept.done hcreate hmade hmadeDir).bind ?_
    dsimp only
    rcases hwrite : d₁.write (dir.join name ++ relative) content with ⟨text | ⟨⟩, d₂⟩ <;> rw [hwrite] at hwritten
    · exact .failed hwrite hwritten.above ((hwritten.self hrelative).trans hmadeDir) _
    · have hwrittenDir := (hwritten.self hrelative).trans hmadeDir
      refine (Kept.done hwrite hwritten.above hwrittenDir).bind ?_
      dsimp only
      split_ifs
      · have hset := Disk.setExecutable_only d₂ (dir.join name ++ relative)
        rcases hmode : d₂.setExecutable (dir.join name ++ relative) with ⟨text | ⟨⟩, d₃⟩ <;> rw [hmode] at hset
        · exact .failed hmode hset.above ((hset.self hrelative).trans hwrittenDir) _
        · exact .done hmode hset.above ((hset.self hrelative).trans hwrittenDir)
      · exact .pure hwrittenDir ()

theorem stageFiles_kept {name : String} (files : List CatalogFile) (recorded : List RecordedFile)
    (hdir : d.tree.node (dir.join name) = some .dir) :
    Kept (dir.join name) d (LoadedCatalog.stageFiles w dir name files recorded d) := by
  induction files generalizing recorded d with
  | nil => exact .pure hdir recorded
  | cons file files ih =>
    unfold LoadedCatalog.stageFiles
    split
    · exact .reject hdir _
    next relative hrelative =>
      split
      · exact .reject hdir _
      next source _ =>
        split
        · exact .reject hdir _
        next content _ =>
          dsimp only
          split_ifs with hdigest
          · exact .reject hdir _
          · have hfile := writeFile_kept hdir file.executable (safeRelativePath_safe hrelative).nonempty content
            rcases hwrite : LoadedCatalog.writeFile dir name file.executable relative content d with ⟨f | ⟨⟩, d₁⟩ <;>
              rw [hwrite] at hfile
            · exact hfile.stop
            · exact hfile.bind (ih _ hfile.dir)

theorem pullStep_kept {v : CatalogVersion} (hdir : d.tree.node p = some .dir) :
    Kept p d (LoadedCatalog.pullStep w o v d) := by
  unfold LoadedCatalog.pullStep
  split
  · unfold World.pullImage
    split
    · exact .reject hdir _
    · exact .reject hdir _
    · exact .pure hdir ()
  · exact .pure hdir ()

theorem writeOwn_kept {name : String} (file : String) (content : Lib.Bytes) (hdir : d.tree.node (dir.join name) = some .dir) :
    Kept (dir.join name) d (LoadedCatalog.writeOwn dir name file content d) := by
  have hne : [file] ≠ [] := List.cons_ne_nil _ _
  have hwritten := Disk.write_only d (dir.join name ++ [file]) content
  unfold LoadedCatalog.writeOwn
  rcases hwrite : d.write (dir.join name ++ [file]) content with ⟨text | ⟨⟩, d₁⟩ <;> rw [hwrite] at hwritten
  · exact .failed hwrite hwritten.above ((hwritten.self hne).trans hdir) _
  · exact .done hwrite hwritten.above ((hwritten.self hne).trans hdir)

theorem stage_kept {name : String} (plugin : CatalogPlugin) (v : CatalogVersion)
    (hdir : d.tree.node (dir.join name) = some .dir) :
    Kept (dir.join name) d (c.stage w dir name o plugin v d) := by
  have hfiles := stageFiles_kept (w := w) v.files [] hdir
  unfold LoadedCatalog.stage
  rcases hstaged : LoadedCatalog.stageFiles w dir name v.files [] d with ⟨f | recorded, d₁⟩ <;> rw [hstaged] at hfiles
  · exact hfiles.stop
  · refine hfiles.bind ?_
    have hpull := pullStep_kept (w := w) (o := o) (v := v) hfiles.dir
    dsimp only
    rcases hpulled : LoadedCatalog.pullStep w o v d₁ with ⟨f | ⟨⟩, d₂⟩ <;> rw [hpulled] at hpull
    · exact hpull.stop
    · refine hpull.bind ?_
      dsimp only
      split
      · exact .reject hpull.dir _
      next yaml _ =>
        have hown := writeOwn_kept manifestFile (c.manifestText yaml) hpull.dir
        rcases hmanifest : LoadedCatalog.writeOwn dir name manifestFile (c.manifestText yaml) d₂ with ⟨f | ⟨⟩, d₃⟩ <;>
          rw [hmanifest] at hown
        · exact hown.stop
        · exact hown.bind (writeOwn_kept _ _ hown.dir)

/-! ### What is written -/

theorem writeFile_steps {name : String} {executable : Bool} {relative : Place} {content : Lib.Bytes}
    (h : LoadedCatalog.writeFile dir name executable relative content d = (.ok (), d')) :
    ∃ made written, d.tree.createDirAll (dir.join name ++ relative.dropLast)
        (dir.join name ++ relative.dropLast).length = .ok made ∧
      made.write (dir.join name ++ relative) content = .ok written ∧
      if executable then written.setExecutable (dir.join name ++ relative) = .ok d'.tree else d'.tree = written := by
  unfold LoadedCatalog.writeFile at h
  dsimp only at h
  rcases hcreate : d.createDirAll (dir.join name ++ relative.dropLast) with ⟨text | ⟨⟩, d₁⟩ <;> rw [hcreate] at h
  · cases h
  · dsimp only at h
    rcases hwrite : d₁.write (dir.join name ++ relative) content with ⟨text | ⟨⟩, d₂⟩ <;> rw [hwrite] at h
    · cases h
    · refine ⟨d₁.tree, d₂.tree, (Disk.call_ok hcreate).1, (Disk.call_ok hwrite).1, ?_⟩
      dsimp only at h
      split_ifs at h ⊢
      · rcases hmode : d₂.setExecutable (dir.join name ++ relative) with ⟨text | ⟨⟩, d₃⟩ <;> rw [hmode] at h
        · cases h
        · cases h
          exact (Disk.call_ok hmode).1
      · cases h
        rfl

/-- Where no file was, the file is written with its mode; beside it only directories on its way are new. -/
theorem writeFile_node {name : String} {executable : Bool} {relative : Place} {content : Lib.Bytes}
    (h : LoadedCatalog.writeFile dir name executable relative content d = (.ok (), d'))
    (hfree : ∀ content executable, d.tree.node (dir.join name ++ relative) ≠ some (.file content executable)) :
    d'.tree.node (dir.join name ++ relative) = some (.file content executable) ∧
      ∀ q, q ≠ dir.join name ++ relative → d'.tree.node q = d.tree.node q ∨
        q <+: dir.join name ++ relative.dropLast ∧ d.tree.node q = none ∧ d'.tree.node q = some .dir := by
  obtain ⟨made, written, hmade, hwritten, hmode⟩ := writeFile_steps h
  have hnode := DirTree.createDirAll_node hmade
  obtain ⟨-, -, hfile, hrest⟩ := DirTree.write_ok hwritten
  have hplain : made.executable (dir.join name ++ relative) = false := by
    unfold DirTree.executable
    split
    next content executable hmadeFile =>
      rcases hnode (dir.join name ++ relative) with hsame | ⟨-, -, hdir⟩
      · exact absurd (hsame.symm.trans hmadeFile) (hfree content executable)
      · cases hdir.symm.trans hmadeFile
    · rfl
  rw [hplain] at hfile
  have hothers : ∀ q, q ≠ dir.join name ++ relative → d'.tree.node q = written.node q := by
    intro q hq
    split_ifs at hmode
    · exact (DirTree.setExecutable_ok hfile hmode).2 q hq
    · rw [hmode]
  refine ⟨?_, fun q hq => ?_⟩
  · split_ifs at hmode with hexecutable
    · rw [hexecutable]
      exact (DirTree.setExecutable_ok hfile hmode).1
    · rw [hmode, hfile, Bool.eq_false_of_not_eq_true hexecutable]
  · rw [hothers q hq, hrest q hq]
    exact hnode q

/-- A directory that holds the files of a catalog entry, with their content and mode, the files of the
installation itself, and nothing else but the directories on the way to them. -/
structure Holds (w : World) (files : List CatalogFile) (own : List (String × Lib.Bytes)) (node : Place → Option Node) :
    Prop where
  file : ∀ file ∈ files, ∃ path content, safeRelativePath file.path = some path ∧
    node path = some (.file content file.executable) ∧ w.sha256 content = file.sha256
  ownFile : ∀ f ∈ own, node [f.1] = some (.file f.2 false)
  only : ∀ path content executable, node path = some (.file content executable) →
    (∃ file ∈ files, safeRelativePath file.path = some path) ∨ ∃ f ∈ own, path = [f.1]
  dirs : ∀ path, node path = some .dir → path = [] ∨
    ∃ file ∈ files, ∃ below, safeRelativePath file.path = some below ∧ path <+: below

theorem Holds.file_added {name : String} {done : List CatalogFile} {file : CatalogFile} {relative : Place}
    {content : Lib.Bytes} (hholds : Holds w done [] fun path => d.tree.node (dir.join name ++ path))
    (hpath : safeRelativePath file.path = some relative) (hdigest : w.sha256 content = file.sha256)
    (hother : ∀ f ∈ done, safeRelativePath f.path ≠ some relative)
    (h : LoadedCatalog.writeFile dir name file.executable relative content d = (.ok (), d')) :
    Holds w (done ++ [file]) [] fun path => d'.tree.node (dir.join name ++ path) := by
  have hfree : ∀ content executable, d.tree.node (dir.join name ++ relative) ≠ some (.file content executable) := by
    intro content executable hfile
    rcases hholds.only relative content executable hfile with ⟨f, hf, hsame⟩ | ⟨f, hf, -⟩
    · exact hother f hf hsame
    · cases hf
  obtain ⟨hwritten, hrest⟩ := writeFile_node h hfree
  refine ⟨fun f hf => ?_, List.forall_mem_nil _, fun path content' executable hnode => ?_, fun path hnode => ?_⟩
  · rcases List.mem_append.mp hf with hf | hf
    · obtain ⟨path, content', hsafe, hnode, hsha⟩ := hholds.file f hf
      have hne : dir.join name ++ path ≠ dir.join name ++ relative :=
        fun heq => hother f hf (hsafe.trans (congrArg some (List.append_cancel_left heq)))
      refine ⟨path, content', hsafe, ?_, hsha⟩
      rcases hrest _ hne with hsame | ⟨-, hnone, -⟩
      · exact hsame.trans hnode
      · cases hnone.symm.trans hnode
    · cases List.mem_singleton.mp hf
      exact ⟨relative, content, hpath, hwritten, hdigest⟩
  · by_cases heq : path = relative
    · exact .inl ⟨file, List.mem_append_right _ (List.mem_singleton_self _), heq ▸ hpath⟩
    · rcases hrest _ fun hplace => heq (List.append_cancel_left hplace) with hsame | ⟨-, -, hdir⟩
      · rcases hholds.only path content' executable (hsame.symm.trans hnode) with ⟨f, hf, hsafe⟩ | ⟨f, hf, -⟩
        · exact .inl ⟨f, List.mem_append_left _ hf, hsafe⟩
        · cases hf
      · cases hdir.symm.trans hnode
  · by_cases heq : path = relative
    · subst heq
      cases hwritten.symm.trans hnode
    · rcases hrest _ fun hplace => heq (List.append_cancel_left hplace) with hsame | ⟨habove, -, -⟩
      · rcases hholds.dirs path (hsame.symm.trans hnode) with hroot | ⟨f, hf, below, hsafe, hbelow⟩
        · exact .inl hroot
        · exact .inr ⟨f, List.mem_append_left _ hf, below, hsafe, hbelow⟩
      · have hbelow : path <+: relative :=
          ((List.prefix_append_right_inj _).mp habove).trans (List.dropLast_prefix relative)
        exact .inr ⟨file, List.mem_append_right _ (List.mem_singleton_self _), relative, hpath, hbelow⟩

theorem stageFiles_holds {name : String} {files done : List CatalogFile} {recorded out : List RecordedFile}
    (hholds : Holds w done [] fun path => d.tree.node (dir.join name ++ path))
    (hnodup : ((done ++ files).map fun file => safeRelativePath file.path).Nodup)
    (h : LoadedCatalog.stageFiles w dir name files recorded d = (.ok out, d')) :
    out = recorded ++ files.map (fun file => ⟨file.path, file.sha256⟩) ∧
      Holds w (done ++ files) [] fun path => d'.tree.node (dir.join name ++ path) := by
  induction files generalizing done recorded d with
  | nil =>
    cases h
    rw [List.map_nil, List.append_nil, List.append_nil]
    exact ⟨rfl, hholds⟩
  | cons file files ih =>
    unfold LoadedCatalog.stageFiles at h
    split at h
    · cases h
    next relative hrelative =>
      split at h
      · cases h
      next source _ =>
        split at h
        · cases h
        next content _ =>
          dsimp only at h
          split_ifs at h with hdigest
          · cases h
          · rw [not_not] at hdigest
            rcases hwrite : LoadedCatalog.writeFile dir name file.executable relative content d with ⟨f | ⟨⟩, d₁⟩ <;>
              rw [hwrite] at h
            · cases h
            · have hother : ∀ f ∈ done, safeRelativePath f.path ≠ some relative := by
                intro f hf hsame
                rw [List.map_append, List.nodup_append] at hnodup
                exact hnodup.2.2 _ (List.mem_map_of_mem hf) _ (List.mem_map_of_mem List.mem_cons_self)
                  (hsame.trans hrelative.symm)
              have hnext := hholds.file_added hrelative hdigest hother hwrite
              have happend : done ++ file :: files = done ++ [file] ++ files := by
                rw [List.append_assoc, List.singleton_append]
              rw [happend] at hnodup ⊢
              obtain ⟨hout, hall⟩ := ih hnext hnodup h
              refine ⟨?_, hall⟩
              rw [hout, hdigest, List.append_assoc, List.singleton_append, List.map_cons]

theorem Holds.own_added {name file : String} {files : List CatalogFile} {own : List (String × Lib.Bytes)} {content : Lib.Bytes}
    (hholds : Holds w files own fun path => d.tree.node (dir.join name ++ path))
    (hother : ∀ f ∈ files, safeRelativePath f.path ≠ some [file]) (hown : ∀ f ∈ own, f.1 ≠ file)
    (h : LoadedCatalog.writeOwn dir name file content d = (.ok (), d')) :
    Holds w files (own ++ [(file, content)]) fun path => d'.tree.node (dir.join name ++ path) := by
  unfold LoadedCatalog.writeOwn at h
  rcases hwrite : d.write (dir.join name ++ [file]) content with ⟨text | ⟨⟩, d₁⟩ <;> rw [hwrite] at h
  · cases h
  · cases h
    obtain ⟨-, -, hfile, hrest⟩ := DirTree.write_ok (Disk.call_ok hwrite).1
    have hplain : d.tree.executable (dir.join name ++ [file]) = false := by
      unfold DirTree.executable
      split
      next content executable hnode =>
        rcases hholds.only [file] content executable hnode with ⟨f, hf, hsafe⟩ | ⟨f, hf, heq⟩
        · exact absurd hsafe (hother f hf)
        · exact absurd (List.cons.inj heq).1.symm (hown f hf)
      · rfl
    rw [hplain] at hfile
    have hkeep : ∀ path, path ≠ [file] → d'.tree.node (dir.join name ++ path) = d.tree.node (dir.join name ++ path) :=
      fun path hpath => hrest _ fun heq => hpath (List.append_cancel_left heq)
    refine ⟨fun f hf => ?_, fun f hf => ?_, fun path content' executable hnode => ?_, fun path hnode => ?_⟩
    · obtain ⟨path, content', hsafe, hnode, hsha⟩ := hholds.file f hf
      exact ⟨path, content', hsafe, (hkeep path fun heq => hother f hf (heq ▸ hsafe)).trans hnode, hsha⟩
    · rcases List.mem_append.mp hf with hf | hf
      · exact (hkeep [f.1] fun heq => hown f hf (List.cons.inj heq).1).trans (hholds.ownFile f hf)
      · cases List.mem_singleton.mp hf
        exact hfile
    · by_cases heq : path = [file]
      · exact .inr ⟨(file, content), List.mem_append_right _ (List.mem_singleton_self _), heq⟩
      · rcases hholds.only path content' executable ((hkeep path heq).symm.trans hnode) with hlisted | ⟨f, hf, hpath⟩
        · exact .inl hlisted
        · exact .inr ⟨f, List.mem_append_left _ hf, hpath⟩
    · by_cases heq : path = [file]
      · subst heq
        cases hfile.symm.trans hnode
      · exact hholds.dirs path ((hkeep path heq).symm.trans hnode)

theorem pullStep_tree {v : CatalogVersion} (h : LoadedCatalog.pullStep w o v d = (.ok (), d')) : d' = d := by
  unfold LoadedCatalog.pullStep at h
  split at h
  · unfold World.pullImage at h
    split at h
    · cases h
    · cases h
    · cases h
      rfl
  · cases h
    rfl

/-- The record of an installation. -/
def LoadedCatalog.recordOf (c : LoadedCatalog) (w : World) (v : CatalogVersion) : InstallRecord :=
  ⟨c.source, v.version, w.now, v.files.map fun file => ⟨file.path, file.sha256⟩⟩

theorem manifestFile_ne : manifestFile ≠ installRecord := by decide

theorem Holds.start {node : Place → Option Node} (hroot : node [] = some .dir)
    (hempty : ∀ path, path ≠ [] → node path = none) : Holds w [] [] node := by
  refine ⟨List.forall_mem_nil _, List.forall_mem_nil _, fun path content executable hnode => ?_, fun path hnode => ?_⟩
  · rcases eq_or_ne path [] with rfl | hpath
    · cases hroot.symm.trans hnode
    · cases (hempty path hpath).symm.trans hnode
  · rcases eq_or_ne path [] with hpath | hpath
    · exact .inl hpath
    · cases (hempty path hpath).symm.trans hnode

/-- In a directory that was empty, a version that was checked is staged as a whole. -/
theorem stage_holds {name : String} {plugin : CatalogPlugin} {v : CatalogVersion} (hvalid : v.validate plugin = .ok ())
    (hroot : d.tree.node (dir.join name) = some .dir)
    (hempty : ∀ path, path ≠ [] → d.tree.node (dir.join name ++ path) = none)
    (h : c.stage w dir name o plugin v d = (.ok (), d')) :
    ∃ yaml, w.toYaml (v.manifest plugin) = .ok yaml ∧
      Holds w v.files [(manifestFile, c.manifestText yaml), (installRecord, w.recordJson (c.recordOf w v))]
        fun path => d'.tree.node (dir.join name ++ path) := by
  obtain ⟨parts, hparts, hnodup⟩ := CatalogVersion.validate_ok hvalid
  have hdistinct : (([] ++ v.files).map fun file : CatalogFile => safeRelativePath file.path).Nodup := by
    rw [List.nil_append, hparts]
    exact hnodup.map (Option.some_injective _)
  have hnotManifest : ∀ f ∈ v.files, safeRelativePath f.path ≠ some [manifestFile] :=
    fun f _ hpath => (safeRelativePath_safe hpath).other rfl
  have hnotRecord : ∀ f ∈ v.files, safeRelativePath f.path ≠ some [installRecord] :=
    fun f _ hpath => (safeRelativePath_safe hpath).shown installRecord (List.mem_singleton_self _) rfl
  have hstart := Holds.start (w := w) ((congrArg d.tree.node (List.append_nil _)).trans hroot) hempty
  unfold LoadedCatalog.stage at h
  rcases hstaged : LoadedCatalog.stageFiles w dir name v.files [] d with ⟨f | recorded, d₁⟩ <;> rw [hstaged] at h
  · cases h
  · obtain ⟨hrecorded, hfiles⟩ := stageFiles_holds hstart hdistinct hstaged
    rw [List.nil_append] at hrecorded hfiles
    dsimp only at h
    rcases hpulled : LoadedCatalog.pullStep w o v d₁ with ⟨f | ⟨⟩, d₂⟩ <;> rw [hpulled] at h
    · cases h
    · cases pullStep_tree hpulled
      dsimp only at h
      split at h
      · cases h
      next yaml hyaml =>
        rcases hmanifest : LoadedCatalog.writeOwn dir name manifestFile (c.manifestText yaml) d₁ with ⟨f | ⟨⟩, d₃⟩ <;>
          rw [hmanifest] at h
        · cases h
        · have hown := hfiles.own_added hnotManifest (List.forall_mem_nil _) hmanifest
          have hnames : ∀ f ∈ [] ++ [(manifestFile, c.manifestText yaml)], f.1 ≠ installRecord := by
            intro f hf
            cases List.mem_singleton.mp hf
            exact manifestFile_ne
          refine ⟨yaml, hyaml, ?_⟩
          rw [hrecorded] at h
          exact hown.own_added hnotRecord hnames h

/-! ### The commit -/

/-- The name that the old version is moved to. -/
def backupName (w : World) (id : String) : String := ".old-" ++ id ++ "-" ++ w.backupId

/-- The places of a plugin, of its staging directory and of its backup. -/
def targetPlace (dir : PluginDir) (id : String) : Place := dir.place ++ [id]

def stagingPlace (w : World) (dir : PluginDir) (id : String) : Place :=
  dir.place ++ [LoadedCatalog.stagingName w id]

def oldPlace (w : World) (dir : PluginDir) (id : String) : Place := dir.place ++ [backupName w id]

/-- The three names differ. -/
structure Distinct (w : World) (id : String) : Prop where
  staging : LoadedCatalog.stagingName w id ≠ id
  backup : backupName w id ≠ id
  both : LoadedCatalog.stagingName w id ≠ backupName w id

theorem backupPlace_eq (id : String) : LoadedCatalog.backupPlace w (targetPlace dir id) = oldPlace w dir id := by
  rw [LoadedCatalog.backupPlace, targetPlace, List.dropLast_concat, List.getLast?_concat]
  rfl

section
variable {id : String} {names : List String}

/-- Whatever fails, only the three places are touched. -/
theorem commit_beside {q : Place} (hstaging : ¬ stagingPlace w dir id <+: q) (htarget : ¬ targetPlace dir id <+: q)
    (hold : ¬ oldPlace w dir id <+: q) :
    (LoadedCatalog.commit w dir (stagingPlace w dir id) (targetPlace dir id) id d).2.tree.node q = d.tree.node q := by
  have hrename : ∀ {d d' : Disk} {src dst : Place} {r : Except String Unit}, d.rename src dst = (r, d') →
      ¬ src <+: q → ¬ dst <+: q → d'.tree.node q = d.tree.node q := by
    intro d d' src dst r h hsrc hdst
    cases r with
    | error text => rw [Disk.rename_error h]
    | ok => exact (DirTree.rename_ok (Disk.call_ok h).1).2.2.2 q hdst hsrc
  unfold LoadedCatalog.commit
  rw [backupPlace_eq]
  split_ifs
  · dsimp only
    rcases haway : d.rename (targetPlace dir id) (oldPlace w dir id) with ⟨text | ⟨⟩, d₁⟩
    · exact hrename haway htarget hold
    · dsimp only
      rcases hin : d₁.rename (stagingPlace w dir id) (targetPlace dir id) with ⟨text | ⟨⟩, d₂⟩
      · have hback := hrename (r := (d₂.rename (oldPlace w dir id) (targetPlace dir id)).1) rfl hold htarget
        exact hback.trans ((hrename hin hstaging htarget).trans (hrename haway htarget hold))
      · exact (Disk.removeDirAll_only d₂ (oldPlace w dir id) q hold).trans
          ((hrename hin hstaging htarget).trans (hrename haway htarget hold))
  · rcases hin : d.rename (stagingPlace w dir id) (targetPlace dir id) with ⟨text | ⟨⟩, d₂⟩
    · exact hrename hin hstaging htarget
    · exact hrename hin hstaging htarget

/-- A commit that fails in one step leaves the tree as it was. -/
theorem commit_error (hfree : d.tree.node (oldPlace w dir id) = none)
    (h : LoadedCatalog.commit w dir (stagingPlace w dir id) (targetPlace dir id) id d = (.error f, d')) :
    d.failed + 1 ≤ d'.failed ∧ (d'.failed ≤ d.failed + 1 → ∀ q, d'.tree.node q = d.tree.node q) := by
  unfold LoadedCatalog.commit at h
  rw [backupPlace_eq] at h
  split_ifs at h
  · dsimp only at h
    rcases haway : d.rename (targetPlace dir id) (oldPlace w dir id) with ⟨text | ⟨⟩, d₁⟩ <;> rw [haway] at h
    · cases h
      refine ⟨(Disk.call_error haway).2.ge, fun _ q => ?_⟩
      rw [Disk.rename_error haway]
    · dsimp only at h
      rcases hin : d₁.rename (stagingPlace w dir id) (targetPlace dir id) with ⟨text | ⟨⟩, d₂⟩ <;> rw [hin] at h
      · have hcount : d₂.failed = d.failed + 1 := (Disk.call_error hin).2.trans (congrArg (· + 1) (Disk.call_ok haway).2)
        obtain ⟨-, hmoved, hgone, hsame⟩ := DirTree.rename_ok (Disk.call_ok haway).1
        dsimp only at h
        rcases hback : d₂.rename (oldPlace w dir id) (targetPlace dir id) with ⟨text | ⟨⟩, d₃⟩ <;> rw [hback] at h <;>
          obtain rfl : d₃ = d' := (Prod.mk.inj h).2
        · have hagain := (Disk.call_error hback).2
          exact ⟨by omega, fun hone => absurd hone (by omega)⟩
        · have hagain := (Disk.call_ok hback).2
          refine ⟨by omega, fun _ q => ?_⟩
          obtain ⟨-, hrestored, hcleared, hrest⟩ := DirTree.rename_ok (Disk.call_ok hback).1
          rw [Disk.rename_error hin] at hrestored hrest
          by_cases htarget : targetPlace dir id <+: q
          · obtain ⟨path, rfl⟩ := htarget
            rw [hrestored, hmoved]
          · by_cases hold : oldPlace w dir id <+: q
            · rw [hcleared q htarget hold, DirTree.node_of_free hold hfree]
            · rw [hrest q htarget hold, hsame q hold htarget]
      · cases h
  · rcases hin : d.rename (stagingPlace w dir id) (targetPlace dir id) with ⟨text | ⟨⟩, d₂⟩ <;> rw [hin] at h <;>
      cases h
    refine ⟨(Disk.call_error hin).2.ge, fun _ q => ?_⟩
    rw [Disk.rename_error hin]

/-- A commit that succeeds has moved the staging directory in; only the removal of the backup may have failed. -/
theorem commit_ok (hnames : Distinct w id) (hfree : d.tree.node (oldPlace w dir id) = none)
    (h : LoadedCatalog.commit w dir (stagingPlace w dir id) (targetPlace dir id) id d = (.ok (), d')) :
    (∀ path, d'.tree.node (targetPlace dir id ++ path) = d.tree.node (stagingPlace w dir id ++ path)) ∧
      (∀ path, d'.tree.node (stagingPlace w dir id ++ path) = none) ∧
      d.failed ≤ d'.failed ∧ (d'.failed = d.failed → ∀ path, d'.tree.node (oldPlace w dir id ++ path) = none) := by
  have hapart : ∀ {a b : String} (path : Place), a ≠ b → ¬ dir.place ++ [b] <+: dir.place ++ [a] ++ path :=
    fun path hne => not_prefix_sibling hne (List.prefix_append _ path)
  unfold LoadedCatalog.commit at h
  rw [backupPlace_eq] at h
  split_ifs at h with htarget
  · dsimp only at h
    rcases haway : d.rename (targetPlace dir id) (oldPlace w dir id) with ⟨text | ⟨⟩, d₁⟩ <;> rw [haway] at h
    · cases h
    · dsimp only at h
      rcases hin : d₁.rename (stagingPlace w dir id) (targetPlace dir id) with ⟨text | ⟨⟩, d₂⟩ <;> rw [hin] at h
      · cases h
      · obtain ⟨-, -, -, hsame⟩ := DirTree.rename_ok (Disk.call_ok haway).1
        obtain ⟨-, hmoved, hgone, -⟩ := DirTree.rename_ok (Disk.call_ok hin).1
        have hcount : d₂.failed = d.failed := (Disk.call_ok hin).2.trans (Disk.call_ok haway).2
        have hremoved := Disk.removeDirAll_only d₂ (oldPlace w dir id)
        dsimp only at h
        rcases hremove : d₂.removeDirAll (oldPlace w dir id) with ⟨r, d₃⟩
        rw [hremove] at h hremoved
        obtain rfl : d₃ = d' := (Prod.mk.inj h).2
        refine ⟨fun path => ?_, fun path => ?_, ?_, fun hnone path => ?_⟩
        · exact (hremoved _ (hapart path hnames.backup.symm)).trans ((hmoved path).trans
            (hsame _ (hapart path hnames.both) (hapart path hnames.staging)))
        · exact (hremoved _ (hapart path hnames.both)).trans
            (hgone _ (hapart path hnames.staging) (List.prefix_append _ path))
        · cases r with
          | error text => exact hcount.ge.trans (by rw [(Disk.call_error hremove).2]; exact Nat.le_succ _)
          | ok => exact hcount.ge.trans (Disk.call_ok hremove).2.ge
        · cases r with
          | error text =>
            have hagain := (Disk.call_error hremove).2
            omega
          | ok =>
            rw [DirTree.removeDirAll_ok (Disk.call_ok hremove).1, if_pos (List.prefix_append _ path)]
  · rcases hin : d.rename (stagingPlace w dir id) (targetPlace dir id) with ⟨text | ⟨⟩, d₂⟩ <;> rw [hin] at h <;>
      cases h
    obtain ⟨-, hmoved, hgone, hsame⟩ := DirTree.rename_ok (Disk.call_ok hin).1
    refine ⟨hmoved, fun path => hgone _ (hapart path hnames.staging) (List.prefix_append _ path),
      (Disk.call_ok hin).2.ge, fun _ path => ?_⟩
    exact (hsame _ (hapart path hnames.backup) (hapart path hnames.both.symm)).trans
      (DirTree.node_of_free (List.prefix_append _ path) hfree)

/-! ### From the staging directory on -/

/-- The names of the three places, once the id was checked. -/
structure Placed (w : World) (dir : PluginDir) (id : String) : Prop where
  target : dir.join id = targetPlace dir id
  staging : dir.join (LoadedCatalog.stagingName w id) = stagingPlace w dir id
  distinct : Distinct w id

theorem removed_of_only {S : Place} {t₀ : DirTree} (hfree : t₀.node S = none) (honly : Only S t₀ d.tree)
    (h : d.removeDirAll S = (.ok (), d')) (q : Place) : d'.tree.node q = t₀.node q := by
  rw [DirTree.removeDirAll_ok (Disk.call_ok h).1]
  split_ifs with hq
  · exact (DirTree.node_of_free hq hfree).symm
  · exact honly q hq

/-- Where one step failed, the removal that follows did not. -/
theorem removeDirAll_last {S : Place} {n : ℕ} (hfailed : n + 1 ≤ d.failed) (hone : (d.removeDirAll S).2.failed ≤ n + 1) :
    d.failed ≤ n + 1 ∧ d.removeDirAll S = (.ok (), (d.removeDirAll S).2) := by
  rcases h : d.removeDirAll S with ⟨text | ⟨⟩, d'⟩ <;> rw [h] at hone
  · have hcount := (Disk.call_error h).2
    dsimp only at hone
    omega
  · have hcount := (Disk.call_ok h).2
    dsimp only at hone
    exact ⟨by omega, rfl⟩

variable {plugin : CatalogPlugin} {v : CatalogVersion}

theorem replace_beside (hplaced : Placed w dir id) {q : Place} (hstaging : ¬ stagingPlace w dir id <+: q)
    (htarget : ¬ targetPlace dir id <+: q) (hold : ¬ oldPlace w dir id <+: q) :
    (c.replace w dir id o plugin v d).2.tree.node q = d.tree.node q := by
  unfold LoadedCatalog.replace
  dsimp only
  rw [hplaced.target, hplaced.staging]
  have hcreated := Disk.createDir_only d (stagingPlace w dir id)
  rcases hcreate : d.createDir (stagingPlace w dir id) with ⟨text | ⟨⟩, d₁⟩ <;> rw [hcreate] at hcreated
  · exact hcreated q hstaging
  · dsimp only
    have hdir : d₁.tree.node (dir.join (LoadedCatalog.stagingName w id)) = some .dir := by
      rw [hplaced.staging]
      exact (DirTree.createDir_ok (Disk.call_ok hcreate).1).2.1
    have hkept := stage_kept (c := c) (w := w) (o := o) plugin v hdir
    have honly := hkept.only
    rw [hplaced.staging] at honly
    rcases hstage : c.stage w dir (LoadedCatalog.stagingName w id) o plugin v d₁ with ⟨f | ⟨⟩, d₂⟩ <;>
      rw [hstage] at honly
    · exact (Disk.removeDirAll_only d₂ _ q hstaging).trans ((honly q hstaging).trans (hcreated q hstaging))
    · dsimp only
      have hcommit := commit_beside (d := d₂) hstaging htarget hold
      rcases hcommitted : LoadedCatalog.commit w dir (stagingPlace w dir id) (targetPlace dir id) id d₂
        with ⟨f | ⟨⟩, d₃⟩ <;> rw [hcommitted] at hcommit
      · exact (Disk.removeDirAll_only d₃ _ q hstaging).trans
          (hcommit.trans ((honly q hstaging).trans (hcreated q hstaging)))
      · exact hcommit.trans ((honly q hstaging).trans (hcreated q hstaging))

theorem replace_error (hplaced : Placed w dir id) (hstaging : d.tree.node (stagingPlace w dir id) = none)
    (hold : d.tree.node (oldPlace w dir id) = none) (h : c.replace w dir id o plugin v d = (.error f, d'))
    (hone : d'.failed ≤ d.failed + 1) (q : Place) : d'.tree.node q = d.tree.node q := by
  unfold LoadedCatalog.replace at h
  dsimp only at h
  rw [hplaced.target, hplaced.staging] at h
  have hcreated := Disk.createDir_only d (stagingPlace w dir id)
  rcases hcreate : d.createDir (stagingPlace w dir id) with ⟨text | ⟨⟩, d₁⟩ <;> rw [hcreate] at hcreated h
  · cases h
    rw [Disk.createDir_error hcreate]
  · dsimp only at h
    have hcount := (Disk.call_ok hcreate).2
    have hdir : d₁.tree.node (dir.join (LoadedCatalog.stagingName w id)) = some .dir := by
      rw [hplaced.staging]
      exact (DirTree.createDir_ok (Disk.call_ok hcreate).1).2.1
    have hkept := stage_kept (c := c) (w := w) (o := o) plugin v hdir
    have honly := hkept.only
    rw [hplaced.staging] at honly
    rcases hstage : c.stage w dir (LoadedCatalog.stagingName w id) o plugin v d₁ with ⟨f | ⟨⟩, d₂⟩ <;>
      rw [hstage] at h hkept honly
    · obtain rfl : (d₂.removeDirAll (stagingPlace w dir id)).2 = d' := (Prod.mk.inj h).2
      have hfailed : d₂.failed = d.failed + 1 := (hkept.error f rfl).trans (congrArg (· + 1) hcount)
      obtain ⟨-, hremoved⟩ := removeDirAll_last hfailed.ge hone
      exact removed_of_only hstaging (hcreated.trans honly) hremoved q
    · dsimp only at h
      have hfailed : d₂.failed = d.failed := (hkept.ok () rfl).trans hcount
      have hold₂ : d₂.tree.node (oldPlace w dir id) = none := by
        have hapart : ¬ stagingPlace w dir id <+: oldPlace w dir id :=
          not_prefix_sibling hplaced.distinct.both.symm List.prefix_rfl
        rw [honly _ hapart, hcreated _ hapart, hold]
      rcases hcommitted : LoadedCatalog.commit w dir (stagingPlace w dir id) (targetPlace dir id) id d₂
        with ⟨f | ⟨⟩, d₃⟩ <;> rw [hcommitted] at h
      · obtain rfl : (d₃.removeDirAll (stagingPlace w dir id)).2 = d' := (Prod.mk.inj h).2
        obtain ⟨hleast, hsame⟩ := commit_error hold₂ hcommitted
        rw [hfailed] at hleast hsame
        obtain ⟨hmost, hremoved⟩ := removeDirAll_last hleast hone
        have honly₃ : Only (stagingPlace w dir id) d₂.tree d₃.tree := fun q _ => hsame hmost q
        exact removed_of_only hstaging ((hcreated.trans honly).trans honly₃) hremoved q
      · cases h

theorem replace_ok (hplaced : Placed w dir id) (hvalid : v.validate plugin = .ok ())
    (hold : d.tree.node (oldPlace w dir id) = none) (h : c.replace w dir id o plugin v d = (.ok (), d')) :
    (∃ yaml, w.toYaml (v.manifest plugin) = .ok yaml ∧
      Holds w v.files [(manifestFile, c.manifestText yaml), (installRecord, w.recordJson (c.recordOf w v))]
        fun path => d'.tree.node (targetPlace dir id ++ path)) ∧
      (∀ path, d'.tree.node (stagingPlace w dir id ++ path) = none) ∧ d.failed ≤ d'.failed ∧
      (d'.failed = d.failed → ∀ path, d'.tree.node (oldPlace w dir id ++ path) = none) := by
  unfold LoadedCatalog.replace at h
  dsimp only at h
  rw [hplaced.target, hplaced.staging] at h
  have hcreated := Disk.createDir_only d (stagingPlace w dir id)
  rcases hcreate : d.createDir (stagingPlace w dir id) with ⟨text | ⟨⟩, d₁⟩ <;> rw [hcreate] at hcreated h
  · cases h
  · dsimp only at h
    have hcount := (Disk.call_ok hcreate).2
    obtain ⟨hfree, hmade, hrest⟩ := DirTree.createDir_ok (Disk.call_ok hcreate).1
    have hdir : d₁.tree.node (dir.join (LoadedCatalog.stagingName w id)) = some .dir := by
      rw [hplaced.staging]
      exact hmade
    have hempty : ∀ path, path ≠ [] → d₁.tree.node (dir.join (LoadedCatalog.stagingName w id) ++ path) = none := by
      intro path hpath
      rw [hplaced.staging]
      have hne : stagingPlace w dir id ++ path ≠ stagingPlace w dir id := fun heq =>
        hpath (List.append_cancel_left (heq.trans (List.append_nil _).symm))
      exact (hrest _ hne).trans (DirTree.node_of_free (List.prefix_append _ path) hfree)
    have hkept := stage_kept (c := c) (w := w) (o := o) plugin v hdir
    have honly := hkept.only
    rw [hplaced.staging] at honly
    rcases hstage : c.stage w dir (LoadedCatalog.stagingName w id) o plugin v d₁ with ⟨f | ⟨⟩, d₂⟩ <;>
      rw [hstage] at h hkept honly
    · cases h
    · dsimp only at h
      obtain ⟨yaml, hyaml, hholds⟩ := stage_holds hvalid hdir hempty hstage
      rw [hplaced.staging] at hholds
      have hfailed : d₂.failed = d.failed := (hkept.ok () rfl).trans hcount
      have hold₂ : d₂.tree.node (oldPlace w dir id) = none := by
        have hapart : ¬ stagingPlace w dir id <+: oldPlace w dir id :=
          not_prefix_sibling hplaced.distinct.both.symm List.prefix_rfl
        rw [honly _ hapart, hcreated _ hapart, hold]
      rcases hcommitted : LoadedCatalog.commit w dir (stagingPlace w dir id) (targetPlace dir id) id d₂
        with ⟨f | ⟨⟩, d₃⟩ <;> rw [hcommitted] at h
      · cases h
      · cases h
        obtain ⟨hmoved, hgone, hcounted, hcleared⟩ := commit_ok hplaced.distinct hold₂ hcommitted
        refine ⟨⟨yaml, hyaml, ?_⟩, hgone, hfailed ▸ hcounted, fun hnone => hcleared (hnone.trans hfailed.symm)⟩
        simp only [hmoved]
        exact hholds

/-! ### The installation -/

theorem stagingName_toList (id : String) : (LoadedCatalog.stagingName w id).toList =
    '.' :: 'i' :: ("nstall-".toList ++ id.toList ++ "-".toList ++ w.stagingId.toList) := by
  simp only [LoadedCatalog.stagingName, String.toList_append]
  rfl

theorem backupName_toList (id : String) : (backupName w id).toList =
    '.' :: 'o' :: ("ld-".toList ++ id.toList ++ "-".toList ++ w.backupId.toList) := by
  simp only [backupName, String.toList_append]
  rfl

theorem placed_of_valid (hid : validPluginId id = true) (hsimple : '/' ∉ w.stagingId.toList) : Placed w dir id := by
  obtain ⟨hname, hshown⟩ := validPluginId_name hid
  have hstaging : Path.IsName (LoadedCatalog.stagingName w id) := by
    refine ⟨?_, ?_, ?_, ?_⟩ <;> rw [stagingName_toList]
    · simp only [List.mem_cons, List.mem_append, not_or]
      exact ⟨by decide, by decide, ⟨⟨by decide, hname.slash⟩, by decide⟩, hsimple⟩
    · exact List.cons_ne_nil _ _
    · exact fun heq => List.cons_ne_nil _ _ (List.cons.inj heq).2
    · exact fun heq => absurd (List.cons.inj (List.cons.inj heq).2).1 (by decide)
  refine ⟨Path.place_join_name hname _ _, Path.place_join_name hstaging _ _, fun heq => ?_, fun heq => ?_, fun heq => ?_⟩
  · rw [← heq, stagingName_toList] at hshown
    exact hshown rfl
  · rw [← heq, backupName_toList] at hshown
    exact hshown rfl
  · have hlist := congrArg String.toList heq
    rw [stagingName_toList, backupName_toList] at hlist
    exact absurd (List.cons.inj (List.cons.inj hlist).2).1 (by decide)

/-- `Uuid::new_v4().simple()`: no name in the plugin directory has the two texts yet, and they are one name. -/
structure Fresh (w : World) (dir : PluginDir) (id : String) (t : DirTree) : Prop where
  simple : '/' ∉ w.stagingId.toList
  staging : t.node (stagingPlace w dir id) = none
  backup : t.node (oldPlace w dir id) = none

/-- A place is as it was, but for the missing directories on the way to the plugin directory. -/
def Unchanged (dir : PluginDir) (t t' : DirTree) (q : Place) : Prop :=
  t'.node q = t.node q ∨ q <+: dir.place ∧ t.node q = none ∧ t'.node q = some .dir

/-- An installation with at most one failed step either did not happen or is complete. -/
structure Atomic (c : LoadedCatalog) (w : World) (dir : PluginDir) (id : String) (t : DirTree)
    (out : Except Failure InstallOutcome × Disk) : Prop where
  confined : ∀ q, ¬ targetPlace dir id <+: q → ¬ stagingPlace w dir id <+: q → ¬ oldPlace w dir id <+: q →
    Unchanged dir t out.2.tree q
  failed : ∀ f, out.1 = .error f → out.2.failed ≤ 1 → ∀ q, Unchanged dir t out.2.tree q
  installed : ∀ outcome, out.1 = .ok outcome → ∃ plugin v yaml, c.catalog.plugin id = some plugin ∧
    v ∈ plugin.versions ∧ outcome.version = v.version ∧ w.toYaml (v.manifest plugin) = .ok yaml ∧
    Holds w v.files [(manifestFile, c.manifestText yaml), (installRecord, w.recordJson (c.recordOf w v))]
      fun path => out.2.tree.node (targetPlace dir id ++ path)
  staged : ∀ outcome, out.1 = .ok outcome → ∀ path, out.2.tree.node (stagingPlace w dir id ++ path) = none
  cleared : ∀ outcome, out.1 = .ok outcome → out.2.failed = 0 →
    ∀ path, out.2.tree.node (oldPlace w dir id ++ path) = none

theorem Atomic.refused {t : DirTree} {faults : List (Option Fault)} (f : Failure) :
    Atomic c w dir id t (.error f, ⟨t, faults, 0⟩) where
  confined _ _ _ _ := .inl rfl
  failed _ _ _ _ := .inl rfl
  installed outcome h := by cases h
  staged outcome h := by cases h
  cleared outcome h := by cases h

theorem select_mem {wanted : Option String} (h : LoadedCatalog.select plugin id wanted = .ok v) : v ∈ plugin.versions := by
  unfold LoadedCatalog.select at h
  split at h
  · split at h
    next hfound =>
      cases h
      exact CatalogPlugin.version_mem hfound
    · cases h
  · split at h
    next hfound =>
      cases h
      exact CatalogPlugin.latest_mem hfound
    · cases h

end

theorem install_atomic (c : LoadedCatalog) (w : World) (dir : PluginDir) (request : String) (o : InstallOptions)
    (t : DirTree) (faults : List (Option Fault)) (hfresh : Fresh w dir (LoadedCatalog.splitRequest request).1 t) :
    Atomic c w dir (LoadedCatalog.splitRequest request).1 t (c.install w dir request o ⟨t, faults, 0⟩) := by
  unfold LoadedCatalog.install
  generalize LoadedCatalog.splitRequest request = parts at hfresh ⊢
  obtain ⟨id, wanted⟩ := parts
  dsimp only at hfresh ⊢
  split
  · exact .refused _
  next plugin hplugin =>
    split
    · exact .refused _
    next v hselect =>
      split_ifs
      · exact .refused _
      · exact .refused _
      · obtain ⟨rfl, hchecked⟩ := Catalog.plugin_checked c.valid hplugin
        have hplaced : Placed w dir plugin.id := placed_of_valid hchecked.id hfresh.simple
        have hvalid := hchecked.each v (select_mem hselect)
        have hmember := select_mem hselect
        have hway : ∀ {r d₁}, (Disk.mk t faults 0).createDirAll dir.place = (r, d₁) → ∀ q, Unchanged dir t d₁.tree q := by
          intro r d₁ h q
          have hkeeps : ∀ {depth t'}, t.createDirAll dir.place depth = .ok t' → Unchanged dir t t' q :=
            fun h => DirTree.createDirAll_node h q
          cases r with
          | error text =>
            obtain ⟨hsame | ⟨fault, hfault⟩, -⟩ := Disk.call_error h
            · exact .inl (congrArg (DirTree.node · q) hsame)
            · exact hkeeps hfault
          | ok => exact hkeeps (Disk.call_ok h).1
        have hbelow : ∀ {r d₁} (name : String), (Disk.mk t faults 0).createDirAll dir.place = (r, d₁) →
            d₁.tree.node (dir.place ++ [name]) = t.node (dir.place ++ [name]) := by
          intro r d₁ name h
          rcases hway h (dir.place ++ [name]) with hsame | ⟨habove, -, -⟩
          · exact hsame
          · have hlength := habove.length_le
            rw [List.length_append, List.length_singleton] at hlength
            omega
        rcases hcreate : (Disk.mk t faults 0).createDirAll dir.place with ⟨text | ⟨⟩, d₁⟩
        · refine ⟨fun q _ _ _ => hway hcreate q, fun _ _ _ q => hway hcreate q, ?_, ?_, ?_⟩ <;>
            intro outcome h <;> cases h
        · have hcount : d₁.failed = 0 := (Disk.call_ok hcreate).2
          have hstaging : d₁.tree.node (stagingPlace w dir plugin.id) = none :=
            (hbelow _ hcreate).trans hfresh.staging
          have hold : d₁.tree.node (oldPlace w dir plugin.id) = none := (hbelow _ hcreate).trans hfresh.backup
          have hthrough : ∀ {t' : DirTree} {q : Place}, t'.node q = d₁.tree.node q → Unchanged dir t t' q := by
            intro t' q hsame
            rw [Unchanged, hsame]
            exact hway hcreate q
          dsimp only
          have hbeside : ∀ q, ¬ targetPlace dir plugin.id <+: q → ¬ stagingPlace w dir plugin.id <+: q →
              ¬ oldPlace w dir plugin.id <+: q →
              Unchanged dir t (c.replace w dir plugin.id o plugin v d₁).2.tree q :=
            fun q htarget hstage hback => hthrough (replace_beside hplaced hstage htarget hback)
          rcases hreplace : c.replace w dir plugin.id o plugin v d₁ with ⟨f | ⟨⟩, d₂⟩ <;> rw [hreplace] at hbeside
          · refine ⟨hbeside, fun _ _ hone q => hthrough (replace_error hplaced hstaging hold hreplace ?_ q), ?_, ?_, ?_⟩
            · rw [hcount]
              exact hone
            all_goals
              intro outcome h
              cases h
          · obtain ⟨⟨yaml, hyaml, hholds⟩, hgone, -, hcleared⟩ := replace_ok hplaced hvalid hold hreplace
            refine ⟨hbeside, ?_, ?_, fun _ _ => hgone, fun _ _ hnone => hcleared (hnone.trans hcount.symm)⟩
            · intro f h
              cases h
            · intro outcome h
              cases h
              exact ⟨plugin, v, yaml, hplugin, hmember, rfl, hyaml, hholds⟩

/-! ### What the checks rule out -/

def Failure.isPanic : Failure → Bool
  | .error _ => false
  | .panic _ => true

section
variable {id : String} {plugin : CatalogPlugin} {v : CatalogVersion}

theorem writeFile_failure {name : String} {executable : Bool} {relative : Place} {content : Lib.Bytes}
    (h : (LoadedCatalog.writeFile dir name executable relative content d).1 = .error f) : f.isPanic = false := by
  unfold LoadedCatalog.writeFile at h
  dsimp only at h
  split at h
  · cases h
    rfl
  · split at h
    · cases h
      rfl
    · split_ifs at h
      split at h <;> cases h
      rfl

theorem stageFiles_failure {name : String} {files : List CatalogFile} {recorded : List RecordedFile}
    (hsafe : ∀ file ∈ files, safeRelativePath file.path ≠ none)
    (h : (LoadedCatalog.stageFiles w dir name files recorded d).1 = .error f) : f.isPanic = false := by
  induction files generalizing recorded d with
  | nil => cases h
  | cons file files ih =>
    rw [List.forall_mem_cons] at hsafe
    unfold LoadedCatalog.stageFiles at h
    split at h
    next hnone => exact absurd hnone hsafe.1
    · split at h
      · cases h
        rfl
      · split at h
        · cases h
          rfl
        next content _ =>
          dsimp only at h
          split_ifs at h
          · cases h
            rfl
          · rcases hwrite : LoadedCatalog.writeFile dir name file.executable _ content d with ⟨g | ⟨⟩, d₁⟩ <;>
              rw [hwrite] at h
            · cases h
              exact writeFile_failure (congrArg Prod.fst hwrite)
            · exact ih hsafe.2 h

theorem writeOwn_failure {name file : String} {content : Lib.Bytes}
    (h : (LoadedCatalog.writeOwn dir name file content d).1 = .error f) : f.isPanic = false := by
  unfold LoadedCatalog.writeOwn at h
  split at h <;> cases h
  rfl

theorem pullStep_failure (h : (LoadedCatalog.pullStep w o v d).1 = .error f) : f.isPanic = false := by
  unfold LoadedCatalog.pullStep at h
  split at h
  · unfold World.pullImage at h
    split at h <;> cases h <;> rfl
  · cases h

theorem stage_failure {name : String} (hvalid : v.validate plugin = .ok ())
    (h : (c.stage w dir name o plugin v d).1 = .error f) : f.isPanic = false := by
  obtain ⟨parts, hparts, -⟩ := CatalogVersion.validate_ok hvalid
  have hsafe : ∀ file ∈ v.files, safeRelativePath file.path ≠ none := by
    intro file hfile hnone
    have hmem : safeRelativePath file.path ∈ parts.map some := hparts ▸ List.mem_map_of_mem hfile
    rw [hnone] at hmem
    obtain ⟨_, -, hsome⟩ := List.mem_map.mp hmem
    cases hsome
  unfold LoadedCatalog.stage at h
  rcases hstaged : LoadedCatalog.stageFiles w dir name v.files [] d with ⟨g | recorded, d₁⟩ <;> rw [hstaged] at h
  · cases h
    exact stageFiles_failure hsafe (congrArg Prod.fst hstaged)
  · dsimp only at h
    rcases hpulled : LoadedCatalog.pullStep w o v d₁ with ⟨g | ⟨⟩, d₂⟩ <;> rw [hpulled] at h
    · cases h
      exact pullStep_failure (congrArg Prod.fst hpulled)
    · dsimp only at h
      split at h
      · cases h
        rfl
      next yaml _ =>
        rcases hmanifest : LoadedCatalog.writeOwn dir name manifestFile (c.manifestText yaml) d₂ with ⟨g | ⟨⟩, d₃⟩ <;>
          rw [hmanifest] at h
        · cases h
          exact writeOwn_failure (congrArg Prod.fst hmanifest)
        · exact writeOwn_failure h

theorem commit_failure {staging target : Place} (h : (LoadedCatalog.commit w dir staging target id d).1 = .error f) :
    f.isPanic = false := by
  unfold LoadedCatalog.commit at h
  split_ifs at h
  · dsimp only at h
    split at h
    · cases h
      rfl
    · split at h <;> cases h
      rfl
  · split at h <;> cases h
    rfl

theorem replace_failure (hvalid : v.validate plugin = .ok ())
    (h : (c.replace w dir id o plugin v d).1 = .error f) : f.isPanic = false := by
  unfold LoadedCatalog.replace at h
  dsimp only at h
  split at h
  · cases h
    rfl
  next d₁ _ =>
    rcases hstage : c.stage w dir (LoadedCatalog.stagingName w id) o plugin v d₁ with ⟨g | ⟨⟩, d₂⟩ <;> rw [hstage] at h
    · cases h
      exact stage_failure hvalid (congrArg Prod.fst hstage)
    · dsimp only at h
      rcases hcommit : LoadedCatalog.commit w dir (dir.join (LoadedCatalog.stagingName w id)) (dir.join id) id d₂
        with ⟨g | ⟨⟩, d₃⟩ <;> rw [hcommit] at h <;> cases h
      exact commit_failure (congrArg Prod.fst hcommit)

/-- What was checked when the catalog was loaded keeps both `expect`s of the installation. -/
theorem install_no_panic (c : LoadedCatalog) (w : World) (dir : PluginDir) (request : String) (o : InstallOptions)
    (d : Disk) (f : Failure) (h : (c.install w dir request o d).1 = .error f) : f.isPanic = false := by
  unfold LoadedCatalog.install at h
  generalize LoadedCatalog.splitRequest request = parts at h
  obtain ⟨id, wanted⟩ := parts
  dsimp only at h
  split at h
  · cases h
    rfl
  next plugin hplugin =>
    obtain ⟨-, hchecked⟩ := Catalog.plugin_checked c.valid hplugin
    split at h
    next g hselect =>
      cases h
      unfold LoadedCatalog.select at hselect
      split at hselect
      · split at hselect <;> cases hselect
        rfl
      · split at hselect
        · cases hselect
        next hnone =>
          unfold CatalogPlugin.latest at hnone
          split at hnone
          next hversions => exact absurd hversions hchecked.versions
          · cases hnone
    next v hselect =>
      split_ifs at h
      · cases h
        rfl
      · cases h
        rfl
      · split at h
        · cases h
          rfl
        next d₁ _ =>
          rcases hreplace : c.replace w dir id o plugin v d₁ with ⟨g | ⟨⟩, d₂⟩ <;> rw [hreplace] at h <;> cases h
          exact replace_failure (hchecked.each v (select_mem hselect)) (congrArg Prod.fst hreplace)

end

/-! ### Two runs -/

def scriptDigest : String := "b2fcd46b1ed14da96a9a17e30d4d6bbb4d42a632f586d496947a7c5ba012a21f"

/-- `print('hola')` with its line end. -/
def script : Lib.Bytes := [112, 114, 105, 110, 116, 40, 39, 104, 111, 108, 97, 39, 41, 10]

def demoPlugin : CatalogPlugin where
  id := "demo"
  description := ""
  versions := [⟨"0.1.0", 1, some "python3", ["main.py"], [⟨"main.py", "main.py", scriptDigest, false⟩], none⟩]

theorem demoPlugin_valid : (Catalog.mk 1 [demoPlugin]).validate = .ok () := rfl

def demoCatalog : LoadedCatalog := ⟨"catalog/plugins.json", ⟨1, [demoPlugin]⟩, demoPlugin_valid⟩

def demoWorld (stagingId backupId : String) : World where
  join _ := .ok ⟨"catalog/main.py", .ok script⟩
  sha256 _ := scriptDigest
  pull _ _ := .ok none
  toYaml _ := .ok "id: demo\nversion: 0.1.0\ncommand: python3\nargs:\n- main.py\n"
  fromYaml _ := none
  recordJson _ := utf8 ("\x7b\n  \"catalog\": \"catalog/plugins.json\",\n  \"version\": \"0.1.0\",\n" ++
    "  \"installed_at\": \"2026-09-20T10:00:00+00:00\",\n  \"files\": [\n    \x7b\n      \"path\": \"main.py\",\n" ++
    "      \"sha256\": \"b2fcd46b1ed14da96a9a17e30d4d6bbb4d42a632f586d496947a7c5ba012a21f\"\n    \x7d\n  ]\n\x7d")
  stagingId := stagingId
  backupId := backupId
  now := "2026-09-20T10:00:00+00:00"

def demoOptions : InstallOptions := ⟨true, true, "docker"⟩

def demoDir : PluginDir := ⟨"plugins", []⟩

/-- Nothing but the root. -/
def bareTree : DirTree where
  node p := if p = [] then some .dir else none
  root := rfl
  parent p x h := by
    rw [if_neg (List.append_ne_nil_of_right_ne_nil p (List.cons_ne_nil x []))] at h
    cases h

def firstRun : Except Failure InstallOutcome × Disk :=
  demoCatalog.install (demoWorld "1a" "2b") demoDir "demo" demoOptions ⟨bareTree, [], 0⟩

/-- The last call, which removes the backup, fails before it has removed anything. -/
def secondRun : Except Failure InstallOutcome × Disk :=
  demoCatalog.install (demoWorld "3c" "4d") demoDir "demo" demoOptions
    ⟨firstRun.2.tree, List.replicate 8 none ++ [some ⟨"Device or resource busy (os error 16)", 0, none, fun _ => true⟩], 0⟩

theorem firstRun_fresh : Fresh (demoWorld "1a" "2b") demoDir "demo" bareTree := ⟨by decide, rfl, rfl⟩

theorem firstRun_request : (LoadedCatalog.splitRequest "demo").1 = "demo" := by decide

/-- No room for the first file. -/
def fullDisk : Disk := ⟨bareTree, [none, none, some ⟨"No space left on device (os error 28)", 0, none, fun _ => true⟩], 0⟩

theorem install_no_panic_full_disk : ∃ f,
    (demoCatalog.install (demoWorld "1a" "2b") demoDir "demo" demoOptions fullDisk).1 = .error f ∧ f.isPanic = false :=
  ⟨_, rfl, install_no_panic demoCatalog (demoWorld "1a" "2b") demoDir "demo" demoOptions fullDisk _ rfl⟩

/-- The installation as a whole, with nothing left behind: what it would be without the record, with a plugin
directory that is there and with a backup that is always removed. -/
structure Exact (c : LoadedCatalog) (w : World) (dir : PluginDir) (id : String) (t : DirTree)
    (out : Except Failure InstallOutcome × Disk) : Prop where
  failed : out.2.failed = 1 → ∀ path, out.2.tree.node (targetPlace dir id ++ path) = t.node (targetPlace dir id ++ path) ∧
    out.2.tree.node (stagingPlace w dir id ++ path) = none ∧ out.2.tree.node (oldPlace w dir id ++ path) = none
  listed : ∀ outcome, out.1 = .ok outcome → ∀ path content executable,
    out.2.tree.node (targetPlace dir id ++ path) = some (.file content executable) → path = [manifestFile] ∨
      ∃ plugin, c.catalog.plugin id = some plugin ∧ ∃ v ∈ plugin.versions, v.version = outcome.version ∧
        ∃ file ∈ v.files, safeRelativePath file.path = some path
  confined : ∀ q, ¬ targetPlace dir id <+: q → ¬ stagingPlace w dir id <+: q → ¬ oldPlace w dir id <+: q →
    out.2.tree.node q = t.node q

theorem firstRun_record : ∃ outcome content, firstRun.1 = .ok outcome ∧ firstRun.2.failed = 0 ∧
    firstRun.2.tree.node ["plugins", "demo", installRecord] = some (.file content false) ∧
    bareTree.node ["plugins"] = none ∧ firstRun.2.tree.node ["plugins"] = some .dir :=
  ⟨_, _, rfl, rfl, rfl, rfl, rfl⟩

theorem secondRun_backup : ∃ outcome, secondRun.1 = .ok outcome ∧ secondRun.2.failed = 1 ∧
    secondRun.2.tree.node ["plugins", ".old-demo-4d"] = some .dir ∧
    secondRun.2.tree.node ["plugins", "demo"] = some .dir :=
  ⟨_, rfl, rfl, rfl, rfl⟩

theorem install_not_exact :
    Fresh (demoWorld "1a" "2b") demoDir "demo" bareTree ∧
      ¬ Exact demoCatalog (demoWorld "1a" "2b") demoDir "demo" bareTree firstRun ∧
      ¬ (∀ q, ¬ targetPlace demoDir "demo" <+: q → ¬ stagingPlace (demoWorld "1a" "2b") demoDir "demo" <+: q →
        ¬ oldPlace (demoWorld "1a" "2b") demoDir "demo" <+: q → firstRun.2.tree.node q = bareTree.node q) ∧
      Fresh (demoWorld "3c" "4d") demoDir "demo" firstRun.2.tree ∧
      ¬ Exact demoCatalog (demoWorld "3c" "4d") demoDir "demo" firstRun.2.tree secondRun := by
  obtain ⟨outcome, content, hfirst, -, hrecord, hbare, hmade⟩ := firstRun_record
  obtain ⟨-, -, hfailed, hbackup, -⟩ := secondRun_backup
  refine ⟨firstRun_fresh, fun h => ?_, fun h => ?_, ⟨by decide, rfl, rfl⟩, fun h => ?_⟩
  · rcases h.listed outcome hfirst [installRecord] content false hrecord with hmanifest | ⟨_, _, _, _, _, file, _, hsafe⟩
    · exact manifestFile_ne (List.cons.inj hmanifest).1.symm
    · exact (safeRelativePath_safe hsafe).shown installRecord (List.mem_singleton_self _) rfl
  · have hshort : ∀ name : String, ¬ demoDir.place ++ [name] <+: ["plugins"] := by
      intro name habove
      have hlength := habove.length_le
      rw [List.length_append, show demoDir.place.length = 1 from rfl] at hlength
      exact absurd hlength (by simp)
    have hsame := h ["plugins"] (hshort _) (hshort _) (hshort _)
    cases hmade.symm.trans (hsame.trans hbare)
  · cases hbackup.symm.trans (h.failed hfailed []).2.2

theorem install_atomic_demo : Fresh (demoWorld "1a" "2b") demoDir (LoadedCatalog.splitRequest "demo").1 bareTree ∧
    Atomic demoCatalog (demoWorld "1a" "2b") demoDir (LoadedCatalog.splitRequest "demo").1 bareTree firstRun :=
  have hfresh : Fresh (demoWorld "1a" "2b") demoDir (LoadedCatalog.splitRequest "demo").1 bareTree := by
    rw [firstRun_request]
    exact firstRun_fresh
  ⟨hfresh, install_atomic demoCatalog (demoWorld "1a" "2b") demoDir "demo" demoOptions bareTree [] hfresh⟩

end Jaiba.Plugin
