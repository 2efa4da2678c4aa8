import Jaiba.Lib.Paths

/-!
# System calls below a directory

Calls that make directories, files and links and write them, on paths that start at a
directory. A path that by its names does not leave that directory for a place beside it leads
to no such place either, while the links below it only name siblings.
-/

namespace Jaiba.Lib.Paths

/-! ### Calls -/

/-- Why a call fails. -/
inductive Errno where
  | notFound
  | fileExists
  | other (text : String)

/-- A new node in a directory. -/
def FileSystem.add (fs : FileSystem) (p : List String) (node : Node)
    (h : p ≠ [] ∧ fs.node p.dropLast = some .dir ∧ fs.node p = none) : FileSystem where
  node q := if q = p then some node else fs.node q
  root := by rw [if_neg h.1.symm, fs.root]
  parent q x hq := by
    by_cases hqx : q ++ [x] = p
    · have hqp : q = p.dropLast := by rw [← hqx, List.dropLast_concat]
      have hne : q ≠ p := fun heq => List.append_ne_nil_of_right_ne_nil q (List.cons_ne_nil x [])
        (by simpa using congrArg List.length (heq.trans hqx.symm))
      rw [if_neg hne, hqp, h.2.1]
    · rw [if_neg hqx] at hq
      have hdir := fs.parent q x hq
      have hne : q ≠ p := by
        rintro rfl
        rw [h.2.2] at hdir
        cases hdir
      rw [if_neg hne, hdir]
  links := fs.links

/-- The file system, the places that calls have made, written or given permissions so far, and what
the coming calls fail with, if not for a reason of their own. -/
structure Disk where
  fs : FileSystem
  touched : List (List String)
  faults : List (Option Errno)

namespace Disk

abbrev Outcome (α : Type) := Except Errno α × Disk

/-- A call, which may fail before it has done anything. -/
def call {α : Type} (d : Disk) (f : Disk → Outcome α) : Outcome α :=
  match d.faults with
  | some e :: faults => (.error e, { d with faults := faults })
  | _ :: faults => f { d with faults := faults }
  | [] => f d

/-- A new node, where nothing stands yet. -/
def make (d : Disk) (p : List String) (node : Node) : Outcome Unit :=
  if h : p ≠ [] ∧ d.fs.node p.dropLast = some .dir ∧ d.fs.node p = none then
    (.ok (), { d with fs := d.fs.add p node h, touched := d.touched ++ [p] })
  else (.error (if (d.fs.node p).isSome then .fileExists else .other "Not a directory"), d)

/-- The place of the last name of a path; links before it are followed. Any path that cannot be
followed counts as not found. -/
def entry (d : Disk) (here : List String) (path : List Component) : Except Errno (List String) :=
  match d.fs.walk false d.fs.links here path.dropLast with
  | none => .error .notFound
  | some p =>
    match path.getLast? with
    | some (.normal x) => .ok (p ++ [x])
    | _ => .error .fileExists

def makeAt (d : Disk) (here : List String) (path : List Component) (node : Node) : Outcome Unit :=
  d.call fun d =>
    match d.entry here path with
    | .error e => (.error e, d)
    | .ok p => d.make p node

/-- `mkdir`. -/
def mkdir (d : Disk) (here : List String) (path : List Component) : Outcome Unit := d.makeAt here path .dir

/-- `symlink`. -/
def symlink (d : Disk) (here : List String) (path : List Component) (target : String) : Outcome Unit :=
  d.makeAt here path (.link target)

/-- `Path::is_dir`: links are followed, and what cannot be found out is none. -/
def isDir (d : Disk) (here : List String) (path : List Component) : Bool :=
  (d.fs.walk false d.fs.links here path).any fun p => d.fs.node p = some .dir

/-- The file that is created or emptied. -/
def openFile (d : Disk) (here : List String) (path : List Component) : Outcome (List String) :=
  match d.fs.walk true d.fs.links here path with
  | none => (.error .notFound, d)
  | some p =>
    match d.fs.node p with
    | some .file => (.ok p, { d with touched := d.touched ++ [p] })
    | none =>
      match d.make p .file with
      | (.ok (), d) => (.ok p, d)
      | (.error e, d) => (.error e, d)
    | _ => (.error (.other "Is a directory"), d)

/-- `File::create`. -/
def createFile (d : Disk) (here : List String) (path : List Component) : Outcome (List String) :=
  d.call fun d => d.openFile here path

/-- `io::copy` into an open file; it may fail midway. -/
def write (d : Disk) (p : List String) : Outcome Unit :=
  { d with touched := d.touched ++ [p] }.call fun d => (.ok (), d)

/-- `chmod`. -/
def setPermissions (d : Disk) (here : List String) (path : List Component) : Outcome Unit :=
  d.call fun d =>
    match d.fs.walk false d.fs.links here path with
    | none => (.error .notFound, d)
    | some p => (.ok (), { d with touched := d.touched ++ [p] })

/-- `fs::create_dir_all`, on the components in reverse; the start of the paths has a parent. -/
def createDirAll (d : Disk) (here : List String) : List Component → Outcome Unit
  | [] =>
    match d.mkdir here [] with
    | (.ok (), d) => (.ok (), d)
    | (.error e, d) => if d.isDir here [] then (.ok (), d) else (.error e, d)
  | c :: parent =>
    match d.mkdir here (c :: parent).reverse with
    | (.ok (), d) => (.ok (), d)
    | (.error .notFound, d) =>
      match d.createDirAll here parent with
      | (.error e, d) => (.error e, d)
      | (.ok (), d) =>
        match d.mkdir here (c :: parent).reverse with
        | (.ok (), d) => (.ok (), d)
        | (.error e, d) => if d.isDir here (c :: parent).reverse then (.ok (), d) else (.error e, d)
    | (.error e, d) => if d.isDir here (c :: parent).reverse then (.ok (), d) else (.error e, d)

end Disk

/-! ### Places below a directory -/

/-- In the directory, or above it. -/
def InLine (dir p : List String) : Prop := dir <+: p ∨ p <+: dir

/-- By its names the path leads to no place beside the directory. -/
def Stays (dir : List String) : List String → List Component → Prop
  | here, [] => InLine dir here
  | here, .cur :: cs => Stays dir here cs
  | here, .parent :: cs => InLine dir here ∧ Stays dir here.dropLast cs
  | here, .normal x :: cs => InLine dir here ∧ Stays dir (here ++ [x]) cs

/-- The text of a link to another name of the directory it stands in. -/
def IsSibling (target : String) : Prop :=
  isAbsolute target = false ∧ ∃ y rest, components target = .normal y :: rest ∧ ∀ c ∈ rest, c = .cur

/-- The directory is there, and the links in it name siblings. -/
structure Guarded (dir : List String) (fs : FileSystem) : Prop where
  above : ∀ p, p <+: dir → fs.node p = some .dir
  sibling : ∀ p target, dir <+: p → fs.node p = some (.link target) → IsSibling target

section
variable {dir here p q : List String} {cs ds : List Component} {fs : FileSystem} {create : Bool} {k : ℕ}

theorem Stays.inLine (h : Stays dir here cs) : InLine dir here := by
  induction cs with
  | nil => exact h
  | cons c cs ih =>
    cases c with
    | cur => exact ih h
    | parent => exact h.1
    | normal x => exact h.1

theorem Stays.front (h : Stays dir here (cs ++ ds)) : Stays dir here cs := by
  induction cs generalizing here with
  | nil => exact h.inLine
  | cons c cs ih =>
    cases c with
    | cur => exact @ih here h
    | parent => exact ⟨h.1, ih h.2⟩
    | normal x => exact ⟨h.1, ih h.2⟩

/-- In the directory the names do not matter. -/
theorem Stays.rename {s : List String} {x y : String} (hin : dir <+: p) (h : Stays dir (p ++ [x] ++ s) cs) :
    Stays dir (p ++ [y] ++ s) cs := by
  have hline : ∀ s, InLine dir (p ++ [y] ++ s) := fun s =>
    .inl (hin.trans ((List.prefix_append p [y]).trans (List.prefix_append _ s)))
  induction cs generalizing s with
  | nil => exact hline s
  | cons c cs ih =>
    cases c with
    | cur => exact @ih s h
    | parent =>
      refine ⟨hline s, ?_⟩
      rcases List.eq_nil_or_concat s with rfl | ⟨s, z, rfl⟩
      · have hrest := h.2
        rw [List.append_nil, List.dropLast_concat] at hrest ⊢
        exact hrest
      · have hrest := h.2
        rw [List.concat_eq_append, ← List.append_assoc, List.dropLast_concat] at hrest ⊢
        exact ih hrest
    | normal z =>
      have hrest := h.2
      rw [List.append_assoc] at hrest
      refine ⟨hline s, ?_⟩
      rw [List.append_assoc]
      exact ih hrest

theorem Stays.curs {rest : List Component} (hrest : ∀ c ∈ rest, c = .cur) (h : Stays dir here cs) :
    Stays dir here (rest ++ cs) := by
  induction rest with
  | nil => exact h
  | cons c rest ih =>
    rw [hrest c List.mem_cons_self, List.cons_append]
    exact ih fun c hc => hrest c (List.mem_cons_of_mem _ hc)

/-- What is in line with the directory and is none of the directories above it is in it. -/
theorem Guarded.inside (hg : Guarded dir fs) (hp : InLine dir p) (hnode : fs.node p ≠ some .dir) : dir <+: p :=
  hp.resolve_right fun habove => hnode (hg.above p habove)

/-- Where the first part of a path leads, the rest of it stays as well. -/
theorem stays_of_resolves (hg : Guarded dir fs) (h : Resolves fs create k here cs p) (hs : Stays dir here (cs ++ ds)) :
    Stays dir p ds := by
  induction h with
  | nil here => exact hs
  | cur _ ih => exact ih hs
  | parent _ ih => exact ih hs.2
  | dir _ _ ih => exact ih hs.2
  | file _ => exact hs.2
  | new _ _ => exact hs.2
  | @link k here p x target cs hnode h ih =>
    have hlink : dir <+: here ++ [x] := hg.inside hs.2.inLine (by rw [hnode]; simp)
    have hne : dir ≠ here ++ [x] := by
      intro heq
      have hdir := hg.above dir (List.prefix_refl dir)
      rw [heq, hnode] at hdir
      cases hdir
    have hhere : dir <+: here := (List.prefix_concat_iff.mp hlink).resolve_left hne
    obtain ⟨hrelative, y, rest, hcomponents, hrest⟩ := hg.sibling (here ++ [x]) target hlink hnode
    have hstart : origin target here = here := by
      rw [origin, hrelative]
      rfl
    refine ih ?_
    rw [hstart, hcomponents, List.cons_append, List.cons_append, List.append_assoc]
    refine ⟨hs.1, Stays.curs hrest ?_⟩
    have hmoved := @Stays.rename dir here (cs ++ ds) [] x y hhere
    rw [List.append_nil, List.append_nil] at hmoved
    exact hmoved hs.2

theorem stays_of_walk {n : ℕ} (hg : Guarded dir fs) (h : fs.walk create n here cs = some p)
    (hs : Stays dir here (cs ++ ds)) : Stays dir p ds := by
  obtain ⟨k, -, hresolves⟩ := resolves_of_walk h
  exact stays_of_resolves hg hresolves hs

/-- A file that is created or emptied is found under the same path afterwards. -/
theorem resolves_opened {fs' : FileSystem} (h : Resolves fs true k here cs p) (hp : fs.node p ≠ some .dir)
    (hlink : ∀ target, fs.node p ≠ some (.link target)) (hnew : fs'.node p = some .file)
    (hsame : ∀ q, q ≠ p → fs'.node q = fs.node q) : Resolves fs' false k here cs p := by
  induction h with
  | nil here => exact .nil here
  | cur _ ih => exact .cur (ih hp hlink hnew hsame)
  | parent _ ih => exact .parent (ih hp hlink hnew hsame)
  | dir hnode _ ih => exact .dir ((hsame _ fun heq => hp (heq ▸ hnode)).trans hnode) (ih hp hlink hnew hsame)
  | file _ => exact .file hnew
  | link hnode _ ih => exact .link ((hsame _ fun heq => hlink _ (heq ▸ hnode)).trans hnode) (ih hp hlink hnew hsame)
  | new _ _ => exact .file hnew

end

/-! ### What the calls touch -/

/-- Everything that was touched in between is in the directory, nothing outside of it has changed,
and the directory is still guarded. -/
structure Keeps (dir : List String) (d d' : Disk) : Prop where
  touched : ∃ new, d'.touched = d.touched ++ new ∧ ∀ p ∈ new, dir <+: p
  outside : ∀ p, ¬ dir <+: p → d'.fs.node p = d.fs.node p
  guarded : Guarded dir d'.fs

section
variable {dir p : List String} {d d' d'' : Disk}

theorem Keeps.refl (hg : Guarded dir d.fs) : Keeps dir d d :=
  ⟨⟨[], (List.append_nil _).symm, fun _ hp => absurd hp List.not_mem_nil⟩, fun _ _ => rfl, hg⟩

theorem Keeps.trans (h : Keeps dir d d') (h' : Keeps dir d' d'') : Keeps dir d d'' := by
  obtain ⟨new, hnew, hin⟩ := h.touched
  obtain ⟨new', hnew', hin'⟩ := h'.touched
  refine ⟨⟨new ++ new', ?_, fun p hp => (List.mem_append.mp hp).elim (hin p) (hin' p)⟩,
    fun p hp => (h'.outside p hp).trans (h.outside p hp), h'.guarded⟩
  rw [hnew', hnew, List.append_assoc]

/-- The file system and what was touched are all that counts. -/
theorem Keeps.start {e : Disk} (hfs : e.fs = d.fs) (htouched : e.touched = d.touched) (h : Keeps dir e d') :
    Keeps dir d d' :=
  ⟨htouched ▸ h.touched, hfs ▸ h.outside, h.guarded⟩

end

namespace Disk

variable {dir p : List String} {d d' : Disk} {path : List Component} {node : Node}

theorem keeps_touch (hg : Guarded dir d.fs) (hp : dir <+: p) : Keeps dir d { d with touched := d.touched ++ [p] } :=
  ⟨⟨[p], rfl, fun _ hq => List.mem_singleton.mp hq ▸ hp⟩, fun _ _ => rfl, hg⟩

theorem keeps_call {α : Type} {f : Disk → Outcome α} (hg : Guarded dir d.fs)
    (h : ∀ e : Disk, e.fs = d.fs → e.touched = d.touched → Keeps dir e (f e).2) : Keeps dir d (d.call f).2 := by
  rw [call]
  split
  next e faults _ => exact @Keeps.start dir d _ { d with faults := faults } rfl rfl (Keeps.refl hg)
  next _ faults _ _ => exact @Keeps.start dir d _ { d with faults := faults } rfl rfl (h _ rfl rfl)
  next => exact h d rfl rfl

theorem keeps_make (hg : Guarded dir d.fs) (hp : InLine dir p) (hnode : ∀ target, node = .link target → IsSibling target) :
    Keeps dir d (d.make p node).2 := by
  rw [make]
  split
  next h =>
    have hin : dir <+: p := hg.inside hp (by rw [h.2.2]; simp)
    have hadd : ∀ q, (d.fs.add p node h).node q = if q = p then some node else d.fs.node q := fun _ => rfl
    have hkeep : ∀ q, q ≠ p → (d.fs.add p node h).node q = d.fs.node q := fun q hq => by rw [hadd, if_neg hq]
    refine ⟨⟨[p], rfl, fun _ hq => List.mem_singleton.mp hq ▸ hin⟩, fun q hq => ?_, fun q hq => ?_,
      fun q target hq hlink => ?_⟩
    · exact hkeep q fun heq => hq (heq ▸ hin)
    · refine (hkeep q fun heq => ?_).trans (hg.above q hq)
      have hdir := hg.above q hq
      rw [heq, h.2.2] at hdir
      cases hdir
    · by_cases hqp : q = p
      · have heq : some node = some (.link target) := by rw [← hlink, hqp]; exact (if_pos rfl).symm
        exact hnode target (Option.some.inj heq)
      · exact hg.sibling q target hq ((hkeep q hqp).symm.trans hlink)
  next => exact Keeps.refl hg

theorem entry_inLine (hg : Guarded dir d.fs) (hs : Stays dir dir path) (h : d.entry dir path = .ok p) :
    InLine dir p := by
  rw [entry] at h
  cases hwalk : d.fs.walk false d.fs.links dir path.dropLast with
  | none =>
    rw [hwalk] at h
    cases h
  | some q =>
    rw [hwalk] at h
    cases hlast : path.getLast? with
    | none =>
      simp only [hlast] at h
      cases h
    | some c =>
      cases c with
      | normal x =>
        simp only [hlast] at h
        cases h
        obtain ⟨front, rfl⟩ := List.getLast?_eq_some_iff.mp hlast
        rw [List.dropLast_concat] at hwalk
        exact (stays_of_walk hg hwalk hs).2
      | _ =>
        simp only [hlast] at h
        cases h

theorem keeps_makeAt (hg : Guarded dir d.fs) (hs : Stays dir dir path)
    (hnode : ∀ target, node = .link target → IsSibling target) : Keeps dir d (d.makeAt dir path node).2 := by
  refine keeps_call hg fun e hfs _ => ?_
  have hge : Guarded dir e.fs := hfs ▸ hg
  cases hentry : e.entry dir path with
  | error errno => exact Keeps.refl hge
  | ok p => exact keeps_make hge (entry_inLine hge hs hentry) hnode

theorem keeps_mkdir (hg : Guarded dir d.fs) (hs : Stays dir dir path) : Keeps dir d (d.mkdir dir path).2 :=
  keeps_makeAt hg hs nofun

theorem keeps_symlink {target : String} (hg : Guarded dir d.fs) (hs : Stays dir dir path) (htarget : IsSibling target) :
    Keeps dir d (d.symlink dir path target).2 :=
  keeps_makeAt hg hs fun _ heq => Node.link.inj heq ▸ htarget

/-- Directories are made for every part of a path, none of them beside the directory. -/
theorem keeps_createDirAll {rev : List Component} (hg : Guarded dir d.fs) (hs : Stays dir dir rev.reverse) :
    Keeps dir d (d.createDirAll dir rev).2 := by
  induction rev generalizing d with
  | nil =>
    have hmk := keeps_mkdir hg hs
    rw [createDirAll]
    rw [List.reverse_nil] at hmk
    split
    next d₁ h => exact h ▸ hmk
    next e d₁ h =>
      rw [h] at hmk
      split <;> exact hmk
  | cons c parent ih =>
    have hmk := keeps_mkdir hg hs
    have hparent : Stays dir dir parent.reverse := by
      rw [List.reverse_cons] at hs
      exact hs.front
    rw [createDirAll]
    split
    next d₁ h => exact h ▸ hmk
    next d₁ h =>
      -- the parents first, then once more
      rw [h] at hmk
      have hall := ih hmk.guarded hparent
      split
      next e d₂ h₂ => exact hmk.trans (h₂ ▸ hall)
      next d₂ h₂ =>
        rw [h₂] at hall
        have hagain := keeps_mkdir hall.guarded hs
        split
        next d₃ h₃ => exact hmk.trans (hall.trans (h₃ ▸ hagain))
        next e d₃ h₃ =>
          rw [h₃] at hagain
          split <;> exact hmk.trans (hall.trans hagain)
    next e d₁ _ h =>
      rw [h] at hmk
      split <;> exact hmk

/-- A file is created or emptied in the directory only, and is then found under its path. -/
theorem openFile_spec (hg : Guarded dir d.fs) (hs : Stays dir dir path) :
    Keeps dir d (d.openFile dir path).2 ∧ ∀ p, (d.openFile dir path).1 = .ok p →
      dir <+: p ∧ (d.openFile dir path).2.fs.walk false (d.openFile dir path).2.fs.links dir path = some p := by
  cases hwalk : d.fs.walk true d.fs.links dir path with
  | none =>
    have hopen : d.openFile dir path = (.error .notFound, d) := by simp only [openFile, hwalk]
    rw [hopen]
    exact ⟨Keeps.refl hg, nofun⟩
  | some q =>
    have hline : InLine dir q := by
      have hstays : Stays dir q [] := stays_of_walk hg hwalk (by rwa [List.append_nil])
      exact hstays
    obtain ⟨k, hk, hresolves⟩ := resolves_of_walk hwalk
    cases hnode : d.fs.node q with
    | none =>
      have hmake := keeps_make hg hline (fun _ heq => nomatch heq : ∀ target, Node.file = .link target → IsSibling target)
      have hin := hg.inside hline (by rw [hnode]; simp)
      cases hout : d.make q .file with
      | mk result d₁ =>
        rw [hout] at hmake
        cases result with
        | error e =>
          have hopen : d.openFile dir path = (.error e, d₁) := by simp only [openFile, hwalk, hnode, hout]
          rw [hopen]
          exact ⟨hmake, nofun⟩
        | ok u =>
          have hopen : d.openFile dir path = (.ok q, d₁) := by simp only [openFile, hwalk, hnode, hout]
          rw [hopen]
          refine ⟨hmake, fun p hp => ?_⟩
          cases hp
          refine ⟨hin, ?_⟩
          rw [make] at hout
          split at hout
          next h =>
            cases hout
            exact (resolves_opened hresolves (by rw [hnode]; simp) (by rw [hnode]; simp) (if_pos rfl)
              fun r hr => if_neg hr).walk hk
          next => cases hout
    | some node =>
      cases node with
      | file =>
        have hopen : d.openFile dir path = (.ok q, { d with touched := d.touched ++ [q] }) := by
          simp only [openFile, hwalk, hnode]
        have hin := hg.inside hline (by rw [hnode]; simp)
        rw [hopen]
        refine ⟨keeps_touch hg hin, fun p hp => ?_⟩
        cases hp
        exact ⟨hin, (resolves_opened hresolves (by rw [hnode]; simp) (by rw [hnode]; simp) hnode fun _ _ => rfl).walk hk⟩
      | dir =>
        have hopen : d.openFile dir path = (.error (.other "Is a directory"), d) := by
          simp only [openFile, hwalk, hnode]
        rw [hopen]
        exact ⟨Keeps.refl hg, nofun⟩
      | link target =>
        have hopen : d.openFile dir path = (.error (.other "Is a directory"), d) := by
          simp only [openFile, hwalk, hnode]
        rw [hopen]
        exact ⟨Keeps.refl hg, nofun⟩

theorem createFile_spec (hg : Guarded dir d.fs) (hs : Stays dir dir path) :
    Keeps dir d (d.createFile dir path).2 ∧ ∀ p, (d.createFile dir path).1 = .ok p →
      dir <+: p ∧ (d.createFile dir path).2.fs.walk false (d.createFile dir path).2.fs.links dir path = some p := by
  refine ⟨keeps_call hg fun e hfs _ => (openFile_spec (hfs ▸ hg) hs).1, fun p hp => ?_⟩
  rw [createFile, call] at hp ⊢
  split at hp
  next => cases hp
  next _ faults _ _ => exact (@openFile_spec dir { d with faults := faults } path hg hs).2 p hp
  next => exact (openFile_spec hg hs).2 p hp

theorem keeps_write (hg : Guarded dir d.fs) (hp : dir <+: p) : Keeps dir d (d.write p).2 := by
  rw [write]
  refine (keeps_touch hg hp).trans (keeps_call hg fun e hfs _ => Keeps.refl (hfs ▸ hg))

theorem write_fs (d : Disk) (p : List String) : (d.write p).2.fs = d.fs := by
  rw [write, call]
  split <;> rfl

/-- Permissions change where the path leads. -/
theorem keeps_setPermissions (hg : Guarded dir d.fs) (hp : dir <+: p)
    (hwalk : d.fs.walk false d.fs.links dir path = some p) : Keeps dir d (d.setPermissions dir path).2 := by
  refine keeps_call hg fun e hfs _ => ?_
  have hwalk' : e.fs.walk false e.fs.links dir path = some p := by rw [hfs, hwalk]
  rw [hwalk']
  exact keeps_touch (hfs ▸ hg) hp

end Disk

end Jaiba.Lib.Paths
