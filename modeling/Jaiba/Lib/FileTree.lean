import Jaiba.Lib.Bytes
import Mathlib.Data.List.Infix

/-!
# Trees of directories and files

The names that lead to a place from the root are given a directory or a file with its content.
A call that changes the tree may fail, and one that makes or removes much may fail midway; what it
changes stays below the place it is about.
-/

namespace Jaiba.Lib.FileTree

abbrev Place := List String

inductive Node where
  | dir
  | file (content : Bytes) (executable : Bool)
  deriving DecidableEq

structure DirTree where
  node : Place → Option Node
  root : node [] = some .dir
  parent : ∀ p x, (node (p ++ [x])).isSome → node p = some .dir

namespace DirTree

variable (t : DirTree)

def isFile (p : Place) : Bool := (t.node p).any fun n => decide (n ≠ .dir)

def executable (p : Place) : Bool :=
  match t.node p with
  | some (.file _ executable) => executable
  | _ => false

/-- A node where no directory stands. -/
def put (p : Place) (n : Node) (h : p ≠ [] ∧ t.node p.dropLast = some .dir ∧ t.node p ≠ some .dir) : DirTree where
  node q := if q = p then some n else t.node q
  root := by rw [if_neg h.1.symm, t.root]
  parent q x hq := by
    have hparent : t.node q = some .dir := by
      by_cases hqx : q ++ [x] = p
      · rw [← @List.dropLast_concat _ q x, hqx]
        exact h.2.1
      · rw [if_neg hqx] at hq
        exact t.parent q x hq
    have hne : q ≠ p := fun heq => h.2.2 (heq ▸ hparent)
    rw [if_neg hne, hparent]

/-- The directories on the way to a place that are missing, down to a depth. -/
def fill (p : Place) (depth : ℕ) (h : ∀ q ∈ p.inits, t.isFile q = false) : DirTree where
  node q := if q <+: p ∧ q.length ≤ depth ∧ t.node q = none then some .dir else t.node q
  root := by rw [if_neg fun h => Option.some_ne_none _ (t.root ▸ h.2.2), t.root]
  parent q x hq := by
    by_cases hqx : q ++ [x] <+: p ∧ (q ++ [x]).length ≤ depth ∧ t.node (q ++ [x]) = none
    · have hqp : q <+: p := (List.prefix_append q [x]).trans hqx.1
      have hlength : q.length ≤ depth := by
        have := hqx.2.1
        rw [List.length_append] at this
        omega
      have hfile := h q ((List.mem_inits _ _).mpr hqp)
      cases hnode : t.node q with
      | none => rw [if_pos ⟨hqp, hlength, rfl⟩]
      | some n =>
        rw [if_neg fun hall => Option.some_ne_none _ hall.2.2]
        rw [isFile, hnode] at hfile
        simpa using hfile
    · rw [if_neg hqx] at hq
      have hdir := t.parent q x hq
      rw [if_neg fun hall => Option.some_ne_none _ (hdir ▸ hall.2.2), hdir]

/-- What stands below a place, without what is not kept and what stood below that. -/
def prune (p : Place) (kept : Place → Bool) (h : p ≠ []) : DirTree where
  node q := if q.inits.any fun r => p.isPrefixOf r && !kept r then none else t.node q
  root := by
    have hnot : ([] : Place).inits.any (fun r => p.isPrefixOf r && !kept r) = false := by
      cases p with
      | nil => exact absurd rfl h
      | cons x p => rfl
    rw [hnot, if_neg Bool.false_ne_true, t.root]
  parent q x hq := by
    split_ifs at hq with hany
    · cases hq
    · have hnot : ¬ (q.inits.any fun r => p.isPrefixOf r && !kept r) = true := by
        intro hqany
        obtain ⟨r, hr, hall⟩ := List.any_eq_true.mp hqany
        have hrq := (List.mem_inits _ _).mp hr
        exact hany (List.any_eq_true.mpr ⟨r, (List.mem_inits _ _).mpr (hrq.trans (List.prefix_append q [x])), hall⟩)
      rw [if_neg hnot, t.parent q x hq]

/-- A directory or a file with all below it, at another place. -/
def move (src dst : Place) (h : dst ≠ [] ∧ t.node dst.dropLast = some .dir ∧ ¬ src <+: dst) : DirTree where
  node q :=
    if dst <+: q then t.node (src ++ q.drop dst.length)
    else if src <+: q then none
    else t.node q
  root := by
    have hsrc : ¬ src <+: [] := fun hnil => h.2.2 (hnil.trans List.nil_prefix)
    rw [if_neg fun hnil => h.1 (List.prefix_nil.mp hnil), if_neg hsrc, t.root]
  parent q x hq := by
    by_cases hbelow : dst <+: q
    · have hlength := hbelow.length_le
      rw [if_pos (hbelow.trans (List.prefix_append q [x])), List.drop_append_of_le_length hlength,
        ← List.append_assoc] at hq
      rw [if_pos hbelow]
      exact t.parent _ x hq
    · rw [if_neg hbelow]
      by_cases hend : dst <+: q ++ [x]
      · have heq : dst = q ++ [x] := (List.prefix_concat_iff.mp hend).resolve_right hbelow
        have hsrc : ¬ src <+: q := fun hsrc => h.2.2 (heq ▸ hsrc.trans (List.prefix_append q [x]))
        have hdir := h.2.1
        rw [heq, List.dropLast_concat] at hdir
        rw [if_neg hsrc, hdir]
      · rw [if_neg hend] at hq
        split_ifs at hq with hsrc
        · cases hq
        · rw [if_neg fun hq => hsrc (hq.trans (List.prefix_append q [x])), t.parent q x hq]

/-- Why the names do not lead on. -/
def lookupError (p : Place) : String :=
  if p.inits.any t.isFile then "Not a directory (os error 20)" else "No such file or directory (os error 2)"

def createDir (p : Place) : Except String DirTree :=
  if h : p ≠ [] ∧ t.node p.dropLast = some .dir ∧ t.node p = none then
    .ok (t.put p .dir ⟨h.1, h.2.1, by rw [h.2.2]; exact (Option.some_ne_none _).symm⟩)
  else .error (if (t.node p).isSome then "File exists (os error 17)" else t.lookupError p)

def createDirAll (p : Place) (depth : ℕ) : Except String DirTree :=
  if h : ∀ q ∈ p.inits, t.isFile q = false then .ok (t.fill p depth h)
  else .error (if t.isFile p then "File exists (os error 17)" else t.lookupError p)

def write (p : Place) (content : Bytes) : Except String DirTree :=
  if h : p ≠ [] ∧ t.node p.dropLast = some .dir ∧ t.node p ≠ some .dir then
    .ok (t.put p (.file content (t.executable p)) h)
  else .error (if t.node p = some .dir then "Is a directory (os error 21)" else t.lookupError p)

variable {t} in
theorem node_dropLast {p : Place} (hp : p ≠ []) (h : t.node p ≠ none) : t.node p.dropLast = some .dir := by
  refine t.parent p.dropLast (p.getLast hp) ?_
  rw [List.dropLast_append_getLast hp]
  exact Option.isSome_iff_ne_none.mpr h

variable {t} in
theorem put_of_file {p : Place} {content : Bytes} {executable : Bool}
    (h : t.node p = some (.file content executable)) :
    p ≠ [] ∧ t.node p.dropLast = some .dir ∧ t.node p ≠ some .dir := by
  have hp : p ≠ [] := by
    rintro rfl
    rw [t.root] at h
    cases h
  refine ⟨hp, node_dropLast hp ?_, ?_⟩
  · rw [h]
    exact Option.some_ne_none _
  · rw [h]
    intro heq
    cases heq

def setExecutable (p : Place) : Except String DirTree :=
  match h : t.node p with
  | some (.file content _) => .ok (t.put p (.file content true) (put_of_file h))
  | some .dir => .ok t
  | none => .error (t.lookupError p)

/-- To a name that is free. -/
def rename (src dst : Place) : Except String DirTree :=
  if h : dst ≠ [] ∧ t.node dst.dropLast = some .dir ∧ ¬ src <+: dst then
    if (t.node src).isSome ∧ t.node dst = none then .ok (t.move src dst h)
    else .error (if (t.node src).isSome then "Directory not empty (os error 39)" else t.lookupError src)
  else .error (t.lookupError dst)

def removeDirAll (p : Place) (kept : Place → Bool) : Except String DirTree :=
  if h : p ≠ [] then
    if t.node p = some .dir then .ok (t.prune p kept h)
    else .error (if t.isFile p then "Not a directory (os error 20)" else t.lookupError p)
  else .error "Device or resource busy (os error 16)"

end DirTree

/-! ### Calls -/

/-- How a call fails: its text, and what it has done by then. -/
structure Fault where
  text : String
  /-- how deep the directories are that were made -/
  depth : ℕ
  /-- the content of the file that was opened -/
  written : Option Bytes
  /-- what was not removed -/
  kept : Place → Bool

/-- A tree, what the coming calls fail with, if not for a reason of their own, and how many steps failed. -/
structure Disk where
  tree : DirTree
  faults : List (Option Fault)
  failed : ℕ

namespace Disk

abbrev Outcome (α : Type) := Except String α × Disk

/-- A call; where it fails midway and leaves no tree, the tree is as it was. -/
def call (d : Disk) (midway : Fault → Except String DirTree) (done : Except String DirTree) : Outcome Unit :=
  match d.faults with
  | some fault :: faults => (.error fault.text, ⟨((midway fault).toOption).getD d.tree, faults, d.failed + 1⟩)
  | faults =>
    match done with
    | .error text => (.error text, ⟨d.tree, faults.tail, d.failed + 1⟩)
    | .ok t => (.ok (), ⟨t, faults.tail, d.failed⟩)

/-- `fs::create_dir`. -/
def createDir (d : Disk) (p : Place) : Outcome Unit := d.call (fun _ => .ok d.tree) (d.tree.createDir p)

/-- `fs::create_dir_all`. -/
def createDirAll (d : Disk) (p : Place) : Outcome Unit :=
  d.call (fun fault => d.tree.createDirAll p fault.depth) (d.tree.createDirAll p p.length)

/-- `fs::write`; it may fail before the file is opened. -/
def write (d : Disk) (p : Place) (content : Bytes) : Outcome Unit :=
  d.call (fun fault => fault.written.elim (.ok d.tree) (d.tree.write p)) (d.tree.write p content)

/-- `fs::set_permissions` with mode 755. -/
def setExecutable (d : Disk) (p : Place) : Outcome Unit :=
  d.call (fun _ => .ok d.tree) (d.tree.setExecutable p)

/-- `fs::rename`. -/
def rename (d : Disk) (src dst : Place) : Outcome Unit :=
  d.call (fun _ => .ok d.tree) (d.tree.rename src dst)

/-- `fs::remove_dir_all`. -/
def removeDirAll (d : Disk) (p : Place) : Outcome Unit :=
  d.call (fun fault => d.tree.removeDirAll p fault.kept) (d.tree.removeDirAll p fun _ => false)

/-- A step that is no call has failed. -/
def reject {ε α : Type} (d : Disk) (e : ε) : Except ε α × Disk := (.error e, { d with failed := d.failed + 1 })

end Disk

/-! ### What a call changes -/

/-- No place is below two names of one directory. -/
theorem not_prefix_sibling {p q : Place} {a b : String} (hne : a ≠ b) (h : p ++ [a] <+: q) : ¬ p ++ [b] <+: q := by
  intro h'
  have heq := List.append_cancel_left ((List.prefix_of_prefix_length_le h h' (by simp)).eq_of_length (by simp))
  exact hne (List.cons.inj heq).1

namespace DirTree

variable {t t' u : DirTree} {p q : Place}

/-- Nothing beside a place has changed. -/
def Only (p : Place) (t t' : DirTree) : Prop := ∀ q, ¬ p <+: q → t'.node q = t.node q

theorem Only.refl (p : Place) (t : DirTree) : Only p t t := fun _ _ => rfl

theorem Only.trans (h : Only p t t') (h' : Only p t' u) : Only p t u :=
  fun q hq => (h' q hq).trans (h q hq)

theorem Only.above {rel : Place} (h : Only (p ++ rel) t t') : Only p t t' :=
  fun q hq => h q fun hrel => hq ((List.prefix_append p rel).trans hrel)

theorem Only.self {rel : Place} (hrel : rel ≠ []) (h : Only (p ++ rel) t t') : t'.node p = t.node p := by
  refine h p fun hway => hrel (List.eq_nil_of_length_eq_zero ?_)
  have hlength := hway.length_le
  rw [List.length_append] at hlength
  omega

theorem node_of_above (h : q <+: p) (hne : q ≠ p) (hp : t.node p ≠ none) : t.node q = some .dir := by
  obtain ⟨rel, rfl⟩ := h
  induction rel using List.reverseRecOn with
  | nil => exact absurd (List.append_nil q).symm hne
  | append_singleton rel x ih =>
    rw [← List.append_assoc] at hp
    have hparent := t.parent (q ++ rel) x (Option.isSome_iff_ne_none.mpr hp)
    rcases List.eq_nil_or_concat rel with rfl | ⟨_, _, rfl⟩
    · rw [List.append_nil] at hparent
      exact hparent
    · refine ih (fun heq => ?_) (by rw [hparent]; exact Option.some_ne_none _)
      have hlength := congrArg List.length heq
      simp only [List.concat_eq_append, List.length_append, List.length_cons, List.length_nil] at hlength
      omega

/-- Below a free name everything is free. -/
theorem node_of_free (h : p <+: q) (hp : t.node p = none) : t.node q = none := by
  by_contra hq
  by_cases hne : p = q
  · exact hq (hne ▸ hp)
  · rw [node_of_above h hne hq] at hp
    cases hp

theorem put_only {n : Node} (h : p ≠ [] ∧ t.node p.dropLast = some .dir ∧ t.node p ≠ some .dir) :
    Only p t (t.put p n h) := fun q hq => if_neg fun heq : q = p => hq (heq ▸ List.prefix_rfl)

theorem createDir_ok (h : t.createDir p = .ok t') :
    t.node p = none ∧ t'.node p = some .dir ∧ ∀ q, q ≠ p → t'.node q = t.node q := by
  unfold createDir at h
  split_ifs at h with hput
  cases h
  exact ⟨hput.2.2, if_pos rfl, fun q hq => if_neg hq⟩

theorem createDir_only (h : t.createDir p = .ok t') : Only p t t' := by
  obtain ⟨-, -, hrest⟩ := createDir_ok h
  exact fun q hq => hrest q fun heq => hq (heq ▸ List.prefix_rfl)

theorem createDirAll_node {depth : ℕ} (h : t.createDirAll p depth = .ok t') (q : Place) :
    t'.node q = t.node q ∨ q <+: p ∧ t.node q = none ∧ t'.node q = some .dir := by
  unfold createDirAll at h
  split_ifs at h with hfiles
  cases h
  by_cases hq : q <+: p ∧ q.length ≤ depth ∧ t.node q = none
  · exact .inr ⟨hq.1, hq.2.2, if_pos hq⟩
  · exact .inl (if_neg hq)

theorem createDirAll_dir {depth : ℕ} (hdir : t.node q = some .dir) (h : t.createDirAll p depth = .ok t') :
    t'.node q = some .dir := by
  rcases createDirAll_node h q with hsame | ⟨-, hfree, -⟩
  · rw [hsame, hdir]
  · rw [hdir] at hfree
    cases hfree

/-- Below a directory nothing else is made. -/
theorem createDirAll_only {rel : Place} {depth : ℕ} (hdir : t.node p = some .dir)
    (h : t.createDirAll (p ++ rel) depth = .ok t') : Only p t t' := by
  intro q hq
  rcases createDirAll_node h q with hsame | ⟨hway, hfree, -⟩
  · exact hsame
  · rcases List.prefix_or_prefix_of_prefix hway (List.prefix_append p rel) with hqp | hpq
    · rw [node_of_free hqp hfree] at hdir
      cases hdir
    · exact absurd hpq hq

theorem write_ok {content : Bytes} (h : t.write p content = .ok t') :
    p ≠ [] ∧ t.node p ≠ some .dir ∧ t'.node p = some (.file content (t.executable p)) ∧ ∀ q, q ≠ p → t'.node q = t.node q := by
  unfold write at h
  split_ifs at h with hput
  cases h
  exact ⟨hput.1, hput.2.2, if_pos rfl, fun q hq => if_neg hq⟩

theorem write_only {content : Bytes} (h : t.write p content = .ok t') : Only p t t' := by
  obtain ⟨-, -, -, hrest⟩ := write_ok h
  exact fun q hq => hrest q fun heq => hq (heq ▸ List.prefix_rfl)

theorem setExecutable_ok {content : Bytes} {executable : Bool} (hfile : t.node p = some (.file content executable))
    (h : t.setExecutable p = .ok t') :
    t'.node p = some (.file content true) ∧ ∀ q, q ≠ p → t'.node q = t.node q := by
  unfold setExecutable at h
  split at h
  next content' executable' hnode =>
    cases hfile.symm.trans hnode
    cases h
    exact ⟨if_pos rfl, fun q hq => if_neg hq⟩
  next hnode => cases hfile.symm.trans hnode
  next hnode => cases hfile.symm.trans hnode

theorem setExecutable_only (h : t.setExecutable p = .ok t') : Only p t t' := by
  unfold setExecutable at h
  split at h
  · cases h
    exact put_only _
  · cases h
    exact .refl p t
  · cases h

theorem removeDirAll_ok (h : t.removeDirAll p (fun _ => false) = .ok t') (q : Place) :
    t'.node q = if p <+: q then none else t.node q := by
  unfold removeDirAll at h
  split_ifs at h with hp hdir
  cases h
  change (if (q.inits.any fun r => p.isPrefixOf r && !false) = true then none else t.node q) = _
  refine if_congr ?_ rfl rfl
  simp only [Bool.not_false, Bool.and_true, List.any_eq_true, List.mem_inits, List.isPrefixOf_iff_prefix]
  exact ⟨fun ⟨r, hr, hpr⟩ => hpr.trans hr, fun hq => ⟨q, List.prefix_rfl, hq⟩⟩

theorem removeDirAll_only {kept : Place → Bool} (h : t.removeDirAll p kept = .ok t') : Only p t t' := by
  unfold removeDirAll at h
  split_ifs at h with hp hdir
  cases h
  refine fun q hq => if_neg fun hany => hq ?_
  obtain ⟨r, hr, hall⟩ := List.any_eq_true.mp hany
  rw [Bool.and_eq_true, List.isPrefixOf_iff_prefix] at hall
  exact hall.1.trans ((List.mem_inits _ _).mp hr)

theorem rename_ok {src dst : Place} (h : t.rename src dst = .ok t') :
    t.node dst = none ∧ (∀ rel, t'.node (dst ++ rel) = t.node (src ++ rel)) ∧
      (∀ q, ¬ dst <+: q → src <+: q → t'.node q = none) ∧
      ∀ q, ¬ dst <+: q → ¬ src <+: q → t'.node q = t.node q := by
  unfold rename at h
  split_ifs at h with hmove hfree
  cases h
  refine ⟨hfree.2, fun rel => ?_, fun q hdst hsrc => ?_, fun q hdst hsrc => ?_⟩
  · refine (if_pos (List.prefix_append dst rel)).trans ?_
    rw [List.drop_left]
  · exact (if_neg hdst).trans (if_pos hsrc)
  · exact (if_neg hdst).trans (if_neg hsrc)

end DirTree

namespace Disk
open DirTree

variable {d d' : Disk} {p : Place} {midway : Fault → Except String DirTree} {done : Except String DirTree} {text : String}

theorem call_ok (h : d.call midway done = (.ok (), d')) : done = .ok d'.tree ∧ d'.failed = d.failed := by
  unfold call at h
  split at h
  · cases h
  · cases done with
    | error text => cases h
    | ok t =>
      cases h
      exact ⟨rfl, rfl⟩

theorem call_error (h : d.call midway done = (.error text, d')) :
    (d'.tree = d.tree ∨ ∃ fault, midway fault = .ok d'.tree) ∧ d'.failed = d.failed + 1 := by
  unfold call at h
  split at h
  next fault faults _ =>
    cases h
    refine ⟨?_, rfl⟩
    cases hmidway : midway fault with
    | error text => exact .inl rfl
    | ok t => exact .inr ⟨fault, hmidway⟩
  · cases done with
    | error text =>
      cases h
      exact ⟨.inl rfl, rfl⟩
    | ok t => cases h

/-- A call whose result, midway or at the end, is within bounds keeps to them. -/
theorem call_keeps {P : DirTree → Prop} (hself : P d.tree) (hmidway : ∀ fault t, midway fault = .ok t → P t)
    (hdone : ∀ t, done = .ok t → P t) : P (d.call midway done).2.tree := by
  rcases h : d.call midway done with ⟨text | ⟨⟩, d'⟩
  · obtain ⟨hsame | ⟨fault, hfault⟩, -⟩ := call_error h
    · rw [hsame]
      exact hself
    · exact hmidway fault _ hfault
  · exact hdone _ (call_ok h).1

theorem createDir_only (d : Disk) (p : Place) : Only p d.tree (d.createDir p).2.tree :=
  call_keeps (.refl p _) (fun _ _ h => Except.ok.inj h ▸ .refl p _) fun _ h => DirTree.createDir_only h

theorem createDirAll_only (rel : Place) (hdir : d.tree.node p = some .dir) :
    Only p d.tree (d.createDirAll (p ++ rel)).2.tree :=
  call_keeps (.refl p _) (fun _ _ h => DirTree.createDirAll_only hdir h) fun _ h => DirTree.createDirAll_only hdir h

theorem createDirAll_dir {q : Place} (hdir : d.tree.node q = some .dir) :
    (d.createDirAll p).2.tree.node q = some .dir :=
  call_keeps (P := fun t => t.node q = some .dir) hdir (fun _ _ h => DirTree.createDirAll_dir hdir h)
    fun _ h => DirTree.createDirAll_dir hdir h

theorem write_only (d : Disk) (p : Place) (content : Bytes) : Only p d.tree (d.write p content).2.tree := by
  refine call_keeps (.refl p _) (fun fault t h => ?_) fun _ h => DirTree.write_only h
  cases hwritten : fault.written with
  | none =>
    rw [hwritten] at h
    cases h
    exact .refl p _
  | some content =>
    rw [hwritten] at h
    exact DirTree.write_only h

theorem setExecutable_only (d : Disk) (p : Place) : Only p d.tree (d.setExecutable p).2.tree :=
  call_keeps (.refl p _) (fun _ _ h => Except.ok.inj h ▸ .refl p _) fun _ h => DirTree.setExecutable_only h

theorem createDir_error (h : d.createDir p = (.error text, d')) : d'.tree = d.tree := by
  obtain ⟨hsame | ⟨fault, hfault⟩, -⟩ := call_error h
  · exact hsame
  · exact (Except.ok.inj hfault).symm

/-- A renaming that fails has done nothing. -/
theorem rename_error {src dst : Place} (h : d.rename src dst = (.error text, d')) : d'.tree = d.tree := by
  obtain ⟨hsame | ⟨fault, hfault⟩, -⟩ := call_error h
  · exact hsame
  · exact (Except.ok.inj hfault).symm

theorem removeDirAll_only (d : Disk) (p : Place) : Only p d.tree (d.removeDirAll p).2.tree :=
  call_keeps (.refl p _) (fun _ _ h => DirTree.removeDirAll_only h) fun _ h => DirTree.removeDirAll_only h

end Disk

end Jaiba.Lib.FileTree
