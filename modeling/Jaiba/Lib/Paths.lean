import Mathlib.Data.List.Induction

/-!
# Paths and symbolic links

A file system gives a node to the names that lead to it from the root, through directories
only. The resolution of a path goes from component to component and follows links; it follows no
more links than the file system allows. A lexical normal form drops every `..` with the name
before it; where that name is no link, this does not change where the path leads.
-/

namespace Jaiba.Lib.Paths

inductive Component where
  | cur
  | parent
  | normal (name : String)
  deriving Repr, DecidableEq

def Component.ofChars (name : List Char) : Component :=
  if name = ['.'] then .cur else if name = ['.', '.'] then .parent else .normal (String.ofList name)

def isAbsolute (path : String) : Bool := path.toList.head? = some '/'

def components (path : String) : List Component :=
  ((path.toList.splitOn '/').filter fun name => name ≠ []).map Component.ofChars

inductive Node where
  | dir
  | file
  | link (target : String)
  deriving Repr, DecidableEq

structure FileSystem where
  node : List String → Option Node
  root : node [] = some .dir
  parent : ∀ p x, (node (p ++ [x])).isSome → node p = some .dir
  /-- how many links one resolution may follow -/
  links : ℕ

/-- Where the target of a link in a directory starts. -/
def origin (target : String) (here : List String) : List String :=
  if isAbsolute target then [] else here

namespace FileSystem

variable (fs : FileSystem)

/-- The components up to the first link, which `follow` follows; with `create`, a last component
that is not there is the file to be created. -/
def walkWith (create : Bool) (follow : List String → List Component → Option (List String)) :
    List String → List Component → Option (List String)
  | here, [] => some here
  | here, .cur :: cs => walkWith create follow here cs
  | here, .parent :: cs => walkWith create follow here.dropLast cs
  | here, .normal x :: cs =>
    match fs.node (here ++ [x]) with
    | some .dir => walkWith create follow (here ++ [x]) cs
    | some .file => if cs = [] then some (here ++ [x]) else none
    | some (.link target) => follow (origin target here) (components target ++ cs)
    | none => if create && cs = [] then some (here ++ [x]) else none

/-- The resolution of a path from a directory, with as many links. -/
def walk (create : Bool) : ℕ → List String → List Component → Option (List String)
  | 0 => fs.walkWith create fun _ _ => none
  | n + 1 => fs.walkWith create (walk create n)

/-- `realpath`. -/
def canonicalize (names : List String) : Option (List String) :=
  fs.walk false fs.links [] (names.map .normal)

end FileSystem

/-- Push the names, pop with `..`. -/
def normalizeFrom : List String → List Component → List String
  | stack, [] => stack
  | stack, .cur :: cs => normalizeFrom stack cs
  | stack, .parent :: cs => normalizeFrom stack.dropLast cs
  | stack, .normal x :: cs => normalizeFrom (stack ++ [x]) cs

/-- The lexical normal form. -/
def normalize (cs : List Component) : List String := normalizeFrom [] cs

/-- `walk` as a relation, with the number of links followed. -/
inductive Resolves (fs : FileSystem) (create : Bool) :
    ℕ → List String → List Component → List String → Prop where
  | nil (here : List String) : Resolves fs create 0 here [] here
  | cur {k : ℕ} {here p : List String} {cs : List Component} :
      Resolves fs create k here cs p → Resolves fs create k here (.cur :: cs) p
  | parent {k : ℕ} {here p : List String} {cs : List Component} :
      Resolves fs create k here.dropLast cs p → Resolves fs create k here (.parent :: cs) p
  | dir {k : ℕ} {here p : List String} {x : String} {cs : List Component} :
      fs.node (here ++ [x]) = some .dir → Resolves fs create k (here ++ [x]) cs p →
      Resolves fs create k here (.normal x :: cs) p
  | file {here : List String} {x : String} : fs.node (here ++ [x]) = some .file →
      Resolves fs create 0 here [.normal x] (here ++ [x])
  | link {k : ℕ} {here p : List String} {x target : String} {cs : List Component} :
      fs.node (here ++ [x]) = some (.link target) →
      Resolves fs create k (origin target here) (components target ++ cs) p →
      Resolves fs create (k + 1) here (.normal x :: cs) p
  | new {here : List String} {x : String} : create = true → fs.node (here ++ [x]) = none →
      Resolves fs create 0 here [.normal x] (here ++ [x])

section
variable {fs : FileSystem} {create : Bool} {k l n : ℕ} {here p q : List String} {x : String}
  {xs cs : List Component}

theorem resolves_of_walkWith {follow : List String → List Component → Option (List String)}
    (hfollow : ∀ here cs p, follow here cs = some p →
      ∃ k, k + 1 ≤ n ∧ Resolves fs create k here cs p)
    (h : fs.walkWith create follow here cs = some p) :
    ∃ k ≤ n, Resolves fs create k here cs p := by
  induction cs generalizing here with
  | nil =>
    cases h
    exact ⟨0, Nat.zero_le n, .nil _⟩
  | cons c cs ih =>
    cases c with
    | cur =>
      obtain ⟨k, hk, h⟩ := ih h
      exact ⟨k, hk, .cur h⟩
    | parent =>
      obtain ⟨k, hk, h⟩ := ih h
      exact ⟨k, hk, .parent h⟩
    | normal x =>
      rw [FileSystem.walkWith] at h
      split at h
      next hnode =>
        obtain ⟨k, hk, h⟩ := ih h
        exact ⟨k, hk, .dir hnode h⟩
      next hnode =>
        split_ifs at h with hcs
        cases h
        subst hcs
        exact ⟨0, Nat.zero_le n, .file hnode⟩
      next target hnode =>
        obtain ⟨k, hk, h⟩ := hfollow _ _ _ h
        exact ⟨k + 1, hk, .link hnode h⟩
      next hnode =>
        split_ifs at h with hnew
        cases h
        rw [Bool.and_eq_true, decide_eq_true_eq] at hnew
        obtain ⟨hcreate, rfl⟩ := hnew
        exact ⟨0, Nat.zero_le n, .new hcreate hnode⟩

theorem resolves_of_walk (h : fs.walk create n here cs = some p) :
    ∃ k ≤ n, Resolves fs create k here cs p := by
  induction n generalizing here cs p with
  | zero => exact resolves_of_walkWith (fun _ _ _ h => by cases h) h
  | succ n ih =>
    refine resolves_of_walkWith (fun here cs p h => ?_) h
    obtain ⟨k, hk, h⟩ := ih h
    exact ⟨k, Nat.succ_le_succ hk, h⟩

theorem Resolves.walk (h : Resolves fs create k here cs p) (hk : k ≤ n) :
    fs.walk create n here cs = some p := by
  induction h generalizing n with
  | nil here => cases n <;> rfl
  | cur _ ih => cases n <;> exact ih hk
  | parent _ ih => cases n <;> exact ih hk
  | dir hnode _ ih =>
    have hwalk := ih hk
    cases n <;> (rw [FileSystem.walk, FileSystem.walkWith, hnode]; exact hwalk)
  | file hnode =>
    cases n <;> (rw [FileSystem.walk, FileSystem.walkWith, hnode]; exact if_pos rfl)
  | link hnode _ ih =>
    cases n with
    | zero => omega
    | succ n =>
      rw [FileSystem.walk, FileSystem.walkWith, hnode]
      exact ih (by omega)
  | new hcreate hnode =>
    cases n <;> (rw [FileSystem.walk, FileSystem.walkWith, hnode]; simp [hcreate])

/-! ### Resolution in parts -/

/-- What exists is found also where a file may be created. -/
theorem Resolves.mono (h : Resolves fs false k here cs p) : Resolves fs create k here cs p := by
  induction h with
  | nil here => exact .nil here
  | cur _ ih => exact .cur ih
  | parent _ ih => exact .parent ih
  | dir hnode _ ih => exact .dir hnode ih
  | file hnode => exact .file hnode
  | link hnode _ ih => exact .link hnode ih
  | new hcreate => cases hcreate

theorem Resolves.unique (h : Resolves fs create k here cs p) (h' : Resolves fs create l here cs q) :
    p = q := by
  induction h generalizing l q with
  | nil here =>
    cases h'
    rfl
  | cur _ ih =>
    cases h' with
    | cur h' => exact ih h'
  | parent _ ih =>
    cases h' with
    | parent h' => exact ih h'
  | dir hnode _ ih =>
    cases h' with
    | dir _ h' => exact ih h'
    | file hnode' => rw [hnode] at hnode'; cases hnode'
    | link hnode' _ => rw [hnode] at hnode'; cases hnode'
    | new _ hnode' => rw [hnode] at hnode'; cases hnode'
  | file hnode =>
    cases h' with
    | dir hnode' _ => rw [hnode] at hnode'; cases hnode'
    | file _ => rfl
    | link hnode' _ => rw [hnode] at hnode'; cases hnode'
    | new _ hnode' => rfl
  | link hnode _ ih =>
    cases h' with
    | dir hnode' _ => rw [hnode] at hnode'; cases hnode'
    | file hnode' => rw [hnode] at hnode'; cases hnode'
    | link hnode' h' =>
      rw [hnode] at hnode'
      cases hnode'
      exact ih h'
    | new _ hnode' => rw [hnode] at hnode'; cases hnode'
  | new _ hnode =>
    cases h' with
    | dir hnode' _ => rw [hnode] at hnode'; cases hnode'
    | file hnode' => rfl
    | link hnode' _ => rw [hnode] at hnode'; cases hnode'
    | new _ _ => rfl

/-- A path goes on from the directory that its first part leads to. -/
theorem Resolves.append (h : Resolves fs false k here xs p) (hdir : fs.node p = some .dir)
    (h' : Resolves fs create l p cs q) : Resolves fs create (k + l) here (xs ++ cs) q := by
  induction h with
  | nil here => rwa [Nat.zero_add]
  | cur _ ih => exact .cur (ih hdir h')
  | parent _ ih => exact .parent (ih hdir h')
  | dir hnode _ ih => exact .dir hnode (ih hdir h')
  | file hnode =>
    rw [hnode] at hdir
    cases hdir
  | link hnode _ ih =>
    have hrest := ih hdir h'
    rw [List.append_assoc] at hrest
    rw [Nat.add_right_comm]
    exact .link hnode hrest
  | new hcreate => cases hcreate

theorem node_dropLast {p : List String} (h : fs.node p = some .dir) :
    fs.node p.dropLast = some .dir := by
  rcases List.eq_nil_or_concat p with rfl | ⟨p, x, rfl⟩
  · exact fs.root
  · rw [List.concat_eq_append, List.dropLast_concat]
    rw [List.concat_eq_append] at h
    exact fs.parent p x (by rw [h]; rfl)

theorem node_origin {target : String} (h : fs.node here = some .dir) :
    fs.node (origin target here) = some .dir := by
  unfold origin
  split_ifs
  · exact fs.root
  · exact h

/-- The first part of a path leads to a directory where more follows. -/
theorem Resolves.split (h : Resolves fs create k here (xs ++ cs) q) (hcs : cs ≠ [])
    (hdir : fs.node here = some .dir) : ∃ p l m, Resolves fs false l here xs p ∧
      Resolves fs create m p cs q ∧ l + m = k ∧ fs.node p = some .dir := by
  generalize hall : xs ++ cs = all at h
  induction h generalizing xs with
  | nil here =>
    exact absurd (List.append_eq_nil_iff.mp hall).2 hcs
  | @cur k here p ds h ih =>
    cases xs with
    | nil =>
      rw [List.nil_append] at hall
      subst hall
      exact ⟨here, 0, k, .nil here, .cur h, Nat.zero_add k, hdir⟩
    | cons c xs =>
      obtain ⟨rfl, htail⟩ := List.cons_eq_cons.mp hall
      obtain ⟨b, l, m, hl, hm, hsum, hb⟩ := ih hdir htail
      exact ⟨b, l, m, .cur hl, hm, hsum, hb⟩
  | @parent k here p ds h ih =>
    cases xs with
    | nil =>
      rw [List.nil_append] at hall
      subst hall
      exact ⟨here, 0, k, .nil here, .parent h, Nat.zero_add k, hdir⟩
    | cons c xs =>
      obtain ⟨rfl, htail⟩ := List.cons_eq_cons.mp hall
      obtain ⟨b, l, m, hl, hm, hsum, hb⟩ := ih (node_dropLast hdir) htail
      exact ⟨b, l, m, .parent hl, hm, hsum, hb⟩
  | @dir k here p x ds hnode h ih =>
    cases xs with
    | nil =>
      rw [List.nil_append] at hall
      subst hall
      exact ⟨here, 0, k, .nil here, .dir hnode h, Nat.zero_add k, hdir⟩
    | cons c xs =>
      obtain ⟨rfl, htail⟩ := List.cons_eq_cons.mp hall
      obtain ⟨b, l, m, hl, hm, hsum, hb⟩ := ih hnode htail
      exact ⟨b, l, m, .dir hnode hl, hm, hsum, hb⟩
  | @file here x hnode =>
    cases xs with
    | nil =>
      rw [List.nil_append] at hall
      subst hall
      exact ⟨here, 0, 0, .nil here, .file hnode, rfl, hdir⟩
    | cons c xs =>
      obtain ⟨rfl, htail⟩ := List.cons_eq_cons.mp hall
      exact absurd (List.append_eq_nil_iff.mp htail).2 hcs
  | @link k here p x target ds hnode h ih =>
    cases xs with
    | nil =>
      rw [List.nil_append] at hall
      subst hall
      exact ⟨here, 0, k + 1, .nil here, .link hnode h, Nat.zero_add _, hdir⟩
    | cons c xs =>
      obtain ⟨rfl, htail⟩ := List.cons_eq_cons.mp hall
      obtain ⟨b, l, m, hl, hm, hsum, hb⟩ := @ih (components target ++ xs) (node_origin hdir)
        (by rw [List.append_assoc]; exact congrArg _ htail)
      exact ⟨b, l + 1, m, .link hnode hl, hm, by omega, hb⟩
  | @new here x hcreate hnode =>
    cases xs with
    | nil =>
      rw [List.nil_append] at hall
      subst hall
      exact ⟨here, 0, 0, .nil here, .new hcreate hnode, rfl, hdir⟩
    | cons c xs =>
      obtain ⟨rfl, htail⟩ := List.cons_eq_cons.mp hall
      exact absurd (List.append_eq_nil_iff.mp htail).2 hcs

/-- The names of a directory lead to it. -/
theorem resolves_names (h : fs.node p = some .dir) :
    Resolves fs false 0 [] (p.map .normal) p := by
  induction p using List.reverseRecOn with
  | nil => exact .nil []
  | append_singleton p x ih =>
    have hp : fs.node p = some .dir := fs.parent p x (by rw [h]; rfl)
    rw [List.map_append]
    exact (ih hp).append hp (.dir h (.nil _))

/-! ### The lexical normal form -/

end

/-- A link stands where the names lead. -/
def LinkAt (fs : FileSystem) (names : List String) : Prop :=
  ∃ pre x a target, names = pre ++ [x] ∧ fs.canonicalize pre = some a ∧
    fs.node (a ++ [x]) = some (.link target)

/-- No `..` drops the name of a link. -/
def Climbs (fs : FileSystem) : List String → List Component → Prop
  | _, [] => True
  | stack, .cur :: cs => Climbs fs stack cs
  | stack, .parent :: cs => ¬ LinkAt fs stack ∧ Climbs fs stack.dropLast cs
  | stack, .normal x :: cs => Climbs fs (stack ++ [x]) cs

section
variable {fs : FileSystem} {create : Bool} {k l : ℕ} {stack a q : List String} {x : String}
  {cs : List Component}

theorem Resolves.concat (h : Resolves fs false k [] (stack.map .normal) a)
    (hdir : fs.node a = some .dir) (h' : Resolves fs create l a [.normal x] q) :
    Resolves fs create (k + l) [] ((stack ++ [x]).map .normal) q := by
  rw [List.map_append]
  exact h.append hdir h'

theorem canonicalize_iff {names p : List String} : fs.canonicalize names = some p ↔
    ∃ k ≤ fs.links, Resolves fs false k [] (names.map .normal) p := by
  constructor
  · exact resolves_of_walk
  · rintro ⟨k, hk, h⟩
    exact h.walk hk

/-- The directory above the one that the names lead to, when the last of them is no link. -/
theorem Resolves.dropLast (h : Resolves fs false k [] (stack.map .normal) a)
    (hdir : fs.node a = some .dir) (hk : k ≤ fs.links) (hlink : ¬ LinkAt fs stack) :
    ∃ m ≤ k, Resolves fs false m [] (stack.dropLast.map .normal) a.dropLast := by
  rcases List.eq_nil_or_concat stack with rfl | ⟨pre, x, rfl⟩
  · cases h
    exact ⟨0, Nat.zero_le _, .nil []⟩
  · rw [List.concat_eq_append] at h hlink ⊢
    rw [List.map_append] at h
    rw [List.dropLast_concat]
    obtain ⟨b, m, l, hpre, hx, hsum, -⟩ := h.split (List.cons_ne_nil _ _) fs.root
    cases hx with
    | dir hnode hx =>
      cases hx
      rw [List.dropLast_concat]
      exact ⟨m, by omega, hpre⟩
    | file hnode =>
      rw [hnode] at hdir
      cases hdir
    | link hnode _ =>
      have hcanonical : fs.canonicalize pre = some b := canonicalize_iff.mpr ⟨m, by omega, hpre⟩
      exact absurd ⟨pre, x, b, _, rfl, hcanonical, hnode⟩ hlink
    | new hcreate => cases hcreate

/-- Where no `..` drops the name of a link, the normal form leads where the path does. -/
theorem normalizeFrom_resolves (hstack : Resolves fs false k [] (stack.map .normal) a)
    (hdir : fs.node a = some .dir) (hclimbs : Climbs fs stack cs)
    (h : Resolves fs create l a cs q) (hk : k + l ≤ fs.links) :
    ∃ m ≤ fs.links, Resolves fs create m [] ((normalizeFrom stack cs).map .normal) q := by
  induction cs generalizing stack a k l with
  | nil =>
    cases h
    exact ⟨k, by omega, hstack.mono⟩
  | cons c cs ih =>
    cases c with
    | cur =>
      cases h with
      | cur h => exact ih hstack hdir hclimbs h hk
    | parent =>
      cases h with
      | parent h =>
        obtain ⟨m, hm, hup⟩ := hstack.dropLast hdir (by omega) hclimbs.1
        exact ih hup (node_dropLast hdir) hclimbs.2 h (by omega)
    | normal x =>
      by_cases hcs : cs = []
      · subst hcs
        exact ⟨k + l, hk, hstack.concat hdir h⟩
      · have h' : Resolves fs create l a ([.normal x] ++ cs) q := h
        obtain ⟨b, m, n, hx, hrest, hsum, hb⟩ := h'.split hcs hdir
        exact ih (hstack.concat hdir hx) hb hclimbs hrest (by omega)

theorem normalize_resolves (hclimbs : Climbs fs [] cs) (h : Resolves fs create l [] cs q)
    (hl : l ≤ fs.links) :
    ∃ m ≤ fs.links, Resolves fs create m [] ((normalize cs).map .normal) q :=
  normalizeFrom_resolves (.nil []) fs.root hclimbs h (by omega)

end

/-! ### Paths -/

/-- A path as its components. -/
structure Path where
  absolute : Bool
  components : List Component
  deriving Repr, DecidableEq

namespace Path

def ofString (path : String) : Path := ⟨isAbsolute path, Paths.components path⟩

/-- `Path::join`: an absolute path replaces the one it is joined to. -/
def join (p q : Path) : Path := if q.absolute then q else ⟨p.absolute, p.components ++ q.components⟩

/-- The lexical normal form, from a current directory. -/
def place (cwd : List String) (p : Path) : List String :=
  normalizeFrom (if p.absolute then [] else cwd) p.components

theorem normalizeFrom_concat (stack : List String) (cs : List Component) (x : String) :
    normalizeFrom stack (cs ++ [.normal x]) = normalizeFrom stack cs ++ [x] := by
  induction cs generalizing stack with
  | nil => rfl
  | cons c cs ih => cases c <;> exact ih _

/-- A text that is one name. -/
structure IsName (name : String) : Prop where
  slash : '/' ∉ name.toList
  nonempty : name.toList ≠ []
  cur : name.toList ≠ ['.']
  parent : name.toList ≠ ['.', '.']

theorem ofString_name {name : String} (h : IsName name) : ofString name = ⟨false, [.normal name]⟩ := by
  have habsolute : isAbsolute name = false := by
    refine decide_eq_false fun hhead => h.slash ?_
    exact List.mem_of_mem_head? hhead
  have hcomponents : Paths.components name = [.normal name] := by
    rw [Paths.components, List.splitOn_eq_singleton h.slash,
      List.filter_cons_of_pos (by simpa using h.nonempty)]
    simp [Component.ofChars, h.cur, h.parent]
  rw [ofString, habsolute, hcomponents]

theorem place_join_name {name : String} (h : IsName name) (cwd : List String) (p : Path) :
    (p.join (ofString name)).place cwd = p.place cwd ++ [name] := by
  rw [ofString_name h]
  exact normalizeFrom_concat _ p.components name

end Path

end Jaiba.Lib.Paths
