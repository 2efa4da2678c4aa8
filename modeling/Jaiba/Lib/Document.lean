import Mathlib.Data.Rat.Defs
import Mathlib.Data.List.Basic

/-!
# Documents as scripts see them

Values of a parsed document, members of an object in the order in which
JavaScript keeps them, and what two documents have in common as data: `image`
is what the text of a value says, `Agree` leaves the order of the members open.
-/

namespace Jaiba.Lib

/-- A double; both zeros are one number. -/
inductive Double where
  | finite (q : ℚ)
  | infinity (negative : Bool)
  | nan
  deriving Repr, DecidableEq

inductive Value where
  | null
  | bool (b : Bool)
  | number (n : Double)
  | string (s : String)
  | array (items : List Value)
  | object (members : List (String × Value))
  deriving Repr

abbrev Members := List (String × Value)

namespace Value

mutual

def beq : Value → Value → Bool
  | .null, .null => true
  | .bool a, .bool b => a == b
  | .number m, .number n => m == n
  | .string s, .string t => s == t
  | .array xs, .array ys => beqItems xs ys
  | .object ms, .object ns => beqMembers ms ns
  | _, _ => false

def beqItems : List Value → List Value → Bool
  | [], [] => true
  | x :: xs, y :: ys => beq x y && beqItems xs ys
  | _, _ => false

def beqMembers : List (String × Value) → List (String × Value) → Bool
  | [], [] => true
  | (k, v) :: ms, (l, w) :: ns => k == l && beq v w && beqMembers ms ns
  | _, _ => false

end

mutual

theorem beq_iff : ∀ a b : Value, beq a b = true ↔ a = b
  | .null, b => by cases b <;> simp [beq]
  | .bool _, b => by cases b <;> simp [beq]
  | .number _, b => by cases b <;> simp [beq]
  | .string _, b => by cases b <;> simp [beq]
  | .array xs, b => by cases b <;> simp [beq, beqItems_iff xs]
  | .object ms, b => by cases b <;> simp [beq, beqMembers_iff ms]

theorem beqItems_iff : ∀ xs ys : List Value, beqItems xs ys = true ↔ xs = ys
  | [], ys => by cases ys <;> simp [beqItems]
  | x :: xs, ys => by cases ys <;> simp [beqItems, beq_iff x, beqItems_iff xs]

theorem beqMembers_iff : ∀ ms ns : List (String × Value), beqMembers ms ns = true ↔ ms = ns
  | [], ns => by cases ns <;> simp [beqMembers]
  | (k, v) :: ms, ns => by
    cases ns <;> simp [beqMembers, beq_iff v, beqMembers_iff ms, Prod.ext_iff]

end

instance : DecidableEq Value := fun a b => decidable_of_iff _ (beq_iff a b)

end Value

/-! ### Members of an object -/

namespace Members
variable {α : Type}

/-- Keys such as `0` and `17` stand first, in the order of their numbers. -/
def arrayIndex (key : String) : Option ℕ :=
  let digits := key.toList
  if digits ≠ [] ∧ digits.all Char.isDigit ∧ (digits = ['0'] ∨ digits.head? ≠ some '0') then
    let n := digits.foldl (fun n c => 10 * n + (c.toNat - 48)) 0
    if n < 4294967295 then some n else none
  else none

/-- The keys that stand before the index `i`. -/
def precedes (i : ℕ) (m : String × α) : Bool :=
  match arrayIndex m.1 with
  | some j => j < i
  | none => false

def replace (key : String) (value : α) : List (String × α) → List (String × α)
  | [] => []
  | m :: ms => if m.1 = key then (key, value) :: ms else m :: replace key value ms

/-- `members[key] = value` -/
def put (key : String) (value : α) (ms : List (String × α)) : List (String × α) :=
  if (ms.lookup key).isSome then replace key value ms
  else
    match arrayIndex key with
    | none => ms ++ [(key, value)]
    | some i => ms.takeWhile (precedes i) ++ (key, value) :: ms.dropWhile (precedes i)

/-- `delete members[key]` -/
def erase (key : String) (ms : List (String × α)) : List (String × α) := ms.filter fun m => m.1 ≠ key

/-- `Object.fromEntries` -/
def fromEntries (entries : List (String × α)) : List (String × α) :=
  entries.foldl (fun ms e => put e.1 e.2 ms) []

def keys (ms : List (String × α)) : List String := ms.map Prod.fst

theorem lookup_cons (m : String × α) (ms : List (String × α)) (l : String) :
    (m :: ms).lookup l = if l = m.1 then some m.2 else ms.lookup l := by
  rw [List.lookup_cons]
  by_cases hl : l = m.1
  · rw [if_pos hl, beq_iff_eq.mpr hl]
  · rw [if_neg hl, beq_eq_false_iff_ne.mpr hl]

theorem lookup_eq_none_iff {k : String} {ms : List (String × α)} : ms.lookup k = none ↔ k ∉ keys ms := by
  rw [List.lookup_eq_none_iff, keys, List.mem_map]
  constructor
  · rintro h ⟨m, hm, rfl⟩
    have := h m hm
    simp at this
  · intro h m hm
    have hne : k ≠ m.1 := fun heq => h ⟨m, hm, heq.symm⟩
    simpa using hne

theorem mem_keys {k : String} {v : α} {ms : List (String × α)} (h : ms.lookup k = some v) : k ∈ keys ms := by
  by_contra hmem
  rw [lookup_eq_none_iff.mpr hmem] at h
  cases h

theorem lookup_replace {k : String} {v : α} {ms : List (String × α)} (h : k ∈ keys ms) (l : String) :
    (replace k v ms).lookup l = if l = k then some v else ms.lookup l := by
  induction ms with
  | nil => cases h
  | cons m ms ih =>
    obtain ⟨j, w⟩ := m
    rw [replace]
    by_cases hj : j = k
    · subst hj
      rw [if_pos rfl, lookup_cons, lookup_cons]
      by_cases hl : l = j
      · simp [hl]
      · simp [hl]
    · have hmem : k ∈ keys ms := by
        rcases List.mem_cons.mp h with heq | hmem
        · exact absurd heq.symm hj
        · exact hmem
      rw [if_neg hj, lookup_cons, lookup_cons, ih hmem]
      by_cases hl : l = j
      · have hlk : l ≠ k := fun heq => hj (hl.symm.trans heq)
        simp [hl, hj]
      · simp [hl]

theorem lookup_insert {k : String} {v : α} {front back : List (String × α)} (hk : k ∉ keys front) (l : String) :
    (front ++ (k, v) :: back).lookup l = if l = k then some v else (front ++ back).lookup l := by
  induction front with
  | nil => by_cases hl : l = k <;> simp [lookup_cons, hl]
  | cons m front ih =>
    obtain ⟨j, w⟩ := m
    have hj : k ≠ j := fun heq => hk (heq ▸ List.mem_cons_self)
    have hfront : k ∉ keys front := fun hmem => hk (List.mem_cons_of_mem _ hmem)
    rw [List.cons_append, List.cons_append, lookup_cons, lookup_cons, ih hfront]
    by_cases hl : l = j
    · simp [hl, hj.symm]
    · simp [hl]

theorem lookup_put (k : String) (v : α) (ms : List (String × α)) (l : String) :
    (put k v ms).lookup l = if l = k then some v else ms.lookup l := by
  rw [put]
  by_cases h : (ms.lookup k).isSome
  · rw [if_pos h]
    obtain ⟨w, hw⟩ := Option.isSome_iff_exists.mp h
    exact lookup_replace (mem_keys hw) l
  · rw [if_neg h]
    have hk : k ∉ keys ms := lookup_eq_none_iff.mp (Option.not_isSome_iff_eq_none.mp h)
    cases arrayIndex k with
    | none =>
      dsimp only
      rw [lookup_insert hk, List.append_nil]
    | some i =>
      dsimp only
      have hfront : k ∉ keys (ms.takeWhile (precedes i)) := fun hmem =>
        hk ((List.takeWhile_sublist _).map _ |>.mem hmem)
      rw [lookup_insert hfront, List.takeWhile_append_dropWhile]

theorem replace_self {k : String} {v : α} {ms : List (String × α)} (h : ms.lookup k = some v) :
    replace k v ms = ms := by
  induction ms with
  | nil => rfl
  | cons m ms ih =>
    obtain ⟨j, w⟩ := m
    rw [replace]
    by_cases hj : j = k
    · subst hj
      have hw : w = v := by simpa [lookup_cons] using h
      rw [if_pos rfl, hw]
    · have hlookup : ms.lookup k = some v := by simpa [lookup_cons, Ne.symm hj] using h
      rw [if_neg hj, ih hlookup]

theorem put_self {k : String} {v : α} {ms : List (String × α)} (h : ms.lookup k = some v) : put k v ms = ms := by
  rw [put, if_pos (by rw [h]; rfl), replace_self h]

theorem replace_replace (k : String) (v w : α) (ms : List (String × α)) :
    replace k w (replace k v ms) = replace k w ms := by
  induction ms with
  | nil => rfl
  | cons m ms ih =>
    by_cases hm : m.1 = k
    · rw [replace, if_pos hm, replace, if_pos rfl, replace, if_pos hm]
    · rw [replace, if_neg hm, replace, if_neg hm, ih, replace, if_neg hm]

/-- Of two assignments to a member that is there, the second counts. -/
theorem put_put {k : String} {ms : List (String × α)} (h : (ms.lookup k).isSome) (v w : α) :
    put k w (put k v ms) = put k w ms := by
  have hagain : ((put k v ms).lookup k).isSome := by rw [lookup_put, if_pos rfl]; rfl
  rw [put, if_pos hagain, put, if_pos h, put, if_pos h, replace_replace]

theorem lookup_erase (k : String) (ms : List (String × α)) (l : String) :
    (erase k ms).lookup l = if l = k then none else ms.lookup l := by
  induction ms with
  | nil => simp [erase]
  | cons m ms ih =>
    obtain ⟨j, w⟩ := m
    rw [erase] at ih ⊢
    by_cases hj : j = k
    · rw [List.filter_cons_of_neg (by simpa using hj), ih, lookup_cons]
      by_cases hl : l = k
      · simp [hl]
      · have hlj : l ≠ j := fun heq => hl (heq.trans hj)
        simp [hl, hlj]
    · rw [List.filter_cons_of_pos (by simpa using hj), lookup_cons, lookup_cons, ih]
      by_cases hl : l = j
      · simp [hl, hj]
      · simp [hl]

theorem erase_absent {k : String} {ms : List (String × α)} (h : ms.lookup k = none) : erase k ms = ms := by
  refine List.filter_eq_self.mpr fun m hm => ?_
  have hne : m.1 ≠ k := fun heq => lookup_eq_none_iff.mp h (heq ▸ List.mem_map_of_mem hm)
  simpa using hne

/-- The last entry of a key counts. -/
theorem lookup_fromEntries (entries : List (String × α)) (k : String) :
    (fromEntries entries).lookup k = entries.reverse.lookup k := by
  have hfold : ∀ ms : List (String × α),
      (entries.foldl (fun ms e => put e.1 e.2 ms) ms).lookup k = (entries.reverse ++ ms).lookup k := by
    induction entries with
    | nil => intro ms; rfl
    | cons e entries ih =>
      intro ms
      rw [List.foldl_cons, ih, List.reverse_cons, List.append_assoc, List.lookup_append, List.lookup_append,
        lookup_put, List.singleton_append, lookup_cons]
  rw [fromEntries, hfold, List.append_nil]

theorem lookup_of_mem {entries : List (String × α)} (hnodup : (keys entries).Nodup) {k : String} {v : α}
    (h : (k, v) ∈ entries) : entries.lookup k = some v := by
  induction entries with
  | nil => cases h
  | cons e entries ih =>
    rw [lookup_cons]
    obtain ⟨hnot, hrest⟩ := List.nodup_cons.mp hnodup
    rcases List.mem_cons.mp h with rfl | hmem
    · rw [if_pos rfl]
    · have hne : k ≠ e.1 := fun heq => hnot (heq ▸ List.mem_map_of_mem hmem)
      rw [if_neg hne, ih hrest hmem]

theorem lookup_reverse_of_mem {entries : List (String × α)} (hnodup : (keys entries).Nodup) {k : String} {v : α}
    (h : (k, v) ∈ entries) : entries.reverse.lookup k = some v := by
  refine lookup_of_mem ?_ (List.mem_reverse.mpr h)
  rw [keys, List.map_reverse]
  exact (List.reverse_perm _).nodup_iff.mpr hnodup

theorem fromEntries_of_mem {entries : List (String × α)} (hnodup : (keys entries).Nodup) {k : String} {v : α}
    (h : (k, v) ∈ entries) : (fromEntries entries).lookup k = some v :=
  (lookup_fromEntries entries k).trans (lookup_reverse_of_mem hnodup h)

theorem mem_of_lookup {entries : List (String × α)} {k : String} {v : α} (h : entries.lookup k = some v) :
    (k, v) ∈ entries := by
  induction entries with
  | nil => cases h
  | cons e entries ih =>
    rw [lookup_cons] at h
    split_ifs at h with hk
    · cases h
      rw [hk]
      exact List.mem_cons_self
    · exact List.mem_cons_of_mem _ (ih h)

end Members

/-! ### What a text says -/

namespace Value

mutual

/-- Of a value, what `JSON.stringify` keeps. -/
def image : Value → Value
  | .number (.finite q) => .number (.finite q)
  | .number _ => .null
  | .array items => .array (imageItems items)
  | .object members => .object (imageMembers members)
  | v => v

def imageItems : List Value → List Value
  | [] => []
  | v :: rest => image v :: imageItems rest

def imageMembers : Members → Members
  | [] => []
  | (k, v) :: rest => (k, image v) :: imageMembers rest

end

/-- `JSON.stringify(a) === JSON.stringify(b)`; nothing stands for `undefined`. -/
def SameText (a b : Option Value) : Prop := a.map image = b.map image

instance (a b : Option Value) : Decidable (SameText a b) := inferInstanceAs (Decidable (_ = _))

theorem SameText.refl (a : Option Value) : SameText a a := rfl

theorem imageItems_eq (items : List Value) : imageItems items = items.map image := by
  induction items with
  | nil => rfl
  | cons v rest ih => rw [imageItems, ih, List.map_cons]

theorem lookup_imageMembers (ms : Members) (k : String) : (imageMembers ms).lookup k = (ms.lookup k).map image := by
  induction ms with
  | nil => rfl
  | cons m ms ih =>
    obtain ⟨j, v⟩ := m
    rw [imageMembers, Members.lookup_cons, Members.lookup_cons, ih]
    by_cases hk : k = j
    · simp [hk]
    · simp [hk]

theorem keys_imageMembers (ms : Members) : Members.keys (imageMembers ms) = Members.keys ms := by
  induction ms with
  | nil => rfl
  | cons m ms ih =>
    obtain ⟨k, v⟩ := m
    rw [imageMembers]
    exact congrArg (k :: ·) ih

theorem SameText.keys {ms ns : Members} (h : SameText (some (.object ms)) (some (.object ns))) :
    Members.keys ms = Members.keys ns := by
  rw [← keys_imageMembers ms, ← keys_imageMembers ns]
  exact congrArg Members.keys (Value.object.inj (Option.some_inj.mp h))

/-! ### Places in a document -/

/-- The members of an object, none for other values. -/
def membersOf : Option Value → Members
  | some (.object members) => members
  | _ => []

def itemsOf : Option Value → List Value
  | some (.array items) => items
  | _ => []

inductive Step where
  | key (k : String)
  | index (i : ℕ)
  deriving Repr, DecidableEq

def child (v : Option Value) : Step → Option Value
  | .key k => (membersOf v).lookup k
  | .index i => (itemsOf v)[i]?

def descend (v : Option Value) (path : List Step) : Option Value := path.foldl child v

/-- Of a value, what is seen without going into it. -/
def shape : Value → Value
  | .array items => .array (items.map fun _ => .null)
  | .object _ => .object []
  | v => image v

/-- The same data: members may stand in another order. -/
def Agree (a b : Option Value) : Prop := ∀ path, (descend a path).map shape = (descend b path).map shape

theorem Agree.refl (a : Option Value) : Agree a a := fun _ => rfl

theorem agree_of_children {a b : Option Value} (hshape : a.map shape = b.map shape)
    (h : ∀ s, Agree (Value.child a s) (Value.child b s)) : Agree a b := by
  intro path
  cases path with
  | nil => exact hshape
  | cons s path => exact h s path

theorem shape_image (v : Value) : shape (image v) = shape v := by
  cases v with
  | number n => cases n <;> rfl
  | array items => simp only [image, imageItems_eq, shape, List.map_map, Function.comp_def]
  | _ => rfl

theorem child_image (v : Option Value) (s : Step) : child (v.map image) s = (child v s).map image := by
  cases v with
  | none => cases s <;> rfl
  | some v =>
    cases v with
    | number n => cases n <;> cases s <;> rfl
    | array items =>
      cases s with
      | key k => rfl
      | index i => simp [child, image, itemsOf, imageItems_eq]
    | object ms =>
      cases s with
      | key k => exact lookup_imageMembers ms k
      | index i => rfl
    | _ => cases s <;> rfl

theorem SameText.child {a b : Option Value} (h : SameText a b) (s : Step) :
    SameText (Value.child a s) (Value.child b s) := by
  rw [SameText, ← child_image, ← child_image, h]

theorem SameText.shape {a b : Option Value} (h : SameText a b) : a.map Value.shape = b.map Value.shape := by
  have himage : ∀ v : Option Value, v.map Value.shape = (v.map image).map Value.shape := fun v => by
    rw [Option.map_map]
    exact congrArg (v.map ·) (funext fun w => (shape_image w).symm)
  rw [himage a, himage b, h]

theorem SameText.agree {a b : Option Value} (h : SameText a b) : Agree a b := by
  intro path
  induction path generalizing a b with
  | nil => exact h.shape
  | cons s path ih => exact ih (h.child s)

end Value
end Jaiba.Lib
