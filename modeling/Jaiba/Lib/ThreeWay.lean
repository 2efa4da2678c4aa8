import Jaiba.Lib.Document

/-!
# Three-way merge of documents

An editor knows `baseline`, what it can show of a `source`, and `current`, the
same after edits. `merge` applies the edits to the source. Its laws speak about
places: what the edits leave alone keeps the value of the source
(`merge_untouched`), and a source that is shown whole ends as it is wanted
(`merge_agree`).
-/

namespace Jaiba.Lib.Value

section merge
variable {κ : Type} [DecidableEq κ] (identity : Value → Option κ)

/-- Where the item stood before: with the same identity, or at the same index. -/
def previous (before : List Value) (index : ℕ) (item : Value) : Option ℕ :=
  match identity item with
  | none => some index
  | some key => before.findIdx? fun other => identity other = some key

/-- For each key in its turn, the merged value; none deletes. -/
def settle (merged : List (String × Option Value)) (keys : List String) (result : Members) : Members :=
  keys.foldl
    (fun r key =>
      match (merged.lookup key).join with
      | some v => Members.put key v r
      | none => Members.erase key r)
    result

def isArray : Option Value → Bool
  | some (.array _) => true
  | _ => false

mutual

/-- Nothing stands for `undefined`, and a member that is `undefined` is no member. -/
def merge (source baseline : Option Value) : Value → Option Value
  | .array current =>
    if SameText baseline (some (.array current)) then source
    else if isArray baseline && isArray source then
      some (.array (mergeItems (itemsOf source) (itemsOf baseline) 0 current))
    else some (.array current)
  | .object current =>
    if SameText baseline (some (.object current)) then source
    else
      let result := membersOf source
      let before := membersOf baseline
      let keys := Members.keys before ++ (Members.keys current).filter (· ∉ Members.keys before)
      some (.object (settle (mergeMembers result before current) keys result))
  | current => if SameText baseline (some current) then source else some current

def mergeItems (olds before : List Value) : ℕ → List Value → List Value
  | _, [] => []
  | index, item :: rest =>
    (match previous identity before index item with
      | none => item
      | some p => (merge olds[p]? before[p]? item).getD .null) :: mergeItems olds before (index + 1) rest

def mergeMembers (result before : Members) : Members → List (String × Option Value)
  | [] => []
  | (key, v) :: rest => (key, merge (result.lookup key) (before.lookup key) v) :: mergeMembers result before rest

end

/-- The same for a place that `current` may lack. -/
def mergeAt (source baseline : Option Value) : Option Value → Option Value
  | none => if baseline = none then source else none
  | some current => merge identity source baseline current

end merge

variable {κ : Type} [DecidableEq κ] {identity : Value → Option κ} {source baseline : Option Value}

theorem merge_same {current : Value} (h : SameText baseline (some current)) :
    merge identity source baseline current = source := by
  cases current <;> simp only [merge, if_pos h]

theorem mergeAt_same {current : Option Value} (h : SameText baseline current) :
    mergeAt identity source baseline current = source := by
  cases current with
  | none => exact if_pos (Option.map_eq_none_iff.mp h)
  | some current => exact merge_same h

/-! ### One member -/

theorem lookup_mergeMembers (result before current : Members) (k : String) :
    (mergeMembers identity result before current).lookup k =
      (current.lookup k).map (merge identity (result.lookup k) (before.lookup k)) := by
  induction current with
  | nil => rfl
  | cons m current ih =>
    obtain ⟨j, v⟩ := m
    rw [mergeMembers, Members.lookup_cons, Members.lookup_cons, ih]
    by_cases hk : k = j
    · simp [hk]
    · simp [hk]

theorem lookup_settle (merged : List (String × Option Value)) (keys : List String) (result : Members) (k : String) :
    (settle merged keys result).lookup k = if k ∈ keys then (merged.lookup k).join else result.lookup k := by
  induction keys generalizing result with
  | nil => simp [settle]
  | cons key keys ih =>
    rw [settle, List.foldl_cons, ← settle, ih]
    by_cases hmem : k ∈ keys
    · simp [hmem]
    · rw [if_neg hmem]
      by_cases hk : k = key
      · subst hk
        cases hv : (merged.lookup k).join with
        | none => simp [Members.lookup_erase]
        | some v => simp [Members.lookup_put]
      · cases hv : (merged.lookup key).join with
        | none => simp [Members.lookup_erase, hk, hmem]
        | some v => simp [Members.lookup_put, hk, hmem]

theorem mem_touched {before current : Members} {k : String} :
    k ∈ Members.keys before ++ (Members.keys current).filter (· ∉ Members.keys before) ↔
      k ∈ Members.keys before ∨ k ∈ Members.keys current := by
  by_cases hb : k ∈ Members.keys before
  · simp [hb]
  · simp [hb]

/-- A member of the merged object is the merge of the members. -/
theorem lookup_merge (current : Members) (k : String) :
    (membersOf (merge identity source baseline (.object current))).lookup k =
      mergeAt identity ((membersOf source).lookup k) ((membersOf baseline).lookup k) (current.lookup k) := by
  by_cases hsame : SameText baseline (some (.object current))
  · have hchild : SameText ((membersOf baseline).lookup k) (current.lookup k) := hsame.child (.key k)
    rw [merge_same hsame, mergeAt_same hchild]
  · rw [merge, if_neg hsame]
    have hsettle := lookup_settle (mergeMembers identity (membersOf source) (membersOf baseline) current)
      (Members.keys (membersOf baseline) ++ (Members.keys current).filter (· ∉ Members.keys (membersOf baseline)))
      (membersOf source) k
    rw [lookup_mergeMembers] at hsettle
    refine hsettle.trans ?_
    cases hc : current.lookup k with
    | some v =>
      rw [if_pos (mem_touched.mpr (.inr (Members.mem_keys hc)))]
      rfl
    | none =>
      have hk := Members.lookup_eq_none_iff.mp hc
      cases hb : (membersOf baseline).lookup k with
      | none =>
        have hmem := Members.lookup_eq_none_iff.mp hb
        rw [if_neg fun h => (mem_touched.mp h).elim hmem hk]
        rfl
      | some w =>
        rw [if_pos (mem_touched.mpr (.inl (Members.mem_keys hb)))]
        rfl

/-! ### What the edits leave alone -/

/-- At the place the edits say nothing new, and nothing above it was taken away. -/
def Untouched (baseline current : Option Value) : List String → Prop
  | [] => SameText baseline current
  | k :: path =>
    SameText baseline current ∨
      (∃ members, current = some (.object members)) ∧
        Untouched (child baseline (.key k)) (child current (.key k)) path

/-- The value at a path of keys. -/
def place (v : Option Value) (path : List String) : Option Value := path.foldl (fun v k => child v (.key k)) v

theorem merge_untouched {current : Option Value} {path : List String} (h : Untouched baseline current path) :
    place (mergeAt identity source baseline current) path = place source path := by
  induction path generalizing source baseline current with
  | nil => exact mergeAt_same h
  | cons k path ih =>
    rcases h with hsame | ⟨⟨members, rfl⟩, h⟩
    · rw [mergeAt_same hsame]
    · have hchild : child (mergeAt identity source baseline (some (.object members))) (.key k) =
          mergeAt identity (child source (.key k)) (child baseline (.key k)) (members.lookup k) := lookup_merge members k
      rw [place, List.foldl_cons, hchild]
      exact ih h

/-! ### What the edits ask for -/

/-- Neither an array nor an object. -/
def Scalar : Value → Prop
  | .array _ => False
  | .object _ => False
  | _ => True

theorem merge_scalar {current : Value} (hs : Scalar current) (h : ¬ SameText baseline (some current)) :
    merge identity source baseline current = some current := by
  cases current with
  | array => exact hs.elim
  | object => exact hs.elim
  | _ => simp only [merge, if_neg h]

theorem merge_ne_none {current : Value} (h : source = none → ¬ SameText baseline (some current)) :
    merge identity source baseline current ≠ none := by
  by_cases hsame : SameText baseline (some current)
  · rw [merge_same hsame]
    exact fun hs => h hs hsame
  · cases current with
    | array current =>
      rw [merge, if_neg hsame]
      split_ifs <;> nofun
    | object current =>
      rw [merge, if_neg hsame]
      nofun
    | _ =>
      rw [merge_scalar (by trivial) hsame]
      nofun

/-- Keys that keep their members leave the object as it is, but for one key. -/
theorem settle_frame {merged : List (String × Option Value)} {keys : List String} {result : Members} {c : String}
    (hother : ∀ k ∈ keys, k ≠ c → (merged.lookup k).join = result.lookup k)
    (hc : c ∈ keys → ∃ x, (merged.lookup c).join = some x ∧ (result.lookup c).isSome) :
    settle merged keys result = result ∨
      ∃ x, (result.lookup c).isSome ∧ settle merged keys result = Members.put c x result := by
  let P : Members → Prop := fun r => r = result ∨ ∃ x, (result.lookup c).isSome ∧ r = Members.put c x result
  have hkept : ∀ r, P r → ∀ k, k ≠ c → r.lookup k = result.lookup k := by
    rintro r (rfl | ⟨x, -, rfl⟩) k hk
    · rfl
    · rw [Members.lookup_put, if_neg hk]
  have hfold : ∀ (keys' : List String), (∀ k ∈ keys', k ∈ keys) → ∀ r, P r → P (settle merged keys' r) := by
    intro keys'
    induction keys' with
    | nil => exact fun _ r hr => hr
    | cons k keys' ih =>
      intro hsub r hr
      have hk := hsub k List.mem_cons_self
      refine ih (fun j hj => hsub j (List.mem_cons_of_mem _ hj)) _ ?_
      dsimp only
      by_cases heq : k = c
      · subst heq
        obtain ⟨x, hx, hsome⟩ := hc hk
        rw [hx]
        rcases hr with rfl | ⟨y, -, rfl⟩
        · exact .inr ⟨x, hsome, rfl⟩
        · exact .inr ⟨x, hsome, Members.put_put hsome y x⟩
      · rw [hother k hk heq]
        have hlookup := hkept r hr k heq
        cases hv : result.lookup k with
        | none =>
          dsimp only
          rw [Members.erase_absent (hlookup.trans hv)]
          exact hr
        | some v =>
          dsimp only
          rw [Members.put_self (hlookup.trans hv)]
          exact hr
  exact hfold keys (fun _ h => h) result (.inl rfl)

/-- Where one member alone was edited, the merge sets that member and no other. -/
theorem merge_frame {current : Members} {c : String}
    (hother : ∀ k, k ≠ c → SameText ((membersOf baseline).lookup k) (current.lookup k))
    (hc : (membersOf baseline).lookup c = none ∧ current.lookup c = none ∨
      ((membersOf source).lookup c).isSome ∧ (current.lookup c).isSome) :
    membersOf (merge identity source baseline (.object current)) = membersOf source ∨
      ∃ x, ((membersOf source).lookup c).isSome ∧
        membersOf (merge identity source baseline (.object current)) = Members.put c x (membersOf source) := by
  by_cases hsame : SameText baseline (some (.object current))
  · rw [merge_same hsame]
    exact .inl rfl
  · rw [merge, if_neg hsame]
    refine settle_frame ?_ ?_
    · intro k hk hne
      rw [lookup_mergeMembers]
      cases hv : current.lookup k with
      | some v =>
        have htext := hother k hne
        rw [hv] at htext
        rw [Option.map_some, merge_same htext]
        rfl
      | none =>
        have htext := hother k hne
        rw [hv] at htext
        have hb := Option.map_eq_none_iff.mp htext
        exact absurd (mem_touched.mp hk)
          (not_or.mpr ⟨Members.lookup_eq_none_iff.mp hb, Members.lookup_eq_none_iff.mp hv⟩)
    · intro hk
      rcases hc with ⟨hb, hv⟩ | ⟨hsome, hv⟩
      · exact absurd (mem_touched.mp hk)
          (not_or.mpr ⟨Members.lookup_eq_none_iff.mp hb, Members.lookup_eq_none_iff.mp hv⟩)
      · obtain ⟨v, hv⟩ := Option.isSome_iff_exists.mp hv
        have hne : merge identity ((membersOf source).lookup c) ((membersOf baseline).lookup c) v ≠ none := by
          refine merge_ne_none fun hnone => ?_
          rw [hnone] at hsome
          cases hsome
        obtain ⟨x, hx⟩ := Option.ne_none_iff_exists'.mp hne
        refine ⟨x, ?_, hsome⟩
        rw [lookup_mergeMembers, hv, Option.map_some, hx]
        rfl

theorem getElem?_mergeItems (olds before current : List Value) (start i : ℕ) :
    (mergeItems identity olds before start current)[i]? = current[i]?.map fun item =>
      (match previous identity before (start + i) item with
        | none => item
        | some p => (merge identity olds[p]? before[p]? item).getD .null) := by
  induction current generalizing start i with
  | nil => rfl
  | cons item current ih =>
    rw [mergeItems]
    cases i with
    | zero => rfl
    | succ i =>
      rw [List.getElem?_cons_succ, List.getElem?_cons_succ, ih, Nat.add_right_comm, Nat.add_assoc]

theorem length_mergeItems (olds before current : List Value) (start : ℕ) :
    (mergeItems identity olds before start current).length = current.length := by
  induction current generalizing start with
  | nil => rfl
  | cons item current ih => rw [mergeItems, List.length_cons, List.length_cons, ih]

theorem shape_merge (source current : Option Value) :
    (mergeAt identity source source current).map shape = current.map shape := by
  by_cases hsame : SameText source current
  · rw [mergeAt_same hsame]
    exact hsame.shape
  · cases current with
    | none =>
      have hne : source ≠ none := fun heq => hsame (by rw [heq]; exact .refl _)
      rw [mergeAt, if_neg hne]
    | some current =>
      cases current with
      | array current =>
        rw [mergeAt, merge, if_neg hsame]
        split_ifs
        · simp only [Option.map_some, shape, List.map_const', length_mergeItems]
        · rfl
      | object current =>
        rw [mergeAt, merge, if_neg hsame]
        rfl
      | _ => rw [mergeAt, merge_scalar (by trivial) hsame]

/-- Below an edited place each place is again merged with itself, or taken as it is. -/
theorem child_mergeAt {source current : Option Value} (hsame : ¬ SameText source current) (s : Step) :
    child (mergeAt identity source source current) s = child current s ∨
      ∃ inner, child (mergeAt identity source source current) s = mergeAt identity inner inner (child current s) := by
  cases current with
  | none =>
    have hne : source ≠ none := fun heq => hsame (by rw [heq]; exact .refl _)
    left
    rw [mergeAt, if_neg hne]
  | some current =>
    cases current with
    | object current =>
      cases s with
      | key k => exact .inr ⟨child source (.key k), lookup_merge current k⟩
      | index i =>
        left
        rw [mergeAt, merge, if_neg hsame]
        rfl
    | array current =>
      rw [mergeAt, merge, if_neg hsame]
      split_ifs
      · cases s with
        | key k => exact .inl rfl
        | index i =>
          have hitem := @getElem?_mergeItems κ _ identity (itemsOf source) (itemsOf source) current 0 i
          cases hv : current[i]? with
          | none =>
            left
            rw [hv] at hitem
            exact hitem.trans hv.symm
          | some v =>
            rw [hv, Option.map_some] at hitem
            cases hp : previous identity (itemsOf source) (0 + i) v with
            | none =>
              left
              rw [hp] at hitem
              exact hitem.trans hv.symm
            | some p =>
              right
              rw [hp] at hitem
              have hne : merge identity (itemsOf source)[p]? (itemsOf source)[p]? v ≠ none := by
                refine merge_ne_none fun hnone htext => ?_
                rw [hnone] at htext
                cases htext
              obtain ⟨w, hw⟩ := Option.ne_none_iff_exists'.mp hne
              have hchild : child (some (.array current)) (.index i) = some v := hv
              refine ⟨(itemsOf source)[p]?, hitem.trans ?_⟩
              dsimp only
              rw [hchild, mergeAt, hw, Option.getD_some]
      · exact .inl rfl
    | _ =>
      left
      rw [mergeAt, merge_scalar (by trivial) hsame]

/-- A source that is shown whole ends as it is wanted. -/
theorem merge_agree (source current : Option Value) : Agree (mergeAt identity source source current) current := by
  intro path
  induction path generalizing source current with
  | nil => exact shape_merge source current
  | cons s path ih =>
    by_cases hsame : SameText source current
    · rw [mergeAt_same hsame]
      exact hsame.agree (s :: path)
    · show (descend (child (mergeAt identity source source current) s) path).map shape = _
      rcases @child_mergeAt κ _ identity source current hsame s with heq | ⟨inner, heq⟩
      · rw [heq]
        rfl
      · rw [heq]
        exact ih inner (child current s)

/-- What was not shown and has no members gives way. -/
theorem merge_fresh_agree {source current : Option Value} (hempty : membersOf source = [])
    (hne : current ≠ none) : Agree (mergeAt identity source none current) current := by
  cases current with
  | none => exact absurd rfl hne
  | some current =>
    have hsame : ¬ SameText none (some current) := nofun
    cases current with
    | object current =>
      refine agree_of_children ?_ fun s => ?_
      · rw [mergeAt, merge, if_neg hsame]
        rfl
      · cases s with
        | key k =>
          have hk := @lookup_merge κ _ identity source none current k
          rw [hempty] at hk
          show Agree ((membersOf (merge identity source none (.object current))).lookup k) _
          rw [hk]
          exact merge_agree none _
        | index i =>
          rw [mergeAt, merge, if_neg hsame]
          exact .refl _
    | array current =>
      rw [mergeAt, merge, if_neg hsame]
      exact .refl _
    | _ =>
      rw [mergeAt, merge_scalar (by trivial) hsame]
      exact .refl _

end Jaiba.Lib.Value
