import Jaiba.Lib.Bytes

/-!
# The path of a URL

How a URL parser reads a path: tabs and line breaks are dropped, the text is
split at slashes (at backslashes too for the schemes of the web), and the dot
segments are resolved. The path is never longer than its text, and shorter as
soon as something was dropped.
-/

namespace Jaiba.Lib.UrlPath

def slash : UInt8 := 47

/-- Tab, line feed and carriage return. -/
def isBreak (b : UInt8) : Bool := b = 9 || b = 10 || b = 13

def isSeparator (special : Bool) (b : UInt8) : Bool := b = slash || special && b = 92

def lower (b : UInt8) : UInt8 := if 65 ≤ b.toNat ∧ b.toNat ≤ 90 then b + 32 else b

/-- `.`, also written `%2e`. -/
def isSingleDot (segment : Bytes) : Bool := segment.map lower ∈ ([[46], [37, 50, 101]] : List Bytes)

/-- `..`, each dot also written `%2e`. -/
def isDoubleDot (segment : Bytes) : Bool :=
  segment.map lower ∈
    ([[46, 46], [46, 37, 50, 101], [37, 50, 101, 46], [37, 50, 101, 37, 50, 101]] : List Bytes)

def IsDot (segment : Bytes) : Prop := isSingleDot segment = true ∨ isDoubleDot segment = true

instance (segment : Bytes) : Decidable (IsDot segment) := inferInstanceAs (Decidable (_ ∨ _))

/-- The segments of a text. -/
def segments (special : Bool) : Bytes → List Bytes
  | [] => [[]]
  | b :: bs =>
    if isSeparator special b then [] :: segments special bs
    else match segments special bs with
      | [] => [[b]]
      | segment :: rest => (b :: segment) :: rest

/-- The dot segments resolved, with the segments that were passed, the last first. -/
def resolve (passed : List Bytes) : List Bytes → List Bytes
  | [] => passed.reverse
  | [last] =>
    if isDoubleDot last then ([] :: passed.tail).reverse
    else if isSingleDot last then ([] :: passed).reverse
    else (last :: passed).reverse
  | segment :: rest =>
    if isDoubleDot segment then resolve passed.tail rest
    else if isSingleDot segment then resolve passed rest
    else resolve (segment :: passed) rest

/-- Each segment behind a slash. -/
def render (path : List Bytes) : Bytes := path.flatMap fun segment => slash :: segment

def path (special : Bool) (text : Bytes) : Bytes :=
  render (resolve [] (segments special (text.filter fun b => !isBreak b)))

/-! ### Segments -/

theorem segments_ne (special : Bool) (text : Bytes) : segments special text ≠ [] := by
  cases text with
  | nil => exact List.cons_ne_nil _ _
  | cons b bs =>
    rw [segments]
    split
    · exact List.cons_ne_nil _ _
    · split <;> exact List.cons_ne_nil _ _

/-- The slashes between the segments, which are not always those of the text. -/
theorem render_segments_length (special : Bool) (text : Bytes) :
    (render (segments special text)).length = text.length + 1 := by
  induction text with
  | nil => rfl
  | cons b bs ih =>
    rw [segments]
    split
    · simp only [render, List.flatMap_cons, List.length_append, List.length_cons, List.length_nil] at ih ⊢
      omega
    · cases hsegments : segments special bs with
      | nil => exact absurd hsegments (segments_ne special bs)
      | cons segment rest =>
        rw [hsegments] at ih
        simp only [render, List.flatMap_cons, List.length_append, List.length_cons] at ih ⊢
        omega

theorem render_segments {special : Bool} {text : Bytes} (h : special = true → (92 : UInt8) ∉ text) :
    render (segments special text) = slash :: text := by
  induction text with
  | nil => rfl
  | cons b bs ih =>
    have hrest := ih fun hs hmem => h hs (List.mem_cons_of_mem b hmem)
    rw [segments]
    split
    next hseparator =>
      have hb : b = slash := by
        unfold isSeparator at hseparator
        simp only [Bool.or_eq_true, Bool.and_eq_true, decide_eq_true_eq] at hseparator
        rcases hseparator with hb | ⟨hs, rfl⟩
        · exact hb
        · exact absurd List.mem_cons_self (h hs)
      rw [render, List.flatMap_cons, ← render, hrest, hb]
      rfl
    · cases hsegments : segments special bs with
      | nil => exact absurd hsegments (segments_ne special bs)
      | cons segment rest =>
        rw [hsegments, render, List.flatMap_cons, ← render, List.cons_append] at hrest
        have htail := (List.cons.inj hrest).2
        dsimp only
        rw [render, List.flatMap_cons, ← render, List.cons_append, List.cons_append, htail]

theorem mem_segments {special : Bool} {text segment : Bytes} (h : segment ∈ segments special text) {b : UInt8}
    (hb : b ∈ segment) : b ∈ text ∧ isSeparator special b = false := by
  induction text generalizing segment with
  | nil =>
    rw [segments, List.mem_singleton] at h
    rw [h] at hb
    exact absurd hb List.not_mem_nil
  | cons c cs ih =>
    rw [segments] at h
    split at h
    · rcases List.mem_cons.mp h with rfl | h
      · exact absurd hb List.not_mem_nil
      · exact ⟨List.mem_cons_of_mem c (ih h hb).1, (ih h hb).2⟩
    next hseparator =>
      cases hsegments : segments special cs with
      | nil => exact absurd hsegments (segments_ne special cs)
      | cons first rest =>
        rw [hsegments] at h ih
        rcases List.mem_cons.mp h with rfl | h
        · rcases List.mem_cons.mp hb with rfl | hb
          · exact ⟨List.mem_cons_self, Bool.eq_false_of_not_eq_true hseparator⟩
          · have hmem := ih List.mem_cons_self hb
            exact ⟨List.mem_cons_of_mem c hmem.1, hmem.2⟩
        · have hmem := ih (List.mem_cons_of_mem first h) hb
          exact ⟨List.mem_cons_of_mem c hmem.1, hmem.2⟩

/-! ### Dot segments -/

theorem IsDot.length_pos {segment : Bytes} (h : IsDot segment) : 0 < segment.length := by
  have hne : segment ≠ [] := by
    rintro rfl
    rcases h with h | h <;> exact absurd h (by decide)
  exact List.length_pos_iff.mpr hne

def weight (path : List Bytes) : ℕ := (render path).length

theorem weight_cons (segment : Bytes) (path : List Bytes) : weight (segment :: path) = segment.length + 1 + weight path := by
  rw [weight, weight, render, List.flatMap_cons, ← render, List.length_append, List.length_cons]

theorem weight_append (path path' : List Bytes) : weight (path ++ path') = weight path + weight path' := by
  rw [weight, weight, weight, render, List.flatMap_append, List.length_append]
  rfl

theorem weight_reverse (path : List Bytes) : weight path.reverse = weight path := by
  induction path with
  | nil => rfl
  | cons segment path ih =>
    rw [List.reverse_cons, weight_append, ih, weight_cons, weight_cons]
    simp only [weight, render, List.flatMap_nil, List.length_nil]
    omega

theorem weight_tail_le (path : List Bytes) : weight path.tail ≤ weight path := by
  cases path with
  | nil => exact Nat.le_refl _
  | cons segment path =>
    rw [List.tail_cons, weight_cons]
    omega

theorem resolve_cons_cons (passed : List Bytes) (segment next : Bytes) (rest : List Bytes) :
    resolve passed (segment :: next :: rest) =
      if isDoubleDot segment then resolve passed.tail (next :: rest)
      else if isSingleDot segment then resolve passed (next :: rest)
      else resolve (segment :: passed) (next :: rest) := rfl

theorem resolve_eq {segs passed : List Bytes} (h : ∀ segment ∈ segs, ¬ IsDot segment) :
    resolve passed segs = passed.reverse ++ segs := by
  induction segs generalizing passed with
  | nil => rw [resolve, List.append_nil]
  | cons segment rest ih =>
    have hnot := not_or.mp (h segment List.mem_cons_self)
    cases rest with
    | nil => rw [resolve, if_neg hnot.2, if_neg hnot.1, List.reverse_cons]
    | cons next rest =>
      rw [resolve_cons_cons, if_neg hnot.2, if_neg hnot.1, ih fun s hs => h s (List.mem_cons_of_mem segment hs),
        List.reverse_cons, List.append_assoc, List.singleton_append]

/-- A dot segment is dropped, alone or with the segment before it. -/
theorem weight_resolve (segs passed : List Bytes) : weight (resolve passed segs) ≤ weight passed + weight segs ∧
    ((∃ segment ∈ segs, IsDot segment) → weight (resolve passed segs) < weight passed + weight segs) := by
  induction segs generalizing passed with
  | nil =>
    rw [resolve, weight_reverse]
    refine ⟨Nat.le_add_right _ _, ?_⟩
    rintro ⟨segment, hsegment, -⟩
    exact absurd hsegment List.not_mem_nil
  | cons segment rest ih =>
    have htail := weight_tail_le passed
    rw [weight_cons]
    cases rest with
    | nil =>
      rw [resolve]
      by_cases hdouble : isDoubleDot segment = true
      · have hpos := IsDot.length_pos (.inr hdouble)
        rw [if_pos hdouble, weight_reverse, weight_cons, List.length_nil]
        omega
      · by_cases hsingle : isSingleDot segment = true
        · have hpos := IsDot.length_pos (.inl hsingle)
          rw [if_neg hdouble, if_pos hsingle, weight_reverse, weight_cons, List.length_nil]
          omega
        · rw [if_neg hdouble, if_neg hsingle, weight_reverse, weight_cons]
          refine ⟨by omega, ?_⟩
          rintro ⟨s, hs, hdot⟩
          rw [List.mem_singleton.mp hs] at hdot
          exact absurd hdot (not_or.mpr ⟨hsingle, hdouble⟩)
    | cons next rest =>
      rw [resolve_cons_cons]
      by_cases hdouble : isDoubleDot segment = true
      · have hle := (ih passed.tail).1
        rw [if_pos hdouble]
        omega
      · by_cases hsingle : isSingleDot segment = true
        · have hle := (ih passed).1
          rw [if_neg hdouble, if_pos hsingle]
          omega
        · obtain ⟨hle, hlt⟩ := ih (segment :: passed)
          rw [weight_cons] at hle hlt
          rw [if_neg hdouble, if_neg hsingle]
          refine ⟨by omega, ?_⟩
          rintro ⟨s, hs, hdot⟩
          rcases List.mem_cons.mp hs with rfl | hs
          · exact absurd hdot (not_or.mpr ⟨hsingle, hdouble⟩)
          · have hshort := hlt ⟨s, hs, hdot⟩
            omega

theorem resolve_ne {segs : List Bytes} (hne : segs ≠ []) (passed : List Bytes) : resolve passed segs ≠ [] := by
  induction segs generalizing passed with
  | nil => exact absurd rfl hne
  | cons segment rest ih =>
    cases rest with
    | nil =>
      rw [resolve]
      split
      · simp
      · split <;> simp
    | cons next rest =>
      rw [resolve_cons_cons]
      split
      · exact ih (List.cons_ne_nil _ _) _
      · split <;> exact ih (List.cons_ne_nil _ _) _

theorem mem_resolve {segs passed : List Bytes} {segment : Bytes} (h : segment ∈ resolve passed segs) :
    segment = [] ∨ segment ∈ passed ∨ segment ∈ segs := by
  induction segs generalizing passed with
  | nil =>
    rw [resolve, List.mem_reverse] at h
    exact .inr (.inl h)
  | cons first rest ih =>
    cases rest with
    | nil =>
      rw [resolve] at h
      split at h
      · rcases List.mem_cons.mp (List.mem_reverse.mp h) with h | h
        · exact .inl h
        · exact .inr (.inl (List.mem_of_mem_tail h))
      · split at h
        · rcases List.mem_cons.mp (List.mem_reverse.mp h) with h | h
          · exact .inl h
          · exact .inr (.inl h)
        · rcases List.mem_cons.mp (List.mem_reverse.mp h) with rfl | h
          · exact .inr (.inr List.mem_cons_self)
          · exact .inr (.inl h)
    | cons next rest =>
      rw [resolve_cons_cons] at h
      split at h
      · rcases ih h with h | h | h
        · exact .inl h
        · exact .inr (.inl (List.mem_of_mem_tail h))
        · exact .inr (.inr (List.mem_cons_of_mem first h))
      · split at h
        · rcases ih h with h | h | h
          · exact .inl h
          · exact .inr (.inl h)
          · exact .inr (.inr (List.mem_cons_of_mem first h))
        · rcases ih h with h | h | h
          · exact .inl h
          · rcases List.mem_cons.mp h with rfl | h
            · exact .inr (.inr List.mem_cons_self)
            · exact .inr (.inl h)
          · exact .inr (.inr (List.mem_cons_of_mem first h))

/-! ### The whole path -/

/-- The path without its leading slashes. -/
def trimStart (bs : Bytes) : Bytes := bs.dropWhile fun b => b = slash

/-- A text that a path keeps as it is. -/
structure Kept (special : Bool) (text : Bytes) : Prop where
  breaks : ∀ b ∈ text, isBreak b = false
  dots : ∀ segment ∈ segments special text, ¬ IsDot segment
  head : text.head? ≠ some slash
  backslash : special = true → (92 : UInt8) ∉ text

theorem path_head (special : Bool) (text : Bytes) : ∃ rest, path special text = slash :: rest := by
  obtain ⟨segment, rest, hpath⟩ := List.exists_cons_of_ne_nil
    (resolve_ne (segments_ne special (text.filter fun b => !isBreak b)) [])
  refine ⟨segment ++ render rest, ?_⟩
  rw [path, hpath, render, List.flatMap_cons]
  rfl

theorem mem_path {special : Bool} {text : Bytes} {b : UInt8} (h : b ∈ path special text) :
    b = slash ∨ b ∈ text ∧ isSeparator special b = false := by
  obtain ⟨segment, hsegment, hb⟩ := List.mem_flatMap.mp h
  rcases List.mem_cons.mp hb with hb | hb
  · exact .inl hb
  · rcases mem_resolve hsegment with rfl | hmem | hmem
    · exact absurd hb List.not_mem_nil
    · exact absurd hmem List.not_mem_nil
    · obtain ⟨htext, hseparator⟩ := mem_segments hmem hb
      exact .inr ⟨(List.mem_filter.mp htext).1, hseparator⟩

theorem length_path_le (special : Bool) (text : Bytes) : (path special text).length ≤ text.length + 1 ∧
    ((path special text).length = text.length + 1 →
      (∀ b ∈ text, isBreak b = false) ∧ ∀ segment ∈ segments special text, ¬ IsDot segment) := by
  have hfilter := List.length_filter_le (fun b => !isBreak b) text
  have hsegments := render_segments_length special (text.filter fun b => !isBreak b)
  obtain ⟨hle, hlt⟩ := weight_resolve (segments special (text.filter fun b => !isBreak b)) []
  have hnil : weight [] = 0 := rfl
  rw [hnil, weight, weight, hsegments] at hle hlt
  refine ⟨?_, fun hlength => ?_⟩
  · rw [path]
    omega
  · rw [path] at hlength
    have hbreaks : text.filter (fun b => !isBreak b) = text :=
      List.filter_eq_self.mpr (List.length_filter_eq_length_iff.mp (by omega))
    refine ⟨fun b hb => ?_, fun segment hsegment hdot => ?_⟩
    · rw [← hbreaks, List.mem_filter] at hb
      simpa using hb.2
    · have hshort := hlt ⟨segment, by rw [hbreaks]; exact hsegment, hdot⟩
      omega

theorem length_trimStart_path_le (special : Bool) (text : Bytes) :
    (trimStart (path special text)).length ≤ text.length := by
  obtain ⟨rest, hpath⟩ := path_head special text
  have hlength := (length_path_le special text).1
  have hdrop := (List.dropWhile_suffix fun b => decide (b = slash) : rest.dropWhile _ <:+ rest).length_le
  rw [hpath, List.length_cons] at hlength
  rw [hpath, trimStart, List.dropWhile_cons_of_pos (by simp)]
  omega

theorem path_eq {special : Bool} {text : Bytes} (hbreaks : ∀ b ∈ text, isBreak b = false)
    (hdots : ∀ segment ∈ segments special text, ¬ IsDot segment) : path special text = render (segments special text) := by
  have hfilter : text.filter (fun b => !isBreak b) = text := by
    rw [List.filter_eq_self]
    intro b hb
    rw [hbreaks b hb]
    rfl
  rw [path, hfilter, resolve_eq hdots, List.reverse_nil, List.nil_append]

/-- A path that stands for as many bytes as its text is the text behind a slash. -/
theorem kept_of_length {special : Bool} {text : Bytes} (hlength : (trimStart (path special text)).length = text.length)
    (hbackslash : special = true → (92 : UInt8) ∉ text) : Kept special text ∧ trimStart (path special text) = text := by
  obtain ⟨rest, hpath⟩ := path_head special text
  have hdrop := (List.dropWhile_suffix fun b => decide (b = slash) : rest.dropWhile _ <:+ rest)
  have htrim : trimStart (path special text) = rest.dropWhile fun b => decide (b = slash) := by
    rw [hpath, trimStart, List.dropWhile_cons_of_pos (by simp)]
  have hle := (length_path_le special text).1
  have hdroplength := hdrop.length_le
  rw [htrim] at hlength
  obtain ⟨hbreaks, hdots⟩ := (length_path_le special text).2 (by rw [hpath, List.length_cons] at hle ⊢; omega)
  have hrest : rest = text := by
    have heq := path_eq hbreaks hdots
    rw [render_segments hbackslash, hpath] at heq
    exact (List.cons.inj heq).2
  subst hrest
  have hsame := hdrop.eq_of_length hlength
  refine ⟨⟨hbreaks, hdots, fun hhead => ?_, hbackslash⟩, htrim.trans hsame⟩
  obtain ⟨tail, rfl⟩ := List.head?_eq_some_iff.mp hhead
  rw [List.dropWhile_cons_of_pos (by simp)] at hlength
  have hshort := (List.dropWhile_suffix fun b => decide (b = slash) : tail.dropWhile _ <:+ tail).length_le
  rw [List.length_cons] at hlength
  omega

theorem Kept.path_eq {special : Bool} {text : Bytes} (h : Kept special text) : path special text = slash :: text := by
  rw [UrlPath.path_eq h.breaks h.dots, render_segments h.backslash]

theorem Kept.trimStart_path {special : Bool} {text : Bytes} (h : Kept special text) :
    trimStart (path special text) = text := by
  rw [h.path_eq, trimStart, List.dropWhile_cons_of_pos (by simp)]
  cases text with
  | nil => rfl
  | cons b bs =>
    rw [List.dropWhile_cons_of_neg]
    simpa using fun hb : b = slash => h.head (by rw [hb]; rfl)

theorem trimStart_path_eq_iff {special : Bool} {text : Bytes} : trimStart (path special text) = text ↔ Kept special text := by
  refine ⟨fun h => ?_, Kept.trimStart_path⟩
  refine (kept_of_length (by rw [h]) fun hspecial hmem => ?_).1
  rw [← h] at hmem
  rcases mem_path ((List.dropWhile_sublist _).mem hmem) with heq | ⟨-, hseparator⟩
  · exact absurd heq (by decide)
  · rw [hspecial] at hseparator
    exact absurd hseparator (by decide)

end Jaiba.Lib.UrlPath
