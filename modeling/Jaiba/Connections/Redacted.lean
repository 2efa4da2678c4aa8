import Jaiba.Connections.RedactExposes
import Mathlib.Logic.Relation

/-!
# Redaction and the passwords of a message

Messages that differ only in passwords have one redaction, for exactly the
classes of passwords and of values that the patterns run over.
-/

namespace Jaiba.Connections.Redact
open Jaiba.Lib Regex

/-- Two messages with one difference: the password of a URL, of the class `P`, or the value of a
`password=` pair, of the class `V`, up to the end of the text or a letter that ends a value. -/
inductive Differs (P V : Text → Prop) : Text → Text → Prop where
  | url (before scheme user password password' post : Text) : IsScheme scheme → user ≠ [] →
      (∀ c ∈ user, isUserChar c = true) → P password → P password' →
      Differs P V (before ++ scheme ++ authority user password post) (before ++ scheme ++ authority user password' post)
  | pair (before value value' post : Text) : EndsValue post → V value → V value' →
      Differs P V (before ++ assignment passwordKey '=' value post) (before ++ assignment passwordKey '=' value' post)

/-- Not empty and without whitespace. -/
def Unspaced (text : Text) : Prop := text ≠ [] ∧ text.all (fun c => !isSpace c) = true

section Hides

variable (isWord : Char → Bool)

theorem redact_password {scheme user post : Text} (hscheme : IsScheme scheme) (hne : user ≠ [])
    (huser : ∀ c ∈ user, isUserChar c = true) (before : Text) {password password' : Text}
    (h : HiddenPassword password) (h' : HiddenPassword password') :
    redactSensitive isWord (before ++ scheme ++ authority user password post) =
      redactSensitive isWord (before ++ scheme ++ authority user password' post) := by
  have hurl : urlRule.replaceAll (before ++ scheme ++ authority user password post) =
      urlRule.replaceAll (before ++ scheme ++ authority user password' post) :=
    url_hidden hscheme hne huser before h.ne h.chars h'.ne h'.chars
  rw [redactSensitive, redactSensitive, hurl]

theorem redact_pair {key post : Text} {sep : Char} (hkey : IsKeyword key) (hsep : isAssign sep = true)
    (hpost : EndsValue post) (before : Text) {value value' : Text} (h : CleanValue value) (h' : CleanValue value') :
    redactSensitive isWord (before ++ assignment key sep value post) =
      redactSensitive isWord (before ++ assignment key sep value' post) := by
  rcases url_pair_outcome hkey.chars hsep hpost hkey.ne before with ⟨out, hout⟩ | ⟨before', post', hpost', hout⟩
  · rw [redactSensitive, redactSensitive, hout value h, hout value' h']
  · have hpair : pairRule.replaceAll (before' ++ assignment key sep value post') =
        pairRule.replaceAll (before' ++ assignment key sep value' post') :=
      pair_hidden hkey hsep hpost' before' h.isValue h'.isValue
    rw [redactSensitive, redactSensitive, hout value h, hout value' h', hpair]

theorem redact_differs {m m' : Text} (h : Differs HiddenPassword CleanValue m m') :
    redactSensitive isWord m = redactSensitive isWord m' := by
  cases h with
  | url before scheme user password password' post hscheme hne huser hp hp' =>
    exact redact_password isWord hscheme hne huser before hp hp'
  | pair before value value' post hpost hv hv' =>
    exact redact_pair isWord passwordKey_keyword (by decide) hpost before hv hv'

end Hides

theorem Differs.mono {P P' V V' : Text → Prop} (hP : ∀ p, P p → P' p) (hV : ∀ v, V v → V' v) {m m' : Text}
    (h : Differs P V m m') : Differs P' V' m m' := by
  cases h with
  | url before scheme user password password' post hscheme hne huser hp hp' =>
    exact .url before scheme user password password' post hscheme hne huser (hP _ hp) (hP _ hp')
  | pair before value value' post hpost hv hv' => exact .pair before value value' post hpost (hV _ hv) (hV _ hv')

/-- Take a class of passwords and a class of values, each with a plain one: all messages that differ in these
have one redaction if and only if the patterns run over both classes. -/
theorem redact_hides_iff {isWord : Char → Bool} (hword : IsWordClass isWord) {P V : Text → Prop} (hP : P ['a'])
    (hV : V ['a']) : (∀ m m', Relation.ReflTransGen (Differs P V) m m' →
      redactSensitive isWord m = redactSensitive isWord m') ↔
      (∀ p, P p → HiddenPassword p) ∧ ∀ v, V v → CleanValue v := by
  constructor
  · intro h
    refine ⟨fun p hp => ?_, fun v hv => ?_⟩
    · by_contra hnot
      refine password_shows hword hnot (h _ _ (.single ?_))
      exact .url [] ['x'] ['~'] p ['a'] [] ⟨'x', [], rfl, by decide, fun d hd => absurd hd List.not_mem_nil⟩
        (List.cons_ne_nil _ _) (List.all_eq_true.mp (by decide)) hp hP
    · have hlike : LikePlain isWord v := fun before post hpost => h _ _ (.single (.pair before v ['a'] post hpost hv hV))
      exact hlike.clean hword
  · rintro ⟨hhidden, hclean⟩ m m' h
    induction h with
    | refl => rfl
    | tail _ hstep ih => exact ih.trans (redact_differs isWord (hstep.mono hhidden hclean))

theorem redact_hides_iff_unspaced : (∀ m m', Relation.ReflTransGen (Differs Unspaced Unspaced) m m' →
    redactSensitive asciiWord m = redactSensitive asciiWord m') ↔
      (∀ p, Unspaced p → HiddenPassword p) ∧ ∀ v, Unspaced v → CleanValue v :=
  redact_hides_iff (fun _ _ => rfl) ⟨List.cons_ne_nil _ _, by decide⟩ ⟨List.cons_ne_nil _ _, by decide⟩

/-- The slash ends the password of the pattern: `x://u:p/x@h` and `x://u:q/x@h` stay as they are. -/
theorem redact_shows_slash : ¬ ∀ m m', Relation.ReflTransGen (Differs Unspaced Unspaced) m m' →
    redactSensitive asciiWord m = redactSensitive asciiWord m' := by
  intro h
  have hdiffers : Differs Unspaced Unspaced ([] ++ ['x'] ++ authority ['u'] ['p', '/', 'x'] ['h'])
      ([] ++ ['x'] ++ authority ['u'] ['q', '/', 'x'] ['h']) :=
    .url [] ['x'] ['u'] ['p', '/', 'x'] ['q', '/', 'x'] ['h']
      ⟨'x', [], rfl, by decide, fun d hd => absurd hd List.not_mem_nil⟩ (List.cons_ne_nil _ _)
      (List.all_eq_true.mp (by decide))
      ⟨List.cons_ne_nil _ _, by decide⟩ ⟨List.cons_ne_nil _ _, by decide⟩
  exact absurd (h _ _ (.single hdiffers)) (by decide +kernel)

end Jaiba.Connections.Redact
