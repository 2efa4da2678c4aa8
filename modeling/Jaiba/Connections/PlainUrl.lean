import Jaiba.Connections.MongoUrl

/-!
# A crate for `mongodb://` URLs

User information, host, port, path and query, each kept as it is given: a
character that is not plain is escaped where it stands in a URL. It fulfils the
laws of the `url` crate, so these can hold together.
-/

namespace Jaiba.Connections.PlainUrl
open Jaiba.Lib

/-! ### Components -/

/-- Letters, digits, `-`, `.` and `_`. -/
def isPlain (c : Char) : Prop :=
  (48 ≤ c.toNat ∧ c.toNat ≤ 57) ∨ (65 ≤ c.toNat ∧ c.toNat ≤ 90) ∨ (97 ≤ c.toNat ∧ c.toNat ≤ 122) ∨
    c.toNat = 45 ∨ c.toNat = 46 ∨ c.toNat = 95

instance (c : Char) : Decidable (isPlain c) := inferInstanceAs (Decidable (_ ∨ _))

def hexValue (c : Char) : ℕ := if c.toNat < 58 then c.toNat - 48 else c.toNat - 87

theorem hexValue_digitChar : ∀ n, n < 16 → hexValue (Nat.digitChar n) = n := by decide

theorem isPlain_digitChar : ∀ n, n < 16 → isPlain (Nat.digitChar n) := by decide

def escape (c : Char) : List Char :=
  if isPlain c then [c]
  else ['%', Nat.digitChar (c.toNat / 1048576 % 16), Nat.digitChar (c.toNat / 65536 % 16),
    Nat.digitChar (c.toNat / 4096 % 16), Nat.digitChar (c.toNat / 256 % 16),
    Nat.digitChar (c.toNat / 16 % 16), Nat.digitChar (c.toNat % 16)]

def unescape : List Char → List Char
  | '%' :: a :: b :: c :: d :: e :: f :: rest =>
    Char.ofNat (hexValue a * 1048576 + hexValue b * 65536 + hexValue c * 4096 + hexValue d * 256 +
      hexValue e * 16 + hexValue f) :: unescape rest
  | c :: rest => c :: unescape rest
  | [] => []

def encode (s : String) : List Char := s.toList.flatMap escape

def decode (l : List Char) : String := String.ofList (unescape l)

theorem unescape_cons {c : Char} (h : c ≠ '%') (rest : List Char) :
    unescape (c :: rest) = c :: unescape rest := by
  rw [unescape]
  intro a b d e f g tail hc
  exact absurd hc h

theorem toNat_lt (c : Char) : c.toNat < 1114112 := by
  have hvalid : c.toNat.isValidChar := c.valid
  unfold Nat.isValidChar at hvalid
  omega

theorem unescape_escape (c : Char) (rest : List Char) : unescape (escape c ++ rest) = c :: unescape rest := by
  unfold escape
  split
  · rename_i hplain
    refine unescape_cons (fun hc => ?_) rest
    rw [hc] at hplain
    exact absurd hplain (by decide)
  · have hlt : c.toNat < 1114112 := toNat_lt c
    simp only [List.cons_append, List.nil_append, unescape]
    rw [hexValue_digitChar _ (by omega), hexValue_digitChar _ (by omega), hexValue_digitChar _ (by omega),
      hexValue_digitChar _ (by omega), hexValue_digitChar _ (by omega), hexValue_digitChar _ (by omega)]
    have hsum : c.toNat / 1048576 % 16 * 1048576 + c.toNat / 65536 % 16 * 65536 + c.toNat / 4096 % 16 * 4096 +
        c.toNat / 256 % 16 * 256 + c.toNat / 16 % 16 * 16 + c.toNat % 16 = c.toNat := by omega
    rw [hsum, Char.ofNat_toNat]

theorem unescape_flatMap (l : List Char) : unescape (l.flatMap escape) = l := by
  induction l with
  | nil => rfl
  | cons c rest ih => rw [List.flatMap_cons, unescape_escape, ih]

theorem decode_encode (s : String) : decode (encode s) = s := by
  rw [decode, encode, unescape_flatMap, String.ofList_toList]

theorem plain_of_mem_encode {s : String} {c : Char} (h : c ∈ encode s) : isPlain c ∨ c = '%' := by
  obtain ⟨x, -, hx⟩ := List.mem_flatMap.mp h
  unfold escape at hx
  split at hx
  · rename_i hplain
    rw [List.mem_singleton.mp hx]
    exact .inl hplain
  · simp only [List.mem_cons, List.not_mem_nil, or_false] at hx
    rcases hx with rfl | rfl | rfl | rfl | rfl | rfl | rfl
    · exact .inr rfl
    all_goals exact .inl (isPlain_digitChar _ (by omega))

/-- No separator stands in a component. -/
theorem not_mem_encode {d : Char} (hd : ¬ isPlain d) (hne : d ≠ '%') (s : String) : d ∉ encode s := by
  intro h
  rcases plain_of_mem_encode h with hplain | hpercent
  · exact hd hplain
  · exact hne hpercent

/-! ### Separators -/

/-- What stands before the first `d`, and after it. -/
def splitFirst (d : Char) : List Char → List Char × Option (List Char)
  | [] => ([], none)
  | c :: rest => if c = d then ([], some rest) else (c :: (splitFirst d rest).1, (splitFirst d rest).2)

def joinOpt (d : Char) (l : List Char) : Option (List Char) → List Char
  | none => l
  | some rest => l ++ d :: rest

theorem splitFirst_joinOpt {d : Char} {l : List Char} (h : d ∉ l) (o : Option (List Char)) :
    splitFirst d (joinOpt d l o) = (l, o) := by
  induction l with
  | nil =>
    cases o with
    | none => rfl
    | some rest =>
      rw [joinOpt, List.nil_append, splitFirst, if_pos rfl]
  | cons c l ih =>
    obtain ⟨hc, hl⟩ := not_or.mp (mt List.mem_cons.mpr h)
    have hjoin : joinOpt d (c :: l) o = c :: joinOpt d l o := by
      cases o with
      | none => rfl
      | some rest => rfl
    rw [hjoin, splitFirst, if_neg (Ne.symm hc), ih hl]

theorem not_mem_joinOpt {d d' : Char} (hne : d ≠ d') {l : List Char} {o : Option (List Char)} (hl : d ∉ l)
    (ho : ∀ rest, o = some rest → d ∉ rest) : d ∉ joinOpt d' l o := by
  cases o with
  | none => exact hl
  | some rest =>
    rw [joinOpt, List.mem_append, List.mem_cons]
    rintro (h | h | h)
    · exact hl h
    · exact hne h
    · exact ho rest rfl h

theorem not_mem_intercalate {d s : Char} (hne : d ≠ s) {ls : List (List Char)} (h : ∀ l ∈ ls, d ∉ l) :
    d ∉ [s].intercalate ls := by
  induction ls with
  | nil => exact List.not_mem_nil
  | cons l ls ih =>
    have hl := h l List.mem_cons_self
    have hrest := ih fun l' hl' => h l' (List.mem_cons_of_mem _ hl')
    cases ls with
    | nil =>
      rw [List.intercalate_singleton]
      exact hl
    | cons l' ls =>
      rw [List.intercalate_cons_cons, List.mem_append, List.mem_append, List.mem_singleton]
      rintro ((h | h) | h)
      · exact hl h
      · exact hne h
      · exact hrest h

/-! ### URLs -/

/-- `mongodb://`. -/
def schemeText : List Char := ['m', 'o', 'n', 'g', 'o', 'd', 'b', ':', '/', '/']

structure Url where
  username : String
  password : Option String
  host : String
  port : Option String
  path : Option String
  query : List (String × String)

namespace Url

variable (u : Url)

def userinfo : Option (List Char) :=
  if u.username = "" ∧ u.password = none then none
  else some (joinOpt ':' (encode u.username) (u.password.map encode))

def hostport : List Char := joinOpt ':' (encode u.host) (u.port.map encode)

def authority : List Char :=
  match u.userinfo with
  | none => u.hostport
  | some info => joinOpt '@' info (some u.hostport)

def pairText (pair : String × String) : List Char := joinOpt '=' (encode pair.1) (some (encode pair.2))

def queryText : Option (List Char) :=
  if u.query = [] then none else some (['&'].intercalate (u.query.map pairText))

def chars : List Char := joinOpt '?' (joinOpt '/' u.authority (u.path.map encode)) u.queryText

def display : String := String.ofList (schemeText ++ u.chars)

end Url

/-- User and password of a user information. -/
def readUser : Option (List Char) → String × Option String
  | none => ("", none)
  | some info => (decode (splitFirst ':' info).1, (splitFirst ':' info).2.map decode)

/-- The user information before the `@`, and the rest. -/
def splitUser (authority : List Char) : Option (List Char) × List Char :=
  match splitFirst '@' authority with
  | (hostport, none) => (none, hostport)
  | (info, some hostport) => (some info, hostport)

def readPair (text : List Char) : String × String :=
  (decode (splitFirst '=' text).1, decode ((splitFirst '=' text).2.getD []))

def readChars (l : List Char) : Url :=
  let (front, query) := splitFirst '?' l
  let (authority, path) := splitFirst '/' front
  let (info, hostport) := splitUser authority
  let (host, port) := splitFirst ':' hostport
  { username := (readUser info).1
    password := (readUser info).2
    host := decode host
    port := port.map decode
    path := path.map decode
    query := query.elim [] fun text => (text.splitOn '&').map readPair }

def parse (s : String) : Except String Url :=
  if s.toList.take 10 = schemeText then .ok (readChars (s.toList.drop 10))
  else .error "relative URL without a base"

theorem map_decode_encode (o : Option String) : (o.map encode).map decode = o := by
  cases o with
  | none => rfl
  | some s => exact congrArg some (decode_encode s)

theorem not_mem_map {d : Char} (hd : ¬ isPlain d) (hne : d ≠ '%') (o : Option String) :
    ∀ rest, o.map encode = some rest → d ∉ rest := by
  intro rest h
  obtain ⟨s, -, rfl⟩ := Option.map_eq_some_iff.mp h
  exact not_mem_encode hd hne s

section

variable {d : Char} (hd : ¬ isPlain d) (hpercent : d ≠ '%') (hcolon : d ≠ ':')
include hd hpercent hcolon

theorem not_mem_hostport (u : Url) : d ∉ u.hostport :=
  not_mem_joinOpt hcolon (not_mem_encode hd hpercent _) (not_mem_map hd hpercent _)

theorem not_mem_userinfo {u : Url} {info : List Char} (h : u.userinfo = some info) : d ∉ info := by
  unfold Url.userinfo at h
  split at h
  · cases h
  · cases h
    exact not_mem_joinOpt hcolon (not_mem_encode hd hpercent _) (not_mem_map hd hpercent _)

theorem not_mem_authority (hat : d ≠ '@') (u : Url) : d ∉ u.authority := by
  unfold Url.authority
  cases hinfo : u.userinfo with
  | none => exact not_mem_hostport hd hpercent hcolon u
  | some info =>
    refine not_mem_joinOpt hat (not_mem_userinfo hd hpercent hcolon hinfo) fun rest hrest => ?_
    cases hrest
    exact not_mem_hostport hd hpercent hcolon u

end

theorem readUser_userinfo (u : Url) : readUser u.userinfo = (u.username, u.password) := by
  unfold Url.userinfo
  split
  · rename_i hnone
    rw [hnone.1, hnone.2]
    rfl
  · rw [readUser, splitFirst_joinOpt (not_mem_encode (by decide) (by decide) _), decode_encode,
      map_decode_encode]

theorem splitUser_authority (u : Url) : splitUser u.authority = (u.userinfo, u.hostport) := by
  unfold Url.authority splitUser
  cases hinfo : u.userinfo with
  | none =>
    have hsplit := splitFirst_joinOpt (not_mem_hostport (by decide : ¬ isPlain '@') (by decide) (by decide) u) none
    dsimp only
    rw [joinOpt] at hsplit
    rw [hsplit]
  | some info =>
    dsimp only
    rw [splitFirst_joinOpt (not_mem_userinfo (by decide) (by decide) (by decide) hinfo)]

theorem readPair_pairText (pair : String × String) : readPair (Url.pairText pair) = pair := by
  rw [readPair, Url.pairText, splitFirst_joinOpt (not_mem_encode (by decide) (by decide) _), Option.getD_some,
    decode_encode, decode_encode]

theorem readQuery_queryText (u : Url) :
    u.queryText.elim [] (fun text => (text.splitOn '&').map readPair) = u.query := by
  unfold Url.queryText
  split
  · rename_i hnil
    rw [hnil]
    rfl
  · rename_i hne
    rw [Option.elim_some, List.splitOn_intercalate, List.map_map]
    · calc u.query.map (readPair ∘ Url.pairText) = u.query.map id :=
          List.map_congr_left fun pair _ => readPair_pairText pair
        _ = u.query := List.map_id _
    · intro text htext
      obtain ⟨pair, -, rfl⟩ := List.mem_map.mp htext
      refine not_mem_joinOpt (by decide) (not_mem_encode (by decide) (by decide) _) fun rest hrest => ?_
      cases hrest
      exact not_mem_encode (by decide) (by decide) _
    · exact mt List.map_eq_nil_iff.mp hne

theorem readChars_chars (u : Url) : readChars u.chars = u := by
  have hfront : '?' ∉ joinOpt '/' u.authority (u.path.map encode) :=
    not_mem_joinOpt (by decide) (not_mem_authority (by decide) (by decide) (by decide) (by decide) u)
      (not_mem_map (by decide) (by decide) _)
  have hauthority : '/' ∉ u.authority :=
    not_mem_authority (by decide) (by decide) (by decide) (by decide) u
  rw [readChars, Url.chars, splitFirst_joinOpt hfront]
  dsimp only
  rw [splitFirst_joinOpt hauthority]
  dsimp only
  rw [splitUser_authority]
  dsimp only
  rw [Url.hostport, splitFirst_joinOpt (not_mem_encode (by decide) (by decide) _)]
  dsimp only
  rw [readUser_userinfo, decode_encode, map_decode_encode, map_decode_encode, readQuery_queryText]

theorem parse_display (u : Url) : parse u.display = .ok u := by
  have hlist : u.display.toList = schemeText ++ u.chars := String.toList_ofList
  rw [parse, hlist, List.take_left' (by decide), List.drop_left' (by decide), if_pos rfl, readChars_chars]

/-! ### No space around a URL -/

theorem not_plain_of_whitespace {d : Char} (h : Server.SqlBuilder.isWhitespace d = true) : ¬ isPlain d := by
  intro hplain
  unfold isPlain at hplain
  simp only [Server.SqlBuilder.isWhitespace, Bool.or_eq_true, Bool.and_eq_true, decide_eq_true_eq,
    beq_iff_eq] at h
  omega

theorem not_mem_chars {d : Char} (h : Server.SqlBuilder.isWhitespace d = true) (u : Url) : d ∉ u.chars := by
  have hd := not_plain_of_whitespace h
  have hne : ∀ c, Server.SqlBuilder.isWhitespace c = false → d ≠ c := by
    intro c hc heq
    rw [heq, hc] at h
    cases h
  have hpercent := hne '%' (by decide)
  refine not_mem_joinOpt (hne '?' (by decide)) (not_mem_joinOpt (hne '/' (by decide))
    (not_mem_authority hd hpercent (hne ':' (by decide)) (hne '@' (by decide)) u) (not_mem_map hd hpercent _)) ?_
  intro text htext
  unfold Url.queryText at htext
  split at htext
  · cases htext
  · cases htext
    refine not_mem_intercalate (hne '&' (by decide)) fun l hl => ?_
    obtain ⟨pair, -, rfl⟩ := List.mem_map.mp hl
    refine not_mem_joinOpt (hne '=' (by decide)) (not_mem_encode hd hpercent _) fun rest hrest => ?_
    cases hrest
    exact not_mem_encode hd hpercent _

theorem dropWhile_whitespace {l : List Char} (h : ∀ c ∈ l, Server.SqlBuilder.isWhitespace c = false) :
    l.dropWhile Server.SqlBuilder.isWhitespace = l := by
  cases l with
  | nil => rfl
  | cons c l =>
    rw [List.dropWhile_cons_of_neg]
    rw [h c List.mem_cons_self]
    exact Bool.false_ne_true

theorem trimmed_display (u : Url) : trimmed u.display = u.display := by
  have hall : ∀ c ∈ u.display.toList, Server.SqlBuilder.isWhitespace c = false := by
    intro c hc
    rw [Url.display, String.toList_ofList, List.mem_append] at hc
    rcases hc with hc | hc
    · have hscheme : schemeText.all (fun c => !Server.SqlBuilder.isWhitespace c) = true := by decide +kernel
      exact Bool.not_eq_true' _ ▸ List.all_eq_true.mp hscheme c hc
    · by_contra hspace
      exact not_mem_chars (Bool.eq_true_of_not_eq_false hspace) u hc
  have hreverse : ∀ c ∈ u.display.toList.reverse, Server.SqlBuilder.isWhitespace c = false :=
    fun c hc => hall c (List.mem_reverse.mp hc)
  rw [trimmed, Server.SqlBuilder.trim, dropWhile_whitespace hall, dropWhile_whitespace hreverse,
    List.reverse_reverse, String.ofList_toList]

theorem display_nonempty (u : Url) : u.display ≠ "" := by
  intro h
  have hlist := congrArg String.toList h
  rw [Url.display, String.toList_ofList] at hlist
  exact absurd (List.append_eq_nil_iff.mp hlist).1 (by decide)

/-! ### The crate -/

/-- The number of a port. -/
def portNumber (text : String) : ℕ := text.toList.foldl (fun n c => n * 10 + (c.toNat - 48)) 0

def Url.parts (u : Url) : UrlParts where
  scheme := "mongodb"
  username := u.username
  password := u.password
  host := some u.host
  port := u.port.map portNumber
  path := u.path.elim "" ("/" ++ ·)
  query := u.query

/-- A URL without a host takes no credentials. -/
def setUsername (s : String) (u : Url) : Option Url := if u.host = "" then none else some { u with username := s }

def setPassword (s : String) (u : Url) : Option Url :=
  if u.host = "" then none else some { u with password := if s = "" then none else some s }

def setPath (s : String) (u : Url) : Url :=
  { u with path := some (if s.toList.head? = some '/' then String.ofList s.toList.tail else s) }

end Jaiba.Connections.PlainUrl

namespace Jaiba.Connections
open PlainUrl

def plainCrate : UrlCrate where
  Url := PlainUrl.Url
  parse := PlainUrl.parse
  parts := PlainUrl.Url.parts
  setUsername := PlainUrl.setUsername
  setPassword := PlainUrl.setPassword
  setPath := PlainUrl.setPath
  appendPairs := fun pairs u => { u with query := u.query ++ pairs }
  display := PlainUrl.Url.display

theorem slashed_tail {s : String} (h : s.toList.head? = some '/') : "/" ++ String.ofList s.toList.tail = s := by
  rw [← String.toList_inj, String.toList_append, String.toList_ofList]
  obtain ⟨tail, htail⟩ := List.head?_eq_some_iff.mp h
  rw [htail]
  exact congrArg ('/' :: ·) String.toList_ofList

theorem plainCrate_lawful : plainCrate.Lawful where
  setUsername := by
    intro s u v h
    unfold plainCrate PlainUrl.setUsername at h
    dsimp only at h
    split at h
    · cases h
    · cases h
      rfl
  setUsername_host := by
    intro s u v h
    unfold plainCrate PlainUrl.setUsername at h
    dsimp only at h
    split at h
    · cases h
    · rename_i hhost
      exact ⟨u.host, rfl, hhost⟩
  setPassword := by
    intro s u v h
    unfold plainCrate PlainUrl.setPassword at h
    dsimp only at h
    split at h
    · cases h
    · cases h
      refine ⟨if s = "" then none else some s, ?_, rfl⟩
      split
      · rename_i hblank
        exact hblank.symm
      · rfl
  setPath := by
    intro s u
    unfold plainCrate PlainUrl.setPath Url.parts slashed
    dsimp only
    split
    · rename_i hslash
      rw [Option.elim_some, slashed_tail hslash]
    · rfl
  appendPairs := fun _ _ => rfl
  scheme := fun _ _ _ => rfl
  parse_display := PlainUrl.parse_display
  display_trimmed := trimmed_display
  display_nonempty := PlainUrl.display_nonempty

end Jaiba.Connections
