import Jaiba.Connections.PlainUrl
import Jaiba.Connections.UrlReaders

/-!
# Credentials through a connection URL

The text of the URL that `build_url` makes of a profile, and for each type of
connection the users, passwords and databases that come back from it.
-/

namespace Jaiba.Connections
open Jaiba.Lib Percent UrlPath

/-! ### The URL of a profile -/

/-- The text that `build_url` parses before it sets anything. -/
def startUrl (scheme : String) (endpoint : ConnectionEndpoint) (secret : ConnectionSecret) : String :=
  match if scheme = "mongodb" then secret.storedUrl else none with
  | some stored => stored
  | none =>
    (if scheme = "clickhouse" then (if endpoint.ssl then "https" else "http") else scheme) ++ "://" ++ endpoint.host ++
      ":" ++ toString endpoint.port

/-- The database that `build_url` sets as the path. -/
def namedDatabase (scheme : String) (endpoint : ConnectionEndpoint) (secret : ConnectionSecret) : Option String :=
  match if scheme = "mongodb" then secret.storedUrl else none with
  | some _ => none
  | none => endpoint.database.filter fun database => database ≠ ""

section Build

variable {crate : UrlCrate} {pathSet : UInt8 → Bool} {text : crate.Url → UrlText} (hcrate : crate.Encodes pathSet text)
include hcrate

theorem withCredentials_text {ε : Type} {e e' : ε} {username password : String} {u w : crate.Url}
    (h : crate.withCredentials e e' username password u = .ok w) :
    text w = { text u with
      username := encode userinfoSet (utf8 username)
      password := if password = "" then none else some (encode userinfoSet (utf8 password)) } ∧
      ∃ host, (text w).host = some host := by
  rcases crate.withCredentials_cases username password u with ⟨w', ⟨v, husername, hpassword⟩, hall⟩ | hnone
  · rw [hall] at h
    cases h
    obtain ⟨host, hhost⟩ := hcrate.setUsername_host _ _ _ husername
    rw [hcrate.setPassword _ _ _ hpassword, hcrate.setUsername _ _ _ husername]
    exact ⟨rfl, host, hhost⟩
  · obtain ⟨error, herror⟩ := hnone e e'
    rw [herror] at h
    cases h

/-- The text of the built URL: the credentials and the named database escaped, the rest of the URL it began as. -/
theorem buildUrl_text {scheme : String} {endpoint : ConnectionEndpoint} {secret : ConnectionSecret} {u : crate.Url}
    {url : String} (hstart : crate.parse (startUrl scheme endpoint secret) = .ok u)
    (h : crate.buildUrl scheme endpoint secret = .ok url) :
    ∃ w, url = crate.display w ∧ (text w).scheme = (text u).scheme ∧ (∃ host, (text w).host = some host) ∧
      (text w).username = encode userinfoSet (utf8 secret.username) ∧
      (text w).password =
        (if secret.password = "" then none else some (encode userinfoSet (utf8 secret.password))) ∧
      (text w).path = (namedDatabase scheme endpoint secret).elim (text u).path fun name =>
        encode pathSet (path (isSpecial (text u).scheme) (utf8 name)) := by
  unfold UrlCrate.buildUrl at h
  unfold startUrl at hstart
  unfold namedDatabase
  cases hstored : (if scheme = "mongodb" then secret.storedUrl else none) with
  | some stored =>
    rw [hstored] at h hstart
    dsimp only at h hstart
    rw [hstart] at h
    obtain ⟨w, hw, h⟩ := bind_ok h
    cases h
    obtain ⟨htext, hhost⟩ := withCredentials_text hcrate hw
    refine ⟨w, rfl, ?_, hhost, ?_, ?_, ?_⟩ <;> rw [htext]
    rfl
  | none =>
    rw [hstored] at h hstart
    dsimp only at h hstart
    rw [hstart] at h
    obtain ⟨v, hv, h⟩ := bind_ok h
    obtain ⟨htext, host, hhost⟩ := withCredentials_text hcrate hv
    -- the query pairs, if any, change nothing else
    have hbuilt : ∀ v', (text v').scheme = (text u).scheme → (text v').host = some host →
        (text v').username = (text v).username → (text v').password = (text v).password → ∀ w pairs,
        text w = { text v' with queryPairs := pairs } → url = crate.display w →
        ∃ w, url = crate.display w ∧ (text w).scheme = (text u).scheme ∧ (∃ host, (text w).host = some host) ∧
          (text w).username = encode userinfoSet (utf8 secret.username) ∧
          (text w).password =
            (if secret.password = "" then none else some (encode userinfoSet (utf8 secret.password))) ∧
          (text w).path = (text v').path := by
      intro v' hscheme hhost' husername hpassword w pairs hw hurl
      refine ⟨w, hurl, ?_, ⟨host, ?_⟩, ?_, ?_, ?_⟩ <;> rw [hw]
      · exact hscheme
      · exact hhost'
      · exact husername.trans (by rw [htext])
      · exact hpassword.trans (by rw [htext])
    have hscheme : (text v).scheme = (text u).scheme := by rw [htext]
    cases hname : endpoint.database.filter fun database => database ≠ "" with
    | none =>
      have hpath : (text v).path = (text u).path := by rw [htext]
      rw [hname] at h
      dsimp only at h
      rw [Option.elim_none, ← hpath]
      cases hpairs : UrlCrate.schemePairs scheme endpoint secret with
      | nil =>
        rw [hpairs] at h
        cases h
        exact hbuilt v hscheme hhost rfl rfl v _ rfl rfl
      | cons pair pairs =>
        rw [hpairs] at h
        cases h
        exact hbuilt v hscheme hhost rfl rfl _ _ (hcrate.appendPairs _ v) rfl
    | some name =>
      have hset := hcrate.setPath name v
      have hpath : (text (crate.setPath ("/" ++ name) v)).path =
          encode pathSet (path (isSpecial (text u).scheme) (utf8 name)) := by rw [hset, ← hscheme]
      rw [hname] at h
      dsimp only at h
      rw [Option.elim_some, ← hpath]
      have hscheme' : (text (crate.setPath ("/" ++ name) v)).scheme = (text u).scheme := by
        rw [hset]
        exact hscheme
      have hhost' : (text (crate.setPath ("/" ++ name) v)).host = some host := by
        rw [hset]
        exact hhost
      cases hpairs : UrlCrate.schemePairs scheme endpoint secret with
      | nil =>
        rw [hpairs] at h
        cases h
        exact hbuilt _ hscheme' hhost' (by rw [hset]) (by rw [hset]) _ _ rfl rfl
      | cons pair pairs =>
        rw [hpairs] at h
        cases h
        exact hbuilt _ hscheme' hhost' (by rw [hset]) (by rw [hset]) _ _ (hcrate.appendPairs _ _) rfl

omit hcrate in
theorem startUrl_of_named {scheme : String} {endpoint : ConnectionEndpoint} {secret : ConnectionSecret}
    (h : scheme = "mongodb" → secret.storedUrl = none) : startUrl scheme endpoint secret =
      (if scheme = "clickhouse" then (if endpoint.ssl then "https" else "http") else scheme) ++ "://" ++
        (endpoint.host ++ (":" ++ toString endpoint.port)) := by
  have hnone : (if scheme = "mongodb" then secret.storedUrl else none) = none := by
    split
    · exact h ‹_›
    · rfl
  rw [startUrl, hnone]
  dsimp only
  simp only [String.append_assoc]

omit hcrate in
theorem namedDatabase_eq_some {scheme name : String} {endpoint : ConnectionEndpoint} {secret : ConnectionSecret}
    (h : namedDatabase scheme endpoint secret = some name) :
    (scheme = "mongodb" → secret.storedUrl = none) ∧ endpoint.database = some name ∧ name ≠ "" := by
  unfold namedDatabase at h
  cases hstored : (if scheme = "mongodb" then secret.storedUrl else none) with
  | some stored =>
    rw [hstored] at h
    cases h
  | none =>
    rw [hstored] at h
    obtain ⟨hdatabase, hne⟩ := Option.filter_eq_some_iff.mp h
    refine ⟨fun hmongo => ?_, hdatabase, of_decide_eq_true hne⟩
    rw [if_pos hmongo] at hstored
    exact hstored

/-- The protocol of a URL that does not begin as a stored one. -/
theorem start_scheme {kind : ConnectionType} {scheme runtime : String} (hscheme : schemeFor kind = some (scheme, runtime))
    {endpoint : ConnectionEndpoint} {secret : ConnectionSecret} (h : scheme = "mongodb" → secret.storedUrl = none)
    {u : crate.Url} (hstart : crate.parse (startUrl scheme endpoint secret) = .ok u) :
    (text u).scheme = if scheme = "clickhouse" then (if endpoint.ssl then "https" else "http") else scheme := by
  rw [startUrl_of_named h] at hstart
  refine hcrate.scheme _ _ u hstart ?_
  cases kind <;> cases hscheme <;> first | decide | (cases endpoint.ssl <;> decide)

end Build

/-! ### What survives -/

/-- User information that `urlencoding_decode` gives back: it is read back, or it is taken as it stands because
nothing of it was escaped and it is no percent-encoding. -/
def UrlencodingSurvives (s : String) : Prop :=
  ReadBack (utf8 s) ∨ (∀ b ∈ utf8 s, userinfoSet b = false) ∧ percentEncodingDecode (utf8 s) = none

def PasswordSurvives : ConnectionType → String → Prop
  | .sqlServer, s => s ≠ "" ∧ ∀ b ∈ utf8 s, userinfoSet b = false
  | .oracle, s => s ≠ "" ∧ EscapeFree radixPair (utf8 s)
  | .clickHouse, s => UrlencodingSurvives s
  | _, s => EscapeFree hexPair (utf8 s)

/-- A user must not be empty for ClickHouse either, which would take `default`. -/
def UsernameSurvives (kind : ConnectionType) (s : String) : Prop :=
  (kind = .clickHouse → s ≠ "") ∧ PasswordSurvives kind s

/-- The names of databases that come back from the path. -/
def DatabaseSurvives (pathSet : UInt8 → Bool) : ConnectionType → String → Prop
  | .sqlServer, s => (∀ b ∈ utf8 s, pathSet b = false) ∧ Kept false (utf8 s)
  | .oracle, s => slash ∉ utf8 s ∧ (∀ b ∈ utf8 s, pathSet b = false) ∧ Kept false (utf8 s)
  | .clickHouse, s => (∀ b ∈ utf8 s, pathSet b = false) ∧ Kept true (utf8 s)
  | _, s => EscapeFree hexPair (utf8 s) ∧ Kept false (utf8 s)

/-- The database that a path stands for. -/
def PathNames : ConnectionType → Lib.Bytes → Lib.Bytes → Prop
  | .sqlServer, path, database => trimStart path = database ∧ database ≠ []
  | .oracle, path, database => trimStart path = database ∧ database ≠ [] ∧ slash ∉ database
  | .clickHouse, path, database => (if trimStart path = [] then defaultName else trimStart path) = database
  | _, path, database => decode hexPair (trimStart path) = database

theorem pathNames_iff {pathSet : UInt8 → Bool} (h : IsPathSet pathSet) {kind : ConnectionType} {name : String}
    (hne : name ≠ "") : PathNames kind (encode pathSet (path (kind = .clickHouse) (utf8 name))) (utf8 name) ↔
      DatabaseSurvives pathSet kind name := by
  have hne' : utf8 name ≠ [] := mt utf8_eq_nil.mp hne
  cases kind with
  | sqlServer =>
    rw [PathNames, DatabaseSurvives, and_iff_left hne']
    exact raw_path_iff h
  | oracle =>
    rw [PathNames, DatabaseSurvives, and_iff_right hne', and_comm]
    exact and_congr_right fun _ => raw_path_iff h
  | clickHouse =>
    rw [PathNames, DatabaseSurvives, ← raw_path_iff h]
    have hletters : ∀ b ∈ defaultName, (isAlphanumeric b && !isBreak b) = true := List.all_eq_true.mp (by decide)
    have hsegments : segments true defaultName = [defaultName] := by decide
    have hkept : Kept true defaultName := by
      refine ⟨fun b hb => ?_, ?_, by decide, fun _ => by decide⟩
      · simpa using (Bool.and_eq_true_iff.mp (hletters b hb)).2
      · rw [hsegments]
        exact List.forall_mem_singleton.mpr (by decide)
    have hdefault : trimStart (encode pathSet (path true defaultName)) = defaultName := by
      refine (raw_path_iff h).mpr ⟨fun b hb => h.alphanumeric b ?_, hkept⟩
      exact (Bool.and_eq_true_iff.mp (hletters b hb)).1
    split
    next hempty =>
      refine iff_of_false (fun heq => ?_) fun heq => ?_
      · have hsame : trimStart (encode pathSet (path true (utf8 name))) = utf8 name := by
          rw [← heq]
          exact hdefault
        exact hne' (hsame.symm.trans hempty)
      · exact hne' (heq.symm.trans hempty)
    next => exact Iff.rfl
  | postgres | mySql | mariaDb | mongoDb | kafka | opcUa | rest | custom id => exact decoded_path_iff h

/-! ### What is obtained -/

section Obtained

variable {crate : UrlCrate} {text : crate.Url → UrlText} {w : crate.Url} {host username password database : String} {ssl : Bool}

theorem decodedOnce_iff {t : UrlText} : decodedOnce t = some ⟨utf8 username, utf8 password, utf8 database⟩ ↔
    decode hexPair t.username = utf8 username ∧ decode hexPair (t.password.getD []) = utf8 password ∧
      decode hexPair (trimStart t.path) = utf8 database := by
  rw [← fromUtf8_eq_utf8_iff, ← fromUtf8_eq_utf8_iff, ← fromUtf8_eq_utf8_iff, decodedOnce]
  cases fromUtf8 (decode hexPair t.username) with
  | none => simp
  | some a =>
    cases fromUtf8 (decode hexPair (t.password.getD [])) with
    | none => simp
    | some b =>
      cases fromUtf8 (decode hexPair (trimStart t.path)) with
      | none => simp
      | some c => simp

theorem sqlServer_iff (hparse : crate.parse (crate.display w) = .ok w) (hscheme : (text w).scheme = "sqlserver")
    (hhost : (text w).host = some host) :
    (SqlServerWriter.fromUrl crate text (crate.display w)).toOption.map
        (fun c => (⟨c.username, c.password, c.database⟩ : Credentials)) =
      some ⟨utf8 username, utf8 password, utf8 database⟩ ↔
    ((text w).username = utf8 username ∧ (text w).password.getD [] = utf8 password ∧
      trimStart (text w).path = utf8 database) ∧ utf8 username ≠ [] ∧ utf8 password ≠ [] ∧ utf8 database ≠ [] := by
  have hknown : (text w).scheme ∈ ["sqlserver", "mssql"] := by
    rw [hscheme]
    exact List.mem_cons_self
  rw [SqlServerWriter.fromUrl, hparse]
  dsimp only
  rw [if_neg (not_not.mpr hknown), hhost]
  dsimp only
  split
  next hempty =>
    refine iff_of_false (fun h => by cases h) ?_
    rintro ⟨⟨husername, hpassword, hdatabase⟩, hu, hp, hd⟩
    rw [husername, hpassword, hdatabase] at hempty
    exact hempty.elim hu fun h => h.elim hp hd
  next hfull =>
    obtain ⟨hu, hp, hd⟩ : _ ∧ _ ∧ _ := ⟨fun h => hfull (.inl h), fun h => hfull (.inr (.inl h)),
      fun h => hfull (.inr (.inr h))⟩
    simp only [Except.toOption, Option.map_some, Option.some.injEq, Credentials.mk.injEq]
    constructor
    · rintro ⟨husername, hpassword, hdatabase⟩
      exact ⟨⟨husername, hpassword, hdatabase⟩, husername ▸ hu, hpassword ▸ hp, hdatabase ▸ hd⟩
    · exact And.left

theorem oracle_iff (hparse : crate.parse (crate.display w) = .ok w) (hscheme : (text w).scheme = "oracle")
    (hhost : (text w).host = some host) :
    (OracleWriter.fromUrl crate text (crate.display w)).toOption.map
        (fun s => (⟨s.username, s.password, s.service⟩ : Credentials)) =
      some ⟨utf8 username, utf8 password, utf8 database⟩ ↔
    (decode radixPair (text w).username = utf8 username ∧ decode radixPair ((text w).password.getD []) = utf8 password ∧
      trimStart (text w).path = utf8 database) ∧ utf8 username ≠ [] ∧ utf8 password ≠ [] ∧ utf8 database ≠ [] ∧
      slash ∉ utf8 database := by
  rw [OracleWriter.fromUrl, hparse]
  dsimp only
  rw [if_neg (not_not.mpr hscheme), hhost]
  dsimp only
  split
  next hservice =>
    refine iff_of_false (fun h => by cases h) ?_
    rintro ⟨⟨-, -, hdatabase⟩, -, -, hne, hslash⟩
    rw [hdatabase] at hservice
    exact hservice.elim hne hslash
  next hservice =>
    obtain ⟨hne, hslash⟩ := not_or.mp hservice
    rw [← fromUtf8_eq_utf8_iff, ← fromUtf8_eq_utf8_iff, percentDecode, percentDecode]
    cases huser : fromUtf8 (decode radixPair (text w).username) with
    | none => exact iff_of_false (fun h => by cases h) fun h => by cases h.1.1
    | some a =>
      cases hpass : fromUtf8 (decode radixPair ((text w).password.getD [])) with
      | none => exact iff_of_false (fun h => by cases h) fun h => by cases h.1.2.1
      | some b =>
        have hbind : ∀ {γ : Type} (f : Lib.Bytes → Lib.Bytes → Except FlowError γ), (do
            let username ← okOr (FlowError.configuration "Oracle URL credentials are not UTF-8") (some a)
            let password ← okOr (FlowError.configuration "Oracle URL credentials are not UTF-8") (some b)
            f username password) = f a b := fun f => rfl
        rw [hbind]
        split
        next hempty =>
          refine iff_of_false (fun h => by cases h) ?_
          rintro ⟨⟨husername, hpassword, -⟩, hu, hp, -⟩
          rw [Option.some.inj husername, Option.some.inj hpassword] at hempty
          exact hempty.elim hu hp
        next hfull =>
          obtain ⟨hu, hp⟩ := not_or.mp hfull
          simp only [Except.toOption, Option.map_some, Option.some.injEq, Credentials.mk.injEq]
          constructor
          · rintro ⟨rfl, rfl, hdatabase⟩
            exact ⟨⟨rfl, rfl, hdatabase⟩, hu, hp, hdatabase ▸ hne, hdatabase ▸ hslash⟩
          · exact And.left

theorem clickHouse_iff (hparse : crate.parse (crate.display w) = .ok w)
    (hscheme : (text w).scheme = "http" ∨ (text w).scheme = "https") (hhost : (text w).host = some host) :
    (ClickHouseWriter.fromUrl crate text (crate.display w)).toOption.map
        (fun c => (⟨c.user, c.password, c.database⟩ : Credentials)) =
      some ⟨utf8 username, utf8 password, utf8 database⟩ ↔
    (if (text w).username = [] then defaultName else urlencodingDecode (text w).username) = utf8 username ∧
      ((text w).password.map urlencodingDecode).getD [] = utf8 password ∧
      (if trimStart (text w).path = [] then defaultName else trimStart (text w).path) = utf8 database := by
  have hknown : (text w).scheme ∈ ["http", "https"] := by
    rcases hscheme with h | h
    · rw [h]
      exact List.mem_cons_self
    · rw [h]
      exact List.mem_cons_of_mem _ List.mem_cons_self
  rw [ClickHouseWriter.fromUrl, hparse]
  dsimp only
  rw [if_pos hknown, hhost]
  simp only [Except.toOption, Option.map_some, Option.some.injEq, Credentials.mk.injEq]

theorem urlencoding_password_iff {s : String} : (((if s = "" then none else
    some (encode userinfoSet (utf8 s))) : Option Lib.Bytes).map urlencodingDecode).getD [] = utf8 s ↔
      UrlencodingSurvives s := by
  unfold UrlencodingSurvives
  rw [← urlencoding_userinfo_iff]
  by_cases hs : s = ""
  · subst hs
    exact iff_of_true rfl rfl
  · rw [if_neg hs]
    rfl

theorem password_text (s : String) : ((if s = "" then none else some (encode userinfoSet (utf8 s))) :
    Option Lib.Bytes).getD [] = encode userinfoSet (utf8 s) := by
  by_cases hs : s = ""
  · subst hs
    rfl
  · rw [if_neg hs]
    rfl

/-- What comes back from a URL whose user information is escaped. -/
theorem obtained_iff {drivers : Drivers} (hdrivers : drivers.Decodes crate text) {kind : ConnectionType}
    {scheme runtime : String} (hknown : schemeFor kind = some (scheme, runtime))
    (hparse : crate.parse (crate.display w) = .ok w)
    (hscheme : scheme ≠ "mongodb" → (text w).scheme =
      if scheme = "clickhouse" then (if ssl then "https" else "http") else scheme)
    (hhost : (text w).host = some host) (husername : (text w).username = encode userinfoSet (utf8 username))
    (hpassword : (text w).password = if password = "" then none else some (encode userinfoSet (utf8 password))) :
    obtained crate text drivers kind (crate.display w) = some ⟨utf8 username, utf8 password, utf8 database⟩ ↔
      UsernameSurvives kind username ∧ PasswordSurvives kind password ∧
        PathNames kind (text w).path (utf8 database) := by
  have hempty : ∀ {s : String}, utf8 s ≠ [] ↔ s ≠ "" := not_congr utf8_eq_nil
  have hdriver : drivers.read kind (crate.display w) = some ⟨utf8 username, utf8 password, utf8 database⟩ ↔
      EscapeFree hexPair (utf8 username) ∧ EscapeFree hexPair (utf8 password) ∧
        decode hexPair (trimStart (text w).path) = utf8 database := by
    rw [hdrivers.read, decodedOnce_iff, hpassword, password_text, husername, decode_userinfo_iff, decode_userinfo_iff]
  cases kind with
  | sqlServer =>
    cases hknown
    refine (sqlServer_iff hparse (hscheme (by decide)) hhost).trans ?_
    rw [hpassword, password_text, husername, encode_userinfo_eq_self_iff, encode_userinfo_eq_self_iff, hempty, hempty]
    constructor
    · rintro ⟨⟨hu, hp, hd⟩, hue, hpe, hde⟩
      exact ⟨⟨fun h => (by cases h), hue, hu⟩, ⟨hpe, hp⟩, hd, hde⟩
    · rintro ⟨⟨-, hue, hu⟩, ⟨hpe, hp⟩, hd, hde⟩
      exact ⟨⟨hu, hp, hd⟩, hue, hpe, hde⟩
  | oracle =>
    cases hknown
    refine (oracle_iff hparse (hscheme (by decide)) hhost).trans ?_
    rw [hpassword, password_text, husername, radix_userinfo_iff, radix_userinfo_iff, hempty, hempty]
    constructor
    · rintro ⟨⟨hu, hp, hd⟩, hue, hpe, hde⟩
      exact ⟨⟨fun h => (by cases h), hue, hu⟩, ⟨hpe, hp⟩, hd, hde⟩
    · rintro ⟨⟨-, hue, hu⟩, ⟨hpe, hp⟩, hd, hde⟩
      exact ⟨⟨hu, hp, hd⟩, hue, hpe, hde⟩
  | clickHouse =>
    cases hknown
    have hhttp : (text w).scheme = "http" ∨ (text w).scheme = "https" := by
      rw [hscheme (by decide), if_pos rfl]
      cases ssl
      · exact .inl rfl
      · exact .inr rfl
    refine (clickHouse_iff hparse hhttp hhost).trans ?_
    rw [hpassword, urlencoding_password_iff, husername]
    have huser : (if encode userinfoSet (utf8 username) = [] then defaultName
        else urlencodingDecode (encode userinfoSet (utf8 username))) = utf8 username ↔
        UsernameSurvives .clickHouse username := by
      by_cases hnil : username = ""
      · subst hnil
        refine iff_of_false (fun h => ?_) fun h => h.1 rfl rfl
        exact absurd h (by decide)
      · rw [if_neg (mt encode_eq_nil.mp (hempty.mpr hnil)), urlencoding_userinfo_iff]
        exact ⟨fun h => ⟨fun _ => hnil, h⟩, And.right⟩
    rw [huser]
    exact Iff.rfl
  | postgres | mySql | mariaDb | mongoDb =>
    refine hdriver.trans ?_
    constructor
    · rintro ⟨hu, hp, hd⟩
      exact ⟨⟨fun h => (by cases h), hu⟩, hp, hd⟩
    · rintro ⟨⟨-, hu⟩, hp, hd⟩
      exact ⟨hu, hp, hd⟩
  | kafka | opcUa | rest | custom id => cases hknown

end Obtained

/-! ### A crate that escapes -/

/-- Controls, what is not ASCII, and the delimiters ``space " # < > ? ` { }``. -/
def pathDelimiters (b : UInt8) : Bool :=
  b.toNat < 32 || 127 ≤ b.toNat || b ∈ ([32, 34, 35, 60, 62, 63, 96, 123, 125] : List UInt8)

theorem pathDelimiters_isPathSet : IsPathSet pathDelimiters where
  breaks b h := by
    unfold isBreak at h
    simp only [Bool.or_eq_true, decide_eq_true_eq] at h
    rcases h with (rfl | rfl) | rfl <;> decide
  alphanumeric b h := by
    unfold isAlphanumeric at h
    simp only [Bool.or_eq_true, Bool.and_eq_true, decide_eq_true_eq] at h
    unfold pathDelimiters
    simp only [List.mem_cons, List.not_mem_nil, or_false, Bool.or_eq_false_iff, decide_eq_false_iff_not,
      ← UInt8.toNat_inj, UInt8.reduceToNat]
    omega
  percent := by decide
  slash := by decide

/-- What the accessors of the `url` crate return for a `mongodb://` URL of these components. -/
def plainText (u : PlainUrl.Url) : UrlText where
  scheme := "mongodb"
  username := encode userinfoSet (utf8 u.username)
  password := u.password.map fun password => encode userinfoSet (utf8 password)
  host := some u.host
  port := u.port.map PlainUrl.portNumber
  path := u.path.elim [] fun name => encode pathDelimiters (path false (utf8 name))
  queryPairs := u.query

theorem plainCrate_scheme {protocol rest : String} {u : PlainUrl.Url}
    (h : plainCrate.parse (protocol ++ "://" ++ rest) = .ok u)
    (hknown : protocol ∈ ["postgres", "mysql", "mongodb", "oracle", "sqlserver", "http", "https"]) :
    protocol = "mongodb" := by
  have htake : (protocol ++ "://" ++ rest).toList.take 10 = PlainUrl.schemeText := by
    unfold plainCrate PlainUrl.parse at h
    dsimp only at h
    split at h
    next heq => exact heq
    next => cases h
  have hfirst : ∀ {tail : List Char}, 2 ≤ protocol.toList.length → (protocol.toList ++ tail).take 10 = PlainUrl.schemeText →
      protocol.toList.take 2 = ['m', 'o'] := by
    intro tail hlength heq
    have htwo := congrArg (List.take 2) heq
    rw [List.take_take, List.take_append_of_le_length (by omega)] at htwo
    exact htwo
  rw [String.append_assoc, String.toList_append] at htake
  simp only [List.mem_cons, List.not_mem_nil, or_false] at hknown
  rcases hknown with rfl | rfl | rfl | rfl | rfl | rfl | rfl
  case inr.inr.inl => rfl
  all_goals exact absurd (hfirst (by decide) htake) (by decide)

theorem plainText_encodes : plainCrate.Encodes pathDelimiters plainText where
  isPathSet := pathDelimiters_isPathSet
  setUsername s u v h := by
    unfold plainCrate PlainUrl.setUsername at h
    dsimp only at h
    split at h
    · cases h
    · cases h
      rfl
  setUsername_host s u v _ := ⟨u.host, rfl⟩
  setPassword s u v h := by
    unfold plainCrate PlainUrl.setPassword at h
    dsimp only at h
    split at h
    · cases h
    · cases h
      unfold plainText
      by_cases hs : s = ""
      · rw [if_pos hs, if_pos hs]
        rfl
      · rw [if_neg hs, if_neg hs]
        rfl
  setPath s u := by
    have htail : ("/" ++ s).toList = '/' :: s.toList := by
      rw [String.toList_append]
      rfl
    unfold plainCrate PlainUrl.setPath plainText
    dsimp only
    rw [htail, List.head?_cons, if_pos rfl, List.tail_cons, String.ofList_toList]
    rfl
  appendPairs pairs u := rfl
  scheme protocol rest u h hknown := (plainCrate_scheme h hknown).symm
  parse_display := PlainUrl.parse_display

/-- Drivers that parse the URL with the same crate. -/
def plainDrivers : Drivers where
  read _ url := (plainCrate.parse url).toOption.bind fun u => decodedOnce (plainText u)

theorem plainDrivers_decodes : plainDrivers.Decodes plainCrate plainText where
  read kind u := by
    have hparse : plainCrate.parse (plainCrate.display u) = .ok u := PlainUrl.parse_display u
    unfold plainDrivers
    dsimp only
    rw [hparse]
    rfl

def appEndpoint : ConnectionEndpoint := ⟨"db", 27017, some "prod", false, 1, 5, 3000, .empty⟩

def appUrl : String :=
  "mongodb://app:s3cret@db:27017/prod?authSource=admin&tls=false&minPoolSize=1&maxPoolSize=5" ++
    "&connectTimeoutMS=3000&serverSelectionTimeoutMS=3000"

theorem appUrl_built : plainCrate.buildUrl "mongodb" appEndpoint ⟨"app", "s3cret", []⟩ = .ok appUrl :=
  ok_of_toOption (by decide +kernel)

/-! ### Stored and obtained -/

/-- The user, the password and the database that a profile names come back from its URL if and only if they are
texts that survive its type of connection; where `build_url` sets no database, the URL it began as names it. -/
theorem credentials_survive_iff {crate : UrlCrate} {pathSet : UInt8 → Bool} {text : crate.Url → UrlText}
    (hcrate : crate.Encodes pathSet text) {drivers : Drivers} (hdrivers : drivers.Decodes crate text)
    {kind : ConnectionType} {scheme runtime : String} (hknown : schemeFor kind = some (scheme, runtime))
    {endpoint : ConnectionEndpoint} {secret : ConnectionSecret} {u : crate.Url} {url : String}
    (hstart : crate.parse (startUrl scheme endpoint secret) = .ok u)
    (hbuilt : crate.buildUrl scheme endpoint secret = .ok url) :
    obtained crate text drivers kind url =
        some ⟨utf8 secret.username, utf8 secret.password, utf8 (endpoint.database.getD "")⟩ ↔
      UsernameSurvives kind secret.username ∧ PasswordSurvives kind secret.password ∧
        (namedDatabase scheme endpoint secret).elim
          (PathNames kind (text u).path (utf8 (endpoint.database.getD ""))) (DatabaseSurvives pathSet kind) := by
  obtain ⟨w, rfl, hwscheme, ⟨host, hhost⟩, husername, hpassword, hpath⟩ := buildUrl_text hcrate hstart hbuilt
  have hscheme : scheme ≠ "mongodb" → (text w).scheme =
      if scheme = "clickhouse" then (if endpoint.ssl then "https" else "http") else scheme :=
    fun hmongo => hwscheme.trans (start_scheme hcrate hknown (fun h => absurd h hmongo) hstart)
  rw [obtained_iff hdrivers hknown (hcrate.parse_display w) hscheme hhost husername hpassword, hpath]
  refine and_congr_right fun _ => and_congr_right fun _ => ?_
  cases hname : namedDatabase scheme endpoint secret with
  | none => exact Iff.rfl
  | some name =>
    obtain ⟨hstored, hdatabase, hne⟩ := namedDatabase_eq_some hname
    have hspecial : isSpecial (text u).scheme = decide (kind = .clickHouse) := by
      rw [start_scheme hcrate hknown hstored hstart]
      cases kind <;> cases hknown <;> first | decide | (cases endpoint.ssl <;> decide)
    rw [Option.elim_some, Option.elim_some, hspecial, hdatabase, Option.getD_some]
    exact pathNames_iff hcrate.isPathSet hne

theorem credentials_survive_iff_plain :
    obtained plainCrate plainText plainDrivers .mongoDb appUrl = some ⟨utf8 "app", utf8 "s3cret", utf8 "prod"⟩ ↔
      UsernameSurvives .mongoDb "app" ∧ PasswordSurvives .mongoDb "s3cret" ∧
        DatabaseSurvives pathDelimiters .mongoDb "prod" :=
  credentials_survive_iff plainText_encodes plainDrivers_decodes
    (show schemeFor .mongoDb = some ("mongodb", "mongodb") from rfl)
    (show plainCrate.parse (startUrl "mongodb" appEndpoint ⟨"app", "s3cret", []⟩) = .ok _ from rfl) appUrl_built

/-- The setter leaves `%41` as it is and the driver makes `A` of it. -/
theorem password_is_decoded : ¬ ∀ (crate : UrlCrate) (pathSet : UInt8 → Bool) (text : crate.Url → UrlText)
    (drivers : Drivers), crate.Encodes pathSet text → drivers.Decodes crate text →
    ∀ (kind : ConnectionType) (scheme runtime : String) (endpoint : ConnectionEndpoint) (secret : ConnectionSecret)
      (name url : String), schemeFor kind = some (scheme, runtime) → endpoint.database = some name →
      crate.buildUrl scheme endpoint secret = .ok url →
      obtained crate text drivers kind url = some ⟨utf8 secret.username, utf8 secret.password, utf8 name⟩ := by
  intro h
  have hobtained := h plainCrate pathDelimiters plainText plainDrivers plainText_encodes plainDrivers_decodes .mongoDb
    "mongodb" "mongodb" appEndpoint ⟨"app", "%41", []⟩ "prod" _ rfl rfl rfl
  revert hobtained
  decide +kernel
end Jaiba.Connections
