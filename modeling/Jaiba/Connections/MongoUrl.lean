import Jaiba.Connections.Profiles
import Jaiba.Error
import Jaiba.Server.SqlBuilder

/-!
# Connection URLs (`connection_api/plugins/mongodb.rs`, `engine/resolver.rs`)

The URL that the server opens for test and explore, and the one of the runtime,
both from the endpoint and the secret of a profile. The `url` crate is a
parameter: its URLs are known by their components.
-/

namespace Jaiba.Connections
open Jaiba.Lib
open Jaiba.Server.SqlBuilder (PluginError)

/-- The components of a URL. -/
structure UrlParts where
  scheme : String
  username : String
  password : Option String
  host : Option String
  port : Option ℕ
  path : String
  query : List (String × String)

structure UrlCrate where
  Url : Type
  parse : String → Except String Url
  parts : Url → UrlParts
  setUsername : String → Url → Option Url
  setPassword : String → Url → Option Url
  setPath : String → Url → Url
  appendPairs : List (String × String) → Url → Url
  display : Url → String

/-- `str::trim`. -/
def trimmed (s : String) : String := String.ofList (Server.SqlBuilder.trim s.toList)

/-- A path as it stands in a URL with a host. -/
def slashed (path : String) : String :=
  if path.toList.head? = some '/' then path else "/" ++ path

/-- `trim_matches('/')`. -/
def trimSlashes (path : String) : String :=
  String.ofList (((path.toList.dropWhile (· == '/')).reverse.dropWhile (· == '/')).reverse)

/-- Each setter replaces the component it names, and a URL reads back as itself. -/
structure UrlCrate.Lawful (crate : UrlCrate) : Prop where
  setUsername : ∀ s u v, crate.setUsername s u = some v → crate.parts v = { crate.parts u with username := s }
  setUsername_host : ∀ s u v, crate.setUsername s u = some v →
    ∃ host, (crate.parts u).host = some host ∧ host ≠ ""
  setPassword : ∀ s u v, crate.setPassword s u = some v →
    ∃ password, password.getD "" = s ∧ crate.parts v = { crate.parts u with password := password }
  setPath : ∀ s u, crate.parts (crate.setPath s u) = { crate.parts u with path := slashed s }
  appendPairs : ∀ pairs u, crate.parts (crate.appendPairs pairs u) =
    { crate.parts u with query := (crate.parts u).query ++ pairs }
  scheme : ∀ rest u, crate.parse ("mongodb://" ++ rest) = .ok u → (crate.parts u).scheme = "mongodb"
  parse_display : ∀ u, crate.parse (crate.display u) = .ok u
  display_trimmed : ∀ u, trimmed (crate.display u) = crate.display u
  display_nonempty : ∀ u, crate.display u ≠ ""

/-- `ok_or`. -/
def okOr {ε α : Type} (e : ε) : Option α → Except ε α
  | none => .error e
  | some a => .ok a

/-! ### The parts of a MongoDB URL -/

structure ParsedMongoUrl where
  host : String
  port : ℕ
  database : Option String
  username : String
  password : Option String
  authSource : Option String
  ssl : Bool

/-- The loop over the query: `authSource`, and the last of `tls` and `ssl`. -/
def readQuery (ssl : Bool) (query : List (String × String)) : Option String × Bool :=
  query.foldl (fun found pair =>
    if pair.1 = "authSource" then (some pair.2, found.2)
    else if pair.1 = "tls" ∨ pair.1 = "ssl" then (found.1, pair.2 ∈ ["true", "1", "yes"])
    else found) (none, ssl)

/-- The database that a path names. -/
def databaseOf (path : String) : Option String :=
  if trimSlashes path = "" then none else some (trimSlashes path)

def parsedMongoUrl (parts : UrlParts) : Except String ParsedMongoUrl :=
  if parts.scheme = "mongodb" ∨ parts.scheme = "mongodb+srv" then
    match parts.host.filter fun host => host ≠ "" with
    | none => .error "la URL MongoDB debe incluir host"
    | some host =>
      let found := readQuery (parts.scheme = "mongodb+srv") parts.query
      .ok ⟨host, parts.port.getD 27017, databaseOf parts.path, parts.username, parts.password, found.1, found.2⟩
  else .error ("esquema '" ++ parts.scheme ++ "' no soportado; use mongodb:// o mongodb+srv://")

namespace UrlCrate

variable (crate : UrlCrate)

def parseUrl (raw : String) : Except String crate.Url :=
  match crate.parse (trimmed raw) with
  | .error error => .error ("URL MongoDB inválida: " ++ error)
  | .ok url => .ok url

def parseMongodbConnectionUrl (raw : String) : Except String ParsedMongoUrl := do
  let url ← crate.parseUrl raw
  parsedMongoUrl (crate.parts url)

/-- The user and the password of a URL, each with the error of a URL that takes none. -/
def withCredentials {ε : Type} (badUsername badPassword : ε) (username password : String) (url : crate.Url) :
    Except ε crate.Url := do
  let url ← okOr badUsername (crate.setUsername username url)
  okOr badPassword (crate.setPassword password url)

/-- Replaces the user and the password of a URL. -/
def applyCredentialsToMongoUrl (raw username password : String) : Except String String := do
  let url ← crate.parseUrl raw
  let url ← crate.withCredentials "usuario MongoDB inválido en la URL" "contraseña MongoDB inválida en la URL"
    username password url
  return crate.display url

end UrlCrate

/-- The stored URL of a secret, unless it is blank. -/
def ConnectionSecret.storedUrl (secret : ConnectionSecret) : Option String :=
  (secret.options.lookup "connection_url").filter fun value => trimmed value ≠ ""

/-- `authSource` of the URL of a profile. -/
def authSourceOf (endpoint : ConnectionEndpoint) (secret : ConnectionSecret) : String :=
  ((secret.options.lookup "auth_source").or (endpoint.options.get? "auth_source")).getD "admin"

/-- The pairs that both builders append to a URL built from the fields. -/
def mongoPairs (endpoint : ConnectionEndpoint) (secret : ConnectionSecret) : List (String × String) :=
  [("authSource", authSourceOf endpoint secret), ("tls", if endpoint.ssl then "true" else "false"),
    ("minPoolSize", toString endpoint.poolMin), ("maxPoolSize", toString endpoint.poolMax),
    ("connectTimeoutMS", toString endpoint.timeoutMs),
    ("serverSelectionTimeoutMS", toString endpoint.timeoutMs)]

namespace UrlCrate

variable (crate : UrlCrate)

/-! ### The URL of the server -/

def mongodbUrl (endpoint : ConnectionEndpoint) (secret : ConnectionSecret) : Except PluginError String :=
  match secret.storedUrl with
  | some stored =>
    match crate.applyCredentialsToMongoUrl stored secret.username secret.password with
    | .error message => .error (.configuration message)
    | .ok url => .ok url
  | none =>
    match crate.parse ("mongodb://" ++ endpoint.host ++ ":" ++ toString endpoint.port) with
    | .error error => .error (.configuration error)
    | .ok url => do
      let url ← crate.withCredentials (.configuration "usuario MongoDB inválido")
        (.configuration "contraseña MongoDB inválida") secret.username secret.password url
      let url := match endpoint.database with
        | none => url
        | some database => crate.setPath database url
      return crate.display (crate.appendPairs (mongoPairs endpoint secret) url)

/-! ### The URL of the runtime -/

/-- The pairs of the other databases. -/
def schemePairs (scheme : String) (endpoint : ConnectionEndpoint) (secret : ConnectionSecret) :
    List (String × String) :=
  match scheme with
  | "postgres" => [("sslmode", if endpoint.ssl then "require" else "disable")]
  | "sqlserver" =>
    if endpoint.ssl then [("sslmode", "require")]
    else [("sslmode", "disable"), ("TrustServerCertificate", "true")]
  | "mysql" => if endpoint.ssl then [("ssl-mode", "REQUIRED")] else []
  | "mongodb" => mongoPairs endpoint secret
  | _ => []

def buildUrl (scheme : String) (endpoint : ConnectionEndpoint) (secret : ConnectionSecret) :
    Except FlowError String :=
  match if scheme = "mongodb" then secret.storedUrl else none with
  | some stored =>
    match crate.parse stored with
    | .error error => .error (.configuration ("URL MongoDB guardada inválida: " ++ error))
    | .ok url => do
      let url ← crate.withCredentials (.configuration "no se pudo fijar el usuario en la URL MongoDB")
        (.configuration "no se pudo fijar la contraseña en la URL MongoDB") secret.username secret.password url
      return crate.display url
  | none =>
    let protocol := if scheme = "clickhouse" then (if endpoint.ssl then "https" else "http") else scheme
    match crate.parse (protocol ++ "://" ++ endpoint.host ++ ":" ++ toString endpoint.port) with
    | .error error => .error (.configuration ("URL de conexión inválida: " ++ error))
    | .ok url => do
      let url ← crate.withCredentials (.configuration "no se pudo fijar el usuario en la URL")
        (.configuration "no se pudo fijar la contraseña en la URL") secret.username secret.password url
      let url := match endpoint.database.filter fun database => database ≠ "" with
        | none => url
        | some database => crate.setPath ("/" ++ database) url
      return crate.display (match schemePairs scheme endpoint secret with
        | [] => url
        | pairs => crate.appendPairs pairs url)

end UrlCrate

/-! ### Where the URLs lead -/

/-- The server and the database of a URL. -/
structure Address where
  host : String
  port : ℕ
  database : Option String
  ssl : Bool

def ParsedMongoUrl.address (p : ParsedMongoUrl) : Address := ⟨p.host, p.port, p.database, p.ssl⟩

theorem dropWhile_slash_cons (l : List Char) :
    List.dropWhile (· == '/') ('/' :: l) = List.dropWhile (· == '/') l := rfl

theorem trimSlashes_slash (path : String) : trimSlashes ("/" ++ path) = trimSlashes path := by
  have hlist : ("/" ++ path).toList = '/' :: path.toList := by
    rw [String.toList_append]
    rfl
  rw [trimSlashes, trimSlashes, hlist, dropWhile_slash_cons]

theorem trimSlashes_slashed (path : String) : trimSlashes (slashed path) = trimSlashes path := by
  unfold slashed
  split
  · rfl
  · exact trimSlashes_slash path

theorem databaseOf_slashed (database : String) : databaseOf (slashed database) = databaseOf database := by
  rw [databaseOf, databaseOf, trimSlashes_slashed]

theorem databaseOf_slash (database : String) : databaseOf (slashed ("/" ++ database)) = databaseOf database := by
  rw [databaseOf, databaseOf, trimSlashes_slashed, trimSlashes_slash]

/-- Credentials change nothing else of what a URL names. -/
theorem parsedMongoUrl_credentials {parts : UrlParts} {p : ParsedMongoUrl} (h : parsedMongoUrl parts = .ok p)
    (username : String) (password : Option String) :
    parsedMongoUrl { parts with username := username, password := password } =
      .ok { p with username := username, password := password } := by
  unfold parsedMongoUrl at h ⊢
  dsimp only at h ⊢
  by_cases hscheme : parts.scheme = "mongodb" ∨ parts.scheme = "mongodb+srv"
  · rw [if_pos hscheme] at h ⊢
    cases hhost : parts.host.filter fun host => host ≠ "" with
    | none =>
      rw [hhost] at h
      cases h
    | some host =>
      rw [hhost] at h
      cases h
      rfl
  · rw [if_neg hscheme] at h
    cases h

namespace UrlCrate

variable {crate : UrlCrate}

theorem parseUrl_display (hcrate : crate.Lawful) (u : crate.Url) : crate.parseUrl (crate.display u) = .ok u := by
  rw [parseUrl, hcrate.display_trimmed, hcrate.parse_display]

theorem parseMongodbConnectionUrl_display (hcrate : crate.Lawful) (u : crate.Url) :
    crate.parseMongodbConnectionUrl (crate.display u) = parsedMongoUrl (crate.parts u) := by
  rw [parseMongodbConnectionUrl, parseUrl_display hcrate]
  rfl

/-- A URL with both credentials replaced. -/
def Credentialed (crate : UrlCrate) (username password : String) (u w : crate.Url) : Prop :=
  ∃ v, crate.setUsername username u = some v ∧ crate.setPassword password v = some w

/-- The errors apart, `withCredentials` is one function. -/
theorem withCredentials_cases (username password : String) (u : crate.Url) :
    (∃ w, crate.Credentialed username password u w ∧
      ∀ {ε : Type} (e e' : ε), crate.withCredentials e e' username password u = .ok w) ∨
    ∀ {ε : Type} (e e' : ε), ∃ error, crate.withCredentials e e' username password u = .error error := by
  cases husername : crate.setUsername username u with
  | none => exact .inr fun e e' => ⟨e, by rw [withCredentials, husername]; rfl⟩
  | some v =>
    cases hpassword : crate.setPassword password v with
    | none =>
      refine .inr fun e e' => ⟨e', ?_⟩
      rw [withCredentials, husername]
      exact congrArg (okOr e') hpassword
    | some w =>
      refine .inl ⟨w, ⟨v, husername, hpassword⟩, fun e e' => ?_⟩
      rw [withCredentials, husername]
      exact congrArg (okOr e') hpassword

theorem Credentialed.parts (hcrate : crate.Lawful) {username password : String} {u w : crate.Url}
    (h : crate.Credentialed username password u w) : ∃ secret, secret.getD "" = password ∧
      crate.parts w = { crate.parts u with username := username, password := secret } := by
  obtain ⟨v, husername, hpassword⟩ := h
  obtain ⟨secret, hsecret, hparts⟩ := hcrate.setPassword password v w hpassword
  refine ⟨secret, hsecret, ?_⟩
  rw [hparts, hcrate.setUsername username u v husername]

/-- A URL that names `p`, with other credentials. -/
theorem Credentialed.parsed (hcrate : crate.Lawful) {username password : String} {u w : crate.Url}
    (h : crate.Credentialed username password u w) {p : ParsedMongoUrl}
    (hparsed : parsedMongoUrl (crate.parts u) = .ok p) :
    ∃ q, parsedMongoUrl (crate.parts w) = .ok q ∧ q.address = p.address ∧ q.username = username ∧
      q.password.getD "" = password := by
  obtain ⟨secret, hsecret, hparts⟩ := h.parts hcrate
  rw [hparts]
  exact ⟨_, parsedMongoUrl_credentials hparsed username secret, rfl, rfl, hsecret⟩

theorem applyCredentials_ok {raw username password url : String}
    (h : crate.applyCredentialsToMongoUrl raw username password = .ok url) :
    ∃ u w, crate.parseUrl raw = .ok u ∧ crate.Credentialed username password u w ∧ url = crate.display w := by
  obtain ⟨u, hparse, h⟩ := bind_ok h
  rcases crate.withCredentials_cases username password u with ⟨w, hw, hall⟩ | hnone
  · rw [hall] at h
    cases h
    exact ⟨u, w, hparse, hw, rfl⟩
  · obtain ⟨error, herror⟩ := hnone "usuario MongoDB inválido en la URL" "contraseña MongoDB inválida en la URL"
    rw [herror] at h
    cases h

/-! ### The two builders -/

theorem storedUrl_display (hcrate : crate.Lawful) {secret : ConnectionSecret} {w : crate.Url}
    (h : secret.options.lookup "connection_url" = some (crate.display w)) :
    secret.storedUrl = some (crate.display w) := by
  rw [ConnectionSecret.storedUrl, h, Option.filter_some, if_pos]
  rw [hcrate.display_trimmed]
  exact decide_eq_true (hcrate.display_nonempty w)

/-- With a stored URL both builders give that URL with the credentials of the secret. -/
theorem urls_stored (hcrate : crate.Lawful) (endpoint : ConnectionEndpoint) {secret : ConnectionSecret}
    {u : crate.Url} (h : secret.options.lookup "connection_url" = some (crate.display u)) :
    (∃ w, crate.Credentialed secret.username secret.password u w ∧
      crate.mongodbUrl endpoint secret = .ok (crate.display w) ∧
      crate.buildUrl "mongodb" endpoint secret = .ok (crate.display w)) ∨
    ∃ e e', crate.mongodbUrl endpoint secret = .error e ∧ crate.buildUrl "mongodb" endpoint secret = .error e' := by
  have hstored := storedUrl_display hcrate h
  unfold mongodbUrl buildUrl applyCredentialsToMongoUrl
  rw [if_pos rfl, hstored]
  dsimp only
  rw [parseUrl_display hcrate, hcrate.parse_display]
  rcases crate.withCredentials_cases secret.username secret.password u with ⟨w, hw, hall⟩ | hnone
  · refine .inl ⟨w, hw, ?_, ?_⟩
    · simp only [hall, bind, Except.bind, pure, Except.pure]
    · simp only [hall, bind, Except.bind, pure, Except.pure]
  · obtain ⟨e, he⟩ := hnone "usuario MongoDB inválido en la URL" "contraseña MongoDB inválida en la URL"
    obtain ⟨e', he'⟩ := hnone (FlowError.configuration "no se pudo fijar el usuario en la URL MongoDB")
      (FlowError.configuration "no se pudo fijar la contraseña en la URL MongoDB")
    refine .inr ⟨.configuration e, e', ?_, ?_⟩
    · simp only [he, bind, Except.bind]
    · simp only [he', bind, Except.bind]

/-- A URL of the fields with credentials: where its path and pairs come from. -/
structure Built (crate : UrlCrate) (endpoint : ConnectionEndpoint) (secret : ConnectionSecret)
    (w url : crate.Url) (path : String) : Prop where
  parts : crate.parts url = { crate.parts w with
    path := path, query := (crate.parts w).query ++ mongoPairs endpoint secret }
  database : databaseOf path = endpoint.database.elim (databaseOf (crate.parts w).path) databaseOf

/-- Without one they parse the same text, and put the same credentials, path and pairs in it. -/
theorem urls_fields (hcrate : crate.Lawful) {endpoint : ConnectionEndpoint} {secret : ConnectionSecret}
    (h : secret.options.lookup "connection_url" = none) (hdatabase : endpoint.database ≠ some "") :
    (∃ u w server runtime path path',
      crate.parse ("mongodb://" ++ endpoint.host ++ ":" ++ toString endpoint.port) = .ok u ∧
      crate.Credentialed secret.username secret.password u w ∧
      crate.mongodbUrl endpoint secret = .ok (crate.display server) ∧
      crate.buildUrl "mongodb" endpoint secret = .ok (crate.display runtime) ∧
      crate.Built endpoint secret w server path ∧ crate.Built endpoint secret w runtime path') ∨
    ∃ e e', crate.mongodbUrl endpoint secret = .error e ∧ crate.buildUrl "mongodb" endpoint secret = .error e' := by
  have hstored : secret.storedUrl = none := by
    rw [ConnectionSecret.storedUrl, h]
    rfl
  unfold mongodbUrl buildUrl
  rw [if_pos rfl, hstored]
  dsimp only
  rw [if_neg (by decide : ¬ ("mongodb" : String) = "clickhouse"),
    show ("mongodb" : String) ++ "://" = "mongodb://" from rfl]
  cases hparse : crate.parse ("mongodb://" ++ endpoint.host ++ ":" ++ toString endpoint.port) with
  | error e =>
    refine .inr ⟨.configuration e, .configuration ("URL de conexión inválida: " ++ e), rfl, rfl⟩
  | ok u =>
    dsimp only
    rcases crate.withCredentials_cases secret.username secret.password u with ⟨w, hw, hall⟩ | hnone
    · rw [hall, hall]
      cases hnamed : endpoint.database with
      | none =>
        have hbuilt : crate.Built endpoint secret w (crate.appendPairs (mongoPairs endpoint secret) w)
            (crate.parts w).path := by
          refine ⟨hcrate.appendPairs _ w, ?_⟩
          rw [hnamed, Option.elim_none]
        exact .inl ⟨u, w, _, _, _, _, rfl, hw, rfl, rfl, hbuilt, hbuilt⟩
      | some database =>
        have hset : ∀ path, databaseOf (slashed path) = databaseOf database → crate.Built endpoint secret w
            (crate.appendPairs (mongoPairs endpoint secret) (crate.setPath path w)) (slashed path) := by
          intro path hpath
          refine ⟨?_, ?_⟩
          · rw [hcrate.appendPairs, hcrate.setPath]
          · rw [hnamed, Option.elim_some]
            exact hpath
        have hkept : Option.filter (fun database => database ≠ "") (some database) = some database := by
          rw [Option.filter_some, if_pos]
          exact decide_eq_true fun hblank => hdatabase (hblank ▸ hnamed)
        rw [hkept]
        exact .inl ⟨u, w, _, _, _, _, rfl, hw, rfl, rfl, hset database (databaseOf_slashed database),
          hset ("/" ++ database) (databaseOf_slash database)⟩
    · obtain ⟨e, he⟩ := hnone (PluginError.configuration "usuario MongoDB inválido")
        (.configuration "contraseña MongoDB inválida")
      obtain ⟨e', he'⟩ := hnone (FlowError.configuration "no se pudo fijar el usuario en la URL")
        (.configuration "no se pudo fijar la contraseña en la URL")
      rw [he, he']
      exact .inr ⟨e, e', rfl, rfl⟩

/-- Two paths of one database. -/
theorem parsedMongoUrl_path (parts : UrlParts) {path path' : String} (h : databaseOf path = databaseOf path') :
    parsedMongoUrl { parts with path := path } = parsedMongoUrl { parts with path := path' } := by
  unfold parsedMongoUrl
  dsimp only
  rw [h]

theorem Built.parsed_eq {endpoint : ConnectionEndpoint} {secret : ConnectionSecret} {w server runtime : crate.Url}
    {path path' : String} (hserver : crate.Built endpoint secret w server path)
    (hruntime : crate.Built endpoint secret w runtime path') :
    parsedMongoUrl (crate.parts server) = parsedMongoUrl (crate.parts runtime) := by
  rw [hserver.parts, hruntime.parts]
  exact parsedMongoUrl_path { crate.parts w with query := (crate.parts w).query ++ mongoPairs endpoint secret }
    (hserver.database.trans hruntime.database.symm)

/-- What a URL of the fields names. -/
theorem Built.parsed (hcrate : crate.Lawful) {endpoint : ConnectionEndpoint} {secret : ConnectionSecret}
    {u w url : crate.Url} {path : String} (hscheme : (crate.parts u).scheme = "mongodb")
    (hw : crate.Credentialed secret.username secret.password u w)
    (hbuilt : crate.Built endpoint secret w url path) :
    ∃ p host, (crate.parts u).host = some host ∧ parsedMongoUrl (crate.parts url) = .ok p ∧
      p.username = secret.username ∧ p.password.getD "" = secret.password ∧
      p.address = ⟨host, (crate.parts u).port.getD 27017, databaseOf path,
        (readQuery false ((crate.parts u).query ++ mongoPairs endpoint secret)).2⟩ := by
  obtain ⟨v, husername, -⟩ := id hw
  obtain ⟨host, hhost, hne⟩ := hcrate.setUsername_host _ _ _ husername
  obtain ⟨password, hpassword, hparts⟩ := hw.parts hcrate
  have hfilter : Option.filter (fun host => host ≠ "") (some host) = some host := by
    rw [Option.filter_some, if_pos]
    exact decide_eq_true hne
  rw [hbuilt.parts, hparts]
  unfold parsedMongoUrl
  dsimp only
  rw [hscheme, if_pos (.inl rfl), hhost, hfilter]
  exact ⟨_, host, rfl, rfl, rfl, hpassword, rfl⟩

/-- The TLS flag is the last word on TLS. -/
theorem readQuery_mongoPairs (endpoint : ConnectionEndpoint) (secret : ConnectionSecret)
    (query : List (String × String)) :
    (readQuery false (query ++ mongoPairs endpoint secret)).2 = endpoint.ssl := by
  rw [readQuery, List.foldl_append]
  cases hssl : endpoint.ssl with
  | false =>
    rw [mongoPairs, hssl]
    simp
  | true =>
    rw [mongoPairs, hssl]
    simp

end UrlCrate

end Jaiba.Connections
