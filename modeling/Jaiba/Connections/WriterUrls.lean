import Jaiba.Connections.MongoUrl
import Jaiba.Lib.Percent
import Jaiba.Lib.UrlPath

/-!
# URLs of writers (`connectors/sqlserver.rs`, `clickhouse.rs`, `oracle.rs`, `engine/resolver.rs`)

The text that the accessors of a URL return, and what each writer reads in it.
Texts are their UTF-8 bytes. The `url` crate and the drivers of the other
databases are parameters: the setters escape the user information and the path,
but no `%`; the accessors return the escaped text; the drivers decode it once.
-/

namespace Jaiba.Connections
open Jaiba.Lib Percent UrlPath

/-- What the accessors of a URL return. -/
structure UrlText where
  scheme : String
  username : Lib.Bytes
  password : Option Lib.Bytes
  host : Option String
  port : Option ℕ
  path : Lib.Bytes
  queryPairs : List (String × String)

/-- Controls, what is not ASCII, and the delimiters ``space " # < > ? ` { } / : ; = @ [ \ ] ^ |``. -/
def userinfoSet (b : UInt8) : Bool :=
  b.toNat < 32 || 127 ≤ b.toNat ||
    b ∈ ([32, 34, 35, 60, 62, 63, 96, 123, 125, 47, 58, 59, 61, 64, 91, 92, 93, 94, 124] : List UInt8)

/-- The schemes of the web, where a backslash is a slash. -/
def isSpecial (scheme : String) : Bool := scheme ∈ ["http", "https", "ws", "wss", "ftp", "file"]

/-- Digits and letters. -/
def isAlphanumeric (b : UInt8) : Bool :=
  (48 ≤ b.toNat && b.toNat ≤ 57) || (65 ≤ b.toNat && b.toNat ≤ 90) || (97 ≤ b.toNat && b.toNat ≤ 122)

/-- What a path escapes: tabs and line breaks among others, but no digit or letter, no `%` and no slash. -/
structure IsPathSet (set : UInt8 → Bool) : Prop where
  breaks : ∀ b, isBreak b = true → set b = true
  alphanumeric : ∀ b, isAlphanumeric b = true → set b = false
  percent : set percent = false
  slash : set slash = false

namespace UrlCrate

/-- The `url` crate: setters replace the component they name by its escaped text. -/
structure Encodes (crate : UrlCrate) (pathSet : UInt8 → Bool) (text : crate.Url → UrlText) : Prop where
  isPathSet : IsPathSet pathSet
  setUsername : ∀ s u v, crate.setUsername s u = some v →
    text v = { text u with username := encode userinfoSet (utf8 s) }
  setUsername_host : ∀ s u v, crate.setUsername s u = some v → ∃ host, (text u).host = some host
  setPassword : ∀ s u v, crate.setPassword s u = some v →
    text v = { text u with password := if s = "" then none else some (encode userinfoSet (utf8 s)) }
  setPath : ∀ s u, text (crate.setPath ("/" ++ s) u) =
    { text u with path := encode pathSet (path (isSpecial (text u).scheme) (utf8 s)) }
  appendPairs : ∀ pairs u, text (crate.appendPairs pairs u) =
    { text u with queryPairs := (text u).queryPairs ++ pairs }
  scheme : ∀ protocol rest u, crate.parse (protocol ++ "://" ++ rest) = .ok u →
    protocol ∈ ["postgres", "mysql", "mongodb", "oracle", "sqlserver", "http", "https"] → (text u).scheme = protocol
  parse_display : ∀ u, crate.parse (crate.display u) = .ok u

end UrlCrate

/-- User, password and database as a writer or a driver obtains them. -/
structure Credentials where
  username : Lib.Bytes
  password : Lib.Bytes
  database : Lib.Bytes
  deriving DecidableEq

/-- `String::from_utf8`. -/
def fromUtf8 (bs : Lib.Bytes) : Option Lib.Bytes := if (ofUtf8? bs).isSome then some bs else none

/-- `u8::from_str_radix` on two bytes, which takes a sign. -/
def radixPair (a b : UInt8) : Option UInt8 := if a = 43 then (hexValue b).map UInt8.ofNat else hexPair a b

section Writers

variable (crate : UrlCrate) (text : crate.Url → UrlText)

/-! ### SQL Server -/

structure SqlServerConfig where
  host : String
  port : ℕ
  database : Lib.Bytes
  username : Lib.Bytes
  password : Lib.Bytes
  trustCert : Bool

/-- `to_ascii_lowercase`. -/
def asciiLowercase (s : String) : String := String.ofList (s.toList.map Char.toLower)

def sqlserverTrustCert (pairs : List (String × String)) : Bool :=
  pairs.any fun pair =>
    if asciiLowercase pair.1 = "trustservercertificate" then asciiLowercase pair.2 ∈ ["true", "1", "yes"]
    else if asciiLowercase pair.1 = "sslmode" then asciiLowercase pair.2 = "disable"
    else false

def SqlServerWriter.fromUrl (value : String) : Except FlowError SqlServerConfig :=
  match crate.parse value with
  | .error error => .error (.configuration ("invalid SQL Server URL: " ++ error))
  | .ok url =>
    if (text url).scheme ∉ ["sqlserver", "mssql"] then
      .error (.configuration "SQL Server URL must use sqlserver:// or mssql://")
    else
      match (text url).host with
      | none => .error (.configuration "SQL Server URL requires a host")
      | some host =>
        let database := trimStart (text url).path
        let password := (text url).password.getD []
        if (text url).username = [] ∨ password = [] ∨ database = [] then
          .error (.configuration "SQL Server URL requires username, password and database")
        else
          .ok
            { host := host
              port := (text url).port.getD 1433
              database := database
              username := (text url).username
              password := password
              trustCert := sqlserverTrustCert (text url).queryPairs }

/-! ### Oracle -/

structure OracleSettings where
  username : Lib.Bytes
  password : Lib.Bytes
  host : String
  port : ℕ
  service : Lib.Bytes

/-- `host:port/service`. -/
def OracleSettings.connectString (settings : OracleSettings) : Lib.Bytes :=
  utf8 (settings.host ++ ":" ++ toString settings.port ++ "/") ++ settings.service

def percentDecode (value : Lib.Bytes) : Except FlowError Lib.Bytes :=
  okOr (.configuration "Oracle URL credentials are not UTF-8") (fromUtf8 (decode radixPair value))

def OracleWriter.fromUrl (value : String) : Except FlowError OracleSettings :=
  match crate.parse value with
  | .error error => .error (.configuration ("invalid Oracle URL: " ++ error))
  | .ok url =>
    if (text url).scheme ≠ "oracle" then .error (.configuration "Oracle URL must use oracle://")
    else
      match (text url).host with
      | none => .error (.configuration "Oracle URL requires a host")
      | some host =>
        let service := trimStart (text url).path
        if service = [] ∨ slash ∈ service then .error (.configuration "Oracle URL requires one service name")
        else do
          let username ← percentDecode (text url).username
          let password ← percentDecode ((text url).password.getD [])
          if username = [] ∨ password = [] then .error (.configuration "Oracle URL requires username and password")
          else .ok ⟨username, password, host, (text url).port.getD 1521, service⟩

/-! ### ClickHouse -/

structure ClickHouseWriter where
  baseUrl : String
  user : Lib.Bytes
  password : Lib.Bytes
  database : Lib.Bytes

def plusToSpace (b : UInt8) : UInt8 := if b = 43 then 32 else b

/-- The loop of `percent_encoding_decode`: an escape that is not hexadecimal ends it. -/
def unescape : Lib.Bytes → Option Lib.Bytes
  | c :: a :: b :: rest =>
    if c = percent then
      match radixPair a b with
      | some byte => (unescape rest).map (byte :: ·)
      | none => none
    else (unescape (a :: b :: rest)).map (plusToSpace c :: ·)
  | bs => some (bs.map plusToSpace)

def percentEncodingDecode (value : Lib.Bytes) : Option Lib.Bytes := (unescape value).bind fromUtf8

def urlencodingDecode (value : Lib.Bytes) : Lib.Bytes := (percentEncodingDecode value).getD value

/-- `default`. -/
def defaultName : Lib.Bytes := utf8 "default"

def ClickHouseWriter.fromUrl (value : String) : Except FlowError ClickHouseWriter :=
  match crate.parse value with
  | .error error => .error (.configuration ("invalid ClickHouse URL: " ++ error))
  | .ok url =>
    match if (text url).scheme ∈ ["http", "https"] then some (text url).scheme
      else if (text url).scheme = "clickhouse" then some "http" else none with
    | none => .error (.configuration ("ClickHouse URL must use http://, https://, or clickhouse:// (got '" ++
        (text url).scheme ++ "')"))
    | some scheme =>
      match (text url).host with
      | none => .error (.configuration "ClickHouse URL requires a host")
      | some host =>
        let path := trimStart (text url).path
        .ok
          { baseUrl := scheme ++ "://" ++ host ++ ":" ++ toString ((text url).port.getD 8123)
            user := if (text url).username = [] then defaultName else urlencodingDecode (text url).username
            password := ((text url).password.map urlencodingDecode).getD []
            database := if path = [] then defaultName else path }

/-! ### The other drivers -/

/-- User information and path decoded once; what is not UTF-8 is refused. -/
def decodedOnce (url : UrlText) : Option Credentials := do
  let username ← fromUtf8 (decode hexPair url.username)
  let password ← fromUtf8 (decode hexPair (url.password.getD []))
  let database ← fromUtf8 (decode hexPair (trimStart url.path))
  return ⟨username, password, database⟩

/-- The drivers of Postgres, MySQL, MariaDB and MongoDB. -/
structure Drivers where
  read : ConnectionType → String → Option Credentials

structure Drivers.Decodes (drivers : Drivers) : Prop where
  read : ∀ kind u, drivers.read kind (crate.display u) = decodedOnce (text u)

/-- `scheme_for`. -/
def schemeFor : ConnectionType → Option (String × String)
  | .postgres => some ("postgres", "postgres")
  | .mySql => some ("mysql", "mysql")
  | .mariaDb => some ("mysql", "mariadb")
  | .mongoDb => some ("mongodb", "mongodb")
  | .oracle => some ("oracle", "oracle")
  | .sqlServer => some ("sqlserver", "sqlserver")
  | .clickHouse => some ("clickhouse", "clickhouse")
  | _ => none

/-- What the writer or the driver of a database obtains from a URL, if it takes it. -/
def obtained (drivers : Drivers) (kind : ConnectionType) (url : String) : Option Credentials :=
  match kind with
  | .sqlServer => (SqlServerWriter.fromUrl crate text url).toOption.map fun c => ⟨c.username, c.password, c.database⟩
  | .oracle => (OracleWriter.fromUrl crate text url).toOption.map fun s => ⟨s.username, s.password, s.service⟩
  | .clickHouse => (ClickHouseWriter.fromUrl crate text url).toOption.map fun w => ⟨w.user, w.password, w.database⟩
  | kind => drivers.read kind url

end Writers

end Jaiba.Connections
