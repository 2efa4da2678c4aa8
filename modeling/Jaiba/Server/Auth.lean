import Jaiba.Error
import Jaiba.Lib.Bytes
import Jaiba.Server.SqlBuilder

/-!
# Who may call the control plane (`jaiba-server/src/auth.rs`)

Principals, the permission a route asks for, and the allowlist of flows. The
token of a request decides whose rights it has.
-/

namespace Jaiba.Server.Auth
open Jaiba.Lib

/-- viewer < operator < admin -/
inductive Role where
  | viewer | operator | admin
  deriving Repr, DecidableEq

namespace Role

def asStr : Role → String
  | viewer => "viewer"
  | operator => "operator"
  | admin => "admin"

def rank : Role → ℕ
  | viewer => 0
  | operator => 1
  | admin => 2

/-- `to_ascii_lowercase` leaves other letters as they are. -/
def parse (value : String) : Option Role :=
  let value := String.ofList ((SqlBuilder.trim value.toList).map Char.toLower)
  if value = "viewer" ∨ value = "read" then some viewer
  else if value = "operator" ∨ value = "ops" then some operator
  else if value = "admin" then some admin
  else none

end Role

inductive Permission where
  | read | operate | admin
  deriving Repr, DecidableEq

def Permission.minRole : Permission → Role
  | read => .viewer
  | operate => .operator
  | admin => .admin

structure AuthContext where
  actor : String
  role : Role
  /-- `*` or the ids of flows -/
  projects : List String
  deriving Repr, DecidableEq

namespace AuthContext

def allowsProject (ctx : AuthContext) (flowId : String) : Bool :=
  ctx.projects.any fun entry => entry = "*" || entry = flowId

def hasPermission (ctx : AuthContext) (permission : Permission) : Bool :=
  permission.minRole.rank ≤ ctx.role.rank

end AuthContext

structure Principal where
  id : String
  role : Role
  projects : List String
  /-- the token, or `sha256:` and the digest of the token in hexadecimal -/
  tokenSecret : String
  deriving Repr, DecidableEq

/-- A user of the file, as `serde_json` reads it. -/
structure UserRecord where
  id : String
  role : String
  token : String
  projects : Option (List String)

def trimmed (s : String) : String := String.ofList (SqlBuilder.trim s.toList)

def UserRecord.principal (user : UserRecord) : Except FlowError Principal :=
  let id := trimmed user.id
  if id.isEmpty then .error (.configuration "usuario sin id en JAIBA_ADMIN_USERS_FILE")
  else
    match Role.parse user.role with
    | none => .error (.configuration ("rol inválido '" ++ user.role ++ "' para usuario '" ++ id ++
        "' (viewer|operator|admin)"))
    | some role =>
      let token := trimmed user.token
      if token.isEmpty then .error (.configuration ("usuario '" ++ id ++ "' sin token"))
      else .ok ⟨id, role, user.projects.getD ["*"], token⟩

/-- `load_users_file`, after the file has been read and parsed. -/
def loadUsers (users : List UserRecord) : Except FlowError (List Principal) :=
  if users.isEmpty then .error (.configuration "JAIBA_ADMIN_USERS_FILE no contiene usuarios")
  else users.mapM UserRecord.principal

def constantTimeEq (left right : Lib.Bytes) : Bool :=
  if left.length ≠ right.length then false
  else (left.zip right).foldl (fun diff p => diff ||| (p.1 ^^^ p.2)) 0 == 0

section tokens
variable (sha256 : Lib.Bytes → Lib.Bytes)

def toHex (bytes : Lib.Bytes) : String :=
  String.ofList (bytes.flatMap fun b => [Json.hexDigit (b.toNat / 16), Json.hexDigit (b.toNat % 16)])

/-- A secret that starts with `sha256:` is compared with the digest of the token. -/
def tokenMatches (secret presented : String) : Bool :=
  match secret.toList.dropPrefix? "sha256:".toList with
  | some expectedHex =>
    let expected := String.ofList ((SqlBuilder.trim expectedHex).map Char.toLower)
    constantTimeEq (utf8 (toHex (sha256 (utf8 presented)))) (utf8 expected)
  | none => constantTimeEq (utf8 secret) (utf8 presented)

def matchPrincipal (principals : List Principal) (presented : String) : Option Principal :=
  principals.find? fun p => tokenMatches sha256 p.tokenSecret presented

end tokens

inductive AdminAuthentication where
  | none | bearer
  deriving Repr, DecidableEq

structure AdminAccess where
  enabled : Bool
  authentication : AdminAuthentication
  principals : List Principal
  deriving Repr, DecidableEq

/-- The `Authorization` header, where it is text, and the `access_token` of the query. -/
structure Credentials where
  authorization : Option String
  accessToken : Option String
  deriving Repr, DecidableEq

/-- A response that turns a request away. -/
structure Refusal where
  status : ℕ
  message : String
  deriving Repr, DecidableEq

def unavailable (message : String) : Refusal := ⟨503, message⟩

def unauthorized : Refusal := ⟨401, "a valid Bearer token is required"⟩

def forbidden (message : String) : Refusal := ⟨403, message⟩

def extractBearerToken (c : Credentials) : Option String :=
  c.authorization.bind fun value => (value.toList.dropPrefix? "Bearer ".toList).map String.ofList

section authorize
variable (sha256 : Lib.Bytes → Lib.Bytes) (admin : AdminAccess)

def authenticate (c : Credentials) : Except Refusal AuthContext :=
  if !admin.enabled then .error (unavailable "administrative API is disabled")
  else
    match admin.authentication with
    | .none => .ok ⟨"none", .admin, ["*"]⟩
    | .bearer =>
      match (extractBearerToken c).or c.accessToken with
      | none => .error unauthorized
      | some token =>
        match matchPrincipal sha256 admin.principals token with
        | some principal => .ok ⟨principal.id, principal.role, principal.projects⟩
        | none => .error unauthorized

/-- The token of a query counts only for `/runtime` and `/ws`. -/
def authorizePerm (c : Credentials) (permission : Permission) : Except Refusal AuthContext :=
  match authenticate sha256 admin { c with accessToken := none } with
  | .error refusal => .error refusal
  | .ok ctx =>
    if ctx.hasPermission permission then .ok ctx
    else .error (forbidden "insufficient role for this operation")

def outsideAllowlist : Refusal := forbidden "flow is outside the caller's project allowlist"

def authorizeFlow (c : Credentials) (permission : Permission) (flowId : String) :
    Except Refusal AuthContext :=
  match authorizePerm sha256 admin c permission with
  | .error refusal => .error refusal
  | .ok ctx => if ctx.allowsProject flowId then .ok ctx else .error outsideAllowlist

def authorizeObservability (c : Credentials) : Except Refusal AuthContext :=
  match authenticate sha256 admin c with
  | .error refusal => .error refusal
  | .ok ctx =>
    if ctx.hasPermission .read then .ok ctx
    else .error (forbidden "insufficient role for observability")

end authorize

/-! ### What an accepted token says -/

section accepted
variable {sha256 : Lib.Bytes → Lib.Bytes} {admin : AdminAccess} {c : Credentials} {ctx : AuthContext}
  {permission : Permission} {flowId : String}

theorem authorizePerm_permission (h : authorizePerm sha256 admin c permission = .ok ctx) :
    ctx.hasPermission permission = true := by
  unfold authorizePerm at h
  split at h
  · cases h
  · split_ifs at h with hperm
    cases h
    exact hperm

theorem authorizeFlow_ok (h : authorizeFlow sha256 admin c permission flowId = .ok ctx) :
    authorizePerm sha256 admin c permission = .ok ctx ∧ ctx.allowsProject flowId = true := by
  unfold authorizeFlow at h
  split at h
  · cases h
  next hctx =>
    split_ifs at h with hallow
    cases h
    exact ⟨hctx, hallow⟩

end accepted

end Jaiba.Server.Auth
