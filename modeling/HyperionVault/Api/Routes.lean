import HyperionVault.Api.Manage
import HyperionVault.Service.Rewrap

/-!
# The routes of the API

`routes.rs`: every request is first looked at by a guard; what it may do is then decided by the rules of the
actor's role or by the address it comes from.

* `ApiRequest`, `ApiReply` : the requests, one constructor for each route, and their answers;
* `RequestDraws` : the clock readings and random numbers of a request;
* `Routes.createSecret`, `Routes.secretAction`, ... : the handlers;
* `ApiCall`, `ApiCall.body` : a request with its sender, as a process.
-/

namespace HyperionVault
open Lib

/-- A body, or why it is not accepted. -/
abbrev Body (α : Type) := Except String α

/-- The name in a route is the rest of the path. -/
inductive ApiRequest where
  | healthz
  | readyz
  | createSecret (body : Body CreateSecretRequest)
  | listSecrets
  | getSecret (name : String)
  | batchGetSecrets (body : Body (List String))
  | updateSecret (name : String) (body : Body UpdateSecretRequest)
  | deleteSecret (name : String)
  /-- A `POST` to a secret: the action is the last segment of the path. -/
  | secretAction (path : String) (body : Body String)
  | createRole (body : Body CreateRoleRequest)
  | listRoles
  | getRole (name : String)
  | setPermissions (name : String) (body : Body Rules)
  | deleteRole (name : String)
  | createToken (body : Body CreateTokenRequest)
  | listTokens
  | revokeToken (name : String)
  | backup
  | restore (body : Body BackupData)
  | kmsRewrap
  | kmsRewrapStatus

inductive ApiReply where
  | text (message : String)
  | value (value : SecretValue)
  | values (values : List SecretValue)
  | metadata (secret : SecretRecord)
  | secrets (secrets : List SecretRecord)
  | verified (response : VerifyResponse)
  | role (role : RoleRecord)
  | roles (roles : List RoleRecord)
  | tokenCreated (token : TokenCreated)
  | tokens (tokens : List TokenRecord)
  | backup (data : BackupData)
  | rewrapped (summary : RewrapSummary) (targetRotationAt : Option Int64)
  | rewrapStatus (status : RewrapStatus)
  | noContent

/-- What one request draws: clock readings, random numbers, and what KMS says of its key. -/
structure RequestDraws where
  guard : GuardTimes
  deniedAt : Int64
  call : Draws
  verifyCheckAt : Int64
  verifyRecordAt : Int64
  latestRotation : Except String (Option Int64)
  pass : PassDraws
  completedAt : Int64

structure ApiConfig where
  auth : AuthConfig
  restore : RestoreConfig
  kmsRewrapEnabled : Bool

def Call.ofBody {α : Type} (body : Body α) : Call α := Call.ofExcept .badRequest body

/-- An error of a pass is an internal one; its text is only logged. -/
def ApiError.asInternal : ApiError → ApiError
  | .unauthorized => .internal "unauthorized"
  | .forbidden => .internal "forbidden"
  | .tooManyRequests => .internal "too many failed attempts; locked out"
  | .notFound => .internal "not found"
  | .badRequest message => .internal message
  | .conflict message => .internal message
  | .internal message => .internal message

def Call.internally {α : Type} (c : Call α) : Call α := do
  let r ← ExceptT.lift c.run
  Call.ofExcept ApiError.asInternal r

namespace Routes
variable (A : AppState) (cfg : ApiConfig) (parts : RequestParts) (d : RequestDraws)

def readyz : Call ApiReply := do
  let _ ← Call.read (RedbStore.listRoles A.codec)
  return .text "ready"

/-! ## Secrets -/

def createSecret (body : Body CreateSecretRequest) : Call ApiReply := do
  let actor ← adminActor A cfg.auth parts d.guard
  let req ← Call.ofBody body
  authorize A cfg.auth actor "create" req.name d.deniedAt
  authorizeRotationTarget A cfg.auth actor req d.deniedAt
  let value ← createSecretCall A actor.name req d.call
  return .value value

def listSecrets : Call ApiReply := do
  let actor ← adminActor A cfg.auth parts d.guard
  let all ← listSecretsCall A
  return .secrets (all.filter fun secret => visible actor.isAdmin actor.rules secret.name)

def getSecret (name : String) : Call ApiReply := do
  let guard ← readerGuard A cfg.auth parts d.guard
  let value ← HyperionVault.getSecret A name (cfg.auth.showIp (.v4 guard.clientIp)) d.call
  return .value value

def batchGetSecrets (body : Body (List String)) : Call ApiReply := do
  let guard ← readerGuard A cfg.auth parts d.guard
  let names ← Call.ofBody body
  let values ← getSecrets A names (cfg.auth.showIp (.v4 guard.clientIp)) d.call
  return .values values

def updateSecret (name : String) (body : Body UpdateSecretRequest) : Call ApiReply := do
  let actor ← adminActor A cfg.auth parts d.guard
  let req ← Call.ofBody body
  authorize A cfg.auth actor "update" name d.deniedAt
  let secret ← HyperionVault.updateSecret A actor.name name req d.call
  return .metadata secret

def deleteSecret (name : String) : Call ApiReply := do
  let actor ← adminActor A cfg.auth parts d.guard
  authorize A cfg.auth actor "delete" name d.deniedAt
  deleteSecretCall A actor.name name d.call
  return .noContent

def rotateSecret (name : String) : Call ApiReply := do
  let actor ← adminActor A cfg.auth parts d.guard
  authorize A cfg.auth actor "rotate" name d.deniedAt
  let value ← rotate A actor.name none name d.call
  return .value value

def verifySecret (name : String) (body : Body String) : Call ApiReply := do
  let guard ← readerGuard A cfg.auth parts d.guard
  let presented ← Call.ofBody body
  let response ← verify A cfg.auth name (cfg.auth.showIp (.v4 guard.clientIp)) guard.peerIp presented d.call
    d.verifyCheckAt d.verifyRecordAt
  return .verified response

/-- The path without its last segment, and this segment. -/
def splitAction (path : String) : Option (String × String) :=
  (rsplitOnce '/' path.toList).map fun (name, action) => (String.ofList name, String.ofList action)

def secretAction (path : String) (body : Body String) : Call ApiReply :=
  match splitAction path with
  | none => throw .notFound
  | some (name, action) =>
      if action = "rotate" then rotateSecret A cfg parts d name
      else if action = "verify" then verifySecret A cfg parts d name body
      else throw .notFound

/-! ## Administration -/

/-- The actor of a request that only an administrator may make. The body is looked at before the role. -/
def administrator {α : Type} (body : Body α) : Call (AdminActor × α) := do
  let actor ← adminActor A cfg.auth parts d.guard
  let req ← Call.ofBody body
  requireAdmin A cfg.auth actor d.deniedAt
  return (actor, req)

def createRole (body : Body CreateRoleRequest) : Call ApiReply := do
  let (_, req) ← administrator A cfg parts d body
  let role ← Manage.createRole A req d.call.now
  return .role role

def listRoles : Call ApiReply := do
  let _ ← administrator A cfg parts d (.ok ())
  let roles ← Manage.listRoles A
  return .roles roles

def getRole (name : String) : Call ApiReply := do
  let _ ← administrator A cfg parts d (.ok ())
  let role ← Manage.getRole A name
  return .role role

def setPermissions (name : String) (body : Body Rules) : Call ApiReply := do
  let (_, permissions) ← administrator A cfg parts d body
  let role ← Manage.setPermissions A name permissions
  return .role role

def deleteRole (name : String) : Call ApiReply := do
  let _ ← administrator A cfg parts d (.ok ())
  Manage.deleteRole A name
  return .noContent

def createToken (body : Body CreateTokenRequest) : Call ApiReply := do
  let (_, req) ← administrator A cfg parts d body
  let token ← Manage.createToken A cfg.auth req d.call
  return .tokenCreated token

def listTokens : Call ApiReply := do
  let _ ← administrator A cfg parts d (.ok ())
  let tokens ← Manage.listTokens A
  return .tokens tokens

def revokeToken (name : String) : Call ApiReply := do
  let _ ← administrator A cfg parts d (.ok ())
  Manage.revokeToken A name d.call.now
  return .noContent

def backup : Call ApiReply := do
  let (actor, _) ← administrator A cfg parts d (.ok ())
  let data ← Manage.backup A actor.name d.call
  return .backup data

def restore (body : Body BackupData) : Call ApiReply := do
  let (actor, data) ← administrator A cfg parts d body
  Manage.restore A cfg.restore actor.name data d.call
  return .noContent

def kmsRewrap : Call ApiReply := do
  let _ ← administrator A cfg parts d (.ok ())
  let latest ← Call.kms fun _ => d.latestRotation
  let target := latest.getD 0
  let summary ← (force A A.nodeId target d.pass d.completedAt).internally
  return .rewrapped summary (if 0 < target then some target else none)

def kmsRewrapStatus : Call ApiReply := do
  let _ ← administrator A cfg parts d (.ok ())
  let current ← (status A A.nodeId cfg.kmsRewrapEnabled d.latestRotation d.pass.now).internally
  return .rewrapStatus current

end Routes

/-- A request with its sender. -/
structure ApiCall where
  parts : RequestParts
  request : ApiRequest
  draws : RequestDraws

def ApiCall.handler (A : AppState) (cfg : ApiConfig) (c : ApiCall) : Call ApiReply :=
  match c.request with
  | .healthz => return .text "ok"
  | .readyz => Routes.readyz A
  | .createSecret body => Routes.createSecret A cfg c.parts c.draws body
  | .listSecrets => Routes.listSecrets A cfg c.parts c.draws
  | .getSecret name => Routes.getSecret A cfg c.parts c.draws name
  | .batchGetSecrets body => Routes.batchGetSecrets A cfg c.parts c.draws body
  | .updateSecret name body => Routes.updateSecret A cfg c.parts c.draws name body
  | .deleteSecret name => Routes.deleteSecret A cfg c.parts c.draws name
  | .secretAction path body => Routes.secretAction A cfg c.parts c.draws path body
  | .createRole body => Routes.createRole A cfg c.parts c.draws body
  | .listRoles => Routes.listRoles A cfg c.parts c.draws
  | .getRole name => Routes.getRole A cfg c.parts c.draws name
  | .setPermissions name body => Routes.setPermissions A cfg c.parts c.draws name body
  | .deleteRole name => Routes.deleteRole A cfg c.parts c.draws name
  | .createToken body => Routes.createToken A cfg c.parts c.draws body
  | .listTokens => Routes.listTokens A cfg c.parts c.draws
  | .revokeToken name => Routes.revokeToken A cfg c.parts c.draws name
  | .backup => Routes.backup A cfg c.parts c.draws
  | .restore body => Routes.restore A cfg c.parts c.draws body
  | .kmsRewrap => Routes.kmsRewrap A cfg c.parts c.draws
  | .kmsRewrapStatus => Routes.kmsRewrapStatus A cfg c.parts c.draws

def ApiCall.body (A : AppState) (cfg : ApiConfig) (c : ApiCall) : Proc World Op (ApiResult ApiReply) :=
  (c.handler A cfg).run

/-- The requests that write a secret: the action that is authorised, and the name. -/
def ApiRequest.action : ApiRequest → Option (String × String)
  | .createSecret (.ok req) => some ("create", req.name)
  | .updateSecret name _ => some ("update", name)
  | .deleteSecret name => some ("delete", name)
  | .secretAction path _ => (Routes.splitAction path).bind fun (name, action) =>
      if action = "rotate" then some ("rotate", name) else none
  | _ => none

example : (ApiRequest.secretAction "db/password/rotate" (.ok "")).action = some ("rotate", "db/password") := by decide

end HyperionVault
