import HyperionVault.Api.Guards

/-!
# Roles, tokens and backups

The administrative calls of `manage.rs`. A new token is given a role that was there when the call looked; a
role is deleted by a command that looks for its tokens itself.

* `CreateRoleRequest`, `CreateTokenRequest` : the bodies of the requests;
* `validateRoleName`, `validatePermissions` : the checks, with their messages;
* `Manage.createRole`, `Manage.createToken`, ... : the calls.
-/

namespace HyperionVault
open Lib

structure CreateRoleRequest where
  name : String
  description : Option String
  isAdmin : Bool
  permissions : Rules

structure CreateTokenRequest where
  name : String
  role : String

structure TokenCreated where
  name : String
  role : String
  token : String

/-- Whether a text is empty or consists of white space. -/
def isBlank (text : String) : Bool := (trim text.toList).isEmpty

def validateRoleName (name : String) : ApiResult Unit :=
  require (!(isBlank name || 255 < name.utf8ByteSize)) "role name must be between 1 and 255 characters"

def validatePermissions : Rules → ApiResult Unit
  | [] => .ok ()
  | (action, path) :: rest => do
      require (isValidAction action)
        ("invalid action '" ++ action ++ "' (allowed: create, update, delete, rotate, *)")
      require (!path.isEmpty) "permission path must not be empty"
      validatePermissions rest

def builtinAdminRole : String := "admin"

/-- The limits on a restore: on a cluster it travels as one entry of the log. -/
structure RestoreConfig where
  isCluster : Bool
  encodedLen : BackupData → Nat

def rpcBodyLimit : Nat := 16 * 2 ^ 20

def maxReplicatedRestoreBytes : Nat := rpcBodyLimit / 2

namespace Manage
variable (A : AppState) (cfg : AuthConfig)

/-! ## Roles -/

def createRole (req : CreateRoleRequest) (now : Int64) : Call RoleRecord := do
  Call.ensure (validateRoleName req.name)
  Call.ensure (validatePermissions req.permissions)
  let role : RoleRecord := { name := req.name, description := req.description, isAdmin := req.isAdmin,
                             permissions := req.permissions, createdAt := now }
  Call.submit A (.createRole role) .nothing none
  return role

def listRoles : Call (List RoleRecord) := Call.read (RedbStore.listRoles A.codec)

def getRole (name : String) : Call RoleRecord := do
  let found ← Call.read (RedbStore.role A.codec name)
  Call.ofOption .notFound found

def setPermissions (name : String) (permissions : Rules) : Call RoleRecord := do
  Call.ensure (validatePermissions permissions)
  Call.submit A (.setPermissions name permissions) .nothing none
  getRole A name

def deleteRole (name : String) : Call Unit := do
  Call.ensure (require (name ≠ builtinAdminRole) "the built-in 'admin' role cannot be deleted")
  Call.submit A (.deleteRole name) .nothing none

/-! ## Tokens -/

def newToken (req : CreateTokenRequest) (d : Draws) : TokenRecord where
  name := req.name
  role := some req.role
  fingerprint := cfg.fingerprint d.token
  createdAt := d.now
  lastUsedAt := none
  revokedAt := none

def createToken (req : CreateTokenRequest) (d : Draws) : Call TokenCreated := do
  Call.ensure (require (!isBlank req.name) "token name is required")
  let role ← Call.read (RedbStore.role A.codec req.role)
  Call.ensure (require role.isSome ("role '" ++ req.role ++ "' does not exist"))
  Call.submit A (.addToken (newToken cfg req d)) .nothing none
  return { name := req.name, role := req.role, token := d.token }

def listTokens : Call (List TokenRecord) := Call.read (RedbStore.listTokens A.codec)

def revokeToken (name : String) (now : Int64) : Call Unit := Call.submit A (.revokeToken name now) .nothing none

/-! ## Backups -/

def backup (actor : String) (d : Draws) : Call BackupData := do
  let data ← Call.read fun t => .ok (dumpDatabase t)
  audit A (some actor) none "backup" none "ok" d
  return data

def restore (limits : RestoreConfig) (actor : String) (data : BackupData) (d : Draws) : Call Unit := do
  Call.ensure (require (!(limits.isCluster && maxReplicatedRestoreBytes < limits.encodedLen data))
    ("backup is " ++ toString (limits.encodedLen data) ++ " bytes encoded; a replicated restore is limited to " ++
      toString maxReplicatedRestoreBytes ++ " bytes because it travels as one raft log entry"))
  Call.ensure (require (data.version = backupVersion)
    ("unsupported backup version " ++ toString data.version ++ " (this build restores version " ++
      toString backupVersion ++ ")"))
  Call.submit A (.restoreDatabase data) .nothing none
  audit A (some actor) none "restore" none "ok" d

end Manage

end HyperionVault
