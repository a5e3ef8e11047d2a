import HyperionVault.Core.Types
import HyperionVault.Lib.Table

/-!
# Records, commands and errors of the store

The data of `store/model.rs` and of the backup rows of `store/backup.rs`. Times are unix seconds
(`i64`), version numbers are `i32`; rows are byte strings.

* `SecretRecord`, `VersionRecord`, `RoleRecord`, `TokenRecord`, ... : what the rows hold;
* `Command` : every mutation of the store;
* `Tables` : the eight data tables of one node, `Replicated` : the six of them that are replicated;
* `Codec` : how records are stored as bytes, with the law that decoding inverts encoding.
-/

namespace HyperionVault
open Lib

structure PgRoleTarget where
  hosts : List String
  database : String
  role : Option String
  loginSecret : Option String
deriving DecidableEq

inductive RotationTarget where
  | pgReplica (target : PgRoleTarget)
deriving DecidableEq

structure SecretRecord where
  name : String
  kind : SecretKind
  format : SecretFormat
  description : Option String
  rotationIntervalSecs : Option Int64
  graceSecs : Int64
  currentVersion : Int32
  nextRotationAt : Option Int64
  createdAt : Int64
  updatedAt : Int64
  target : Option RotationTarget
deriving DecidableEq

structure VersionRecord where
  version : Int32
  kmsKeyId : String
  wrappedDek : Bytes
  nonce : Bytes
  ciphertext : Bytes
  aad : Bytes
  createdAt : Int64
  expiresAt : Option Int64
  wrappedRotationAt : Option Int64
deriving DecidableEq

structure RoleRecord where
  name : String
  description : Option String
  isAdmin : Bool
  permissions : List (String × String)
  createdAt : Int64
deriving DecidableEq

structure TokenRecord where
  name : String
  role : Option String
  fingerprint : Bytes
  createdAt : Int64
  lastUsedAt : Option Int64
  revokedAt : Option Int64
deriving DecidableEq

structure LockoutRecord where
  failures : UInt32
  windowStart : Int64
  lockedUntil : Option Int64
deriving DecidableEq

structure AuditEntry where
  at_ : Int64
  actor : Option String
  clientIp : Option String
  action : String
  secretName : Option String
  outcome : String
  nodeId : Nat
deriving DecidableEq

structure KmsRewrapState where
  lastCompletedRotationAt : Int64
  lastSweptAt : Int64
  updatedAt : Int64
deriving DecidableEq

inductive NextRotation where
  | keep
  | set (value : Option Int64)
deriving DecidableEq

/-- The rows of a whole-database backup. -/
structure BackupData where
  version : UInt32
  secrets : List (String × Bytes)
  versions : List (String × Bytes)
  roles : List (String × Bytes)
  tokens : List (Bytes × Bytes)
  tokensByName : List (String × Bytes)
  audit : List (Nat × Bytes)
  kmsRewrap : List (String × Bytes)
deriving DecidableEq

inductive Command where
  | createSecret (secret : SecretRecord) (version : VersionRecord)
  | putVersion (name : String) (expectedCurrent : Int32) (version : VersionRecord)
      (supersedeExpiresAt : Option Int64) (setDescription : Option String)
      (setRotationIntervalSecs setGraceSecs : Option Int64) (nextRotationAt : NextRotation) (updatedAt : Int64)
  | updateMeta (name : String) (expectedCurrent : Int32) (setDescription : Option String)
      (setRotationIntervalSecs setGraceSecs : Option Int64) (nextRotationAt : NextRotation) (updatedAt : Int64)
  | deleteSecret (name : String)
  | createRole (role : RoleRecord)
  | setPermissions (name : String) (permissions : List (String × String))
  | deleteRole (name : String)
  | addToken (token : TokenRecord)
  | revokeToken (name : String) (revokedAt : Int64)
  | touchToken (fingerprint : Bytes) (at_ : Int64)
  | expireGraceVersions (now : Int64)
  | rewrapVersion (name : String) (version : Int32) (kmsKeyId : String) (wrappedDek : Bytes)
      (wrappedRotationAt : Int64)
  | setKmsRewrapState (state : KmsRewrapState)
  | appendAudit (entry : AuditEntry)
  | restoreDatabase (data : BackupData)
  | recordAuthFailure (key : String) (now : Int64) (max : UInt32) (windowSecs lockoutSecs : Int64)
deriving DecidableEq

/-- The commands a node applies to its own store only. -/
def Command.isLocal : Command → Bool
  | .appendAudit _ => true
  | .recordAuthFailure .. => true
  | _ => false

inductive StoreError where
  | notFound
  | conflict (message : String)
  | versionConflict
  | internal (message : String)
deriving DecidableEq

/-- Whether the error is the one the raft path treats as fatal. -/
def StoreError.isInternal : StoreError → Bool
  | .internal _ => true
  | _ => false

abbrev StoreResult (α : Type) := Except StoreError α

def isInternalOutcome : StoreResult Unit → Bool
  | .error e => e.isInternal
  | .ok () => false

/-! ## Rows as bytes -/

/-- The JSON encodings of the stored records (`store/codec.rs`). -/
structure Codec where
  secret : Serde SecretRecord
  version : Serde VersionRecord
  role : Serde RoleRecord
  token : Serde TokenRecord
  lockout : Serde LockoutRecord
  audit : Serde AuditEntry
  kmsRewrap : Serde KmsRewrapState

/-- `decode` as the commands call it: bytes that are not a record are an internal error. -/
def decodeRow {α : Type} (S : Serde α) (bytes : Bytes) : StoreResult α :=
  match S.decode bytes with
  | some a => .ok a
  | none => .error (.internal "decode store record")

@[simp] theorem decodeRow_encode {α : Type} (S : Serde α) (a : α) : decodeRow S (S.encode a) = .ok a := by
  simp [decodeRow]

/-! ## Tables -/

/-- The data tables of one node. -/
structure Tables where
  secrets : Table String Bytes
  versions : Table String Bytes
  roles : Table String Bytes
  tokens : Table Bytes Bytes
  tokensByName : Table String Bytes
  lockouts : Table String Bytes
  audit : Table Nat Bytes
  kmsRewrap : Table String Bytes
deriving DecidableEq

def Tables.empty : Tables where
  secrets := .empty
  versions := .empty
  roles := .empty
  tokens := .empty
  tokensByName := .empty
  lockouts := .empty
  audit := .empty
  kmsRewrap := .empty

/-- The tables that every node of a cluster holds alike. -/
structure Replicated where
  secrets : Table String Bytes
  versions : Table String Bytes
  roles : Table String Bytes
  tokens : Table Bytes Bytes
  tokensByName : Table String Bytes
  kmsRewrap : Table String Bytes
deriving DecidableEq

def Tables.replicated (t : Tables) : Replicated where
  secrets := t.secrets
  versions := t.versions
  roles := t.roles
  tokens := t.tokens
  tokensByName := t.tokensByName
  kmsRewrap := t.kmsRewrap

end HyperionVault
