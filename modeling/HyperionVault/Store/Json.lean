import HyperionVault.Lib.Json
import HyperionVault.Store.Model

/-!
# The records as JSON

The forms in which `serde_json` writes the records of `store/model.rs`, field by field in the order of
the declarations, and the codec they make up.

* `Command.json` : a command, as the log keeps it: an object with one field, named after its kind;
* `jsonCodec` : the codec that writes rows as the program does and reads back what it writes;
* `secretNamed`, `versionOf` : records for concrete runs.
-/

namespace HyperionVault
open Lib

def SecretKind.json : Json SecretKind :=
  Json.string.iso
    (fun kind => match kind with | .manual => "manual" | .automatic => "automatic")
    (fun s => if s = "manual" then some .manual else if s = "automatic" then some .automatic else none)
    (by rintro (_ | _) <;> rfl)

def SecretFormat.json : Json SecretFormat :=
  Json.string.iso
    (fun format => match format with | .opaqueValue => "opaque" | .userpass => "userpass")
    (fun s => if s = "opaque" then some .opaqueValue else if s = "userpass" then some .userpass else none)
    (by rintro (_ | _) <;> rfl)

def RotationTarget.json : Json RotationTarget :=
  (Json.object ((Json.tag "pg_replica").field "type" |>.and <| (Json.list .string).field "hosts" |>.and <|
    Json.string.field "database" |>.and <| Json.optString.field "role" |>.and <|
    Json.optString.field "login_secret")).iso
    (fun | .pgReplica t => ((), t.hosts, t.database, t.role, t.loginSecret))
    (fun ((), hosts, database, role, loginSecret) => some (.pgReplica ⟨hosts, database, role, loginSecret⟩))
    (fun _ => rfl)

def SecretRecord.json : Json SecretRecord :=
  (Json.object (Json.string.field "name" |>.and <| SecretKind.json.field "kind" |>.and <|
    SecretFormat.json.field "format" |>.and <| Json.optString.field "description" |>.and <|
    Json.optInt64.field "rotation_interval_secs" |>.and <| Json.int64.field "grace_secs" |>.and <|
    Json.int32.field "current_version" |>.and <| Json.optInt64.field "next_rotation_at" |>.and <|
    Json.int64.field "created_at" |>.and <| Json.int64.field "updated_at" |>.and <|
    (RotationTarget.json.option fun _ _ h => by cases h).field "target")).iso
    (fun s => (s.name, s.kind, s.format, s.description, s.rotationIntervalSecs, s.graceSecs, s.currentVersion,
      s.nextRotationAt, s.createdAt, s.updatedAt, s.target))
    (fun (name, kind, format, description, interval, grace, current, next, created, updated, target) =>
      some ⟨name, kind, format, description, interval, grace, current, next, created, updated, target⟩)
    (fun _ => rfl)

def VersionRecord.json : Json VersionRecord :=
  (Json.object (Json.int32.field "version" |>.and <| Json.string.field "kms_key_id" |>.and <|
    Json.bytes.field "wrapped_dek" |>.and <| Json.bytes.field "nonce" |>.and <|
    Json.bytes.field "ciphertext" |>.and <| Json.bytes.field "aad" |>.and <|
    Json.int64.field "created_at" |>.and <| Json.optInt64.field "expires_at" |>.and <|
    Json.optInt64.field "wrapped_rotation_at")).iso
    (fun v => (v.version, v.kmsKeyId, v.wrappedDek, v.nonce, v.ciphertext, v.aad, v.createdAt, v.expiresAt,
      v.wrappedRotationAt))
    (fun (version, kmsKeyId, wrappedDek, nonce, ciphertext, aad, created, expires, wrapped) =>
      some ⟨version, kmsKeyId, wrappedDek, nonce, ciphertext, aad, created, expires, wrapped⟩)
    (fun _ => rfl)

def RoleRecord.json : Json RoleRecord :=
  (Json.object (Json.string.field "name" |>.and <| Json.optString.field "description" |>.and <|
    Json.bool.field "is_admin" |>.and <| (Json.list (.pair .string .string)).field "permissions" |>.and <|
    Json.int64.field "created_at")).iso
    (fun r => (r.name, r.description, r.isAdmin, r.permissions, r.createdAt))
    (fun (name, description, isAdmin, permissions, created) =>
      some ⟨name, description, isAdmin, permissions, created⟩)
    (fun _ => rfl)

def TokenRecord.json : Json TokenRecord :=
  (Json.object (Json.string.field "name" |>.and <| Json.optString.field "role" |>.and <|
    Json.bytes.field "fingerprint" |>.and <| Json.int64.field "created_at" |>.and <|
    Json.optInt64.field "last_used_at" |>.and <| Json.optInt64.field "revoked_at")).iso
    (fun t => (t.name, t.role, t.fingerprint, t.createdAt, t.lastUsedAt, t.revokedAt))
    (fun (name, role, fingerprint, created, lastUsed, revoked) =>
      some ⟨name, role, fingerprint, created, lastUsed, revoked⟩)
    (fun _ => rfl)

def LockoutRecord.json : Json LockoutRecord :=
  (Json.object (Json.uint32.field "failures" |>.and <| Json.int64.field "window_start" |>.and <|
    Json.optInt64.field "locked_until")).iso
    (fun l => (l.failures, l.windowStart, l.lockedUntil))
    (fun (failures, windowStart, lockedUntil) => some ⟨failures, windowStart, lockedUntil⟩)
    (fun _ => rfl)

def AuditEntry.json : Json AuditEntry :=
  (Json.object (Json.int64.field "at" |>.and <| Json.optString.field "actor" |>.and <|
    Json.optString.field "client_ip" |>.and <| Json.string.field "action" |>.and <|
    Json.optString.field "secret_name" |>.and <| Json.string.field "outcome" |>.and <|
    Json.nat.field "node_id")).iso
    (fun a => (a.at_, a.actor, a.clientIp, a.action, a.secretName, a.outcome, a.nodeId))
    (fun (at_, actor, clientIp, action, secretName, outcome, nodeId) =>
      some ⟨at_, actor, clientIp, action, secretName, outcome, nodeId⟩)
    (fun _ => rfl)

def KmsRewrapState.json : Json KmsRewrapState :=
  (Json.object (Json.int64.field "last_completed_rotation_at" |>.and <| Json.int64.field "last_swept_at" |>.and <|
    Json.int64.field "updated_at")).iso
    (fun s => (s.lastCompletedRotationAt, s.lastSweptAt, s.updatedAt))
    (fun (completed, swept, updated) => some ⟨completed, swept, updated⟩)
    (fun _ => rfl)

/-! ## Commands -/

/-- `"Keep"`, or an object with the value to set. -/
def NextRotation.json : Json NextRotation :=
  ((Json.tag "Keep").either (Json.object (Json.optInt64.field "Set")) fun _ _ => rfl).iso
    (fun next => match next with | .keep => .inl () | .set value => .inr value)
    (fun s => match s with | .inl () => some .keep | .inr value => some (.set value))
    (by rintro (_ | _) <;> rfl)

/-- The rows of a table. -/
def rowsJson {K : Type} (key : Json K) : Json (List (K × Bytes)) := Json.list (.pair key .bytes)

def BackupData.json : Json BackupData :=
  (Json.object (Json.uint32.field "version" |>.and <| (rowsJson .string).field "secrets" |>.and <|
    (rowsJson .string).field "versions" |>.and <| (rowsJson .string).field "roles" |>.and <|
    (rowsJson .bytes).field "tokens" |>.and <| (rowsJson .string).field "tokens_by_name" |>.and <|
    (rowsJson .nat).field "audit" |>.and <| (rowsJson .string).field "kms_rewrap")).iso
    (fun d => (d.version, d.secrets, d.versions, d.roles, d.tokens, d.tokensByName, d.audit, d.kmsRewrap))
    (fun (version, secrets, versions, roles, tokens, tokensByName, audit, kmsRewrap) =>
      some ⟨version, secrets, versions, roles, tokens, tokensByName, audit, kmsRewrap⟩)
    (fun _ => rfl)

/-- The kinds of commands. -/
inductive CommandKind where
  | createSecret | putVersion | updateMeta | deleteSecret | createRole | setPermissions | deleteRole | addToken
  | revokeToken | touchToken | expireGraceVersions | rewrapVersion | setKmsRewrapState | appendAudit | restoreDatabase
  | recordAuthFailure

namespace CommandKind

def all : List CommandKind :=
  [.createSecret, .putVersion, .updateMeta, .deleteSecret, .createRole, .setPermissions, .deleteRole, .addToken,
    .revokeToken, .touchToken, .expireGraceVersions, .rewrapVersion, .setKmsRewrapState, .appendAudit, .restoreDatabase,
    .recordAuthFailure]

def name : CommandKind → String
  | .createSecret => "CreateSecret"
  | .putVersion => "PutVersion"
  | .updateMeta => "UpdateMeta"
  | .deleteSecret => "DeleteSecret"
  | .createRole => "CreateRole"
  | .setPermissions => "SetPermissions"
  | .deleteRole => "DeleteRole"
  | .addToken => "AddToken"
  | .revokeToken => "RevokeToken"
  | .touchToken => "TouchToken"
  | .expireGraceVersions => "ExpireGraceVersions"
  | .rewrapVersion => "RewrapVersion"
  | .setKmsRewrapState => "SetKmsRewrapState"
  | .appendAudit => "AppendAudit"
  | .restoreDatabase => "RestoreDatabase"
  | .recordAuthFailure => "RecordAuthFailure"

def find (s : String) : Option CommandKind := all.find? fun kind => kind.name = s

theorem find_name (kind : CommandKind) : find kind.name = some kind := by
  cases kind <;> rfl

/-- The fields of the commands of a kind. -/
def Fields : CommandKind → Type
  | .createSecret => SecretRecord × VersionRecord
  | .putVersion => String × Int32 × VersionRecord × Option Int64 × Option String × Option Int64 × Option Int64 ×
      NextRotation × Int64
  | .updateMeta => String × Int32 × Option String × Option Int64 × Option Int64 × NextRotation × Int64
  | .deleteSecret => String
  | .createRole => RoleRecord
  | .setPermissions => String × List (String × String)
  | .deleteRole => String
  | .addToken => TokenRecord
  | .revokeToken => String × Int64
  | .touchToken => Bytes × Int64
  | .expireGraceVersions => Int64
  | .rewrapVersion => String × Int32 × String × Bytes × Int64
  | .setKmsRewrapState => KmsRewrapState
  | .appendAudit => AuditEntry
  | .restoreDatabase => BackupData
  | .recordAuthFailure => String × Int64 × UInt32 × Int64 × Int64

def json : (kind : CommandKind) → Json kind.Fields
  | .createSecret => Json.object (SecretRecord.json.field "secret" |>.and <| VersionRecord.json.field "version")
  | .putVersion => Json.object (Json.string.field "name" |>.and <| Json.int32.field "expected_current" |>.and <|
      VersionRecord.json.field "version" |>.and <| Json.optInt64.field "supersede_expires_at" |>.and <|
      Json.optString.field "set_description" |>.and <| Json.optInt64.field "set_rotation_interval_secs" |>.and <|
      Json.optInt64.field "set_grace_secs" |>.and <| NextRotation.json.field "next_rotation_at" |>.and <|
      Json.int64.field "updated_at")
  | .updateMeta => Json.object (Json.string.field "name" |>.and <| Json.int32.field "expected_current" |>.and <|
      Json.optString.field "set_description" |>.and <| Json.optInt64.field "set_rotation_interval_secs" |>.and <|
      Json.optInt64.field "set_grace_secs" |>.and <| NextRotation.json.field "next_rotation_at" |>.and <|
      Json.int64.field "updated_at")
  | .deleteSecret => Json.object (Json.string.field "name")
  | .createRole => Json.object (RoleRecord.json.field "role")
  | .setPermissions => Json.object (Json.string.field "name" |>.and <|
      (Json.list (.pair .string .string)).field "permissions")
  | .deleteRole => Json.object (Json.string.field "name")
  | .addToken => Json.object (TokenRecord.json.field "token")
  | .revokeToken => Json.object (Json.string.field "name" |>.and <| Json.int64.field "revoked_at")
  | .touchToken => Json.object (Json.bytes.field "fingerprint" |>.and <| Json.int64.field "at")
  | .expireGraceVersions => Json.object (Json.int64.field "now")
  | .rewrapVersion => Json.object (Json.string.field "name" |>.and <| Json.int32.field "version" |>.and <|
      Json.string.field "kms_key_id" |>.and <| Json.bytes.field "wrapped_dek" |>.and <|
      Json.int64.field "wrapped_rotation_at")
  | .setKmsRewrapState => Json.object (KmsRewrapState.json.field "state")
  | .appendAudit => Json.object (AuditEntry.json.field "entry")
  | .restoreDatabase => Json.object (BackupData.json.field "data")
  | .recordAuthFailure => Json.object (Json.string.field "key" |>.and <| Json.int64.field "now" |>.and <|
      Json.uint32.field "max" |>.and <| Json.int64.field "window_secs" |>.and <| Json.int64.field "lockout_secs")

end CommandKind

def Command.fields : Command → Σ kind : CommandKind, kind.Fields
  | .createSecret secret version => ⟨.createSecret, secret, version⟩
  | .putVersion name expected version supersede description interval grace next updated =>
      ⟨.putVersion, name, expected, version, supersede, description, interval, grace, next, updated⟩
  | .updateMeta name expected description interval grace next updated =>
      ⟨.updateMeta, name, expected, description, interval, grace, next, updated⟩
  | .deleteSecret name => ⟨.deleteSecret, name⟩
  | .createRole role => ⟨.createRole, role⟩
  | .setPermissions name permissions => ⟨.setPermissions, name, permissions⟩
  | .deleteRole name => ⟨.deleteRole, name⟩
  | .addToken token => ⟨.addToken, token⟩
  | .revokeToken name revokedAt => ⟨.revokeToken, name, revokedAt⟩
  | .touchToken fingerprint at_ => ⟨.touchToken, fingerprint, at_⟩
  | .expireGraceVersions now => ⟨.expireGraceVersions, now⟩
  | .rewrapVersion name version kmsKeyId wrappedDek at_ => ⟨.rewrapVersion, name, version, kmsKeyId, wrappedDek, at_⟩
  | .setKmsRewrapState state => ⟨.setKmsRewrapState, state⟩
  | .appendAudit entry => ⟨.appendAudit, entry⟩
  | .restoreDatabase data => ⟨.restoreDatabase, data⟩
  | .recordAuthFailure key now max window lockout => ⟨.recordAuthFailure, key, now, max, window, lockout⟩

def Command.ofFields : (Σ kind : CommandKind, kind.Fields) → Command
  | ⟨.createSecret, secret, version⟩ => .createSecret secret version
  | ⟨.putVersion, name, expected, version, supersede, description, interval, grace, next, updated⟩ =>
      .putVersion name expected version supersede description interval grace next updated
  | ⟨.updateMeta, name, expected, description, interval, grace, next, updated⟩ =>
      .updateMeta name expected description interval grace next updated
  | ⟨.deleteSecret, name⟩ => .deleteSecret name
  | ⟨.createRole, role⟩ => .createRole role
  | ⟨.setPermissions, name, permissions⟩ => .setPermissions name permissions
  | ⟨.deleteRole, name⟩ => .deleteRole name
  | ⟨.addToken, token⟩ => .addToken token
  | ⟨.revokeToken, name, revokedAt⟩ => .revokeToken name revokedAt
  | ⟨.touchToken, fingerprint, at_⟩ => .touchToken fingerprint at_
  | ⟨.expireGraceVersions, now⟩ => .expireGraceVersions now
  | ⟨.rewrapVersion, name, version, kmsKeyId, wrappedDek, at_⟩ => .rewrapVersion name version kmsKeyId wrappedDek at_
  | ⟨.setKmsRewrapState, state⟩ => .setKmsRewrapState state
  | ⟨.appendAudit, entry⟩ => .appendAudit entry
  | ⟨.restoreDatabase, data⟩ => .restoreDatabase data
  | ⟨.recordAuthFailure, key, now, max, window, lockout⟩ => .recordAuthFailure key now max window lockout

def Command.json : Json Command :=
  (Json.variant CommandKind.name CommandKind.find CommandKind.find_name CommandKind.json).iso Command.fields
    (fun fields => some (.ofFields fields)) (by intro command; cases command <;> rfl)

/-- The rows as `serde_json` writes them. It decodes only that text: `serde_json` also reads other white space, fields
in another order or that are unknown, and other escapes. -/
def jsonCodec : Codec where
  secret := SecretRecord.json.serde
  version := VersionRecord.json.serde
  role := RoleRecord.json.serde
  token := TokenRecord.json.serde
  lockout := LockoutRecord.json.serde
  audit := AuditEntry.json.serde
  kmsRewrap := KmsRewrapState.json.serde

/-! ## Records for concrete runs -/

/-- A manual secret as it is created: no rotation, one minute of grace. -/
def secretNamed (name : String) : SecretRecord where
  name := name
  kind := .manual
  format := .opaqueValue
  description := none
  rotationIntervalSecs := none
  graceSecs := 60
  currentVersion := 1
  nextRotationAt := none
  createdAt := 0
  updatedAt := 0
  target := none

/-- A version with empty key material. -/
def versionOf (name : String) (number : Int32) : VersionRecord where
  version := number
  kmsKeyId := "key"
  wrappedDek := []
  nonce := []
  ciphertext := []
  aad := aadFor name number
  createdAt := 0
  expiresAt := none
  wrappedRotationAt := none

end HyperionVault
