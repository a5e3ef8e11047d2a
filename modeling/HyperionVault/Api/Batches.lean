import HyperionVault.Api.Manage
import HyperionVault.Lib.JsonSize
import HyperionVault.Raft.Json
import HyperionVault.Service.Concrete
import HyperionVault.Service.Exec
import HyperionVault.Store.Effects

/-!
# Append batches

The leader sends at most `MAX_PAYLOAD_ENTRIES` entries of its log in one request, as JSON. A follower takes a body of at
most `RPC_BODY_LIMIT` bytes; what it refuses, the leader sends again.

* `AppendEntriesRequest`, `AppendEntriesRequest.json` : the request and its form;
* `Command.width`, `AppendEntriesRequest.width` : what the fields of a request come to, by their values;
* `append_batch_fits_iff` : a request is taken exactly if the sum of these widths is within the limit;
* `two_restores_do_not_fit` : two restores that the API accepts, in one batch.
-/

namespace HyperionVault
open Lib

def maxPayloadEntries : Nat := 16

structure AppendEntriesRequest where
  vote : Vote
  prevLogId : Option LogId
  entries : List Entry
  leaderCommit : Option LogId

def AppendEntriesRequest.json : Json AppendEntriesRequest :=
  (Json.object (Vote.json.field "vote" |>.and <| optLogId.field "prev_log_id" |>.and <|
    (Json.list Entry.json).field "entries" |>.and <| optLogId.field "leader_commit")).iso
    (fun r => (r.vote, r.prevLogId, r.entries, r.leaderCommit))
    (fun (vote, prevLogId, entries, leaderCommit) => some ⟨vote, prevLogId, entries, leaderCommit⟩)
    (fun _ => rfl)

/-- The body of the request to a peer. -/
def AppendEntriesRequest.body (request : AppendEntriesRequest) : Bytes := AppendEntriesRequest.json.serde.encode request

/-! ## Widths -/

def SecretKind.width : SecretKind → Nat
  | .manual => textWidth "manual"
  | .automatic => textWidth "automatic"

def SecretFormat.width : SecretFormat → Nat
  | .opaqueValue => textWidth "opaque"
  | .userpass => textWidth "userpass"

def timeWidth (at_ : Int64) : Nat := intWidth at_.toInt

def optTimeWidth (o : Option Int64) : Nat := optWidth timeWidth o

def RotationTarget.width : RotationTarget → Nat
  | .pgReplica t => seqWidth [fieldWidth "type" (textWidth "pg_replica"), fieldWidth "hosts" (listWidth textWidth t.hosts),
      fieldWidth "database" (textWidth t.database), fieldWidth "role" (optWidth textWidth t.role),
      fieldWidth "login_secret" (optWidth textWidth t.loginSecret)]

def SecretRecord.width (s : SecretRecord) : Nat :=
  seqWidth [fieldWidth "name" (textWidth s.name), fieldWidth "kind" s.kind.width, fieldWidth "format" s.format.width,
    fieldWidth "description" (optWidth textWidth s.description),
    fieldWidth "rotation_interval_secs" (optTimeWidth s.rotationIntervalSecs),
    fieldWidth "grace_secs" (timeWidth s.graceSecs), fieldWidth "current_version" (intWidth s.currentVersion.toInt),
    fieldWidth "next_rotation_at" (optTimeWidth s.nextRotationAt), fieldWidth "created_at" (timeWidth s.createdAt),
    fieldWidth "updated_at" (timeWidth s.updatedAt), fieldWidth "target" (optWidth RotationTarget.width s.target)]

def VersionRecord.width (v : VersionRecord) : Nat :=
  seqWidth [fieldWidth "version" (intWidth v.version.toInt), fieldWidth "kms_key_id" (textWidth v.kmsKeyId),
    fieldWidth "wrapped_dek" (bytesWidth v.wrappedDek), fieldWidth "nonce" (bytesWidth v.nonce),
    fieldWidth "ciphertext" (bytesWidth v.ciphertext), fieldWidth "aad" (bytesWidth v.aad),
    fieldWidth "created_at" (timeWidth v.createdAt), fieldWidth "expires_at" (optTimeWidth v.expiresAt),
    fieldWidth "wrapped_rotation_at" (optTimeWidth v.wrappedRotationAt)]

def permissionsWidth (permissions : List (String × String)) : Nat :=
  listWidth (fun p => seqWidth [textWidth p.1, textWidth p.2]) permissions

def RoleRecord.width (r : RoleRecord) : Nat :=
  seqWidth [fieldWidth "name" (textWidth r.name), fieldWidth "description" (optWidth textWidth r.description),
    fieldWidth "is_admin" (boolWidth r.isAdmin), fieldWidth "permissions" (permissionsWidth r.permissions),
    fieldWidth "created_at" (timeWidth r.createdAt)]

def TokenRecord.width (t : TokenRecord) : Nat :=
  seqWidth [fieldWidth "name" (textWidth t.name), fieldWidth "role" (optWidth textWidth t.role),
    fieldWidth "fingerprint" (bytesWidth t.fingerprint), fieldWidth "created_at" (timeWidth t.createdAt),
    fieldWidth "last_used_at" (optTimeWidth t.lastUsedAt), fieldWidth "revoked_at" (optTimeWidth t.revokedAt)]

def AuditEntry.width (a : AuditEntry) : Nat :=
  seqWidth [fieldWidth "at" (timeWidth a.at_), fieldWidth "actor" (optWidth textWidth a.actor),
    fieldWidth "client_ip" (optWidth textWidth a.clientIp), fieldWidth "action" (textWidth a.action),
    fieldWidth "secret_name" (optWidth textWidth a.secretName), fieldWidth "outcome" (textWidth a.outcome),
    fieldWidth "node_id" (natWidth a.nodeId)]

def KmsRewrapState.width (s : KmsRewrapState) : Nat :=
  seqWidth [fieldWidth "last_completed_rotation_at" (timeWidth s.lastCompletedRotationAt),
    fieldWidth "last_swept_at" (timeWidth s.lastSweptAt), fieldWidth "updated_at" (timeWidth s.updatedAt)]

def NextRotation.width : NextRotation → Nat
  | .keep => textWidth "Keep"
  | .set value => seqWidth [fieldWidth "Set" (optTimeWidth value)]

def rowsWidth {K : Type} (keyWidth : K → Nat) (rows : List (K × Bytes)) : Nat :=
  listWidth (fun row => seqWidth [keyWidth row.1, bytesWidth row.2]) rows

def BackupData.width (d : BackupData) : Nat :=
  seqWidth [fieldWidth "version" (natWidth d.version.toNat), fieldWidth "secrets" (rowsWidth textWidth d.secrets),
    fieldWidth "versions" (rowsWidth textWidth d.versions), fieldWidth "roles" (rowsWidth textWidth d.roles),
    fieldWidth "tokens" (rowsWidth bytesWidth d.tokens), fieldWidth "tokens_by_name" (rowsWidth textWidth d.tokensByName),
    fieldWidth "audit" (rowsWidth natWidth d.audit), fieldWidth "kms_rewrap" (rowsWidth textWidth d.kmsRewrap)]

def CommandKind.width : (kind : CommandKind) → kind.Fields → Nat
  | .createSecret, (secret, version) => seqWidth [fieldWidth "secret" secret.width, fieldWidth "version" version.width]
  | .putVersion, (name, expected, version, supersede, description, interval, grace, next, updated) =>
      seqWidth [fieldWidth "name" (textWidth name), fieldWidth "expected_current" (intWidth expected.toInt),
        fieldWidth "version" version.width, fieldWidth "supersede_expires_at" (optTimeWidth supersede),
        fieldWidth "set_description" (optWidth textWidth description),
        fieldWidth "set_rotation_interval_secs" (optTimeWidth interval), fieldWidth "set_grace_secs" (optTimeWidth grace),
        fieldWidth "next_rotation_at" next.width, fieldWidth "updated_at" (timeWidth updated)]
  | .updateMeta, (name, expected, description, interval, grace, next, updated) =>
      seqWidth [fieldWidth "name" (textWidth name), fieldWidth "expected_current" (intWidth expected.toInt),
        fieldWidth "set_description" (optWidth textWidth description),
        fieldWidth "set_rotation_interval_secs" (optTimeWidth interval), fieldWidth "set_grace_secs" (optTimeWidth grace),
        fieldWidth "next_rotation_at" next.width, fieldWidth "updated_at" (timeWidth updated)]
  | .deleteSecret, name => seqWidth [fieldWidth "name" (textWidth name)]
  | .createRole, role => seqWidth [fieldWidth "role" role.width]
  | .setPermissions, (name, permissions) =>
      seqWidth [fieldWidth "name" (textWidth name), fieldWidth "permissions" (permissionsWidth permissions)]
  | .deleteRole, name => seqWidth [fieldWidth "name" (textWidth name)]
  | .addToken, token => seqWidth [fieldWidth "token" token.width]
  | .revokeToken, (name, revokedAt) =>
      seqWidth [fieldWidth "name" (textWidth name), fieldWidth "revoked_at" (timeWidth revokedAt)]
  | .touchToken, (fingerprint, at_) =>
      seqWidth [fieldWidth "fingerprint" (bytesWidth fingerprint), fieldWidth "at" (timeWidth at_)]
  | .expireGraceVersions, now => seqWidth [fieldWidth "now" (timeWidth now)]
  | .rewrapVersion, (name, version, kmsKeyId, wrappedDek, at_) =>
      seqWidth [fieldWidth "name" (textWidth name), fieldWidth "version" (intWidth version.toInt),
        fieldWidth "kms_key_id" (textWidth kmsKeyId), fieldWidth "wrapped_dek" (bytesWidth wrappedDek),
        fieldWidth "wrapped_rotation_at" (timeWidth at_)]
  | .setKmsRewrapState, state => seqWidth [fieldWidth "state" state.width]
  | .appendAudit, entry => seqWidth [fieldWidth "entry" entry.width]
  | .restoreDatabase, data => seqWidth [fieldWidth "data" data.width]
  | .recordAuthFailure, (key, now, max, window, lockout) =>
      seqWidth [fieldWidth "key" (textWidth key), fieldWidth "now" (timeWidth now),
        fieldWidth "max" (natWidth max.toNat), fieldWidth "window_secs" (timeWidth window),
        fieldWidth "lockout_secs" (timeWidth lockout)]

def Command.width (command : Command) : Nat :=
  seqWidth [fieldWidth command.fields.1.name (command.fields.1.width command.fields.2)]

def LeaderId.width (l : LeaderId) : Nat :=
  seqWidth [fieldWidth "term" (natWidth l.term), fieldWidth "node_id" (natWidth l.nodeId)]

def LogId.width (l : LogId) : Nat :=
  seqWidth [fieldWidth "leader_id" l.leaderId.width, fieldWidth "index" (natWidth l.index)]

/-- The node map has the number of a node, in quotes, before its address. -/
def Membership.width (m : Membership) : Nat :=
  seqWidth [fieldWidth "configs" (listWidth (listWidth natWidth) m.configs),
    fieldWidth "nodes" (listWidth (fun p => textWidth (String.ofList (Nat.toDigits 10 p.1)) + 1 +
      seqWidth [fieldWidth "addr" (textWidth p.2.addr)]) m.nodes)]

def EntryPayload.width : EntryPayload → Nat
  | .blank => textWidth "Blank"
  | .normal command => seqWidth [fieldWidth "Normal" command.width]
  | .membership member => seqWidth [fieldWidth "Membership" member.width]

def Entry.width (e : Entry) : Nat :=
  seqWidth [fieldWidth "log_id" e.logId.width, fieldWidth "payload" e.payload.width]

def Vote.width (v : Vote) : Nat :=
  seqWidth [fieldWidth "leader_id" v.leaderId.width, fieldWidth "committed" (boolWidth v.committed)]

def AppendEntriesRequest.width (r : AppendEntriesRequest) : Nat :=
  seqWidth [fieldWidth "vote" r.vote.width, fieldWidth "prev_log_id" (optWidth LogId.width r.prevLogId),
    fieldWidth "entries" (listWidth Entry.width r.entries),
    fieldWidth "leader_commit" (optWidth LogId.width r.leaderCommit)]

/-! ## The forms have these widths -/

section Forms
open Json

theorem SecretKind.json_sized : SecretKind.json.Sized SecretKind.width := by
  intro kind
  cases kind <;> exact string_sized _

theorem SecretFormat.json_sized : SecretFormat.json.Sized SecretFormat.width := by
  intro format
  cases format <;> exact string_sized _

theorem NextRotation.json_sized : NextRotation.json.Sized NextRotation.width := by
  intro next
  cases next with
  | keep => exact string_sized _
  | set value => exact (optInt64_sized.field "Set").object value

theorem RotationTarget.json_sized : RotationTarget.json.Sized RotationTarget.width := by
  rintro ⟨t⟩
  exact (((tag_sized "pg_replica").field "type").and <| (string_sized.list.field "hosts").and <|
    (string_sized.field "database").and <| (optString_sized.field "role").and <|
    optString_sized.field "login_secret").object ((), t.hosts, t.database, t.role, t.loginSecret)

theorem SecretRecord.json_sized : SecretRecord.json.Sized SecretRecord.width :=
  ((string_sized.field "name").and <| (SecretKind.json_sized.field "kind").and <|
    (SecretFormat.json_sized.field "format").and <| (optString_sized.field "description").and <|
    (optInt64_sized.field "rotation_interval_secs").and <| (int64_sized.field "grace_secs").and <|
    (int32_sized.field "current_version").and <| (optInt64_sized.field "next_rotation_at").and <|
    (int64_sized.field "created_at").and <| (int64_sized.field "updated_at").and <|
    (RotationTarget.json_sized.option _).field "target").object.iso _

theorem VersionRecord.json_sized : VersionRecord.json.Sized VersionRecord.width :=
  ((int32_sized.field "version").and <| (string_sized.field "kms_key_id").and <|
    (bytes_sized.field "wrapped_dek").and <| (bytes_sized.field "nonce").and <| (bytes_sized.field "ciphertext").and <|
    (bytes_sized.field "aad").and <| (int64_sized.field "created_at").and <| (optInt64_sized.field "expires_at").and <|
    optInt64_sized.field "wrapped_rotation_at").object.iso _

theorem permissions_sized : (Json.list (.pair .string .string)).Sized permissionsWidth :=
  (string_sized.pair string_sized).list

theorem RoleRecord.json_sized : RoleRecord.json.Sized RoleRecord.width :=
  ((string_sized.field "name").and <| (optString_sized.field "description").and <| (bool_sized.field "is_admin").and <|
    (permissions_sized.field "permissions").and <| int64_sized.field "created_at").object.iso _

theorem TokenRecord.json_sized : TokenRecord.json.Sized TokenRecord.width :=
  ((string_sized.field "name").and <| (optString_sized.field "role").and <| (bytes_sized.field "fingerprint").and <|
    (int64_sized.field "created_at").and <| (optInt64_sized.field "last_used_at").and <|
    optInt64_sized.field "revoked_at").object.iso _

theorem AuditEntry.json_sized : AuditEntry.json.Sized AuditEntry.width :=
  ((int64_sized.field "at").and <| (optString_sized.field "actor").and <| (optString_sized.field "client_ip").and <|
    (string_sized.field "action").and <| (optString_sized.field "secret_name").and <|
    (string_sized.field "outcome").and <| nat_sized.field "node_id").object.iso _

theorem KmsRewrapState.json_sized : KmsRewrapState.json.Sized KmsRewrapState.width :=
  ((int64_sized.field "last_completed_rotation_at").and <| (int64_sized.field "last_swept_at").and <|
    int64_sized.field "updated_at").object.iso _

theorem rows_sized {K : Type} {key : Json K} {w : K → Nat} (h : key.Sized w) : (rowsJson key).Sized (rowsWidth w) :=
  (h.pair bytes_sized).list

theorem BackupData.json_sized : BackupData.json.Sized BackupData.width :=
  ((uint32_sized.field "version").and <| ((rows_sized string_sized).field "secrets").and <|
    ((rows_sized string_sized).field "versions").and <| ((rows_sized string_sized).field "roles").and <|
    ((rows_sized bytes_sized).field "tokens").and <| ((rows_sized string_sized).field "tokens_by_name").and <|
    ((rows_sized nat_sized).field "audit").and <| (rows_sized string_sized).field "kms_rewrap").object.iso _

theorem CommandKind.json_sized (kind : CommandKind) : kind.json.Sized kind.width := by
  cases kind with
  | createSecret => exact ((SecretRecord.json_sized.field "secret").and (VersionRecord.json_sized.field "version")).object
  | putVersion =>
      exact ((string_sized.field "name").and <| (int32_sized.field "expected_current").and <|
        (VersionRecord.json_sized.field "version").and <| (optInt64_sized.field "supersede_expires_at").and <|
        (optString_sized.field "set_description").and <| (optInt64_sized.field "set_rotation_interval_secs").and <|
        (optInt64_sized.field "set_grace_secs").and <| (NextRotation.json_sized.field "next_rotation_at").and <|
        int64_sized.field "updated_at").object
  | updateMeta =>
      exact ((string_sized.field "name").and <| (int32_sized.field "expected_current").and <|
        (optString_sized.field "set_description").and <| (optInt64_sized.field "set_rotation_interval_secs").and <|
        (optInt64_sized.field "set_grace_secs").and <| (NextRotation.json_sized.field "next_rotation_at").and <|
        int64_sized.field "updated_at").object
  | deleteSecret | deleteRole => exact (string_sized.field "name").object
  | createRole => exact (RoleRecord.json_sized.field "role").object
  | setPermissions => exact ((string_sized.field "name").and (permissions_sized.field "permissions")).object
  | addToken => exact (TokenRecord.json_sized.field "token").object
  | revokeToken => exact ((string_sized.field "name").and (int64_sized.field "revoked_at")).object
  | touchToken => exact ((bytes_sized.field "fingerprint").and (int64_sized.field "at")).object
  | expireGraceVersions => exact (int64_sized.field "now").object
  | rewrapVersion =>
      exact ((string_sized.field "name").and <| (int32_sized.field "version").and <| (string_sized.field "kms_key_id").and <|
        (bytes_sized.field "wrapped_dek").and <| int64_sized.field "wrapped_rotation_at").object
  | setKmsRewrapState => exact (KmsRewrapState.json_sized.field "state").object
  | appendAudit => exact (AuditEntry.json_sized.field "entry").object
  | restoreDatabase => exact (BackupData.json_sized.field "data").object
  | recordAuthFailure =>
      exact ((string_sized.field "key").and <| (int64_sized.field "now").and <| (uint32_sized.field "max").and <|
        (int64_sized.field "window_secs").and <| int64_sized.field "lockout_secs").object

theorem Command.json_sized : Command.json.Sized Command.width := by
  have hkind (kind : CommandKind) : byteLen (Json.escape kind.name.toList) = kind.name.utf8ByteSize := by
    cases kind <;> decide
  exact (Sized.variant CommandKind.find_name hkind CommandKind.json_sized).iso _

theorem LeaderId.json_sized : LeaderId.json.Sized LeaderId.width :=
  ((nat_sized.field "term").and (nat_sized.field "node_id")).object.iso _

theorem LogId.json_sized : LogId.json.Sized LogId.width :=
  ((((nat_sized.field "term").and (nat_sized.field "node_id")).object.field "leader_id").and
    (nat_sized.field "index")).object.iso _

theorem optLogId_sized : optLogId.Sized (optWidth LogId.width) := LogId.json_sized.option _

theorem Membership.json_sized : Membership.json.Sized Membership.width :=
  ((nat_sized.list.list.field "configs").and
    (((string_sized.field "addr").object.entry.iso _).dict.field "nodes")).object.iso _

theorem EntryPayload.json_sized : EntryPayload.json.Sized EntryPayload.width := by
  intro payload
  cases payload with
  | blank => exact string_sized _
  | normal command => exact (Command.json_sized.field "Normal").object command
  | membership member => exact (Membership.json_sized.field "Membership").object member

theorem Entry.json_sized : Entry.json.Sized Entry.width :=
  ((LogId.json_sized.field "log_id").and (EntryPayload.json_sized.field "payload")).object.iso _

theorem Vote.json_sized : Vote.json.Sized Vote.width :=
  ((LeaderId.json_sized.field "leader_id").and (bool_sized.field "committed")).object.iso _

theorem AppendEntriesRequest.json_sized : AppendEntriesRequest.json.Sized AppendEntriesRequest.width :=
  ((Vote.json_sized.field "vote").and <| (optLogId_sized.field "prev_log_id").and <|
    (Entry.json_sized.list.field "entries").and <| optLogId_sized.field "leader_commit").object.iso _

end Forms

theorem AppendEntriesRequest.length_body (request : AppendEntriesRequest) : request.body.length = request.width :=
  (Json.length_encode AppendEntriesRequest.json request).trans (json_sized request)

/-- A batch is taken by the peer exactly if the widths of its fields come to at most `RPC_BODY_LIMIT`, whatever its
commands are: for a text the bytes of its characters, where the quote, the backslash and control characters take two or
six, for a number its digits, for a byte string the digits of its bytes and the commas, and for every object the names of
its fields. -/
theorem append_batch_fits_iff (request : AppendEntriesRequest) :
    request.body.length ≤ rpcBodyLimit ↔ request.width ≤ rpcBodyLimit := by
  rw [request.length_body]

/-- As many small entries as a batch may have. -/
def smallBatch : AppendEntriesRequest where
  vote := ⟨⟨1, 1⟩, true⟩
  prevLogId := none
  entries := List.replicate 16 (roleEntry 1 "reader")
  leaderCommit := none

theorem smallBatch_fits : smallBatch.entries.length = maxPayloadEntries ∧ smallBatch.body.length ≤ rpcBodyLimit :=
  ⟨by decide, (append_batch_fits_iff smallBatch).mpr (by decide)⟩

/-! ## Two restores -/

/-- The call accepts a backup that is not too long for a cluster: it submits the command, and returns. -/
theorem restore_accepts {A : AppState} {limits : RestoreConfig} {data : BackupData}
    (hlimit : limits.encodedLen data ≤ maxReplicatedRestoreBytes) (haccepted : data.accepted = true) (actor : String)
    (d : Draws) :
    (∃ next, (Manage.restore A limits actor data d).run =
      .act (.submit (.restoreDatabase data) .nothing none) next) ∧
      ∀ w, ((Manage.restore A limits actor data d).exec A w).1 = .ok () := by
  have hfirst (message : String) : require (!(limits.isCluster &&
      decide (maxReplicatedRestoreBytes < limits.encodedLen data))) message = .ok () := by
    rw [require_eq_ok, decide_eq_false (not_lt.mpr hlimit), Bool.and_false, Bool.not_false]
  have hsecond (message : String) : require (decide (data.version = backupVersion)) message = .ok () := by
    rw [BackupData.accepted, Bool.and_eq_true] at haccepted
    rw [require_eq_ok]
    exact haccepted.1
  unfold Manage.restore
  rw [hfirst, hsecond]
  refine ⟨⟨_, rfl⟩, fun w => ?_⟩
  have happly : RedbStore.apply A.codec A.nodeId (.restoreDatabase data) w.tables = (.ok (), data.tables w.tables) := by
    simp only [RedbStore.apply, applyCommand, restoreDatabase_of_accepted haccepted]
  have hsubmit : (Call.submit A (.restoreDatabase data) .nothing none).exec A w =
      (.ok (), w.perform A (.submit (.restoreDatabase data) .nothing none)) := by
    rw [Call.exec_submit, happly]
    rfl
  exact congrArg Prod.fst (Call.exec_bind_ok hsubmit)

/-- A backup with one row, of `n` zeros. -/
def paddedBackup (n : Nat) : BackupData := ⟨backupVersion, [], [], [], [], [], [], [("state", List.replicate n 0)]⟩

theorem bytesWidth_zeros {n : Nat} (h : 0 < n) : bytesWidth (List.replicate n 0) = 2 * n + 1 := by
  have hzero : natWidth (0 : UInt8).toNat = 1 := by decide
  have hne : List.replicate n 1 ≠ [] := fun h' => h.ne' ((List.replicate_eq_nil_iff 1).mp h')
  rw [bytesWidth, List.map_replicate, hzero, Json.seqWidth_of_ne_nil hne]
  simp [Nat.two_mul]

theorem width_paddedBackup {n : Nat} (h : 0 < n) : (paddedBackup n).width = 2 * n + 121 := by
  have hframe (w : Nat) : seqWidth [fieldWidth "version" (natWidth backupVersion.toNat), fieldWidth "secrets" 2,
      fieldWidth "versions" 2, fieldWidth "roles" 2, fieldWidth "tokens" 2, fieldWidth "tokens_by_name" 2,
      fieldWidth "audit" 2, fieldWidth "kms_rewrap" (seqWidth [seqWidth [textWidth "state", w]])] = w + 120 := by
    have hkey : textWidth "state" = 7 := by decide
    have hversion : natWidth backupVersion.toNat = 1 := by decide
    simp only [seqWidth, fieldWidth, hkey, hversion, List.sum_cons, List.sum_nil, List.length_cons, List.length_nil,
      show "version".utf8ByteSize = 7 by decide, show "secrets".utf8ByteSize = 7 by decide,
      show "versions".utf8ByteSize = 8 by decide, show "roles".utf8ByteSize = 5 by decide,
      show "tokens".utf8ByteSize = 6 by decide, show "tokens_by_name".utf8ByteSize = 14 by decide,
      show "audit".utf8ByteSize = 5 by decide, show "kms_rewrap".utf8ByteSize = 10 by decide]
    omega
  exact (hframe _).trans (by rw [bytesWidth_zeros h])

theorem paddedBackup_accepted (n : Nat) : (paddedBackup n).accepted = true := rfl

/-- A backup stands in the entry of its command as it is. -/
theorem width_restoreEntry_le (index : Nat) (data : BackupData) :
    data.width + 2 ≤ (entryAt index (.normal (.restoreDatabase data))).width := by
  have hpayload : (EntryPayload.normal (.restoreDatabase data)).width =
      seqWidth [fieldWidth "Normal" (seqWidth [fieldWidth "RestoreDatabase" (seqWidth [fieldWidth "data" data.width])])] :=
    rfl
  rw [Entry.width, entryAt, hpayload]
  simp only [seqWidth, fieldWidth, List.sum_cons, List.sum_nil, List.length_cons, List.length_nil]
  omega

/-- Two entries that restore the same backup. -/
def restoreBatch (data : BackupData) : AppendEntriesRequest where
  vote := ⟨⟨1, 1⟩, true⟩
  prevLogId := none
  entries := [entryAt 1 (.normal (.restoreDatabase data)), entryAt 2 (.normal (.restoreDatabase data))]
  leaderCommit := none

theorem restoreBatch_length (data : BackupData) : (restoreBatch data).entries.length ≤ maxPayloadEntries := by
  show 2 ≤ 16
  decide

theorem restoreBatch_lt {data : BackupData} {limit : Nat} (h : limit ≤ 2 * data.width + 2) :
    limit < (restoreBatch data).body.length := by
  have hfirst := width_restoreEntry_le 1 data
  have hsecond := width_restoreEntry_le 2 data
  rw [AppendEntriesRequest.length_body]
  simp only [AppendEntriesRequest.width, restoreBatch, listWidth, List.map_cons, List.map_nil, seqWidth, fieldWidth,
    List.sum_cons, List.sum_nil, List.length_cons, List.length_nil]
  omega

/-- On a cluster the call submits the command of this backup, and returns. -/
def RestoreAccepted (data : BackupData) : Prop :=
  let restore := Manage.restore (nodeWith jsonCodec) ⟨true, BackupData.json.size⟩ "root" data (drawsOf 0 0 "")
  (∃ next, restore.run = .act (.submit (.restoreDatabase data) .nothing none) next) ∧
    (restore.exec (nodeWith jsonCodec) freshWorld).1 = .ok ()

/-- A backup that is just short enough. -/
theorem restores_do_not_fit {n : Nat} (hn : 0 < n) (hlimit : 2 * n + 121 ≤ maxReplicatedRestoreBytes)
    (hlong : rpcBodyLimit ≤ 2 * (2 * n + 121) + 2) :
    RestoreAccepted (paddedBackup n) ∧ (restoreBatch (paddedBackup n)).entries.length ≤ maxPayloadEntries ∧
      rpcBodyLimit < (restoreBatch (paddedBackup n)).body.length := by
  have hsize : BackupData.json.size (paddedBackup n) = 2 * n + 121 :=
    (BackupData.json_sized _).trans (width_paddedBackup hn)
  obtain ⟨hsubmits, hreturns⟩ := @restore_accepts (nodeWith jsonCodec) ⟨true, BackupData.json.size⟩ (paddedBackup n)
    (hsize.le.trans hlimit) (paddedBackup_accepted n) "root" (drawsOf 0 0 "")
  rw [← width_paddedBackup hn] at hlong
  exact ⟨⟨hsubmits, hreturns freshWorld⟩, restoreBatch_length _, restoreBatch_lt hlong⟩

/-- Each of the two restores is one that the call accepts; the request that carries both is refused. -/
theorem two_restores_do_not_fit :
    RestoreAccepted (paddedBackup 4194243) ∧
      (restoreBatch (paddedBackup 4194243)).entries.length ≤ maxPayloadEntries ∧
      rpcBodyLimit < (restoreBatch (paddedBackup 4194243)).body.length :=
  restores_do_not_fit (by decide) (by decide) (by decide)

end HyperionVault
