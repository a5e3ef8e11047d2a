import HyperionVault.Store.Backup

/-!
# `apply_command`

Every mutation of the store, as `store/apply.rs` runs it inside one write transaction. A command
returns its outcome and the tables as the transaction then sees them, also when it fails: whether those
tables are kept is the caller's choice (`Store/Engine`, `Raft/StateMachine`).

* one definition for each command, in the order of its reads and writes;
* `applyMeta` : the metadata changes that `PutVersion` and `UpdateMeta` share;
* `applyCommand` : the dispatch.
-/

namespace HyperionVault
open Lib

def checkSecretName (name : String) : StoreResult Unit :=
  if isValidSecretName name then .ok ()
  else .error (.conflict ("secret name " ++ debugStr name ++ " is outside [A-Za-z0-9-_/.] or longer than " ++
    toString maxSecretNameLen ++ " bytes"))

def checkSecretRow (name : String) (version : Int32) : StoreResult Unit :=
  match checkSecretName name with
  | .error e => .error e
  | .ok () =>
      if !isValidSecretVersion version then
        .error (.conflict ("secret version " ++ toString version.toInt ++ " is below the minimum of " ++
          toString minSecretVersion.toInt))
      else .ok ()

def applyMeta (secret : SecretRecord) (setDescription : Option String)
    (setRotationIntervalSecs setGraceSecs : Option Int64) (nextRotationAt : NextRotation) (updatedAt : Int64) :
    SecretRecord :=
  let secret := match setDescription with
    | some description => { secret with description := some description }
    | none => secret
  let secret := match setRotationIntervalSecs with
    | some interval => { secret with rotationIntervalSecs := some interval }
    | none => secret
  let secret := match setGraceSecs with
    | some grace => { secret with graceSecs := grace }
    | none => secret
  let secret := match nextRotationAt with
    | .set value => { secret with nextRotationAt := value }
    | .keep => secret
  { secret with updatedAt := updatedAt }

section Commands
variable (C : Codec)

/-! ## Secrets and versions -/

def createSecret (secret : SecretRecord) (version : VersionRecord) (t : Tables) : StoreResult Unit × Tables :=
  match checkSecretRow secret.name version.version with
  | .error e => (.error e, t)
  | .ok () =>
      if (t.secrets.get secret.name).isSome then
        (.error (.conflict ("secret '" ++ secret.name ++ "' already exists")), t)
      else
        let t := { t with secrets := t.secrets.insert secret.name (C.secret.encode secret) }
        let t := { t with
          versions := t.versions.insert (versionKey secret.name version.version) (C.version.encode version) }
        (.ok (), t)

/-- The row a new version supersedes gets its expiry, unless it has one. -/
def supersede (name : String) (expectedCurrent : Int32) (supersedeExpiresAt : Option Int64)
    (versions : Table String Bytes) : StoreResult (Table String Bytes) :=
  match supersedeExpiresAt with
  | none => .ok versions
  | some expiry =>
      match versions.get (versionKey name expectedCurrent) with
      | none => .ok versions
      | some value =>
          match decodeRow C.version value with
          | .error e => .error e
          | .ok prev =>
              if prev.expiresAt = none then
                .ok (versions.insert (versionKey name expectedCurrent)
                  (C.version.encode { prev with expiresAt := some expiry }))
              else .ok versions

def putVersion (name : String) (expectedCurrent : Int32) (version : VersionRecord)
    (supersedeExpiresAt : Option Int64) (setDescription : Option String)
    (setRotationIntervalSecs setGraceSecs : Option Int64) (nextRotationAt : NextRotation) (updatedAt : Int64)
    (t : Tables) : StoreResult Unit × Tables :=
  match checkSecretRow name version.version with
  | .error e => (.error e, t)
  | .ok () =>
      match t.secrets.get name with
      | none => (.error .notFound, t)
      | some value =>
          match decodeRow C.secret value with
          | .error e => (.error e, t)
          | .ok secret =>
              if secret.currentVersion ≠ expectedCurrent then (.error .versionConflict, t)
              else
                let t := { t with
                  versions := t.versions.insert (versionKey name version.version) (C.version.encode version) }
                match supersede C name expectedCurrent supersedeExpiresAt t.versions with
                | .error e => (.error e, t)
                | .ok versions =>
                    let t := { t with versions := versions }
                    let secret := applyMeta { secret with currentVersion := version.version } setDescription
                      setRotationIntervalSecs setGraceSecs nextRotationAt updatedAt
                    (.ok (), { t with secrets := t.secrets.insert name (C.secret.encode secret) })

def updateMeta (name : String) (expectedCurrent : Int32) (setDescription : Option String)
    (setRotationIntervalSecs setGraceSecs : Option Int64) (nextRotationAt : NextRotation) (updatedAt : Int64)
    (t : Tables) : StoreResult Unit × Tables :=
  match t.secrets.get name with
  | none => (.error .notFound, t)
  | some value =>
      match decodeRow C.secret value with
      | .error e => (.error e, t)
      | .ok secret =>
          if secret.currentVersion ≠ expectedCurrent then (.error .versionConflict, t)
          else
            let secret := applyMeta secret setDescription setRotationIntervalSecs setGraceSecs nextRotationAt
              updatedAt
            (.ok (), { t with secrets := t.secrets.insert name (C.secret.encode secret) })

/-- The keys in the scan range of `name` that are its own versions. -/
def ownVersionKeys (name : String) (versions : Table String Bytes) : List String :=
  versions.keys.filter fun key =>
    versionLower name ≤ key && key < versionUpper name && (versionFromKey name key).isSome

def deleteSecret (name : String) (t : Tables) : StoreResult Unit × Tables :=
  let removed := t.secrets.get name
  let t := { t with secrets := t.secrets.remove name }
  if removed.isNone then (.error .notFound, t)
  else (.ok (), { t with versions := t.versions.removeAll (ownVersionKeys name t.versions) })

/-- The keys of the rows that have expired at `now`; every row is decoded. -/
def expiredKeys (now : Int64) : List (String × Bytes) → StoreResult (List String)
  | [] => .ok []
  | (key, value) :: rest =>
      match decodeRow C.version value with
      | .error e => .error e
      | .ok record =>
          match expiredKeys now rest with
          | .error e => .error e
          | .ok keys => .ok (if record.expiresAt.any (· ≤ now) then key :: keys else keys)

def expireGraceVersions (now : Int64) (t : Tables) : StoreResult Unit × Tables :=
  match expiredKeys C now t.versions.rows with
  | .error e => (.error e, t)
  | .ok expired => (.ok (), { t with versions := t.versions.removeAll expired })

def rewrapVersion (name : String) (version : Int32) (kmsKeyId : String) (wrappedDek : Bytes)
    (wrappedRotationAt : Int64) (t : Tables) : StoreResult Unit × Tables :=
  match t.versions.get (versionKey name version) with
  | none => (.ok (), t)
  | some value =>
      match decodeRow C.version value with
      | .error e => (.error e, t)
      | .ok record =>
          if record.wrappedRotationAt.any (wrappedRotationAt ≤ ·) then (.ok (), t)
          else
            let record := { record with
              kmsKeyId := kmsKeyId, wrappedDek := wrappedDek, wrappedRotationAt := some wrappedRotationAt }
            (.ok (), { t with
              versions := t.versions.insert (versionKey name version) (C.version.encode record) })

def kmsRewrapStateKey : String := "state"

def setKmsRewrapState (state : KmsRewrapState) (t : Tables) : StoreResult Unit × Tables :=
  (.ok (), { t with kmsRewrap := t.kmsRewrap.insert kmsRewrapStateKey (C.kmsRewrap.encode state) })

/-! ## Roles and tokens -/

def createRole (role : RoleRecord) (t : Tables) : StoreResult Unit × Tables :=
  if (t.roles.get role.name).isSome then
    (.error (.conflict ("role '" ++ role.name ++ "' already exists")), t)
  else (.ok (), { t with roles := t.roles.insert role.name (C.role.encode role) })

def setPermissions (name : String) (permissions : List (String × String)) (t : Tables) :
    StoreResult Unit × Tables :=
  match t.roles.get name with
  | none => (.error .notFound, t)
  | some value =>
      match decodeRow C.role value with
      | .error e => (.error e, t)
      | .ok role =>
          (.ok (), { t with roles := t.roles.insert name (C.role.encode { role with permissions := permissions }) })

/-- The scan for a token of the role, stopping at the first one. -/
def checkRoleUnused (name : String) : List (Bytes × Bytes) → StoreResult Unit
  | [] => .ok ()
  | (_, value) :: rest =>
      match decodeRow C.token value with
      | .error e => .error e
      | .ok token =>
          if token.role = some name then
            .error (.conflict ("role '" ++ name ++ "' still has tokens; revoke/remove them first"))
          else checkRoleUnused name rest

def deleteRole (name : String) (t : Tables) : StoreResult Unit × Tables :=
  match checkRoleUnused C name t.tokens.rows with
  | .error e => (.error e, t)
  | .ok () =>
      let removed := t.roles.get name
      let t := { t with roles := t.roles.remove name }
      if removed.isNone then (.error .notFound, t) else (.ok (), t)

def addToken (token : TokenRecord) (t : Tables) : StoreResult Unit × Tables :=
  if (t.tokens.get token.fingerprint).isSome then
    (.error (.conflict "a token with this fingerprint already exists"), t)
  else if (t.tokensByName.get token.name).isSome then
    (.error (.conflict ("token '" ++ token.name ++ "' already exists")), t)
  else
    let t := { t with tokensByName := t.tokensByName.insert token.name token.fingerprint }
    (.ok (), { t with tokens := t.tokens.insert token.fingerprint (C.token.encode token) })

def revokeToken (name : String) (revokedAt : Int64) (t : Tables) : StoreResult Unit × Tables :=
  match t.tokensByName.get name with
  | none => (.error .notFound, t)
  | some fingerprint =>
      match t.tokens.get fingerprint with
      | none => (.error .notFound, t)
      | some value =>
          match decodeRow C.token value with
          | .error e => (.error e, t)
          | .ok token =>
              if token.revokedAt.isSome then (.error .notFound, t)
              else
                (.ok (), { t with
                  tokens := t.tokens.insert fingerprint (C.token.encode { token with revokedAt := some revokedAt }) })

def touchToken (fingerprint : Bytes) (at_ : Int64) (t : Tables) : StoreResult Unit × Tables :=
  match t.tokens.get fingerprint with
  | none => (.ok (), t)
  | some value =>
      match decodeRow C.token value with
      | .error e => (.error e, t)
      | .ok token =>
          (.ok (), { t with
            tokens := t.tokens.insert fingerprint (C.token.encode { token with lastUsedAt := some at_ }) })

/-! ## Audit, lockouts and restore -/

def appendAudit (nodeId : Nat) (entry : AuditEntry) (t : Tables) : StoreResult Unit × Tables :=
  -- a row above the plausible range can only come from a tampered backup; it is not counted
  match (t.audit.keys.filter (· ≤ maxAuditKey)).getLast? with
  | none => (.ok (), { t with audit := t.audit.insert 0 (C.audit.encode { entry with nodeId := nodeId }) })
  | some key =>
      if key + 1 < 2 ^ 64 then
        (.ok (), { t with audit := t.audit.insert (key + 1) (C.audit.encode { entry with nodeId := nodeId }) })
      else (.error (.conflict "audit log key space is exhausted"), t)

/-- One more failure of a lockout record; the arithmetic wraps, as in a release build. -/
def LockoutRecord.fail (record : LockoutRecord) (now : Int64) (max : UInt32) (windowSecs lockoutSecs : Int64) :
    LockoutRecord :=
  let record := if windowSecs ≤ now - record.windowStart then { record with failures := 0, windowStart := now }
    else record
  let record := { record with failures := record.failures + 1 }
  if max ≤ record.failures then { record with lockedUntil := some (now + lockoutSecs) } else record

def recordAuthFailure (key : String) (now : Int64) (max : UInt32) (windowSecs lockoutSecs : Int64) (t : Tables) :
    StoreResult Unit × Tables :=
  let found : StoreResult LockoutRecord := match t.lockouts.get key with
    | some value => decodeRow C.lockout value
    | none => .ok { failures := 0, windowStart := now, lockedUntil := none }
  match found with
  | .error e => (.error e, t)
  | .ok record =>
      (.ok (), { t with
        lockouts := t.lockouts.insert key (C.lockout.encode (record.fail now max windowSecs lockoutSecs)) })

def restoreDatabase (data : BackupData) (t : Tables) : StoreResult Unit × Tables :=
  match restoreTables data t with
  | (.error message, t) => (.error (.conflict ("restore refused: " ++ message)), t)
  | (.ok (), t) => (.ok (), t)

def applyCommand (nodeId : Nat) (command : Command) : Tables → StoreResult Unit × Tables :=
  match command with
  | .createSecret secret version => createSecret C secret version
  | .putVersion name expectedCurrent version supersedeExpiresAt setDescription setRotationIntervalSecs
      setGraceSecs nextRotationAt updatedAt =>
      putVersion C name expectedCurrent version supersedeExpiresAt setDescription setRotationIntervalSecs
        setGraceSecs nextRotationAt updatedAt
  | .updateMeta name expectedCurrent setDescription setRotationIntervalSecs setGraceSecs nextRotationAt
      updatedAt =>
      updateMeta C name expectedCurrent setDescription setRotationIntervalSecs setGraceSecs nextRotationAt
        updatedAt
  | .deleteSecret name => deleteSecret name
  | .createRole role => createRole C role
  | .setPermissions name permissions => setPermissions C name permissions
  | .deleteRole name => deleteRole C name
  | .addToken token => addToken C token
  | .revokeToken name revokedAt => revokeToken C name revokedAt
  | .touchToken fingerprint at_ => touchToken C fingerprint at_
  | .expireGraceVersions now => expireGraceVersions C now
  | .rewrapVersion name version kmsKeyId wrappedDek wrappedRotationAt =>
      rewrapVersion C name version kmsKeyId wrappedDek wrappedRotationAt
  | .setKmsRewrapState state => setKmsRewrapState C state
  | .appendAudit entry => appendAudit C nodeId entry
  | .restoreDatabase data => restoreDatabase data
  | .recordAuthFailure key now max windowSecs lockoutSecs =>
      recordAuthFailure C key now max windowSecs lockoutSecs

end Commands

end HyperionVault
