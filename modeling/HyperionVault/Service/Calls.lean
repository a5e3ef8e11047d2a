import HyperionVault.Service.Requests

/-!
# The calls of the service

`create_secret`, `update_secret`, `rotate` and `delete_secret` of `service.rs`, as processes. What a call
draws at random, its clock readings included, is an argument (`Draws`).

* `sealVersion`, `openVersion`, `decodePayload` : envelope encryption of a version, and what it holds;
* `updateVersionCommand`, `updateMetaCommand`, `rotateCommand`, `retryCommand` : the commands, computed from
  the record the call has read;
* `updateSecret`, `rotateCommit`, `rotate`, ... : the calls;
* `applyTarget`, `applyPassword` : sending a rotated password to the target (`pg_apply.rs`).
-/

namespace HyperionVault
open Lib

/-- What one call draws: the clock, the data key, the nonce and the generated token. -/
structure Draws where
  now : Int64
  auditAt : Int64
  dataKey : Nat
  nonce : Nonce
  token : String

section Calls
variable (A : AppState)

/-- An audit entry; that it could not be stored is only logged. -/
def audit (actor clientIp : Option String) (action : String) (secretName : Option String) (outcome : String)
    (d : Draws) : Call Unit := do
  let entry : AuditEntry := { at_ := d.auditAt, actor, clientIp, action, secretName, outcome, nodeId := 0 }
  let _ ← ExceptT.lift (Call.trySubmit A (.appendAudit entry) .nothing none)
  return ()

def tooManyVersions : ApiError := .conflict "secret has reached the maximum version number"

/-! ## Envelope encryption -/

def sealVersion (name : String) (version : Int32) (payload : Payload) (d : Draws) : Call Sealing := do
  let aad := aadFor name version
  let dataKey ← Call.kms fun material => A.kms.generateDataKey material d.dataKey (kmsContext name version)
  let ciphertext ← Call.ofOption (.internal "encryption failed")
    (A.aead.sealWith dataKey.plaintext d.nonce aad (payload.bytes A))
  let state ← Call.read (RedbStore.kmsRewrapState A.codec)
  let generation := (state.map KmsRewrapState.lastCompletedRotationAt).getD 0
  return {
    record := {
      version := version
      kmsKeyId := dataKey.keyId
      wrappedDek := dataKey.wrapped
      nonce := d.nonce.val
      ciphertext := ciphertext
      aad := aad
      createdAt := d.now
      expiresAt := none
      wrappedRotationAt := some generation }
    dek := dataKey.plaintext
    payload := payload }

def openVersion (name : String) (version : Int32) (record : VersionRecord) : ApiResult Bytes :=
  if record.aad ≠ aadFor name version then
    .error (.internal "stored aad does not match secret identity (possible tampering)")
  else if hnonce : record.nonce.length = nonceLen then
    match A.kms.decryptDataKey record.wrappedDek record.kmsKeyId (kmsContext name version) with
    | .error message => .error (.internal message)
    | .ok dek =>
        match A.aead.openWith dek ⟨record.nonce, hnonce⟩ (aadFor name version) record.ciphertext with
        | none => .error (.internal "decryption failed")
        | some plaintext => .ok plaintext
  else .error (.internal "stored nonce has invalid length")

def decodeUserpass (bytes : Bytes) : ApiResult UserPass :=
  match A.userpass.decode bytes with
  | some login => .ok login
  | none => .error (.internal "stored userpass payload is malformed")

/-- What a reader of the secret gets to see. -/
def decodePayload (format : SecretFormat) (plaintext : Bytes) : ApiResult Payload :=
  match format with
  | .opaqueValue =>
      match String.fromUTF8? ⟨plaintext.toArray⟩ with
      | some value => .ok (.value value)
      | none => .error (.internal "decrypted value is not valid UTF-8")
  | .userpass => do
      let login ← decodeUserpass A plaintext
      return .userpass login

theorem decodePayload_bytes (payload : Payload) :
    decodePayload A payload.format (payload.bytes A) = .ok payload := by
  cases payload with
  | value text => simp only [Payload.format, Payload.bytes, decodePayload, fromUTF8_utf8]
  | userpass login =>
      simp only [Payload.format, Payload.bytes, decodePayload, decodeUserpass, A.userpass.decode_encode]
      rfl

/-- The login that a version row holds. -/
def openUserpass (name : String) (version : Int32) (record : VersionRecord) : ApiResult UserPass := do
  let plaintext ← openVersion A name version record
  decodeUserpass A plaintext

def loadUserpass (name : String) (version : Int32) : Call UserPass := do
  let found ← Call.read (RedbStore.version A.codec name version)
  let record ← Call.ofOption (.internal "current version row missing") found
  Call.ofExcept id (openUserpass A name version record)

def loadCurrentUserpass (name : String) : Call UserPass := do
  let found ← Call.read (RedbStore.currentVersion A.codec name)
  let (_, version) ← Call.ofOption (.internal ("login secret '" ++ name ++ "' not found")) found
  Call.ofExcept id (openUserpass A name version.version version)

def readSecret (name : String) : Call SecretRecord := do
  let found ← Call.read (RedbStore.secret A.codec name)
  Call.ofOption .notFound found

/-! ## Create and delete -/

def newSecretRecord (req : CreateSecretRequest) (format : SecretFormat) (grace now : Int64) : SecretRecord where
  name := req.name
  kind := req.kind
  format := format
  description := req.description
  rotationIntervalSecs := req.rotationIntervalSecs
  graceSecs := grace
  currentVersion := 1
  nextRotationAt := if req.kind = .automatic then req.rotationIntervalSecs.map (nextRotationUnix now) else none
  createdAt := now
  updatedAt := now
  target := req.target

/-- The checks of a create request, in their order, and its grace period and payload. -/
def checkCreate (req : CreateSecretRequest) (token : String) : ApiResult (Int64 × Payload) := do
  validateName req.name
  let grace ← normalizeGrace req.gracePeriodSecs
  validateOption (validateTarget A) req.target
  validateOption validateInterval req.rotationIntervalSecs
  require (!(req.kind == .automatic && req.rotationIntervalSecs.isNone))
    "automatic secret requires positive 'rotation_interval_secs'"
  let payload ← buildCreatePayload req token
  return (grace, payload)

def createSecretCall (actor : String) (req : CreateSecretRequest) (d : Draws) : Call SecretValue := do
  let (grace, payload) ← Call.ofExcept id (checkCreate A req d.token)
  let sealing ← sealVersion A req.name 1 payload d
  let secret := newSecretRecord req payload.format grace d.now
  Call.submit A (.createSecret secret sealing.record) .nothing (some sealing)
  audit A (some actor) none "create" (some req.name) "ok" d
  return { name := req.name, kind := req.kind, version := 1, payload := payload, createdAt := d.now }

def deleteSecretCall (actor name : String) (d : Draws) : Call Unit := do
  Call.submit A (.deleteSecret name) .nothing none
  audit A (some actor) none "delete" (some name) "ok" d

/-! ## Update -/

def effectiveInterval (req : UpdateSecretRequest) (secret : SecretRecord) : Int64 :=
  (req.rotationIntervalSecs.or secret.rotationIntervalSecs).getD 0

/-- The rotation timer starts anew where `reset` says so. -/
def resetTimer (reset : Bool) (now interval : Int64) : NextRotation :=
  if reset then .set (some (nextRotationUnix now interval)) else .keep

def updateVersionCommand (name : String) (secret : SecretRecord) (req : UpdateSecretRequest) (now : Int64)
    (version : VersionRecord) : Command :=
  .putVersion name secret.currentVersion version (some (graceExpiryUnix now secret.graceSecs)) req.description
    req.rotationIntervalSecs req.gracePeriodSecs
    (resetTimer (secret.kind == .automatic) now (effectiveInterval req secret)) now

def updateMetaCommand (name : String) (secret : SecretRecord) (req : UpdateSecretRequest) (now : Int64) : Command :=
  .updateMeta name secret.currentVersion req.description req.rotationIntervalSecs req.gracePeriodSecs
    (resetTimer (secret.kind == .automatic && req.rotationIntervalSecs.isSome) now (effectiveInterval req secret)) now

def checkUpdate (req : UpdateSecretRequest) : ApiResult Unit := do
  validateOption validateInterval req.rotationIntervalSecs
  validateOption (fun secs => (normalizeGrace (some secs)).map fun _ => ()) req.gracePeriodSecs

/-- The payload of the next version; what the request leaves out of a login is taken from the current one. -/
def updatePayload (name : String) (secret : SecretRecord) (req : UpdateSecretRequest) : Call Payload := do
  match secret.format with
  | .opaqueValue => do
      let value := req.value.getD ""
      Call.ensure (validateValue value)
      return .value value
  | .userpass => do
      let current ← loadUserpass A name secret.currentVersion
      let username := req.username.getD current.username
      let password := req.password.getD current.password
      Call.ensure (validateField "username" username)
      Call.ensure (validateField "password" password)
      return .userpass ⟨username, password⟩

/-- An update up to its command. -/
def updateCommit (name : String) (req : UpdateSecretRequest) (d : Draws) : Call Unit := do
  Call.ensure (checkUpdate req)
  let secret ← readSecret A name
  Call.ensure (checkUpdateFormat secret.format req)
  if req.changesSecret secret.format then do
    let payload ← updatePayload A name secret req
    let newVersion ← Call.ofOption tooManyVersions (nextVersion secret.currentVersion)
    let sealing ← sealVersion A name newVersion payload d
    Call.submit A (updateVersionCommand name secret req d.now sealing.record) (.record secret) (some sealing)
  else Call.submit A (updateMetaCommand name secret req d.now) (.record secret) none

/-- The call answers with the record as it is stored afterwards. -/
def updateSecret (actor name : String) (req : UpdateSecretRequest) (d : Draws) : Call SecretRecord := do
  updateCommit A name req d
  audit A (some actor) none "update" (some name) "ok" d
  readSecret A name

/-! ## Rotation targets -/

/-- The rotation target as messages print its hosts. -/
def debugHosts (hosts : List String) : String := "[" ++ ", ".intercalate (hosts.map debugStr) ++ "]"

/-- The hosts of a target, one after the other, until one of them is the writable primary. -/
def tryHosts (pg : PgRoleTarget) (login : UserPass) (role newPassword name : String) (version : Int32) :
    List String → Option String → Proc World Op (Except String Unit)
  | [], lastErr => pure (.error (lastErr.getD ("no writable primary among pg_replica nodes " ++ debugHosts pg.hosts)))
  | hostport :: rest, lastErr => do
      let (host, port) := splitHostport hostport
      let attempt : Attempt := { host, port, database := pg.database, login, role, newPassword }
      let answer ← Proc.perform (.attempt attempt name version) fun w => w.tryRotate attempt
      match answer with
      | .ok true => pure (.ok ())
      | .ok false => tryHosts pg login role newPassword name version rest lastErr
      | .error message => tryHosts pg login role newPassword name version rest (some message)

def applyPassword (pg : PgRoleTarget) (login : UserPass) (role newPassword name : String) (version : Int32) :
    Proc World Op (Except String Unit) :=
  match A.pgTargets.check pg with
  | .error message => pure (.error message)
  | .ok () => tryHosts pg login role newPassword name version pg.hosts none

section Hosts
variable (pg : PgRoleTarget) (login : UserPass) (role newPassword name : String) (version : Int32)

/-- The attempt on one host of the target. -/
def attemptOn (hostport : String) : Attempt where
  host := (splitHostport hostport).1
  port := (splitHostport hostport).2
  database := pg.database
  login := login
  role := role
  newPassword := newPassword

/-- How the loop goes on after the answer of a host. -/
def afterAnswer (rest : List String) (lastErr : Option String) : Except String Bool →
    Proc World Op (Except String Unit)
  | .ok true => .ret (.ok ())
  | .ok false => tryHosts pg login role newPassword name version rest lastErr
  | .error message => tryHosts pg login role newPassword name version rest (some message)

theorem tryHosts_cons (hostport : String) (rest : List String) (lastErr : Option String) :
    tryHosts pg login role newPassword name version (hostport :: rest) lastErr =
      .act (.attempt (attemptOn pg login role newPassword hostport) name version) fun w =>
        afterAnswer pg login role newPassword name version rest lastErr
          (w.tryRotate (attemptOn pg login role newPassword hostport)) := by
  rw [tryHosts]
  rfl

end Hosts

/-- The stored logins, one after the other, until one of them is accepted. -/
def tryLogins (pg : PgRoleTarget) (role newPassword name : String) (version : Int32) :
    List UserPass → Option String → Call Unit
  | [], lastErr => throw (.internal ("pg_replica password apply failed: " ++ lastErr.getD ""))
  | login :: rest, _ => do
      let answer ← ExceptT.lift (applyPassword A pg login role newPassword name version)
      match answer with
      | .ok () => return ()
      | .error message => tryLogins pg role newPassword name version rest (some message)

def maxLoginCandidates : Nat := 4

/-- The version just superseded, then the live ones, newest first. -/
def candidateVersions (previous : Int32) (live : List VersionRecord) : List Int32 :=
  let versions := live.foldl (fun versions record =>
    if versions.contains record.version then versions else versions ++ [record.version]) [previous]
  versions.take maxLoginCandidates

def loadLogins (name : String) : List Int32 → Call (List UserPass)
  | [] => return []
  | version :: rest => do
      let found ← Call.read (RedbStore.version A.codec name version)
      match found with
      | none => loadLogins name rest
      | some record => do
          let plaintext ← Call.ofExcept id (openVersion A name version record)
          let logins ← loadLogins name rest
          -- a payload that is no login is passed over
          return (A.userpass.decode plaintext).toList ++ logins

def selfLoginCandidates (name : String) (previous : Int32) (now : Int64) : Call (List UserPass) := do
  let live ← Call.read (RedbStore.liveVersions A.codec name now)
  loadLogins A name (candidateVersions previous live)

def targetLogins (name : String) (previous : Int32) (now : Int64) (pg : PgRoleTarget) : Call (List UserPass) :=
  match pg.loginSecret with
  | some login =>
      if login ≠ name then do
        let current ← loadCurrentUserpass A login
        return [current]
      else selfLoginCandidates A name previous now
  | none => selfLoginCandidates A name previous now

def applyTarget (name : String) (previous version : Int32) (now : Int64) (pg : PgRoleTarget) (new : UserPass) :
    Call Unit := do
  let logins ← targetLogins A name previous now pg
  if logins.isEmpty then
    throw (.internal ("no stored credential to authenticate the pg_replica apply for '" ++ name ++ "'"))
  else tryLogins A pg (pg.role.getD new.username) new.password name version logins none

/-! ## Rotate -/

def applyRetrySecs : Int64 := 60

def rotateCommand (name : String) (secret : SecretRecord) (now : Int64) (version : VersionRecord) : Command :=
  .putVersion name secret.currentVersion version (some (graceExpiryUnix now secret.graceSecs)) none none none
    (.set (some (nextRotationUnix now (secret.rotationIntervalSecs.getD 0)))) now

def retryCommand (name : String) (currentVersion : Int32) (now : Int64) : Command :=
  .updateMeta name currentVersion none none none (.set (some (nextRotationUnix now applyRetrySecs))) now

/-- A failed apply is tried again soon; that this could not be scheduled is only logged. -/
def scheduleApplyRetry (name : String) (secret : SecretRecord) (currentVersion : Int32) (now : Int64) : Call Unit := do
  let _ ← ExceptT.lift (Call.trySubmit A (retryCommand name currentVersion now) (.record secret) none)
  return ()

def rotatePayload (name : String) (secret : SecretRecord) (d : Draws) : Call Payload := do
  match secret.format with
  | .opaqueValue => return .value d.token
  | .userpass => do
      let current ← loadUserpass A name secret.currentVersion
      return .userpass ⟨current.username, d.token⟩

/-- A rotation up to its command: the new version is committed before it is applied to the target. -/
def rotateCommit (name : String) (d : Draws) : Call (SecretRecord × Sealing) := do
  let secret ← readSecret A name
  if secret.kind ≠ .automatic then
    throw (.badRequest "only automatic secrets can be rotated; use update for manual secrets")
  else do
    let newVersion ← Call.ofOption tooManyVersions (nextVersion secret.currentVersion)
    let payload ← rotatePayload A name secret d
    let sealing ← sealVersion A name newVersion payload d
    Call.submit A (rotateCommand name secret d.now sealing.record) (.record secret) (some sealing)
    return (secret, sealing)

/-- What a rotation sends to its target, where it has one. -/
def rotateApply (name : String) (secret : SecretRecord) (sealing : Sealing) (d : Draws) : Call Unit :=
  match secret.target, sealing.payload with
  | some (.pgReplica pg), .userpass new =>
      applyTarget A name secret.currentVersion sealing.record.version d.now pg new
  | _, _ => return ()

/-- A rotation after its command: the target, and the audit entry. -/
def rotateFinish (actor : String) (clientIp : Option String) (name : String) (d : Draws) (secret : SecretRecord)
    (sealing : Sealing) : Call SecretValue := do
  let applied ← ExceptT.lift (rotateApply A name secret sealing d).run
  match applied with
  | .error err => do
      scheduleApplyRetry A name secret sealing.record.version d.now
      audit A (some actor) clientIp "rotate" (some name) "apply_failed" d
      throw err
  | .ok () => do
      audit A (some actor) clientIp "rotate" (some name) "ok" d
      return {
        name := name, kind := secret.kind, version := sealing.record.version, payload := sealing.payload,
        createdAt := d.now }

def rotate (actor : String) (clientIp : Option String) (name : String) (d : Draws) : Call SecretValue := do
  let (secret, sealing) ← rotateCommit A name d
  rotateFinish A actor clientIp name d secret sealing

end Calls

end HyperionVault
