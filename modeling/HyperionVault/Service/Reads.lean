import HyperionVault.Service.Lockout

/-!
# Reading and verifying secrets

`get_secret`, `get_secrets`, `list_secrets` and `verify` of `service.rs`.

* `knownName` : a name that no secret can have is not looked up;
* `getSecret`, `getSecrets` : the current value of a secret, or of several;
* `verifyVersions`, `verify` : whether a value is that of a live version, and of which.
-/

namespace HyperionVault
open Lib

def knownName (name : String) : ApiResult Unit :=
  if isValidSecretName name then .ok () else .error .notFound

structure VerifyResponse where
  valid : Bool
  version : Option Int32
deriving DecidableEq

section Reads
variable (A : AppState)

/-- What the version that was read as the current one holds. -/
def readVersion (name : String) (secret : SecretRecord) (version : VersionRecord) : ApiResult SecretValue := do
  let plaintext ← openVersion A name version.version version
  let payload ← decodePayload A secret.format plaintext
  return { name := name, kind := secret.kind, version := version.version, payload := payload,
           createdAt := version.createdAt }

def getSecret (name : String) (clientIp : String) (d : Draws) : Call SecretValue := do
  Call.ensure (knownName name)
  let found ← Call.read (RedbStore.currentVersion A.codec name)
  match found with
  | none => do
      audit A none (some clientIp) "get" (some name) "not_found" d
      throw .notFound
  | some (secret, version) => do
      let value ← Call.ofExcept id (readVersion A name secret version)
      audit A none (some clientIp) "get" (some name) "ok" d
      return value

def maxBatch : Nat := 256

/-- The values of a batch, in the order of the request; names without a secret are left out. -/
def getEach (clientIp : String) (d : Draws) : List String → Call (List SecretValue)
  | [] => return []
  | name :: rest => do
      if isValidSecretName name then do
        let found ← Call.read (RedbStore.currentVersion A.codec name)
        match found with
        | some (secret, version) => do
            let value ← Call.ofExcept id (readVersion A name secret version)
            audit A none (some clientIp) "get" (some name) "ok" d
            let values ← getEach clientIp d rest
            return value :: values
        | none => do
            audit A none (some clientIp) "get" (some name) "not_found" d
            getEach clientIp d rest
      else do
        audit A none (some clientIp) "get" (some name) "not_found" d
        getEach clientIp d rest

def getSecrets (names : List String) (clientIp : String) (d : Draws) : Call (List SecretValue) := do
  Call.ensure (require (names.length ≤ maxBatch)
    ("batch too large: " ++ toString names.length ++ " names (max " ++ toString maxBatch ++ ")"))
  getEach A clientIp d names

def listSecretsCall : Call (List SecretRecord) := Call.read (RedbStore.listSecrets A.codec)

/-! ## Verify -/

/-- Whether the plaintext of a version is what was presented; of a login, the password. -/
def presentedMatches (format : SecretFormat) (presented : String) (plaintext : Bytes) : Bool :=
  match format with
  | .opaqueValue => utf8 presented = plaintext
  | .userpass =>
      match A.userpass.decode plaintext with
      | some login => utf8 presented = utf8 login.password
      | none => false

/-- The first of the versions that holds what was presented. -/
def verifyVersions (name : String) (format : SecretFormat) (presented : String) :
    List VersionRecord → ApiResult (Option Int32)
  | [] => .ok none
  | version :: rest => do
      let plaintext ← openVersion A name version.version version
      if presentedMatches A format presented plaintext then return some version.version
      else verifyVersions name format presented rest

variable (cfg : AuthConfig)

/-- A value that is not valid counts as a failed attempt. -/
def verifyInvalid (name clientIp : String) (peer : IpAddr) (d : Draws) (recordAt : Int64) : Call VerifyResponse := do
  audit A none (some clientIp) "verify" (some name) "invalid" d
  recordVerify A cfg peer name recordAt
  return { valid := false, version := none }

/-- The clock is read for the lockout, for the versions, for the audit entry and for the failure. -/
def verify (name clientIp : String) (peer : IpAddr) (presented : String) (d : Draws) (checkAt recordAt : Int64) :
    Call VerifyResponse := do
  Call.ensure (knownName name)
  checkVerify A cfg peer name checkAt
  if presented.isEmpty then verifyInvalid A cfg name clientIp peer d recordAt
  else do
    let found ← Call.read (RedbStore.secret A.codec name)
    match found with
    | none => verifyInvalid A cfg name clientIp peer d recordAt
    | some secret => do
        let versions ← Call.read (RedbStore.liveVersions A.codec name d.now)
        let answer ← Call.ofExcept id (verifyVersions A name secret.format presented versions)
        match answer with
        | some version => do
            audit A none (some clientIp) "verify" (some name) "valid" d
            return { valid := true, version := some version }
        | none => verifyInvalid A cfg name clientIp peer d recordAt

end Reads

end HyperionVault
