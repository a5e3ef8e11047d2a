import HyperionVault.Service.Model

/-!
# Requests

What the service checks before it touches the store, and the payload a request asks to be stored
(`service.rs`, `dto.rs`).

* `CreateSecretRequest`, `UpdateSecretRequest` : the bodies of the two write requests;
* `validateName`, `validateInterval`, `normalizeGrace`, `validateField`, ... : the checks, with their messages;
* `buildCreatePayload` : the payload of a new secret.
-/

namespace HyperionVault
open Lib

structure CreateSecretRequest where
  name : String
  kind : SecretKind
  value : Option String
  username : Option String
  password : Option String
  description : Option String
  rotationIntervalSecs : Option Int64
  gracePeriodSecs : Option Int64
  target : Option RotationTarget

structure UpdateSecretRequest where
  value : Option String
  username : Option String
  password : Option String
  description : Option String
  rotationIntervalSecs : Option Int64
  gracePeriodSecs : Option Int64

abbrev ApiResult (α : Type) := Except ApiError α

/-! ## Checks -/

/-- A request that fails a check is refused with the check's message. -/
def require (condition : Bool) (message : String) : ApiResult Unit :=
  if condition then .ok () else .error (.badRequest message)

theorem require_eq_ok {condition : Bool} {message : String} :
    require condition message = .ok () ↔ condition = true := by
  cases condition <;> simp [require]

def validateName (name : String) : ApiResult Unit := do
  require (!name.isEmpty && name.utf8ByteSize ≤ maxSecretNameLen)
    ("secret name must be between 1 and " ++ toString maxSecretNameLen ++ " characters")
  require (isValidSecretName name) "secret name may contain only [A-Za-z0-9-_/.]"
  require (isNormalizedSecretName name)
    "secret name must not start or end with '/', or contain an empty, '.' or '..' segment"

def validateInterval (secs : Int64) : ApiResult Unit := do
  require (0 < secs) "rotation_interval_secs must be positive"
  require (secs ≤ maxRotationIntervalSecs)
    ("rotation_interval_secs must not exceed " ++ toString maxRotationIntervalSecs.toInt)

def maxValueLen : Nat := 2 ^ 16

def validateValue (value : String) : ApiResult Unit := do
  require (!value.isEmpty) "secret value must not be empty"
  require (value.utf8ByteSize ≤ maxValueLen) "secret value is too large"

def validateField (label value : String) : ApiResult Unit := do
  require (!value.isEmpty) (label ++ " must not be empty")
  require (value.utf8ByteSize ≤ maxValueLen) (label ++ " is too large")

def normalizeGrace (grace : Option Int64) : ApiResult Int64 := do
  let secs := grace.getD 0
  require (0 ≤ secs) "grace_period_secs must not be negative"
  require (secs ≤ maxGraceSecs) ("grace_period_secs must not exceed " ++ toString maxGraceSecs.toInt)
  return secs

/-- A check of an optional field passes where the field is missing. -/
def validateOption {α : Type} (check : α → ApiResult Unit) : Option α → ApiResult Unit
  | none => .ok ()
  | some a => check a

def validateTarget (A : AppState) : RotationTarget → ApiResult Unit
  | .pgReplica pg => do
      validateOption validateName pg.loginSecret
      validateOption (validateField "target.role") pg.role
      match A.pgTargets.check pg with
      | .ok () => return ()
      | .error message => throw (.badRequest message)

/-! ## Payloads -/

/-- The text a request gives; an automatic secret may leave it to the generator. -/
def givenOr (kind : SecretKind) (token : String) (check : String → ApiResult Unit) (missing : String) :
    Option String → ApiResult String
  | some text => do
      check text
      return text
  | none =>
      match kind with
      | .manual => throw (.badRequest missing)
      | .automatic => return token

def buildCreatePayload (req : CreateSecretRequest) (token : String) : ApiResult Payload :=
  if req.username.isSome || req.password.isSome then
    if req.value.isSome then
      throw (.badRequest "provide either 'value' or 'username'/'password', not both")
    else
      match req.username with
      | none => throw (.badRequest "userpass secret requires 'username'")
      | some username => do
          validateField "username" username
          let password ← givenOr req.kind token (validateField "password")
            "manual userpass secret requires 'password'" req.password
          return .userpass ⟨username, password⟩
  else do
    let value ← givenOr req.kind token validateValue "manual secret requires 'value'" req.value
    return .value value

/-- Which fields of an update are of the secret's format. -/
def checkUpdateFormat (format : SecretFormat) (req : UpdateSecretRequest) : ApiResult Unit :=
  match format with
  | .opaqueValue => require (!(req.username.isSome || req.password.isSome))
      "secret is opaque; use 'value', not 'username'/'password'"
  | .userpass => require (!req.value.isSome) "secret is userpass; use 'username'/'password', not 'value'"

def UpdateSecretRequest.changesSecret (req : UpdateSecretRequest) : SecretFormat → Bool
  | .opaqueValue => req.value.isSome
  | .userpass => req.username.isSome || req.password.isSome

end HyperionVault
