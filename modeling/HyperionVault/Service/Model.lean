import HyperionVault.Lib.Proc
import HyperionVault.Service.PgTarget
import HyperionVault.Store.Engine
import Mathlib.Logic.Function.Basic

/-!
# The service and the world it runs in

A service call (`service.rs`, `rewrap.rs`) is a process: it computes by itself and now and then reads the
store, submits a command, asks KMS for a key or tries a rotation target. Other calls may run in between.

* `ApiError`, `Payload`, `SecretValue`, ... : what calls take, seal and return;
* `Kms`, `Aead`, `AppState` : the parts the service is built on, with the laws it relies on;
* `World` : the committed tables, the KMS key material and the target, and what has been sealed so far;
* `Op`, `World.perform` : the operations a call performs on the world;
* `Call` : a call that may fail, with the primitive operations.
-/

namespace HyperionVault
open Lib

inductive ApiError where
  | unauthorized
  | forbidden
  | tooManyRequests
  | notFound
  | badRequest (message : String)
  | conflict (message : String)
  | internal (message : String)
deriving DecidableEq

def ApiError.ofStore : StoreError → ApiError
  | .notFound => .notFound
  | .conflict message => .conflict message
  | .versionConflict => .conflict "write conflict; retry the request"
  | .internal message => .internal message

structure UserPass where
  username : String
  password : String
deriving DecidableEq

/-- What a version seals. -/
inductive Payload where
  | value (text : String)
  | userpass (login : UserPass)
deriving DecidableEq

def Payload.format : Payload → SecretFormat
  | .value _ => .opaqueValue
  | .userpass _ => .userpass

structure SecretValue where
  name : String
  kind : SecretKind
  version : Int32
  payload : Payload
  createdAt : Int64

/-! ## KMS and sealing -/

structure DataKey where
  plaintext : Bytes
  wrapped : Bytes
  keyId : String

abbrev KmsContext := List (String × String)

/-- The encryption context of a version. -/
def kmsContext (name : String) (version : Int32) : KmsContext :=
  [("secret", name), ("version", toString version.toInt)]

/-- A KMS provider. What it draws at random is an argument, and so is the rotation time of the key material
that it wraps with; unwrapping works for all material. -/
structure Kms where
  generateDataKey (material : Int64) (draw : Nat) (context : KmsContext) : Except String DataKey
  decryptDataKey (wrapped : Bytes) (keyId : String) (context : KmsContext) : Except String Bytes
  reencryptDataKey (material : Int64) (draw : Nat) (wrapped : Bytes) (keyId : String) (context : KmsContext) :
    Except String (Bytes × String)
  decrypt_generate : ∀ {material draw context key}, generateDataKey material draw context = .ok key →
    decryptDataKey key.wrapped key.keyId context = .ok key.plaintext
  decrypt_reencrypt : ∀ {material draw wrapped keyId context wrapped' keyId' dek},
    reencryptDataKey material draw wrapped keyId context = .ok (wrapped', keyId') →
    decryptDataKey wrapped keyId context = .ok dek → decryptDataKey wrapped' keyId' context = .ok dek

def nonceLen : Nat := 24

abbrev Nonce := { bytes : Bytes // bytes.length = nonceLen }

/-- `seal` and `open` of the core crate; opening inverts sealing. -/
structure Aead where
  sealWith (dek : Bytes) (nonce : Nonce) (aad plaintext : Bytes) : Option Bytes
  openWith (dek : Bytes) (nonce : Nonce) (aad ciphertext : Bytes) : Option Bytes
  open_seal : ∀ {dek nonce aad plaintext ciphertext}, sealWith dek nonce aad plaintext = some ciphertext →
    openWith dek nonce aad ciphertext = some plaintext

/-- The parts of the running node that calls use. -/
structure AppState where
  codec : Codec
  userpass : Serde UserPass
  kms : Kms
  aead : Aead
  pgTargets : PgTargetPolicy
  nodeId : Nat

def Payload.bytes (A : AppState) : Payload → Bytes
  | .value text => utf8 text
  | .userpass login => A.userpass.encode login

/-- A version as `seal_version` makes it, with the key and the payload it was made from. Only the record
reaches the store. -/
structure Sealing where
  record : VersionRecord
  dek : Bytes
  payload : Payload

/-! ## The world -/

/-- How one attempt on a rotation target is answered, the login apart. -/
inductive Reach where
  /-- The connection fails. -/
  | unreachable (message : String)
  /-- A standby, which does not change passwords. -/
  | standby
  | primary
  /-- The primary changes the password, but its answer does not arrive. -/
  | replyLost (message : String)

structure Attempt where
  host : String
  port : UInt16
  database : String
  login : UserPass
  role : String
  newPassword : String

structure World where
  tables : Tables
  /-- The rotation time of the key material in use at KMS. -/
  material : Int64
  /-- Re-wrap passes running, by node. -/
  rewrapBusy : Nat → Bool
  /-- The password the target accepts for each of its roles. -/
  passwords : String → Option String
  /-- How the attempts of the run are answered, one after the other. -/
  network : Nat → Reach
  attempts : Nat
  /-- History: how often each name has been deleted. -/
  incarnation : String → Nat
  /-- History: what was sealed for each version of each incarnation of a name. -/
  sealings : String → Nat → Int32 → Option Sealing
  /-- History: the versions whose passwords the target has accepted, the last one first. -/
  accepted : List (String × Int32)

/-- What a command was computed from. -/
inductive Basis where
  | nothing
  | record (secret : SecretRecord)
  /-- A version row, read while the name was in this incarnation. -/
  | row (incarnation : Nat) (version : VersionRecord)

inductive Op where
  | read
  | kms
  | busy (node : Nat) (value : Bool)
  | submit (command : Command) (basis : Basis) (sealing : Option Sealing)
  /-- The attempt sends the password of this version of this secret. -/
  | attempt (attempt : Attempt) (name : String) (version : Int32)

namespace World

def endpoint (a : Attempt) : String := a.host ++ ":" ++ toString a.port.toNat

/-- A login succeeds exactly with the current password. -/
def loginOk (w : World) (a : Attempt) : Bool := w.passwords a.login.username = some a.login.password

/-- `try_rotate` : the answer to the next attempt. -/
def tryRotate (w : World) (a : Attempt) : Except String Bool :=
  match w.network w.attempts with
  | .unreachable message => .error ("connect " ++ endpoint a ++ ": " ++ message)
  | reach =>
      if w.loginOk a then
        match reach with
        | .replyLost message => .error ("rotate_credential on " ++ endpoint a ++ ": " ++ message)
        | .standby => .ok false
        | _ => .ok true
      else .error ("connect " ++ endpoint a ++ ": db error")

/-- Whether the next attempt changes the password. -/
def accepts (w : World) (a : Attempt) : Bool :=
  match w.network w.attempts with
  | .primary => w.loginOk a
  | .replyLost _ => w.loginOk a
  | _ => false

/-- The history with what was sealed for a version of the present incarnation of a name. -/
def withSealing (w : World) (name : String) (number : Int32) (sealing : Option Sealing) : World :=
  { w with
    sealings := Function.update w.sealings name (Function.update (w.sealings name) (w.incarnation name)
      (Function.update (w.sealings name (w.incarnation name)) number sealing)) }

/-- The history after a command has been committed. -/
def record (w : World) (command : Command) (sealing : Option Sealing) : World :=
  match command with
  | .createSecret secret version => w.withSealing secret.name version.version sealing
  | .putVersion name _ version _ _ _ _ _ _ => w.withSealing name version.version sealing
  | .deleteSecret name => { w with incarnation := Function.update w.incarnation name (w.incarnation name + 1) }
  | _ => w

/-- A command in its own transaction. -/
def commit (A : AppState) (command : Command) (sealing : Option Sealing) (w : World) : World :=
  match RedbStore.apply A.codec A.nodeId command w.tables with
  | (.error _, t) => { w with tables := t }
  | (.ok (), t) => { w.record command sealing with tables := t }

def perform (A : AppState) : Op → World → World
  | .read, w => w
  | .kms, w => w
  | .busy node value, w => { w with rewrapBusy := Function.update w.rewrapBusy node value }
  | .submit command _ sealing, w => w.commit A command sealing
  | .attempt a name version, w =>
      let w' := if w.accepts a then
          { w with
            passwords := Function.update w.passwords a.role (some a.newPassword)
            accepted := (name, version) :: w.accepted }
        else w
      { w' with attempts := w.attempts + 1 }

end World

/-! ## Calls -/

abbrev Call := ExceptT ApiError (Proc World Op)

namespace Call

def ofExcept {ε α : Type} (toApi : ε → ApiError) (r : Except ε α) : Call α :=
  match r with
  | .ok a => pure a
  | .error e => throw (toApi e)

def ofOption {α : Type} (e : ApiError) (o : Option α) : Call α :=
  match o with
  | some a => pure a
  | none => throw e

/-- One read transaction. -/
def read {α : Type} (query : Tables → StoreResult α) : Call α := do
  let r ← ExceptT.lift (Proc.perform .read fun w => query w.tables)
  ofExcept .ofStore r

/-- A request to KMS. -/
def kms {α : Type} (request : Int64 → Except String α) : Call α := do
  let r ← ExceptT.lift (Proc.perform .kms fun w => request w.material)
  ofExcept .internal r

/-- The outcome of a command that is submitted to the store. -/
def trySubmit (A : AppState) (command : Command) (basis : Basis) (sealing : Option Sealing) :
    Proc World Op (StoreResult Unit) :=
  Proc.perform (.submit command basis sealing) fun w => (RedbStore.apply A.codec A.nodeId command w.tables).1

def submit (A : AppState) (command : Command) (basis : Basis) (sealing : Option Sealing) : Call Unit := do
  let r ← ExceptT.lift (trySubmit A command basis sealing)
  ofExcept .ofStore r

/-- What a check says, in a call. -/
def ensure (check : Except ApiError Unit) : Call Unit := ofExcept id check

end Call

end HyperionVault
