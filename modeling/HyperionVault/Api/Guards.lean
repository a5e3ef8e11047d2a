import HyperionVault.Api.Rbac
import HyperionVault.Service.Reads

/-!
# Who is calling

`guards.rs`: an administrative request carries a bearer token, whose record names a role; a read request
comes from an address on the allowlist. Failures are counted against the address of the TCP connection.

* `RequestParts`, `bearerToken`, `clientIp` : what a request says about its sender;
* `adminActor` : the actor of an administrative request, `readerGuard` : the sender of a read request;
* `authorize`, `authorizeRotationTarget`, `requireAdmin` : the checks of `authz.rs`.
-/

namespace HyperionVault
open Lib

/-- The parts of a request that the guards read. A header that is no text counts as absent. -/
structure RequestParts where
  authorization : Option String
  forwardedFor : Option String
  peerIp : Option IpAddr

/-- The text after `start`, if the text begins with it. -/
def stripStart (start text : String) : Option (List Char) :=
  if start.toList.isPrefixOf text.toList then some (text.toList.drop start.toList.length) else none

def bearerToken (parts : RequestParts) : Option String :=
  match parts.authorization with
  | none => none
  | some header =>
      match (stripStart "Bearer " header).or (stripStart "bearer " header) with
      | none => none
      | some rest => if (trim rest).isEmpty then none else some (String.ofList (trim rest))

/-- The address a request claims to come from. -/
def clientIp (cfg : AuthConfig) (parts : RequestParts) : Option IpAddr :=
  let forwarded := if cfg.trustProxy then
      parts.forwardedFor.bind fun value => cfg.parseIp (String.ofList (trim (value.toList.takeWhile (· ≠ ','))))
    else none
  forwarded.or parts.peerIp

structure AdminActor where
  name : String
  isAdmin : Bool
  rules : Rules
  clientIp : Option IpAddr
  peerIp : Option IpAddr

structure ReaderGuard where
  clientIp : UInt32
  peerIp : IpAddr

/-- The clock readings of a guard and of a check that fails after it. -/
structure GuardTimes where
  checkAt : Int64
  recordAt : Int64
  touchAt : Int64

section Guards
variable (A : AppState) (cfg : AuthConfig)

/-- What the role of a token allows; a role that is not there allows nothing. -/
def actorRules (role : Option String) : Call (Bool × Rules) :=
  match role with
  | none => return (false, [])
  | some roleName => do
      let found ← Call.read (RedbStore.role A.codec roleName)
      match found with
      | some role => return (role.isAdmin, role.permissions)
      | none => return (false, [])

/-- A use is written at most once in `tokenTouchSecs`; that it could not be stored is ignored. -/
def touchIfDue (token : TokenRecord) (fingerprint : Bytes) (now : Int64) : Call Unit := do
  if token.lastUsedAt.all fun at_ => cfg.tokenTouchSecs ≤ satSub now at_ then do
    let _ ← ExceptT.lift (Call.trySubmit A (.touchToken fingerprint now) .nothing none)
    return ()
  else return ()

/-- A request without a valid token counts as a failed attempt. -/
def rejectActor (parts : RequestParts) (g : GuardTimes) : Call AdminActor := do
  lockoutRecord A cfg parts.peerIp g.recordAt
  throw .unauthorized

def adminActor (parts : RequestParts) (g : GuardTimes) : Call AdminActor := do
  lockoutCheck A cfg parts.peerIp g.checkAt
  match bearerToken parts with
  | none => rejectActor A cfg parts g
  | some bearer => do
      let record ← Call.read (RedbStore.tokenByFingerprint A.codec (cfg.fingerprint bearer))
      match record.filter fun record => record.revokedAt.isNone with
      | none => rejectActor A cfg parts g
      | some token => do
          let (isAdmin, rules) ← actorRules A token.role
          touchIfDue A cfg token (cfg.fingerprint bearer) g.touchAt
          return { name := token.name, isAdmin, rules, clientIp := clientIp cfg parts, peerIp := parts.peerIp }

def readerGuard (parts : RequestParts) (g : GuardTimes) : Call ReaderGuard := do
  let peer ← Call.ofOption .forbidden parts.peerIp
  let ip ← Call.ofOption .forbidden (clientIp cfg parts)
  lockoutCheckIp A cfg peer g.checkAt
  let reject : Call ReaderGuard := do
    lockoutRecord A cfg (some peer) g.recordAt
    throw .forbidden
  match ip with
  | .v4 addr => if cfg.allowlist addr then return { clientIp := addr, peerIp := peer } else reject
  | .v6 _ => reject

/-! ## Authorization -/

/-- A request that is not allowed counts as a failed attempt. -/
def allowOrReject (actor : AdminActor) (allowed : Bool) (now : Int64) : Call Unit := do
  if allowed then return ()
  else do
    lockoutRecord A cfg actor.peerIp now
    throw .forbidden

def authorize (actor : AdminActor) (action name : String) (now : Int64) : Call Unit :=
  allowOrReject A cfg actor (rulesAllow actor.isAdmin actor.rules action name) now

def requireAdmin (actor : AdminActor) (now : Int64) : Call Unit := allowOrReject A cfg actor actor.isAdmin now

/-- A target may log in with a secret that the actor sees, and change the password of the secret's own user. -/
def authorizeRotationTarget (actor : AdminActor) (req : CreateSecretRequest) (now : Int64) : Call Unit :=
  match req.target with
  | none => return ()
  | some (.pgReplica pg) => do
      allowOrReject A cfg actor (pg.loginSecret.all fun login => visible actor.isAdmin actor.rules login) now
      allowOrReject A cfg actor (pg.role.all fun role => actor.isAdmin || role = req.username.getD "") now

end Guards

end HyperionVault
