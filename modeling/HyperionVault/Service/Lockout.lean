import HyperionVault.Service.Calls

/-!
# Lockouts

`lockout.rs`: failed attempts are counted per address of the TCP connection, wrong values presented for a
secret per address and secret. A count that has reached the maximum locks its key for a while.

* `AuthConfig` : the settings of authentication, and how addresses are printed;
* `checkKey`, `recordKey` : one counter;
* `lockoutCheck`, `lockoutCheckIp`, `lockoutRecord` : the counter of an address;
  `checkVerify`, `recordVerify` : the counter of an address and a secret.
-/

namespace HyperionVault
open Lib

inductive IpAddr where
  | v4 (addr : UInt32)
  | v6 (addr : BitVec 128)
deriving DecidableEq

/-- The settings of authentication. How an address is printed and read is the standard library's, and the
fingerprint of a token is its SHA-256. -/
structure AuthConfig where
  authMaxFailures : UInt32
  authLockoutSecs : Int64
  authWindowSecs : Int64
  tokenTouchSecs : Int64
  trustProxy : Bool
  allowlist : UInt32 → Bool
  showIp : IpAddr → String
  parseIp : String → Option IpAddr
  fingerprint : String → Bytes

section Lockout
variable (A : AppState) (cfg : AuthConfig)

def checkKey (key : String) (now : Int64) : Call Unit := do
  if cfg.authMaxFailures = 0 then return ()
  else do
    let found ← Call.read (RedbStore.lockout A.codec key)
    match found.bind LockoutRecord.lockedUntil with
    | some until_ => if now < until_ then throw .tooManyRequests else return ()
    | none => return ()

/-- One more failure; that it could not be stored is only logged. -/
def recordKey (key : String) (now : Int64) : Call Unit := do
  if cfg.authMaxFailures = 0 then return ()
  else do
    let _ ← ExceptT.lift (Call.trySubmit A (.recordAuthFailure key now cfg.authMaxFailures cfg.authWindowSecs
      cfg.authLockoutSecs) .nothing none)
    return ()

def lockoutCheckIp (ip : IpAddr) (now : Int64) : Call Unit := checkKey A cfg (cfg.showIp ip) now

def lockoutCheck (ip : Option IpAddr) (now : Int64) : Call Unit := do
  if cfg.authMaxFailures = 0 then return ()
  else
    match ip with
    | some ip => lockoutCheckIp A cfg ip now
    | none => return ()

def lockoutRecord (ip : Option IpAddr) (now : Int64) : Call Unit :=
  match ip with
  | none => return ()
  | some ip => recordKey A cfg (cfg.showIp ip) now

def verifyKey (peer : IpAddr) (secret : String) : String := "verify:" ++ cfg.showIp peer ++ ":" ++ secret

def checkVerify (peer : IpAddr) (secret : String) (now : Int64) : Call Unit :=
  checkKey A cfg (verifyKey cfg peer secret) now

def recordVerify (peer : IpAddr) (secret : String) (now : Int64) : Call Unit :=
  recordKey A cfg (verifyKey cfg peer secret) now

end Lockout

end HyperionVault
