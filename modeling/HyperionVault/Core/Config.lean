import HyperionVault.Lib.Table
import HyperionVault.Lib.Text

/-!
# The configuration

`Config::from_env` of `config.rs`: every setting is an environment variable with a default. A setting that does not
parse stops the program with a message; numbers are accepted over the whole range of their type.

* `Env` : the environment, and the tables of `to_lowercase`;
* `parseUnsigned`, `parseI64`, `parseBool`, `parsePeers` : the values;
* `Config`, `Config.fromEnv` : the settings.
-/

namespace HyperionVault
open Lib

/-- The variables that are set to a Unicode text, and the lower case of a text. -/
structure Env where
  var : String → Option String
  toLowercase : String → String

namespace Env

def envOr (env : Env) (key default : String) : String := (env.var key).getD default

def envOpt (env : Env) (key : String) : Option String := (env.var key).filter fun value => !value.isEmpty

end Env

/-! ## Values -/

/-- A text of digits. -/
def isNumber (digits : List Char) : Bool := !digits.isEmpty && digits.all Char.isDigit

/-- `str::parse` for an unsigned type with the values below `bound`: digits, after a plus sign at most. -/
def parseUnsigned (bound : Nat) (text : List Char) : Option Nat :=
  let digits := match text with
    | '+' :: rest => rest
    | _ => text
  if isNumber digits && Nat.ofDigitChars 10 digits 0 < bound then some (Nat.ofDigitChars 10 digits 0) else none

/-- `str::parse::<i64>`. -/
def parseI64 (text : List Char) : Option Int64 :=
  match text with
  | '-' :: digits =>
      if isNumber digits && Nat.ofDigitChars 10 digits 0 ≤ 2 ^ 63 then
        some (Int64.ofInt (-(Nat.ofDigitChars 10 digits 0 : Int)))
      else none
  | _ => (parseUnsigned (2 ^ 63) text).map Int64.ofNat

def parseBool (env : Env) (value : String) : Bool := ["1", "true", "yes", "on"].contains (env.toLowercase value)

/-- The entries of `VAULT_PEERS` one after the other; a later address of a node replaces an earlier one. -/
def parsePeerEntries : List (List Char) → Table Nat String → Except String (Table Nat String)
  | [], map => .ok map
  | raw :: rest, map =>
      let entry := trim raw
      if entry.isEmpty then parsePeerEntries rest map
      else
        match splitOnce '=' entry with
        | none => .error ("VAULT_PEERS entry '" ++ String.ofList entry ++ "' must be 'id=host:port'")
        | some (id, addr) =>
            match parseUnsigned (2 ^ 64) (trim id) with
            | none => .error ("VAULT_PEERS id '" ++ String.ofList id ++ "' must be an integer")
            | some number =>
                let addr := trim addr
                if addr.isEmpty then .error ("VAULT_PEERS entry '" ++ String.ofList entry ++ "' has an empty address")
                else parsePeerEntries rest (map.insert number (String.ofList addr))

def parsePeers (raw : String) : Except String (Table Nat String) := parsePeerEntries (raw.toList.splitOn ',') .empty

/-! ## The settings -/

inductive KmsMode where
  | aws
  | local_
deriving DecidableEq

inductive PgTlsMode where
  | verifyFull
  | prefer
  | disable
deriving DecidableEq

structure Config where
  nodeId : Nat
  peers : Table Nat String
  /-- The port; the address is 0.0.0.0. -/
  apiListen : UInt16
  dbPath : String
  bootstrapToken : Option String
  allowedIps : String
  trustProxy : Bool
  readConsistencyLinearizable : Bool
  kmsMode : KmsMode
  kmsKeyId : String
  localMasterKeyB64 : Option String
  raftBind : String
  clusterToken : Option String
  clusterAuthRequired : Bool
  raftPeerCheck : Bool
  rotationPollSecs : Nat
  pgTargetHosts : String
  pgTargetTls : PgTlsMode
  pgTargetCaFile : Option String
  dekCacheTtlSecs : Nat
  kmsMaxRetries : UInt32
  kmsRewrapEnabled : Bool
  kmsRewrapPollSecs : Nat
  kmsRewrapMaxPerSec : UInt32
  authMaxFailures : UInt32
  authLockoutSecs : Int64
  authWindowSecs : Int64
  tokenTouchSecs : Int64

section Parse
variable (env : Env)

def kmsModeOf (value : String) : Except String KmsMode :=
  match env.toLowercase value with
  | "aws" => .ok .aws
  | "local" => .ok .local_
  | other => .error ("VAULT_KMS_MODE must be 'aws' or 'local', got '" ++ other ++ "'")

def pgTlsModeOf (value : String) : Except String PgTlsMode :=
  match env.toLowercase value with
  | "verify-full" => .ok .verifyFull
  | "prefer" => .ok .prefer
  | "disable" => .ok .disable
  | other => .error ("VAULT_PG_TARGET_TLS must be 'verify-full', 'prefer' or 'disable', got '" ++ other ++ "'")

/-- The value of a numeric setting, or the message it is refused with. -/
def setting {α : Type} (parse : List Char → Option α) (key default message : String) : Except String α :=
  match parse (env.envOr key default).toList with
  | some value => .ok value
  | none => .error message

def parseU64 : List Char → Option Nat := parseUnsigned (2 ^ 64)

def parseU32 (text : List Char) : Option UInt32 := (parseUnsigned (2 ^ 32) text).map UInt32.ofNat

/-- A port of `VAULT_API_PORT`. -/
def parsePort (text : List Char) : Option UInt16 := (parseUnsigned (2 ^ 16) text).map UInt16.ofNat

/-- A check of `from_env` that stops with a message. -/
def bailIf (condition : Bool) (message : String) : Except String Unit := if condition then .error message else .ok ()

def Config.fromEnv : Except String Config := do
  let nodeId ← setting env parseU64 "NODE_ID" "1" "NODE_ID must be a positive integer"
  bailIf (nodeId == 0) "NODE_ID must be >= 1"
  let peers ← parsePeers (env.envOr "VAULT_PEERS" "")
  let apiListen ← setting env parsePort "VAULT_API_PORT" "8200" "VAULT_API_PORT must be a port number"
  let kmsMode ← kmsModeOf env (env.envOr "VAULT_KMS_MODE" "aws")
  let kmsKeyId := env.envOr "VAULT_KMS_KEY_ID" ""
  bailIf (kmsMode == .aws && kmsKeyId.isEmpty) "VAULT_KMS_KEY_ID is required when VAULT_KMS_MODE=aws"
  let clusterToken := env.envOpt "VAULT_CLUSTER_TOKEN"
  let clusterAuthRequired := parseBool env (env.envOr "VAULT_CLUSTER_AUTH_REQUIRED" "false")
  bailIf (clusterAuthRequired && clusterToken.isNone) "VAULT_CLUSTER_AUTH_REQUIRED=true requires VAULT_CLUSTER_TOKEN"
  let pgTargetTls ← pgTlsModeOf env (env.envOr "VAULT_PG_TARGET_TLS" "prefer")
  let rotationPollSecs ← setting env parseU64 "VAULT_ROTATION_POLL_SECS" "15"
    "VAULT_ROTATION_POLL_SECS must be an integer"
  let dekCacheTtlSecs ← setting env parseU64 "VAULT_DEK_CACHE_TTL_SECS" "300"
    "VAULT_DEK_CACHE_TTL_SECS must be an integer (seconds; 0 disables)"
  let kmsMaxRetries ← setting env parseU32 "VAULT_KMS_MAX_RETRIES" "5"
    "VAULT_KMS_MAX_RETRIES must be an integer (0 disables retries)"
  let kmsRewrapPollSecs ← setting env parseU64 "VAULT_KMS_REWRAP_POLL_SECS" "86400"
    "VAULT_KMS_REWRAP_POLL_SECS must be an integer (seconds)"
  let kmsRewrapMaxPerSec ← setting env parseU32 "VAULT_KMS_REWRAP_MAX_PER_SEC" "10"
    "VAULT_KMS_REWRAP_MAX_PER_SEC must be an integer (0 disables pacing)"
  let authMaxFailures ← setting env parseU32 "VAULT_AUTH_MAX_FAILURES" "5"
    "VAULT_AUTH_MAX_FAILURES must be an integer (0 disables lockout)"
  let authLockoutSecs ← setting env parseI64 "VAULT_AUTH_LOCKOUT_SECS" "900"
    "VAULT_AUTH_LOCKOUT_SECS must be an integer (seconds a lockout lasts)"
  let authWindowSecs ← setting env parseI64 "VAULT_AUTH_WINDOW_SECS" "300"
    "VAULT_AUTH_WINDOW_SECS must be an integer (failure accumulation window)"
  let tokenTouchSecs ← setting env parseI64 "VAULT_TOKEN_TOUCH_SECS" "300"
    "VAULT_TOKEN_TOUCH_SECS must be an integer (seconds between last_used_at writes; 0 writes on every request)"
  return {
    nodeId, peers, apiListen, kmsMode, kmsKeyId, clusterToken, clusterAuthRequired, pgTargetTls, rotationPollSecs,
    dekCacheTtlSecs, kmsMaxRetries, kmsRewrapPollSecs, kmsRewrapMaxPerSec, authMaxFailures, authLockoutSecs,
    authWindowSecs, tokenTouchSecs
    dbPath := env.envOr "VAULT_DB_PATH" "vault.redb"
    bootstrapToken := env.envOpt "VAULT_BOOTSTRAP_TOKEN"
    allowedIps := env.envOr "VAULT_ALLOWED_IPS" ""
    trustProxy := parseBool env (env.envOr "VAULT_TRUST_PROXY" "false")
    readConsistencyLinearizable := env.toLowercase (env.envOr "VAULT_READ_CONSISTENCY" "local") == "linearizable"
    localMasterKeyB64 := env.envOpt "VAULT_LOCAL_MASTER_KEY"
    raftBind := env.envOr "VAULT_RAFT_BIND" "0.0.0.0"
    raftPeerCheck := parseBool env (env.envOr "VAULT_RAFT_PEER_CHECK" "false")
    pgTargetHosts := env.envOr "VAULT_PG_TARGET_HOSTS" ""
    pgTargetCaFile := env.envOpt "VAULT_PG_TARGET_CA_FILE"
    kmsRewrapEnabled := parseBool env (env.envOr "VAULT_KMS_REWRAP_ENABLED" "false") }

end Parse

end HyperionVault
