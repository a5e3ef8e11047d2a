import HyperionVault.Core.Config
import HyperionVault.Store.Model
import HyperionVault.Lib.Text

/-!
# The allowlist of rotation targets

`PgTargetPolicy` of `pg_apply.rs`: a rotated password is sent only to hosts that the operator has listed.

* `splitHostport` : host and port of an entry, with brackets around IPv6 hosts and a default port;
* `parseHosts`, `PgTargetPolicy.build` : the allowlist of a setting; `PgTargetPolicy.seeded` : of the stored targets;
* `PgTargetPolicy.check` : whether every host of a target is listed;
* `buildPgTargetPolicy` : the policy that a node starts with (`lib.rs`).
-/

namespace HyperionVault
open Lib

def defaultPgPort : UInt16 := 5432

/-- `str::parse::<u16>`: digits, after a plus sign at most. -/
def parseU16 (text : List Char) : Option UInt16 :=
  let digits := match text with
    | '+' :: rest => rest
    | _ => text
  if !digits.isEmpty && digits.all Char.isDigit && Nat.ofDigitChars 10 digits 0 < 2 ^ 16 then
    some (UInt16.ofNat (Nat.ofDigitChars 10 digits 0))
  else none

def splitHostport (hostport : String) : String × UInt16 :=
  -- an entry that has no readable port is a host as a whole
  let whole := (hostport, defaultPgPort)
  match hostport.toList with
  | '[' :: rest =>
      match splitOnce ']' rest with
      | some (host, []) => (String.ofList host, defaultPgPort)
      | some (host, ':' :: port) => ((parseU16 port).map fun port => (String.ofList host, port)).getD whole
      | _ => whole
  | chars =>
      match rsplitOnce ':' chars with
      | some (host, port) =>
          if host.contains ':' then whole
          else ((parseU16 port).map fun port => (String.ofList host, port)).getD whole
      | none => whole

def asciiLowercase (text : String) : String := String.ofList (text.toList.map Char.toLower)

/-- Only the hosts of the policy; with TLS or without, the same endpoints are connected to. -/
structure PgTargetPolicy where
  hosts : List (String × UInt16)

def pushHost (hosts : List (String × UInt16)) (host : String) (port : UInt16) : List (String × UInt16) :=
  let host := asciiLowercase host
  if hosts.any fun (h, p) => h == host && p == port then hosts else hosts ++ [(host, port)]

/-- The entries of `VAULT_PG_TARGET_HOSTS` one after the other; blank ones are skipped. -/
def parseHostEntries : List (List Char) → List (String × UInt16) → Except String (List (String × UInt16))
  | [], hosts => .ok hosts
  | raw :: rest, hosts =>
      let entry := trim raw
      if entry.isEmpty then parseHostEntries rest hosts
      else
        let (host, port) := splitHostport (String.ofList entry)
        if host.isEmpty then
          .error ("VAULT_PG_TARGET_HOSTS entry '" ++ String.ofList entry ++ "' has an empty host")
        else parseHostEntries rest (pushHost hosts host port)

def parseHosts (raw : String) : Except String (List (String × UInt16)) := parseHostEntries (raw.toList.splitOn ',') []

/-- The hosts of stored targets; those without a host are skipped. -/
def seedHosts : List String → List (String × UInt16) → List (String × UInt16)
  | [], parsed => parsed
  | entry :: rest, parsed =>
      let (host, port) := splitHostport (String.ofList (trim entry.toList))
      if host.isEmpty then seedHosts rest parsed else seedHosts rest (pushHost parsed host port)

namespace PgTargetPolicy

section Build
-- `client_config`: whether a certificate store can be made of the file
variable (clientConfig : Option String → Except String Unit)

def fromHosts (hosts : List (String × UInt16)) (mode : PgTlsMode) (caFile : Option String) :
    Except String PgTargetPolicy :=
  if hosts.isEmpty then .ok ⟨hosts⟩
  else
    match mode with
    | .disable => .ok ⟨hosts⟩
    | .verifyFull => (clientConfig caFile).map fun _ => ⟨hosts⟩
    | .prefer => .ok ⟨hosts⟩

def build (rawHosts : String) (mode : PgTlsMode) (caFile : Option String) : Except String PgTargetPolicy := do
  let hosts ← parseHosts rawHosts
  fromHosts clientConfig hosts mode caFile

def seeded (hosts : List String) (mode : PgTlsMode) (caFile : Option String) : Except String PgTargetPolicy :=
  fromHosts clientConfig (seedHosts hosts []) mode caFile

end Build

def allows (policy : PgTargetPolicy) (hostport : String) : Bool :=
  let (host, port) := splitHostport hostport
  policy.hosts.any fun (allowed, allowedPort) => allowed == asciiLowercase host && allowedPort == port

def check (policy : PgTargetPolicy) (target : PgRoleTarget) : Except String Unit :=
  if target.hosts.isEmpty then .error "pg_replica target has no hosts"
  else if policy.hosts.isEmpty then .error "pg_replica targets are refused: VAULT_PG_TARGET_HOSTS is empty"
  else
    match target.hosts.find? fun hostport => !policy.allows hostport with
    | some hostport => .error ("pg_replica host '" ++ hostport ++ "' is not in VAULT_PG_TARGET_HOSTS")
    | none => .ok ()

end PgTargetPolicy

/-- The hosts of a secret's target. -/
def SecretRecord.targetHosts (secret : SecretRecord) : List String :=
  match secret.target with
  | some (.pgReplica pg) => pg.hosts
  | none => []

/-- Without a setting, a node starts with the hosts of the targets in its database. -/
def buildPgTargetPolicy (clientConfig : Option String → Except String Unit) (cfg : Config)
    (stored : List SecretRecord) : Except String PgTargetPolicy :=
  if !(trim cfg.pgTargetHosts.toList).isEmpty then
    (PgTargetPolicy.build clientConfig cfg.pgTargetHosts cfg.pgTargetTls cfg.pgTargetCaFile).mapError fun _ =>
      "VAULT_PG_TARGET_HOSTS / VAULT_PG_TARGET_TLS / VAULT_PG_TARGET_CA_FILE are invalid"
  else
    (PgTargetPolicy.seeded clientConfig (stored.flatMap SecretRecord.targetHosts) cfg.pgTargetTls
      cfg.pgTargetCaFile).mapError fun _ => "VAULT_PG_TARGET_TLS / VAULT_PG_TARGET_CA_FILE are invalid"

example : splitHostport "[::1]:6000" = ("::1", 6000) := by decide

end HyperionVault
