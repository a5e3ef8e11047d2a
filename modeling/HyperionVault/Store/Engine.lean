import HyperionVault.Store.Apply

/-!
# The single-node store

`RedbStore` of `store/engine.rs`: a command runs in a write transaction of its own, which is committed
when the command succeeds and dropped when it fails; a read sees the committed tables.

* `RedbStore.apply` : one command in its own transaction;
* `RedbStore.secret`, `currentVersion`, `liveVersions`, `role`, `tokenByFingerprint`, ... : the reads of the service;
* `RedbStore.seedAdminRole` : the one row a fresh database starts with.
-/

namespace HyperionVault
open Lib

namespace RedbStore
variable (C : Codec)

/-- One command in a write transaction of its own, dropped on failure. -/
def apply (nodeId : Nat) (command : Command) (t : Tables) : StoreResult Unit × Tables :=
  match applyCommand C nodeId command t with
  | (.error e, _) => (.error e, t)
  | (.ok (), t') => (.ok (), t')

def adminRole : RoleRecord where
  name := "admin"
  description := some "Full superuser access to all secrets and administration"
  isAdmin := true
  permissions := []
  createdAt := 0

def seedAdminRole (t : Tables) : Tables :=
  if (t.roles.get "admin").isSome then t
  else { t with roles := t.roles.insert "admin" (C.role.encode adminRole) }

/-! ## Reads -/

/-- The record stored under a key, if there is one. -/
def lookup {K α : Type} [LinearOrder K] (S : Serde α) (table : Table K Bytes) (key : K) : StoreResult (Option α) :=
  match table.get key with
  | none => .ok none
  | some value =>
      match decodeRow S value with
      | .error e => .error e
      | .ok a => .ok (some a)

def secret (name : String) (t : Tables) : StoreResult (Option SecretRecord) := lookup C.secret t.secrets name

def version (name : String) (number : Int32) (t : Tables) : StoreResult (Option VersionRecord) :=
  lookup C.version t.versions (versionKey name number)

/-- The records of all rows, in key order. -/
def allRows {K α : Type} (S : Serde α) : List (K × Bytes) → StoreResult (List α)
  | [] => .ok []
  | (_, value) :: rest =>
      match decodeRow S value with
      | .error e => .error e
      | .ok a =>
          match allRows S rest with
          | .error e => .error e
          | .ok out => .ok (a :: out)

def listSecrets (t : Tables) : StoreResult (List SecretRecord) :=
  match allRows C.secret t.secrets.rows with
  | .error e => .error e
  | .ok out => .ok (out.mergeSort fun a b => a.name ≤ b.name)

def currentVersion (name : String) (t : Tables) : StoreResult (Option (SecretRecord × VersionRecord)) :=
  match secret C name t with
  | .error e => .error e
  | .ok none => .ok none
  | .ok (some s) =>
      match version C name s.currentVersion t with
      | .error e => .error e
      | .ok none => .ok none
      | .ok (some v) => .ok (some (s, v))

/-- The unexpired records among the rows in a scan that are versions of `name`. -/
def liveRows (name : String) (now : Int64) : List (String × Bytes) → StoreResult (List VersionRecord)
  | [] => .ok []
  | (key, value) :: rest =>
      if (versionFromKey name key).isNone then liveRows name now rest
      else
        match decodeRow C.version value with
        | .error e => .error e
        | .ok record =>
            match liveRows name now rest with
            | .error e => .error e
            | .ok out => .ok (if record.expiresAt.all (now < ·) then record :: out else out)

def liveVersions (name : String) (now : Int64) (t : Tables) : StoreResult (List VersionRecord) :=
  match liveRows C name now
      (t.versions.rows.filter fun row => versionLower name ≤ row.1 && row.1 < versionUpper name) with
  | .error e => .error e
  | .ok out => .ok (out.mergeSort fun a b => b.version ≤ a.version)

/-- The records that are due for rotation; every row is decoded. -/
def dueRows (now : Int64) : List (String × Bytes) → StoreResult (List SecretRecord)
  | [] => .ok []
  | (_, value) :: rest =>
      match decodeRow C.secret value with
      | .error e => .error e
      | .ok record =>
          match dueRows now rest with
          | .error e => .error e
          | .ok out => .ok (if record.nextRotationAt.any (· ≤ now) then record :: out else out)

def dueRotations (now : Int64) (t : Tables) : StoreResult (List SecretRecord) := dueRows C now t.secrets.rows

def role (name : String) (t : Tables) : StoreResult (Option RoleRecord) := lookup C.role t.roles name

def listRoles (t : Tables) : StoreResult (List RoleRecord) :=
  match allRows C.role t.roles.rows with
  | .error e => .error e
  | .ok out => .ok (out.mergeSort fun a b => a.name ≤ b.name)

def tokenByFingerprint (fingerprint : Bytes) (t : Tables) : StoreResult (Option TokenRecord) :=
  lookup C.token t.tokens fingerprint

def listTokens (t : Tables) : StoreResult (List TokenRecord) :=
  match allRows C.token t.tokens.rows with
  | .error e => .error e
  | .ok out => .ok (out.mergeSort fun a b => a.name ≤ b.name)

def lockout (key : String) (t : Tables) : StoreResult (Option LockoutRecord) := lookup C.lockout t.lockouts key

def kmsRewrapState (t : Tables) : StoreResult (Option KmsRewrapState) :=
  lookup C.kmsRewrap t.kmsRewrap kmsRewrapStateKey

end RedbStore

/-- The tables after one more command, in a transaction of its own. -/
def storeStep (C : Codec) (nodeId : Nat) (t : Tables) (command : Command) : Tables :=
  (RedbStore.apply C nodeId command t).2

end HyperionVault
