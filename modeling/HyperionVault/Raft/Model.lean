import HyperionVault.Store.Engine

/-!
# The data of the raft store

The types of `raft/types.rs`, of openraft where `raft/store.rs` stores them, and the database they are
stored in: the data tables beside a log table and a table of raft metadata.

* `LogId`, `Entry`, `StoredMembership`, `Snapshot`, ... : what openraft hands to the store and back;
* `Db` : one database file, `RaftCodec` : the JSON encodings of the raft metadata;
* `readMeta`, `writeMeta` : one metadata row; a stored JSON `null` reads as absent;
* `Db.lastApplied`, `Db.membership` : the two rows the state machine keeps beside the data.
-/

namespace HyperionVault
open Lib

structure LeaderId where
  term : Nat
  nodeId : Nat
deriving DecidableEq

structure LogId where
  leaderId : LeaderId
  index : Nat
deriving DecidableEq

structure BasicNode where
  addr : String
deriving DecidableEq

structure Membership where
  configs : List (List Nat)
  nodes : List (Nat × BasicNode)
deriving DecidableEq

structure StoredMembership where
  logId : Option LogId
  membership : Membership
deriving DecidableEq

/-- The membership of a node that has seen none. -/
def StoredMembership.unset : StoredMembership where
  logId := none
  membership := ⟨[], []⟩

inductive EntryPayload where
  | blank
  | normal (command : Command)
  | membership (member : Membership)
deriving DecidableEq

structure Entry where
  logId : LogId
  payload : EntryPayload
deriving DecidableEq

inductive ApplyResult where
  | ok
  | notFound
  | conflict (message : String)
  | versionConflict
deriving DecidableEq

/-- What a failed call reports to openraft; the text of a failed decode is the JSON library's own. -/
inductive StorageError where
  | undecodable
  | write (message : String)
deriving DecidableEq

/-- The body of a snapshot: the rows of the replicated tables and the position they belong to. -/
structure SnapshotData where
  secrets : List (String × Bytes)
  versions : List (String × Bytes)
  roles : List (String × Bytes)
  tokens : List (Bytes × Bytes)
  tokensByName : List (String × Bytes)
  kmsRewrap : List (String × Bytes)
  lastApplied : Option LogId
  membership : StoredMembership
deriving DecidableEq

structure SnapshotMeta where
  lastLogId : Option LogId
  lastMembership : StoredMembership
  snapshotId : String
deriving DecidableEq

structure Snapshot where
  info : SnapshotMeta
  snapshot : Bytes
deriving DecidableEq

/-! ## The database -/

structure Db where
  tables : Tables
  log : Table Nat Bytes
  raftMeta : Table String Bytes
deriving DecidableEq

def metaPurged : String := "last_purged"
def metaApplied : String := "last_applied"
def metaMembership : String := "membership"
def metaSnapshot : String := "snapshot"

def maxPlausibleLogIndex : Nat := 2 ^ 52

/-- The bytes without the ASCII white space around them. -/
def trimAscii (bytes : Bytes) : Bytes :=
  let isSpace : UInt8 → Bool := fun b => b = 0x20 || b = 0x09 || b = 0x0a || b = 0x0c || b = 0x0d
  ((bytes.dropWhile isSpace).reverse.dropWhile isSpace).reverse

def isJsonNull (bytes : Bytes) : Bool := trimAscii bytes = utf8 "null"

/-- An encoding whose values are never stored as a JSON `null`. -/
structure MetaSerde (α : Type) extends Serde α where
  encode_notNull : ∀ a, isJsonNull (encode a) = false

/-- The JSON encodings of the raft metadata and openraft's way to print a leader id. -/
structure RaftCodec where
  logId : MetaSerde LogId
  membership : MetaSerde StoredMembership
  snapshotData : Serde SnapshotData
  snapshotBytes : MetaSerde Bytes
  showLeader : LeaderId → String

/-! ## Metadata rows -/

def readMeta {α : Type} (S : MetaSerde α) (key : String) (db : Db) : Except StorageError (Option α) :=
  match db.raftMeta.get key with
  | none => .ok none
  | some value =>
      if isJsonNull value then .ok none
      else
        match S.decode value with
        | none => .error .undecodable
        | some a => .ok (some a)

def writeMeta {α : Type} (S : MetaSerde α) (key : String) (a : α) (db : Db) : Db :=
  { db with raftMeta := db.raftMeta.insert key (S.encode a) }

section Rows
variable (R : RaftCodec)

def Db.lastApplied (db : Db) : Except StorageError (Option LogId) := readMeta R.logId metaApplied db

def Db.membership (db : Db) : Except StorageError StoredMembership :=
  match readMeta R.membership metaMembership db with
  | .error e => .error e
  | .ok none => .ok .unset
  | .ok (some m) => .ok m

end Rows

theorem readMeta_eq {α : Type} (S : MetaSerde α) {key : String} {db : Db} {a : α}
    (h : db.raftMeta.get key = some (S.encode a)) : readMeta S key db = .ok (some a) := by
  unfold readMeta
  rw [h]
  simp only [S.encode_notNull, Bool.false_eq_true, if_false, S.decode_encode]

theorem readMeta_none {α : Type} (S : MetaSerde α) {key : String} {db : Db} (h : db.raftMeta.get key = none) :
    readMeta S key db = .ok none := by
  unfold readMeta
  rw [h]

/-- A metadata row is read from the metadata table alone. -/
theorem readMeta_congr {α : Type} (S : MetaSerde α) {key : String} {db db' : Db}
    (h : db.raftMeta.get key = db'.raftMeta.get key) : readMeta S key db = readMeta S key db' := by
  unfold readMeta
  rw [h]

end HyperionVault
