import HyperionVault.Raft.Model

/-!
# The raft state machine

`StateMachine` of `raft/store.rs`: applying committed entries, building, installing and reading back a
snapshot.

* `applyEntry`, `applyEntries` : the loop over a batch inside its one write transaction;
* `StateMachine.apply` : the batch and the metadata written with it, or nothing;
* `assembleSnapshot`, `storeSnapshot` : what `build_snapshot` makes of its three reads;
  `StateMachine.buildSnapshot` makes them all on one state;
* `StateMachine.installSnapshot`, `StateMachine.getCurrentSnapshot`.
-/

namespace HyperionVault
open Lib

/-! ## Applying entries -/

/-- What the transaction of a batch has gathered so far. -/
structure Batch where
  tables : Tables
  lastApplied : Option LogId
  membership : Option StoredMembership
  results : List ApplyResult
deriving DecidableEq

def Batch.begin_ (t : Tables) : Batch where
  tables := t
  lastApplied := none
  membership := none
  results := []

/-- The reply to a command; an internal error has none. -/
def ApplyResult.ofOutcome : StoreResult Unit → Except StorageError ApplyResult
  | .ok () => .ok .ok
  | .error .notFound => .ok .notFound
  | .error (.conflict message) => .ok (.conflict message)
  | .error .versionConflict => .ok .versionConflict
  | .error (.internal message) => .error (.write message)

section Apply
variable (C : Codec) (R : RaftCodec) (nodeId : Nat)

def applyEntry (entry : Entry) (b : Batch) : Except StorageError Batch :=
  let b := { b with lastApplied := some entry.logId }
  match entry.payload with
  | .blank => .ok { b with results := b.results ++ [.ok] }
  | .normal command =>
      -- whatever a refused command has written stays in the transaction
      let (outcome, t) := applyCommand C nodeId command b.tables
      match ApplyResult.ofOutcome outcome with
      | .error e => .error e
      | .ok result => .ok { b with tables := t, results := b.results ++ [result] }
  | .membership member =>
      .ok { b with membership := some ⟨some entry.logId, member⟩, results := b.results ++ [.ok] }

def applyEntries : List Entry → Batch → Except StorageError Batch
  | [], b => .ok b
  | entry :: entries, b =>
      match applyEntry C nodeId entry b with
      | .error e => .error e
      | .ok b => applyEntries entries b

/-- The metadata written with a batch. -/
def Batch.writeMeta (b : Batch) (db : Db) : Db :=
  match b.lastApplied with
  | none => db
  | some logId =>
      let db := HyperionVault.writeMeta R.logId metaApplied logId db
      match b.membership with
      | none => db
      | some m => HyperionVault.writeMeta R.membership metaMembership m db

/-- A batch in one write transaction, committed unless a command fails internally. -/
def StateMachine.apply (entries : List Entry) (db : Db) : Except StorageError (List ApplyResult) × Db :=
  match applyEntries C nodeId entries (.begin_ db.tables) with
  | .error e => (.error e, db)
  | .ok b => (.ok b.results, b.writeMeta R { db with tables := b.tables })

end Apply

/-! ## What a batch leaves in the metadata -/

/-- The metadata rows that entries leave, the older ones where they bring none. -/
def rowAfter {α : Type} (new : Option α) (old : Except StorageError (Option α)) : Except StorageError (Option α) :=
  match new with
  | some a => .ok (some a)
  | none => old

theorem rowAfter_or {α : Type} (a b : Option α) (old : Except StorageError (Option α)) :
    rowAfter (a.or b) old = rowAfter a (rowAfter b old) := by
  cases a <;> rfl

section Metadata
variable {C : Codec} {R : RaftCodec} {nodeId : Nat}

theorem lastApplied_writeMeta (b : Batch) (db : Db) :
    (b.writeMeta R db).lastApplied R = rowAfter b.lastApplied (db.lastApplied R) := by
  unfold Batch.writeMeta Db.lastApplied
  cases b.lastApplied with
  | none => rfl
  | some logId =>
      apply readMeta_eq
      cases b.membership with
      | none => exact Table.get_insert_self _ _ _
      | some m => exact (Table.get_insert_of_ne _ _ (by decide)).trans (Table.get_insert_self _ _ _)

theorem membership_writeMeta (b : Batch) (db : Db) (h : b.lastApplied = none → b.membership = none) :
    readMeta R.membership metaMembership (b.writeMeta R db) =
      rowAfter b.membership (readMeta R.membership metaMembership db) := by
  unfold Batch.writeMeta
  cases hl : b.lastApplied with
  | none =>
      rw [h hl]
      rfl
  | some logId =>
      cases b.membership with
      | none => exact readMeta_congr _ (Table.get_insert_of_ne _ _ (by decide))
      | some m => exact readMeta_eq _ (Table.get_insert_self _ _ _)

theorem tables_writeMeta (b : Batch) (db : Db) : (b.writeMeta R db).tables = db.tables := by
  unfold Batch.writeMeta
  cases b.lastApplied with
  | none => rfl
  | some logId => cases b.membership <;> rfl

theorem get_writeMeta_of_ne (b : Batch) (db : Db) {key : String} (ha : metaApplied ≠ key) (hm : metaMembership ≠ key) :
    (b.writeMeta R db).raftMeta.get key = db.raftMeta.get key := by
  unfold Batch.writeMeta
  cases b.lastApplied with
  | none => rfl
  | some logId =>
      cases b.membership with
      | none => exact Table.get_insert_of_ne _ _ ha
      | some m => exact (Table.get_insert_of_ne _ _ hm).trans (Table.get_insert_of_ne _ _ ha)

theorem applyEntries_append (es fs : List Entry) (b : Batch) :
    applyEntries C nodeId (es ++ fs) b =
      match applyEntries C nodeId es b with
      | .error e => .error e
      | .ok b => applyEntries C nodeId fs b := by
  induction es generalizing b with
  | nil => rfl
  | cons entry es ih =>
      rw [List.cons_append, applyEntries, applyEntries]
      cases applyEntry C nodeId entry b with
      | error e => rfl
      | ok b => exact ih b

theorem lastApplied_applyEntry {entry : Entry} {b b' : Batch} (h : applyEntry C nodeId entry b = .ok b') :
    b'.lastApplied = some entry.logId := by
  unfold applyEntry at h
  dsimp only at h
  split at h
  · cases h
    rfl
  · split at h
    · cases h
    · cases h
      rfl
  · cases h
    rfl

/-- The position after a committed batch is its last entry. -/
theorem lastApplied_applyEntries {before : List Entry} {entry : Entry} {b b' : Batch}
    (h : applyEntries C nodeId (before ++ [entry]) b = .ok b') : b'.lastApplied = some entry.logId := by
  rw [applyEntries_append] at h
  split at h
  · cases h
  · rename_i b₁ _
    unfold applyEntries at h
    split at h
    · cases h
    · rename_i b₂ h₂
      cases h
      exact lastApplied_applyEntry h₂

end Metadata

/-! ## Building a snapshot -/

section Snapshots
variable (R : RaftCodec)

def StateMachine.appliedState (db : Db) : Except StorageError (Option LogId × StoredMembership) :=
  match db.lastApplied R with
  | .error e => .error e
  | .ok lastApplied =>
      match db.membership R with
      | .error e => .error e
      | .ok membership => .ok (lastApplied, membership)

def snapshotData (lastApplied : Option LogId) (membership : StoredMembership) (t : Replicated) : SnapshotData where
  secrets := t.secrets.rows
  versions := t.versions.rows
  roles := t.roles.rows
  tokens := t.tokens.rows
  tokensByName := t.tokensByName.rows
  kmsRewrap := t.kmsRewrap.rows
  lastApplied := lastApplied
  membership := membership

def snapshotId (lastApplied : Option LogId) : String :=
  match lastApplied with
  | some logId => R.showLeader logId.leaderId ++ "-" ++ toString logId.index
  | none => "empty"

/-- The snapshot of what the three reads have returned. -/
def assembleSnapshot (lastApplied : Option LogId) (membership : StoredMembership) (t : Replicated) : Snapshot where
  info := { lastLogId := lastApplied, lastMembership := membership, snapshotId := snapshotId R lastApplied }
  snapshot := R.snapshotData.encode (snapshotData lastApplied membership t)

/-- Keep the bytes of the last snapshot built. -/
def storeSnapshot (snapshot : Snapshot) (db : Db) : Db :=
  writeMeta R.snapshotBytes metaSnapshot snapshot.snapshot db

/-- `build_snapshot` with nothing committed between its reads. -/
def StateMachine.buildSnapshot (db : Db) : Except StorageError Snapshot × Db :=
  match db.lastApplied R with
  | .error e => (.error e, db)
  | .ok lastApplied =>
      match db.membership R with
      | .error e => (.error e, db)
      | .ok membership =>
          let snapshot := assembleSnapshot R lastApplied membership db.tables.replicated
          (.ok snapshot, storeSnapshot R snapshot db)

/-! ## Installing and reading back a snapshot -/

def checkSnapshotMeta (info : SnapshotMeta) : Except StorageError Unit :=
  match info.lastLogId with
  | none => .ok ()
  | some last =>
      if maxPlausibleLogIndex < last.index then
        .error (.write ("snapshot last_log_id index " ++ toString last.index ++ " is above the plausible maximum " ++
          toString maxPlausibleLogIndex))
      else .ok ()

def checkSnapshotRows (data : SnapshotData) : Except StorageError Unit :=
  match data.secrets.find? fun row => !isValidSecretName row.1 with
  | some row => .error (.write ("snapshot holds an invalid secret name " ++ debugStr row.1))
  | none =>
      match data.versions.find? fun row => !isValidVersionKey row.1 with
      | some row => .error (.write ("snapshot holds an invalid secret-version key " ++ debugStr row.1))
      | none => .ok ()

theorem checkSnapshotMeta_ok_iff {info : SnapshotMeta} : checkSnapshotMeta info = .ok () ↔
    ∀ last ∈ info.lastLogId, last.index ≤ maxPlausibleLogIndex := by
  unfold checkSnapshotMeta
  cases info.lastLogId with
  | none => simp
  | some last =>
      dsimp only
      split_ifs with hindex
      · refine ⟨nofun, fun h => ?_⟩
        have hle := h last rfl
        omega
      · refine ⟨fun _ other hother => ?_, fun _ => rfl⟩
        cases hother
        omega

theorem checkSnapshotRows_ok_iff {data : SnapshotData} : checkSnapshotRows data = .ok () ↔
    (∀ row ∈ data.secrets, isValidSecretName row.1 = true) ∧ ∀ row ∈ data.versions, isValidVersionKey row.1 = true := by
  unfold checkSnapshotRows
  split
  · rename_i row hfound
    refine ⟨nofun, fun h => ?_⟩
    have hrow := List.find?_some hfound
    rw [h.1 row (List.mem_of_find?_eq_some hfound)] at hrow
    cases hrow
  · rename_i hsecrets
    split
    · rename_i row hfound
      refine ⟨nofun, fun h => ?_⟩
      have hrow := List.find?_some hfound
      rw [h.2 row (List.mem_of_find?_eq_some hfound)] at hrow
      cases hrow
    · rename_i hversions
      refine ⟨fun _ => ?_, fun _ => rfl⟩
      simpa using And.intro (List.find?_eq_none.mp hsecrets) (List.find?_eq_none.mp hversions)

/-- The replicated tables replaced by the rows of a snapshot, one after the other. -/
def SnapshotData.restore (data : SnapshotData) (t : Tables) : Tables :=
  let t := { t with secrets := restoreRows t.secrets data.secrets }
  let t := { t with versions := restoreRows t.versions data.versions }
  let t := { t with roles := restoreRows t.roles data.roles }
  let t := { t with tokensByName := restoreRows t.tokensByName data.tokensByName }
  let t := { t with kmsRewrap := restoreRows t.kmsRewrap data.kmsRewrap }
  { t with tokens := restoreRows t.tokens data.tokens }

/-- The position an installed snapshot brings, and the log it covers. -/
def installPosition (lastLogId : Option LogId) (db : Db) : Db :=
  match lastLogId with
  | none => { db with raftMeta := db.raftMeta.remove metaApplied }
  | some last => writeMeta R.logId metaPurged last (writeMeta R.logId metaApplied last db)

def removeCovered (lastLogId : Option LogId) (db : Db) : Db :=
  match lastLogId with
  | none => db
  | some last => { db with log := db.log.removeAll (db.log.keys.filter (· ≤ last.index)) }

def StateMachine.installSnapshot (info : SnapshotMeta) (snapshot : Bytes) (db : Db) :
    Except StorageError Unit × Db :=
  match R.snapshotData.decode snapshot with
  | none => (.error .undecodable, db)
  | some data =>
      match checkSnapshotMeta info with
      | .error e => (.error e, db)
      | .ok () =>
          match checkSnapshotRows data with
          | .error e => (.error e, db)
          | .ok () =>
              let db := { db with tables := data.restore db.tables }
              let db := installPosition R info.lastLogId db
              let db := writeMeta R.membership metaMembership info.lastMembership db
              (.ok (), removeCovered info.lastLogId db)

/-- The bytes are those of the last snapshot built, the label is that of the present state. -/
def StateMachine.getCurrentSnapshot (db : Db) : Except StorageError (Option Snapshot) :=
  match readMeta R.snapshotBytes metaSnapshot db with
  | .error e => .error e
  | .ok none => .ok none
  | .ok (some bytes) =>
      match db.lastApplied R with
      | .error e => .error e
      | .ok lastApplied =>
          match db.membership R with
          | .error e => .error e
          | .ok membership =>
              .ok (some
                { info := { lastLogId := lastApplied, lastMembership := membership,
                            snapshotId := snapshotId R lastApplied }
                  snapshot := bytes })

end Snapshots

end HyperionVault
