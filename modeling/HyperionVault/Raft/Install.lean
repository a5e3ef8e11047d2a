import HyperionVault.Raft.Log
import HyperionVault.Raft.Snapshot
import HyperionVault.Store.Restore

/-!
# What `install_snapshot` leaves

A snapshot comes from another node. It is refused as a whole, with nothing written, or it replaces the replicated
tables, the position and the membership, and the part of the log that it covers.

* `SnapshotRefused` : the bodies and labels that are refused;
* `Installed` : the database after a snapshot that is not, with all that stays as it was;
* `installSnapshot_exact` : every call is one or the other.
-/

namespace HyperionVault
open Lib

/-- The body cannot be read, the position is not plausible, or a row has an invalid name or key. -/
def SnapshotRefused (R : RaftCodec) (info : SnapshotMeta) (body : Bytes) : Prop :=
  R.snapshotData.decode body = none ∨ (∃ last ∈ info.lastLogId, maxPlausibleLogIndex < last.index) ∨
    ∃ data, R.snapshotData.decode body = some data ∧ ((∃ row ∈ data.secrets, isValidSecretName row.1 = false) ∨
      ∃ row ∈ data.versions, isValidVersionKey row.1 = false)

/-- The replicated tables are the rows of the snapshot, of several with one key the last. The position and the
membership are those of its label, the entries up to the position are gone, and the rest is as it was. -/
structure Installed (R : RaftCodec) (info : SnapshotMeta) (data : SnapshotData) (db db' : Db) : Prop where
  secrets : SortedLast data.secrets db'.tables.secrets.rows
  versions : SortedLast data.versions db'.tables.versions.rows
  roles : SortedLast data.roles db'.tables.roles.rows
  tokens : SortedLast data.tokens db'.tables.tokens.rows
  tokensByName : SortedLast data.tokensByName db'.tables.tokensByName.rows
  kmsRewrap : SortedLast data.kmsRewrap db'.tables.kmsRewrap.rows
  membership : db'.raftMeta.get metaMembership = some (R.membership.encode info.lastMembership)
  applied : ∀ last ∈ info.lastLogId, db'.raftMeta.get metaApplied = some (R.logId.encode last)
  purged : ∀ last ∈ info.lastLogId, db'.raftMeta.get metaPurged = some (R.logId.encode last)
  log : ∀ index, db'.log.get index =
    if ∃ last ∈ info.lastLogId, index ≤ last.index then none else db.log.get index
  audit : db'.tables.audit = db.tables.audit
  lockouts : db'.tables.lockouts = db.tables.lockouts
  vote : db'.raftMeta.get metaVote = db.raftMeta.get metaVote

section Install
variable {R : RaftCodec} {info : SnapshotMeta} {data : SnapshotData} {db : Db}

theorem sortedLast_of_restoreRows {K : Type} [LinearOrder K] {table old : Table K Bytes} {rows : List (K × Bytes)}
    (h : table = restoreRows old rows) : SortedLast rows table.rows := by
  rw [h, restoreRows_eq]
  exact sortedLast_ofRows rows

theorem log_installPosition (last : Option LogId) (db : Db) : (installPosition R last db).log = db.log := by
  cases last <;> rfl

theorem get_removeCovered (last : Option LogId) (db : Db) (index : Nat) :
    (removeCovered last db).log.get index =
      if ∃ l ∈ last, index ≤ l.index then none else db.log.get index := by
  cases last with
  | none => simp [removeCovered]
  | some l =>
      have hget := db.log.get_removeWhere (· ≤ l.index) index
      simpa [removeCovered, Table.removeWhere] using hget

/-- What is written when nothing is refused. -/
theorem installed_of_writes (R : RaftCodec) (info : SnapshotMeta) (data : SnapshotData) (db : Db) :
    Installed R info data db (installedDb R info (data.restore db.tables) db) := by
  have htables := tables_installed (R := R) info (data.restore db.tables) db
  have hlog : (writeMeta R.membership metaMembership info.lastMembership
      (installPosition R info.lastLogId { db with tables := data.restore db.tables })).log = db.log :=
    log_installPosition _ _
  exact {
    secrets := sortedLast_of_restoreRows (congrArg Tables.secrets htables :)
    versions := sortedLast_of_restoreRows (congrArg Tables.versions htables :)
    roles := sortedLast_of_restoreRows (congrArg Tables.roles htables :)
    tokens := sortedLast_of_restoreRows (congrArg Tables.tokens htables :)
    tokensByName := sortedLast_of_restoreRows (congrArg Tables.tokensByName htables :)
    kmsRewrap := sortedLast_of_restoreRows (congrArg Tables.kmsRewrap htables :)
    membership := by
      rw [raftMeta_removeCovered]
      exact Table.get_insert_self _ _ _
    applied := fun last hlast => by
      rw [get_installed_applied, Option.mem_def.mp hlast]
      rfl
    purged := fun last hlast => by
      rw [raftMeta_removeCovered, Option.mem_def.mp hlast]
      exact (Table.get_insert_of_ne _ _ (by decide)).trans (Table.get_insert_self _ _ _)
    log := fun index => by rw [get_removeCovered, hlog]
    audit := (congrArg Tables.audit htables :)
    lockouts := (congrArg Tables.lockouts htables :)
    vote := by
      rw [raftMeta_removeCovered]
      exact (Table.get_insert_of_ne _ _ (by decide)).trans (get_installPosition_of_ne _ _ (by decide) (by decide)) }

end Install

/-- A snapshot that is refused changes nothing; any other is taken over row by row. -/
theorem installSnapshot_exact (R : RaftCodec) (info : SnapshotMeta) (body : Bytes) (db : Db) :
    (SnapshotRefused R info body → ∃ e, StateMachine.installSnapshot R info body db = (.error e, db)) ∧
      (¬SnapshotRefused R info body → ∃ data db', R.snapshotData.decode body = some data ∧
        StateMachine.installSnapshot R info body db = (.ok (), db') ∧ Installed R info data db db') := by
  rcases installSnapshot_cases (R := R) info body db with ⟨e, he⟩ | ⟨data, hdata, hmeta, hrows, hok⟩
  · refine ⟨fun _ => ⟨e, he⟩, fun hnot => ?_⟩
    unfold SnapshotRefused at hnot
    push Not at hnot
    obtain ⟨hdecode, hplausible, hvalid⟩ := hnot
    obtain ⟨data, hdata⟩ := Option.ne_none_iff_exists'.mp hdecode
    obtain ⟨hsecrets, hversions⟩ := hvalid data hdata
    have hmeta : checkSnapshotMeta info = .ok () := checkSnapshotMeta_ok_iff.mpr hplausible
    have hrows : checkSnapshotRows data = .ok () := checkSnapshotRows_ok_iff.mpr
      ⟨fun row hrow => by simpa using hsecrets row hrow, fun row hrow => by simpa using hversions row hrow⟩
    simp [StateMachine.installSnapshot, hdata, hmeta, hrows] at he
  · refine ⟨fun hrefused => ?_, fun _ => ⟨data, _, hdata, hok, installed_of_writes R info data db⟩⟩
    have hplausible := checkSnapshotMeta_ok_iff.mp hmeta
    obtain ⟨hsecrets, hversions⟩ := checkSnapshotRows_ok_iff.mp hrows
    rcases hrefused with hnone | ⟨last, hlast, hindex⟩ | ⟨other, hother, ⟨row, hrow, hname⟩ | ⟨row, hrow, hkey⟩⟩
    · cases hdata.symm.trans hnone
    · have hle := hplausible last hlast
      omega
    · cases hdata.symm.trans hother
      cases (hsecrets row hrow).symm.trans hname
    · cases hdata.symm.trans hother
      cases (hversions row hrow).symm.trans hkey

end HyperionVault
