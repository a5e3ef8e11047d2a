import HyperionVault.Raft.Model

/-!
# What a restore accepts, and what a dump gives back

`restore_tables` checks the rows of a backup one by one. A version row is accepted by the form of its key alone,
whether or not the backup has its secret.

* `BackupData.RowsPass` : the checks that are made, `restoreTables_cases`;
* `BackupData.WellFormed` : the backups that the documentation says are accepted, `BackupData.Owned` what is
  missing in the checks, `restores_wellFormed_iff` : when the two agree;
* `Db.dumpDatabase`, `Db.restoreDatabase` : dump and restore of a database file;
* `SortedLast`, `BackupData.SortedLast` : rows in key order, of several with one key the last;
* `dump_undoes_restore` : a dump after a restore, and restores after both.
-/

namespace HyperionVault
open Lib

/-! ## What is accepted -/

/-- The checks of a restore. -/
structure BackupData.RowsPass (data : BackupData) : Prop where
  version : data.version = backupVersion
  secrets : ∀ row ∈ data.secrets, isValidSecretName row.1 = true
  versions : ∀ row ∈ data.versions, isValidVersionKey row.1 = true
  audit : ∀ row ∈ data.audit, row.1 ≤ maxAuditKey

/-- The name in the key of each version row is that of a secret in the backup. -/
def BackupData.Owned (data : BackupData) : Prop :=
  ∀ row ∈ data.versions, ∀ name version, splitVersionKey row.1 = some (name, version) →
    ∃ owner ∈ data.secrets, owner.1 = name

/-- A supported version, valid names, versions of secrets in the backup, and plausible audit keys. -/
structure BackupData.WellFormed (data : BackupData) : Prop where
  version : data.version = backupVersion
  secrets : ∀ row ∈ data.secrets, isValidSecretName row.1 = true
  versions : ∀ row ∈ data.versions, ∃ owner ∈ data.secrets, ∃ number : Int32, 1 ≤ number ∧
    row.1 = versionKey owner.1 number
  audit : ∀ row ∈ data.audit, row.1 ≤ maxAuditKey

theorem checkSecretRows_eq_ok {data : BackupData} (hsecrets : ∀ row ∈ data.secrets, isValidSecretName row.1 = true)
    (hversions : ∀ row ∈ data.versions, isValidVersionKey row.1 = true)
    (haudit : ∀ row ∈ data.audit, row.1 ≤ maxAuditKey) : checkSecretRows data = .ok () := by
  have hs : data.secrets.find? (fun row => !isValidSecretName row.1) = none :=
    List.find?_eq_none.mpr fun row hrow => by simp [hsecrets row hrow]
  have hv : data.versions.find? (fun row => !isValidVersionKey row.1) = none :=
    List.find?_eq_none.mpr fun row hrow => by simp [hversions row hrow]
  have ha : data.audit.find? (fun row => maxAuditKey < row.1) = none :=
    List.find?_eq_none.mpr fun row hrow => by simpa using haudit row hrow
  unfold checkSecretRows
  rw [hs, hv, ha]

theorem accepted_iff {data : BackupData} : data.accepted = true ↔ data.RowsPass := by
  constructor
  · intro h
    obtain ⟨hsecrets, hversions, haudit⟩ := checkSecretRows_ok (checkSecretRows_of_accepted h)
    simp only [BackupData.accepted, Bool.and_eq_true, decide_eq_true_eq] at h
    exact ⟨h.1, hsecrets, hversions, haudit⟩
  · intro h
    simp only [BackupData.accepted, checkSecretRows_eq_ok h.secrets h.versions h.audit, h.version, Bool.and_eq_true,
      decide_eq_true_eq, true_and]
    rfl

/-- A restore writes the rows of the backup or nothing. -/
theorem restoreTables_cases (data : BackupData) (t : Tables) :
    data.RowsPass ∧ restoreTables data t = (.ok (), data.tables t) ∨
      ¬data.RowsPass ∧ ∃ message, restoreTables data t = (.error message, t) := by
  cases h : data.accepted with
  | true => exact Or.inl ⟨accepted_iff.mp h, restoreTables_of_accepted h t⟩
  | false =>
      obtain ⟨message, hrefused⟩ := restoreTables_of_refused h
      refine Or.inr ⟨fun hpass => ?_, message, hrefused t⟩
      rw [accepted_iff.mpr hpass] at h
      cases h

/-- What a restore should be: it accepts the well-formed backups, a refused one changes nothing, and after an
accepted one there is no version of a secret that does not exist. -/
def RestoresWellFormed (data : BackupData) (t : Tables) : Prop :=
  ((restoreTables data t).1 = .ok () ↔ data.WellFormed) ∧
    ((restoreTables data t).1 ≠ .ok () → (restoreTables data t).2 = t) ∧
    ((restoreTables data t).1 = .ok () → ∀ key, ((restoreTables data t).2.versions.get key).isSome →
      ∃ name number, key = versionKey name number ∧ ((restoreTables data t).2.secrets.get name).isSome)

section Accepted
variable {data : BackupData}

theorem BackupData.WellFormed.rowsPass (h : data.WellFormed) : data.RowsPass := by
  refine ⟨h.version, h.secrets, fun row hrow => ?_, h.audit⟩
  obtain ⟨owner, howner, number, hnumber, hkey⟩ := h.versions row hrow
  rw [hkey]
  exact isValidVersionKey_versionKey (h.secrets owner howner) (decide_eq_true hnumber)

/-- Rows that pass are well formed exactly when each version has its secret. -/
theorem BackupData.RowsPass.wellFormed_iff (h : data.RowsPass) : data.WellFormed ↔ data.Owned := by
  constructor
  · intro hwell row hrow name version hsplit
    obtain ⟨owner, howner, number, hnumber, hkey⟩ := hwell.versions row hrow
    have hone := Int32.le_iff_toInt_le.mp hnumber
    have hnul := nul_notMem_of_isValidSecretName (h.secrets owner howner)
    rw [hkey, splitVersionKey_versionKey hnul (le_trans (by decide) hone)] at hsplit
    cases hsplit
    exact ⟨owner, howner, rfl⟩
  · intro howned
    refine ⟨h.version, h.secrets, fun row hrow => ?_, h.audit⟩
    obtain ⟨name, number, hkey, hname, hone⟩ := exists_of_isValidVersionKey (h.versions row hrow)
    have hsplit := splitVersionKey_versionKey (nul_notMem_of_isValidSecretName hname) (show 0 ≤ number.toInt by omega)
    obtain ⟨owner, howner, rfl⟩ := howned row hrow name number (hkey ▸ hsplit)
    exact ⟨owner, howner, number, Int32.le_iff_toInt_le.mpr hone, hkey⟩

/-- The secret of each version of a well-formed backup is there after the restore. -/
theorem owner_restored (h : data.WellFormed) {t : Tables} {key : String}
    (hkey : ((data.tables t).versions.get key).isSome) :
    ∃ name number, key = versionKey name number ∧ ((data.tables t).secrets.get name).isSome := by
  obtain ⟨value, hvalue⟩ := Option.isSome_iff_exists.mp hkey
  have hlast : Table.lastRow key data.versions = some value := (Table.get_ofRows _ _).symm.trans hvalue
  obtain ⟨owner, howner, number, _, rfl⟩ :=
    h.versions (key, value) (List.mem_reverse.mp (Table.mem_of_getRows hlast))
  refine ⟨owner.1, number, rfl, ?_⟩
  change ((Table.ofRows data.secrets).get owner.1).isSome
  rw [Table.get_ofRows]
  exact Table.getRows_isSome_of_mem (List.mem_reverse.mpr howner)

end Accepted

/-- A restore is right for a backup unless the backup passes the checks and has a version of a secret that it
does not have. -/
theorem restores_wellFormed_iff (data : BackupData) (t : Tables) :
    RestoresWellFormed data t ↔ (data.RowsPass → data.Owned) := by
  unfold RestoresWellFormed
  rcases restoreTables_cases data t with ⟨hpass, hok⟩ | ⟨hfail, message, herror⟩
  · rw [hok, ← hpass.wellFormed_iff]
    constructor
    · rintro ⟨hiff, _⟩ _
      exact hiff.mp rfl
    · intro hwell
      exact ⟨⟨fun _ => hwell hpass, fun _ => rfl⟩, fun hne => absurd rfl hne, fun _ key hkey =>
        owner_restored (hwell hpass) hkey⟩
  · rw [herror]
    refine ⟨fun _ hpass => absurd hpass hfail, fun _ => ⟨⟨nofun, fun hwell => absurd hwell.rowsPass hfail⟩, fun _ => rfl,
      nofun⟩⟩

/-- A backup with a version and without its secret. -/
def orphanBackup : BackupData where
  version := backupVersion
  secrets := []
  versions := [(versionKey "a" 1, [])]
  roles := []
  tokens := []
  tokensByName := []
  audit := []
  kmsRewrap := []

/-- It is restored, and then there is a version of a secret that does not exist. -/
theorem orphan_version_restored :
    (restoreTables orphanBackup .empty).1 = .ok () ∧ ¬orphanBackup.WellFormed ∧
      ((restoreTables orphanBackup .empty).2.versions.get (versionKey "a" 1)).isSome ∧
      (restoreTables orphanBackup .empty).2.secrets = .empty := by
  have hkey : isValidVersionKey (versionKey "a" 1) = true := isValidVersionKey_versionKey (by decide) (by decide)
  have hpass : orphanBackup.RowsPass := by
    refine ⟨rfl, nofun, fun row hrow => ?_, nofun⟩
    obtain rfl := List.mem_singleton.mp hrow
    exact hkey
  have hok := restoreTables_of_accepted (accepted_iff.mpr hpass) .empty
  rw [hok]
  refine ⟨rfl, fun hwell => ?_, ?_, rfl⟩
  · obtain ⟨owner, howner, _⟩ := hwell.versions _ List.mem_cons_self
    cases howner
  · exact Option.isSome_iff_exists.mpr ⟨[], Table.get_insert_self _ _ _⟩

/-! ## Dump and restore of a database file -/

def Db.dumpDatabase (db : Db) : BackupData := HyperionVault.dumpDatabase db.tables

/-- A restore in a write transaction of its own, dropped on failure. -/
def Db.restoreDatabase (data : BackupData) (db : Db) : Except String Unit × Db :=
  match restoreTables data db.tables with
  | (.error message, _) => (.error message, db)
  | (.ok (), t) => (.ok (), { db with tables := t })

/-- The rows in the order of their keys, and of several rows with one key only the last. -/
def SortedLast {K : Type} [LinearOrder K] (rows out : List (K × Bytes)) : Prop :=
  out.Pairwise (fun a b => a.1 < b.1) ∧
    ∀ row, row ∈ out ↔ ∃ before after, rows = before ++ row :: after ∧ row.1 ∉ after.map Prod.fst

structure BackupData.SortedLast (data out : BackupData) : Prop where
  version : out.version = data.version
  secrets : HyperionVault.SortedLast data.secrets out.secrets
  versions : HyperionVault.SortedLast data.versions out.versions
  roles : HyperionVault.SortedLast data.roles out.roles
  tokens : HyperionVault.SortedLast data.tokens out.tokens
  tokensByName : HyperionVault.SortedLast data.tokensByName out.tokensByName
  audit : HyperionVault.SortedLast data.audit out.audit
  kmsRewrap : HyperionVault.SortedLast data.kmsRewrap out.kmsRewrap

theorem sortedLast_ofRows {K : Type} [LinearOrder K] (rows : List (K × Bytes)) :
    SortedLast rows (Table.ofRows rows).rows := by
  refine ⟨(Table.ofRows rows).sorted, fun row => ?_⟩
  rw [show row = (row.1, row.2) from rfl, Table.mem_rows, Table.get_ofRows]
  exact Table.lastRow_eq_some_iff

section Restored
variable {data : BackupData} {db db' : Db}

theorem Db.restoreDatabase_cases (data : BackupData) (db : Db) :
    data.RowsPass ∧ db.restoreDatabase data = (.ok (), { db with tables := data.tables db.tables }) ∨
      ∃ message, db.restoreDatabase data = (.error message, db) := by
  unfold Db.restoreDatabase
  rcases restoreTables_cases data db.tables with ⟨hpass, hok⟩ | ⟨_, message, herror⟩
  · rw [hok]
    exact Or.inl ⟨hpass, rfl⟩
  · rw [herror]
    exact Or.inr ⟨message, rfl⟩

theorem Db.restoreDatabase_of_rowsPass (h : data.RowsPass) (db : Db) :
    db.restoreDatabase data = (.ok (), { db with tables := data.tables db.tables }) := by
  unfold Db.restoreDatabase
  rw [restoreTables_of_accepted (accepted_iff.mpr h)]

/-- The rows of a dump are the tables. -/
theorem tables_dumpDatabase (t : Tables) : (dumpDatabase t).tables t = t := by
  simp only [BackupData.tables, dumpDatabase, Table.ofRows_rows]

theorem sortedLast_dump (h : data.RowsPass) (t : Tables) : data.SortedLast (dumpDatabase (data.tables t)) where
  version := h.version.symm
  secrets := sortedLast_ofRows _
  versions := sortedLast_ofRows _
  roles := sortedLast_ofRows _
  tokens := sortedLast_ofRows _
  tokensByName := sortedLast_ofRows _
  audit := sortedLast_ofRows _
  kmsRewrap := sortedLast_ofRows _

/-- Each row of the sorted list is one of the rows. -/
theorem SortedLast.mem {K : Type} [LinearOrder K] {rows out : List (K × Bytes)} (h : SortedLast rows out)
    {row : K × Bytes} (hrow : row ∈ out) : row ∈ rows := by
  obtain ⟨before, after, rfl, _⟩ := (h.2 row).mp hrow
  exact List.mem_append_right _ List.mem_cons_self

theorem BackupData.RowsPass.sortedLast (h : data.RowsPass) {out : BackupData} (hout : data.SortedLast out) :
    out.RowsPass where
  version := hout.version.trans h.version
  secrets row hrow := h.secrets row (hout.secrets.mem hrow)
  versions row hrow := h.versions row (hout.versions.mem hrow)
  audit row hrow := h.audit row (hout.audit.mem hrow)

/-- A database whose own rows pass is left as it is by a restore of its dump. -/
theorem Db.restoreDatabase_dumpDatabase (h : db.dumpDatabase.RowsPass) :
    db.restoreDatabase db.dumpDatabase = (.ok (), db) := by
  rw [Db.restoreDatabase_of_rowsPass h, Db.dumpDatabase, tables_dumpDatabase]

end Restored

/-- After a restore of `data` that is accepted, a dump gives back `data` in key order, with the last of several rows
for a key. A restore of `data` or of that dump then changes nothing. No restore, accepted or not, touches the
lockouts, the raft log or the raft metadata, and a restore of the dump of a database whose rows pass the checks
changes nothing. -/
theorem dump_undoes_restore (db db' : Db) (data : BackupData) (h : db.restoreDatabase data = (.ok (), db')) :
    data.SortedLast db'.dumpDatabase ∧ db'.restoreDatabase data = (.ok (), db') ∧
      db'.restoreDatabase db'.dumpDatabase = (.ok (), db') ∧
      (∀ (other : Db) (rows : BackupData), (other.restoreDatabase rows).2.tables.lockouts = other.tables.lockouts ∧
        (other.restoreDatabase rows).2.log = other.log ∧ (other.restoreDatabase rows).2.raftMeta = other.raftMeta) ∧
      ∀ other : Db, other.dumpDatabase.RowsPass → other.restoreDatabase other.dumpDatabase = (.ok (), other) := by
  rcases Db.restoreDatabase_cases data db with ⟨hpass, hok⟩ | ⟨message, herror⟩
  · obtain rfl : { db with tables := data.tables db.tables } = db' := congrArg Prod.snd (hok.symm.trans h)
    have hdump : data.SortedLast (dumpDatabase (data.tables db.tables)) := sortedLast_dump hpass db.tables
    refine ⟨hdump, Db.restoreDatabase_of_rowsPass hpass _, Db.restoreDatabase_dumpDatabase (hpass.sortedLast hdump),
      fun other rows => ?_, fun other hother => Db.restoreDatabase_dumpDatabase hother⟩
    rcases Db.restoreDatabase_cases rows other with ⟨_, hrows⟩ | ⟨_, hrows⟩
    · rw [hrows]
      exact ⟨rfl, rfl, rfl⟩
    · rw [hrows]
      exact ⟨rfl, rfl, rfl⟩
  · cases herror.symm.trans h

/-- Roles out of order, one of them twice. -/
def repeatedBackup : BackupData :=
  { orphanBackup with versions := [], roles := [("b", [1]), ("a", [2]), ("b", [3])] }

/-- It replaces the role `c` of a database. -/
theorem repeated_role_restored : ∃ db',
    Db.restoreDatabase repeatedBackup ⟨{ Tables.empty with roles := .ofRows [("c", [4])] }, .empty, .empty⟩ =
        (.ok (), db') ∧
      db'.dumpDatabase.roles = [("a", [2]), ("b", [3])] ∧ repeatedBackup.SortedLast db'.dumpDatabase ∧
      db'.restoreDatabase db'.dumpDatabase = (.ok (), db') := by
  have hpass : repeatedBackup.RowsPass := ⟨rfl, nofun, nofun, nofun⟩
  have hok := Db.restoreDatabase_of_rowsPass hpass ⟨{ Tables.empty with roles := .ofRows [("c", [4])] }, .empty, .empty⟩
  obtain ⟨hsorted, _, hagain, _⟩ := dump_undoes_restore _ _ _ hok
  exact ⟨_, hok, by decide, hsorted, hagain⟩

end HyperionVault
