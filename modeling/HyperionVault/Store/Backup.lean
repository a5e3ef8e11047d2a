import HyperionVault.Store.Keys

/-!
# Backup and restore

`store/backup.rs`: a dump lists the rows of seven tables, a restore checks the keys of a backup and
then replaces those tables by its rows. Lockouts are in neither.

* `checkSecretRows` : the checks a restore makes before its first write;
* `restoreTables` : the checks and the writes, shared by the single-node and the replicated path;
* `restoreRows_eq` : emptying a table key by key and writing rows leaves exactly those rows.
-/

namespace HyperionVault
open Lib

def maxAuditKey : Nat := 2 ^ 52

def backupVersion : UInt32 := 1

def dumpDatabase (t : Tables) : BackupData where
  version := backupVersion
  secrets := t.secrets.rows
  versions := t.versions.rows
  roles := t.roles.rows
  tokens := t.tokens.rows
  tokensByName := t.tokensByName.rows
  audit := t.audit.rows
  kmsRewrap := t.kmsRewrap.rows

/-- The name and number of a version key that the write paths would have produced. -/
def isValidVersionKey (key : String) : Bool :=
  match splitVersionKey key with
  | some (name, version) => isValidSecretName name && isValidSecretVersion version
  | none => false

/-- A key that is accepted is the key of a valid name and version. -/
theorem exists_of_isValidVersionKey {key : String} (h : isValidVersionKey key = true) :
    ∃ name version, key = versionKey name version ∧ isValidSecretName name = true ∧ 1 ≤ version.toInt := by
  unfold isValidVersionKey at h
  cases hsplit : splitVersionKey key with
  | none => simp [hsplit] at h
  | some p =>
      obtain ⟨name, version⟩ := p
      simp only [hsplit, Bool.and_eq_true] at h
      exact ⟨name, version, (eq_versionKey_of_splitVersionKey hsplit).1, h.1, one_le_of_isValidSecretVersion h.2⟩

theorem isValidVersionKey_versionKey {name : String} {version : Int32} (hname : isValidSecretName name = true)
    (hversion : isValidSecretVersion version = true) : isValidVersionKey (versionKey name version) = true := by
  have hone := one_le_of_isValidSecretVersion hversion
  rw [isValidVersionKey, splitVersionKey_versionKey (nul_notMem_of_isValidSecretName hname) (by omega)]
  simp only [hname, hversion, Bool.and_self]

def checkSecretRows (data : BackupData) : Except String Unit :=
  match data.secrets.find? fun row => !isValidSecretName row.1 with
  | some row => .error ("backup holds an invalid secret name " ++ debugStr row.1)
  | none =>
      match data.versions.find? fun row => !isValidVersionKey row.1 with
      | some row => .error ("backup holds an invalid secret-version key " ++ debugStr row.1)
      | none =>
          match data.audit.find? fun row => maxAuditKey < row.1 with
          | some row =>
              .error ("backup holds an audit key " ++ toString row.1 ++ " above the maximum " ++ toString maxAuditKey)
          | none => .ok ()

theorem checkSecretRows_ok {data : BackupData} (h : checkSecretRows data = .ok ()) :
    (∀ row ∈ data.secrets, isValidSecretName row.1 = true) ∧
      (∀ row ∈ data.versions, isValidVersionKey row.1 = true) ∧ ∀ row ∈ data.audit, row.1 ≤ maxAuditKey := by
  unfold checkSecretRows at h
  cases hs : data.secrets.find? fun row => !isValidSecretName row.1 with
  | some row => simp [hs] at h
  | none =>
      cases hv : data.versions.find? fun row => !isValidVersionKey row.1 with
      | some row => simp [hs, hv] at h
      | none =>
          cases ha : data.audit.find? fun row => maxAuditKey < row.1 with
          | some row => simp [hs, hv, ha] at h
          | none =>
              exact ⟨by simpa using List.find?_eq_none.mp hs, by simpa using List.find?_eq_none.mp hv,
                by simpa using List.find?_eq_none.mp ha⟩

/-- Remove every key of the table, then write the rows in order (`restore_str`, `restore_bytes`,
`restore_u64`). -/
def restoreRows {K : Type} [LinearOrder K] (table : Table K Bytes) (rows : List (K × Bytes)) : Table K Bytes :=
  (table.removeAll table.keys).insertAll rows

theorem restoreRows_eq {K : Type} [LinearOrder K] (table : Table K Bytes) (rows : List (K × Bytes)) :
    restoreRows table rows = Table.ofRows rows := by
  rw [restoreRows, Table.removeAll_keys, Table.ofRows]

def restoreTables (data : BackupData) (t : Tables) : Except String Unit × Tables :=
  if data.version ≠ backupVersion then
    (.error ("unsupported backup version " ++ toString data.version ++ " (this build restores version " ++
      toString backupVersion ++ ")"), t)
  else
    match checkSecretRows data with
    | .error message => (.error message, t)
    | .ok () =>
        let t := { t with secrets := restoreRows t.secrets data.secrets }
        let t := { t with versions := restoreRows t.versions data.versions }
        let t := { t with roles := restoreRows t.roles data.roles }
        let t := { t with tokensByName := restoreRows t.tokensByName data.tokensByName }
        let t := { t with tokens := restoreRows t.tokens data.tokens }
        let t := { t with audit := restoreRows t.audit data.audit }
        let t := { t with kmsRewrap := restoreRows t.kmsRewrap data.kmsRewrap }
        (.ok (), t)

/-- Whether the restore writes the rows. -/
def BackupData.accepted (data : BackupData) : Bool :=
  data.version = backupVersion && (checkSecretRows data).isOk

theorem checkSecretRows_of_accepted {data : BackupData} (h : data.accepted = true) : checkSecretRows data = .ok () := by
  simp only [BackupData.accepted, Bool.and_eq_true] at h
  cases hr : checkSecretRows data with
  | ok u => rfl
  | error message =>
      rw [hr] at h
      cases h.2

/-- The tables a restore leaves: the backup's rows and the lockouts that were there. -/
def BackupData.tables (data : BackupData) (t : Tables) : Tables where
  secrets := .ofRows data.secrets
  versions := .ofRows data.versions
  roles := .ofRows data.roles
  tokens := .ofRows data.tokens
  tokensByName := .ofRows data.tokensByName
  lockouts := t.lockouts
  audit := .ofRows data.audit
  kmsRewrap := .ofRows data.kmsRewrap

theorem restoreTables_of_accepted {data : BackupData} (h : data.accepted = true) (t : Tables) :
    restoreTables data t = (.ok (), data.tables t) := by
  have hcheck := checkSecretRows_of_accepted h
  simp only [BackupData.accepted, Bool.and_eq_true, decide_eq_true_eq] at h
  unfold restoreTables
  rw [if_neg (not_not.mpr h.1), hcheck]
  simp only [restoreRows_eq, BackupData.tables]

/-- A refused restore has written nothing, and its message depends on the backup only. -/
theorem restoreTables_of_refused {data : BackupData} (h : data.accepted = false) :
    ∃ message, ∀ t, restoreTables data t = (.error message, t) := by
  by_cases hv : data.version = backupVersion
  · cases hr : checkSecretRows data with
    | error m =>
        refine ⟨m, fun t => ?_⟩
        unfold restoreTables
        rw [if_neg (not_not.mpr hv), hr]
    | ok u => simp [BackupData.accepted, hv, hr, Except.isOk, Except.toBool] at h
  · exact ⟨_, fun t => if_pos hv⟩

end HyperionVault
