import HyperionVault.Lib.Run
import HyperionVault.Raft.Json
import HyperionVault.Raft.StateMachine

/-!
# Snapshots and their labels

A snapshot is faithful when its rows are the replicated tables as they were right after the entry it is
labelled with, and its membership the one of that entry. `build_snapshot` stores the bytes of what it
built; `get_current_snapshot` returns those bytes under the label of the state at that later time.

* `History` : the tables and the membership right after each entry, `Faithful` : agreement with it;
* `SmEvent`, `smStep` : runs of the state machine, `Follows` : runs that have a given history;
* `currentSnapshot_faithful_iff` : the snapshot returned is faithful exactly while the tables are still
  those it was built from;
* `current_snapshots_faithful_iff` : the runs in which that is always so.
-/

namespace HyperionVault
open Lib

/-- The replicated tables and the membership right after an entry; before the first one, under `none`. -/
abbrev History := Option LogId → Replicated × StoredMembership

/-- The tables that installing the snapshot would leave. -/
def SnapshotData.tables (data : SnapshotData) : Replicated where
  secrets := .ofRows data.secrets
  versions := .ofRows data.versions
  roles := .ofRows data.roles
  tokens := .ofRows data.tokens
  tokensByName := .ofRows data.tokensByName
  kmsRewrap := .ofRows data.kmsRewrap

theorem tables_snapshotData (a : Option LogId) (m : StoredMembership) (t : Replicated) :
    (snapshotData a m t).tables = t := by
  simp only [SnapshotData.tables, snapshotData, Table.ofRows_rows]

theorem replicated_restore (data : SnapshotData) (t : Tables) : (data.restore t).replicated = data.tables := by
  simp only [SnapshotData.restore, Tables.replicated, SnapshotData.tables, restoreRows_eq]

def Faithful (R : RaftCodec) (H : History) (s : Snapshot) : Prop :=
  ∃ data, R.snapshotData.decode s.snapshot = some data ∧ data.tables = (H s.info.lastLogId).1 ∧
    s.info.lastMembership = (H s.info.lastLogId).2

/-- The rows of a snapshot under any label. -/
theorem faithful_assembled_iff {R : RaftCodec} {H : History} {info : SnapshotMeta} {a : Option LogId}
    {m : StoredMembership} {t : Replicated} :
    Faithful R H ⟨info, (assembleSnapshot R a m t).snapshot⟩ ↔
      t = (H info.lastLogId).1 ∧ info.lastMembership = (H info.lastLogId).2 := by
  unfold Faithful assembleSnapshot
  dsimp only
  rw [R.snapshotData.decode_encode]
  constructor
  · rintro ⟨data, hdata, htables, hmember⟩
    cases hdata
    rw [tables_snapshotData] at htables
    exact ⟨htables, hmember⟩
  · rintro ⟨htables, hmember⟩
    exact ⟨_, rfl, (tables_snapshotData a m t).trans htables, hmember⟩

/-- A snapshot under the label it was built with. -/
theorem faithful_assembleSnapshot_iff {R : RaftCodec} {H : History} {a : Option LogId} {m : StoredMembership}
    {t : Replicated} : Faithful R H (assembleSnapshot R a m t) ↔ t = (H a).1 ∧ m = (H a).2 :=
  faithful_assembled_iff

/-! ## Runs -/

inductive SmEvent where
  | apply (entries : List Entry)
  | build
  | install (snapshot : Snapshot)

section Runs
variable (C : Codec) (R : RaftCodec) (nodeId : Nat)

def smStep (db : Db) : SmEvent → Db
  | .apply entries => (StateMachine.apply C R nodeId entries db).2
  | .build => (StateMachine.buildSnapshot R db).2
  | .install s => (StateMachine.installSnapshot R s.info s.snapshot db).2

/-- A committed batch has the history `H`: it records what the machine had right after each entry. -/
def BatchFollows (H : History) (entries : List Entry) (db : Db) : Prop :=
  ∀ m committed, db.membership R = .ok m → applyEntries C nodeId entries (.begin_ db.tables) = .ok committed →
    ∀ before entry after b, entries = before ++ entry :: after →
      applyEntries C nodeId (before ++ [entry]) (.begin_ db.tables) = .ok b →
      H (some entry.logId) = (b.tables.replicated, b.membership.getD m)

/-- The step has the history `H`; a snapshot that is installed is faithful to it. -/
def Follows (H : History) (db : Db) : SmEvent → Prop
  | .apply entries => BatchFollows C R nodeId H entries db
  | .build => True
  | .install s => Faithful R H s

/-- The tables in the snapshot that is stored, if there is one. -/
def storedTables (db : Db) : Option Replicated :=
  match readMeta R.snapshotBytes metaSnapshot db with
  | .ok (some bytes) => (R.snapshotData.decode bytes).map SnapshotData.tables
  | _ => none

/-- The step leaves the tables alone while a snapshot is stored, unless it stores a new one. -/
def KeepsSnapshotCurrent (db : Db) : SmEvent → Prop
  | .build => True
  | e => (storedTables R db).isSome → (smStep C R nodeId db e).tables.replicated = db.tables.replicated

/-- The metadata is readable and the database is where the history has it. -/
def Positioned (H : History) (db : Db) : Prop :=
  ∃ a m, db.lastApplied R = .ok a ∧ db.membership R = .ok m ∧ H a = (db.tables.replicated, m)

/-- The database is where the history has it, and a snapshot that is stored decodes. -/
structure AtPosition (H : History) (db : Db) : Prop where
  position : Positioned R H db
  stored : readMeta R.snapshotBytes metaSnapshot db = .ok none ∨
    ∃ data, readMeta R.snapshotBytes metaSnapshot db = .ok (some (R.snapshotData.encode data))

end Runs

/-! ## Steps keep the position -/

section Steps
variable {C : Codec} {R : RaftCodec} {nodeId : Nat} {H : History} {db : Db}

theorem Db.membership_of_readMeta {m : StoredMembership}
    (h : readMeta R.membership metaMembership db = .ok (some m)) : db.membership R = .ok m := by
  unfold Db.membership
  rw [h]

/-- A batch is dropped, or empty, or leaves the state after its last entry. -/
theorem apply_cases (entries : List Entry) (db : Db) :
    (StateMachine.apply C R nodeId entries db).2 = db ∨
    ∃ before entry b, entries = before ++ [entry] ∧
      applyEntries C nodeId entries (.begin_ db.tables) = .ok b ∧ b.lastApplied = some entry.logId ∧
      (StateMachine.apply C R nodeId entries db).2 = b.writeMeta R { db with tables := b.tables } := by
  unfold StateMachine.apply
  cases hb : applyEntries C nodeId entries (.begin_ db.tables) with
  | error e => exact Or.inl rfl
  | ok b =>
      rcases List.eq_nil_or_concat entries with rfl | ⟨before, entry, rfl⟩
      · cases hb
        exact Or.inl rfl
      · rw [List.concat_eq_append] at hb ⊢
        exact Or.inr ⟨before, entry, b, rfl, rfl, lastApplied_applyEntries hb, rfl⟩

/-- The membership in force after a committed batch. -/
theorem membership_apply {b : Batch} {m : StoredMembership} (hm : db.membership R = .ok m)
    {logId : LogId} (hl : b.lastApplied = some logId) :
    (b.writeMeta R { db with tables := b.tables }).membership R = .ok (b.membership.getD m) := by
  have hrow := membership_writeMeta (R := R) b { db with tables := b.tables } (by rw [hl]; intro h; cases h)
  cases hb : b.membership with
  | some m' =>
      rw [hb] at hrow
      exact Db.membership_of_readMeta hrow
  | none =>
      rw [hb] at hrow
      unfold Db.membership
      rw [hrow]
      exact hm

theorem snapshotRow_apply (entries : List Entry) :
    readMeta R.snapshotBytes metaSnapshot (StateMachine.apply C R nodeId entries db).2 =
      readMeta R.snapshotBytes metaSnapshot db := by
  rcases apply_cases (C := C) (R := R) entries db with he | ⟨_, _, b, _, _, _, hdb⟩
  · rw [he]
  · rw [hdb]
    exact readMeta_congr _ (get_writeMeta_of_ne b _ (by decide) (by decide))

theorem positioned_apply (h : Positioned R H db) {entries : List Entry}
    (hf : BatchFollows C R nodeId H entries db) :
    Positioned R H (StateMachine.apply C R nodeId entries db).2 := by
  rcases apply_cases (C := C) (R := R) entries db with he | ⟨before, entry, b, he, hb, hl, hdb⟩
  · rw [he]
    exact h
  · obtain ⟨a, m, _, hm, _⟩ := h
    rw [hdb]
    refine ⟨some entry.logId, b.membership.getD m, ?_, membership_apply hm hl, ?_⟩
    · rw [lastApplied_writeMeta, hl]
      rfl
    · rw [tables_writeMeta]
      exact hf m b hm hb before entry [] b he (he ▸ hb)

/-- The database with these tables and the metadata of a snapshot. -/
abbrev installedDb (R : RaftCodec) (info : SnapshotMeta) (t : Tables) (db : Db) : Db :=
  removeCovered info.lastLogId (writeMeta R.membership metaMembership info.lastMembership
    (installPosition R info.lastLogId { db with tables := t }))

/-- An installation is refused, or leaves the rows and the position of the snapshot. -/
theorem installSnapshot_cases (info : SnapshotMeta) (bytes : Bytes) (db : Db) :
    (∃ e, StateMachine.installSnapshot R info bytes db = (.error e, db)) ∨
    ∃ data, R.snapshotData.decode bytes = some data ∧ checkSnapshotMeta info = .ok () ∧
      checkSnapshotRows data = .ok () ∧
      StateMachine.installSnapshot R info bytes db = (.ok (), installedDb R info (data.restore db.tables) db) := by
  unfold StateMachine.installSnapshot
  split
  · exact Or.inl ⟨_, rfl⟩
  · rename_i data hdata
    split
    · exact Or.inl ⟨_, rfl⟩
    · rename_i hmeta
      split
      · exact Or.inl ⟨_, rfl⟩
      · rename_i hrows
        exact Or.inr ⟨data, hdata, hmeta, hrows, rfl⟩

theorem installSnapshot_ok {info : SnapshotMeta} {bytes : Bytes} {db db' : Db}
    (h : StateMachine.installSnapshot R info bytes db = (.ok (), db')) :
    ∃ data, R.snapshotData.decode bytes = some data ∧ checkSnapshotMeta info = .ok () ∧
      checkSnapshotRows data = .ok () ∧ db' = installedDb R info (data.restore db.tables) db := by
  rcases installSnapshot_cases (R := R) info bytes db with ⟨e, he⟩ | ⟨data, hdata, hmeta, hrows, hdb⟩
  · rw [he] at h
    cases h
  · rw [hdb] at h
    exact ⟨data, hdata, hmeta, hrows, (congrArg Prod.snd h).symm⟩

theorem raftMeta_removeCovered (a : Option LogId) (db : Db) : (removeCovered a db).raftMeta = db.raftMeta := by
  cases a <;> rfl

theorem tables_removeCovered (a : Option LogId) (db : Db) : (removeCovered a db).tables = db.tables := by
  cases a <;> rfl

theorem tables_installPosition (a : Option LogId) (db : Db) : (installPosition R a db).tables = db.tables := by
  cases a <;> rfl

theorem get_installPosition_of_ne (a : Option LogId) (db : Db) {key : String} (ha : metaApplied ≠ key)
    (hp : metaPurged ≠ key) : (installPosition R a db).raftMeta.get key = db.raftMeta.get key := by
  cases a with
  | none => exact (Table.get_remove _ _ _).trans (if_neg ha)
  | some last => exact (Table.get_insert_of_ne _ _ hp).trans (Table.get_insert_of_ne _ _ ha)

theorem applied_installPosition (a : Option LogId) (db : Db) :
    (installPosition R a db).raftMeta.get metaApplied = a.map R.logId.encode := by
  cases a with
  | none => exact (Table.get_remove _ _ _).trans (if_pos rfl)
  | some last => exact (Table.get_insert_of_ne _ _ (by decide)).trans (Table.get_insert_self _ _ _)

theorem snapshotRow_install (info : SnapshotMeta) (bytes : Bytes) :
    readMeta R.snapshotBytes metaSnapshot (StateMachine.installSnapshot R info bytes db).2 =
      readMeta R.snapshotBytes metaSnapshot db := by
  rcases installSnapshot_cases (R := R) info bytes db with ⟨_, he⟩ | ⟨data, _, _, _, hdb⟩
  · rw [he]
  · rw [hdb]
    apply readMeta_congr
    rw [raftMeta_removeCovered]
    exact (Table.get_insert_of_ne _ _ (by decide)).trans (get_installPosition_of_ne _ _ (by decide) (by decide))

/-- The position and the tables after an installation. -/
theorem get_installed_applied (info : SnapshotMeta) (t : Tables) (db : Db) :
    (installedDb R info t db).raftMeta.get metaApplied = info.lastLogId.map R.logId.encode := by
  rw [raftMeta_removeCovered]
  exact (Table.get_insert_of_ne _ _ (by decide)).trans (applied_installPosition _ _)

theorem lastApplied_installed (info : SnapshotMeta) (t : Tables) (db : Db) :
    (installedDb R info t db).lastApplied R = .ok info.lastLogId := by
  have hget := get_installed_applied (R := R) info t db
  cases hlast : info.lastLogId with
  | none =>
      rw [hlast] at hget
      exact readMeta_none _ hget
  | some last =>
      rw [hlast] at hget
      exact readMeta_eq _ hget

theorem tables_installed (info : SnapshotMeta) (t : Tables) (db : Db) :
    (installedDb R info t db).tables = t := by
  rw [tables_removeCovered]
  exact tables_installPosition _ _

theorem positioned_install (h : Positioned R H db) {s : Snapshot} (hf : Faithful R H s) :
    Positioned R H (StateMachine.installSnapshot R s.info s.snapshot db).2 := by
  rcases installSnapshot_cases (R := R) s.info s.snapshot db with ⟨_, he⟩ | ⟨data, hdata, _, _, hdb⟩
  · rw [he]
    exact h
  · obtain ⟨data', hdata', htables, hmember⟩ := hf
    rw [hdata] at hdata'
    cases hdata'
    rw [hdb]
    refine ⟨s.info.lastLogId, s.info.lastMembership, lastApplied_installed s.info _ db, ?_, ?_⟩
    · apply Db.membership_of_readMeta
      apply readMeta_eq
      rw [raftMeta_removeCovered]
      exact Table.get_insert_self _ _ _
    · rw [tables_installed, replicated_restore, htables, hmember]

/-- What a build stores, where the metadata is readable. -/
theorem buildSnapshot_eq {a : Option LogId} {m : StoredMembership} (ha : db.lastApplied R = .ok a)
    (hm : db.membership R = .ok m) :
    StateMachine.buildSnapshot R db = (.ok (assembleSnapshot R a m db.tables.replicated),
      storeSnapshot R (assembleSnapshot R a m db.tables.replicated) db) := by
  unfold StateMachine.buildSnapshot
  simp only [ha, hm]

/-- A build that succeeds read the metadata. -/
theorem buildSnapshot_ok {db db' : Db} {s : Snapshot} (h : StateMachine.buildSnapshot R db = (.ok s, db')) :
    ∃ a m, db.lastApplied R = .ok a ∧ s = assembleSnapshot R a m db.tables.replicated ∧ db' = storeSnapshot R s db := by
  unfold StateMachine.buildSnapshot at h
  split at h
  · cases h
  · rename_i a ha
    split at h
    · cases h
    · rename_i m _
      cases h
      exact ⟨a, m, ha, rfl, rfl⟩

theorem get_storeSnapshot_of_ne (s : Snapshot) (db : Db) {key : String} (h : metaSnapshot ≠ key) :
    (storeSnapshot R s db).raftMeta.get key = db.raftMeta.get key := Table.get_insert_of_ne _ _ h

theorem snapshotRow_storeSnapshot (s : Snapshot) (db : Db) :
    readMeta R.snapshotBytes metaSnapshot (storeSnapshot R s db) = .ok (some s.snapshot) :=
  readMeta_eq _ (Table.get_insert_self _ _ _)

theorem membership_congr {db db' : Db} (h : db.raftMeta.get metaMembership = db'.raftMeta.get metaMembership) :
    db.membership R = db'.membership R := by
  unfold Db.membership
  rw [readMeta_congr R.membership h]

theorem positioned_storeSnapshot (h : Positioned R H db) (s : Snapshot) :
    Positioned R H (storeSnapshot R s db) := by
  obtain ⟨a, m, ha, hm, hH⟩ := h
  refine ⟨a, m, ?_, ?_, hH⟩
  · rw [← ha]
    exact readMeta_congr _ (get_storeSnapshot_of_ne _ _ (by decide))
  · rw [← hm]
    exact membership_congr (get_storeSnapshot_of_ne _ _ (by decide))

theorem atPosition_smStep (h : AtPosition R H db) {e : SmEvent} (hf : Follows C R nodeId H db e) :
    AtPosition R H (smStep C R nodeId db e) := by
  cases e with
  | apply entries =>
      refine ⟨positioned_apply h.position hf, ?_⟩
      rw [smStep, snapshotRow_apply]
      exact h.stored
  | build =>
      obtain ⟨a, m, ha, hm, _⟩ := h.position
      refine ⟨?_, Or.inr ?_⟩
      · rw [smStep, buildSnapshot_eq ha hm]
        exact positioned_storeSnapshot h.position _
      · rw [smStep, buildSnapshot_eq ha hm]
        exact ⟨_, snapshotRow_storeSnapshot _ _⟩
  | install s =>
      refine ⟨positioned_install h.position hf, ?_⟩
      rw [smStep, snapshotRow_install]
      exact h.stored

theorem positioned_of_fresh (hfresh : db.raftMeta = .empty) (hstart : H none = (db.tables.replicated, .unset)) :
    Positioned R H db := by
  have hget : ∀ key, db.raftMeta.get key = none := by
    intro key
    rw [hfresh]
    rfl
  refine ⟨none, .unset, readMeta_none _ (hget _), ?_, hstart⟩
  unfold Db.membership
  rw [readMeta_none _ (hget _)]

/-! ## When the stored snapshot is still faithful -/

/-- There is no snapshot, or the tables are still those it was built from. -/
def SnapshotCurrent (R : RaftCodec) (db : Db) : Prop := ∀ t, storedTables R db = some t → t = db.tables.replicated

theorem storedTables_congr {db db' : Db}
    (h : readMeta R.snapshotBytes metaSnapshot db = readMeta R.snapshotBytes metaSnapshot db') :
    storedTables R db = storedTables R db' := by
  unfold storedTables
  rw [h]

theorem getCurrentSnapshot_eq {bytes : Bytes} {a : Option LogId} {m : StoredMembership}
    (hrow : readMeta R.snapshotBytes metaSnapshot db = .ok (some bytes)) (ha : db.lastApplied R = .ok a)
    (hm : db.membership R = .ok m) :
    StateMachine.getCurrentSnapshot R db = .ok (some ⟨⟨a, m, snapshotId R a⟩, bytes⟩) := by
  unfold StateMachine.getCurrentSnapshot
  simp only [hrow, ha, hm]

/-- The snapshot that `get_current_snapshot` returns is faithful exactly while the tables are still those it
was built from. -/
theorem currentSnapshot_faithful_iff (h : AtPosition R H db) :
    (∀ s, StateMachine.getCurrentSnapshot R db = .ok (some s) → Faithful R H s) ↔ SnapshotCurrent R db := by
  obtain ⟨a, m, ha, hm, hH⟩ := h.position
  unfold StateMachine.getCurrentSnapshot SnapshotCurrent storedTables
  rcases h.stored with hnone | ⟨data, hdata⟩
  · simp only [hnone]
    constructor
    · intro _ t ht
      cases ht
    · intro _ s hs
      cases hs
  · simp only [hdata, ha, hm, Serde.decode_encode, Option.map_some]
    constructor
    · intro hall t ht
      obtain ⟨data', hdec, htables, _⟩ := hall _ rfl
      rw [R.snapshotData.decode_encode] at hdec
      cases hdec
      cases ht
      rw [htables, hH]
    · intro hcur s hs
      cases hs
      refine ⟨data, R.snapshotData.decode_encode data, ?_, ?_⟩
      · rw [hcur _ rfl, hH]
      · rw [hH]

theorem snapshotCurrent_build (h : AtPosition R H db) :
    SnapshotCurrent R (StateMachine.buildSnapshot R db).2 := by
  obtain ⟨a, m, ha, hm, _⟩ := h.position
  rw [buildSnapshot_eq ha hm]
  intro t ht
  unfold storedTables at ht
  rw [snapshotRow_storeSnapshot] at ht
  simp only [assembleSnapshot, Serde.decode_encode, Option.map_some, tables_snapshotData, Option.some.injEq] at ht
  exact ht.symm

/-- A step that leaves the stored snapshot alone keeps it current exactly when it leaves the tables alone. -/
theorem snapshotCurrent_iff_of_row {db' : Db}
    (hrow : readMeta R.snapshotBytes metaSnapshot db' = readMeta R.snapshotBytes metaSnapshot db)
    (hcur : SnapshotCurrent R db) :
    SnapshotCurrent R db' ↔ ((storedTables R db).isSome → db'.tables.replicated = db.tables.replicated) := by
  unfold SnapshotCurrent at hcur ⊢
  rw [storedTables_congr hrow]
  cases hstored : storedTables R db with
  | none => simp
  | some t =>
      have ht := hcur t hstored
      simp only [Option.some.injEq, forall_eq', Option.isSome_some, forall_const]
      rw [ht]
      exact eq_comm

theorem snapshotCurrent_smStep_iff (h : AtPosition R H db) {e : SmEvent} (hcur : SnapshotCurrent R db) :
    SnapshotCurrent R (smStep C R nodeId db e) ↔ KeepsSnapshotCurrent C R nodeId db e := by
  cases e with
  | apply entries => exact snapshotCurrent_iff_of_row (snapshotRow_apply entries) hcur
  | build => exact ⟨fun _ => trivial, fun _ => snapshotCurrent_build h⟩
  | install s => exact snapshotCurrent_iff_of_row (snapshotRow_install s.info s.snapshot) hcur

end Steps

/-- In a run from a database without raft metadata, every snapshot that `get_current_snapshot` returns along
the way is faithful exactly when no batch or installation changes the replicated tables while a snapshot is
stored. -/
theorem current_snapshots_faithful_iff (C : Codec) (R : RaftCodec) (nodeId : Nat) (H : History) (db : Db)
    (hfresh : db.raftMeta = .empty) (hstart : H none = (db.tables.replicated, .unset)) (events : List SmEvent)
    (hfollows : AllSteps (smStep C R nodeId) (Follows C R nodeId H) db events) :
    (∀ before after, events = before ++ after → ∀ s,
      StateMachine.getCurrentSnapshot R (run (smStep C R nodeId) db before) = .ok (some s) → Faithful R H s) ↔
    AllSteps (smStep C R nodeId) (KeepsSnapshotCurrent C R nodeId) db events := by
  have hnone : readMeta R.snapshotBytes metaSnapshot db = .ok none := readMeta_none _ (by rw [hfresh]; rfl)
  have hposition : AtPosition R H db := ⟨positioned_of_fresh hfresh hstart, Or.inl hnone⟩
  have hcurrent : SnapshotCurrent R db := by
    intro t ht
    unfold storedTables at ht
    rw [hnone] at ht
    cases ht
  rw [← forall_reached_iff (fun _ _ h hf => atPosition_smStep h hf)
    (fun _ _ h _ hcur => snapshotCurrent_smStep_iff h hcur) hposition hcurrent hfollows]
  have hreached : ∀ before after, events = before ++ after →
      AtPosition R H (run (smStep C R nodeId) db before) := by
    intro before after hsplit
    rw [hsplit] at hfollows
    exact run_inv_of_allSteps (I := AtPosition R H) (fun _ _ h hf => atPosition_smStep h hf) hposition
      (allSteps_append.mp hfollows).1
  constructor
  · intro h before after hsplit
    exact (currentSnapshot_faithful_iff (hreached before after hsplit)).mp (h before after hsplit)
  · intro h before after hsplit
    exact (currentSnapshot_faithful_iff (hreached before after hsplit)).mpr (h before after hsplit)

/-! ## A run with a role before and a role after the build -/

/-- The history of a log that creates role `a` and then role `b`. -/
def roleHistory : History
  | none => (Tables.empty.replicated, .unset)
  | some logId => ((tablesWithRoles (if logId.index ≤ 1 then ["a"] else ["a", "b"])).replicated, .unset)

/-- The database after the entry that creates a role. -/
def applyRole (index : Nat) (name : String) (db : Db) : Db :=
  writeMeta jsonRaftCodec.logId metaApplied (roleEntry index name).logId
    { db with tables := (createRole jsonCodec (roleNamed name) db.tables).2 }

section Roles
variable {index : Nat} {name : String} {db : Db}

theorem applyEntries_role (h : (createRole jsonCodec (roleNamed name) db.tables).1 = .ok ()) :
    applyEntries jsonCodec 1 [roleEntry index name] (.begin_ db.tables) = .ok
      { tables := (createRole jsonCodec (roleNamed name) db.tables).2, lastApplied := some (roleEntry index name).logId
        membership := none, results := [.ok] } := by
  unfold applyEntries applyEntry roleEntry entryAt Batch.begin_
  simp only [applyCommand, h, ApplyResult.ofOutcome, applyEntries, List.nil_append]

theorem apply_role (h : (createRole jsonCodec (roleNamed name) db.tables).1 = .ok ()) :
    (StateMachine.apply jsonCodec jsonRaftCodec 1 [roleEntry index name] db).2 = applyRole index name db := by
  unfold StateMachine.apply
  rw [applyEntries_role h]
  rfl

theorem lastApplied_applyRole :
    (applyRole index name db).lastApplied jsonRaftCodec = .ok (some (roleEntry index name).logId) :=
  readMeta_eq _ (Table.get_insert_self _ _ _)

theorem membership_applyRole : (applyRole index name db).membership jsonRaftCodec = db.membership jsonRaftCodec :=
  membership_congr (Table.get_insert_of_ne _ _ (by decide))

theorem batchFollows_role {H : History} (h : (createRole jsonCodec (roleNamed name) db.tables).1 = .ok ())
    (hm : db.membership jsonRaftCodec = .ok .unset)
    (hH : H (some (roleEntry index name).logId) =
      ((createRole jsonCodec (roleNamed name) db.tables).2.replicated, .unset)) :
    BatchFollows jsonCodec jsonRaftCodec 1 H [roleEntry index name] db := by
  intro m committed hm' _ before entry after b hsplit hb
  rw [hm] at hm'
  cases hm'
  cases before with
  | nil =>
      rw [List.nil_append, List.cons.injEq] at hsplit
      obtain ⟨rfl, _⟩ := hsplit
      rw [List.nil_append, applyEntries_role h] at hb
      cases hb
      exact hH
  | cons e before => simp at hsplit

end Roles

theorem role_snapshot_faithful :
    AllSteps (smStep jsonCodec jsonRaftCodec 1) (Follows jsonCodec jsonRaftCodec 1 roleHistory) freshDb
      [.apply [roleEntry 1 "a"], .build] ∧
    ∀ s, StateMachine.getCurrentSnapshot jsonRaftCodec
        (run (smStep jsonCodec jsonRaftCodec 1) freshDb [.apply [roleEntry 1 "a"], .build]) = .ok (some s) →
      Faithful jsonRaftCodec roleHistory s := by
  have hfollows : AllSteps (smStep jsonCodec jsonRaftCodec 1) (Follows jsonCodec jsonRaftCodec 1 roleHistory) freshDb
      [.apply [roleEntry 1 "a"], .build] := ⟨batchFollows_role rfl rfl rfl, trivial, trivial⟩
  have hsteps : AllSteps (smStep jsonCodec jsonRaftCodec 1) (KeepsSnapshotCurrent jsonCodec jsonRaftCodec 1) freshDb
      [.apply [roleEntry 1 "a"], .build] := by
    refine ⟨?_, trivial, trivial⟩
    intro h
    cases h
  exact ⟨hfollows, (current_snapshots_faithful_iff jsonCodec jsonRaftCodec 1 roleHistory freshDb rfl rfl _
    hfollows).mpr hsteps [.apply [roleEntry 1 "a"], .build] [] rfl⟩

/-- The database after the first role and the build. -/
def builtDb : Db :=
  storeSnapshot jsonRaftCodec (assembleSnapshot jsonRaftCodec (some (roleEntry 1 "a").logId) .unset
    (tablesWithRoles ["a"]).replicated) (applyRole 1 "a" freshDb)

theorem smStep_built :
    smStep jsonCodec jsonRaftCodec 1 (smStep jsonCodec jsonRaftCodec 1 freshDb (.apply [roleEntry 1 "a"])) .build =
      builtDb := by
  have hm : (applyRole 1 "a" freshDb).membership jsonRaftCodec = .ok .unset := membership_applyRole
  rw [smStep, smStep, apply_role rfl, buildSnapshot_eq lastApplied_applyRole hm]
  rfl

theorem membership_builtDb : builtDb.membership jsonRaftCodec = .ok .unset :=
  (membership_congr (get_storeSnapshot_of_ne _ _ (by decide))).trans membership_applyRole

theorem tables_builtDb : builtDb.tables = tablesWithRoles ["a"] := rfl

theorem createRole_builtDb : (createRole jsonCodec (roleNamed "b") builtDb.tables).1 = .ok () := rfl

theorem roleHistory_second : roleHistory (some (roleEntry 2 "b").logId) =
    ((createRole jsonCodec (roleNamed "b") (tablesWithRoles ["a"])).2.replicated, .unset) := rfl

theorem batchFollows_second : BatchFollows jsonCodec jsonRaftCodec 1 roleHistory [roleEntry 2 "b"] builtDb :=
  batchFollows_role createRole_builtDb membership_builtDb (by rw [tables_builtDb]; exact roleHistory_second)

theorem snapshotRow_second : readMeta jsonRaftCodec.snapshotBytes metaSnapshot (applyRole 2 "b" builtDb) =
    .ok (some (assembleSnapshot jsonRaftCodec (some (roleEntry 1 "a").logId) .unset
      (tablesWithRoles ["a"]).replicated).snapshot) := by
  rw [← apply_role createRole_builtDb, snapshotRow_apply]
  exact snapshotRow_storeSnapshot _ _

theorem run_second : run (smStep jsonCodec jsonRaftCodec 1) freshDb
    [.apply [roleEntry 1 "a"], .build, .apply [roleEntry 2 "b"]] = applyRole 2 "b" builtDb := by
  rw [run_cons, run_cons, run_cons, run_nil, smStep_built, smStep, apply_role createRole_builtDb]

theorem second_role_missing :
    (tablesWithRoles ["a"]).replicated ≠ (roleHistory (some (roleEntry 2 "b").logId)).1 := by
  intro h
  have hrole := congrArg (fun t : Replicated => (t.roles.get "b").isSome) h
  revert hrole
  decide

/-- A role is created, a snapshot is built and another role is created: the snapshot is returned with the position
of the second role, which it does not hold. -/
theorem stale_snapshot_relabelled :
    AllSteps (smStep jsonCodec jsonRaftCodec 1) (Follows jsonCodec jsonRaftCodec 1 roleHistory) freshDb
      [.apply [roleEntry 1 "a"], .build, .apply [roleEntry 2 "b"]] ∧
    ∃ s, StateMachine.getCurrentSnapshot jsonRaftCodec (run (smStep jsonCodec jsonRaftCodec 1) freshDb
        [.apply [roleEntry 1 "a"], .build, .apply [roleEntry 2 "b"]]) = .ok (some s) ∧
      s.info.lastLogId = some (roleEntry 2 "b").logId ∧ ¬Faithful jsonRaftCodec roleHistory s := by
  constructor
  · refine ⟨batchFollows_role rfl rfl rfl, trivial, ?_, trivial⟩
    rw [smStep_built]
    exact batchFollows_second
  · have hm : (applyRole 2 "b" builtDb).membership jsonRaftCodec = .ok .unset :=
      membership_applyRole.trans membership_builtDb
    rw [run_second]
    refine ⟨_, getCurrentSnapshot_eq snapshotRow_second lastApplied_applyRole hm, rfl, fun hfaithful => ?_⟩
    exact second_role_missing (faithful_assembled_iff.mp hfaithful).1

end HyperionVault
