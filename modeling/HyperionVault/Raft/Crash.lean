import HyperionVault.Raft.Snapshot

/-!
# Crashes between transactions

What openraft asks of the store is a run of calls, each made of transactions. A crash leaves the transactions of a
call that were committed, and `normalize_raft_log` runs before the node takes up work again.

* `RaftCall.commits` : the databases after the transactions of a call;
* `StoreEvent`, `storeEvent` : calls, calls cut short, and repairs, whole or cut short;
* `RaftCall.Allowed` : the order in which openraft makes its calls;
* `writtenBy` : the entries that a run has appended and not truncated;
* `LogInv` : what holds between any two transactions, `kept_event` : every event keeps it;
* `log_survives_crashes` : after a repair.
-/

namespace HyperionVault
open Lib

/-- What openraft asks of the store. -/
inductive RaftCall where
  | saveVote (vote : Vote)
  | append (entries : List Entry)
  | truncate (logId : LogId)
  | purge (logId : LogId)
  | apply (entries : List Entry)
  | buildSnapshot
  | installSnapshot (info : SnapshotMeta) (snapshot : Bytes)

/-- A call runs to its end, or stops after some of its transactions; a repair stops after some of its own. -/
inductive StoreEvent where
  | call (call : RaftCall)
  | crash (call : RaftCall) (cut : Nat)
  | normalize (cut : Nat)

/-- The database of a call with one transaction, which it commits unless it fails. -/
def committedDb {ε α : Type} (result : Except ε α × Db) : List Db :=
  match result.1 with
  | .ok _ => [result.2]
  | .error _ => []

section Events
variable (C : Codec) (L : LogCodec) (nodeId : Nat)

def RaftCall.commits : RaftCall → Db → List Db
  | .saveVote vote, db => [LogStore.saveVote L vote db]
  | .append entries, db => [LogStore.append L entries db]
  | .truncate logId, db => [LogStore.truncate logId db]
  | .purge logId, db => LogStore.purge L logId db
  | .apply entries, db => committedDb (StateMachine.apply C L.toRaftCodec nodeId entries db)
  | .buildSnapshot, db => committedDb (StateMachine.buildSnapshot L.toRaftCodec db)
  | .installSnapshot info snapshot, db => committedDb (StateMachine.installSnapshot L.toRaftCodec info snapshot db)

def storeEvent (db : Db) : StoreEvent → Db
  | .call call => afterCommits db (call.commits C L nodeId db)
  | .crash call cut => afterCommits db ((call.commits C L nodeId db).take cut)
  | .normalize cut =>
      match normalizeCommits L.toRaftCodec db with
      | .error _ => db
      | .ok commits => afterCommits db (commits.take cut)

end Events

/-! What a call on the state machine commits. -/

section Commits
variable {C : Codec} {L : LogCodec} {nodeId : Nat} {db db' : Db}

theorem mem_committedDb {ε α : Type} {result : Except ε α × Db} (h : db' ∈ committedDb result) :
    ∃ a, result = (.ok a, db') := by
  obtain ⟨outcome, db₁⟩ := result
  cases outcome with
  | error e => cases h
  | ok a =>
      obtain rfl := List.mem_singleton.mp h
      exact ⟨a, rfl⟩

theorem commits_apply {entries : List Entry} (h : db' ∈ (RaftCall.apply entries).commits C L nodeId db) :
    ∃ b, applyEntries C nodeId entries (.begin_ db.tables) = .ok b ∧
      db' = b.writeMeta L.toRaftCodec { db with tables := b.tables } := by
  obtain ⟨_, h⟩ := mem_committedDb h
  unfold StateMachine.apply at h
  split at h
  · cases h
  · rename_i b hb
    cases h
    exact ⟨b, hb, rfl⟩

theorem commits_buildSnapshot (h : db' ∈ RaftCall.buildSnapshot.commits C L nodeId db) :
    ∃ bytes, db' = writeMeta L.snapshotBytes metaSnapshot bytes db := by
  obtain ⟨_, h⟩ := mem_committedDb h
  unfold StateMachine.buildSnapshot at h
  split at h
  · cases h
  · split at h
    · cases h
    · cases h
      exact ⟨_, rfl⟩

end Commits

/-! ## The order of calls -/

/-- The first index above a position. -/
def aboveApplied (applied : Option LogId) : Nat := aboveFloor (applied.map LogId.index)

/-- The index at which the log goes on. -/
def Db.logEnd (db : Db) (applied : Option LogId) : Nat :=
  match db.log.keys.getLast? with
  | some last => last + 1
  | none => aboveApplied applied

/-- openraft's order, with `applied` the last entry applied: entries are appended at the end of the log, it is truncated
above that entry and purged up to it, the entries applied are the next ones of the log, and a snapshot is installed at
that entry or above. -/
def RaftCall.AllowedAt (L : LogCodec) (db : Db) (applied : Option LogId) : RaftCall → Prop
  | .saveVote _ => True
  | .append entries =>
      entries.map (fun entry => entry.logId.index) = List.range' (db.logEnd applied) entries.length ∧
        ∀ entry ∈ entries, entry.logId.index < indexBound
  | .truncate logId => ∀ a ∈ applied, a.index < logId.index
  | .purge logId => ∃ a ∈ applied, logId.index ≤ a.index
  | .apply entries =>
      entries.map (fun entry => entry.logId.index) = List.range' (aboveApplied applied) entries.length ∧
        ∀ entry ∈ entries, db.log.get entry.logId.index = some (L.entry.encode entry)
  | .buildSnapshot => True
  | .installSnapshot info _ => ∀ a ∈ applied, ∃ last ∈ info.lastLogId, a.index ≤ last.index

def RaftCall.Allowed (L : LogCodec) (db : Db) (call : RaftCall) : Prop :=
  ∃ applied, db.lastApplied L.toRaftCodec = .ok applied ∧ call.AllowedAt L db applied

def StoreEvent.Allowed (L : LogCodec) (db : Db) : StoreEvent → Prop
  | .call c => c.Allowed L db
  | .crash c _ => c.Allowed L db
  | .normalize _ => True

/-! ## What has been appended -/

/-- The entries that have been appended and not truncated. -/
abbrev Written := Nat → Option Entry

def RaftCall.writes (written : Written) : RaftCall → Written
  | .append entries => entries.foldl (fun w entry => Function.update w entry.logId.index (some entry)) written
  | .truncate logId => fun index => if logId.index ≤ index then none else written index
  | _ => written

/-- A call that is stopped before its first transaction writes nothing. -/
def StoreEvent.writes (written : Written) : StoreEvent → Written
  | .call c => c.writes written
  | .crash c cut => if cut = 0 then written else c.writes written
  | .normalize _ => written

def writtenBy (events : List StoreEvent) : Written := events.foldl StoreEvent.writes fun _ => none

/-! ## Between two transactions -/

/-- The positions can be read, the purged one is not above the applied one, the log is a segment that reaches at least
up to what is applied, and above that it holds what has been written. -/
structure LogInv (L : LogCodec) (written : Written) (db : Db) (applied purged : Option LogId) (first next : Nat) :
    Prop where
  applied_eq : db.raftMeta.get metaApplied = applied.map L.logId.encode
  purged_eq : db.raftMeta.get metaPurged = purged.map L.logId.encode
  purged_le : ∀ p ∈ purged, ∃ a ∈ applied, p.index ≤ a.index
  segment : db.log.Segment first next
  first_le : first ≤ aboveApplied applied
  le_next : aboveApplied applied ≤ next
  next_le : next ≤ indexBound
  kept : ∀ i, aboveApplied applied ≤ i → db.log.get i = (written i).map L.entry.encode

def LogKept (L : LogCodec) (written : Written) (db : Db) : Prop :=
  ∃ applied purged first next, LogInv L written db applied purged first next

theorem readMeta_of_map {α : Type} (S : MetaSerde α) {key : String} {db : Db} {a : Option α}
    (h : db.raftMeta.get key = a.map S.encode) : readMeta S key db = .ok a := by
  cases a with
  | none => exact readMeta_none S h
  | some a => exact readMeta_eq S h

section Invariant
variable {C : Codec} {L : LogCodec} {nodeId : Nat} {written : Written} {db db' : Db} {applied purged : Option LogId}
  {first next : Nat}

theorem logKept_start (L : LogCodec) (t : Tables) : LogKept L (fun _ => none) ⟨t, .empty, .empty⟩ :=
  ⟨none, none, 0, 0, rfl, rfl, fun p hp => (Option.not_mem_none p hp).elim, Table.segment_empty 0, le_refl _, le_refl _,
    Nat.zero_le _, fun _ _ => rfl⟩

/-- Rows and entries written in the same order. -/
theorem get_insertAll_entries (entries : List Entry) {t : Table Nat Bytes} {i : Nat}
    (h : t.get i = (written i).map L.entry.encode) :
    (t.insertAll (entries.map fun entry => (entry.logId.index, L.entry.encode entry))).get i =
      ((RaftCall.append entries).writes written i).map L.entry.encode := by
  induction entries generalizing t written with
  | nil => exact h
  | cons entry rest ih =>
      have hentry : (t.insert entry.logId.index (L.entry.encode entry)).get i =
          (Function.update written entry.logId.index (some entry) i).map L.entry.encode := by
        rw [Table.get_insert]
        by_cases hi : entry.logId.index = i
        · rw [if_pos hi, ← hi, Function.update_self]
          rfl
        · rw [if_neg hi, Function.update_of_ne (Ne.symm hi)]
          exact h
      exact ih hentry

/-- The log and the position after a batch has been committed. -/
theorem get_writeMeta_applied (R : RaftCodec) {b : Batch} {logId : LogId} (hb : b.lastApplied = some logId) (db : Db) :
    (b.writeMeta R db).raftMeta.get metaApplied = some (R.logId.encode logId) := by
  unfold Batch.writeMeta
  rw [hb]
  cases b.membership with
  | none => exact Table.get_insert_self _ _ _
  | some m => exact (Table.get_insert_of_ne _ _ (by decide)).trans (Table.get_insert_self _ _ _)

theorem log_writeMeta (R : RaftCodec) (b : Batch) (db : Db) : (b.writeMeta R db).log = db.log := by
  unfold Batch.writeMeta
  cases b.lastApplied with
  | none => rfl
  | some logId => cases b.membership <;> rfl

theorem LogInv.advanced {a : LogId} (h : LogInv L written db (some a) purged first next) :
    LogInv L written (writeMeta L.logId metaPurged a db) (some a) (some a) first next := by
  refine ⟨?_, Table.get_insert_self _ _ _, fun p hp => ⟨p, hp, le_refl _⟩, h.segment, h.first_le,
    h.le_next, h.next_le, h.kept⟩
  exact (Table.get_insert_of_ne _ _ (by decide)).trans h.applied_eq

variable (h : LogInv L written db applied purged first next)
include h

theorem LogInv.lastApplied :
    db.lastApplied L.toRaftCodec = .ok applied := readMeta_of_map _ h.applied_eq

theorem LogInv.lastPurged :
    db.lastPurged L.toRaftCodec = .ok purged := readMeta_of_map _ h.purged_eq

theorem LogInv.logEnd : db.logEnd applied = next := by
  have hfirst := h.first_le
  have hnext := h.le_next
  unfold Db.logEnd
  rw [h.segment.getLast?_keys]
  by_cases hlt : first < next
  · rw [if_pos hlt]
    dsimp only
    omega
  · rw [if_neg hlt]
    dsimp only
    omega

/-- A transaction that leaves the log and both positions alone. -/
theorem LogInv.of_same (hlog : db'.log = db.log)
    (ha : db'.raftMeta.get metaApplied = db.raftMeta.get metaApplied)
    (hp : db'.raftMeta.get metaPurged = db.raftMeta.get metaPurged) :
    LogInv L written db' applied purged first next where
  applied_eq := ha.trans h.applied_eq
  purged_eq := hp.trans h.purged_eq
  purged_le := h.purged_le
  segment := hlog ▸ h.segment
  first_le := h.first_le
  le_next := h.le_next
  next_le := h.next_le
  kept := hlog ▸ h.kept

/-! ## The calls -/

theorem LogInv.append {entries : List Entry}
    (hallowed : (RaftCall.append entries).AllowedAt L db applied) :
    LogInv L ((RaftCall.append entries).writes written) (LogStore.append L entries db) applied purged first
      (next + entries.length) := by
  obtain ⟨hindexes, hbound⟩ := hallowed
  rw [h.logEnd] at hindexes
  have hfirst := h.first_le
  have hnext := h.le_next
  have hrows : (entries.map fun entry => (entry.logId.index, L.entry.encode entry)).map Prod.fst =
      List.range' next (entries.map fun entry => (entry.logId.index, L.entry.encode entry)).length := by
    rw [List.map_map, List.length_map]
    exact hindexes
  refine ⟨h.applied_eq, h.purged_eq, h.purged_le, ?_, h.first_le, by omega, ?_, fun i hi =>
    get_insertAll_entries entries (h.kept i hi)⟩
  · have hsegment := h.segment.insertAll (by omega) hrows
    rw [List.length_map] at hsegment
    exact hsegment
  · -- the last index that is appended is one there is
    rcases Nat.eq_zero_or_pos entries.length with hzero | hpos
    · rw [hzero]
      exact h.next_le
    · have hlast : next + (entries.length - 1) ∈ entries.map fun entry => entry.logId.index := by
        rw [hindexes, List.mem_range'_1]
        omega
      obtain ⟨entry, hmem, heq⟩ := List.mem_map.mp hlast
      have hlt := hbound entry hmem
      omega

theorem LogInv.truncate {logId : LogId}
    (hallowed : (RaftCall.truncate logId).AllowedAt L db applied) :
    LogInv L ((RaftCall.truncate logId).writes written) (LogStore.truncate logId db) applied purged first
      (min next logId.index) := by
  have habove : aboveApplied applied ≤ logId.index := by
    cases applied with
    | none => exact Nat.zero_le _
    | some a => exact hallowed a rfl
  have hnext := h.le_next
  have hbound := h.next_le
  refine ⟨h.applied_eq, h.purged_eq, h.purged_le, h.segment.removeFrom logId.index, h.first_le, by omega, by omega,
    fun i hi => ?_⟩
  change (db.log.removeWhere (logId.index ≤ ·)).get i =
    ((if logId.index ≤ i then none else written i).map L.entry.encode)
  rw [Table.get_removeWhere]
  by_cases hcut : logId.index ≤ i
  · rw [if_pos (decide_eq_true hcut), if_pos hcut]
    rfl
  · rw [if_neg (by simpa using hcut), if_neg hcut]
    exact h.kept i hi

/-- The log without its entries up to `index`, with the position at `index` or above. -/
theorem LogInv.removeThrough {applied' purged' : Option LogId}
    {index : Nat} (hindex : index < aboveApplied applied') (hend : aboveApplied applied' ≤ max next (index + 1))
    (hle : aboveApplied applied ≤ aboveApplied applied') (hbound : aboveApplied applied' ≤ indexBound)
    (ha : db'.raftMeta.get metaApplied = applied'.map L.logId.encode)
    (hp : db'.raftMeta.get metaPurged = purged'.map L.logId.encode)
    (hple : ∀ p ∈ purged', ∃ a ∈ applied', p.index ≤ a.index) (hlog : db'.log = db.log.removeWhere (· ≤ index)) :
    LogInv L written db' applied' purged' (max first (index + 1)) (max next (index + 1)) := by
  have hfirst := h.first_le
  have hnext := h.next_le
  refine ⟨ha, hp, hple, ?_, by omega, hend, by omega, fun i hi => ?_⟩
  · rw [hlog]
    exact (h.segment.removeThrough index).congr fun i => by omega
  · rw [hlog, Table.get_removeWhere, if_neg (by simp; omega)]
    exact h.kept i (by omega)

theorem LogInv.purge {logId : LogId}
    (hallowed : (RaftCall.purge logId).AllowedAt L db applied) (hdb : db' ∈ LogStore.purge L logId db) :
    LogKept L written db' := by
  obtain ⟨a, ha, hle⟩ := hallowed
  have hindex : logId.index < aboveApplied applied := by
    rw [Option.mem_def.mp ha]
    exact Nat.lt_succ_of_le hle
  have hnext := h.le_next
  have hbound := h.next_le
  simp only [LogStore.purge, List.mem_cons, List.not_mem_nil, or_false] at hdb
  rcases hdb with rfl | rfl
  · exact ⟨_, _, _, _, h.removeThrough hindex (by omega) (le_refl _)
      (by omega) h.applied_eq h.purged_eq h.purged_le rfl⟩
  · refine ⟨_, some logId, _, _, h.removeThrough hindex (by omega) (le_refl _) (by omega) ?_ ?_ ?_ rfl⟩
    · exact (Table.get_insert_of_ne _ _ (by decide)).trans h.applied_eq
    · exact Table.get_insert_self _ _ _
    · intro p hp
      cases hp
      exact ⟨a, ha, hle⟩

theorem LogInv.apply {entries : List Entry}
    (hallowed : (RaftCall.apply entries).AllowedAt L db applied)
    (hdb : db' ∈ (RaftCall.apply entries).commits C L nodeId db) : LogKept L written db' := by
  obtain ⟨hindexes, hlog⟩ := hallowed
  obtain ⟨b, hb, rfl⟩ := commits_apply hdb
  have hpurged : (b.writeMeta L.toRaftCodec { db with tables := b.tables }).raftMeta.get metaPurged =
      db.raftMeta.get metaPurged := get_writeMeta_of_ne _ _ (by decide) (by decide)
  rcases List.eq_nil_or_concat entries with rfl | ⟨before, last, rfl⟩
  · cases hb
    exact ⟨_, _, _, _, h.of_same rfl rfl rfl⟩
  · -- the last entry is in the log, so the log reaches up to the new position
    rw [List.concat_eq_append] at hb hindexes hlog
    have hlast : last.logId.index = aboveApplied applied + before.length := by
      rw [List.map_append, List.map_singleton, List.length_append, List.length_singleton,
        List.range'_concat] at hindexes
      have hsame := List.append_inj_right' hindexes rfl
      rw [List.cons.injEq] at hsame
      omega
    have hmem : (db.log.get last.logId.index).isSome := by
      rw [hlog last (by simp)]
      rfl
    have hin := (h.segment last.logId.index).mp hmem
    have hfirst := h.first_le
    have habove : aboveApplied (some last.logId) = last.logId.index + 1 := rfl
    refine ⟨some last.logId, purged, first, next, ?_, hpurged.trans h.purged_eq,
      fun p hp => ?_, ?_, by omega, by omega,
      h.next_le, fun i hi => ?_⟩
    · exact get_writeMeta_applied _ (lastApplied_applyEntries hb) _
    · obtain ⟨a, ha, hle⟩ := h.purged_le p hp
      have happlied : aboveApplied applied = a.index + 1 := by
        rw [Option.mem_def.mp ha]
        rfl
      exact ⟨last.logId, rfl, by omega⟩
    · rw [log_writeMeta]
      exact h.segment
    · rw [log_writeMeta]
      exact h.kept i (by omega)

theorem LogInv.buildSnapshot (hdb : db' ∈ RaftCall.buildSnapshot.commits C L nodeId db) : LogKept L written db' := by
  obtain ⟨bytes, rfl⟩ := commits_buildSnapshot hdb
  exact ⟨_, _, _, _, h.of_same rfl (Table.get_insert_of_ne _ _ (by decide)) (Table.get_insert_of_ne _ _ (by decide))⟩

/-- A snapshot that has been installed. -/
theorem LogInv.installSnapshot {info : SnapshotMeta} {snapshot : Bytes}
    (hallowed : (RaftCall.installSnapshot info snapshot).AllowedAt L db applied)
    (hdb : db' ∈ (RaftCall.installSnapshot info snapshot).commits C L nodeId db) : LogKept L written db' := by
  obtain ⟨_, hinstall⟩ := mem_committedDb hdb
  obtain ⟨data, _, hmeta, _, rfl⟩ := installSnapshot_ok hinstall
  unfold installedDb
  cases hlast : info.lastLogId with
  | none =>
      have hnone : applied = none := by
        cases applied with
        | none => rfl
        | some a =>
            obtain ⟨last, hmem, _⟩ := hallowed a rfl
            rw [hlast] at hmem
            cases hmem
      subst hnone
      refine ⟨none, purged, first, next, h.of_same rfl ?_ ?_⟩
      · refine (Table.get_insert_of_ne _ _ (by decide)).trans
          ((Table.get_remove _ _ _).trans (if_pos rfl)) |>.trans ?_
        exact h.applied_eq.symm
      · exact (Table.get_insert_of_ne _ _ (by decide)).trans ((Table.get_remove _ _ _).trans (if_neg (by decide)))
  | some last =>
      have hplausible := checkSnapshotMeta_ok_iff.mp hmeta last hlast
      have hbound : maxPlausibleLogIndex < indexBound := by decide
      have habove : aboveApplied (some last) = last.index + 1 := rfl
      have hle : aboveApplied applied ≤ last.index + 1 := by
        cases applied with
        | none => exact Nat.zero_le _
        | some a =>
            obtain ⟨last', hmem, hle⟩ := hallowed a rfl
            rw [hlast] at hmem
            cases hmem
            exact Nat.succ_le_succ hle
      refine ⟨some last, some last, _, _,
        h.removeThrough (show last.index < aboveApplied (some last) by omega) (by omega)
        (by omega) (by omega) ?_ ?_ (fun p hp => ⟨p, hp, le_refl _⟩) rfl⟩
      · exact (Table.get_insert_of_ne _ _ (by decide)).trans ((Table.get_insert_of_ne _ _ (by decide)).trans
          (Table.get_insert_self _ _ _))
      · exact (Table.get_insert_of_ne _ _ (by decide)).trans (Table.get_insert_self _ _ _)

/-! ## The repair -/

/-- The floor of a repair is the position applied. -/
theorem LogInv.floor :
    (applied.map LogId.index).or (purged.map LogId.index) = applied.map LogId.index := by
  cases applied with
  | some a => rfl
  | none =>
      cases purged with
      | none => rfl
      | some p =>
          obtain ⟨a, ha, _⟩ := h.purged_le p rfl
          cases ha

/-- A repair keeps the log above the position applied. -/
theorem LogInv.scanned :
    (db.log.removeAll (repairDeletes applied purged db)).Segment (aboveApplied applied) next ∧
      ∀ i, aboveApplied applied ≤ i → (db.log.removeAll (repairDeletes applied purged db)).get i = db.log.get i := by
  have hfirst := h.first_le
  have hnext := h.next_le
  have hrow (i : Nat) : Unbroken db.log.keys (aboveApplied applied) i ↔ aboveApplied applied ≤ i ∧ i < next := by
    constructor
    · rintro ⟨hle, hall⟩
      exact ⟨hle, ((h.segment i).mp (Table.mem_keys.mp (hall i hle (le_refl _)))).2⟩
    · rintro ⟨hle, hlt⟩
      exact ⟨hle, fun j hj hji => Table.mem_keys.mpr ((h.segment j).mpr ⟨by omega, by omega⟩)⟩
  have hget (i : Nat) : (db.log.removeAll (repairDeletes applied purged db)).get i =
      if aboveApplied applied ≤ i ∧ i < next then db.log.get i else none := by
    have hbound : ∀ k ∈ db.log.keys, k < indexBound := fun k hk => by
      have hlt := ((h.segment k).mp (Table.mem_keys.mp hk)).2
      omega
    have hmem : i ∈ scanLog (applied.map LogId.index) db.log.keys (scanStart (applied.map LogId.index)) false ↔
        i ∈ db.log.keys ∧ ¬Unbroken db.log.keys (aboveApplied applied) i := mem_scan db.log.keys_sorted hbound i
    rw [hrow i] at hmem
    unfold repairDeletes
    rw [h.floor, Table.get_removeAll]
    by_cases hin : aboveApplied applied ≤ i ∧ i < next
    · rw [if_pos hin, if_neg fun hdel => (hmem.mp hdel).2 hin]
    · rw [if_neg hin]
      by_cases hkey : i ∈ db.log.keys
      · rw [if_pos (hmem.mpr ⟨hkey, hin⟩)]
      · rw [if_neg fun hdel => hkey (hmem.mp hdel).1]
        rw [Table.mem_keys, Bool.not_eq_true, Option.isSome_eq_false_iff, Option.isNone_iff_eq_none] at hkey
        exact hkey
  constructor
  · intro i
    rw [hget i]
    by_cases hin : aboveApplied applied ≤ i ∧ i < next
    · rw [if_pos hin, h.segment i]
      omega
    · rw [if_neg hin]
      simpa using hin
  · intro i hi
    rw [hget i]
    by_cases hin : i < next
    · rw [if_pos ⟨hi, hin⟩]
    · rw [if_neg fun h => hin h.2, h.segment.get_eq_none (by omega)]

/-- The database after the entries have been deleted, and after the purged position has been advanced too. -/
theorem LogInv.repaired :
    LogInv L written { db with log := db.log.removeAll (repairDeletes applied purged db) } applied purged
      (aboveApplied applied) next := by
  obtain ⟨hsegment, hsame⟩ := h.scanned
  exact ⟨h.applied_eq, h.purged_eq, h.purged_le, hsegment, le_refl _, h.le_next, h.next_le,
    fun i hi => (hsame i hi).trans (h.kept i hi)⟩

theorem LogInv.normalizeCommits :
    normalizeCommits L.toRaftCodec db = .ok (repairCommits L.toRaftCodec applied purged db) := by
  unfold HyperionVault.normalizeCommits
  rw [h.lastApplied, h.lastPurged]

theorem LogInv.repair (hdb : db' ∈ repairCommits L.toRaftCodec applied purged db) : LogKept L written db' := by
  rcases repairCommits_cases L.toRaftCodec applied purged db with ⟨_, ⟨hnil, _⟩ | hone⟩ | ⟨a, rfl, _, htwo⟩
  · rw [hnil] at hdb
    cases hdb
  · rw [hone] at hdb
    obtain rfl := List.mem_singleton.mp hdb
    exact ⟨_, _, _, _, h.repaired⟩
  · rw [htwo, List.mem_cons, List.mem_singleton] at hdb
    rcases hdb with rfl | rfl
    · exact ⟨_, _, _, _, h.repaired⟩
    · exact ⟨_, _, _, _, h.repaired.advanced⟩

/-- After the whole repair the log begins above the position applied, which is the position purged. -/
theorem LogInv.afterRepair :
    ∃ purged', LogInv L written (afterCommits db (repairCommits L.toRaftCodec applied purged db)) applied purged'
        (aboveApplied applied) next ∧
      (∀ a ∈ applied, ∃ p ∈ purged', p.index = a.index) ∧
      ∀ key, key ≠ metaPurged → (afterCommits db (repairCommits L.toRaftCodec applied purged db)).raftMeta.get key =
        db.raftMeta.get key := by
  have hrepaired := h.repaired
  -- a position that is not advanced is the one applied already
  have hpurged (hadvance : advancePurged applied purged = false) : ∀ a ∈ applied, ∃ p ∈ purged, p.index = a.index := by
    intro a ha
    rw [Option.mem_def.mp ha] at hadvance
    cases hp : purged with
    | none =>
        rw [hp] at hadvance
        cases hadvance
    | some p =>
        obtain ⟨a', ha', hle⟩ := h.purged_le p hp
        obtain rfl : a' = a := Option.mem_unique ha' ha
        rw [hp] at hadvance
        have hge : ¬p.index < a'.index := of_decide_eq_false hadvance
        exact ⟨p, rfl, by omega⟩
  rcases repairCommits_cases L.toRaftCodec applied purged db with ⟨hadvance, ⟨hnil, hsame⟩ | hone⟩ | ⟨a, rfl, _, htwo⟩
  · rw [hnil]
    rw [hsame] at hrepaired
    exact ⟨purged, hrepaired, hpurged hadvance, fun _ _ => rfl⟩
  · rw [hone]
    exact ⟨purged, hrepaired, hpurged hadvance, fun _ _ => rfl⟩
  · rw [htwo]
    exact ⟨some a, hrepaired.advanced, fun a' ha' => ⟨a', ha', rfl⟩, fun key hkey =>
      Table.get_insert_of_ne _ _ (Ne.symm hkey)⟩

omit h

/-! ## Runs -/

theorem kept_commits (h : LogKept L written db) {call : RaftCall} (hallowed : call.Allowed L db)
    (hdb : db' ∈ call.commits C L nodeId db) : LogKept L (call.writes written) db' := by
  obtain ⟨applied, purged, first, next, hinv⟩ := h
  obtain ⟨applied', happlied, hallowed⟩ := hallowed
  obtain rfl : applied = applied' := Except.ok.inj (hinv.lastApplied.symm.trans happlied)
  cases call with
  | saveVote vote =>
      obtain rfl := List.mem_singleton.mp hdb
      exact ⟨_, _, _, _, hinv.of_same rfl (Table.get_insert_of_ne _ _ (by decide))
        (Table.get_insert_of_ne _ _ (by decide))⟩
  | append entries =>
      obtain rfl := List.mem_singleton.mp hdb
      exact ⟨_, _, _, _, hinv.append hallowed⟩
  | truncate logId =>
      obtain rfl := List.mem_singleton.mp hdb
      exact ⟨_, _, _, _, hinv.truncate hallowed⟩
  | purge logId => exact hinv.purge hallowed hdb
  | apply entries => exact hinv.apply hallowed hdb
  | buildSnapshot => exact hinv.buildSnapshot hdb
  | installSnapshot info snapshot => exact hinv.installSnapshot hallowed hdb

/-- A call that commits nothing writes nothing. -/
theorem writes_of_commits_nil {call : RaftCall} (h : call.commits C L nodeId db = []) :
    call.writes written = written := by
  cases call with
  | append entries => cases h
  | truncate logId => cases h
  | _ => rfl

theorem afterCommits_cases (db : Db) (commits : List Db) :
    commits = [] ∧ afterCommits db commits = db ∨ afterCommits db commits ∈ commits := by
  unfold afterCommits
  cases hlast : commits.getLast? with
  | none => exact Or.inl ⟨List.getLast?_eq_none_iff.mp hlast, rfl⟩
  | some last => exact Or.inr (List.mem_of_getLast? hlast)

theorem kept_event (h : LogKept L written db) {event : StoreEvent} (hallowed : event.Allowed L db) :
    LogKept L (event.writes written) (storeEvent C L nodeId db event) := by
  cases event with
  | call call =>
      rcases afterCommits_cases db (call.commits C L nodeId db) with ⟨hnil, hsame⟩ | hmem
      · rw [storeEvent, hsame, StoreEvent.writes, writes_of_commits_nil hnil]
        exact h
      · exact kept_commits h hallowed hmem
  | crash call cut =>
      rcases afterCommits_cases db ((call.commits C L nodeId db).take cut) with ⟨hnil, hsame⟩ | hmem
      · rw [storeEvent, hsame, StoreEvent.writes]
        by_cases hcut : cut = 0
        · rw [if_pos hcut]
          exact h
        · rw [if_neg hcut, writes_of_commits_nil ((List.take_eq_nil_iff.mp hnil).resolve_left hcut)]
          exact h
      · have hcut : cut ≠ 0 := by
          rintro rfl
          cases hmem
        rw [storeEvent, StoreEvent.writes, if_neg hcut]
        exact kept_commits h hallowed (List.mem_of_mem_take hmem)
  | normalize cut =>
      obtain ⟨applied, purged, first, next, hinv⟩ := h
      rw [storeEvent, hinv.normalizeCommits]
      rcases afterCommits_cases db ((repairCommits L.toRaftCodec applied purged db).take cut) with ⟨_, hsame⟩ | hmem
      · dsimp only
        rw [hsame]
        exact ⟨_, _, _, _, hinv⟩
      · exact hinv.repair (List.mem_of_mem_take hmem)

theorem kept_run (h : LogKept L written db) {events : List StoreEvent}
    (hevents : AllSteps (storeEvent C L nodeId) (StoreEvent.Allowed L) db events) :
    LogKept L (events.foldl StoreEvent.writes written) (run (storeEvent C L nodeId) db events) := by
  induction events generalizing db written with
  | nil => exact h
  | cons event rest ih => exact ih (kept_event h hevents.1) hevents.2

end Invariant

/-- Any run of calls in openraft's order, calls and repairs stopped after any of their transactions, from a database
without raft state; then a repair that runs to its end. The keys of the log are a row that begins above the position
applied, above which the log holds the entries that have been appended and not truncated; the position purged has its
index; and no other metadata is touched. -/
theorem log_survives_crashes (C : Codec) (L : LogCodec) (nodeId : Nat) (t : Tables) (events : List StoreEvent)
    (hevents : AllSteps (storeEvent C L nodeId) (StoreEvent.Allowed L) ⟨t, .empty, .empty⟩ events) :
    let db := run (storeEvent C L nodeId) ⟨t, .empty, .empty⟩ events
    ∃ db' applied, normalizeRaftLog L.toRaftCodec db = .ok db' ∧ db'.lastApplied L.toRaftCodec = .ok applied ∧
      (∃ n, db'.log.keys = List.range' (aboveApplied applied) n) ∧
      (∀ index entry, aboveApplied applied ≤ index → writtenBy events index = some entry →
        db'.log.get index = some (L.entry.encode entry)) ∧
      (∀ a ∈ applied, ∃ p, db'.lastPurged L.toRaftCodec = .ok (some p) ∧ p.index = a.index) ∧
      ∀ key ∈ [metaApplied, metaVote, metaMembership], db'.raftMeta.get key = db.raftMeta.get key := by
  intro db
  obtain ⟨applied, purged, first, next, hinv⟩ := kept_run (logKept_start L t) hevents
  obtain ⟨purged', hafter, hpurged, hmeta⟩ := hinv.afterRepair
  refine ⟨_, applied, ?_, hafter.lastApplied, ⟨_, hafter.segment.keys_eq⟩, fun index entry hindex hentry => ?_,
    fun a ha => ?_, fun key hkey => hmeta key ?_⟩
  · unfold normalizeRaftLog
    rw [hinv.normalizeCommits]
    rfl
  · rw [hafter.kept index hindex]
    exact congrArg (Option.map L.entry.encode) hentry
  · obtain ⟨p, hp, hindex⟩ := hpurged a ha
    exact ⟨p, hafter.lastPurged.trans (congrArg Except.ok hp), hindex⟩
  · rintro rfl
    revert hkey
    decide

/-- Three entries are appended, two applied, and a purge of these two stops after its first transaction. -/
def tornPurge : List StoreEvent :=
  [.call (.append [entryAt 0 .blank, entryAt 1 .blank, entryAt 2 .blank]),
    .call (.apply [entryAt 0 .blank, entryAt 1 .blank]),
    .crash (.purge ⟨⟨1, 1⟩, 1⟩) 1]

theorem tornPurge_allowed (C : Codec) (L : LogCodec) :
    AllSteps (storeEvent C L 1) (StoreEvent.Allowed L) freshDb tornPurge := by
  refine ⟨⟨none, rfl, rfl, by decide⟩, ⟨none, rfl, rfl, fun entry hentry => ?_⟩,
    ⟨some ⟨⟨1, 1⟩, 1⟩, ?_, ⟨⟨1, 1⟩, 1⟩, rfl, le_refl _⟩, trivial⟩
  · simp only [List.mem_cons, List.not_mem_nil, or_false] at hentry
    rcases hentry with rfl | rfl <;> rfl
  · exact readMeta_eq _ (Table.get_insert_self _ _ _)

theorem tornPurge_applied (C : Codec) (L : LogCodec) :
    (run (storeEvent C L 1) freshDb tornPurge).raftMeta.get metaApplied = some (L.logId.encode ⟨⟨1, 1⟩, 1⟩) :=
  Table.get_insert_self _ _ _

theorem torn_purge_is_repaired :
    ∃ db', normalizeRaftLog jsonRaftCodec (run (storeEvent jsonCodec jsonLogCodec 1) freshDb tornPurge) = .ok db' ∧
      db'.log.get 2 = some (Entry.json.serde.encode (entryAt 2 .blank)) ∧
      ∃ p, db'.lastPurged jsonRaftCodec = .ok (some p) ∧ p.index = 1 := by
  obtain ⟨db', applied, hdb', happlied, _, hkept, hpurged, hmeta⟩ :=
    log_survives_crashes jsonCodec jsonLogCodec 1 .empty tornPurge (tornPurge_allowed jsonCodec jsonLogCodec)
  have hget := (hmeta metaApplied List.mem_cons_self).trans (tornPurge_applied jsonCodec jsonLogCodec)
  obtain rfl : applied = some ⟨⟨1, 1⟩, 1⟩ := Except.ok.inj (happlied.symm.trans (readMeta_eq _ hget))
  exact ⟨db', hdb', hkept 2 (entryAt 2 .blank) (le_refl _) rfl, hpurged _ rfl⟩

end HyperionVault
