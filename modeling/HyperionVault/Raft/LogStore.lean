import HyperionVault.Lib.Run
import HyperionVault.Raft.Json
import HyperionVault.Raft.Log
import Mathlib.Data.Nat.Find

/-!
# The log that the log store keeps

`get_log_state` puts its answer together from the purged position, the first key of the log and its last row. Behind
a repair, and in every run of appends, truncations and purges that openraft makes, the answer is that of a log
without gaps.

* `getLogState_of_noGap`, `gapBehind_of_segment` : the answer where the first entry follows the purged one;
* `exists_unbroken_end` : the row of entries above a floor has an end;
* `Repaired`, `normalize_repairs_log` : what a repair leaves of any log;
* `RaftLog`, `LogCall` : the log as a list of entries behind a purged position, and the calls on it;
* `Represents`, `represents_call` : the database holds that log, and every call keeps it so;
* `log_store_implements_log` : what the reads of the log store return after any run of calls.
-/

namespace HyperionVault
open Lib

/-! ## The answer without a gap -/

section State
variable {L : LogCodec} {db : Db} {purged : Option LogId}

theorem getLogState_of_noGap (last : Option Entry) (hpurged : db.lastPurged L.toRaftCodec = .ok purged)
    (hgap : LogStore.gapBehind purged db.log.keys.head? = false)
    (hlast : db.log.rows.getLast?.map (fun row => L.entry.decode row.2) = last.map some) :
    LogStore.getLogState L db = .ok ⟨purged, (last.map Entry.logId).or purged⟩ := by
  unfold LogStore.getLogState
  rw [hpurged]
  simp only [hgap, Bool.false_eq_true, if_false]
  cases hrow : db.log.rows.getLast? with
  | none =>
      rw [hrow] at hlast
      obtain rfl : last = none := Option.map_eq_none_iff.mp hlast.symm
      rfl
  | some row =>
      rw [hrow, Option.map_some] at hlast
      obtain ⟨entry, rfl, hdec⟩ := Option.map_eq_some_iff.mp hlast.symm
      dsimp only
      rw [← hdec]
      rfl

/-- The first entry of a segment that begins above the purged position follows it. -/
theorem gapBehind_of_segment {V : Type} {t : Table Nat V} {next : Nat}
    (h : t.Segment (aboveFloor (purged.map LogId.index)) next) (hbound : ∀ k, (t.get k).isSome → k < indexBound) :
    LogStore.gapBehind purged t.keys.head? = false := by
  unfold LogStore.gapBehind
  rw [h.head?_keys]
  split_ifs with hlt
  · have hfirst := hbound _ ((h _).mpr ⟨le_refl _, hlt⟩)
    cases purged with
    | none => rfl
    | some p =>
        have hstart : aboveFloor ((some p).map LogId.index) = p.index + 1 := rfl
        have hscan : scanStart ((some p).map LogId.index) = min (p.index + 1) (indexBound - 1) := rfl
        rw [hstart] at hfirst ⊢
        exact decide_eq_false (by rw [hscan]; omega)
  · rfl

end State

/-! ## Repairs -/

/-- The row of keys from `start` on ends somewhere. -/
theorem exists_unbroken_end {keys : List Nat} {bound : Nat} (hbound : ∀ k ∈ keys, k < bound) (start : Nat) :
    ∃ next, start ≤ next ∧ ∀ i, Unbroken keys start i ↔ start ≤ i ∧ i < next := by
  have hmissing : ∃ n, start ≤ n ∧ n ∉ keys := by
    refine ⟨max start bound, le_max_left _ _, fun hmem => ?_⟩
    have hlt := hbound _ hmem
    omega
  obtain ⟨hle, hnot⟩ := Nat.find_spec hmissing
  refine ⟨Nat.find hmissing, hle, fun i => ⟨fun ⟨hi, hall⟩ => ⟨hi, ?_⟩, fun ⟨hi, hlt⟩ => ⟨hi, fun j hj hji => ?_⟩⟩⟩
  · by_contra hge
    exact hnot (hall _ hle (by omega))
  · by_contra hj'
    exact Nat.find_min hmissing (show j < Nat.find hmissing by omega) ⟨hj, hj'⟩

/-- Each entry is stored under its own index, below the last index there is. -/
def LogReadable (L : LogCodec) (db : Db) : Prop :=
  ∀ index value, db.log.get index = some value →
    index < indexBound - 1 ∧ ∃ entry, L.entry.decode value = some entry ∧ entry.logId.index = index

theorem LogReadable.index_lt {L : LogCodec} {db : Db} (h : LogReadable L db) {index : Nat}
    (hindex : (db.log.get index).isSome) : index < indexBound := by
  obtain ⟨value, hvalue⟩ := Option.isSome_iff_exists.mp hindex
  have hlt := (h index value hvalue).1
  omega

/-- The log after a repair that found these positions: the entries of the longest row above the floor, and the applied
position as the purged one. The answer of `get_log_state` is that row. -/
structure Repaired (L : LogCodec) (applied purged : Option LogId) (db db' : Db) : Prop where
  entries : ∀ index value, db'.log.get index = some value ↔ db.log.get index = some value ∧
    Unbroken db.log.keys (aboveFloor ((applied.map LogId.index).or (purged.map LogId.index))) index
  position : db'.lastPurged L.toRaftCodec = .ok (applied.or purged)
  unchanged : applied = none → db'.raftMeta.get metaPurged = db.raftMeta.get metaPurged
  again : normalizeRaftLog L.toRaftCodec db' = .ok db'
  state : ∃ last, LogStore.getLogState L db' = .ok ⟨applied.or purged, last⟩ ∧
    (db'.log = .empty → last = applied.or purged) ∧
    (∀ index value, db'.log.get index = some value → (∀ j, (db'.log.get j).isSome → j ≤ index) →
      ∃ entry, L.entry.decode value = some entry ∧ last = some entry.logId) ∧
    ∀ index, (db'.log.get index).isSome ↔
      (∀ p ∈ applied.or purged, p.index < index) ∧ ∃ l ∈ last, index ≤ l.index

/-- The purged position is left alone, or moved up to the applied one. -/
def MetaRepaired (R : RaftCodec) (applied purged : Option LogId) (db db' : Db) : Prop :=
  advancePurged applied purged = false ∧ db'.raftMeta = db.raftMeta ∨
    ∃ a, applied = some a ∧ advancePurged applied purged = true ∧
      db'.raftMeta = db.raftMeta.insert metaPurged (R.logId.encode a)

section Repair
variable {L : LogCodec} {R : RaftCodec} {db db' : Db} {applied purged : Option LogId}

/-- A repair deletes entries, and writes the applied position where the purged one is behind. -/
theorem normalizeRaftLog_cases (happlied : db.lastApplied R = .ok applied) (hpurged : db.lastPurged R = .ok purged) :
    ∃ db', normalizeRaftLog R db = .ok db' ∧ db'.log = db.log.removeAll (repairDeletes applied purged db) ∧
      MetaRepaired R applied purged db db' := by
  have hcommits : normalizeRaftLog R db = .ok (afterCommits db (repairCommits R applied purged db)) := by
    unfold normalizeRaftLog normalizeCommits
    rw [happlied, hpurged]
    rfl
  rw [hcommits]
  refine ⟨_, rfl, ?_⟩
  rcases repairCommits_cases R applied purged db with ⟨hadvance, ⟨hnil, hsame⟩ | hone⟩ | ⟨a, ha, hadvance, htwo⟩
  · rw [hnil]
    exact ⟨(congrArg Db.log hsame).symm, Or.inl ⟨hadvance, rfl⟩⟩
  · rw [hone]
    exact ⟨rfl, Or.inl ⟨hadvance, rfl⟩⟩
  · rw [htwo]
    exact ⟨rfl, Or.inr ⟨a, ha, hadvance, rfl⟩⟩

/-- A purged position that is not advanced is the applied one. -/
theorem or_eq_of_not_advance (hadvance : advancePurged applied purged = false)
    (hle : ∀ a ∈ applied, ∀ p ∈ purged, p.index ≤ a.index ∧ (p.index = a.index → p = a)) : applied.or purged = purged := by
  cases applied with
  | none => rfl
  | some a =>
      cases purged with
      | none => cases hadvance
      | some p =>
          have hge : ¬p.index < a.index := of_decide_eq_false hadvance
          obtain ⟨hpa, heq⟩ := hle a rfl p rfl
          rw [heq (by omega)]
          rfl

theorem lastPurged_repaired (hpurged : db.lastPurged R = .ok purged)
    (hle : ∀ a ∈ applied, ∀ p ∈ purged, p.index ≤ a.index ∧ (p.index = a.index → p = a))
    (hmeta : MetaRepaired R applied purged db db') :
    db'.lastPurged R = .ok (applied.or purged) := by
  rcases hmeta with ⟨hadvance, hmeta⟩ | ⟨a, rfl, _, hmeta⟩
  · rw [or_eq_of_not_advance hadvance hle, ← hpurged]
    exact readMeta_congr _ (by rw [hmeta])
  · refine readMeta_eq _ ?_
    rw [hmeta]
    exact Table.get_insert_self _ _ _

theorem lastApplied_repaired (happlied : db.lastApplied R = .ok applied)
    (hmeta : MetaRepaired R applied purged db db') : db'.lastApplied R = .ok applied := by
  rw [← happlied]
  apply readMeta_congr
  rcases hmeta with ⟨_, hmeta⟩ | ⟨a, _, _, hmeta⟩
  · rw [hmeta]
  · rw [hmeta]
    exact Table.get_insert_of_ne _ _ (by decide)

theorem get_repaired (hbound : ∀ k, (db.log.get k).isSome → k < indexBound)
    (hlog : db'.log = db.log.removeAll (repairDeletes applied purged db)) (index : Nat) (value : Bytes) :
    db'.log.get index = some value ↔ db.log.get index = some value ∧
      Unbroken db.log.keys (aboveFloor ((applied.map LogId.index).or (purged.map LogId.index))) index := by
  have hkeys : ∀ k ∈ db.log.keys, k < indexBound := fun k hk => hbound k (Table.mem_keys.mp hk)
  have hdeleted := @mem_scan ((applied.map LogId.index).or (purged.map LogId.index)) _ db.log.keys_sorted hkeys index
  rw [hlog, Table.get_removeAll]
  split_ifs with hmem
  · exact ⟨nofun, fun h => absurd h.2 (hdeleted.mp hmem).2⟩
  · refine ⟨fun hget => ⟨hget, ?_⟩, fun h => h.1⟩
    by_contra hnot
    exact hmem (hdeleted.mpr ⟨Table.mem_keys.mpr (Option.isSome_iff_exists.mpr ⟨value, hget⟩), hnot⟩)

/-- The entries that are left are a segment. -/
theorem segment_repaired {start : Nat} (hbound : ∀ k, (db.log.get k).isSome → k < indexBound)
    (hentries : ∀ index value, db'.log.get index = some value ↔
      db.log.get index = some value ∧ Unbroken db.log.keys start index) :
    ∃ next, start ≤ next ∧ db'.log.Segment start next := by
  obtain ⟨next, hle, hrow⟩ := exists_unbroken_end (fun k hk => hbound k (Table.mem_keys.mp hk)) start
  refine ⟨next, hle, fun index => ?_⟩
  rw [← hrow, Option.isSome_iff_exists]
  constructor
  · rintro ⟨value, hvalue⟩
    exact ((hentries index value).mp hvalue).2
  · intro hunbroken
    have hkey := hunbroken.2 index hunbroken.1 (le_refl _)
    obtain ⟨value, hvalue⟩ := Option.isSome_iff_exists.mp (Table.mem_keys.mp hkey)
    exact ⟨value, (hentries index value).mpr ⟨hvalue, hunbroken⟩⟩

/-- A repair of a segment above the floor, with the purged position at the applied one, does nothing. -/
theorem normalizeRaftLog_of_segment {next : Nat} (happlied : db.lastApplied R = .ok applied)
    (hpurged : db.lastPurged R = .ok (applied.or purged)) (hbound : ∀ k, (db.log.get k).isSome → k < indexBound)
    (hsegment : db.log.Segment (aboveFloor ((applied.or purged).map LogId.index)) next) :
    normalizeRaftLog R db = .ok db := by
  have hfloor : (applied.map LogId.index).or ((applied.or purged).map LogId.index) =
      (applied.or purged).map LogId.index := by
    cases applied <;> rfl
  have hadvance : advancePurged applied (applied.or purged) = false := by
    cases applied with
    | none => rfl
    | some a => exact decide_eq_false (Nat.lt_irrefl _)
  have hdeletes : repairDeletes applied (applied.or purged) db = [] := by
    refine List.eq_nil_iff_forall_not_mem.mpr fun index hmem => ?_
    unfold repairDeletes at hmem
    rw [hfloor] at hmem
    obtain ⟨hkey, hnot⟩ := (mem_scan db.log.keys_sorted (fun k hk => hbound k (Table.mem_keys.mp hk)) index).mp hmem
    obtain ⟨hle, hlt⟩ := (hsegment index).mp (Table.mem_keys.mp hkey)
    exact hnot ⟨hle, fun j hj hji => Table.mem_keys.mpr ((hsegment j).mpr ⟨hj, by omega⟩)⟩
  unfold normalizeRaftLog normalizeCommits
  rw [happlied, hpurged]
  dsimp only
  unfold repairCommits
  rw [hdeletes, hadvance]
  rfl

/-- What `get_log_state` answers for a segment of readable entries above the purged position. -/
theorem getLogState_of_segment {next : Nat} (hlog : LogReadable L db) (hpurged : db.lastPurged L.toRaftCodec = .ok purged)
    (hsegment : db.log.Segment (aboveFloor (purged.map LogId.index)) next)
    (hle : aboveFloor (purged.map LogId.index) ≤ next) :
    ∃ last, LogStore.getLogState L db = .ok ⟨purged, last⟩ ∧ (db.log = .empty → last = purged) ∧
      (∀ index value, db.log.get index = some value → (∀ j, (db.log.get j).isSome → j ≤ index) →
        ∃ entry, L.entry.decode value = some entry ∧ last = some entry.logId) ∧
      ∀ index, (db.log.get index).isSome ↔ (∀ p ∈ purged, p.index < index) ∧ ∃ l ∈ last, index ≤ l.index := by
  have habove (index : Nat) : aboveFloor (purged.map LogId.index) ≤ index ↔ ∀ p ∈ purged, p.index < index := by
    cases purged with
    | none => simp [aboveFloor]
    | some p =>
        simp only [aboveFloor, Option.map_some, Option.getD_some, Option.mem_def, Option.some.injEq, forall_eq',
          Nat.succ_le_iff]
  have hgap := gapBehind_of_segment hsegment (fun _ => hlog.index_lt)
  have hrow := hsegment.getLast?_rows
  rcases Nat.eq_or_lt_of_le hle with heq | hlt
  · -- no entry is left
    rw [if_neg (by omega)] at hrow
    have hnone (index : Nat) : ¬(db.log.get index).isSome := by
      rw [hsegment index]
      omega
    refine ⟨purged, ?_, fun _ => rfl, fun index value hvalue _ => ?_, fun index => ?_⟩
    · exact getLogState_of_noGap none hpurged hgap (by rw [hrow]; rfl)
    · exact absurd (by rw [hvalue]; rfl) (hnone index)
    · refine iff_of_false (hnone index) ?_
      rintro ⟨hp, l, hl, hil⟩
      have hli := hp l hl
      omega
  · -- the last entry is the one before `next`
    obtain ⟨value, hvalue⟩ := Option.isSome_iff_exists.mp ((hsegment (next - 1)).mpr ⟨by omega, by omega⟩)
    obtain ⟨_, entry, hdec, hindex⟩ := hlog (next - 1) value hvalue
    rw [if_pos hlt, hvalue] at hrow
    refine ⟨some entry.logId, ?_, fun hempty => ?_, fun index value' hvalue' hmax => ?_, fun index => ?_⟩
    · exact getLogState_of_noGap (some entry) hpurged hgap (by rw [hrow]; exact congrArg some hdec)
    · rw [hempty] at hvalue
      cases hvalue
    · have hindex' : index = next - 1 := by
        have hin := (hsegment index).mp (by rw [hvalue']; rfl)
        have hge := hmax (next - 1) (by rw [hvalue]; rfl)
        omega
      subst hindex'
      rw [hvalue] at hvalue'
      cases hvalue'
      exact ⟨entry, hdec, rfl⟩
    · rw [hsegment index, habove]
      refine and_congr_right fun _ => ?_
      constructor
      · intro hi
        exact ⟨entry.logId, rfl, by omega⟩
      · rintro ⟨l, hl, hil⟩
        cases hl
        omega

end Repair

/-- A repair of any log whose entries can be read, with the purged position at or below the applied one. -/
theorem normalize_repairs_log (L : LogCodec) (db : Db) (applied purged : Option LogId) (hlog : LogReadable L db)
    (happlied : db.lastApplied L.toRaftCodec = .ok applied) (hpurged : db.lastPurged L.toRaftCodec = .ok purged)
    (hle : ∀ a ∈ applied, ∀ p ∈ purged, p.index ≤ a.index ∧ (p.index = a.index → p = a)) :
    ∃ db', normalizeRaftLog L.toRaftCodec db = .ok db' ∧ Repaired L applied purged db db' := by
  obtain ⟨db', hnormalize, hremoved, hmeta⟩ := normalizeRaftLog_cases happlied hpurged
  have hentries := get_repaired (fun _ => hlog.index_lt) hremoved
  have hposition := lastPurged_repaired hpurged hle hmeta
  have hfloor : (applied.map LogId.index).or (purged.map LogId.index) = (applied.or purged).map LogId.index := by
    cases applied <;> rfl
  obtain ⟨next, hnext, hsegment⟩ := segment_repaired (fun _ => hlog.index_lt) hentries
  rw [hfloor] at hnext hsegment
  have hlog' : LogReadable L db' := fun index value hvalue => hlog index value ((hentries index value).mp hvalue).1
  refine ⟨db', hnormalize, hentries, hposition, fun hnone => ?_, ?_, ?_⟩
  · rcases hmeta with ⟨_, hsame⟩ | ⟨a, ha, _⟩
    · rw [hsame]
    · cases hnone.symm.trans ha
  · exact normalizeRaftLog_of_segment (lastApplied_repaired happlied hmeta) hposition (fun _ => hlog'.index_lt) hsegment
  · exact getLogState_of_segment hlog' hposition hsegment hnext

theorem logReadable_ofRows {L : LogCodec} {db : Db} {entries : List Entry}
    (hlog : db.log = .ofRows (entries.map fun entry => (entry.logId.index, L.entry.encode entry)))
    (hbound : ∀ entry ∈ entries, entry.logId.index < indexBound - 1) : LogReadable L db := by
  intro index value hvalue
  rw [hlog, Table.get_ofRows] at hvalue
  obtain ⟨entry, hentry, hrow⟩ := List.mem_map.mp (List.mem_reverse.mp (Table.mem_of_getRows hvalue))
  cases hrow
  exact ⟨hbound entry hentry, entry, L.entry.decode_encode entry, rfl⟩

/-- A log that was applied through index 1 and has lost its entry at index 3. -/
def tornDb (L : LogCodec) : Db where
  tables := .empty
  log := .ofRows ([entryAt 1 .blank, entryAt 2 .blank, entryAt 4 .blank].map fun entry =>
    (entry.logId.index, L.entry.encode entry))
  raftMeta := Table.empty.insert metaApplied (L.logId.encode ⟨⟨1, 1⟩, 1⟩)

theorem torn_log_repaired : ∃ db', normalizeRaftLog jsonRaftCodec (tornDb jsonLogCodec) = .ok db' ∧
    Repaired jsonLogCodec (some ⟨⟨1, 1⟩, 1⟩) none (tornDb jsonLogCodec) db' :=
  normalize_repairs_log jsonLogCodec (tornDb jsonLogCodec) (some ⟨⟨1, 1⟩, 1⟩) none
    (logReadable_ofRows rfl (by decide)) (readMeta_eq _ (Table.get_insert_self _ _ _))
    (readMeta_none _ (Table.get_insert_of_ne _ _ (by decide))) nofun

/-! ## The log as a list -/

/-- The entries behind a purged position. -/
structure RaftLog where
  lastPurged : Option LogId
  entries : List Entry

inductive LogCall where
  | append (entries : List Entry)
  | truncate (logId : LogId)
  | purge (logId : LogId)

namespace RaftLog

def lastLogId (log : RaftLog) : Option LogId := (log.entries.getLast?.map Entry.logId).or log.lastPurged

/-- The index at which the log goes on. -/
def nextIndex (log : RaftLog) : Nat := aboveFloor (log.lastLogId.map LogId.index)

def call (log : RaftLog) : LogCall → RaftLog
  | .append entries => { log with entries := log.entries ++ entries }
  | .truncate logId => { log with entries := log.entries.filter fun entry => entry.logId.index < logId.index }
  | .purge logId => ⟨some logId, log.entries.filter fun entry => logId.index < entry.logId.index⟩

end RaftLog

/-- Entries go on where the log ends, a truncation is above the purged position, and that one never goes back. -/
def LogCall.Allowed (log : RaftLog) : LogCall → Prop
  | .append entries =>
      entries.map (fun entry => entry.logId.index) = List.range' log.nextIndex entries.length ∧
        ∀ entry ∈ entries, entry.logId.index < indexBound
  | .truncate logId => ∀ p ∈ log.lastPurged, p.index < logId.index
  | .purge logId => ∀ p ∈ log.lastPurged, p.index ≤ logId.index

/-- A call of the log store, with all its transactions. -/
def LogStore.call (L : LogCodec) (db : Db) : LogCall → Db
  | .append entries => LogStore.append L entries db
  | .truncate logId => LogStore.truncate logId db
  | .purge logId => afterCommits db (LogStore.purge L logId db)

/-- The database holds the log: its rows are the entries, without a gap from the purged position up to `next`. -/
structure Represents (L : LogCodec) (db : Db) (log : RaftLog) (next : Nat) : Prop where
  purged : db.raftMeta.get metaPurged = log.lastPurged.map L.logId.encode
  rows : db.log.rows = log.entries.map fun entry => (entry.logId.index, L.entry.encode entry)
  segment : db.log.Segment (aboveFloor (log.lastPurged.map LogId.index)) next
  start_le : aboveFloor (log.lastPurged.map LogId.index) ≤ next
  bound : ∀ entry ∈ log.entries, entry.logId.index < indexBound

namespace Represents
variable {L : LogCodec} {db : Db} {log : RaftLog} {next : Nat}

theorem keys (h : Represents L db log next) : db.log.keys = log.entries.map fun entry => entry.logId.index := by
  rw [Table.keys, h.rows, List.map_map]
  rfl

theorem nextIndex (h : Represents L db log next) : log.nextIndex = next := by
  have hlast : log.entries.getLast?.map (fun entry => entry.logId.index) =
      if aboveFloor (log.lastPurged.map LogId.index) < next then some (next - 1) else none := by
    rw [← h.segment.getLast?_keys, h.keys, List.getLast?_map]
  have hstart := h.start_le
  unfold RaftLog.nextIndex RaftLog.lastLogId
  cases hentry : log.entries.getLast? with
  | none =>
      rw [hentry, Option.map_none] at hlast
      split_ifs at hlast with hlt
      exact le_antisymm hstart (Nat.not_lt.mp hlt)
  | some entry =>
      rw [hentry, Option.map_some] at hlast
      split_ifs at hlast with hlt
      have hindex : entry.logId.index = next - 1 := Option.some.inj hlast
      change entry.logId.index + 1 = next
      omega

theorem append (h : Represents L db log next) {entries : List Entry} (hallowed : (LogCall.append entries).Allowed log) :
    Represents L (LogStore.append L entries db) (log.call (.append entries)) (next + entries.length) := by
  obtain ⟨hindexes, hbound⟩ := hallowed
  rw [h.nextIndex] at hindexes
  have hkeys : (entries.map fun entry => (entry.logId.index, L.entry.encode entry)).map Prod.fst =
      List.range' next entries.length := by
    rw [List.map_map]
    exact hindexes
  refine ⟨h.purged, ?_, ?_, ?_, fun entry hentry => ?_⟩
  · change (db.log.insertAll _).rows = (log.entries ++ entries).map _
    rw [Table.rows_insertAll_of_lt, h.rows, List.map_append]
    · have hsorted : (List.range' next entries.length).Pairwise (· < ·) := List.pairwise_lt_range'
      rw [← hkeys] at hsorted
      exact List.pairwise_map.mp hsorted
    · -- the keys so far are below `next`
      intro row hrow new hnew
      have hlt := ((h.segment row.1).mp (by rw [Table.mem_rows.mp hrow]; rfl)).2
      have hge : new.1 ∈ List.range' next entries.length := hkeys ▸ List.mem_map_of_mem hnew
      rw [List.mem_range'_1] at hge
      omega
  · have hrows : (entries.map fun entry => (entry.logId.index, L.entry.encode entry)).map Prod.fst =
        List.range' next (entries.map fun entry => (entry.logId.index, L.entry.encode entry)).length := by
      rw [List.length_map]
      exact hkeys
    have hsegment := h.segment.insertAll h.start_le hrows
    rw [List.length_map] at hsegment
    exact hsegment
  · exact h.start_le.trans (Nat.le_add_right _ _)
  · rcases List.mem_append.mp hentry with hentry | hentry
    · exact h.bound entry hentry
    · exact hbound entry hentry

theorem truncate (h : Represents L db log next) {logId : LogId} (hallowed : (LogCall.truncate logId).Allowed log) :
    Represents L (LogStore.truncate logId db) (log.call (.truncate logId)) (min next logId.index) := by
  have habove : aboveFloor (log.lastPurged.map LogId.index) ≤ logId.index := by
    cases hpurged : log.lastPurged with
    | none => exact Nat.zero_le _
    | some p => exact hallowed p hpurged
  refine ⟨h.purged, ?_, h.segment.removeFrom logId.index, le_min h.start_le habove, fun entry hentry =>
    h.bound entry (List.mem_of_mem_filter hentry)⟩
  change (db.log.removeWhere _).rows = (log.entries.filter _).map _
  rw [Table.rows_removeWhere, h.rows, List.filter_map]
  congr 2
  funext entry
  grind

theorem purge (h : Represents L db log next) {logId : LogId} (hallowed : (LogCall.purge logId).Allowed log) :
    Represents L (LogStore.call L db (.purge logId)) (log.call (.purge logId)) (max next (logId.index + 1)) := by
  have hstart : aboveFloor (log.lastPurged.map LogId.index) ≤ logId.index + 1 := by
    cases hpurged : log.lastPurged with
    | none => exact Nat.zero_le _
    | some p => exact Nat.succ_le_succ (hallowed p hpurged)
  refine ⟨Table.get_insert_self _ _ _, ?_, ?_, le_max_right _ _, fun entry hentry =>
    h.bound entry (List.mem_of_mem_filter hentry)⟩
  · change (db.log.removeWhere _).rows = (log.entries.filter _).map _
    rw [Table.rows_removeWhere, h.rows, List.filter_map]
    congr 2
    funext entry
    grind
  · -- a purge may go past the end of the log
    refine (h.segment.removeThrough logId.index).congr fun i => ?_
    change _ ↔ logId.index + 1 ≤ i ∧ _
    omega

theorem indexes_sorted (h : Represents L db log next) :
    log.entries.Pairwise fun a b => a.logId.index < b.logId.index := by
  have hsorted := db.log.keys_sorted
  rw [h.keys] at hsorted
  exact List.pairwise_map.mp hsorted

theorem lastPurged (h : Represents L db log next) : db.lastPurged L.toRaftCodec = .ok log.lastPurged := by
  cases hpurged : log.lastPurged with
  | none =>
      refine readMeta_none _ ?_
      rw [h.purged, hpurged]
      rfl
  | some p =>
      refine readMeta_eq _ ?_
      rw [h.purged, hpurged]
      rfl

theorem gapBehind (h : Represents L db log next) :
    LogStore.gapBehind log.lastPurged db.log.keys.head? = false := by
  refine gapBehind_of_segment h.segment fun index hindex => ?_
  have hkey := Table.mem_keys.mpr hindex
  rw [h.keys] at hkey
  obtain ⟨entry, hentry, rfl⟩ := List.mem_map.mp hkey
  exact h.bound entry hentry

theorem getLogState (h : Represents L db log next) :
    LogStore.getLogState L db = .ok ⟨log.lastPurged, log.lastLogId⟩ := by
  refine getLogState_of_noGap _ h.lastPurged h.gapBehind ?_
  rw [h.rows, List.getLast?_map, Option.map_map]
  exact congrArg (log.entries.getLast?.map ·) (funext fun entry => L.entry.decode_encode entry)

end Represents

theorem decodeEntries_encoded (L : LogCodec) (entries : List Entry) :
    LogStore.decodeEntries L (entries.map fun entry => (entry.logId.index, L.entry.encode entry)) = .ok entries := by
  induction entries with
  | nil => rfl
  | cons entry entries ih => rw [List.map_cons, LogStore.decodeEntries, L.entry.decode_encode, ih]

theorem Represents.tryGetLogEntries {L : LogCodec} {db : Db} {log : RaftLog} {next : Nat}
    (h : Represents L db log next) (range : IndexRange) :
    LogStore.tryGetLogEntries L range db =
      .ok (log.entries.filter fun entry => range.contains entry.logId.index) := by
  unfold LogStore.tryGetLogEntries
  rw [h.rows, List.filter_map]
  exact decodeEntries_encoded L _

theorem represents_call {L : LogCodec} (db : Db) (log : RaftLog) (call : LogCall)
    (h : ∃ next, Represents L db log next) (hallowed : call.Allowed log) :
    ∃ next, Represents L (LogStore.call L db call) (log.call call) next := by
  obtain ⟨next, h⟩ := h
  cases call with
  | append entries => exact ⟨_, h.append hallowed⟩
  | truncate logId => exact ⟨_, h.truncate hallowed⟩
  | purge logId => exact ⟨_, h.purge hallowed⟩

theorem represents_empty {L : LogCodec} {db : Db} (hlog : db.log = .empty)
    (hpurged : db.raftMeta.get metaPurged = none) : Represents L db ⟨none, []⟩ 0 where
  purged := hpurged
  rows := by rw [hlog]; rfl
  segment := fun index => by
    rw [hlog]
    exact iff_of_false nofun (fun h => absurd h.2 (Nat.not_lt_zero _))
  start_le := le_refl _
  bound := fun _ hentry => absurd hentry List.not_mem_nil

/-- After any calls from an empty log on, the log store reads as the log that these calls make. -/
theorem log_store_implements_log (L : LogCodec) (db : Db) (hlog : db.log = .empty)
    (hpurged : db.raftMeta.get metaPurged = none) (calls : List LogCall)
    (hcalls : AllSteps RaftLog.call (fun log call => call.Allowed log) ⟨none, []⟩ calls) :
    let db' := run (LogStore.call L) db calls
    let log := run RaftLog.call ⟨none, []⟩ calls
    (∀ range, LogStore.tryGetLogEntries L range db' =
      .ok (log.entries.filter fun entry => range.contains entry.logId.index)) ∧
    log.entries.Pairwise (fun a b => a.logId.index < b.logId.index) ∧
    LogStore.getLogState L db' = .ok ⟨log.lastPurged, log.lastLogId⟩ ∧
    db'.lastPurged L.toRaftCodec = .ok log.lastPurged ∧
    LogStore.gapBehind log.lastPurged db'.log.keys.head? = false := by
  obtain ⟨next, h⟩ := run_sim (S := fun db log => ∃ next, Represents L db log next)
    represents_call ⟨0, represents_empty hlog hpurged⟩ hcalls
  exact ⟨h.tryGetLogEntries, h.indexes_sorted, h.getLogState, h.lastPurged, h.gapBehind⟩

/-- Two entries, a truncation of the second, and a purge past the end. -/
def someCalls : List LogCall :=
  [.append [entryAt 0 .blank, entryAt 1 .blank], .truncate ⟨⟨1, 1⟩, 1⟩, .purge ⟨⟨1, 1⟩, 4⟩,
    .append [entryAt 5 .blank]]

theorem someCalls_allowed : AllSteps RaftLog.call (fun log call => call.Allowed log) ⟨none, []⟩ someCalls := by
  refine ⟨⟨rfl, by decide⟩, nofun, nofun, ⟨rfl, by decide⟩, trivial⟩

theorem some_calls_read_back : LogStore.getLogState jsonLogCodec
    (run (LogStore.call jsonLogCodec) freshDb someCalls) = .ok ⟨some ⟨⟨1, 1⟩, 4⟩, some ⟨⟨1, 1⟩, 5⟩⟩ :=
  (log_store_implements_log jsonLogCodec freshDb rfl rfl someCalls someCalls_allowed).2.2.1

end HyperionVault
