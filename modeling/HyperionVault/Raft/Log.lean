import HyperionVault.Lib.Segment
import HyperionVault.Raft.StateMachine

/-!
# The raft log on disk

`LogStore` of `raft/store.rs`, and the two functions that repair or drop the raft state when a node starts.
Each write is a transaction; where a function makes two of them, the model gives the database after each.

* `LogStore.saveVote`, `LogStore.append`, `LogStore.truncate`, `LogStore.purge` : the writes of the log store;
* `scanLog` : the loop of `normalize_raft_log` over the keys of the log, `normalizeCommits` the databases after
  its transactions, `normalizeRaftLog` the whole of it;
* `resetRaftState` : the log and the metadata dropped, the data kept;
* `LogStore.tryGetLogEntries`, `LogStore.getLogState` : the reads of the log store;
* `mem_scan` : the entries that are kept are the longest unbroken row above the floor.
-/

namespace HyperionVault
open Lib

structure Vote where
  leaderId : LeaderId
  committed : Bool
deriving DecidableEq

/-- The encodings of the raft store: those of the state machine, and what the log store adds. -/
structure LogCodec extends RaftCodec where
  entry : Serde Entry
  vote : MetaSerde Vote

def metaVote : String := "vote"

/-! ## The log store -/

namespace LogStore
variable (L : LogCodec)

def saveVote (vote : Vote) (db : Db) : Db := writeMeta L.vote metaVote vote db

def readVote (db : Db) : Except StorageError (Option Vote) := readMeta L.vote metaVote db

def append (entries : List Entry) (db : Db) : Db :=
  { db with log := db.log.insertAll (entries.map fun entry => (entry.logId.index, L.entry.encode entry)) }

def truncate (logId : LogId) (db : Db) : Db := { db with log := db.log.removeWhere (logId.index ≤ ·) }

/-- The databases after the two transactions of a purge. -/
def purge (logId : LogId) (db : Db) : List Db :=
  let removed := { db with log := db.log.removeWhere (· ≤ logId.index) }
  [removed, writeMeta L.logId metaPurged logId removed]

end LogStore

/-! ## Repairing the log -/

/-- Indexes are 64 bits wide. -/
def indexBound : Nat := 2 ^ 64

/-- The keys that are deleted: those up to the floor, and all from the first gap on. -/
def scanLog (floor : Option Nat) : List Nat → Nat → Bool → List Nat
  | [], _, _ => []
  | index :: rest, expected, truncating =>
      if truncating || floor.any (index ≤ ·) then index :: scanLog floor rest expected truncating
      else if index = expected then scanLog floor rest ((expected + 1) % indexBound) truncating
      else index :: scanLog floor rest expected true

/-- The first index above the floor, at most the last one there is. -/
def scanStart (floor : Option Nat) : Nat := (floor.map fun index => min (index + 1) (indexBound - 1)).getD 0

def advancePurged (applied purged : Option LogId) : Bool :=
  match applied, purged with
  | some a, some p => p.index < a.index
  | some _, none => true
  | _, _ => false

structure NormalizeError where
  context : String
  cause : StorageError
deriving DecidableEq

section Normalize
variable (R : RaftCodec)

def Db.lastPurged (db : Db) : Except StorageError (Option LogId) := readMeta R.logId metaPurged db

/-- The keys that a repair deletes that has read these positions. -/
def repairDeletes (applied purged : Option LogId) (db : Db) : List Nat :=
  let floor := (applied.map LogId.index).or (purged.map LogId.index)
  scanLog floor db.log.keys (scanStart floor) false

/-- The databases after the transactions of such a repair. -/
def repairCommits (applied purged : Option LogId) (db : Db) : List Db :=
  let toDelete := repairDeletes applied purged db
  if toDelete.isEmpty && !advancePurged applied purged then []
  else
    let removed := { db with log := db.log.removeAll toDelete }
    match applied with
    | some a =>
        if advancePurged applied purged then [removed, writeMeta R.logId metaPurged a removed] else [removed]
    | none => [removed]

def normalizeCommits (db : Db) : Except NormalizeError (List Db) :=
  match db.lastApplied R with
  | .error e => .error ⟨"read last_applied", e⟩
  | .ok applied =>
      match db.lastPurged R with
      | .error e => .error ⟨"read last_purged", e⟩
      | .ok purged => .ok (repairCommits R applied purged db)

/-- The database after the last of these transactions. -/
def afterCommits (db : Db) (commits : List Db) : Db := commits.getLast?.getD db

def normalizeRaftLog (db : Db) : Except NormalizeError Db := (normalizeCommits R db).map (afterCommits db)

end Normalize

/-! ## Reading the log -/

/-- One end of a range of indexes. -/
inductive IndexLimit where
  | included (index : Nat)
  | excluded (index : Nat)
  | unbounded

structure IndexRange where
  start : IndexLimit
  stop : IndexLimit

def IndexRange.contains (range : IndexRange) (index : Nat) : Bool :=
  (match range.start with
    | .included first => decide (first ≤ index)
    | .excluded before => decide (before < index)
    | .unbounded => true) &&
  match range.stop with
    | .included last => decide (index ≤ last)
    | .excluded after => decide (index < after)
    | .unbounded => true

structure LogState where
  lastPurgedLogId : Option LogId
  lastLogId : Option LogId
deriving DecidableEq

namespace LogStore
variable (L : LogCodec)

def decodeEntries : List (Nat × Bytes) → Except StorageError (List Entry)
  | [] => .ok []
  | (_, value) :: rest =>
      match L.entry.decode value with
      | none => .error .undecodable
      | some entry =>
          match decodeEntries rest with
          | .error e => .error e
          | .ok out => .ok (entry :: out)

def tryGetLogEntries (range : IndexRange) (db : Db) : Except StorageError (List Entry) :=
  decodeEntries L (db.log.rows.filter fun row => range.contains row.1)

/-- The first entry is not the one after the purged position. -/
def gapBehind (storedPurged : Option LogId) (firstIndex : Option Nat) : Bool :=
  firstIndex.any fun first => scanStart (storedPurged.map LogId.index) < first

def getLogState (db : Db) : Except StorageError LogState :=
  match db.lastPurged L.toRaftCodec with
  | .error e => .error e
  | .ok storedPurged =>
      -- behind a gap the entries must have gone with what was applied
      let lastPurged := if gapBehind storedPurged db.log.keys.head? then
          (db.lastApplied L.toRaftCodec).map fun applied => applied.or storedPurged
        else .ok storedPurged
      match lastPurged with
      | .error e => .error e
      | .ok lastPurged =>
          match db.log.rows.getLast? with
          | none => .ok ⟨lastPurged, lastPurged⟩
          | some (_, value) =>
              match L.entry.decode value with
              | none => .error .undecodable
              | some entry => .ok ⟨lastPurged, some entry.logId⟩

end LogStore

/-- The log and all metadata removed; the tables stay. -/
def resetRaftState (db : Db) : Db :=
  { db with log := db.log.removeAll db.log.keys, raftMeta := db.raftMeta.removeAll db.raftMeta.keys }

/-- Nothing to do, only entries to delete, or also a position to write. -/
theorem repairCommits_cases (R : RaftCodec) (applied purged : Option LogId) (db : Db) :
    let removed := { db with log := db.log.removeAll (repairDeletes applied purged db) }
    (advancePurged applied purged = false ∧ (repairCommits R applied purged db = [] ∧ removed = db ∨
      repairCommits R applied purged db = [removed])) ∨
    ∃ a, applied = some a ∧ advancePurged applied purged = true ∧
      repairCommits R applied purged db = [removed, writeMeta R.logId metaPurged a removed] := by
  intro removed
  unfold repairCommits
  cases hadvance : advancePurged applied purged with
  | false =>
      refine Or.inl ⟨rfl, ?_⟩
      cases hdel : (repairDeletes applied purged db).isEmpty with
      | true =>
          have hnil := List.isEmpty_iff.mp hdel
          refine Or.inl ⟨by simp [hnil], ?_⟩
          show { db with log := db.log.removeAll (repairDeletes applied purged db) } = db
          rw [hnil]
          rfl
      | false =>
          right
          cases applied <;> simp [hdel, removed]
  | true =>
      right
      cases applied with
      | none => cases hadvance
      | some a => exact ⟨a, rfl, rfl, by simp [removed]⟩

theorem resetRaftState_eq (db : Db) : resetRaftState db = ⟨db.tables, .empty, .empty⟩ := by
  unfold resetRaftState
  rw [Table.removeAll_keys, Table.removeAll_keys]

/-! ## What the scan deletes -/

/-- Every index from `start` to `index` is among the keys. -/
def Unbroken (keys : List Nat) (start index : Nat) : Prop :=
  start ≤ index ∧ ∀ j, start ≤ j → j ≤ index → j ∈ keys

/-- The first index above the floor. -/
def aboveFloor (floor : Option Nat) : Nat := (floor.map (· + 1)).getD 0

section Scan
variable {floor : Option Nat} {keys : List Nat} {expected : Nat}

theorem scanLog_truncating (floor : Option Nat) (keys : List Nat) (expected : Nat) :
    scanLog floor keys expected true = keys := by
  induction keys with
  | nil => rfl
  | cons k rest ih =>
      rw [scanLog, Bool.true_or, if_pos rfl, ih]

theorem scanLog_below (h : ∀ k ∈ keys, floor.any (k ≤ ·) = true) : scanLog floor keys expected false = keys := by
  induction keys with
  | nil => rfl
  | cons k rest ih =>
      rw [scanLog, h k List.mem_cons_self, Bool.false_or, if_pos rfl, ih fun k' hk' =>
        h k' (List.mem_cons_of_mem _ hk')]

theorem unbroken_cons_of_lt {k start : Nat} (hk : k < start) (index : Nat) :
    Unbroken (k :: keys) start index ↔ Unbroken keys start index := by
  refine and_congr_right fun _ => forall₃_congr fun j hj _ => ?_
  rw [List.mem_cons, or_iff_right (by omega)]

theorem unbroken_cons_self {k index : Nat} (hk : k < index) :
    Unbroken (k :: keys) k index ↔ Unbroken keys (k + 1) index := by
  constructor
  · rintro ⟨_, hall⟩
    refine ⟨hk, fun i hi hindex => ?_⟩
    rcases List.mem_cons.mp (hall i (by omega) hindex) with rfl | hmem
    · omega
    · exact hmem
  · rintro ⟨_, hall⟩
    refine ⟨hk.le, fun i hi hindex => ?_⟩
    rcases Nat.eq_or_lt_of_le hi with rfl | hlt
    · exact List.mem_cons_self
    · exact List.mem_cons_of_mem _ (hall i hlt hindex)

theorem unbroken_self {k : Nat} (hk : k ∈ keys) : Unbroken keys k k := by
  refine ⟨le_refl _, fun j hj hj' => ?_⟩
  rw [le_antisymm hj' hj]
  exact hk

theorem mem_scanLog (hsorted : keys.Pairwise (· < ·)) (hbound : ∀ k ∈ keys, k < indexBound)
    (hfloor : ∀ f ∈ floor, f < expected) (hnext : ∀ k ∈ keys, (∀ f ∈ floor, f < k) → expected ≤ k) (index : Nat) :
    index ∈ scanLog floor keys expected false ↔ index ∈ keys ∧ ¬Unbroken keys expected index := by
  induction keys generalizing expected with
  | nil => simp [scanLog]
  | cons k rest ih =>
      obtain ⟨habove, hrest⟩ := List.pairwise_cons.mp hsorted
      have hbound' : ∀ k' ∈ rest, k' < indexBound := fun k' hk' => hbound k' (List.mem_cons_of_mem _ hk')
      rw [scanLog, Bool.false_or]
      by_cases hlow : floor.any (k ≤ ·) = true
      · -- a key up to the floor is deleted and is in no row above it
        have hk : k < expected := by
          obtain ⟨f, hf, hle⟩ := (Option.any_eq_true _ _).mp hlow
          have hlt := hfloor f hf
          have hle' : k ≤ f := of_decide_eq_true hle
          omega
        rw [if_pos hlow, List.mem_cons, ih hrest hbound' hfloor fun k' hk' => hnext k' (List.mem_cons_of_mem _ hk')]
        rw [unbroken_cons_of_lt hk, List.mem_cons]
        constructor
        · rintro (rfl | ⟨hmem, hnot⟩)
          · exact ⟨Or.inl rfl, fun h => by have hle := h.1; omega⟩
          · exact ⟨Or.inr hmem, hnot⟩
        · rintro ⟨rfl | hmem, hnot⟩
          · exact Or.inl rfl
          · exact Or.inr ⟨hmem, hnot⟩
      · rw [if_neg hlow]
        have hkabove : ∀ f ∈ floor, f < k := by
          intro f hf
          by_contra hle
          exact hlow ((Option.any_eq_true _ _).mpr ⟨f, hf, decide_eq_true (by omega)⟩)
        have hle := hnext k List.mem_cons_self hkabove
        by_cases hk : k = expected
        · subst hk
          rw [if_pos rfl]
          have hkey := hbound k List.mem_cons_self
          have hscan : index ∈ scanLog floor rest ((k + 1) % indexBound) false ↔
              index ∈ rest ∧ ¬Unbroken rest (k + 1) index := by
            rcases Nat.lt_or_ge (k + 1) indexBound with hlt | hge
            · rw [Nat.mod_eq_of_lt hlt]
              exact ih hrest hbound' (fun f hf => (hfloor f hf).trans (Nat.lt_succ_self k)) fun k' hk' _ =>
                habove k' hk'
            · -- nothing comes after the last index there is
              have hnil : rest = [] := List.eq_nil_iff_forall_not_mem.mpr fun j hj => by
                have hj₁ := habove j hj
                have hj₂ := hbound' j hj
                omega
              rw [hnil]
              simp [scanLog]
          rw [hscan, List.mem_cons]
          constructor
          · rintro ⟨hmem, hnot⟩
            exact ⟨Or.inr hmem, (unbroken_cons_self (habove index hmem)).not.mpr hnot⟩
          · rintro ⟨rfl | hmem, hnot⟩
            · exact absurd (unbroken_self List.mem_cons_self) hnot
            · exact ⟨hmem, (unbroken_cons_self (habove index hmem)).not.mp hnot⟩
        · -- the first gap: the expected index is missing, so nothing from here on is in the row
          rw [if_neg hk, scanLog_truncating]
          refine ⟨fun hmem => ⟨hmem, fun hrow => ?_⟩, fun h => h.1⟩
          rcases List.mem_cons.mp (hrow.2 expected (le_refl _) hrow.1) with heq | hin
          · exact hk heq.symm
          · have hlt := habove expected hin
            omega

/-- The entries that are deleted are those outside the unbroken row above the floor. -/
theorem mem_scan (hsorted : keys.Pairwise (· < ·)) (hbound : ∀ k ∈ keys, k < indexBound) (index : Nat) :
    index ∈ scanLog floor keys (scanStart floor) false ↔ index ∈ keys ∧ ¬Unbroken keys (aboveFloor floor) index := by
  cases floor with
  | none => exact mem_scanLog hsorted hbound (fun f hf => by cases hf) (fun _ _ _ => Nat.zero_le _) index
  | some f =>
      have hstart : aboveFloor (some f) = f + 1 := rfl
      have hscan : scanStart (some f) = min (f + 1) (indexBound - 1) := rfl
      rw [hstart, hscan]
      rcases Nat.lt_or_ge (f + 1) indexBound with hlt | hge
      · rw [min_eq_left (by omega)]
        refine mem_scanLog hsorted hbound (fun f' hf' => ?_) (fun k _ hk => hk f rfl) index
        cases hf'
        exact Nat.lt_succ_self f
      · have hbelow : ∀ k ∈ keys, (some f).any (k ≤ ·) = true := by
          intro k hk
          have hlt := hbound k hk
          exact decide_eq_true (by omega)
        rw [scanLog_below hbelow]
        refine ⟨fun hmem => ⟨hmem, fun hrow => ?_⟩, fun h => h.1⟩
        have hlt := hbound index hmem
        have hle := hrow.1
        omega

end Scan

end HyperionVault
