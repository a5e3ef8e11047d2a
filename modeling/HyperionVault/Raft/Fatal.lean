import HyperionVault.Raft.Json
import HyperionVault.Raft.Refine
import HyperionVault.Store.Readable

/-!
# Entries that the state machine cannot apply

An internal error of a committed command is fatal: the state machine returns it instead of a reply, and
meets it again after every restart. A backup whose rows do not decode brings the store into a state where
that happens.

* `apply_single` : the state machine answers every command that does not fail internally;
* `state_machine_never_fails_iff` : the runs in which it never happens.
-/

namespace HyperionVault
open Lib

theorem apply_single {C : Codec} {R : RaftCodec} {nodeId : Nat} {logId : LogId} {command : Command} {db : Db}
    (h : isInternalOutcome (applyCommand C nodeId command db.tables).1 = false) :
    ∃ result, (StateMachine.apply C R nodeId [⟨logId, .normal command⟩] db).1 = .ok [result] := by
  obtain ⟨result, hresult⟩ := ofOutcome_of_noInternal h
  refine ⟨result, ?_⟩
  unfold StateMachine.apply applyEntries applyEntry Batch.begin_
  simp only [hresult, applyEntries, List.nil_append]

/-- In a run from the empty store, no further command ever fails internally, and so the state machine never fails
on an entry, exactly when every backup that the run restores leaves nothing but records in the tables that commands
decode. -/
theorem state_machine_never_fails_iff (C : Codec) (nodeId : Nat) (commands : List Command) :
    (∀ before after, commands = before ++ after → ∀ n command,
      isInternalOutcome (applyCommand C n command (run (storeStep C nodeId) .empty before)).1 = false ∧
      ∀ R logId db, db.tables = run (storeStep C nodeId) .empty before →
        ∃ result, (StateMachine.apply C R n [⟨logId, .normal command⟩] db).1 = .ok [result]) ↔
    ∀ command ∈ commands, command.BringsRecords C := by
  rw [← noInternal_run_iff C nodeId commands]
  constructor
  · intro h before after hsplit n command
    exact (h before after hsplit n command).1
  · intro h before after hsplit n command
    have hno := h before after hsplit n command
    refine ⟨hno, fun R logId db hdb => ?_⟩
    rw [← hdb] at hno
    exact apply_single hno

/-- A backup whose only secret row is three bytes that are no record. -/
def undecodableBackup : BackupData where
  version := backupVersion
  secrets := [("a", [1, 2, 3])]
  versions := []
  roles := []
  tokens := []
  tokensByName := []
  audit := []
  kmsRewrap := []

/-- The restore is applied, and the next change of the secret stops the state machine. -/
theorem restored_row_is_fatal :
    (StateMachine.apply jsonCodec jsonRaftCodec 1 [entryAt 1 (.normal (.restoreDatabase undecodableBackup))]
      freshDb).1 = .ok [.ok] ∧
    ∀ db, db = (StateMachine.apply jsonCodec jsonRaftCodec 1
        [entryAt 1 (.normal (.restoreDatabase undecodableBackup))] freshDb).2 →
      StateMachine.apply jsonCodec jsonRaftCodec 1 [entryAt 2 (.normal (.updateMeta "a" 1 none none none .keep 0))] db =
        (.error (.write "decode store record"), db) := by
  constructor
  · decide
  · rintro db rfl
    rfl

end HyperionVault
