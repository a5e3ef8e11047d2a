import HyperionVault.Raft.Json
import HyperionVault.Raft.StateMachine
import HyperionVault.Store.Acts
import HyperionVault.Store.Replica

/-!
# Replicas converge

`RaftStore` of `raft/node.rs` gives a node's own commands to its local store and sends every other
command through the log, from where each node applies it. Nodes that start with equal replicated tables
keep them equal, whatever each does with its own audit log and lockouts in between.

* `RaftStore.apply` : one command on one node;
* `trace` : the outcomes and the replicated tables after each replicated command;
* `replicas_converge` : the trace depends on the replicated commands and the replicated tables alone.
-/

namespace HyperionVault
open Lib

section Nodes
variable (C : Codec)

/-- A replicated command as an entry of its own: refusals are committed, an internal error commits nothing. -/
def applyReplicated (nodeId : Nat) (command : Command) (t : Tables) : StoreResult Unit × Tables :=
  let (outcome, t') := applyCommand C nodeId command t
  match ApplyResult.ofOutcome outcome with
  | .error _ => (outcome, t)
  | .ok _ => (outcome, t')

def RaftStore.apply (nodeId : Nat) (command : Command) (t : Tables) : StoreResult Unit × Tables :=
  if command.isLocal then RedbStore.apply C nodeId command t else applyReplicated C nodeId command t

/-- What one node shows of a run of commands: the view after each replicated one. -/
def trace (nodeId : Nat) : List Command → Tables → List (StoreResult Unit × Replicated)
  | [], _ => []
  | command :: commands, t =>
      let r := RaftStore.apply C nodeId command t
      if command.isLocal then trace nodeId commands r.2 else view r :: trace nodeId commands r.2

/-- The commands of a run that go through the log. -/
def replicatedCommands (commands : List Command) : List Command := commands.filter fun c => !c.isLocal

variable {C}

theorem replicated_apply_of_local {command : Command} (hloc : command.isLocal = true) (nodeId : Nat) (t : Tables) :
    (RaftStore.apply C nodeId command t).2.replicated = t.replicated := by
  have h := applyCommand_local (C := C) hloc nodeId t
  unfold RaftStore.apply RedbStore.apply
  rw [if_pos hloc]
  cases hr : applyCommand C nodeId command t with
  | mk outcome t' =>
      rw [hr] at h
      cases outcome with
      | ok u => exact h
      | error e => rfl

theorem view_apply_of_replicated {command : Command} (hrep : command.isLocal = false) (n₁ n₂ : Nat)
    {t₁ t₂ : Tables} (h : t₁.replicated = t₂.replicated) :
    view (RaftStore.apply C n₁ command t₁) = view (RaftStore.apply C n₂ command t₂) := by
  have hview := applyCommand_view (C := C) hrep n₁ n₂ h
  have houtcome : (applyCommand C n₁ command t₁).1 = (applyCommand C n₂ command t₂).1 :=
    (Prod.mk.inj hview).1
  have htables : (applyCommand C n₁ command t₁).2.replicated = (applyCommand C n₂ command t₂).2.replicated :=
    (Prod.mk.inj hview).2
  unfold RaftStore.apply applyReplicated
  rw [hrep, if_neg Bool.false_ne_true, if_neg Bool.false_ne_true]
  dsimp only
  rw [houtcome]
  cases ApplyResult.ofOutcome (applyCommand C n₂ command t₂).1 with
  | error e => rw [view, view, h]
  | ok result => rw [view, view, htables]

theorem trace_cons_of_local {command : Command} (hloc : command.isLocal = true) (nodeId : Nat)
    (commands : List Command) (t : Tables) :
    trace C nodeId (command :: commands) t = trace C nodeId commands (RaftStore.apply C nodeId command t).2 :=
  if_pos hloc

theorem trace_cons_of_replicated {command : Command} (hrep : command.isLocal = false) (nodeId : Nat)
    (commands : List Command) (t : Tables) :
    trace C nodeId (command :: commands) t = view (RaftStore.apply C nodeId command t) ::
      trace C nodeId commands (RaftStore.apply C nodeId command t).2 :=
  if_neg (hrep ▸ Bool.false_ne_true)

/-- A node's own commands do not show. -/
theorem trace_eq (n₁ n₂ : Nat) (commands : List Command) {t₁ t₂ : Tables} (h : t₁.replicated = t₂.replicated) :
    trace C n₁ commands t₁ = trace C n₂ (replicatedCommands commands) t₂ := by
  induction commands generalizing t₁ t₂ with
  | nil => rfl
  | cons command commands ih =>
      cases hloc : command.isLocal with
      | true =>
          have hskip : replicatedCommands (command :: commands) = replicatedCommands commands :=
            List.filter_cons_of_neg (by simp [hloc])
          rw [trace_cons_of_local hloc, hskip]
          exact ih ((replicated_apply_of_local hloc n₁ t₁).trans h)
      | false =>
          have hkeep : replicatedCommands (command :: commands) = command :: replicatedCommands commands :=
            List.filter_cons_of_pos (by simp [hloc])
          have hview := view_apply_of_replicated (C := C) hloc n₁ n₂ h
          have htables : (RaftStore.apply C n₁ command t₁).2.replicated =
            (RaftStore.apply C n₂ command t₂).2.replicated := (Prod.mk.inj hview).2
          rw [trace_cons_of_replicated hloc, hkeep, trace_cons_of_replicated hloc, hview, ih htables]

end Nodes

/-! ## Either path -/

/-- How a command reaches the store: in a transaction of its own, or as an entry of the log. -/
inductive Arrival where
  | direct (command : Command)
  | replicated (command : Command)

def Arrival.command : Arrival → Command
  | .direct command => command
  | .replicated command => command

def arrive (C : Codec) (nodeId : Nat) (t : Tables) : Arrival → Tables
  | .direct command => (RedbStore.apply C nodeId command t).2
  | .replicated command => (applyReplicated C nodeId command t).2

section Arrivals
variable {C : Codec} {nodeId : Nat} {t : Tables}

/-- A command that fails leaves the tables alone on either path. -/
theorem arrive_cases (arrival : Arrival) :
    arrive C nodeId t arrival = t ∨
      applyCommand C nodeId arrival.command t = (.ok (), arrive C nodeId t arrival) := by
  cases arrival with
  | direct command =>
      rcases hr : applyCommand C nodeId command t with ⟨outcome, t'⟩
      cases outcome with
      | ok u =>
          have htables : arrive C nodeId t (.direct command) = t' := by simp only [arrive, RedbStore.apply, hr]
          exact Or.inr (htables ▸ hr)
      | error e => exact Or.inl (by simp only [arrive, RedbStore.apply, hr])
  | replicated command =>
      rcases hr : applyCommand C nodeId command t with ⟨outcome, t'⟩
      cases outcome with
      | ok u =>
          have htables : arrive C nodeId t (.replicated command) = t' := by
            simp only [arrive, applyReplicated, hr, ApplyResult.ofOutcome]
          exact Or.inr (htables ▸ hr)
      | error e =>
          left
          cases e with
          | internal message => simp only [arrive, applyReplicated, hr, ApplyResult.ofOutcome]
          | _ =>
              simp only [arrive, applyReplicated, hr, ApplyResult.ofOutcome]
              exact applyCommand_noTrace hr rfl

end Arrivals

/-- Two nodes with equal replicated tables that apply the same replicated commands, each among local
commands of its own, give every replicated command the same outcome and have equal replicated tables
after it. -/
theorem replicas_converge (C : Codec) (n₁ n₂ : Nat) (t₁ t₂ : Tables) (h : t₁.replicated = t₂.replicated)
    (commands₁ commands₂ : List Command) (hsame : replicatedCommands commands₁ = replicatedCommands commands₂) :
    trace C n₁ commands₁ t₁ = trace C n₂ commands₂ t₂ := by
  rw [trace_eq n₁ n₁ commands₁ rfl, hsame, trace_eq n₂ n₁ commands₂ h.symm]

/-- A node with a failed login on record and one with an audit entry of its own create the same role. -/
theorem two_nodes_converge :
    trace jsonCodec 1 [.recordAuthFailure "ip" 0 5 60 60, .createRole (roleNamed "a")] .empty =
      trace jsonCodec 2 [.createRole (roleNamed "a"), .appendAudit ⟨0, none, none, "list", none, "ok", 0⟩]
        (storeStep jsonCodec 2 .empty (.appendAudit ⟨0, none, none, "login", none, "ok", 0⟩)) :=
  replicas_converge jsonCodec 1 2 .empty (storeStep jsonCodec 2 .empty (.appendAudit ⟨0, none, none, "login", none,
    "ok", 0⟩)) rfl [.recordAuthFailure "ip" 0 5 60 60, .createRole (roleNamed "a")]
    [.createRole (roleNamed "a"), .appendAudit ⟨0, none, none, "list", none, "ok", 0⟩] rfl

end HyperionVault
