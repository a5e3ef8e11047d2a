import HyperionVault.Service.Rewrap

/-!
# The re-wrap worker

The worker (`rewrap_worker.rs`) asks KMS for the latest rotation of the key and runs a pass when the watermark in
the store is behind it; an operator can ask for a pass at any time. Meanwhile secrets are written, and the key is
rotated.

* `targetRotation`, `tick`, `forceLatest` : a tick of the worker, and a pass on request;
* `KeyCall`, `KeyReply`, `Completed` : the calls, and a pass that has been recorded without a failure;
* `keyServe` : the calls, interleaved with each other and with rotations of the key;
* `Reports`, `KeyCall.Genuine` : KMS reports rotations that have taken place.
-/

namespace HyperionVault
open Lib

/-- The answer of KMS to a request for the latest rotation, by the material in use. -/
abbrev RotationAnswer := Int64 → Except String (Option Int64)

/-- The rotation that KMS reports, if any, is not newer than the material in use. -/
def Reports (latest : RotationAnswer) : Prop := ∀ material rotation, latest material = .ok (some rotation) →
  rotation ≤ material

/-- How a tick ends. -/
inductive Tick where
  /-- Another node is the leader. -/
  | follower
  /-- The watermark is stored for the first time, without a pass. -/
  | seeded (baseline : Int64)
  | unrotated
  | upToDate
  | completed (target : Int64) (summary : RewrapSummary)
  /-- Some versions failed; the watermark stays where it is. -/
  | incomplete (target : Int64) (summary : RewrapSummary)

section Worker
variable (A : AppState) (node : Nat)

def targetRotation (latest : RotationAnswer) : Call (Option Int64) := Call.kms latest

def tick (leader : Bool) (latest : RotationAnswer) (d : PassDraws) (completedAt : Int64) : Call Tick := do
  if !leader then return .follower
  else do
    let latest ← targetRotation latest
    let persisted ← Call.read (RedbStore.kmsRewrapState A.codec)
    match persisted with
    | none => do
        let baseline := latest.getD 0
        persistCompleted A baseline completedAt
        return .seeded baseline
    | some persisted =>
        match latest with
        | none => return .unrotated
        | some target =>
            if target ≤ persisted.lastCompletedRotationAt then return .upToDate
            else do
              let summary ← runPass A node target d
              if summary.failed = 0 then do
                persistCompleted A target completedAt
                return .completed target summary
              else return .incomplete target summary

/-- `force` with the target that it asks KMS for. -/
def forceLatest (latest : RotationAnswer) (d : PassDraws) (completedAt : Int64) : Call (Int64 × RewrapSummary) := do
  let latest ← targetRotation latest
  let target := latest.getD 0
  let summary ← force A node target d completedAt
  return (target, summary)

end Worker

/-! ## All calls -/

inductive KeyCall where
  | service (call : ServiceCall)
  | force (node : Nat) (latest : RotationAnswer) (draws : PassDraws) (completedAt : Int64)
  | tick (node : Nat) (leader : Bool) (latest : RotationAnswer) (draws : PassDraws) (completedAt : Int64)

inductive KeyReply where
  | service (reply : Reply)
  | forced (target : Int64) (summary : RewrapSummary)
  | ticked (outcome : Tick)

def KeyCall.body (A : AppState) : KeyCall → Proc World Op (ApiResult KeyReply)
  | .service call => (call.body A).bind fun reply => .ret (reply.map .service)
  | .force node latest d completedAt => (do
      let (target, summary) ← forceLatest A node latest d completedAt
      return .forced target summary : Call KeyReply).run
  | .tick node leader latest d completedAt => (do
      let outcome ← HyperionVault.tick A node leader latest d completedAt
      return .ticked outcome : Call KeyReply).run

/-- A call of the service asks KMS for its target where it runs a pass, and KMS reports rotations of the past. -/
def KeyCall.Genuine : KeyCall → Prop
  | .service call => call.isPass = false
  | .force _ latest _ _ => Reports latest
  | .tick _ _ latest _ _ => Reports latest

/-- A pass towards `target` that began at the time `now` has ended without a failure, and the watermark was set. -/
def Completed (calls : List (KeyCall × Proc World Op (ApiResult KeyReply))) (target now : Int64) : Prop :=
  (∃ node latest d completedAt summary, d.now = now ∧ summary.failed = 0 ∧ 0 < target ∧
    (KeyCall.force node latest d completedAt, .ret (.ok (.forced target summary))) ∈ calls) ∨
  ∃ node leader latest d completedAt summary, d.now = now ∧
    (KeyCall.tick node leader latest d completedAt, .ret (.ok (.ticked (.completed target summary)))) ∈ calls

/-- The key at KMS gets new material. -/
def World.rotateKey (rotation : Int64) (w : World) : World := { w with material := rotation }

/-- Calls interleaved with each other and with rotations of the key. -/
abbrev keyServe (A : AppState) : System World Op (ApiResult KeyReply) KeyCall → System.OpenEvent KeyCall Int64 →
    System World Op (ApiResult KeyReply) KeyCall :=
  System.stepOpen (World.perform A) (KeyCall.body A) World.rotateKey

/-- Calls are genuine, their operations meet `K`, and the key is rotated to newer material. -/
abbrev KeyAllows (K : World → Op → Prop) : System World Op (ApiResult KeyReply) KeyCall →
    System.OpenEvent KeyCall Int64 → Prop :=
  System.AllowsOpen KeyCall.Genuine K fun w rotation => w.material ≤ rotation

end HyperionVault
