import HyperionVault.Service.Calls

/-!
# Re-wrap passes

After the key at KMS has been rotated, a pass (`rewrap.rs`) reads the live versions of every secret and
submits a re-wrapped data key for each of them that is not at the target rotation yet.

* `needsRewrap`, `rewrapOne`, `runPass` : one version and one pass;
* `persistCompleted`, `force` : recording that a pass has covered everything; `status` : how far passes have come;
* `ServiceCall`, `ServiceCall.body` : every call that writes secrets or versions;
* `serve` : the calls, interleaved.
-/

namespace HyperionVault
open Lib

structure RewrapSummary where
  scanned : Nat
  rewrapped : Nat
  failed : Nat

def needsRewrap (version : VersionRecord) (target : Int64) : Bool := version.wrappedRotationAt.all (· < target)

/-- What a pass draws: the clock, and a number for each request to KMS. -/
structure PassDraws where
  now : Int64
  reencrypt : Nat → Nat

section Passes
variable (A : AppState)

def rewrapOne (name : String) (incarnation : Nat) (version : VersionRecord) (target : Int64) (draw : Nat) :
    Call Unit := do
  let (wrappedDek, kmsKeyId) ← Call.kms fun material =>
    A.kms.reencryptDataKey material draw version.wrappedDek version.kmsKeyId (kmsContext name version.version)
  Call.submit A (.rewrapVersion name version.version kmsKeyId wrappedDek target) (.row incarnation version) none

/-- The versions of one secret; a version that fails is counted and left under its key. -/
def rewrapVersions (name : String) (incarnation : Nat) (target : Int64) (d : PassDraws) :
    List VersionRecord → RewrapSummary → Proc World Op RewrapSummary
  | [], summary => pure summary
  | version :: rest, summary => do
      let summary := { summary with scanned := summary.scanned + 1 }
      if needsRewrap version target then do
        let outcome ← (rewrapOne A name incarnation version target (d.reencrypt summary.scanned)).run
        match outcome with
        | .ok () => rewrapVersions name incarnation target d rest { summary with rewrapped := summary.rewrapped + 1 }
        | .error _ => rewrapVersions name incarnation target d rest { summary with failed := summary.failed + 1 }
      else rewrapVersions name incarnation target d rest summary

def rewrapSecrets (target : Int64) (d : PassDraws) : List SecretRecord → RewrapSummary → Call RewrapSummary
  | [], summary => return summary
  | secret :: rest, summary => do
      let (found, incarnation) ← ExceptT.lift (Proc.perform .read fun w =>
        (RedbStore.liveVersions A.codec secret.name d.now w.tables, w.incarnation secret.name))
      let versions ← Call.ofExcept .ofStore found
      let summary ← ExceptT.lift (rewrapVersions A secret.name incarnation target d versions summary)
      rewrapSecrets target d rest summary

def rewrapAll (target : Int64) (d : PassDraws) : Call RewrapSummary := do
  let secrets ← Call.read (RedbStore.listSecrets A.codec)
  rewrapSecrets A target d secrets ⟨0, 0, 0⟩

/-- One pass; a node runs one at a time. -/
def runPass (node : Nat) (target : Int64) (d : PassDraws) : Call RewrapSummary := do
  let busy ← ExceptT.lift (Proc.perform (.busy node true) fun w => w.rewrapBusy node)
  if busy then throw (.internal "a re-wrap pass is already running on this node")
  else do
    let outcome ← ExceptT.lift (rewrapAll A target d).run
    -- the guard is dropped on every way out
    let _ ← ExceptT.lift (Proc.perform (.busy node false) fun _ => ())
    Call.ofExcept id outcome

def persistCompleted (target now : Int64) : Call Unit :=
  Call.submit A (.setKmsRewrapState
    { lastCompletedRotationAt := target, lastSweptAt := now, updatedAt := now }) .nothing none

def force (node : Nat) (target : Int64) (d : PassDraws) (completedAt : Int64) : Call RewrapSummary := do
  let summary ← runPass A node target d
  if summary.failed = 0 ∧ 0 < target then do
    persistCompleted A target completedAt
    return summary
  else return summary

structure RewrapStatus where
  enabled : Bool
  busy : Bool
  lastCompletedRotationAt : Option Int64
  latestRotationAt : Option Int64
  totalVersions : Nat
  pendingVersions : Nat

/-- How many live versions there are, and how many of them are not at the target rotation yet. -/
def countVersions (target now : Int64) : List SecretRecord → Nat × Nat → Call (Nat × Nat)
  | [], counts => return counts
  | secret :: rest, (total, pending) => do
      let versions ← Call.read (RedbStore.liveVersions A.codec secret.name now)
      countVersions target now rest
        (total + versions.length, pending + (versions.filter fun version => needsRewrap version target).length)

def status (node : Nat) (enabled : Bool) (latestRotation : Except String (Option Int64)) (now : Int64) :
    Call RewrapStatus := do
  let persisted ← Call.read (RedbStore.kmsRewrapState A.codec)
  -- that KMS does not answer is passed over
  let latest ← ExceptT.lift (Proc.perform .kms fun _ => latestRotation.toOption.join)
  let lastCompleted := (persisted.map KmsRewrapState.lastCompletedRotationAt).getD 0
  let secrets ← Call.read (RedbStore.listSecrets A.codec)
  let (total, pending) ← countVersions A (latest.getD lastCompleted) now secrets (0, 0)
  let busy ← ExceptT.lift (Proc.perform .read fun w => w.rewrapBusy node)
  return {
    enabled := enabled, busy := busy
    lastCompletedRotationAt := if 0 < lastCompleted then some lastCompleted else none
    latestRotationAt := latest, totalVersions := total, pendingVersions := pending }

end Passes

/-! ## All calls -/

inductive ServiceCall where
  | create (actor : String) (req : CreateSecretRequest) (draws : Draws)
  | update (actor name : String) (req : UpdateSecretRequest) (draws : Draws)
  | rotate (actor : String) (clientIp : Option String) (name : String) (draws : Draws)
  | delete (actor name : String) (draws : Draws)
  /-- The sweep of the rotation worker. -/
  | expireGrace (now : Int64)
  | rewrap (node : Nat) (target : Int64) (draws : PassDraws) (completedAt : Int64)

def ServiceCall.isPass : ServiceCall → Bool
  | .rewrap .. => true
  | _ => false

inductive Reply where
  | value (value : SecretValue)
  | metadata (secret : SecretRecord)
  | summary (summary : RewrapSummary)
  | done

/-- A call with the reply it makes of its result. -/
def Call.reply {α : Type} (c : Call α) (f : α → Reply) : Proc World Op (ApiResult Reply) :=
  (c >>= fun a => pure (f a)).run

def ServiceCall.body (A : AppState) : ServiceCall → Proc World Op (ApiResult Reply)
  | .create actor req d => (createSecretCall A actor req d).reply .value
  | .update actor name req d => (updateSecret A actor name req d).reply .metadata
  | .rotate actor clientIp name d => (HyperionVault.rotate A actor clientIp name d).reply .value
  | .delete actor name d => (deleteSecretCall A actor name d).reply fun _ => .done
  | .expireGrace now => (Call.submit A (.expireGraceVersions now) .nothing none).reply fun _ => .done
  | .rewrap node target d completedAt => (force A node target d completedAt).reply .summary

/-- The running service: any number of calls, interleaved by operations. -/
abbrev serve (A : AppState) : System World Op (ApiResult Reply) ServiceCall → SystemEvent ServiceCall →
    System World Op (ApiResult Reply) ServiceCall :=
  System.step (World.perform A) (ServiceCall.body A)

end HyperionVault
