import HyperionVault.Api.Operations
import HyperionVault.Service.Moments
import HyperionVault.Store.Readable
import HyperionVault.Store.TokenIndex

/-!
# The vault under all requests

A node serves any number of requests at once while it rotates secrets, sweeps old versions and re-wraps keys. A
request for a secret runs a call of the service once its guard has let it pass; the others change roles, tokens,
counters and the audit log only. A restore replaces the tables and is left out here.

* `NodeCall`, `nodeServe` : requests and the node's own work, interleaved;
* `RequestOp` : what a request does; `request_guards` : the requests that may change secrets, one by one;
* `VaultSound` : what holds of a state of the vault;
* `requests_keep_vault` : every state of every interleaving.
-/

namespace HyperionVault
open Lib

/-- A request, or work of the node itself. -/
inductive NodeCall where
  | request (call : ApiCall)
  | work (call : ServiceCall)

inductive NodeReply where
  | request (reply : ApiReply)
  | work (reply : Reply)

def NodeCall.body (A : AppState) (cfg : ApiConfig) : NodeCall → Proc World Op (ApiResult NodeReply)
  | .request call => (call.body A cfg).bind fun reply => .ret (reply.map .request)
  | .work call => (call.body A).bind fun reply => .ret (reply.map .work)

abbrev nodeServe (A : AppState) (cfg : ApiConfig) :
    System World Op (ApiResult NodeReply) NodeCall → SystemEvent NodeCall →
      System World Op (ApiResult NodeReply) NodeCall :=
  System.step (World.perform A) (NodeCall.body A cfg)

def ApiRequest.isRestore : ApiRequest → Bool
  | .restore _ => true
  | _ => false

/-- The call is no restore. -/
def NodeCall.KeepsTables : NodeCall → Prop
  | .request call => call.request.isRestore = false
  | .work _ => True

/-! ## What a request does -/

/-- An operation of a request: besides secrets, or one of a call of the service. -/
inductive RequestOp (A : AppState) (I : World → Prop) (R : World → World → Prop) (w : World) (op : Op) : Prop
  | side (h : SideOp op)
  | service (call : ServiceCall) (h : Prepared A I R call w op)

section Requests
variable {A : AppState} {I : World → Prop} {R : World → World → Prop} [IsPreorder World R] {w : World} {α β : Type}

omit [IsPreorder World R] in
theorem side_guards {c : Call α} (h : c.run.Only SideOp) (w : World) :
    c.Keeps A I R (RequestOp A I R) w fun _ _ => True :=
  Proc.guards_of_under (Proc.under_ok_of_only h) (fun _ _ _ hop => .side hop) w

omit [IsPreorder World R] in
theorem service_guards {call : ServiceCall} {c : Call α} {Q : World → α → Prop} (h : c.Guards A I R call w Q) :
    c.Keeps A I R (RequestOp A I R) w fun _ _ => True :=
  Proc.guards_conseq_ok (Proc.guards_weaken h fun _ _ _ hop => .service call hop) fun _ _ _ => trivial

/-- Once it has passed, a request goes on from a later state. -/
theorem passed_guards (hi : I w) {c : Call α} {f : α → Call β} (h : c.run.Only SideOp)
    (hf : ∀ w' a, I w' → (f a).Keeps A I R (RequestOp A I R) w' fun _ _ => True) :
    (c >>= f).Keeps A I R (RequestOp A I R) w fun _ _ => True :=
  Proc.guards_bind_ok hi (side_guards h w) fun w' a _ hi' _ => hf w' a hi'

/-- A call of the service, and its answer. -/
theorem answered_guards (hi : I w) {call : ServiceCall} {c : Call α} {Q : World → α → Prop}
    (h : c.Guards A I R call w Q) (reply : α → ApiReply) :
    (do let a ← c; return reply a : Call ApiReply).Keeps A I R (RequestOp A I R) w fun _ _ => True :=
  Proc.guards_bind_ok hi (service_guards h) fun _ _ _ _ _ => Proc.guards_pure fun _ _ _ => trivial

theorem rotateSecret_guards (hacc : ∀ {w w' : World}, R w w' → ∀ y ∈ w.accepted, y ∈ w'.accepted) (hi : I w)
    (cfg : ApiConfig) (parts : RequestParts) (d : RequestDraws) (name : String) :
    (Routes.rotateSecret A cfg parts d name).Keeps A I R (RequestOp A I R) w fun _ _ => True := by
  refine passed_guards hi (adminActor_only A cfg.auth _ _) fun w₁ actor hi₁ => ?_
  refine passed_guards hi₁ (allowOrReject_only A cfg.auth _ _ _) fun w₂ _ hi₂ => ?_
  exact answered_guards hi₂ (rotate_guards hacc hi₂ rfl) .value

theorem createSecret_guards (hi : I w) (cfg : ApiConfig) (parts : RequestParts) (d : RequestDraws)
    (body : Body CreateSecretRequest) :
    (Routes.createSecret A cfg parts d body).Keeps A I R (RequestOp A I R) w fun _ _ => True := by
  refine passed_guards hi (adminActor_only A cfg.auth _ _) fun w₁ actor hi₁ => ?_
  refine passed_guards hi₁ (ofExcept_only _ _) fun w₂ req hi₂ => ?_
  refine passed_guards hi₂ (allowOrReject_only A cfg.auth _ _ _) fun w₃ _ hi₃ => ?_
  refine passed_guards hi₃ (authorizeRotationTarget_only A cfg.auth _ _ _) fun w₄ _ hi₄ => ?_
  exact answered_guards hi₄ (createSecretCall_guards hi₄ rfl) .value

/-- A forced pass is one of the service, with its errors under another name. -/
theorem kmsRewrap_guards (hstore : ∀ {w}, I w → SecretInv A.codec w.tables) (hi : I w) (cfg : ApiConfig)
    (parts : RequestParts) (d : RequestDraws) :
    (Routes.kmsRewrap A cfg parts d).Keeps A I R (RequestOp A I R) w fun _ _ => True := by
  refine passed_guards hi (administrator_only A cfg parts d _) fun w₁ _ hi₁ => ?_
  refine passed_guards hi₁ (kms_only AllowsQuiet.kms _) fun w₂ latest hi₂ => ?_
  have hpass : AllowsPass A I R (Prepared A I R (.rewrap A.nodeId (latest.getD 0) d.pass d.completedAt)) w₂
      (latest.getD 0) := allowsPass_prepared rfl w₂ _
  have hforce := service_guards (force_guards hpass hstore hi₂ (refl_of R w₂) A.nodeId d.pass d.completedAt)
  have hinternally : (force A A.nodeId (latest.getD 0) d.pass d.completedAt).internally.Keeps A I R
      (RequestOp A I R) w₂ fun _ _ => True :=
    Proc.guards_bind_ok hi₂ (Proc.guards_lift hi₂ hforce) fun _ _ _ _ _ => ofExcept_guards fun _ _ _ _ _ => trivial
  exact Proc.guards_bind_ok hi₂ hinternally fun _ _ _ _ _ => Proc.guards_pure fun _ _ _ => trivial

/-- Every request but a restore. -/
theorem request_guards (hstore : ∀ {w}, I w → SecretInv A.codec w.tables)
    (hacc : ∀ {w w' : World}, R w w' → ∀ y ∈ w.accepted, y ∈ w'.accepted) (cfg : ApiConfig) (call : ApiCall)
    (hcall : call.request.isRestore = false) (hi : I w) :
    (call.handler A cfg).Keeps A I R (RequestOp A I R) w fun _ _ => True := by
  by_cases hside : call.request.isSide = true
  · exact side_guards (sideRequest_only A cfg call hside) w
  obtain ⟨parts, request, d⟩ := call
  cases request with
  | createSecret body => exact createSecret_guards hi cfg parts d body
  | updateSecret name body =>
      refine passed_guards hi (adminActor_only A cfg.auth _ _) fun w₁ actor hi₁ => ?_
      refine passed_guards hi₁ (ofExcept_only _ _) fun w₂ req hi₂ => ?_
      refine passed_guards hi₂ (allowOrReject_only A cfg.auth _ _ _) fun w₃ _ hi₃ => ?_
      exact answered_guards hi₃ (updateSecret_guards hi₃ rfl) .metadata
  | deleteSecret name =>
      refine passed_guards hi (adminActor_only A cfg.auth _ _) fun w₁ actor hi₁ => ?_
      refine passed_guards hi₁ (allowOrReject_only A cfg.auth _ _ _) fun w₂ _ hi₂ => ?_
      exact answered_guards hi₂ (deleteSecretCall_guards hi₂ rfl) fun _ => .noContent
  | secretAction path body =>
      unfold ApiCall.handler Routes.secretAction
      dsimp only
      cases Routes.splitAction path with
      | none => exact Proc.guards_throw
      | some split =>
          dsimp only
          split_ifs
          · exact rotateSecret_guards hacc hi cfg parts d split.1
          · exact side_guards (verifySecret_only A cfg parts d split.1 body) w
          · exact Proc.guards_throw
  | restore body => cases hcall
  | kmsRewrap => exact kmsRewrap_guards hstore hi cfg parts d
  | _ => exact absurd rfl hside

end Requests

/-! ## What every operation keeps -/

structure VaultSound (A : AppState) (w : World) : Prop where
  /-- Every row is a version of a stored secret, and opens to what was sealed under its number. -/
  opens : ∀ key v, versionAt A.codec w.tables key = some v → ∃ name s x, key = versionKey name v.version ∧
    secretAt A.codec w.tables name = some s ∧ v.version ≤ s.currentVersion ∧
    w.sealings name (w.incarnation name) v.version = some x ∧ openVersion A name v.version v = .ok (x.payload.bytes A)
  /-- A read of any name says what is stored. -/
  shows : ∀ name, Shows A name w (readNow A name w.tables)
  tokens : TokenIndex A.codec w.tables
  /-- No command meets a row that it cannot decode. -/
  serves : ∀ command, isInternalOutcome (applyCommand A.codec A.nodeId command w.tables).1 = false

structure ServedInv (A : AppState) (w : World) : Prop where
  vault : VaultInv A (unwrapping A) w
  tokens : TokenIndex A.codec w.tables
  readable : Readable A.codec w.tables

theorem area_of_keepsSecrets {command : Command} (h : command.keepsSecrets = true) : command.area ≠ .everything := by
  intro harea
  cases command with
  | restoreDatabase => cases h
  | _ => cases harea

section Operations
variable {A : AppState} {w : World} {op : Op}

theorem vaultSound_of_servedInv (h : ServedInv A w) : VaultSound A w where
  opens := by
    intro key v hv
    obtain ⟨name, s, hkey, hs, hpos, hle, _, _⟩ := h.vault.store.owned key v hv
    have hrow := hv
    rw [hkey] at hrow
    obtain ⟨x, hx, hrel⟩ := h.vault.row name v.version v (h.vault.store.valid name s hs).1 hpos hrow
    exact ⟨name, s, x, hkey, hs, hle, hx, openVersion_of_unwraps (h.vault.sealed name _ _ x hx) hrel⟩
  shows := shows_readNow h.vault
  tokens := h.tokens
  serves := noInternal_of_readable h.readable A.nodeId

/-- No request but a restore replaces all the tables. -/
theorem area_of_requestOp {I : World → Prop} {R : World → World → Prop} {command : Command} {basis : Basis}
    {sealing : Option Sealing} (h : RequestOp A I R w (.submit command basis sealing)) :
    command.area ≠ .everything := by
  cases h with
  | side h =>
      cases h with
      | command hkeeps => exact area_of_keepsSecrets hkeeps
      | quiet hquiet => cases hquiet <;> (intro harea; cases harea)
  | service call h => cases h <;> (intro harea; cases harea)

theorem vault_sideOp (h : VaultInv A (unwrapping A) w) (hop : SideOp op) :
    VaultInv A (unwrapping A) (w.perform A op) ∧ Later w (w.perform A op) := by
  cases hop with
  | quiet hquiet => exact vault_quietOp h hquiet
  | @command command hkeeps =>
      refine commit_of (P := fun w' => VaultInv A (unwrapping A) w' ∧ Later w w') ⟨h, refl_of Later w⟩ fun t' ht' => ?_
      have hissued : command.Issued := by
        cases command with
        | createSecret | putVersion | restoreDatabase => cases hkeeps
        | _ => exact trivial
      have hrecord : w.record command none = w := by
        cases command with
        | createSecret | putVersion | deleteSecret => cases hkeeps
        | _ => rfl
      rw [hrecord]
      exact vault_frame h command hkeeps hissued ht'

theorem servedInv_perform (h : ServedInv A w) (hop : RequestOp A (VaultInv A (unwrapping A)) Later w op)
    (hK : CurrentRewrap A w op) : ServedInv A (w.perform A op) ∧ Later w (w.perform A op) := by
  have hvault : VaultInv A (unwrapping A) (w.perform A op) ∧ Later w (w.perform A op) := by
    cases hop with
    | side h' => exact vault_sideOp h.vault h'
    | service call h' => exact unwrapping_perform (fun h => h) h.vault h' hK
  suffices hrows : TokenIndex A.codec (w.perform A op).tables ∧ Readable A.codec (w.perform A op).tables from
    ⟨⟨hvault.1, hrows.1, hrows.2⟩, hvault.2⟩
  by_cases hsubmit : ∃ command basis sealing, op = .submit command basis sealing
  · obtain ⟨command, basis, sealing, rfl⟩ := hsubmit
    have harea := area_of_requestOp hop
    refine commit_of (P := fun w' => TokenIndex A.codec w'.tables ∧ Readable A.codec w'.tables)
      ⟨h.tokens, h.readable⟩ fun t' ht' => ⟨tokenIndex_command h.tokens harea ht', ?_⟩
    have hrecords : command.BringsRecords A.codec := by
      cases command with
      | restoreDatabase => exact absurd rfl harea
      | _ => exact trivial
    have hsafe := (applyCommand_safe A.nodeId hrecords w.tables h.readable).2
    rw [ht'] at hsafe
    exact hsafe
  · rw [tables_of_not_submit fun command basis sealing h' => hsubmit ⟨command, basis, sealing, h'⟩]
    exact ⟨h.tokens, h.readable⟩

theorem nodeCall_guards (cfg : ApiConfig) (call : NodeCall) (hcall : call.KeepsTables)
    (h : VaultInv A (unwrapping A) w) :
    Proc.Guards (World.perform A) (VaultInv A (unwrapping A)) Later
      (RequestOp A (VaultInv A (unwrapping A)) Later) (call.body A cfg) w fun _ _ => True := by
  cases call with
  | request call =>
      have hrequest := request_guards (R := Later) (fun h => h.store) (fun h => h.accepted) cfg call hcall h
      exact Proc.guards_bind h hrequest fun _ _ _ _ _ _ _ _ => trivial
  | work call =>
      have hwork := body_guards (R := Later) (fun h => h.store) (fun h => h.accepted) call h
      exact Proc.guards_bind h (Proc.guards_weaken hwork fun _ _ _ hop => .service call hop)
        fun _ _ _ _ _ _ _ _ => trivial

end Operations

/-- In every interleaving of requests, restores apart, with rotations, sweeps and re-wraps of the node, as long as every
re-wrap is current: every stored version opens to what was sealed under its number, a read says what is stored, the
index of the tokens is exact, and no command fails on a row that it cannot decode. -/
theorem requests_keep_vault (A : AppState) (cfg : ApiConfig) (w : World) (hw : w.Start)
    (htokens : TokenIndex A.codec w.tables) (hreadable : Readable A.codec w.tables)
    (events : List (SystemEvent NodeCall))
    (hevents : AllSteps (nodeServe A cfg) (System.Allows NodeCall.KeepsTables (CurrentRewrap A)) ⟨w, []⟩ events) :
    ∀ before after, events = before ++ after → VaultSound A (run (nodeServe A cfg) ⟨w, []⟩ before).shared := by
  rintro before after rfl
  have hguarded := System.run_guards (I := ServedInv A) (R := Later)
    (G := fun _ => RequestOp A (VaultInv A (unwrapping A)) Later) (Q := fun _ _ _ => True)
    (fun call s hcall hs => Proc.guards_restrict (nodeCall_guards cfg call hcall hs.vault) fun _ h => h.vault)
    (fun call s op _ hs hop hK => servedInv_perform hs hop hK) ⟨vault_start hw, htokens, hreadable⟩
    (allSteps_append.mp hevents).1
  exact vaultSound_of_servedInv hguarded.inv

/-- The node creates the secret `a`. -/
def createWork : List (SystemEvent NodeCall) := .start (.work (createA 1)) :: List.replicate 3 (.step 0)

theorem createWork_run (C : Codec) : ∃ q,
    RunsTo (nodeServe (nodeWith C) demoApi) (System.Allows NodeCall.KeepsTables (CurrentRewrap (nodeWith C)))
      ⟨freshWorld, []⟩ createWork ⟨createdWorld C, [(.work (createA 1), q)]⟩ := by
  obtain ⟨q, hcreate⟩ := create_one "root" 0 1 (w := freshWorld) (K := CurrentRewrap (nodeWith C))
    (@checkCreate_opaqueRequest C) isValidSecretName_a rfl fun _ hop => currentRewrap_of_isBased hop _
  exact ⟨_, System.run_call (World.perform (nodeWith C)) (NodeCall.body (nodeWith C) demoApi) (P := NodeCall.KeepsTables)
    [] (.work (createA 1)) trivial (Proc.reaches_bind (Proc.reaches_bind hcreate _) _)⟩

theorem requests_keep_vault_created :
    let w := (run (nodeServe (nodeWith jsonCodec) demoApi) ⟨freshWorld, []⟩ createWork).shared
    w = createdWorld jsonCodec ∧ VaultSound (nodeWith jsonCodec) w := by
  obtain ⟨q, hrun, hsteps⟩ := createWork_run jsonCodec
  exact ⟨congrArg System.shared hrun, requests_keep_vault (nodeWith jsonCodec) demoApi freshWorld freshWorld_start
    (tokenIndex_empty _) readable_empty createWork hsteps createWork [] (List.append_nil _).symm⟩

end HyperionVault
