import HyperionVault.Api.Isolation

/-!
# What the guards and the administrative calls write

A request writes before it does what it was sent for: its guard counts a failed attempt, or notes the use of a token.
The administrative calls submit one command each.

* `AllowsGuards` : sets of operations that hold those of the guards;
* `adminActor_only`, `readerGuard_only`, `allowOrReject_only`, ... : the guards;
* `createRole_only`, `createToken_only`, ... : the administrative calls;
* `SideOp`, `sideRequest_only` : the requests that leave secrets and versions alone.
-/

namespace HyperionVault
open Lib

/-- The set holds what the guards of a request write. -/
class AllowsGuards (O : Op → Prop) : Prop extends AllowsQuiet O where
  failure : ∀ key now max windowSecs lockoutSecs,
    O (.submit (.recordAuthFailure key now max windowSecs lockoutSecs) .nothing none)
  touch : ∀ fingerprint now, O (.submit (.touchToken fingerprint now) .nothing none)

section Guards
variable (A : AppState) (cfg : AuthConfig) {O : Op → Prop} [AllowsGuards O]

theorem failure_only (ip : Option IpAddr) (now : Int64) : (lockoutRecord A cfg ip now).run.Only O :=
  lockoutRecord_only A cfg fun _ _ => AllowsGuards.failure ..

theorem touchIfDue_only (token : TokenRecord) (fingerprint : Bytes) (now : Int64) :
    (touchIfDue A cfg token fingerprint now).run.Only O := by
  unfold touchIfDue
  split_ifs
  · exact trySubmit_only (AllowsGuards.touch _ _)
  · exact trivial

theorem actorRules_only (role : Option String) : (actorRules A role).run.Only O := by
  cases role with
  | none => exact trivial
  | some roleName =>
      refine read_bind_only fun found => ?_
      cases found <;> exact trivial

theorem adminActor_only (parts : RequestParts) (g : GuardTimes) : (adminActor A cfg parts g).run.Only O := by
  have hreject : (rejectActor A cfg parts g).run.Only O :=
    Proc.only_bind_ok (failure_only A cfg _ _) fun _ => trivial
  refine Proc.only_bind_ok (lockoutCheck_only A cfg _ _) fun _ => ?_
  cases bearerToken parts with
  | none => exact hreject
  | some bearer =>
      refine read_bind_only fun record => ?_
      cases record.filter fun record => record.revokedAt.isNone with
      | none => exact hreject
      | some token =>
          refine Proc.only_bind_ok (actorRules_only A _) fun held => ?_
          exact Proc.only_bind_ok (touchIfDue_only A cfg _ _ _) fun _ => trivial

theorem readerGuard_only (parts : RequestParts) (g : GuardTimes) : (readerGuard A cfg parts g).run.Only O := by
  refine Proc.only_bind_ok (ofOption_only _ _) fun peer => ?_
  refine Proc.only_bind_ok (ofOption_only _ _) fun ip => ?_
  refine Proc.only_bind_ok (c := lockoutCheckIp A cfg peer g.checkAt) (checkKey_only A cfg _ _) fun _ => ?_
  have hreject : (do lockoutRecord A cfg (some peer) g.recordAt; throw .forbidden : Call ReaderGuard).run.Only O :=
    Proc.only_bind_ok (failure_only A cfg _ _) fun _ => trivial
  cases ip with
  | v4 addr =>
      dsimp only
      split_ifs
      · exact trivial
      · exact hreject
  | v6 addr => exact hreject

theorem allowOrReject_only (actor : AdminActor) (allowed : Bool) (now : Int64) :
    (allowOrReject A cfg actor allowed now).run.Only O := by
  unfold allowOrReject
  split_ifs
  · exact trivial
  · exact Proc.only_bind_ok (failure_only A cfg _ now) fun _ => trivial

theorem authorizeRotationTarget_only (actor : AdminActor) (req : CreateSecretRequest) (now : Int64) :
    (authorizeRotationTarget A cfg actor req now).run.Only O := by
  unfold authorizeRotationTarget
  cases req.target with
  | none => exact trivial
  | some target =>
      exact Proc.only_bind_ok (allowOrReject_only A cfg _ _ _) fun _ => allowOrReject_only A cfg _ _ _

theorem administrator_only {α : Type} (cfg : ApiConfig) (parts : RequestParts) (d : RequestDraws) (body : Body α) :
    (Routes.administrator A cfg parts d body).run.Only O := by
  refine Proc.only_bind_ok (adminActor_only A cfg.auth _ _) fun actor => ?_
  refine ofExcept_bind_only fun req => ?_
  exact Proc.only_bind_ok (allowOrReject_only A cfg.auth _ _ _) fun _ => trivial

end Guards

/-! ## Administrative calls -/

section Administration
variable (A : AppState) (cfg : AuthConfig) {O : Op → Prop}

theorem createRole_only (req : CreateRoleRequest) (now : Int64)
    (h : ∀ role, O (.submit (.createRole role) .nothing none)) : (Manage.createRole A req now).run.Only O := by
  refine ofExcept_bind_only fun _ => ?_
  refine ofExcept_bind_only fun _ => ?_
  exact Proc.only_bind_ok (submit_only (h _)) fun _ => trivial

theorem deleteRole_only (name : String) (h : O (.submit (.deleteRole name) .nothing none)) :
    (Manage.deleteRole A name).run.Only O :=
  ofExcept_bind_only fun _ => submit_only h

variable [AllowsQuiet O]

theorem getRole_only (name : String) : (Manage.getRole A name).run.Only O :=
  read_bind_only fun _ => ofOption_only _ _

theorem setPermissions_only (name : String) (permissions : Rules)
    (h : O (.submit (.setPermissions name permissions) .nothing none)) :
    (Manage.setPermissions A name permissions).run.Only O := by
  refine ofExcept_bind_only fun _ => ?_
  exact Proc.only_bind_ok (submit_only h) fun _ => getRole_only A name

theorem createToken_only (req : CreateTokenRequest) (d : Draws)
    (h : O (.submit (.addToken (Manage.newToken cfg req d)) .nothing none)) :
    (Manage.createToken A cfg req d).run.Only O := by
  refine ofExcept_bind_only fun _ => ?_
  refine read_bind_only fun _ => ?_
  refine ofExcept_bind_only fun _ => ?_
  exact Proc.only_bind_ok (submit_only h) fun _ => trivial

theorem backup_only (actor : String) (d : Draws) : (Manage.backup A actor d).run.Only O :=
  read_bind_only fun _ =>
    audit_bind_only A fun _ => trivial

theorem countVersions_only (target now : Int64) (secrets : List SecretRecord) (counts : Nat × Nat) :
    (countVersions A target now secrets counts).run.Only O := by
  induction secrets generalizing counts with
  | nil => exact trivial
  | cons secret rest ih => exact read_bind_only fun _ => ih _

theorem status_only (node : Nat) (enabled : Bool) (latestRotation : Except String (Option Int64)) (now : Int64) :
    (status A node enabled latestRotation now).run.Only O := by
  refine read_bind_only fun _ => ?_
  refine Proc.only_bind_ok (Proc.only_lift (Proc.only_perform AllowsQuiet.kms)) fun _ => ?_
  refine read_bind_only fun _ => ?_
  refine Proc.only_bind_ok (countVersions_only A _ _ _ _) fun _ => ?_
  exact Proc.only_bind_ok (Proc.only_lift (Proc.only_perform AllowsQuiet.read)) fun _ => trivial

end Administration

/-! ## Requests that leave secrets alone -/

/-- Operations that leave secrets and versions alone. -/
inductive SideOp : Op → Prop
  | quiet {op : Op} (h : QuietOp op) : SideOp op
  | command {command : Command} (h : command.keepsSecrets = true) : SideOp (.submit command .nothing none)

instance : AllowsGuards SideOp where
  read := .quiet .read
  kms := .quiet .kms
  attempt a name version := .quiet (.attempt a name version)
  audit _ := .command rfl
  failure _ _ _ _ _ := .command rfl
  touch _ _ := .command rfl

/-- The request changes no secret and no version, whoever sends it. -/
def ApiRequest.isSide : ApiRequest → Bool
  | .createSecret _ => false
  | .updateSecret .. => false
  | .deleteSecret _ => false
  | .secretAction path _ => (Routes.splitAction path).all fun split => split.2 ≠ "rotate"
  | .restore _ => false
  | .kmsRewrap => false
  | _ => true

section Side
variable (A : AppState) (cfg : ApiConfig) (parts : RequestParts) (d : RequestDraws) {α β : Type}

/-- An administrative request whose call leaves secrets alone. -/
theorem administered_only {body : Body α} {c : AdminActor × α → Call β} (h : ∀ p, (c p).run.Only SideOp)
    (reply : β → ApiReply) :
    (do let p ← Routes.administrator A cfg parts d body
        let b ← c p
        return reply b : Call ApiReply).run.Only SideOp :=
  Proc.only_bind_ok (administrator_only A cfg parts d body) fun p =>
    Proc.only_bind_ok (h p) fun _ => trivial

theorem readRoute_only {c : ReaderGuard → Call α} (h : ∀ guard, (c guard).run.Only SideOp) :
    (readerGuard A cfg.auth parts d.guard >>= c).run.Only SideOp :=
  Proc.only_bind_ok (readerGuard_only A cfg.auth parts d.guard) h

theorem verifySecret_only (name : String) (body : Body String) :
    (Routes.verifySecret A cfg parts d name body).run.Only SideOp := by
  refine readRoute_only A cfg parts d fun guard => ?_
  refine ofExcept_bind_only fun presented => ?_
  exact Proc.only_bind_ok (verify_only A cfg.auth _ _ _ _ fun _ => .command rfl) fun _ => trivial

theorem secretAction_only {path : String} {body : Body String} (h : (ApiRequest.secretAction path body).isSide = true) :
    (Routes.secretAction A cfg parts d path body).run.Only SideOp := by
  have hside : (Routes.splitAction path).all (fun split => split.2 ≠ "rotate") = true := h
  unfold Routes.secretAction
  cases hsplit : Routes.splitAction path with
  | none => exact trivial
  | some split =>
      obtain ⟨name, action⟩ := split
      rw [hsplit] at hside
      dsimp only
      split_ifs with hrotate
      · exact absurd hrotate (of_decide_eq_true hside)
      · exact verifySecret_only A cfg parts d name body
      · exact trivial

theorem sideRequest_only (call : ApiCall) (hcall : call.request.isSide = true) :
    (call.handler A cfg).run.Only SideOp := by
  obtain ⟨parts, request, d⟩ := call
  cases request with
  | healthz => exact trivial
  | readyz => exact read_bind_only fun _ => trivial
  | listSecrets =>
      refine Proc.only_bind_ok (adminActor_only A cfg.auth _ _) fun _ => ?_
      exact read_bind_only fun _ => trivial
  | getSecret name =>
      refine readRoute_only A cfg parts d fun _ => ?_
      exact Proc.only_bind_ok (getSecret_only A _ _ _) fun _ => trivial
  | batchGetSecrets body =>
      refine readRoute_only A cfg parts d fun _ => ?_
      refine ofExcept_bind_only fun names => ?_
      exact Proc.only_bind_ok (getSecrets_only A _ _ _) fun _ => trivial
  | secretAction path body => exact secretAction_only A cfg parts d hcall
  | createRole body =>
      exact administered_only A cfg parts d (fun _ => createRole_only A _ _ fun _ => .command rfl) .role
  | listRoles => exact administered_only A cfg parts d (fun _ => read_only AllowsQuiet.read _) .roles
  | getRole name => exact administered_only A cfg parts d (fun _ => getRole_only A name) .role
  | setPermissions name body =>
      exact administered_only A cfg parts d (fun _ => setPermissions_only A name _ (.command rfl)) .role
  | deleteRole name =>
      exact administered_only A cfg parts d (fun _ => deleteRole_only A name (.command rfl)) fun _ => .noContent
  | createToken body =>
      exact administered_only A cfg parts d (fun _ => createToken_only A cfg.auth _ _ (.command rfl)) .tokenCreated
  | listTokens => exact administered_only A cfg parts d (fun _ => read_only AllowsQuiet.read _) .tokens
  | revokeToken name =>
      exact administered_only A cfg parts d (fun _ => submit_only (.command rfl)) fun _ => .noContent
  | backup => exact administered_only A cfg parts d (fun _ => backup_only A _ _) .backup
  | kmsRewrapStatus =>
      exact administered_only A cfg parts d (fun _ => internally_only (status_only A _ _ _ _)) .rewrapStatus
  | createSecret | updateSecret | deleteSecret | restore | kmsRewrap => cases hcall

end Side

end HyperionVault
