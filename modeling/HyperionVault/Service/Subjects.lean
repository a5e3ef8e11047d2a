import HyperionVault.Service.Reads
import HyperionVault.Service.Rewrap
import HyperionVault.Store.Areas

/-!
# What the calls write

A call on a secret submits commands on this secret only; what else it does leaves secrets, versions, roles
and tokens alone.

* `QuietOp` : reads, requests to KMS, attempts on a target, audit entries and failed attempts;
* `SecretOp` : these, and commands on one secret;
* `AllowsQuiet`, `AllowsRevisions`, `AllowsWrites`, `AllowsPasses` : sets of operations that hold those of a
  call, failed attempts apart;
* `createSecretCall_only`, `updateSecret_only`, `force_only`, ... : the operations of each call.
-/

namespace HyperionVault
open Lib

inductive QuietOp : Op → Prop
  | read : QuietOp .read
  | kms : QuietOp .kms
  | attempt (a : Attempt) (name : String) (version : Int32) : QuietOp (.attempt a name version)
  | audit (entry : AuditEntry) : QuietOp (.submit (.appendAudit entry) .nothing none)
  | failure (key : String) (now : Int64) (max : UInt32) (windowSecs lockoutSecs : Int64) :
      QuietOp (.submit (.recordAuthFailure key now max windowSecs lockoutSecs) .nothing none)

inductive SecretOp (name : String) : Op → Prop
  | quiet {op : Op} (h : QuietOp op) : SecretOp name op
  | write {command : Command} (h : command.subject = some name) (basis : Basis) (sealing : Option Sealing) :
      SecretOp name (.submit command basis sealing)

/-- A failed attempt on the counter of this key. -/
abbrev failureOp (cfg : AuthConfig) (key : String) (now : Int64) : Op :=
  .submit (.recordAuthFailure key now cfg.authMaxFailures cfg.authWindowSecs cfg.authLockoutSecs) .nothing none

/-- The set holds what a call does besides its own commands. -/
class AllowsQuiet (O : Op → Prop) : Prop where
  read : O .read
  kms : O .kms
  attempt : ∀ a name version, O (.attempt a name version)
  audit : ∀ entry, O (.submit (.appendAudit entry) .nothing none)

/-- The secret whose record a command changes. -/
def Command.revises : Command → Option String
  | .putVersion name .. => some name
  | .updateMeta name .. => some name
  | _ => none

/-- It holds the commands that change the record of this secret too. -/
class AllowsRevisions (O : Op → Prop) (name : String) : Prop extends AllowsQuiet O where
  revise : ∀ {command : Command}, command.revises = some name → ∀ basis sealing, O (.submit command basis sealing)

/-- It holds all commands on this secret. -/
class AllowsWrites (O : Op → Prop) (name : String) : Prop extends AllowsQuiet O where
  write : ∀ {command : Command}, command.subject = some name → ∀ basis sealing, O (.submit command basis sealing)

theorem subject_of_revises {command : Command} {name : String} (h : command.revises = some name) :
    command.subject = some name := by
  cases command with
  | putVersion | updateMeta => exact h
  | _ => cases h

instance (O : Op → Prop) (name : String) [h : AllowsWrites O name] : AllowsRevisions O name where
  revise hcommand := h.write (subject_of_revises hcommand)

/-- It holds what a re-wrap pass does. -/
class AllowsPasses (O : Op → Prop) : Prop extends AllowsQuiet O where
  busy : ∀ node value, O (.busy node value)
  rewrap : ∀ name version keyId wrapped target basis,
    O (.submit (.rewrapVersion name version keyId wrapped target) basis none)
  completed : ∀ state, O (.submit (.setKmsRewrapState state) .nothing none)

instance : AllowsQuiet QuietOp := ⟨.read, .kms, .attempt, .audit⟩

instance (name : String) : AllowsWrites (SecretOp name) name where
  read := .quiet .read
  kms := .quiet .kms
  attempt a secret version := .quiet (.attempt a secret version)
  audit entry := .quiet (.audit entry)
  write := .write

/-! ## Primitive operations -/

section Primitive
variable {O : Op → Prop} {α β ε : Type}

theorem ofExcept_only (toApi : ε → ApiError) (r : Except ε α) : (Call.ofExcept toApi r).run.Only O := by
  cases r <;> exact trivial

theorem ofExcept_bind_only {toApi : ε → ApiError} {r : Except ε α} {f : α → Call β} (hf : ∀ a, (f a).run.Only O) :
    (Call.ofExcept toApi r >>= f).run.Only O := Proc.only_bind_ok (ofExcept_only toApi r) hf

theorem ofOption_only (e : ApiError) (o : Option α) : (Call.ofOption e o).run.Only O := by
  cases o <;> exact trivial

theorem read_only (hread : O .read) (query : Tables → StoreResult α) : (Call.read query).run.Only O :=
  Proc.only_bind_ok (Proc.only_lift (Proc.only_perform hread)) fun _ => ofExcept_only _ _

theorem read_bind_only [AllowsQuiet O] {query : Tables → StoreResult α} {f : α → Call β}
    (hf : ∀ a, (f a).run.Only O) : (Call.read query >>= f).run.Only O :=
  Proc.only_bind_ok (read_only AllowsQuiet.read query) hf

theorem kms_only (hkms : O .kms) (request : Int64 → Except String α) : (Call.kms request).run.Only O :=
  Proc.only_bind_ok (Proc.only_lift (Proc.only_perform hkms)) fun _ => ofExcept_only _ _

theorem submit_only {A : AppState} {command : Command} {basis : Basis} {sealing : Option Sealing}
    (h : O (.submit command basis sealing)) : (Call.submit A command basis sealing).run.Only O :=
  Proc.only_bind_ok (Proc.only_lift (Proc.only_perform h)) fun _ => ofExcept_only _ _

/-- A command whose outcome the call passes over. -/
theorem trySubmit_only {A : AppState} {command : Command} {basis : Basis} {sealing : Option Sealing}
    (h : O (.submit command basis sealing)) :
    (do let _ ← ExceptT.lift (Call.trySubmit A command basis sealing); return () : Call Unit).run.Only O :=
  Proc.only_bind_ok (Proc.only_lift (Proc.only_perform h)) fun _ => trivial

end Primitive

section Quiet
variable (A : AppState) (cfg : AuthConfig) {O : Op → Prop} [AllowsQuiet O]

theorem audit_only (actor clientIp : Option String) (action : String) (secretName : Option String) (outcome : String)
    (d : Draws) : (audit A actor clientIp action secretName outcome d).run.Only O :=
  trySubmit_only (AllowsQuiet.audit _)

theorem audit_bind_only {α : Type} {actor clientIp : Option String} {action : String} {secretName : Option String}
    {outcome : String} {d : Draws} {f : Unit → Call α} (hf : ∀ u, (f u).run.Only O) :
    (audit A actor clientIp action secretName outcome d >>= f).run.Only O :=
  Proc.only_bind_ok (audit_only A _ _ _ _ _ _) hf

theorem checkKey_only (key : String) (now : Int64) : (checkKey A cfg key now).run.Only O := by
  unfold checkKey
  split_ifs
  · exact trivial
  · refine read_bind_only fun found => ?_
    cases found.bind LockoutRecord.lockedUntil with
    | none => exact trivial
    | some until_ =>
        dsimp only
        split_ifs <;> exact trivial

omit [AllowsQuiet O] in
theorem recordKey_only {key : String} {now : Int64} (h : O (failureOp cfg key now)) :
    (recordKey A cfg key now).run.Only O := by
  unfold recordKey
  split_ifs
  · exact trivial
  · exact trySubmit_only h

theorem lockoutCheck_only (ip : Option IpAddr) (now : Int64) : (lockoutCheck A cfg ip now).run.Only O := by
  unfold lockoutCheck
  split_ifs
  · exact trivial
  · cases ip with
    | none => exact trivial
    | some ip => exact checkKey_only A cfg _ now

omit [AllowsQuiet O] in
theorem lockoutRecord_only {ip : Option IpAddr} {now : Int64}
    (h : ∀ addr, ip = some addr → O (failureOp cfg (cfg.showIp addr) now)) :
    (lockoutRecord A cfg ip now).run.Only O := by
  cases ip with
  | none => exact trivial
  | some addr => exact recordKey_only A cfg (h addr rfl)

/-! ## Reading and verifying -/

theorem getSecret_only (name clientIp : String) (d : Draws) : (getSecret A name clientIp d).run.Only O := by
  refine ofExcept_bind_only fun _ => ?_
  refine read_bind_only fun found => ?_
  cases found with
  | none => exact audit_bind_only A fun _ => trivial
  | some row =>
      refine ofExcept_bind_only fun _ => ?_
      exact audit_bind_only A fun _ => trivial

theorem getEach_only (clientIp : String) (d : Draws) (names : List String) :
    (getEach A clientIp d names).run.Only O := by
  induction names with
  | nil => exact trivial
  | cons name rest ih =>
      have hskip : (do audit A none (some clientIp) "get" (some name) "not_found" d
                       getEach A clientIp d rest : Call (List SecretValue)).run.Only O :=
        audit_bind_only A fun _ => ih
      unfold getEach
      split_ifs
      · refine read_bind_only fun found => ?_
        cases found with
        | none => exact hskip
        | some row =>
            refine ofExcept_bind_only fun _ => ?_
            refine audit_bind_only A fun _ => ?_
            exact Proc.only_bind_ok ih fun _ => trivial
      · exact hskip

theorem getSecrets_only (names : List String) (clientIp : String) (d : Draws) :
    (getSecrets A names clientIp d).run.Only O :=
  ofExcept_bind_only fun _ => getEach_only A clientIp d names

theorem verifyInvalid_only {name : String} (clientIp : String) {peer : IpAddr} (d : Draws) {recordAt : Int64}
    (h : O (failureOp cfg (verifyKey cfg peer name) recordAt)) :
    (verifyInvalid A cfg name clientIp peer d recordAt).run.Only O := by
  refine audit_bind_only A fun _ => ?_
  exact Proc.only_bind_ok (recordKey_only A cfg h) fun _ => trivial

/-- A mismatch is counted only under a name that a secret can have. -/
theorem verify_only {name : String} (clientIp : String) {peer : IpAddr} (presented : String) (d : Draws)
    (checkAt : Int64) {recordAt : Int64}
    (h : isValidSecretName name = true → O (failureOp cfg (verifyKey cfg peer name) recordAt)) :
    (verify A cfg name clientIp peer presented d checkAt recordAt).run.Only O := by
  cases hvalid : isValidSecretName name with
  | false =>
      unfold verify knownName
      rw [hvalid]
      exact trivial
  | true =>
  have hfailure := h hvalid
  refine ofExcept_bind_only fun _ => ?_
  refine Proc.only_bind_ok (checkKey_only A cfg _ _) fun _ => ?_
  split_ifs
  · exact verifyInvalid_only A cfg clientIp d hfailure
  · refine read_bind_only fun found => ?_
    cases found with
    | none => exact verifyInvalid_only A cfg clientIp d hfailure
    | some secret =>
        refine read_bind_only fun versions => ?_
        refine ofExcept_bind_only fun answer => ?_
        cases answer with
        | none => exact verifyInvalid_only A cfg clientIp d hfailure
        | some version => exact audit_bind_only A fun _ => trivial

end Quiet

/-! ## Calls on one secret -/

section Parts
variable (A : AppState) {name : String} {O : Op → Prop} [AllowsQuiet O]

theorem sealVersion_only (number : Int32) (payload : Payload) (d : Draws) :
    (sealVersion A name number payload d).run.Only O := by
  refine Proc.only_bind_ok (kms_only AllowsQuiet.kms _) fun _ => ?_
  refine Proc.only_bind_ok (ofOption_only _ _) fun _ => ?_
  exact read_bind_only fun _ => trivial

theorem readSecret_only : (readSecret A name).run.Only O :=
  read_bind_only fun _ => ofOption_only _ _

theorem loadUserpass_only (number : Int32) : (loadUserpass A name number).run.Only O := by
  refine read_bind_only fun _ => ?_
  exact Proc.only_bind_ok (ofOption_only _ _) fun _ => ofExcept_only _ _

theorem loadCurrentUserpass_only (login : String) : (loadCurrentUserpass A login).run.Only O := by
  refine read_bind_only fun _ => ?_
  exact Proc.only_bind_ok (ofOption_only _ _) fun _ => ofExcept_only _ _

theorem updatePayload_only (secret : SecretRecord) (req : UpdateSecretRequest) :
    (updatePayload A name secret req).run.Only O := by
  unfold updatePayload
  cases secret.format with
  | opaqueValue => exact ofExcept_bind_only fun _ => trivial
  | userpass =>
      refine Proc.only_bind_ok (loadUserpass_only A _) fun _ => ?_
      refine ofExcept_bind_only fun _ => ?_
      exact ofExcept_bind_only fun _ => trivial

theorem rotatePayload_only (secret : SecretRecord) (d : Draws) : (rotatePayload A name secret d).run.Only O := by
  unfold rotatePayload
  cases secret.format with
  | opaqueValue => exact trivial
  | userpass => exact Proc.only_bind_ok (loadUserpass_only A _) fun _ => trivial

/-! A rotation tries logins and hosts in turn. -/

theorem tryHosts_only (pg : PgRoleTarget) (login : UserPass) (role newPassword secret : String) (version : Int32)
    (hosts : List String) (lastErr : Option String) :
    (tryHosts pg login role newPassword secret version hosts lastErr).Only O := by
  induction hosts generalizing lastErr with
  | nil => exact trivial
  | cons host rest ih =>
      refine Proc.only_bind (Proc.only_perform (AllowsQuiet.attempt _ _ _)) fun answer => ?_
      cases answer with
      | error message => exact ih _
      | ok changed =>
          cases changed with
          | true => exact trivial
          | false => exact ih _

theorem tryLogins_only (pg : PgRoleTarget) (role newPassword secret : String) (version : Int32)
    (logins : List UserPass) (lastErr : Option String) :
    (tryLogins A pg role newPassword secret version logins lastErr).run.Only O := by
  induction logins generalizing lastErr with
  | nil => exact trivial
  | cons login rest ih =>
      have happly : (applyPassword A pg login role newPassword secret version).Only O := by
        unfold applyPassword
        split
        · exact trivial
        · exact tryHosts_only _ _ _ _ _ _ _ _
      refine Proc.only_bind_ok (Proc.only_lift happly) fun answer => ?_
      cases answer with
      | ok u => exact trivial
      | error message => exact ih _

theorem loadLogins_only (versions : List Int32) : (loadLogins A name versions).run.Only O := by
  induction versions with
  | nil => exact trivial
  | cons version rest ih =>
      refine read_bind_only fun found => ?_
      cases found with
      | none => exact ih
      | some record =>
          refine ofExcept_bind_only fun _ => ?_
          exact Proc.only_bind_ok ih fun _ => trivial

theorem selfLoginCandidates_only (previous : Int32) (now : Int64) :
    (selfLoginCandidates A name previous now).run.Only O :=
  read_bind_only fun _ => loadLogins_only A _

theorem targetLogins_only (previous : Int32) (now : Int64) (pg : PgRoleTarget) :
    (targetLogins A name previous now pg).run.Only O := by
  unfold targetLogins
  split
  · split_ifs
    · exact Proc.only_bind_ok (loadCurrentUserpass_only A _) fun _ => trivial
    · exact selfLoginCandidates_only A previous now
  · exact selfLoginCandidates_only A previous now

theorem rotateApply_only (secret : SecretRecord) (sealing : Sealing) (d : Draws) :
    (rotateApply A name secret sealing d).run.Only O := by
  unfold rotateApply
  split
  · refine Proc.only_bind_ok (targetLogins_only A _ _ _) fun logins => ?_
    split_ifs
    · exact trivial
    · exact tryLogins_only A _ _ _ _ _ _ _
  · exact trivial

end Parts

section Secrets
variable (A : AppState) {name : String} {O : Op → Prop}

theorem createSecretCall_only (actor : String) (req : CreateSecretRequest) [AllowsWrites O req.name] (d : Draws) :
    (createSecretCall A actor req d).run.Only O := by
  refine ofExcept_bind_only fun checked => ?_
  refine Proc.only_bind_ok (sealVersion_only A _ _ _) fun _ => ?_
  refine Proc.only_bind_ok (submit_only (@AllowsWrites.write O req.name _ _ rfl _ _)) fun _ => ?_
  exact audit_bind_only A fun _ => trivial

theorem deleteSecretCall_only [AllowsWrites O name] (actor : String) (d : Draws) :
    (deleteSecretCall A actor name d).run.Only O :=
  Proc.only_bind_ok (submit_only (AllowsWrites.write rfl _ _)) fun _ => audit_only A _ _ _ _ _ _

/-- After its command a rotation submits at most the command that schedules another one. -/
theorem rotateFinish_only [AllowsQuiet O] (actor : String) (clientIp : Option String) (d : Draws)
    (rotated : SecretRecord × Sealing)
    (h : ∀ version basis, O (.submit (retryCommand name version d.now) basis none)) :
    (rotateFinish A actor clientIp name d rotated.1 rotated.2).run.Only O := by
  refine Proc.only_bind_ok (Proc.only_lift (rotateApply_only A _ _ _)) fun applied => ?_
  cases applied with
  | ok u => exact audit_bind_only A fun _ => trivial
  | error err =>
      refine Proc.only_bind_ok (trySubmit_only (h _ _)) fun _ => ?_
      exact audit_bind_only A fun _ => trivial

variable [AllowsRevisions O name]

theorem updateCommit_only (req : UpdateSecretRequest) (d : Draws) : (updateCommit A name req d).run.Only O := by
  refine ofExcept_bind_only fun _ => ?_
  refine Proc.only_bind_ok (readSecret_only A) fun secret => ?_
  refine ofExcept_bind_only fun _ => ?_
  split_ifs
  · refine Proc.only_bind_ok (updatePayload_only A secret req) fun _ => ?_
    refine Proc.only_bind_ok (ofOption_only _ _) fun _ => ?_
    refine Proc.only_bind_ok (sealVersion_only A _ _ _) fun _ => ?_
    exact submit_only (AllowsRevisions.revise rfl _ _)
  · exact submit_only (AllowsRevisions.revise rfl _ _)

theorem updateSecret_only (actor : String) (req : UpdateSecretRequest) (d : Draws) :
    (updateSecret A actor name req d).run.Only O := by
  refine Proc.only_bind_ok (updateCommit_only A req d) fun _ => ?_
  refine audit_bind_only A fun _ => ?_
  exact readSecret_only A

theorem rotateCommit_only (d : Draws) : (rotateCommit A name d).run.Only O := by
  refine Proc.only_bind_ok (readSecret_only A) fun secret => ?_
  split_ifs
  · exact trivial
  · refine Proc.only_bind_ok (ofOption_only _ _) fun _ => ?_
    refine Proc.only_bind_ok (rotatePayload_only A secret d) fun _ => ?_
    refine Proc.only_bind_ok (sealVersion_only A _ _ _) fun _ => ?_
    exact Proc.only_bind_ok (submit_only (AllowsRevisions.revise rfl _ _)) fun _ => trivial

theorem rotate_only (actor : String) (clientIp : Option String) (d : Draws) :
    (rotate A actor clientIp name d).run.Only O :=
  Proc.only_bind_ok (rotateCommit_only A d) fun _ => rotateFinish_only A actor clientIp d _ fun _ _ =>
    AllowsRevisions.revise rfl _ _

end Secrets

/-! ## Passes -/

section Passes
variable (A : AppState) {O : Op → Prop} [AllowsPasses O]

theorem rewrapVersions_only (name : String) (incarnation : Nat) (target : Int64) (d : PassDraws)
    (versions : List VersionRecord) (summary : RewrapSummary) :
    (rewrapVersions A name incarnation target d versions summary).Only O := by
  induction versions generalizing summary with
  | nil => exact trivial
  | cons version rest ih =>
      unfold rewrapVersions
      dsimp only
      split_ifs
      · refine Proc.only_bind ?_ fun outcome => ?_
        · refine Proc.only_bind_ok (kms_only AllowsQuiet.kms _) fun _ => ?_
          exact submit_only (AllowsPasses.rewrap _ _ _ _ _ _)
        · cases outcome with
          | ok u => exact ih _
          | error e => exact ih _
      · exact ih _

theorem rewrapSecrets_only (target : Int64) (d : PassDraws) (secrets : List SecretRecord) (summary : RewrapSummary) :
    (rewrapSecrets A target d secrets summary).run.Only O := by
  induction secrets generalizing summary with
  | nil => exact trivial
  | cons secret rest ih =>
      refine Proc.only_bind_ok (Proc.only_lift (Proc.only_perform AllowsQuiet.read)) fun found => ?_
      refine ofExcept_bind_only fun versions => ?_
      exact Proc.only_bind_ok (Proc.only_lift (rewrapVersions_only A _ _ _ _ _ _)) fun _ => ih _

theorem runPass_only (node : Nat) (target : Int64) (d : PassDraws) : (runPass A node target d).run.Only O := by
  have hall : (rewrapAll A target d).run.Only O :=
    read_bind_only fun _ => rewrapSecrets_only A _ _ _ _
  refine Proc.only_bind_ok (Proc.only_lift (Proc.only_perform (AllowsPasses.busy _ _))) fun busy => ?_
  split_ifs
  · exact trivial
  · refine Proc.only_bind_ok (Proc.only_lift hall) fun outcome => ?_
    refine Proc.only_bind_ok (Proc.only_lift (Proc.only_perform (AllowsPasses.busy _ _))) fun _ => ?_
    exact ofExcept_only _ _

theorem force_only (node : Nat) (target : Int64) (d : PassDraws) (completedAt : Int64) :
    (force A node target d completedAt).run.Only O := by
  refine Proc.only_bind_ok (runPass_only A node target d) fun summary => ?_
  split_ifs
  · exact Proc.only_bind_ok (submit_only (AllowsPasses.completed _)) fun _ => trivial
  · exact trivial

end Passes

end HyperionVault
