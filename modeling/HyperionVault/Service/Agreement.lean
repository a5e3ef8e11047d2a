import HyperionVault.Service.Unwrapping

/-!
# The vault and the rotation target

Does the target have the password of the current version when all rotations have succeeded? Versions are
committed one after the other, but each rotation sends its password to the target afterwards, and nothing
orders these. A password that arrives after the one of a later version replaces it.

* `TargetAgrees` : the target has the password of the current version;
* `VersionsReturned` : every version committed since the start was returned by a call;
* `InOrder` : the target accepts no password after the one of a later version;
* `rotations_agree` : where passwords are accepted in order, vault and target agree;
* `late_apply_disagrees` : two rotations that succeed, and a target with the password of the first.
-/

namespace HyperionVault
open Lib

/-- The target has, for the role of the secret, the password that the current version holds. -/
def TargetAgrees (A : AppState) (name : String) (pg : PgRoleTarget) (w : World) : Prop :=
  ∃ s v login, secretAt A.codec w.tables name = some s ∧
    versionAt A.codec w.tables (versionKey name s.currentVersion) = some v ∧
    openUserpass A name s.currentVersion v = .ok login ∧
    w.passwords (pg.role.getD login.username) = some login.password

/-- Every version after `first` that has been committed was returned by a call. -/
def VersionsReturned (A : AppState) (name : String) (first : Int32)
    (sys : System World Op (ApiResult Reply) ServiceCall) : Prop :=
  ∀ s, secretAt A.codec sys.shared.tables name = some s → ∀ number, first < number → number ≤ s.currentVersion →
    ∃ c ∈ sys.calls, ∃ value, c.2 = .ret (.ok (.value value)) ∧ value.version = number

/-- A password is accepted only while no later one of the same secret has been. -/
def InOrder (w : World) : Op → Prop
  | .attempt a name version => w.accepts a = true → ∀ number, (name, number) ∈ w.accepted → number ≤ version
  | _ => True

/-- The call rotates the secret. -/
def ServiceCall.Rotates (name : String) (call : ServiceCall) : Prop :=
  ∃ actor clientIp d, call = .rotate actor clientIp name d

/-- A secret with a login and a target, in agreement. -/
structure RotationStart (A : AppState) (name : String) (pg : PgRoleTarget) (s : SecretRecord) (w : World) : Prop where
  vault : VaultInv A (unwrapping A) w
  secret : secretAt A.codec w.tables name = some s
  format : s.format = .userpass
  target : s.target = some (.pgReplica pg)
  accepted : ∀ number, (name, number) ∈ w.accepted → number ≤ s.currentVersion
  agrees : TargetAgrees A name pg w

/-! ## What rotations keep -/

/-- What stays fixed while a secret is rotated: its name, target and incarnation, the user that logs in, and
the version at the start. -/
structure Rotation where
  name : String
  pg : PgRoleTarget
  incarnation : Nat
  user : String
  first : Int32

/-- The sealed payload is this login. -/
def Sealing.Holds (A : AppState) (x : Sealing) (login : UserPass) : Prop :=
  A.userpass.decode (x.payload.bytes A) = some login

structure AgreeInv (A : AppState) (r : Rotation) (w : World) : Prop where
  vault : VaultInv A (unwrapping A) w
  incarnation : w.incarnation r.name = r.incarnation
  secret : ∃ s, secretAt A.codec w.tables r.name = some s ∧ s.format = .userpass ∧
    s.target = some (.pgReplica r.pg) ∧ r.first ≤ s.currentVersion
  logins : ∀ number x, r.first ≤ number → w.sealings r.name r.incarnation number = some x →
    ∃ login, x.Holds A login ∧ login.username = r.user
  /-- The target has the password of the latest version that it has accepted. -/
  last : ∃ number x login, r.first ≤ number ∧ w.sealings r.name r.incarnation number = some x ∧
    x.Holds A login ∧ w.passwords (r.pg.role.getD r.user) = some login.password ∧
    ∀ n, (r.name, n) ∈ w.accepted → n ≤ number

section Agreement
variable {A : AppState} {r : Rotation} {w w' : World}

theorem holds_userpass {x : Sealing} {login : UserPass} (h : x.payload = .userpass login) : x.Holds A login := by
  rw [Sealing.Holds, h]
  exact A.userpass.decode_encode login

theorem openUserpass_eq_ok {name : String} {number : Int32} {v : VersionRecord} {x : Sealing} {login : UserPass}
    (hx : x.Valid A name number) (h : Unwraps A name number v x) :
    openUserpass A name number v = .ok login ↔ x.Holds A login := by
  rw [openUserpass, openVersion_of_unwraps hx h, Sealing.Holds]
  show decodeUserpass A (x.payload.bytes A) = .ok login ↔ _
  unfold decodeUserpass
  cases A.userpass.decode (x.payload.bytes A) with
  | none => simp
  | some login' => simp

/-- A step that leaves the target alone. -/
theorem agree_step (h : AgreeInv A r w) (hvault : VaultInv A (unwrapping A) w') (hlater : Later w w')
    (hinc : w'.incarnation r.name = w.incarnation r.name) (hpasswords : w'.passwords = w.passwords)
    (haccepted : w'.accepted = w.accepted)
    (hsecret : ∀ s, secretAt A.codec w.tables r.name = some s → ∃ s', secretAt A.codec w'.tables r.name = some s' ∧
      s'.format = s.format ∧ s'.target = s.target ∧ s.currentVersion ≤ s'.currentVersion)
    (hlogins : ∀ number x, r.first ≤ number → w'.sealings r.name r.incarnation number = some x →
      w.sealings r.name r.incarnation number = some x ∨
        ∃ login, x.Holds A login ∧ login.username = r.user) : AgreeInv A r w' := by
  obtain ⟨s, hs, hformat, htarget, hfirst⟩ := h.secret
  obtain ⟨s', hs', hformat', htarget', hle⟩ := hsecret s hs
  obtain ⟨number, x, login, hnumber, hx, hlogin, hpassword, hlast⟩ := h.last
  refine ⟨hvault, hinc.trans h.incarnation, ⟨s', hs', hformat'.trans hformat, htarget'.trans htarget,
    hfirst.trans hle⟩, ?_, number, x, login, hnumber, hlater.sealings _ _ _ _ hx, hlogin, ?_, ?_⟩
  · intro n y hn hy
    rcases hlogins n y hn hy with hy' | hnew
    · exact h.logins n y hn hy'
    · exact hnew
  · rw [hpasswords]
    exact hpassword
  · rw [haccepted]
    exact hlast

/-- What was read in an earlier state about the secret. -/
theorem agree_read (h : AgreeInv A r w) {secret : SecretRecord}
    (hread : secretAt A.codec w.tables r.name = some secret) :
    isValidSecretName r.name = true ∧ 1 ≤ secret.currentVersion ∧ r.first ≤ secret.currentVersion ∧
      secret.format = .userpass ∧ secret.target = some (.pgReplica r.pg) := by
  obtain ⟨s, hs, hformat, htarget, hfirst⟩ := h.secret
  cases hs.symm.trans hread
  obtain ⟨hname, hpos⟩ := h.vault.store.valid _ _ hread
  exact ⟨hname, hpos, hfirst, hformat, htarget⟩

/-- A login that was read from a row since the start is one of the user. -/
theorem agree_user (h : AgreeInv A r w) {number : Int32} {v : VersionRecord} {current : UserPass}
    (hname : isValidSecretName r.name = true) (hpos : 1 ≤ number) (hfirst : r.first ≤ number)
    (hv : versionAt A.codec w.tables (versionKey r.name number) = some v)
    (hopen : openUserpass A r.name number v = .ok current) : current.username = r.user := by
  obtain ⟨x, hx, hrel⟩ := h.vault.row r.name number v hname hpos hv
  have hvalid := h.vault.sealed _ _ _ x hx
  rw [h.incarnation] at hx
  obtain ⟨login, hlogin, huser⟩ := h.logins number x hfirst hx
  cases hlogin.symm.trans ((openUserpass_eq_ok hvalid hrel).mp hopen)
  exact huser

theorem agree_rotate (h : AgreeInv A r w) {secret : SecretRecord} {x : Sealing} {now : Int64} {t' : Tables}
    (read : Earlier (AgreeInv A r) Later w fun w₀ => secretAt A.codec w₀.tables r.name = some secret)
    (next : nextVersion secret.currentVersion = some x.record.version)
    (sealing : x.Valid A r.name x.record.version) (format : x.payload.format = secret.format)
    (username : ∀ new, x.payload = .userpass new → Earlier (AgreeInv A r) Later w fun w₀ => ∃ v current,
      versionAt A.codec w₀.tables (versionKey r.name secret.currentVersion) = some v ∧
      openUserpass A r.name secret.currentVersion v = .ok current ∧ new.username = current.username)
    (hok : applyCommand A.codec A.nodeId (rotateCommand r.name secret now x.record) w.tables = (.ok (), t'))
    (hw' : w' = { w.withSealing r.name x.record.version (some x) with tables := t' })
    (hvault : VaultInv A (unwrapping A) w') (hlater : Later w w') : AgreeInv A r w' := by
  obtain ⟨w₀, h₀, _, hread⟩ := read
  obtain ⟨hname, hpos, hfirst, hformat, _⟩ := agree_read h₀ hread
  obtain ⟨stored, _, _, _, hs, hcur, _, hlt, _, _, hsecrets, _⟩ := putVersion_records h.vault.store
    ⟨succ_of_nextVersion next, sealing.unexpired, sealing.aad, rfl⟩ hok
  subst hw'
  refine agree_step h hvault hlater rfl rfl rfl (fun s hs' => ?_) (fun number y hnumber hy => ?_)
  · cases hs.symm.trans hs'
    refine ⟨_, (hsecrets r.name).trans (if_pos rfl), ?_⟩
    rw [applyMeta_eq]
    exact ⟨rfl, rfl, hcur.le.trans hlt.le⟩
  · dsimp only at hy
    rw [sealings_withSealing] at hy
    split_ifs at hy with hnew
    · cases hy
      right
      cases hpayload : x.payload with
      | value text =>
          rw [hpayload, hformat] at format
          cases format
      | userpass new =>
          obtain ⟨w₁, h₁, _, v, current, hv, hopen, huser⟩ := username new hpayload
          exact ⟨new, holds_userpass hpayload, huser.trans (agree_user h₁ hname hpos hfirst hv hopen)⟩
    · exact Or.inl hy

theorem agree_retry (h : AgreeInv A r w) {version : Int32} {now : Int64} {t' : Tables}
    (hok : applyCommand A.codec A.nodeId (retryCommand r.name version now) w.tables = (.ok (), t'))
    (hvault : VaultInv A (unwrapping A) { w with tables := t' }) (hlater : Later w { w with tables := t' }) :
    AgreeInv A r { w with tables := t' } := by
  obtain ⟨value, secret, hget, hdec, _, rfl⟩ := updateMeta_ok hok
  have hs : secretAt A.codec w.tables r.name = some secret := recordAt_of_get hget hdec
  refine agree_step h hvault hlater rfl rfl rfl (fun s hs' => ?_) (fun _ _ _ hy => Or.inl hy)
  cases hs.symm.trans hs'
  refine ⟨_, recordAt_insert_self _ _, ?_⟩
  rw [applyMeta_eq]
  exact ⟨rfl, rfl, le_refl _⟩

/-- A password that the target accepts is the latest it has accepted. -/
theorem agree_attempt (h : AgreeInv A r w) {a : Attempt} {version : Int32} {secret : SecretRecord} {x : Sealing}
    {pg : PgRoleTarget} {new : UserPass}
    (read : Earlier (AgreeInv A r) Later w fun w₀ => secretAt A.codec w₀.tables r.name = some secret)
    (next : nextVersion secret.currentVersion = some version) (target : secret.target = some (.pgReplica pg))
    (payload : x.payload = .userpass new)
    (committed : Earlier (AgreeInv A r) Later w fun w₁ => w₁.sealings r.name (w₁.incarnation r.name) version = some x)
    (password : a.newPassword = new.password) (role : a.role = pg.role.getD new.username)
    (hK : InOrder w (.attempt a r.name version))
    (hvault : VaultInv A (unwrapping A) (w.perform A (.attempt a r.name version)))
    (hlater : Later w (w.perform A (.attempt a r.name version))) :
    AgreeInv A r (w.perform A (.attempt a r.name version)) := by
  obtain ⟨w₀, h₀, _, hread⟩ := read
  obtain ⟨_, _, hfirst, _, htarget⟩ := agree_read h₀ hread
  cases target.symm.trans htarget
  obtain ⟨w₁, h₁, hlater₁, hx₁⟩ := committed
  rw [h₁.incarnation] at hx₁
  have hx := hlater₁.sealings _ _ _ _ hx₁
  have hversion : r.first ≤ version := by
    have hsucc := toInt_checkedSucc next
    rw [Int32.le_iff_toInt_le] at hfirst ⊢
    omega
  obtain ⟨login, hlogin, huser⟩ := h.logins version x hversion hx
  have hnew := holds_userpass (A := A) payload
  cases hnew.symm.trans hlogin
  unfold World.perform at hvault hlater ⊢
  dsimp only at hvault hlater ⊢
  split_ifs at hvault hlater ⊢ with haccepts
  · refine ⟨hvault, h.incarnation, h.secret, h.logins, version, x, new, hversion, hx, hnew, ?_, fun n hn => ?_⟩
    · dsimp only
      rw [role, huser, password, Function.update_self]
    · rcases List.mem_cons.mp hn with hn | hn
      · cases hn
        exact le_refl _
      · exact hK haccepts n hn
  · exact agree_step h hvault hlater rfl rfl rfl (fun s hs => ⟨s, hs, rfl, rfl, le_refl _⟩) fun _ _ _ hy => Or.inl hy

theorem agree_perform {call : ServiceCall} {op : Op} (hcall : call.Rotates r.name) (h : AgreeInv A r w)
    (hop : Prepared A (AgreeInv A r) Later call w op) (hK : InOrder w op) :
    AgreeInv A r (w.perform A op) ∧ Later w (w.perform A op) := by
  obtain ⟨actor, clientIp, d, rfl⟩ := hcall
  obtain ⟨hvault, hlater⟩ := vault_perform h.vault hop fun hpass => nomatch hpass
  refine ⟨?_, hlater⟩
  have hsubmit : ∀ {command : Command} {sealing : Option Sealing},
      VaultInv A (unwrapping A) (w.commit A command sealing) → Later w (w.commit A command sealing) →
      (∀ t', applyCommand A.codec A.nodeId command w.tables = (.ok (), t') →
        VaultInv A (unwrapping A) { w.record command sealing with tables := t' } →
        Later w { w.record command sealing with tables := t' } →
        AgreeInv A r { w.record command sealing with tables := t' }) → AgreeInv A r (w.commit A command sealing) :=
    fun hv hl hcommit => commit_of (P := fun w' => VaultInv A (unwrapping A) w' → Later w w' → AgreeInv A r w')
      (fun _ _ => h) hcommit hv hl
  cases hop with
  | read => exact h
  | kms => exact h
  | busy node value =>
      exact agree_step h hvault hlater rfl rfl rfl (fun s hs => ⟨s, hs, rfl, rfl, le_refl _⟩) fun _ _ _ hy => Or.inl hy
  | audit entry =>
      refine hsubmit hvault hlater fun t' ht' hv hl => ?_
      have hf := (@applyCommand_frame A.codec A.nodeId (.appendAudit entry) rfl w.tables).1
      rw [ht'] at hf
      refine agree_step h hv hl rfl rfl rfl (fun s hs => ⟨s, ?_, rfl, rfl, le_refl _⟩) fun _ _ _ hy => Or.inl hy
      rw [secretAt, hf]
      exact hs
  | sweep caller => cases caller
  | completed state caller => cases caller
  | delete caller => cases caller
  | create caller interval sealing => cases caller
  | updateVersion caller read next sealing format => cases caller
  | updateMeta caller read => cases caller
  | rotate caller read kind next sealing format username =>
      cases caller
      exact hsubmit hvault hlater fun t' ht' hv hl => agree_rotate h read next sealing format username ht' rfl hv hl
  | retry caller read kind =>
      cases caller
      exact hsubmit hvault hlater fun t' ht' hv hl => agree_retry h ht' hv hl
  | rewrap caller read rewrapped => cases caller
  | attempt caller read next target payload committed password role =>
      cases caller
      exact agree_attempt h read next target payload committed password role hK hvault hlater

/-- The start of the rotations. -/
theorem agree_start {name : String} {pg : PgRoleTarget} {s : SecretRecord} (h : RotationStart A name pg s w) :
    ∃ r : Rotation, r.name = name ∧ r.pg = pg ∧ r.first = s.currentVersion ∧ AgreeInv A r w := by
  obtain ⟨s', v, login, hs', hv, hopen, hpassword⟩ := h.agrees
  cases h.secret.symm.trans hs'
  obtain ⟨hname, hpos⟩ := h.vault.store.valid _ _ h.secret
  obtain ⟨x, hx, hrel⟩ := h.vault.row name s.currentVersion v hname hpos hv
  have hlogin := (openUserpass_eq_ok (h.vault.sealed _ _ _ x hx) hrel).mp hopen
  refine ⟨⟨name, pg, w.incarnation name, login.username, s.currentVersion⟩, rfl, rfl, rfl, h.vault, rfl,
    ⟨s, h.secret, h.format, h.target, le_refl _⟩, ?_, s.currentVersion, x, login, le_refl _, hx, hlogin, hpassword,
    h.accepted⟩
  intro number y hnumber hy
  -- nothing has been sealed after the current version
  obtain ⟨s₁, hs₁, hle⟩ := h.vault.fresh _ _ y hy
  cases h.secret.symm.trans hs₁
  cases le_antisymm hle hnumber
  cases hx.symm.trans hy
  exact ⟨login, hlogin, rfl⟩

/-- Once the current version is among those the target has accepted, the target has its password. -/
theorem agrees_of_accepted (h : AgreeInv A r w)
    (hcurrent : ∀ s, secretAt A.codec w.tables r.name = some s → r.first < s.currentVersion →
      (r.name, s.currentVersion) ∈ w.accepted) : TargetAgrees A r.name r.pg w := by
  obtain ⟨s, hs, _, _, hfirst⟩ := h.secret
  obtain ⟨number, x, login, hnumber, hx, hlogin, hpassword, hlast⟩ := h.last
  obtain ⟨hname, hpos⟩ := h.vault.store.valid _ _ hs
  obtain ⟨v, hv, _⟩ := h.vault.store.current _ _ hs
  have hle : number ≤ s.currentVersion := by
    rw [← h.incarnation] at hx
    obtain ⟨s', hs', hle⟩ := h.vault.fresh _ _ x hx
    cases hs.symm.trans hs'
    exact hle
  have heq : number = s.currentVersion := by
    rcases hfirst.eq_or_lt with heq | hlt
    · exact le_antisymm hle (heq ▸ hnumber)
    · exact le_antisymm hle (hlast _ (hcurrent s hs hlt))
  subst heq
  obtain ⟨login', hlogin', huser⟩ := h.logins _ x hnumber hx
  cases hlogin.symm.trans hlogin'
  obtain ⟨y, hy, hrel⟩ := h.vault.row _ _ v hname hpos hv
  have hvalid := h.vault.sealed _ _ _ y hy
  rw [h.incarnation] at hy
  cases hx.symm.trans hy
  refine ⟨s, v, login, hs, hv, (openUserpass_eq_ok hvalid hrel).mpr hlogin, ?_⟩
  rw [huser]
  exact hpassword

end Agreement

/-! ## Runs of two rotations -/

section TwoSecrets
variable (C : Codec)

/-- The target of `a`, which logs in with `b`. -/
def pgA : PgRoleTarget := ⟨["db"], "d", none, some "b"⟩

def appRequest : CreateSecretRequest :=
  { opaqueRequest "a" "v" with
    kind := .automatic, value := none, username := some "app", password := some "p1"
    rotationIntervalSecs := some 100, target := some (.pgReplica pgA) }

def rootRequest : CreateSecretRequest :=
  { opaqueRequest "b" "v" with value := none, username := some "root", password := some "r" }

def secretApp : SecretRecord := newSecretRecord appRequest .userpass 0 0

def secretRoot : SecretRecord := newSecretRecord rootRequest .userpass 0 0

def appSealing (number : Int32) (password : String) (key : Nat) : Sealing :=
  sealingOf (nodeWith C) "a" number (.userpass ⟨"app", password⟩) 0 key

def rootSealing : Sealing := sealingOf (nodeWith C) "b" 1 (.userpass ⟨"root", "r"⟩) 0 9

/-- The secret `a` is at version `number` with this password, and the login `b` is as it was created. -/
structure TwoSecrets (number : Int32) (password : String) (key : Nat) (w : World) : Prop where
  secret : ∃ s, secretAt C w.tables "a" = some s ∧ s.kind = .automatic ∧ s.format = .userpass ∧
    s.target = some (.pgReplica pgA) ∧ s.currentVersion = number
  version : versionAt C w.tables (versionKey "a" number) = some (appSealing C number password key).record
  login : secretAt C w.tables "b" = some secretRoot
  loginVersion : versionAt C w.tables (versionKey "b" 1) = some (rootSealing C).record
  network : ∀ i, w.network i = .primary
  root : w.passwords "root" = some "r"

/-- What a rotation of `a` returns. -/
def rotatedValue (number : Int32) (password : String) : SecretValue :=
  ⟨"a", .automatic, number, .userpass ⟨"app", password⟩, 0⟩

/-- Whether the operation goes to the target. -/
def Op.isAttempt : Op → Bool
  | .attempt .. => true
  | _ => false

/-- An audit entry changes nothing else. -/
theorem audit_commit (A : AppState) (w : World) (entry : AuditEntry) :
    (w.commit A (.appendAudit entry) none).tables.secrets = w.tables.secrets ∧
      (w.commit A (.appendAudit entry) none).tables.versions = w.tables.versions ∧
      (w.commit A (.appendAudit entry) none).passwords = w.passwords ∧
      (w.commit A (.appendAudit entry) none).network = w.network := by
  rcases commit_cases A w (.appendAudit entry) none with hw | ⟨t', ht', hw⟩
  · rw [hw]
    exact ⟨rfl, rfl, rfl, rfl⟩
  · have hf := @applyCommand_frame A.codec A.nodeId (.appendAudit entry) rfl w.tables
    rw [ht'] at hf
    rw [hw]
    exact ⟨hf.1, hf.2, rfl, rfl⟩

variable {C} {K : World → Op → Prop} {w : World} {number : Int32} {password : String} {key : Nat}

theorem openUserpass_sealingOf (name : String) (number : Int32) (login : UserPass) (key : Nat) :
    openUserpass (nodeWith C) name number (sealingOf (nodeWith C) name number (.userpass login) 0 key).record =
      .ok login :=
  (openUserpass_eq_ok (valid_sealingOf C name number (.userpass login) 0 key) ⟨rfl, rfl, rfl, rfl⟩).mpr
    (holds_userpass rfl)

theorem two_congr (h : TwoSecrets C number password key w) {w' : World} (hs : w'.tables.secrets = w.tables.secrets)
    (hv : w'.tables.versions = w.tables.versions) (hnetwork : w'.network = w.network)
    (hroot : w'.passwords "root" = w.passwords "root") : TwoSecrets C number password key w' := by
  obtain ⟨hsecret, hversion, hlogin, hloginVersion, hprimary, hpassword⟩ := h
  refine ⟨?_, ?_, ?_, ?_, fun i => hnetwork ▸ hprimary i, hroot.trans hpassword⟩
  · rw [secretAt, hs]
    exact hsecret
  · rw [versionAt, hv]
    exact hversion
  · rw [secretAt, hs]
    exact hlogin
  · rw [versionAt, hv]
    exact hloginVersion

theorem commit_two (h : TwoSecrets C number password key w) (hstate : w.tables.kmsRewrap = .empty) {number' : Int32}
    (hpos : 1 ≤ number) (hnext : nextVersion number = some number') (token : String) (key' : Nat)
    (hK : ∀ w op, op.isAttempt = false → K w op) :
    ∃ s w', (rotateCommit (nodeWith C) "a" (drawsOf 0 key' token)).Runs (nodeWith C) K 5 w
        (s, appSealing C number' token key') w' ∧
      s.kind = .automatic ∧ s.target = some (.pgReplica pgA) ∧ TwoSecrets C number' token key' w' ∧
        w'.tables.kmsRewrap = .empty ∧
      w'.passwords = w.passwords ∧ w'.accepted = w.accepted := by
  obtain ⟨s, hs, hkind, hformat, htarget, hcur⟩ := h.secret
  subst hcur
  have hvalid := isValidSecretName_a
  obtain ⟨hpos', hne⟩ := versionKey_nextVersion hvalid hpos hnext
  have hother : ∀ n, 1 ≤ n → versionKey "a" n ≠ versionKey "b" 1 := fun n hn =>
    versionKey_ne_of_name_ne hvalid rfl hn (le_refl 1) (by decide)
  have hpayload : (rotatePayload (nodeWith C) "a" s (drawsOf 0 key' token)).Runs (nodeWith C) K 1 w
      (.userpass ⟨"app", token⟩) w := by
    unfold rotatePayload
    rw [hformat]
    exact runs_bind (n := 1) (m := 0)
      (loadUserpass_runs (hK _ _ rfl) h.version (openUserpass_sealingOf "a" _ _ _)) (pure_runs _)
  have happly := rotateCommand_eq (A := nodeWith C) s 0 (appSealing C number' token key').record hvalid hpos' hs rfl hne
    h.version rfl
  refine ⟨s, _, rotateCommit_runs (hK _ _ rfl) hs hkind hnext hpayload (seal_runs (hK _ _ rfl) (hK _ _ rfl) hstate)
    (hK _ _ rfl) happly, hkind, htarget, ⟨⟨_, recordAt_insert_self _ _, hkind, hformat, htarget, rfl⟩, ?_, ?_, ?_,
    h.network, h.root⟩, hstate, rfl, rfl⟩
  · exact (recordAt_insert_of_ne _ hne.symm).trans (recordAt_insert_self _ _)
  · exact (recordAt_insert_of_ne _ (by decide)).trans h.login
  · exact (recordAt_insert_of_ne _ (hother _ hpos)).trans
      ((recordAt_insert_of_ne _ (hother _ hpos')).trans h.loginVersion)

theorem finish_two (h : TwoSecrets C number password key w) (number' : Int32) (token : String) (key' : Nat)
    {s : SecretRecord} (hkind : s.kind = .automatic) (htarget : s.target = some (.pgReplica pgA))
    (hK : ∀ w op, op.isAttempt = false → K w op) (hattempt : ∀ a, K w (.attempt a "a" number')) :
    ∃ w', (rotateFinish (nodeWith C) "root" none "a" (drawsOf 0 key' token) s (appSealing C number' token key')).Runs
        (nodeWith C) K 3 w (rotatedValue number' token) w' ∧
      TwoSecrets C number password key w' ∧ w'.passwords "app" = some token := by
  have hlogin : (loadCurrentUserpass (nodeWith C) "b").Runs (nodeWith C) K 1 w ⟨"root", "r"⟩ w :=
    loadCurrentUserpass_runs (hK _ _ rfl) h.login h.loginVersion (openUserpass_sealingOf "b" 1 _ 9)
  have hanswer : ∀ a, a.login = ⟨"root", "r"⟩ → w.tryRotate a = .ok true ∧ w.accepts a = true := by
    intro a ha
    have hok : w.loginOk a = true := by
      rw [World.loginOk, ha]
      exact decide_eq_true h.root
    simp [World.tryRotate, World.accepts, h.network, hok]
  have happly := applyTarget_runs (A := nodeWith C) (K := K) "a" s.currentVersion number' 0 pgA
    ⟨"app", token⟩ rfl (by decide) hlogin rfl rfl rfl (hattempt _) (hanswer _ rfl).1
  rw [perform_attempt (nodeWith C) (hanswer _ rfl).2] at happly
  obtain ⟨entry, hruns⟩ := rotateFinish_runs "root" none (d := drawsOf 0 key' token)
    (x := appSealing C number' token key')
    htarget rfl happly fun entry => hK _ _ rfl
  rw [hkind] at hruns
  obtain ⟨hsecrets, hversions, hpasswords, hnetwork⟩ := audit_commit (nodeWith C) _ entry
  refine ⟨_, hruns, two_congr h hsecrets hversions hnetwork ?_, ?_⟩
  · rw [hpasswords]
    exact Function.update_of_ne (show "root" ≠ "app" by decide) (some token) w.passwords
  · rw [hpasswords]
    exact Function.update_self "app" (some token) w.passwords

variable (C)

def rotateFirst : ServiceCall := .rotate "root" none "a" (drawsOf 0 2 "p2")

def rotateSecond : ServiceCall := .rotate "root" none "a" (drawsOf 0 3 "p3")

/-- A target with the passwords of both roles. -/
def targetOnly : World :=
  { freshWorld with
    passwords := fun role => if role = "app" then some "p1" else if role = "root" then some "r" else none }

def loginStored : World :=
  { targetOnly.withSealing "b" 1 (some (rootSealing C)) with tables := oneSecret C secretRoot (rootSealing C).record }

/-- The two secrets as they are created, with a target in agreement. -/
def targetWorld : World :=
  { (loginStored C).withSealing "a" 1 (some (appSealing C 1 "p1" 1)) with
    tables := { (loginStored C).tables with
      secrets := (loginStored C).tables.secrets.insert "a" (C.secret.encode secretApp)
      versions := (loginStored C).tables.versions.insert (versionKey "a" 1)
        (C.version.encode (appSealing C 1 "p1" 1).record) } }

theorem targetWorld_two : TwoSecrets C 1 "p1" 1 (targetWorld C) := by
  have hother : versionKey "a" 1 ≠ versionKey "b" 1 :=
    versionKey_ne_of_name_ne isValidSecretName_a rfl (le_refl 1) (le_refl 1) (by decide)
  refine ⟨⟨secretApp, recordAt_insert_self _ _, rfl, rfl, rfl, rfl⟩, recordAt_insert_self _ _,
    ?_, ?_, fun _ => rfl, rfl⟩
  · exact (recordAt_insert_of_ne _ (by decide)).trans (recordAt_insert_self _ _)
  · exact (recordAt_insert_of_ne _ hother).trans (recordAt_insert_self _ _)

theorem targetWorld_start : RotationStart (nodeWith C) "a" pgA secretApp (targetWorld C) where
  vault := by
    have hempty : VaultInv (nodeWith C) (unwrapping (nodeWith C)) targetOnly :=
      vault_start ⟨rfl, rfl, fun _ _ _ => rfl⟩
    have hlogin : createSecret C secretRoot (rootSealing C).record targetOnly.tables = _ :=
      createSecret_eq rfl (le_refl (1 : Int32)) rfl
    have hstored : VaultInv (nodeWith C) (unwrapping (nodeWith C)) (loginStored C) :=
      (vault_create hempty (valid_sealingOf C "b" 1 _ 0 9) rfl hlogin).1
    have happ : createSecret C secretApp (appSealing C 1 "p1" 1).record (loginStored C).tables = _ :=
      createSecret_eq rfl (le_refl (1 : Int32)) rfl
    exact (vault_create hstored (valid_sealingOf C "a" 1 _ 0 1) rfl happ).1
  secret := recordAt_insert_self _ _
  format := rfl
  target := rfl
  accepted := by
    intro number h
    cases h
  agrees := ⟨secretApp, _, ⟨"app", "p1"⟩, recordAt_insert_self _ _, recordAt_insert_self _ _,
    openUserpass_sealingOf "a" 1 _ 1, rfl⟩

variable {C}

/-- One rotation, from its first read to its reply. -/
def oneRotation : List (SystemEvent ServiceCall) :=
  (.start rotateFirst :: List.replicate 5 (.step 0)) ++ List.replicate 3 (.step 0)

theorem oneRotation_run (C : Codec) : ∃ w, TwoSecrets C 2 "p2" 2 w ∧
    RunsTo (serve (nodeWith C)) (System.Allows (ServiceCall.Rotates "a") InOrder) ⟨targetWorld C, []⟩ oneRotation
      ⟨w, [(rotateFirst, .ret (.ok (.value (rotatedValue 2 "p2"))))]⟩ := by
  have hK : ∀ w op, op.isAttempt = false → InOrder w op := by
    intro w op hop
    cases op with
    | attempt a name version => cases hop
    | _ => trivial
  obtain ⟨s, w₁, hcommit, hkind, htarget, htwo, _, _, haccepted⟩ := commit_two (targetWorld_two C) rfl (by decide)
    (show nextVersion 1 = some 2 by decide) "p2" 2 hK
  have hfirst : ∀ a, InOrder w₁ (.attempt a "a" 2) := by
    intro a _ number hmem
    rw [haccepted] at hmem
    cases hmem
  obtain ⟨w₂, hfinish, htwo₂, _⟩ := finish_two htwo 2 "p2" 2 hkind htarget hK hfirst
  exact ⟨w₂, htwo₂, (serve_commit [] ⟨_, _, _, rfl⟩ hcommit).append (serve_rest 0 rfl hfinish)⟩

theorem oneRotation_returned (C : Codec) :
    VersionsReturned (nodeWith C) "a" secretApp.currentVersion
      (run (serve (nodeWith C)) ⟨targetWorld C, []⟩ oneRotation) := by
  obtain ⟨w, htwo, hrun, _⟩ := oneRotation_run C
  rw [hrun]
  intro s hs number hlt hle
  obtain ⟨s', hs', _, _, _, hcur⟩ := htwo.secret
  cases hs'.symm.trans hs
  refine ⟨_, List.mem_singleton_self _, _, rfl, ?_⟩
  rw [hcur] at hle
  have hge : (2 : Int32) ≤ number := by
    rw [Int32.lt_iff_toInt_lt] at hlt
    rw [Int32.le_iff_toInt_le]
    exact hlt
  exact le_antisymm hge hle

/-- Two rotations commit their versions one after the other; the second one reaches the target first. -/
def lateApply : List (SystemEvent ServiceCall) :=
  (.start rotateFirst :: List.replicate 5 (.step 0)) ++ (.start rotateSecond :: List.replicate 5 (.step 1)) ++
    List.replicate 3 (.step 1) ++ List.replicate 3 (.step 0)

theorem lateApply_run (C : Codec) : ∃ w, TwoSecrets C 3 "p3" 3 w ∧ w.passwords "app" = some "p2" ∧
    run (serve (nodeWith C)) ⟨targetWorld C, []⟩ lateApply =
      ⟨w, [(rotateFirst, .ret (.ok (.value (rotatedValue 2 "p2")))),
        (rotateSecond, .ret (.ok (.value (rotatedValue 3 "p3"))))]⟩ := by
  have hK : ∀ (w : World) op, op.isAttempt = false → (fun _ _ => True : World → Op → Prop) w op := fun _ _ _ => trivial
  have hP : ∀ d, ServiceCall.Rotates "a" (.rotate "root" none "a" d) := fun d => ⟨_, _, d, rfl⟩
  obtain ⟨s, w₁, hcommit, hkind, htarget, htwo, hstate, _⟩ := commit_two (targetWorld_two C) rfl (by decide)
    (show nextVersion 1 = some 2 by decide) "p2" 2 hK
  obtain ⟨s₂, w₂, hcommit₂, hkind₂, htarget₂, htwo₂, _⟩ := commit_two htwo hstate (by decide)
    (show nextVersion 2 = some 3 by decide) "p3" 3 hK
  obtain ⟨w₃, hfinish₂, htwo₃, _⟩ := finish_two htwo₂ 3 "p3" 3 hkind₂ htarget₂ hK fun _ => trivial
  obtain ⟨w₄, hfinish, htwo₄, happ⟩ := finish_two htwo₃ 2 "p2" 2 hkind htarget hK fun _ => trivial
  have h₁ := (serve_commit [] (hP _) hcommit).append (serve_commit _ (hP _) hcommit₂)
  have h₂ := (h₁.append (serve_rest 1 rfl hfinish₂)).append (serve_rest 0 rfl hfinish)
  exact ⟨w₄, htwo₄, happ, h₂.1⟩

theorem not_agrees_two {C : Codec} {w : World} (h : TwoSecrets C 3 "p3" 3 w) (happ : w.passwords "app" = some "p2") :
    ¬ TargetAgrees (nodeWith C) "a" pgA w := by
  rintro ⟨s, v, login, hs, hv, hopen, hpassword⟩
  obtain ⟨s', hs', _, _, _, hcur⟩ := h.secret
  cases hs'.symm.trans hs
  rw [hcur] at hv hopen
  cases h.version.symm.trans hv
  cases (openUserpass_sealingOf "a" 3 ⟨"app", "p3"⟩ 3).symm.trans hopen
  have hsame : some "p2" = some "p3" := happ.symm.trans hpassword
  exact absurd hsame (by decide)

end TwoSecrets

/-! ## Vault and target -/

/-- In every interleaving of rotations of one secret in which the target accepts passwords in the order of their
versions, the target has the password of the current version whenever every version committed has been
returned. -/
theorem rotations_agree (A : AppState) (name : String) (pg : PgRoleTarget) (s : SecretRecord) (w : World)
    (hw : RotationStart A name pg s w) (events : List (SystemEvent ServiceCall))
    (hevents : AllSteps (serve A) (System.Allows (ServiceCall.Rotates name) InOrder) ⟨w, []⟩ events)
    (hreturned : VersionsReturned A name s.currentVersion (run (serve A) ⟨w, []⟩ events)) :
    TargetAgrees A name pg (run (serve A) ⟨w, []⟩ events).shared := by
  obtain ⟨r, rfl, rfl, hfirst, hstart⟩ := agree_start hw
  have hguarded := System.run_guards (I := AgreeInv A r) (R := Later) (G := Prepared A (AgreeInv A r) Later)
    (P := ServiceCall.Rotates r.name) (K := InOrder) (Q := fun call => call.Answered A (AgreeInv A r) Later)
    (fun call s _ hs => body_guards (fun h => h.vault.store) (fun h => h.accepted) call hs)
    (fun call s op hcall hs hop hK => agree_perform hcall hs hop hK) hstart hevents
  refine agrees_of_accepted hguarded.inv fun s' hs' hlt => ?_
  rw [hfirst] at hlt
  obtain ⟨c, hc, value, hret, hversion⟩ := hreturned s' hs' _ hlt (le_refl _)
  obtain ⟨call, p⟩ := c
  obtain ⟨⟨actor, clientIp, d, hcall⟩, hpromise⟩ := hguarded.calls _ hc
  dsimp only at hret hcall hpromise
  subst hret hcall
  obtain ⟨secret, ⟨w₀, h₀, _, hread⟩, hformat, haccepted⟩ :=
    hpromise _ (refl_of Later _) hguarded.inv value rfl
  obtain ⟨_, _, _, huserpass, htarget⟩ := agree_read h₀ hread
  rw [← hversion]
  cases hpayload : value.payload with
  | value text =>
      rw [hpayload, huserpass] at hformat
      cases hformat
  | userpass new => exact haccepted r.pg new htarget hpayload

theorem one_rotation_agrees : TargetAgrees (nodeWith jsonCodec) "a" pgA
    (run (serve (nodeWith jsonCodec)) ⟨targetWorld jsonCodec, []⟩ oneRotation).shared := by
  obtain ⟨w, _, hrun⟩ := oneRotation_run jsonCodec
  exact rotations_agree (nodeWith jsonCodec) "a" pgA secretApp (targetWorld jsonCodec) (targetWorld_start jsonCodec)
    oneRotation hrun.2 (oneRotation_returned jsonCodec)

/-- Both rotations return their versions, no call is left, and the target has the password of the first one while
the second one is current. -/
theorem late_apply_disagrees :
    RotationStart (nodeWith jsonCodec) "a" pgA secretApp (targetWorld jsonCodec) ∧
      (run (serve (nodeWith jsonCodec)) ⟨targetWorld jsonCodec, []⟩ lateApply).calls =
        [(rotateFirst, .ret (.ok (.value (rotatedValue 2 "p2")))),
          (rotateSecond, .ret (.ok (.value (rotatedValue 3 "p3"))))] ∧
      ¬ TargetAgrees (nodeWith jsonCodec) "a" pgA
        (run (serve (nodeWith jsonCodec)) ⟨targetWorld jsonCodec, []⟩ lateApply).shared := by
  obtain ⟨w, htwo, happ, hrun⟩ := lateApply_run jsonCodec
  rw [hrun]
  exact ⟨targetWorld_start jsonCodec, rfl, not_agrees_two htwo happ⟩

end HyperionVault
