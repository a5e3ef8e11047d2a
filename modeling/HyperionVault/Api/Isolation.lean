import HyperionVault.Api.Confinement

/-!
# Lockouts stay apart

Failed attempts are counted under the address of the TCP connection, wrong values presented for a secret under that
address and the secret. Both kinds of counters are rows of one table, whose keys are texts.

* `PrintsAddresses` : what is assumed of how addresses are printed;
* `verifyKey_inj`, `verifyKey_ne_showIp` : no two counters have the same key;
* `FailsAt` : operations that count under certain keys only, `lockouts_perform` : they change no other row;
* `ApiCall.Counts`, `counts_handler` : the keys of a request;
* `lockouts_isolated` : what changes the row of a counter.
-/

namespace HyperionVault
open Lib

/-! ## Keys -/

/-- A hexadecimal digit, a colon or a point. -/
def isAddressChar (c : Char) : Bool :=
  c.isDigit || ('a' ≤ c && c ≤ 'f') || ('A' ≤ c && c ≤ 'F') || c = ':' || c = '.'

structure PrintsAddresses (showIp : IpAddr → String) : Prop where
  injective : Function.Injective showIp
  chars : ∀ ip, ∀ c ∈ (showIp ip).toList, isAddressChar c = true

theorem colon_notMem_of_isValidSecretName {name : String} (h : isValidSecretName name = true) : ':' ∉ name.toList := by
  intro hmem
  simp only [isValidSecretName, Bool.and_eq_true, List.all_eq_true] at h
  exact absurd (h.2 ':' hmem) (by decide)

section Keys
variable {cfg : AuthConfig} (hprint : PrintsAddresses cfg.showIp)

theorem toList_verifyKey (cfg : AuthConfig) (peer : IpAddr) (secret : String) :
    (verifyKey cfg peer secret).toList = ("verify:".toList ++ (cfg.showIp peer).toList) ++ ':' :: secret.toList := by
  simp only [verifyKey, String.toList_append, List.append_assoc]
  rfl

include hprint

/-- The secret is what stands after the last colon. -/
theorem verifyKey_inj {ip ip' : IpAddr} {secret secret' : String} (hsecret : isValidSecretName secret = true)
    (hsecret' : isValidSecretName secret' = true) (h : verifyKey cfg ip secret = verifyKey cfg ip' secret') :
    ip = ip' ∧ secret = secret' := by
  have hlist := congrArg String.toList h
  rw [toList_verifyKey, toList_verifyKey] at hlist
  obtain ⟨haddress, hname⟩ := append_cons_inj_of_notMem (colon_notMem_of_isValidSecretName hsecret)
    (colon_notMem_of_isValidSecretName hsecret') hlist
  exact ⟨hprint.injective (String.toList_inj.mp (List.append_cancel_left haddress)), String.toList_inj.mp hname⟩

/-- The key begins with a letter that is no hexadecimal digit. -/
theorem verifyKey_ne_showIp (ip ip' : IpAddr) (secret : String) : verifyKey cfg ip secret ≠ cfg.showIp ip' := by
  intro h
  have hmem : 'v' ∈ (cfg.showIp ip').toList := by
    rw [← h, toList_verifyKey]
    exact List.mem_append_left _ (List.mem_append_left _ (by decide))
  exact absurd (hprint.chars ip' 'v' hmem) (by decide)

end Keys

/-! Printing in decimals meets the assumption. -/

/-- Four decimals with points between them; an address of the other kind as one decimal after a colon. -/
def printIp : IpAddr → String
  | .v4 addr => String.ofList (((Nat.toDigits 10 (addr.toNat / 2 ^ 24) ++ '.' ::
      Nat.toDigits 10 (addr.toNat / 2 ^ 16 % 256)) ++ '.' :: Nat.toDigits 10 (addr.toNat / 2 ^ 8 % 256)) ++ '.' ::
      Nat.toDigits 10 (addr.toNat % 256))
  | .v6 addr => String.ofList (':' :: Nat.toDigits 10 addr.toNat)

theorem notMem_toDigits {c : Char} (h : c.isDigit = false) (n : Nat) : c ∉ Nat.toDigits 10 n := by
  intro hmem
  have hdigit := Nat.isDigit_of_mem_toDigits (by decide) (by decide) hmem
  rw [h] at hdigit
  cases hdigit

theorem printIp_v4_inj {addr addr' : UInt32} (h : printIp (.v4 addr) = printIp (.v4 addr')) : addr = addr' := by
  have hpoint (n : Nat) := notMem_toDigits (c := '.') (by decide) n
  obtain ⟨hhigh, h4⟩ := append_cons_inj_of_notMem (hpoint _) (hpoint _) (String.ofList_inj.mp h)
  obtain ⟨hhigh, h3⟩ := append_cons_inj_of_notMem (hpoint _) (hpoint _) hhigh
  obtain ⟨h1, h2⟩ := append_cons_inj_of_notMem (hpoint _) (hpoint _) hhigh
  have h1 := toDigits_inj h1
  have h2 := toDigits_inj h2
  have h3 := toDigits_inj h3
  have h4 := toDigits_inj h4
  exact UInt32.toNat_inj.mp (by omega)

theorem printIp_prints : PrintsAddresses printIp where
  injective := by
    intro ip ip' h
    have hcolon (n : Nat) := notMem_toDigits (c := ':') (by decide) n
    have hmixed (addr : UInt32) (addr' : BitVec 128) : printIp (.v4 addr) ≠ printIp (.v6 addr') := by
      intro h
      have hmem : ':' ∈ (printIp (.v4 addr)).toList := by
        rw [h, printIp, String.toList_ofList]
        exact List.mem_cons_self
      simp [printIp, hcolon] at hmem
    cases ip with
    | v4 addr =>
        cases ip' with
        | v4 addr' => rw [printIp_v4_inj h]
        | v6 addr' => exact absurd h (hmixed addr addr')
    | v6 addr =>
        cases ip' with
        | v4 addr' => exact absurd h.symm (hmixed addr' addr)
        | v6 addr' =>
            have hdigits := (List.cons.inj (String.ofList_inj.mp h)).2
            rw [BitVec.eq_of_toNat_eq (toDigits_inj hdigits)]
  chars := by
    intro ip c hc
    have hdigit {n : Nat} (h : c ∈ Nat.toDigits 10 n) : isAddressChar c = true := by
      simp [isAddressChar, Nat.isDigit_of_mem_toDigits (by decide) (by decide) h]
    cases ip with
    | v4 addr =>
        simp only [printIp, String.toList_ofList, List.mem_append, List.mem_cons] at hc
        rcases hc with ((hc | rfl | hc) | rfl | hc) | rfl | hc
        all_goals first | exact hdigit hc | decide
    | v6 addr =>
        simp only [printIp, String.toList_ofList, List.mem_cons] at hc
        rcases hc with rfl | hc
        · decide
        · exact hdigit hc

/-! ## Counting -/

/-- The counter that a command adds to. -/
def Command.failureKey : Command → Option String
  | .recordAuthFailure key .. => some key
  | _ => none

/-- What the operation counts, it counts under one of these keys. -/
def FailsAt (K : String → Prop) : Op → Prop
  | .submit command _ _ => ∀ key, command.failureKey = some key → K key
  | _ => True

theorem failureKey_of_subject {command : Command} {name : String} (h : command.subject = some name) :
    command.failureKey = none := by
  cases command with
  | recordAuthFailure => cases h
  | _ => rfl

instance (K : String → Prop) : AllowsPasses (FailsAt K) where
  read := trivial
  kms := trivial
  attempt _ _ _ := trivial
  audit _ := nofun
  busy _ _ := trivial
  rewrap _ _ _ _ _ _ := nofun
  completed _ := nofun

instance (K : String → Prop) (name : String) : AllowsWrites (FailsAt K) name where
  read := trivial
  kms := trivial
  attempt _ _ _ := trivial
  audit _ := nofun
  write h _ _ _ hkey := nomatch (failureKey_of_subject h).symm.trans hkey

theorem failsAt_failureOp {K : String → Prop} {cfg : AuthConfig} {key : String} {now : Int64} (h : K key) :
    FailsAt K (failureOp cfg key now) := by
  rintro _ ⟨⟩
  exact h

section Steps
variable {A : AppState} {t t' : Tables} {w : World} {key : String}

/-- A restore leaves the lockouts as they were. -/
theorem lockouts_command {C : Codec} {nodeId : Nat} {command : Command} (hkey : command.failureKey ≠ some key)
    (hok : applyCommand C nodeId command t = (.ok (), t')) : t'.lockouts.get key = t.lockouts.get key := by
  cases command with
  | recordAuthFailure other =>
      obtain ⟨bytes, rfl⟩ := recordAuthFailure_ok hok
      exact Table.get_insert_of_ne _ _ fun h => hkey (congrArg some h)
  | restoreDatabase data =>
      obtain ⟨_, rfl⟩ := restoreDatabase_ok hok
      rfl
  | _ => rw [(applyCommand_area hok).same .lockouts nofun nofun nofun]

/-- Only an operation that counts under a key changes its row. -/
theorem lockouts_perform {K : String → Prop} {op : Op} (hop : FailsAt K op) (hkey : ¬ K key) :
    (w.perform A op).tables.lockouts.get key = w.tables.lockouts.get key := by
  cases op with
  | submit command basis sealing =>
      exact commit_of (P := fun w' => w'.tables.lockouts.get key = w.tables.lockouts.get key) rfl
        fun _ hok => lockouts_command (fun hfails => hkey (hop key hfails)) hok
  | attempt a name version =>
      obtain ⟨_, _, hw⟩ := perform_attempt_eq A w a name version
      rw [hw]
  | _ => rfl

end Steps

/-! ## The requests -/

/-- A request to verify a value of this secret. -/
def ApiRequest.Verifies (request : ApiRequest) (secret : String) : Prop :=
  ∃ path body, request = .secretAction path body ∧ Routes.splitAction path = some (secret, "verify")

/-- The counters of a request: that of its connection, and that of a secret it verifies. -/
inductive ApiCall.Counts (cfg : ApiConfig) (call : ApiCall) : String → Prop
  | address {peer : IpAddr} (hpeer : call.parts.peerIp = some peer) : Counts cfg call (cfg.auth.showIp peer)
  | verify {peer : IpAddr} {secret : String} (hpeer : call.parts.peerIp = some peer)
      (hrequest : call.request.Verifies secret) (hvalid : isValidSecretName secret = true) :
      Counts cfg call (verifyKey cfg.auth peer secret)

section Requests
variable {A : AppState} {cfg : AuthConfig} {K : String → Prop} {parts : RequestParts} {α β : Type}

/-- A call that counts under these keys only, and what holds of its result. -/
abbrev CountingCall (K : String → Prop) (c : Call α) (Q : α → Prop) : Prop :=
  c.run.Under (fun _ => True) (FailsAt K) (Proc.IfOk Q)

theorem counting_only {c : Call α} (h : c.run.Only (FailsAt K)) : CountingCall K c fun _ => True :=
  Proc.under_ok_of_only h

theorem counting_throw {e : ApiError} {Q : α → Prop} : CountingCall K (throw e) Q := fun _ h => nomatch h

theorem counting_return (a : α) : CountingCall K (pure a) fun _ => True := fun _ _ => trivial

theorem lockoutRecord_counts (hK : ∀ peer, parts.peerIp = some peer → K (cfg.showIp peer)) (now : Int64) :
    (lockoutRecord A cfg parts.peerIp now).run.Only (FailsAt K) :=
  lockoutRecord_only A cfg fun peer hpeer => failsAt_failureOp (hK peer hpeer)

theorem touchIfDue_counts (token : TokenRecord) (fingerprint : Bytes) (now : Int64) :
    (touchIfDue A cfg token fingerprint now).run.Only (FailsAt K) := by
  unfold touchIfDue
  split_ifs
  · exact trySubmit_only nofun
  · exact trivial

theorem actorRules_counts (role : Option String) : (actorRules A role).run.Only (FailsAt K) := by
  cases role with
  | none => exact trivial
  | some roleName =>
      refine read_bind_only fun found => ?_
      cases found <;> exact trivial

/-- The actor is counted under the address of its connection. -/
theorem adminActor_counts (hK : ∀ peer, parts.peerIp = some peer → K (cfg.showIp peer)) (g : GuardTimes) :
    CountingCall K (adminActor A cfg parts g) fun actor => actor.peerIp = parts.peerIp := by
  have hreject : CountingCall K (rejectActor A cfg parts g) fun actor => actor.peerIp = parts.peerIp :=
    Proc.under_bind_ok (counting_only (lockoutRecord_counts hK _)) fun _ _ => counting_throw
  refine Proc.under_bind_ok (counting_only (lockoutCheck_only A cfg _ _)) fun _ _ => ?_
  cases bearerToken parts with
  | none => exact hreject
  | some bearer =>
      refine Proc.under_bind_ok (counting_only (read_only AllowsQuiet.read _)) fun record _ => ?_
      cases record.filter fun record => record.revokedAt.isNone with
      | none => exact hreject
      | some token =>
          refine Proc.under_bind_ok (counting_only (actorRules_counts _)) fun held _ => ?_
          refine Proc.under_bind_ok (counting_only (touchIfDue_counts _ _ _)) fun _ _ => ?_
          rintro _ ⟨⟩
          rfl

theorem allowOrReject_counts (hK : ∀ peer, parts.peerIp = some peer → K (cfg.showIp peer)) {actor : AdminActor}
    (hactor : actor.peerIp = parts.peerIp) (allowed : Bool) (now : Int64) :
    (allowOrReject A cfg actor allowed now).run.Only (FailsAt K) := by
  unfold allowOrReject
  rw [hactor]
  split_ifs
  · exact trivial
  · exact Proc.only_bind_ok (lockoutRecord_counts hK now) fun _ => trivial

theorem authorizeRotationTarget_counts (hK : ∀ peer, parts.peerIp = some peer → K (cfg.showIp peer))
    {actor : AdminActor} (hactor : actor.peerIp = parts.peerIp) (req : CreateSecretRequest) (now : Int64) :
    (authorizeRotationTarget A cfg actor req now).run.Only (FailsAt K) := by
  unfold authorizeRotationTarget
  cases req.target with
  | none => exact trivial
  | some target =>
      exact Proc.only_bind_ok (allowOrReject_counts hK hactor _ _) fun _ => allowOrReject_counts hK hactor _ _

end Requests

section Administration
variable {A : AppState} {cfg : AuthConfig} {K : String → Prop}

theorem getRole_counts (name : String) : (Manage.getRole A name).run.Only (FailsAt K) :=
  read_bind_only fun _ => ofOption_only _ _

theorem createRole_counts (req : CreateRoleRequest) (now : Int64) :
    (Manage.createRole A req now).run.Only (FailsAt K) := by
  refine ofExcept_bind_only fun _ => ?_
  refine ofExcept_bind_only fun _ => ?_
  exact Proc.only_bind_ok (submit_only nofun) fun _ => trivial

theorem setPermissions_counts (name : String) (permissions : Rules) :
    (Manage.setPermissions A name permissions).run.Only (FailsAt K) := by
  refine ofExcept_bind_only fun _ => ?_
  exact Proc.only_bind_ok (submit_only nofun) fun _ => getRole_counts name

theorem deleteRole_counts (name : String) : (Manage.deleteRole A name).run.Only (FailsAt K) :=
  ofExcept_bind_only fun _ => submit_only nofun

theorem createToken_counts (req : CreateTokenRequest) (d : Draws) :
    (Manage.createToken A cfg req d).run.Only (FailsAt K) := by
  refine ofExcept_bind_only fun _ => ?_
  refine read_bind_only fun _ => ?_
  refine ofExcept_bind_only fun _ => ?_
  exact Proc.only_bind_ok (submit_only nofun) fun _ => trivial

theorem revokeToken_counts (name : String) (now : Int64) : (Manage.revokeToken A name now).run.Only (FailsAt K) :=
  submit_only nofun

theorem backup_counts (actor : String) (d : Draws) : (Manage.backup A actor d).run.Only (FailsAt K) :=
  read_bind_only fun _ =>
    audit_bind_only A fun _ => trivial

theorem restore_counts (limits : RestoreConfig) (actor : String) (data : BackupData) (d : Draws) :
    (Manage.restore A limits actor data d).run.Only (FailsAt K) := by
  refine ofExcept_bind_only fun _ => ?_
  refine ofExcept_bind_only fun _ => ?_
  exact Proc.only_bind_ok (submit_only nofun) fun _ => audit_only A _ _ _ _ _ _

theorem internally_only {O : Op → Prop} {α : Type} {c : Call α} (h : c.run.Only O) : c.internally.run.Only O :=
  Proc.only_bind_ok (Proc.only_lift h) fun _ => ofExcept_only _ _

theorem countVersions_counts (target now : Int64) (secrets : List SecretRecord) (counts : Nat × Nat) :
    (countVersions A target now secrets counts).run.Only (FailsAt K) := by
  induction secrets generalizing counts with
  | nil => exact trivial
  | cons secret rest ih => exact read_bind_only fun _ => ih _

theorem status_counts (node : Nat) (enabled : Bool) (latestRotation : Except String (Option Int64)) (now : Int64) :
    (status A node enabled latestRotation now).run.Only (FailsAt K) := by
  refine read_bind_only fun _ => ?_
  refine Proc.only_bind_ok (Proc.only_lift (Proc.only_perform AllowsQuiet.kms)) fun _ => ?_
  refine read_bind_only fun _ => ?_
  refine Proc.only_bind_ok (countVersions_counts _ _ _ _) fun _ => ?_
  exact Proc.only_bind_ok (Proc.only_lift (Proc.only_perform AllowsQuiet.read)) fun _ => trivial

end Administration

section Routes
variable {A : AppState} {cfg : ApiConfig} {K : String → Prop} {parts : RequestParts} {d : RequestDraws} {α β : Type}
  (hK : ∀ peer, parts.peerIp = some peer → K (cfg.auth.showIp peer))

theorem ofBody_counts (body : Body α) : CountingCall K (Call.ofBody body) fun _ => True :=
  counting_only (ofExcept_only _ _)

include hK

theorem administrator_counts (body : Body α) :
    CountingCall K (Routes.administrator A cfg parts d body) fun _ => True := by
  refine Proc.under_bind_ok (adminActor_counts hK _) fun actor hactor => ?_
  refine Proc.under_bind_ok (ofBody_counts body) fun req _ => ?_
  exact Proc.under_bind_ok (counting_only (allowOrReject_counts hK hactor _ _)) fun _ _ => counting_return _

/-- A request of an administrator counts only what its guard and its check count. -/
theorem administered_counts {body : Body α} {c : AdminActor × α → Call β} (h : ∀ p, (c p).run.Only (FailsAt K))
    (reply : β → ApiReply) :
    CountingCall K (do
      let p ← Routes.administrator A cfg parts d body
      let b ← c p
      return reply b) fun _ => True := by
  refine Proc.under_bind_ok (administrator_counts hK body) fun p _ => ?_
  exact Proc.under_bind_ok (counting_only (h p)) fun _ _ => counting_return _

/-- So does one that the rules of the actor allow. -/
theorem authorized_counts {actor : AdminActor} (hactor : actor.peerIp = parts.peerIp) {action name : String}
    {c : Call α} (h : c.run.Only (FailsAt K)) (reply : α → ApiReply) :
    CountingCall K (do
      authorize A cfg.auth actor action name d.deniedAt
      let a ← c
      return reply a) fun _ => True := by
  refine Proc.under_bind_ok (counting_only (allowOrReject_counts hK hactor _ _)) fun _ _ => ?_
  exact Proc.under_bind_ok (counting_only h) fun _ _ => counting_return _

theorem readerGuard_counts (g : GuardTimes) :
    CountingCall K (readerGuard A cfg.auth parts g) fun guard => parts.peerIp = some guard.peerIp :=
  readerGuard_under fun peer hpeer => failsAt_failureOp (hK peer hpeer)

theorem createSecret_counts (body : Body CreateSecretRequest) :
    CountingCall K (Routes.createSecret A cfg parts d body) fun _ => True := by
  refine Proc.under_bind_ok (adminActor_counts hK _) fun actor hactor => ?_
  refine Proc.under_bind_ok (ofBody_counts body) fun req _ => ?_
  refine Proc.under_bind_ok (counting_only (allowOrReject_counts hK hactor _ _)) fun _ _ => ?_
  refine Proc.under_bind_ok (counting_only (authorizeRotationTarget_counts hK hactor _ _)) fun _ _ => ?_
  exact Proc.under_bind_ok (counting_only (createSecretCall_only A _ _ _)) fun _ _ => counting_return _

/-- A mismatch is counted under the address of the connection and the name. -/
theorem secretAction_counts {path : String} (body : Body String)
    (hverify : ∀ peer secret, parts.peerIp = some peer → Routes.splitAction path = some (secret, "verify") →
      isValidSecretName secret = true → K (verifyKey cfg.auth peer secret)) :
    CountingCall K (Routes.secretAction A cfg parts d path body) fun _ => True := by
  unfold Routes.secretAction
  cases hsplit : Routes.splitAction path with
  | none => exact counting_throw
  | some split =>
      obtain ⟨name, action⟩ := split
      dsimp only
      split_ifs with hrotate hisverify
      · refine Proc.under_bind_ok (adminActor_counts hK _) fun actor hactor => ?_
        exact authorized_counts hK hactor (rotate_only A _ _ _) .value
      · subst hisverify
        refine Proc.under_bind_ok (readerGuard_counts hK _) fun guard hguard => ?_
        refine Proc.under_bind_ok (ofBody_counts body) fun presented _ => ?_
        refine Proc.under_bind_ok (counting_only (verify_only A cfg.auth _ _ _ _ fun hvalid => ?_)) fun _ _ =>
          counting_return _
        exact failsAt_failureOp (hverify guard.peerIp name hguard hsplit hvalid)
      · exact counting_throw

end Routes

/-- Every request counts under its own keys only. -/
theorem counts_handler (A : AppState) (cfg : ApiConfig) (call : ApiCall) :
    CountingCall (call.Counts cfg) (call.handler A cfg) fun _ => True := by
  have hK (peer) (hpeer : call.parts.peerIp = some peer) : call.Counts cfg (cfg.auth.showIp peer) := .address hpeer
  obtain ⟨parts, request, d⟩ := call
  cases request with
  | healthz => exact counting_return _
  | readyz => exact Proc.under_bind_ok (counting_only (read_only AllowsQuiet.read _)) fun _ _ => counting_return _
  | createSecret body => exact createSecret_counts hK body
  | listSecrets =>
      refine Proc.under_bind_ok (adminActor_counts hK _) fun _ _ => ?_
      exact Proc.under_bind_ok (counting_only (read_only AllowsQuiet.read _)) fun _ _ => counting_return _
  | getSecret name =>
      refine Proc.under_bind_ok (readerGuard_counts hK _) fun _ _ => ?_
      exact Proc.under_bind_ok (counting_only (getSecret_only A _ _ _)) fun _ _ => counting_return _
  | batchGetSecrets body =>
      refine Proc.under_bind_ok (readerGuard_counts hK _) fun _ _ => ?_
      refine Proc.under_bind_ok (ofBody_counts body) fun names _ => ?_
      exact Proc.under_bind_ok (counting_only (getSecrets_only A _ _ _)) fun _ _ => counting_return _
  | updateSecret name body =>
      refine Proc.under_bind_ok (adminActor_counts hK _) fun actor hactor => ?_
      refine Proc.under_bind_ok (ofBody_counts body) fun req _ => ?_
      exact authorized_counts hK hactor (updateSecret_only A _ _ _) .metadata
  | deleteSecret name =>
      refine Proc.under_bind_ok (adminActor_counts hK _) fun actor hactor => ?_
      exact authorized_counts hK hactor (deleteSecretCall_only A _ _) fun _ => .noContent
  | secretAction path body =>
      exact secretAction_counts hK body fun peer secret hpeer hsplit hvalid =>
        .verify hpeer ⟨path, body, rfl, hsplit⟩ hvalid
  | createRole body => exact administered_counts hK (fun _ => createRole_counts _ _) .role
  | listRoles => exact administered_counts hK (fun _ => read_only AllowsQuiet.read _) .roles
  | getRole name => exact administered_counts hK (fun _ => getRole_counts name) .role
  | setPermissions name body => exact administered_counts hK (fun _ => setPermissions_counts name _) .role
  | deleteRole name => exact administered_counts hK (fun _ => deleteRole_counts name) fun _ => .noContent
  | createToken body => exact administered_counts hK (fun _ => createToken_counts _ _) .tokenCreated
  | listTokens => exact administered_counts hK (fun _ => read_only AllowsQuiet.read _) .tokens
  | revokeToken name => exact administered_counts hK (fun _ => revokeToken_counts name _) fun _ => .noContent
  | backup => exact administered_counts hK (fun _ => backup_counts _ _) .backup
  | restore body => exact administered_counts hK (fun _ => restore_counts _ _ _ _) fun _ => .noContent
  | kmsRewrap =>
      refine Proc.under_bind_ok (administrator_counts hK _) fun _ _ => ?_
      refine Proc.under_bind_ok (counting_only (kms_only AllowsQuiet.kms _)) fun latest _ => ?_
      exact Proc.under_bind_ok (counting_only (internally_only (force_only A _ _ _ _))) fun _ _ => counting_return _
  | kmsRewrapStatus =>
      exact administered_counts hK (fun _ => internally_only (status_counts _ _ _ _)) .rewrapStatus

/-- A row that a step changes is that of a counter of the request which takes the step. -/
theorem counts_of_changed (A : AppState) (cfg : ApiConfig) (w : World) (events : List (SystemEvent ApiCall))
    (place : Nat) {key : String}
    (hchanged : (run (System.step (World.perform A) (ApiCall.body A cfg)) ⟨w, []⟩
        (events ++ [.step place])).shared.tables.lockouts.get key ≠
      (run (System.step (World.perform A) (ApiCall.body A cfg)) ⟨w, []⟩ events).shared.tables.lockouts.get key) :
    ∃ call rest, (run (System.step (World.perform A) (ApiCall.body A cfg)) ⟨w, []⟩ events).calls[place]? =
      some (call, rest) ∧ call.Counts cfg key := by
  rw [run_append, run_cons, run_nil] at hchanged
  rcases System.shared_step (World.perform A) (ApiCall.body A cfg) _ place with hsame | ⟨call, op, next, hcall, hshared⟩
  · rw [hsame] at hchanged
    exact absurd rfl hchanged
  · have hop : FailsAt (call.Counts cfg) op := System.next_op_of_under (counts_handler A cfg) hcall
    refine ⟨call, _, hcall, by_contra fun hkey => hchanged ?_⟩
    rw [hshared]
    exact lockouts_perform hop hkey

/-- In every interleaving of requests, whatever their connections, headers, tokens and names. The row that `check` and
`check_ip` read for an address changes only in a step of a request that comes from it. The row that `check_verify` reads
for an address and a secret changes only in a step of a request from this address to verify this secret. No operation of
`verify` changes a row that `check` and `check_ip` read. The keys of two counters are never the same. -/
theorem lockouts_isolated (A : AppState) (cfg : ApiConfig) (hprint : PrintsAddresses cfg.auth.showIp) (w : World)
    (events : List (SystemEvent ApiCall)) (place : Nat) :
    let before := run (System.step (World.perform A) (ApiCall.body A cfg)) ⟨w, []⟩ events
    let after := run (System.step (World.perform A) (ApiCall.body A cfg)) ⟨w, []⟩ (events ++ [.step place])
    (∀ peer, after.shared.tables.lockouts.get (cfg.auth.showIp peer) ≠
        before.shared.tables.lockouts.get (cfg.auth.showIp peer) →
      ∃ call rest, before.calls[place]? = some (call, rest) ∧ call.parts.peerIp = some peer) ∧
    (∀ peer secret, isValidSecretName secret = true →
      after.shared.tables.lockouts.get (verifyKey cfg.auth peer secret) ≠
        before.shared.tables.lockouts.get (verifyKey cfg.auth peer secret) →
      ∃ call rest, before.calls[place]? = some (call, rest) ∧ call.parts.peerIp = some peer ∧
        call.request.Verifies secret) ∧
    (∀ name clientIp peer presented d checkAt recordAt,
      (verify A cfg.auth name clientIp peer presented d checkAt recordAt).run.Only fun op => ∀ (w : World) ip,
        (w.perform A op).tables.lockouts.get (cfg.auth.showIp ip) = w.tables.lockouts.get (cfg.auth.showIp ip)) ∧
    (∀ ip ip' secret secret', isValidSecretName secret = true → isValidSecretName secret' = true →
      verifyKey cfg.auth ip secret = verifyKey cfg.auth ip' secret' → ip = ip' ∧ secret = secret') ∧
    ∀ ip ip' secret, verifyKey cfg.auth ip secret ≠ cfg.auth.showIp ip' := by
  intro before after
  refine ⟨fun peer hchanged => ?_, fun peer secret hsecret hchanged => ?_,
    fun name clientIp peer presented d checkAt recordAt => ?_,
    fun _ _ _ _ hsecret hsecret' h => verifyKey_inj hprint hsecret hsecret' h, verifyKey_ne_showIp hprint⟩
  · obtain ⟨call, rest, hcall, hcounts⟩ := counts_of_changed A cfg w events place hchanged
    refine ⟨call, rest, hcall, ?_⟩
    generalize hkey : cfg.auth.showIp peer = key at hcounts
    cases hcounts with
    | address hpeer => rw [hpeer, hprint.injective hkey]
    | verify hpeer hrequest hvalid => exact absurd hkey.symm (verifyKey_ne_showIp hprint _ _ _)
  · obtain ⟨call, rest, hcall, hcounts⟩ := counts_of_changed A cfg w events place hchanged
    refine ⟨call, rest, hcall, ?_⟩
    generalize hkey : verifyKey cfg.auth peer secret = key at hcounts
    cases hcounts with
    | address hpeer => exact absurd hkey (verifyKey_ne_showIp hprint _ _ _)
    | verify hpeer hrequest hvalid =>
        obtain ⟨rfl, rfl⟩ := verifyKey_inj hprint hsecret hvalid hkey
        exact ⟨hpeer, hrequest⟩
  · have honly : (verify A cfg.auth name clientIp peer presented d checkAt recordAt).run.Only
        (FailsAt fun key => ∃ ip secret, key = verifyKey cfg.auth ip secret) :=
      verify_only A cfg.auth clientIp presented d checkAt fun _ => failsAt_failureOp ⟨peer, name, rfl⟩
    refine Proc.only_mono (fun op hop w ip => lockouts_perform hop ?_) honly
    rintro ⟨ip', secret, h⟩
    exact verifyKey_ne_showIp hprint ip' ip secret h.symm

/-- A node that prints addresses in decimals. -/
def printingApi : ApiConfig := { demoApi with auth := { demoAuth with showIp := printIp } }

/-- A request without a token. -/
def tokenlessDelete : ApiCall := { foreignDelete with parts := ⟨none, none, some (.v4 0x0a000005)⟩ }

/-- It has looked up the row of its address, and has then counted its failure. -/
def failedAttempt (steps : Nat) : System World Op (ApiResult ApiReply) ApiCall :=
  run (System.step (World.perform (nodeWith jsonCodec)) (ApiCall.body (nodeWith jsonCodec) printingApi)) ⟨freshWorld, []⟩
    (.start tokenlessDelete :: List.replicate steps (.step 0))

/-- Two addresses of which one begins with the other: an attempt from the first fails, and the row of the second stays. -/
theorem failed_attempt_isolated :
    printIp (.v4 0x0a000005) = "10.0.0.5" ∧ printIp (.v4 0x0a000032) = "10.0.0.50" ∧
      (failedAttempt 1).shared.tables.lockouts.get "10.0.0.5" = none ∧
      ((failedAttempt 2).shared.tables.lockouts.get "10.0.0.5").isSome ∧
      (∃ call rest, (failedAttempt 1).calls[0]? = some (call, rest) ∧ call.parts.peerIp = some (.v4 0x0a000005)) ∧
      (failedAttempt 2).shared.tables.lockouts.get "10.0.0.50" =
        (failedAttempt 1).shared.tables.lockouts.get "10.0.0.50" ∧
      verifyKey printingApi.auth (.v4 0x0a000005) "db/password" ≠ "10.0.0.5" := by
  have hisolated := lockouts_isolated (nodeWith jsonCodec) printingApi printIp_prints freshWorld
    [.start tokenlessDelete, .step 0] 0
  have hnone : (failedAttempt 1).shared.tables.lockouts.get "10.0.0.5" = none := rfl
  have hsome : ((failedAttempt 2).shared.tables.lockouts.get "10.0.0.5").isSome := rfl
  have hcall : ((failedAttempt 1).calls[0]?).map Prod.fst = some tokenlessDelete := rfl
  refine ⟨by decide, by decide, hnone, hsome, hisolated.1 (.v4 0x0a000005) fun h => ?_, by_contra fun h => ?_,
    hisolated.2.2.2.2 (.v4 0x0a000005) (.v4 0x0a000005) "db/password"⟩
  · have hsame : (failedAttempt 2).shared.tables.lockouts.get "10.0.0.5" =
        (failedAttempt 1).shared.tables.lockouts.get "10.0.0.5" := h
    rw [hsame, hnone] at hsome
    cases hsome
  · obtain ⟨call, rest, hbefore, hpeer⟩ := hisolated.1 (.v4 0x0a000032) h
    rw [show (failedAttempt 1).calls[0]? = some (call, rest) from hbefore] at hcall
    cases hcall
    exact absurd hpeer (by decide)

end HyperionVault
