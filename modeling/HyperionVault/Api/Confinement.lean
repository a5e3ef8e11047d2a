import HyperionVault.Api.Routes
import HyperionVault.Api.TokenRoles
import HyperionVault.Service.History
import HyperionVault.Service.Subjects

/-!
# What a token that is no administrator's can change

The requests made with a token are confined by the rules of its role: only names that a rule matches change,
each by an action that the rule allows; roles, the names of tokens and the state of the key rotation never
change, and of the tokens only the time of the last use of this one.

* `TokenHasRole` : whose rules apply; `Confined` : what stays as it was;
* `ConfinedOp` : the operations of a confined request, `confined_handler` : it performs no others;
* `confined_perform`, `allowed_of_rows_changed` : what these operations do to the tables;
* `requests_confined`.
-/

namespace HyperionVault
open Lib

/-- The token of this fingerprint has the role of this name and record. -/
structure TokenHasRole (C : Codec) (fingerprint : Bytes) (roleName : String) (role : RoleRecord) (t : Tables) :
    Prop where
  token : ∃ token, recordAt C.token t.tokens fingerprint = some token ∧ token.role = some roleName
  role : recordAt C.role t.roles roleName = some role

/-- Nothing has changed outside the names of the rules, the time of the last use of the token apart. -/
structure Confined (C : Codec) (fingerprint : Bytes) (rules : Rules) (t t' : Tables) : Prop where
  rows : ∀ name, visible false rules name = false → SameRows name t t'
  roles : t'.roles = t.roles
  kmsRewrap : t'.kmsRewrap = t.kmsRewrap
  tokensByName : t'.tokensByName = t.tokensByName
  otherTokens : ∀ key, key ≠ fingerprint → t'.tokens.get key = t.tokens.get key
  usedToken : t'.tokens.get fingerprint = t.tokens.get fingerprint ∨ ∃ token at_,
    recordAt C.token t.tokens fingerprint = some token ∧
      t'.tokens.get fingerprint = some (C.token.encode { token with lastUsedAt := some at_ })

/-- The operations of a request made with the token. -/
inductive ConfinedOp (fingerprint : Bytes) (rules : Rules) (request : ApiRequest) : Op → Prop
  | quiet {op : Op} (h : QuietOp op) : ConfinedOp fingerprint rules request op
  | touch (at_ : Int64) : ConfinedOp fingerprint rules request (.submit (.touchToken fingerprint at_) .nothing none)
  | write {action name : String} {command : Command} (basis : Basis) (sealing : Option Sealing)
      (haction : request.action = some (action, name)) (hallow : rulesAllow false rules action name = true)
      (hsubject : command.subject = some name) :
      ConfinedOp fingerprint rules request (.submit command basis sealing)

instance (fingerprint : Bytes) (rules : Rules) (request : ApiRequest) :
    AllowsQuiet (ConfinedOp fingerprint rules request) where
  read := .quiet .read
  kms := .quiet .kms
  attempt a name version := .quiet (.attempt a name version)
  audit entry := .quiet (.audit entry)

/-! ## The operations of the requests -/

section Requests
variable {A : AppState} {cfg : AuthConfig} {fingerprint : Bytes} {roleName : String} {role : RoleRecord}
  {request : ApiRequest} {α : Type}

/-- A call under the token: it sees the token's role, and is confined by its rules. -/
abbrev ConfinedCall (A : AppState) (fingerprint : Bytes) (roleName : String) (role : RoleRecord) (request : ApiRequest)
    (c : Call α) (Q : α → Prop) : Prop :=
  c.run.Under (fun w => TokenHasRole A.codec fingerprint roleName role w.tables)
    (ConfinedOp fingerprint role.permissions request) (Proc.IfOk Q)

theorem confined_quiet {c : Call α} (h : c.run.Only QuietOp) :
    ConfinedCall A fingerprint roleName role request c fun _ => True :=
  Proc.under_ok_of_only (Proc.only_mono (fun _ => .quiet) h)

theorem confined_throw {e : ApiError} {Q : α → Prop} :
    ConfinedCall A fingerprint roleName role request (throw e) Q := fun _ h => nomatch h

theorem confined_ofBody (body : Body α) :
    ConfinedCall A fingerprint roleName role request (Call.ofBody body) fun req => body = .ok req := by
  cases body with
  | error e => exact confined_throw
  | ok req =>
      intro a ha
      cases ha
      rfl

theorem confined_read {query : Tables → StoreResult α} {Q : α → Prop}
    (h : ∀ t a, TokenHasRole A.codec fingerprint roleName role t → query t = .ok a → Q a) :
    ConfinedCall A fingerprint roleName role request (Call.read query) Q := by
  refine Proc.under_bind_ok (Q := fun r => ∀ a, r = .ok a → Q a) ?_ fun r hr => ?_
  · refine Proc.under_bind (Proc.under_perform (Q := fun r => ∀ a, r = .ok a → Q a) (.quiet .read) ?_) ?_
    · exact fun w hw a ha => h w.tables a hw ha
    · rintro r hr _ ⟨⟩
      exact hr
  · cases r with
    | error e => exact confined_throw
    | ok a =>
        intro b hb
        cases hb
        exact hr a rfl

theorem confined_rejectActor (parts : RequestParts) (g : GuardTimes) {Q : AdminActor → Prop} :
    ConfinedCall A fingerprint roleName role request (rejectActor A cfg parts g) Q :=
  Proc.under_bind_ok (confined_quiet (lockoutRecord_only A cfg fun _ _ => .failure ..)) fun _ _ => confined_throw

theorem confined_touchIfDue (token : TokenRecord) (now : Int64) :
    ConfinedCall A fingerprint roleName role request (touchIfDue A cfg token fingerprint now) fun _ => True := by
  refine Proc.under_ok_of_only ?_
  unfold touchIfDue
  split_ifs
  · exact trySubmit_only (.touch now)
  · exact trivial

/-- The actor of the request has the rules of the token's role. -/
theorem confined_adminActor {parts : RequestParts} {g : GuardTimes}
    (hparts : ∀ bearer, bearerToken parts = some bearer → cfg.fingerprint bearer = fingerprint) :
    ConfinedCall A fingerprint roleName role request (adminActor A cfg parts g) fun actor =>
      actor.isAdmin = role.isAdmin ∧ actor.rules = role.permissions := by
  refine Proc.under_bind_ok (confined_quiet (lockoutCheck_only A cfg _ _)) fun _ _ => ?_
  cases hbearer : bearerToken parts with
  | none => exact confined_rejectActor parts g
  | some bearer =>
      obtain rfl := hparts bearer hbearer
      refine Proc.under_bind_ok (Q := fun found => ∀ token, found = some token → token.role = some roleName)
        (confined_read ?_) fun found hfound => ?_
      · rintro t found ht hread token rfl
        obtain ⟨stored, hstored, hrole⟩ := ht.token
        cases (lookup_eq_ok.mp hread).symm.trans hstored
        exact hrole
      · cases hfilter : found.filter fun record => record.revokedAt.isNone with
        | none => exact confined_rejectActor parts g
        | some token =>
            have hrole := hfound token (Option.filter_eq_some_iff.mp hfilter).1
            dsimp only
            rw [hrole]
            refine Proc.under_bind_ok (Q := fun held => held = (role.isAdmin, role.permissions)) ?_ ?_
            · refine Proc.under_bind_ok (Q := fun found => found = some role) (confined_read ?_) ?_
              · exact fun t found ht hread => (Except.ok.inj (hread.symm.trans (lookup_eq_ok.mpr ht.role)))
              · rintro _ rfl held hheld
                cases hheld
                rfl
            · rintro _ rfl
              refine Proc.under_bind_ok (confined_touchIfDue token g.touchAt) fun _ _ => ?_
              intro actor hactor
              cases hactor
              exact ⟨rfl, rfl⟩

theorem confined_allowOrReject (actor : AdminActor) (allowed : Bool) (now : Int64) :
    ConfinedCall A fingerprint roleName role request
      (allowOrReject A cfg actor allowed now) fun _ => allowed = true := by
  unfold allowOrReject
  split_ifs with hallowed
  · exact fun _ _ => hallowed
  · refine Proc.under_bind_ok (confined_quiet (lockoutRecord_only A cfg fun _ _ => ?_)) fun _ _ => confined_throw
    exact .failure ..

/-- A call on the secret for which the request was authorised. -/
theorem confined_write {action name : String} {c : Call α} (haction : request.action = some (action, name))
    (hallow : rulesAllow false role.permissions action name = true) (h : c.run.Only (SecretOp name)) :
    ConfinedCall A fingerprint roleName role request c fun _ => True := by
  refine Proc.under_ok_of_only (Proc.only_mono (fun op hop => ?_) h)
  cases hop with
  | quiet hquiet => exact .quiet hquiet
  | write hsubject basis sealing => exact .write basis sealing haction hallow hsubject

/-- A reader is counted under the address of its connection, and passes with it. -/
theorem readerGuard_under {I : World → Prop} {O : Op → Prop} [AllowsQuiet O] {parts : RequestParts} {g : GuardTimes}
    (h : ∀ peer, parts.peerIp = some peer → O (failureOp cfg (cfg.showIp peer) g.recordAt)) :
    (readerGuard A cfg parts g).run.Under I O (Proc.IfOk fun guard => parts.peerIp = some guard.peerIp) := by
  unfold readerGuard
  cases hpeer : parts.peerIp with
  | none => exact fun _ hguard => nomatch hguard
  | some peer =>
      have hreject {Q : ReaderGuard → Prop} : (do lockoutRecord A cfg (some peer) g.recordAt
                                                  throw .forbidden : Call ReaderGuard).run.Under I O (Proc.IfOk Q) := by
        refine Proc.under_bind_ok (Proc.under_ok_of_only (lockoutRecord_only A cfg ?_)) fun _ _ _ hguard =>
          nomatch hguard
        rintro _ ⟨⟩
        exact h peer hpeer
      cases clientIp cfg parts with
      | none => exact fun _ hguard => nomatch hguard
      | some ip =>
          refine Proc.under_bind_ok (c := lockoutCheckIp A cfg peer g.checkAt)
            (Proc.under_ok_of_only (checkKey_only A cfg _ _)) fun _ _ => ?_
          cases ip with
          | v6 addr => exact hreject
          | v4 addr =>
              dsimp only
              split_ifs
              · rintro _ ⟨⟩
                rfl
              · exact hreject

end Requests

section Routes
variable {A : AppState} {cfg : ApiConfig} {fingerprint : Bytes} {roleName : String} {role : RoleRecord}
  {request : ApiRequest} {parts : RequestParts} {d : RequestDraws} {α : Type}

/-- A handler that acts on one secret once the rules allow it. -/
theorem confined_authorized {action name : String} {actor : AdminActor} {c : Call α}
    (hactor : actor.isAdmin = false ∧ actor.rules = role.permissions) (haction : request.action = some (action, name))
    (h : c.run.Only (SecretOp name)) (reply : α → ApiReply) :
    ConfinedCall A fingerprint roleName role request (do
      authorize A cfg.auth actor action name d.deniedAt
      let a ← c
      return reply a) fun _ => True := by
  refine Proc.under_bind_ok (confined_allowOrReject _ _ _) fun _ hallow => ?_
  rw [hactor.1, hactor.2] at hallow
  exact Proc.under_bind_ok (confined_write haction hallow h) fun _ _ _ _ => trivial

/-- Only an administrator gets past the check. -/
theorem confined_administrator (hadmin : role.isAdmin = false)
    (hparts : ∀ bearer, bearerToken parts = some bearer → cfg.auth.fingerprint bearer = fingerprint) (body : Body α) :
    ConfinedCall A fingerprint roleName role request (Routes.administrator A cfg parts d body) fun _ => False := by
  refine Proc.under_bind_ok (confined_adminActor hparts) fun actor hactor => ?_
  refine Proc.under_bind_ok (confined_ofBody body) fun req _ => ?_
  refine Proc.under_bind_ok (confined_allowOrReject _ _ _) fun _ hallowed => ?_
  exact absurd (hallowed.symm.trans (hactor.1.trans hadmin)) Bool.true_eq_false_eq_False

theorem confined_readRoute {c : ReaderGuard → Call α} (h : ∀ guard, (c guard).run.Only QuietOp) (reply : α → ApiReply) :
    ConfinedCall A fingerprint roleName role request (do
      let guard ← readerGuard A cfg.auth parts d.guard
      let a ← c guard
      return reply a) fun _ => True := by
  refine Proc.under_bind_ok (readerGuard_under fun _ _ => .quiet (.failure ..)) fun guard _ => ?_
  exact Proc.under_bind_ok (confined_quiet (h guard)) fun _ _ _ _ => trivial

theorem confined_createSecret (hadmin : role.isAdmin = false)
    (hparts : ∀ bearer, bearerToken parts = some bearer → cfg.auth.fingerprint bearer = fingerprint)
    (body : Body CreateSecretRequest) :
    ConfinedCall A fingerprint roleName role (.createSecret body) (Routes.createSecret A cfg parts d body)
      fun _ => True := by
  refine Proc.under_bind_ok (confined_adminActor hparts) fun actor hactor => ?_
  refine Proc.under_bind_ok (confined_ofBody body) fun req hreq => ?_
  subst hreq
  refine Proc.under_bind_ok (confined_allowOrReject _ _ _) fun _ hallow => ?_
  rw [hactor.1, hactor.2, hadmin] at hallow
  have htarget : ConfinedCall A fingerprint roleName role (.createSecret (.ok req))
      (authorizeRotationTarget A cfg.auth actor req d.deniedAt) fun _ => True := by
    unfold authorizeRotationTarget
    cases req.target with
    | none => exact fun _ _ => trivial
    | some target =>
        refine Proc.under_bind_ok (confined_allowOrReject _ _ _) fun _ _ => ?_
        exact Proc.under_ok_mono (confined_allowOrReject _ _ _) fun _ _ => trivial
  refine Proc.under_bind_ok htarget fun _ _ => ?_
  exact Proc.under_bind_ok (confined_write rfl hallow (createSecretCall_only A _ _ _)) fun _ _ _ _ => trivial

theorem confined_secretAction (hadmin : role.isAdmin = false)
    (hparts : ∀ bearer, bearerToken parts = some bearer → cfg.auth.fingerprint bearer = fingerprint) (path : String)
    (body : Body String) :
    ConfinedCall A fingerprint roleName role (.secretAction path body) (Routes.secretAction A cfg parts d path body)
      fun _ => True := by
  unfold Routes.secretAction
  cases hsplit : Routes.splitAction path with
  | none => exact confined_throw
  | some split =>
      obtain ⟨name, action⟩ := split
      dsimp only
      split_ifs with hrotate hverify
      · have haction : (ApiRequest.secretAction path body).action = some ("rotate", name) := by
          simp only [ApiRequest.action, hsplit, Option.bind_some, hrotate, if_true]
        refine Proc.under_bind_ok (confined_adminActor hparts) fun actor hactor => ?_
        exact confined_authorized (hactor.imp_left (·.trans hadmin)) haction (rotate_only A _ _ _) .value
      · refine Proc.under_bind_ok (readerGuard_under fun _ _ => .quiet (.failure ..)) fun guard _ => ?_
        refine Proc.under_bind_ok (confined_ofBody body) fun presented _ => ?_
        exact Proc.under_bind_ok (confined_quiet (verify_only A cfg.auth _ _ _ _ fun _ => .failure ..)) fun _ _ _ _ =>
          trivial
      · exact confined_throw

/-- Every request made with the token sees its role and is confined by its rules. -/
theorem confined_handler (hadmin : role.isAdmin = false) (call : ApiCall)
    (hparts : ∀ bearer, bearerToken call.parts = some bearer → cfg.auth.fingerprint bearer = fingerprint) :
    ConfinedCall A fingerprint roleName role call.request (call.handler A cfg) fun _ => True := by
  obtain ⟨parts, request, d⟩ := call
  cases request with
  | healthz => exact fun _ _ => trivial
  | readyz => exact Proc.under_bind_ok (confined_quiet (read_only .read _)) fun _ _ _ _ => trivial
  | createSecret body => exact confined_createSecret hadmin hparts body
  | listSecrets =>
      refine Proc.under_bind_ok (confined_adminActor hparts) fun _ _ => ?_
      exact Proc.under_bind_ok (confined_quiet (read_only .read _)) fun _ _ _ _ => trivial
  | getSecret name => exact confined_readRoute (fun _ => getSecret_only A _ _ _) .value
  | batchGetSecrets body =>
      refine Proc.under_bind_ok (readerGuard_under fun _ _ => .quiet (.failure ..)) fun guard _ => ?_
      refine Proc.under_bind_ok (confined_ofBody body) fun names _ => ?_
      exact Proc.under_bind_ok (confined_quiet (getSecrets_only A _ _ _)) fun _ _ _ _ => trivial
  | updateSecret name body =>
      refine Proc.under_bind_ok (confined_adminActor hparts) fun actor hactor => ?_
      refine Proc.under_bind_ok (confined_ofBody body) fun req _ => ?_
      exact confined_authorized (hactor.imp_left (·.trans hadmin)) rfl (updateSecret_only A _ _ _) .metadata
  | deleteSecret name =>
      refine Proc.under_bind_ok (confined_adminActor hparts) fun actor hactor => ?_
      exact confined_authorized (hactor.imp_left (·.trans hadmin)) rfl (deleteSecretCall_only A _ _) fun _ => .noContent
  | secretAction path body => exact confined_secretAction hadmin hparts path body
  | _ => exact Proc.under_bind_ok (confined_administrator hadmin hparts _) fun _ h => h.elim

end Routes

/-! ## What the operations do to the tables -/

section Steps
variable {A : AppState} {C : Codec} {fingerprint : Bytes} {roleName : String} {role : RoleRecord} {rules : Rules}
  {request : ApiRequest} {t t' t'' : Tables} {w : World}

theorem sameRows_refl (name : String) (t : Tables) : SameRows name t t := ⟨rfl, fun _ => rfl⟩

theorem sameRows_of_eq (hsecrets : t'.secrets = t.secrets) (hversions : t'.versions = t.versions) (name : String) :
    SameRows name t t' := ⟨by rw [hsecrets], fun _ => by rw [hversions]⟩

theorem confined_refl (t : Tables) : Confined C fingerprint rules t t :=
  ⟨fun name _ => sameRows_refl name t, rfl, rfl, rfl, fun _ _ => rfl, Or.inl rfl⟩

theorem confined_trans (h : Confined C fingerprint rules t t') (h' : Confined C fingerprint rules t' t'') :
    Confined C fingerprint rules t t'' where
  rows name hname := ⟨(h'.rows name hname).1.trans (h.rows name hname).1,
    fun v => ((h'.rows name hname).2 v).trans ((h.rows name hname).2 v)⟩
  roles := h'.roles.trans h.roles
  kmsRewrap := h'.kmsRewrap.trans h.kmsRewrap
  tokensByName := h'.tokensByName.trans h.tokensByName
  otherTokens key hkey := (h'.otherTokens key hkey).trans (h.otherTokens key hkey)
  usedToken := by
    rcases h'.usedToken with hsame | ⟨token, at_, htoken, hused⟩
    · rw [hsame]
      exact h.usedToken
    · rcases h.usedToken with hsame' | ⟨first, at', hfirst, hused'⟩
      · refine Or.inr ⟨token, at_, ?_, hused⟩
        rw [recordAt, hsame'] at htoken
        exact htoken
      · -- the second use replaces the time of the first
        rw [recordAt, hused'] at htoken
        cases (C.token.decode_encode _).symm.trans htoken
        exact Or.inr ⟨first, at_, hfirst, hused⟩

/-- Commands of the other areas change nothing that counts. -/
theorem confined_of_area {area : Area} (h : area.Only t t') (harea : area = .audit ∨ area = .lockouts) :
    Confined C fingerprint rules t t' := by
  have hframe : t'.secrets = t.secrets ∧ t'.versions = t.versions ∧ t'.roles = t.roles ∧
      t'.kmsRewrap = t.kmsRewrap ∧ t'.tokens = t.tokens ∧ t'.tokensByName = t.tokensByName := by
    rcases harea with rfl | rfl
    all_goals
      dsimp only [Area.Only] at h
      rw [h]
      exact ⟨rfl, rfl, rfl, rfl, rfl, rfl⟩
  obtain ⟨hsecrets, hversions, hroles, hkms, htokens, hnames⟩ := hframe
  exact ⟨fun name _ => sameRows_of_eq hsecrets hversions name, hroles, hkms, hnames, fun _ _ => by rw [htokens],
    Or.inl (by rw [htokens])⟩

/-- A command on a secret of the rules changes rows of this secret only. -/
theorem confined_of_subject {command : Command} {action name : String} {nodeId : Nat}
    (hsubject : command.subject = some name) (hallow : rulesAllow false rules action name = true)
    (hok : applyCommand C nodeId command t = (.ok (), t')) : Confined C fingerprint rules t t' := by
  have harea := applyCommand_area hok
  rw [area_of_subject hsubject] at harea
  obtain ⟨htokens, hnames⟩ := harea.same .tokens nofun nofun nofun
  refine ⟨fun other hother => ?_, harea.same .roles nofun nofun nofun, harea.same .kmsRewrap nofun nofun nofun, hnames,
    fun _ _ => by rw [htokens], Or.inl (by rw [htokens])⟩
  refine applyCommand_rows hsubject ?_ hok
  rintro rfl
  exact Bool.false_ne_true (hother.symm.trans (visible_of_rulesAllow hallow))

theorem confined_touchToken {at_ : Int64} (hok : touchToken C fingerprint at_ t = (.ok (), t')) :
    Confined C fingerprint rules t t' := by
  rcases touchToken_ok hok with rfl | ⟨token, htoken, rfl⟩
  · exact confined_refl t'
  · exact ⟨fun name _ => ⟨rfl, fun _ => rfl⟩, rfl, rfl, rfl, fun key hkey => Table.get_insert_of_ne _ _ hkey.symm,
      Or.inr ⟨token, at_, htoken, Table.get_insert_self _ _ _⟩⟩

/-- A submitted command is confined if its success is. -/
theorem confined_commit {command : Command} {sealing : Option Sealing}
    (h : ∀ t', applyCommand A.codec A.nodeId command w.tables = (.ok (), t') →
      Confined A.codec fingerprint rules w.tables t') :
    Confined A.codec fingerprint rules w.tables (w.commit A command sealing).tables :=
  commit_of (P := fun w' => Confined A.codec fingerprint rules w.tables w'.tables) (confined_refl _) h

theorem confined_quietOp {op : Op} (h : QuietOp op) :
    Confined A.codec fingerprint rules w.tables (w.perform A op).tables := by
  cases h with
  | read => exact confined_refl _
  | kms => exact confined_refl _
  | attempt a name version =>
      obtain ⟨_, _, hw⟩ := perform_attempt_eq A w a name version
      rw [hw]
      exact confined_refl _
  | audit entry => exact confined_commit fun t' hok => confined_of_area (applyCommand_area hok) (Or.inl rfl)
  | failure => exact confined_commit fun t' hok => confined_of_area (applyCommand_area hok) (Or.inr rfl)

theorem confined_perform {op : Op} (h : ConfinedOp fingerprint rules request op) :
    Confined A.codec fingerprint rules w.tables (w.perform A op).tables := by
  cases h with
  | quiet hquiet => exact confined_quietOp hquiet
  | touch at_ => exact confined_commit fun t' hok => confined_touchToken hok
  | write basis sealing haction hallow hsubject =>
      exact confined_commit fun t' hok => confined_of_subject hsubject hallow hok

/-- The role of the token does not change. -/
theorem tokenHasRole_of_confined (h : TokenHasRole C fingerprint roleName role t)
    (hconfined : Confined C fingerprint rules t t') : TokenHasRole C fingerprint roleName role t' := by
  refine ⟨?_, hconfined.roles ▸ h.role⟩
  obtain ⟨token, htoken, hrole⟩ := h.token
  rcases hconfined.usedToken with hsame | ⟨used, at_, hused, hnow⟩
  · exact ⟨token, by rw [recordAt, hsame]; exact htoken, hrole⟩
  · cases htoken.symm.trans hused
    exact ⟨{ token with lastUsedAt := some at_ }, recordAt_of_get hnow (C.token.decode_encode _), hrole⟩

/-- Where the rows of a name change, the request acts on this name and a rule allows it. -/
theorem allowed_of_rows_changed {op : Op} (h : ConfinedOp fingerprint rules request op) {name : String}
    (hchanged : ¬ SameRows name w.tables (w.perform A op).tables) :
    ∃ action, request.action = some (action, name) ∧ rulesAllow false rules action name = true := by
  -- an operation that is confined by no rules at all changes no rows
  have hnone (hconfined : Confined A.codec fingerprint [] w.tables (w.perform A op).tables) : False :=
    hchanged (hconfined.rows name rfl)
  cases h with
  | quiet hquiet => exact (hnone (confined_quietOp hquiet)).elim
  | touch at_ => exact (hnone (confined_commit fun t' hok => confined_touchToken hok)).elim
  | @write action subject command basis sealing haction hallow hsubject =>
      by_cases hname : name = subject
      · subst hname
        exact ⟨action, haction, hallow⟩
      · exact absurd (commit_of (P := fun w' => SameRows name w.tables w'.tables) (sameRows_refl name _)
          fun _ hok => applyCommand_rows hsubject hname hok) hchanged

end Steps

/-- A world that a request confined by the rules may lead to. -/
def ConfinedWorld (C : Codec) (fingerprint : Bytes) (rules : Rules) (w w' : World) : Prop :=
  Confined C fingerprint rules w.tables w'.tables

instance (C : Codec) (fingerprint : Bytes) (rules : Rules) : IsPreorder World (ConfinedWorld C fingerprint rules) where
  refl w := confined_refl w.tables
  trans _ _ _ h h' := confined_trans h h'

/-- In every interleaving of requests made with a token that has a role which is not an administrator's: the rows
of every name that no rule of the role matches, the roles, the state of the key rotation, the names of tokens and
the tokens, the time of the last use of this one apart, are left as they were. Rows of a name change only in a step of
a request that creates, updates, rotates or deletes the secret of this name, and only if a rule of the role matches
both that action and the name. -/
theorem requests_confined (A : AppState) (cfg : ApiConfig) (w : World) (fingerprint : Bytes) (roleName : String)
    (role : RoleRecord) (hrole : TokenHasRole A.codec fingerprint roleName role w.tables)
    (hadmin : role.isAdmin = false) (events : List (SystemEvent ApiCall))
    (hevents : ∀ call, .start call ∈ events → ∀ bearer, bearerToken call.parts = some bearer →
      cfg.auth.fingerprint bearer = fingerprint) :
    Confined A.codec fingerprint role.permissions w.tables
      (run (System.step (World.perform A) (ApiCall.body A cfg)) ⟨w, []⟩ events).shared.tables ∧
    ∀ before place after name, events = before ++ .step place :: after →
      ¬ SameRows name (run (System.step (World.perform A) (ApiCall.body A cfg)) ⟨w, []⟩ before).shared.tables
        (run (System.step (World.perform A) (ApiCall.body A cfg)) ⟨w, []⟩ (before ++ [.step place])).shared.tables →
      ∃ call rest action,
        (run (System.step (World.perform A) (ApiCall.body A cfg)) ⟨w, []⟩ before).calls[place]? = some (call, rest) ∧
        call.request.action = some (action, name) ∧
        ∃ rule ∈ role.permissions, actionMatches rule.1 action = true ∧ pathMatches rule.2 name = true := by
  have hrun (es : List (SystemEvent ApiCall)) (hes : ∀ call, .start call ∈ es → ∀ bearer,
      bearerToken call.parts = some bearer → cfg.auth.fingerprint bearer = fingerprint) :
      System.Guarded (World.perform A) (fun w => TokenHasRole A.codec fingerprint roleName role w.tables)
        (ConfinedWorld A.codec fingerprint role.permissions)
        (fun call _ op => ConfinedOp fingerprint role.permissions call.request op)
        (fun call => ∀ bearer, bearerToken call.parts = some bearer → cfg.auth.fingerprint bearer = fingerprint)
        (fun _ _ r => Proc.IfOk (fun _ => True) r) w
        (run (System.step (World.perform A) (ApiCall.body A cfg)) ⟨w, []⟩ es) :=
    System.run_under (fun call hparts => confined_handler hadmin call hparts)
      (fun _ _ _ hw hop => ⟨tokenHasRole_of_confined hw (confined_perform hop), confined_perform hop⟩) hrole hes
  refine ⟨(hrun events hevents).rel, fun before place after name hsplit hchanged => ?_⟩
  have hbefore := hrun before fun call hcall => hevents call (hsplit ▸ List.mem_append_left _ hcall)
  rw [run_append, run_cons, run_nil] at hchanged
  rcases System.shared_step (World.perform A) (ApiCall.body A cfg) _ place with hsame | hstep
  · rw [hsame] at hchanged
    exact absurd (sameRows_refl name _) hchanged
  · obtain ⟨call, op, next, hcall, hshared⟩ := hstep
    rw [hshared] at hchanged
    obtain ⟨action, haction, hallow⟩ := allowed_of_rows_changed (hbefore.next_op hcall) hchanged
    simp only [rulesAllow, Bool.false_or, List.any_eq_true, Bool.and_eq_true] at hallow
    exact ⟨call, _, action, hcall, haction, hallow⟩

/-! ## A role for one team -/

/-- A role that may delete the secrets of a team. -/
def teamRole : RoleRecord := { roleNamed "r" with permissions := [("delete", "team/*")] }

/-- A store with this role and a token that has it. -/
def teamWorld (C : Codec) : World :=
  { freshWorld with
    tables := withToken C { Tables.empty with roles := Table.empty.insert "r" (C.role.encode teamRole) } }

/-- A request to delete a secret of another team. -/
def foreignDelete : ApiCall where
  parts := { authorization := some "Bearer token", forwardedFor := none, peerIp := some (.v4 0) }
  request := .deleteSecret "other/a"
  draws := { guard := ⟨0, 0, 0⟩, deniedAt := 0, call := drawsOf 0 0 "x", verifyCheckAt := 0, verifyRecordAt := 0,
             latestRotation := .ok none, pass := ⟨0, fun _ => 0⟩, completedAt := 0 }

def demoApi : ApiConfig where
  auth := demoAuth
  restore := { isCluster := false, encodedLen := fun _ => 0 }
  kmsRewrapEnabled := false

/-- The request leaves the rows of the other team as they were. -/
theorem foreign_delete_is_confined :
    Confined jsonCodec demoFingerprint teamRole.permissions (teamWorld jsonCodec).tables
    (run (System.step (World.perform (nodeWith jsonCodec)) (ApiCall.body (nodeWith jsonCodec) demoApi))
      ⟨teamWorld jsonCodec, []⟩ (.start foreignDelete :: List.replicate 5 (.step 0))).shared.tables := by
  refine (requests_confined (nodeWith jsonCodec) demoApi (teamWorld jsonCodec) demoFingerprint "r" teamRole
    ⟨⟨tokenOfR, recordAt_insert_self _ _, rfl⟩, recordAt_insert_self _ _⟩ rfl _ fun call hcall bearer hbearer => ?_).1
  have hstart : call = foreignDelete := by simpa using hcall
  subst hstart
  have htoken : bearerToken foreignDelete.parts = some "token" := by decide
  cases htoken.symm.trans hbearer
  rfl

end HyperionVault
