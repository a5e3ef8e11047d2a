import HyperionVault.Api.Manage
import HyperionVault.Api.Revocation
import HyperionVault.Service.Subjects

/-!
# Tokens and their roles

A token names a role. The call that creates a token looks for the role and then submits its command, which
does not look again; the command that deletes a role looks for tokens of it in its own transaction. A role
that is deleted between the look and the command leaves a token without a role.

* `RoleCall`, `RoleCall.body` : the calls on roles and tokens, interleaved;
* `RolesExist` : every token's role is there;
* `RoleAtCommit` : a token is added while its role is there;
* `token_roles_exist_iff` : the roles of all tokens are there in every state of a run exactly if so.
-/

namespace HyperionVault
open Lib

inductive RoleCall where
  | createToken (req : CreateTokenRequest) (draws : Draws)
  | createRole (req : CreateRoleRequest) (now : Int64)
  | setPermissions (name : String) (permissions : Rules)
  | deleteRole (name : String)

def RoleCall.body (A : AppState) (cfg : AuthConfig) : RoleCall → Proc World Op (ApiResult Unit)
  | .createToken req d => (Manage.createToken A cfg req d >>= fun _ => pure ()).run
  | .createRole req now => (Manage.createRole A req now >>= fun _ => pure ()).run
  | .setPermissions name permissions => (Manage.setPermissions A name permissions >>= fun _ => pure ()).run
  | .deleteRole name => (Manage.deleteRole A name).run

/-- Every token row that names a role names one that is there. -/
def RolesExist (C : Codec) (t : Tables) : Prop :=
  ∀ fingerprint token role, recordAt C.token t.tokens fingerprint = some token → token.role = some role →
    (t.roles.get role).isSome = true

/-- A token is added while its role is there. -/
def RoleAtCommit (A : AppState) (w : World) : Op → Prop
  | .submit (.addToken token) _ _ => (RedbStore.apply A.codec A.nodeId (.addToken token) w.tables).1 = .ok () →
      ∀ role, token.role = some role → (w.tables.roles.get role).isSome = true
  | _ => True

/-- The operations of the calls on roles and tokens. -/
inductive RoleOp : Op → Prop
  | read : RoleOp .read
  | createRole (role : RoleRecord) : RoleOp (.submit (.createRole role) .nothing none)
  | setPermissions (name : String) (permissions : Rules) :
      RoleOp (.submit (.setPermissions name permissions) .nothing none)
  | deleteRole (name : String) : RoleOp (.submit (.deleteRole name) .nothing none)
  | addToken (token : TokenRecord) : RoleOp (.submit (.addToken token) .nothing none)

/-! ## The operations of the calls -/

theorem roleCall_only (A : AppState) (cfg : AuthConfig) (call : RoleCall) : (call.body A cfg).Only RoleOp := by
  cases call with
  | createToken req d =>
      refine Proc.only_bind_ok ?_ fun _ => trivial
      refine ofExcept_bind_only fun _ => ?_
      refine Proc.only_bind_ok (read_only .read _) fun _ => ?_
      refine ofExcept_bind_only fun _ => ?_
      exact Proc.only_bind_ok (submit_only (.addToken _)) fun _ => trivial
  | createRole req now =>
      refine Proc.only_bind_ok ?_ fun _ => trivial
      refine ofExcept_bind_only fun _ => ?_
      refine ofExcept_bind_only fun _ => ?_
      exact Proc.only_bind_ok (submit_only (.createRole _)) fun _ => trivial
  | setPermissions name permissions =>
      refine Proc.only_bind_ok ?_ fun _ => trivial
      refine ofExcept_bind_only fun _ => ?_
      refine Proc.only_bind_ok (submit_only (.setPermissions _ _)) fun _ => ?_
      exact Proc.only_bind_ok (read_only .read _) fun _ => ofOption_only _ _
  | deleteRole name =>
      exact ofExcept_bind_only fun _ => submit_only (.deleteRole _)

/-! ## What the operations do to the roles of tokens -/

section Steps
variable {A : AppState} {C : Codec} {t t' : Tables} {w : World}

theorem rolesExist_insertRole (h : RolesExist C t) (name : String) (bytes : Bytes) :
    RolesExist C { t with roles := t.roles.insert name bytes } := by
  intro fingerprint token role htoken hrole
  rw [Table.get_insert]
  split_ifs
  · rfl
  · exact h fingerprint token role htoken hrole

theorem rolesExist_deleteRole (h : RolesExist C t) {name : String} (hok : deleteRole C name t = (.ok (), t')) :
    RolesExist C t' := by
  obtain ⟨_, hunused, rfl⟩ := deleteRole_ok hok
  intro fingerprint token role htoken hrole
  have hne : name ≠ role := by
    rintro rfl
    exact hunused fingerprint token htoken hrole
  rw [Table.get_remove, if_neg hne]
  exact h fingerprint token role htoken hrole

/-- A new token is one more row, so its role has to be there. -/
theorem rolesExist_addToken_iff (h : RolesExist C t) {token : TokenRecord} (hok : addToken C token t = (.ok (), t')) :
    RolesExist C t' ↔ ∀ role, token.role = some role → (t.roles.get role).isSome = true := by
  obtain ⟨_, _, rfl⟩ := addToken_ok hok
  constructor
  · exact fun h' role hrole => h' token.fingerprint token role (recordAt_insert_self _ _) hrole
  · intro hthere fingerprint other role hother hrole
    have hrow := hother
    rw [recordAt_insert] at hrow
    split_ifs at hrow
    · cases hrow
      exact hthere role hrole
    · exact h fingerprint other role hrow hrole

/-- What a command in its own transaction leaves. -/
theorem tables_commit (command : Command) (sealing : Option Sealing) :
    (w.commit A command sealing).tables = (RedbStore.apply A.codec A.nodeId command w.tables).2 := by
  unfold World.commit
  split <;> rename_i h <;> rw [h]

theorem rolesExist_perform_iff {op : Op} (hop : RoleOp op) (h : RolesExist A.codec w.tables) :
    RolesExist A.codec (w.perform A op).tables ↔ RoleAtCommit A w op := by
  have hsubmit {command : Command} (hcommand : ∀ t', applyCommand A.codec A.nodeId command w.tables = (.ok (), t') →
      RolesExist A.codec t') : RolesExist A.codec (w.commit A command none).tables := by
    rw [tables_commit]
    rcases @arrive_cases A.codec A.nodeId w.tables (.direct command) with he | hok
    · rw [show (RedbStore.apply A.codec A.nodeId command w.tables).2 = w.tables from he]
      exact h
    · exact hcommand _ hok
  cases hop with
  | read => exact ⟨fun _ => trivial, fun _ => h⟩
  | createRole role =>
      refine ⟨fun _ => trivial, fun _ => hsubmit fun t' hok => ?_⟩
      obtain ⟨_, rfl⟩ := createRole_ok hok
      exact rolesExist_insertRole h _ _
  | setPermissions name permissions =>
      refine ⟨fun _ => trivial, fun _ => hsubmit fun t' hok => ?_⟩
      obtain ⟨_, _, rfl⟩ := setPermissions_ok hok
      exact rolesExist_insertRole h _ _
  | deleteRole name => exact ⟨fun _ => trivial, fun _ => hsubmit fun t' hok => rolesExist_deleteRole h hok⟩
  | addToken token =>
      constructor
      · intro h' hok
        obtain ⟨t', ht'⟩ := redbStore_apply_ok hok
        rw [World.perform, tables_commit, RedbStore.apply, ht'] at h'
        exact (rolesExist_addToken_iff h ht').mp h'
      · intro hK
        refine hsubmit fun t' hok => (rolesExist_addToken_iff h hok).mpr (hK ?_)
        rw [RedbStore.apply, hok]

/-- A role that is created has no tokens yet. -/
theorem no_token_of_createRole (h : RolesExist C t) {role : RoleRecord} (hok : createRole C role t = (.ok (), t'))
    {fingerprint : Bytes} {token : TokenRecord} (htoken : recordAt C.token t.tokens fingerprint = some token) :
    token.role ≠ some role.name := by
  intro hrole
  have hthere := h fingerprint token role.name htoken hrole
  rw [(createRole_ok hok).1] at hthere
  cases hthere

end Steps

/-! ## A role that is deleted in between -/

/-- A store with one role. -/
def roleWorld (C : Codec) : World :=
  { freshWorld with tables := { Tables.empty with roles := Table.empty.insert "r" (C.role.encode (roleNamed "r")) } }

/-- The store after the role has been deleted. -/
def rolelessWorld (C : Codec) : World :=
  { roleWorld C with tables := { (roleWorld C).tables with roles := (roleWorld C).tables.roles.remove "r" } }

def tokenRequest : RoleCall := .createToken ⟨"t", "r"⟩ (drawsOf 0 0 "token")

/-- The token that the request asks for. -/
def tokenOfR : TokenRecord := Manage.newToken demoAuth ⟨"t", "r"⟩ (drawsOf 0 0 "token")

/-- The tables with the token. -/
def withToken (C : Codec) (t : Tables) : Tables :=
  { t with
    tokensByName := t.tokensByName.insert "t" demoFingerprint
    tokens := t.tokens.insert demoFingerprint (C.token.encode tokenOfR) }

section Overtaken
variable {C : Codec} {K : World → Op → Prop} {w : World}

theorem roleWorld_rolesExist (C : Codec) : RolesExist C (roleWorld C).tables :=
  fun _ _ _ htoken => nomatch htoken

/-- The request has found the role, and is about to submit its command. -/
theorem tokenRequest_reads (hread : K w .read) (hrole : RedbStore.role C "r" w.tables = .ok (some (roleNamed "r"))) :
    Proc.Reaches (World.perform (nodeWith C)) K 1 (tokenRequest.body (nodeWith C) demoAuth) w (do
        let _ ← (do
          Call.submit (nodeWith C) (.addToken tokenOfR) .nothing none
          return ⟨"t", "r", "token"⟩ : Call TokenCreated)
        return () : Call Unit).run w := by
  have hname : require (!isBlank "t") "token name is required" = .ok () := by decide
  refine Proc.reaches_bind ?_ _
  refine Proc.reaches_bind_ret (n := 0) (m := 1) (ofExcept_runs hname) ?_
  refine Proc.reaches_bind_ret (n := 1) (m := 0) (read_runs hread hrole) ?_
  exact Proc.reaches_bind_ret (n := 0) (m := 0) (ofExcept_runs rfl) ⟨rfl, rfl⟩

theorem tokenRequest_submits (hK : K w (.submit (.addToken tokenOfR) .nothing none))
    (htokens : w.tables.tokens = .empty) (hnames : w.tables.tokensByName = .empty) :
    Call.Runs (nodeWith C) K 1 (do
        let _ ← (do
          Call.submit (nodeWith C) (.addToken tokenOfR) .nothing none
          return ⟨"t", "r", "token"⟩ : Call TokenCreated)
        return ()) w () { w with tables := withToken C w.tables } := by
  have happly : applyCommand C 1 (.addToken tokenOfR) w.tables = (.ok (), withToken C w.tables) := by
    refine addToken_eq ?_ ?_
    · rw [htokens, Table.get_empty]
    · rw [hnames, Table.get_empty]
  exact runs_bind (n := 1) (m := 0) (runs_bind (n := 1) (m := 0) (submit_runs hK happly) (pure_runs _)) (pure_runs _)

theorem roleWorld_role (C : Codec) : RedbStore.role C "r" (roleWorld C).tables = .ok (some (roleNamed "r")) :=
  lookup_eq_ok.mpr (recordAt_insert_self _ _)

theorem deleteRole_runs (hK : K (roleWorld C) (.submit (.deleteRole "r") .nothing none)) :
    (Manage.deleteRole (nodeWith C) "r").Runs (nodeWith C) K 1 (roleWorld C) () (rolelessWorld C) := by
  have hname : require ("r" ≠ builtinAdminRole) "the built-in 'admin' role cannot be deleted" = .ok () := by decide
  refine runs_bind (n := 0) (m := 1) (ofExcept_runs hname) ?_
  exact submit_runs hK rfl

/-- The request looks for the role and then adds its token. -/
def tokenAdded : List (SystemEvent RoleCall) :=
  (.start tokenRequest :: List.replicate 1 (.step 0)) ++ List.replicate 1 (.step 0)

theorem tokenAdded_run (C : Codec) :
    RunsTo (System.step (World.perform (nodeWith C)) (RoleCall.body (nodeWith C) demoAuth))
      (System.Allows (fun _ => True) (RoleAtCommit (nodeWith C))) ⟨roleWorld C, []⟩ tokenAdded
      ⟨{ roleWorld C with tables := withToken C (roleWorld C).tables }, [(tokenRequest, .ret (.ok ()))]⟩ := by
  have hK : RoleAtCommit (nodeWith C) (roleWorld C) (.submit (.addToken tokenOfR) .nothing none) := by
    intro _ role hrole
    cases hrole
    rfl
  have hfirst := System.run_call (World.perform (nodeWith C)) (RoleCall.body (nodeWith C) demoAuth) (P := fun _ => True)
    (K := RoleAtCommit (nodeWith C)) [] tokenRequest trivial (tokenRequest_reads trivial (roleWorld_role C))
  refine hfirst.append (System.run_reaches _ _ ?_ (tokenRequest_submits hK rfl rfl))
  exact rfl

/-- The role is deleted after the request has found it. -/
def roleOvertaken : List (SystemEvent RoleCall) :=
  (.start tokenRequest :: List.replicate 1 (.step 0)) ++ (.start (.deleteRole "r") :: List.replicate 1 (.step 1)) ++
    List.replicate 1 (.step 0)

theorem roleOvertaken_run (C : Codec) :
    RunsTo (System.step (World.perform (nodeWith C)) (RoleCall.body (nodeWith C) demoAuth))
      (System.Allows (fun _ => True) fun _ _ => True) ⟨roleWorld C, []⟩ roleOvertaken
      ⟨{ rolelessWorld C with tables := withToken C (rolelessWorld C).tables },
        [(tokenRequest, .ret (.ok ())), (.deleteRole "r", .ret (.ok ()))]⟩ := by
  have hfirst := System.run_call (World.perform (nodeWith C)) (RoleCall.body (nodeWith C) demoAuth) (P := fun _ => True)
    (K := fun _ _ => True) [] tokenRequest trivial (tokenRequest_reads trivial (roleWorld_role C))
  have hsecond := fun calls => System.run_call (World.perform (nodeWith C)) (RoleCall.body (nodeWith C) demoAuth)
    (P := fun _ => True) (K := fun _ _ => True) calls (.deleteRole "r") trivial (deleteRole_runs (C := C) trivial)
  refine (hfirst.append (hsecond _)).append (System.run_reaches _ _ ?_
    (tokenRequest_submits (w := rolelessWorld C) trivial rfl rfl))
  exact rfl

theorem roleOvertaken_misses (C : Codec) : ¬ RolesExist C (withToken C (rolelessWorld C).tables) := by
  intro h
  have hthere := h demoFingerprint tokenOfR "r" (recordAt_insert_self _ _) rfl
  have hgone : (rolelessWorld C).tables.roles.get "r" = none := (Table.get_remove _ _ _).trans (if_pos rfl)
  rw [show (withToken C (rolelessWorld C).tables).roles = (rolelessWorld C).tables.roles from rfl, hgone] at hthere
  cases hthere

end Overtaken

/-- Starting from a state in which every token's role is there, in every interleaving of the calls: the role of
every token is there in every state reached, exactly if every token that is added is added while its role is
there. In such states a role that is created has no tokens yet. -/
theorem token_roles_exist_iff (A : AppState) (cfg : AuthConfig) (w : World) (hw : RolesExist A.codec w.tables)
    (events : List (SystemEvent RoleCall)) :
    ((∀ before after, events = before ++ after →
        RolesExist A.codec (run (System.step (World.perform A) (RoleCall.body A cfg)) ⟨w, []⟩ before).shared.tables) ↔
      AllSteps (System.step (World.perform A) (RoleCall.body A cfg)) (System.Allows (fun _ => True) (RoleAtCommit A))
        ⟨w, []⟩ events) ∧
    ∀ t, RolesExist A.codec t → ∀ role t', createRole A.codec role t = (.ok (), t') → ∀ fingerprint token,
      recordAt A.codec.token t.tokens fingerprint = some token → token.role ≠ some role.name :=
  ⟨System.reached_iff (J := fun w => RolesExist A.codec w.tables) (roleCall_only A cfg)
      (fun _ _ hop h => rolesExist_perform_iff hop h) hw events,
    fun _ h _ _ hok _ _ htoken => no_token_of_createRole h hok htoken⟩

/-- The role is there when the token is added. -/
theorem added_token_has_role :
    RolesExist jsonCodec (run (System.step (World.perform (nodeWith jsonCodec)) (RoleCall.body (nodeWith jsonCodec)
      demoAuth)) ⟨roleWorld jsonCodec, []⟩ tokenAdded).shared.tables :=
  (token_roles_exist_iff (nodeWith jsonCodec) demoAuth (roleWorld jsonCodec) (roleWorld_rolesExist jsonCodec)
    tokenAdded).1.mpr (tokenAdded_run jsonCodec).2 tokenAdded [] (List.append_nil _).symm

/-- A role is deleted between the look for it and the token's command: a token without a role. -/
theorem overtaken_token_has_no_role : RolesExist jsonCodec (roleWorld jsonCodec).tables ∧
    ¬ RolesExist jsonCodec (run (System.step (World.perform (nodeWith jsonCodec)) (RoleCall.body (nodeWith jsonCodec)
      demoAuth)) ⟨roleWorld jsonCodec, []⟩ roleOvertaken).shared.tables := by
  rw [(roleOvertaken_run jsonCodec).1]
  exact ⟨roleWorld_rolesExist jsonCodec, roleOvertaken_misses jsonCodec⟩

end HyperionVault
