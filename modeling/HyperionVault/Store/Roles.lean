import HyperionVault.Lib.Run
import HyperionVault.Store.Areas
import HyperionVault.Store.Json

/-!
# Deleting a role

The command that deletes a role goes through all token rows and stops at one that names the role, whether it has been
revoked or not. Revoking a token keeps its row, and no command but a restore removes one: a role that has ever had a
token cannot be deleted.

* `RoleToken`, `Unused` : the tokens of a role, and what the scan of the command finds;
* `deleteRole_cases` : the two outcomes of the command;
* `tokenAt_command`, `indexed_command` : the rows of a token stay, whatever commands come, restores apart;
* `role_with_token_stays` : a role with a token cannot be deleted after any run without a restore;
* `DeletesExactly`, `role_deletion_exact_iff` : whether a role can be deleted exactly if no live token uses it.
-/

namespace HyperionVault
open Lib

/-- The token under the fingerprint is one of the role. -/
def RoleToken (C : Codec) (t : Tables) (name : String) (fingerprint : Bytes) (token : TokenRecord) : Prop :=
  recordAt C.token t.tokens fingerprint = some token ∧ token.role = some name

/-- Every token can be read, and none is of the role. -/
def Unused (C : Codec) (t : Tables) (name : String) : Prop :=
  Decodes C.token t.tokens ∧ ∀ fingerprint token, ¬RoleToken C t name fingerprint token

section Deletion
variable {C : Codec} {nodeId : Nat} {t t' : Tables} {name : String}

/-! ## The outcomes of the command -/

theorem checkRoleUnused_iff {rows : List (Bytes × Bytes)} : checkRoleUnused C name rows = .ok () ↔
    ∀ row ∈ rows, ∃ token, C.token.decode row.2 = some token ∧ token.role ≠ some name := by
  refine ⟨checkRoleUnused_ok, fun h => ?_⟩
  induction rows with
  | nil => rfl
  | cons row rest ih =>
      obtain ⟨token, hdec, hrole⟩ := h row List.mem_cons_self
      rw [checkRoleUnused, decodeRow_ok.mpr hdec]
      dsimp only
      rw [if_neg hrole]
      exact ih fun row hrow => h row (List.mem_cons_of_mem _ hrow)

theorem unused_iff : Unused C t name ↔ checkRoleUnused C name t.tokens.rows = .ok () := by
  rw [checkRoleUnused_iff]
  refine ⟨fun h row hrow => ?_, fun h => ⟨fun fingerprint bytes hget => ?_, fun fingerprint token htoken => ?_⟩⟩
  · have hget := Table.mem_rows.mp hrow
    obtain ⟨token, hdec⟩ := Option.isSome_iff_exists.mp (h.1 row.1 row.2 hget)
    exact ⟨token, hdec, fun hrole => h.2 row.1 token ⟨recordAt_of_get hget hdec, hrole⟩⟩
  · obtain ⟨token, hdec, _⟩ := h (fingerprint, bytes) (Table.mem_rows.mpr hget)
    exact Option.isSome_iff_exists.mpr ⟨token, hdec⟩
  · obtain ⟨bytes, hget, hdec⟩ := get_of_recordAt htoken.1
    obtain ⟨token', hdec', hrole⟩ := h (fingerprint, bytes) (Table.mem_rows.mpr hget)
    cases hdec.symm.trans hdec'
    exact hrole htoken.2

/-- Either the role is there and unused, and its row is removed, or the store stays as it is. -/
theorem deleteRole_cases (C : Codec) (nodeId : Nat) (t : Tables) (name : String) :
    ((t.roles.get name).isSome ∧ Unused C t name ∧
      RedbStore.apply C nodeId (.deleteRole name) t = (.ok (), { t with roles := t.roles.remove name })) ∨
    (¬((t.roles.get name).isSome ∧ Unused C t name) ∧
      ∃ e, RedbStore.apply C nodeId (.deleteRole name) t = (.error e, t)) := by
  rw [unused_iff]
  simp only [RedbStore.apply, applyCommand, deleteRole]
  cases hscan : checkRoleUnused C name t.tokens.rows with
  | error e => exact Or.inr ⟨fun h => absurd h.2 (by intro hok; cases hok), e, rfl⟩
  | ok =>
      cases hrole : t.roles.get name with
      | none => exact Or.inr ⟨fun h => Bool.false_ne_true h.1, .notFound, rfl⟩
      | some bytes => exact Or.inl ⟨rfl, rfl, rfl⟩

/-! ## Tokens stay -/

/-- The token under the fingerprint is one with the property. -/
def TokenAt (C : Codec) (fingerprint : Bytes) (P : TokenRecord → Prop) (t : Tables) : Prop :=
  ∃ token, recordAt C.token t.tokens fingerprint = some token ∧ P token

section TokenAt
variable {P : TokenRecord → Prop} {fingerprint : Bytes}

theorem tokenAt_insert (h : TokenAt C fingerprint P t) {key : Bytes} {token : TokenRecord}
    (htoken : key = fingerprint → P token) :
    TokenAt C fingerprint P { t with tokens := t.tokens.insert key (C.token.encode token) } := by
  by_cases hkey : key = fingerprint
  · subst hkey
    exact ⟨token, recordAt_insert_self _ _, htoken rfl⟩
  · obtain ⟨old, hold, hP⟩ := h
    exact ⟨old, (recordAt_insert_of_ne _ hkey).trans hold, hP⟩

theorem tokenAt_addToken (h : TokenAt C fingerprint P t) {token : TokenRecord}
    (hok : addToken C token t = (.ok (), t')) : TokenAt C fingerprint P t' := by
  obtain ⟨hfree, _, rfl⟩ := addToken_ok hok
  refine tokenAt_insert h ?_
  rintro rfl
  obtain ⟨old, hold, _⟩ := h
  obtain ⟨bytes, hget, _⟩ := get_of_recordAt hold
  cases hfree.symm.trans hget

/-- No command but a restore removes a token; it is revoked and used, and otherwise stays what it is. -/
theorem tokenAt_command (hrevoke : ∀ token revokedAt, P token → P { token with revokedAt := some revokedAt })
    (htouch : ∀ token at_, P token → P { token with lastUsedAt := some at_ }) {command : Command}
    (hrestore : ∀ data, command ≠ .restoreDatabase data) (hok : applyCommand C nodeId command t = (.ok (), t'))
    (h : TokenAt C fingerprint P t) : TokenAt C fingerprint P t' := by
  have hframe : command.area ≠ .tokens → command.area ≠ .everything → TokenAt C fingerprint P t' := by
    intro htokens hall
    obtain ⟨hsame, _⟩ := (applyCommand_area hok).same .tokens htokens hall (by intro hpart; cases hpart)
    unfold TokenAt
    rwa [hsame]
  have hkept : ∀ {key token}, recordAt C.token t.tokens key = some token → key = fingerprint → P token := by
    rintro key token htoken rfl
    obtain ⟨old, hold, hP⟩ := h
    cases htoken.symm.trans hold
    exact hP
  cases command with
  | addToken token => exact tokenAt_addToken h hok
  | revokeToken other revokedAt =>
      obtain ⟨key, token, _, htoken, _, rfl⟩ := revokeToken_ok hok
      exact tokenAt_insert h fun hkey => hrevoke _ _ (hkept htoken hkey)
  | touchToken key at_ =>
      rcases touchToken_ok hok with rfl | ⟨token, htoken, rfl⟩
      · exact h
      · exact tokenAt_insert h fun hkey => htouch _ _ (hkept htoken hkey)
  | restoreDatabase data => exact absurd rfl (hrestore data)
  | _ => exact hframe (by intro harea; cases harea) (by intro harea; cases harea)

end TokenAt

/-! The name of a token leads to its fingerprint, and stays taken. -/

theorem indexed_addToken {tokenName : String} {fingerprint : Bytes}
    (h : t.tokensByName.get tokenName = some fingerprint) {token : TokenRecord}
    (hok : addToken C token t = (.ok (), t')) : t'.tokensByName.get tokenName = some fingerprint := by
  obtain ⟨_, hfree, rfl⟩ := addToken_ok hok
  refine (Table.get_insert_of_ne _ _ ?_).trans h
  rintro rfl
  cases hfree.symm.trans h

theorem indexed_command {tokenName : String} {fingerprint : Bytes} {command : Command}
    (hrestore : ∀ data, command ≠ .restoreDatabase data) (hok : applyCommand C nodeId command t = (.ok (), t'))
    (h : t.tokensByName.get tokenName = some fingerprint) : t'.tokensByName.get tokenName = some fingerprint := by
  have hframe : command.area ≠ .tokens → command.area ≠ .everything →
      t'.tokensByName.get tokenName = some fingerprint := by
    intro htokens hall
    obtain ⟨_, hnames⟩ := (applyCommand_area hok).same .tokens htokens hall (by intro hpart; cases hpart)
    rwa [hnames]
  cases command with
  | addToken token => exact indexed_addToken h hok
  | revokeToken other revokedAt =>
      obtain ⟨_, _, _, _, _, rfl⟩ := revokeToken_ok hok
      exact h
  | touchToken key at_ => rcases touchToken_ok hok with rfl | ⟨_, _, rfl⟩ <;> exact h
  | restoreDatabase data => exact absurd rfl (hrestore data)
  | _ => exact hframe (by intro harea; cases harea) (by intro harea; cases harea)

/-- A role that has a token keeps it. -/
theorem hasRole_step {fingerprint : Bytes} (h : TokenAt C fingerprint (fun token => token.role = some name) t)
    {command : Command} (hrestore : ∀ data, command ≠ .restoreDatabase data) :
    TokenAt C fingerprint (fun token => token.role = some name) (storeStep C nodeId t command) := by
  unfold storeStep RedbStore.apply
  cases hok : applyCommand C nodeId command t with
  | mk result t' =>
      cases result with
      | error e => exact h
      | ok => exact tokenAt_command (fun _ _ hrole => hrole) (fun _ _ hrole => hrole) hrestore hok h

/-- A role that has ever had a token cannot be deleted, whatever commands come in between, restores apart. -/
theorem role_with_token_stays {fingerprint : Bytes} {token : TokenRecord} (h : RoleToken C t name fingerprint token)
    {commands : List Command} (hrestore : ∀ command ∈ commands, ∀ data, command ≠ .restoreDatabase data) :
    ∃ e, RedbStore.apply C nodeId (.deleteRole name) (run (storeStep C nodeId) t commands) =
      (.error e, run (storeStep C nodeId) t commands) := by
  have hlast : TokenAt C fingerprint (fun token => token.role = some name) (run (storeStep C nodeId) t commands) :=
    run_inv_of_allSteps (I := TokenAt C fingerprint fun token => token.role = some name)
      (P := fun _ command => ∀ data, command ≠ Command.restoreDatabase data)
      (fun _ _ ht hcommand => hasRole_step ht hcommand) ⟨token, h⟩ (allSteps_of_forall hrestore)
  obtain ⟨last, htoken⟩ := hlast
  rcases deleteRole_cases C nodeId (run (storeStep C nodeId) t commands) name with ⟨_, hunused, _⟩ | ⟨_, he⟩
  · exact absurd htoken (hunused.2 fingerprint last)
  · exact he

end Deletion

/-! ## Roles without live tokens -/

/-- The role can be deleted exactly if it is there and all its tokens have been revoked; then its row is removed, and
otherwise nothing changes. -/
structure DeletesExactly (C : Codec) (nodeId : Nat) (t : Tables) (name : String) : Prop where
  succeeds : (RedbStore.apply C nodeId (.deleteRole name) t).1 = .ok () ↔
    (t.roles.get name).isSome ∧ ∀ fingerprint token, RoleToken C t name fingerprint token → token.revokedAt.isSome
  removes : (RedbStore.apply C nodeId (.deleteRole name) t).1 = .ok () →
    (RedbStore.apply C nodeId (.deleteRole name) t).2 = { t with roles := t.roles.remove name }
  keeps : (RedbStore.apply C nodeId (.deleteRole name) t).1 ≠ .ok () →
    (RedbStore.apply C nodeId (.deleteRole name) t).2 = t

/-- It is so exactly for a role that is not there, that has a token which has not been revoked, or that has no token
at all. -/
theorem role_deletion_exact_iff (C : Codec) (nodeId : Nat) (t : Tables) (name : String) :
    DeletesExactly C nodeId t name ↔
      t.roles.get name = none ∨
      (∃ fingerprint token, RoleToken C t name fingerprint token ∧ token.revokedAt = none) ∨
      Unused C t name := by
  rcases deleteRole_cases C nodeId t name with ⟨hrole, hunused, happly⟩ | ⟨hnot, e, happly⟩
  · refine ⟨fun _ => Or.inr (Or.inr hunused), fun _ => ⟨?_, fun _ => ?_, ?_⟩⟩ <;> rw [happly]
    · exact ⟨fun _ => ⟨hrole, fun fingerprint token htoken => absurd htoken (hunused.2 fingerprint token)⟩, fun _ => rfl⟩
    · exact fun hne => absurd rfl hne
  · have herror : ¬(RedbStore.apply C nodeId (.deleteRole name) t).1 = .ok () := by
      rw [happly]
      intro h
      cases h
    constructor
    · rintro ⟨hiff, _, _⟩
      by_cases hrole : t.roles.get name = none
      · exact Or.inl hrole
      · refine Or.inr (Or.inl ?_)
        by_contra hlive
        refine herror (hiff.mpr ⟨Option.isSome_iff_ne_none.mpr hrole, fun fingerprint token htoken => ?_⟩)
        exact Option.isSome_iff_ne_none.mpr fun hnone => hlive ⟨fingerprint, token, htoken, hnone⟩
    · intro h
      refine ⟨⟨fun hok => absurd hok herror, fun hrevoked => ?_⟩, fun hok => absurd hok herror, fun _ => by rw [happly]⟩
      exfalso
      rcases h with hnone | ⟨fingerprint, token, htoken, hlive⟩ | hunused
      · exact Option.isSome_iff_ne_none.mp hrevoked.1 hnone
      · exact Option.isSome_iff_ne_none.mp (hrevoked.2 fingerprint token htoken) hlive
      · exact hnot ⟨hrevoked.1, hunused⟩

/-! ## A role whose only token has been revoked -/

def opsRole : RoleRecord := ⟨"ops", none, false, [], 0⟩

def opsToken : TokenRecord where
  name := "t"
  role := some "ops"
  fingerprint := List.replicate 32 7
  createdAt := 0
  lastUsedAt := none
  revokedAt := none

/-- A fresh store with the role. -/
def opsTables (C : Codec) : Tables :=
  { RedbStore.seedAdminRole C .empty with
    roles := (RedbStore.seedAdminRole C .empty).roles.insert "ops" (C.role.encode opsRole) }

/-- The store with the token, revoked or not. -/
def opsTablesWith (C : Codec) (revokedAt : Option Int64) : Tables :=
  { opsTables C with
    tokensByName := Table.empty.insert "t" opsToken.fingerprint
    tokens := Table.empty.insert opsToken.fingerprint (C.token.encode { opsToken with revokedAt }) }

section Ops
variable (C : Codec)

theorem opsTables_created : RedbStore.apply C 1 (.createRole opsRole) (RedbStore.seedAdminRole C .empty) =
    (.ok (), opsTables C) := by
  have hfree : (RedbStore.seedAdminRole C .empty).roles.get opsRole.name = none := rfl
  simp only [RedbStore.apply, applyCommand, createRole, hfree]
  rfl

theorem opsTables_added : RedbStore.apply C 1 (.addToken opsToken) (opsTables C) = (.ok (), opsTablesWith C none) := by
  have hadd : addToken C opsToken (opsTables C) = (.ok (), opsTablesWith C none) := addToken_eq rfl rfl
  simp only [RedbStore.apply, applyCommand, hadd]

theorem opsTables_revoked : RedbStore.apply C 1 (.revokeToken "t" 5) (opsTablesWith C none) =
    (.ok (), opsTablesWith C (some 5)) := by
  simp only [RedbStore.apply, applyCommand, revokeToken, opsTablesWith, Table.get_insert_self, decodeRow_encode]
  rfl

theorem revoked_of_opsTables {fingerprint : Bytes} {token : TokenRecord}
    (h : RoleToken C (opsTablesWith C (some 5)) "ops" fingerprint token) : token.revokedAt.isSome := by
  have hrecord := h.1
  rw [opsTablesWith, recordAt_insert] at hrecord
  split_ifs at hrecord
  · cases hrecord
    rfl
  · cases hrecord

theorem opsTables_refuses : RedbStore.apply C 1 (.deleteRole "ops") (opsTablesWith C (some 5)) =
    (.error (.conflict "role 'ops' still has tokens; revoke/remove them first"), opsTablesWith C (some 5)) := by
  have hrows : (opsTablesWith C (some 5)).tokens.rows =
    [(opsToken.fingerprint, C.token.encode { opsToken with revokedAt := some 5 })] := rfl
  simp only [RedbStore.apply, applyCommand, deleteRole, hrows, checkRoleUnused, decodeRow_encode]
  rfl

end Ops

/-- The role's only token is revoked, and the role cannot be deleted. -/
theorem role_of_revoked_token_refused : ∃ created added revoked,
    RedbStore.apply jsonCodec 1 (.createRole opsRole) (RedbStore.seedAdminRole jsonCodec .empty) = (.ok (), created) ∧
    RedbStore.apply jsonCodec 1 (.addToken opsToken) created = (.ok (), added) ∧
    RedbStore.apply jsonCodec 1 (.revokeToken "t" 5) added = (.ok (), revoked) ∧
    (revoked.roles.get "ops").isSome ∧
    (∀ fingerprint token, RoleToken jsonCodec revoked "ops" fingerprint token → token.revokedAt.isSome) ∧
    RedbStore.apply jsonCodec 1 (.deleteRole "ops") revoked =
      (.error (.conflict "role 'ops' still has tokens; revoke/remove them first"), revoked) ∧
    ¬DeletesExactly jsonCodec 1 revoked "ops" := by
  refine ⟨_, _, _, opsTables_created jsonCodec, opsTables_added jsonCodec, opsTables_revoked jsonCodec, rfl,
    fun _ _ => revoked_of_opsTables jsonCodec, opsTables_refuses jsonCodec, fun h => ?_⟩
  have hok := h.succeeds.mpr ⟨rfl, fun _ _ => revoked_of_opsTables jsonCodec⟩
  rw [opsTables_refuses] at hok
  cases hok

end HyperionVault
