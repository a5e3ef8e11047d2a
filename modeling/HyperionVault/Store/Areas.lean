import HyperionVault.Store.Rows

/-!
# Which tables a command writes

Every command but a restore writes the tables of one area only.

* `Area`, `Command.area` : secrets with their versions, roles, tokens with their names, ...;
* `Area.Only`, `Area.Same` : nothing outside, or nothing within, the area has changed;
* `applyCommand_area` : a command changes nothing outside of its area;
* `createRole_ok`, `addToken_ok`, ... : what the commands on roles and tokens do where they succeed;
* `Command.subject`, `applyCommand_rows` : a command on one secret leaves the rows of the others alone.
-/

namespace HyperionVault
open Lib

inductive Area where
  | secrets
  | roles
  | tokens
  | kmsRewrap
  | audit
  | lockouts
  | everything
deriving DecidableEq

def Command.area : Command → Area
  | .createSecret .. => .secrets
  | .putVersion .. => .secrets
  | .updateMeta .. => .secrets
  | .deleteSecret _ => .secrets
  | .expireGraceVersions _ => .secrets
  | .rewrapVersion .. => .secrets
  | .createRole _ => .roles
  | .setPermissions .. => .roles
  | .deleteRole _ => .roles
  | .addToken _ => .tokens
  | .revokeToken .. => .tokens
  | .touchToken .. => .tokens
  | .setKmsRewrapState _ => .kmsRewrap
  | .appendAudit _ => .audit
  | .recordAuthFailure .. => .lockouts
  | .restoreDatabase _ => .everything

/-- Nothing has changed outside the area. -/
def Area.Only : Area → Tables → Tables → Prop
  | .secrets, t, t' => t' = { t with secrets := t'.secrets, versions := t'.versions }
  | .roles, t, t' => t' = { t with roles := t'.roles }
  | .tokens, t, t' => t' = { t with tokens := t'.tokens, tokensByName := t'.tokensByName }
  | .kmsRewrap, t, t' => t' = { t with kmsRewrap := t'.kmsRewrap }
  | .audit, t, t' => t' = { t with audit := t'.audit }
  | .lockouts, t, t' => t' = { t with lockouts := t'.lockouts }
  | .everything, _, _ => True

/-- The tables of the area have not changed. -/
abbrev Area.Same : Area → Tables → Tables → Prop
  | .secrets, t, t' => t'.secrets = t.secrets ∧ t'.versions = t.versions
  | .roles, t, t' => t'.roles = t.roles
  | .tokens, t, t' => t'.tokens = t.tokens ∧ t'.tokensByName = t.tokensByName
  | .kmsRewrap, t, t' => t'.kmsRewrap = t.kmsRewrap
  | .audit, t, t' => t'.audit = t.audit
  | .lockouts, t, t' => t'.lockouts = t.lockouts
  | .everything, t, t' => t' = t

/-- A change within one area is none in another. -/
theorem Area.Only.same {area : Area} {t t' : Tables} (h : area.Only t t') (other : Area) (harea : area ≠ other)
    (hall : area ≠ .everything) (hpart : other ≠ .everything) : other.Same t t' := by
  cases area with
  | everything => exact absurd rfl hall
  | _ =>
      dsimp only [Area.Only] at h
      rw [h]
      cases other with
      | everything => exact absurd rfl hpart
      | _ => first | exact absurd rfl harea | exact rfl | exact ⟨rfl, rfl⟩

section Commands
variable {C : Codec} {nodeId : Nat} {t t' : Tables}

/-! ## Roles and tokens -/

theorem createRole_ok {role : RoleRecord} (h : createRole C role t = (.ok (), t')) :
    t.roles.get role.name = none ∧ t' = { t with roles := t.roles.insert role.name (C.role.encode role) } := by
  unfold createRole at h
  split_ifs at h with hs
  · cases h
  · cases h
    exact ⟨Option.not_isSome_iff_eq_none.mp hs, rfl⟩

theorem setPermissions_ok {name : String} {permissions : List (String × String)}
    (h : setPermissions C name permissions t = (.ok (), t')) :
    ∃ role, recordAt C.role t.roles name = some role ∧
      t' = { t with roles := t.roles.insert name (C.role.encode { role with permissions := permissions }) } := by
  unfold setPermissions at h
  split at h
  · cases h
  · rename_i value hget
    split at h
    · cases h
    · rename_i role hdec
      cases h
      exact ⟨role, recordAt_of_get hget (decodeRow_ok.mp hdec), rfl⟩

theorem checkRoleUnused_ok {name : String} {rows : List (Bytes × Bytes)} (h : checkRoleUnused C name rows = .ok ()) :
    ∀ row ∈ rows, ∃ token, C.token.decode row.2 = some token ∧ token.role ≠ some name := by
  induction rows with
  | nil => exact fun row hrow => nomatch hrow
  | cons row rest ih =>
      unfold checkRoleUnused at h
      split at h
      · cases h
      · rename_i token hdec
        split_ifs at h with hrole
        intro row' hrow'
        rcases List.mem_cons.mp hrow' with rfl | hmem
        · exact ⟨token, decodeRow_ok.mp hdec, hrole⟩
        · exact ih h row' hmem

/-- A role is deleted only if no token, revoked or not, names it. -/
theorem deleteRole_ok {name : String} (h : deleteRole C name t = (.ok (), t')) :
    (t.roles.get name).isSome ∧ (∀ f token, recordAt C.token t.tokens f = some token → token.role ≠ some name) ∧
      t' = { t with roles := t.roles.remove name } := by
  unfold deleteRole at h
  split at h
  · cases h
  · rename_i hunused
    dsimp only at h
    split_ifs at h with hs
    · cases h
    · cases h
      refine ⟨?_, fun f token htoken => ?_, rfl⟩
      · exact Option.isSome_iff_ne_none.mpr fun hnone => hs (Option.isNone_iff_eq_none.mpr hnone)
      · obtain ⟨bytes, hget, hdec⟩ := get_of_recordAt htoken
        obtain ⟨token', hdec', hrole⟩ := checkRoleUnused_ok hunused (f, bytes) (Table.mem_rows.mpr hget)
        cases hdec.symm.trans hdec'
        exact hrole

theorem addToken_ok {token : TokenRecord} (h : addToken C token t = (.ok (), t')) :
    t.tokens.get token.fingerprint = none ∧ t.tokensByName.get token.name = none ∧
      t' = { t with
        tokensByName := t.tokensByName.insert token.name token.fingerprint
        tokens := t.tokens.insert token.fingerprint (C.token.encode token) } := by
  unfold addToken at h
  split_ifs at h with hf hn
  · cases h
  · cases h
  · cases h
    exact ⟨Option.not_isSome_iff_eq_none.mp hf, Option.not_isSome_iff_eq_none.mp hn, rfl⟩

theorem addToken_eq {token : TokenRecord} (hfingerprint : t.tokens.get token.fingerprint = none)
    (hname : t.tokensByName.get token.name = none) :
    addToken C token t = (.ok (), { t with
      tokensByName := t.tokensByName.insert token.name token.fingerprint
      tokens := t.tokens.insert token.fingerprint (C.token.encode token) }) := by
  simp [addToken, hfingerprint, hname]

theorem revokeToken_ok {name : String} {revokedAt : Int64} (h : revokeToken C name revokedAt t = (.ok (), t')) :
    ∃ fingerprint token, t.tokensByName.get name = some fingerprint ∧
      recordAt C.token t.tokens fingerprint = some token ∧ token.revokedAt = none ∧
      t' = { t with
        tokens := t.tokens.insert fingerprint (C.token.encode { token with revokedAt := some revokedAt }) } := by
  unfold revokeToken at h
  split at h
  · cases h
  · rename_i fingerprint hindex
    split at h
    · cases h
    · rename_i value hget
      split at h
      · cases h
      · rename_i token hdec
        split_ifs at h with hrevoked
        · cases h
        · cases h
          exact ⟨fingerprint, token, hindex, recordAt_of_get hget (decodeRow_ok.mp hdec),
            Option.not_isSome_iff_eq_none.mp hrevoked, rfl⟩

/-- A use of a token that is not there is no error. -/
theorem touchToken_ok {fingerprint : Bytes} {at_ : Int64} (h : touchToken C fingerprint at_ t = (.ok (), t')) :
    t' = t ∨ ∃ token, recordAt C.token t.tokens fingerprint = some token ∧
      t' = { t with tokens := t.tokens.insert fingerprint (C.token.encode { token with lastUsedAt := some at_ }) } := by
  unfold touchToken at h
  split at h
  · cases h
    exact Or.inl rfl
  · rename_i value hget
    split at h
    · cases h
    · rename_i token hdec
      cases h
      exact Or.inr ⟨token, recordAt_of_get hget (decodeRow_ok.mp hdec), rfl⟩

/-! ## Areas -/

theorem appendAudit_ok {entry : AuditEntry} (h : appendAudit C nodeId entry t = (.ok (), t')) :
    t' = { t with audit := t'.audit } := by
  unfold appendAudit at h
  split at h
  · cases h
    rfl
  · split_ifs at h
    · cases h
      rfl
    · cases h

theorem recordAuthFailure_ok {key : String} {now : Int64} {max : UInt32} {windowSecs lockoutSecs : Int64}
    (h : recordAuthFailure C key now max windowSecs lockoutSecs t = (.ok (), t')) :
    ∃ bytes, t' = { t with lockouts := t.lockouts.insert key bytes } := by
  unfold recordAuthFailure at h
  dsimp only at h
  split at h
  · cases h
  · cases h
    exact ⟨_, rfl⟩

/-- A command changes nothing outside its area. -/
theorem applyCommand_area {command : Command} (h : applyCommand C nodeId command t = (.ok (), t')) :
    command.area.Only t t' := by
  cases command with
  | createSecret =>
      obtain ⟨_, _, rfl⟩ := createSecret_ok h
      exact rfl
  | putVersion =>
      obtain ⟨_, _, _, _, _, _, _, _, rfl⟩ := putVersion_ok h
      exact rfl
  | updateMeta =>
      obtain ⟨_, _, _, _, _, rfl⟩ := updateMeta_ok h
      exact rfl
  | deleteSecret =>
      obtain ⟨_, rfl⟩ := deleteSecret_ok h
      exact rfl
  | expireGraceVersions =>
      obtain ⟨_, _, rfl⟩ := expireGraceVersions_ok h
      exact rfl
  | rewrapVersion =>
      rcases rewrapVersion_ok h with rfl | ⟨_, _, _, _, _, rfl⟩ <;> exact rfl
  | createRole =>
      obtain ⟨_, rfl⟩ := createRole_ok h
      exact rfl
  | setPermissions =>
      obtain ⟨_, _, rfl⟩ := setPermissions_ok h
      exact rfl
  | deleteRole =>
      obtain ⟨_, _, rfl⟩ := deleteRole_ok h
      exact rfl
  | addToken =>
      obtain ⟨_, _, rfl⟩ := addToken_ok h
      exact rfl
  | revokeToken =>
      obtain ⟨_, _, _, _, _, rfl⟩ := revokeToken_ok h
      exact rfl
  | touchToken =>
      rcases touchToken_ok h with rfl | ⟨_, _, rfl⟩ <;> exact rfl
  | setKmsRewrapState =>
      cases h
      exact rfl
  | appendAudit => exact appendAudit_ok h
  | recordAuthFailure =>
      obtain ⟨_, rfl⟩ := recordAuthFailure_ok h
      exact rfl
  | restoreDatabase => exact trivial

/-! ## Subjects -/

/-- The secret whose rows a command writes. -/
def Command.subject : Command → Option String
  | .createSecret secret _ => some secret.name
  | .putVersion name .. => some name
  | .updateMeta name .. => some name
  | .deleteSecret name => some name
  | .rewrapVersion name .. => some name
  | _ => none

theorem area_of_subject {command : Command} {name : String} (h : command.subject = some name) :
    command.area = .secrets := by
  cases command with
  | createSecret | putVersion | updateMeta | deleteSecret | rewrapVersion => rfl
  | _ => cases h

/-- The record and all versions of a name are as they were. -/
def SameRows (name : String) (t t' : Tables) : Prop :=
  t'.secrets.get name = t.secrets.get name ∧
    ∀ version, t'.versions.get (versionKey name version) = t.versions.get (versionKey name version)

theorem get_insert_versionKey {name other : String} (h : other ≠ name) (versions : Table String Bytes)
    (version number : Int32) (bytes : Bytes) :
    (versions.insert (versionKey name version) bytes).get (versionKey other number) =
      versions.get (versionKey other number) :=
  Table.get_insert_of_ne _ _ fun hkey => h (name_eq_of_versionKey_eq hkey).symm

theorem supersede_rows {name other : String} (h : other ≠ name) {expectedCurrent : Int32} {expiry : Option Int64}
    {versions versions' : Table String Bytes} (hok : supersede C name expectedCurrent expiry versions = .ok versions')
    (number : Int32) : versions'.get (versionKey other number) = versions.get (versionKey other number) :=
  get_supersede_of_not hok fun hkey => h (name_eq_of_versionKey_eq hkey.1)

theorem ownVersionKeys_notMem {name other : String} (h : other ≠ name) (versions : Table String Bytes)
    (number : Int32) : versionKey other number ∉ ownVersionKeys name versions := by
  intro hmem
  obtain ⟨version, hversion⟩ := Option.isSome_iff_exists.mp (mem_ownVersionKeys_iff.mp hmem).2
  exact h (name_eq_of_versionKey_eq (eq_versionKey_of_versionFromKey hversion).1)

/-- The rows of the other secrets are as they were. -/
theorem applyCommand_rows {command : Command} {name other : String} (hsubject : command.subject = some name)
    (h : other ≠ name) (hok : applyCommand C nodeId command t = (.ok (), t')) : SameRows other t t' := by
  cases command with
  | createSecret secret version =>
      cases hsubject
      obtain ⟨_, _, rfl⟩ := createSecret_ok hok
      exact ⟨Table.get_insert_of_ne _ _ h.symm, fun _ => get_insert_versionKey h _ _ _ _⟩
  | putVersion =>
      cases hsubject
      obtain ⟨_, _, _, _, _, _, _, hsuper, rfl⟩ := putVersion_ok hok
      refine ⟨Table.get_insert_of_ne _ _ h.symm, fun number => ?_⟩
      rw [supersede_rows h hsuper number, get_insert_versionKey h]
  | updateMeta =>
      cases hsubject
      obtain ⟨_, _, _, _, _, rfl⟩ := updateMeta_ok hok
      exact ⟨Table.get_insert_of_ne _ _ h.symm, fun _ => rfl⟩
  | deleteSecret =>
      cases hsubject
      obtain ⟨_, rfl⟩ := deleteSecret_ok hok
      refine ⟨(Table.get_remove _ _ _).trans (if_neg h.symm), fun number => ?_⟩
      rw [Table.get_removeAll, if_neg (ownVersionKeys_notMem h _ number)]
  | rewrapVersion =>
      cases hsubject
      rcases rewrapVersion_ok hok with rfl | ⟨_, _, _, _, _, rfl⟩
      · exact ⟨rfl, fun _ => rfl⟩
      · exact ⟨rfl, fun _ => get_insert_versionKey h _ _ _ _⟩
  | _ => cases hsubject

end Commands

end HyperionVault
