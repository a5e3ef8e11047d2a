import HyperionVault.Lib.Fields
import HyperionVault.Store.Areas

/-!
# The rows on which a command acts

What a command does, row by row of the replicated tables, from its arguments and the tables it meets.

* `ReplicatedRow`, `Replicated.row` : the rows by which two replicated stores are compared;
* `Command.Acts` : the rows that a command sets, updates or removes, by the checks that it makes;
* `Command.change`, `Command.write` : what it does there, whatever else the tables hold;
* `Command.CanRead` : the rows that it reads hold records;
* `Outcome`, `applyCommand_outcome` : every command does this, and refuses only where it acts on no row;
* `applyCommand_noTrace` : a refusal other than an internal error leaves the tables as they were.
-/

namespace HyperionVault
open Lib

/-! ## The rows of the replicated tables -/

inductive ReplicatedRow where
  | secret (name : String)
  | version (key : String)
  | role (name : String)
  | token (fingerprint : Bytes)
  | tokenName (name : String)
  | kmsRewrap (key : String)

def Replicated.row (r : Replicated) : ReplicatedRow → Option Bytes
  | .secret name => r.secrets.get name
  | .version key => r.versions.get key
  | .role name => r.roles.get name
  | .token fingerprint => r.tokens.get fingerprint
  | .tokenName name => r.tokensByName.get name
  | .kmsRewrap key => r.kmsRewrap.get key

theorem Replicated.ext_row {r r' : Replicated} (h : ∀ row, r.row row = r'.row row) : r = r' := by
  obtain ⟨secrets, versions, roles, tokens, tokensByName, kmsRewrap⟩ := r
  obtain ⟨secrets', versions', roles', tokens', tokensByName', kmsRewrap'⟩ := r'
  obtain rfl : secrets = secrets' := Table.ext_get fun name => h (.secret name)
  obtain rfl : versions = versions' := Table.ext_get fun key => h (.version key)
  obtain rfl : roles = roles' := Table.ext_get fun name => h (.role name)
  obtain rfl : tokens = tokens' := Table.ext_get fun fingerprint => h (.token fingerprint)
  obtain rfl : tokensByName = tokensByName' := Table.ext_get fun name => h (.tokenName name)
  obtain rfl : kmsRewrap = kmsRewrap' := Table.ext_get fun key => h (.kmsRewrap key)
  rfl

/-- What the rows hold; the index of token names holds fingerprints as they are. -/
def ReplicatedRow.Record : ReplicatedRow → Type
  | .secret _ => SecretRecord
  | .version _ => VersionRecord
  | .role _ => RoleRecord
  | .token _ => TokenRecord
  | .tokenName _ => Bytes
  | .kmsRewrap _ => KmsRewrapState

def ReplicatedRow.serde (C : Codec) : (row : ReplicatedRow) → Serde row.Record
  | .secret _ => C.secret
  | .version _ => C.version
  | .role _ => C.role
  | .token _ => C.token
  | .tokenName _ => ⟨id, some, fun _ => rfl⟩
  | .kmsRewrap _ => C.kmsRewrap

def SecretRecord.fields : List (Projection SecretRecord) :=
  [⟨name⟩, ⟨kind⟩, ⟨format⟩, ⟨description⟩, ⟨rotationIntervalSecs⟩, ⟨graceSecs⟩, ⟨currentVersion⟩, ⟨nextRotationAt⟩,
    ⟨createdAt⟩, ⟨updatedAt⟩, ⟨target⟩]

def VersionRecord.fields : List (Projection VersionRecord) :=
  [⟨version⟩, ⟨kmsKeyId⟩, ⟨wrappedDek⟩, ⟨nonce⟩, ⟨ciphertext⟩, ⟨aad⟩, ⟨createdAt⟩, ⟨expiresAt⟩, ⟨wrappedRotationAt⟩]

def RoleRecord.fields : List (Projection RoleRecord) :=
  [⟨name⟩, ⟨description⟩, ⟨isAdmin⟩, ⟨permissions⟩, ⟨createdAt⟩]

def TokenRecord.fields : List (Projection TokenRecord) :=
  [⟨name⟩, ⟨role⟩, ⟨fingerprint⟩, ⟨createdAt⟩, ⟨lastUsedAt⟩, ⟨revokedAt⟩]

theorem SecretRecord.determine_fields : Determine fields := by
  intro ⟨_, _, _, _, _, _, _, _, _, _, _⟩ ⟨_, _, _, _, _, _, _, _, _, _, _⟩ h
  simpa [fields] using h

theorem VersionRecord.determine_fields : Determine fields := by
  intro ⟨_, _, _, _, _, _, _, _, _⟩ ⟨_, _, _, _, _, _, _, _, _⟩ h
  simpa [fields] using h

theorem RoleRecord.determine_fields : Determine fields := by
  intro ⟨_, _, _, _, _⟩ ⟨_, _, _, _, _⟩ h
  simpa [fields] using h

theorem TokenRecord.determine_fields : Determine fields := by
  intro ⟨_, _, _, _, _, _⟩ ⟨_, _, _, _, _, _⟩ h
  simpa [fields] using h

/-- The fields that commands update; no command updates a part of the other rows. -/
def ReplicatedRow.fields : (row : ReplicatedRow) → List (Projection row.Record)
  | .secret _ => SecretRecord.fields
  | .version _ => VersionRecord.fields
  | .role _ => RoleRecord.fields
  | .token _ => TokenRecord.fields
  | .tokenName _ => [⟨id⟩]
  | .kmsRewrap _ => [⟨id⟩]

theorem ReplicatedRow.determine_fields : (row : ReplicatedRow) → Determine row.fields
  | .secret _ => SecretRecord.determine_fields
  | .version _ => VersionRecord.determine_fields
  | .role _ => RoleRecord.determine_fields
  | .token _ => TokenRecord.determine_fields
  | .tokenName _ => fun _ _ h => h ⟨id⟩ List.mem_cons_self
  | .kmsRewrap _ => fun _ _ h => h ⟨id⟩ List.mem_cons_self

/-! ## What a command does -/

section Acts
variable (C : Codec)

/-- The secret is stored with this current version. -/
def HasCurrent (t : Tables) (name : String) (expectedCurrent : Int32) : Prop :=
  ∃ secret, secretAt C t name = some secret ∧ secret.currentVersion = expectedCurrent

/-- The rows that a command sets, updates or removes, by its checks on the tables that it meets. -/
def Command.Acts (t : Tables) : Command → ReplicatedRow → Prop
  | .createSecret secret version, row =>
      (isValidSecretName secret.name = true ∧ isValidSecretVersion version.version = true ∧
        t.secrets.get secret.name = none) ∧
      (row = .secret secret.name ∨ row = .version (versionKey secret.name version.version))
  | .putVersion name expectedCurrent version supersedeExpiresAt .., row =>
      (isValidSecretName name = true ∧ isValidSecretVersion version.version = true ∧
        HasCurrent C t name expectedCurrent) ∧
      (row = .secret name ∨ row = .version (versionKey name version.version) ∨
        row = .version (versionKey name expectedCurrent) ∧ supersedeExpiresAt.isSome ∧
          ∃ prev, versionAt C t (versionKey name expectedCurrent) = some prev ∧ prev.expiresAt = none)
  | .updateMeta name expectedCurrent .., row => HasCurrent C t name expectedCurrent ∧ row = .secret name
  | .deleteSecret name, row =>
      (t.secrets.get name).isSome ∧
      (row = .secret name ∨ ∃ key, row = .version key ∧ (versionFromKey name key).isSome)
  | .createRole role, row => t.roles.get role.name = none ∧ row = .role role.name
  | .setPermissions name _, row => (∃ role, recordAt C.role t.roles name = some role) ∧ row = .role name
  | .deleteRole name, row =>
      ((t.roles.get name).isSome ∧
        ∀ fingerprint token, recordAt C.token t.tokens fingerprint = some token → token.role ≠ some name) ∧
      row = .role name
  | .addToken token, row =>
      (t.tokens.get token.fingerprint = none ∧ t.tokensByName.get token.name = none) ∧
      (row = .token token.fingerprint ∨ row = .tokenName token.name)
  | .revokeToken name _, row =>
      ∃ fingerprint token, (t.tokensByName.get name = some fingerprint ∧
        recordAt C.token t.tokens fingerprint = some token ∧ token.revokedAt = none) ∧ row = .token fingerprint
  | .touchToken fingerprint _, row =>
      (∃ token, recordAt C.token t.tokens fingerprint = some token) ∧ row = .token fingerprint
  | .expireGraceVersions now, row =>
      ∃ key record, (versionAt C t key = some record ∧ record.expiresAt.any (· ≤ now) = true) ∧ row = .version key
  | .rewrapVersion name version _ _ wrappedRotationAt, row =>
      (∃ record, versionAt C t (versionKey name version) = some record ∧
        record.wrappedRotationAt.any (wrappedRotationAt ≤ ·) = false) ∧ row = .version (versionKey name version)
  | .setKmsRewrapState _, row => row = .kmsRewrap kmsRewrapStateKey
  | .restoreDatabase data, _ => data.accepted = true
  | .appendAudit _, _ => False
  | .recordAuthFailure .., _ => False

/-- The version that a `PutVersion` leaves in its row: where the version that it supersedes has the same row, the new
one gets the expiry. -/
def newVersion (name : String) (expectedCurrent : Int32) (version : VersionRecord)
    (supersedeExpiresAt : Option Int64) : VersionRecord :=
  if versionKey name expectedCurrent = versionKey name version.version ∧ version.expiresAt = none then
    { version with expiresAt := supersedeExpiresAt }
  else version

/-- What a command does to a row on which it acts. -/
def Command.change : Command → (row : ReplicatedRow) → Change row.Record
  | .createSecret secret _, .secret _ => .set (some (C.secret.encode secret))
  | .createSecret _ version, .version _ => .set (some (C.version.encode version))
  | .putVersion _ _ version _ setDescription setRotationIntervalSecs setGraceSecs nextRotationAt updatedAt,
      .secret _ =>
      .update fun (secret : SecretRecord) => applyMeta { secret with currentVersion := version.version }
        setDescription setRotationIntervalSecs setGraceSecs nextRotationAt updatedAt
  | .putVersion name expectedCurrent version supersedeExpiresAt .., .version key =>
      if key = versionKey name version.version then
        .set (some (C.version.encode (newVersion name expectedCurrent version supersedeExpiresAt)))
      else .update fun (prev : VersionRecord) => { prev with expiresAt := supersedeExpiresAt }
  | .updateMeta _ _ setDescription setRotationIntervalSecs setGraceSecs nextRotationAt updatedAt, .secret _ =>
      .update fun (secret : SecretRecord) =>
        applyMeta secret setDescription setRotationIntervalSecs setGraceSecs nextRotationAt updatedAt
  | .createRole role, .role _ => .set (some (C.role.encode role))
  | .setPermissions _ permissions, .role _ =>
      .update fun (role : RoleRecord) => { role with permissions := permissions }
  | .addToken token, .token _ => .set (some (C.token.encode token))
  | .addToken token, .tokenName _ => .set (some token.fingerprint)
  | .revokeToken _ revokedAt, .token _ => .update fun (token : TokenRecord) => { token with revokedAt := some revokedAt }
  | .touchToken _ at_, .token _ => .update fun (token : TokenRecord) => { token with lastUsedAt := some at_ }
  | .rewrapVersion _ _ kmsKeyId wrappedDek wrappedRotationAt, .version _ =>
      .update fun (record : VersionRecord) => { record with
        kmsKeyId := kmsKeyId, wrappedDek := wrappedDek, wrappedRotationAt := some wrappedRotationAt }
  | .setKmsRewrapState state, .kmsRewrap _ => .set (some (C.kmsRewrap.encode state))
  | .restoreDatabase data, row => .set ((data.tables .empty).replicated.row row)
  -- what is left are the deletions
  | _, _ => .set none

def Command.write (command : Command) (row : ReplicatedRow) (value : Option Bytes) : Option Bytes :=
  (command.change C row).write (row.serde C) value

/-- The row holds a record, if it is there. -/
def DecodesAt {K α : Type} [LinearOrder K] (S : Serde α) (table : Table K Bytes) (key : K) : Prop :=
  ∀ bytes, table.get key = some bytes → (S.decode bytes).isSome

/-- The rows that a command decodes hold records. -/
def Command.CanRead (t : Tables) : Command → Prop
  | .putVersion name expectedCurrent _ supersedeExpiresAt .. =>
      DecodesAt C.secret t.secrets name ∧ (HasCurrent C t name expectedCurrent → supersedeExpiresAt.isSome →
        DecodesAt C.version t.versions (versionKey name expectedCurrent))
  | .updateMeta name .. => DecodesAt C.secret t.secrets name
  | .setPermissions name _ => DecodesAt C.role t.roles name
  | .deleteRole _ => Decodes C.token t.tokens
  | .revokeToken name _ => ∀ fingerprint, t.tokensByName.get name = some fingerprint →
      DecodesAt C.token t.tokens fingerprint
  | .touchToken fingerprint _ => DecodesAt C.token t.tokens fingerprint
  | .expireGraceVersions _ => Decodes C.version t.versions
  | .rewrapVersion name version .. => DecodesAt C.version t.versions (versionKey name version)
  | .recordAuthFailure key .. => DecodesAt C.lockout t.lockouts key
  | _ => True

/-- A result of a command: it is done on the rows on which it acts and on no others; or it is refused without a trace,
because there are none; or it has met a row that it cannot read. -/
inductive Outcome (command : Command) (t : Tables) : StoreResult Unit × Tables → Prop
  | done {t' : Tables}
      (acts : ∀ row, command.Acts C t row →
        t'.replicated.row row = command.write C row (t.replicated.row row))
      (rests : ∀ row, ¬ command.Acts C t row → t'.replicated.row row = t.replicated.row row) :
      Outcome command t (.ok (), t')
  | refused {e : StoreError} (he : e.isInternal = false) (idle : ∀ row, ¬ command.Acts C t row) :
      Outcome command t (.error e, t)
  | failed {e : StoreError} {t' : Tables} (he : e.isInternal = true) (unreadable : ¬ command.CanRead C t) :
      Outcome command t (.error e, t')

end Acts

/-! ## Every command does this -/

section Results
variable {C : Codec} {t t' : Tables} {command : Command} {row : ReplicatedRow} {name : String} {value : Bytes}
  {e : StoreError}

theorem decode_eq_none {α : Type} {S : Serde α} {bytes : Bytes}
    (h : decodeRow S bytes = .error e) : S.decode bytes = none := by
  unfold decodeRow at h
  split at h
  · cases h
  · assumption

theorem not_decodesAt {K α : Type} [LinearOrder K] {S : Serde α} {table : Table K Bytes} {key : K}
    (hget : table.get key = some value) (hdec : decodeRow S value = .error e) :
    ¬ DecodesAt S table key := by
  intro h
  have hsome := h value hget
  rw [decode_eq_none hdec] at hsome
  cases hsome

/-- A command that acts on one row. -/
theorem Outcome.single (x : ReplicatedRow) (hacts : ∀ row, command.Acts C t row ↔ row = x)
    (hx : t'.replicated.row x = command.write C x (t.replicated.row x))
    (hrest : ∀ row, row ≠ x → t'.replicated.row row = t.replicated.row row) : Outcome C command t (.ok (), t') := by
  refine .done (fun row hrow => ?_) fun row hrow => hrest row fun h => hrow ((hacts row).mpr h)
  rw [(hacts row).mp hrow]
  exact hx

/-- A command that acts on no row. -/
theorem Outcome.idle (h : ∀ row, ¬ command.Acts C t row)
    (hsame : t'.replicated = t.replicated) : Outcome C command t (.ok (), t') :=
  .done (fun row hrow => absurd hrow (h row)) fun row _ => congrArg (Replicated.row · row) hsame

theorem row_insert_secret (h : row ≠ .secret name) :
    ({ t with secrets := t.secrets.insert name value } : Tables).replicated.row row = t.replicated.row row := by
  cases row with
  | secret other => exact Table.get_insert_of_ne _ _ fun hname => h (congrArg ReplicatedRow.secret hname.symm)
  | _ => rfl

theorem row_insert_version {key : String} (h : row ≠ .version key) :
    ({ t with versions := t.versions.insert key value } : Tables).replicated.row row = t.replicated.row row := by
  cases row with
  | version other => exact Table.get_insert_of_ne _ _ fun hkey => h (congrArg ReplicatedRow.version hkey.symm)
  | _ => rfl

theorem row_insert_role (h : row ≠ .role name) :
    ({ t with roles := t.roles.insert name value } : Tables).replicated.row row = t.replicated.row row := by
  cases row with
  | role other => exact Table.get_insert_of_ne _ _ fun hname => h (congrArg ReplicatedRow.role hname.symm)
  | _ => rfl

theorem row_insert_token {fingerprint value : Bytes} (h : row ≠ .token fingerprint) :
    ({ t with tokens := t.tokens.insert fingerprint value } : Tables).replicated.row row = t.replicated.row row := by
  cases row with
  | token other => exact Table.get_insert_of_ne _ _ fun hf => h (congrArg ReplicatedRow.token hf.symm)
  | _ => rfl

theorem row_insert_tokenName (h : row ≠ .tokenName name) :
    ({ t with tokensByName := t.tokensByName.insert name value } : Tables).replicated.row row =
      t.replicated.row row := by
  cases row with
  | tokenName other => exact Table.get_insert_of_ne _ _ fun hname => h (congrArg ReplicatedRow.tokenName hname.symm)
  | _ => rfl

/-- An update of the record that a row holds. -/
theorem get_insert_update {K α : Type} [LinearOrder K] {S : Serde α} {table : Table K Bytes} {key : K}
    {a : α} (f : α → α) (hget : table.get key = some value) (hdec : S.decode value = some a) :
    (table.insert key (S.encode (f a))).get key = (Change.update f).write S (table.get key) := by
  rw [Table.get_insert_self, Change.write_update (recordAt_of_get hget hdec)]

theorem checkSecretRow_error {version : Int32}
    (h : checkSecretRow name version = .error e) : e.isInternal = false := by
  unfold checkSecretRow at h
  split at h
  · rename_i e' hname
    unfold checkSecretName at hname
    split_ifs at hname
    cases hname
    cases h
    rfl
  · split_ifs at h
    cases h
    rfl

theorem not_valid_of_checkSecretRow {version : Int32} (h : checkSecretRow name version = .error e) :
    ¬ (isValidSecretName name = true ∧ isValidSecretVersion version = true) := by
  rintro ⟨hname, hversion⟩
  rw [checkSecretRow_eq hname (of_decide_eq_true hversion)] at h
  cases h

theorem createSecret_outcome (secret : SecretRecord) (version : VersionRecord) :
    Outcome C (.createSecret secret version) t (createSecret C secret version t) := by
  unfold createSecret
  cases hrow : checkSecretRow secret.name version.version with
  | error e =>
      refine .refused (checkSecretRow_error hrow) fun row hacts => ?_
      exact not_valid_of_checkSecretRow hrow ⟨hacts.1.1, hacts.1.2.1⟩
  | ok _ =>
      obtain ⟨hname, hversion⟩ := checkSecretRow_ok hrow
      dsimp only
      split_ifs with hs
      · exact .refused rfl fun row hacts => by simp [hacts.1.2.2] at hs
      · have hguard := And.intro hname (And.intro hversion (Option.not_isSome_iff_eq_none.mp hs))
        refine .done ?_ fun row hrest => ?_
        · rintro row ⟨_, rfl | rfl⟩ <;> exact Table.get_insert_self _ _ _
        · exact (row_insert_version (t := { t with secrets := _ }) fun h => hrest ⟨hguard, Or.inr h⟩).trans
            (row_insert_secret fun h => hrest ⟨hguard, Or.inl h⟩)

theorem createRole_outcome (role : RoleRecord) : Outcome C (.createRole role) t (createRole C role t) := by
  unfold createRole
  split_ifs with hs
  · exact .refused rfl fun row hacts => by simp [hacts.1] at hs
  · exact .single (.role role.name) (fun row => and_iff_right (Option.not_isSome_iff_eq_none.mp hs))
      (Table.get_insert_self _ _ _) fun row => row_insert_role

theorem setPermissions_outcome (name : String) (permissions : List (String × String)) :
    Outcome C (.setPermissions name permissions) t (setPermissions C name permissions t) := by
  unfold setPermissions
  cases hget : t.roles.get name with
  | none =>
      refine .refused rfl ?_
      rintro row ⟨⟨role, hrole⟩, -⟩
      simp [recordAt, hget] at hrole
  | some value =>
      dsimp only
      cases hdec : decodeRow C.role value with
      | error e => exact .failed (decodeRow_error hdec) (not_decodesAt hget hdec)
      | ok role =>
          have hrole := decodeRow_ok.mp hdec
          exact .single (.role name) (fun row => and_iff_right ⟨role, recordAt_of_get hget hrole⟩)
            (get_insert_update (fun role : RoleRecord => { role with permissions := permissions }) hget hrole)
            fun row => row_insert_role

theorem touchToken_outcome (fingerprint : Bytes) (at_ : Int64) :
    Outcome C (.touchToken fingerprint at_) t (touchToken C fingerprint at_ t) := by
  unfold touchToken
  cases hget : t.tokens.get fingerprint with
  | none =>
      refine .idle ?_ rfl
      rintro row ⟨⟨token, htoken⟩, -⟩
      simp [recordAt, hget] at htoken
  | some value =>
      dsimp only
      cases hdec : decodeRow C.token value with
      | error e => exact .failed (decodeRow_error hdec) (not_decodesAt hget hdec)
      | ok token =>
          have htoken := decodeRow_ok.mp hdec
          exact .single (.token fingerprint) (fun row => and_iff_right ⟨token, recordAt_of_get hget htoken⟩)
            (get_insert_update (fun token : TokenRecord => { token with lastUsedAt := some at_ }) hget htoken)
            fun row => row_insert_token

theorem addToken_outcome (token : TokenRecord) : Outcome C (.addToken token) t (addToken C token t) := by
  unfold addToken
  split_ifs with hfingerprint hname
  · exact .refused rfl fun row hacts => by simp [hacts.1.1] at hfingerprint
  · exact .refused rfl fun row hacts => by simp [hacts.1.2] at hname
  · have hfree := And.intro (Option.not_isSome_iff_eq_none.mp hfingerprint) (Option.not_isSome_iff_eq_none.mp hname)
    refine .done ?_ fun row hrest => ?_
    · rintro row ⟨_, rfl | rfl⟩ <;> exact Table.get_insert_self _ _ _
    · exact (row_insert_token (t := { t with tokensByName := _ }) fun h => hrest ⟨hfree, Or.inl h⟩).trans
        (row_insert_tokenName fun h => hrest ⟨hfree, Or.inr h⟩)

theorem revokeToken_outcome (name : String) (revokedAt : Int64) :
    Outcome C (.revokeToken name revokedAt) t (revokeToken C name revokedAt t) := by
  unfold revokeToken
  cases hindex : t.tokensByName.get name with
  | none =>
      refine .refused rfl ?_
      rintro row ⟨fingerprint, token, ⟨hf, -, -⟩, -⟩
      simp [hindex] at hf
  | some fingerprint =>
      have hown {fingerprint' : Bytes} (hf : t.tokensByName.get name = some fingerprint') :
          fingerprint' = fingerprint := Option.some.inj (hf.symm.trans hindex)
      dsimp only
      cases hget : t.tokens.get fingerprint with
      | none =>
          refine .refused rfl ?_
          rintro row ⟨fingerprint', token, ⟨hf, htoken, -⟩, -⟩
          simp [hown hf, recordAt, hget] at htoken
      | some value =>
          dsimp only
          cases hdec : decodeRow C.token value with
          | error e => exact .failed (decodeRow_error hdec) fun h => not_decodesAt hget hdec (h fingerprint hindex)
          | ok token =>
              have hrow := recordAt_of_get hget (decodeRow_ok.mp hdec)
              dsimp only
              split_ifs with hrevoked
              · refine .refused rfl ?_
                rintro row ⟨fingerprint', token', ⟨hf, htoken, hnone⟩, -⟩
                rw [hown hf, hrow] at htoken
                cases htoken
                simp [hnone] at hrevoked
              · refine .single (.token fingerprint) (fun row => ⟨?_, ?_⟩)
                  (get_insert_update (fun token : TokenRecord => { token with revokedAt := some revokedAt }) hget
                    (decodeRow_ok.mp hdec)) fun row => row_insert_token
                · rintro ⟨fingerprint', token', ⟨hf, -, -⟩, rfl⟩
                  rw [hown hf]
                · exact fun h => ⟨fingerprint, token, ⟨hindex, hrow, Option.not_isSome_iff_eq_none.mp hrevoked⟩, h⟩

theorem rewrapVersion_outcome (name : String) (version : Int32) (kmsKeyId : String) (wrappedDek : Bytes)
    (wrappedRotationAt : Int64) : Outcome C (.rewrapVersion name version kmsKeyId wrappedDek wrappedRotationAt) t
      (rewrapVersion C name version kmsKeyId wrappedDek wrappedRotationAt t) := by
  unfold rewrapVersion
  cases hget : t.versions.get (versionKey name version) with
  | none =>
      refine .idle ?_ rfl
      rintro row ⟨⟨record, hrecord, -⟩, -⟩
      simp [versionAt, recordAt, hget] at hrecord
  | some value =>
      dsimp only
      cases hdec : decodeRow C.version value with
      | error e => exact .failed (decodeRow_error hdec) (not_decodesAt hget hdec)
      | ok record =>
          have hrecord : versionAt C t (versionKey name version) = some record :=
            recordAt_of_get hget (decodeRow_ok.mp hdec)
          dsimp only
          split_ifs with hlabel
          · refine .idle ?_ rfl
            rintro row ⟨⟨record', hrecord', hold⟩, -⟩
            cases hrecord.symm.trans hrecord'
            rw [hlabel] at hold
            cases hold
          · exact .single (.version (versionKey name version))
              (fun row => and_iff_right ⟨record, hrecord, Bool.eq_false_iff.mpr hlabel⟩)
              (get_insert_update (fun record : VersionRecord => { record with
                kmsKeyId := kmsKeyId, wrappedDek := wrappedDek, wrappedRotationAt := some wrappedRotationAt }) hget
                (decodeRow_ok.mp hdec)) fun row => row_insert_version

/-! Metadata and new versions. -/

section NewVersion
variable {name : String} {expectedCurrent : Int32} {version : VersionRecord} {supersedeExpiresAt : Option Int64}
  {setDescription : Option String} {setRotationIntervalSecs setGraceSecs : Option Int64}
  {nextRotationAt : NextRotation} {updatedAt : Int64} {versions versions' : Table String Bytes}

theorem updateMeta_outcome :
    Outcome C (.updateMeta name expectedCurrent setDescription setRotationIntervalSecs setGraceSecs nextRotationAt
      updatedAt) t (updateMeta C name expectedCurrent setDescription setRotationIntervalSecs setGraceSecs
        nextRotationAt updatedAt t) := by
  unfold updateMeta
  cases hget : t.secrets.get name with
  | none =>
      refine .refused rfl ?_
      rintro row ⟨⟨secret, hs, -⟩, -⟩
      simp [secretAt, recordAt, hget] at hs
  | some value =>
      dsimp only
      cases hdec : decodeRow C.secret value with
      | error e => exact .failed (decodeRow_error hdec) (not_decodesAt hget hdec)
      | ok secret =>
          have hsecret : secretAt C t name = some secret := recordAt_of_get hget (decodeRow_ok.mp hdec)
          dsimp only
          split_ifs with hcur
          · refine .refused rfl ?_
            rintro row ⟨⟨secret', hs, hcur'⟩, -⟩
            cases hsecret.symm.trans hs
            exact hcur hcur'
          · refine .single (.secret name) (fun row => and_iff_right ⟨secret, hsecret, not_not.mp hcur⟩)
              (get_insert_update (fun secret : SecretRecord => applyMeta secret setDescription setRotationIntervalSecs
                setGraceSecs nextRotationAt updatedAt) hget (decodeRow_ok.mp hdec)) fun row => row_insert_secret

/-- Where a version is superseded, it gets its expiry. -/
theorem get_supersede
    (hok : supersede C name expectedCurrent supersedeExpiresAt versions = .ok versions')
    {prev : VersionRecord} (hprev : recordAt C.version versions (versionKey name expectedCurrent) = some prev)
    (hnone : prev.expiresAt = none) :
    versions'.get (versionKey name expectedCurrent) =
        some (C.version.encode { prev with expiresAt := supersedeExpiresAt }) ∨
      supersedeExpiresAt = none ∧ versions' = versions := by
  cases supersedeExpiresAt with
  | none =>
      cases hok
      exact Or.inr ⟨rfl, rfl⟩
  | some at_ =>
      rw [supersede_eq hprev hnone] at hok
      cases hok
      exact Or.inl (Table.get_insert_self _ _ _)

theorem supersede_error (h : supersede C name expectedCurrent supersedeExpiresAt versions = .error e) :
    e.isInternal = true ∧ supersedeExpiresAt.isSome ∧
      ¬ DecodesAt C.version versions (versionKey name expectedCurrent) := by
  unfold supersede at h
  split at h
  · cases h
  · split at h
    · cases h
    · rename_i hget
      split at h
      · rename_i hdec
        cases h
        exact ⟨decodeRow_error hdec, rfl, not_decodesAt hget hdec⟩
      · split_ifs at h

theorem get_new_version (hok : supersede C name expectedCurrent supersedeExpiresAt
      (versions.insert (versionKey name version.version) (C.version.encode version)) = .ok versions') :
    versions'.get (versionKey name version.version) =
      some (C.version.encode (newVersion name expectedCurrent version supersedeExpiresAt)) := by
  have hself : recordAt C.version (versions.insert (versionKey name version.version) (C.version.encode version))
      (versionKey name version.version) = some version := recordAt_insert_self _ _
  by_cases hsame : versionKey name expectedCurrent = versionKey name version.version ∧ version.expiresAt = none
  · rw [newVersion, if_pos hsame]
    obtain ⟨hkey, hnone⟩ := hsame
    rw [← hkey] at hself hok ⊢
    obtain hset | ⟨rfl, rfl⟩ := get_supersede hok hself hnone
    · exact hset
    · rw [Table.get_insert_self, ← hnone]
  · rw [newVersion, if_neg hsame, get_supersede_of_not hok, Table.get_insert_self]
    rintro ⟨hkey, -, prev, hprev, hnone⟩
    rw [← hkey, hself] at hprev
    cases hprev
    exact hsame ⟨hkey.symm, hnone⟩

theorem get_prev_version (hok : supersede C name expectedCurrent supersedeExpiresAt
      (versions.insert (versionKey name version.version) (C.version.encode version)) = .ok versions')
    (hne : versionKey name expectedCurrent ≠ versionKey name version.version) (hsome : supersedeExpiresAt.isSome)
    {prev : VersionRecord} (hprev : recordAt C.version versions (versionKey name expectedCurrent) = some prev)
    (hnone : prev.expiresAt = none) :
    versions'.get (versionKey name expectedCurrent) =
      (Change.update fun prev : VersionRecord => { prev with expiresAt := supersedeExpiresAt }).write C.version
        (versions.get (versionKey name expectedCurrent)) := by
  rw [Change.write_update hprev]
  rw [← recordAt_insert_of_ne version hne.symm] at hprev
  obtain hset | ⟨rfl, -⟩ := get_supersede hok hprev hnone
  · exact hset
  · cases hsome

theorem change_new_version : (Command.putVersion name expectedCurrent version supersedeExpiresAt setDescription
    setRotationIntervalSecs setGraceSecs nextRotationAt updatedAt).change C
      (.version (versionKey name version.version)) =
    .set (some (C.version.encode (newVersion name expectedCurrent version supersedeExpiresAt))) := if_pos rfl

theorem change_prev_version {key : String} (h : key ≠ versionKey name version.version) :
    (Command.putVersion name expectedCurrent version supersedeExpiresAt setDescription setRotationIntervalSecs
      setGraceSecs nextRotationAt updatedAt).change C (.version key) =
    .update fun (prev : VersionRecord) => { prev with expiresAt := supersedeExpiresAt } := if_neg h

theorem putVersion_outcome :
    Outcome C (.putVersion name expectedCurrent version supersedeExpiresAt setDescription setRotationIntervalSecs
      setGraceSecs nextRotationAt updatedAt) t (putVersion C name expectedCurrent version supersedeExpiresAt
        setDescription setRotationIntervalSecs setGraceSecs nextRotationAt updatedAt t) := by
  unfold putVersion
  cases hrow : checkSecretRow name version.version with
  | error e =>
      refine .refused (checkSecretRow_error hrow) fun row hacts => ?_
      exact not_valid_of_checkSecretRow hrow ⟨hacts.1.1, hacts.1.2.1⟩
  | ok _ =>
      obtain ⟨hname, hversion⟩ := checkSecretRow_ok hrow
      dsimp only
      cases hget : t.secrets.get name with
      | none =>
          refine .refused rfl ?_
          rintro row ⟨⟨-, -, secret, hs, -⟩, -⟩
          simp [secretAt, recordAt, hget] at hs
      | some value =>
          dsimp only
          cases hdec : decodeRow C.secret value with
          | error e => exact .failed (decodeRow_error hdec) fun hread => not_decodesAt hget hdec hread.1
          | ok secret =>
              have hsecret : secretAt C t name = some secret := recordAt_of_get hget (decodeRow_ok.mp hdec)
              dsimp only
              split_ifs with hcur
              · refine .refused rfl ?_
                rintro row ⟨⟨-, -, secret', hs, hcur'⟩, -⟩
                cases hsecret.symm.trans hs
                exact hcur hcur'
              · have hcurrent : HasCurrent C t name expectedCurrent := ⟨secret, hsecret, not_not.mp hcur⟩
                cases hsuper : supersede C name expectedCurrent supersedeExpiresAt
                    (t.versions.insert (versionKey name version.version) (C.version.encode version)) with
                | error e =>
                    obtain ⟨he, hexpiry, hbad⟩ := supersede_error hsuper
                    refine .failed he fun hread => hbad fun bytes hbytes => ?_
                    rw [Table.get_insert] at hbytes
                    split_ifs at hbytes
                    · cases hbytes
                      simp
                    · exact hread.2 hcurrent hexpiry bytes hbytes
                | ok versions =>
                    have hguard := And.intro hname (And.intro hversion hcurrent)
                    refine .done ?_ fun row hrest => ?_
                    · rintro row ⟨-, rfl | rfl | ⟨rfl, hsome, prev, hprev, hnone⟩⟩
                      · exact get_insert_update (fun secret : SecretRecord => applyMeta
                          { secret with currentVersion := version.version } setDescription setRotationIntervalSecs
                          setGraceSecs nextRotationAt updatedAt) hget (decodeRow_ok.mp hdec)
                      · rw [Command.write, change_new_version]
                        exact get_new_version hsuper
                      · by_cases hkey : versionKey name expectedCurrent = versionKey name version.version
                        · rw [hkey, Command.write, change_new_version]
                          exact get_new_version hsuper
                        · rw [Command.write, change_prev_version hkey]
                          exact get_prev_version hsuper hkey hsome hprev hnone
                    · cases row with
                      | secret other => exact row_insert_secret fun h => hrest ⟨hguard, Or.inl h⟩
                      | version key =>
                          have hne : versionKey name version.version ≠ key := by
                            rintro rfl
                            exact hrest ⟨hguard, Or.inr (Or.inl rfl)⟩
                          refine (get_supersede_of_not hsuper ?_).trans (Table.get_insert_of_ne _ _ hne)
                          rintro ⟨rfl, hsome, prev, hprev, hnone⟩
                          rw [recordAt_insert_of_ne _ hne] at hprev
                          exact hrest ⟨hguard, Or.inr (Or.inr ⟨rfl, hsome, prev, hprev, hnone⟩)⟩
                      | _ => rfl

end NewVersion

/-! Commands that remove rows. -/

theorem isSome_of_not_isNone {α : Type} {o : Option α} (h : ¬ o.isNone = true) : o.isSome :=
  Option.isSome_iff_ne_none.mpr fun hnone => h (Option.isNone_iff_eq_none.mpr hnone)

theorem deleteSecret_outcome (name : String) : Outcome C (.deleteSecret name) t (deleteSecret name t) := by
  unfold deleteSecret
  dsimp only
  split_ifs with hnone
  · have hmissing := Option.isNone_iff_eq_none.mp hnone
    rw [Table.remove_of_get_none hmissing]
    exact .refused rfl fun row hacts => by simpa [hmissing] using hacts.1
  · have hsome := isSome_of_not_isNone hnone
    refine .done ?_ fun row hrest => ?_
    · rintro row ⟨_, rfl | ⟨key, rfl, hkey⟩⟩
      · exact (Table.get_remove _ _ _).trans (if_pos rfl)
      · change (t.versions.removeAll _).get key = none
        rw [Table.get_removeAll]
        split_ifs with hmem
        · rfl
        · -- no row is there
          simpa [mem_ownVersionKeys_iff, hkey] using hmem
    · cases row with
      | secret other =>
          refine (Table.get_remove _ _ _).trans (if_neg fun hname => hrest ⟨hsome, Or.inl ?_⟩)
          rw [hname]
      | version key =>
          refine (Table.get_removeAll _ _ _).trans (if_neg fun hmem => hrest ⟨hsome, Or.inr ⟨key, rfl, ?_⟩⟩)
          exact (mem_ownVersionKeys_iff.mp hmem).2
      | _ => rfl

theorem checkRoleUnused_error {rows : List (Bytes × Bytes)} (h : checkRoleUnused C name rows = .error e) :
    (e.isInternal = false ∧ ∃ row ∈ rows, ∃ token, C.token.decode row.2 = some token ∧ token.role = some name) ∨
      (e.isInternal = true ∧ ∃ row ∈ rows, C.token.decode row.2 = none) := by
  induction rows with
  | nil => cases h
  | cons row rest ih =>
      unfold checkRoleUnused at h
      split at h
      · rename_i hdec
        cases h
        exact Or.inr ⟨decodeRow_error hdec, row, List.mem_cons_self, decode_eq_none hdec⟩
      · rename_i token hdec
        split_ifs at h with hrole
        · cases h
          exact Or.inl ⟨rfl, row, List.mem_cons_self, token, decodeRow_ok.mp hdec, hrole⟩
        · refine (ih h).imp (And.imp_right ?_) (And.imp_right ?_)
          · rintro ⟨row', hmem, hrow'⟩
            exact ⟨row', List.mem_cons_of_mem _ hmem, hrow'⟩
          · rintro ⟨row', hmem, hrow'⟩
            exact ⟨row', List.mem_cons_of_mem _ hmem, hrow'⟩

theorem deleteRole_outcome (name : String) : Outcome C (.deleteRole name) t (deleteRole C name t) := by
  unfold deleteRole
  cases hunused : checkRoleUnused C name t.tokens.rows with
  | error e =>
      obtain ⟨he, ⟨fingerprint, value⟩, hmem, token, hdec, hrole⟩ | ⟨he, ⟨fingerprint, value⟩, hmem, hdec⟩ :=
        checkRoleUnused_error hunused
      · refine .refused he fun row hacts => ?_
        exact hacts.1.2 fingerprint token (recordAt_of_get (Table.mem_rows.mp hmem) hdec) hrole
      · refine .failed he fun hread => ?_
        have hsome := hread fingerprint value (Table.mem_rows.mp hmem)
        rw [hdec] at hsome
        cases hsome
  | ok _ =>
      dsimp only
      split_ifs with hnone
      · have hmissing := Option.isNone_iff_eq_none.mp hnone
        rw [Table.remove_of_get_none hmissing]
        exact .refused rfl fun row hacts => by simpa [hmissing] using hacts.1.1
      · refine .single (.role name)
          (fun row => and_iff_right ⟨isSome_of_not_isNone hnone, fun fingerprint token htoken => ?_⟩)
          ((Table.get_remove _ _ _).trans (if_pos rfl)) fun row hrow => ?_
        · obtain ⟨value, hget, hdec⟩ := get_of_recordAt htoken
          obtain ⟨token', hdec', hrole⟩ := checkRoleUnused_ok hunused (fingerprint, value) (Table.mem_rows.mpr hget)
          cases hdec.symm.trans hdec'
          exact hrole
        · cases row with
          | role other =>
              refine (Table.get_remove _ _ _).trans (if_neg fun hname => hrow ?_)
              rw [hname]
          | _ => rfl

theorem expiredKeys_error {now : Int64} {rows : List (String × Bytes)}
    (h : expiredKeys C now rows = .error e) : e.isInternal = true ∧ ∃ row ∈ rows, C.version.decode row.2 = none := by
  induction rows with
  | nil => cases h
  | cons row rest ih =>
      unfold expiredKeys at h
      split at h
      · rename_i hdec
        cases h
        exact ⟨decodeRow_error hdec, row, List.mem_cons_self, decode_eq_none hdec⟩
      · split at h
        · rename_i hrest
          cases h
          obtain ⟨he, row', hmem, hrow'⟩ := ih hrest
          exact ⟨he, row', List.mem_cons_of_mem _ hmem, hrow'⟩
        · cases h

theorem expireGraceVersions_outcome (now : Int64) :
    Outcome C (.expireGraceVersions now) t (expireGraceVersions C now t) := by
  unfold expireGraceVersions
  cases hscan : expiredKeys C now t.versions.rows with
  | error e =>
      obtain ⟨he, ⟨key, value⟩, hmem, hdec⟩ := expiredKeys_error hscan
      refine .failed he fun hread => ?_
      have hsome := hread key value (Table.mem_rows.mp hmem)
      rw [hdec] at hsome
      cases hsome
  | ok expired =>
      refine .done ?_ fun row hrest => ?_
      · rintro row ⟨key, record, ⟨hrecord, hexpired⟩, rfl⟩
        obtain ⟨value, hget, hdec⟩ := get_of_recordAt hrecord
        exact (Table.get_removeAll _ _ _).trans
          (if_pos ((mem_expiredKeys hscan).mpr ⟨value, record, Table.mem_rows.mpr hget, hdec, hexpired⟩))
      · cases row with
        | version key =>
            refine (Table.get_removeAll _ _ _).trans (if_neg fun hmem => hrest ?_)
            obtain ⟨value, record, hrow, hdec, hexpired⟩ := (mem_expiredKeys hscan).mp hmem
            exact ⟨key, record, ⟨recordAt_of_get (Table.mem_rows.mp hrow) hdec, hexpired⟩, rfl⟩
        | _ => rfl

theorem restoreDatabase_outcome (data : BackupData) :
    Outcome C (.restoreDatabase data) t (restoreDatabase data t) := by
  cases hdata : data.accepted with
  | false =>
      obtain ⟨message, hrefused⟩ := restoreDatabase_of_refused hdata
      rw [hrefused]
      exact .refused rfl fun row hacts => by simp [Command.Acts, hdata] at hacts
  | true =>
      rw [restoreDatabase_of_accepted hdata]
      exact .done (fun row _ => by cases row <;> rfl) fun row hrest => absurd hdata hrest

theorem recordAuthFailure_outcome (key : String) (now : Int64) (max : UInt32) (windowSecs lockoutSecs : Int64) :
    Outcome C (.recordAuthFailure key now max windowSecs lockoutSecs) t
      (recordAuthFailure C key now max windowSecs lockoutSecs t) := by
  unfold recordAuthFailure
  cases hget : t.lockouts.get key with
  | none => exact .idle (fun row hacts => hacts) rfl
  | some value =>
      dsimp only
      cases hdec : decodeRow C.lockout value with
      | error e => exact .failed (decodeRow_error hdec) (not_decodesAt hget hdec)
      | ok record => exact .idle (fun row hacts => hacts) rfl

theorem appendAudit_outcome (nodeId : Nat) (entry : AuditEntry) :
    Outcome C (.appendAudit entry) t (appendAudit C nodeId entry t) := by
  unfold appendAudit
  split
  · exact .idle (fun row hacts => hacts) rfl
  · split_ifs
    · exact .idle (fun row hacts => hacts) rfl
    · exact .refused rfl fun row hacts => hacts

theorem setKmsRewrapState_outcome (state : KmsRewrapState) :
    Outcome C (.setKmsRewrapState state) t (setKmsRewrapState C state t) := by
  refine .single (.kmsRewrap kmsRewrapStateKey) (fun row => Iff.rfl) (Table.get_insert_self _ _ _) fun row hrow => ?_
  cases row with
  | kmsRewrap key => exact Table.get_insert_of_ne _ _ fun hkey => hrow (congrArg ReplicatedRow.kmsRewrap hkey.symm)
  | _ => rfl

/-- Every command is done on the rows on which it acts, or refused where there are none, or it cannot read a row. -/
theorem applyCommand_outcome (nodeId : Nat) (command : Command) (t : Tables) :
    Outcome C command t (applyCommand C nodeId command t) := by
  cases command with
  | createSecret => exact createSecret_outcome _ _
  | putVersion => exact putVersion_outcome
  | updateMeta => exact updateMeta_outcome
  | deleteSecret => exact deleteSecret_outcome _
  | createRole => exact createRole_outcome _
  | setPermissions => exact setPermissions_outcome _ _
  | deleteRole => exact deleteRole_outcome _
  | addToken => exact addToken_outcome _
  | revokeToken => exact revokeToken_outcome _ _
  | touchToken => exact touchToken_outcome _ _
  | expireGraceVersions => exact expireGraceVersions_outcome _
  | rewrapVersion => exact rewrapVersion_outcome _ _ _ _ _
  | setKmsRewrapState => exact setKmsRewrapState_outcome _
  | appendAudit => exact appendAudit_outcome _ _
  | restoreDatabase => exact restoreDatabase_outcome _
  | recordAuthFailure => exact recordAuthFailure_outcome _ _ _ _ _

theorem Outcome.noInternal {result : StoreResult Unit × Tables}
    (h : Outcome C command t result) (hread : command.CanRead C t) : isInternalOutcome result.1 = false := by
  cases h with
  | done => rfl
  | refused he => exact he
  | failed _ unreadable => exact absurd hread unreadable

/-- Every command makes its refusals before its first write; what can fail after one is internal. -/
theorem applyCommand_noTrace {nodeId : Nat}
    (h : applyCommand C nodeId command t = (.error e, t')) (he : e.isInternal = false) : t' = t := by
  have houtcome := applyCommand_outcome (C := C) nodeId command t
  rw [h] at houtcome
  cases houtcome with
  | refused => rfl
  | failed hinternal =>
      rw [he] at hinternal
      cases hinternal

/-! ## Updates -/

theorem fieldwise_applyMeta (setDescription : Option String) (setRotationIntervalSecs setGraceSecs : Option Int64)
    (nextRotationAt : NextRotation) (updatedAt : Int64) : Fieldwise SecretRecord.fields fun secret =>
      applyMeta secret setDescription setRotationIntervalSecs setGraceSecs nextRotationAt updatedAt := by
  cases setDescription <;> cases setRotationIntervalSecs <;> cases setGraceSecs <;> cases nextRotationAt <;>
    simp [Fieldwise, SecretRecord.fields, applyMeta]

/-- An update keeps a field or sets it, whatever the record was. -/
theorem Command.fieldwise_change {f : row.Record → row.Record}
    (h : command.change C row = .update f) : Fieldwise row.fields f := by
  cases command with
  | putVersion name expectedCurrent version =>
      cases row with
      | secret =>
          cases h
          have hcurrent : Fieldwise SecretRecord.fields fun secret =>
              { secret with currentVersion := version.version } := by simp [Fieldwise, SecretRecord.fields]
          exact (fieldwise_applyMeta _ _ _ _ _).comp hcurrent
      | version key =>
          obtain rfl | hkey := eq_or_ne key (versionKey name version.version)
          · rw [change_new_version] at h
            cases h
          · rw [change_prev_version hkey] at h
            cases h
            change Fieldwise VersionRecord.fields _
            simp [Fieldwise, VersionRecord.fields]
      | _ => cases h
  | updateMeta =>
      cases row with
      | secret =>
          cases h
          exact fieldwise_applyMeta _ _ _ _ _
      | _ => cases h
  | rewrapVersion =>
      cases row with
      | version =>
          cases h
          change Fieldwise VersionRecord.fields _
          simp [Fieldwise, VersionRecord.fields]
      | _ => cases h
  | setPermissions =>
      cases row with
      | role =>
          cases h
          change Fieldwise RoleRecord.fields _
          simp [Fieldwise, RoleRecord.fields]
      | _ => cases h
  | revokeToken | touchToken =>
      cases row with
      | token =>
          cases h
          change Fieldwise TokenRecord.fields _
          simp [Fieldwise, TokenRecord.fields]
      | _ => cases h
  | _ => cases row <;> cases h

/-- An update acts on a row that holds a record. -/
theorem Command.Acts.holds {f : row.Record → row.Record}
    (hacts : command.Acts C t row) (h : command.change C row = .update f) :
    ∃ record, (t.replicated.row row).bind (row.serde C).decode = some record := by
  cases command with
  | putVersion name expectedCurrent version =>
      obtain ⟨⟨-, -, secret, hsecret, -⟩, rfl | rfl | ⟨rfl, -, prev, hprev, -⟩⟩ := hacts
      · exact ⟨secret, hsecret⟩
      · rw [change_new_version] at h
        cases h
      · exact ⟨prev, hprev⟩
  | updateMeta =>
      obtain ⟨⟨secret, hsecret, -⟩, rfl⟩ := hacts
      exact ⟨secret, hsecret⟩
  | rewrapVersion =>
      obtain ⟨⟨record, hrecord, -⟩, rfl⟩ := hacts
      exact ⟨record, hrecord⟩
  | setPermissions =>
      obtain ⟨⟨role, hrole⟩, rfl⟩ := hacts
      exact ⟨role, hrole⟩
  | revokeToken =>
      obtain ⟨fingerprint, token, ⟨-, htoken, -⟩, rfl⟩ := hacts
      exact ⟨token, htoken⟩
  | touchToken =>
      obtain ⟨⟨token, htoken⟩, rfl⟩ := hacts
      exact ⟨token, htoken⟩
  | _ => cases row <;> cases h

end Results

end HyperionVault
