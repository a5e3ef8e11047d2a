import HyperionVault.Store.Engine

/-!
# What a command leaves behind

* `decodeRow_ok`, `restoreDatabase_of_accepted`, ... : when rows are decoded and backups restored;
* `createSecret_ok`, `putVersion_ok`, `updateMeta_ok`, ... : when a command on secrets and versions
  succeeds, what it has checked and written;
* `applyCommand_local`, `applyCommand_frame` : local commands leave the replicated tables alone, the commands
  on roles, tokens and the like leave secrets and versions alone.
-/

namespace HyperionVault
open Lib

theorem decodeRow_error {α : Type} {S : Serde α} {bytes : Bytes} {e : StoreError}
    (h : decodeRow S bytes = .error e) : e.isInternal = true := by
  unfold decodeRow at h
  split at h
  · cases h
  · cases h
    rfl

theorem decodeRow_ok {α : Type} {S : Serde α} {bytes : Bytes} {a : α} :
    decodeRow S bytes = .ok a ↔ S.decode bytes = some a := by
  unfold decodeRow
  cases S.decode bytes with
  | none => simp
  | some b => simp

theorem restoreDatabase_of_accepted {data : BackupData} (h : data.accepted = true) (t : Tables) :
    restoreDatabase data t = (.ok (), data.tables t) := by
  unfold restoreDatabase
  rw [restoreTables_of_accepted h]

theorem restoreDatabase_of_refused {data : BackupData} (h : data.accepted = false) :
    ∃ message, ∀ t, restoreDatabase data t = (.error (.conflict message), t) := by
  obtain ⟨message, hm⟩ := restoreTables_of_refused h
  refine ⟨"restore refused: " ++ message, fun t => ?_⟩
  unfold restoreDatabase
  rw [hm t]

theorem restoreDatabase_ok {data : BackupData} {t t' : Tables} (h : restoreDatabase data t = (.ok (), t')) :
    data.accepted = true ∧ t' = data.tables t := by
  cases ha : data.accepted with
  | false =>
      obtain ⟨message, hm⟩ := restoreDatabase_of_refused ha
      rw [hm t] at h
      cases h
  | true =>
      rw [restoreDatabase_of_accepted ha] at h
      cases h
      exact ⟨rfl, rfl⟩

/-! ## What a success has checked and written -/

section Successes
variable {C : Codec} {t t' : Tables} {name : String} {expectedCurrent : Int32} {version : VersionRecord}
  {supersedeExpiresAt : Option Int64} {setDescription : Option String}
  {setRotationIntervalSecs setGraceSecs : Option Int64} {nextRotationAt : NextRotation} {updatedAt : Int64}

theorem checkSecretRow_ok {name : String} {version : Int32} (h : checkSecretRow name version = .ok ()) :
    isValidSecretName name = true ∧ isValidSecretVersion version = true := by
  unfold checkSecretRow checkSecretName at h
  cases hn : isValidSecretName name with
  | false => simp [hn] at h
  | true =>
      cases hv : isValidSecretVersion version with
      | false => simp [hn, hv] at h
      | true => exact ⟨rfl, rfl⟩

theorem createSecret_ok {secret : SecretRecord}
    (h : createSecret C secret version t = (.ok (), t')) :
    (isValidSecretName secret.name = true ∧ isValidSecretVersion version.version = true) ∧
      t.secrets.get secret.name = none ∧
      t' = { t with
        secrets := t.secrets.insert secret.name (C.secret.encode secret)
        versions := t.versions.insert (versionKey secret.name version.version) (C.version.encode version) } := by
  unfold createSecret at h
  split at h
  · cases h
  · rename_i hrow
    split_ifs at h with hs
    · cases h
    · cases h
      exact ⟨checkSecretRow_ok hrow, Option.not_isSome_iff_eq_none.mp hs, rfl⟩

theorem putVersion_ok
    (h : putVersion C name expectedCurrent version supersedeExpiresAt setDescription setRotationIntervalSecs
      setGraceSecs nextRotationAt updatedAt t = (.ok (), t')) :
    (isValidSecretName name = true ∧ isValidSecretVersion version.version = true) ∧
      ∃ value secret versions, t.secrets.get name = some value ∧ C.secret.decode value = some secret ∧
        secret.currentVersion = expectedCurrent ∧
        supersede C name expectedCurrent supersedeExpiresAt
          (t.versions.insert (versionKey name version.version) (C.version.encode version)) = .ok versions ∧
        t' = { t with
          versions := versions
          secrets := t.secrets.insert name (C.secret.encode (applyMeta
            { secret with currentVersion := version.version } setDescription setRotationIntervalSecs setGraceSecs
            nextRotationAt updatedAt)) } := by
  unfold putVersion at h
  split at h
  · cases h
  · rename_i hrow
    refine ⟨checkSecretRow_ok hrow, ?_⟩
    split at h
    · cases h
    · rename_i value hget
      split at h
      · cases h
      · rename_i secret hdec
        split_ifs at h with hcur
        · cases h
        · dsimp only at h
          split at h
          · cases h
          · rename_i versions hs
            cases h
            exact ⟨value, secret, versions, hget, decodeRow_ok.mp hdec, not_not.mp hcur, hs, rfl⟩

theorem updateMeta_ok
    (h : updateMeta C name expectedCurrent setDescription setRotationIntervalSecs setGraceSecs nextRotationAt
      updatedAt t = (.ok (), t')) :
    ∃ value secret, t.secrets.get name = some value ∧ C.secret.decode value = some secret ∧
      secret.currentVersion = expectedCurrent ∧
      t' = { t with secrets := t.secrets.insert name (C.secret.encode (applyMeta secret setDescription
        setRotationIntervalSecs setGraceSecs nextRotationAt updatedAt)) } := by
  unfold updateMeta at h
  split at h
  · cases h
  · rename_i value hget
    split at h
    · cases h
    · rename_i secret hdec
      split_ifs at h with hcur
      · cases h
      · cases h
        exact ⟨value, secret, hget, decodeRow_ok.mp hdec, not_not.mp hcur, rfl⟩

theorem deleteSecret_ok (h : deleteSecret name t = (.ok (), t')) :
    (t.secrets.get name).isSome ∧ t' = { t with
      secrets := t.secrets.remove name
      versions := t.versions.removeAll (ownVersionKeys name t.versions) } := by
  unfold deleteSecret at h
  dsimp only at h
  split_ifs at h with hn
  · cases h
  · cases h
    exact ⟨Option.isSome_iff_ne_none.mpr fun he => hn (Option.isNone_iff_eq_none.mpr he), rfl⟩

theorem expireGraceVersions_ok {now : Int64} (h : expireGraceVersions C now t = (.ok (), t')) :
    ∃ expired, expiredKeys C now t.versions.rows = .ok expired ∧
      t' = { t with versions := t.versions.removeAll expired } := by
  unfold expireGraceVersions at h
  split at h
  · cases h
  · rename_i expired he
    cases h
    exact ⟨expired, he, rfl⟩

/-- A re-wrap either finds nothing to do or exchanges the wrapped key of the row. -/
theorem rewrapVersion_ok {name : String} {version : Int32} {kmsKeyId : String} {wrappedDek : Bytes}
    {wrappedRotationAt : Int64}
    (h : rewrapVersion C name version kmsKeyId wrappedDek wrappedRotationAt t = (.ok (), t')) :
    t' = t ∨ ∃ value record, t.versions.get (versionKey name version) = some value ∧
      C.version.decode value = some record ∧ record.wrappedRotationAt.any (wrappedRotationAt ≤ ·) = false ∧
      t' = { t with versions := t.versions.insert (versionKey name version) (C.version.encode { record with
        kmsKeyId := kmsKeyId, wrappedDek := wrappedDek, wrappedRotationAt := some wrappedRotationAt }) } := by
  unfold rewrapVersion at h
  split at h
  · cases h
    exact Or.inl rfl
  · rename_i value hget
    split at h
    · cases h
    · rename_i record hdec
      split_ifs at h with hw
      · cases h
        exact Or.inl rfl
      · cases h
        exact Or.inr ⟨value, record, hget, decodeRow_ok.mp hdec, Bool.eq_false_iff.mpr hw, rfl⟩

theorem mem_expiredKeys {now : Int64} {rows : List (String × Bytes)} {expired : List String}
    (h : expiredKeys C now rows = .ok expired) {key : String} : key ∈ expired ↔
      ∃ value record, (key, value) ∈ rows ∧ C.version.decode value = some record ∧
        record.expiresAt.any (· ≤ now) = true := by
  induction rows generalizing expired with
  | nil =>
      cases h
      simp
  | cons row rows ih =>
      unfold expiredKeys at h
      split at h
      · cases h
      · rename_i record hdec
        split at h
        · cases h
        · rename_i keys hkeys
          cases h
          have hrecord := decodeRow_ok.mp hdec
          split_ifs with he
          · simp [ih hkeys, Prod.ext_iff, or_and_right, exists_or, hrecord, he]
          · simp [ih hkeys, Prod.ext_iff, or_and_right, exists_or, hrecord, he]

end Successes

/-! ## Commands that leave tables alone -/

/-- A local command leaves the replicated tables alone. -/
theorem applyCommand_local {C : Codec} {command : Command} (hloc : command.isLocal = true) (nodeId : Nat) (t : Tables) :
    (applyCommand C nodeId command t).2.replicated = t.replicated := by
  cases command with
  | appendAudit entry =>
      change (appendAudit C nodeId entry t).2.replicated = _
      unfold appendAudit
      split
      · rfl
      · split_ifs <;> rfl
  | recordAuthFailure key now max windowSecs lockoutSecs =>
      change (recordAuthFailure C key now max windowSecs lockoutSecs t).2.replicated = _
      unfold recordAuthFailure
      dsimp only
      split <;> rfl
  | _ => cases hloc

/-- The commands on roles, tokens, the audit log, the lockouts and the state of the key rotation. -/
def Command.keepsSecrets : Command → Bool
  | .createRole _ => true
  | .setPermissions .. => true
  | .deleteRole _ => true
  | .addToken _ => true
  | .revokeToken .. => true
  | .touchToken .. => true
  | .setKmsRewrapState _ => true
  | .appendAudit _ => true
  | .recordAuthFailure .. => true
  | _ => false

theorem applyCommand_frame {C : Codec} {nodeId : Nat} {command : Command} (h : command.keepsSecrets = true)
    (t : Tables) :
    (applyCommand C nodeId command t).2.secrets = t.secrets ∧
      (applyCommand C nodeId command t).2.versions = t.versions := by
  cases command with
  | createSecret | putVersion | updateMeta | deleteSecret | expireGraceVersions | rewrapVersion | restoreDatabase =>
      cases h
  | setKmsRewrapState => exact ⟨rfl, rfl⟩
  | _ =>
      simp only [applyCommand, createRole, setPermissions, deleteRole, addToken, revokeToken, touchToken, appendAudit,
        recordAuthFailure]
      repeat' split
      all_goals exact ⟨rfl, rfl⟩

end HyperionVault
