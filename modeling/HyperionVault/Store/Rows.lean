import HyperionVault.Store.Effects

/-!
# Tables as tables of records

The commands work on bytes; invariants are about the records the bytes hold.

* `recordAt S table key` : the record stored under a key;
* `Decodes S table` : every row holds a record;
* `recordAt_insert`, `recordAt_removeAll`, `decodes_insert`, ... : what the table operations do to both;
* `secretAt`, `versionAt` : the two tables the service works with;
* `createSecret_eq`, `putVersion_eq`, ... : what a command does to them where its checks pass.
-/

namespace HyperionVault
open Lib

section Records
variable {K α : Type} [LinearOrder K] {S : Serde α} {table : Table K Bytes}

def recordAt (S : Serde α) (table : Table K Bytes) (key : K) : Option α := (table.get key).bind S.decode

/-- Every row of the table holds a record. -/
def Decodes (S : Serde α) (table : Table K Bytes) : Prop :=
  ∀ key bytes, table.get key = some bytes → (S.decode bytes).isSome

theorem recordAt_of_get {key : K} {bytes : Bytes} {a : α} (hget : table.get key = some bytes)
    (hdec : S.decode bytes = some a) : recordAt S table key = some a := by
  rw [recordAt, hget]
  exact hdec

theorem get_of_recordAt {key : K} {a : α} (h : recordAt S table key = some a) :
    ∃ bytes, table.get key = some bytes ∧ S.decode bytes = some a := Option.bind_eq_some_iff.mp h

@[simp] theorem recordAt_empty (key : K) : recordAt S Table.empty key = none := rfl

theorem recordAt_insert (k : K) (a : α) (k' : K) :
    recordAt S (table.insert k (S.encode a)) k' = if k = k' then some a else recordAt S table k' := by
  unfold recordAt
  rw [Table.get_insert]
  split_ifs
  · exact S.decode_encode a
  · rfl

@[simp] theorem recordAt_insert_self (k : K) (a : α) : recordAt S (table.insert k (S.encode a)) k = some a := by
  rw [recordAt_insert, if_pos rfl]

theorem recordAt_insert_of_ne {k k' : K} (a : α) (h : k ≠ k') :
    recordAt S (table.insert k (S.encode a)) k' = recordAt S table k' := by
  rw [recordAt_insert, if_neg h]

theorem recordAt_remove (k k' : K) :
    recordAt S (table.remove k) k' = if k = k' then none else recordAt S table k' := by
  unfold recordAt
  rw [Table.get_remove]
  split_ifs <;> rfl

theorem recordAt_removeAll (keys : List K) (key : K) :
    recordAt S (table.removeAll keys) key = if key ∈ keys then none else recordAt S table key := by
  unfold recordAt
  rw [Table.get_removeAll]
  split_ifs <;> rfl

/-- What holds of every record holds of every one after a record is written of which it holds. -/
theorem forall_recordAt_insert {P : K → α → Prop} {k : K} {a : α} (h : ∀ k' a', recordAt S table k' = some a' → P k' a')
    (hnew : P k a) (k' : K) (a' : α) (hrow : recordAt S (table.insert k (S.encode a)) k' = some a') : P k' a' := by
  rw [recordAt_insert] at hrow
  split_ifs at hrow with hk
  · cases hrow
    exact hk ▸ hnew
  · exact h k' a' hrow

theorem recordAt_isSome (h : Decodes S table) {key : K} (hkey : (table.get key).isSome) :
    ∃ a, recordAt S table key = some a := by
  obtain ⟨bytes, hbytes⟩ := Option.isSome_iff_exists.mp hkey
  obtain ⟨a, ha⟩ := Option.isSome_iff_exists.mp (h key bytes hbytes)
  exact ⟨a, recordAt_of_get hbytes ha⟩

theorem decodes_empty : Decodes S (Table.empty : Table K Bytes) := by
  intro key bytes h
  cases h

theorem decodes_insert (h : Decodes S table) (k : K) (a : α) : Decodes S (table.insert k (S.encode a)) := by
  intro key bytes hget
  rw [Table.get_insert] at hget
  split_ifs at hget with hk
  · cases hget
    rw [S.decode_encode]
    rfl
  · exact h key bytes hget

theorem decodes_remove (h : Decodes S table) (k : K) : Decodes S (table.remove k) := by
  intro key bytes hget
  rw [Table.get_remove] at hget
  split_ifs at hget with hk
  exact h key bytes hget

theorem decodes_removeAll (h : Decodes S table) (keys : List K) : Decodes S (table.removeAll keys) := by
  intro key bytes hget
  rw [Table.get_removeAll] at hget
  split_ifs at hget with hk
  exact h key bytes hget

end Records

/-! ## Secrets and versions -/

/-- The next rotation after a command. -/
def NextRotation.resolve (change : NextRotation) (old : Option Int64) : Option Int64 :=
  match change with
  | .keep => old
  | .set value => value

/-- The fields that metadata commands can change; all others stay. -/
theorem applyMeta_eq (secret : SecretRecord) (setDescription : Option String)
    (setRotationIntervalSecs setGraceSecs : Option Int64) (nextRotationAt : NextRotation) (updatedAt : Int64) :
    applyMeta secret setDescription setRotationIntervalSecs setGraceSecs nextRotationAt updatedAt =
      { secret with
        description := setDescription.or secret.description
        rotationIntervalSecs := setRotationIntervalSecs.or secret.rotationIntervalSecs
        graceSecs := setGraceSecs.getD secret.graceSecs
        nextRotationAt := nextRotationAt.resolve secret.nextRotationAt
        updatedAt := updatedAt } := by
  cases setDescription <;> cases setRotationIntervalSecs <;> cases setGraceSecs <;> cases nextRotationAt <;> rfl

section SecretsVersions
variable (C : Codec)

def secretAt (t : Tables) (name : String) : Option SecretRecord := recordAt C.secret t.secrets name

def versionAt (t : Tables) (key : String) : Option VersionRecord := recordAt C.version t.versions key

variable {C} {t : Tables} {name : String} {expectedCurrent : Int32}

/-- A command that the single-node store accepts has succeeded in its transaction. -/
theorem redbStore_apply_ok {nodeId : Nat} {command : Command}
    (h : (RedbStore.apply C nodeId command t).1 = .ok ()) :
    ∃ t', applyCommand C nodeId command t = (.ok (), t') := by
  unfold RedbStore.apply at h
  cases hr : applyCommand C nodeId command t with
  | mk outcome t' =>
      rw [hr] at h
      cases outcome with
      | ok u => exact ⟨t', rfl⟩
      | error e => cases h

/-- A record is read as it is stored. -/
theorem lookup_eq_ok {K α : Type} [LinearOrder K] {S : Serde α} {table : Table K Bytes} {key : K} {a : α} :
    RedbStore.lookup S table key = .ok (some a) ↔ recordAt S table key = some a := by
  unfold RedbStore.lookup recordAt
  cases table.get key with
  | none => simp
  | some bytes =>
      unfold decodeRow
      cases hdec : S.decode bytes <;> simp [hdec]

theorem lookup_eq_none {K α : Type} [LinearOrder K] {S : Serde α} {table : Table K Bytes}
    (h : Decodes S table) {key : K}
    (hnone : recordAt S table key = none) : RedbStore.lookup S table key = .ok none := by
  unfold RedbStore.lookup
  cases hget : table.get key with
  | none => rfl
  | some bytes =>
      obtain ⟨a, ha⟩ := Option.isSome_iff_exists.mp (h key bytes hget)
      rw [recordAt_of_get hget ha] at hnone
      cases hnone

theorem secret_eq_ok {s : SecretRecord} :
    RedbStore.secret C name t = .ok (some s) ↔ secretAt C t name = some s := lookup_eq_ok

theorem version_eq_ok {number : Int32} {v : VersionRecord} :
    RedbStore.version C name number t = .ok (some v) ↔ versionAt C t (versionKey name number) = some v := lookup_eq_ok

theorem currentVersion_eq_ok {s : SecretRecord} {v : VersionRecord} :
    RedbStore.currentVersion C name t = .ok (some (s, v)) ↔
      secretAt C t name = some s ∧ versionAt C t (versionKey name s.currentVersion) = some v := by
  rw [← secret_eq_ok, ← version_eq_ok]
  unfold RedbStore.currentVersion
  cases RedbStore.secret C name t with
  | error e => simp
  | ok found =>
      cases found with
      | none => simp
      | some secret =>
          simp only [Except.ok.injEq, Option.some.injEq]
          constructor
          · intro h
            split at h
            · cases h
            · cases h
            · next hv =>
                cases h
                exact ⟨rfl, hv⟩
          · rintro ⟨rfl, hv⟩
            rw [hv]

/-- Superseding a row that holds an unexpired record gives that record its expiry. -/
theorem supersede_eq {expiry : Int64} {versions : Table String Bytes}
    {prev : VersionRecord} (hprev : recordAt C.version versions (versionKey name expectedCurrent) = some prev)
    (hnone : prev.expiresAt = none) :
    supersede C name expectedCurrent (some expiry) versions = .ok (versions.insert (versionKey name expectedCurrent)
      (C.version.encode { prev with expiresAt := some expiry })) := by
  obtain ⟨bytes, hget, hdec⟩ := get_of_recordAt hprev
  unfold supersede
  simp only [hget, decodeRow, hdec, hnone, if_true]

/-- A row other than that of the superseded version stays, and so does that one where it has an expiry. -/
theorem get_supersede_of_not {expiry : Option Int64}
    {versions versions' : Table String Bytes} (hok : supersede C name expectedCurrent expiry versions = .ok versions')
    {key : String} (h : ¬ (key = versionKey name expectedCurrent ∧ expiry.isSome ∧
      ∃ prev, recordAt C.version versions (versionKey name expectedCurrent) = some prev ∧ prev.expiresAt = none)) :
    versions'.get key = versions.get key := by
  unfold supersede at hok
  split at hok
  · cases hok
    rfl
  · split at hok
    · cases hok
      rfl
    · rename_i value hget
      split at hok
      · cases hok
      · rename_i prev hdec
        split_ifs at hok with hnone
        · cases hok
          refine Table.get_insert_of_ne _ _ fun hkey => h ⟨hkey.symm, rfl, prev, ?_, hnone⟩
          exact recordAt_of_get hget (decodeRow_ok.mp hdec)
        · cases hok
          rfl

theorem mem_ownVersionKeys_iff {name key : String} {versions : Table String Bytes} :
    key ∈ ownVersionKeys name versions ↔ (versions.get key).isSome ∧ (versionFromKey name key).isSome := by
  unfold ownVersionKeys
  rw [List.mem_filter, Table.mem_keys]
  refine and_congr_right fun _ => ?_
  simp only [Bool.and_eq_true, decide_eq_true_eq]
  refine and_iff_right_of_imp fun hown => ?_
  obtain ⟨version, hversion⟩ := Option.isSome_iff_exists.mp hown
  obtain ⟨rfl, -⟩ := eq_versionKey_of_versionFromKey hversion
  exact ⟨versionLower_le name version, versionKey_lt_versionUpper name version⟩

/-! What the commands do where their checks pass. -/

theorem checkSecretRow_eq {number : Int32} (hname : isValidSecretName name = true)
    (hnumber : 1 ≤ number) : checkSecretRow name number = .ok () := by
  have hversion : isValidSecretVersion number = true := decide_eq_true hnumber
  simp [checkSecretRow, checkSecretName, hname, hversion]

theorem createSecret_eq {secret : SecretRecord} {version : VersionRecord}
    (hname : isValidSecretName secret.name = true) (hnumber : 1 ≤ version.version)
    (hfresh : t.secrets.get secret.name = none) :
    createSecret C secret version t = (.ok (), { t with
      secrets := t.secrets.insert secret.name (C.secret.encode secret)
      versions := t.versions.insert (versionKey secret.name version.version) (C.version.encode version) }) := by
  simp only [createSecret, checkSecretRow_eq hname hnumber, hfresh, Option.isSome_none, Bool.false_eq_true, if_false]

theorem updateMeta_eq {secret : SecretRecord}
    (hs : secretAt C t name = some secret) (hcur : secret.currentVersion = expectedCurrent)
    (setDescription : Option String) (setRotationIntervalSecs setGraceSecs : Option Int64)
    (nextRotationAt : NextRotation) (updatedAt : Int64) :
    updateMeta C name expectedCurrent setDescription setRotationIntervalSecs setGraceSecs nextRotationAt
      updatedAt t = (.ok (), { t with secrets := t.secrets.insert name (C.secret.encode
        (applyMeta secret setDescription setRotationIntervalSecs setGraceSecs nextRotationAt updatedAt)) }) := by
  obtain ⟨bytes, hget, hdec⟩ := get_of_recordAt hs
  simp only [updateMeta, hget, decodeRow, hdec, hcur, ne_eq, not_true_eq_false, if_false]

theorem putVersion_eq (version : VersionRecord) {secret : SecretRecord}
    {prev : VersionRecord} {expiry : Int64} (hname : isValidSecretName name = true) (hnumber : 1 ≤ version.version)
    (hs : secretAt C t name = some secret) (hcur : secret.currentVersion = expectedCurrent)
    (hne : versionKey name version.version ≠ versionKey name expectedCurrent)
    (hprev : versionAt C t (versionKey name expectedCurrent) = some prev) (hnone : prev.expiresAt = none)
    (setDescription : Option String) (setRotationIntervalSecs setGraceSecs : Option Int64)
    (nextRotationAt : NextRotation) (updatedAt : Int64) :
    putVersion C name expectedCurrent version (some expiry) setDescription setRotationIntervalSecs setGraceSecs
      nextRotationAt updatedAt t = (.ok (), { t with
        secrets := t.secrets.insert name (C.secret.encode (applyMeta { secret with currentVersion := version.version }
          setDescription setRotationIntervalSecs setGraceSecs nextRotationAt updatedAt))
        versions := (t.versions.insert (versionKey name version.version) (C.version.encode version)).insert
          (versionKey name expectedCurrent) (C.version.encode { prev with expiresAt := some expiry }) }) := by
  obtain ⟨bytes, hget, hdec⟩ := get_of_recordAt hs
  have hprev' : recordAt C.version (t.versions.insert (versionKey name version.version) (C.version.encode version))
      (versionKey name expectedCurrent) = some prev := by
    rw [recordAt_insert_of_ne _ hne]
    exact hprev
  simp only [putVersion, checkSecretRow_eq hname hnumber, hget, decodeRow, hdec, hcur, ne_eq,
    not_true_eq_false, if_false,
    supersede_eq hprev' hnone]

theorem deleteSecret_eq (h : (t.secrets.get name).isSome) :
    deleteSecret name t = (.ok (), { t with
      secrets := t.secrets.remove name
      versions := t.versions.removeAll (ownVersionKeys name t.versions) }) := by
  have hnone : (t.secrets.get name).isNone = false := by simp [h]
  simp only [deleteSecret, hnone, Bool.false_eq_true, if_false]

theorem rewrapVersion_eq {number : Int32} {v : VersionRecord} (target : Int64)
    (hv : versionAt C t (versionKey name number) = some v) (hold : v.wrappedRotationAt.any (target ≤ ·) = false)
    (kmsKeyId : String) (wrappedDek : Bytes) :
    rewrapVersion C name number kmsKeyId wrappedDek target t = (.ok (), { t with
      versions := t.versions.insert (versionKey name number) (C.version.encode { v with
        kmsKeyId := kmsKeyId, wrappedDek := wrappedDek, wrappedRotationAt := some target }) }) := by
  obtain ⟨bytes, hget, hdec⟩ := get_of_recordAt hv
  simp only [rewrapVersion, hget, decodeRow, hdec, hold, Bool.false_eq_true, if_false]

end SecretsVersions

end HyperionVault
