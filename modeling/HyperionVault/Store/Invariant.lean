import HyperionVault.Lib.Run
import HyperionVault.Store.Json
import HyperionVault.Store.Rows

/-!
# The secret and version tables belong together

`SecretInv` ties the two tables: a secret's current version is there and unexpired, and every version
row belongs to a secret, lies at or below its current version and has an expiry when it is below. Every
command the service issues keeps it, whatever its caller had read before.

* `Command.Issued` : the commands as the service builds them;
* `SecretInv` : the invariant;
* `createSecret_inv`, `putVersion_inv`, ... : the commands on secrets and versions, one by one;
* `store_invariant` : every state a run of issued commands reaches.
-/

namespace HyperionVault
open Lib

/-- The commands as the service builds them: version numbers start at 1 and go up by one, a new version
has no expiry and its own associated data, and superseding one always sets an expiry. -/
def Command.Issued : Command → Prop
  | .createSecret secret version =>
      secret.currentVersion = 1 ∧ version.version = 1 ∧ version.expiresAt = none ∧
        version.aad = aadFor secret.name 1
  | .putVersion name expectedCurrent version supersedeExpiresAt _ _ _ _ _ =>
      version.version = expectedCurrent + 1 ∧ version.expiresAt = none ∧
        version.aad = aadFor name version.version ∧ supersedeExpiresAt.isSome
  | .restoreDatabase _ => False
  | _ => True

/-- What a version row under `key` is: a version of a secret that exists. -/
def OwnedVersion (C : Codec) (t : Tables) (key : String) (v : VersionRecord) : Prop :=
  ∃ name s, key = versionKey name v.version ∧ secretAt C t name = some s ∧ 1 ≤ v.version ∧
    v.version ≤ s.currentVersion ∧ v.aad = aadFor name v.version ∧
    (v.version < s.currentVersion → v.expiresAt.isSome)

structure SecretInv (C : Codec) (t : Tables) : Prop where
  secrets_decode : Decodes C.secret t.secrets
  versions_decode : Decodes C.version t.versions
  named : ∀ key s, secretAt C t key = some s → s.name = key
  valid : ∀ key s, secretAt C t key = some s → isValidSecretName key = true ∧ 1 ≤ s.currentVersion
  current : ∀ key s, secretAt C t key = some s →
    ∃ v, versionAt C t (versionKey key s.currentVersion) = some v ∧ v.expiresAt = none
  owned : ∀ key v, versionAt C t key = some v → OwnedVersion C t key v

section Steps
variable {C : Codec} {t t' : Tables}

theorem secretInv_empty : SecretInv C .empty where
  secrets_decode := decodes_empty
  versions_decode := decodes_empty
  named := by intro key s h; cases h
  valid := by intro key s h; cases h
  current := by intro key s h; cases h
  owned := by intro key v h; cases h

theorem toInt_nonneg_of_one_le {v : Int32} (h : 1 ≤ v) : 0 ≤ v.toInt := by
  rw [Int32.le_iff_toInt_le] at h
  exact le_trans (by decide) h

/-- A key that versions are stored under belongs to one version of one secret. -/
theorem eq_of_versionKey_eq {a b : String} {v w : Int32} (ha : isValidSecretName a = true)
    (hb : isValidSecretName b = true) (hv : 1 ≤ v) (hw : 1 ≤ w) (h : versionKey a v = versionKey b w) :
    a = b ∧ v = w :=
  versionKey_inj (nul_notMem_of_isValidSecretName ha) (nul_notMem_of_isValidSecretName hb)
    (toInt_nonneg_of_one_le hv) (toInt_nonneg_of_one_le hw) h

/-- Keys of versions of different secrets differ. -/
theorem versionKey_ne_of_name_ne {a b : String} {v w : Int32} (ha : isValidSecretName a = true)
    (hb : isValidSecretName b = true) (hv : 1 ≤ v) (hw : 1 ≤ w) (h : a ≠ b) : versionKey a v ≠ versionKey b w :=
  fun he => h (eq_of_versionKey_eq ha hb hv hw he).1

theorem versionKey_ne_of_version_ne {a : String} {v w : Int32} (ha : isValidSecretName a = true) (hv : 1 ≤ v)
    (hw : 1 ≤ w) (h : v ≠ w) : versionKey a v ≠ versionKey a w :=
  fun he => h (eq_of_versionKey_eq ha ha hv hw he).2

/-- The version rows of an invariant state read their own secret from their key. -/
theorem SecretInv.owned_versionKey (h : SecretInv C t) {name : String} {number : Int32} {v : VersionRecord}
    (hname : isValidSecretName name = true) (hnumber : 1 ≤ number)
    (hv : versionAt C t (versionKey name number) = some v) :
    v.version = number ∧ ∃ s, secretAt C t name = some s ∧ number ≤ s.currentVersion ∧
      v.aad = aadFor name number ∧ (number < s.currentVersion → v.expiresAt.isSome) := by
  obtain ⟨owner, s, hkey, hs, hone, hle, haad, hexp⟩ := h.owned _ v hv
  have hvalid := (h.valid owner s hs).1
  obtain ⟨rfl, rfl⟩ := eq_of_versionKey_eq hname hvalid hnumber hone hkey
  exact ⟨rfl, s, hs, hle, haad, hexp⟩

theorem createSecret_inv (h : SecretInv C t) {secret : SecretRecord} {version : VersionRecord}
    (hi : (Command.createSecret secret version).Issued)
    (hok : createSecret C secret version t = (.ok (), t')) : SecretInv C t' := by
  obtain ⟨hcur, hver, hexp, haad⟩ := hi
  obtain ⟨⟨hname, _⟩, hfresh, rfl⟩ := createSecret_ok hok
  have hone : (1 : Int32) ≤ 1 := le_refl _
  -- a secret that was there has another name, so its record and its current version are untouched
  have hne : ∀ key s, secretAt C t key = some s → secret.name ≠ key := by
    intro key s hs he
    obtain ⟨bytes, hget, _⟩ := get_of_recordAt hs
    rw [← he, hfresh] at hget
    cases hget
  refine ⟨decodes_insert h.secrets_decode _ _, decodes_insert h.versions_decode _ _, forall_recordAt_insert h.named rfl,
    forall_recordAt_insert h.valid ⟨hname, hcur ▸ hone⟩, ?_, ?_⟩
  · intro key s hs
    rw [secretAt, recordAt_insert] at hs
    split_ifs at hs with hk
    · cases hs
      refine ⟨version, ?_, hexp⟩
      rw [versionAt, ← hk, hcur, hver, recordAt_insert_self]
    · obtain ⟨v, hv, hnone⟩ := h.current key s hs
      refine ⟨v, ?_, hnone⟩
      rw [versionAt, recordAt_insert_of_ne _ (versionKey_ne_of_name_ne hname (h.valid key s hs).1
        (hver ▸ hone) (h.valid key s hs).2 hk)]
      exact hv
  · intro key v hv
    rw [versionAt, recordAt_insert] at hv
    split_ifs at hv with hk
    · cases hv
      refine ⟨secret.name, secret, hk.symm, recordAt_insert_self _ _, hver ▸ hone, ?_, hver ▸ haad, ?_⟩
      · rw [hver, hcur]
      · intro hlt
        rw [hver, hcur] at hlt
        exact absurd hlt (lt_irrefl _)
    · obtain ⟨name, s, hkey, hs, hrest⟩ := h.owned key v hv
      refine ⟨name, s, hkey, ?_, hrest⟩
      rw [secretAt, recordAt_insert_of_ne _ (hne name s hs)]
      exact hs

/-- The number a new version gets is the successor of a current version, so it has no row yet. -/
theorem putVersion_fresh (h : SecretInv C t) {name : String} {secret : SecretRecord} {number : Int32}
    (hs : secretAt C t name = some secret) (hnumber : number = secret.currentVersion + 1) (hone : 1 ≤ number) :
    t.versions.get (versionKey name number) = none := by
  by_contra hsome
  obtain ⟨v, hv⟩ := recordAt_isSome h.versions_decode (Option.isSome_iff_ne_none.mpr hsome)
  obtain ⟨_, s, hs', hle, _⟩ := h.owned_versionKey (h.valid name secret hs).1 hone hv
  rw [hs] at hs'
  cases hs'
  subst hnumber
  rw [Int32.le_iff_toInt_le, toInt_succ_of_pos hone] at hle
  omega

theorem lt_succ_of_pos {a : Int32} (h : 1 ≤ a + 1) : a < a + 1 := by
  rw [Int32.lt_iff_toInt_lt, toInt_succ_of_pos h]
  omega

/-- A secret that moves on to its next version, the version before it expiring. -/
theorem advance_inv (h : SecretInv C t) {name : String} {secret next : SecretRecord} {version prev : VersionRecord}
    (expiry : Int64) (hs : secretAt C t name = some secret) (hnextName : next.name = secret.name)
    (hnext : next.currentVersion = version.version) (hver : version.version = secret.currentVersion + 1)
    (hone : 1 ≤ version.version) (hexp : version.expiresAt = none) (haad : version.aad = aadFor name version.version)
    (hprev : versionAt C t (versionKey name secret.currentVersion) = some prev) :
    SecretInv C { t with
      versions := (t.versions.insert (versionKey name version.version) (C.version.encode version)).insert
        (versionKey name secret.currentVersion) (C.version.encode { prev with expiresAt := some expiry })
      secrets := t.secrets.insert name (C.secret.encode next) } := by
  obtain ⟨hname, hcurpos⟩ := h.valid name secret hs
  have hlt : secret.currentVersion < version.version := hver ▸ lt_succ_of_pos (hver ▸ hone)
  have hne : versionKey name secret.currentVersion ≠ versionKey name version.version :=
    versionKey_ne_of_version_ne hname hcurpos hone hlt.ne
  refine ⟨decodes_insert h.secrets_decode _ _, decodes_insert (decodes_insert h.versions_decode _ _) _ _,
    forall_recordAt_insert h.named (hnextName.trans (h.named name secret hs)),
    forall_recordAt_insert h.valid ⟨hname, hnext ▸ hone⟩, ?_, ?_⟩
  · intro key s hs'
    rw [secretAt, recordAt_insert] at hs'
    split_ifs at hs' with hk
    · cases hs'
      subst hk
      refine ⟨version, ?_, hexp⟩
      rw [hnext, versionAt, recordAt_insert_of_ne _ hne, recordAt_insert_self]
    · obtain ⟨v, hv, hnone⟩ := h.current key s hs'
      obtain ⟨hkey, hpos⟩ := h.valid key s hs'
      refine ⟨v, ?_, hnone⟩
      rw [versionAt, recordAt_insert_of_ne _ (versionKey_ne_of_name_ne hname hkey hcurpos hpos hk),
        recordAt_insert_of_ne _ (versionKey_ne_of_name_ne hname hkey hone hpos hk)]
      exact hv
  · intro key v hv
    rw [versionAt, recordAt_insert] at hv
    split_ifs at hv with hk
    · -- the superseded version
      cases hv
      obtain ⟨hnumber, _, _, _, hprevAad, _⟩ := h.owned_versionKey hname hcurpos hprev
      refine ⟨name, next, ?_, recordAt_insert_self _ _, ?_, ?_, ?_, fun _ => rfl⟩
      · rw [← hk, ← hnumber]
      · exact hnumber ▸ hcurpos
      · rw [hnext]
        exact hnumber ▸ hlt.le
      · exact hnumber ▸ hprevAad
    · rw [recordAt_insert] at hv
      split_ifs at hv with hk'
      · -- the new version
        cases hv
        exact ⟨name, next, hk'.symm, recordAt_insert_self _ _, hone, hnext.ge, haad,
          fun hlt' => absurd hlt' (hnext ▸ lt_irrefl _)⟩
      · obtain ⟨owner, s, hkey, hs', hpos, hle, hvaad, hvexp⟩ := h.owned key v hv
        by_cases howner : name = owner
        · -- an older version of the same secret
          subst howner
          rw [hs] at hs'
          cases hs'
          have hlt' : v.version < secret.currentVersion := lt_of_le_of_ne hle fun he => hk (he ▸ hkey.symm)
          refine ⟨name, next, hkey, recordAt_insert_self _ _, hpos, ?_, hvaad, fun _ => hvexp hlt'⟩
          rw [hnext]
          exact hle.trans hlt.le
        · refine ⟨owner, s, hkey, ?_, hpos, hle, hvaad, hvexp⟩
          rw [secretAt, recordAt_insert_of_ne _ howner]
          exact hs'

section NewVersion
variable (h : SecretInv C t) {name : String} {expectedCurrent : Int32} {version : VersionRecord}
  {supersedeExpiresAt : Option Int64} {setDescription : Option String}
  {setRotationIntervalSecs setGraceSecs : Option Int64} {nextRotationAt : NextRotation} {updatedAt : Int64}
  (hi : (Command.putVersion name expectedCurrent version supersedeExpiresAt setDescription setRotationIntervalSecs
    setGraceSecs nextRotationAt updatedAt).Issued)
  (hok : putVersion C name expectedCurrent version supersedeExpiresAt setDescription setRotationIntervalSecs
    setGraceSecs nextRotationAt updatedAt t = (.ok (), t'))
include h hi hok

/-- The tables after a new version: the secret points to it and the version before has an expiry. -/
theorem putVersion_tables :
    ∃ secret prev expiry, supersedeExpiresAt = some expiry ∧ secretAt C t name = some secret ∧
      secret.currentVersion = expectedCurrent ∧ 1 ≤ version.version ∧
        versionAt C t (versionKey name expectedCurrent) = some prev ∧
      t' = { t with
        versions := (t.versions.insert (versionKey name version.version) (C.version.encode version)).insert
          (versionKey name expectedCurrent) (C.version.encode { prev with expiresAt := some expiry })
        secrets := t.secrets.insert name (C.secret.encode (applyMeta { secret with currentVersion := version.version }
          setDescription setRotationIntervalSecs setGraceSecs nextRotationAt updatedAt)) } := by
  obtain ⟨hver, _, _, hsup⟩ := hi
  obtain ⟨⟨hname, hvalid⟩, value, secret, versions, hget, hdec, rfl, hsuper, rfl⟩ := putVersion_ok hok
  have hs : secretAt C t name = some secret := recordAt_of_get hget hdec
  have hone : 1 ≤ version.version := Int32.le_iff_toInt_le.mpr (one_le_of_isValidSecretVersion hvalid)
  obtain ⟨prev, hprev, hnone⟩ := h.current name secret hs
  obtain ⟨expiry, rfl⟩ := Option.isSome_iff_exists.mp hsup
  have hne : versionKey name version.version ≠ versionKey name secret.currentVersion := by
    apply versionKey_ne_of_version_ne hname hone (h.valid name secret hs).2
    intro he
    have hsucc := toInt_succ_of_pos (hver ▸ hone)
    rw [← hver, he] at hsucc
    omega
  rw [supersede_eq ((recordAt_insert_of_ne _ hne).trans hprev) hnone] at hsuper
  cases hsuper
  exact ⟨secret, prev, expiry, rfl, hs, rfl, hone, hprev, rfl⟩

/-- The records after a new version. -/
theorem putVersion_records :
    ∃ secret prev expiry, supersedeExpiresAt = some expiry ∧ secretAt C t name = some secret ∧
      secret.currentVersion = expectedCurrent ∧ 1 ≤ version.version ∧ expectedCurrent < version.version ∧
      versionKey name expectedCurrent ≠ versionKey name version.version ∧
      versionAt C t (versionKey name expectedCurrent) = some prev ∧
      (∀ n, secretAt C t' n = if name = n then some (applyMeta { secret with currentVersion := version.version }
        setDescription setRotationIntervalSecs setGraceSecs nextRotationAt updatedAt) else secretAt C t n) ∧
      ∀ key, versionAt C t' key =
        if versionKey name expectedCurrent = key then some { prev with expiresAt := some expiry }
        else if versionKey name version.version = key then some version else versionAt C t key := by
  obtain ⟨secret, prev, expiry, hexp, hs, rfl, hone, hprev, rfl⟩ := putVersion_tables h hi hok
  have hlt : secret.currentVersion < version.version := hi.1 ▸ lt_succ_of_pos (hi.1 ▸ hone)
  obtain ⟨hname, hpos⟩ := h.valid name secret hs
  refine ⟨secret, prev, expiry, hexp, hs, rfl, hone, hlt, versionKey_ne_of_version_ne hname hpos hone hlt.ne, hprev,
    ?_, ?_⟩
  · intro n
    rw [secretAt, recordAt_insert]
    rfl
  · intro key
    rw [versionAt, recordAt_insert, recordAt_insert]
    rfl

theorem putVersion_inv : SecretInv C t' := by
  obtain ⟨secret, prev, expiry, _, hs, rfl, hone, hprev, rfl⟩ := putVersion_tables h hi hok
  obtain ⟨hver, hexp, haad, _⟩ := hi
  exact advance_inv h expiry hs (by rw [applyMeta_eq]) (by rw [applyMeta_eq]) hver hone hexp haad hprev

end NewVersion

theorem updateMeta_inv (h : SecretInv C t) {name : String} {expectedCurrent : Int32} {setDescription : Option String}
    {setRotationIntervalSecs setGraceSecs : Option Int64} {nextRotationAt : NextRotation} {updatedAt : Int64}
    (hok : updateMeta C name expectedCurrent setDescription setRotationIntervalSecs setGraceSecs nextRotationAt
      updatedAt t = (.ok (), t')) : SecretInv C t' := by
  obtain ⟨value, secret, hget, hdec, rfl, rfl⟩ := updateMeta_ok hok
  have hs : secretAt C t name = some secret := recordAt_of_get hget hdec
  rw [applyMeta_eq]
  refine ⟨decodes_insert h.secrets_decode _ _, h.versions_decode, forall_recordAt_insert h.named (h.named name secret hs),
    forall_recordAt_insert h.valid (h.valid name secret hs),
    forall_recordAt_insert h.current (h.current name secret hs), fun key v hv => ?_⟩
  obtain ⟨owner, s, hkey, hs', hrest⟩ := h.owned key v hv
  by_cases howner : name = owner
  · subst howner
    rw [hs] at hs'
    cases hs'
    exact ⟨name, _, hkey, recordAt_insert_self _ _, hrest⟩
  · refine ⟨owner, s, hkey, ?_, hrest⟩
    rw [secretAt, recordAt_insert_of_ne _ howner]
    exact hs'

/-- The scan of a deletion finds the version rows of its own secret and no others. -/
theorem mem_ownVersionKeys {name owner : String} {number : Int32} {versions : Table String Bytes}
    (howner : isValidSecretName owner = true) (hpos : 1 ≤ number)
    (hrow : (versions.get (versionKey owner number)).isSome) :
    versionKey owner number ∈ ownVersionKeys name versions ↔ owner = name := by
  have hnul := nul_notMem_of_isValidSecretName howner
  have hnonneg := toInt_nonneg_of_one_le hpos
  rw [mem_ownVersionKeys_iff, and_iff_right hrow]
  constructor
  · intro hkey
    obtain ⟨v, hv⟩ := Option.isSome_iff_exists.mp hkey
    exact (eq_of_versionFromKey hnul hnonneg hv).1
  · rintro rfl
    rw [versionFromKey_versionKey hnul hnonneg]
    rfl

theorem deleteSecret_inv (h : SecretInv C t) {name : String} (hok : deleteSecret name t = (.ok (), t')) :
    SecretInv C t' := by
  obtain ⟨_, rfl⟩ := deleteSecret_ok hok
  refine ⟨decodes_remove h.secrets_decode _, decodes_removeAll h.versions_decode _, ?_, ?_, ?_, ?_⟩
  · intro key s hs
    rw [secretAt, recordAt_remove] at hs
    split_ifs at hs
    exact h.named key s hs
  · intro key s hs
    rw [secretAt, recordAt_remove] at hs
    split_ifs at hs
    exact h.valid key s hs
  · intro key s hs
    rw [secretAt, recordAt_remove] at hs
    split_ifs at hs with hk
    obtain ⟨v, hv, hnone⟩ := h.current key s hs
    obtain ⟨hkey, hpos⟩ := h.valid key s hs
    obtain ⟨bytes, hget, _⟩ := get_of_recordAt hv
    refine ⟨v, ?_, hnone⟩
    rw [versionAt, recordAt_removeAll, if_neg]
    · exact hv
    · rw [mem_ownVersionKeys hkey hpos (hget ▸ rfl)]
      exact Ne.symm hk
  · intro key v hv
    rw [versionAt, recordAt_removeAll] at hv
    split_ifs at hv with hmem
    obtain ⟨owner, s, rfl, hs, hpos, hrest⟩ := h.owned key v hv
    obtain ⟨bytes, hget, _⟩ := get_of_recordAt hv
    rw [mem_ownVersionKeys (h.valid owner s hs).1 hpos (hget ▸ rfl)] at hmem
    refine ⟨owner, s, rfl, ?_, hpos, hrest⟩
    rw [secretAt, recordAt_remove, if_neg (Ne.symm hmem)]
    exact hs

/-- A row that a sweep removes holds a record with an expiry. -/
theorem expiresAt_of_mem_expired {now : Int64} {expired : List String}
    (he : expiredKeys C now t.versions.rows = .ok expired) {key : String} (hkey : key ∈ expired) {v : VersionRecord}
    (hv : versionAt C t key = some v) : v.expiresAt.isSome := by
  obtain ⟨value, record, hmem, hdec, hany⟩ := (mem_expiredKeys he).mp hkey
  have hrecord : versionAt C t key = some record := recordAt_of_get (Table.mem_rows.mp hmem) hdec
  rw [hv] at hrecord
  cases hrecord
  cases hexp : v.expiresAt with
  | none =>
      rw [hexp] at hany
      cases hany
  | some expiry => rfl

theorem expireGraceVersions_inv (h : SecretInv C t) {now : Int64}
    (hok : expireGraceVersions C now t = (.ok (), t')) : SecretInv C t' := by
  obtain ⟨expired, he, rfl⟩ := expireGraceVersions_ok hok
  refine ⟨h.secrets_decode, decodes_removeAll h.versions_decode _, h.named, h.valid, ?_, ?_⟩
  · intro key s hs
    obtain ⟨v, hv, hnone⟩ := h.current key s hs
    refine ⟨v, ?_, hnone⟩
    rw [versionAt, recordAt_removeAll, if_neg]
    · exact hv
    · intro hmem
      have hsome := expiresAt_of_mem_expired he hmem hv
      rw [hnone] at hsome
      cases hsome
  · intro key v hv
    rw [versionAt, recordAt_removeAll] at hv
    split_ifs at hv
    exact h.owned key v hv

/-- Exchanging a version row for one with the same number, associated data and expiry. -/
theorem replaceVersion_inv (h : SecretInv C t) {key : String} {record record' : VersionRecord}
    (hrecord : versionAt C t key = some record) (hversion : record'.version = record.version)
    (haad : record'.aad = record.aad) (hexp : record'.expiresAt = record.expiresAt) :
    SecretInv C { t with versions := t.versions.insert key (C.version.encode record') } := by
  refine ⟨h.secrets_decode, decodes_insert h.versions_decode _ _, h.named, h.valid, ?_, ?_⟩
  · intro name s hs
    obtain ⟨v, hv, hnone⟩ := h.current name s hs
    by_cases hk : key = versionKey name s.currentVersion
    · subst hk
      rw [hrecord] at hv
      cases hv
      exact ⟨record', recordAt_insert_self _ _, hexp.trans hnone⟩
    · refine ⟨v, ?_, hnone⟩
      rw [versionAt, recordAt_insert_of_ne _ hk]
      exact hv
  · intro key' v hv
    rw [versionAt, recordAt_insert] at hv
    split_ifs at hv with hk
    · cases hv
      subst hk
      obtain ⟨owner, s, hkey, hs, hpos, hle, hvaad, hvexp⟩ := h.owned _ record hrecord
      refine ⟨owner, s, ?_, hs, ?_, ?_, ?_, ?_⟩
      · rw [hversion]
        exact hkey
      · rw [hversion]
        exact hpos
      · rw [hversion]
        exact hle
      · rw [hversion, haad]
        exact hvaad
      · rw [hversion, hexp]
        exact hvexp
    · exact h.owned key' v hv

theorem rewrapVersion_inv (h : SecretInv C t) {name : String} {version : Int32} {kmsKeyId : String}
    {wrappedDek : Bytes} {wrappedRotationAt : Int64}
    (hok : rewrapVersion C name version kmsKeyId wrappedDek wrappedRotationAt t = (.ok (), t')) :
    SecretInv C t' := by
  rcases rewrapVersion_ok hok with rfl | ⟨value, record, hget, hdec, _, rfl⟩
  · exact h
  · exact replaceVersion_inv h (recordAt_of_get hget hdec) rfl rfl rfl

theorem secretInv_congr (h : SecretInv C t) (hs : t'.secrets = t.secrets) (hv : t'.versions = t.versions) :
    SecretInv C t' := by
  have hsecretAt : secretAt C t' = secretAt C t := by
    funext name
    rw [secretAt, secretAt, hs]
  have hversionAt : versionAt C t' = versionAt C t := by
    funext key
    rw [versionAt, versionAt, hv]
  refine ⟨hs ▸ h.secrets_decode, hv ▸ h.versions_decode, ?_, ?_, ?_, ?_⟩
  · rw [hsecretAt]
    exact h.named
  · rw [hsecretAt]
    exact h.valid
  · rw [hsecretAt, hversionAt]
    exact h.current
  · unfold OwnedVersion
    rw [hsecretAt, hversionAt]
    exact h.owned

/-- Every issued command keeps the invariant. -/
theorem applyCommand_inv (h : SecretInv C t) {nodeId : Nat} {command : Command} (hi : command.Issued)
    (hok : applyCommand C nodeId command t = (.ok (), t')) : SecretInv C t' := by
  have hframe : command.keepsSecrets = true → SecretInv C t' := by
    intro hkeep
    have hf := @applyCommand_frame C nodeId _ hkeep t
    rw [hok] at hf
    exact secretInv_congr h hf.1 hf.2
  cases command with
  | createSecret => exact createSecret_inv h hi hok
  | putVersion => exact putVersion_inv h hi hok
  | updateMeta => exact updateMeta_inv h hok
  | deleteSecret => exact deleteSecret_inv h hok
  | expireGraceVersions => exact expireGraceVersions_inv h hok
  | rewrapVersion => exact rewrapVersion_inv h hok
  | restoreDatabase => exact hi.elim
  | _ => exact hframe rfl

theorem redbStore_apply_inv (h : SecretInv C t) (nodeId : Nat) {command : Command} (hi : command.Issued) :
    SecretInv C (RedbStore.apply C nodeId command t).2 := by
  unfold RedbStore.apply
  cases hr : applyCommand C nodeId command t with
  | mk outcome t' =>
      cases outcome with
      | ok u => exact applyCommand_inv h hi hr
      | error e => exact h

/-- The records of a scan come from its rows. -/
theorem liveRows_spec {name : String} {now : Int64} {rows : List (String × Bytes)} {out : List VersionRecord}
    (h : RedbStore.liveRows C name now rows = .ok out) {v : VersionRecord} (hv : v ∈ out) :
    ∃ key value, (key, value) ∈ rows ∧ (versionFromKey name key).isSome ∧ C.version.decode value = some v := by
  induction rows generalizing out with
  | nil =>
      cases h
      cases hv
  | cons row rest ih =>
      obtain ⟨key, value⟩ := row
      unfold RedbStore.liveRows at h
      split_ifs at h with hkey
      · obtain ⟨key', value', hmem, hrow⟩ := ih h hv
        exact ⟨key', value', List.mem_cons_of_mem _ hmem, hrow⟩
      · cases hdec : decodeRow C.version value with
        | error e =>
            rw [hdec] at h
            cases h
        | ok record =>
            cases hrest : RedbStore.liveRows C name now rest with
            | error e =>
                simp only [hdec, hrest] at h
                cases h
            | ok out' =>
                simp only [hdec, hrest, Except.ok.injEq] at h
                have hcases : v = record ∨ v ∈ out' := by
                  rw [← h] at hv
                  split_ifs at hv
                  · exact List.mem_cons.mp hv
                  · exact Or.inr hv
                rcases hcases with rfl | hmem
                · refine ⟨key, value, List.mem_cons_self, ?_, decodeRow_ok.mp hdec⟩
                  exact Option.isSome_iff_ne_none.mpr fun hnone => hkey (Option.isNone_iff_eq_none.mpr hnone)
                · obtain ⟨key', value', hmem', hrow⟩ := ih hrest hmem
                  exact ⟨key', value', List.mem_cons_of_mem _ hmem', hrow⟩

/-- A live record is the one of a row in the scan range of the name. -/
theorem liveVersions_row {name : String} {now : Int64} {out : List VersionRecord}
    (hlive : RedbStore.liveVersions C name now t = .ok out) {v : VersionRecord} (hv : v ∈ out) :
    ∃ number, versionAt C t (versionKey name number) = some v := by
  unfold RedbStore.liveVersions at hlive
  split at hlive
  · cases hlive
  · next records hrows =>
      cases hlive
      obtain ⟨key, value, hmem, hkey, hdec⟩ := liveRows_spec hrows (List.mem_mergeSort.mp hv)
      obtain ⟨number, hnumber⟩ := Option.isSome_iff_exists.mp hkey
      obtain ⟨rfl, _⟩ := eq_versionKey_of_versionFromKey hnumber
      exact ⟨number, recordAt_of_get (Table.mem_rows.mp (List.mem_of_mem_filter hmem)) hdec⟩

end Steps

/-- In every state that issued commands reach from the empty store, in any order and computed from any
reads, secrets and versions belong together; a new version that is accepted is written under a key that
had no row, and every secret has its current version. -/
theorem store_invariant (C : Codec) (nodeId : Nat) (commands : List Command)
    (hissued : ∀ command ∈ commands, command.Issued) :
    SecretInv C (run (storeStep C nodeId) .empty commands) ∧
    (∀ name expectedCurrent version supersedeExpiresAt setDescription setRotationIntervalSecs setGraceSecs
        nextRotationAt updatedAt,
      (Command.putVersion name expectedCurrent version supersedeExpiresAt setDescription setRotationIntervalSecs
        setGraceSecs nextRotationAt updatedAt).Issued →
      (RedbStore.apply C nodeId (.putVersion name expectedCurrent version supersedeExpiresAt setDescription
        setRotationIntervalSecs setGraceSecs nextRotationAt updatedAt)
        (run (storeStep C nodeId) .empty commands)).1 = .ok () →
      (run (storeStep C nodeId) .empty commands).versions.get (versionKey name version.version) = none) ∧
    (∀ name s, RedbStore.secret C name (run (storeStep C nodeId) .empty commands) = .ok (some s) →
      ∃ v, RedbStore.currentVersion C name (run (storeStep C nodeId) .empty commands) = .ok (some (s, v)) ∧
        v.version = s.currentVersion ∧ v.expiresAt = none) := by
  have hsteps : AllSteps (storeStep C nodeId) (fun _ command => command.Issued) .empty commands :=
    allSteps_of_forall hissued
  have hinv : SecretInv C (run (storeStep C nodeId) .empty commands) :=
    run_inv_of_allSteps (I := SecretInv C) (fun _ _ ht hc => redbStore_apply_inv ht nodeId hc) secretInv_empty hsteps
  refine ⟨hinv, ?_, ?_⟩
  · intro name expectedCurrent version supersedeExpiresAt setDescription setRotationIntervalSecs setGraceSecs
      nextRotationAt updatedAt hi hok
    obtain ⟨t', ht'⟩ := redbStore_apply_ok hok
    obtain ⟨secret, _, _, _, hs, rfl, hone, _⟩ := putVersion_tables hinv hi ht'
    exact putVersion_fresh hinv hs hi.1 hone
  · intro name s hs
    have hsecret := secret_eq_ok.mp hs
    obtain ⟨v, hv, hnone⟩ := hinv.current name s hsecret
    refine ⟨v, ?_, ?_, hnone⟩
    · unfold RedbStore.currentVersion
      rw [hs]
      simp only [version_eq_ok.mpr hv]
    · exact (hinv.owned_versionKey (hinv.valid name s hsecret).1 (hinv.valid name s hsecret).2 hv).1

/-- A secret is created, gets a second version, is swept, deleted and created again. -/
def lifeOfSecret : List Command :=
  [.createSecret (secretNamed "a") (versionOf "a" 1),
   .putVersion "a" 1 (versionOf "a" 2) (some 60) none none none .keep 0,
   .expireGraceVersions 100, .deleteSecret "a", .createSecret (secretNamed "a") (versionOf "a" 1)]

theorem lifeOfSecret_invariant :
    (∀ command ∈ lifeOfSecret, command.Issued) ∧
      SecretInv jsonCodec (run (storeStep jsonCodec 1) .empty lifeOfSecret) := by
  have hissued : ∀ command ∈ lifeOfSecret, command.Issued := by
    simp [lifeOfSecret, Command.Issued, secretNamed, versionOf]
  exact ⟨hissued, (store_invariant jsonCodec 1 lifeOfSecret hissued).1⟩

end HyperionVault
