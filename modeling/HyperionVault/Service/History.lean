import HyperionVault.Service.Prepared
import HyperionVault.Store.Areas

/-!
# The store agrees with what was sealed

`VaultInv` ties the tables to the history of the run: every version row is related to what was sealed for it
in the present incarnation of its name. Which relation that is stays open (`RowRel`): every operation of the
service keeps it, re-wraps apart, and the history only grows (`Later`).

* `Later` : the preorder of a run;
* `RowRel`, `VaultInv` : the relation of rows to their sealings, and the invariant;
* `World.Start`, `vault_start` : an empty store;
* `commit_cases`, `commit_of` : a submitted command changes nothing or is committed;
* `vault_create`, `vault_putVersion`, ... , `vault_perform` : the operations, one by one and together.
-/

namespace HyperionVault
open Lib

/-- The history of a run only grows. -/
structure Later (w w' : World) : Prop where
  sealings : ∀ name inc number x, w.sealings name inc number = some x → w'.sealings name inc number = some x
  accepted : ∀ y ∈ w.accepted, y ∈ w'.accepted
  incarnation : ∀ name, w.incarnation name ≤ w'.incarnation name

instance : IsPreorder World Later where
  refl _ := ⟨fun _ _ _ _ h => h, fun _ h => h, fun _ => Nat.le_refl _⟩
  trans _ _ _ h h' := ⟨fun name inc number x hx => h'.sealings name inc number x (h.sealings name inc number x hx),
    fun y hy => h'.accepted y (h.accepted y hy), fun name => (h.incarnation name).trans (h'.incarnation name)⟩

/-- What a version row has to do with its sealing: it holds of the row as it is sealed and does not depend on
the expiry. -/
structure RowRel (A : AppState) where
  rel : String → Int32 → VersionRecord → Sealing → Prop
  sealed : ∀ {name number x}, x.Valid A name number → rel name number x.record x
  superseded : ∀ {name number v x} (expiry : Option Int64), rel name number v x →
    rel name number { v with expiresAt := expiry } x

structure VaultInv (A : AppState) (S : RowRel A) (w : World) : Prop where
  store : SecretInv A.codec w.tables
  sealed : ∀ name inc number x, w.sealings name inc number = some x → x.Valid A name number
  row : ∀ name number v, isValidSecretName name = true → 1 ≤ number →
    versionAt A.codec w.tables (versionKey name number) = some v →
    ∃ x, w.sealings name (w.incarnation name) number = some x ∧ S.rel name number v x
  fresh : ∀ name number x, w.sealings name (w.incarnation name) number = some x →
    ∃ s, secretAt A.codec w.tables name = some s ∧ number ≤ s.currentVersion
  past : ∀ name inc number x, w.sealings name inc number = some x → inc ≤ w.incarnation name

/-- No secret is stored, and nothing has been sealed yet. -/
structure World.Start (w : World) : Prop where
  secrets : w.tables.secrets = .empty
  versions : w.tables.versions = .empty
  sealings : ∀ name inc number, w.sealings name inc number = none

theorem vault_start {A : AppState} {S : RowRel A} {w : World} (h : w.Start) : VaultInv A S w where
  store := secretInv_congr secretInv_empty h.secrets h.versions
  sealed := by
    intro name inc number x hx
    rw [h.sealings] at hx
    cases hx
  row := by
    intro name number v _ _ hv
    rw [versionAt, h.versions, recordAt_empty] at hv
    cases hv
  fresh := by
    intro name number x hx
    rw [h.sealings] at hx
    cases hx
  past := by
    intro name inc number x hx
    rw [h.sealings] at hx
    cases hx

theorem sealings_withSealing (w : World) (name : String) (number : Int32) (sealing : Option Sealing) (n : String)
    (i : Nat) (k : Int32) :
    (w.withSealing name number sealing).sealings n i k =
      if n = name ∧ i = w.incarnation name ∧ k = number then sealing else w.sealings n i k := by
  unfold World.withSealing
  by_cases hn : n = name
  · subst hn
    by_cases hi : i = w.incarnation n
    · subst hi
      by_cases hk : k = number
      · simp [hk]
      · simp [hk]
    · simp [hi]
  · simp [hn]

section Steps
variable {A : AppState} {S : RowRel A} {w : World}

/-- A submitted command changes nothing, or it has succeeded and is in the history. -/
theorem commit_cases (A : AppState) (w : World) (command : Command) (sealing : Option Sealing) :
    w.commit A command sealing = w ∨ ∃ t', applyCommand A.codec A.nodeId command w.tables = (.ok (), t') ∧
      w.commit A command sealing = { w.record command sealing with tables := t' } := by
  unfold World.commit RedbStore.apply
  cases hr : applyCommand A.codec A.nodeId command w.tables with
  | mk outcome t' =>
      cases outcome with
      | error e => exact Or.inl rfl
      | ok u => exact Or.inr ⟨t', rfl, rfl⟩

/-- What holds of a world, and of it after the command succeeded, holds after the command was submitted. -/
theorem commit_of {P : World → Prop} {command : Command} {sealing : Option Sealing} (hw : P w)
    (hcommit : ∀ t', applyCommand A.codec A.nodeId command w.tables = (.ok (), t') →
      P { w.record command sealing with tables := t' }) : P (w.commit A command sealing) := by
  rcases commit_cases A w command sealing with hsame | ⟨t', ht', hdone⟩
  · rw [hsame]
    exact hw
  · rw [hdone]
    exact hcommit t' ht'

/-- An attempt on a target leaves the store and the history of commands alone. -/
theorem perform_attempt_eq (A : AppState) (w : World) (a : Attempt) (name : String) (version : Int32) :
    ∃ passwords accepted, w.perform A (.attempt a name version) =
      { w with passwords := passwords, accepted := accepted, attempts := w.attempts + 1 } := by
  unfold World.perform
  dsimp only
  split_ifs
  · exact ⟨_, _, rfl⟩
  · exact ⟨_, _, rfl⟩

/-- Operations outside of the store leave the tables alone. -/
theorem tables_of_not_submit {op : Op} (hop : ∀ command basis sealing, op ≠ .submit command basis sealing) :
    (w.perform A op).tables = w.tables := by
  cases op with
  | submit command basis sealing => exact absurd rfl (hop command basis sealing)
  | attempt a name version =>
      obtain ⟨_, _, heq⟩ := perform_attempt_eq A w a name version
      rw [heq]
  | _ => rfl

/-- A command of another area leaves the state of the passes alone. -/
theorem kmsRewrap_commit {command : Command} {sealing : Option Sealing} (harea : command.area ≠ .kmsRewrap)
    (hall : command.area ≠ .everything) : (w.commit A command sealing).tables.kmsRewrap = w.tables.kmsRewrap :=
  commit_of (P := fun w' => w'.tables.kmsRewrap = w.tables.kmsRewrap) rfl fun _ hok =>
    (applyCommand_area hok).same .kmsRewrap harea hall nofun

/-- A change outside of the tables and the history of commands. -/
theorem vault_congr (h : VaultInv A S w) {w' : World} (htables : w'.tables = w.tables)
    (hsealings : w'.sealings = w.sealings) (hinc : w'.incarnation = w.incarnation)
    (hacc : ∀ y ∈ w.accepted, y ∈ w'.accepted) : VaultInv A S w' ∧ Later w w' := by
  refine ⟨⟨?_, ?_, ?_, ?_, ?_⟩, ⟨?_, hacc, ?_⟩⟩
  · rw [htables]
    exact h.store
  · rw [hsealings]
    exact h.sealed
  · rw [htables, hsealings, hinc]
    exact h.row
  · rw [htables, hsealings, hinc]
    exact h.fresh
  · rw [hsealings, hinc]
    exact h.past
  · rw [hsealings]
    exact fun _ _ _ _ hx => hx
  · rw [hinc]
    exact fun _ => Nat.le_refl _

/-- A change of the tables that leaves every secret with its current version, and every row as it is but for
its expiry. -/
theorem vault_tables (h : VaultInv A S w) {t' : Tables} (hstore : SecretInv A.codec t')
    (hsecret : ∀ name s, secretAt A.codec w.tables name = some s →
      ∃ s', secretAt A.codec t' name = some s' ∧ s'.currentVersion = s.currentVersion)
    (hrow : ∀ key v', versionAt A.codec t' key = some v' →
      ∃ v expiry, versionAt A.codec w.tables key = some v ∧ v' = { v with expiresAt := expiry }) :
    VaultInv A S { w with tables := t' } ∧ Later w { w with tables := t' } := by
  refine ⟨⟨hstore, h.sealed, ?_, ?_, h.past⟩, ⟨fun _ _ _ _ hx => hx, fun _ hy => hy, fun _ => Nat.le_refl _⟩⟩
  · intro name number v' hname hnumber hv'
    obtain ⟨v, expiry, hv, rfl⟩ := hrow _ v' hv'
    obtain ⟨x, hx, hrel⟩ := h.row name number v hname hnumber hv
    exact ⟨x, hx, S.superseded expiry hrel⟩
  · intro name number x hx
    obtain ⟨s, hs, hle⟩ := h.fresh name number x hx
    obtain ⟨s', hs', hcur⟩ := hsecret name s hs
    exact ⟨s', hs', hcur ▸ hle⟩

/-- A new version is committed under a number that nothing was sealed for. -/
theorem vault_withSealing (h : VaultInv A S w) {name : String} {number : Int32} {x : Sealing} {t' : Tables}
    (hx : x.Valid A name number) (hstore : SecretInv A.codec t')
    (hnone : w.sealings name (w.incarnation name) number = none) (hnumber : 1 ≤ number)
    (hnew : ∃ s', secretAt A.codec t' name = some s' ∧ number ≤ s'.currentVersion)
    (hsecret : ∀ n s, secretAt A.codec w.tables n = some s →
      ∃ s', secretAt A.codec t' n = some s' ∧ s.currentVersion ≤ s'.currentVersion)
    (hrow : ∀ key v', versionAt A.codec t' key = some v' → (key = versionKey name number ∧ v' = x.record) ∨
      (key ≠ versionKey name number ∧
        ∃ v expiry, versionAt A.codec w.tables key = some v ∧ v' = { v with expiresAt := expiry })) :
    VaultInv A S { w.withSealing name number (some x) with tables := t' } ∧
      Later w { w.withSealing name number (some x) with tables := t' } := by
  obtain ⟨s', hs', hle'⟩ := hnew
  have hname := (hstore.valid name s' hs').1
  refine ⟨⟨hstore, ?_, ?_, ?_, ?_⟩, ⟨?_, fun _ hy => hy, fun _ => Nat.le_refl _⟩⟩
  · intro n i k y hy
    simp only [sealings_withSealing] at hy
    split_ifs at hy with hnew
    · cases hy
      obtain ⟨rfl, _, rfl⟩ := hnew
      exact hx
    · exact h.sealed n i k y hy
  · intro n k v' hn hk hv'
    simp only [sealings_withSealing]
    rcases hrow _ v' hv' with ⟨hkey, rfl⟩ | ⟨hkey, v, expiry, hv, rfl⟩
    · obtain ⟨rfl, rfl⟩ := eq_of_versionKey_eq hn hname hk hnumber hkey
      exact ⟨x, if_pos ⟨rfl, rfl, rfl⟩, S.sealed hx⟩
    · obtain ⟨y, hy, hrel⟩ := h.row n k v hn hk hv
      refine ⟨y, ?_, S.superseded expiry hrel⟩
      rw [if_neg]
      · exact hy
      · rintro ⟨rfl, _, rfl⟩
        exact hkey rfl
  · intro n k y hy
    simp only [sealings_withSealing] at hy
    split_ifs at hy with hnew
    · obtain ⟨rfl, _, rfl⟩ := hnew
      exact ⟨s', hs', hle'⟩
    · obtain ⟨s, hs, hle⟩ := h.fresh n k y hy
      obtain ⟨s₁, hs₁, hle₁⟩ := hsecret n s hs
      exact ⟨s₁, hs₁, hle.trans hle₁⟩
  · intro n i k y hy
    simp only [sealings_withSealing] at hy
    split_ifs at hy with hnew
    · obtain ⟨rfl, rfl, _⟩ := hnew
      exact Nat.le_refl _
    · exact h.past n i k y hy
  · intro n i k y hy
    simp only [sealings_withSealing]
    rw [if_neg]
    · exact hy
    · rintro ⟨rfl, rfl, rfl⟩
      rw [hnone] at hy
      cases hy

theorem vault_create (h : VaultInv A S w) {secret : SecretRecord} {x : Sealing} {t' : Tables}
    (hx : x.Valid A secret.name 1) (hcur : secret.currentVersion = 1)
    (hok : createSecret A.codec secret x.record w.tables = (.ok (), t')) :
    VaultInv A S { w.withSealing secret.name x.record.version (some x) with tables := t' } ∧
      Later w { w.withSealing secret.name x.record.version (some x) with tables := t' } := by
  have hstore := createSecret_inv h.store ⟨hcur, hx.version, hx.unexpired, hx.aad⟩ hok
  obtain ⟨_, hfresh, rfl⟩ := createSecret_ok hok
  have habsent : ∀ s, secretAt A.codec w.tables secret.name ≠ some s := by
    intro s hs
    obtain ⟨bytes, hget, _⟩ := get_of_recordAt hs
    rw [hfresh] at hget
    cases hget
  rw [hx.version] at hstore ⊢
  refine vault_withSealing h hx hstore ?_ (le_refl _) ⟨secret, recordAt_insert_self _ _, hcur.ge⟩ ?_ ?_
  · by_contra hsome
    obtain ⟨y, hy⟩ := Option.ne_none_iff_exists'.mp hsome
    obtain ⟨s, hs, _⟩ := h.fresh _ _ y hy
    exact habsent s hs
  · intro n s hs
    refine ⟨s, ?_, le_refl _⟩
    rw [secretAt, recordAt_insert_of_ne]
    · exact hs
    · rintro rfl
      exact habsent s hs
  · intro key v' hv'
    rw [versionAt, recordAt_insert] at hv'
    split_ifs at hv' with hkey
    · cases hv'
      exact Or.inl ⟨hkey.symm, rfl⟩
    · exact Or.inr ⟨Ne.symm hkey, v', v'.expiresAt, hv', rfl⟩

theorem vault_putVersion (h : VaultInv A S w) {name : String} {expectedCurrent : Int32} {x : Sealing}
    {supersedeExpiresAt : Option Int64} {setDescription : Option String}
    {setRotationIntervalSecs setGraceSecs : Option Int64} {nextRotationAt : NextRotation} {updatedAt : Int64}
    {t' : Tables} (hx : x.Valid A name x.record.version)
    (hi : (Command.putVersion name expectedCurrent x.record supersedeExpiresAt setDescription setRotationIntervalSecs
      setGraceSecs nextRotationAt updatedAt).Issued)
    (hok : putVersion A.codec name expectedCurrent x.record supersedeExpiresAt setDescription setRotationIntervalSecs
      setGraceSecs nextRotationAt updatedAt w.tables = (.ok (), t')) :
    VaultInv A S { w.withSealing name x.record.version (some x) with tables := t' } ∧
      Later w { w.withSealing name x.record.version (some x) with tables := t' } := by
  have hstore := putVersion_inv h.store hi hok
  obtain ⟨secret, prev, expiry, _, hs, rfl, hone, hlt, hne, hprev, hsecrets, hversions⟩ :=
    putVersion_records h.store hi hok
  have hnew := (hsecrets name).trans (if_pos rfl)
  rw [applyMeta_eq] at hnew
  refine vault_withSealing h hx hstore ?_ hone ⟨_, hnew, le_refl _⟩ ?_ ?_
  · by_contra hsome
    obtain ⟨y, hy⟩ := Option.ne_none_iff_exists'.mp hsome
    obtain ⟨s, hs', hle⟩ := h.fresh _ _ y hy
    rw [hs] at hs'
    cases hs'
    exact absurd hlt (not_lt.mpr hle)
  · intro n s hs'
    by_cases hn : name = n
    · subst hn
      rw [hs] at hs'
      cases hs'
      exact ⟨_, hnew, hlt.le⟩
    · exact ⟨s, (hsecrets n).trans ((if_neg hn).trans hs'), le_refl _⟩
  · intro key v' hv'
    rw [hversions] at hv'
    split_ifs at hv' with hkey hkey'
    · cases hv'
      exact Or.inr ⟨hkey ▸ hne, prev, some expiry, hkey ▸ hprev, rfl⟩
    · cases hv'
      exact Or.inl ⟨hkey'.symm, rfl⟩
    · exact Or.inr ⟨Ne.symm hkey', v', v'.expiresAt, hv', rfl⟩

theorem vault_delete (h : VaultInv A S w) {name : String} {t' : Tables}
    (hok : deleteSecret name w.tables = (.ok (), t')) :
    VaultInv A S { w with
        incarnation := Function.update w.incarnation name (w.incarnation name + 1), tables := t' } ∧
      Later w { w with
        incarnation := Function.update w.incarnation name (w.incarnation name + 1), tables := t' } := by
  have hstore := deleteSecret_inv h.store hok
  obtain ⟨_, rfl⟩ := deleteSecret_ok hok
  have hle : ∀ n, w.incarnation n ≤ Function.update w.incarnation name (w.incarnation name + 1) n := by
    intro n
    by_cases hn : n = name
    · subst hn
      rw [Function.update_self]
      omega
    · rw [Function.update_of_ne hn]
  refine ⟨⟨hstore, h.sealed, ?_, ?_, ?_⟩, ⟨fun _ _ _ _ hx => hx, fun _ hy => hy, hle⟩⟩
  · intro n k v hn hk hv
    rw [versionAt, recordAt_removeAll] at hv
    split_ifs at hv with hmem
    obtain ⟨bytes, hget, _⟩ := get_of_recordAt hv
    rw [mem_ownVersionKeys hn hk (hget ▸ rfl)] at hmem
    obtain ⟨x, hx, hrel⟩ := h.row n k v hn hk hv
    refine ⟨x, ?_, hrel⟩
    dsimp only
    rw [Function.update_of_ne hmem]
    exact hx
  · intro n k x hx
    by_cases hn : n = name
    · -- nothing has been sealed in the incarnation that begins
      subst hn
      simp only [Function.update_self] at hx
      have hpast := h.past _ _ _ x hx
      omega
    · simp only [Function.update_of_ne hn] at hx
      obtain ⟨s, hs, hcur⟩ := h.fresh n k x hx
      refine ⟨s, ?_, hcur⟩
      rw [secretAt, recordAt_remove, if_neg (Ne.symm hn)]
      exact hs
  · intro n i k x hx
    exact (h.past n i k x hx).trans (hle n)

theorem vault_updateMeta (h : VaultInv A S w) {name : String} {expectedCurrent : Int32} {setDescription : Option String}
    {setRotationIntervalSecs setGraceSecs : Option Int64} {nextRotationAt : NextRotation} {updatedAt : Int64}
    {t' : Tables} (hok : updateMeta A.codec name expectedCurrent setDescription setRotationIntervalSecs setGraceSecs
      nextRotationAt updatedAt w.tables = (.ok (), t')) :
    VaultInv A S { w with tables := t' } ∧ Later w { w with tables := t' } := by
  have hstore := updateMeta_inv h.store hok
  obtain ⟨value, secret, hget, hdec, _, rfl⟩ := updateMeta_ok hok
  have hs : secretAt A.codec w.tables name = some secret := recordAt_of_get hget hdec
  refine vault_tables h hstore (fun n s hs' => ?_) fun key v hv => ⟨v, v.expiresAt, hv, rfl⟩
  by_cases hn : name = n
  · subst hn
    rw [hs] at hs'
    cases hs'
    refine ⟨_, recordAt_insert_self _ _, ?_⟩
    rw [applyMeta_eq]
  · refine ⟨s, ?_, rfl⟩
    rw [secretAt, recordAt_insert_of_ne _ hn]
    exact hs'

theorem vault_sweep (h : VaultInv A S w) {now : Int64} {t' : Tables}
    (hok : expireGraceVersions A.codec now w.tables = (.ok (), t')) :
    VaultInv A S { w with tables := t' } ∧ Later w { w with tables := t' } := by
  have hstore := expireGraceVersions_inv h.store hok
  obtain ⟨expired, _, rfl⟩ := expireGraceVersions_ok hok
  refine vault_tables h hstore (fun n s hs => ⟨s, hs, rfl⟩) fun key v hv => ?_
  rw [versionAt, recordAt_removeAll] at hv
  split_ifs at hv
  exact ⟨v, v.expiresAt, hv, rfl⟩

/-- A re-wrap exchanges the wrapped key of a row and nothing else. -/
theorem vault_rewrap (h : VaultInv A S w) {name : String} {number : Int32} {kmsKeyId : String} {wrappedDek : Bytes}
    {wrappedRotationAt : Int64} {t' : Tables} (hname : isValidSecretName name = true) (hnumber : 1 ≤ number)
    (hrel : ∀ v x, versionAt A.codec w.tables (versionKey name number) = some v →
      v.wrappedRotationAt.any (wrappedRotationAt ≤ ·) = false →
      w.sealings name (w.incarnation name) number = some x → S.rel name number v x → S.rel name number { v with
        kmsKeyId := kmsKeyId, wrappedDek := wrappedDek, wrappedRotationAt := some wrappedRotationAt } x)
    (hok : rewrapVersion A.codec name number kmsKeyId wrappedDek wrappedRotationAt w.tables = (.ok (), t')) :
    VaultInv A S { w with tables := t' } ∧ Later w { w with tables := t' } := by
  have hstore := rewrapVersion_inv h.store hok
  rcases rewrapVersion_ok hok with rfl | ⟨value, v, hget, hdec, hold, rfl⟩
  · exact vault_tables h hstore (fun n s hs => ⟨s, hs, rfl⟩) fun key v hv => ⟨v, v.expiresAt, hv, rfl⟩
  · have hv : versionAt A.codec w.tables (versionKey name number) = some v := recordAt_of_get hget hdec
    refine ⟨⟨hstore, h.sealed, ?_, h.fresh, h.past⟩, ⟨fun _ _ _ _ hx => hx, fun _ hy => hy, fun _ => Nat.le_refl _⟩⟩
    intro n k v' hn hk hv'
    rw [versionAt, recordAt_insert] at hv'
    split_ifs at hv' with hkey
    · cases hv'
      obtain ⟨rfl, rfl⟩ := eq_of_versionKey_eq hname hn hnumber hk hkey
      obtain ⟨x, hx, hvx⟩ := h.row name number v hname hnumber hv
      exact ⟨x, hx, hrel v x hv hold hx hvx⟩
    · exact h.row n k v' hn hk hv'

/-- A command that keeps the two tables. -/
theorem vault_frame (h : VaultInv A S w) (command : Command) (hkeep : command.keepsSecrets = true)
    (hissued : command.Issued) {t' : Tables}
    (hok : applyCommand A.codec A.nodeId command w.tables = (.ok (), t')) :
    VaultInv A S { w with tables := t' } ∧ Later w { w with tables := t' } := by
  have hf := @applyCommand_frame A.codec A.nodeId _ hkeep w.tables
  rw [hok] at hf
  have hsecretAt : secretAt A.codec t' = secretAt A.codec w.tables := by
    funext n
    rw [secretAt, secretAt, hf.1]
  have hversionAt : versionAt A.codec t' = versionAt A.codec w.tables := by
    funext key
    rw [versionAt, versionAt, hf.2]
  refine vault_tables h (applyCommand_inv h.store hissued hok) (fun n s hs => ?_) fun key v hv => ?_
  · exact ⟨s, hsecretAt ▸ hs, rfl⟩
  · exact ⟨v, v.expiresAt, hversionAt ▸ hv, rfl⟩

theorem succ_of_nextVersion {current next : Int32} (h : nextVersion current = some next) : next = current + 1 := by
  unfold nextVersion checkedSucc at h
  split_ifs at h
  exact (Option.some.inj h).symm

/-- The next version has a number and a key of its own. -/
theorem versionKey_nextVersion {name : String} {current next : Int32} (hname : isValidSecretName name = true)
    (hpos : 1 ≤ current) (hnext : nextVersion current = some next) :
    1 ≤ next ∧ versionKey name next ≠ versionKey name current := by
  have hsucc := toInt_checkedSucc hnext
  have hone : 1 ≤ next := by
    rw [Int32.le_iff_toInt_le] at hpos ⊢
    omega
  refine ⟨hone, versionKey_ne_of_version_ne hname hone hpos ?_⟩
  rintro rfl
  omega

/-- Every operation of the service keeps the invariant where re-wraps keep the relation of a row to its
sealing, and the history grows. -/
theorem vault_perform {I : World → Prop} {R : World → World → Prop} {call : ServiceCall} {op : Op} (h : VaultInv A S w)
    (hop : Prepared A I R call w op)
    (hrewrap : ∀ {name number keyId wrapped target basis sealing}, call.isPass = true →
      op = .submit (.rewrapVersion name number keyId wrapped target) basis sealing →
      ∀ v x, versionAt A.codec w.tables (versionKey name number) = some v →
      v.wrappedRotationAt.any (target ≤ ·) = false →
      w.sealings name (w.incarnation name) number = some x → S.rel name number v x → S.rel name number { v with
        kmsKeyId := keyId, wrappedDek := wrapped, wrappedRotationAt := some target } x) :
    VaultInv A S (w.perform A op) ∧ Later w (w.perform A op) := by
  have hsubmit : ∀ {command : Command} {sealing : Option Sealing},
      (∀ t', applyCommand A.codec A.nodeId command w.tables = (.ok (), t') →
        VaultInv A S { w.record command sealing with tables := t' } ∧
          Later w { w.record command sealing with tables := t' }) →
      VaultInv A S (w.commit A command sealing) ∧ Later w (w.commit A command sealing) :=
    commit_of (P := fun w' => VaultInv A S w' ∧ Later w w') ⟨h, refl_of Later w⟩
  cases hop with
  | read => exact ⟨h, refl_of Later w⟩
  | kms => exact ⟨h, refl_of Later w⟩
  | busy node value => exact vault_congr h rfl rfl rfl fun _ hy => hy
  | audit entry => exact hsubmit fun t' ht' => vault_frame h (.appendAudit entry) rfl trivial ht'
  | completed state caller =>
      exact hsubmit fun t' ht' => vault_frame h (.setKmsRewrapState state) rfl trivial ht'
  | sweep caller => exact hsubmit fun t' ht' => vault_sweep h ht'
  | delete caller => exact hsubmit fun t' ht' => vault_delete h ht'
  | create caller interval sealing => exact hsubmit fun t' ht' => vault_create h sealing rfl ht'
  | updateVersion caller read next sealing format =>
      exact hsubmit fun t' ht' => vault_putVersion h sealing
        ⟨succ_of_nextVersion next, sealing.unexpired, sealing.aad, rfl⟩ ht'
  | updateMeta caller read => exact hsubmit fun t' ht' => vault_updateMeta h ht'
  | rotate caller read kind next sealing format username =>
      exact hsubmit fun t' ht' => vault_putVersion h sealing
        ⟨succ_of_nextVersion next, sealing.unexpired, sealing.aad, rfl⟩ ht'
  | retry caller read kind => exact hsubmit fun t' ht' => vault_updateMeta h ht'
  | rewrap caller read rewrapped =>
      obtain ⟨_, _, _, _, hname, hnumber, _⟩ := read
      exact hsubmit fun t' ht' => vault_rewrap h hname hnumber (hrewrap caller rfl) ht'
  | attempt caller read next target payload committed password role =>
      unfold World.perform
      dsimp only
      split_ifs
      · exact vault_congr h rfl rfl rfl fun _ hy => List.mem_cons_of_mem _ hy
      · exact vault_congr h rfl rfl rfl fun _ hy => hy

end Steps

end HyperionVault
