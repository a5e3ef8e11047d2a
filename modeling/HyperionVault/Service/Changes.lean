import HyperionVault.Service.Exec
import HyperionVault.Service.Recreate
import Mathlib.Data.List.Permutation

/-!
# Changes of one secret, one after the other

Are concurrent updates and rotations of a secret as good as serial ones? A new version is committed only if
the current version is still the one that was read, but the grace period and the rotation interval that went
into the command may have changed since: metadata updates leave the version number alone.

* `ChangeCall`, `change` : updates and rotations of one secret, each up to its command;
* `Serializable` : the secret and the expiries are those of a serial run of the calls that succeeded;
* `CurrentTerms` : grace period and interval are still those from which a version's command was computed;
* `changes_serializable` : where terms are current, changes are serializable;
* `stale_interval_not_serializable` : a rotation whose interval another call has changed meanwhile.
-/

namespace HyperionVault
open Lib

inductive ChangeCall where
  | update (req : UpdateSecretRequest) (draws : Draws)
  | rotate (draws : Draws)

/-- A change up to its command. -/
def ChangeCall.body (A : AppState) (name : String) : ChangeCall → Proc World Op (ApiResult Unit)
  | .update req d => (updateCommit A name req d).run
  | .rotate d => (rotateCommit A name d >>= fun _ => pure ()).run

/-- Any number of changes of the secret, interleaved by operations. -/
abbrev change (A : AppState) (name : String) : System World Op (ApiResult Unit) ChangeCall → SystemEvent ChangeCall →
    System World Op (ApiResult Unit) ChangeCall :=
  System.step (World.perform A) (ChangeCall.body A name)

/-- What changes of a secret may change about it, its versions apart. -/
structure SecretTerms where
  rotationIntervalSecs : Option Int64
  graceSecs : Int64
  nextRotationAt : Option Int64
  currentVersion : Int32
  description : Option String
deriving DecidableEq

def SecretRecord.terms (s : SecretRecord) : SecretTerms :=
  ⟨s.rotationIntervalSecs, s.graceSecs, s.nextRotationAt, s.currentVersion, s.description⟩

/-- The two worlds have the same terms of the secret, and the same expiries of its versions. -/
def SameOutcome (A : AppState) (name : String) (w w' : World) : Prop :=
  (secretAt A.codec w.tables name).map SecretRecord.terms = (secretAt A.codec w'.tables name).map SecretRecord.terms ∧
    ∀ number, (versionAt A.codec w.tables (versionKey name number)).map VersionRecord.expiresAt =
      (versionAt A.codec w'.tables (versionKey name number)).map VersionRecord.expiresAt

/-- The calls that have succeeded lead, one after the other in some order, to the same outcome. -/
def Serializable (A : AppState) (name : String) (first : World) (sys : System World Op (ApiResult Unit) ChangeCall) :
    Prop :=
  ∃ order, order.Perm (System.succeeded Except.isOk sys) ∧
    SameOutcome A name (System.serial (World.perform A) (ChangeCall.body A name) first order) sys.shared

/-- A version is committed under the grace period from which its command was computed, and under the interval
too, where the command starts the timer with the one that was read. -/
def CurrentTerms (A : AppState) (w : World) : Op → Prop
  | .submit (.putVersion name expectedCurrent _ _ _ setInterval _ next _) (.record basis) _ =>
      ∀ s, secretAt A.codec w.tables name = some s → s.currentVersion = expectedCurrent →
        s.graceSecs = basis.graceSecs ∧
          (next ≠ .keep → setInterval = none → s.rotationIntervalSecs = basis.rotationIntervalSecs)
  | _ => True

/-! ## What changes leave alone -/

/-- What other changes of the secret do to it while a call runs. -/
structure Amends (A : AppState) (name : String) (w w' : World) : Prop where
  material : w'.material = w.material
  kmsRewrap : w'.tables.kmsRewrap = w.tables.kmsRewrap
  secret : ∀ s, secretAt A.codec w.tables name = some s →
    ∃ s', secretAt A.codec w'.tables name = some s' ∧ s'.kind = s.kind ∧ s'.format = s.format
  version : ∀ number v, versionAt A.codec w.tables (versionKey name number) = some v →
    ∃ expiry, versionAt A.codec w'.tables (versionKey name number) = some { v with expiresAt := expiry }

instance (A : AppState) (name : String) : IsPreorder World (Amends A name) where
  refl _ := ⟨rfl, rfl, fun s hs => ⟨s, hs, rfl, rfl⟩, fun _ v hv => ⟨v.expiresAt, hv⟩⟩
  trans w₁ w₂ w₃ h h' := by
    refine ⟨h'.material.trans h.material, h'.kmsRewrap.trans h.kmsRewrap, fun s hs => ?_, fun number v hv => ?_⟩
    · obtain ⟨s₂, hs₂, hkind₂, hformat₂⟩ := h.secret s hs
      obtain ⟨s₃, hs₃, hkind₃, hformat₃⟩ := h'.secret s₂ hs₂
      exact ⟨s₃, hs₃, hkind₃.trans hkind₂, hformat₃.trans hformat₂⟩
    · obtain ⟨expiry, hv₂⟩ := h.version number v hv
      obtain ⟨expiry', hv₃⟩ := h'.version number _ hv₂
      exact ⟨expiry', hv₃⟩

section Changes
variable {A : AppState} {name : String} {w w' : World} {s secret : SecretRecord} {t' : Tables} {x : Sealing}
  {expectedCurrent number : Int32} {setDescription : Option String} {setInterval setGrace : Option Int64}
  {next : NextRotation} {updatedAt : Int64} {req : UpdateSecretRequest} {d : Draws}

/-- The store keeps its secrets and versions together. -/
def StoreInv (A : AppState) (w : World) : Prop := SecretInv A.codec w.tables

theorem amends_putVersion {expiry : Option Int64} (h : StoreInv A w)
    (hissued : (Command.putVersion name expectedCurrent x.record expiry setDescription setInterval setGrace next
      updatedAt).Issued)
    (hok : applyCommand A.codec A.nodeId (.putVersion name expectedCurrent x.record expiry setDescription setInterval
      setGrace next updatedAt) w.tables = (.ok (), t')) :
    StoreInv A { w.withSealing name x.record.version (some x) with tables := t' } ∧
      Amends A name w { w.withSealing name x.record.version (some x) with tables := t' } := by
  obtain ⟨secret, prev, at_, _, hs, hcur, hone, _, _, hprev, hsecrets, hversions⟩ := putVersion_records h hissued hok
  obtain ⟨_, _, _, _, _, _, _, _, htables⟩ := putVersion_tables h hissued hok
  refine ⟨putVersion_inv h hissued hok, rfl, ?_, fun s hs' => ?_, fun number v hv => ?_⟩
  · rw [htables]
  · cases hs.symm.trans hs'
    refine ⟨_, (hsecrets name).trans (if_pos rfl), ?_, ?_⟩
    · rw [applyMeta_eq]
    · rw [applyMeta_eq]
  · dsimp only
    rw [hversions]
    split_ifs with hsuper hnew
    · rw [hsuper, hv] at hprev
      cases hprev
      exact ⟨some at_, rfl⟩
    · -- the new version had no row
      have hfresh := putVersion_fresh h hs (hissued.1.trans (congrArg (· + 1) hcur.symm)) hone
      obtain ⟨bytes, hget, _⟩ := get_of_recordAt hv
      rw [← hnew, hfresh] at hget
      cases hget
    · exact ⟨v.expiresAt, hv⟩

theorem amends_updateMeta (h : StoreInv A w)
    (hok : applyCommand A.codec A.nodeId (.updateMeta name expectedCurrent setDescription setInterval setGrace next
      updatedAt) w.tables = (.ok (), t')) :
    StoreInv A { w with tables := t' } ∧ Amends A name w { w with tables := t' } := by
  have hinv := updateMeta_inv h hok
  obtain ⟨value, secret, hget, hdec, _, rfl⟩ := updateMeta_ok hok
  have hs : secretAt A.codec w.tables name = some secret := recordAt_of_get hget hdec
  refine ⟨hinv, rfl, rfl, fun s hs' => ?_, fun number v hv => ⟨v.expiresAt, hv⟩⟩
  cases hs.symm.trans hs'
  refine ⟨_, recordAt_insert_self _ _, ?_, ?_⟩
  · rw [applyMeta_eq]
  · rw [applyMeta_eq]

/-! ## Reads that can be made again -/

/-- The call changes nothing, and would come to the same result later. -/
abbrev Call.Repeats {α : Type} (A : AppState) (name : String) (c : Call α) (w : World) : Prop :=
  Proc.Repeats (World.perform A) (StoreInv A) (Amends A name) c.run w

theorem ofExcept_repeats {ε α : Type} (toApi : ε → ApiError) (r : Except ε α) :
    (Call.ofExcept toApi r).Repeats A name w := by
  cases r with
  | ok a => exact Proc.repeats_ret _ _
  | error e => exact Proc.repeats_ret _ _

theorem ofOption_repeats {α : Type} (e : ApiError) (o : Option α) : (Call.ofOption e o).Repeats A name w := by
  cases o with
  | some a => exact Proc.repeats_ret _ _
  | none => exact Proc.repeats_ret _ _

theorem perform_repeats {α ε : Type} {op : Op} {value : World → Except ε α} {toApi : ε → ApiError} (hi : StoreInv A w)
    (hop : ∀ w, World.perform A op w = w)
    (hvalue : ∀ w₁ w₂, Amends A name w₁ w₂ → value w₂ = value w₁) :
    Call.Repeats A name (do
      let r ← ExceptT.lift (Proc.perform op value)
      Call.ofExcept toApi r) w := by
  refine Proc.repeats_bind_ok hi (Proc.repeats_bind hi ?_ fun _ _ _ _ _ => Proc.repeats_ret _ _) ?_
  · exact Proc.repeats_perform hop fun w₁ w₂ _ _ hr _ => hvalue w₁ w₂ hr
  · exact fun _ _ _ _ _ => ofExcept_repeats _ _

theorem sealVersion_repeats (hi : StoreInv A w) (number : Int32) (payload : Payload) (d : Draws) :
    (sealVersion A name number payload d).Repeats A name w := by
  refine Proc.repeats_bind_ok hi (perform_repeats hi (fun _ => rfl) fun w₁ w₂ hr => ?_) fun w₁ key _ hi₁ _ => ?_
  · rw [hr.material]
  refine Proc.repeats_bind_ok hi₁ (ofOption_repeats _ _) fun w₂ ciphertext _ hi₂ _ => ?_
  refine Proc.repeats_bind_ok hi₂ (perform_repeats hi₂ (fun _ => rfl) fun w₃ w₄ hr => ?_) fun _ _ _ _ _ => ?_
  · unfold RedbStore.kmsRewrapState
    rw [hr.kmsRewrap]
  · exact Proc.repeats_ret _ _

/-- A login is read with one operation. -/
theorem loadUserpass_run (A : AppState) (name : String) (number : Int32) : ∃ value,
    (loadUserpass A name number).run = Proc.perform .read value ∧
      ∀ w v, versionAt A.codec w.tables (versionKey name number) = some v →
        value w = openUserpass A name number v := by
  refine ⟨fun w => (Except.mapError .ofStore (RedbStore.version A.codec name number w.tables)).bind fun found =>
    found.elim (.error (.internal "current version row missing")) (openUserpass A name number), ?_, fun w v hv => ?_⟩
  · refine congrArg (Proc.act Op.read) (funext fun w => ?_)
    dsimp only
    cases RedbStore.version A.codec name number w.tables with
    | error e => rfl
    | ok found =>
        cases found with
        | none => rfl
        | some v =>
            show (Call.ofExcept id (openUserpass A name number v)).run = .ret (openUserpass A name number v)
            cases openUserpass A name number v with
            | error e => rfl
            | ok login => rfl
  · dsimp only
    rw [version_eq_ok.mpr hv]
    rfl

/-- A version row keeps the login that it holds. -/
theorem loadUserpass_repeats {v : VersionRecord} (hv : versionAt A.codec w.tables (versionKey name number) = some v) :
    (loadUserpass A name number).Repeats A name w := by
  obtain ⟨value, hrun, hvalue⟩ := loadUserpass_run A name number
  unfold Call.Repeats
  rw [hrun]
  refine Proc.repeats_perform (fun _ => rfl) fun w₁ w₂ h₁ _ h₂ _ => ?_
  obtain ⟨expiry₁, hv₁⟩ := h₁.version number v hv
  obtain ⟨expiry₂, hv₂⟩ := h₂.version number _ hv₁
  rw [hvalue w₁ _ hv₁, hvalue w₂ _ hv₂]
  rfl

/-- A record that was stored before: its kind and format are still those of the secret, and its version is
still there. -/
def ReadBefore (A : AppState) (name : String) (w : World) (secret : SecretRecord) : Prop :=
  ∃ s v, secretAt A.codec w.tables name = some s ∧ s.kind = secret.kind ∧ s.format = secret.format ∧
    versionAt A.codec w.tables (versionKey name secret.currentVersion) = some v

theorem ReadBefore.mono (h : ReadBefore A name w secret) (hr : Amends A name w w') :
    ReadBefore A name w' secret := by
  obtain ⟨s, v, hs, hkind, hformat, hv⟩ := h
  obtain ⟨s', hs', hkind', hformat'⟩ := hr.secret s hs
  obtain ⟨expiry, hv'⟩ := hr.version _ v hv
  exact ⟨s', _, hs', hkind'.trans hkind, hformat'.trans hformat, hv'⟩

theorem readSecret_silent :
    Proc.Guards (World.perform A) (StoreInv A) (Amends A name) (Proc.Silent (World.perform A))
      (readSecret A name).run w (Proc.OnOk (ReadBefore A name)) := by
  intro w₁ _ hi₁
  refine ⟨rfl, fun _ _ => ?_⟩
  dsimp only [Proc.bind]
  cases hfound : RedbStore.secret A.codec name w₁.tables with
  | error e => exact fun _ _ _ _ ha => by cases ha
  | ok found =>
      cases found with
      | none => exact fun _ _ _ _ ha => by cases ha
      | some secret =>
          intro w₂ hw₂ _ a ha
          cases ha
          have hs := secret_eq_ok.mp hfound
          obtain ⟨v, hv, _⟩ := hi₁.current name secret hs
          exact ReadBefore.mono ⟨secret, v, hs, rfl, rfl, hv⟩ hw₂

/-! ## Changes take effect with their command -/

/-- The call takes effect with its command, as the whole call `body` would there. -/
abbrev Call.Commits {α β : Type} (A : AppState) (name : String) (body : Call β) (c : Call α) (w : World) : Prop :=
  Proc.Commits (World.perform A) (StoreInv A) (Amends A name) (CurrentTerms A) Except.isOk
    (fun w => (body.run.exec (World.perform A) w).2) c.run w

theorem submit_commits {β : Type} {body : Call β} {command : Command} {basis : Basis} {sealing : Option Sealing}
    (h : ∀ w₁ t', Amends A name w w₁ → StoreInv A w₁ → CurrentTerms A w₁ (.submit command basis sealing) →
      applyCommand A.codec A.nodeId command w₁.tables = (.ok (), t') →
      StoreInv A { w₁.record command sealing with tables := t' } ∧
        Amends A name w₁ { w₁.record command sealing with tables := t' } ∧
        (body.run.exec (World.perform A) w₁).2 = { w₁.record command sealing with tables := t' }) :
    Call.Commits A name body (Call.submit A command basis sealing) w := by
  intro w₁ hw hi hK
  cases happly : applyCommand A.codec A.nodeId command w₁.tables with
  | mk outcome t' =>
      have hreply : (RedbStore.apply A.codec A.nodeId command w₁.tables).1 = outcome := by
        cases outcome with
        | error e => simp only [RedbStore.apply, happly]
        | ok u => simp only [RedbStore.apply, happly]
      cases outcome with
      | error e =>
          refine Or.inl ⟨?_, ?_⟩
          · simp only [World.perform, World.commit, RedbStore.apply, happly]
          · dsimp only [Proc.bind]
            rw [hreply]
            rfl
      | ok u =>
          obtain ⟨hinv, hrel, hexec⟩ := h w₁ t' hw hi hK happly
          rw [perform_submit, commit_eq happly]
          refine Or.inr ⟨⟨.ok (), ?_, rfl⟩, hexec.symm, hinv, hrel⟩
          dsimp only [Proc.bind]
          rw [hreply]
          rfl

/-- A new version is put by a command that the service issues. -/
theorem issued_of_valid {expiry : Int64}
    (hx : x.Valid A name number) (hnumber : nextVersion secret.currentVersion = some number) :
    (Command.putVersion name secret.currentVersion x.record (some expiry) setDescription setInterval setGrace next
      updatedAt).Issued :=
  ⟨hx.version.trans (succ_of_nextVersion hnumber), hx.unexpired, hx.version.symm ▸ hx.aad, rfl⟩

/-- A version that is committed finds the secret as it was read, but for its terms. -/
theorem read_of_putVersion {expiry : Option Int64} (hread : ReadBefore A name w secret)
    (hK : CurrentTerms A w (.submit (.putVersion name secret.currentVersion x.record expiry setDescription setInterval
      setGrace next updatedAt) (.record secret) (some x)))
    (hok : applyCommand A.codec A.nodeId (.putVersion name secret.currentVersion x.record expiry setDescription
      setInterval setGrace next updatedAt) w.tables = (.ok (), t')) :
    ∃ s, secretAt A.codec w.tables name = some s ∧ s.kind = secret.kind ∧ s.format = secret.format ∧
      s.currentVersion = secret.currentVersion ∧ s.graceSecs = secret.graceSecs ∧
      (next ≠ .keep → setInterval = none → s.rotationIntervalSecs = secret.rotationIntervalSecs) := by
  obtain ⟨s, _, hs, hkind, hformat, _⟩ := hread
  obtain ⟨_, value, s', _, hget, hdec, hcur, _⟩ := putVersion_ok hok
  cases hs.symm.trans (recordAt_of_get hget hdec)
  obtain ⟨hgrace, hinterval⟩ := hK s hs hcur
  exact ⟨s, hs, hkind, hformat, hcur, hgrace, hinterval⟩

theorem rotatePayload_repeats (hi : StoreInv A w) (hread : ReadBefore A name w secret)
    (d : Draws) : (rotatePayload A name secret d).Repeats A name w := by
  obtain ⟨_, v, _, _, _, hv⟩ := hread
  unfold rotatePayload
  cases secret.format with
  | opaqueValue => exact Proc.repeats_ret _ _
  | userpass =>
      exact Proc.repeats_bind_ok hi (loadUserpass_repeats hv) fun _ _ _ _ _ => Proc.repeats_ret _ _

theorem rotatePayload_congr (hformat : s.format = secret.format)
    (hcur : s.currentVersion = secret.currentVersion) (d : Draws) :
    rotatePayload A name s d = rotatePayload A name secret d := by
  unfold rotatePayload
  rw [hformat, hcur]

theorem rotate_commits (hi : StoreInv A w) (d : Draws) :
    Call.Commits A name (rotateCommit A name d) (rotateCommit A name d) w := by
  refine Proc.commits_bind_ok hi readSecret_silent fun w₁ secret _ hi₁ hread => ?_
  by_cases hkind : secret.kind = .automatic
  · rw [if_neg (not_not.mpr hkind)]
    refine Proc.commits_bind_repeats hi₁ (ofOption_repeats _ _) fun w₂ number h₂ hi₂ hnumber => ?_
    refine Proc.commits_bind_repeats hi₂ (rotatePayload_repeats hi₂ (hread w₂ h₂ hi₂) d)
      fun w₃ payload h₃ hi₃ hpayload => ?_
    refine Proc.commits_bind_repeats hi₃ (sealVersion_repeats hi₃ number payload d) fun w₄ x h₄ hi₄ hseal => ?_
    refine Proc.commits_bind_pure _ (submit_commits fun w₅ t' h₅ hi₅ hK hok => ?_)
    have h₃₅ := trans_of (Amends A name) h₄ h₅
    have h₂₅ := trans_of (Amends A name) h₃ h₃₅
    obtain ⟨s, hs, hskind, hformat, hcur, hgrace, hinterval⟩ :=
      read_of_putVersion (hread w₅ (trans_of (Amends A name) h₂ h₂₅) hi₅) hK hok
    have hnumber := (Call.ofOption_exec_ok (hnumber w₅ h₂₅ hi₅)).1
    obtain ⟨hinv, hamends⟩ := amends_putVersion hi₅
      (issued_of_valid (sealVersion_exec_ok (hseal w₅ h₅ hi₅)).1 hnumber) hok
    refine ⟨hinv, hamends, ?_⟩
    -- the call alone reads a record that leads to the same command
    have hcommand : rotateCommand name s d.now x.record = rotateCommand name secret d.now x.record := by
      unfold rotateCommand
      rw [hcur, hgrace, hinterval (by simp) rfl]
    have hexec : (rotateCommit A name d).run.exec (World.perform A) w₅ = (.ok (s, x),
        { w₅.record (rotateCommand name secret d.now x.record) (some x) with tables := t' }) := by
      refine (Proc.exec_bind_ok (readSecret_exec hs) _).trans ?_
      rw [if_neg (not_not.mpr (hskind.trans hkind))]
      refine (Proc.exec_bind_ok (ofOption_exec (hcur ▸ hnumber)) _).trans ?_
      rw [rotatePayload_congr hformat hcur]
      refine (Proc.exec_bind_ok (hpayload w₅ h₃₅ hi₅) _).trans ((Proc.exec_bind_ok (hseal w₅ h₅ hi₅) _).trans ?_)
      rw [hcommand]
      exact Proc.exec_bind_ok (submit_exec _ hok) _
    rw [hexec]
  · rw [if_pos hkind]
    rfl

theorem updatePayload_repeats (hi : StoreInv A w) (hread : ReadBefore A name w secret)
    (req : UpdateSecretRequest) : (updatePayload A name secret req).Repeats A name w := by
  obtain ⟨_, v, _, _, _, hv⟩ := hread
  unfold updatePayload
  cases secret.format with
  | opaqueValue =>
      exact Proc.repeats_bind_ok hi (ofExcept_repeats _ _) fun _ _ _ _ _ => Proc.repeats_ret _ _
  | userpass =>
      refine Proc.repeats_bind_ok hi (loadUserpass_repeats hv) fun w₁ _ _ hi₁ _ => ?_
      refine Proc.repeats_bind_ok hi₁ (ofExcept_repeats _ _) fun w₂ _ _ hi₂ _ => ?_
      exact Proc.repeats_bind_ok hi₂ (ofExcept_repeats _ _) fun _ _ _ _ _ => Proc.repeats_ret _ _

theorem updatePayload_congr (hformat : s.format = secret.format)
    (hcur : s.currentVersion = secret.currentVersion) (req : UpdateSecretRequest) :
    updatePayload A name s req = updatePayload A name secret req := by
  unfold updatePayload
  rw [hformat, hcur]

/-- The command of a new version depends on the terms only as far as the timer is set from them. -/
theorem updateVersionCommand_congr {now : Int64}
    {version : VersionRecord} (hcur : s.currentVersion = secret.currentVersion) (hkind : s.kind = secret.kind)
    (hgrace : s.graceSecs = secret.graceSecs)
    (hinterval : resetTimer (secret.kind == .automatic) now (effectiveInterval req secret) ≠ .keep →
      req.rotationIntervalSecs = none → s.rotationIntervalSecs = secret.rotationIntervalSecs) :
    updateVersionCommand name s req now version = updateVersionCommand name secret req now version := by
  have htimer : resetTimer (secret.kind == .automatic) now (effectiveInterval req s) =
      resetTimer (secret.kind == .automatic) now (effectiveInterval req secret) := by
    unfold effectiveInterval
    cases hreq : req.rotationIntervalSecs with
    | some interval => rw [Option.some_or, Option.some_or]
    | none =>
        cases hauto : secret.kind == .automatic with
        | false => simp only [resetTimer, Bool.false_eq_true, if_false]
        | true =>
            have hset : resetTimer (secret.kind == .automatic) now (effectiveInterval req secret) ≠ .keep := by
              rw [hauto]
              simp [resetTimer]
            rw [hinterval hset hreq]
  unfold updateVersionCommand
  rw [hcur, hkind, hgrace, htimer]

/-- The command of a metadata update depends on no terms. -/
theorem updateMetaCommand_congr {now : Int64}
    (hcur : s.currentVersion = secret.currentVersion) (hkind : s.kind = secret.kind) :
    updateMetaCommand name s req now = updateMetaCommand name secret req now := by
  have htimer : resetTimer (secret.kind == .automatic && req.rotationIntervalSecs.isSome) now
      (effectiveInterval req s) = resetTimer (secret.kind == .automatic && req.rotationIntervalSecs.isSome) now
      (effectiveInterval req secret) := by
    unfold effectiveInterval
    cases req.rotationIntervalSecs with
    | some interval => rw [Option.some_or, Option.some_or]
    | none => simp only [Option.isSome_none, Bool.and_false, resetTimer, Bool.false_eq_true, if_false]
  unfold updateMetaCommand
  rw [hcur, hkind, htimer]

/-- An update that writes a new version, run alone. -/
theorem updateCommit_version_exec {payload : Payload} (hcheck : checkUpdate req = .ok ())
    (hs : secretAt A.codec w.tables name = some s) (hformat : checkUpdateFormat s.format req = .ok ())
    (hchanges : req.changesSecret s.format = true)
    (hpayload : (updatePayload A name s req).exec A w = (.ok payload, w))
    (hnumber : nextVersion s.currentVersion = some number)
    (hseal : (sealVersion A name number payload d).exec A w = (.ok x, w)) :
    (updateCommit A name req d).exec A w =
      (Call.submit A (updateVersionCommand name s req d.now x.record) (.record s) (some x)).exec A w := by
  refine (Call.exec_bind_ok (ensure_exec hcheck)).trans ((Call.exec_bind_ok (readSecret_exec hs)).trans ?_)
  refine (Call.exec_bind_ok (ensure_exec hformat)).trans ?_
  rw [if_pos hchanges]
  refine (Call.exec_bind_ok hpayload).trans ((Call.exec_bind_ok (ofOption_exec hnumber)).trans ?_)
  exact Call.exec_bind_ok hseal

/-- An update of the metadata, run alone. -/
theorem updateCommit_meta_exec (hcheck : checkUpdate req = .ok ()) (hs : secretAt A.codec w.tables name = some s)
    (hformat : checkUpdateFormat s.format req = .ok ()) (hchanges : req.changesSecret s.format = false) :
    (updateCommit A name req d).exec A w =
      (Call.submit A (updateMetaCommand name s req d.now) (.record s) none).exec A w := by
  refine (Call.exec_bind_ok (ensure_exec hcheck)).trans ((Call.exec_bind_ok (readSecret_exec hs)).trans ?_)
  refine (Call.exec_bind_ok (ensure_exec hformat)).trans ?_
  rw [if_neg (by rw [hchanges]; exact Bool.false_ne_true)]

theorem update_commits (hi : StoreInv A w) (req : UpdateSecretRequest) (d : Draws) :
    Call.Commits A name (updateCommit A name req d) (updateCommit A name req d) w := by
  refine Proc.commits_bind_repeats hi (ofExcept_repeats _ _) fun w₁ _ h₁ hi₁ hcheck => ?_
  have hcheck := (Call.ensure_exec_ok (hcheck w₁ (refl_of _ w₁) hi₁)).1
  refine Proc.commits_bind_ok hi₁ readSecret_silent fun w₂ secret h₂ hi₂ hread => ?_
  refine Proc.commits_bind_repeats hi₂ (ofExcept_repeats _ _) fun w₃ _ h₃ hi₃ hvalid => ?_
  have hvalid := (Call.ensure_exec_ok (hvalid w₃ (refl_of _ w₃) hi₃)).1
  cases hchanges : req.changesSecret secret.format with
  | true =>
      rw [if_pos rfl]
      refine Proc.commits_bind_repeats hi₃ (updatePayload_repeats hi₃ (hread w₃ h₃ hi₃) req)
        fun w₄ payload h₄ hi₄ hpayload => ?_
      refine Proc.commits_bind_repeats hi₄ (ofOption_repeats _ _) fun w₅ number h₅ hi₅ hnumber => ?_
      have hnumber := (Call.ofOption_exec_ok (hnumber w₅ (refl_of _ w₅) hi₅)).1
      refine Proc.commits_bind_repeats hi₅ (sealVersion_repeats hi₅ number payload d) fun w₆ x h₆ hi₆ hseal => ?_
      refine submit_commits fun w₇ t' h₇ hi₇ hK hok => ?_
      have h₄₇ := trans_of (Amends A name) h₅ (trans_of (Amends A name) h₆ h₇)
      have h₂₇ := trans_of (Amends A name) h₃ (trans_of (Amends A name) h₄ h₄₇)
      obtain ⟨s, hs, hkind, hformat, hcur, hgrace, hinterval⟩ := read_of_putVersion (hread w₇ h₂₇ hi₇) hK hok
      obtain ⟨hinv, hamends⟩ := amends_putVersion hi₇
        (issued_of_valid (sealVersion_exec_ok (hseal w₇ h₇ hi₇)).1 hnumber) hok
      refine ⟨hinv, hamends, ?_⟩
      show ((updateCommit A name req d).exec A w₇).2 = _
      rw [updateCommit_version_exec hcheck hs (hformat ▸ hvalid) (hformat ▸ hchanges)
        (updatePayload_congr hformat hcur req ▸ hpayload w₇ h₄₇ hi₇) (hcur ▸ hnumber) (hseal w₇ h₇ hi₇),
        updateVersionCommand_congr hcur hkind hgrace hinterval, submit_exec _ hok]
  | false =>
      rw [if_neg Bool.false_ne_true]
      refine submit_commits fun w₄ t' h₄ hi₄ _ hok => ?_
      obtain ⟨s, _, hs, hkind, hformat, _⟩ := hread w₄ (trans_of (Amends A name) h₃ h₄) hi₄
      obtain ⟨value, s', hget, hdec, hcur, _⟩ := updateMeta_ok hok
      cases hs.symm.trans (recordAt_of_get hget hdec)
      obtain ⟨hinv, hamends⟩ := amends_updateMeta hi₄ hok
      refine ⟨hinv, hamends, ?_⟩
      show ((updateCommit A name req d).exec A w₄).2 = _
      rw [updateCommit_meta_exec hcheck hs (hformat ▸ hvalid) (hformat ▸ hchanges), updateMetaCommand_congr hcur hkind,
        submit_exec _ hok]

theorem body_commits (hi : StoreInv A w) (call : ChangeCall) :
    Proc.Commits (World.perform A) (StoreInv A) (Amends A name) (CurrentTerms A) Except.isOk
      (fun w => ((call.body A name).exec (World.perform A) w).2) (call.body A name) w := by
  cases call with
  | update req d => exact update_commits hi req d
  | rotate d =>
      have hwhole : (fun w => ((ChangeCall.body A name (.rotate d)).exec (World.perform A) w).2) =
          fun w => ((rotateCommit A name d).run.exec (World.perform A) w).2 := by
        funext w
        refine (congrArg Prod.snd (Proc.exec_bind _ (rotateCommit A name d).run _ w)).trans ?_
        cases ((rotateCommit A name d).run.exec (World.perform A) w).1 with
        | ok a => rfl
        | error e => rfl
      rw [hwhole]
      exact Proc.commits_bind_pure _ (rotate_commits hi d)

end Changes

/-! ## A rotation that an update overtakes -/

section Overtaken
variable {C : Codec} {K : World → Op → Prop} {w : World}

/-- An update of the description and the interval. -/
def metaRequest (description : Option String) (interval : Option Int64) : UpdateSecretRequest where
  value := none
  username := none
  password := none
  description := description
  rotationIntervalSecs := interval
  gracePeriodSecs := none

def changeMeta (description : Option String) (interval : Option Int64) : ChangeCall :=
  .update (metaRequest description interval) (drawsOf 0 0 "")

def changeRotate : ChangeCall := .rotate (drawsOf 0 3 "w")

/-- The secret after the update. -/
def amended (description : Option String) (interval : Option Int64) (s : SecretRecord) : SecretRecord :=
  applyMeta s description interval none
    (resetTimer (s.kind == .automatic && interval.isSome) 0 (effectiveInterval (metaRequest description interval) s)) 0

/-- The secret after a rotation that was computed from the record `basis`. -/
def rotatedFrom (basis s : SecretRecord) : SecretRecord :=
  { s with
    currentVersion := 2
    nextRotationAt := some (nextRotationUnix 0 (basis.rotationIntervalSecs.getD 0))
    updatedAt := 0 }

theorem changeMeta_runs {s : SecretRecord} {description : Option String} {interval : Option Int64}
    (hcheck : checkUpdate (metaRequest description interval) = .ok ())
    (hs : secretAt C w.tables "a" = some s) (hformat : s.format = .opaqueValue) (hread : K w .read)
    (hK : K w (.submit (updateMetaCommand "a" s (metaRequest description interval) 0) (.record s) none)) :
    Proc.Reaches (World.perform (nodeWith C)) K 2 ((changeMeta description interval).body (nodeWith C) "a") w
      (.ret (.ok ())) { w with tables := { w.tables with
        secrets := w.tables.secrets.insert "a" (C.secret.encode (amended description interval s)) } } := by
  have hvalid : checkUpdateFormat s.format (metaRequest description interval) = .ok () := by
    rw [hformat]
    rfl
  have hchanges : ¬(metaRequest description interval).changesSecret s.format = true := by
    rw [hformat]
    exact Bool.false_ne_true
  have happly : applyCommand (nodeWith C).codec (nodeWith C).nodeId
      (updateMetaCommand "a" s (metaRequest description interval) 0) w.tables = (.ok (), { w.tables with
        secrets := w.tables.secrets.insert "a" (C.secret.encode (amended description interval s)) }) :=
    updateMeta_eq hs rfl _ _ _ _ _
  refine Proc.reaches_bind_ret (n := 0) (m := 2) (ofExcept_runs hcheck) ?_
  refine Proc.reaches_bind_ret (n := 1) (m := 1) (readSecret_runs hread hs) ?_
  refine Proc.reaches_bind_ret (n := 0) (m := 1) (ofExcept_runs hvalid) ?_
  dsimp only [ExceptT.bindCont]
  rw [if_neg hchanges]
  exact submit_runs hK happly

/-- The command of a rotation that was computed from the record `basis`. -/
theorem changeRotate_submits (basis : SecretRecord) {s : SecretRecord} {v : VersionRecord}
    (hs : secretAt C w.tables "a" = some s)
    (hcur : s.currentVersion = 1) (hbasis : basis.currentVersion = 1)
    (hv : versionAt C w.tables (versionKey "a" 1) = some v) (hnone : v.expiresAt = none) :
    ∃ t', applyCommand C 1 (rotateCommand "a" basis 0 (rotatedSealing C).record) w.tables = (.ok (), t') ∧
      secretAt C t' "a" = some (rotatedFrom basis s) := by
  have hone : 1 ≤ (rotatedSealing C).record.version := show (1 : Int32) ≤ 2 by decide
  have hne : versionKey "a" (rotatedSealing C).record.version ≠ versionKey "a" basis.currentVersion := by
    rw [hbasis]
    exact versionKey_ne_of_version_ne isValidSecretName_a hone (by decide) (show (2 : Int32) ≠ 1 by decide)
  have happly := rotateCommand_eq (A := nodeWith C) basis 0 (rotatedSealing C).record isValidSecretName_a hone hs
    (hcur.trans hbasis.symm) hne (hbasis ▸ hv) hnone
  exact ⟨_, happly, recordAt_insert_self _ _⟩

/-- A rotation has sealed its version when the update is made, and submits its command afterwards. -/
def overtaken (description : Option String) (interval : Option Int64) : List (SystemEvent ChangeCall) :=
  (.start changeRotate :: List.replicate 3 (.step 0)) ++
    (.start (changeMeta description interval) :: List.replicate 2 (.step 1)) ++ List.replicate 1 (.step 0)

/-- The automatic secret after the update. -/
def amendedWorld (C : Codec) (description : Option String) (interval : Option Int64) : World :=
  { automaticWorld C with tables := { (automaticWorld C).tables with
      secrets := (automaticWorld C).tables.secrets.insert "a"
        (C.secret.encode (amended description interval automaticA)) } }

theorem secretAt_automaticWorld (C : Codec) : secretAt C (automaticWorld C).tables "a" = some automaticA :=
  recordAt_insert_self _ _

theorem versionAt_automaticWorld (C : Codec) :
    versionAt C (automaticWorld C).tables (versionKey "a" 1) = some (sealingA C 1).record :=
  recordAt_insert_self _ _

theorem amended_eq (description : Option String) (interval : Option Int64) (s : SecretRecord) :
    (amended description interval s).kind = s.kind ∧ (amended description interval s).format = s.format ∧
      (amended description interval s).currentVersion = s.currentVersion := by
  unfold amended
  rw [applyMeta_eq]
  exact ⟨rfl, rfl, rfl⟩

theorem overtaken_run {description : Option String} {interval : Option Int64}
    (hcheck : checkUpdate (metaRequest description interval) = .ok ()) (hread : ∀ w, K w .read) (hkms : ∀ w, K w .kms)
    (hmeta : ∀ w secret, K w (.submit (updateMetaCommand "a" secret (metaRequest description interval) 0)
      (.record secret) none))
    (hput : K (amendedWorld C description interval) (rotateOp C)) : ∃ w',
    RunsTo (change (nodeWith C) "a") (System.Allows (fun _ => True) K) ⟨automaticWorld C, []⟩
        (overtaken description interval)
        ⟨w', [(changeRotate, .ret (.ok ())), (changeMeta description interval, .ret (.ok ()))]⟩ ∧
      secretAt C w'.tables "a" = some (rotatedFrom automaticA (amended description interval automaticA)) := by
  have hfirst := System.run_call (World.perform (nodeWith C)) (ChangeCall.body (nodeWith C) "a") (P := fun _ => True)
    [] changeRotate trivial (Proc.reaches_bind (rotateCommit_submits (A := nodeWith C) (n := 0) (hread _)
      (secretAt_automaticWorld C) rfl rfl (pure_runs _) (seal_runs (hkms _) (hread _) rfl)) _)
  obtain ⟨t', happly, hsecret⟩ := changeRotate_submits (C := C) automaticA
    (w := amendedWorld C description interval) (recordAt_insert_self _ _) (amended_eq _ _ _).2.2 rfl
    (versionAt_automaticWorld C) rfl
  have hsecond := fun calls => System.run_call (World.perform (nodeWith C)) (ChangeCall.body (nodeWith C) "a")
    (P := fun _ => True) calls (changeMeta description interval) trivial
    (changeMeta_runs hcheck (secretAt_automaticWorld C) rfl (hread _) (hmeta _ _))
  have hthird : Call.Runs (nodeWith C) K 1 (do
      let _ ← (do
        Call.submit (nodeWith C) (rotateCommand "a" automaticA 0 (rotatedSealing C).record) (.record automaticA)
          (some (rotatedSealing C))
        return (automaticA, rotatedSealing C) : Call (SecretRecord × Sealing))
      return ()) (amendedWorld C description interval) ()
      { (amendedWorld C description interval).withSealing "a" 2 (some (rotatedSealing C)) with tables := t' } :=
    runs_bind (n := 1) (m := 0) (runs_bind (n := 1) (m := 0) (submit_runs hput happly) (pure_runs _)) (pure_runs _)
  refine ⟨_, (hfirst.append (hsecond _)).append (System.run_reaches _ _ ?_ hthird), hsecret⟩
  exact rfl

theorem changeMeta_exec {s : SecretRecord} {description : Option String} {interval : Option Int64}
    (hcheck : checkUpdate (metaRequest description interval) = .ok ()) (hs : secretAt C w.tables "a" = some s)
    (hformat : s.format = .opaqueValue) :
    (((changeMeta description interval).body (nodeWith C) "a").exec (World.perform (nodeWith C)) w).2 =
      { w with tables := { w.tables with
        secrets := w.tables.secrets.insert "a" (C.secret.encode (amended description interval s)) } } := by
  rw [Proc.exec_of_reaches (changeMeta_runs (K := fun _ _ => True) hcheck hs hformat trivial trivial)]

theorem changeRotate_exec {s : SecretRecord} {v : VersionRecord} (hs : secretAt C w.tables "a" = some s)
    (hkind : s.kind = .automatic) (hformat : s.format = .opaqueValue) (hcur : s.currentVersion = 1)
    (hv : versionAt C w.tables (versionKey "a" 1) = some v) (hnone : v.expiresAt = none)
    (hstate : w.tables.kmsRewrap = .empty) :
    secretAt C ((changeRotate.body (nodeWith C) "a").exec (World.perform (nodeWith C)) w).2.tables "a" =
      some (rotatedFrom s s) := by
  obtain ⟨t', happly, hsecret⟩ := changeRotate_submits s hs hcur hcur hv hnone
  have hnumber : nextVersion s.currentVersion = some 2 := by
    rw [hcur]
    rfl
  have hpayload : (rotatePayload (nodeWith C) "a" s (drawsOf 0 3 "w")).Runs (nodeWith C) (fun _ _ => True) 0 w
      (.value "w") w := by
    unfold rotatePayload
    rw [hformat]
    exact pure_runs _
  have hruns := rotateCommit_runs (A := nodeWith C) (K := fun _ _ => True) (d := drawsOf 0 3 "w") trivial hs hkind
    hnumber hpayload (seal_runs trivial trivial hstate) trivial happly
  have hbody : Proc.Reaches (World.perform (nodeWith C)) (fun _ _ => True) (1 + (0 + 3) + 0)
      (changeRotate.body (nodeWith C) "a") w (.ret (.ok ())) _ := runs_bind hruns (pure_runs ())
  rw [Proc.exec_of_reaches hbody]
  exact hsecret

/-- The rotation after the update, and the other way round. -/
theorem serial_changes (C : Codec) {description : Option String} {interval : Option Int64}
    (hcheck : checkUpdate (metaRequest description interval) = .ok ()) :
    let serial := System.serial (World.perform (nodeWith C)) (ChangeCall.body (nodeWith C) "a") (automaticWorld C)
    secretAt C (serial [changeMeta description interval, changeRotate]).tables "a" =
        some (rotatedFrom (amended description interval automaticA) (amended description interval automaticA)) ∧
      secretAt C (serial [changeRotate, changeMeta description interval]).tables "a" =
        some (amended description interval (rotatedFrom automaticA automaticA)) := by
  intro serial
  constructor
  · show secretAt C ((changeRotate.body (nodeWith C) "a").exec (World.perform (nodeWith C))
      (((changeMeta description interval).body (nodeWith C) "a").exec (World.perform (nodeWith C))
        (automaticWorld C)).2).2.tables "a" = _
    rw [changeMeta_exec hcheck (secretAt_automaticWorld C) rfl]
    obtain ⟨hkind, hformat, hcur⟩ := amended_eq description interval automaticA
    exact changeRotate_exec (recordAt_insert_self _ _) hkind hformat hcur (versionAt_automaticWorld C) rfl rfl
  · have hrotated := changeRotate_exec (secretAt_automaticWorld C) rfl rfl rfl (versionAt_automaticWorld C) rfl rfl
    show secretAt C (((changeMeta description interval).body (nodeWith C) "a").exec (World.perform (nodeWith C))
      ((changeRotate.body (nodeWith C) "a").exec (World.perform (nodeWith C)) (automaticWorld C)).2).2.tables "a" = _
    rw [changeMeta_exec hcheck hrotated rfl]
    exact recordAt_insert_self _ _

theorem automaticWorld_inv (C : Codec) : SecretInv C (automaticWorld C).tables := by
  have hcreate : createSecret C automaticA (sealingA C 1).record .empty = (.ok (), (automaticWorld C).tables) :=
    createSecret_eq isValidSecretName_a (le_refl _) rfl
  exact createSecret_inv secretInv_empty ⟨rfl, rfl, rfl, rfl⟩ hcreate

theorem stale_interval_run (C : Codec) : ∃ w',
    RunsTo (change (nodeWith C) "a") (System.Allows (fun _ => True) fun _ _ => True) ⟨automaticWorld C, []⟩
        (overtaken none (some 50))
        ⟨w', [(changeRotate, .ret (.ok ())), (changeMeta none (some 50), .ret (.ok ()))]⟩ ∧
      ¬ Serializable (nodeWith C) "a" (automaticWorld C)
        ⟨w', [(changeRotate, .ret (.ok ())), (changeMeta none (some 50), .ret (.ok ()))]⟩ := by
  have hcheck : checkUpdate (metaRequest none (some 50)) = .ok () := rfl
  obtain ⟨w', hrun, hsecret⟩ := overtaken_run (C := C) (K := fun _ _ => True) hcheck (fun _ => trivial)
    (fun _ => trivial) (fun _ _ => trivial) trivial
  refine ⟨w', hrun, ?_⟩
  rintro ⟨order, hperm, hterms, _⟩
  obtain ⟨hafter, hbefore⟩ := serial_changes C hcheck
  rcases List.perm_pair.mp hperm with rfl | rfl
  · rw [show secretAt (nodeWith C).codec _ "a" = _ from hbefore,
      show secretAt (nodeWith C).codec w'.tables "a" = _ from hsecret] at hterms
    exact absurd hterms (by decide)
  · rw [show secretAt (nodeWith C).codec _ "a" = _ from hafter,
      show secretAt (nodeWith C).codec w'.tables "a" = _ from hsecret] at hterms
    exact absurd hterms (by decide)

/-- An update of the description does not change the terms of the rotation. -/
theorem description_run (C : Codec) : ∃ w',
    RunsTo (change (nodeWith C) "a") (System.Allows (fun _ => True) (CurrentTerms (nodeWith C)))
      ⟨automaticWorld C, []⟩ (overtaken (some "d") none)
      ⟨w', [(changeRotate, .ret (.ok ())), (changeMeta (some "d") none, .ret (.ok ()))]⟩ := by
  have hput : CurrentTerms (nodeWith C) (amendedWorld C (some "d") none) (rotateOp C) := by
    intro s hs _
    have hamended : secretAt C (amendedWorld C (some "d") none).tables "a" =
        some (amended (some "d") none automaticA) :=
      recordAt_insert_self _ _
    cases hamended.symm.trans hs
    exact ⟨rfl, fun _ _ => rfl⟩
  obtain ⟨w', hrun, _⟩ := overtaken_run (C := C) (K := CurrentTerms (nodeWith C)) rfl (fun _ => trivial)
    (fun _ => trivial) (fun _ _ => trivial) hput
  exact ⟨w', hrun⟩

end Overtaken

/-! ## Changes -/

/-- In every interleaving of updates and rotations of a secret in which the terms that went into a version's
command are current when it is committed, the outcome is that of a serial run of the calls that succeeded. -/
theorem changes_serializable (A : AppState) (name : String) (w : World) (hw : SecretInv A.codec w.tables)
    (events : List (SystemEvent ChangeCall))
    (hevents : AllSteps (change A name) (System.Allows (fun _ => True) (CurrentTerms A)) ⟨w, []⟩ events) :
    Serializable A name w (run (change A name) ⟨w, []⟩ events) := by
  obtain ⟨order, hperm, hserial⟩ := System.run_commits Except.isOk (I := StoreInv A) (R := Amends A name)
    (fun call s _ hs => body_commits hs call) hw hevents
  refine ⟨order, hperm, ?_⟩
  rw [hserial]
  exact ⟨rfl, fun _ => rfl⟩

theorem overtaken_by_description_serializable : Serializable (nodeWith jsonCodec) "a" (automaticWorld jsonCodec)
    (run (change (nodeWith jsonCodec) "a") ⟨automaticWorld jsonCodec, []⟩ (overtaken (some "d") none)) := by
  obtain ⟨w', hrun⟩ := description_run jsonCodec
  exact changes_serializable (nodeWith jsonCodec) "a" (automaticWorld jsonCodec) (automaticWorld_inv jsonCodec)
    (overtaken (some "d") none) hrun.2

/-- A rotation is overtaken by an update that halves the interval: both calls succeed, and the timer still runs
for the old interval, which no order of the two calls leads to. -/
theorem stale_interval_not_serializable :
    SecretInv jsonCodec (automaticWorld jsonCodec).tables ∧
      (run (change (nodeWith jsonCodec) "a") ⟨automaticWorld jsonCodec, []⟩ (overtaken none (some 50))).calls =
        [(changeRotate, .ret (.ok ())), (changeMeta none (some 50), .ret (.ok ()))] ∧
      ¬ Serializable (nodeWith jsonCodec) "a" (automaticWorld jsonCodec)
        (run (change (nodeWith jsonCodec) "a") ⟨automaticWorld jsonCodec, []⟩ (overtaken none (some 50))) := by
  obtain ⟨w', hrun, hnot⟩ := stale_interval_run jsonCodec
  rw [hrun.1]
  exact ⟨automaticWorld_inv jsonCodec, rfl, hnot⟩

end HyperionVault
