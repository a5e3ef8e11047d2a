import HyperionVault.Service.Unwrapping

/-!
# Secrets that are deleted and created again

Is the current version of a secret always of the secret's own format, and is a rotation time set exactly for
automatic secrets? A command is computed from a record that was read before, and the store compares only the
version number with what was read. The numbers of a secret that is created again start at 1 anew, so a command
can meet a record of another kind or format.

* `SecretFits`, `SecretsFit` : the property, for one secret and for all;
* `CurrentBasis` : a command that the store accepts meets a record of the format that was read, and sets a
  rotation time only for an automatic secret;
* `secrets_fit` : where every command is based on the present record, every secret fits in every state;
* `stale_rotation_misfits` : a run with a command that is not.
-/

namespace HyperionVault
open Lib

/-- The timer is set exactly for an automatic secret, and its current version reads, under the format of the
secret, as the payload that was sealed. -/
structure SecretFits (A : AppState) (w : World) (name : String) (s : SecretRecord) : Prop where
  timer : s.nextRotationAt.isSome ↔ s.kind = .automatic
  payload : ∃ v x, versionAt A.codec w.tables (versionKey name s.currentVersion) = some v ∧
    w.sealings name (w.incarnation name) s.currentVersion = some x ∧ x.payload.format = s.format ∧
    (openVersion A name s.currentVersion v >>= decodePayload A s.format) = .ok x.payload

def SecretsFit (A : AppState) (w : World) : Prop :=
  ∀ name s, secretAt A.codec w.tables name = some s → SecretFits A w name s

/-- A new version meets a record of the format that was read, and only automatic secrets get a rotation time. -/
def CurrentBasis (A : AppState) (w : World) : Op → Prop
  | .submit (.putVersion name expected _ _ _ _ _ next _) (.record basis) _ =>
      ∀ s, secretAt A.codec w.tables name = some s → s.currentVersion = expected →
        s.format = basis.format ∧ (next ≠ .keep → s.kind = .automatic)
  | .submit (.updateMeta name expected _ _ _ next _) (.record _) _ =>
      ∀ s, secretAt A.codec w.tables name = some s → s.currentVersion = expected → next ≠ .keep → s.kind = .automatic
  | _ => True

/-- What holds of a stored secret between the operations. -/
structure Fits (w : World) (name : String) (s : SecretRecord) : Prop where
  timer : s.nextRotationAt.isSome ↔ s.kind = .automatic
  sealing : ∃ x, w.sealings name (w.incarnation name) s.currentVersion = some x ∧ x.payload.format = s.format

structure FitInv (A : AppState) (w : World) : Prop where
  vault : VaultInv A (unwrapping A) w
  fits : ∀ name s, secretAt A.codec w.tables name = some s → Fits w name s

section Fits
variable {A : AppState} {w w' : World}

theorem secretsFit_of_inv (h : FitInv A w) : SecretsFit A w := by
  intro name s hs
  obtain ⟨htimer, x, hx, hformat⟩ := h.fits name s hs
  obtain ⟨hname, hpos⟩ := h.vault.store.valid name s hs
  obtain ⟨v, hv, _⟩ := h.vault.store.current name s hs
  obtain ⟨y, hy, hrel⟩ := h.vault.row name s.currentVersion v hname hpos hv
  cases hx.symm.trans hy
  refine ⟨htimer, v, x, hv, hx, hformat, ?_⟩
  rw [openVersion_of_unwraps (h.vault.sealed _ _ _ x hx) hrel, ← hformat]
  exact decodePayload_bytes A x.payload

/-- What stays to be shown after an operation: secrets that are stored as before still fit. -/
theorem fits_step (h : FitInv A w) (hlater : Later w w')
    (hsecret : ∀ n s, secretAt A.codec w'.tables n = some s →
      (secretAt A.codec w.tables n = some s ∧ w'.incarnation n = w.incarnation n) ∨ Fits w' n s) :
    ∀ n s, secretAt A.codec w'.tables n = some s → Fits w' n s := by
  intro n s hs
  rcases hsecret n s hs with ⟨hs', hinc⟩ | hfits
  · obtain ⟨htimer, x, hx, hformat⟩ := h.fits n s hs'
    refine ⟨htimer, x, ?_, hformat⟩
    rw [hinc]
    exact hlater.sealings _ _ _ _ hx
  · exact hfits

theorem resetTimer_cases (reset : Bool) (now interval : Int64) :
    resetTimer reset now interval = .keep ∨ ∃ at_, resetTimer reset now interval = .set (some at_) := by
  cases reset with
  | false => exact Or.inl rfl
  | true => exact Or.inr ⟨_, rfl⟩

/-- Commands keep the rotation time or set one. -/
theorem timer_resolve {next : NextRotation} {old : Option Int64} {kind : SecretKind}
    (h : old.isSome ↔ kind = .automatic) (hnext : next = .keep ∨ ∃ at_, next = .set (some at_))
    (hK : next ≠ .keep → kind = .automatic) : (next.resolve old).isSome ↔ kind = .automatic := by
  rcases hnext with rfl | ⟨at_, rfl⟩
  · exact h
  · exact ⟨fun _ => hK (fun hkeep => nomatch hkeep), fun _ => rfl⟩

theorem fits_newSecretRecord {req : CreateSecretRequest} {grace now : Int64} {x : Sealing}
    (interval : req.kind = .automatic → req.rotationIntervalSecs.isSome)
    (hx : w.sealings req.name (w.incarnation req.name) 1 = some x) :
    Fits w req.name (newSecretRecord req x.payload.format grace now) := by
  refine ⟨?_, x, hx, rfl⟩
  show (if req.kind = .automatic then req.rotationIntervalSecs.map (nextRotationUnix now) else none).isSome ↔ _
  by_cases hkind : req.kind = .automatic
  · rw [if_pos hkind, Option.isSome_map, interval hkind]
    exact iff_of_true rfl hkind
  · rw [if_neg hkind]
    exact iff_of_false Bool.false_ne_true hkind

theorem fits_create (h : FitInv A w) {req : CreateSecretRequest} {grace now : Int64} {x : Sealing} {t' : Tables}
    (interval : req.kind = .automatic → req.rotationIntervalSecs.isSome) (hx : x.Valid A req.name 1)
    (hlater : Later w { w.withSealing req.name x.record.version (some x) with tables := t' })
    (hok : createSecret A.codec (newSecretRecord req x.payload.format grace now) x.record w.tables = (.ok (), t')) :
    ∀ n s, secretAt A.codec t' n = some s →
      Fits { w.withSealing req.name x.record.version (some x) with tables := t' } n s := by
  refine fits_step h hlater fun n s hs => ?_
  obtain ⟨_, _, rfl⟩ := createSecret_ok hok
  rw [secretAt, recordAt_insert] at hs
  split_ifs at hs with hn
  · cases hs
    subst hn
    refine Or.inr (fits_newSecretRecord interval ?_)
    dsimp only
    rw [hx.version, sealings_withSealing, if_pos ⟨rfl, rfl, rfl⟩]
  · exact Or.inl ⟨hs, rfl⟩

theorem fits_putVersion (h : FitInv A w) {name : String} {basis : SecretRecord} {x : Sealing} {expiry : Option Int64}
    {setDescription : Option String} {setRotationIntervalSecs setGraceSecs : Option Int64} {next : NextRotation}
    {now : Int64} {t' : Tables}
    (hi : (Command.putVersion name basis.currentVersion x.record expiry setDescription setRotationIntervalSecs
      setGraceSecs next now).Issued)
    (hformat : x.payload.format = basis.format) (hnext : next = .keep ∨ ∃ at_, next = .set (some at_))
    (hK : ∀ s, secretAt A.codec w.tables name = some s → s.currentVersion = basis.currentVersion →
      s.format = basis.format ∧ (next ≠ .keep → s.kind = .automatic))
    (hlater : Later w { w.withSealing name x.record.version (some x) with tables := t' })
    (hok : putVersion A.codec name basis.currentVersion x.record expiry setDescription setRotationIntervalSecs
      setGraceSecs next now w.tables = (.ok (), t')) :
    ∀ n s, secretAt A.codec t' n = some s →
      Fits { w.withSealing name x.record.version (some x) with tables := t' } n s := by
  refine fits_step h hlater fun n s hs => ?_
  obtain ⟨secret, prev, _, _, hsecret, hcur, _, _, _, _, hsecrets, _⟩ := putVersion_records h.vault.store hi hok
  obtain ⟨hsame, hkind⟩ := hK secret hsecret hcur
  rw [hsecrets] at hs
  split_ifs at hs with hn
  · cases hs
    subst hn
    rw [applyMeta_eq]
    refine Or.inr ⟨timer_resolve (h.fits name secret hsecret).timer hnext hkind, x, ?_, hformat.trans hsame.symm⟩
    dsimp only
    rw [sealings_withSealing, if_pos ⟨rfl, rfl, rfl⟩]
  · exact Or.inl ⟨hs, rfl⟩

theorem fits_updateMeta (h : FitInv A w) {name : String} {expected : Int32} {setDescription : Option String}
    {setRotationIntervalSecs setGraceSecs : Option Int64} {next : NextRotation} {now : Int64} {t' : Tables}
    (hnext : next = .keep ∨ ∃ at_, next = .set (some at_))
    (hK : ∀ s, secretAt A.codec w.tables name = some s → s.currentVersion = expected →
      next ≠ .keep → s.kind = .automatic)
    (hlater : Later w { w with tables := t' })
    (hok : updateMeta A.codec name expected setDescription setRotationIntervalSecs setGraceSecs next now w.tables =
      (.ok (), t')) :
    ∀ n s, secretAt A.codec t' n = some s → Fits { w with tables := t' } n s := by
  refine fits_step h hlater fun n s hs => ?_
  obtain ⟨value, secret, hget, hdec, hcur, rfl⟩ := updateMeta_ok hok
  have hsecret : secretAt A.codec w.tables name = some secret := recordAt_of_get hget hdec
  rw [secretAt, recordAt_insert] at hs
  split_ifs at hs with hn
  · cases hs
    subst hn
    obtain ⟨htimer, hsealing⟩ := h.fits name secret hsecret
    rw [applyMeta_eq]
    exact Or.inr ⟨timer_resolve htimer hnext (hK secret hsecret hcur), hsealing⟩
  · exact Or.inl ⟨hs, rfl⟩

theorem fit_perform {call : ServiceCall} {op : Op} (hcall : call.isPass = false) (h : FitInv A w)
    (hop : Prepared A (FitInv A) Later call w op) (hK : CurrentBasis A w op) :
    FitInv A (w.perform A op) ∧ Later w (w.perform A op) := by
  obtain ⟨hvault, hlater⟩ := vault_perform h.vault hop fun hpass =>
    absurd (hcall.symm.trans hpass) Bool.false_ne_true
  refine ⟨⟨hvault, ?_⟩, hlater⟩
  -- a command that fails leaves the world as it is
  have hsubmit : ∀ {command : Command} {sealing : Option Sealing}, Later w (w.commit A command sealing) →
      (∀ t', applyCommand A.codec A.nodeId command w.tables = (.ok (), t') →
        Later w { w.record command sealing with tables := t' } →
        ∀ n s, secretAt A.codec t' n = some s → Fits { w.record command sealing with tables := t' } n s) →
      ∀ n s, secretAt A.codec (w.commit A command sealing).tables n = some s →
        Fits (w.commit A command sealing) n s :=
    fun hl hcommit => commit_of
      (P := fun w' => Later w w' → ∀ n s, secretAt A.codec w'.tables n = some s → Fits w' n s)
      (fun _ => h.fits) hcommit hl
  have hframe : ∀ command : Command, command.keepsSecrets = true → ∀ t',
      applyCommand A.codec A.nodeId command w.tables = (.ok (), t') → Later w { w with tables := t' } →
      ∀ n s, secretAt A.codec t' n = some s → Fits { w with tables := t' } n s := by
    intro command hkeep t' ht' hl
    have hf := (@applyCommand_frame A.codec A.nodeId command hkeep w.tables).1
    rw [ht'] at hf
    refine fits_step h hl fun n s hs => Or.inl ⟨?_, rfl⟩
    rw [secretAt, ← hf]
    exact hs
  cases hop with
  | read => exact h.fits
  | kms => exact h.fits
  | busy node value => exact fits_step h hlater fun n s hs => Or.inl ⟨hs, rfl⟩
  | audit entry => exact hsubmit hlater (hframe (.appendAudit entry) rfl)
  | completed state caller => exact hsubmit hlater (hframe (.setKmsRewrapState state) rfl)
  | sweep caller =>
      refine hsubmit hlater fun t' ht' hl => fits_step h hl fun n s hs => Or.inl ⟨?_, rfl⟩
      obtain ⟨_, _, rfl⟩ := expireGraceVersions_ok ht'
      exact hs
  | delete caller =>
      refine hsubmit hlater fun t' ht' hl => fits_step h hl fun n s hs => Or.inl ?_
      obtain ⟨_, rfl⟩ := deleteSecret_ok ht'
      rw [secretAt, recordAt_remove] at hs
      split_ifs at hs with hn
      exact ⟨hs, Function.update_of_ne (Ne.symm hn) _ _⟩
  | create caller interval sealing => exact hsubmit hlater fun t' ht' hl => fits_create h interval sealing hl ht'
  | updateVersion caller read next sealing format =>
      exact hsubmit hlater fun t' ht' hl => fits_putVersion h
        ⟨succ_of_nextVersion next, sealing.unexpired, sealing.aad, rfl⟩ format (resetTimer_cases _ _ _) hK hl ht'
  | updateMeta caller read =>
      exact hsubmit hlater fun t' ht' hl => fits_updateMeta h (resetTimer_cases _ _ _) hK hl ht'
  | rotate caller read kind next sealing format username =>
      exact hsubmit hlater fun t' ht' hl => fits_putVersion h
        ⟨succ_of_nextVersion next, sealing.unexpired, sealing.aad, rfl⟩ format (Or.inr ⟨_, rfl⟩) hK hl ht'
  | retry caller read kind => exact hsubmit hlater fun t' ht' hl => fits_updateMeta h (Or.inr ⟨_, rfl⟩) hK hl ht'
  | rewrap caller read rewrapped => exact absurd (hcall.symm.trans caller) Bool.false_ne_true
  | attempt caller read next target payload committed password role =>
      refine fits_step h hlater fun n s hs => Or.inl ?_
      obtain ⟨_, _, hw⟩ := perform_attempt_eq A w _ _ _
      rw [hw] at hs ⊢
      exact ⟨hs, rfl⟩

end Fits

/-! ## Runs of a rotation -/

section Rotation
variable (C : Codec)

def automaticRequest : CreateSecretRequest :=
  { opaqueRequest "a" "v" with kind := .automatic, rotationIntervalSecs := some 100 }

def loginRequest : CreateSecretRequest :=
  { opaqueRequest "a" "v" with value := none, username := some "u", password := some "p" }

def automaticA : SecretRecord := newSecretRecord automaticRequest .opaqueValue 0 0

def loginA : SecretRecord := newSecretRecord loginRequest .userpass 0 0

def loginSealing : Sealing := sealingOf (nodeWith C) "a" 1 (.userpass ⟨"u", "p"⟩) 0 2

/-- What a rotation of `a` seals as version 2. -/
def rotatedSealing : Sealing := sealingOf (nodeWith C) "a" 2 (.value "w") 0 3

def createAutomatic : ServiceCall := .create "root" automaticRequest (drawsOf 0 1 "")

def createLogin : ServiceCall := .create "root" loginRequest (drawsOf 0 2 "")

def rotateA : ServiceCall := .rotate "root" none "a" (drawsOf 0 3 "w")

/-- The command of the rotation. -/
def rotateOp : Op :=
  .submit (rotateCommand "a" automaticA 0 (rotatedSealing C).record) (.record automaticA) (some (rotatedSealing C))

/-- An automatic secret is created, and a rotation has sealed its next version. -/
def createThenRotate : List (SystemEvent ServiceCall) :=
  (.start createAutomatic :: List.replicate 3 (.step 0)) ++ (.start rotateA :: List.replicate 3 (.step 1))

def automaticWorld : World :=
  { freshWorld.withSealing "a" 1 (some (sealingA C 1)) with tables := oneSecret C automaticA (sealingA C 1).record }

variable {C} {K : World → Op → Prop}

theorem createThenRotate_run (hK : ∀ w op, op.isBased = false → K w op) : ∃ q next,
    RunsTo (serve (nodeWith C)) (System.Allows (fun call => call.isPass = false) K) ⟨freshWorld, []⟩ createThenRotate
      ⟨automaticWorld C, [(createAutomatic, q), (rotateA, .act (rotateOp C) next)]⟩ := by
  have hcheck : checkCreate (nodeWith C) automaticRequest "" = .ok (0, .value "v") := rfl
  have hsecret : secretAt C (automaticWorld C).tables "a" = some automaticA := recordAt_insert_self _ _
  obtain ⟨q, hcreate⟩ := serve_gets (P := fun call => call.isPass = false) [] createAutomatic rfl rfl
    (create_one "root" 0 1 (w := freshWorld) (K := K) hcheck isValidSecretName_a rfl (hK _))
  obtain ⟨next, hrotate⟩ := serve_next (P := fun call => call.isPass = false) [(createAutomatic, q)] rotateA rfl rfl
    (next_bind_left (rotateCommit_next (A := nodeWith C) (w := automaticWorld C) (n := 0) (hK _ _ rfl) hsecret rfl rfl
      (pure_runs _) (seal_runs (hK _ _ rfl) (hK _ _ rfl) rfl)))
  exact ⟨q, next, hcreate.append hrotate⟩

/-- The rotation submits its command at once. -/
def currentRotation : List (SystemEvent ServiceCall) := createThenRotate ++ [.step 1]

theorem currentRotation_run (C : Codec) : AllSteps (serve (nodeWith C))
    (System.Allows (fun call => call.isPass = false) (CurrentBasis (nodeWith C))) ⟨freshWorld, []⟩ currentRotation := by
  have hK : ∀ w op, op.isBased = false → CurrentBasis (nodeWith C) w op := by
    intro w op hop
    unfold CurrentBasis
    split
    · cases hop
    · cases hop
    · trivial
  have hcurrent : CurrentBasis (nodeWith C) (automaticWorld C) (rotateOp C) := by
    intro s hs _
    have hsecret : secretAt C (automaticWorld C).tables "a" = some automaticA := recordAt_insert_self _ _
    cases hsecret.symm.trans hs
    exact ⟨rfl, fun _ => rfl⟩
  obtain ⟨q, next, hfirst⟩ := createThenRotate_run hK
  have hact := System.run_act (World.perform (nodeWith C)) (ServiceCall.body (nodeWith C))
    (P := fun call => call.isPass = false)
    (show [(createAutomatic, q), (rotateA, .act (rotateOp C) next)][1]? = _ from rfl) hcurrent
  exact (hfirst.append hact).2

/-- Before the rotation submits its command, the secret is deleted and created again with a login. -/
def staleRotation : List (SystemEvent ServiceCall) :=
  createThenRotate ++ (.start deleteA :: List.replicate 1 (.step 2)) ++
    (.start createLogin :: List.replicate 3 (.step 3)) ++ [.step 1]

def emptiedWorld (C : Codec) : World :=
  { automaticWorld C with incarnation := Function.update freshWorld.incarnation "a" 1, tables := .empty }

def loginWorld (C : Codec) : World :=
  { (emptiedWorld C).withSealing "a" 1 (some (loginSealing C)) with
    tables := oneSecret C loginA (loginSealing C).record }

/-- The login after the rotation that was meant for the automatic secret. -/
def misfitA : SecretRecord :=
  { loginA with
    currentVersion := 2
    nextRotationAt := some (nextRotationUnix 0 (automaticA.rotationIntervalSecs.getD 0))
    updatedAt := 0 }

theorem rotateOp_loginWorld (C : Codec) :
    secretAt C ((loginWorld C).perform (nodeWith C) (rotateOp C)).tables "a" = some misfitA ∧
      versionAt C ((loginWorld C).perform (nodeWith C) (rotateOp C)).tables (versionKey "a" 2) =
        some (rotatedSealing C).record := by
  have hvalid := isValidSecretName_a
  have hne : versionKey "a" 2 ≠ versionKey "a" 1 :=
    versionKey_ne_of_version_ne hvalid (by decide) (by decide) (by decide)
  have hone : 1 ≤ (rotatedSealing C).record.version := show (1 : Int32) ≤ 2 by decide
  have hsecret : secretAt C (loginWorld C).tables "a" = some loginA := recordAt_insert_self _ _
  have hprev : versionAt C (loginWorld C).tables (versionKey "a" 1) = some (loginSealing C).record :=
    recordAt_insert_self _ _
  have happly := rotateCommand_eq (A := nodeWith C) automaticA 0
    (rotatedSealing C).record hvalid hone hsecret rfl hne hprev rfl
  rw [rotateOp, perform_submit, commit_eq (A := nodeWith C) happly]
  refine ⟨recordAt_insert_self _ _, ?_⟩
  exact (recordAt_insert_of_ne _ hne.symm).trans (recordAt_insert_self _ _)

theorem staleRotation_run (C : Codec) :
    let w := (run (serve (nodeWith C)) ⟨freshWorld, []⟩ staleRotation).shared
    secretAt C w.tables "a" = some misfitA ∧
      versionAt C w.tables (versionKey "a" 2) = some (rotatedSealing C).record := by
  have hvalid := isValidSecretName_a
  have hcheck : checkCreate (nodeWith C) loginRequest "" = .ok (0, .userpass ⟨"u", "p"⟩) := rfl
  obtain ⟨q, next, hfirst⟩ := @createThenRotate_run C (fun _ _ => True) fun _ _ _ => trivial
  obtain ⟨q₂, hdelete⟩ := serve_gets (P := fun call => call.isPass = false)
    [(createAutomatic, q), (rotateA, .act (rotateOp C) next)] deleteA rfl rfl
    (delete_one (nodeWith C) "root" (drawsOf 0 0 "") (K := fun _ _ => True) (w := automaticWorld C) (s := automaticA)
      (v := (sealingA C 1).record) hvalid (le_refl _) rfl trivial)
  obtain ⟨q₃, hcreate⟩ := serve_gets (P := fun call => call.isPass = false)
    [(createAutomatic, q), (rotateA, .act (rotateOp C) next), (deleteA, q₂)] createLogin rfl rfl
    (create_one "root" 0 2 (K := fun _ _ => True) (w := emptiedWorld C) hcheck hvalid rfl fun _ _ => trivial)
  have hact := System.run_act (World.perform (nodeWith C)) (ServiceCall.body (nodeWith C))
    (P := fun call => call.isPass = false) (K := fun _ _ => True) (s := loginWorld C)
    (show [(createAutomatic, q), (rotateA, .act (rotateOp C) next), (deleteA, q₂), (createLogin, q₃)][1]? = _ from rfl)
    trivial
  have hrun := (((hfirst.append hdelete).append hcreate).append hact).1
  intro w
  have hw : w = (loginWorld C).perform (nodeWith C) (rotateOp C) := congrArg System.shared hrun
  rw [hw]
  exact rotateOp_loginWorld C

theorem read_misfit (C : Codec) :
    (openVersion (nodeWith C) "a" misfitA.currentVersion (rotatedSealing C).record >>=
      decodePayload (nodeWith C) misfitA.format) = .error (.internal "stored userpass payload is malformed") := by
  have hopen : openVersion (nodeWith C) "a" 2 (rotatedSealing C).record = .ok (utf8 "w") :=
    openVersion_of_unwraps (valid_sealingOf C "a" 2 (.value "w") 0 3) ⟨rfl, rfl, rfl, rfl⟩
  have hnone : UserPass.json.serde.decode (utf8 "w") = none := by
    simp only [Json.serde, fromUTF8_utf8]
    rfl
  have hdecode : decodePayload (nodeWith C) .userpass (utf8 "w") =
      .error (.internal "stored userpass payload is malformed") := by
    simp only [decodePayload, decodeUserpass, nodeWith, hnone]
    rfl
  exact (congrArg (fun r => r >>= decodePayload (nodeWith C) .userpass) hopen).trans hdecode

end Rotation

/-! ## Every secret fits -/

/-- In every interleaving of calls, re-wrap passes apart, in which every command meets a record of the format
it was computed from and sets a rotation time only for an automatic secret, all secrets of every state reached
fit. -/
theorem secrets_fit (A : AppState) (w : World) (hw : w.Start) (events : List (SystemEvent ServiceCall))
    (hevents : AllSteps (serve A) (System.Allows (fun call => call.isPass = false) (CurrentBasis A)) ⟨w, []⟩ events) :
    ∀ before after, events = before ++ after → SecretsFit A (run (serve A) ⟨w, []⟩ before).shared := by
  rintro before after rfl
  have hstart : FitInv A w := by
    refine ⟨vault_start hw, fun name s hs => ?_⟩
    rw [secretAt, hw.secrets, recordAt_empty] at hs
    cases hs
  have hguarded := System.run_guards (I := FitInv A) (R := Later) (G := Prepared A (FitInv A) Later)
    (Q := fun call => call.Answered A (FitInv A) Later)
    (fun call s _ hs => body_guards (fun h => h.vault.store) (fun h => h.accepted) call hs)
    (fun call s op hcall hs hop hK => fit_perform hcall hs hop hK) hstart (allSteps_append.mp hevents).1
  exact secretsFit_of_inv hguarded.inv

theorem current_rotation_fits :
    SecretsFit (nodeWith jsonCodec) (run (serve (nodeWith jsonCodec)) ⟨freshWorld, []⟩ currentRotation).shared :=
  secrets_fit (nodeWith jsonCodec) freshWorld freshWorld_start currentRotation (currentRotation_run jsonCodec)
    currentRotation [] (List.append_nil _).symm

/-- A rotation of a deleted secret is committed to the login created after it: the login can no longer be read,
and a manual secret is due for rotation. -/
theorem stale_rotation_misfits :
    freshWorld.Start ∧
      ¬ SecretsFit (nodeWith jsonCodec) (run (serve (nodeWith jsonCodec)) ⟨freshWorld, []⟩ staleRotation).shared ∧
      ∃ s v, secretAt jsonCodec (run (serve (nodeWith jsonCodec)) ⟨freshWorld, []⟩ staleRotation).shared.tables "a" =
          some s ∧ s.kind = .manual ∧ s.nextRotationAt.isSome ∧
        versionAt jsonCodec (run (serve (nodeWith jsonCodec)) ⟨freshWorld, []⟩ staleRotation).shared.tables
          (versionKey "a" s.currentVersion) = some v ∧
        (openVersion (nodeWith jsonCodec) "a" s.currentVersion v >>= decodePayload (nodeWith jsonCodec) s.format) =
          .error (.internal "stored userpass payload is malformed") := by
  obtain ⟨hsecret, hversion⟩ := staleRotation_run jsonCodec
  refine ⟨freshWorld_start, fun h => ?_, misfitA, _, hsecret, rfl, rfl, hversion, read_misfit jsonCodec⟩
  have hkind := (h _ _ hsecret).timer.mp rfl
  cases hkind

end HyperionVault
