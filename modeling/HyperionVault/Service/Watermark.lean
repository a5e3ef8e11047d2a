import HyperionVault.Service.Labels

/-!
# The watermark of the passes

A pass that completes without a failure sets the watermark to its target; from then on the worker does not look
for versions under older material. The pass has looked at every row at some moment since it asked for its target,
so what is left are the rows that were written after that moment. A version whose data key is older than the
rotation and that is committed after the pass has gone by stays where it is.

* `aged` : the material of a row is not older than the one it was sealed under;
* `Covered`, `SweepLater` : a row that a pass need not look at again, and runs that leave such rows covered;
* `rows_perform` : what an operation does to a row;
* `MarkInv`, `mark_perform` : the invariant of the running service;
* `watermark_truthful` : where versions are committed in time and re-wraps are current, completed passes have
  left no live version under older material.
-/

namespace HyperionVault
open Lib

section Definitions
variable {A : AppState} (K : KeyAges A)

/-- The material of a row is not older than the one it was sealed under. -/
def aged : RowRel A where
  rel _ _ v x := K.wrappedAt x.record.wrappedDek ≤ K.wrappedAt v.wrappedDek
  sealed _ := le_refl _
  superseded _ h := h

/-- A live row has the label of the target, or has been sealed under material that is not older. -/
def Covered (target now : Int64) (name : String) (number : Int32) (w : World) : Prop :=
  ∀ v x, versionAt A.codec w.tables (versionKey name number) = some v →
    w.sealings name (w.incarnation name) number = some x → v.expiresAt.all (now < ·) = true →
    needsRewrap v target = false ∨ target ≤ K.wrappedAt x.record.wrappedDek

structure MarkInv (w : World) : Prop where
  labels : LabelInv K w
  aged : VaultInv A (aged K) w

/-- What is covered towards a rotation of the past stays covered. -/
structure SweepLater (w w' : World) : Prop where
  later : KeyLater w w'
  covered : ∀ target now name number, target ≤ w.material → isValidSecretName name = true → 1 ≤ number →
    Covered K target now name number w → Covered K target now name number w'

instance : IsPreorder World (SweepLater K) where
  refl w := ⟨refl_of KeyLater w, fun _ _ _ _ _ _ _ h => h⟩
  trans _ _ _ h h' := ⟨trans_of KeyLater h.later h'.later, fun target now name number htarget hname hnumber hcov =>
    h'.covered target now name number (htarget.trans h.later.material) hname hnumber
      (h.covered target now name number htarget hname hnumber hcov)⟩

end Definitions

/-! ## What an operation does to a row -/

/-- A row that is kept: it does not come back to life, and its label does not go back. -/
structure Kept (v v' : VersionRecord) : Prop where
  live : ∀ now, v'.expiresAt.all (now < ·) = true → v.expiresAt.all (now < ·) = true
  label : ∀ target, needsRewrap v target = false → needsRewrap v' target = false

theorem Kept.refl (v : VersionRecord) : Kept v v := ⟨fun _ h => h, fun _ h => h⟩

/-- A row after an operation is one that was there before, in the same incarnation of its name, or the one that
the operation has committed. -/
def RowKept (A : AppState) (w w' : World) (op : Op) (name : String) (number : Int32) (v' : VersionRecord) : Prop :=
  (∃ v, versionAt A.codec w.tables (versionKey name number) = some v ∧ Kept v v' ∧
    w'.incarnation name = w.incarnation name) ∨
  ∃ command basis x, op = .submit command basis (some x) ∧ v' = x.record ∧
    w'.sealings name (w'.incarnation name) number = some x

section Rows
variable {A : AppState} {S : RowRel A} {w : World} {name : String} {number : Int32} {v' : VersionRecord}

/-- A change of the tables that keeps the rows it leaves. -/
theorem rowKept_of_versions {w' : World} {op : Op} (hinc : w'.incarnation = w.incarnation)
    (hrow : ∀ key v', versionAt A.codec w'.tables key = some v' → versionAt A.codec w.tables key = some v')
    (hv' : versionAt A.codec w'.tables (versionKey name number) = some v') : RowKept A w w' op name number v' :=
  Or.inl ⟨v', hrow _ v' hv', Kept.refl v', congrFun hinc name⟩

/-- A re-wrap that is carried out gives the row a newer label. -/
theorem kept_rewrap {v : VersionRecord} {kmsKeyId : String} {wrapped : Bytes} {target : Int64}
    (hold : v.wrappedRotationAt.any (target ≤ ·) = false) :
    Kept v { v with kmsKeyId := kmsKeyId, wrappedDek := wrapped, wrappedRotationAt := some target } := by
  refine ⟨fun _ h => h, fun target' h => ?_⟩
  rw [needsRewrap_eq_not, Bool.not_eq_false'] at h ⊢
  cases hlabel : v.wrappedRotationAt with
  | none =>
      rw [hlabel] at h
      cases h
  | some label =>
      rw [hlabel] at h hold
      have hlt : label < target := not_le.mp (of_decide_eq_false hold)
      exact decide_eq_true ((of_decide_eq_true h).trans hlt.le)

theorem rowKept_rewrap {owner kmsKeyId : String} {version : Int32} {wrapped : Bytes} {target : Int64} {op : Op}
    {t' : Tables} (hok : rewrapVersion A.codec owner version kmsKeyId wrapped target w.tables = (.ok (), t'))
    (hv' : versionAt A.codec t' (versionKey name number) = some v') :
    RowKept A w { w with tables := t' } op name number v' := by
  rcases rewrapVersion_ok hok with rfl | ⟨value, v, hget, hdec, hold, rfl⟩
  · exact Or.inl ⟨v', hv', Kept.refl v', rfl⟩
  · rw [versionAt, recordAt_insert] at hv'
    split_ifs at hv' with hkey
    · cases hv'
      exact Or.inl ⟨v, hkey ▸ recordAt_of_get hget hdec, kept_rewrap hold, rfl⟩
    · exact Or.inl ⟨v', hv', Kept.refl v', rfl⟩

variable (hname : isValidSecretName name = true) (hnumber : 1 ≤ number)
include hname hnumber

theorem rowKept_create {secret : SecretRecord} {x : Sealing} {basis : Basis} {t' : Tables}
    (hx : x.Valid A secret.name 1) (hok : createSecret A.codec secret x.record w.tables = (.ok (), t'))
    (hv' : versionAt A.codec t' (versionKey name number) = some v') :
    RowKept A w { w.withSealing secret.name x.record.version (some x) with tables := t' }
      (.submit (.createSecret secret x.record) basis (some x)) name number v' := by
  obtain ⟨⟨hvalid, _⟩, _, rfl⟩ := createSecret_ok hok
  rw [versionAt, recordAt_insert] at hv'
  split_ifs at hv' with hkey
  · cases hv'
    obtain ⟨rfl, rfl⟩ := eq_of_versionKey_eq hvalid hname hx.version.ge hnumber hkey
    refine Or.inr ⟨_, _, x, rfl, rfl, ?_⟩
    dsimp only
    rw [sealings_withSealing, if_pos ⟨rfl, rfl, rfl⟩]
  · exact Or.inl ⟨v', hv', Kept.refl v', rfl⟩

theorem rowKept_putVersion (h : VaultInv A S w) {owner : String} {expectedCurrent : Int32} {x : Sealing} {basis : Basis}
    {supersedeExpiresAt : Option Int64} {setDescription : Option String}
    {setRotationIntervalSecs setGraceSecs : Option Int64} {nextRotationAt : NextRotation} {updatedAt : Int64}
    {t' : Tables} (hi : (Command.putVersion owner expectedCurrent x.record supersedeExpiresAt setDescription
      setRotationIntervalSecs setGraceSecs nextRotationAt updatedAt).Issued)
    (hok : putVersion A.codec owner expectedCurrent x.record supersedeExpiresAt setDescription setRotationIntervalSecs
      setGraceSecs nextRotationAt updatedAt w.tables = (.ok (), t'))
    (hv' : versionAt A.codec t' (versionKey name number) = some v') :
    RowKept A w { w.withSealing owner x.record.version (some x) with tables := t' }
      (.submit (.putVersion owner expectedCurrent x.record supersedeExpiresAt setDescription setRotationIntervalSecs
        setGraceSecs nextRotationAt updatedAt) basis (some x)) name number v' := by
  obtain ⟨secret, prev, expiry, _, hs, rfl, hone, _, _, hprev, _, hversions⟩ := putVersion_records h.store hi hok
  have hvalid := (h.store.valid owner secret hs).1
  rw [hversions] at hv'
  split_ifs at hv' with hold hkey
  · -- the version that is superseded had no expiry
    cases hv'
    obtain ⟨v, hv, hnone⟩ := h.store.current owner secret hs
    rw [hprev] at hv
    cases hv
    refine Or.inl ⟨prev, hold ▸ hprev, ⟨fun now _ => ?_, fun _ hlabel => hlabel⟩, rfl⟩
    rw [hnone]
    rfl
  · cases hv'
    obtain ⟨rfl, rfl⟩ := eq_of_versionKey_eq hvalid hname hone hnumber hkey
    refine Or.inr ⟨_, _, x, rfl, rfl, ?_⟩
    dsimp only
    rw [sealings_withSealing, if_pos ⟨rfl, rfl, rfl⟩]
  · exact Or.inl ⟨v', hv', Kept.refl v', rfl⟩

theorem rowKept_delete {owner : String} {op : Op} {t' : Tables} (hok : deleteSecret owner w.tables = (.ok (), t'))
    (hv' : versionAt A.codec t' (versionKey name number) = some v') :
    RowKept A w { w with incarnation := Function.update w.incarnation owner (w.incarnation owner + 1), tables := t' } op
      name number v' := by
  obtain ⟨_, rfl⟩ := deleteSecret_ok hok
  rw [versionAt, recordAt_removeAll] at hv'
  split_ifs at hv' with hmem
  obtain ⟨bytes, hget, _⟩ := get_of_recordAt hv'
  rw [mem_ownVersionKeys hname hnumber (hget ▸ rfl)] at hmem
  exact Or.inl ⟨v', hv', Kept.refl v', Function.update_of_ne hmem _ _⟩

/-- What an operation of the service does to a row. -/
theorem rows_perform {I : World → Prop} {R : World → World → Prop} {call : ServiceCall} {op : Op} (h : VaultInv A S w)
    (hop : Prepared A I R call w op)
    (hv' : versionAt A.codec (w.perform A op).tables (versionKey name number) = some v') :
    RowKept A w (w.perform A op) op name number v' := by
  have hkeep : ∀ {w' : World} {op : Op}, w'.tables = w.tables → w'.incarnation = w.incarnation →
      versionAt A.codec w'.tables (versionKey name number) = some v' → RowKept A w w' op name number v' := by
    intro w' op htables hinc hv'
    refine rowKept_of_versions hinc (fun key v hv => ?_) hv'
    rw [← htables]
    exact hv
  have hsubmit : ∀ {command : Command} {basis : Basis} {sealing : Option Sealing},
      versionAt A.codec (w.commit A command sealing).tables (versionKey name number) = some v' →
      (∀ t', applyCommand A.codec A.nodeId command w.tables = (.ok (), t') →
        versionAt A.codec t' (versionKey name number) = some v' →
        RowKept A w { w.record command sealing with tables := t' } (.submit command basis sealing) name number v') →
      RowKept A w (w.commit A command sealing) (.submit command basis sealing) name number v' :=
    fun {command basis sealing} hv' hcommit => commit_of
      (P := fun w' => versionAt A.codec w'.tables (versionKey name number) = some v' →
        RowKept A w w' (.submit command basis sealing) name number v') (hkeep rfl rfl) hcommit hv'
  have hframe : ∀ (command : Command) {op : Op}, command.keepsSecrets = true → ∀ t',
      applyCommand A.codec A.nodeId command w.tables = (.ok (), t') →
      versionAt A.codec t' (versionKey name number) = some v' →
      RowKept A w { w with tables := t' } op name number v' := by
    intro command op hkept t' ht' hv'
    have hf := (@applyCommand_frame A.codec A.nodeId command hkept w.tables).2
    rw [ht'] at hf
    refine rowKept_of_versions rfl (fun key v hv => ?_) hv'
    rw [versionAt, ← hf]
    exact hv
  cases hop with
  | read => exact hkeep rfl rfl hv'
  | kms => exact hkeep rfl rfl hv'
  | busy node value => exact hkeep rfl rfl hv'
  | audit entry => exact hsubmit hv' (hframe (.appendAudit entry) rfl)
  | completed state caller => exact hsubmit hv' (hframe (.setKmsRewrapState state) rfl)
  | sweep caller =>
      refine hsubmit hv' fun t' ht' hv' => rowKept_of_versions rfl (fun key v hv => ?_) hv'
      obtain ⟨expired, _, rfl⟩ := expireGraceVersions_ok ht'
      dsimp only at hv
      rw [versionAt, recordAt_removeAll] at hv
      split_ifs at hv
      exact hv
  | delete caller => exact hsubmit hv' fun t' ht' hv' => rowKept_delete hname hnumber ht' hv'
  | create caller interval sealing made =>
      exact hsubmit hv' fun t' ht' hv' => rowKept_create hname hnumber sealing ht' hv'
  | updateVersion caller read next sealing format made =>
      exact hsubmit hv' fun t' ht' hv' => rowKept_putVersion hname hnumber h
        ⟨succ_of_nextVersion next, sealing.unexpired, sealing.aad, rfl⟩ ht' hv'
  | rotate caller read kind next sealing format username made =>
      exact hsubmit hv' fun t' ht' hv' => rowKept_putVersion hname hnumber h
        ⟨succ_of_nextVersion next, sealing.unexpired, sealing.aad, rfl⟩ ht' hv'
  | updateMeta caller read =>
      refine hsubmit hv' fun t' ht' hv' => rowKept_of_versions rfl (fun key v hv => ?_) hv'
      obtain ⟨_, _, _, _, _, rfl⟩ := updateMeta_ok ht'
      exact hv
  | retry caller read kind =>
      refine hsubmit hv' fun t' ht' hv' => rowKept_of_versions rfl (fun key v hv => ?_) hv'
      obtain ⟨_, _, _, _, _, rfl⟩ := updateMeta_ok ht'
      exact hv
  | rewrap caller read rewrapped => exact hsubmit hv' fun t' ht' hv' => rowKept_rewrap ht' hv'
  | attempt caller read next target payload committed password role =>
      obtain ⟨_, _, hw⟩ := perform_attempt_eq A w _ _ _
      exact hkeep ((congrArg World.tables hw).trans rfl) ((congrArg World.incarnation hw).trans rfl) hv'

end Rows

/-! ## The invariant -/

section Steps
variable {A : AppState} {K : KeyAges A} {w : World} {I : World → Prop} {R : World → World → Prop} {call : ServiceCall}
  {op : Op}

/-- A current re-wrap leaves the row under material that is not older than the one it was sealed under. -/
theorem aged_perform (h : VaultInv A (aged K) w) (hop : KeyPrepared K I R call w op) (hK : CurrentRewrap A w op) :
    VaultInv A (aged K) (w.perform A op) := by
  obtain ⟨hprepared, hkey⟩ := hop
  refine (vault_perform h hprepared ?_).1
  intro name number keyId wrapped target basis sealing _ hsubmit v x hv hold hx _
  subst hsubmit
  cases hprepared with
  | rewrap caller read rewrapped =>
      obtain ⟨_, x₀, hx₀, hage⟩ := hkey
      -- the sealing of the row that was read is the sealing of the row that is written
      rw [← hK v hv hold, hx] at hx₀
      cases hx₀
      exact hage

/-- New rows are sealed under the material in use, and the others are kept. -/
theorem covered_perform (h : LabelInv K w) (hop : Prepared A I R call w op) (hK : CurrentKey K w op)
    (hlater : Later w (w.perform A op)) {target now : Int64} {name : String} {number : Int32}
    (htarget : target ≤ w.material) (hname : isValidSecretName name = true) (hnumber : 1 ≤ number)
    (hcov : Covered K target now name number w) : Covered K target now name number (w.perform A op) := by
  intro v' x' hv' hx' hlive
  rcases rows_perform hname hnumber h.vault hop hv' with ⟨v, hv, hkept, hinc⟩ | ⟨command, basis, x, hsubmit, rfl, hx⟩
  · obtain ⟨x, hx, _⟩ := h.vault.row name number v hname hnumber hv
    have hsame := hlater.sealings name (w.incarnation name) number x hx
    rw [← hinc, hx'] at hsame
    cases hsame
    rcases hcov v x' hv hx (hkept.live now hlive) with hlabel | hage
    · exact Or.inl (hkept.label target hlabel)
    · exact Or.inr hage
  · rw [hx'] at hx
    cases hx
    exact Or.inr (htarget.trans (hop.committed hsubmit hK).2)

theorem mark_perform (h : MarkInv K w) (hop : KeyPrepared K (MarkInv K) (SweepLater K) call w op)
    (hK : CurrentKey K w op ∧ CurrentRewrap A w op) :
    MarkInv K (w.perform A op) ∧ SweepLater K w (w.perform A op) := by
  obtain ⟨hlabels, hlater⟩ := label_perform MarkInv.labels SweepLater.later h.labels hop hK.1
  refine ⟨⟨hlabels, aged_perform h.aged hop hK.2⟩, hlater, fun target now name number htarget hname hnumber hcov => ?_⟩
  exact covered_perform h.labels hop.1 hK.1 hlater.later htarget hname hnumber hcov

theorem mark_rotateKey (h : MarkInv K w) {rotation : Int64} (hnew : w.material ≤ rotation) :
    MarkInv K (w.rotateKey rotation) ∧ SweepLater K w (w.rotateKey rotation) := by
  obtain ⟨hlabels, hlater⟩ := label_rotateKey h.labels hnew
  have haged : VaultInv A (aged K) (w.rotateKey rotation) ∧ Later w (w.rotateKey rotation) :=
    vault_congr h.aged rfl rfl rfl fun _ hy => hy
  exact ⟨⟨hlabels, haged.1⟩, hlater, fun _ _ _ _ _ _ _ hcov => hcov⟩

/-- Once every row has been settled, the live ones stay under material of the target or newer. -/
theorem wrapped_of_swept (h : MarkInv K w) {start : World} {target now : Int64} (htarget : target ≤ start.material)
    (hswept : Swept A (MarkInv K) (SweepLater K) start target now w) {name : String} {v : VersionRecord}
    (hname : isValidSecretName name = true) (hnumber : 1 ≤ v.version)
    (hv : versionAt A.codec w.tables (versionKey name v.version) = some v)
    (hlive : v.expiresAt.all (now < ·) = true) : target ≤ K.wrappedAt v.wrappedDek := by
  obtain ⟨w₁, _, hr₁, hstart, hsettled⟩ := hswept name v.version hname hnumber
  have hcov₁ : Covered K target now name v.version w₁ := fun v' _ hv' _ hlive' => Or.inl (hsettled v' hv' hlive')
  have hcov := hr₁.covered target now name v.version (htarget.trans hstart.later.material) hname hnumber hcov₁
  obtain ⟨x, hx, hage⟩ := h.aged.row name v.version v hname hnumber hv
  rcases hcov v x hv hx hlive with hlabel | hsealed
  · exact (h.labels.row hv).le_of_settled hlabel
  · exact hsealed.trans hage

/-- A completed pass is one whose rows have been settled. -/
theorem swept_of_completed {calls : List (KeyCall × Proc World Op (ApiResult KeyReply))} {target now : Int64}
    (hcompleted : Completed calls target now)
    (hsweeps : ∀ call reply, (call, .ret reply) ∈ calls → call.Sweeps A I R w reply) :
    ∃ start, target ≤ start.material ∧ Swept A I R start target now w := by
  rcases hcompleted with ⟨node, latest, d, completedAt, summary, rfl, hzero, _, hmem⟩ |
    ⟨node, leader, latest, d, completedAt, summary, rfl, hmem⟩
  · exact hsweeps _ _ hmem hzero
  · exact hsweeps _ _ hmem

end Steps

/-! ## Completed passes -/

theorem mark_start {A : AppState} {K : KeyAges A} {w : World} (h : w.Start) (hrotated : 0 ≤ w.material)
    (hmark : ∀ state, RedbStore.kmsRewrapState A.codec w.tables = .ok (some state) →
      state.lastCompletedRotationAt ≤ w.material) : MarkInv K w :=
  ⟨label_start h hrotated hmark, vault_start h⟩

/-- In every interleaving of calls, passes and rotations of the key in which each new version is committed while
the material of its data key is in use, and each re-wrap is of the present incarnation of its name: once a pass
has completed without a failure, in every state from then on all live versions of all secrets are wrapped under
material that is not older than the target of the pass. -/
theorem watermark_truthful (A : AppState) (K : KeyAges A) (w : World) (hw : w.Start) (hrotated : 0 ≤ w.material)
    (hmark : ∀ state, RedbStore.kmsRewrapState A.codec w.tables = .ok (some state) →
      state.lastCompletedRotationAt ≤ w.material)
    (events : List (System.OpenEvent KeyCall Int64))
    (hevents : AllSteps (keyServe A) (KeyAllows fun w op => CurrentKey K w op ∧ CurrentRewrap A w op) ⟨w, []⟩ events) :
    ∀ before after, events = before ++ after → ∀ target now,
      Completed (run (keyServe A) ⟨w, []⟩ before).calls target now → ∀ time, now ≤ time → ∀ name, ∃ versions,
        RedbStore.liveVersions A.codec name time (run (keyServe A) ⟨w, []⟩ before).shared.tables = .ok versions ∧
          ∀ v ∈ versions, target ≤ K.wrappedAt v.wrappedDek := by
  rintro before after rfl target now hcompleted time htime name
  have hguarded := System.run_guards_open (I := MarkInv K) (R := SweepLater K)
    (G := fun call => KeyPrepared K (MarkInv K) (SweepLater K) call.kind)
    (Q := fun call => call.Sweeps A (MarkInv K) (SweepLater K))
    (fun call s hcall hs => keyBody_guards (fun h => h.labels) (fun h => h.later) call hcall hs)
    (fun call s op _ hs hop hK => mark_perform hs hop hK)
    (fun s rotation hs hnew => mark_rotateKey hs hnew) (mark_start hw hrotated hmark) (allSteps_append.mp hevents).1
  obtain ⟨start, htarget, hswept⟩ := swept_of_completed hcompleted fun call reply hmem => hguarded.result hmem
  obtain ⟨versions, hversions, _, hmem⟩ := liveVersions_total hguarded.inv.labels.vault.store name time
  refine ⟨versions, hversions, fun v hv => ?_⟩
  obtain ⟨hname, hnumber, hrow, hlive⟩ := (hmem v).mp hv
  refine wrapped_of_swept hguarded.inv htarget hswept hname hnumber hrow ?_
  cases hexpiry : v.expiresAt with
  | none => rfl
  | some expiry =>
      rw [hexpiry] at hlive
      exact decide_eq_true (htime.trans_lt (of_decide_eq_true hlive))

theorem timely_pass_covers :
    ∃ versions, RedbStore.liveVersions jsonCodec "a" 0
      (run (keyServe (stampedNode stampSerde jsonCodec)) ⟨freshWorld, []⟩
        timelyRun).shared.tables = .ok versions ∧
      ∀ v ∈ versions, 5 ≤ (stampedAges stampSerde jsonCodec).wrappedAt v.wrappedDek := by
  obtain ⟨q, hrun, hallowed⟩ := timelyRun_allowed stampSerde jsonCodec
  refine watermark_truthful (stampedNode stampSerde jsonCodec) (stampedAges stampSerde jsonCodec) freshWorld
    freshWorld_start (le_refl _) (fun _ h => nomatch h) timelyRun hallowed timelyRun [] (List.append_nil _).symm 5 0 ?_
    0 (le_refl 0) "a"
  rw [hrun]
  exact Or.inl ⟨1, lastRotation, ⟨0, fun _ => 0⟩, 0, ⟨1, 1, 0⟩, rfl, rfl, by decide, by simp [forceKey]⟩

/-- The pass completes, with the watermark at 5, while a create call holds a data key of older material; the
version is committed afterwards and stays live under the older material. -/
theorem late_version_uncovered :
    AllSteps (keyServe (stampedNode stampSerde jsonCodec)) (KeyAllows fun _ _ => True) ⟨freshWorld, []⟩ lateLabel ∧
      Completed (run (keyServe (stampedNode stampSerde jsonCodec)) ⟨freshWorld, []⟩ lateLabel).calls 5 0 ∧
      RedbStore.kmsRewrapState jsonCodec (run (keyServe (stampedNode stampSerde jsonCodec)) ⟨freshWorld, []⟩
        lateLabel).shared.tables = .ok (some markAtFive) ∧
      ∃ v, RedbStore.liveVersions jsonCodec "a" 0 (run (keyServe (stampedNode stampSerde jsonCodec)) ⟨freshWorld, []⟩
          lateLabel).shared.tables = .ok [v] ∧
        (stampedAges stampSerde jsonCodec).wrappedAt v.wrappedDek = 0 := by
  obtain ⟨q, hrun, hallowed⟩ := lateLabel_run stampSerde jsonCodec
  rw [hrun]
  refine ⟨hallowed, Or.inl ⟨1, lastRotation, ⟨0, fun _ => 0⟩, 0, ⟨0, 0, 0⟩, rfl, rfl, by decide, by simp [forceKey]⟩,
    kmsRewrapState_swept jsonCodec, (stampedSealing stampSerde jsonCodec 0 5).record, ?_,
    wrappedAt_stamped stampSerde jsonCodec 0 5⟩
  exact liveVersions_single isValidSecretName_a (le_refl _) rfl rfl

end HyperionVault
