import HyperionVault.Service.Promises
import HyperionVault.Service.Rewrap
import HyperionVault.Store.Live

/-!
# What a re-wrap pass has covered

A pass lists the secrets, reads the live versions of one after the other and re-wraps those whose label is older
than the target, while other calls change the store. When it ends without a failure, each row has been settled at
some moment since the pass began: it was missing, had expired, or carried a label that is not older than the
target. These moments differ from row to row.

* `Settled`, `Swept` : one row, and all rows, each at its moment;
* `AllowsPass` : the operations of a pass;
* `settled_commit` : a re-wrap that is accepted settles its row;
* `rewrapOne_guards`, ... , `force_guards` : the parts of a pass, and a pass that is recorded.
-/

namespace HyperionVault
open Lib

/-- A row has the label that a pass towards `target` wants, or is no live version at the time `now`. -/
def Settled (A : AppState) (target now : Int64) (name : String) (number : Int32) (w : World) : Prop :=
  ∀ v, versionAt A.codec w.tables (versionKey name number) = some v → v.expiresAt.all (now < ·) = true →
    needsRewrap v target = false

/-- The row was read while the name was in this incarnation. -/
abbrev RowRead (A : AppState) (name : String) (incarnation : Nat) (v : VersionRecord) (w : World) : Prop :=
  w.incarnation name = incarnation ∧ isValidSecretName name = true ∧ 1 ≤ v.version ∧
    versionAt A.codec w.tables (versionKey name v.version) = some v

section Swept
variable (A : AppState) (I : World → Prop) (R : World → World → Prop) (G : World → Op → Prop) (start : World)
  (target : Int64)

/-- The row has been settled at some moment since `start`. -/
abbrev SettledSince (now : Int64) (name : String) (number : Int32) (w : World) : Prop :=
  Earlier I R w fun w₁ => R start w₁ ∧ Settled A target now name number w₁

def Swept (now : Int64) (w : World) : Prop :=
  ∀ name number, isValidSecretName name = true → 1 ≤ number → SettledSince A I R start target now name number w

/-- What a pass that begins in `start` is allowed: a key that is re-wrapped was read before it was sent to KMS. -/
structure AllowsPass : Prop where
  busy : ∀ w node value, G w (.busy node value)
  rewrap : ∀ {name keyId : String} {incarnation draw : Nat} {v : VersionRecord} {wrapped : Bytes} {w₁ w : World},
    R start w₁ → I w₁ → R w₁ w → Earlier I R w₁ (RowRead A name incarnation v) →
    A.kms.reencryptDataKey w₁.material draw v.wrappedDek v.kmsKeyId (kmsContext name v.version) = .ok (wrapped, keyId) →
    G w (.submit (.rewrapVersion name v.version keyId wrapped target) (.row incarnation v) none)
  completed : ∀ {w : World} (now : Int64), R start w → G w (.submit (.setKmsRewrapState
    { lastCompletedRotationAt := target, lastSweptAt := now, updatedAt := now }) .nothing none)

end Swept

/-! ## The label of a row -/

theorem needsRewrap_eq_not (v : VersionRecord) (target : Int64) :
    needsRewrap v target = !v.wrappedRotationAt.any (target ≤ ·) := by
  unfold needsRewrap
  cases v.wrappedRotationAt with
  | none => rfl
  | some label =>
      change decide (label < target) = !decide (target ≤ label)
      rw [← decide_not, decide_eq_decide]
      exact not_le.symm

/-- After a re-wrap that does not fail the row, if there is one, has a label that is not older than the target. -/
theorem settled_commit {A : AppState} {w : World} {name : String} {number : Int32} {kmsKeyId : String}
    {wrapped : Bytes} {target : Int64} {sealing : Option Sealing}
    (h : (RedbStore.apply A.codec A.nodeId (.rewrapVersion name number kmsKeyId wrapped target) w.tables).1 = .ok ())
    (now : Int64) : Settled A target now name number (w.commit A (.rewrapVersion name number kmsKeyId wrapped target)
      sealing) := by
  obtain ⟨t', ht'⟩ := redbStore_apply_ok h
  have htables : (w.commit A (.rewrapVersion name number kmsKeyId wrapped target) sealing).tables = t' := by
    simp only [World.commit, RedbStore.apply, ht']
  intro v hv _
  rw [htables] at hv
  rw [needsRewrap_eq_not]
  change rewrapVersion A.codec name number kmsKeyId wrapped target w.tables = (.ok (), t') at ht'
  unfold rewrapVersion at ht'
  split at ht'
  · next hget =>
      cases ht'
      obtain ⟨bytes, hbytes, _⟩ := get_of_recordAt hv
      rw [hget] at hbytes
      cases hbytes
  · next value hget =>
      split at ht'
      · cases ht'
      · next record hdec =>
          split_ifs at ht' with hlabel
          · cases ht'
            rw [versionAt, recordAt_of_get hget (decodeRow_ok.mp hdec)] at hv
            cases hv
            rw [hlabel]
            rfl
          · cases ht'
            rw [versionAt, recordAt_insert_self] at hv
            cases hv
            simp

section Passes
variable {A : AppState} {I : World → Prop} {R : World → World → Prop} [IsPreorder World R] {G : World → Op → Prop}
  [Observes G] {w start : World} {target : Int64}

theorem rewrapOne_guards (hG : AllowsPass A I R G start target) (hi : I w) (hstart : R start w) {name : String}
    {incarnation : Nat} {v : VersionRecord} (draw : Nat) (hread : Earlier I R w (RowRead A name incarnation v)) :
    (rewrapOne A name incarnation v target draw).Keeps A I R G w fun w' _ =>
      ∀ now, SettledSince A I R start target now name v.version w' := by
  refine Proc.guards_bind_ok hi (kms_guards hi _) fun w₁ r hw₁ hi₁ hr => ?_
  obtain ⟨w₀, hi₀, hr₀, hw₀, hkms⟩ := hr w₁ (refl_of R w₁) hi₁
  have hread₀ := hread.mono hw₀ fun _ h => h
  refine Proc.guards_conseq_ok (submit_guards hi₁ fun w' hw _ => ?_) fun w' _ hsubmit now => ?_
  · exact hG.rewrap (trans_of R hstart hw₀) hi₀ (trans_of R hr₀ hw) hread₀ hkms
  · refine hsubmit.mono (refl_of R w') ?_
    rintro _ ⟨w₂, hw₂, hr₂, hok, rfl⟩
    exact ⟨trans_of R hstart (trans_of R hw₁ (trans_of R hw₂ hr₂)), settled_commit hok now⟩

/-- A pass over the versions of a name counts its failures; without one, every version has been settled. -/
theorem rewrapVersions_guards (hG : AllowsPass A I R G start target) (hi : I w) (hstart : R start w) {name : String}
    {incarnation : Nat} (d : PassDraws) (versions : List VersionRecord) (summary : RewrapSummary)
    (hread : ∀ v ∈ versions, Earlier I R w fun w₀ => R start w₀ ∧ RowRead A name incarnation v w₀) :
    Proc.Guards (World.perform A) I R G (rewrapVersions A name incarnation target d versions summary) w
      fun w' out => summary.failed ≤ out.failed ∧ (out.failed = 0 →
        ∀ v ∈ versions, SettledSince A I R start target d.now name v.version w') := by
  induction versions generalizing w summary with
  | nil => exact fun _ _ _ => ⟨Nat.le_refl _, fun _ _ hv => nomatch hv⟩
  | cons v rest ih =>
      have hrest := fun v' (h : v' ∈ rest) => hread v' (List.mem_cons_of_mem v h)
      have hfirst := hread v List.mem_cons_self
      unfold rewrapVersions
      dsimp only
      split
      · refine Proc.guards_bind hi (rewrapOne_guards hG hi hstart _ (hfirst.mono (refl_of R w) fun _ h => h.2))
          fun w₁ outcome hw₁ hi₁ houtcome => ?_
        have hrest₁ := fun v' h => (hrest v' h).mono hw₁ fun _ h' => h'
        cases outcome with
        | ok u =>
            have hv := houtcome w₁ (refl_of R w₁) hi₁ () rfl d.now
            refine Proc.guards_conseq (Proc.guards_rel (ih hi₁ (trans_of R hstart hw₁) _ hrest₁)) ?_
            rintro w' out ⟨hw', _, hle, hall⟩
            refine ⟨hle, fun hzero => List.forall_mem_cons.mpr ⟨hv.mono hw' fun _ h => h, hall hzero⟩⟩
        | error e =>
            refine Proc.guards_conseq (ih hi₁ (trans_of R hstart hw₁) _ hrest₁) ?_
            rintro w' out ⟨hle, _⟩
            dsimp only at hle
            exact ⟨by omega, fun hzero => by omega⟩
      · next hneeds =>
          -- the row was settled when it was read
          have hv : SettledSince A I R start target d.now name v.version w := by
            refine hfirst.mono (refl_of R w) ?_
            rintro w₀ ⟨hw₀, _, _, _, hrow⟩
            refine ⟨hw₀, fun v' hv' _ => ?_⟩
            rw [hrow] at hv'
            cases hv'
            exact Bool.eq_false_iff.mpr hneeds
          refine Proc.guards_conseq (Proc.guards_rel (ih hi hstart _ hrest)) ?_
          rintro w' out ⟨hw', _, hle, hall⟩
          exact ⟨hle, fun hzero => List.forall_mem_cons.mpr ⟨hv.mono hw' fun _ h => h, hall hzero⟩⟩

/-- All versions of the secrets, those that were live when the versions of their secret were read. -/
theorem rewrapSecrets_guards (hG : AllowsPass A I R G start target) (hstore : ∀ {w}, I w → SecretInv A.codec w.tables)
    (hi : I w) (hstart : R start w) (d : PassDraws) (secrets : List SecretRecord) (summary : RewrapSummary) :
    (rewrapSecrets A target d secrets summary).Keeps A I R G w fun w' out =>
      summary.failed ≤ out.failed ∧ (out.failed = 0 → ∀ secret ∈ secrets, ∀ number,
        isValidSecretName secret.name = true → 1 ≤ number →
        SettledSince A I R start target d.now secret.name number w') := by
  induction secrets generalizing w summary with
  | nil => exact Proc.guards_pure fun _ _ _ => ⟨Nat.le_refl _, fun _ _ hs => nomatch hs⟩
  | cons secret rest ih =>
      refine Proc.guards_bind_ok hi (Proc.guards_lift (Q := fun w' r => Earlier I R w' fun w₀ => R w w₀ ∧
        (RedbStore.liveVersions A.codec secret.name d.now w₀.tables, w₀.incarnation secret.name) = r) hi
        (Proc.guards_perform fun w₀ hw hi₀ => ⟨Observes.read w₀, fun _ _ t ht _ => ⟨w₀, hi₀, ht, hw, rfl⟩⟩)) ?_
      intro w₁ r hw₁ hi₁ hr
      obtain ⟨w₀, hi₀, hr₀, hw₀, rfl⟩ := hr w₁ (refl_of R w₁) hi₁
      refine Proc.guards_bind_ok hi₁ (ofExcept_guards (Q := fun _ versions =>
        RedbStore.liveVersions A.codec secret.name d.now w₀.tables = .ok versions) fun _ h _ _ _ => h)
        fun w₂ versions hw₂ hi₂ hlive => ?_
      have hmem := fun v => @mem_liveVersions _ _ _ _ (hstore hi₀) versions (hlive w₂ (refl_of R w₂) hi₂) v
      have hstart₀ := trans_of R hstart hw₀
      have hstart₂ := trans_of R hstart (trans_of R hw₁ hw₂)
      have hlater := trans_of R hr₀ hw₂
      have hread : ∀ v ∈ versions, Earlier I R w₂ fun w₀' => R start w₀' ∧
          RowRead A secret.name (w₀.incarnation secret.name) v w₀' := by
        intro v hv
        obtain ⟨hname, hone, hrow, _⟩ := (hmem v).mp hv
        exact ⟨w₀, hi₀, hlater, hstart₀, rfl, hname, hone, hrow⟩
      refine Proc.guards_bind_ok hi₂ (Proc.guards_lift hi₂ (rewrapVersions_guards hG hi₂ hstart₂ d versions _ hread)) ?_
      intro w₃ summary' hw₃ hi₃ hversions
      obtain ⟨hle, hsettled⟩ := hversions w₃ (refl_of R w₃) hi₃
      refine Proc.guards_conseq (Proc.guards_rel (ih hi₃ (trans_of R hstart₂ hw₃) summary')) ?_
      rintro w' outcome ⟨hw', _, hrest⟩ out hout
      obtain ⟨hle', hall⟩ := hrest out hout
      refine ⟨hle.trans hle', fun hzero => List.forall_mem_cons.mpr ⟨fun number hname hone => ?_, hall hzero⟩⟩
      by_cases hrow : Settled A target d.now secret.name number w₀
      · exact ⟨w₀, hi₀, trans_of R hlater (trans_of R hw₃ hw'), hstart₀, hrow⟩
      · -- the row is one of those that the pass has found
        unfold Settled at hrow
        push Not at hrow
        obtain ⟨v, hv, hexpiry, _⟩ := hrow
        have hnumber := ((hstore hi₀).owned_versionKey hname hone hv).1
        subst hnumber
        have hv' := hsettled (by omega) v ((hmem v).mpr ⟨hname, hone, hv, hexpiry⟩)
        exact hv'.mono hw' fun _ h => h

/-- All secrets: a name that is not in the list had no version when the secrets were listed. -/
theorem rewrapAll_guards (hG : AllowsPass A I R G start target) (hstore : ∀ {w}, I w → SecretInv A.codec w.tables)
    (hi : I w) (hstart : R start w) (d : PassDraws) :
    (rewrapAll A target d).Keeps A I R G w fun w' out => out.failed = 0 → Swept A I R start target d.now w' := by
  refine Proc.guards_bind_ok hi (read_guards hi _) fun w₁ secrets hw₁ hi₁ hsecrets => ?_
  obtain ⟨w₀, hi₀, hr₀, hw₀, hlist⟩ := hsecrets w₁ (refl_of R w₁) hi₁
  have hall := rewrapSecrets_guards hG hstore hi₁ (trans_of R hstart hw₁) d secrets ⟨0, 0, 0⟩
  refine Proc.guards_conseq (Proc.guards_rel hall) ?_
  rintro w' outcome ⟨hw', _, hpass⟩ out hout hzero name number hname hone
  obtain ⟨_, hsettled⟩ := hpass out hout
  cases hs : secretAt A.codec w₀.tables name with
  | some s =>
      have hnamed := (hstore hi₀).named name s hs
      subst hnamed
      exact hsettled hzero s (mem_listSecrets hlist hs) number hname hone
  | none =>
      refine ⟨w₀, hi₀, trans_of R hr₀ hw', trans_of R hstart hw₀, fun v hv _ => ?_⟩
      obtain ⟨_, s, hs', _⟩ := (hstore hi₀).owned_versionKey hname hone hv
      rw [hs] at hs'
      cases hs'

theorem runPass_guards (hG : AllowsPass A I R G start target) (hstore : ∀ {w}, I w → SecretInv A.codec w.tables)
    (hi : I w) (hstart : R start w) (node : Nat) (d : PassDraws) :
    (runPass A node target d).Keeps A I R G w fun w' out => out.failed = 0 → Swept A I R start target d.now w' := by
  refine Proc.guards_bind_ok hi (Proc.guards_lift (Q := fun _ _ => True) hi
    (Proc.guards_perform fun w₀ _ _ => ⟨hG.busy w₀ node true, fun _ _ _ _ _ => trivial⟩)) fun w₁ busy hw₁ hi₁ _ => ?_
  split
  · exact Proc.guards_throw
  · have hall := rewrapAll_guards hG hstore hi₁ (trans_of R hstart hw₁) d
    refine Proc.guards_bind_ok hi₁ (Proc.guards_lift hi₁ hall) fun w₂ outcome _ hi₂ houtcome => ?_
    refine Proc.guards_bind_ok hi₂ (Proc.guards_lift (Q := fun _ _ => True) hi₂
      (Proc.guards_perform fun w₀ _ _ => ⟨hG.busy w₀ node false, fun _ _ _ _ _ => trivial⟩)) fun w₃ _ hw₃ _ _ => ?_
    exact ofExcept_guards fun out hout w' hw' hi' => houtcome w' (trans_of R hw₃ hw') hi' out hout

/-- A pass that is recorded as completed. -/
theorem force_guards (hG : AllowsPass A I R G start target) (hstore : ∀ {w}, I w → SecretInv A.codec w.tables)
    (hi : I w) (hstart : R start w) (node : Nat) (d : PassDraws) (completedAt : Int64) :
    (force A node target d completedAt).Keeps A I R G w fun w' out =>
      out.failed = 0 → Swept A I R start target d.now w' := by
  refine Proc.guards_bind_ok hi (runPass_guards hG hstore hi hstart node d) fun w₁ summary hw₁ hi₁ hswept => ?_
  split
  · refine Proc.guards_bind_ok hi₁ (submit_guards hi₁ fun w' hw _ => ?_) fun w₂ _ hw₂ _ _ => ?_
    · exact hG.completed completedAt (trans_of R hstart (trans_of R hw₁ hw))
    · exact Proc.guards_pure fun w' hw hi' => hswept w' (trans_of R hw₂ hw) hi'
  · exact Proc.guards_pure hswept

end Passes

end HyperionVault
