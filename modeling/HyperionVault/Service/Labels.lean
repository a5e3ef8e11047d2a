import HyperionVault.Service.RewrapWorker
import HyperionVault.Service.Unwrapping

/-!
# The labels of the rows

A row carries the rotation that its data key is supposed to be wrapped under. A pass writes the rotation it was
started for beside a key that KMS has wrapped since. A new version takes its key from KMS first and its label from
the watermark of the store afterwards: when the key is rotated and a pass completes between the two, the label is
newer than the material of the key.

* `KeyAges` : the material that a data key is wrapped under;
* `Truthful` : a label is not newer than the material;
* `CurrentKey` : a version is committed while the material of its key is in use;
* `LabelInv`, `label_perform` : the invariant of the running service;
* `KeyPrepared`, `keyBody_guards` : the operations of the calls, and what a pass has covered;
* `labels_truthful` : where every version is committed in time, all labels are truthful in every state.
-/

namespace HyperionVault
open Lib

/-- A wrapped data key tells the rotation time of the material it is wrapped under. -/
structure KeyAges (A : AppState) where
  wrappedAt : Bytes → Int64
  generated : ∀ {material draw context key}, A.kms.generateDataKey material draw context = .ok key →
    wrappedAt key.wrapped = material
  reencrypted : ∀ {material draw wrapped keyId context wrapped' keyId'},
    A.kms.reencryptDataKey material draw wrapped keyId context = .ok (wrapped', keyId') → wrappedAt wrapped' = material

section Definitions
variable {A : AppState} (K : KeyAges A)

/-- The data key of the row is wrapped under material that is not older than its label. -/
def Truthful (v : VersionRecord) : Prop := ∀ label, v.wrappedRotationAt = some label → label ≤ K.wrappedAt v.wrappedDek

/-- A new version is committed while the material that wrapped its data key is in use. -/
def CurrentKey (w : World) : Op → Prop
  | .submit (.createSecret _ version) _ _ => w.material ≤ K.wrappedAt version.wrappedDek
  | .submit (.putVersion _ _ version _ _ _ _ _ _) _ _ => w.material ≤ K.wrappedAt version.wrappedDek
  | _ => True

/-- A row has a truthful label if it was sealed with one. -/
def labelled : RowRel A where
  rel _ _ v x := Truthful K x.record → Truthful K v
  sealed _ h := h
  superseded _ h := h

structure LabelInv (w : World) : Prop where
  vault : VaultInv A (labelled K) w
  truthful : ∀ name inc number x, w.sealings name inc number = some x → Truthful K x.record
  keyed : ∀ name inc number x, w.sealings name inc number = some x → K.wrappedAt x.record.wrappedDek ≤ w.material
  rotated : 0 ≤ w.material
  mark : ∀ state, RedbStore.kmsRewrapState A.codec w.tables = .ok (some state) →
    state.lastCompletedRotationAt ≤ w.material

/-- What a pass knows about the key it submits, and about the watermark. -/
def KeyOp (w : World) : Op → Prop
  | .submit (.rewrapVersion name number _ wrapped target) (.row incarnation _) _ => target ≤ K.wrappedAt wrapped ∧
      ∃ x, w.sealings name incarnation number = some x ∧ K.wrappedAt x.record.wrappedDek ≤ K.wrappedAt wrapped
  | .submit (.setKmsRewrapState state) _ _ => state.lastCompletedRotationAt ≤ w.material
  | _ => True

/-- The operations of a call, with what a pass knows about the material. -/
def KeyPrepared (I : World → Prop) (R : World → World → Prop) (call : ServiceCall) (w : World) (op : Op) : Prop :=
  Prepared A I R call w op ∧ KeyOp K w op

instance (I : World → Prop) (R : World → World → Prop) (call : ServiceCall) : Observes (KeyPrepared K I R call) :=
  ⟨fun _ => ⟨.read, trivial⟩, fun _ => ⟨.kms, trivial⟩⟩

end Definitions

/-- The history grows, and so does the age of the material. -/
structure KeyLater (w w' : World) : Prop where
  later : Later w w'
  material : w.material ≤ w'.material

instance : IsPreorder World KeyLater where
  refl w := ⟨refl_of Later w, le_refl _⟩
  trans _ _ _ h h' := ⟨trans_of Later h.later h'.later, h.material.trans h'.material⟩

theorem Truthful.le_of_settled {A : AppState} {K : KeyAges A} {v : VersionRecord} (h : Truthful K v) {target : Int64}
    (hlabel : needsRewrap v target = false) : target ≤ K.wrappedAt v.wrappedDek := by
  unfold needsRewrap at hlabel
  cases hv : v.wrappedRotationAt with
  | none =>
      rw [hv] at hlabel
      cases hlabel
  | some label =>
      rw [hv] at hlabel
      exact (not_lt.mp (of_decide_eq_false hlabel)).trans (h label hv)

section Steps
variable {A : AppState} {K : KeyAges A} {w : World}

theorem LabelInv.row (h : LabelInv K w) {key : String} {v : VersionRecord}
    (hv : versionAt A.codec w.tables key = some v) : Truthful K v := by
  obtain ⟨name, s, rfl, hs, hone, _⟩ := h.vault.store.owned key v hv
  obtain ⟨x, hx, hrel⟩ := h.vault.row name v.version v (h.vault.store.valid name s hs).1 hone hv
  exact hrel (h.truthful name _ v.version x hx)

theorem sealings_record {command : Command} {sealing : Option Sealing} {name : String} {inc : Nat} {number : Int32}
    {x : Sealing} (h : (w.record command sealing).sealings name inc number = some x) :
    w.sealings name inc number = some x ∨ sealing = some x := by
  have hwith : ∀ n k, (w.withSealing n k sealing).sealings name inc number = some x →
      w.sealings name inc number = some x ∨ sealing = some x := by
    intro n k hx
    rw [sealings_withSealing] at hx
    split_ifs at hx
    · exact Or.inr hx
    · exact Or.inl hx
  unfold World.record at h
  split at h
  · exact hwith _ _ h
  · exact hwith _ _ h
  · exact Or.inl h
  · exact Or.inl h

/-- What is new in the history was committed with the operation. -/
theorem sealings_perform {op : Op} {name : String} {inc : Nat} {number : Int32} {x : Sealing}
    (h : (w.perform A op).sealings name inc number = some x) :
    w.sealings name inc number = some x ∨ ∃ command basis, op = .submit command basis (some x) := by
  cases op with
  | submit command basis sealing =>
      change (w.commit A command sealing).sealings name inc number = some x at h
      rcases commit_cases A w command sealing with hw | ⟨t', _, hw⟩
      · rw [hw] at h
        exact Or.inl h
      · rw [hw] at h
        rcases sealings_record h with hx | rfl
        · exact Or.inl hx
        · exact Or.inr ⟨command, basis, rfl⟩
  | attempt a n version =>
      obtain ⟨_, _, hw⟩ := perform_attempt_eq A w a n version
      rw [hw] at h
      exact Or.inl h
  | _ => exact Or.inl h

theorem material_perform (op : Op) : (w.perform A op).material = w.material := by
  cases op with
  | submit command basis sealing =>
      refine commit_of (P := fun w' => w'.material = w.material) rfl fun t' _ => ?_
      unfold World.record
      split <;> rfl
  | attempt a n version =>
      obtain ⟨_, _, hw⟩ := perform_attempt_eq A w a n version
      rw [hw]
  | _ => rfl

variable {I : World → Prop} {R : World → World → Prop} {call : ServiceCall} {op : Op}

/-- A sealing that is committed was made in the run, and `CurrentKey` is about its data key. -/
theorem Prepared.committed (hop : Prepared A I R call w op) {command : Command} {basis : Basis} {x : Sealing}
    (hsubmit : op = .submit command basis (some x)) (hK : CurrentKey K w op) :
    (∃ name number, x.Made A I R name number w) ∧ w.material ≤ K.wrappedAt x.record.wrappedDek := by
  cases hop with
  | create caller interval sealing made =>
      cases hsubmit
      exact ⟨⟨_, _, made⟩, hK⟩
  | updateVersion caller read next sealing format made =>
      cases hsubmit
      exact ⟨⟨_, _, made⟩, hK⟩
  | rotate caller read kind next sealing format username made =>
      cases hsubmit
      exact ⟨⟨_, _, made⟩, hK⟩
  | _ => cases hsubmit

/-- The watermark is what it was, or the one that a pass stores. -/
theorem Prepared.mark (hop : Prepared A I R call w op) {state : KmsRewrapState}
    (hstate : RedbStore.kmsRewrapState A.codec (w.perform A op).tables = .ok (some state)) :
    RedbStore.kmsRewrapState A.codec w.tables = .ok (some state) ∨
      op = .submit (.setKmsRewrapState state) .nothing none := by
  have hsame : (w.perform A op).tables.kmsRewrap = w.tables.kmsRewrap →
      RedbStore.kmsRewrapState A.codec w.tables = .ok (some state) := by
    intro h
    rw [RedbStore.kmsRewrapState, ← h]
    exact hstate
  cases hop with
  | completed state' caller =>
      have hnew : RedbStore.kmsRewrapState A.codec
          (w.perform A (.submit (.setKmsRewrapState state') .nothing none)).tables =
          .ok (some state') := lookup_eq_ok.mpr (recordAt_insert_self _ _)
      rw [hnew] at hstate
      cases hstate
      exact Or.inr rfl
  | attempt =>
      obtain ⟨_, _, hw⟩ := perform_attempt_eq A w _ _ _
      exact Or.inl (hsame (congrArg (fun w => w.tables.kmsRewrap) hw))
  | read => exact Or.inl (hsame rfl)
  | kms => exact Or.inl (hsame rfl)
  | busy => exact Or.inl (hsame rfl)
  | _ => exact Or.inl (hsame (kmsRewrap_commit nofun nofun))

/-- A label that was read and a key that was generated before, while the material of the key is still in use. -/
theorem Sealing.Made.truthful {name : String} {number : Int32} {x : Sealing} (hx : x.Made A I R name number w)
    (hI : ∀ {w}, I w → LabelInv K w) (hR : ∀ {w w'}, R w w' → KeyLater w w')
    (hcurrent : w.material ≤ K.wrappedAt x.record.wrappedDek) : Truthful K x.record := by
  obtain ⟨w₀, hi₀, hr₀, state, hstate, hlabel⟩ := hx.label
  intro label hv
  rw [hlabel] at hv
  cases hv
  have hmark : (state.map KmsRewrapState.lastCompletedRotationAt).getD 0 ≤ w₀.material := by
    cases state with
    | none => exact (hI hi₀).rotated
    | some state => exact (hI hi₀).mark state hstate
  exact (hmark.trans (hR hr₀).material).trans hcurrent

theorem Sealing.Made.keyed {name : String} {number : Int32} {x : Sealing} (hx : x.Made A I R name number w)
    (hR : ∀ {w w'}, R w w' → KeyLater w w') : K.wrappedAt x.record.wrappedDek ≤ w.material := by
  obtain ⟨w₀, _, hr₀, draw, hkey⟩ := hx.key
  rw [K.generated hkey]
  exact (hR hr₀).material

/-- Every operation keeps the labels truthful where new versions are committed in time. -/
theorem label_perform (hI : ∀ {w}, I w → LabelInv K w) (hR : ∀ {w w'}, R w w' → KeyLater w w') (h : LabelInv K w)
    (hop : KeyPrepared K I R call w op) (hK : CurrentKey K w op) :
    LabelInv K (w.perform A op) ∧ KeyLater w (w.perform A op) := by
  obtain ⟨hprepared, hkey⟩ := hop
  have hrewrap : ∀ {name number keyId wrapped target basis sealing}, call.isPass = true →
      op = .submit (.rewrapVersion name number keyId wrapped target) basis sealing → target ≤ K.wrappedAt wrapped := by
    intro name number keyId wrapped target basis sealing _ hsubmit
    subst hsubmit
    cases hprepared with
    | rewrap => exact hkey.1
  obtain ⟨hvault, hlater⟩ := vault_perform h.vault hprepared fun hpass hsubmit v x _ _ _ _ _ label hlabel => by
    cases hlabel
    exact hrewrap hpass hsubmit
  have hmaterial := @material_perform A w op
  refine ⟨⟨hvault, ?_, ?_, ?_, ?_⟩, hlater, hmaterial.ge⟩
  · intro name inc number x hx
    rcases sealings_perform hx with hx | ⟨command, basis, hsubmit⟩
    · exact h.truthful name inc number x hx
    · obtain ⟨⟨_, _, hmade⟩, hcurrent⟩ := hprepared.committed hsubmit hK
      exact hmade.truthful hI hR hcurrent
  · intro name inc number x hx
    rw [hmaterial]
    rcases sealings_perform hx with hx | ⟨command, basis, hsubmit⟩
    · exact h.keyed name inc number x hx
    · obtain ⟨⟨_, _, hmade⟩, _⟩ := hprepared.committed hsubmit hK
      exact hmade.keyed hR
  · rw [hmaterial]
    exact h.rotated
  · intro state hstate
    rw [hmaterial]
    rcases hprepared.mark hstate with hstate | rfl
    · exact h.mark state hstate
    · exact hkey

/-- A rotation of the key leaves every row under material that is older than the new one. -/
theorem label_rotateKey (h : LabelInv K w) {rotation : Int64} (hnew : w.material ≤ rotation) :
    LabelInv K (w.rotateKey rotation) ∧ KeyLater w (w.rotateKey rotation) := by
  obtain ⟨hvault, hlater⟩ : VaultInv A (labelled K) (w.rotateKey rotation) ∧ Later w (w.rotateKey rotation) :=
    vault_congr h.vault rfl rfl rfl fun _ hy => hy
  refine ⟨⟨hvault, h.truthful, ?_, h.rotated.trans hnew, ?_⟩, hlater, hnew⟩
  · exact fun name inc number x hx => (h.keyed name inc number x hx).trans hnew
  · exact fun state hstate => (h.mark state hstate).trans hnew

end Steps

/-! ## What the calls promise -/

/-- The call of the service with the same kinds of operations. -/
def KeyCall.kind : KeyCall → ServiceCall
  | .service call => call
  | .force node _ d completedAt => .rewrap node 0 d completedAt
  | .tick node _ _ d completedAt => .rewrap node 0 d completedAt

/-- When a pass has completed, every row has been settled since KMS was asked for the target. -/
def KeyCall.Sweeps (A : AppState) (I : World → Prop) (R : World → World → Prop) (call : KeyCall) (w : World)
    (reply : ApiResult KeyReply) : Prop :=
  match call, reply with
  | .force _ _ d _, .ok (.forced target summary) => summary.failed = 0 →
      ∃ start, target ≤ start.material ∧ Swept A I R start target d.now w
  | .tick _ _ _ d _, .ok (.ticked (.completed target _)) =>
      ∃ start, target ≤ start.material ∧ Swept A I R start target d.now w
  | _, _ => True

section Promises
variable {A : AppState} {K : KeyAges A} {I : World → Prop} {R : World → World → Prop} [IsPreorder World R] {w : World}

omit [IsPreorder World R] in
theorem KeyCall.sweeps_of_ok {call : KeyCall} {reply : ApiResult KeyReply}
    (h : Proc.OnOk (fun w' reply => call.Sweeps A I R w' (.ok reply)) w reply) : call.Sweeps A I R w reply := by
  cases reply with
  | ok reply => exact h reply rfl
  | error e => cases call <;> exact trivial

/-- A pass knows that the keys it submits are wrapped under material of its target or newer. -/
theorem allowsPass_key (hI : ∀ {w}, I w → LabelInv K w) (hR : ∀ {w w'}, R w w' → KeyLater w w') {call : ServiceCall}
    (hpass : call.isPass = true) {start : World} {target : Int64} (htarget : target ≤ start.material) :
    AllowsPass A I R (KeyPrepared K I R call) start target where
  busy _ _ _ := ⟨.busy _ _, trivial⟩
  rewrap := by
    intro name keyId incarnation draw v wrapped w₁ w hstart hi₁ hw hread hkms
    refine ⟨(allowsPass_prepared hpass start target).rewrap hstart hi₁ hw hread hkms, ?_⟩
    obtain ⟨w₀, hi₀, hr₀, hinc, hname, hone, hrow⟩ := hread
    obtain ⟨x, hx, _⟩ := (hI hi₀).vault.row name v.version v hname hone hrow
    rw [hinc] at hx
    have hx₁ := (hR hr₀).later.sealings name incarnation v.version x hx
    have hage := K.reencrypted hkms
    refine ⟨?_, x, (hR hw).later.sealings name incarnation v.version x hx₁, ?_⟩
    · rw [hage]
      exact htarget.trans (hR hstart).material
    · rw [hage]
      exact (hI hi₁).keyed name incarnation v.version x hx₁
  completed _ hstart := ⟨.completed _ hpass, htarget.trans (hR hstart).material⟩

/-- The target that KMS reports is not newer than the material in use. -/
theorem Reports.target_le {latest : RotationAnswer} (h : Reports latest) {answer : Option Int64}
    (hanswer : latest w.material = .ok answer) (hw : 0 ≤ w.material) : answer.getD 0 ≤ w.material := by
  cases answer with
  | none => exact hw
  | some target => exact h _ _ hanswer

theorem forceLatest_guards (hI : ∀ {w}, I w → LabelInv K w) (hR : ∀ {w w'}, R w w' → KeyLater w w')
    {call : ServiceCall} (hpass : call.isPass = true) {latest : RotationAnswer} (hlatest : Reports latest) (hi : I w)
    (node : Nat) (d : PassDraws) (completedAt : Int64) :
    (forceLatest A node latest d completedAt).Keeps A I R (KeyPrepared K I R call) w fun w' r => r.2.failed = 0 →
      ∃ start, r.1 ≤ start.material ∧ Swept A I R start r.1 d.now w' := by
  refine Proc.guards_bind_ok hi (kms_guards hi _) fun w₁ answer _ hi₁ hanswer => ?_
  obtain ⟨w₀, hi₀, hr₀, _, hanswer⟩ := hanswer w₁ (refl_of R w₁) hi₁
  have htarget := hlatest.target_le hanswer (hI hi₀).rotated
  have hforce := force_guards (allowsPass_key hI hR hpass htarget)
    (fun h => (hI h).vault.store) hi₁ hr₀ node d completedAt
  refine Proc.guards_bind_ok hi₁ hforce fun w₂ summary _ _ hswept => Proc.guards_pure fun w' hw hi' hzero => ?_
  exact ⟨w₀, htarget, hswept w' hw hi' hzero⟩

theorem tick_guards (hI : ∀ {w}, I w → LabelInv K w) (hR : ∀ {w w'}, R w w' → KeyLater w w')
    {call : ServiceCall} (hpass : call.isPass = true) {latest : RotationAnswer} (hlatest : Reports latest) (hi : I w)
    (node : Nat) (leader : Bool) (d : PassDraws) (completedAt : Int64) :
    (tick A node leader latest d completedAt).Keeps A I R (KeyPrepared K I R call) w fun w' outcome =>
      ∀ target summary, outcome = .completed target summary →
        ∃ start, target ≤ start.material ∧ Swept A I R start target d.now w' := by
  unfold tick
  split
  · exact Proc.guards_pure fun _ _ _ => nofun
  · refine Proc.guards_bind_ok hi (kms_guards hi _) fun w₁ answer _ hi₁ hanswer => ?_
    obtain ⟨w₀, hi₀, hr₀, _, hanswer⟩ := hanswer w₁ (refl_of R w₁) hi₁
    have htarget := hlatest.target_le hanswer (hI hi₀).rotated
    refine Proc.guards_bind_ok hi₁ (read_guards hi₁ _) fun w₂ persisted hw₂ hi₂ _ => ?_
    have hstart := trans_of R hr₀ hw₂
    cases persisted with
    | none =>
        have hG := allowsPass_key hI hR hpass htarget
        refine Proc.guards_bind_ok hi₂ (submit_guards hi₂ fun w' hw _ => hG.completed _ (trans_of R hstart hw)) ?_
        exact fun _ _ _ _ _ => Proc.guards_pure fun _ _ _ => nofun
    | some persisted =>
        cases answer with
        | none => exact Proc.guards_pure fun _ _ _ => nofun
        | some target =>
            have hG := allowsPass_key hI hR hpass htarget
            dsimp only
            split
            · exact Proc.guards_pure fun _ _ _ => nofun
            · refine Proc.guards_bind_ok hi₂ (runPass_guards hG (fun h => (hI h).vault.store) hi₂ hstart node d)
                fun w₃ summary hw₃ hi₃ hswept => ?_
              split
              · next hzero =>
                  refine Proc.guards_bind_ok hi₃ (submit_guards hi₃ fun w' hw _ =>
                    hG.completed _ (trans_of R hstart (trans_of R hw₃ hw))) fun w₄ _ hw₄ _ _ => ?_
                  refine Proc.guards_pure fun w' hw hi' target' summary' heq => ?_
                  cases heq
                  exact ⟨w₀, htarget, hswept w' (trans_of R hw₄ hw) hi' hzero⟩
              · exact Proc.guards_pure fun _ _ _ => nofun

/-- Every call performs prepared operations, and a pass that has completed has settled every row. -/
theorem keyBody_guards (hI : ∀ {w}, I w → LabelInv K w) (hR : ∀ {w w'}, R w w' → KeyLater w w') (call : KeyCall)
    (hcall : call.Genuine) (hi : I w) :
    Proc.Guards (World.perform A) I R (KeyPrepared K I R call.kind) (call.body A) w (call.Sweeps A I R) := by
  cases call with
  | service call =>
      have hbody := body_guards (A := A) (fun h => (hI h).vault.store) (fun h => (hR h).later.accepted) call hi
      have hkey : ∀ w op, I w → Prepared A I R call w op → KeyPrepared K I R call w op := by
        intro w op _ hop
        refine ⟨hop, ?_⟩
        cases hop with
        | completed state caller => exact absurd (hcall.symm.trans caller) Bool.false_ne_true
        | rewrap caller => exact absurd (hcall.symm.trans caller) Bool.false_ne_true
        | _ => exact trivial
      exact Proc.guards_bind hi (Proc.guards_weaken hbody hkey) fun _ _ _ _ _ _ _ _ => trivial
  | force node latest d completedAt =>
      refine Proc.guards_conseq (Proc.guards_bind_ok hi (forceLatest_guards hI hR rfl hcall hi node d completedAt)
        fun w₁ r _ _ hr => ?_) fun _ _ => KeyCall.sweeps_of_ok
      exact Proc.guards_pure fun w' hw hi' => hr w' hw hi'
  | tick node leader latest d completedAt =>
      refine Proc.guards_conseq (Proc.guards_bind_ok hi (tick_guards hI hR rfl hcall hi node leader d completedAt)
        fun w₁ outcome _ _ hr => ?_) fun _ _ => KeyCall.sweeps_of_ok
      refine Proc.guards_pure fun w' hw hi' => ?_
      cases outcome with
      | completed target summary => exact hr w' hw hi' target summary rfl
      | _ => exact trivial

end Promises

/-! ## Runs with a rotation -/

section Runs
variable {A : AppState} {K : World → Op → Prop} {n : Nat} {w w' : World}
  (calls : List (KeyCall × Proc World Op (ApiResult KeyReply))) {q : Proc World Op (ApiResult KeyReply)}

/-- Whether the operation does not write versions. -/
def Op.isPlain : Op → Bool
  | .submit (.createSecret ..) _ _ | .submit (.putVersion ..) _ _ | .submit (.rewrapVersion ..) _ _ => false
  | _ => true

/-- A call begins and performs `n` operations. -/
def callEvents (call : KeyCall) (place n : Nat) : List (System.OpenEvent KeyCall Int64) :=
  (SystemEvent.start call :: List.replicate n (.step place)).map .inside

/-- A call performs `n` more operations. -/
def restEvents (place n : Nat) : List (System.OpenEvent KeyCall Int64) :=
  (List.replicate n (SystemEvent.step place)).map .inside

theorem keyServe_call (call : KeyCall) (hcall : call.Genuine)
    (h : Proc.Reaches (World.perform A) K n (call.body A) w q w') :
    RunsTo (keyServe A) (KeyAllows K) ⟨w, calls⟩ (callEvents call calls.length n) ⟨w', calls ++ [(call, q)]⟩ :=
  System.runsTo_inside (System.run_call _ _ calls call hcall h)

theorem keyServe_rest (place : Nat) {call : KeyCall} {p : Proc World Op (ApiResult KeyReply)}
    (hplace : calls[place]? = some (call, p)) (h : Proc.Reaches (World.perform A) K n p w q w') :
    RunsTo (keyServe A) (KeyAllows K) ⟨w, calls⟩ (restEvents place n) ⟨w', calls.set place (call, q)⟩ :=
  System.runsTo_inside (System.run_reaches _ _ hplace h)

theorem keyServe_rotate {rotation : Int64} (h : w.material ≤ rotation) :
    RunsTo (keyServe A) (KeyAllows K) ⟨w, calls⟩ [.outside rotation] ⟨w.rotateKey rotation, calls⟩ :=
  runsTo_singleton h

/-- What is left of a call that has been told its data key. -/
theorem sealVersion_pauses (name : String) (number : Int32) (payload : Payload) (d : Draws) {key : DataKey}
    {ciphertext : Bytes} (hkms : K w .kms)
    (hkey : A.kms.generateDataKey w.material d.dataKey (kmsContext name number) = .ok key)
    (hseal : A.aead.sealWith key.plaintext d.nonce (aadFor name number) (payload.bytes A) = some ciphertext) :
    ∃ rest : Call Sealing, Proc.Reaches (World.perform A) K 1 (sealVersion A name number payload d).run w rest.run w ∧
      ∀ w' state, K w' .read → RedbStore.kmsRewrapState A.codec w'.tables = .ok state → rest.Runs A K 1 w' {
        record := {
          version := number
          kmsKeyId := key.keyId
          wrappedDek := key.wrapped
          nonce := d.nonce.val
          ciphertext := ciphertext
          aad := aadFor name number
          createdAt := d.now
          expiresAt := none
          wrappedRotationAt := some ((state.map KmsRewrapState.lastCompletedRotationAt).getD 0) }
        dek := key.plaintext
        payload := payload } w' := by
  refine ⟨_, Proc.reaches_bind_ret (m := 0) (kms_runs hkms hkey) ⟨rfl, rfl⟩, fun w' state hread hstate => ?_⟩
  refine runs_bind (n := 0) (m := 1) (ofOption_runs hseal) ?_
  exact runs_bind (n := 1) (m := 0) (read_runs hread hstate) (pure_runs _)

/-- A pass on request that fails nowhere. -/
theorem forceLatest_runs (node : Nat) (latest : RotationAnswer) (completedAt : Int64) {target : Int64} {d : PassDraws}
    {summary : RewrapSummary} (hK : ∀ w op, op.isPlain = true → K w op)
    (hlatest : latest w.material = .ok (some target))
    (hpos : 0 < target) (hidle : w.rewrapBusy node = false)
    (hall : (rewrapAll A target d).Runs A K n
      { w with rewrapBusy := Function.update w.rewrapBusy node true } summary w')
    (hzero : summary.failed = 0) :
    (forceLatest A node latest d completedAt).Runs A K (n + 4) w (target, summary) { w' with
      rewrapBusy := Function.update w'.rewrapBusy node false
      tables := { w'.tables with kmsRewrap := w'.tables.kmsRewrap.insert kmsRewrapStateKey (A.codec.kmsRewrap.encode
        { lastCompletedRotationAt := target, lastSweptAt := completedAt, updatedAt := completedAt }) } } := by
  have hpass : (runPass A node target d).Runs A K (n + 2) w summary
      { w' with rewrapBusy := Function.update w'.rewrapBusy node false } := by
    rw [show n + 2 = 1 + (n + 1) by omega]
    refine runs_bind (lift_runs (Proc.reaches_perform (hK _ _ rfl))) ?_
    rw [if_neg (by rw [hidle]; exact Bool.false_ne_true)]
    refine runs_bind (n := n) (m := 1) (lift_runs hall) ?_
    exact runs_bind (n := 1) (m := 0) (lift_runs (Proc.reaches_perform (hK _ _ rfl))) (ofExcept_runs rfl)
  rw [show n + 4 = 1 + (n + 3) by omega]
  refine runs_bind (kms_runs (hK _ _ rfl) hlatest) (runs_bind (n := n + 3) (m := 0) ?_ (pure_runs _))
  refine runs_bind (n := n + 2) (m := 1) hpass ?_
  rw [if_pos ⟨hzero, hpos⟩]
  exact runs_bind (n := 1) (m := 0) (submit_runs (hK _ _ rfl) rfl) (pure_runs _)

/-- A pass over a store of one secret with one version. -/
theorem rewrapAll_one (target : Int64) {d : PassDraws} {s : SecretRecord} {v : VersionRecord} {wrapped : Bytes}
    {keyId : String} (hK : ∀ w op, op.isPlain = true → K w op)
    (hlist : RedbStore.listSecrets A.codec w.tables = .ok [s])
    (hlive : RedbStore.liveVersions A.codec s.name d.now w.tables = .ok [v]) (hneeds : needsRewrap v target = true)
    (hkms : A.kms.reencryptDataKey w.material (d.reencrypt 1) v.wrappedDek v.kmsKeyId (kmsContext s.name v.version) =
      .ok (wrapped, keyId))
    (hrow : versionAt A.codec w.tables (versionKey s.name v.version) = some v)
    (hsubmit : K w (.submit (.rewrapVersion s.name v.version keyId wrapped target)
      (.row (w.incarnation s.name) v) none)) :
    (rewrapAll A target d).Runs A K 4 w ⟨1, 1, 0⟩ { w with tables := { w.tables with
      versions := w.tables.versions.insert (versionKey s.name v.version) (A.codec.version.encode { v with
        kmsKeyId := keyId, wrappedDek := wrapped, wrappedRotationAt := some target }) } } := by
  have hold : v.wrappedRotationAt.any (target ≤ ·) = false := by
    rw [needsRewrap_eq_not] at hneeds
    simpa using hneeds
  have hone : (rewrapOne A s.name (w.incarnation s.name) v target (d.reencrypt 1)).Runs A K 2 w () _ :=
    runs_bind (n := 1) (m := 1) (kms_runs (hK _ _ rfl) hkms)
      (submit_runs hsubmit (rewrapVersion_eq target hrow hold keyId wrapped))
  refine runs_bind (n := 1) (m := 3) (read_runs (hK _ _ rfl) hlist) ?_
  refine runs_bind (n := 1) (m := 2) (lift_runs (Proc.reaches_perform (hK _ _ rfl))) ?_
  refine runs_bind (n := 0) (m := 2) (ofExcept_runs hlive) ?_
  refine runs_bind (n := 2) (m := 0) (lift_runs ?_) (pure_runs _)
  rw [rewrapVersions, if_pos hneeds]
  exact Proc.reaches_bind_ret (m := 0) hone ⟨rfl, rfl⟩

end Runs

/-! A node whose KMS writes the material beside the key. -/

def stampedKms (S : Serde (Int64 × Bytes)) : Kms where
  generateDataKey material draw _ :=
    let dek := List.replicate 32 (UInt8.ofNat draw)
    .ok { plaintext := dek, wrapped := S.encode (material, dek), keyId := "key" }
  decryptDataKey wrapped _ _ :=
    match S.decode wrapped with
    | some (_, dek) => .ok dek
    | none => .error "not a wrapped key"
  reencryptDataKey material _ wrapped keyId _ :=
    match S.decode wrapped with
    | some (_, dek) => .ok (S.encode (material, dek), keyId)
    | none => .error "not a wrapped key"
  decrypt_generate := by
    intro material draw context key h
    cases h
    simp only [S.decode_encode]
  decrypt_reencrypt := by
    intro material draw wrapped keyId context wrapped' keyId' dek h hdek
    cases hdec : S.decode wrapped with
    | none =>
        simp only [hdec] at hdek
        cases hdek
    | some stamped =>
        simp only [hdec] at h hdek
        cases h
        simp only [S.decode_encode]
        exact hdek

def stampedNode (S : Serde (Int64 × Bytes)) (C : Codec) : AppState := { nodeWith C with kms := stampedKms S }

def stampedAges (S : Serde (Int64 × Bytes)) (C : Codec) : KeyAges (stampedNode S C) where
  wrappedAt wrapped := ((S.decode wrapped).map Prod.fst).getD 0
  generated := by
    intro material draw context key h
    cases h
    simp only [S.decode_encode]
    rfl
  reencrypted := by
    intro material draw wrapped keyId context wrapped' keyId' h
    change (match S.decode wrapped with
      | some (_, dek) => Except.ok (S.encode (material, dek), keyId)
      | none => .error "not a wrapped key") = _ at h
    cases hdec : S.decode wrapped with
    | none =>
        rw [hdec] at h
        cases h
    | some stamped =>
        rw [hdec] at h
        cases h
        simp only [S.decode_encode]
        rfl

section Stamped
variable (S : Serde (Int64 × Bytes)) (C : Codec)

/-- The rotation of the material in use, once there has been one. -/
def lastRotation : RotationAnswer := fun material => .ok (if material = 0 then none else some material)

theorem reports_lastRotation : Reports lastRotation := by
  intro material rotation h
  unfold lastRotation at h
  split_ifs at h
  · cases h
  · cases h
    exact le_refl _

/-- Version 1 of the secret `a`, with a key under `material` and the label `label`. -/
def stampedSealing (material label : Int64) : Sealing :=
  { sealingA C 1 with
    record := { (sealingA C 1).record with
      wrappedDek := S.encode (material, List.replicate 32 1), wrappedRotationAt := some label } }

def createKey : KeyCall := .service (createA 1)

def forceKey : KeyCall := .force 1 lastRotation ⟨0, fun _ => 0⟩ 0

/-- The watermark at the rotation 5. -/
def markAtFive : KmsRewrapState := { lastCompletedRotationAt := 5, lastSweptAt := 0, updatedAt := 0 }

/-- A create call is told its data key; the key is rotated and a pass over the empty store completes; then the
call reads its label and commits. -/
def lateLabel : List (System.OpenEvent KeyCall Int64) :=
  callEvents createKey 0 1 ++ [.outside 5] ++ callEvents forceKey 1 5 ++ restEvents 0 2

/-- The world when the pass has completed. -/
def sweptWorld : World :=
  { freshWorld.rotateKey 5 with
    rewrapBusy := Function.update (Function.update freshWorld.rewrapBusy 1 true) 1 false
    tables := { Tables.empty with kmsRewrap := Table.empty.insert kmsRewrapStateKey (C.kmsRewrap.encode markAtFive) } }

def lateWorld : World :=
  { (sweptWorld C).withSealing "a" 1 (some (stampedSealing S C 0 5)) with
    tables := { (sweptWorld C).tables with
      secrets := Table.empty.insert "a" (C.secret.encode secretA)
      versions := Table.empty.insert (versionKey "a" 1) (C.version.encode (stampedSealing S C 0 5).record) } }

theorem listSecrets_empty {t : Tables} (h : t.secrets = .empty) : RedbStore.listSecrets C t = .ok [] := by
  have hrows : t.secrets.rows = [] := by
    rw [h]
    rfl
  simp [RedbStore.listSecrets, hrows, RedbStore.allRows]

theorem kmsRewrapState_swept : RedbStore.kmsRewrapState C (sweptWorld C).tables = .ok (some markAtFive) :=
  lookup_eq_ok.mpr (recordAt_insert_self _ _)

variable {K : World → Op → Prop}

/-- The create call is told its data key, and ends later, in another world. -/
theorem createKey_pauses (hK : ∀ w op, op.isPlain = true → K w op) :
    ∃ q, Proc.Reaches (World.perform (stampedNode S C)) K 1 (createKey.body (stampedNode S C)) freshWorld q freshWorld ∧
      ∀ w state, RedbStore.kmsRewrapState C w.tables = .ok state → w.tables.secrets.get "a" = none →
        let x := stampedSealing S C 0 ((state.map KmsRewrapState.lastCompletedRotationAt).getD 0)
        K w (.submit (.createSecret secretA x.record) .nothing (some x)) →
        ∃ q', Proc.Reaches (World.perform (stampedNode S C)) K 2 q w q' { w.withSealing "a" 1 (some x) with
          tables := { w.tables with
            secrets := w.tables.secrets.insert "a" (C.secret.encode secretA)
            versions := w.tables.versions.insert (versionKey "a" 1) (C.version.encode x.record) } } := by
  obtain ⟨rest, hpause, hrest⟩ := sealVersion_pauses (A := stampedNode S C) (w := freshWorld) "a" 1
    (.value "v") (drawsOf 0 1 "") (hK _ _ rfl) rfl rfl
  have hcall : Proc.Reaches (World.perform (stampedNode S C)) K 1
      (createSecretCall (stampedNode S C) "root" (opaqueRequest "a" "v") (drawsOf 0 1 "")).run
        freshWorld _ freshWorld :=
    Proc.reaches_bind_ret (n := 0) (m := 1) (ofExcept_runs rfl) (Proc.reaches_bind hpause _)
  refine ⟨_, Proc.reaches_bind (Proc.reaches_bind hcall _) _, fun w state hstate hfresh => ?_⟩
  intro x hK'
  have hcommit : createSecret C secretA x.record w.tables = _ := createSecret_eq isValidSecretName_a (le_refl 1) hfresh
  have hsubmit : (Call.submit (stampedNode S C) (.createSecret secretA x.record) .nothing (some x)).Runs
      (stampedNode S C) K 1 w () _ := submit_runs hK' hcommit
  exact ⟨_, Proc.reaches_bind (Proc.reaches_bind (Proc.reaches_bind_ret (n := 1) (m := 1)
    (hrest w state (hK _ _ rfl) hstate) (Proc.reaches_bind hsubmit _)) _) _⟩

theorem lateLabel_run : ∃ q, RunsTo (keyServe (stampedNode S C)) (KeyAllows fun _ _ => True) ⟨freshWorld, []⟩ lateLabel
    ⟨lateWorld S C, [(createKey, q), (forceKey, .ret (.ok (.forced 5 ⟨0, 0, 0⟩)))]⟩ := by
  obtain ⟨q, hpause, hrest⟩ := createKey_pauses S C (K := fun _ _ => True) fun _ _ _ => trivial
  have hall : (rewrapAll (stampedNode S C) 5 ⟨0, fun _ => 0⟩).Runs (stampedNode S C) (fun _ _ => True) 1
      { freshWorld.rotateKey 5 with rewrapBusy := Function.update freshWorld.rewrapBusy 1 true } ⟨0, 0, 0⟩ _ :=
    runs_bind (n := 1) (m := 0) (read_runs trivial (listSecrets_empty C rfl)) (pure_runs _)
  have hforce := forceLatest_runs 1 lastRotation 0 (fun _ _ _ => trivial)
    (w := freshWorld.rotateKey 5) rfl (by decide) rfl hall rfl
  have hcreated := keyServe_call [] createKey rfl hpause
  have hswept := keyServe_call [(createKey, q)] forceKey reports_lastRotation
    (runs_bind (m := 0) hforce (pure_runs _))
  obtain ⟨q', hlate⟩ := hrest (sweptWorld C) (some markAtFive) (kmsRewrapState_swept C) rfl trivial
  have hcommitted := keyServe_rest [(createKey, q), (forceKey, .ret (.ok (.forced 5 ⟨0, 0, 0⟩)))] 0
    rfl hlate
  exact ⟨q', ((hcreated.append (keyServe_rotate _ (by decide))).append hswept).append hcommitted⟩

/-- The secret is created, the key is rotated, and a pass re-wraps the key of the secret. -/
def timelyRun : List (System.OpenEvent KeyCall Int64) :=
  callEvents createKey 0 3 ++ [.outside 5] ++ callEvents forceKey 1 8

/-- The world with the secret, before the rotation. -/
def stampedWorld : World :=
  { freshWorld.withSealing "a" 1 (some (stampedSealing S C 0 0)) with
    tables := oneSecret C secretA (stampedSealing S C 0 0).record }

/-- The row once it has been re-wrapped. -/
def rewrappedRow : VersionRecord := (stampedSealing S C 5 5).record

def rewrappedWorld : World :=
  { (stampedWorld S C).rotateKey 5 with
    rewrapBusy := Function.update (Function.update freshWorld.rewrapBusy 1 true) 1 false
    tables := { oneSecret C secretA (stampedSealing S C 0 0).record with
      versions := (oneSecret C secretA (stampedSealing S C 0 0).record).versions.insert (versionKey "a" 1)
        (C.version.encode (rewrappedRow S C))
      kmsRewrap := Table.empty.insert kmsRewrapStateKey (C.kmsRewrap.encode markAtFive) } }

theorem timelyRun_run (hK : ∀ w op, op.isPlain = true → K w op)
    (hcreate : K freshWorld (.submit (.createSecret secretA (stampedSealing S C 0 0).record) .nothing
      (some (stampedSealing S C 0 0))))
    (hrewrap : ∀ w, w.incarnation "a" = 0 →
      K w (.submit (.rewrapVersion "a" 1 "key" (S.encode (5, List.replicate 32 1)) 5)
      (.row 0 (stampedSealing S C 0 0).record) none)) :
    ∃ q, RunsTo (keyServe (stampedNode S C)) (KeyAllows K) ⟨freshWorld, []⟩ timelyRun
      ⟨rewrappedWorld S C, [(createKey, q), (forceKey, .ret (.ok (.forced 5 ⟨1, 1, 0⟩)))]⟩ := by
  have hvalid := isValidSecretName_a
  obtain ⟨q, hpause, hrest⟩ := createKey_pauses S C hK
  obtain ⟨q', hcommit⟩ := hrest freshWorld none rfl rfl hcreate
  have hcreated := keyServe_call [] createKey rfl (Proc.reaches_trans hpause hcommit)
  have hkms : (stampedNode S C).kms.reencryptDataKey 5 0 (S.encode (0, List.replicate 32 1)) "key"
      (kmsContext "a" 1) = .ok (S.encode (5, List.replicate 32 1), "key") := by
    change (match S.decode (S.encode (0, List.replicate 32 1)) with
      | some (_, dek) => Except.ok (S.encode (5, dek), "key")
      | none => .error "not a wrapped key") = _
    rw [S.decode_encode]
  have hall := rewrapAll_one (A := stampedNode S C) (d := ⟨0, fun _ => 0⟩) (w := { (stampedWorld S C).rotateKey 5 with
    rewrapBusy := Function.update freshWorld.rewrapBusy 1 true }) (v := (stampedSealing S C 0 0).record) (s := secretA)
    5 hK (listSecrets_single rfl) (liveVersions_single hvalid (le_refl _) rfl rfl) rfl hkms
      (recordAt_insert_self _ _) (hrewrap _ rfl)
  have hforce := forceLatest_runs 1 lastRotation 0 hK
    (w := (stampedWorld S C).rotateKey 5) rfl (show (0 : Int64) < 5 by decide) rfl hall rfl
  have hswept := keyServe_call [(createKey, q')] forceKey reports_lastRotation
    (runs_bind (m := 0) hforce (pure_runs _))
  have hrotated := keyServe_rotate (A := stampedNode S C) (K := K) (w := stampedWorld S C) [(createKey, q')]
    (show (0 : Int64) ≤ 5 by decide)
  exact ⟨q', (hcreated.append hrotated).append hswept⟩

theorem wrappedAt_stamped (material label : Int64) :
    (stampedAges S C).wrappedAt (stampedSealing S C material label).record.wrappedDek = material := by
  change ((S.decode (S.encode (material, _))).map Prod.fst).getD 0 = material
  rw [S.decode_encode]
  rfl

/-- In the second run every version is committed and re-wrapped in time. -/
theorem timelyRun_allowed :
    ∃ q, RunsTo (keyServe (stampedNode S C)) (KeyAllows fun w op => CurrentKey (stampedAges S C) w op ∧
      CurrentRewrap (stampedNode S C) w op) ⟨freshWorld, []⟩ timelyRun
      ⟨rewrappedWorld S C, [(createKey, q), (forceKey, .ret (.ok (.forced 5 ⟨1, 1, 0⟩)))]⟩ := by
  refine timelyRun_run S C (fun w op hop => ⟨?_, ?_⟩) ⟨(wrappedAt_stamped S C 0 0).ge, trivial⟩
    fun w hw => ⟨trivial, fun _ _ _ => hw⟩
  · unfold CurrentKey
    split
    · cases hop
    · cases hop
    · exact trivial
  · unfold CurrentRewrap
    split
    · cases hop
    · exact trivial

end Stamped

/-! ## Every label -/

theorem label_start {A : AppState} {K : KeyAges A} {w : World} (h : w.Start) (hrotated : 0 ≤ w.material)
    (hmark : ∀ state, RedbStore.kmsRewrapState A.codec w.tables = .ok (some state) →
      state.lastCompletedRotationAt ≤ w.material) : LabelInv K w where
  vault := vault_start h
  truthful := fun name inc number _ hx => nomatch (h.sealings name inc number).symm.trans hx
  keyed := fun name inc number _ hx => nomatch (h.sealings name inc number).symm.trans hx
  rotated := hrotated
  mark := hmark

/-- In every interleaving of calls, passes and rotations of the key in which each new version is committed while
the material of its data key is in use, every row of every state reached is wrapped under material that is not
older than its label; a row that a pass skips is not older than the target of the pass. -/
theorem labels_truthful (A : AppState) (K : KeyAges A) (w : World) (hw : w.Start) (hrotated : 0 ≤ w.material)
    (hmark : ∀ state, RedbStore.kmsRewrapState A.codec w.tables = .ok (some state) →
      state.lastCompletedRotationAt ≤ w.material)
    (events : List (System.OpenEvent KeyCall Int64))
    (hevents : AllSteps (keyServe A) (KeyAllows (CurrentKey K)) ⟨w, []⟩ events) :
    ∀ before after, events = before ++ after → ∀ key v,
      versionAt A.codec (run (keyServe A) ⟨w, []⟩ before).shared.tables key = some v →
        Truthful K v ∧ ∀ target, needsRewrap v target = false → target ≤ K.wrappedAt v.wrappedDek := by
  rintro before after rfl key v hv
  have hguarded := System.run_guards_open (I := LabelInv K) (R := KeyLater)
    (G := fun call => KeyPrepared K (LabelInv K) KeyLater call.kind)
    (Q := fun call => call.Sweeps A (LabelInv K) KeyLater)
    (fun call s hcall hs => keyBody_guards (fun h => h) (fun h => h) call hcall hs)
    (fun call s op _ hs hop hK => label_perform (fun h => h) (fun h => h) hs hop hK)
    (fun s rotation hs hnew => label_rotateKey hs hnew) (label_start hw hrotated hmark) (allSteps_append.mp hevents).1
  have htruthful := hguarded.inv.row hv
  exact ⟨htruthful, fun target => htruthful.le_of_settled⟩

/-- Material and key as JSON. -/
def stampSerde : Serde (Int64 × Bytes) := (Json.int64.pair Json.bytes).serde

theorem timely_label_truthful :
    Truthful (stampedAges stampSerde jsonCodec) (rewrappedRow stampSerde jsonCodec) := by
  obtain ⟨q, hrun, hallowed⟩ := timelyRun_allowed stampSerde jsonCodec
  refine (labels_truthful (stampedNode stampSerde jsonCodec) (stampedAges stampSerde jsonCodec) freshWorld
    freshWorld_start (le_refl _) (fun _ h => nomatch h) timelyRun ?_ timelyRun [] (List.append_nil _).symm
    (versionKey "a" 1) _ ?_).1
  · exact hallowed.imp fun _ _ he => System.AllowsOpen.imp (fun _ _ hK => hK.1) he
  · rw [hrun]
    exact recordAt_insert_self _ _

/-- A rotation and a pass fit between the key and the label of a new version: it is stored with the label 5, which
passes towards 5 skip, under material that is older. -/
theorem late_label_untruthful :
    AllSteps (keyServe (stampedNode stampSerde jsonCodec)) (KeyAllows fun _ _ => True) ⟨freshWorld, []⟩ lateLabel ∧
      ∃ v, versionAt jsonCodec (run (keyServe (stampedNode stampSerde jsonCodec))
        ⟨freshWorld, []⟩ lateLabel).shared.tables
          (versionKey "a" 1) = some v ∧
        ¬ Truthful (stampedAges stampSerde jsonCodec) v ∧ needsRewrap v 5 = false ∧
        (stampedAges stampSerde jsonCodec).wrappedAt v.wrappedDek = 0 := by
  obtain ⟨q, hrun, hallowed⟩ := lateLabel_run stampSerde jsonCodec
  have hage := wrappedAt_stamped stampSerde jsonCodec 0 5
  refine ⟨hallowed, (stampedSealing stampSerde jsonCodec 0 5).record, ?_, fun h => ?_, rfl, hage⟩
  · rw [hrun]
    exact recordAt_insert_self _ _
  · have hlabel := h 5 rfl
    rw [hage] at hlabel
    exact absurd hlabel (by decide)

end HyperionVault
