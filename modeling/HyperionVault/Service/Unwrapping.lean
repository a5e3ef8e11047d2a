import HyperionVault.Service.History
import HyperionVault.Service.Concrete

/-!
# Re-wrap passes and the keys of the rows

Is every stored version still wrapped under the key that it was sealed with? A pass submits a re-wrapped key
for a name and a version number, and the store compares nothing but the rotation time of the row. When the
secret has been deleted and created again since the pass has read the row, the key of the deleted version is
written into the new row.

* `Unwraps`, `RowsUnwrap` : the wrapped key of a row unwraps to the key of its sealing;
* `CurrentRewrap` : the name has not been deleted since the pass read the row;
* `rewraps_keep_keys` : where every re-wrap is current, all rows unwrap in every state;
* `stale_rewrap_unreadable` : a run with a stale re-wrap.
-/

namespace HyperionVault
open Lib

/-- The row holds what was sealed, and its wrapped key unwraps to the key it was sealed under. -/
structure Unwraps (A : AppState) (name : String) (number : Int32) (v : VersionRecord) (x : Sealing) : Prop where
  nonce : v.nonce = x.record.nonce
  ciphertext : v.ciphertext = x.record.ciphertext
  aad : v.aad = x.record.aad
  unwraps : A.kms.decryptDataKey v.wrappedDek v.kmsKeyId (kmsContext name number) = .ok x.dek

def unwrapping (A : AppState) : RowRel A where
  rel := Unwraps A
  sealed h := ⟨rfl, rfl, rfl, h.unwraps⟩
  superseded _ h := ⟨h.nonce, h.ciphertext, h.aad, h.unwraps⟩

/-- Every stored row unwraps to the key under which its ciphertext was sealed. -/
def RowsUnwrap (A : AppState) (w : World) : Prop :=
  ∀ key v, versionAt A.codec w.tables key = some v → ∃ name x, key = versionKey name v.version ∧
    w.sealings name (w.incarnation name) v.version = some x ∧ x.Valid A name v.version ∧ Unwraps A name v.version v x

/-- A re-wrap that changes a row was computed from a row of the same incarnation of the name. -/
def CurrentRewrap (A : AppState) (w : World) : Op → Prop
  | .submit (.rewrapVersion name number _ _ target) (.row incarnation _) _ =>
      ∀ v, versionAt A.codec w.tables (versionKey name number) = some v →
        v.wrappedRotationAt.any (target ≤ ·) = false → w.incarnation name = incarnation
  | _ => True

section Unwrapping
variable {A : AppState} {w : World}

/-- A row that unwraps opens to the payload. -/
theorem openVersion_of_unwraps {name : String} {number : Int32} {v : VersionRecord} {x : Sealing}
    (hx : x.Valid A name number) (h : Unwraps A name number v x) :
    openVersion A name number v = .ok (x.payload.bytes A) := by
  obtain ⟨nonce, hnonce, hseal⟩ := hx.sealed
  have haad : v.aad = aadFor name number := h.aad.trans hx.aad
  have hlen : v.nonce.length = nonceLen := by
    rw [h.nonce, hnonce]
    exact nonce.property
  have hval : (⟨v.nonce, hlen⟩ : Nonce) = nonce := Subtype.ext (h.nonce.trans hnonce)
  have hopen := A.aead.open_seal hseal
  simp only [openVersion, haad, ne_eq, not_true_eq_false, if_false, hlen, dif_pos, h.unwraps, hval, h.ciphertext, hopen]

theorem rowsUnwrap_of_vault (h : VaultInv A (unwrapping A) w) : RowsUnwrap A w := by
  intro key v hv
  obtain ⟨name, s, hkey, hs, hpos, _, _, _⟩ := h.store.owned key v hv
  rw [hkey] at hv
  obtain ⟨x, hx, hrel⟩ := h.row name v.version v (h.store.valid name s hs).1 hpos hv
  exact ⟨name, x, hkey, hx, h.sealed name _ v.version x hx, hrel⟩

theorem unwrapping_perform {R : World → World → Prop} (hR : ∀ {w w'}, R w w' → Later w w') {op : Op}
    {call : ServiceCall} (h : VaultInv A (unwrapping A) w)
    (hop : Prepared A (VaultInv A (unwrapping A)) R call w op) (hK : CurrentRewrap A w op) :
    VaultInv A (unwrapping A) (w.perform A op) ∧ Later w (w.perform A op) := by
  refine vault_perform h hop ?_
  intro name number keyId wrapped target basis sealing _ hsubmit v x hv hold hx hrel
  subst hsubmit
  cases hop with
  | rewrap caller read rewrapped =>
      obtain ⟨w₀, h₀, hlater, hinc, hname, hpos, hv₀⟩ := read
      obtain ⟨x₀, hx₀, hrel₀⟩ := h₀.row name _ _ hname hpos hv₀
      -- the sealing of the row that was read is still the sealing of the row that is written
      have hsame := (hR hlater).sealings _ _ _ _ hx₀
      rw [hinc, ← hK v hv hold, hx] at hsame
      cases hsame
      exact ⟨hrel.nonce, hrel.ciphertext, hrel.aad, A.kms.decrypt_reencrypt rewrapped hrel₀.unwraps⟩

end Unwrapping

/-! ## Runs of a pass -/

theorem freshWorld_start : freshWorld.Start := ⟨rfl, rfl, fun _ _ _ => rfl⟩

section Pass
variable {C : Codec} {K : World → Op → Prop} {w : World}

/-- A pass over a store of one secret with one version, up to its command. -/
theorem pass_next {A : AppState} (node : Nat) (target completedAt : Int64) (d : PassDraws) {s : SecretRecord}
    {v : VersionRecord} {wrapped : Bytes} {keyId : String} (hidle : w.rewrapBusy node = false)
    (hlist : RedbStore.listSecrets A.codec w.tables = .ok [s])
    (hlive : RedbStore.liveVersions A.codec s.name d.now w.tables = .ok [v]) (hneeds : needsRewrap v target = true)
    (hkms : A.kms.reencryptDataKey w.material (d.reencrypt 1) v.wrappedDek v.kmsKeyId (kmsContext s.name v.version) =
      .ok (wrapped, keyId)) (hK : ∀ w op, op.isBased = false → K w op) :
    (force A node target d completedAt).Next A K 4 w
      (.submit (.rewrapVersion s.name v.version keyId wrapped target) (.row (w.incarnation s.name) v) none)
      { w with rewrapBusy := Function.update w.rewrapBusy node true } := by
  have hone : (rewrapOne A s.name (w.incarnation s.name) v target (d.reencrypt 1)).Next A K 1
      { w with rewrapBusy := Function.update w.rewrapBusy node true }
      (.submit (.rewrapVersion s.name v.version keyId wrapped target) (.row (w.incarnation s.name) v) none)
      { w with rewrapBusy := Function.update w.rewrapBusy node true } :=
    next_bind (n := 1) (m := 0) (kms_runs (hK _ _ rfl) hkms) submit_next
  refine next_bind_left (next_bind (n := 1) (m := 3) (lift_runs (Proc.reaches_perform (hK _ _ rfl))) ?_)
  rw [if_neg (by rw [hidle]; exact Bool.false_ne_true)]
  refine next_bind_left (Proc.nextOp_bind ?_ _)
  refine next_bind (n := 1) (m := 2) (read_runs (hK _ _ rfl) hlist) ?_
  refine next_bind (n := 1) (m := 1) (lift_runs (Proc.reaches_perform (hK _ _ rfl))) ?_
  refine next_bind (n := 0) (m := 1) (ofExcept_runs hlive) ?_
  refine next_bind_left (Proc.nextOp_bind ?_ _)
  rw [rewrapVersions, if_pos hneeds]
  exact Proc.nextOp_bind hone _

variable (C)

/-- Version 1 of the secret `a`, sealed with data key number `key`. -/
def sealingA (key : Nat) : Sealing := sealingOf (nodeWith C) "a" 1 (.value "v") 0 key

def secretA : SecretRecord := newSecretRecord (opaqueRequest "a" "v") .opaqueValue 0 0

def createA (key : Nat) : ServiceCall := .create "root" (opaqueRequest "a" "v") (drawsOf 0 key "")

def deleteA : ServiceCall := .delete "root" "a" (drawsOf 0 0 "")

def passA : ServiceCall := .rewrap 1 5 ⟨0, fun _ => 0⟩ 0

/-- The secret is created, and a pass computes a new wrapping of its key. -/
def createThenPass : List (SystemEvent ServiceCall) :=
  (.start (createA 1) :: List.replicate 3 (.step 0)) ++ (.start passA :: List.replicate 4 (.step 1))

/-- The command of the pass. -/
def rewrapA : Op :=
  .submit (.rewrapVersion "a" 1 "key" (List.replicate 32 1) 5) (.row 0 (sealingA C 1).record) none

/-- The world when the pass is about to submit its command. -/
def passWorld : World :=
  { freshWorld.withSealing "a" 1 (some (sealingA C 1)) with
    tables := oneSecret C secretA (sealingA C 1).record
    rewrapBusy := Function.update freshWorld.rewrapBusy 1 true }

variable {C}

theorem checkCreate_opaqueRequest : checkCreate (nodeWith C) (opaqueRequest "a" "v") "" = .ok (0, .value "v") := rfl

theorem isValidSecretName_a : isValidSecretName "a" = true := rfl

theorem createThenPass_run (hK : ∀ w op, op.isBased = false → K w op) : ∃ q next,
    RunsTo (serve (nodeWith C)) (System.Allows (fun _ => True) K) ⟨freshWorld, []⟩ createThenPass
      ⟨passWorld C, [(createA 1, q), (passA, .act (rewrapA C) next)]⟩ := by
  have hvalid := isValidSecretName_a
  obtain ⟨q, hcreate⟩ := serve_gets (P := fun _ => True) [] (createA 1) rfl trivial
    (create_one "root" 0 1 (w := freshWorld) (K := K) (@checkCreate_opaqueRequest C) hvalid rfl (hK _))
  obtain ⟨next, hpass⟩ := serve_next (P := fun _ => True) [(createA 1, q)] passA rfl trivial
    (pass_next 1 5 0 ⟨0, fun _ => 0⟩ (A := nodeWith C) (K := K) (s := secretA) (v := (sealingA C 1).record)
      (w := { freshWorld.withSealing "a" 1 (some (sealingA C 1)) with
        tables := oneSecret C secretA (sealingA C 1).record })
      rfl (listSecrets_single rfl) (liveVersions_single hvalid (le_refl _) rfl rfl) rfl rfl hK)
  exact ⟨q, next, hcreate.append hpass⟩

/-- The pass submits its command at once. -/
def currentRewrap : List (SystemEvent ServiceCall) := createThenPass ++ [.step 1]

theorem currentRewrap_run (C : Codec) : AllSteps (serve (nodeWith C))
    (System.Allows (fun _ => True) (CurrentRewrap (nodeWith C))) ⟨freshWorld, []⟩ currentRewrap := by
  have hK : ∀ w op, op.isBased = false → CurrentRewrap (nodeWith C) w op := by
    intro w op hop
    unfold CurrentRewrap
    split
    · cases hop
    · trivial
  have hcurrent : CurrentRewrap (nodeWith C) (passWorld C) (rewrapA C) := fun _ _ _ => rfl
  obtain ⟨q, next, hfirst⟩ := createThenPass_run hK
  have hact := System.run_act (World.perform (nodeWith C)) (ServiceCall.body (nodeWith C)) (P := fun _ => True)
    (show [(createA 1, q), (passA, .act (rewrapA C) next)][1]? = _ from rfl) hcurrent
  exact (hfirst.append hact).2

/-- Between the reads of the pass and its command the secret is deleted and created again. -/
def staleRewrap : List (SystemEvent ServiceCall) :=
  createThenPass ++ (.start deleteA :: List.replicate 1 (.step 2)) ++
    (.start (createA 2) :: List.replicate 3 (.step 3)) ++ [.step 1]

def deletedWorld (C : Codec) : World :=
  { passWorld C with incarnation := Function.update freshWorld.incarnation "a" 1, tables := .empty }

def recreatedWorld (C : Codec) : World :=
  { (deletedWorld C).withSealing "a" 1 (some (sealingA C 2)) with
    tables := oneSecret C secretA (sealingA C 2).record }

/-- The new row with the key of the deleted one. -/
def staleRow (C : Codec) : VersionRecord :=
  { (sealingA C 2).record with wrappedDek := List.replicate 32 1, wrappedRotationAt := some 5 }

theorem staleRewrap_run (C : Codec) : (run (serve (nodeWith C)) ⟨freshWorld, []⟩ staleRewrap).shared =
    { recreatedWorld C with tables := { (recreatedWorld C).tables with
      versions := (recreatedWorld C).tables.versions.insert (versionKey "a" 1) (C.version.encode (staleRow C)) } } := by
  have hvalid := isValidSecretName_a
  obtain ⟨q, next, hfirst⟩ := @createThenPass_run C (fun _ _ => True) fun _ _ _ => trivial
  obtain ⟨q₂, hdelete⟩ := serve_gets (P := fun _ => True) [(createA 1, q), (passA, .act (rewrapA C) next)] deleteA rfl
    trivial (delete_one (nodeWith C) "root" (drawsOf 0 0 "") (K := fun _ _ => True) (w := passWorld C) (s := secretA)
      (v := (sealingA C 1).record) hvalid (le_refl _) rfl trivial)
  obtain ⟨q₃, hcreate⟩ := serve_gets (P := fun _ => True)
    [(createA 1, q), (passA, .act (rewrapA C) next), (deleteA, q₂)] (createA 2) rfl trivial
    (create_one "root" 0 2 (K := fun _ _ => True) (w := deletedWorld C) (@checkCreate_opaqueRequest C) hvalid rfl
      fun _ _ => trivial)
  have hact := System.run_act (World.perform (nodeWith C)) (ServiceCall.body (nodeWith C)) (P := fun _ => True)
    (K := fun _ _ => True) (s := recreatedWorld C)
    (show [(createA 1, q), (passA, .act (rewrapA C) next), (deleteA, q₂), (createA 2, q₃)][1]? = _ from rfl) trivial
  have hrun := (((hfirst.append hdelete).append hcreate).append hact).1
  refine (congrArg System.shared hrun).trans ?_
  have hrow : versionAt C (recreatedWorld C).tables (versionKey "a" 1) = some (sealingA C 2).record :=
    recordAt_insert_self _ _
  have happly : applyCommand C 1 (.rewrapVersion "a" 1 "key" (List.replicate 32 1) 5) (recreatedWorld C).tables = _ :=
    rewrapVersion_eq 5 hrow rfl "key" (List.replicate 32 1)
  rw [rewrapA, perform_submit, commit_eq (A := nodeWith C) happly]
  rfl

theorem staleRow_stored (C : Codec) : versionAt C (run (serve (nodeWith C)) ⟨freshWorld, []⟩ staleRewrap).shared.tables
    (versionKey "a" 1) = some (staleRow C) := by
  rw [staleRewrap_run]
  exact recordAt_insert_self _ _

theorem not_rowsUnwrap_staleRewrap (C : Codec) :
    ¬ RowsUnwrap (nodeWith C) (run (serve (nodeWith C)) ⟨freshWorld, []⟩ staleRewrap).shared := by
  intro h
  obtain ⟨name, x, hkey, hx, _, hunwraps⟩ := h _ _ (staleRow_stored C)
  obtain rfl := versionKey_left_inj hkey
  rw [staleRewrap_run] at hx
  -- the sealing of the new version
  have hx₂ : some (sealingA C 2) = some x := hx
  cases hx₂
  have hdek : List.replicate 32 (1 : UInt8) = List.replicate 32 2 := Except.ok.inj hunwraps.unwraps
  exact absurd hdek (by decide)

theorem openVersion_staleRow (C : Codec) :
    openVersion (nodeWith C) "a" 1 (staleRow C) = .error (.internal "decryption failed") := rfl

end Pass

/-! ## Every row keeps its key -/

/-- In every interleaving of calls in which each re-wrap is current, every row of every state reached unwraps
to the key under which it was sealed. -/
theorem rewraps_keep_keys (A : AppState) (w : World) (hw : w.Start) (events : List (SystemEvent ServiceCall))
    (hevents : AllSteps (serve A) (System.Allows (fun _ => True) (CurrentRewrap A)) ⟨w, []⟩ events) :
    ∀ before after, events = before ++ after → RowsUnwrap A (run (serve A) ⟨w, []⟩ before).shared := by
  rintro before after rfl
  have hguarded := System.run_guards (I := VaultInv A (unwrapping A)) (R := Later)
    (G := Prepared A (VaultInv A (unwrapping A)) Later)
    (Q := fun call => call.Answered A (VaultInv A (unwrapping A)) Later)
    (fun call s _ hs => body_guards (fun h => h.store) (fun h => h.accepted) call hs)
    (fun call s op _ hs hop hK => unwrapping_perform (fun h => h) hs hop hK) (vault_start hw)
    (allSteps_append.mp hevents).1
  exact rowsUnwrap_of_vault hguarded.inv

theorem current_rewrap_keeps_keys :
    RowsUnwrap (nodeWith jsonCodec) (run (serve (nodeWith jsonCodec)) ⟨freshWorld, []⟩ currentRewrap).shared :=
  rewraps_keep_keys (nodeWith jsonCodec) freshWorld freshWorld_start currentRewrap (currentRewrap_run jsonCodec)
    currentRewrap [] (List.append_nil _).symm

/-- A re-wrap of a deleted version reaches the row of the secret created after it: that secret can no longer
be opened. -/
theorem stale_rewrap_unreadable :
    freshWorld.Start ∧
      ¬ RowsUnwrap (nodeWith jsonCodec) (run (serve (nodeWith jsonCodec)) ⟨freshWorld, []⟩ staleRewrap).shared ∧
      ∃ v, versionAt jsonCodec (run (serve (nodeWith jsonCodec)) ⟨freshWorld, []⟩ staleRewrap).shared.tables
          (versionKey "a" 1) = some v ∧
        openVersion (nodeWith jsonCodec) "a" 1 v = .error (.internal "decryption failed") :=
  ⟨freshWorld_start, not_rowsUnwrap_staleRewrap jsonCodec, staleRow jsonCodec, staleRow_stored jsonCodec,
    openVersion_staleRow jsonCodec⟩

end HyperionVault
