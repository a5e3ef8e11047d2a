import HyperionVault.Service.Calls

/-!
# Promises of the calls

What a call of the service promises, in the terms of `Proc.Guards`, for the primitive operations that calls are
made of: what a call has read or been told held at some moment since it asked, while the state has changed along
the preorder of the run.

* `Earlier` : something held in an earlier state of the run;
* `Call.Keeps` : the promise of a call that may fail;
* `Observes` : operations that change nothing are always allowed;
* `read_guards`, `kms_guards`, `submit_guards` : the primitive operations.
-/

namespace HyperionVault
open Lib

section Promises
variable (A : AppState) (I : World → Prop) (R : World → World → Prop) (G : World → Op → Prop)

/-- `P` held in an earlier state of the run. -/
def Earlier (w : World) (P : World → Prop) : Prop := ∃ w₀, I w₀ ∧ R w₀ w ∧ P w₀

/-- The call performs operations that `G` allows, and `Q` holds of a result that is no error from then on. -/
abbrev Call.Keeps {α : Type} (c : Call α) (w : World) (Q : World → α → Prop) : Prop :=
  Proc.Guards (World.perform A) I R G c.run w (Proc.OnOk Q)

/-- A call may read the store and ask KMS whenever it likes. -/
class Observes : Prop where
  read : ∀ w, G w .read
  kms : ∀ w, G w .kms

end Promises

section Primitives
variable {A : AppState} {I : World → Prop} {R : World → World → Prop} {G : World → Op → Prop} {α : Type} {w : World}

theorem ofExcept_guards {ε : Type} {toApi : ε → ApiError} {r : Except ε α} {Q : World → α → Prop}
    (h : ∀ a, r = .ok a → ∀ w', R w w' → I w' → Q w' a) : (Call.ofExcept toApi r).Keeps A I R G w Q := by
  cases r with
  | ok a => exact Proc.guards_pure (h a rfl)
  | error e => exact Proc.guards_throw

theorem ofOption_guards {e : ApiError} {o : Option α} {Q : World → α → Prop}
    (h : ∀ a, o = some a → ∀ w', R w w' → I w' → Q w' a) : (Call.ofOption e o).Keeps A I R G w Q := by
  cases o with
  | some a => exact Proc.guards_pure (h a rfl)
  | none => exact Proc.guards_throw

theorem ensure_guards {check : Except ApiError Unit} {Q : World → Unit → Prop}
    (h : check = .ok () → ∀ w', R w w' → I w' → Q w' ()) : (Call.ensure check).Keeps A I R G w Q :=
  ofExcept_guards fun _ ha => h ha

theorem trySubmit_guards {command : Command} {basis : Basis} {sealing : Option Sealing}
    (h : ∀ w', R w w' → I w' → G w' (.submit command basis sealing)) :
    Proc.Guards (World.perform A) I R G (Call.trySubmit A command basis sealing) w fun _ _ => True :=
  Proc.guards_perform fun w₀ hw hi₀ => ⟨h w₀ hw hi₀, fun _ _ _ _ _ => trivial⟩

variable [IsPreorder World R]

theorem Earlier.mono {w w' : World} {P P' : World → Prop} (h : Earlier I R w P) (hr : R w w')
    (hP : ∀ w₀, P w₀ → P' w₀) : Earlier I R w' P' := by
  obtain ⟨w₀, hi, hr₀, hp⟩ := h
  exact ⟨w₀, hi, trans_of R hr₀ hr, hP w₀ hp⟩

/-- A read returns what was stored at some moment, which is an earlier state from then on. -/
theorem read_guards [Observes G] (hi : I w) (query : Tables → StoreResult α) :
    (Call.read query).Keeps A I R G w fun w' a => Earlier I R w' fun w₀ => R w w₀ ∧ query w₀.tables = .ok a := by
  refine Proc.guards_bind_ok hi (Proc.guards_lift (Q := fun w' r =>
    Earlier I R w' fun w₀ => R w w₀ ∧ query w₀.tables = r) hi ?_) ?_
  · exact Proc.guards_perform fun w₀ hw hi₀ => ⟨Observes.read w₀, fun _ _ t ht _ => ⟨w₀, hi₀, ht, hw, rfl⟩⟩
  · intro w₁ r _ _ hr
    refine ofExcept_guards fun a ha w' hw hi' => ?_
    rw [← ha]
    exact hr w' hw hi'

/-- KMS answers with the material of some moment. -/
theorem kms_guards [Observes G] (hi : I w) (request : Int64 → Except String α) :
    (Call.kms request).Keeps A I R G w fun w' a =>
      Earlier I R w' fun w₀ => R w w₀ ∧ request w₀.material = .ok a := by
  refine Proc.guards_bind_ok hi (Proc.guards_lift (Q := fun w' r =>
    Earlier I R w' fun w₀ => R w w₀ ∧ request w₀.material = r) hi ?_) ?_
  · exact Proc.guards_perform fun w₀ hw hi₀ => ⟨Observes.kms w₀, fun _ _ t ht _ => ⟨w₀, hi₀, ht, hw, rfl⟩⟩
  · intro w₁ r _ _ hr
    refine ofExcept_guards fun a ha w' hw hi' => ?_
    rw [← ha]
    exact hr w' hw hi'

/-- A command that is accepted was accepted in some state, which the committed one follows. -/
theorem submit_guards (hi : I w) {command : Command} {basis : Basis} {sealing : Option Sealing}
    (h : ∀ w', R w w' → I w' → G w' (.submit command basis sealing)) :
    (Call.submit A command basis sealing).Keeps A I R G w fun w' _ => Earlier I R w' fun w₁ => ∃ w₀ : World,
      R w w₀ ∧ R w₀ w₁ ∧ (RedbStore.apply A.codec A.nodeId command w₀.tables).1 = .ok () ∧
        w₁ = w₀.commit A command sealing := by
  refine Proc.guards_bind_ok hi (Proc.guards_lift (Q := fun w' r => Earlier I R w' fun w₁ => ∃ w₀ : World,
    R w w₀ ∧ R w₀ w₁ ∧ (RedbStore.apply A.codec A.nodeId command w₀.tables).1 = r ∧
      w₁ = w₀.commit A command sealing) hi ?_) ?_
  · refine Proc.guards_perform fun w₀ hw hi₀ => ⟨h w₀ hw hi₀, fun hinv hr t ht _ => ?_⟩
    exact ⟨w₀.commit A command sealing, hinv, ht, w₀, hw, hr, rfl, rfl⟩
  · intro w₁ r _ _ hr
    refine ofExcept_guards fun a ha w' hw hi' => ?_
    rw [← ha]
    exact hr w' hw hi'

end Primitives

end HyperionVault
