import HyperionVault.Store.Effects

/-!
# What a replicated command reads

A replicated command must do the same on every node, so it may read the replicated tables only: neither
the audit log, nor the lockouts, nor the id of the node.

* `view` : what the other nodes can see of a command, its outcome and the replicated tables it leaves;
* `applyCommand_view` : on tables that agree in the replicated part, a replicated command has the same view.
-/

namespace HyperionVault
open Lib

def view (r : StoreResult Unit × Tables) : StoreResult Unit × Replicated := (r.1, r.2.replicated)

/-- Tables that agree in the replicated part differ in the lockouts and the audit log only. -/
theorem eq_of_replicated {t₁ t₂ : Tables} (h : t₁.replicated = t₂.replicated) :
    t₂ = { t₁ with lockouts := t₂.lockouts, audit := t₂.audit } := by
  cases t₁
  cases t₂
  cases h
  rfl

/-- A restore rewrites the audit log too, but accepts and restores by the rows it is given. -/
theorem restoreDatabase_view (data : BackupData) {t₁ t₂ : Tables} (h : t₁.replicated = t₂.replicated) :
    view (restoreDatabase data t₁) = view (restoreDatabase data t₂) := by
  cases ha : data.accepted with
  | true =>
      rw [restoreDatabase_of_accepted ha, restoreDatabase_of_accepted ha]
      rfl
  | false =>
      obtain ⟨message, hm⟩ := restoreDatabase_of_refused ha
      rw [hm, hm, view, view, h]

/-- A replicated command does the same on every node: the checks that it makes are on the replicated tables. -/
theorem applyCommand_view {C : Codec} {command : Command} (hrep : command.isLocal = false) (n₁ n₂ : Nat)
    {t₁ t₂ : Tables} (h : t₁.replicated = t₂.replicated) :
    view (applyCommand C n₁ command t₁) = view (applyCommand C n₂ command t₂) := by
  cases command with
  | appendAudit | recordAuthFailure => cases hrep
  | restoreDatabase data => exact restoreDatabase_view data h
  | setKmsRewrapState =>
      rw [eq_of_replicated h]
      rfl
  | _ =>
      rw [eq_of_replicated h]
      simp only [applyCommand, createSecret, putVersion, updateMeta, deleteSecret, createRole, setPermissions,
        deleteRole, addToken, revokeToken, touchToken, expireGraceVersions, rewrapVersion]
      repeat' split
      all_goals rfl

end HyperionVault
