import HyperionVault.Store.Areas
import HyperionVault.Store.Engine

/-!
# What a start writes into the store

`RedbStore::from_database` and the part of `build_state` that writes: the built-in role is inserted where it is missing,
and a bootstrap token where neither its fingerprint nor its name is taken. Both go straight into the local database.

* `seedBootstrap`, `buildState` : the writes of a start;
* `buildState_keeps_iff` : when they leave the replicated tables alone.
-/

namespace HyperionVault
open Lib

/-- The token that a node adds when it starts with a bootstrap token. -/
def bootstrapToken (fingerprint : Bytes) (now : Int64) : TokenRecord where
  name := "bootstrap-admin"
  role := some "admin"
  fingerprint := fingerprint
  createdAt := now
  lastUsedAt := none
  revokedAt := none

/-- The part of `build_state` that writes to the store; that the token is taken is no error. -/
def seedBootstrap (C : Codec) (nodeId : Nat) (fingerprint : Bytes) (now : Int64) (t : Tables) :
    StoreResult Unit × Tables :=
  match RedbStore.tokenByFingerprint C fingerprint t with
  | .error e => (.error e, t)
  | .ok (some _) => (.ok (), t)
  | .ok none =>
      match RedbStore.apply C nodeId (.addToken (bootstrapToken fingerprint now)) t with
      | (.error (.conflict _), t) => (.ok (), t)
      | r => r

/-- The store is opened, and then given its bootstrap token. -/
def buildState (C : Codec) (fingerprint : String → Bytes) (nodeId : Nat) (bootstrap : Option String) (now : Int64)
    (t : Tables) : StoreResult Unit × Tables :=
  let t := RedbStore.seedAdminRole C t
  match bootstrap with
  | none => (.ok (), t)
  | some token => seedBootstrap C nodeId (fingerprint token) now t

/-- The built-in role is there, and the fingerprint or the name of the bootstrap token is taken. -/
def StartKeeps (fingerprint : String → Bytes) (bootstrap : Option String) (t : Tables) : Prop :=
  (t.roles.get "admin").isSome = true ∧ ∀ token ∈ bootstrap,
    (t.tokens.get (fingerprint token)).isSome = true ∨ (t.tokensByName.get "bootstrap-admin").isSome = true

section Startup
variable {C : Codec} {nodeId : Nat} {now : Int64} {t : Tables}

theorem seedAdminRole_of_isSome (h : (t.roles.get "admin").isSome = true) : RedbStore.seedAdminRole C t = t := if_pos h

theorem seedAdminRole_isSome (C : Codec) (t : Tables) :
    ((RedbStore.seedAdminRole C t).roles.get "admin").isSome = true := by
  unfold RedbStore.seedAdminRole
  by_cases h : (t.roles.get "admin").isSome = true
  · rw [if_pos h]
    exact h
  · rw [if_neg h, Table.get_insert_self]
    rfl

theorem addToken_bootstrap {fingerprint : Bytes} (hfree : t.tokens.get fingerprint = none)
    (hname : t.tokensByName.get "bootstrap-admin" = none) :
    addToken C (bootstrapToken fingerprint now) t = (.ok (), { t with
      tokensByName := t.tokensByName.insert "bootstrap-admin" fingerprint
      tokens := t.tokens.insert fingerprint (C.token.encode (bootstrapToken fingerprint now)) }) := by
  have hfingerprint : ¬(t.tokens.get (bootstrapToken fingerprint now).fingerprint).isSome = true :=
    Option.not_isSome_iff_eq_none.mpr hfree
  have hnew : ¬(t.tokensByName.get (bootstrapToken fingerprint now).name).isSome = true :=
    Option.not_isSome_iff_eq_none.mpr hname
  unfold addToken
  rw [if_neg hfingerprint, if_neg hnew]
  rfl

/-- A token that is not known, under a name that is free, is added. -/
theorem seedBootstrap_of_free {fingerprint : Bytes} (hfree : t.tokens.get fingerprint = none)
    (hname : t.tokensByName.get "bootstrap-admin" = none) :
    seedBootstrap C nodeId fingerprint now t = (.ok (), { t with
      tokensByName := t.tokensByName.insert "bootstrap-admin" fingerprint
      tokens := t.tokens.insert fingerprint (C.token.encode (bootstrapToken fingerprint now)) }) := by
  have hread : RedbStore.tokenByFingerprint C fingerprint t = .ok none := by
    unfold RedbStore.tokenByFingerprint RedbStore.lookup
    rw [hfree]
  simp only [seedBootstrap, hread, RedbStore.apply, applyCommand, addToken_bootstrap hfree hname]

/-- Otherwise nothing is written. -/
theorem seedBootstrap_of_taken {fingerprint : Bytes} (h : (t.tokens.get fingerprint).isSome = true ∨
      (t.tokensByName.get "bootstrap-admin").isSome = true) :
    (seedBootstrap C nodeId fingerprint now t).2 = t := by
  unfold seedBootstrap
  cases hread : RedbStore.tokenByFingerprint C fingerprint t with
  | error e => rfl
  | ok found =>
      cases found with
      | some record => rfl
      | none =>
          have hrefused : ∃ message, addToken C (bootstrapToken fingerprint now) t =
              (.error (.conflict message), t) := by
            unfold addToken
            by_cases hfingerprint : (t.tokens.get (bootstrapToken fingerprint now).fingerprint).isSome = true
            · exact ⟨_, if_pos hfingerprint⟩
            · have hname : (t.tokensByName.get (bootstrapToken fingerprint now).name).isSome = true :=
                h.resolve_left hfingerprint
              rw [if_neg hfingerprint, if_pos hname]
              exact ⟨_, rfl⟩
          obtain ⟨message, hadd⟩ := hrefused
          simp only [RedbStore.apply, applyCommand, hadd]

/-- Seeding adds a token or changes nothing. -/
theorem seedBootstrap_cases (fingerprint : Bytes) (t : Tables) :
    (seedBootstrap C nodeId fingerprint now t).2 = t ∨
      addToken C (bootstrapToken fingerprint now) t = (.ok (), (seedBootstrap C nodeId fingerprint now t).2) := by
  by_cases htaken : (t.tokens.get fingerprint).isSome = true ∨ (t.tokensByName.get "bootstrap-admin").isSome = true
  · exact Or.inl (seedBootstrap_of_taken htaken)
  · rw [not_or, Option.not_isSome_iff_eq_none, Option.not_isSome_iff_eq_none] at htaken
    rw [seedBootstrap_of_free htaken.1 htaken.2]
    exact Or.inr (addToken_bootstrap htaken.1 htaken.2)

theorem roles_seedBootstrap (fingerprint : Bytes) (t : Tables) :
    (seedBootstrap C nodeId fingerprint now t).2.roles = t.roles := by
  rcases seedBootstrap_cases fingerprint t with hsame | hadded
  · rw [hsame]
  · rw [(addToken_ok hadded).2.2]

/-- A start leaves the replicated tables alone exactly when there is nothing to insert. -/
theorem buildState_keeps_iff {fingerprint : String → Bytes} {bootstrap : Option String} :
    (buildState C fingerprint nodeId bootstrap now t).2.replicated = t.replicated ↔
      StartKeeps fingerprint bootstrap t := by
  unfold buildState
  constructor
  · intro hsame
    have hroles : (RedbStore.seedAdminRole C t).roles = t.roles := by
      have hafter := congrArg Replicated.roles hsame
      cases bootstrap with
      | none => exact hafter
      | some token => exact (roles_seedBootstrap _ _).symm.trans hafter
    have hadmin : (t.roles.get "admin").isSome = true := hroles ▸ seedAdminRole_isSome C t
    refine ⟨hadmin, fun token htoken => ?_⟩
    rw [seedAdminRole_of_isSome hadmin, Option.mem_def.mp htoken] at hsame
    dsimp only at hsame
    by_contra hneither
    rw [not_or, Option.not_isSome_iff_eq_none, Option.not_isSome_iff_eq_none] at hneither
    -- the row of the token is there after the start, and was not before
    rw [seedBootstrap_of_free hneither.1 hneither.2] at hsame
    have htokens : t.tokens.insert (fingerprint token)
        (C.token.encode (bootstrapToken (fingerprint token) now)) = t.tokens :=
      congrArg Replicated.tokens hsame
    have hrow := hneither.1
    rw [← htokens, Table.get_insert_self] at hrow
    cases hrow
  · rintro ⟨hadmin, htaken⟩
    rw [seedAdminRole_of_isSome hadmin]
    cases bootstrap with
    | none => rfl
    | some token =>
        dsimp only
        rw [seedBootstrap_of_taken (htaken token rfl)]

end Startup

end HyperionVault
