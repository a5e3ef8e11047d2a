import HyperionVault.Store.Areas
import HyperionVault.Store.Invariant

/-!
# The history of a secret

While a secret is not deleted, commands only add to its history. A version that has been written keeps what was sealed,
its number is not written again, its expiry is set once, when it is superseded, and its row goes only in a sweep after
that expiry.

* `Descends`, `SameSecret` : what a row keeps from one state to a later one;
* `RowFate` : the row of one version before and after some commands;
* `Evolves` : a secret with the rows up to its current version, before and after;
* `storeStep_evolves` : one command; `versions_append_only` : every run of issued commands.
-/

namespace HyperionVault
open Lib

/-- The later row has what was sealed under the earlier one, its expiry if it had one, and its wrapped key unless a
later rotation has exchanged it. -/
structure Descends (old new : VersionRecord) : Prop where
  version : new.version = old.version
  nonce : new.nonce = old.nonce
  ciphertext : new.ciphertext = old.ciphertext
  aad : new.aad = old.aad
  createdAt : new.createdAt = old.createdAt
  expiry : ∀ e, old.expiresAt = some e → new.expiresAt = some e
  wrapping : (new.kmsKeyId = old.kmsKeyId ∧ new.wrappedDek = old.wrappedDek ∧
      new.wrappedRotationAt = old.wrappedRotationAt) ∨
    ∃ later, new.wrappedRotationAt = some later ∧ ∀ earlier, old.wrappedRotationAt = some earlier → earlier < later

theorem Descends.refl (v : VersionRecord) : Descends v v :=
  ⟨rfl, rfl, rfl, rfl, rfl, fun _ he => he, Or.inl ⟨rfl, rfl, rfl⟩⟩

theorem Descends.trans {a b c : VersionRecord} (h : Descends a b) (h' : Descends b c) : Descends a c where
  version := h'.version.trans h.version
  nonce := h'.nonce.trans h.nonce
  ciphertext := h'.ciphertext.trans h.ciphertext
  aad := h'.aad.trans h.aad
  createdAt := h'.createdAt.trans h.createdAt
  expiry := fun e he => h'.expiry e (h.expiry e he)
  wrapping := by
    rcases h'.wrapping with ⟨hid, hdek, hat⟩ | ⟨last, hlast, hlater'⟩
    · rw [hid, hdek, hat]
      exact h.wrapping
    · refine Or.inr ⟨last, hlast, fun first hfirst => ?_⟩
      rcases h.wrapping with ⟨_, _, hat⟩ | ⟨middle, hmiddle, hlater⟩
      · exact hlater' first (hat.trans hfirst)
      · exact (hlater first hfirst).trans (hlater' middle hmiddle)

/-- What an update and a new version leave of a secret's record. -/
structure SameSecret (old new : SecretRecord) : Prop where
  name : new.name = old.name
  kind : new.kind = old.kind
  format : new.format = old.format
  target : new.target = old.target
  createdAt : new.createdAt = old.createdAt
  currentVersion : old.currentVersion ≤ new.currentVersion

theorem SameSecret.refl (s : SecretRecord) : SameSecret s s := ⟨rfl, rfl, rfl, rfl, rfl, le_refl _⟩

theorem SameSecret.trans {a b c : SecretRecord} (h : SameSecret a b) (h' : SameSecret b c) : SameSecret a c where
  name := h'.name.trans h.name
  kind := h'.kind.trans h.kind
  format := h'.format.trans h.format
  target := h'.target.trans h.target
  createdAt := h'.createdAt.trans h.createdAt
  currentVersion := h.currentVersion.trans h'.currentVersion

/-- The expiry that the command gives to this version of the secret, if it supersedes it. -/
def Command.supersedes (name : String) (number : Int32) : Command → Option Int64
  | .putVersion name' expectedCurrent _ supersedeExpiresAt .. =>
      if name' = name ∧ expectedCurrent = number then supersedeExpiresAt else none
  | _ => none

/-- The row has this expiry, or it has none and gets this one from a command that supersedes it. -/
def Expires (commands : List Command) (name : String) (number : Int32) (v : VersionRecord) (e : Int64) : Prop :=
  v.expiresAt = some e ∨ v.expiresAt = none ∧ ∃ command ∈ commands, command.supersedes name number = some e

/-- The row of one version of a secret, before and after the commands. -/
inductive RowFate (commands : List Command) (name : String) (number : Int32) :
    Option VersionRecord → Option VersionRecord → Prop
  | absent : RowFate commands name number none none
  | kept {v v' : VersionRecord} (h : Descends v v')
      (hexpiry : ∀ e, v'.expiresAt = some e → Expires commands name number v e) :
      RowFate commands name number (some v) (some v')
  | swept {v : VersionRecord} (e now : Int64) (hexpiry : Expires commands name number v e)
      (hsweep : .expireGraceVersions now ∈ commands) (hle : e ≤ now) : RowFate commands name number (some v) none

section Fates
variable {commands later : List Command} {name : String} {number : Int32}

theorem RowFate.refl (row : Option VersionRecord) : RowFate commands name number row row := by
  cases row with
  | none => exact .absent
  | some v => exact .kept (.refl v) fun e he => Or.inl he

theorem Expires.append_left {v : VersionRecord} {e : Int64} (h : Expires commands name number v e) :
    Expires (commands ++ later) name number v e := by
  rcases h with h | ⟨hnone, command, hmem, hsuper⟩
  · exact Or.inl h
  · exact Or.inr ⟨hnone, command, List.mem_append_left _ hmem, hsuper⟩

/-- An expiry of the later row is one of the earlier row. -/
theorem Expires.of_descends {v v' : VersionRecord} {e : Int64} (h : Descends v v')
    (hfirst : ∀ e, v'.expiresAt = some e → Expires commands name number v e)
    (hlater : Expires later name number v' e) : Expires (commands ++ later) name number v e := by
  rcases hlater with hsome | ⟨hnone, command, hmem, hsuper⟩
  · exact (hfirst e hsome).append_left
  · refine Or.inr ⟨?_, command, List.mem_append_right _ hmem, hsuper⟩
    cases hv : v.expiresAt with
    | none => rfl
    | some e' =>
        rw [h.expiry e' hv] at hnone
        cases hnone

theorem RowFate.trans {a b c : Option VersionRecord} (h : RowFate commands name number a b)
    (h' : RowFate later name number b c) : RowFate (commands ++ later) name number a c := by
  cases h with
  | absent =>
      cases h'
      exact .absent
  | swept e now hexpiry hsweep hle =>
      cases h'
      exact .swept e now hexpiry.append_left (List.mem_append_left _ hsweep) hle
  | kept hfirst hexpiry =>
      cases h' with
      | kept hsecond hexpiry' =>
          exact .kept (hfirst.trans hsecond) fun e he => .of_descends hfirst hexpiry (hexpiry' e he)
      | swept e now hexpiry' hsweep hle =>
          exact .swept e now (.of_descends hfirst hexpiry hexpiry') (List.mem_append_right _ hsweep) hle

end Fates

/-- The secret is still there, and the rows up to its current version have had their fates. -/
def Evolves (C : Codec) (name : String) (commands : List Command) (t t' : Tables) : Prop :=
  ∀ s, secretAt C t name = some s → (∃ s', secretAt C t' name = some s' ∧ SameSecret s s') ∧
    ∀ number, 1 ≤ number → number ≤ s.currentVersion →
      RowFate commands name number (versionAt C t (versionKey name number)) (versionAt C t' (versionKey name number))

section Steps
variable {C : Codec} {t t' t'' : Tables} {name : String} {commands later : List Command} {expectedCurrent : Int32}
  {version : VersionRecord} {supersedeExpiresAt : Option Int64} {setDescription : Option String}
  {setRotationIntervalSecs setGraceSecs : Option Int64} {nextRotationAt : NextRotation} {updatedAt : Int64}

theorem evolves_of_sameRows (h : SameRows name t t') : Evolves C name commands t t' := by
  intro s hs
  refine ⟨⟨s, ?_, .refl s⟩, fun number _ _ => ?_⟩
  · rw [secretAt, recordAt, h.1]
    exact hs
  · rw [versionAt, versionAt, recordAt, recordAt, h.2 number]
    exact .refl _

theorem Evolves.trans (h : Evolves C name commands t t') (h' : Evolves C name later t' t'') :
    Evolves C name (commands ++ later) t t'' := by
  intro s hs
  obtain ⟨⟨s', hs', hsame⟩, hrows⟩ := h s hs
  obtain ⟨⟨s'', hs'', hsame'⟩, hrows'⟩ := h' s' hs'
  refine ⟨⟨s'', hs'', hsame.trans hsame'⟩, fun number hpos hle => ?_⟩
  exact (hrows number hpos hle).trans (hrows' number hpos (hle.trans hsame.currentVersion))

theorem putVersion_evolves (h : SecretInv C t)
    (hi : (Command.putVersion name expectedCurrent version supersedeExpiresAt setDescription setRotationIntervalSecs
      setGraceSecs nextRotationAt updatedAt).Issued)
    (hok : putVersion C name expectedCurrent version supersedeExpiresAt setDescription setRotationIntervalSecs
      setGraceSecs nextRotationAt updatedAt t = (.ok (), t')) :
    Evolves C name [.putVersion name expectedCurrent version supersedeExpiresAt setDescription setRotationIntervalSecs
      setGraceSecs nextRotationAt updatedAt] t t' := by
  obtain ⟨secret, prev, expiry, rfl, hs, rfl, hone, hlt, _, hprev, hsecrets, hversions⟩ := putVersion_records h hi hok
  intro s hs'
  cases hs'.symm.trans hs
  obtain ⟨hname, hpos⟩ := h.valid name secret hs
  refine ⟨⟨_, (hsecrets name).trans (if_pos rfl), ?_⟩, fun number hnumber hle => ?_⟩
  · rw [applyMeta_eq]
    exact ⟨rfl, rfl, rfl, rfl, rfl, hlt.le⟩
  · rw [hversions]
    by_cases hcurrent : secret.currentVersion = number
    · -- the version that is superseded has no expiry until now
      subst hcurrent
      obtain ⟨v, hv, hnone⟩ := h.current name secret hs
      cases hv.symm.trans hprev
      rw [if_pos rfl, hprev]
      refine .kept ⟨rfl, rfl, rfl, rfl, rfl, ?_, Or.inl ⟨rfl, rfl, rfl⟩⟩ fun e he => ?_
      · intro e he
        rw [hnone] at he
        cases he
      · exact Or.inr ⟨hnone, _, List.mem_singleton_self _, (if_pos ⟨rfl, rfl⟩).trans he⟩
    · have hnew : version.version ≠ number := (hle.trans_lt hlt).ne'
      rw [if_neg (versionKey_ne_of_version_ne hname hpos hnumber hcurrent),
        if_neg (versionKey_ne_of_version_ne hname hone hnumber hnew)]
      exact .refl _

theorem updateMeta_evolves
    (hok : updateMeta C name expectedCurrent setDescription setRotationIntervalSecs setGraceSecs nextRotationAt
      updatedAt t = (.ok (), t')) : Evolves C name commands t t' := by
  obtain ⟨value, secret, hget, hdec, rfl, rfl⟩ := updateMeta_ok hok
  intro s hs
  cases hs.symm.trans (recordAt_of_get hget hdec)
  refine ⟨⟨_, recordAt_insert_self _ _, ?_⟩, fun _ _ _ => .refl _⟩
  rw [applyMeta_eq]
  exact ⟨rfl, rfl, rfl, rfl, rfl, le_refl _⟩

theorem expireGraceVersions_evolves {now : Int64} (hok : expireGraceVersions C now t = (.ok (), t')) :
    Evolves C name [.expireGraceVersions now] t t' := by
  obtain ⟨expired, hexpired, rfl⟩ := expireGraceVersions_ok hok
  intro s hs
  refine ⟨⟨s, hs, .refl s⟩, fun number _ _ => ?_⟩
  rw [versionAt, versionAt, recordAt_removeAll]
  split_ifs with hmem
  · obtain ⟨value, v, hrow, hdec, hany⟩ := (mem_expiredKeys hexpired).mp hmem
    rw [recordAt_of_get (Table.mem_rows.mp hrow) hdec]
    cases he : v.expiresAt with
    | none =>
        rw [he] at hany
        cases hany
    | some e =>
        rw [he] at hany
        exact .swept e now (Or.inl he) (List.mem_singleton_self _) (of_decide_eq_true hany)
  · exact .refl _

theorem rewrapVersion_evolves {version : Int32} {kmsKeyId : String} {wrappedDek : Bytes} {wrappedRotationAt : Int64}
    (hok : rewrapVersion C name version kmsKeyId wrappedDek wrappedRotationAt t = (.ok (), t')) :
    Evolves C name commands t t' := by
  rcases rewrapVersion_ok hok with rfl | ⟨value, record, hget, hdec, hany, rfl⟩
  · exact evolves_of_sameRows ⟨rfl, fun _ => rfl⟩
  · intro s hs
    refine ⟨⟨s, hs, .refl s⟩, fun number _ _ => ?_⟩
    rw [versionAt, versionAt, recordAt_insert]
    split_ifs with hkey
    · rw [← hkey, recordAt_of_get hget hdec]
      refine .kept ⟨rfl, rfl, rfl, rfl, rfl, fun _ he => he, Or.inr ⟨_, rfl, fun earlier hearlier => ?_⟩⟩
        fun e he => Or.inl he
      rw [hearlier] at hany
      exact lt_of_not_ge (of_decide_eq_false hany)
    · exact .refl _

/-- One issued command that does not delete the secret. -/
theorem storeStep_evolves (h : SecretInv C t) (nodeId : Nat) {command : Command} (hi : command.Issued)
    (hkeep : command ≠ .deleteSecret name) : Evolves C name [command] t (storeStep C nodeId t command) := by
  unfold storeStep RedbStore.apply
  cases hr : applyCommand C nodeId command t with
  | mk outcome t' =>
      cases outcome with
      | error e => exact evolves_of_sameRows ⟨rfl, fun _ => rfl⟩
      | ok u =>
          have hother : ∀ subject, command.subject = some subject → name ≠ subject → Evolves C name [command] t t' :=
            fun subject hsubject hne => evolves_of_sameRows (applyCommand_rows hsubject hne hr)
          have hframe : command.keepsSecrets = true → Evolves C name [command] t t' := by
            intro hkeeps
            have hf := @applyCommand_frame C nodeId _ hkeeps t
            rw [hr] at hf
            exact evolves_of_sameRows ⟨by rw [hf.1], fun _ => by rw [hf.2]⟩
          cases command with
          | createSecret secret version =>
              by_cases hne : name = secret.name
              · intro s hs
                obtain ⟨_, hfresh, _⟩ := createSecret_ok hr
                obtain ⟨bytes, hget, _⟩ := get_of_recordAt hs
                rw [hne, hfresh] at hget
                cases hget
              · exact hother _ rfl hne
          | putVersion name' =>
              by_cases hne : name = name'
              · subst hne
                exact putVersion_evolves h hi hr
              · exact hother _ rfl hne
          | updateMeta name' =>
              by_cases hne : name = name'
              · subst hne
                exact updateMeta_evolves hr
              · exact hother _ rfl hne
          | deleteSecret name' => exact hother _ rfl fun hne => hkeep (hne ▸ rfl)
          | rewrapVersion name' =>
              by_cases hne : name = name'
              · subst hne
                exact rewrapVersion_evolves hr
              · exact hother _ rfl hne
          | expireGraceVersions => exact expireGraceVersions_evolves hr
          | restoreDatabase => exact hi.elim
          | _ => exact hframe rfl

theorem run_evolves (h : SecretInv C t) (nodeId : Nat) (hissued : ∀ command ∈ commands, command.Issued)
    (hkeep : .deleteSecret name ∉ commands) : Evolves C name commands t (run (storeStep C nodeId) t commands) := by
  induction commands generalizing t with
  | nil => exact evolves_of_sameRows ⟨rfl, fun _ => rfl⟩
  | cons command commands ih =>
      have hi := hissued command List.mem_cons_self
      have hne : command ≠ .deleteSecret name := fun he => hkeep (he ▸ List.mem_cons_self)
      have hstep := storeStep_evolves h nodeId hi hne
      exact hstep.trans (ih (redbStore_apply_inv h nodeId hi)
        (fun c hc => hissued c (List.mem_cons_of_mem _ hc)) fun hc => hkeep (List.mem_cons_of_mem _ hc))

end Steps

/-- From any state that issued commands have reached, and for any further ones that do not delete the secret: the secret
stays with its kind, format, target and a current version that never goes down, and each row up to the current version
keeps its sealed content and its expiry, is not there again once it is gone, and goes only in a sweep at or after the
expiry it had or got when it was superseded. -/
theorem versions_append_only (C : Codec) (nodeId : Nat) (before after : List Command)
    (hissued : ∀ command ∈ before ++ after, command.Issued) (name : String) (hkeep : .deleteSecret name ∉ after) :
    Evolves C name after (run (storeStep C nodeId) .empty before)
      (run (storeStep C nodeId) .empty (before ++ after)) := by
  have hsteps : AllSteps (storeStep C nodeId) (fun _ command => command.Issued) .empty before :=
    allSteps_of_forall fun command hc => hissued command (List.mem_append_left _ hc)
  have hinv : SecretInv C (run (storeStep C nodeId) .empty before) :=
    run_inv_of_allSteps (I := SecretInv C) (fun _ _ ht hc => redbStore_apply_inv ht nodeId hc) secretInv_empty hsteps
  rw [run_append]
  exact run_evolves hinv nodeId (fun command hc => hissued command (List.mem_append_right _ hc)) hkeep

theorem versions_append_only_swept :
    Evolves jsonCodec "a" [.putVersion "a" 1 (versionOf "a" 2) (some 60) none none none .keep 0, .expireGraceVersions 100]
      (run (storeStep jsonCodec 1) .empty [.createSecret (secretNamed "a") (versionOf "a" 1)])
      (run (storeStep jsonCodec 1) .empty (lifeOfSecret.take 3)) := by
  refine versions_append_only jsonCodec 1 [.createSecret (secretNamed "a") (versionOf "a" 1)] _ ?_ "a" ?_
  · simp [Command.Issued, secretNamed, versionOf]
  · simp

end HyperionVault
