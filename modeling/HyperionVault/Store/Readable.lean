import HyperionVault.Lib.Run
import HyperionVault.Store.Acts

/-!
# Which states can fail a committed command

A command fails internally when it meets a row that does not decode. Every row a command writes itself
does decode, so the question is what a restore lets in: it checks the keys of a backup and not its
values.

* `Readable` : every row that some command decodes holds a record;
* `Safe f` : on readable tables, `f` does not fail internally and leaves readable tables;
* `BackupData.Decodable` : every row a backup leaves in those tables holds a record;
* `readable_of_noInternal`, `noInternal_of_readable` : the readable states are those no command fails in;
* `noInternal_run_iff` : no state of a run can fail a further command, exactly when every backup that the
  run restores is decodable.
-/

namespace HyperionVault
open Lib

structure Readable (C : Codec) (t : Tables) : Prop where
  secrets : Decodes C.secret t.secrets
  versions : Decodes C.version t.versions
  roles : Decodes C.role t.roles
  tokens : Decodes C.token t.tokens
  lockouts : Decodes C.lockout t.lockouts

def Safe (C : Codec) (f : Tables → StoreResult Unit × Tables) : Prop :=
  ∀ t, Readable C t → isInternalOutcome (f t).1 = false ∧ Readable C (f t).2

/-- The rows a restore would leave in the tables that commands decode. -/
structure BackupData.Decodable (C : Codec) (data : BackupData) : Prop where
  secrets : Decodes C.secret (Table.ofRows data.secrets)
  versions : Decodes C.version (Table.ofRows data.versions)
  roles : Decodes C.role (Table.ofRows data.roles)
  tokens : Decodes C.token (Table.ofRows data.tokens)

section Commands
variable {C : Codec}

theorem readable_empty : Readable C .empty :=
  ⟨decodes_empty, decodes_empty, decodes_empty, decodes_empty, decodes_empty⟩

variable (C) in
/-- A restore brings records only; other commands do so always. -/
def Command.BringsRecords : Command → Prop
  | .restoreDatabase data => data.accepted = true → data.Decodable C
  | _ => True

variable {t t' : Tables}

/-! ## Commands on readable tables -/

theorem canRead_of_readable (h : Readable C t) (command : Command) : command.CanRead C t := by
  cases command with
  | putVersion => exact ⟨h.secrets _, fun _ _ => h.versions _⟩
  | updateMeta => exact h.secrets _
  | setPermissions => exact h.roles _
  | deleteRole => exact h.tokens
  | revokeToken => exact fun fingerprint _ => h.tokens fingerprint
  | touchToken => exact h.tokens _
  | expireGraceVersions => exact h.versions
  | rewrapVersion => exact h.versions _
  | recordAuthFailure => exact h.lockouts _
  | _ => trivial

theorem isSome_decode_encode {α : Type} (S : Serde α) (a : α) : (S.decode (S.encode a)).isSome := by
  rw [S.decode_encode]
  rfl

/-- The rows that a command sets hold records; a restore may bring any state of the key rotation. -/
theorem isSome_of_set {command : Command} (hc : command.BringsRecords C) {row : ReplicatedRow}
    (hrow : ∀ key, row ≠ .kmsRewrap key) (hacts : command.Acts C t row) {bytes : Bytes}
    (hset : command.change C row = .set (some bytes)) : ((row.serde C).decode bytes).isSome := by
  cases command with
  | restoreDatabase data =>
      have hdata := hc hacts
      have hbytes : (data.tables .empty).replicated.row row = some bytes := Change.set.inj hset
      cases row with
      | secret name => exact hdata.secrets name bytes hbytes
      | version key => exact hdata.versions key bytes hbytes
      | role name => exact hdata.roles name bytes hbytes
      | token fingerprint => exact hdata.tokens fingerprint bytes hbytes
      | tokenName name => rfl
      | kmsRewrap key => exact absurd rfl (hrow key)
  | putVersion name expectedCurrent version =>
      obtain ⟨-, rfl | rfl | ⟨rfl, -⟩⟩ := hacts
      · cases hset
      · rw [change_new_version] at hset
        cases hset
        exact isSome_decode_encode _ _
      · obtain hkey | hkey := eq_or_ne (versionKey name expectedCurrent) (versionKey name version.version)
        · rw [hkey, change_new_version] at hset
          cases hset
          exact isSome_decode_encode _ _
        · rw [change_prev_version hkey] at hset
          cases hset
  | _ => cases row <;> cases hset <;> exact isSome_decode_encode _ _

theorem isSome_of_outcome {command : Command} (hc : command.BringsRecords C)
    (houtcome : Outcome C command t (.ok (), t')) (row : ReplicatedRow) (hrow : ∀ key, row ≠ .kmsRewrap key)
    (h : ∀ bytes, t.replicated.row row = some bytes → ((row.serde C).decode bytes).isSome) {bytes : Bytes}
    (hget : t'.replicated.row row = some bytes) : ((row.serde C).decode bytes).isSome := by
  cases houtcome with
  | done acts rests =>
      by_cases hacts : command.Acts C t row
      · rw [acts row hacts, Command.write] at hget
        cases hchange : command.change C row with
        | set value =>
            rw [hchange] at hget
            exact isSome_of_set hc hrow hacts (hchange.trans (congrArg Change.set hget))
        | update f =>
            obtain ⟨record, hrecord⟩ := hacts.holds hchange
            rw [hchange, Change.write_update hrecord] at hget
            cases hget
            exact isSome_decode_encode _ _
      · exact h bytes ((rests row hacts).symm.trans hget)

theorem decodes_lockouts {nodeId : Nat} {command : Command} (h : Decodes C.lockout t.lockouts)
    (hok : applyCommand C nodeId command t = (.ok (), t')) : Decodes C.lockout t'.lockouts := by
  cases command with
  | restoreDatabase =>
      obtain ⟨-, rfl⟩ := restoreDatabase_ok hok
      exact h
  | recordAuthFailure key now max windowSecs lockoutSecs =>
      change recordAuthFailure C key now max windowSecs lockoutSecs t = _ at hok
      unfold recordAuthFailure at hok
      dsimp only at hok
      split at hok
      · cases hok
      · cases hok
        exact decodes_insert h _ _
  | _ =>
      have hsame := congrArg Tables.lockouts (applyCommand_area hok)
      rw [hsame]
      exact h

theorem applyCommand_safe (nodeId : Nat) {command : Command} (hc : command.BringsRecords C) :
    Safe C (applyCommand C nodeId command) := by
  intro t h
  have houtcome := applyCommand_outcome (C := C) nodeId command t
  have hread := canRead_of_readable h command
  refine ⟨houtcome.noInternal hread, ?_⟩
  generalize hresult : applyCommand C nodeId command t = result at houtcome ⊢
  cases houtcome with
  | refused => exact h
  | failed _ unreadable => exact absurd hread unreadable
  | done acts rests =>
      have hrows := isSome_of_outcome hc (.done acts rests)
      exact {
        secrets := fun name _ => hrows (.secret name) nofun (h.secrets name)
        versions := fun key _ => hrows (.version key) nofun (h.versions key)
        roles := fun name _ => hrows (.role name) nofun (h.roles name)
        tokens := fun fingerprint _ => hrows (.token fingerprint) nofun (h.tokens fingerprint)
        lockouts := decodes_lockouts h.lockouts hresult }

/-! ## The readable states are the ones no command can fail in -/

theorem noInternal_of_readable (h : Readable C t) (nodeId : Nat) (command : Command) :
    isInternalOutcome (applyCommand C nodeId command t).1 = false :=
  (applyCommand_outcome nodeId command t).noInternal (canRead_of_readable h command)

theorem decodeRow_eq_error {α : Type} {S : Serde α} {bytes : Bytes} (h : ¬(S.decode bytes).isSome) :
    decodeRow S bytes = .error (.internal "decode store record") := by
  rw [Option.not_isSome_iff_eq_none] at h
  unfold decodeRow
  rw [h]

theorem isSome_of_expiredKeys {now : Int64} {rows : List (String × Bytes)} {expired : List String}
    (h : expiredKeys C now rows = .ok expired) : ∀ row ∈ rows, (C.version.decode row.2).isSome := by
  induction rows generalizing expired with
  | nil => simp
  | cons row rows ih =>
      unfold expiredKeys at h
      split at h
      · cases h
      · rename_i record hdec
        split at h
        · cases h
        · rename_i keys hkeys
          intro r hr
          rcases List.mem_cons.mp hr with rfl | hr
          · rw [decodeRow_ok.mp hdec]
            rfl
          · exact ih hkeys r hr

/-- Each kind of row has a command that reads it, so a state in which no command fails is readable. -/
theorem readable_of_noInternal {nodeId : Nat}
    (h : ∀ command, isInternalOutcome (applyCommand C nodeId command t).1 = false) : Readable C t := by
  refine ⟨?_, ?_, ?_, ?_, ?_⟩
  · intro name bytes hget
    by_contra hdec
    have hfail := h (.updateMeta name 1 none none none .keep 0)
    change isInternalOutcome (updateMeta C name 1 none none none .keep 0 t).1 = false at hfail
    unfold updateMeta at hfail
    simp only [hget, decodeRow_eq_error hdec] at hfail
    cases hfail
  · have hsweep := h (.expireGraceVersions 0)
    change isInternalOutcome (expireGraceVersions C 0 t).1 = false at hsweep
    unfold expireGraceVersions at hsweep
    cases he : expiredKeys C 0 t.versions.rows with
    | error e =>
        simp only [he, isInternalOutcome, (expiredKeys_error he).1] at hsweep
        cases hsweep
    | ok expired =>
        intro key bytes hget
        exact isSome_of_expiredKeys he (key, bytes) (Table.mem_rows.mpr hget)
  · intro name bytes hget
    by_contra hdec
    have hfail := h (.setPermissions name [])
    change isInternalOutcome (setPermissions C name [] t).1 = false at hfail
    unfold setPermissions at hfail
    simp only [hget, decodeRow_eq_error hdec] at hfail
    cases hfail
  · intro fingerprint bytes hget
    by_contra hdec
    have hfail := h (.touchToken fingerprint 0)
    change isInternalOutcome (touchToken C fingerprint 0 t).1 = false at hfail
    unfold touchToken at hfail
    simp only [hget, decodeRow_eq_error hdec] at hfail
    cases hfail
  · intro key bytes hget
    by_contra hdec
    have hfail := h (.recordAuthFailure key 0 0 0 0)
    change isInternalOutcome (recordAuthFailure C key 0 0 0 0 t).1 = false at hfail
    unfold recordAuthFailure at hfail
    simp only [hget, decodeRow_eq_error hdec] at hfail
    cases hfail

theorem storeStep_readable (h : Readable C t) (nodeId : Nat) {command : Command}
    (hc : command.BringsRecords C) : Readable C (storeStep C nodeId t command) := by
  have hsafe := (applyCommand_safe nodeId hc t h).2
  unfold storeStep RedbStore.apply
  cases hr : applyCommand C nodeId command t with
  | mk outcome t' =>
      rw [hr] at hsafe
      cases outcome with
      | ok u => exact hsafe
      | error e => exact h

theorem storeStep_restoreDatabase {data : BackupData} (ha : data.accepted = true) (nodeId : Nat) (t : Tables) :
    storeStep C nodeId t (.restoreDatabase data) = data.tables t := by
  have hr : applyCommand C nodeId (.restoreDatabase data) t = (.ok (), data.tables t) :=
    restoreDatabase_of_accepted ha t
  unfold storeStep RedbStore.apply
  rw [hr]

end Commands

/-- No state of a run from the empty store can fail a further command internally, exactly when every backup
that the run restores leaves nothing but records in the tables that commands decode. -/
theorem noInternal_run_iff (C : Codec) (nodeId : Nat) (commands : List Command) :
    (∀ before after, commands = before ++ after → ∀ n command,
      isInternalOutcome (applyCommand C n command (run (storeStep C nodeId) .empty before)).1 = false) ↔
    ∀ command ∈ commands, command.BringsRecords C := by
  constructor
  · intro h command hmem
    obtain ⟨before, after, hsplit⟩ := List.append_of_mem hmem
    cases command with
    | restoreDatabase data =>
        intro ha
        have hstate := h (before ++ [.restoreDatabase data]) after (by rw [hsplit, List.append_assoc]; rfl) nodeId
        have hread := readable_of_noInternal hstate
        rw [run_append, run_cons, run_nil, storeStep_restoreDatabase ha] at hread
        exact ⟨hread.secrets, hread.versions, hread.roles, hread.tokens⟩
    | _ => trivial
  · intro h before after hsplit n command
    have hbefore : ∀ c ∈ before, c.BringsRecords C := fun c hc => h c (hsplit ▸ List.mem_append_left _ hc)
    have hsteps : AllSteps (storeStep C nodeId) (fun _ c => c.BringsRecords C) .empty before :=
      allSteps_of_forall hbefore
    have hread : Readable C (run (storeStep C nodeId) .empty before) :=
      run_inv_of_allSteps (I := Readable C) (fun _ _ ht hc => storeStep_readable ht nodeId hc) readable_empty hsteps
    exact noInternal_of_readable hread n command

end HyperionVault
