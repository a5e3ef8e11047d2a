import HyperionVault.Lib.Run
import HyperionVault.Raft.Node
import HyperionVault.Raft.Snapshot

/-!
# Sending a snapshot to another node

A node refuses a snapshot that holds a key which no write path would have produced. The write paths check
their keys one by one (`check_secret_row` for commands, `check_secret_rows` for a restore), so a table only
ever holds keys that the receiver accepts.

* `ValidKeys` : the keys of secrets and versions are those of valid names and versions;
* `validKeys_applyCommand` : every command keeps them so, whatever its fields hold;
* `installSnapshot_of_validKeys` : a snapshot of such tables is accepted, and the receiver has the same tables.
-/

namespace HyperionVault
open Lib

/-- The keys of secrets and versions are those that the write paths accept. -/
structure ValidKeys (t : Tables) : Prop where
  secrets : t.secrets.KeysIn fun key => isValidSecretName key = true
  versions : t.versions.KeysIn fun key => isValidVersionKey key = true

/-! ## Every command keeps the keys valid -/

section Commands
variable {C : Codec} {t t' : Tables}

theorem supersede_keysIn {P : String → Prop} {name : String} {expectedCurrent : Int32} {expiry : Option Int64}
    {versions versions' : Table String Bytes} (h : versions.KeysIn P)
    (hok : supersede C name expectedCurrent expiry versions = .ok versions') : versions'.KeysIn P := by
  unfold supersede at hok
  split at hok
  · cases hok
    exact h
  · split at hok
    · cases hok
      exact h
    · rename_i value hget
      split at hok
      · cases hok
      · split_ifs at hok
        · cases hok
          exact Table.keysIn_insert h (h _ (Option.isSome_iff_exists.mpr ⟨value, hget⟩)) _
        · cases hok
          exact h

theorem validKeys_restore {data : BackupData} (hok : restoreDatabase data t = (.ok (), t')) : ValidKeys t' := by
  obtain ⟨haccepted, rfl⟩ := restoreDatabase_ok hok
  obtain ⟨hs, hv, _⟩ := checkSecretRows_ok (checkSecretRows_of_accepted haccepted)
  exact ⟨Table.keysIn_ofRows hs, Table.keysIn_ofRows hv⟩

/-- Every command keeps the keys valid, whatever its fields hold. -/
theorem validKeys_applyCommand (h : ValidKeys t) {nodeId : Nat} {command : Command}
    (hok : applyCommand C nodeId command t = (.ok (), t')) : ValidKeys t' := by
  have hframe : command.keepsSecrets = true → ValidKeys t' := by
    intro hkeep
    have hf := @applyCommand_frame C nodeId _ hkeep t
    rw [hok] at hf
    exact ⟨hf.1.symm ▸ h.secrets, hf.2.symm ▸ h.versions⟩
  cases command with
  | createSecret secret version =>
      obtain ⟨⟨hname, hversion⟩, _, rfl⟩ := createSecret_ok hok
      exact ⟨Table.keysIn_insert h.secrets hname _,
        Table.keysIn_insert h.versions (isValidVersionKey_versionKey hname hversion) _⟩
  | putVersion name expectedCurrent version =>
      obtain ⟨⟨hname, hversion⟩, _, _, versions, _, _, _, hsupersede, rfl⟩ := putVersion_ok hok
      exact ⟨Table.keysIn_insert h.secrets hname _,
        supersede_keysIn (Table.keysIn_insert h.versions (isValidVersionKey_versionKey hname hversion) _) hsupersede⟩
  | updateMeta name =>
      -- no check of its own: the name is that of a row
      obtain ⟨value, secret, hget, _, _, rfl⟩ := updateMeta_ok hok
      exact ⟨Table.keysIn_insert h.secrets (h.secrets name (Option.isSome_iff_exists.mpr ⟨value, hget⟩)) _, h.versions⟩
  | deleteSecret name =>
      obtain ⟨_, rfl⟩ := deleteSecret_ok hok
      exact ⟨Table.keysIn_remove h.secrets _, Table.keysIn_removeAll h.versions _⟩
  | expireGraceVersions now =>
      obtain ⟨expired, _, rfl⟩ := expireGraceVersions_ok hok
      exact ⟨h.secrets, Table.keysIn_removeAll h.versions _⟩
  | rewrapVersion name version =>
      rcases rewrapVersion_ok hok with rfl | ⟨value, record, hget, _, _, rfl⟩
      · exact h
      · exact ⟨h.secrets, Table.keysIn_insert h.versions
          (h.versions _ (Option.isSome_iff_exists.mpr ⟨value, hget⟩)) _⟩
  | restoreDatabase data => exact validKeys_restore hok
  | _ => exact hframe rfl

end Commands

/-! ## The stores that commands reach -/

section Reached
variable {C : Codec} {nodeId : Nat} {t : Tables}

theorem validKeys_arrive (h : ValidKeys t) (arrival : Arrival) : ValidKeys (arrive C nodeId t arrival) := by
  rcases @arrive_cases C nodeId t arrival with he | hok
  · rw [he]
    exact h
  · exact validKeys_applyCommand h hok

theorem validKeys_run (h : ValidKeys t) (arrivals : List Arrival) : ValidKeys (run (arrive C nodeId) t arrivals) :=
  run_inv (I := ValidKeys) (fun _ arrival ht => validKeys_arrive ht arrival) h arrivals

end Reached

/-! ## The receiver -/

section Receiver
variable {R : RaftCodec}

/-- A snapshot of tables with valid keys is accepted, and the receiver then has those tables. -/
theorem installSnapshot_of_validKeys {t : Tables} (h : ValidKeys t) {a : Option LogId} {m : StoredMembership}
    (hindex : ∀ last, a = some last → last.index ≤ maxPlausibleLogIndex) (other : Db) :
    ∃ other', StateMachine.installSnapshot R (assembleSnapshot R a m t.replicated).info
        (assembleSnapshot R a m t.replicated).snapshot other = (.ok (), other') ∧
      other'.tables.replicated = t.replicated := by
  have hdecode : R.snapshotData.decode (assembleSnapshot R a m t.replicated).snapshot =
      some (snapshotData a m t.replicated) := R.snapshotData.decode_encode _
  have hmeta : checkSnapshotMeta (assembleSnapshot R a m t.replicated).info = .ok () :=
    checkSnapshotMeta_ok_iff.mpr hindex
  have hrows : checkSnapshotRows (snapshotData a m t.replicated) = .ok () :=
    checkSnapshotRows_ok_iff.mpr ⟨fun _ => h.secrets.mem_rows, fun _ => h.versions.mem_rows⟩
  unfold StateMachine.installSnapshot
  simp only [hdecode, hmeta, hrows]
  refine ⟨_, rfl, ?_⟩
  rw [tables_removeCovered]
  show (installPosition R a _).tables.replicated = _
  rw [tables_installPosition, replicated_restore, tables_snapshotData]

end Receiver

/-- From the empty store, whatever commands reach it and on whichever path, every secret has a valid name and
every version row the key of a valid name and a version from 1 on; and a snapshot that is built of such a state is
accepted by every other node and leaves it with the same replicated tables. -/
theorem snapshot_transfer_exact (C : Codec) (R : RaftCodec) (nodeId : Nat) (arrivals : List Arrival) (db : Db)
    (hreached : db.tables = run (arrive C nodeId) .empty arrivals) :
    (∀ key value, db.tables.secrets.get key = some value → isValidSecretName key = true) ∧
    (∀ key value, db.tables.versions.get key = some value →
      ∃ name version, key = versionKey name version ∧ isValidSecretName name = true ∧ 1 ≤ version.toInt) ∧
    ∀ s db', StateMachine.buildSnapshot R db = (.ok s, db') →
      (∀ last, s.info.lastLogId = some last → last.index ≤ 2 ^ 52) →
      ∀ other, ∃ other', StateMachine.installSnapshot R s.info s.snapshot other = (.ok (), other') ∧
        other'.tables.replicated = db.tables.replicated := by
  have hvalid : ValidKeys db.tables := hreached ▸ validKeys_run ⟨Table.keysIn_empty, Table.keysIn_empty⟩ arrivals
  refine ⟨fun key value hget => ?_, fun key value hget => ?_, fun s db' hbuild hindex other => ?_⟩
  · exact hvalid.secrets key (Option.isSome_iff_exists.mpr ⟨value, hget⟩)
  · exact exists_of_isValidVersionKey (hvalid.versions key (Option.isSome_iff_exists.mpr ⟨value, hget⟩))
  · obtain ⟨a, m, _, rfl, _⟩ := buildSnapshot_ok hbuild
    exact installSnapshot_of_validKeys hvalid hindex other

/-- A node on which a secret was created. -/
def createdDb : Db :=
  { freshDb with
    tables := run (arrive jsonCodec 1) .empty [.replicated (.createSecret (secretNamed "a") (versionOf "a" 1))] }

/-- The node sends the secret to a node that has a role of its own. -/
theorem secret_is_transferred : ∃ s db' other', StateMachine.buildSnapshot jsonRaftCodec createdDb = (.ok s, db') ∧
    StateMachine.installSnapshot jsonRaftCodec s.info s.snapshot { freshDb with tables := tablesWithRoles ["b"] } =
      (.ok (), other') ∧
    other'.tables.replicated = createdDb.tables.replicated := by
  have hbuild : StateMachine.buildSnapshot jsonRaftCodec createdDb = _ := buildSnapshot_eq (readMeta_none _ rfl) rfl
  obtain ⟨other', hinstall, htables⟩ := (snapshot_transfer_exact jsonCodec jsonRaftCodec 1
    [.replicated (.createSecret (secretNamed "a") (versionOf "a" 1))] createdDb rfl).2.2 _ _ hbuild
    (fun _ h => nomatch h) { freshDb with tables := tablesWithRoles ["b"] }
  exact ⟨_, _, other', hbuild, hinstall, htables⟩

end HyperionVault
