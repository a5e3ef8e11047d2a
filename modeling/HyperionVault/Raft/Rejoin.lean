import HyperionVault.Raft.Log
import HyperionVault.Raft.Node
import HyperionVault.Raft.Refine
import HyperionVault.Store.Acts

/-!
# Rejoining with the tables kept

`reset_raft_state` drops the log and the raft metadata and keeps the tables, so the leader sends the log from its
first entry to a node that has applied it before. Commands that were refused the first time meet other tables then.

* `noInternal_of_applyBatches` : a log that has been applied to its end met no internal error;
* `Entry.Acts`, `Entry.write`, `row_sequentialEntry` : what an entry does to a row, from the tables before it;
* `replayStep` : the log on the first tables and on its own result, side by side;
* `ActsAgain`, `MeetsLater`, `Repeatable` : an entry does to a row what it did the first time, or a later one makes up
  for it;
* `rejoin_converges` : when the node ends with the tables it had;
* `permissions_before_role` : a log on which it does not.
-/

namespace HyperionVault
open Lib

section Replay
variable {C : Codec} {R : RaftCodec} {nodeId : Nat}

/-! ## A log that has been applied -/

/-- A log that has been applied to its end met no internal error. -/
theorem noInternal_of_applyBatches {batches : List (List Entry)} {db : Db} {results : List ApplyResult}
    (h : (applyBatches C R nodeId batches db).1 = .ok results) : NoInternal C nodeId batches.flatten db.tables := by
  induction batches generalizing db results with
  | nil => exact fun outcome hmem => absurd hmem List.not_mem_nil
  | cons batch rest ih =>
      cases hb : applyEntries C nodeId batch (.begin_ db.tables) with
      | error e =>
          simp only [applyBatches, StateMachine.apply, hb] at h
          cases h
      | ok b =>
          have hbatch : NoInternal C nodeId batch db.tables := noInternal_of_applyEntries hb
          obtain ⟨first, db₁, happly, hagree⟩ := apply_agreesWith (R := R) hbatch
          simp only [applyBatches, happly] at h
          rcases hrest : applyBatches C R nodeId rest db₁ with ⟨outcome, db₂⟩
          rw [hrest] at h
          cases outcome with
          | error e => cases h
          | ok more =>
              have hlater := ih (congrArg Prod.fst hrest)
              rw [hagree.tables] at hlater
              rw [List.flatten_cons, noInternal_append]
              exact ⟨hbatch, hlater⟩

end Replay

/-! ## An entry on the replicated tables -/

section Entries
variable (C : Codec)

/-- The rows on which an entry acts; only commands act on rows. -/
def Entry.Acts (t : Tables) (entry : Entry) (row : ReplicatedRow) : Prop :=
  match entry.payload with
  | .normal command => command.Acts C t row
  | _ => False

def Entry.write (entry : Entry) (row : ReplicatedRow) (value : Option Bytes) : Option Bytes :=
  match entry.payload with
  | .normal command => command.write C row value
  | _ => value

def Entry.CanRead (t : Tables) (entry : Entry) : Prop :=
  match entry.payload with
  | .normal command => command.CanRead C t
  | _ => True

variable {C} {nodeId : Nat} {entry : Entry} {t : Tables}

/-- What an entry leaves, from the tables before it. -/
theorem row_sequentialEntry (h : isInternalOutcome (sequentialEntry C nodeId entry t).1 = false)
    (row : ReplicatedRow) :
    (entry.Acts C t row → (sequentialEntry C nodeId entry t).2.replicated.row row =
      entry.write C row (t.replicated.row row)) ∧
    (¬ entry.Acts C t row → (sequentialEntry C nodeId entry t).2.replicated.row row = t.replicated.row row) := by
  revert h
  unfold Entry.Acts Entry.write sequentialEntry
  cases entry.payload with
  | normal command =>
      have houtcome := applyCommand_outcome (C := C) nodeId command t
      dsimp only [RedbStore.apply]
      generalize applyCommand C nodeId command t = result at houtcome ⊢
      intro h
      cases houtcome with
      | done acts rests => exact ⟨acts row, rests row⟩
      | refused he idle => exact ⟨fun hacts => absurd hacts (idle row), fun _ => rfl⟩
      | failed he => exact absurd (he.symm.trans h) nofun
  | _ => exact fun _ => ⟨nofun, fun _ => rfl⟩

/-- An entry that can read its rows meets no internal error. -/
theorem noInternal_of_canRead (nodeId : Nat) (h : entry.CanRead C t) :
    isInternalOutcome (sequentialEntry C nodeId entry t).1 = false := by
  unfold Entry.CanRead at h
  unfold sequentialEntry
  cases hpayload : entry.payload with
  | normal command =>
      rw [hpayload] at h
      have houtcome := applyCommand_outcome (C := C) nodeId command t
      dsimp only [RedbStore.apply]
      generalize applyCommand C nodeId command t = result at houtcome ⊢
      cases houtcome with
      | done => rfl
      | refused he => exact he
      | failed _ unreadable => exact absurd h unreadable
  | _ => rfl

/-- An entry that acts both times keeps a row between two others. -/
theorem rowBetween_write {row : ReplicatedRow} {u : Option Bytes} {s r : Tables}
    (h : RowBetween (row.serde C) row.fields u (s.replicated.row row) (r.replicated.row row))
    (hs : entry.Acts C s row)
    (hr : entry.Acts C r row ∨ entry.write C row (r.replicated.row row) = r.replicated.row row) :
    RowBetween (row.serde C) row.fields u (entry.write C row (s.replicated.row row))
      (entry.write C row (r.replicated.row row)) := by
  unfold Entry.Acts at hs hr
  unfold Entry.write at hr ⊢
  cases hpayload : entry.payload with
  | normal command =>
      simp only [hpayload] at hs hr
      refine h.write fun f hf => ⟨Command.fieldwise_change hf, hs.holds hf, ?_⟩
      obtain hacts | hsame := hr
      · exact Or.inr (hacts.holds hf)
      · rw [Command.write, hf] at hsame
        exact Change.holds_of_write_eq hsame
  | _ => simp only [hpayload] at hs

end Entries

/-! ## The log on its own result -/

section Replay
variable (C : Codec) (nodeId : Nat)

/-- An entry on the tables on which it was applied first, and on those on which it is replayed. -/
def replayStep (s : Tables × Tables) (entry : Entry) : Tables × Tables :=
  ((sequentialEntry C nodeId entry s.1).2, (sequentialEntry C nodeId entry s.2).2)

/-- A later entry acts on the row both times and writes the same there. -/
def MeetsLater : Tables × Tables → List Entry → ReplicatedRow → Prop
  | _, [], _ => False
  | s, entry :: rest, row =>
      (entry.Acts C s.1 row ∧ entry.Acts C s.2 row ∧
        entry.write C row (s.1.replicated.row row) = entry.write C row (s.2.replicated.row row)) ∨
      MeetsLater (replayStep C nodeId s entry) rest row

/-- At its replay an entry acts on the rows on which it acted first. It may act on another row where it writes what is
there, and leave a row alone that holds what it writes, or what it held in the tables `u` at the start of the replay. -/
def ActsAgain (u : Tables) (s : Tables × Tables) (entry : Entry) (row : ReplicatedRow) : Prop :=
  let stays := entry.write C row (s.2.replicated.row row) = s.2.replicated.row row
  (entry.Acts C s.2 row → entry.Acts C s.1 row ∨ stays) ∧
    (entry.Acts C s.1 row → entry.Acts C s.2 row ∨ stays ∨ s.2.replicated.row row = u.replicated.row row)

/-- Every entry of the replay can read its rows, and acts again on each row that no later entry makes the same. -/
def Repeatable (u : Tables) : Tables × Tables → List Entry → Prop
  | _, [] => True
  | s, entry :: rest =>
      entry.CanRead C s.2 ∧
      (∀ row, ActsAgain C u s entry row ∨ MeetsLater C nodeId (replayStep C nodeId s entry) rest row) ∧
      Repeatable u (replayStep C nodeId s entry) rest

variable {C nodeId}

theorem noInternal_cons {entry : Entry} {rest : List Entry} {t : Tables} : NoInternal C nodeId (entry :: rest) t ↔
    isInternalOutcome (sequentialEntry C nodeId entry t).1 = false ∧
      NoInternal C nodeId rest (sequentialEntry C nodeId entry t).2 := by
  unfold NoInternal
  rw [sequential_cons]
  exact List.forall_mem_cons

theorem noInternal_of_repeatable {u : Tables} {s : Tables × Tables} {entries : List Entry}
    (h : Repeatable C nodeId u s entries) : NoInternal C nodeId entries s.2 := by
  induction entries generalizing s with
  | nil => exact fun outcome hmem => absurd hmem List.not_mem_nil
  | cons entry rest ih => exact noInternal_cons.mpr ⟨noInternal_of_canRead nodeId h.1, ih h.2.2⟩

theorem run_replayStep (t u : Tables) (entries : List Entry) :
    run (replayStep C nodeId) (t, u) entries =
      ((sequential C nodeId entries t).2, (sequential C nodeId entries u).2) := by
  induction entries generalizing t u with
  | nil => rfl
  | cons entry rest ih =>
      rw [run_cons, sequential_cons, sequential_cons]
      exact ih _ _

variable (C) in
/-- The row of the replay is that of its start, that of the first time, or between them. -/
def Catches (u : Tables) (s : Tables × Tables) (row : ReplicatedRow) : Prop :=
  RowBetween (row.serde C) row.fields (u.replicated.row row) (s.1.replicated.row row) (s.2.replicated.row row)

section Step
variable {u : Tables} {s : Tables × Tables} {entry : Entry} {row : ReplicatedRow}
  (hfirst : isInternalOutcome (sequentialEntry C nodeId entry s.1).1 = false) (hread : entry.CanRead C s.2)
include hfirst hread

theorem catches_of_actsAgain (h : Catches C u s row) (hagain : ActsAgain C u s entry row) :
    Catches C u (replayStep C nodeId s entry) row := by
  obtain ⟨hs, hs'⟩ := row_sequentialEntry hfirst row
  obtain ⟨hr, hr'⟩ := row_sequentialEntry (noInternal_of_canRead nodeId hread) row
  unfold Catches replayStep
  by_cases hacted : entry.Acts C s.1 row
  · rw [hs hacted]
    by_cases hacts : entry.Acts C s.2 row
    · rw [hr hacts]
      exact rowBetween_write h hacted (Or.inl hacts)
    · rw [hr' hacts]
      obtain hagain | hstays | hstart := hagain.2 hacted
      · exact absurd hagain hacts
      · have hbetween := rowBetween_write h hacted (Or.inr hstays)
        rwa [hstays] at hbetween
      · exact Or.inl hstart
  · have hkept : (sequentialEntry C nodeId entry s.2).2.replicated.row row = s.2.replicated.row row := by
      by_cases hacts : entry.Acts C s.2 row
      · rw [hr hacts]
        exact (hagain.1 hacts).resolve_left hacted
      · exact hr' hacts
    rw [hs' hacted, hkept]
    exact h

theorem catches_of_meets (hacted : entry.Acts C s.1 row) (hacts : entry.Acts C s.2 row)
    (hsame : entry.write C row (s.1.replicated.row row) = entry.write C row (s.2.replicated.row row)) :
    Catches C u (replayStep C nodeId s entry) row := by
  refine Or.inr (Or.inl ?_)
  have hs := (row_sequentialEntry hfirst row).1 hacted
  have hr := (row_sequentialEntry (noInternal_of_canRead nodeId hread) row).1 hacts
  exact hr.trans (hsame.symm.trans hs.symm)

end Step

/-- At the end of the replay every row is that of its start, that of the first time, or between them. -/
theorem catches_of_repeatable {u : Tables} {s : Tables × Tables} {entries : List Entry} (row : ReplicatedRow)
    (hfirst : NoInternal C nodeId entries s.1) (h : Repeatable C nodeId u s entries)
    (hrow : Catches C u s row ∨ MeetsLater C nodeId s entries row) :
    Catches C u (run (replayStep C nodeId) s entries) row := by
  induction entries generalizing s with
  | nil => exact hrow.resolve_right id
  | cons entry rest ih =>
      obtain ⟨hread, hrows, hrest⟩ := h
      obtain ⟨hentry, hlater⟩ := noInternal_cons.mp hfirst
      refine ih hlater hrest ?_
      obtain hcatches | ⟨hacted, hacts, hsame⟩ | hmeets := hrow
      · exact (hrows row).imp_left (catches_of_actsAgain hentry hread hcatches)
      · exact Or.inl (catches_of_meets hentry hread hacted hacts hsame)
      · exact Or.inr hmeets

end Replay

/-! ## Two short logs -/

def ciToken : TokenRecord where
  name := "ci"
  role := none
  fingerprint := [1]
  createdAt := 0
  lastUsedAt := none
  revokedAt := none

/-- The tables with one token, which was used and revoked then. -/
def ciTokens (C : Codec) (lastUsedAt revokedAt : Option Int64) : Tables :=
  { Tables.empty with
    tokens := Table.empty.insert [1]
      (C.token.encode { ciToken with lastUsedAt := lastUsedAt, revokedAt := revokedAt })
    tokensByName := Table.empty.insert "ci" [1] }

def addEntry (index : Nat) : Entry := entryAt index (.normal (.addToken ciToken))

def touchEntry (index : Nat) (at_ : Int64) : Entry := entryAt index (.normal (.touchToken [1] at_))

def revokeEntry (index : Nat) (revokedAt : Int64) : Entry := entryAt index (.normal (.revokeToken "ci" revokedAt))

section Tokens
variable {C : Codec} (lastUsedAt revokedAt : Option Int64) (index : Nat) (at_ : Int64)

theorem get_ciTokens : (ciTokens C lastUsedAt revokedAt).tokens.get [1] =
    some (C.token.encode { ciToken with lastUsedAt := lastUsedAt, revokedAt := revokedAt }) :=
  Table.get_insert_self _ _ _

theorem recordAt_ciTokens : recordAt C.token (ciTokens C lastUsedAt revokedAt).tokens [1] =
    some { ciToken with lastUsedAt := lastUsedAt, revokedAt := revokedAt } := recordAt_insert_self _ _

theorem insert_ciTokens (lastUsedAt' revokedAt' : Option Int64) :
    { ciTokens C lastUsedAt revokedAt with
      tokens := (ciTokens C lastUsedAt revokedAt).tokens.insert [1]
        (C.token.encode { ciToken with lastUsedAt := lastUsedAt', revokedAt := revokedAt' }) } =
    ciTokens C lastUsedAt' revokedAt' := by
  have htokens : (ciTokens C lastUsedAt revokedAt).tokens.insert [1]
      (C.token.encode { ciToken with lastUsedAt := lastUsedAt', revokedAt := revokedAt' }) =
      (ciTokens C lastUsedAt' revokedAt').tokens := by
    apply Table.ext_get
    intro fingerprint
    simp only [ciTokens, Table.get_insert]
    split_ifs <;> rfl
  rw [htokens]
  rfl

theorem sequentialEntry_touch :
    sequentialEntry C 1 (touchEntry index at_) (ciTokens C lastUsedAt revokedAt) =
      (.ok (), ciTokens C (some at_) revokedAt) := by
  simp only [sequentialEntry, touchEntry, entryAt, RedbStore.apply, applyCommand, touchToken, get_ciTokens, decodeRow,
    Serde.decode_encode, insert_ciTokens]

theorem sequentialEntry_revoke :
    sequentialEntry C 1 (revokeEntry index at_) (ciTokens C lastUsedAt none) =
      (.ok (), ciTokens C lastUsedAt (some at_)) := by
  have hname : (ciTokens C lastUsedAt none).tokensByName.get "ci" = some [1] := Table.get_insert_self _ _ _
  simp only [sequentialEntry, revokeEntry, entryAt, RedbStore.apply, applyCommand, revokeToken, hname, get_ciTokens,
    decodeRow, Serde.decode_encode, Option.isSome_none, Bool.false_eq_true, if_false, insert_ciTokens]

theorem not_acts_add (row : ReplicatedRow) : ¬ (addEntry index).Acts C (ciTokens C lastUsedAt revokedAt) row := by
  rintro ⟨⟨hfree, -⟩, -⟩
  have hget := get_ciTokens (C := C) lastUsedAt revokedAt
  exact absurd (hget.symm.trans hfree) nofun

theorem not_acts_revoke (row : ReplicatedRow) :
    ¬ (revokeEntry index at_).Acts C (ciTokens C lastUsedAt (some at_)) row := by
  rintro ⟨fingerprint, token, ⟨hname, htoken, hnone⟩, -⟩
  obtain rfl : [1] = fingerprint := Option.some.inj ((Table.get_insert_self _ _ _).symm.trans hname)
  rw [recordAt_ciTokens] at htoken
  cases htoken
  cases hnone

theorem acts_touch {row : ReplicatedRow} :
    (touchEntry index at_).Acts C (ciTokens C lastUsedAt revokedAt) row ↔ row = .token [1] :=
  and_iff_right ⟨_, recordAt_ciTokens lastUsedAt revokedAt⟩

theorem canRead_touch : (touchEntry index at_).CanRead C (ciTokens C lastUsedAt revokedAt) := by
  intro bytes hbytes
  cases (get_ciTokens lastUsedAt revokedAt).symm.trans hbytes
  simp

theorem canRead_revoke : (revokeEntry index at_).CanRead C (ciTokens C lastUsedAt revokedAt) := by
  intro fingerprint hname
  obtain rfl : [1] = fingerprint := Option.some.inj ((Table.get_insert_self _ _ _).symm.trans hname)
  exact canRead_touch lastUsedAt revokedAt index at_

theorem sequential_token (C : Codec) :
    sequential C 1 [addEntry 1, touchEntry 2 5, touchEntry 3 7, revokeEntry 4 9] .empty =
      ([.ok (), .ok (), .ok (), .ok ()], ciTokens C (some 7) (some 9)) := by
  have hadd : sequentialEntry C 1 (addEntry 1) .empty = (.ok (), ciTokens C none none) := rfl
  simp only [sequential, hadd, sequentialEntry_touch, sequentialEntry_revoke]

/-- The creation and the revocation leave the row alone at the replay, as it then is that of the start. -/
theorem repeatable_token (C : Codec) : Repeatable C 1 (ciTokens C (some 7) (some 9))
    (.empty, ciTokens C (some 7) (some 9)) [addEntry 1, touchEntry 2 5, touchEntry 3 7, revokeEntry 4 9] := by
  have hadd : sequentialEntry C 1 (addEntry 1) .empty = (.ok (), ciTokens C none none) := rfl
  have hagain : (sequentialEntry C 1 (addEntry 1) (ciTokens C (some 7) (some 9))).2 =
      ciTokens C (some 7) (some 9) := by
    simp [sequentialEntry, addEntry, entryAt, RedbStore.apply, applyCommand, addToken, ciToken, get_ciTokens]
  simp only [Repeatable, replayStep, hadd, hagain, sequentialEntry_touch, sequentialEntry_revoke]
  have htouch {lastUsedAt lastUsedAt' revokedAt revokedAt' : Option Int64} (u : Tables) (index : Nat) (at_ : Int64)
      (row : ReplicatedRow) : ActsAgain C u (ciTokens C lastUsedAt revokedAt, ciTokens C lastUsedAt' revokedAt')
        (touchEntry index at_) row := by
    simp only [ActsAgain, acts_touch]
    exact ⟨Or.inl, Or.inl⟩
  refine ⟨trivial, fun row => Or.inl ⟨fun hacts => absurd hacts (not_acts_add _ _ _ row), fun _ => ?_⟩,
    canRead_touch _ _ _ _, fun row => Or.inl (htouch _ _ _ row),
    canRead_touch _ _ _ _, fun row => Or.inl (htouch _ _ _ row),
    canRead_revoke _ _ _ _, fun row => Or.inl ⟨fun hacts => absurd hacts (not_acts_revoke _ _ _ row), fun _ => ?_⟩,
    trivial⟩
  · exact Or.inr (Or.inr rfl)
  · exact Or.inr (Or.inr rfl)

end Tokens

/-- The tables with one role, whose permissions are these. -/
def withPermissions (C : Codec) (permissions : List (String × String)) : Tables :=
  { Tables.empty with
    roles := Table.empty.insert "r" (C.role.encode { roleNamed "r" with permissions := permissions }) }

/-- The entry at `index` that gives the role write access to everything. -/
def grantEntry (index : Nat) : Entry := entryAt index (.normal (.setPermissions "r" [("write", "*")]))

section Roles
variable {C : Codec} (permissions : List (String × String)) (index : Nat)

theorem get_withPermissions : (withPermissions C permissions).roles.get "r" =
    some (C.role.encode { roleNamed "r" with permissions := permissions }) := Table.get_insert_self _ _ _

theorem sequentialEntry_role_again : sequentialEntry C 1 (roleEntry index "r") (withPermissions C permissions) =
    (.error (.conflict ("role '" ++ "r" ++ "' already exists")), withPermissions C permissions) := by
  have hsome : ((withPermissions C permissions).roles.get "r").isSome = true := by
    rw [get_withPermissions]
    rfl
  simp only [sequentialEntry, roleEntry, entryAt, RedbStore.apply, applyCommand, createRole, roleNamed, hsome, if_true]

theorem sequentialEntry_grant : sequentialEntry C 1 (grantEntry index) (withPermissions C permissions) =
    (.ok (), withPermissions C [("write", "*")]) := by
  have hinsert : (withPermissions C permissions).roles.insert "r" (C.role.encode
      { roleNamed "r" with permissions := [("write", "*")] }) = (withPermissions C [("write", "*")]).roles := by
    apply Table.ext_get
    intro name
    simp only [withPermissions, Table.get_insert]
    split_ifs <;> rfl
  simp only [sequentialEntry, grantEntry, entryAt, RedbStore.apply, applyCommand, setPermissions, get_withPermissions,
    decodeRow, Serde.decode_encode, hinsert]
  rfl

theorem sequential_grant_role (C : Codec) : sequential C 1 [grantEntry 1, roleEntry 2 "r"] .empty =
    ([.error .notFound, .ok ()], withPermissions C []) := rfl

theorem sequential_grant_role_again (C : Codec) :
    sequential C 1 [grantEntry 1, roleEntry 2 "r"] (withPermissions C []) =
    ([.ok (), .error (.conflict ("role '" ++ "r" ++ "' already exists"))], withPermissions C [("write", "*")]) := by
  simp only [sequential, sequentialEntry_grant, sequentialEntry_role_again]

/-- A log in one batch, from what its commands do one at a time. -/
theorem applyBatches_single {R : RaftCodec} {log : List Entry} {db : Db}
    {outcomes : List (StoreResult Unit)} {t : Tables}
    (h : sequential C 1 log db.tables = (outcomes, t)) (hok : ∀ outcome ∈ outcomes, isInternalOutcome outcome = false) :
    ∃ results db', applyBatches C R 1 [log] db = (.ok results, db') ∧ db'.tables = t := by
  have hflat : [log].flatten = log := by simp
  obtain ⟨results, db', happly, hagree⟩ := applyBatches_agreesWith (C := C) (R := R) [log] db (by
    rw [hflat, NoInternal, h]
    exact hok)
  refine ⟨results, db', happly, ?_⟩
  rw [hagree.tables, hflat, h]

end Roles

/-! ## Rejoining -/

/-- A node has applied a log in any batches and drops its raft state; then the log is applied again, in other batches.
If each entry of the replay can read its rows and acts again on each row, where no later entry makes the row the same
both times, then the replay comes to its end and leaves the replicated tables of the first time. -/
theorem rejoin_converges (C : Codec) (R : RaftCodec) (nodeId : Nat) (db : Db) (log : List Entry)
    (batches replay : List (List Entry)) (hbatches : batches.flatten = log) (hreplay : replay.flatten = log)
    (results : List ApplyResult) (happlied : (applyBatches C R nodeId batches db).1 = .ok results)
    (hrepeatable : Repeatable C nodeId (applyBatches C R nodeId batches db).2.tables
      (db.tables, (applyBatches C R nodeId batches db).2.tables) log) :
    let applied := (applyBatches C R nodeId batches db).2
    ∃ results' rejoined, applyBatches C R nodeId replay (resetRaftState applied) = (.ok results', rejoined) ∧
      rejoined.tables.replicated = applied.tables.replicated := by
  intro applied
  have hnoInternal := noInternal_of_applyBatches happlied
  obtain ⟨first, db₁, hfirst, hagree⟩ := applyBatches_agreesWith (R := R) batches db hnoInternal
  rw [hbatches] at hnoInternal
  have htables : applied.tables = (sequential C nodeId log db.tables).2 := by
    rw [show applied = db₁ from congrArg Prod.snd hfirst, hagree.tables, hbatches]
  have hreset : (resetRaftState applied).tables = applied.tables := rfl
  obtain ⟨results', rejoined, happly, hagree'⟩ := applyBatches_agreesWith (R := R) replay (resetRaftState applied) (by
    rw [hreplay]
    exact noInternal_of_repeatable hrepeatable)
  refine ⟨results', rejoined, happly, ?_⟩
  rw [hagree'.tables, hreplay, hreset]
  apply Replicated.ext_row
  intro row
  have hcatches := catches_of_repeatable row hnoInternal hrepeatable (Or.inl (Or.inl rfl))
  rw [run_replayStep, ← htables] at hcatches
  exact hcatches.eq row.determine_fields

/-- A token that is created, used twice and revoked. The first use finds the token revoked when it is replayed, so that
its row is neither that of the first time nor that of the start. -/
theorem token_rejoins :
    let log := [addEntry 1, touchEntry 2 5, touchEntry 3 7, revokeEntry 4 9]
    let applied := applyBatches jsonCodec jsonRaftCodec 1 [log] freshDb
    ∃ results rejoined, applyBatches jsonCodec jsonRaftCodec 1 [log.take 1, log.drop 1]
        (resetRaftState applied.2) = (.ok results, rejoined) ∧
      rejoined.tables.replicated = applied.2.tables.replicated := by
  intro log
  have hfirst : sequential jsonCodec 1 log freshDb.tables = _ := sequential_token jsonCodec
  obtain ⟨results, db', happly, htables⟩ :=
    applyBatches_single (R := jsonRaftCodec) hfirst (by simp [isInternalOutcome])
  refine rejoin_converges jsonCodec jsonRaftCodec 1 freshDb log [log] [log.take 1, log.drop 1] rfl rfl results
    (congrArg Prod.fst happly) ?_
  rw [happly, htables]
  exact repeatable_token jsonCodec

/-- Permissions for a role that does not exist yet are refused, and granted when the log is replayed. -/
theorem permissions_before_role :
    let log := [grantEntry 1, roleEntry 2 "r"]
    ∃ results applied results' rejoined,
      applyBatches jsonCodec jsonRaftCodec 1 [log] freshDb = (.ok results, applied) ∧
      applyBatches jsonCodec jsonRaftCodec 1 [log] (resetRaftState applied) = (.ok results', rejoined) ∧
      RedbStore.role jsonCodec "r" applied.tables = .ok (some (roleNamed "r")) ∧
      RedbStore.role jsonCodec "r" rejoined.tables = .ok (some { roleNamed "r" with permissions := [("write", "*")] }) ∧
      rejoined.tables.replicated ≠ applied.tables.replicated := by
  intro log
  have hfirst : sequential jsonCodec 1 log freshDb.tables = _ := sequential_grant_role jsonCodec
  obtain ⟨results, applied, happly, htables⟩ := applyBatches_single (R := jsonRaftCodec) hfirst
    (by simp [isInternalOutcome, StoreError.isInternal])
  have hreset : (resetRaftState applied).tables = withPermissions jsonCodec [] := htables
  have hreplay := sequential_grant_role_again jsonCodec
  rw [← hreset] at hreplay
  obtain ⟨results', rejoined, hagain, htables'⟩ := applyBatches_single (R := jsonRaftCodec) hreplay
    (by simp [isInternalOutcome, StoreError.isInternal])
  have hrole (permissions : List (String × String)) :
      RedbStore.role jsonCodec "r" (withPermissions jsonCodec permissions) =
      .ok (some { roleNamed "r" with permissions := permissions }) := by
    simp only [RedbStore.role, RedbStore.lookup, get_withPermissions, decodeRow_encode]
  have happlied : RedbStore.role jsonCodec "r" applied.tables = .ok (some (roleNamed "r")) := by
    rw [htables]
    exact hrole []
  have hrejoined : RedbStore.role jsonCodec "r" rejoined.tables =
      .ok (some { roleNamed "r" with permissions := [("write", "*")] }) := by
    rw [htables']
    exact hrole [("write", "*")]
  refine ⟨results, applied, results', rejoined, happly, hagain, happlied, hrejoined, fun hsame => ?_⟩
  have hroles : rejoined.tables.roles = applied.tables.roles := congrArg Replicated.roles hsame
  have hread : RedbStore.role jsonCodec "r" rejoined.tables = RedbStore.role jsonCodec "r" applied.tables := by
    unfold RedbStore.role
    rw [hroles]
  rw [happlied, hrejoined] at hread
  cases hread

end HyperionVault
