import HyperionVault.Lib.Run
import HyperionVault.Lib.Segment
import HyperionVault.Raft.Node
import HyperionVault.Store.Areas
import HyperionVault.Store.Json

/-!
# The audit log

`AppendAudit` writes after the highest key that is at most `MAX_AUDIT_KEY`, and a restore accepts keys up to
`MAX_AUDIT_KEY` itself. The two bounds do not fit together at that key: a row there sends every later append to the key
after it, where the next one overwrites it.

* `nextAuditKey` : where an append writes;
* `Appends`, `appends_iff` : an append adds a row in the range exactly while the last key of the range is free;
* `audit_grows` : so the log grows in exactly the runs that append in such states only.
-/

namespace HyperionVault
open Lib

/-- From `t` to `t'` the log has one more row, under a free key of the range, and nothing else has changed. -/
def Appends (C : Codec) (nodeId : Nat) (entry : AuditEntry) (t t' : Tables) : Prop :=
  ∃ key, t.audit.get key = none ∧ key ≤ maxAuditKey ∧
    t' = { t with audit := t.audit.insert key (C.audit.encode { entry with nodeId := nodeId }) }

/-- The key after the highest one in the range. -/
def nextAuditKey (t : Tables) : Nat :=
  match (t.audit.keys.filter (· ≤ maxAuditKey)).getLast? with
  | none => 0
  | some key => key + 1

section Append
variable {C : Codec} {nodeId : Nat} {entry : AuditEntry} {t t' : Tables}

/-- No key of the range is at or after it, and the key before it is one of the range. -/
theorem nextAuditKey_spec (t : Tables) :
    (∀ key, (t.audit.get key).isSome → key ≤ maxAuditKey → key < nextAuditKey t) ∧
      (nextAuditKey t = 0 ∨ ∃ key ≤ maxAuditKey, (t.audit.get key).isSome ∧ nextAuditKey t = key + 1) := by
  have hrange (key : Nat) (hkey : (t.audit.get key).isSome) (hle : key ≤ maxAuditKey) :
      key ∈ t.audit.keys.filter (· ≤ maxAuditKey) :=
    List.mem_filter.mpr ⟨Table.mem_keys.mpr hkey, decide_eq_true hle⟩
  unfold nextAuditKey
  cases hlast : (t.audit.keys.filter (· ≤ maxAuditKey)).getLast? with
  | none =>
      refine ⟨fun key hkey hle => ?_, Or.inl rfl⟩
      have hmem := hrange key hkey hle
      rw [List.getLast?_eq_none_iff.mp hlast] at hmem
      cases hmem
  | some last =>
      obtain ⟨hmem, hle⟩ := List.mem_filter.mp (List.mem_of_getLast? hlast)
      refine ⟨fun key hkey hkeyle => ?_, Or.inr ⟨last, of_decide_eq_true hle, Table.mem_keys.mp hmem, rfl⟩⟩
      exact Nat.lt_succ_of_le
        (Table.le_of_getLast? (t.audit.keys_sorted.filter _) hlast (hrange key hkey hkeyle))

/-- An append never fails. -/
theorem appendAudit_eq (C : Codec) (nodeId : Nat) (entry : AuditEntry) (t : Tables) :
    appendAudit C nodeId entry t = (.ok (), { t with
      audit := t.audit.insert (nextAuditKey t) (C.audit.encode { entry with nodeId := nodeId }) }) := by
  unfold appendAudit nextAuditKey
  cases hlast : (t.audit.keys.filter (· ≤ maxAuditKey)).getLast? with
  | none => rfl
  | some key =>
      have hle : key ≤ maxAuditKey := of_decide_eq_true (List.mem_filter.mp (List.mem_of_getLast? hlast)).2
      have hbound : key + 1 < 2 ^ 64 := lt_of_le_of_lt (Nat.succ_le_succ hle) (by decide)
      exact if_pos hbound

theorem arrive_appendAudit {arrival : Arrival} (h : arrival.command = .appendAudit entry) (t : Tables) :
    arrive C nodeId t arrival = { t with
      audit := t.audit.insert (nextAuditKey t) (C.audit.encode { entry with nodeId := nodeId }) } := by
  cases arrival with
  | direct command =>
      cases h
      simp only [arrive, RedbStore.apply, applyCommand, appendAudit_eq]
  | replicated command =>
      cases h
      simp only [arrive, applyReplicated, applyCommand, appendAudit_eq, ApplyResult.ofOutcome]

/-- The append does what it should exactly while the last key of the range is free. -/
theorem appends_iff {arrival : Arrival} (h : arrival.command = .appendAudit entry) :
    Appends C nodeId entry t (arrive C nodeId t arrival) ↔ t.audit.get maxAuditKey = none := by
  obtain ⟨habove, hbelow⟩ := nextAuditKey_spec t
  rw [arrive_appendAudit h]
  constructor
  · rintro ⟨key, hfree, hle, hkey⟩
    rw [← Option.not_isSome_iff_eq_none]
    intro hlast
    -- the row goes to a key after the range, so it is not the one that was free
    have hafter : maxAuditKey < nextAuditKey t := habove maxAuditKey hlast (le_refl _)
    have hrow := congrArg (fun t : Tables => t.audit.get key) hkey
    dsimp only at hrow
    rw [Table.get_insert_self, Table.get_insert_of_ne _ _ (by omega), hfree] at hrow
    cases hrow
  · intro hlast
    have hle : nextAuditKey t ≤ maxAuditKey := by
      rcases hbelow with hzero | ⟨key, hle, hkey, hnext⟩
      · rw [hzero]
        exact Nat.zero_le _
      · have hne : key ≠ maxAuditKey := by
          rintro rfl
          rw [hlast] at hkey
          cases hkey
        rw [hnext]
        exact lt_of_le_of_ne hle hne
    refine ⟨nextAuditKey t, ?_, hle, rfl⟩
    rw [← Option.not_isSome_iff_eq_none]
    exact fun hrow => lt_irrefl _ (habove _ hrow hle)

/-! ## Runs -/

/-- Every key is one that a restore accepts. -/
def AuditInRange (t : Tables) : Prop := t.audit.KeysIn (· ≤ maxAuditKey)

theorem auditInRange_arrive (ht : AuditInRange t) {arrival : Arrival}
    (hfree : ∀ entry, arrival.command = .appendAudit entry → t.audit.get maxAuditKey = none) :
    AuditInRange (arrive C nodeId t arrival) := by
  rcases @arrive_cases C nodeId t arrival with hsame | hok
  · rw [hsame]
    exact ht
  · cases hc : arrival.command with
    | appendAudit entry =>
        obtain ⟨key, _, hle, hkey⟩ := (@appends_iff C nodeId entry t arrival hc).mpr (hfree entry hc)
        rw [hkey]
        exact Table.keysIn_insert ht hle _
    | restoreDatabase data =>
        rw [hc] at hok
        obtain ⟨haccepted, heq⟩ := restoreDatabase_ok hok
        rw [heq]
        exact Table.keysIn_ofRows (checkSecretRows_ok (checkSecretRows_of_accepted haccepted)).2.2
    | _ =>
        have harea : arrival.command.area ≠ .audit ∧ arrival.command.area ≠ .everything := by
          rw [hc]
          exact ⟨(fun h => nomatch h), (fun h => nomatch h)⟩
        unfold AuditInRange
        rw [(applyCommand_area hok).same .audit harea.1 harea.2 nofun]
        exact ht

/-- A dump of such tables passes the check on audit keys. -/
theorem AuditInRange.dump (h : AuditInRange t) :
    (dumpDatabase t).audit.find? (fun row => maxAuditKey < row.1) = none := by
  rw [List.find?_eq_none]
  intro row hrow
  simpa using h.mem_rows hrow

/-- From tables in the range, a run appends as it should, with every dump acceptable, exactly if it finds the last key
of the range free at each append. -/
theorem appends_run_iff (ht : AuditInRange t) (arrivals : List Arrival) :
    AllSteps (arrive C nodeId) (fun t arrival =>
      (∀ entry, arrival.command = .appendAudit entry → Appends C nodeId entry t (arrive C nodeId t arrival)) ∧
        (dumpDatabase (arrive C nodeId t arrival)).audit.find? (fun row => maxAuditKey < row.1) = none) t arrivals ↔
      AllSteps (arrive C nodeId) (fun t arrival =>
        ∀ entry, arrival.command = .appendAudit entry → t.audit.get maxAuditKey = none) t arrivals := by
  induction arrivals generalizing t with
  | nil => exact Iff.rfl
  | cons arrival rest ih =>
      constructor
      · rintro ⟨⟨happends, _⟩, hrest⟩
        have hfree (entry) (hc : arrival.command = .appendAudit entry) : t.audit.get maxAuditKey = none :=
          (appends_iff hc).mp (happends entry hc)
        exact ⟨hfree, (ih (auditInRange_arrive ht hfree)).mp hrest⟩
      · rintro ⟨hfree, hrest⟩
        have hnext := @auditInRange_arrive C nodeId t ht arrival hfree
        exact ⟨⟨fun entry hc => (appends_iff hc).mpr (hfree entry hc), hnext.dump⟩, (ih hnext).mpr hrest⟩

end Append

/-- The runs of commands from the empty store, on either path and with any restore among them, in which every append
adds one row at a free key of the range and every dump passes the restore's check on audit keys, are those in which
`MAX_AUDIT_KEY` holds no row when something is appended. -/
theorem audit_grows (C : Codec) (nodeId : Nat) (arrivals : List Arrival) :
    AllSteps (arrive C nodeId) (fun t arrival =>
      (∀ entry, arrival.command = .appendAudit entry → Appends C nodeId entry t (arrive C nodeId t arrival)) ∧
        (dumpDatabase (arrive C nodeId t arrival)).audit.find? (fun row => maxAuditKey < row.1) = none)
      .empty arrivals ↔
      AllSteps (arrive C nodeId) (fun t arrival =>
        ∀ entry, arrival.command = .appendAudit entry → t.audit.get maxAuditKey = none) .empty arrivals :=
  have hempty : AuditInRange .empty := Table.keysIn_empty
  appends_run_iff hempty arrivals

/-- A backup whose only row is an audit row. -/
def auditBackup (key : Nat) : BackupData := ⟨backupVersion, [], [], [], [], [], [(key, [])], []⟩

def auditOf (action : String) : AuditEntry := ⟨0, none, none, action, none, "ok", 0⟩

theorem grows_after_restore : AllSteps (arrive jsonCodec 1) (fun t arrival =>
    (∀ entry, arrival.command = .appendAudit entry → Appends jsonCodec 1 entry t (arrive jsonCodec 1 t arrival)) ∧
      (dumpDatabase (arrive jsonCodec 1 t arrival)).audit.find? (fun row => maxAuditKey < row.1) = none)
    .empty [.direct (.restoreDatabase (auditBackup 41)), .direct (.appendAudit (auditOf "login"))] :=
  (audit_grows jsonCodec 1 _).mpr ⟨(fun _ h => nomatch h), fun _ _ => rfl, trivial⟩

/-- A backup with a row at `MAX_AUDIT_KEY` is restored, then one entry is appended for each action. -/
def lastKeyRun (actions : List String) : List Arrival :=
  .direct (.restoreDatabase (auditBackup maxAuditKey)) ::
    actions.map fun action => .direct (.appendAudit (auditOf action))

/-- The restore is accepted. The second entry takes the place of the first, and a dump of the log is refused. -/
theorem last_key_overwrites :
    let t := run (arrive jsonCodec 1) .empty (lastKeyRun ["login"])
    let t' := run (arrive jsonCodec 1) .empty (lastKeyRun ["login", "logout"])
    let row (action : String) := jsonCodec.audit.encode { auditOf action with nodeId := 1 }
    (auditBackup maxAuditKey).accepted = true ∧
      t.audit.rows = [(maxAuditKey, []), (maxAuditKey + 1, row "login")] ∧
      t'.audit.rows = [(maxAuditKey, []), (maxAuditKey + 1, row "logout")] ∧
      (dumpDatabase t').accepted = false :=
  have hfirst (C : Codec) : (run (arrive C 1) .empty (lastKeyRun ["login"])).audit.rows =
      [(maxAuditKey, []), (maxAuditKey + 1, C.audit.encode { auditOf "login" with nodeId := 1 })] := rfl
  have hsecond (C : Codec) : (run (arrive C 1) .empty (lastKeyRun ["login", "logout"])).audit.rows =
      [(maxAuditKey, []), (maxAuditKey + 1, C.audit.encode { auditOf "logout" with nodeId := 1 })] := rfl
  have hdump (C : Codec) :
      (dumpDatabase (run (arrive C 1) .empty (lastKeyRun ["login", "logout"]))).accepted = false := rfl
  ⟨rfl, hfirst jsonCodec, hsecond jsonCodec, hdump jsonCodec⟩

end HyperionVault
