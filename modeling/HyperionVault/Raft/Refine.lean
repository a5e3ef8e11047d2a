import HyperionVault.Lib.Run
import HyperionVault.Raft.Json
import HyperionVault.Raft.StateMachine
import HyperionVault.Store.Acts

/-!
# The replicated path refines the single-node path

The state machine applies a batch in one transaction and keeps what a refused command has written; the
single-node store gives each command a transaction of its own and drops it on refusal. Since refusals
leave no trace (`applyCommand_noTrace`), the two agree, however the entries are batched and whenever a
batch is cut off before its commit.

* `sequential` : the commands of the entries, one at a time on the single-node store;
* `AgreesWith` : tables, replies and metadata are those of the sequential run;
* `applyBatches` : consecutive batches, `deliver` : batches that may be cut off and come again.
-/

namespace HyperionVault
open Lib

/-! ## The sequential run -/

section Sequential
variable (C : Codec) (nodeId : Nat)

def sequentialEntry (entry : Entry) (t : Tables) : StoreResult Unit × Tables :=
  match entry.payload with
  | .normal command => RedbStore.apply C nodeId command t
  | .blank => (.ok (), t)
  | .membership _ => (.ok (), t)

/-- The outcomes and the tables of running the commands of the entries one at a time. -/
def sequential : List Entry → Tables → List (StoreResult Unit) × Tables
  | [], t => ([], t)
  | entry :: entries, t =>
      let (outcome, t) := sequentialEntry C nodeId entry t
      let (outcomes, t) := sequential entries t
      (outcome :: outcomes, t)

theorem sequential_cons (entry : Entry) (entries : List Entry) (t : Tables) :
    sequential C nodeId (entry :: entries) t =
      ((sequentialEntry C nodeId entry t).1 :: (sequential C nodeId entries (sequentialEntry C nodeId entry t).2).1,
        (sequential C nodeId entries (sequentialEntry C nodeId entry t).2).2) := rfl

theorem sequential_append (es fs : List Entry) (t : Tables) :
    sequential C nodeId (es ++ fs) t =
      ((sequential C nodeId es t).1 ++ (sequential C nodeId fs (sequential C nodeId es t).2).1,
        (sequential C nodeId fs (sequential C nodeId es t).2).2) := by
  induction es generalizing t with
  | nil => rfl
  | cons e es ih =>
      rw [List.cons_append, sequential_cons, sequential_cons, ih]
      rfl

/-- None of the commands fails internally. -/
def NoInternal (entries : List Entry) (t : Tables) : Prop :=
  ∀ outcome ∈ (sequential C nodeId entries t).1, isInternalOutcome outcome = false

variable {C nodeId}

theorem noInternal_append {es fs : List Entry} {t : Tables} :
    NoInternal C nodeId (es ++ fs) t ↔
      NoInternal C nodeId es t ∧ NoInternal C nodeId fs (sequential C nodeId es t).2 := by
  unfold NoInternal
  rw [sequential_append]
  exact List.forall_mem_append

/-- Where a command does not fail internally, dropping its transaction on refusal changes nothing. -/
theorem applyCommand_eq_apply {command : Command} {t : Tables}
    (h : isInternalOutcome (RedbStore.apply C nodeId command t).1 = false) :
    applyCommand C nodeId command t = RedbStore.apply C nodeId command t := by
  cases hr : applyCommand C nodeId command t with
  | mk outcome t' =>
      unfold RedbStore.apply at h ⊢
      rw [hr] at h ⊢
      cases outcome with
      | ok u => rfl
      | error e => rw [applyCommand_noTrace hr h]

end Sequential

/-! ## One batch -/

def Entry.storedMembership (entry : Entry) : Option StoredMembership :=
  match entry.payload with
  | .membership member => some ⟨some entry.logId, member⟩
  | .blank => none
  | .normal _ => none

/-- The log id of the last entry. -/
def lastLogId (entries : List Entry) : Option LogId := entries.getLast?.map Entry.logId

/-- The last membership among the entries. -/
def lastMembership (entries : List Entry) : Option StoredMembership :=
  (entries.filterMap Entry.storedMembership).getLast?

theorem lastLogId_append (es fs : List Entry) : lastLogId (es ++ fs) = (lastLogId fs).or (lastLogId es) := by
  unfold lastLogId
  rw [List.getLast?_append]
  cases fs.getLast? <;> rfl

theorem lastMembership_append (es fs : List Entry) :
    lastMembership (es ++ fs) = (lastMembership fs).or (lastMembership es) := by
  unfold lastMembership
  rw [List.filterMap_append, List.getLast?_append]

section Batches
variable {C : Codec} {R : RaftCodec} {nodeId : Nat}

theorem ofOutcome_of_noInternal {outcome : StoreResult Unit} (h : isInternalOutcome outcome = false) :
    ∃ result, ApplyResult.ofOutcome outcome = .ok result := by
  cases outcome with
  | ok u => exact ⟨.ok, rfl⟩
  | error e =>
      cases e with
      | notFound => exact ⟨.notFound, rfl⟩
      | conflict message => exact ⟨.conflict message, rfl⟩
      | versionConflict => exact ⟨.versionConflict, rfl⟩
      | internal message => cases h

/-- The transaction of a batch after one more entry of the sequential run. -/
def Batch.extend (b : Batch) (entry : Entry) (t : Tables) (result : ApplyResult) : Batch where
  tables := t
  lastApplied := some entry.logId
  membership := entry.storedMembership.or b.membership
  results := b.results ++ [result]

theorem applyEntry_eq {entry : Entry} {b : Batch}
    (h : isInternalOutcome (sequentialEntry C nodeId entry b.tables).1 = false) :
    ∃ result, ApplyResult.ofOutcome (sequentialEntry C nodeId entry b.tables).1 = .ok result ∧
      applyEntry C nodeId entry b = .ok (b.extend entry (sequentialEntry C nodeId entry b.tables).2 result) := by
  obtain ⟨logId, payload⟩ := entry
  cases payload with
  | blank => exact ⟨.ok, rfl, rfl⟩
  | membership member => exact ⟨.ok, rfl, rfl⟩
  | normal command =>
      obtain ⟨result, hr⟩ := ofOutcome_of_noInternal h
      refine ⟨result, hr, ?_⟩
      change isInternalOutcome (RedbStore.apply C nodeId command b.tables).1 = false at h
      unfold applyEntry
      simp only [applyCommand_eq_apply h]
      rw [show ApplyResult.ofOutcome (RedbStore.apply C nodeId command b.tables).1 = .ok result from hr]
      rfl

/-- The whole batch: the sequential run, with all writes in one transaction. -/
theorem applyEntries_eq (entries : List Entry) (b : Batch) (h : NoInternal C nodeId entries b.tables) :
    ∃ b', applyEntries C nodeId entries b = .ok b' ∧ b'.tables = (sequential C nodeId entries b.tables).2 ∧
      b'.lastApplied = (lastLogId entries).or b.lastApplied ∧
      b'.membership = (lastMembership entries).or b.membership ∧
      b'.results.map Except.ok =
        b.results.map Except.ok ++ (sequential C nodeId entries b.tables).1.map ApplyResult.ofOutcome := by
  induction entries generalizing b with
  | nil => exact ⟨b, rfl, rfl, rfl, rfl, by simp [sequential]⟩
  | cons entry entries ih =>
      have hhead : isInternalOutcome (sequentialEntry C nodeId entry b.tables).1 = false :=
        h _ (by rw [sequential_cons]; exact List.mem_cons_self)
      have htail : NoInternal C nodeId entries (sequentialEntry C nodeId entry b.tables).2 := fun o ho =>
        h o (by rw [sequential_cons]; exact List.mem_cons_of_mem _ ho)
      obtain ⟨result, hresult, hentry⟩ := applyEntry_eq hhead
      obtain ⟨b', hb', ht, hl, hm, hr⟩ := ih (b.extend entry (sequentialEntry C nodeId entry b.tables).2 result) htail
      refine ⟨b', ?_, ?_, ?_, ?_, ?_⟩
      · unfold applyEntries
        rw [hentry]
        exact hb'
      · rw [ht, sequential_cons]
        rfl
      · rw [hl, show entry :: entries = [entry] ++ entries from rfl, lastLogId_append, Option.or_assoc]
        rfl
      · rw [hm, show entry :: entries = [entry] ++ entries from rfl, lastMembership_append, Option.or_assoc]
        cases he : entry.storedMembership <;> simp [lastMembership, Batch.extend, he]
      · rw [hr, sequential_cons, List.map_cons, hresult]
        simp [Batch.extend]

theorem applyEntry_error {entry : Entry} {b : Batch}
    (h : isInternalOutcome (sequentialEntry C nodeId entry b.tables).1 = true) :
    ∃ e, applyEntry C nodeId entry b = .error e := by
  obtain ⟨logId, payload⟩ := entry
  cases payload with
  | blank => cases h
  | membership member => cases h
  | normal command =>
      change isInternalOutcome (RedbStore.apply C nodeId command b.tables).1 = true at h
      rcases hr : applyCommand C nodeId command b.tables with ⟨outcome, t⟩
      simp only [RedbStore.apply, hr] at h
      cases outcome with
      | ok u => cases h
      | error e =>
          cases e with
          | internal message => exact ⟨.write message, by simp only [applyEntry, hr, ApplyResult.ofOutcome]⟩
          | _ => cases h

/-- A batch that is committed met no internal error. -/
theorem noInternal_of_applyEntries {entries : List Entry} {b b' : Batch}
    (h : applyEntries C nodeId entries b = .ok b') :
    NoInternal C nodeId entries b.tables := by
  induction entries generalizing b with
  | nil => exact fun outcome hmem => absurd hmem List.not_mem_nil
  | cons entry rest ih =>
      have hhead : isInternalOutcome (sequentialEntry C nodeId entry b.tables).1 = false := by
        rw [← Bool.not_eq_true]
        intro hinternal
        obtain ⟨e, he⟩ := applyEntry_error hinternal
        rw [applyEntries, he] at h
        cases h
      obtain ⟨result, _, hentry⟩ := applyEntry_eq hhead
      rw [applyEntries, hentry] at h
      intro outcome hmem
      rw [sequential_cons, List.mem_cons] at hmem
      rcases hmem with rfl | hmem
      · exact hhead
      · exact ih h outcome hmem

/-! ## Agreement with the sequential run -/

variable (C R nodeId) in
/-- `db'` and `results` are what the sequential run of `entries` on `db` gives. -/
structure AgreesWith (entries : List Entry) (db db' : Db) (results : List ApplyResult) : Prop where
  tables : db'.tables = (sequential C nodeId entries db.tables).2
  results : results.map Except.ok = (sequential C nodeId entries db.tables).1.map ApplyResult.ofOutcome
  applied : db'.lastApplied R = rowAfter (lastLogId entries) (db.lastApplied R)
  membership : readMeta R.membership metaMembership db' =
    rowAfter (lastMembership entries) (readMeta R.membership metaMembership db)

theorem AgreesWith.refl (db : Db) : AgreesWith C R nodeId [] db db [] where
  tables := rfl
  results := rfl
  applied := rfl
  membership := rfl

theorem AgreesWith.trans {es fs : List Entry} {db db₁ db₂ : Db} {rs rs' : List ApplyResult}
    (h : AgreesWith C R nodeId es db db₁ rs) (h' : AgreesWith C R nodeId fs db₁ db₂ rs') :
    AgreesWith C R nodeId (es ++ fs) db db₂ (rs ++ rs') where
  tables := by rw [h'.tables, h.tables, sequential_append]
  results := by rw [List.map_append, h.results, h'.results, h.tables, sequential_append, List.map_append]
  applied := by rw [h'.applied, h.applied, lastLogId_append, rowAfter_or]
  membership := by rw [h'.membership, h.membership, lastMembership_append, rowAfter_or]

theorem lastMembership_eq_none {entries : List Entry} (h : lastLogId entries = none) :
    lastMembership entries = none := by
  have hnil : entries = [] := by
    rw [lastLogId, Option.map_eq_none_iff] at h
    exact List.getLast?_eq_none_iff.mp h
  rw [hnil]
  rfl

/-- One batch in one transaction agrees with its commands one at a time. -/
theorem apply_agreesWith {entries : List Entry} {db : Db} (h : NoInternal C nodeId entries db.tables) :
    ∃ results db', StateMachine.apply C R nodeId entries db = (.ok results, db') ∧
      AgreesWith C R nodeId entries db db' results := by
  obtain ⟨b, hb, ht, hl, hm, hr⟩ := applyEntries_eq entries (.begin_ db.tables) h
  simp only [Batch.begin_, Option.or_none] at hl hm
  refine ⟨b.results, b.writeMeta R { db with tables := b.tables }, ?_, ?_, hr, ?_, ?_⟩
  · unfold StateMachine.apply
    rw [hb]
  · rw [tables_writeMeta]
    exact ht
  · rw [lastApplied_writeMeta, hl]
    rfl
  · rw [membership_writeMeta, hm]
    · rfl
    · intro hnone
      rw [hm]
      exact lastMembership_eq_none (hl ▸ hnone)

/-! ## Batches one after another -/

variable (C R nodeId) in
/-- Consecutive batches; a storage error is fatal to the node. -/
def applyBatches : List (List Entry) → Db → Except StorageError (List ApplyResult) × Db
  | [], db => (.ok [], db)
  | batch :: batches, db =>
      match StateMachine.apply C R nodeId batch db with
      | (.error e, db) => (.error e, db)
      | (.ok results, db) =>
          match applyBatches batches db with
          | (.error e, db) => (.error e, db)
          | (.ok more, db) => (.ok (results ++ more), db)

theorem applyBatches_agreesWith (batches : List (List Entry)) (db : Db)
    (h : NoInternal C nodeId batches.flatten db.tables) :
    ∃ results db', applyBatches C R nodeId batches db = (.ok results, db') ∧
      AgreesWith C R nodeId batches.flatten db db' results := by
  induction batches generalizing db with
  | nil => exact ⟨[], db, rfl, .refl db⟩
  | cons batch batches ih =>
      rw [List.flatten_cons, noInternal_append] at h
      obtain ⟨results, db₁, h₁, hagree⟩ := apply_agreesWith (R := R) h.1
      obtain ⟨more, db₂, h₂, hmore⟩ := ih db₁ (hagree.tables ▸ h.2)
      refine ⟨results ++ more, db₂, ?_, ?_⟩
      · unfold applyBatches
        rw [h₁]
        dsimp only
        rw [h₂]
      · rw [List.flatten_cons]
        exact hagree.trans hmore

/-! ## Batches that are cut off and delivered again -/

/-- One delivery: how many of the outstanding entries it brings, and whether it is cut off before its
commit. -/
structure Delivery where
  size : Nat
  cut : Bool
deriving DecidableEq

variable (R) in
/-- The entries after the last applied one; unreadable metadata stops the node. -/
def outstanding (log : List Entry) (db : Db) : List Entry :=
  match db.lastApplied R with
  | .error _ => []
  | .ok none => log
  | .ok (some applied) => log.filter fun entry => applied.index < entry.logId.index

variable (C R nodeId) in
/-- A delivery of the next outstanding entries; one that is cut off commits nothing and answers nobody. -/
def deliver (log : List Entry) (s : Db × List ApplyResult) (d : Delivery) : Db × List ApplyResult :=
  if d.cut then s
  else
    match StateMachine.apply C R nodeId ((outstanding R log s.1).take d.size) s.1 with
    | (.error _, _) => s
    | (.ok results, db) => (db, s.2 ++ results)

/-- How many entries the deliveries have brought that were not cut off. -/
def delivered : List Delivery → Nat
  | [] => 0
  | d :: ds => (if d.cut then 0 else d.size) + delivered ds

/-- In a log with increasing indexes, the entries above the last of the first `k` are the rest. -/
theorem filter_above_take {log : List Entry} (hlog : log.Pairwise (fun a b => a.logId.index < b.logId.index))
    {k : Nat} {last : Entry} (hlast : (log.take k).getLast? = some last) :
    (log.filter fun entry => last.logId.index < entry.logId.index) = log.drop k := by
  obtain ⟨init, hinit⟩ := List.getLast?_eq_some_iff.mp hlast
  have hsplit : log = init ++ [last] ++ log.drop k := by rw [← hinit, List.take_append_drop]
  rw [hsplit, List.pairwise_append, List.pairwise_append] at hlog
  obtain ⟨⟨_, _, hbelow⟩, _, habove⟩ := hlog
  conv_lhs => rw [hsplit]
  rw [List.filter_append]
  have h₁ : (init ++ [last]).filter (fun entry => last.logId.index < entry.logId.index) = [] := by
    rw [List.filter_eq_nil_iff]
    intro entry hentry
    rcases List.mem_append.mp hentry with h | h
    · have := hbelow entry h last (List.mem_singleton_self last)
      simp only [decide_eq_true_eq]
      omega
    · rw [List.mem_singleton.mp h]
      simp
  have h₂ : (log.drop k).filter (fun entry => last.logId.index < entry.logId.index) = log.drop k := by
    rw [List.filter_eq_self]
    intro entry hentry
    exact decide_eq_true (habove last (List.mem_append_right _ (List.mem_singleton_self last)) entry hentry)
  rw [h₁, h₂, List.nil_append]

/-- What openraft keeps to: the log goes on after the last applied entry, with increasing indexes. -/
structure Continues (R : RaftCodec) (log : List Entry) (db : Db) : Prop where
  readable : ∃ applied, db.lastApplied R = .ok applied
  increasing : log.Pairwise (fun a b => a.logId.index < b.logId.index)
  above : ∀ applied, db.lastApplied R = .ok (some applied) → ∀ entry ∈ log, applied.index < entry.logId.index

variable {log : List Entry} {db : Db}

theorem outstanding_eq_drop (hlog : Continues R log db) {k : Nat} {db' : Db} {results : List ApplyResult}
    (h : AgreesWith C R nodeId (log.take k) db db' results) : outstanding R log db' = log.drop k := by
  unfold outstanding
  rw [h.applied]
  cases hlast : (log.take k).getLast? with
  | some last =>
      rw [lastLogId, hlast]
      exact filter_above_take hlog.increasing hlast
  | none =>
      -- nothing has been committed, so the position is still the one of the start
      rw [lastLogId, hlast]
      have hdrop : log.drop k = log := by
        have htake := List.take_append_drop k log
        rw [List.getLast?_eq_none_iff.mp hlast, List.nil_append] at htake
        exact htake
      rw [hdrop]
      obtain ⟨applied, happlied⟩ := hlog.readable
      simp only [Option.map_none, rowAfter, happlied]
      cases applied with
      | none => rfl
      | some a =>
          rw [List.filter_eq_self]
          intro entry hentry
          exact decide_eq_true (hlog.above a happlied entry hentry)

theorem deliver_agreesWith (hlog : Continues R log db) (hint : NoInternal C nodeId log db.tables) {k : Nat}
    {s : Db × List ApplyResult} (h : AgreesWith C R nodeId (log.take k) db s.1 s.2) (d : Delivery) :
    AgreesWith C R nodeId (log.take (k + if d.cut then 0 else d.size)) db (deliver C R nodeId log s d).1
      (deliver C R nodeId log s d).2 := by
  unfold deliver
  by_cases hcut : d.cut
  · rw [if_pos hcut, if_pos hcut]
    exact h
  · rw [if_neg hcut, if_neg hcut, outstanding_eq_drop hlog h, List.take_add]
    have hnext : NoInternal C nodeId ((log.drop k).take d.size) s.1.tables := by
      have hall : NoInternal C nodeId (log.take k ++ ((log.drop k).take d.size ++ (log.drop k).drop d.size))
          db.tables := by
        rw [List.take_append_drop, List.take_append_drop]
        exact hint
      rw [noInternal_append, noInternal_append] at hall
      rw [h.tables]
      exact hall.2.1
    obtain ⟨results, db', happly, hagree⟩ := apply_agreesWith (R := R) hnext
    rw [happly]
    exact h.trans hagree

theorem run_deliver_agreesWith (hlog : Continues R log db) (hint : NoInternal C nodeId log db.tables)
    (ds : List Delivery) {k : Nat} {s : Db × List ApplyResult}
    (h : AgreesWith C R nodeId (log.take k) db s.1 s.2) :
    AgreesWith C R nodeId (log.take (k + delivered ds)) db (run (deliver C R nodeId log) s ds).1
      (run (deliver C R nodeId log) s ds).2 := by
  induction ds generalizing k s with
  | nil => exact h
  | cons d ds ih =>
      rw [run_cons, delivered, ← Nat.add_assoc]
      exact ih (deliver_agreesWith hlog hint h d)

end Batches

/-- However the entries are batched, and however often a batch is cut off before its commit and its entries
are delivered again, tables, replies and metadata are those of the commands run one at a time on the
single-node store. -/
theorem stateMachine_refines_redbStore (C : Codec) (R : RaftCodec) (nodeId : Nat) (db : Db) (entries : List Entry)
    (hint : NoInternal C nodeId entries db.tables) :
    (∀ batches : List (List Entry), batches.flatten = entries →
      ∃ results db', applyBatches C R nodeId batches db = (.ok results, db') ∧
        AgreesWith C R nodeId entries db db' results) ∧
    (Continues R entries db → ∀ ds : List Delivery,
      AgreesWith C R nodeId (entries.take (delivered ds)) db (run (deliver C R nodeId entries) (db, []) ds).1
        (run (deliver C R nodeId entries) (db, []) ds).2) := by
  constructor
  · intro batches hbatches
    subst hbatches
    exact applyBatches_agreesWith batches db hint
  · intro hlog ds
    have hstart : AgreesWith C R nodeId (entries.take 0) db db [] := .refl db
    have hrun := run_deliver_agreesWith hlog hint ds (s := (db, [])) hstart
    rwa [Nat.zero_add] at hrun

/-- A role, a blank entry, a membership and the role once more, which is refused. -/
def smallLog : List Entry :=
  [roleEntry 1 "a", entryAt 2 .blank, entryAt 3 (.membership ⟨[[1]], []⟩), roleEntry 4 "a"]

theorem continues_smallLog : Continues jsonRaftCodec smallLog freshDb where
  readable := ⟨none, rfl⟩
  increasing := by decide
  above := by
    intro applied h
    cases h

theorem smallLog_refines :
    NoInternal jsonCodec 1 smallLog freshDb.tables ∧
    (∃ results db', applyBatches jsonCodec jsonRaftCodec 1 [smallLog.take 2, smallLog.drop 2] freshDb =
        (.ok results, db') ∧ AgreesWith jsonCodec jsonRaftCodec 1 smallLog freshDb db' results) ∧
    AgreesWith jsonCodec jsonRaftCodec 1 (smallLog.take 3) freshDb
      (run (deliver jsonCodec jsonRaftCodec 1 smallLog) (freshDb, []) [⟨2, true⟩, ⟨3, false⟩]).1
      (run (deliver jsonCodec jsonRaftCodec 1 smallLog) (freshDb, []) [⟨2, true⟩, ⟨3, false⟩]).2 := by
  have hint : NoInternal jsonCodec 1 smallLog freshDb.tables := by
    unfold NoInternal
    decide
  have h := stateMachine_refines_redbStore jsonCodec jsonRaftCodec 1 freshDb smallLog hint
  exact ⟨hint, h.1 [smallLog.take 2, smallLog.drop 2] rfl, h.2 continues_smallLog [⟨2, true⟩, ⟨3, false⟩]⟩

end HyperionVault
