import HyperionVault.Raft.Start

/-!
# What a node remembers across restarts

Raft rests on a node that never forgets a vote or an entry it has acknowledged. A run mixes openraft's calls, calls that
the end of the process cuts short, damage to the two positions in the metadata, and starts.

* `Node`, `NodeEvent`, `nodeEvent` : the database with openraft's own record of its position, and what happens to both;
* `Promise` : the vote saved last and the entries that are held; `Promise.Kept` : a database that has them;
* `Startup.resets` : a start that drops the raft state;
* `Damaged`, `Remembers` : what holds while the positions may be unreadable, `Intact` : what holds once they are not;
* `restart_keeps_promises` : after a start that returns.
-/

namespace HyperionVault
open Lib

/-! ## Runs of one node -/

/-- The database, and while the node runs the position that openraft keeps in memory. -/
structure Node where
  db : Db
  engine : Option (Option LogId)

inductive NodeEvent where
  | call (c : RaftCall)
  | crash (c : RaftCall) (cut : Nat)
  | damage (key : String) (row : Bytes)
  | restart (s : Startup)

/-- The last entry applied, for openraft, after a call that has been committed. -/
def RaftCall.position (applied : Option LogId) : RaftCall → Option LogId
  | .apply entries => (entries.getLast?.map Entry.logId).or applied
  | .installSnapshot info _ => info.lastLogId
  | _ => applied

/-- What a node has promised: its vote, and the entries that it has acknowledged and neither truncated nor purged. -/
structure Promise where
  vote : Option Vote
  held : Written

def Promise.none : Promise := ⟨.none, fun _ => .none⟩

def RaftCall.promises (p : Promise) : RaftCall → Promise
  | .saveVote vote => { p with vote := some vote }
  | .append entries => { p with held := (RaftCall.append entries).writes p.held }
  | .truncate logId => { p with held := (RaftCall.truncate logId).writes p.held }
  | .purge logId => { p with held := fun index => if index ≤ logId.index then none else p.held index }
  | _ => p

def NodeEvent.promises (p : Promise) : NodeEvent → Promise
  | .call c => c.promises p
  | .crash c cut => if cut = 0 then p else c.promises p
  | _ => p

/-- The vote is read back, and each entry is in the log or covered by the position applied. -/
def Promise.Kept (L : LogCodec) (p : Promise) (db : Db) : Prop :=
  LogStore.readVote L db = .ok p.vote ∧ ∀ index entry, p.held index = some entry →
    db.log.get index = some (L.entry.encode entry) ∨ ∃ a, db.lastApplied L.toRaftCodec = .ok (some a) ∧ index ≤ a.index

/-- The start drops the log and the metadata: the repair fails, or the construction after it. -/
def Startup.resets (s : Startup) (L : LogCodec) (nodeId : Nat) (db : Db) : Bool :=
  match normalizeRaftLog L.toRaftCodec db with
  | .ok normalized => (s.construct normalized).error.isSome && s.rejoins nodeId 1
  | .error _ => s.rejoins nodeId 0

section Runs
variable (C : Codec) (L : LogCodec) (nodeId : Nat)

def nodeEvent (n : Node) : NodeEvent → Node
  | .call c =>
      { db := storeEvent C L nodeId n.db (.call c)
        engine := n.engine.map fun applied =>
          if (c.commits C L nodeId n.db).isEmpty then applied else c.position applied }
  | .crash c cut => { db := storeEvent C L nodeId n.db (.crash c cut), engine := none }
  | .damage key row => { n with db := { n.db with raftMeta := n.db.raftMeta.insert key row } }
  | .restart s =>
      let started := RaftNode.start C L nodeId s n.db
      { db := started.2
        engine :=
          match started.1, started.2.lastApplied L.toRaftCodec with
          | .ok _, .ok applied => some applied
          | _, _ => none }

/-- While it is constructed openraft keeps to its order too. -/
def Startup.Allowed (s : Startup) : Prop :=
  ∀ db, AllSteps (startCall C L nodeId) (fun db c => c.call.Allowed L db) db (s.construct db).calls

/-- Calls are made while the node runs, in openraft's order; damage makes one of the two positions unreadable. -/
def NodeEvent.Allowed (n : Node) : NodeEvent → Prop
  | .call c => ∃ applied, n.engine = some applied ∧ c.AllowedAt L n.db applied
  | .crash c _ => ∃ applied, n.engine = some applied ∧ c.AllowedAt L n.db applied
  | .damage key row => (key = metaApplied ∨ key = metaPurged) ∧ isJsonNull row = false ∧ L.logId.decode row = none
  | .restart s => s.Allowed C L nodeId

/-- A start that drops the raft state finds nothing promised. -/
def NodeEvent.Harmless (n : Node) (p : Promise) : NodeEvent → Prop
  | .restart s => s.resets L nodeId n.db = true → p = .none
  | _ => True

def promiseStep (s : Node × Promise) (event : NodeEvent) : Node × Promise :=
  (nodeEvent C L nodeId s.1 event, event.promises s.2)

/-- A node that has never been started. -/
def newNode (t : Tables) : Node × Promise := (⟨⟨t, .empty, .empty⟩, none⟩, .none)

end Runs

/-! ## Unreadable positions -/

/-- The row is the same or cannot be read any more. -/
def SameOrUnreadable (L : LogCodec) (key : String) (shadow db : Db) : Prop :=
  db.raftMeta.get key = shadow.raftMeta.get key ∨ ∃ e, readMeta L.logId key db = .error e

/-- The database, beside the one there would be without the damage. -/
structure Damaged (L : LogCodec) (shadow db : Db) : Prop where
  tables : db.tables = shadow.tables
  log : db.log = shadow.log
  vote : db.raftMeta.get metaVote = shadow.raftMeta.get metaVote
  applied : SameOrUnreadable L metaApplied shadow db
  purged : SameOrUnreadable L metaPurged shadow db

/-- The positions can be read, and the log and the vote are those promised. -/
structure Intact (L : LogCodec) (p : Promise) (db : Db) (applied : Option LogId) : Prop where
  kept : ∃ purged first next, LogInv L p.held db applied purged first next
  vote : db.raftMeta.get metaVote = p.vote.map L.vote.encode

/-- The same of the database without its damage. -/
def Remembers (L : LogCodec) (p : Promise) (db : Db) (applied : Option LogId) : Prop :=
  ∃ shadow, Intact L p shadow applied ∧ Damaged L shadow db

section Damage
variable {C : Codec} {L : LogCodec} {nodeId : Nat} {p : Promise} {shadow db db' shadow' : Db} {applied : Option LogId}

theorem Damaged.refl (L : LogCodec) (db : Db) : Damaged L db db := ⟨rfl, rfl, rfl, Or.inl rfl, Or.inl rfl⟩

theorem SameOrUnreadable.of_eq {key : String} (h : SameOrUnreadable L key shadow db)
    (hdb : db'.raftMeta.get key = db.raftMeta.get key) (hshadow : shadow'.raftMeta.get key = shadow.raftMeta.get key) :
    SameOrUnreadable L key shadow' db' := by
  rcases h with hsame | ⟨e, he⟩
  · exact Or.inl (by rw [hdb, hshadow, hsame])
  · exact Or.inr ⟨e, by rw [readMeta_congr _ hdb, he]⟩

/-- The same row written into both. -/
theorem Damaged.writeMeta {α : Type} (S : MetaSerde α) (key : String) (a : α) (h : Damaged L shadow db) :
    Damaged L (writeMeta S key a shadow) (writeMeta S key a db) := by
  have hrow (other : String) (hsame : SameOrUnreadable L other shadow db) :
      SameOrUnreadable L other (HyperionVault.writeMeta S key a shadow) (HyperionVault.writeMeta S key a db) := by
    by_cases hkey : key = other
    · subst hkey
      exact Or.inl ((Table.get_insert_self _ _ _).trans (Table.get_insert_self _ _ _).symm)
    · exact hsame.of_eq (Table.get_insert_of_ne _ _ hkey) (Table.get_insert_of_ne _ _ hkey)
  refine ⟨h.tables, h.log, ?_, hrow _ h.applied, hrow _ h.purged⟩
  unfold HyperionVault.writeMeta
  rw [Table.get_insert, Table.get_insert, h.vote]

theorem Damaged.log_eq (h : Damaged L shadow db) {log : Table Nat Bytes} :
    Damaged L { shadow with log := log } { db with log := log } := ⟨h.tables, rfl, h.vote, h.applied, h.purged⟩

theorem Damaged.tables_eq (h : Damaged L shadow db) {t : Tables} :
    Damaged L { shadow with tables := t } { db with tables := t } := ⟨rfl, h.log, h.vote, h.applied, h.purged⟩

/-- One of the two positions becomes unreadable. -/
theorem Damaged.damage (h : Damaged L shadow db) {key : String} {row : Bytes}
    (hkey : key = metaApplied ∨ key = metaPurged)
    (hnull : isJsonNull row = false) (hdecode : L.logId.decode row = none) :
    Damaged L shadow { db with raftMeta := db.raftMeta.insert key row } := by
  have hunreadable : readMeta L.logId key { db with raftMeta := db.raftMeta.insert key row } = .error .undecodable := by
    unfold readMeta
    dsimp only
    rw [Table.get_insert_self]
    simp only [hnull, hdecode, Bool.false_eq_true, if_false]
  have hkeep {other : String} (hne : key ≠ other) :
      (db.raftMeta.insert key row).get other = db.raftMeta.get other := Table.get_insert_of_ne _ _ hne
  rcases hkey with rfl | rfl
  · exact ⟨h.tables, h.log, (hkeep (by decide)).trans h.vote, Or.inr ⟨_, hunreadable⟩,
      h.purged.of_eq (hkeep (by decide)) rfl⟩
  · exact ⟨h.tables, h.log, (hkeep (by decide)).trans h.vote,
      h.applied.of_eq (hkeep (by decide)) rfl, Or.inr ⟨_, hunreadable⟩⟩

theorem Damaged.batch (h : Damaged L shadow db) (R : RaftCodec) (b : Batch) :
    Damaged L (b.writeMeta R shadow) (b.writeMeta R db) := by
  unfold Batch.writeMeta
  cases b.lastApplied with
  | none => exact h
  | some logId =>
      cases b.membership with
      | none => exact h.writeMeta _ _ _
      | some m => exact (h.writeMeta _ _ _).writeMeta _ _ _

/-- A snapshot installed in both. -/
theorem Damaged.installed (h : Damaged L shadow db) (R : RaftCodec) (info : SnapshotMeta) (data : SnapshotData) :
    Damaged L (installedDb R info (data.restore shadow.tables) shadow)
      (installedDb R info (data.restore db.tables) db) := by
  have hposition : Damaged L (installPosition R info.lastLogId { shadow with tables := data.restore shadow.tables })
      (installPosition R info.lastLogId { db with tables := data.restore db.tables }) := by
    rw [h.tables]
    cases info.lastLogId with
    | none =>
        have hrow (key : String) (hsame : SameOrUnreadable L key shadow db) : SameOrUnreadable L key
            { shadow with raftMeta := shadow.raftMeta.remove metaApplied }
            { db with raftMeta := db.raftMeta.remove metaApplied } := by
          by_cases hkey : metaApplied = key
          · refine Or.inl ?_
            dsimp only
            rw [Table.get_remove, Table.get_remove, if_pos hkey, if_pos hkey]
          · exact hsame.of_eq ((Table.get_remove _ _ _).trans (if_neg hkey))
              ((Table.get_remove _ _ _).trans (if_neg hkey))
        refine ⟨rfl, h.log, ?_, hrow _ h.applied, hrow _ h.purged⟩
        dsimp only [installPosition]
        rw [Table.get_remove, Table.get_remove, h.vote]
    | some last => exact (h.tables_eq.writeMeta _ _ _).writeMeta _ _ _
  have hwritten := hposition.writeMeta R.membership metaMembership info.lastMembership
  unfold installedDb
  cases hlast : info.lastLogId with
  | none =>
      rw [hlast] at hwritten
      exact hwritten
  | some last =>
      rw [hlast] at hwritten
      unfold removeCovered
      dsimp only
      rw [hwritten.log]
      exact hwritten.log_eq

/-- Openraft's order is about the log and the position that openraft keeps. -/
theorem allowedAt_congr {c : RaftCall} (hlog : db'.log = db.log) (h : c.AllowedAt L db applied) :
    c.AllowedAt L db' applied := by
  cases c with
  | append entries =>
      simp only [RaftCall.AllowedAt, Db.logEnd] at h ⊢
      rw [hlog]
      exact h
  | apply entries =>
      simp only [RaftCall.AllowedAt] at h ⊢
      rw [hlog]
      exact h
  | _ => exact h

/-- A call does the same without the damage, except that a snapshot may not be built where a position is unreadable. -/
theorem Damaged.commits (h : Damaged L shadow db) {c : RaftCall} (hdb : db' ∈ c.commits C L nodeId db) :
    (∃ shadow' ∈ c.commits C L nodeId shadow, Damaged L shadow' db') ∨ c = .buildSnapshot ∧ Damaged L shadow db' := by
  cases c with
  | saveVote vote =>
      obtain rfl := List.mem_singleton.mp hdb
      exact Or.inl ⟨_, List.mem_singleton_self _, h.writeMeta _ _ _⟩
  | append entries =>
      obtain rfl := List.mem_singleton.mp hdb
      refine Or.inl ⟨_, List.mem_singleton_self _, ?_⟩
      unfold LogStore.append
      rw [h.log]
      exact h.log_eq
  | truncate logId =>
      obtain rfl := List.mem_singleton.mp hdb
      refine Or.inl ⟨_, List.mem_singleton_self _, ?_⟩
      unfold LogStore.truncate
      rw [h.log]
      exact h.log_eq
  | purge logId =>
      simp only [RaftCall.commits, LogStore.purge, List.mem_cons, List.not_mem_nil, or_false] at hdb ⊢
      rw [h.log] at hdb
      left
      rcases hdb with rfl | rfl
      · exact ⟨_, Or.inl rfl, h.log_eq⟩
      · exact ⟨_, Or.inr rfl, h.log_eq.writeMeta _ _ _⟩
  | apply entries =>
      obtain ⟨b, hb, rfl⟩ := commits_apply hdb
      rw [h.tables] at hb
      refine Or.inl ⟨_, ?_, h.tables_eq.batch _ b⟩
      simp only [RaftCall.commits, StateMachine.apply, hb]
      exact List.mem_singleton_self _
  | buildSnapshot =>
      obtain ⟨bytes, rfl⟩ := commits_buildSnapshot hdb
      have hkeep (key : String) (hkey : metaSnapshot ≠ key) :
          (HyperionVault.writeMeta L.snapshotBytes metaSnapshot bytes db).raftMeta.get key = db.raftMeta.get key :=
        Table.get_insert_of_ne _ _ hkey
      exact Or.inr ⟨rfl, h.tables, h.log, (hkeep _ (by decide)).trans h.vote, h.applied.of_eq (hkeep _ (by decide)) rfl,
        h.purged.of_eq (hkeep _ (by decide)) rfl⟩
  | installSnapshot info snapshot =>
      obtain ⟨_, hinstall⟩ := mem_committedDb hdb
      obtain ⟨data, hdata, hmeta, hrows, rfl⟩ := installSnapshot_ok hinstall
      refine Or.inl ⟨_, ?_, h.installed L.toRaftCodec info data⟩
      simp only [RaftCall.commits, StateMachine.installSnapshot, hdata, hmeta, hrows, committedDb]
      exact List.mem_singleton_self _

end Damage

/-! ## Calls -/

section Calls
variable {C : Codec} {L : LogCodec} {nodeId : Nat} {p : Promise} {db db' : Db} {applied : Option LogId} {c : RaftCall}

theorem get_installed_vote (R : RaftCodec) (info : SnapshotMeta) (t : Tables) (db : Db) :
    (installedDb R info t db).raftMeta.get metaVote = db.raftMeta.get metaVote := by
  unfold installedDb
  cases info.lastLogId with
  | none => exact (Table.get_insert_of_ne _ _ (by decide)).trans ((Table.get_remove _ _ _).trans (if_neg (by decide)))
  | some last =>
      exact (Table.get_insert_of_ne _ _ (by decide)).trans ((Table.get_insert_of_ne _ _ (by decide)).trans
        (Table.get_insert_of_ne _ _ (by decide)))

/-- The position and the vote in the metadata after a call. -/
theorem metadata_commits (happlied : db.raftMeta.get metaApplied = applied.map L.logId.encode)
    (hvote : db.raftMeta.get metaVote = p.vote.map L.vote.encode) (hdb : db' ∈ c.commits C L nodeId db) :
    db'.raftMeta.get metaApplied = (c.position applied).map L.logId.encode ∧
      db'.raftMeta.get metaVote = (c.promises p).vote.map L.vote.encode := by
  cases c with
  | saveVote vote =>
      obtain rfl := List.mem_singleton.mp hdb
      exact ⟨(Table.get_insert_of_ne _ _ (by decide)).trans happlied, Table.get_insert_self _ _ _⟩
  | append entries =>
      obtain rfl := List.mem_singleton.mp hdb
      exact ⟨happlied, hvote⟩
  | truncate logId =>
      obtain rfl := List.mem_singleton.mp hdb
      exact ⟨happlied, hvote⟩
  | purge logId =>
      simp only [RaftCall.commits, LogStore.purge, List.mem_cons, List.not_mem_nil, or_false] at hdb
      rcases hdb with rfl | rfl
      · exact ⟨happlied, hvote⟩
      · exact ⟨(Table.get_insert_of_ne _ _ (by decide)).trans happlied,
            (Table.get_insert_of_ne _ _ (by decide)).trans hvote⟩
  | apply entries =>
      obtain ⟨b, hb, rfl⟩ := commits_apply hdb
      refine ⟨?_, (get_writeMeta_of_ne b _ (by decide) (by decide)).trans hvote⟩
      rcases List.eq_nil_or_concat entries with rfl | ⟨before, last, rfl⟩
      · cases hb
        exact happlied
      · rw [List.concat_eq_append] at hb
        rw [get_writeMeta_applied _ (lastApplied_applyEntries hb) _]
        simp [RaftCall.position]
  | buildSnapshot =>
      obtain ⟨bytes, rfl⟩ := commits_buildSnapshot hdb
      exact ⟨(Table.get_insert_of_ne _ _ (by decide)).trans happlied,
        (Table.get_insert_of_ne _ _ (by decide)).trans hvote⟩
  | installSnapshot info snapshot =>
      obtain ⟨_, hinstall⟩ := mem_committedDb hdb
      obtain ⟨data, _, _, _, rfl⟩ := installSnapshot_ok hinstall
      exact ⟨get_installed_applied info _ db, (get_installed_vote _ info _ db).trans hvote⟩

theorem encode_inj {α : Type} (S : Serde α) {a b : Option α} (h : a.map S.encode = b.map S.encode) : a = b := by
  have hdecode := congrArg (Option.map S.decode) h
  simp only [Option.map_map, Function.comp_def, S.decode_encode] at hdecode
  exact Option.map_injective (fun _ _ => Option.some.inj) hdecode

/-- What is held matters above the position applied. -/
theorem LogInv.congr_written {written written' : Written} {purged : Option LogId} {first next : Nat}
    (h : LogInv L written db applied purged first next) (hw : ∀ i, aboveApplied applied ≤ i → written' i = written i) :
    LogInv L written' db applied purged first next :=
  { h with kept := fun i hi => by rw [hw i hi, h.kept i hi] }

theorem Intact.commits (h : Intact L p db applied) (hallowed : c.AllowedAt L db applied)
    (hdb : db' ∈ c.commits C L nodeId db) : Intact L (c.promises p) db' (c.position applied) := by
  obtain ⟨⟨purged, first, next, hinv⟩, hvote⟩ := h
  obtain ⟨happlied', hvote'⟩ := metadata_commits hinv.applied_eq hvote hdb
  obtain ⟨applied', purged', first', next', hinv'⟩ :=
    kept_commits ⟨applied, purged, first, next, hinv⟩ ⟨applied, hinv.lastApplied, hallowed⟩ hdb
  have hposition : applied' = c.position applied :=
    encode_inj L.logId.toSerde (hinv'.applied_eq.symm.trans happlied')
  rw [hposition] at hinv'
  refine ⟨⟨purged', first', next', hinv'.congr_written fun i hi => ?_⟩, hvote'⟩
  cases c with
  | purge logId =>
      obtain ⟨a, ha, hle⟩ := hallowed
      have habove : aboveApplied applied = a.index + 1 := by
        rw [Option.mem_def.mp ha]
        rfl
      have hlt : ¬i ≤ logId.index := by
        change aboveApplied applied ≤ i at hi
        omega
      exact if_neg hlt
  | _ => rfl

/-- A call that commits nothing promises nothing. -/
theorem promises_of_commits_nil (h : c.commits C L nodeId db = []) : c.promises p = p := by
  cases c with
  | saveVote vote => cases h
  | append entries => cases h
  | truncate logId => cases h
  | purge logId => cases h
  | _ => rfl

theorem Remembers.commits (h : Remembers L p db applied) (hallowed : c.AllowedAt L db applied)
    (hdb : db' ∈ c.commits C L nodeId db) : Remembers L (c.promises p) db' (c.position applied) := by
  obtain ⟨shadow, hintact, hdamaged⟩ := h
  rcases hdamaged.commits hdb with ⟨shadow', hshadow, hdamaged'⟩ | ⟨rfl, hdamaged'⟩
  · exact ⟨shadow', hintact.commits (allowedAt_congr hdamaged.log.symm hallowed) hshadow, hdamaged'⟩
  · exact ⟨shadow, hintact, hdamaged'⟩

end Calls

/-! ## Starts -/

section Starts
variable {C : Codec} {L : LogCodec} {nodeId : Nat} {p : Promise} {db : Db} {applied : Option LogId} {s : Startup}

theorem Intact.remembers (h : Intact L p db applied) : Remembers L p db applied := ⟨db, h, .refl L db⟩

theorem intact_none (L : LogCodec) (t : Tables) : Intact L .none ⟨t, .empty, .empty⟩ none :=
  ⟨⟨none, 0, 0, rfl, rfl, fun p hp => (Option.not_mem_none p hp).elim, Table.segment_empty 0, le_refl _, le_refl _,
    Nat.zero_le _, fun _ _ => rfl⟩, rfl⟩

theorem intact_reset (L : LogCodec) (db : Db) : Intact L .none (resetRaftState db) none := by
  rw [resetRaftState_eq]
  exact intact_none L db.tables

theorem Intact.keeps (h : Intact L p db applied) : p.Kept L db := by
  obtain ⟨⟨purged, first, next, hinv⟩, hvote⟩ := h
  refine ⟨readMeta_of_map _ hvote, fun index entry hheld => ?_⟩
  by_cases hindex : aboveApplied applied ≤ index
  · left
    rw [hinv.kept index hindex, hheld]
    rfl
  · right
    cases applied with
    | none => exact absurd (Nat.zero_le _) hindex
    | some a =>
        have habove : aboveApplied (some a) = a.index + 1 := rfl
        exact ⟨a, hinv.lastApplied, by omega⟩

/-- A repair that comes to its end has read both positions. -/
theorem Remembers.normalized (h : Remembers L p db applied) {normalized : Db}
    (hn : normalizeRaftLog L.toRaftCodec db = .ok normalized) : Intact L p normalized applied := by
  obtain ⟨shadow, ⟨⟨purged, first, next, hinv⟩, hvote⟩, hdamaged⟩ := h
  have hreadable : (∃ a, db.lastApplied L.toRaftCodec = .ok a) ∧ ∃ q, db.lastPurged L.toRaftCodec = .ok q := by
    unfold normalizeRaftLog normalizeCommits at hn
    cases ha : db.lastApplied L.toRaftCodec with
    | error e =>
        rw [ha] at hn
        cases hn
    | ok a =>
        cases hq : db.lastPurged L.toRaftCodec with
        | error e =>
            simp only [ha, hq] at hn
            cases hn
        | ok q => exact ⟨⟨a, rfl⟩, ⟨q, rfl⟩⟩
  have hrow {key : String} (hsame : SameOrUnreadable L key shadow db) (hread : ∃ a, readMeta L.logId key db = .ok a) :
      db.raftMeta.get key = shadow.raftMeta.get key := by
    rcases hsame with hsame | ⟨e, he⟩
    · exact hsame
    · obtain ⟨a, ha⟩ := hread
      rw [he] at ha
      cases ha
  have hdb := hinv.of_same hdamaged.log (hrow hdamaged.applied hreadable.1) (hrow hdamaged.purged hreadable.2)
  obtain ⟨purged', hafter, _, hmeta⟩ := hdb.afterRepair
  have hresult : normalized = afterCommits db (repairCommits L.toRaftCodec applied purged db) := by
    unfold normalizeRaftLog at hn
    rw [hdb.normalizeCommits] at hn
    exact (Except.ok.inj hn).symm
  rw [hresult]
  exact ⟨⟨purged', _, _, hafter⟩, (hmeta metaVote (by decide)).trans (hdamaged.vote.trans hvote)⟩

theorem Intact.startCall (h : Intact L p db applied) {c : StartCall} (hallowed : c.call.Allowed L db) :
    Intact L p (startCall C L nodeId db c) applied := by
  obtain ⟨applied', happlied, hat⟩ := hallowed
  obtain ⟨purged, first, next, hinv⟩ := h.kept
  obtain rfl : applied = applied' := Except.ok.inj (hinv.lastApplied.symm.trans happlied)
  rcases afterCommits_cases db (c.call.commits C L nodeId db) with ⟨_, hsame⟩ | hmem
  · rw [HyperionVault.startCall, storeEvent, hsame]
    exact h
  · have hcommit := h.commits hat hmem
    cases c with
    | buildSnapshot => exact hcommit
    | purge logId =>
        -- what is purged here is covered by the position, so it need not be forgotten
        obtain ⟨⟨purged', first', next', hinv'⟩, hvote⟩ := hcommit
        obtain ⟨a, ha, hle⟩ := hat
        have habove : aboveApplied applied = a.index + 1 := by
          rw [Option.mem_def.mp ha]
          rfl
        refine ⟨⟨purged', first', next', hinv'.congr_written fun i hi => ?_⟩, hvote⟩
        have hlt : ¬i ≤ logId.index := by
          change aboveApplied applied ≤ i at hi
          omega
        exact (if_neg hlt).symm

theorem Intact.buildRaft (h : Intact L p db applied) (hs : s.Allowed C L nodeId) :
    Intact L p (RaftNode.buildRaft C L nodeId s db).2 applied := by
  have hstep (db : Db) (c : StartCall) (hdb : Intact L p db applied) (hallowed : c.call.Allowed L db) :
      Intact L p (HyperionVault.startCall C L nodeId db c) applied := hdb.startCall hallowed
  exact run_inv_of_allSteps (I := fun db => Intact L p db applied) hstep h (hs db)

theorem buildRaft_ok_iff (C : Codec) (L : LogCodec) (nodeId : Nat) (s : Startup) (db : Db) :
    (RaftNode.buildRaft C L nodeId s db).1 = .ok () ↔ (s.construct db).error = none := by
  unfold RaftNode.buildRaft
  dsimp only
  cases (s.construct db).error <;> simp

/-- The construction on a database that remembers, where a second one is only made if there is nothing to forget. -/
theorem Intact.startRaft (h : Intact L p db applied) (hs : s.Allowed C L nodeId)
    (hreset : (s.construct db).error.isSome = true → s.rejoins nodeId 1 = true → p = .none) :
    ∃ applied', Intact L p (RaftNode.startRaft C L nodeId s db).2 applied' := by
  have hbuilt : Intact L p (RaftNode.buildRaft C L nodeId s db).2 applied := h.buildRaft hs
  have hok := buildRaft_ok_iff C L nodeId s db
  unfold RaftNode.startRaft
  rcases hbuild : RaftNode.buildRaft C L nodeId s db with ⟨outcome, built⟩
  rw [hbuild] at hbuilt hok
  cases outcome with
  | ok u => exact ⟨applied, hbuilt⟩
  | error e =>
      dsimp only
      cases hrejoin : s.rejoins nodeId 1 with
      | false => exact ⟨applied, hbuilt⟩
      | true =>
          have hsome : (s.construct db).error.isSome = true :=
            Option.isSome_iff_ne_none.mpr fun hnone => by cases hok.mpr hnone
          obtain rfl := hreset hsome hrejoin
          have hrebuilt := (intact_reset L built).buildRaft hs
          rw [if_pos rfl]
          rcases hbuild' : RaftNode.buildRaft C L nodeId s (resetRaftState built) with ⟨outcome', rebuilt⟩
          rw [hbuild'] at hrebuilt
          cases outcome' <;> exact ⟨none, hrebuilt⟩

/-- A start that drops nothing promised. After it the node remembers, and if it returns the positions can be read. -/
theorem Remembers.start (h : Remembers L p db applied) (hs : s.Allowed C L nodeId)
    (hreset : s.resets L nodeId db = true → p = .none) :
    (∃ applied', Intact L p (RaftNode.start C L nodeId s db).2 applied') ∨
      (∃ e, (RaftNode.start C L nodeId s db).1 = .error e) ∧ (RaftNode.start C L nodeId s db).2 = db := by
  unfold Startup.resets at hreset
  unfold RaftNode.start
  cases hn : normalizeRaftLog L.toRaftCodec db with
  | ok normalized =>
      rw [hn] at hreset
      simp only [Bool.and_eq_true] at hreset
      exact Or.inl ((h.normalized hn).startRaft hs fun herror hrejoin => hreset ⟨herror, hrejoin⟩)
  | error e =>
      rw [hn] at hreset
      dsimp only at hreset ⊢
      cases hrejoin : s.rejoins nodeId 0 with
      | false => exact Or.inr ⟨⟨_, rfl⟩, rfl⟩
      | true =>
          obtain rfl := hreset hrejoin
          exact Or.inl ((intact_reset L db).startRaft hs fun _ _ => rfl)

/-- A node that is constructed is so at once, or from a database without raft state. -/
theorem startRaft_ok (hok : (RaftNode.startRaft C L nodeId s db).1 = .ok ()) :
    (s.construct db).error = none ∧ (RaftNode.startRaft C L nodeId s db).2 = (RaftNode.buildRaft C L nodeId s db).2 ∨
      ∃ built, (RaftNode.startRaft C L nodeId s db).2 = (RaftNode.buildRaft C L nodeId s (resetRaftState built)).2 := by
  have hbuilt := buildRaft_ok_iff C L nodeId s db
  unfold RaftNode.startRaft at hok ⊢
  rcases hbuild : RaftNode.buildRaft C L nodeId s db with ⟨outcome, built⟩
  rw [hbuild] at hok hbuilt
  cases outcome with
  | ok u => exact Or.inl ⟨hbuilt.mp rfl, rfl⟩
  | error e =>
      right
      dsimp only at hok ⊢
      cases hrejoin : s.rejoins nodeId 1 with
      | false =>
          rw [hrejoin] at hok
          cases hok
      | true =>
          rw [hrejoin] at hok
          rw [if_pos rfl] at hok ⊢
          refine ⟨built, ?_⟩
          rcases hbuild' : RaftNode.buildRaft C L nodeId s (resetRaftState built) with ⟨outcome', rebuilt⟩
          rw [hbuild'] at hok
          cases outcome' with
          | ok u => rfl
          | error e' => cases hok

/-- After a start that has dropped the raft state nothing is remembered. -/
theorem start_of_resets (hs : s.Allowed C L nodeId) (hok : (RaftNode.start C L nodeId s db).1 = .ok ())
    (hreset : s.resets L nodeId db = true) : Intact L .none (RaftNode.start C L nodeId s db).2 none := by
  have hrebuilt (built : Db) : Intact L .none (RaftNode.buildRaft C L nodeId s (resetRaftState built)).2 none :=
    (intact_reset L built).buildRaft hs
  unfold RaftNode.start at hok ⊢
  unfold Startup.resets at hreset
  cases hn : normalizeRaftLog L.toRaftCodec db with
  | ok normalized =>
      rw [hn] at hreset hok
      rw [Bool.and_eq_true] at hreset
      rcases startRaft_ok hok with ⟨hnone, _⟩ | ⟨built, hbuilt⟩
      · rw [hnone] at hreset
        cases hreset.1
      · exact hbuilt ▸ hrebuilt built
  | error e =>
      rw [hn] at hreset hok
      dsimp only at hreset hok ⊢
      rw [if_pos hreset] at hok ⊢
      rcases startRaft_ok hok with ⟨_, hbuilt⟩ | ⟨built, hbuilt⟩
      · exact hbuilt ▸ hrebuilt db
      · exact hbuilt ▸ hrebuilt built

theorem eq_none_of_kept (h : Intact L .none db none) (hkept : p.Kept L db) : p = .none := by
  obtain ⟨vote, held⟩ := p
  obtain ⟨⟨purged, first, next, hinv⟩, hvote⟩ := h
  obtain ⟨hread, hheld⟩ := hkept
  obtain rfl : vote = none := by
    have hnone : LogStore.readVote L db = .ok none := readMeta_of_map L.vote hvote
    rw [hnone] at hread
    exact (Except.ok.inj hread).symm
  obtain rfl : held = fun _ => none := by
    funext index
    rw [← Option.not_isSome_iff_eq_none, Option.isSome_iff_exists]
    rintro ⟨entry, hentry⟩
    rcases hheld index entry hentry with hlog | ⟨a, ha, _⟩
    · rw [hinv.kept index (Nat.zero_le _)] at hlog
      cases hlog
    · rw [hinv.lastApplied] at ha
      cases ha
  rfl

end Starts

/-! ## Runs -/

section Runs
variable {C : Codec} {L : LogCodec} {nodeId : Nat}

/-- The node remembers, with openraft's own position while it runs. -/
def NodeInv (L : LogCodec) (s : Node × Promise) : Prop :=
  ∃ applied, Remembers L s.2 s.1.db applied ∧ ∀ a ∈ s.1.engine, a = applied

theorem NodeInv.at_position {s : Node × Promise} (h : NodeInv L s) {applied : Option LogId}
    (happlied : s.1.engine = some applied) : Remembers L s.2 s.1.db applied := by
  obtain ⟨applied', hremembers, hengine⟩ := h
  obtain rfl := hengine applied happlied
  exact hremembers

theorem nodeInv_event {s : Node × Promise} {event : NodeEvent} (h : NodeInv L s)
    (hallowed : event.Allowed C L nodeId s.1) (hharmless : event.Harmless L nodeId s.1 s.2) :
    NodeInv L (promiseStep C L nodeId s event) := by
  obtain ⟨⟨db, engine⟩, p⟩ := s
  cases event with
  | call c =>
      obtain ⟨applied, hengine, hat⟩ := hallowed
      have hremembers := h.at_position hengine
      dsimp only at hengine hat hremembers
      subst hengine
      rcases afterCommits_cases db (c.commits C L nodeId db) with ⟨hnil, hsame⟩ | hmem
      · refine ⟨applied, ?_, ?_⟩
        · simp only [promiseStep, nodeEvent, storeEvent, hsame, NodeEvent.promises, promises_of_commits_nil hnil]
          exact hremembers
        · simp only [promiseStep, nodeEvent, hnil]
          exact fun a ha => (Option.mem_some.mp ha).symm
      · have hne : (c.commits C L nodeId db).isEmpty = false :=
          List.isEmpty_eq_false_iff.mpr (List.ne_nil_of_mem hmem)
        refine ⟨c.position applied, hremembers.commits hat hmem, ?_⟩
        simp only [promiseStep, nodeEvent, hne]
        exact fun a ha => (Option.mem_some.mp ha).symm
  | crash c cut =>
      obtain ⟨applied, hengine, hat⟩ := hallowed
      have hremembers := h.at_position hengine
      dsimp only at hat hremembers
      have hstopped (a : Option LogId) : ∀ b ∈ (none : Option (Option LogId)), b = a :=
        fun b hb => (Option.not_mem_none b hb).elim
      rcases afterCommits_cases db ((c.commits C L nodeId db).take cut) with ⟨hnil, hsame⟩ | hmem
      · refine ⟨applied, ?_, hstopped applied⟩
        simp only [promiseStep, nodeEvent, storeEvent, hsame, NodeEvent.promises]
        by_cases hcut : cut = 0
        · rw [if_pos hcut]
          exact hremembers
        · rw [if_neg hcut, promises_of_commits_nil ((List.take_eq_nil_iff.mp hnil).resolve_left hcut)]
          exact hremembers
      · have hcut : cut ≠ 0 := by
          rintro rfl
          cases hmem
        refine ⟨c.position applied, ?_, hstopped _⟩
        simp only [promiseStep, NodeEvent.promises, if_neg hcut]
        exact hremembers.commits hat (List.mem_of_mem_take hmem)
  | damage key row =>
      obtain ⟨applied, ⟨shadow, hintact, hdamaged⟩, hengine⟩ := h
      obtain ⟨hkey, hnull, hdecode⟩ := hallowed
      refine ⟨applied, ⟨shadow, hintact, hdamaged.damage hkey hnull hdecode⟩, hengine⟩
  | restart startup =>
      obtain ⟨applied, hremembers, _⟩ := h
      dsimp only at hremembers
      rcases hremembers.start hallowed hharmless with ⟨applied', hintact⟩ | ⟨⟨e, he⟩, hsame⟩
      · refine ⟨applied', hintact.remembers, fun a ha => ?_⟩
        obtain ⟨purged, first, next, hinv⟩ := hintact.kept
        simp only [promiseStep, nodeEvent, hinv.lastApplied] at ha
        cases hstart : (RaftNode.start C L nodeId startup db).1 with
        | ok u =>
            rw [hstart] at ha
            exact (Option.mem_some.mp ha).symm
        | error e =>
            rw [hstart] at ha
            cases ha
      · refine ⟨applied, ?_, fun a ha => ?_⟩
        · simp only [promiseStep, nodeEvent, hsame]
          exact hremembers
        · simp only [promiseStep, nodeEvent, he] at ha
          cases ha

end Runs

/-- Any run of calls in openraft's order, whole or cut short, with damage to either position and starts in between, in
which no start drops the raft state while something is promised. A start after it that returns keeps what has been
promised exactly when it does not drop the raft state either, or nothing is promised. -/
theorem restart_keeps_promises (C : Codec) (L : LogCodec) (nodeId : Nat) (t : Tables) (events : List NodeEvent)
    (hevents : AllSteps (promiseStep C L nodeId)
      (fun s event => event.Allowed C L nodeId s.1 ∧ event.Harmless L nodeId s.1 s.2) (newNode t) events)
    (startup : Startup) (hstartup : startup.Allowed C L nodeId) :
    let s := run (promiseStep C L nodeId) (newNode t) events
    let started := RaftNode.start C L nodeId startup s.1.db
    started.1 = .ok () → (s.2.Kept L started.2 ↔ (startup.resets L nodeId s.1.db = true → s.2 = .none)) := by
  intro s started hok
  have hstart : NodeInv L (newNode t) :=
    ⟨none, (intact_none L t).remembers, fun a ha => (Option.not_mem_none a ha).elim⟩
  obtain ⟨applied, hremembers, _⟩ := run_inv_of_allSteps (fun s event hs h => nodeInv_event hs h.1 h.2) hstart hevents
  constructor
  · exact fun hkept hreset => eq_none_of_kept (start_of_resets hstartup hok hreset) hkept
  · intro hharmless
    rcases hremembers.start hstartup hharmless with ⟨applied', hintact⟩ | ⟨⟨e, he⟩, _⟩
    · exact hintact.keeps
    · rw [show started.1 = .error e from he] at hok
      cases hok

/-! ## Two starts -/

/-- All peers answer, and openraft starts without a call on the store. -/
def quietStart : Startup := ⟨threePeers, fun _ addr => some (holdsCluster addr), fun _ => ⟨[], none⟩⟩

/-- The node starts, votes, and appends and applies one entry. -/
def oneEntry : List NodeEvent :=
  [.restart quietStart, .call (.saveVote ⟨⟨1, 1⟩, true⟩), .call (.append [entryAt 0 .blank]),
    .call (.apply [entryAt 0 .blank])]

theorem quietStart_allowed (C : Codec) (L : LogCodec) : quietStart.Allowed C L 1 := fun _ => trivial

theorem oneEntry_allowed (C : Codec) (L : LogCodec) :
    AllSteps (promiseStep C L 1) (fun s event => event.Allowed C L 1 s.1 ∧ event.Harmless L 1 s.1 s.2)
      (newNode .empty) oneEntry := by
  refine ⟨⟨quietStart_allowed C L, fun h => nomatch h⟩, ⟨⟨none, rfl, trivial⟩, trivial⟩,
    ⟨⟨none, rfl, rfl, by decide⟩, trivial⟩, ⟨⟨none, rfl, rfl, fun entry hentry => ?_⟩, trivial⟩, trivial⟩
  obtain rfl := List.mem_singleton.mp hentry
  rfl

theorem oneEntry_normalizes (C : Codec) (L : LogCodec) : ∃ normalized,
    normalizeRaftLog L.toRaftCodec (run (promiseStep C L 1) (newNode .empty) oneEntry).1.db = .ok normalized := by
  have happlied : (run (promiseStep C L 1) (newNode .empty) oneEntry).1.db.lastApplied L.toRaftCodec =
      .ok (some ⟨⟨1, 1⟩, 0⟩) := readMeta_eq _ (Table.get_insert_self _ _ _)
  have hpurged : (run (promiseStep C L 1) (newNode .empty) oneEntry).1.db.lastPurged L.toRaftCodec = .ok none :=
    readMeta_none _ ((Table.get_insert_of_ne _ _ (by decide)).trans (Table.get_insert_of_ne _ _ (by decide)))
  unfold normalizeRaftLog normalizeCommits
  rw [happlied, hpurged]
  exact ⟨_, rfl⟩

theorem start_quiet {C : Codec} {L : LogCodec} {db normalized : Db}
    (h : normalizeRaftLog L.toRaftCodec db = .ok normalized) :
    RaftNode.start C L 1 quietStart db = (.ok (), normalized) ∧ quietStart.resets L 1 db = false := by
  unfold RaftNode.start Startup.resets
  rw [h]
  exact ⟨rfl, rfl⟩

/-- The node starts again. -/
theorem vote_is_kept :
    let s := run (promiseStep jsonCodec jsonLogCodec 1) (newNode .empty) oneEntry
    s.2.vote = some ⟨⟨1, 1⟩, true⟩ ∧
      s.2.Kept jsonLogCodec (RaftNode.start jsonCodec jsonLogCodec 1 quietStart s.1.db).2 := by
  obtain ⟨normalized, hn⟩ := oneEntry_normalizes jsonCodec jsonLogCodec
  obtain ⟨hstart, hresets⟩ := start_quiet (C := jsonCodec) hn
  refine ⟨rfl, (restart_keeps_promises jsonCodec jsonLogCodec 1 .empty oneEntry
    (oneEntry_allowed jsonCodec jsonLogCodec)
    quietStart (quietStart_allowed jsonCodec jsonLogCodec) (congrArg Prod.fst hstart)).mpr fun h => ?_⟩
  rw [hresets] at h
  cases h

theorem unreadable_start {C : Codec} {L : LogCodec} {db : Db} {e : NormalizeError}
    (h : normalizeRaftLog L.toRaftCodec db = .error e) :
    RaftNode.start C L 1 quietStart db = (.ok (), resetRaftState db) := by
  have hrejoins : quietStart.rejoins 1 0 = true := by decide
  unfold RaftNode.start
  rw [h]
  dsimp only
  rw [if_pos hrejoins]
  rfl

/-- The position applied becomes unreadable, and node 3 reports a cluster: the node starts and has forgotten its vote
and its entry. -/
theorem vote_is_forgotten :
    let events := oneEntry ++ [.damage metaApplied []]
    let s := run (promiseStep jsonCodec jsonLogCodec 1) (newNode .empty) events
    let started := RaftNode.start jsonCodec jsonLogCodec 1 quietStart s.1.db
    AllSteps (promiseStep jsonCodec jsonLogCodec 1) (fun s event => event.Allowed jsonCodec jsonLogCodec 1 s.1)
        (newNode .empty) events ∧
      started.1 = .ok () ∧ s.2.vote = some ⟨⟨1, 1⟩, true⟩ ∧ LogStore.readVote jsonLogCodec started.2 = .ok none ∧
      s.2.held 0 = some (entryAt 0 .blank) ∧ started.2.log.get 0 = none ∧
      started.2.lastApplied jsonRaftCodec = .ok none := by
  intro events s started
  have hallowed : AllSteps (promiseStep jsonCodec jsonLogCodec 1)
      (fun s event => event.Allowed jsonCodec jsonLogCodec 1 s.1) (newNode .empty) events := by
    have hone := (oneEntry_allowed jsonCodec jsonLogCodec).imp fun _ _ h => h.1
    exact allSteps_append.mpr ⟨hone, ⟨Or.inl rfl, by decide, by decide⟩, trivial⟩
  have hunreadable : normalizeRaftLog jsonRaftCodec s.1.db = .error ⟨"read last_applied", .undecodable⟩ := by
    have happlied : s.1.db.raftMeta.get metaApplied = some [] := Table.get_insert_self _ _ _
    have hread : s.1.db.lastApplied jsonRaftCodec = .error .undecodable := by
      have hdecode : jsonRaftCodec.logId.decode [] = none := by decide
      unfold Db.lastApplied readMeta
      rw [happlied]
      simp only [hdecode, isJsonNull]
      rfl
    unfold normalizeRaftLog normalizeCommits
    rw [hread]
    rfl
  have hstart : started = (.ok (), resetRaftState s.1.db) := unreadable_start hunreadable
  have hreset := resetRaftState_eq s.1.db
  refine ⟨hallowed, ?_, rfl, ?_, rfl, ?_, ?_⟩
  · rw [hstart]
  · rw [hstart, hreset]
    rfl
  · rw [hstart, hreset]
    rfl
  · rw [hstart, hreset]
    rfl

end HyperionVault
