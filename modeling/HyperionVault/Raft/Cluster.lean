import HyperionVault.Raft.Node
import HyperionVault.Raft.Refine
import HyperionVault.Raft.Transfer
import HyperionVault.Store.Startup

/-!
# Clusters that apply one log

The nodes of a cluster apply the committed log, each at its own speed, or take over a snapshot of another node. Beside
that each writes its own audit log and lockouts, and whatever a start writes.

* `ClusterState`, `ClusterEvent`, `clusterEvent` : the committed log, the nodes, and what happens to them;
* `ClusterEvent.StartsQuietly` : first starts that seed the same tables, and later ones that find nothing to insert;
* `MemberAt` : a node whose replicated tables are those of the log up to its position, `cluster_step` : every event
  keeps it;
* `startup_keeps_replicas` : the tables of a node are those of the log it has applied.
-/

namespace HyperionVault
open Lib

/-! ## Events -/

structure Member where
  db : Db
  started : Bool

/-- The committed entries, the nodes, and how many of the entries may have been acknowledged to a client. -/
structure ClusterState where
  log : List Entry
  members : Nat → Member
  acknowledged : Nat

def ClusterState.new : ClusterState := ⟨[], fun _ => ⟨⟨.empty, .empty, .empty⟩, false⟩, 0⟩

inductive ClusterEvent where
  | commit (entry : Entry)
  | acknowledge (position : Nat)
  | deliver (node size : Nat)
  | install (source target : Nat)
  | own (node : Nat) (command : Command)
  | startup (node : Nat) (bootstrap : Option String) (now : Int64)

/-- The node with another database. -/
def ClusterState.setDb (s : ClusterState) (node : Nat) (db : Db) : ClusterState :=
  { s with members := Function.update s.members node { s.members node with db := db } }

section Events
variable (C : Codec) (R : RaftCodec) (fingerprint : String → Bytes)

def clusterEvent (s : ClusterState) : ClusterEvent → ClusterState
  | .commit entry => { s with log := s.log ++ [entry] }
  | .acknowledge position => { s with acknowledged := max s.acknowledged (position + 1) }
  | .deliver node size => s.setDb node (deliver C R node s.log ((s.members node).db, []) ⟨size, false⟩).1
  | .install source target =>
      match StateMachine.buildSnapshot R (s.members source).db with
      | (.error _, _) => s
      | (.ok snapshot, built) =>
          (s.setDb source built).setDb target
            (StateMachine.installSnapshot R snapshot.info snapshot.snapshot (s.members target).db).2
  | .own node command =>
      let db := (s.members node).db
      s.setDb node { db with tables := (RedbStore.apply C node command db.tables).2 }
  | .startup node bootstrap now =>
      let member := s.members node
      let (outcome, t) := buildState C fingerprint node bootstrap now member.db.tables
      let db := { member.db with tables := t }
      { s with members := Function.update s.members node ⟨db, member.started || outcome.isOk⟩ }

/-- A committed entry comes after those before it, an acknowledged one is committed, and only nodes that have been
started take part; a node's own commands are the local ones. -/
def ClusterEvent.Allowed (s : ClusterState) : ClusterEvent → Prop
  | .commit entry => ∀ earlier ∈ s.log, earlier.logId.index < entry.logId.index
  | .acknowledge position => position < s.log.length
  | .deliver node _ => (s.members node).started = true
  | .install source target => source ≠ target ∧ (s.members source).started = true ∧ (s.members target).started = true
  | .own node command => (s.members node).started = true ∧ command.isLocal = true
  | .startup _ _ _ => True

/-- The first start of a node has the bootstrap token and the clock of the others; a later one finds nothing
to insert. -/
def ClusterEvent.StartsQuietly (firstToken : Option String) (firstNow : Int64) (s : ClusterState) : ClusterEvent → Prop
  | .startup node bootstrap now =>
      if (s.members node).started then StartKeeps fingerprint bootstrap (s.members node).db.tables
      else bootstrap = firstToken ∧ (bootstrap.isSome → now = firstNow)
  | _ => True

end Events

/-! ## The log on any node -/

section Replicas
variable {C : Codec} {R : RaftCodec}

theorem replicated_apply_congr (n₁ n₂ : Nat) {t u : Tables} (h : t.replicated = u.replicated) (command : Command) :
    (RedbStore.apply C n₁ command t).2.replicated = (RedbStore.apply C n₂ command u).2.replicated := by
  cases hlocal : command.isLocal with
  | true =>
      have ht := replicated_apply_of_local (C := C) hlocal n₁ t
      have hu := replicated_apply_of_local (C := C) hlocal n₂ u
      unfold RaftStore.apply at ht hu
      rw [if_pos hlocal] at ht hu
      rw [ht, hu, h]
  | false =>
      have hview := applyCommand_view (C := C) hlocal n₁ n₂ h
      rcases ht : applyCommand C n₁ command t with ⟨outcome, t'⟩
      rcases hu : applyCommand C n₂ command u with ⟨outcome', u'⟩
      rw [ht, hu] at hview
      obtain ⟨rfl, htables⟩ := Prod.mk.inj hview
      simp only [RedbStore.apply, ht, hu]
      cases outcome with
      | ok _ => exact htables
      | error e => exact h

/-- Entries leave the same replicated tables on every node. -/
theorem replicated_sequential_congr (n₁ n₂ : Nat) {t u : Tables}
    (h : t.replicated = u.replicated) (entries : List Entry) :
    (sequential C n₁ entries t).2.replicated = (sequential C n₂ entries u).2.replicated := by
  induction entries generalizing t u with
  | nil => exact h
  | cons entry rest ih =>
      rw [sequential_cons, sequential_cons]
      apply ih
      obtain ⟨logId, payload⟩ := entry
      cases payload with
      | blank => exact h
      | membership member => exact h
      | normal command => exact replicated_apply_congr n₁ n₂ h command

/-! ## Nodes at a position of the log -/

/-- The node has applied the first `k` entries, on the tables `t` with which it was started. -/
structure MemberAt (C : Codec) (R : RaftCodec) (log : List Entry) (t : Tables) (m : Member) (k : Nat) : Prop where
  le : k ≤ log.length
  applied : m.db.lastApplied R = .ok (lastLogId (log.take k))
  tables : m.started = true → m.db.tables.replicated = (sequential C 0 (log.take k) t).2.replicated
  fresh : m.started = false → m.db.tables = .empty ∧ k = 0

variable {log : List Entry} {t : Tables} {m : Member} {k : Nat}

theorem MemberAt.commit (h : MemberAt C R log t m k) (entry : Entry) : MemberAt C R (log ++ [entry]) t m k := by
  have htake : (log ++ [entry]).take k = log.take k := List.take_append_of_le_length h.le
  refine ⟨?_, htake ▸ h.applied, htake ▸ h.tables, h.fresh⟩
  rw [List.length_append]
  exact Nat.le_add_right_of_le h.le

theorem outstanding_of_applied (hlog : log.Pairwise (fun a b => a.logId.index < b.logId.index)) {db : Db}
    (h : db.lastApplied R = .ok (lastLogId (log.take k))) : outstanding R log db = log.drop k := by
  unfold outstanding
  rw [h, lastLogId]
  cases hlast : (log.take k).getLast? with
  | some last => exact filter_above_take hlog hlast
  | none =>
      have hnil := List.getLast?_eq_none_iff.mp hlast
      have hsplit := List.take_append_drop k log
      rw [hnil, List.nil_append] at hsplit
      exact hsplit.symm

theorem MemberAt.deliver (h : MemberAt C R log t m k) (hlog : log.Pairwise (fun a b => a.logId.index < b.logId.index))
    (hstarted : m.started = true) (node size : Nat) :
    ∃ k', MemberAt C R log t { m with db := (deliver C R node log (m.db, []) ⟨size, false⟩).1 } k' := by
  unfold HyperionVault.deliver
  rw [if_neg Bool.false_ne_true, outstanding_of_applied hlog h.applied]
  dsimp only
  rcases happly : StateMachine.apply C R node ((log.drop k).take size) m.db with ⟨outcome, db⟩
  cases outcome with
  | error e => exact ⟨k, h⟩
  | ok results =>
      have hcommitted : ∃ b, applyEntries C node ((log.drop k).take size) (.begin_ m.db.tables) = .ok b := by
        unfold StateMachine.apply at happly
        cases hb : applyEntries C node ((log.drop k).take size) (.begin_ m.db.tables) with
        | error e =>
            rw [hb] at happly
            cases happly
        | ok b => exact ⟨b, rfl⟩
      obtain ⟨b, hb⟩ := hcommitted
      obtain ⟨results', db', happly', hagree⟩ := apply_agreesWith (R := R) (noInternal_of_applyEntries hb)
      obtain rfl : db = db' := congrArg Prod.snd (happly.symm.trans happly')
      have htake : log.take (min (k + size) log.length) = log.take k ++ (log.drop k).take size := by
        rw [← List.take_eq_take_min, List.take_add]
      refine ⟨min (k + size) log.length, min_le_right _ _, ?_, fun _ => ?_, fun hfresh => ?_⟩
      · rw [htake, lastLogId_append]
        dsimp only
        rw [hagree.applied, h.applied]
        cases lastLogId ((log.drop k).take size) <;> rfl
      · rw [htake, sequential_append]
        dsimp only
        rw [hagree.tables]
        exact replicated_sequential_congr node 0 (h.tables hstarted) _
      · rw [show m.started = false from hfresh] at hstarted
        cases hstarted

theorem buildSnapshot_of_applied {db built : Db} {a : Option LogId} {snapshot : Snapshot}
    (ha : db.lastApplied R = .ok a)
    (hbuild : StateMachine.buildSnapshot R db = (.ok snapshot, built)) :
    ∃ members, snapshot = assembleSnapshot R a members db.tables.replicated ∧ built = storeSnapshot R snapshot db := by
  obtain ⟨b, members, hb, hsnapshot, hbuilt⟩ := buildSnapshot_ok hbuild
  cases ha.symm.trans hb
  exact ⟨members, hsnapshot, hbuilt⟩

/-- A node that takes over the snapshot of another one is where that one is. -/
theorem MemberAt.install {source : Member} {snapshot : Snapshot} {built : Db} (hsource : MemberAt C R log t source k)
    (hrunning : source.started = true) (hbuild : StateMachine.buildSnapshot R source.db = (.ok snapshot, built))
    {k' : Nat} (h : MemberAt C R log t m k') (hstarted : m.started = true) :
    ∃ k'', MemberAt C R log t
      { m with db := (StateMachine.installSnapshot R snapshot.info snapshot.snapshot m.db).2 } k'' := by
  obtain ⟨members, rfl, _⟩ := buildSnapshot_of_applied hsource.applied hbuild
  rcases installSnapshot_cases (R := R)
    (assembleSnapshot R (lastLogId (log.take k)) members source.db.tables.replicated).info
    (assembleSnapshot R (lastLogId (log.take k)) members source.db.tables.replicated).snapshot m.db with
    ⟨_, hsame⟩ | ⟨data, hdata, _, _, hdb⟩
  · rw [hsame]
    exact ⟨k', h⟩
  · have hrows : data = snapshotData (lastLogId (log.take k)) members source.db.tables.replicated := by
      unfold assembleSnapshot at hdata
      rw [R.snapshotData.decode_encode] at hdata
      exact (Option.some.inj hdata).symm
    rw [hdb]
    refine ⟨k, hsource.le, lastApplied_installed _ _ m.db, fun _ => ?_, fun hfresh => ?_⟩
    · dsimp only
      rw [tables_installed, replicated_restore, hrows, tables_snapshotData]
      exact hsource.tables hrunning
    · rw [show m.started = false from hfresh] at hstarted
      cases hstarted

/-- Whatever changes neither the position nor the replicated tables of a node that has been started. -/
theorem MemberAt.of_same (h : MemberAt C R log t m k) (hstarted : m.started = true) {db : Db}
    (happlied : db.lastApplied R = m.db.lastApplied R) (htables : db.tables.replicated = m.db.tables.replicated) :
    MemberAt C R log t { m with db := db } k := by
  refine ⟨h.le, happlied.trans h.applied, fun _ => htables.trans (h.tables hstarted), fun hfresh => ?_⟩
  rw [show m.started = false from hfresh] at hstarted
  cases hstarted

theorem MemberAt.built {snapshot : Snapshot} {built : Db} (h : MemberAt C R log t m k) (hstarted : m.started = true)
    (hbuild : StateMachine.buildSnapshot R m.db = (.ok snapshot, built)) :
    MemberAt C R log t { m with db := built } k := by
  obtain ⟨members, _, rfl⟩ := buildSnapshot_of_applied h.applied hbuild
  exact h.of_same hstarted (readMeta_congr _ (get_storeSnapshot_of_ne _ _ (by decide))) rfl

theorem MemberAt.own (h : MemberAt C R log t m k) (hstarted : m.started = true) (node : Nat) {command : Command}
    (hlocal : command.isLocal = true) :
    MemberAt C R log t { m with db := { m.db with tables := (RedbStore.apply C node command m.db.tables).2 } } k := by
  have hkept := replicated_apply_of_local (C := C) hlocal node m.db.tables
  unfold RaftStore.apply at hkept
  rw [if_pos hlocal] at hkept
  exact h.of_same hstarted rfl hkept

end Replicas

/-! ## Starts -/

section Starts
variable {C : Codec} {R : RaftCodec} {fingerprint : String → Bytes} {log : List Entry} {m : Member} {k : Nat}
  {firstToken : Option String} {firstNow : Int64}

/-- The tables that a first start leaves. -/
def firstTables (C : Codec) (fingerprint : String → Bytes) (firstToken : Option String) (firstNow : Int64) : Tables :=
  (buildState C fingerprint 0 firstToken firstNow .empty).2

/-- On an empty store the token is always added. -/
theorem buildState_empty (C : Codec) (fingerprint : String → Bytes) (node : Nat) (bootstrap : Option String)
    (now : Int64) : (buildState C fingerprint node bootstrap now .empty).1 = .ok () := by
  cases bootstrap with
  | none => rfl
  | some token =>
      unfold buildState
      dsimp only
      rw [seedBootstrap_of_free rfl rfl]

theorem MemberAt.startup (h : MemberAt C R log (firstTables C fingerprint firstToken firstNow) m k) (node : Nat)
    {bootstrap : Option String} {now : Int64}
    (hquiet : if m.started then StartKeeps fingerprint bootstrap m.db.tables
      else bootstrap = firstToken ∧ (bootstrap.isSome → now = firstNow)) :
    MemberAt C R log (firstTables C fingerprint firstToken firstNow)
      ⟨{ m.db with tables := (buildState C fingerprint node bootstrap now m.db.tables).2 },
        m.started || (buildState C fingerprint node bootstrap now m.db.tables).1.isOk⟩ k := by
  cases hstarted : m.started with
  | true =>
      rw [hstarted, if_pos rfl] at hquiet
      refine ⟨h.le, h.applied, fun _ => ?_, fun hfresh => nomatch hfresh⟩
      dsimp only
      rw [buildState_keeps_iff.mpr hquiet]
      exact h.tables hstarted
  | false =>
      rw [hstarted, if_neg Bool.false_ne_true] at hquiet
      obtain ⟨rfl, hnow⟩ := hquiet
      obtain ⟨hempty, rfl⟩ := h.fresh hstarted
      have hok := buildState_empty C fingerprint node bootstrap now
      rw [hempty]
      refine ⟨Nat.zero_le _, h.applied, fun _ => ?_, fun hfresh => ?_⟩
      · -- neither the node nor, without a token, the clock matters
        cases bootstrap with
        | none => rfl
        | some token =>
            obtain rfl := hnow rfl
            rfl
      · rw [hok] at hfresh
        cases hfresh

end Starts

/-! ## Runs -/

section Runs
variable {C : Codec} {R : RaftCodec} {fingerprint : String → Bytes} {firstToken : Option String} {firstNow : Int64}

structure ClusterInv (C : Codec) (R : RaftCodec) (t : Tables) (s : ClusterState) : Prop where
  increasing : s.log.Pairwise (fun a b => a.logId.index < b.logId.index)
  acknowledged : s.acknowledged ≤ s.log.length
  members : ∀ node, ∃ k, MemberAt C R s.log t (s.members node) k

theorem clusterInv_new (C : Codec) (R : RaftCodec) (t : Tables) : ClusterInv C R t .new where
  increasing := .nil
  acknowledged := le_refl _
  members := fun _ => ⟨0, le_refl _, rfl, (fun h => nomatch h), fun _ => ⟨rfl, rfl⟩⟩

/-- One node changes, the others stay where they are. -/
theorem ClusterInv.setDb {t : Tables} {s : ClusterState} (h : ClusterInv C R t s) {node : Nat} {db : Db}
    (hdb : ∃ k, MemberAt C R s.log t { s.members node with db := db } k) : ClusterInv C R t (s.setDb node db) := by
  refine ⟨h.increasing, h.acknowledged, fun other => ?_⟩
  unfold ClusterState.setDb
  dsimp only
  by_cases hother : other = node
  · rw [hother, Function.update_self]
    exact hdb
  · rw [Function.update_of_ne hother]
    exact h.members other

theorem cluster_step {s : ClusterState} {event : ClusterEvent}
    (h : ClusterInv C R (firstTables C fingerprint firstToken firstNow) s) (hallowed : event.Allowed s)
    (hquiet : event.StartsQuietly fingerprint firstToken firstNow s) :
    ClusterInv C R (firstTables C fingerprint firstToken firstNow) (clusterEvent C R fingerprint s event) := by
  cases event with
  | commit entry =>
      refine ⟨?_, ?_, fun node => ?_⟩
      · rw [clusterEvent, List.pairwise_append]
        refine ⟨h.increasing, List.pairwise_singleton _ _, fun earlier hearlier last hlast => ?_⟩
        rw [List.mem_singleton.mp hlast]
        exact hallowed earlier hearlier
      · have hle := h.acknowledged
        simp only [clusterEvent, List.length_append]
        omega
      · obtain ⟨k, hk⟩ := h.members node
        exact ⟨k, hk.commit entry⟩
  | acknowledge position =>
      have hle := h.acknowledged
      have hlt : position < s.log.length := hallowed
      exact ⟨h.increasing, by simp only [clusterEvent]; omega, h.members⟩
  | deliver node size =>
      obtain ⟨k, hk⟩ := h.members node
      exact h.setDb (hk.deliver h.increasing hallowed node size)
  | install source target =>
      obtain ⟨hne, hsource, htarget⟩ := hallowed
      obtain ⟨k, hk⟩ := h.members source
      obtain ⟨k', hk'⟩ := h.members target
      rcases hbuild : StateMachine.buildSnapshot R (s.members source).db with ⟨outcome, built⟩
      cases outcome with
      | error e =>
          simp only [clusterEvent, hbuild]
          exact h
      | ok snapshot =>
          simp only [clusterEvent, hbuild]
          have hbuilt := h.setDb ⟨k, hk.built hsource hbuild⟩
          apply hbuilt.setDb
          have hother : (s.setDb source built).members target = s.members target :=
            Function.update_of_ne (Ne.symm hne) _ _
          rw [hother]
          exact hk.install hsource hbuild hk' htarget
  | own node command =>
      obtain ⟨k, hk⟩ := h.members node
      exact h.setDb ⟨k, hk.own hallowed.1 node hallowed.2⟩
  | startup node bootstrap now =>
      obtain ⟨k, hk⟩ := h.members node
      refine ⟨h.increasing, h.acknowledged, fun other => ?_⟩
      simp only [clusterEvent]
      by_cases hother : other = node
      · rw [hother, Function.update_self]
        exact ⟨k, hk.startup node hquiet⟩
      · rw [Function.update_of_ne hother]
        exact h.members other

/-- Two positions with the same last entry have the same entries before them. -/
theorem take_eq_of_lastLogId {log : List Entry} (hlog : log.Pairwise (fun a b => a.logId.index < b.logId.index))
    {k k' : Nat} (h : lastLogId (log.take k) = lastLogId (log.take k')) : log.take k = log.take k' := by
  unfold lastLogId at h
  cases hlast : (log.take k).getLast? with
  | none =>
      rw [hlast, Option.map_none, eq_comm, Option.map_eq_none_iff] at h
      rw [List.getLast?_eq_none_iff.mp hlast, List.getLast?_eq_none_iff.mp h]
  | some last =>
      rw [hlast, Option.map_some, eq_comm, Option.map_eq_some_iff] at h
      obtain ⟨last', hlast', hsame⟩ := h
      have hdrop : log.drop k = log.drop k' := by
        rw [← filter_above_take hlog hlast, ← filter_above_take hlog hlast', hsame]
      have hsplit : log.take k ++ log.drop k' = log.take k' ++ log.drop k' := by
        rw [← hdrop, List.take_append_drop, hdrop, List.take_append_drop]
      exact List.append_cancel_right hsplit

end Runs

/-- Any run of a cluster: nodes that apply the committed log at their own speed or take over snapshots, their own local
commands, and starts with any bootstrap token at any time, of which the first ones seed the same tables and the later
ones find nothing to insert. Each node has the replicated tables of the log that it has applied, and nodes at the same
position have the same. For one start on any tables the condition is exact (`buildState_keeps_iff`). -/
theorem startup_keeps_replicas (C : Codec) (R : RaftCodec) (fingerprint : String → Bytes) (firstToken : Option String)
    (firstNow : Int64) (events : List ClusterEvent)
    (hevents : AllSteps (clusterEvent C R fingerprint)
      (fun s event => event.Allowed s ∧ event.StartsQuietly fingerprint firstToken firstNow s) .new events) :
    let s := run (clusterEvent C R fingerprint) .new events
    let t := firstTables C fingerprint firstToken firstNow
    (∀ node, (s.members node).started = true → ∃ k, (s.members node).db.lastApplied R = .ok (lastLogId (s.log.take k)) ∧
      (s.members node).db.tables.replicated = (sequential C 0 (s.log.take k) t).2.replicated) ∧
    (∀ node other, (s.members node).started = true → (s.members other).started = true →
      (s.members node).db.lastApplied R = (s.members other).db.lastApplied R →
      (s.members node).db.tables.replicated = (s.members other).db.tables.replicated) := by
  intro s t
  have hinv : ClusterInv C R t s :=
    run_inv_of_allSteps (fun s event hs h => cluster_step hs h.1 h.2) (clusterInv_new C R t) hevents
  refine ⟨fun node hstarted => ?_, fun node other hstarted hother hsame => ?_⟩
  · obtain ⟨k, hk⟩ := hinv.members node
    exact ⟨k, hk.applied, hk.tables hstarted⟩
  · obtain ⟨k, hk⟩ := hinv.members node
    obtain ⟨k', hk'⟩ := hinv.members other
    rw [hk.applied, hk'.applied] at hsame
    rw [hk.tables hstarted, hk'.tables hother, take_eq_of_lastLogId hinv.increasing (Except.ok.inj hsame)]

/-! ## Two restarts -/

/-- The SHA-256 digest of the token used here. -/
def bootstrapDigest : Bytes :=
  [51, 60, 4, 221, 21, 26, 42, 104, 49, 192, 57, 203, 154, 101, 29, 242, 145, 152, 190, 138, 4, 225, 108, 232, 97, 212,
    182, 163, 74, 17, 201, 84]

/-- A backup with the built-in role and without tokens. -/
def tokenlessBackup (C : Codec) : BackupData :=
  ⟨backupVersion, [], [], [("admin", C.role.encode RedbStore.adminRole)], [], [], [], []⟩

/-- Two nodes start with these bootstrap tokens, and both apply the restore of the backup. -/
def restoredOnBoth (C : Codec) (bootstrap : Option String) : List ClusterEvent :=
  [.startup 1 bootstrap 0, .startup 2 bootstrap 0,
    .commit (entryAt 1 (.normal (.restoreDatabase (tokenlessBackup C)))), .deliver 1 1, .deliver 2 1]

section Restored
variable (C : Codec) (R : RaftCodec) (bootstrap : Option String)

def restoredState : ClusterState :=
  run (clusterEvent C R fun _ => bootstrapDigest) .new (restoredOnBoth C bootstrap)

theorem restoredOnBoth_allowed : AllSteps (clusterEvent C R fun _ => bootstrapDigest)
    (fun s event => event.Allowed s ∧ event.StartsQuietly (fun _ => bootstrapDigest) bootstrap 0 s) .new
    (restoredOnBoth C bootstrap) := by
  have hstarted (node : Nat) : (buildState C (fun _ => bootstrapDigest) node bootstrap 0 .empty).1.isOk = true := by
    rw [buildState_empty]
    rfl
  refine ⟨⟨trivial, rfl, fun _ => rfl⟩, ⟨trivial, rfl, fun _ => rfl⟩, ⟨fun earlier hearlier => ?_, trivial⟩,
    ⟨hstarted 1, trivial⟩, ⟨hstarted 2, trivial⟩, trivial⟩
  cases hearlier

theorem restoredState_tables (node : Nat) (hnode : node = 1 ∨ node = 2) :
    ((restoredState C R bootstrap).members node).db.tables = (tokenlessBackup C).tables .empty := by
  cases bootstrap <;> rcases hnode with rfl | rfl <;> rfl

theorem restoredState_applied (node : Nat) (hnode : node = 1 ∨ node = 2) :
    ((restoredState C R bootstrap).members node).db.lastApplied R = .ok (some ⟨⟨1, 1⟩, 1⟩) := by
  apply readMeta_eq
  rcases hnode with rfl | rfl <;> exact Table.get_insert_self _ _ _

theorem restoredState_started (node : Nat) (hnode : node = 1 ∨ node = 2) :
    ((restoredState C R bootstrap).members node).started = true := by
  have hok (node : Nat) : (buildState C (fun _ => bootstrapDigest) node bootstrap 0 .empty).1.isOk = true := by
    rw [buildState_empty]
    rfl
  rcases hnode with rfl | rfl
  · exact hok 1
  · exact hok 2

/-- Node 1 starts once more. -/
def restartedState (now : Int64) : ClusterState :=
  clusterEvent C R (fun _ => bootstrapDigest) (restoredState C R bootstrap) (.startup 1 bootstrap now)

theorem restartedState_second (now : Int64) :
    (restartedState C R bootstrap now).members 2 = (restoredState C R bootstrap).members 2 := by
  unfold restartedState clusterEvent
  dsimp only
  rw [Function.update_of_ne (by decide)]

theorem restartedState_tables (now : Int64) : ((restartedState C R bootstrap now).members 1).db.tables =
    (buildState C (fun _ => bootstrapDigest) 1 bootstrap now ((tokenlessBackup C).tables .empty)).2 := by
  rw [← restoredState_tables C R bootstrap 1 (Or.inl rfl)]
  unfold restartedState clusterEvent
  dsimp only
  rw [Function.update_self]

theorem restartedState_first (now : Int64) :
    ((restartedState C R bootstrap now).members 1).started = true ∧
      ((restartedState C R bootstrap now).members 1).db.lastApplied R = .ok (some ⟨⟨1, 1⟩, 1⟩) := by
  have hstarted := restoredState_started C R bootstrap 1 (Or.inl rfl)
  have happlied := restoredState_applied C R bootstrap 1 (Or.inl rfl)
  unfold restartedState clusterEvent
  dsimp only
  rw [Function.update_self, hstarted]
  exact ⟨rfl, happlied⟩

theorem tokenlessBackup_admin : (((tokenlessBackup C).tables .empty).roles.get "admin").isSome = true := rfl

theorem tokenlessBackup_token :
    RedbStore.tokenByFingerprint C bootstrapDigest ((tokenlessBackup C).tables .empty) = .ok none :=
  rfl

/-- The start of a node that has applied the restore adds its token. -/
theorem token_after_restart (now : Int64) : RedbStore.tokenByFingerprint C bootstrapDigest
    (buildState C (fun _ => bootstrapDigest) 1 (some "bootstrap") now ((tokenlessBackup C).tables .empty)).2 =
      .ok (some (bootstrapToken bootstrapDigest now)) := by
  unfold buildState
  dsimp only
  rw [seedAdminRole_of_isSome (tokenlessBackup_admin C), seedBootstrap_of_free rfl rfl]
  unfold RedbStore.tokenByFingerprint RedbStore.lookup
  dsimp only
  rw [Table.get_insert_self]
  simp only [decodeRow_encode]

end Restored

/-- Without a bootstrap token the nodes agree after the restart too. -/
theorem restarted_nodes_agree :
    let s := run (clusterEvent jsonCodec jsonRaftCodec fun _ => bootstrapDigest) .new
      (restoredOnBoth jsonCodec none ++ [.startup 1 none 9])
    (s.members 1).db.lastApplied jsonRaftCodec = .ok (some ⟨⟨1, 1⟩, 1⟩) ∧
      (s.members 1).db.tables.replicated = (s.members 2).db.tables.replicated := by
  have hrun : run (clusterEvent jsonCodec jsonRaftCodec fun _ => bootstrapDigest) .new
      (restoredOnBoth jsonCodec none ++ [.startup 1 none 9]) =
        restartedState jsonCodec jsonRaftCodec none 9 := run_append ..
  have hsecond := restartedState_second jsonCodec jsonRaftCodec none 9
  have hfirst := restartedState_first jsonCodec jsonRaftCodec none 9
  have hkeeps : StartKeeps (fun _ => bootstrapDigest) none
      ((restoredState jsonCodec jsonRaftCodec none).members 1).db.tables := by
    rw [restoredState_tables jsonCodec jsonRaftCodec none 1 (Or.inl rfl)]
    exact ⟨tokenlessBackup_admin jsonCodec, fun token htoken => nomatch htoken⟩
  have hquiet : ClusterEvent.StartsQuietly (fun _ => bootstrapDigest) none 0
      (restoredState jsonCodec jsonRaftCodec none)
      (.startup 1 none 9) := by
    unfold ClusterEvent.StartsQuietly
    dsimp only
    rw [if_pos (restoredState_started jsonCodec jsonRaftCodec none 1 (Or.inl rfl))]
    exact hkeeps
  have hevents : AllSteps (clusterEvent jsonCodec jsonRaftCodec fun _ => bootstrapDigest)
      (fun s event => event.Allowed s ∧ event.StartsQuietly (fun _ => bootstrapDigest) none 0 s) .new
      (restoredOnBoth jsonCodec none ++ [.startup 1 none 9]) :=
    allSteps_append.mpr ⟨restoredOnBoth_allowed jsonCodec jsonRaftCodec none, ⟨trivial, hquiet⟩, trivial⟩
  have hagree := (startup_keeps_replicas jsonCodec jsonRaftCodec (fun _ => bootstrapDigest) none 0 _ hevents).2 1 2
  rw [hrun] at hagree ⊢
  refine ⟨hfirst.2, hagree hfirst.1 ?_ ?_⟩
  · rw [hsecond]
    exact restoredState_started jsonCodec jsonRaftCodec none 2 (Or.inr rfl)
  · rw [hfirst.2, hsecond]
    exact (restoredState_applied jsonCodec jsonRaftCodec none 2 (Or.inr rfl)).symm

/-- With a bootstrap token the restart brings back the token that the restore has removed, on this node alone. -/
theorem removed_token_returns :
    let events := restoredOnBoth jsonCodec (some "bootstrap") ++ [.startup 1 (some "bootstrap") 9]
    let s := run (clusterEvent jsonCodec jsonRaftCodec fun _ => bootstrapDigest) .new events
    AllSteps (clusterEvent jsonCodec jsonRaftCodec fun _ => bootstrapDigest)
      (fun s event => event.Allowed s) .new events ∧
      (s.members 1).db.lastApplied jsonRaftCodec = .ok (some ⟨⟨1, 1⟩, 1⟩) ∧
      (s.members 2).db.lastApplied jsonRaftCodec = .ok (some ⟨⟨1, 1⟩, 1⟩) ∧
      RedbStore.tokenByFingerprint jsonCodec bootstrapDigest (s.members 1).db.tables =
        .ok (some (bootstrapToken bootstrapDigest 9)) ∧
      RedbStore.tokenByFingerprint jsonCodec bootstrapDigest (s.members 2).db.tables = .ok none := by
  intro events s
  have hrun : s = restartedState jsonCodec jsonRaftCodec (some "bootstrap") 9 := run_append ..
  have hallowed := (restoredOnBoth_allowed jsonCodec jsonRaftCodec (some "bootstrap")).imp fun _ _ h => h.1
  refine ⟨allSteps_append.mpr ⟨hallowed, trivial, trivial⟩, ?_⟩
  rw [hrun, restartedState_second, restoredState_tables _ _ _ 2 (Or.inr rfl), restartedState_tables]
  exact ⟨(restartedState_first _ _ _ 9).2, restoredState_applied _ _ _ 2 (Or.inr rfl), token_after_restart _ 9,
    tokenlessBackup_token _⟩

end HyperionVault
