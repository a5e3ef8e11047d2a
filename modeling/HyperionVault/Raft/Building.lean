import HyperionVault.Raft.Snapshot

/-!
# Snapshots built while entries are applied

`build_snapshot` reads the position, the membership and the tables in three transactions; entries that
are applied in between are seen by the later reads only.

* `Builder` : what a build has read, with the database each read saw;
* `BuildEvent`, `buildStep` : the reads and the final write, interleaved with batches;
* `run_build` : with nothing in between, the steps are `StateMachine.buildSnapshot`;
* `built_faithful_iff` : a snapshot is faithful exactly when its later reads saw the tables and the
  membership of the first.
-/

namespace HyperionVault
open Lib

/-- A snapshot and the databases that the reads of position, membership and tables saw. -/
structure Build where
  snapshot : Snapshot
  atPosition : Db
  atMembership : Db
  atTables : Db

inductive Builder where
  | idle
  | position (atPosition : Db) (lastApplied : Option LogId)
  | membership (atPosition atMembership : Db) (lastApplied : Option LogId) (membership : StoredMembership)
  | assembled (build : Build)

structure BuildState where
  db : Db
  builder : Builder
  produced : List Build

inductive BuildEvent where
  | apply (entries : List Entry)
  | readPosition
  | readMembership
  | readTables
  | store

section Runs
variable (C : Codec) (R : RaftCodec) (nodeId : Nat)

def buildStep (s : BuildState) : BuildEvent → BuildState
  | .apply entries => { s with db := (StateMachine.apply C R nodeId entries s.db).2 }
  | .readPosition =>
      match s.db.lastApplied R with
      | .error _ => { s with builder := .idle }
      | .ok a => { s with builder := .position s.db a }
  | .readMembership =>
      match s.builder with
      | .position db₁ a =>
          match s.db.membership R with
          | .error _ => { s with builder := .idle }
          | .ok m => { s with builder := .membership db₁ s.db a m }
      | _ => s
  | .readTables =>
      match s.builder with
      | .membership db₁ db₂ a m =>
          let snapshot := assembleSnapshot R a m s.db.tables.replicated
          { s with builder := .assembled ⟨snapshot, db₁, db₂, s.db⟩ }
      | _ => s
  | .store =>
      match s.builder with
      | .assembled build =>
          { db := storeSnapshot R build.snapshot s.db, builder := .idle, produced := s.produced ++ [build] }
      | _ => s

def BuildFollows (H : History) (s : BuildState) : BuildEvent → Prop
  | .apply entries => BatchFollows C R nodeId H entries s.db
  | _ => True

/-- With nothing in between, the steps build the snapshot of one state. -/
theorem run_build (db : Db) :
    (run (buildStep C R nodeId) ⟨db, .idle, []⟩ [.readPosition, .readMembership, .readTables, .store]).db =
        (StateMachine.buildSnapshot R db).2 ∧
      ∀ s, (StateMachine.buildSnapshot R db).1 = .ok s →
        (run (buildStep C R nodeId) ⟨db, .idle, []⟩ [.readPosition, .readMembership, .readTables, .store]).produced =
          [⟨s, db, db, db⟩] := by
  cases ha : db.lastApplied R with
  | error e => simp [run, buildStep, StateMachine.buildSnapshot, ha]
  | ok a =>
      cases hm : db.membership R with
      | error e => simp [run, buildStep, StateMachine.buildSnapshot, ha, hm]
      | ok m => simp [run, buildStep, StateMachine.buildSnapshot, ha, hm]

/-- A build with a batch between its reads: the label of the state before, the tables of the state after. -/
theorem run_torn_build {db : Db} {a : Option LogId} {m : StoredMembership} (ha : db.lastApplied R = .ok a)
    (hm : db.membership R = .ok m) (entries : List Entry) :
    (run (buildStep C R nodeId) ⟨db, .idle, []⟩
      [.readPosition, .readMembership, .apply entries, .readTables, .store]).produced =
      [⟨assembleSnapshot R a m (StateMachine.apply C R nodeId entries db).2.tables.replicated, db, db,
        (StateMachine.apply C R nodeId entries db).2⟩] := by
  simp [run, buildStep, ha, hm]

end Runs

section Invariant
variable {C : Codec} {R : RaftCodec} {nodeId : Nat} {H : History}

/-- What the reads of a build have seen. -/
def Build.Read (R : RaftCodec) (H : History) (b : Build) : Prop :=
  ∃ a m, Positioned R H b.atPosition ∧ b.atPosition.lastApplied R = .ok a ∧ b.atMembership.membership R = .ok m ∧
    b.snapshot = assembleSnapshot R a m b.atTables.tables.replicated

def Builder.Read (R : RaftCodec) (H : History) : Builder → Prop
  | .idle => True
  | .position db₁ a => Positioned R H db₁ ∧ db₁.lastApplied R = .ok a
  | .membership db₁ db₂ a m =>
      (Positioned R H db₁ ∧ db₁.lastApplied R = .ok a) ∧ db₂.membership R = .ok m
  | .assembled build => build.Read R H

structure BuildInv (R : RaftCodec) (H : History) (s : BuildState) : Prop where
  position : Positioned R H s.db
  reading : s.builder.Read R H
  produced : ∀ build ∈ s.produced, build.Read R H

theorem buildStep_inv {s : BuildState} (h : BuildInv R H s) {e : BuildEvent}
    (hf : BuildFollows C R nodeId H s e) : BuildInv R H (buildStep C R nodeId s e) := by
  obtain ⟨db, builder, produced⟩ := s
  obtain ⟨hpos, hread, hprod⟩ := h
  cases e with
  | apply entries => exact ⟨positioned_apply hpos hf, hread, hprod⟩
  | readPosition =>
      unfold buildStep
      cases ha : db.lastApplied R with
      | error e => exact ⟨hpos, trivial, hprod⟩
      | ok a => exact ⟨hpos, ⟨hpos, ha⟩, hprod⟩
  | readMembership =>
      cases builder with
      | position db₁ a =>
          unfold buildStep
          cases hm : db.membership R with
          | error e => exact ⟨hpos, trivial, hprod⟩
          | ok m => exact ⟨hpos, ⟨hread, hm⟩, hprod⟩
      | _ => exact ⟨hpos, hread, hprod⟩
  | readTables =>
      cases builder with
      | membership db₁ db₂ a m =>
          obtain ⟨⟨hpos₁, ha⟩, hm⟩ := hread
          exact ⟨hpos, ⟨a, m, hpos₁, ha, hm, rfl⟩, hprod⟩
      | _ => exact ⟨hpos, hread, hprod⟩
  | store =>
      cases builder with
      | assembled build =>
          refine ⟨positioned_storeSnapshot hpos _, trivial, fun b hb => ?_⟩
          rcases List.mem_append.mp hb with hb | hb
          · exact hprod b hb
          · rw [List.mem_singleton.mp hb]
            exact hread
      | _ => exact ⟨hpos, hread, hprod⟩

/-- The label fixes the state of the first read, so the other reads must have seen that state too. -/
theorem faithful_build_iff {b : Build} (h : b.Read R H) :
    Faithful R H b.snapshot ↔ b.atTables.tables.replicated = b.atPosition.tables.replicated ∧
      b.atMembership.membership R = b.atPosition.membership R := by
  obtain ⟨a, m, ⟨a₁, m₁, ha₁, hm₁, hH⟩, ha, hm, hs⟩ := h
  rw [ha] at ha₁
  cases ha₁
  rw [hs, faithful_assembleSnapshot_iff, hH, hm, hm₁, Except.ok.injEq]

end Invariant

/-- In every interleaving of builds and batches, a snapshot that was produced is faithful exactly when the read
of the tables saw the tables, and the read of the membership the membership, that were there when the position
was read. -/
theorem built_faithful_iff (C : Codec) (R : RaftCodec) (nodeId : Nat) (H : History) (db : Db)
    (hfresh : db.raftMeta = .empty) (hstart : H none = (db.tables.replicated, .unset)) (events : List BuildEvent)
    (hfollows : AllSteps (buildStep C R nodeId) (BuildFollows C R nodeId H) ⟨db, .idle, []⟩ events) :
    ∀ build ∈ (run (buildStep C R nodeId) ⟨db, .idle, []⟩ events).produced,
      (Faithful R H build.snapshot ↔
        build.atTables.tables.replicated = build.atPosition.tables.replicated ∧
          build.atMembership.membership R = build.atPosition.membership R) := by
  have hinit : BuildInv R H ⟨db, .idle, []⟩ := ⟨positioned_of_fresh hfresh hstart, trivial, by simp⟩
  have hinv : BuildInv R H (run (buildStep C R nodeId) ⟨db, .idle, []⟩ events) :=
    run_inv_of_allSteps (I := BuildInv R H) (fun _ _ h hf => buildStep_inv h hf) hinit hfollows
  intro build hbuild
  exact faithful_build_iff (hinv.produced build hbuild)

/-! ## A role before and a role during a build -/

theorem lastApplied_first : (applyRole 1 "a" freshDb).lastApplied jsonRaftCodec = .ok (some (roleEntry 1 "a").logId) :=
  lastApplied_applyRole

theorem membership_first : (applyRole 1 "a" freshDb).membership jsonRaftCodec = .ok .unset := membership_applyRole

theorem buildStep_first :
    buildStep jsonCodec jsonRaftCodec 1 ⟨freshDb, .idle, []⟩ (.apply [roleEntry 1 "a"]) =
      ⟨applyRole 1 "a" freshDb, .idle, []⟩ := by
  rw [buildStep, apply_role rfl]

theorem role_build_faithful :
    AllSteps (buildStep jsonCodec jsonRaftCodec 1) (BuildFollows jsonCodec jsonRaftCodec 1 roleHistory)
      ⟨freshDb, .idle, []⟩ [.apply [roleEntry 1 "a"], .readPosition, .readMembership, .readTables, .store] ∧
    ∀ build ∈ (run (buildStep jsonCodec jsonRaftCodec 1) ⟨freshDb, .idle, []⟩
        [.apply [roleEntry 1 "a"], .readPosition, .readMembership, .readTables, .store]).produced,
      Faithful jsonRaftCodec roleHistory build.snapshot := by
  have hfollows : AllSteps (buildStep jsonCodec jsonRaftCodec 1) (BuildFollows jsonCodec jsonRaftCodec 1 roleHistory)
      ⟨freshDb, .idle, []⟩ [.apply [roleEntry 1 "a"], .readPosition, .readMembership, .readTables, .store] :=
    ⟨batchFollows_role rfl rfl rfl, trivial, trivial, trivial, trivial, trivial⟩
  refine ⟨hfollows, fun build hbuild => ?_⟩
  have hiff := built_faithful_iff jsonCodec jsonRaftCodec 1 roleHistory freshDb rfl rfl _ hfollows build hbuild
  have hproduced := (run_build jsonCodec jsonRaftCodec 1 (applyRole 1 "a" freshDb)).2 _
    (congrArg Prod.fst (buildSnapshot_eq lastApplied_first membership_first))
  rw [run_cons, buildStep_first, hproduced, List.mem_singleton] at hbuild
  subst hbuild
  exact hiff.mpr ⟨rfl, rfl⟩

theorem second_role_extra : (applyRole 2 "b" (applyRole 1 "a" freshDb)).tables.replicated ≠
    (roleHistory (some (roleEntry 1 "a").logId)).1 := by
  intro h
  have hrole := congrArg (fun t : Replicated => (t.roles.get "b").isSome) h
  revert hrole
  decide

theorem createRole_first : (createRole jsonCodec (roleNamed "b") (applyRole 1 "a" freshDb).tables).1 = .ok () := rfl

theorem follows_torn_build :
    AllSteps (buildStep jsonCodec jsonRaftCodec 1) (BuildFollows jsonCodec jsonRaftCodec 1 roleHistory)
      ⟨applyRole 1 "a" freshDb, .idle, []⟩
      [.readPosition, .readMembership, .apply [roleEntry 2 "b"], .readTables, .store] := by
  refine ⟨trivial, trivial, ?_, trivial, trivial, trivial⟩
  have hdb : (buildStep jsonCodec jsonRaftCodec 1 (buildStep jsonCodec jsonRaftCodec 1
      ⟨applyRole 1 "a" freshDb, .idle, []⟩ .readPosition) .readMembership).db = applyRole 1 "a" freshDb := by
    simp only [buildStep, lastApplied_first, membership_first]
  rw [BuildFollows, hdb]
  exact batchFollows_role createRole_first membership_first roleHistory_second

/-- The tables are read after a second role was created: the snapshot has the position of the first role and holds
both. -/
theorem torn_build :
    AllSteps (buildStep jsonCodec jsonRaftCodec 1) (BuildFollows jsonCodec jsonRaftCodec 1 roleHistory)
      ⟨freshDb, .idle, []⟩
      [.apply [roleEntry 1 "a"], .readPosition, .readMembership, .apply [roleEntry 2 "b"], .readTables, .store] ∧
    ∃ build ∈ (run (buildStep jsonCodec jsonRaftCodec 1) ⟨freshDb, .idle, []⟩
        [.apply [roleEntry 1 "a"], .readPosition, .readMembership, .apply [roleEntry 2 "b"], .readTables,
          .store]).produced,
      build.snapshot.info.lastLogId = some (roleEntry 1 "a").logId ∧
        ¬Faithful jsonRaftCodec roleHistory build.snapshot := by
  constructor
  · refine ⟨batchFollows_role rfl rfl rfl, ?_⟩
    rw [buildStep_first]
    exact follows_torn_build
  · rw [run_cons, buildStep_first, run_torn_build jsonCodec jsonRaftCodec 1 lastApplied_first membership_first]
    refine ⟨_, List.mem_singleton_self _, rfl, fun hfaithful => ?_⟩
    rw [apply_role createRole_first] at hfaithful
    exact second_role_extra (faithful_assembleSnapshot_iff.mp hfaithful).1

end HyperionVault
