import HyperionVault.Raft.Cluster

/-!
# Reads on any node

`VaultReader` for `RaftStore` gives every read to the local store. `VAULT_READ_CONSISTENCY` is parsed into the
configuration and read nowhere.

* `VaultRead`, `RaftStore.read` : the reads of the replicated tables;
* `readOn` : a read on one node of a cluster;
* `CaughtUp` : the node has applied what has been acknowledged;
* `linearizable_reads` : when a read shows every acknowledged write.
-/

namespace HyperionVault
open Lib

structure ReadSettings where
  readConsistencyLinearizable : Bool
deriving DecidableEq

/-- The value of `VAULT_READ_CONSISTENCY`, in lower case. -/
def ReadSettings.parse (value : Option String) : ReadSettings where
  readConsistencyLinearizable := (value.getD "local").toList.map Char.toLower = "linearizable".toList

inductive VaultRead where
  | secret (name : String)
  | currentVersion (name : String)
  | version (name : String) (number : Int32)
  | liveVersions (name : String) (now : Int64)
  | listSecrets
  | role (name : String)
  | listRoles
  | tokenByFingerprint (fingerprint : Bytes)
  | listTokens
  | kmsRewrapState

abbrev VaultRead.Result : VaultRead → Type
  | .secret _ => Option SecretRecord
  | .currentVersion _ => Option (SecretRecord × VersionRecord)
  | .version _ _ => Option VersionRecord
  | .liveVersions _ _ => List VersionRecord
  | .listSecrets => List SecretRecord
  | .role _ => Option RoleRecord
  | .listRoles => List RoleRecord
  | .tokenByFingerprint _ => Option TokenRecord
  | .listTokens => List TokenRecord
  | .kmsRewrapState => Option KmsRewrapState

section Reads
variable (C : Codec)

def RaftStore.read : (r : VaultRead) → Tables → StoreResult r.Result
  | .secret name, t => RedbStore.secret C name t
  | .currentVersion name, t => RedbStore.currentVersion C name t
  | .version name number, t => RedbStore.version C name number t
  | .liveVersions name now, t => RedbStore.liveVersions C name now t
  | .listSecrets, t => RedbStore.listSecrets C t
  | .role name, t => RedbStore.role C name t
  | .listRoles, t => RedbStore.listRoles C t
  | .tokenByFingerprint fingerprint, t => RedbStore.tokenByFingerprint C fingerprint t
  | .listTokens, t => RedbStore.listTokens C t
  | .kmsRewrapState, t => RedbStore.kmsRewrapState C t

/-- A read on a node, whatever its settings. -/
def readOn (_settings : ReadSettings) (s : ClusterState) (node : Nat) (r : VaultRead) : StoreResult r.Result :=
  RaftStore.read C r (s.members node).db.tables

variable {C}

theorem read_congr {t u : Tables} (h : t.replicated = u.replicated) (r : VaultRead) :
    RaftStore.read C r t = RaftStore.read C r u := by
  rw [eq_of_replicated h]
  cases r <;> rfl

end Reads

/-- The position of the node covers every entry that may have been acknowledged. -/
def CaughtUp (R : RaftCodec) (s : ClusterState) (node : Nat) : Prop :=
  ∀ entry ∈ s.log.take s.acknowledged, ∃ a, (s.members node).db.lastApplied R = .ok (some a) ∧
    entry.logId.index ≤ a.index

section Positions
variable {log : List Entry}

/-- The entries up to `k` cover those up to `n` only if there are as many. -/
theorem le_of_covers (hlog : log.Pairwise (fun a b => a.logId.index < b.logId.index)) {n k : Nat} (hn : n ≤ log.length)
    (hcovers : ∀ entry ∈ log.take n, ∃ a, lastLogId (log.take k) = some a ∧ entry.logId.index ≤ a.index) : n ≤ k := by
  by_contra hlt
  have hbound : k < log.length := by omega
  have hmem : log[k] ∈ log.take n := by
    rw [List.mem_take_iff_getElem]
    exact ⟨k, by omega, rfl⟩
  obtain ⟨a, ha, hle⟩ := hcovers log[k] hmem
  obtain ⟨last, hlast, rfl⟩ := Option.map_eq_some_iff.mp ha
  -- the entry right after the first `k` is above all of them
  have hsplit : log = log.take k ++ log.drop k := (List.take_append_drop k log).symm
  rw [hsplit] at hlog
  have hdrop : log[k] ∈ log.drop k := by
    rw [List.drop_eq_getElem_cons hbound]
    exact List.mem_cons_self
  have habove := (List.pairwise_append.mp hlog).2.2 last (List.mem_of_getLast? hlast) _ hdrop
  omega

end Positions

/-- Any run of a cluster whose starts write nothing of their own into the log's tables, and any reads on a node that
has been started and has applied what has been acknowledged, whatever the settings. They are the reads of a state that
includes every acknowledged write: that of the log up to some position after all of them. -/
theorem linearizable_reads (C : Codec) (R : RaftCodec) (fingerprint : String → Bytes) (firstToken : Option String)
    (firstNow : Int64) (events : List ClusterEvent)
    (hevents : AllSteps (clusterEvent C R fingerprint)
      (fun s event => event.Allowed s ∧ event.StartsQuietly fingerprint firstToken firstNow s) .new events)
    (settings : ReadSettings) (node : Nat) :
    let s := run (clusterEvent C R fingerprint) .new events
    let t := firstTables C fingerprint firstToken firstNow
    (s.members node).started = true → CaughtUp R s node →
      ∃ k, s.acknowledged ≤ k ∧ k ≤ s.log.length ∧
        ∀ r, readOn C settings s node r = RaftStore.read C r (sequential C 0 (s.log.take k) t).2 := by
  intro s t hstarted hcaught
  have hinv : ClusterInv C R t s :=
    run_inv_of_allSteps (fun s event hs h => cluster_step hs h.1 h.2) (clusterInv_new C R t) hevents
  obtain ⟨k, hk⟩ := hinv.members node
  refine ⟨k, le_of_covers hinv.increasing hinv.acknowledged fun entry hentry => ?_, hk.le,
    fun r => read_congr (hk.tables hstarted) r⟩
  obtain ⟨a, ha, hindex⟩ := hcaught entry hentry
  rw [hk.applied] at ha
  exact ⟨a, Except.ok.inj ha, hindex⟩

/-! ## A role that is acknowledged -/

/-- Two nodes start, and a role is committed, applied on node 1 and acknowledged. -/
def roleAcknowledged : List ClusterEvent :=
  [.startup 1 none 0, .startup 2 none 0, .commit (roleEntry 1 "r"), .deliver 1 1, .acknowledge 0]

section Acknowledged
variable (C : Codec) (R : RaftCodec)

def acknowledgedState : ClusterState := run (clusterEvent C R fun _ => bootstrapDigest) .new roleAcknowledged

theorem roleAcknowledged_allowed : AllSteps (clusterEvent C R fun _ => bootstrapDigest)
    (fun s event => event.Allowed s ∧ event.StartsQuietly (fun _ => bootstrapDigest) none 0 s)
    .new roleAcknowledged := by
  refine ⟨⟨trivial, rfl, fun _ => rfl⟩, ⟨trivial, rfl, fun _ => rfl⟩,
    ⟨(fun earlier hearlier => nomatch hearlier), trivial⟩,
    ⟨rfl, trivial⟩, ⟨Nat.zero_lt_one, trivial⟩, trivial⟩

theorem acknowledgedState_applied :
    ((acknowledgedState C R).members 1).db.lastApplied R = .ok (some (roleEntry 1 "r").logId) :=
  readMeta_eq _ (Table.get_insert_self _ _ _)

theorem acknowledgedState_caughtUp : CaughtUp R (acknowledgedState C R) 1 := by
  intro entry hentry
  obtain rfl : entry = roleEntry 1 "r" := List.mem_singleton.mp hentry
  exact ⟨_, acknowledgedState_applied C R, le_refl _⟩

theorem acknowledgedState_role : RedbStore.role C "r" ((acknowledgedState C R).members 1).db.tables =
    .ok (some (roleNamed "r")) := by
  have hrow : ((acknowledgedState C R).members 1).db.tables.roles.get "r" = some (C.role.encode (roleNamed "r")) :=
    Table.get_insert_self _ _ _
  unfold RedbStore.role RedbStore.lookup
  rw [hrow]
  simp only [decodeRow_encode]

theorem acknowledgedState_second : RedbStore.role C "r" ((acknowledgedState C R).members 2).db.tables = .ok none := rfl

end Acknowledged

/-- Node 1 has applied the role. -/
theorem leader_shows_write :
    let s := run (clusterEvent jsonCodec jsonRaftCodec fun _ => bootstrapDigest) .new roleAcknowledged
    ∃ k, 1 ≤ k ∧ k ≤ 1 ∧ ∀ r, readOn jsonCodec ⟨true⟩ s 1 r = RaftStore.read jsonCodec r
      (sequential jsonCodec 0 (s.log.take k) (firstTables jsonCodec (fun _ => bootstrapDigest) none 0)).2 :=
  linearizable_reads jsonCodec jsonRaftCodec (fun _ => bootstrapDigest) none 0 roleAcknowledged
    (roleAcknowledged_allowed jsonCodec jsonRaftCodec) ⟨true⟩ 1 rfl
    (acknowledgedState_caughtUp jsonCodec jsonRaftCodec)

/-- Node 2 has not, and a read there does not show the role that has been acknowledged. -/
theorem follower_misses_write :
    let s := run (clusterEvent jsonCodec jsonRaftCodec fun _ => bootstrapDigest) .new roleAcknowledged
    AllSteps (clusterEvent jsonCodec jsonRaftCodec fun _ => bootstrapDigest) (fun s event => event.Allowed s) .new
        roleAcknowledged ∧
      ReadSettings.parse (some "linearizable") = ⟨true⟩ ∧ s.log = [roleEntry 1 "r"] ∧ s.acknowledged = 1 ∧
      readOn jsonCodec ⟨true⟩ s 1 (.role "r") = .ok (some (roleNamed "r")) ∧
      readOn jsonCodec ⟨true⟩ s 2 (.role "r") = .ok none :=
  ⟨(roleAcknowledged_allowed jsonCodec jsonRaftCodec).imp fun _ _ h => h.1, by decide, rfl, rfl,
    acknowledgedState_role jsonCodec jsonRaftCodec, acknowledgedState_second jsonCodec jsonRaftCodec⟩

end HyperionVault
