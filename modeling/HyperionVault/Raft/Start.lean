import HyperionVault.Raft.Crash

/-!
# Starting a node

`RaftNode::start` and `RaftNode::bootstrap` of `raft/node.rs`. Both ask the other configured nodes whether they hold a
cluster, the first before it gives up its own raft state, the second before it initializes a new cluster. What openraft
does when it is constructed is a parameter: the calls that it makes on the store and the error that it may end with.

* `anyPeerInitialized`, `clusterAlreadyRunning` : the two ways of asking;
* `RaftNode.start` : the repair, the construction, and the reset that replaces either;
* `RaftNode.bootstrap` : when a node initializes a cluster;
* `clusterAlreadyRunning_eq_false` : the answers after which it does;
* `initializes_alone` : when no peer holds a cluster then.
-/

namespace HyperionVault
open Lib

/-! ## Asking the peers -/

/-- The configured nodes with their addresses. -/
abbrev Peers := Table Nat String

/-- What a peer says: whether it is initialized, or nothing when it cannot be reached. -/
abbrev Probe := String → Option Bool

def Peers.others (peers : Peers) (nodeId : Nat) : List (Nat × String) := peers.rows.filter fun peer => peer.1 ≠ nodeId

def anyPeerInitialized (probe : Probe) (peers : Peers) (selfId : Nat) : Bool :=
  (peers.others selfId).any fun peer => probe peer.2 == some true

/-- One round over the peers: an existing cluster, none although a peer was reached, or no answer. -/
def probeRound : List (Option Bool) → Bool → Option Bool
  | [], reachedAny => if reachedAny then some false else none
  | some true :: _, _ => some true
  | some false :: rest, _ => probeRound rest true
  | none :: rest, reachedAny => probeRound rest reachedAny

/-- The rounds until one is answered; without any answer a cluster is assumed. -/
def discover : List (List (Option Bool)) → Bool
  | [] => true
  | round :: rest =>
      match probeRound round false with
      | some running => running
      | none => discover rest

def discoveryAttempts : List Nat := List.range' 1 10

/-- `probes` gives the answers in each attempt. -/
def clusterAlreadyRunning (probes : Nat → Probe) (peers : Peers) (nodeId : Nat) : Bool :=
  let others := peers.others nodeId
  if others.isEmpty then false
  else discover (discoveryAttempts.map fun attempt => others.map fun peer => probes attempt peer.2)

/-! ## Starting -/

/-- The calls that openraft makes on the store while it is constructed. -/
inductive StartCall where
  | purge (logId : LogId)
  | buildSnapshot

def StartCall.call : StartCall → RaftCall
  | .purge logId => .purge logId
  | .buildSnapshot => .buildSnapshot

/-- What constructing openraft comes to. -/
structure Construction where
  calls : List StartCall
  error : Option String

/-- What a start finds around it: the peers, their answers each time they are asked, and openraft. -/
structure Startup where
  peers : Peers
  probes : Nat → Probe
  construct : Db → Construction

inductive StartError where
  | normalize (e : NormalizeError)
  | construct (e : String)
  | constructAfterReset (e : String)

section Starting
variable (C : Codec) (L : LogCodec) (nodeId : Nat)

def startCall (db : Db) (c : StartCall) : Db := storeEvent C L nodeId db (.call c.call)

def RaftNode.buildRaft (s : Startup) (db : Db) : Except String Unit × Db :=
  let construction := s.construct db
  (match construction.error with
    | none => .ok ()
    | some e => .error ("construct raft node: " ++ e),
   run (startCall C L nodeId) db construction.calls)

/-- There are peers, and one that is asked for the `time`-th time holds a cluster. -/
def Startup.rejoins (s : Startup) (time : Nat) : Bool :=
  s.peers.rows.length > 1 && anyPeerInitialized (s.probes time) s.peers nodeId

/-- The construction, and a second one after a reset if the first one fails. -/
def RaftNode.startRaft (s : Startup) (db : Db) : Except StartError Unit × Db :=
  match RaftNode.buildRaft C L nodeId s db with
  | (.ok _, built) => (.ok (), built)
  | (.error e, built) =>
      if s.rejoins nodeId 1 then
        match RaftNode.buildRaft C L nodeId s (resetRaftState built) with
        | (.ok _, rebuilt) => (.ok (), rebuilt)
        | (.error e, rebuilt) => (.error (.constructAfterReset e), rebuilt)
      else (.error (.construct e), built)

def RaftNode.start (s : Startup) (db : Db) : Except StartError Unit × Db :=
  match normalizeRaftLog L.toRaftCodec db with
  | .ok normalized => RaftNode.startRaft C L nodeId s normalized
  | .error e =>
      if s.rejoins nodeId 0 then RaftNode.startRaft C L nodeId s (resetRaftState db)
      else (.error (.normalize e), db)

end Starting

/-! ## Initializing a cluster -/

/-- How `bootstrap` ends when openraft answers. -/
inductive BootstrapOutcome where
  | resumed
  | waiting
  | detected
  | initialized (peers : Peers)
deriving DecidableEq

/-- `isInitialized` is openraft's answer about the local state. -/
def RaftNode.bootstrap (isInitialized : Except String Bool) (probes : Nat → Probe) (peers : Peers) (nodeId : Nat) :
    Except String BootstrapOutcome :=
  match isInitialized with
  | .error e => .error ("raft is_initialized check failed: " ++ e)
  | .ok true => .ok .resumed
  | .ok false =>
      let lowest := peers.keys.head?.getD nodeId
      if nodeId ≠ lowest then .ok .waiting
      else if clusterAlreadyRunning probes peers nodeId then .ok .detected
      else .ok (.initialized peers)

/-! ## The answers after which a cluster is initialized -/

/-- Some peer answers in the attempt. -/
def Answered (probes : Nat → Probe) (others : List (Nat × String)) (attempt : Nat) : Prop :=
  ∃ peer ∈ others, probes attempt peer.2 ≠ none

theorem probeRound_eq_none {round : List (Option Bool)} {reachedAny : Bool} :
    probeRound round reachedAny = none ↔ reachedAny = false ∧ ∀ answer ∈ round, answer = none := by
  induction round generalizing reachedAny with
  | nil => cases reachedAny <;> simp [probeRound]
  | cons answer rest ih => rcases answer with _ | _ | _ <;> simp [probeRound, ih]

theorem probeRound_eq_true {round : List (Option Bool)} {reachedAny : Bool} :
    probeRound round reachedAny = some true ↔ some true ∈ round := by
  induction round generalizing reachedAny with
  | nil => cases reachedAny <;> simp [probeRound]
  | cons answer rest ih => rcases answer with _ | _ | _ <;> simp [probeRound, ih]

/-- The attempts end without a cluster at the first one that is answered, when nobody reports a cluster there. -/
theorem discover_eq_false {attempts : List Nat} (hsorted : attempts.Pairwise (· < ·))
    {rounds : Nat → List (Option Bool)} :
    discover (attempts.map rounds) = false ↔ ∃ attempt ∈ attempts,
      (∀ earlier ∈ attempts, earlier < attempt → ∀ answer ∈ rounds earlier, answer = none) ∧
      (∃ answer ∈ rounds attempt, answer ≠ none) ∧ some true ∉ rounds attempt := by
  induction attempts with
  | nil => simp [discover]
  | cons first rest ih =>
      obtain ⟨hlt, hrest⟩ := List.pairwise_cons.mp hsorted
      rw [List.map_cons, discover]
      cases hround : probeRound (rounds first) false with
      | none =>
          have hsilent := (probeRound_eq_none.mp hround).2
          dsimp only
          rw [ih hrest]
          constructor
          · rintro ⟨attempt, hmem, hbefore, hanswer, htrue⟩
            refine ⟨attempt, List.mem_cons_of_mem _ hmem, fun earlier hearlier hless => ?_, hanswer, htrue⟩
            rcases List.mem_cons.mp hearlier with rfl | hearlier
            · exact hsilent
            · exact hbefore earlier hearlier hless
          · rintro ⟨attempt, hmem, hbefore, hanswer, htrue⟩
            rcases List.mem_cons.mp hmem with rfl | hmem
            · obtain ⟨answer, hin, hne⟩ := hanswer
              exact absurd (hsilent answer hin) hne
            · exact ⟨attempt, hmem, fun earlier hearlier =>
                hbefore earlier (List.mem_cons_of_mem _ hearlier), hanswer, htrue⟩
      | some running =>
          have hanswer : ∃ answer ∈ rounds first, answer ≠ none := by
            by_contra hnone
            push Not at hnone
            rw [probeRound_eq_none.mpr ⟨rfl, hnone⟩] at hround
            cases hround
          dsimp only
          constructor
          · rintro rfl
            refine ⟨first, List.mem_cons_self, fun earlier hearlier hless => ?_, hanswer, fun htrue => ?_⟩
            · rcases List.mem_cons.mp hearlier with rfl | hearlier
              · exact absurd hless (lt_irrefl _)
              · exact absurd hless (hlt earlier hearlier).not_gt
            · rw [probeRound_eq_true.mpr htrue] at hround
              cases hround
          · rintro ⟨attempt, hmem, hbefore, _, htrue⟩
            rcases List.mem_cons.mp hmem with rfl | hmem
            · cases running with
              | false => rfl
              | true => exact absurd (probeRound_eq_true.mp hround) htrue
            · obtain ⟨answer, hin, hne⟩ := hanswer
              exact absurd (hbefore first List.mem_cons_self (hlt attempt hmem) answer hin) hne

/-- A node with peers finds no cluster when the first attempt that is answered has no peer that reports one. -/
theorem clusterAlreadyRunning_eq_false {probes : Nat → Probe} {peers : Peers} {nodeId : Nat} :
    clusterAlreadyRunning probes peers nodeId = false ↔ peers.others nodeId = [] ∨ ∃ attempt ∈ discoveryAttempts,
      (∀ earlier ∈ discoveryAttempts, earlier < attempt → ¬Answered probes (peers.others nodeId) earlier) ∧
      Answered probes (peers.others nodeId) attempt ∧ ∀ peer ∈ peers.others nodeId,
        probes attempt peer.2 ≠ some true := by
  unfold clusterAlreadyRunning
  dsimp only
  cases hothers : peers.others nodeId with
  | nil => simp
  | cons peer rest =>
      have hsorted : discoveryAttempts.Pairwise (· < ·) := by decide
      rw [List.isEmpty_cons, if_neg Bool.false_ne_true, discover_eq_false hsorted, or_iff_right (List.cons_ne_nil _ _)]
      simp only [Answered, List.mem_map, not_exists, not_and, not_not, forall_exists_index, and_imp,
        forall_apply_eq_imp_iff₂,
        exists_exists_and_eq_and]

theorem bootstrap_eq_initialized {isInitialized : Except String Bool} {probes : Nat → Probe}
    {peers : Peers} {nodeId : Nat} :
    RaftNode.bootstrap isInitialized probes peers nodeId = .ok (.initialized peers) ↔
      isInitialized = .ok false ∧ peers.keys.head?.getD nodeId = nodeId ∧
        clusterAlreadyRunning probes peers nodeId = false := by
  rcases isInitialized with e | _ | _
  · simp [RaftNode.bootstrap]
  · unfold RaftNode.bootstrap
    dsimp only
    by_cases hlowest : nodeId = peers.keys.head?.getD nodeId
    · cases hrunning : clusterAlreadyRunning probes peers nodeId <;> simp [← hlowest]
    · rw [if_pos hlowest]
      simp [Ne.symm hlowest]
  · simp [RaftNode.bootstrap]

/-- The lowest of the configured nodes, which has no local state. Each peer that answers says the truth. The node
leaves a cluster alone that some peer holds, unless in the first attempt that is answered at all only peers without a
cluster answer. -/
theorem initializes_alone (isInitialized : Except String Bool) (probes : Nat → Probe) (peers : Peers) (nodeId : Nat)
    (initialized : String → Bool)
    (htruth : ∀ attempt, ∀ peer ∈ peers.others nodeId, ∀ answer ∈ probes attempt peer.2, answer = initialized peer.2) :
    (RaftNode.bootstrap isInitialized probes peers nodeId = .ok (.initialized peers) →
      ∀ peer ∈ peers.others nodeId, initialized peer.2 = false) ↔
    (isInitialized = .ok false → peers.keys.head?.getD nodeId = nodeId →
      (∃ peer ∈ peers.others nodeId, initialized peer.2 = true) →
      ∀ attempt ∈ discoveryAttempts, Answered probes (peers.others nodeId) attempt →
        (∀ earlier ∈ discoveryAttempts, earlier < attempt → ¬Answered probes (peers.others nodeId) earlier) →
        ∃ peer ∈ peers.others nodeId, initialized peer.2 = true ∧ probes attempt peer.2 ≠ none) := by
  have hinit : RaftNode.bootstrap isInitialized probes peers nodeId = .ok (.initialized peers) ↔
      isInitialized = .ok false ∧ peers.keys.head?.getD nodeId = nodeId ∧
        clusterAlreadyRunning probes peers nodeId = false := bootstrap_eq_initialized
  rw [hinit, clusterAlreadyRunning_eq_false]
  constructor
  · rintro hsafe hfresh hlowest ⟨peer, hpeer, hrunning⟩ attempt hattempt hanswered hfirst
    -- a first round without a peer that holds a cluster would end in a second one
    by_contra hnone
    push Not at hnone
    have hnobody : ∀ peer ∈ peers.others nodeId, probes attempt peer.2 ≠ some true := by
      intro other hother htrue
      have hheld : true = initialized other.2 := htruth attempt other hother true htrue
      rw [hnone other hother hheld.symm] at htrue
      cases htrue
    have hfalse := hsafe ⟨hfresh, hlowest, Or.inr ⟨attempt, hattempt, hfirst, hanswered, hnobody⟩⟩ peer hpeer
    rw [hrunning] at hfalse
    cases hfalse
  · rintro hcond ⟨hfresh, hlowest, hnil | ⟨attempt, hattempt, hfirst, hanswered, hnobody⟩⟩ peer hpeer
    · rw [hnil] at hpeer
      cases hpeer
    · rw [← Bool.not_eq_true]
      intro hrunning
      obtain ⟨other, hother, hheld, hreached⟩ :=
        hcond hfresh hlowest ⟨peer, hpeer, hrunning⟩ attempt hattempt hanswered hfirst
      cases hprobe : probes attempt other.2 with
      | none => exact hreached hprobe
      | some answer =>
          have hanswer := htruth attempt other hother answer hprobe
          rw [hheld] at hanswer
          rw [hanswer] at hprobe
          exact hnobody other hother hprobe

/-- Node 1 asks nodes 2 and 3, of which node 3 holds a cluster. -/
def threePeers : Peers := .ofRows [(1, "one"), (2, "two"), (3, "three")]

def holdsCluster (addr : String) : Bool := addr = "three"

/-- Nobody answers at first, and then both do. -/
theorem detects_after_silence :
    let probes : Nat → Probe := fun attempt addr => if attempt = 1 then none else some (holdsCluster addr)
    RaftNode.bootstrap (.ok false) probes threePeers 1 = .ok .detected ∧
      (RaftNode.bootstrap (.ok false) probes threePeers 1 = .ok (.initialized threePeers) →
        ∀ peer ∈ threePeers.others 1, holdsCluster peer.2 = false) := by
  intro probes
  refine ⟨by decide, (initializes_alone (.ok false) probes threePeers 1 holdsCluster ?_).mpr ?_⟩
  · intro attempt peer _ answer hanswer
    by_cases hfirst : attempt = 1
    · simp [probes, hfirst] at hanswer
    · simpa [probes, hfirst, eq_comm] using hanswer
  · intro _ _ _ attempt hattempt hanswered _
    refine ⟨(3, "three"), by decide, by decide, ?_⟩
    obtain ⟨peer, _, hreached⟩ := hanswered
    by_cases hfirst : attempt = 1
    · simp [probes, hfirst] at hreached
    · simp [probes, hfirst]

/-- Node 2 has no cluster and answers, node 3 cannot be reached: node 1 initializes a second cluster. -/
theorem initializes_second_cluster :
    let probes : Nat → Probe := fun _ addr => if addr = "two" then some false else none
    (∀ attempt, ∀ peer ∈ threePeers.others 1, ∀ answer ∈ probes attempt peer.2, answer = holdsCluster peer.2) ∧
      RaftNode.bootstrap (.ok false) probes threePeers 1 = .ok (.initialized threePeers) ∧
      (3, "three") ∈ threePeers.others 1 ∧ holdsCluster "three" = true := by
  intro probes
  refine ⟨fun attempt peer _ answer hanswer => ?_, by decide, by decide, by decide⟩
  by_cases htwo : peer.2 = "two"
  · simp only [probes, htwo, if_true, Option.mem_some_iff] at hanswer
    rw [← hanswer, htwo]
    decide
  · simp [probes, htwo] at hanswer

end HyperionVault
