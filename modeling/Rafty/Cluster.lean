import Rafty.Node

/-!
# The cluster

The nodes of one fixed, shared membership and the packets on their way. A step of the cluster is a
step of one of its nodes whose inputs come from the network:

* a handler runs on a request that was sent to this node, and takes it off the network, so that a
  request is handled late, or never, but not twice;
* a call returns either the reply to that very call or a failed status, whether or not the request
  was handled.

Nothing forces a packet to arrive. The clock of a step is any number: the nodes need not agree on
the time.
-/

namespace Rafty

open Infra

/-- A membership shared by all nodes, with the order in which each node walks its `peers_`. -/
structure Membership where
  ids : List NodeId
  nodup : ids.Nodup
  peers : NodeId → List NodeId
  peers_perm : ∀ n ∈ ids, (n :: peers n).Perm ids

def Membership.config (m : Membership) (n : NodeId) : Config where
  id := n
  peers := m.peers n

structure Cluster where
  nodes : NodeId → Node
  net : List Packet
  /-- The first call id that is still free. -/
  nextCall : Nat

/-- A step of the cluster: which node takes it, and the step. -/
structure ClusterInput where
  node : NodeId
  now : Nat
  action : Action
deriving DecidableEq

namespace Cluster

def init (timeouts : NodeId → ElectionTimeout) : Cluster where
  nodes n := Node.init (timeouts n)
  net := []
  nextCall := 0

/-- What a call of a round can return: nothing, or a reply to this call. -/
def answers (net : List Packet) (req : PeerReq) : Option AppendEntriesReply → Bool
  | none => true
  | some reply => .appendReply req.call reply ∈ net

/-- The network offers what the step of node `n` takes from it. -/
def offers (c : Cluster) (n : NodeId) (action : Action) : Bool :=
  match action, (c.nodes n).thread with
  | .appendEntries call _, _ => call.callee = n ∧ .appendRequest call ∈ c.net
  | .requestVote call _, _ => call.callee = n ∧ .voteRequest call ∈ c.net
  | .requestSend callId, _ => callId = c.nextCall
  | .voteReturned (some reply), .awaitVote _ call _ => .voteReply call reply ∈ c.net
  | .buildRound callId, _ => callId = c.nextCall
  | .roundReturned replies _, .awaitRound reqs _ =>
    (reqs.zip replies).all fun (req, reply) => answers c.net req reply
  | _, _ => true

/-- The network without the request that the step handles. -/
def remaining (net : List Packet) : Action → List Packet
  | .appendEntries call _ => net.erase (.appendRequest call)
  | .requestVote call _ => net.erase (.voteRequest call)
  | _ => net

/-- The cluster after node `n` took `action` with this effect. -/
def advance (c : Cluster) (n : NodeId) (action : Action) (eff : Effect) : Cluster where
  nodes := Function.update c.nodes n eff.node
  net := remaining c.net action ++ eff.sends
  nextCall := c.nextCall + eff.sends.length

def step (m : Membership) (c : Cluster) (i : ClusterInput) : Option (Cluster × List Event) :=
  if i.node ∈ m.ids ∧ c.offers i.node i.action then
    ((c.nodes i.node).step (m.config i.node) ⟨i.now, i.action⟩).map fun eff =>
      (c.advance i.node i.action eff, eff.events)
  else none

end Cluster

def clusterSystem (m : Membership) : System Cluster ClusterInput Event where
  init c := ∃ timeouts, c = Cluster.init timeouts
  step := Cluster.step m

/-! ## A cluster of three, for concrete runs -/

def threeNodes : Membership where
  ids := [0, 1, 2]
  nodup := by decide
  peers n := [0, 1, 2].erase n
  peers_perm := by decide

/-- The shortest election timeout. -/
def shortTimeout : ElectionTimeout := ⟨300, by decide⟩

/-- Steps of one node, all at the time `ms`. -/
def steps (ms : Nat) (actions : List Action) : List Input :=
  actions.map fun action => ⟨milliseconds ms, action⟩

/-- Steps of node `n`, all at the time `ms`. -/
def stepsOf (n : NodeId) (ms : Nat) (actions : List Action) : List ClusterInput :=
  actions.map fun action => ⟨n, milliseconds ms, action⟩

/-- The steps with which a candidate builds and sends the request to its next peer. -/
def ask (callId : Nat) : List Action := [.requestTerm, .requestIndex, .requestSend callId]

/-- The steps with which a node that has waited long enough becomes leader of term 1. -/
def winElection : List Action :=
  [.poll, .startElection shortTimeout] ++ ask 0 ++
    [.voteReturned (some { term := 1, voteGranted := true }), .compareTerm, .decide shortTimeout,
      .initLeader]

/-- The end of a round of a leader of term 1 with two peers, who both answer success. -/
def bothAnswer : Action :=
  .roundReturned [some { term := 1, success := true }, some { term := 1, success := true }]
    shortTimeout

/-- The steps with which a leader wakes up and sends its next round. -/
def nextRound (callId : Nat) : List Action := [.leaderWait, .loopTop, .buildRound callId]

/-- A round of a leader with two peers to which neither replies. -/
def unanswered : Action := .roundReturned [none, none] shortTimeout

/-- The steps `inputs` of node 0 are a run that has what `P` asks for, if a replay says so. -/
theorem exists_nodeRun (inputs : List Input) (P : List (Transition Node Input Event) → Node → Prop)
    [∀ ts s, Decidable (P ts s)]
    (h : ((nodeSystem (threeNodes.config 0)).exec [] (Node.init shortTimeout) inputs).any
      (fun r => decide (P r.1 r.2)) = true) :
    ∃ ts s, (nodeSystem (threeNodes.config 0)).Run ts s ∧ ts.map Transition.input = inputs ∧
      P ts s :=
  System.exists_run_of_exec _ inputs P ⟨_, rfl⟩ h

/-- The same for steps of the cluster. -/
theorem exists_clusterRun (inputs : List ClusterInput)
    (P : List (Transition Cluster ClusterInput Event) → Cluster → Prop)
    [∀ ts c, Decidable (P ts c)]
    (h : ((clusterSystem threeNodes).exec [] (Cluster.init fun _ => shortTimeout) inputs).any
      (fun r => decide (P r.1 r.2)) = true) :
    ∃ ts c, (clusterSystem threeNodes).Run ts c ∧ ts.map Transition.input = inputs ∧ P ts c :=
  System.exists_run_of_exec _ inputs P ⟨_, rfl⟩ h

end Rafty
