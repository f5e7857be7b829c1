import Rafty.Kv.Client
import Rafty.Kv.Node

/-!
# The service: clients, servers and the cluster below them

Every node of the cluster has its key-value server, and any number of clients use the service. The
clients are counted here; the servers tell them apart by the `client_id_` each has drawn, and two
clients may have drawn the same one. Between a client and a server there are RPCs: a request arrives
once, late or never, and the RPC returns the response to it or a failed status, whether or not the
request arrived and whatever became of it.

The proposals of this system are those of the servers.
-/

namespace Rafty

open Infra

/-- An attempt of a client: where it went, and the number of the call there once it has arrived. -/
structure KvRpc where
  client : Nat
  node : NodeId
  cmd : Command
  call : Option Nat
deriving DecidableEq, Repr

structure KvCluster where
  nodes : NodeId → KvNode
  net : List Packet
  nextCall : Nat
  clients : Nat → KvClient
  rpcs : List KvRpc

inductive KvClusterInput where
  /-- A step of a node or of its server. -/
  | node (n : NodeId) (now : Nat) (action : KvAction)
  /-- A client starts an operation. -/
  | invoke (client : Nat) (op : OpType) (key value : Bytes)
  | send (client : Nat)
  /-- The request of an RPC arrives at its node. -/
  | deliver (rpc now : Nat)
  /-- The RPC of a client returns, with a failed status or with the response of the server. -/
  | receive (client : Nat) (failed : Bool)
deriving DecidableEq

inductive KvClusterEvent where
  | raft (event : Event)
  | kv (node : NodeId) (event : KvEvent)
  | invoked (client : Nat) (cmd : Command)
  /-- The operation returned `KV_SUCCESS`; `fast` if the value was read on the fast path. -/
  | succeeded (client : Nat) (cmd : Command) (value : Bytes) (fast : Bool)
  /-- The operation returned `KV_TIMEOUT`. -/
  | gaveUp (client : Nat) (cmd : Command)
deriving DecidableEq

/-- The response a call ends with; an exception in the handler is a failed status. -/
def Ending.response (op : OpType) : Ending → Option Reply
  | .notLeader => some ⟨.notLeader, []⟩
  | .fastRead value => some ⟨.success, value⟩
  | .answered reply =>
    -- only a `GetResponse` has a value, which is set on success
    some ⟨reply.status, if op = .get ∧ reply.status = .success then reply.value else []⟩
  | .timedOut => some ⟨.timeout, []⟩
  | .threw => none

def Ending.isFast : Ending → Bool
  | .fastRead _ => true
  | _ => false

namespace KvCluster

/-- Client `k` has drawn `ids k`. -/
def init (timeouts : NodeId → ElectionTimeout) (ids : Nat → UInt64) (stubs : Nat → List NodeId)
    (h : ∀ k, 0 < (stubs k).length) : KvCluster where
  nodes n := KvNode.init (timeouts n)
  net := []
  nextCall := 0
  clients k := KvClient.init (ids k) (stubs k) (h k)
  rpcs := []

/-- The cluster below the servers. -/
def raft (s : KvCluster) : Cluster where
  nodes n := (s.nodes n).node
  net := s.net
  nextCall := s.nextCall

def setNode (s : KvCluster) (n : NodeId) (node : KvNode) : KvCluster :=
  { s with nodes := Function.update s.nodes n node }

def setClient (s : KvCluster) (k : Nat) (client : KvClient) : KvCluster :=
  { s with clients := Function.update s.clients k client }

/-- A step of the Raft node of `n`. -/
def raftStep (m : Membership) (s : KvCluster) (n : NodeId) (now : Nat) (action : Action) :
    Option (KvCluster × List KvClusterEvent) :=
  if s.raft.offers n action then
    ((s.nodes n).node.step (m.config n) ⟨now, action⟩).map fun eff =>
      ({ s with
          nodes := Function.update s.nodes n { s.nodes n with node := eff.node }
          net := Cluster.remaining s.net action ++ eff.sends
          nextCall := s.nextCall + eff.sends.length },
        eff.events.map .raft)
  else none

/-- The data that the step of a server proposes. -/
def proposal (order : ByteOrder) (node : KvNode) : KvAction → Option Bytes
  | .propose k =>
    match (node.calls[k]?).map KvCall.thread with
    | some (.proposing cmd) => serialize order cmd
    | _ => none
  | _ => none

/-- What the Raft node of `n` reports about a step of its server: the proposal, if there is one. -/
def proposed (order : ByteOrder) (m : Membership) (s : KvCluster) (n : NodeId)
    (action : KvAction) : List Event :=
  match proposal order (s.nodes n) action with
  | some data => ((s.nodes n).node.propose (m.config n) data).events
  | none => []

/-- A step of the server of `n`. -/
def serverStep (order : ByteOrder) (m : Membership) (s : KvCluster) (n : NodeId) (now : Nat)
    (action : KvAction) : Option (KvCluster × List KvClusterEvent) :=
  ((s.nodes n).step order (m.config n) ⟨now, action⟩).map fun (node, es) =>
    (s.setNode n node, (proposed order m s n action).map .raft ++ es.map (.kv n))

/-- The client starts an operation whose strings fit into a message. -/
def invoke (s : KvCluster) (k : Nat) (op : OpType) (key value : Bytes) :
    Option (KvCluster × List KvClusterEvent) :=
  let client := match op with
    | .put => (s.clients k).put key value
    | .get => (s.clients k).get key
    | .append => (s.clients k).append key value
  if (s.clients k).thread = .idle ∧ key.length + value.length < 2 ^ 31 then
    some (s.setClient k client, client.thread.command.toList.map (.invoked k))
  else none

/-- The client sends its next attempt. -/
def send (s : KvCluster) (k : Nat) : Option (KvCluster × List KvClusterEvent) :=
  match (s.clients k).thread with
  | .attempting cmd attempt =>
    let client := { s.clients k with thread := .calling cmd attempt s.rpcs.length }
    some ({ s.setClient k client with
      rpcs := s.rpcs ++
        [{ client := k, node := (s.clients k).target, cmd := cmd, call := none }] }, [])
  | _ => none

/-- The request of RPC `r` arrives. -/
def deliver (order : ByteOrder) (m : Membership) (s : KvCluster) (r now : Nat) :
    Option (KvCluster × List KvClusterEvent) := do
  let rpc ← s.rpcs[r]?
  if rpc.call = none ∧ rpc.node ∈ m.ids then
    let (node, _) ← (s.nodes rpc.node).step order (m.config rpc.node) ⟨now, .call rpc.cmd⟩
    let rpc' := { rpc with call := some (s.nodes rpc.node).calls.length }
    some ({ s.setNode rpc.node node with rpcs := s.rpcs.set r rpc' }, [])
  else none

/-- How the call of RPC `r` has ended at its server. -/
def ending (s : KvCluster) (r : Nat) : Option Ending := do
  let rpc ← s.rpcs[r]?
  let k ← rpc.call
  let call ← (s.nodes rpc.node).calls[k]?
  match call.thread with
  | .ended ending => some ending
  | _ => none

/-- What the client sees when an operation returns. -/
def outcome (k : Nat) (cmd : Command) (fast : Bool) : Option Reply → List KvClusterEvent
  | some ⟨.success, value⟩ => [.succeeded k cmd value fast]
  | some _ => [.gaveUp k cmd]
  | none => []

/-- The RPC of the client returns. A response needs a call that has ended. -/
def receive (s : KvCluster) (k : Nat) (failed : Bool) :
    Option (KvCluster × List KvClusterEvent) :=
  match (s.clients k).thread with
  | .calling cmd attempt rpc =>
    if failed then
      let (client, reply) := (s.clients k).returned cmd attempt none
      some (s.setClient k client, outcome k cmd false reply)
    else
      (s.ending rpc).map fun ending =>
        let (client, reply) := (s.clients k).returned cmd attempt (ending.response cmd.op)
        (s.setClient k client, outcome k cmd ending.isFast reply)
  | _ => none

def step (order : ByteOrder) (m : Membership) (s : KvCluster) :
    KvClusterInput → Option (KvCluster × List KvClusterEvent)
  | .node n now action =>
    if n ∈ m.ids then
      match action with
      | .raft (.propose _) | .call _ => none
      | .raft action => s.raftStep m n now action
      | action => s.serverStep order m n now action
    else none
  | .invoke k op key value => s.invoke k op key value
  | .send k => s.send k
  | .deliver r now => s.deliver order m r now
  | .receive k failed => s.receive k failed

end KvCluster

/-- The service, with clients that have drawn the ids `ids`. -/
def kvClusterSystem (order : ByteOrder) (m : Membership) (ids : Nat → UInt64) :
    System KvCluster KvClusterInput KvClusterEvent where
  init s := ∃ timeouts stubs h, s = KvCluster.init timeouts ids stubs h
  step := KvCluster.step order m

/-- Steps of node `n` or its server, all at the time `ms`. -/
def stepsAt (n : NodeId) (ms : Nat) (actions : List KvAction) : List KvClusterInput :=
  actions.map fun action => .node n (milliseconds ms) action

/-- Steps of the cluster below the servers. -/
def raftSteps (inputs : List ClusterInput) : List KvClusterInput :=
  inputs.map fun i => .node i.node i.now (.raft i.action)

/-- The steps `inputs` of three nodes and clients that know all of them are a run. -/
theorem exists_kvClusterRun (ids : Nat → UInt64) (inputs : List KvClusterInput)
    (P : List (Transition KvCluster KvClusterInput KvClusterEvent) → KvCluster → Prop)
    [∀ ts s, Decidable (P ts s)]
    (h : ((kvClusterSystem .little threeNodes ids).exec []
      (KvCluster.init (fun _ => shortTimeout) ids (fun _ => [0, 1, 2]) fun _ => by decide)
      inputs).any (fun r => decide (P r.1 r.2)) = true) :
    ∃ ts s, (kvClusterSystem .little threeNodes ids).Run ts s ∧ ts.map Transition.input = inputs ∧
      P ts s :=
  System.exists_run_of_exec _ inputs P ⟨_, _, _, rfl⟩ h

end Rafty
