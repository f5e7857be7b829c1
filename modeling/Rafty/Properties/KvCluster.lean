import Rafty.Infra.View
import Rafty.Kv.Cluster
import Rafty.Properties.Cluster
import Rafty.Properties.Kv

/-!
# The service as a cluster and as servers

`KvCluster.Move` lists what a step of the service can be. Through `clusterView` a run of the service
is a run of the cluster below it, and through `nodeView n` it is a run of one node with its server,
so what is known of these holds in the service.
-/

namespace Rafty

open Infra

namespace KvCluster

/-! ## What a step can be -/

/-- The things a step of the service can do. -/
inductive Move (order : ByteOrder) (m : Membership) (s : KvCluster) :
    KvClusterInput → KvCluster → List KvClusterEvent → Prop
  | raft {n : NodeId} {now : Nat} {action : Action} {eff : Effect} (hn : n ∈ m.ids)
      (ho : s.raft.offers n action = true) (hp : ∀ data, action ≠ .propose data)
      (h : (s.nodes n).node.step (m.config n) ⟨now, action⟩ = some eff) :
      Move order m s (.node n now (.raft action))
        { s with
          nodes := Function.update s.nodes n { s.nodes n with node := eff.node }
          net := Cluster.remaining s.net action ++ eff.sends
          nextCall := s.nextCall + eff.sends.length }
        (eff.events.map .raft)
  | server {n : NodeId} {now : Nat} {action : KvAction} {node : KvNode} {es : List KvEvent}
      (hn : n ∈ m.ids) (hr : ∀ a, action ≠ .raft a) (hc : ∀ cmd, action ≠ .call cmd)
      (h : (s.nodes n).step order (m.config n) ⟨now, action⟩ = some (node, es)) :
      Move order m s (.node n now action) (s.setNode n node)
        ((proposed order m s n action).map .raft ++ es.map (.kv n))
  | invoke {k : Nat} {op : OpType} {key value : Bytes} {cmd : Command}
      (ht : (s.clients k).thread = .idle) (hlen : key.length + value.length < 2 ^ 31)
      (hcmd : cmd = ⟨op, (s.clients k).clientId, succ64 (s.clients k).seqNum, key,
        if op = .get then [] else value⟩) :
      Move order m s (.invoke k op key value)
        (s.setClient k
          { s.clients k with seqNum := succ64 (s.clients k).seqNum, thread := .attempting cmd 0 })
        [.invoked k cmd]
  | send {k attempt : Nat} {cmd : Command} (ht : (s.clients k).thread = .attempting cmd attempt) :
      Move order m s (.send k)
        { s.setClient k { s.clients k with thread := .calling cmd attempt s.rpcs.length } with
          rpcs := s.rpcs ++
            [{ client := k, node := (s.clients k).target, cmd := cmd, call := none }] }
        []
  | deliver {r now : Nat} {rpc : KvRpc} (hr : s.rpcs[r]? = some rpc) (hc : rpc.call = none)
      (hn : rpc.node ∈ m.ids) :
      Move order m s (.deliver r now)
        { s.setNode rpc.node ((s.nodes rpc.node).call rpc.cmd) with
          rpcs := s.rpcs.set r { rpc with call := some (s.nodes rpc.node).calls.length } }
        []
  | succeeded {k attempt r : Nat} {cmd : Command} {ending : Ending} {value : Bytes}
      (ht : (s.clients k).thread = .calling cmd attempt r) (he : s.ending r = some ending)
      (hv : ending.response cmd.op = some ⟨.success, value⟩) :
      Move order m s (.receive k false) (s.setClient k { s.clients k with thread := .idle })
        [.succeeded k cmd value ending.isFast]
  | retried {k attempt r : Nat} {cmd : Command} {failed : Bool}
      (ht : (s.clients k).thread = .calling cmd attempt r) (ha : attempt + 1 < maxAttempts) :
      Move order m s (.receive k failed)
        (s.setClient k
          { (s.clients k).rotateLeader with thread := .attempting cmd (attempt + 1) })
        []
  | gaveUp {k attempt r : Nat} {cmd : Command} {failed : Bool}
      (ht : (s.clients k).thread = .calling cmd attempt r) (ha : maxAttempts ≤ attempt + 1) :
      Move order m s (.receive k failed)
        (s.setClient k { (s.clients k).rotateLeader with thread := .idle }) [.gaveUp k cmd]

variable {order : ByteOrder} {m : Membership} {s s' : KvCluster} {es : List KvClusterEvent}

theorem move_raftStep {n : NodeId} {now : Nat} {action : Action} (hn : n ∈ m.ids)
    (hp : ∀ data, action ≠ .propose data) (h : s.raftStep m n now action = some (s', es)) :
    Move order m s (.node n now (.raft action)) s' es := by
  unfold raftStep at h
  split at h
  · next ho =>
    obtain ⟨eff, heff, he⟩ := Option.map_eq_some_iff.mp h
    rw [Prod.mk.injEq] at he
    obtain ⟨rfl, rfl⟩ := he
    exact .raft hn ho hp heff
  · cases h

theorem move_serverStep {n : NodeId} {now : Nat} {action : KvAction} (hn : n ∈ m.ids)
    (hr : ∀ a, action ≠ .raft a) (hc : ∀ cmd, action ≠ .call cmd)
    (h : s.serverStep order m n now action = some (s', es)) :
    Move order m s (.node n now action) s' es := by
  obtain ⟨⟨node, evs⟩, hstep, he⟩ := Option.map_eq_some_iff.mp h
  rw [Prod.mk.injEq] at he
  obtain ⟨rfl, rfl⟩ := he
  exact .server hn hr hc hstep

theorem move_invoke {k : Nat} {op : OpType} {key value : Bytes}
    (h : s.invoke k op key value = some (s', es)) :
    Move order m s (.invoke k op key value) s' es := by
  unfold invoke at h
  dsimp only at h
  split at h
  · next hguard =>
    obtain ⟨ht, hlen⟩ := hguard
    rw [Option.some.injEq, Prod.mk.injEq] at h
    obtain ⟨rfl, rfl⟩ := h
    cases op with
    | put => exact .invoke ht hlen rfl
    | get => exact .invoke ht hlen rfl
    | append => exact .invoke ht hlen rfl
  · cases h

theorem move_send {k : Nat} (h : s.send k = some (s', es)) : Move order m s (.send k) s' es := by
  unfold send at h
  split at h
  · next cmd attempt ht =>
    rw [Option.some.injEq, Prod.mk.injEq] at h
    obtain ⟨rfl, rfl⟩ := h
    exact .send ht
  · cases h

theorem move_deliver {r now : Nat} (h : s.deliver order m r now = some (s', es)) :
    Move order m s (.deliver r now) s' es := by
  simp only [deliver, Option.bind_eq_bind, Option.bind_eq_some_iff] at h
  obtain ⟨rpc, hr, h⟩ := h
  split at h
  · next hguard =>
    obtain ⟨⟨node, evs⟩, hstep, h⟩ := Option.bind_eq_some_iff.mp h
    obtain ⟨rfl, -⟩ := Prod.mk.inj (Option.some.inj hstep)
    obtain ⟨rfl, rfl⟩ := Prod.mk.inj (Option.some.inj h)
    exact .deliver hr hguard.1 hguard.2
  · cases h

/-- What the client does when its RPC returns. -/
theorem returned_cases (c : KvClient) (cmd : Command) (attempt : Nat) (response : Option Reply) :
    (∃ value, response = some ⟨.success, value⟩ ∧ c.returned cmd attempt response =
      ({ c with thread := .idle }, some ⟨.success, value⟩)) ∨
    (attempt + 1 < maxAttempts ∧ c.returned cmd attempt response =
      ({ c.rotateLeader with thread := .attempting cmd (attempt + 1) }, none)) ∨
    (maxAttempts ≤ attempt + 1 ∧ c.returned cmd attempt response =
      ({ c.rotateLeader with thread := .idle }, some ⟨.timeout, []⟩)) := by
  unfold KvClient.returned
  split
  · next value => exact Or.inl ⟨value, rfl, rfl⟩
  · by_cases ha : attempt + 1 < maxAttempts
    · exact Or.inr (Or.inl ⟨ha, by rw [if_pos ha]⟩)
    · exact Or.inr (Or.inr ⟨by omega, by rw [if_neg ha]⟩)

theorem move_receive {k : Nat} {failed : Bool} (h : s.receive k failed = some (s', es)) :
    Move order m s (.receive k failed) s' es := by
  unfold receive at h
  split at h
  · next cmd attempt r ht =>
    cases failed with
    | true =>
      rcases returned_cases (s.clients k) cmd attempt none with
        ⟨value, hresp, -⟩ | ⟨ha, he⟩ | ⟨ha, he⟩
      · cases hresp
      · simp only [if_true, he, Option.some.injEq, Prod.mk.injEq] at h
        obtain ⟨rfl, rfl⟩ := h
        exact .retried ht ha
      · simp only [if_true, he, Option.some.injEq, Prod.mk.injEq] at h
        obtain ⟨rfl, rfl⟩ := h
        exact .gaveUp ht ha
    | false =>
      simp only [Bool.false_eq_true, if_false] at h
      obtain ⟨ending, hend, h⟩ := Option.map_eq_some_iff.mp h
      rcases returned_cases (s.clients k) cmd attempt (ending.response cmd.op) with
        ⟨value, hresp, he⟩ | ⟨ha, he⟩ | ⟨ha, he⟩
      · rw [he, Prod.mk.injEq] at h
        obtain ⟨rfl, rfl⟩ := h
        exact .succeeded ht hend hresp
      · rw [he, Prod.mk.injEq] at h
        obtain ⟨rfl, rfl⟩ := h
        exact .retried ht ha
      · rw [he, Prod.mk.injEq] at h
        obtain ⟨rfl, rfl⟩ := h
        exact .gaveUp ht ha
  · cases h

/-- **Inversion of a step of the service.** -/
theorem move_of_step {ids : Nat → UInt64} {i : KvClusterInput}
    (h : (kvClusterSystem order m ids).step s i = some (s', es)) : Move order m s i s' es := by
  have h' : KvCluster.step order m s i = some (s', es) := h
  unfold step at h'
  cases i with
  | node n now action =>
    dsimp only at h'
    split at h'
    · next hn =>
      split at h'
      · cases h'
      · cases h'
      · next hp => exact move_raftStep hn hp h'
      · next hcall hraft => exact move_serverStep hn hraft hcall h'
    · cases h'
  | invoke k op key value => exact move_invoke h'
  | send k => exact move_send h'
  | deliver r now => exact move_deliver h'
  | receive k failed => exact move_receive h'

/-! ## The cluster below -/

/-- The step that the Raft nodes take. -/
def clusterInput (order : ByteOrder) (s : KvCluster) : KvClusterInput → Option ClusterInput
  | .node n now (.raft action) => some ⟨n, now, action⟩
  | .node n now action =>
    (proposal order (s.nodes n) action).map fun data => ⟨n, now, .propose data⟩
  | _ => none

theorem clusterInput_server {n : NodeId} {action : KvAction} (s : KvCluster) (now : Nat)
    (hr : ∀ a, action ≠ .raft a) : clusterInput order s (.node n now action) =
      (proposal order (s.nodes n) action).map fun data => ⟨n, now, .propose data⟩ := by
  cases action with
  | raft a => exact absurd rfl (hr a)
  | _ => rfl

/-- The service as the cluster below it. -/
def clusterView (order : ByteOrder) :
    View KvCluster KvClusterInput KvClusterEvent Cluster ClusterInput Event where
  state := raft
  input := clusterInput order
  event
    | .raft e => some e
    | _ => none

theorem filterMap_raft (order : ByteOrder) (es : List Event) :
    (es.map KvClusterEvent.raft).filterMap (clusterView order).event = es := by
  simp [clusterView, List.filterMap_map]

theorem filterMap_kv (order : ByteOrder) (n : NodeId) (es : List KvEvent) :
    (es.map (KvClusterEvent.kv n)).filterMap (clusterView order).event = [] := by
  simp [clusterView, List.filterMap_map]

/-- A step of a server that proposes nothing leaves its Raft node alone. -/
theorem node_of_no_proposal {n : NodeId} {now : Nat} {action : KvAction} {node : KvNode}
    {es : List KvEvent} {kv : KvNode} (hr : ∀ a, action ≠ .raft a)
    (h : KvNode.Move order (m.config n) kv ⟨now, action⟩ node es)
    (hno : proposal order kv action = none) : node.node = kv.node := by
  cases h with
  | raft => exact absurd rfl (hr _)
  | propose hc ht hs =>
    simp [proposal, hc, ht, hs] at hno
  | register | erase => simp [KvNode.register, KvNode.erase]
  | _ => rfl

/-- A step of a server that proposes is a proposal to its Raft node. -/
theorem node_of_proposal {n : NodeId} {now : Nat} {action : KvAction} {node : KvNode}
    {es : List KvEvent} {kv : KvNode} {data : Bytes}
    (h : KvNode.Move order (m.config n) kv ⟨now, action⟩ node es)
    (hdata : proposal order kv action = some data) :
    node.node = (kv.node.propose (m.config n) data).node := by
  cases h with
  | @propose _ k cmd data' call hc ht hs hl =>
    simp only [proposal, hc, Option.map_some, ht, hs, Option.some.injEq] at hdata
    subst hdata
    rfl
  | @notLeader _ k cmd call hc ht hl =>
    have hsame : (kv.node.raft.propose data).1 = kv.node.raft := by simp [Raft.propose, hl]
    simp only [KvNode.proceed_node, Node.propose, hsame]
  | _ => cases hdata

theorem update_raft (s : KvCluster) (n : NodeId) (node : KvNode) :
    (fun u => (Function.update s.nodes n node u).node) =
      Function.update (fun u => (s.nodes u).node) n node.node := by
  funext u
  by_cases hu : u = n
  · subst hu
    simp
  · simp [hu]

/-- **What the service does to its Raft nodes is a run of the cluster.** -/
theorem clusterView_sound (order : ByteOrder) (m : Membership) (ids : Nat → UInt64) :
    (clusterView order).Sound (kvClusterSystem order m ids) (clusterSystem m) where
  init := by
    rintro s ⟨timeouts, stubs, h, rfl⟩
    exact ⟨timeouts, rfl⟩
  hidden := by
    intro s i s' es hs hnone
    cases move_of_step hs with
    | raft => cases hnone
    | @server n now action node es hn hr hc h =>
      have hno : proposal order (s.nodes n) action = none := by
        rw [show (clusterView order).input s _ = _ from clusterInput_server s now hr] at hnone
        exact Option.map_eq_none_iff.mp hnone
      have hnode := node_of_no_proposal hr (KvNode.move_of_step h) hno
      constructor
      · show (s.setNode n node).raft = s.raft
        simp only [raft, setNode, update_raft, hnode, Function.update_eq_self]
      · rw [List.filterMap_append, filterMap_kv, filterMap_raft, proposed, hno]
        rfl
    | deliver hr =>
      refine ⟨?_, rfl⟩
      simp only [clusterView, raft, setNode, update_raft]
      simp [KvNode.call]
    | _ => exact ⟨rfl, rfl⟩
  seen := by
    intro s i s' es j hs hj
    cases move_of_step hs with
    | @raft n now action eff hn ho _ h =>
      obtain rfl := Option.some.inj hj
      rw [filterMap_raft]
      show Cluster.step m s.raft ⟨n, now, action⟩ = _
      rw [Cluster.step, if_pos ⟨hn, ho⟩]
      show ((s.nodes n).node.step (m.config n) ⟨now, action⟩).map _ = _
      rw [h]
      simp only [Option.map_some, Cluster.advance, clusterView, raft, update_raft]
    | @server n now action node es hn hr hc h =>
      rw [show (clusterView order).input s _ = _ from clusterInput_server s now hr] at hj
      obtain ⟨data, hdata, rfl⟩ := Option.map_eq_some_iff.mp hj
      have hnode := node_of_proposal (KvNode.move_of_step h) hdata
      rw [List.filterMap_append, filterMap_kv, filterMap_raft, proposed, hdata, List.append_nil]
      show Cluster.step m s.raft ⟨n, now, .propose data⟩ = _
      rw [Cluster.step, if_pos ⟨hn, rfl⟩]
      show (some ((s.nodes n).node.propose (m.config n) data)).map _ = _
      simp only [Option.map_some, Cluster.advance, clusterView, raft, setNode, update_raft, hnode]
      simp [Cluster.remaining, Node.propose]
    | _ => cases hj

/-! ## One node and its server -/

/-- The step that node `n` or its server takes. -/
def nodeInput (n : NodeId) (s : KvCluster) : KvClusterInput → Option KvInput
  | .node n' now action => if n' = n then some ⟨now, action⟩ else none
  | .deliver r now =>
    match s.rpcs[r]? with
    | some rpc => if rpc.node = n then some ⟨now, .call rpc.cmd⟩ else none
    | none => none
  | _ => none

/-- The service as one of its nodes. -/
def nodeView (n : NodeId) :
    View KvCluster KvClusterInput KvClusterEvent KvNode KvInput KvEvent where
  state s := s.nodes n
  input := nodeInput n
  event
    | .kv n' e => if n' = n then some e else none
    | _ => none

theorem nodeView_raft (n : NodeId) (es : List Event) :
    (es.map KvClusterEvent.raft).filterMap (nodeView n).event = [] := by
  simp [nodeView, List.filterMap_map]

theorem nodeView_kv_self (n : NodeId) (es : List KvEvent) :
    (es.map (KvClusterEvent.kv n)).filterMap (nodeView n).event = es := by
  simp [nodeView, List.filterMap_map]

theorem nodeView_kv_ne {n n' : NodeId} (h : n' ≠ n) (es : List KvEvent) :
    (es.map (KvClusterEvent.kv n')).filterMap (nodeView n).event = [] := by
  simp [nodeView, List.filterMap_map, h]

/-- **What the service does to a node is a run of that node with its server.** -/
theorem nodeView_sound (order : ByteOrder) (m : Membership) (ids : Nat → UInt64) (n : NodeId) :
    (nodeView n).Sound (kvClusterSystem order m ids) (kvSystem order (m.config n)) where
  init := by
    rintro s ⟨timeouts, stubs, h, rfl⟩
    exact ⟨timeouts n, rfl⟩
  hidden := by
    intro s i s' es hs hnone
    cases move_of_step hs with
    | @raft n' now action eff hn ho _ h =>
      have hne : n' ≠ n := by
        rintro rfl
        simp [nodeView, nodeInput] at hnone
      exact ⟨by simp [nodeView, hne.symm], nodeView_raft n _⟩
    | @server n' now action node es hn hr hc h =>
      have hne : n' ≠ n := by
        rintro rfl
        simp [nodeView, nodeInput] at hnone
      refine ⟨by simp [nodeView, setNode, hne.symm], ?_⟩
      rw [List.filterMap_append, nodeView_raft, nodeView_kv_ne hne]
      rfl
    | @deliver r now rpc hr hc hn =>
      have hne : rpc.node ≠ n := by
        rintro rfl
        simp [nodeView, nodeInput, hr] at hnone
      exact ⟨by simp [nodeView, setNode, hne.symm], rfl⟩
    | _ => exact ⟨rfl, rfl⟩
  seen := by
    intro s i s' es j hs hj
    cases move_of_step hs with
    | @raft n' now action eff hn ho _ h =>
      simp only [nodeView, nodeInput, Option.ite_none_right_eq_some, Option.some.injEq] at hj
      obtain ⟨rfl, rfl⟩ := hj
      rw [nodeView_raft]
      show KvNode.step order (m.config n') (s.nodes n') ⟨now, .raft action⟩ = _
      simp [KvNode.step, h, nodeView]
    | @server n' now action node es hn hr hc h =>
      simp only [nodeView, nodeInput, Option.ite_none_right_eq_some, Option.some.injEq] at hj
      obtain ⟨rfl, rfl⟩ := hj
      rw [List.filterMap_append, nodeView_raft, nodeView_kv_self]
      show KvNode.step order (m.config n') (s.nodes n') ⟨now, action⟩ = _
      simp [h, nodeView, setNode]
    | @deliver r now rpc hr hc hn =>
      simp only [nodeView, nodeInput, hr, Option.ite_none_right_eq_some, Option.some.injEq] at hj
      obtain ⟨rfl, rfl⟩ := hj
      show KvNode.step order (m.config rpc.node) (s.nodes rpc.node) ⟨now, .call rpc.cmd⟩ = _
      simp [KvNode.step, nodeView, setNode]
    | _ => cases hj

end KvCluster

end Rafty
