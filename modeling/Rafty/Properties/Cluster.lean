import Rafty.Cluster
import Rafty.Properties.Node

/-!
# What a step of the cluster can be

A step of the cluster is a move of one member (`clusterSystem_move`). The other nodes stay as they
are, and what is new on the network was sent by that node.
-/

namespace Rafty

open Infra

namespace Cluster

variable {c : Cluster} {n k : NodeId} {action : Action} {eff : Effect}

@[simp] theorem advance_nodes_self : (c.advance n action eff).nodes n = eff.node := by
  simp [advance]

theorem advance_nodes_ne (h : k ≠ n) : (c.advance n action eff).nodes k = c.nodes k := by
  simp [advance, h]

/-- A field of all nodes after the step: that of `n` is new. -/
theorem advance_field {α : Type*} (field : Node → α) :
    (fun u => field ((c.advance n action eff).nodes u)) =
      Function.update (fun u => field (c.nodes u)) n (field eff.node) := by
  funext u
  by_cases hu : u = n
  · subst hu
    rw [advance_nodes_self, Function.update_self]
  · rw [advance_nodes_ne hu, Function.update_of_ne hu]

theorem mem_of_mem_remaining {net : List Packet} {p : Packet} (h : p ∈ remaining net action) :
    p ∈ net := by
  cases action <;> first | exact h | exact List.mem_of_mem_erase h

theorem mem_advance_net {p : Packet} (h : p ∈ (c.advance n action eff).net) :
    p ∈ c.net ∨ p ∈ eff.sends := by
  rcases List.mem_append.mp h with h | h
  · exact Or.inl (mem_of_mem_remaining h)
  · exact Or.inr h

theorem offers_appendEntries {call : Call AppendEntriesRequest} {timeout : ElectionTimeout}
    (h : c.offers n (.appendEntries call timeout) = true) :
    call.callee = n ∧ .appendRequest call ∈ c.net := by
  simpa [offers] using h

theorem offers_requestVote {call : Call RequestVoteReq} {timeout : ElectionTimeout}
    (h : c.offers n (.requestVote call timeout) = true) :
    call.callee = n ∧ .voteRequest call ∈ c.net := by
  simpa [offers] using h

theorem offers_voteReturned {votes : Nat} {call : Call RequestVoteReq} {todo : List NodeId}
    {reply : RequestVoteReply} (ht : (c.nodes n).thread = .awaitVote votes call todo)
    (h : c.offers n (.voteReturned (some reply)) = true) : .voteReply call reply ∈ c.net := by
  unfold offers at h
  rw [ht] at h
  simpa using h

/-- A result of a round with a reply comes from a reply on the network to a request of the round. -/
theorem offers_roundReturned {reqs : List PeerReq} {site : CallSite}
    {replies : List (Option AppendEntriesReply)} {timeout : ElectionTimeout}
    (ht : (c.nodes n).thread = .awaitRound reqs site)
    (h : c.offers n (.roundReturned replies timeout) = true) {result : PeerResult}
    {reply : AppendEntriesReply} (hmem : result ∈ peerResults reqs replies)
    (hreply : reply ∈ result.reply) :
    ∃ req, (req, some reply) ∈ reqs.zip replies ∧ result.peerId = req.call.callee ∧
      result.prevIdx = req.prevIdx ∧ result.entriesSent = req.entriesSent ∧
      .appendReply req.call reply ∈ c.net := by
  unfold offers at h
  rw [ht] at h
  simp only [List.all_eq_true] at h
  unfold peerResults at hmem
  rw [← List.map_uncurry_zip_eq_zipWith] at hmem
  obtain ⟨⟨req, r⟩, hzip, rfl⟩ := List.mem_map.mp hmem
  obtain rfl : r = some reply := hreply
  have hnet : Packet.appendReply req.call reply ∈ c.net := by
    simpa [answers] using h _ hzip
  exact ⟨req, hzip, rfl, rfl, rfl, hnet⟩

end Cluster

/-- **Inversion of a step of the cluster.** -/
theorem clusterSystem_move {m : Membership} {c c' : Cluster} {i : ClusterInput} {es : List Event}
    (h : (clusterSystem m).step c i = some (c', es)) :
    i.node ∈ m.ids ∧ c.offers i.node i.action = true ∧
      ∃ eff, Node.Move (m.config i.node) (c.nodes i.node) ⟨i.now, i.action⟩ eff ∧
        c' = c.advance i.node i.action eff ∧ es = eff.events := by
  have h' : Cluster.step m c i = some (c', es) := h
  unfold Cluster.step at h'
  split at h'
  · next hguard =>
    obtain ⟨eff, heff, he⟩ := Option.map_eq_some_iff.mp h'
    rw [Prod.mk.injEq] at he
    exact ⟨hguard.1, hguard.2, eff, Node.move_of_step heff, he.1.symm, he.2.symm⟩
  · cases h'

/-- What every move of a node keeps holds of all nodes along a run. -/
theorem forall_node_of_run {m : Membership} {P : NodeId → Node → Prop}
    (hinit : ∀ n timeout, P n (Node.init timeout))
    (hmove : ∀ n s i eff, P n s → Node.Move (m.config n) s i eff → P n eff.node)
    {ts : List (Transition Cluster ClusterInput Event)} {c : Cluster}
    (h : (clusterSystem m).Run ts c) (n : NodeId) : P n (c.nodes n) := by
  induction h with
  | init hi =>
    obtain ⟨timeouts, rfl⟩ := hi
    exact hinit n _
  | @step ts c c' i es _ hs ih =>
    obtain ⟨-, -, eff, hm, rfl, -⟩ := clusterSystem_move hs
    by_cases hn : n = i.node
    · subst hn
      rw [Cluster.advance_nodes_self]
      exact hmove _ _ _ _ ih hm
    · rw [Cluster.advance_nodes_ne hn]
      exact ih

/-- A member of the cluster is where a run of the node alone, among any requests, takes it. -/
theorem exists_run_of_node {m : Membership} {ts : List (Transition Cluster ClusterInput Event)}
    {c : Cluster} (h : (clusterSystem m).Run ts c) (n : NodeId) :
    ∃ us, (nodeSystem (m.config n)).Run us (c.nodes n) := by
  induction h with
  | init hi =>
    obtain ⟨timeouts, rfl⟩ := hi
    exact ⟨[], .init ⟨_, rfl⟩⟩
  | @step ts c c' i es _ hs ih =>
    have hs' : Cluster.step m c i = some (c', es) := hs
    unfold Cluster.step at hs'
    split at hs'
    · obtain ⟨eff, heff, he⟩ := Option.map_eq_some_iff.mp hs'
      obtain ⟨rfl, -⟩ := Prod.mk.inj he
      by_cases hn : n = i.node
      · subst hn
        obtain ⟨us, hus⟩ := ih
        have hnode : (nodeSystem (m.config i.node)).step (c.nodes i.node) ⟨i.now, i.action⟩ =
            some (eff.node, eff.events) := by
          simp only [nodeSystem, heff, Option.map_some]
        rw [Cluster.advance_nodes_self]
        exact ⟨_, .step hus hnode⟩
      · rw [Cluster.advance_nodes_ne hn]
        exact ih
    · cases hs'

end Rafty
