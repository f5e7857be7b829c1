import Rafty.Safety.Election
import Rafty.Safety.Votes

/-!
# What a leader can rely on

The single `run()` thread and the single way to become leader give a leader, in every run:

* it was elected in the term it is in (`elected_of_leader`), and so was every node that committed
  something (`elected_of_committed`);
* the round it waits for was built in this term, with one request for each peer (`RoundInv`).
-/

namespace Rafty

open Infra

/-- A request of the round the node has under way. -/
structure RoundRequest (term : Nat) (req : PeerReq) : Prop where
  term : req.call.request.term = term
  prevIdx : req.prevIdx = req.call.request.prevLogIndex
  entriesSent : req.entriesSent = req.call.request.entries.length

/-- What holds of the round a node has under way. -/
structure Node.RoundInv (cfg : Config) (s : Node) : Prop where
  callees : (s.thread.requests.map (·.call.callee)).Sublist cfg.peers
  /-- A node that still leads has led, in the same term, since it built the requests. -/
  own : s.raft.role = .leader → ∀ req ∈ s.thread.requests, RoundRequest s.raft.currentTerm req

namespace Node

variable {cfg : Config} {s : Node} {i : Input} {eff : Effect}

/-- A leader has been leader of its term before, unless it has just been elected. -/
theorem Move.of_leader (h : Move cfg s i eff) (hr : eff.node.raft.role = .leader) :
    (s.raft.role = .leader ∧ eff.node.raft.currentTerm = s.raft.currentTerm) ∨
      (eff.node.thread = .initLeader ∧
        .elected cfg.id eff.node.raft.currentTerm eff.node.raft.log ∈ eff.events) := by
  cases h with
  | appendRefused _ _ hcore | roundYielded _ _ _ _ _ hcore =>
    cases (congrArg Core.role hcore).symm.trans hr
  | appendStored h => cases (congrArg Core.role h.core).symm.trans hr
  | voteRefused hle hcore | voteGranted hle _ _ hcore =>
    have hrole := (congrArg Core.role hcore).symm.trans hr
    rcases Core.raise_role_cases (c := s.raft.core) hle with hfollower | ⟨hterm, hsame⟩
    · cases hfollower.symm.trans hrole
    · exact Or.inl ⟨hsame.symm.trans hrole, (congrArg Core.currentTerm hcore).trans hterm⟩
  | roundFinished _ _ h => exact Or.inl ⟨h.leader, h.currentTerm⟩
  | buildRound ht hl h =>
    obtain ⟨⟨table, rfl⟩, -, -⟩ := Raft.buildRequests_eq_some h
    exact Or.inl ⟨hl, rfl⟩
  | quiet _ h =>
    exact Or.inl ⟨(congrArg Core.role h.core).symm.trans hr, congrArg Core.currentTerm h.core⟩
  | voteReturned | compareTerm => exact Or.inl ⟨by simpa [silent] using hr, by simp [silent]⟩
  | elected => exact Or.inr ⟨rfl, List.mem_singleton_self _⟩
  | startElection | stepDown | defeated => cases hr
  | appendStale | voteStale | proposed | notLeader | noElection | requestTerm | requestIndex
  | requestSend | initLeader | roundDropped | applyNext => exact Or.inl ⟨hr, rfl⟩

/-- The requests of a round are built in one step, by the leader, and kept until it returns. -/
theorem Move.requests (h : Move cfg s i eff) : eff.node.thread.requests = [] ∨
    eff.node.thread.requests = s.thread.requests ∨ ∃ raft callId,
      s.raft.buildRequests cfg.id callId cfg.peers = some (raft, eff.node.thread.requests) := by
  cases h with
  | buildRound _ _ h => exact Or.inr (Or.inr ⟨_, _, h⟩)
  | quiet _ h =>
    rcases h.thread with ht | ⟨hidle, -⟩
    · exact Or.inr (Or.inl (congrArg Thread.requests ht))
    · exact Or.inl (requests_of_isIdle hidle)
  | startElection => exact Or.inl (requests_of_inElection (inElection_electionLoop _ _))
  | voteReturned => exact Or.inl (requests_of_inElection (inElection_voteReturned ..))
  | compareTerm => exact Or.inl (requests_of_inElection (inElection_compareTerm ..))
  | roundDropped | roundYielded | roundFinished | applyNext => exact Or.inl (by simp)
  | appendStale | appendRefused | appendStored | voteStale | voteRefused | voteGranted | proposed
  | notLeader => exact Or.inr (Or.inl rfl)
  | _ => exact Or.inl rfl

theorem Move.roundInv (h : Move cfg s i eff) (hinv : s.RoundInv cfg) : eff.node.RoundInv cfg where
  callees := by
    rcases h.requests with hnil | hsame | ⟨raft, callId, hb⟩
    · rw [hnil]
      exact List.nil_sublist _
    · rw [hsame]
      exact hinv.callees
    · rw [(Raft.buildRequests_eq_some hb).2.1]
  own hr req hreq := by
    rcases h.of_leader hr with ⟨hl, ht⟩ | ⟨hinit, -⟩
    · rw [ht]
      rcases h.requests with hnil | hsame | ⟨raft, callId, hb⟩
      · rw [hnil] at hreq
        cases hreq
      · rw [hsame] at hreq
        exact hinv.own hl req hreq
      · obtain ⟨hbuilt, -⟩ := (Raft.buildRequests_eq_some hb).2.2 req hreq
        exact ⟨hbuilt.term, hbuilt.prevIdx, hbuilt.entriesSent⟩
    · rw [hinit] at hreq
      cases hreq

/-- Only the leader's round commits. -/
theorem Move.of_committed (h : Move cfg s i eff) {v : NodeId} {t N : Nat} {g : List Entry}
    (hmem : .committed v t N g ∈ eff.events) :
    v = cfg.id ∧ s.raft.role = .leader ∧ t = s.raft.currentTerm ∧ g = s.raft.log ∧
      N ≤ g.length := by
  cases h with
  | @roundFinished _ _ _ _ _ raft _ _ _ h =>
    unfold commitEvents at hmem
    split at hmem
    · cases hmem
    · next hne =>
      rw [List.mem_singleton, Event.committed.injEq] at hmem
      obtain ⟨rfl, rfl, rfl, rfl⟩ := hmem
      obtain ⟨-, hle, -, -⟩ := h.commitIndex.resolve_left hne
      exact ⟨rfl, h.leader, h.currentTerm, h.log, by rw [h.log]; exact hle⟩
  | appendStored | voteGranted | proposed | startElection | elected | applyNext => simp at hmem
  | _ => cases hmem

/-- An answer that is sent is given in the same step: the request was stale, or it was accepted. -/
theorem Move.of_appendReply (h : Move cfg s i eff) {call : Call AppendEntriesRequest}
    {reply : AppendEntriesReply} (hmem : .appendReply call reply ∈ eff.sends) :
    (∃ timeout, i.action = .appendEntries call timeout) ∧
      ((reply.success = false ∧ call.request.term < reply.term) ∨
        (s.raft.currentTerm ≤ call.request.term ∧ (reply.success = true →
          .accepted cfg.id call.request.term
            (call.request.prevLogIndex + call.request.entries.length) ∈ eff.events))) := by
  cases h with
  | appendStale hlt =>
    rw [List.mem_singleton, Packet.appendReply.injEq] at hmem
    obtain ⟨rfl, rfl⟩ := hmem
    exact ⟨⟨_, rfl⟩, Or.inl ⟨rfl, hlt⟩⟩
  | appendRefused hle =>
    rw [List.mem_singleton, Packet.appendReply.injEq] at hmem
    obtain ⟨rfl, rfl⟩ := hmem
    exact ⟨⟨_, rfl⟩, Or.inr ⟨hle, by simp⟩⟩
  | appendStored h =>
    rw [List.mem_singleton, Packet.appendReply.injEq] at hmem
    obtain ⟨rfl, -⟩ := hmem
    exact ⟨⟨_, rfl⟩, Or.inr ⟨h.term, fun _ => List.mem_cons_self⟩⟩
  | voteStale | voteRefused | voteGranted | buildRound => simp at hmem
  | requestSend => simp [Node.requestSend] at hmem
  | _ => cases hmem

end Node

variable {m : Membership} {ts : List (Transition Cluster ClusterInput Event)} {c : Cluster}

theorem roundInv_of_run (h : (clusterSystem m).Run ts c) (n : NodeId) :
    (c.nodes n).RoundInv (m.config n) :=
  forall_node_of_run (P := fun n s => s.RoundInv (m.config n))
    (fun _ _ => ⟨List.nil_sublist _, fun hr => by cases hr⟩)
    (fun _ _ _ _ hinv hmove => hmove.roundInv hinv) h n

/-- A leader was elected in its term. -/
theorem elected_of_leader (h : (clusterSystem m).Run ts c) {n : NodeId}
    (hr : (c.nodes n).raft.role = .leader) :
    ∃ g, .elected n (c.nodes n).raft.currentTerm g ∈ events ts := by
  induction h with
  | init hi =>
    obtain ⟨timeouts, rfl⟩ := hi
    cases hr
  | @step ts c c' i es _ hs ih =>
    obtain ⟨-, -, eff, hmove, rfl, rfl⟩ := clusterSystem_move hs
    rw [events_append, events_singleton]
    by_cases hn : n = i.node
    · subst hn
      rw [Cluster.advance_nodes_self] at hr ⊢
      rcases hmove.of_leader hr with ⟨hl, ht⟩ | ⟨-, hmem⟩
      · obtain ⟨g, hg⟩ := ih hl
        exact ⟨g, by rw [ht]; exact List.mem_append_left _ hg⟩
      · exact ⟨_, List.mem_append_right _ hmem⟩
    · rw [Cluster.advance_nodes_ne hn] at hr ⊢
      obtain ⟨g, hg⟩ := ih hr
      exact ⟨g, List.mem_append_left _ hg⟩

/-- Whoever commits in a term was elected in it. -/
theorem elected_of_committed (h : (clusterSystem m).Run ts c) {n : NodeId} {t N : Nat}
    {g : List Entry} (hc : .committed n t N g ∈ events ts) :
    ∃ g', .elected n t g' ∈ events ts := by
  induction h with
  | init => cases hc
  | @step ts c c' i es hr hs ih =>
    obtain ⟨-, -, eff, hmove, rfl, rfl⟩ := clusterSystem_move hs
    rw [events_append, events_singleton] at hc ⊢
    rcases List.mem_append.mp hc with hc | hc
    · obtain ⟨g', hg'⟩ := ih hc
      exact ⟨g', List.mem_append_left _ hg'⟩
    · obtain ⟨rfl, hl, rfl, -, -⟩ := hmove.of_committed hc
      obtain ⟨g', hg'⟩ := elected_of_leader hr hl
      exact ⟨g', List.mem_append_left _ hg'⟩

end Rafty
