import Rafty.Safety.Alone
import Rafty.Safety.Election

/-!
# An election among the members of a majority

A candidate whose term is above those of a majority, and whose log is as up to date as theirs, can
win its election with their votes alone: it asks its peers one after the other, the calls to the
rest fail, and the loop ends at the latest when everyone was asked (`Campaigning.wins`).
-/

namespace Rafty

open Infra

namespace Node

/-- A node that handles the requests of a leader of `term`. -/
structure Follows (term : Nat) (s : Node) : Prop where
  term_le : s.raft.currentTerm ≤ term
  commit_le : s.raft.commitIndex ≤ s.raft.lastApplied

/-- A node that votes for a candidate of `term` whose log is `log`. -/
structure VotesFor (term : Nat) (log : List Entry) (s : Node) : Prop where
  term_lt : s.raft.currentTerm < term
  upToDate : upToDate s.raft.log log.length (lastLogTerm log) = true
  commit_le : s.raft.commitIndex ≤ s.raft.lastApplied

end Node

/-- A node that has not reached the term of the request votes for a log up to date with its own. -/
theorem Raft.handleRequestVote_grants {s : Raft} {request : RequestVoteReq}
    (hlt : s.currentTerm < request.term)
    (hup : upToDate s.log request.lastLogIndex request.lastLogTerm = true)
    (timeout : ElectionTimeout) :
    s.handleRequestVote request timeout =
      ({ s with
          currentTerm := request.term, role := .follower, votedFor := some request.candidateId,
          electionTimeout := timeout },
        { term := request.term, voteGranted := true }) := by
  have hraise : s.raiseTerm request timeout =
      { s with currentTerm := request.term, votedFor := none, role := .follower,
               electionTimeout := timeout } := if_pos hlt
  rw [handleRequestVote, if_neg (Nat.not_lt.mpr hlt.le), hraise]
  simp [mayVote, hup, resetElectionTimer]

variable {m : Membership} {side : List NodeId} {c : Cluster} {n k : NodeId} {term : Nat}
  {log : List Entry}

/-- A step of a member of the side, and what is known of the cluster after it. -/
theorem canReach_step {R : List Event → Cluster → Prop} (hk : k ∈ m.ids) (hside : k ∈ side)
    (h : ∀ now, ∃ now' ≥ now, ∃ action eff, c.offers k action = true ∧
      (c.nodes k).step (m.config k) ⟨now', action⟩ = some eff ∧
      ∀ c', c'.nodes k = eff.node → (∀ j, j ≠ k → c'.nodes j = c.nodes j) →
        (∀ p, p ∈ eff.sends ∨ p ∈ Cluster.remaining c.net action → p ∈ c'.net) →
        (sideSystem m side).CanReach ClusterInput.now c' fun es c'' => R (eff.events ++ es) c'') :
    (sideSystem m side).CanReach ClusterInput.now c R := by
  refine .step fun now => ?_
  obtain ⟨now', hle, action, eff, ho, hs, hnext⟩ := h now
  refine ⟨⟨k, now', action⟩, _, _, hle, sideSystem_step hk hside ho hs, ?_⟩
  refine hnext _ Cluster.advance_nodes_self (fun _ hj => Cluster.advance_nodes_ne hj) ?_
  exact fun p hp => List.mem_append.mpr hp.symm

/-- A step for which the time does not matter. -/
theorem canReach_act {R : List Event → Cluster → Prop} (action : Action) {eff : Effect}
    (hk : k ∈ m.ids) (hside : k ∈ side) (ho : c.offers k action = true)
    (h : ∀ now, (c.nodes k).step (m.config k) ⟨now, action⟩ = some eff)
    (hnext : ∀ c', c'.nodes k = eff.node → (∀ j, j ≠ k → c'.nodes j = c.nodes j) →
      (∀ p, p ∈ eff.sends ∨ p ∈ Cluster.remaining c.net action → p ∈ c'.net) →
      (sideSystem m side).CanReach ClusterInput.now c' fun es c'' => R (eff.events ++ es) c'') :
    (sideSystem m side).CanReach ClusterInput.now c R :=
  canReach_step hk hside fun now => ⟨now, le_rfl, action, eff, ho, h now, hnext⟩

/-! ## One vote -/

section Vote

variable {raft : Raft} {votes : Nat} {todo : List NodeId} (hn : n ∈ m.ids) (hside : n ∈ side)

include hn hside

/-- The reply is there, and counts. -/
theorem reach_of_voteReply {call : Call RequestVoteReq}
    (hc : c.nodes n = ⟨raft, .awaitVote votes call todo⟩)
    (hnet : .voteReply call { term := raft.currentTerm, voteGranted := true } ∈ c.net) :
    (sideSystem m side).CanReach ClusterInput.now c fun _ c' =>
      c'.nodes n = ⟨raft, afterVote (m.config n) (votes + 1) todo⟩ ∧
        ∀ j, j ≠ n → c'.nodes j = c.nodes j := by
  have ho : c.offers n (.voteReturned (some { term := raft.currentTerm, voteGranted := true })) =
      true := by
    simpa [Cluster.offers, hc] using hnet
  refine canReach_act _ hn hside ho (fun _ => by rw [hc]; rfl) fun c₁ hc₁ hothers₁ _ => ?_
  refine canReach_act .compareTerm hn hside rfl (fun _ => by rw [hc₁]; rfl)
    fun c₂ hc₂ hothers₂ _ => ?_
  refine .here ⟨?_, fun j hj => (hothers₂ j hj).trans (hothers₁ j hj)⟩
  rw [hc₂]
  simp [Node.silent, Node.compareTerm]

/-- The request is there, and the peer has the vote to give. -/
theorem reach_of_voteRequest (hk : k ∈ m.ids) (hkside : k ∈ side) (hne : k ≠ n)
    {call : Call RequestVoteReq} (hcallee : call.callee = k)
    (hc : c.nodes n = ⟨raft, .awaitVote votes call todo⟩) (hnet : .voteRequest call ∈ c.net)
    (hterm : call.request.term = raft.currentTerm)
    (hindex : call.request.lastLogIndex = raft.log.length)
    (hlast : call.request.lastLogTerm = lastLogTerm raft.log)
    (hvotes : (c.nodes k).VotesFor raft.currentTerm raft.log) :
    (sideSystem m side).CanReach ClusterInput.now c fun _ c' =>
      c'.nodes n = ⟨raft, afterVote (m.config n) (votes + 1) todo⟩ ∧
        (c'.nodes k).Follows raft.currentTerm ∧
        ∀ j, j ≠ n → j ≠ k → c'.nodes j = c.nodes j := by
  have ho : c.offers k (.requestVote call shortTimeout) = true := by
    simp [Cluster.offers, hcallee, hnet]
  have hgrant := Raft.handleRequestVote_grants (hterm ▸ hvotes.term_lt)
    (by rw [hindex, hlast]; exact hvotes.upToDate) shortTimeout
  refine canReach_act _ hk hkside ho (fun _ => rfl) fun c₁ hc₁ hothers₁ hnet₁ => ?_
  simp only [Node.requestVote, hgrant] at hc₁ hnet₁
  have hreply := hnet₁ _ (Or.inl (List.mem_singleton_self _))
  rw [hterm] at hreply
  refine (reach_of_voteReply hn hside ((hothers₁ n hne.symm).trans hc) hreply).mono ?_
  rintro es c₂ ⟨hc₂, hothers₂⟩
  refine ⟨hc₂, ?_, fun j hjn hjk => (hothers₂ j hjn).trans (hothers₁ j hjk)⟩
  rw [hothers₂ k hne, hc₁]
  exact ⟨hterm.le, hvotes.commit_le⟩

/-- **One vote.** The candidate asks a peer that has the vote to give. -/
theorem reach_vote (hk : k ∈ m.ids) (hkside : k ∈ side) (hne : k ≠ n)
    (hc : c.nodes n = ⟨raft, .requestTerm votes k todo⟩)
    (hvotes : (c.nodes k).VotesFor raft.currentTerm raft.log) :
    (sideSystem m side).CanReach ClusterInput.now c fun _ c' =>
      c'.nodes n = ⟨raft, afterVote (m.config n) (votes + 1) todo⟩ ∧
        (c'.nodes k).Follows raft.currentTerm ∧
        ∀ j, j ≠ n → j ≠ k → c'.nodes j = c.nodes j := by
  refine canReach_act .requestTerm hn hside rfl (fun _ => by rw [hc]; rfl)
    fun c₁ hc₁ hothers₁ _ => ?_
  refine canReach_act .requestIndex hn hside rfl (fun _ => by rw [hc₁]; rfl)
    fun c₂ hc₂ hothers₂ _ => ?_
  refine canReach_act (.requestSend c₂.nextCall) hn hside (by simp [Cluster.offers])
    (fun _ => by rw [hc₂]; rfl) fun c₃ hc₃ hothers₃ hnet₃ => ?_
  have hsame : ∀ j, j ≠ n → c₃.nodes j = c.nodes j := fun j hj =>
    (hothers₃ j hj).trans ((hothers₂ j hj).trans (hothers₁ j hj))
  refine (reach_of_voteRequest hn hside hk hkside hne rfl hc₃
    (hnet₃ _ (Or.inl (List.mem_singleton_self _))) rfl rfl rfl
    ((hsame k hne).symm ▸ hvotes)).mono ?_
  rintro es c₄ ⟨hc₄, hfollows, hothers₄⟩
  exact ⟨hc₄, hfollows, fun j hjn hjk => (hothers₄ j hjn hjk).trans (hsame j hjn)⟩

end Vote

/-! ## The loop over the peers -/

theorem Membership.ne_of_mem_peers (m : Membership) (hn : n ∈ m.ids) (hk : k ∈ m.peers n) :
    k ≠ n := by
  rintro rfl
  exact (List.nodup_cons.mp (m.cons_peers_nodup hn)).1 hk

/-- The peers of a member that belong to a majority with it are enough for its election. -/
theorem Membership.majority_le (m : Membership) (hmaj : Majority m.ids side) (hn : n ∈ side) :
    (m.config n).majority ≤ 1 + ((m.peers n).filter (· ∈ side)).length := by
  have hids := hmaj.subset n hn
  have hsub : side ⊆ (n :: m.peers n).filter (· ∈ side) := by
    intro v hv
    rw [List.mem_filter]
    exact ⟨(m.peers_perm n hids).mem_iff.mpr (hmaj.subset v hv), decide_eq_true hv⟩
  have hlen := (hmaj.nodup.subperm hsub).length_le
  rw [List.filter_cons_of_pos (by simpa using hn), List.length_cons] at hlen
  have hhalf := hmaj.half
  rw [m.majority_eq hids]
  omega

/-- What is known of a candidate depends on the thread only if the node leads. -/
theorem Node.Steady.of_thread {cfg : Config} {bound : Nat} {s : Node} (h : s.Steady cfg log bound)
    (hr : s.raft.role ≠ .leader) (thread : Thread) :
    (⟨s.raft, thread⟩ : Node).Steady cfg log bound :=
  { h with inv := ⟨fun _ => hr, fun hl => absurd hl hr, fun hl => absurd hl hr⟩ }

/-- **The loop over the peers**: the members of the side vote, the calls to the others fail. -/
theorem reach_decide (hn : n ∈ m.ids) (hside : n ∈ side) {s : Node}
    (hst : s.Steady (m.config n) log term) (hr : s.raft.role ≠ .leader)
    (hterm : s.raft.currentTerm = term) : ∀ {todo : List NodeId} {votes : Nat} {c : Cluster},
    c.nodes n = ⟨s.raft, electionLoop votes todo⟩ → todo ⊆ m.peers n → todo.Nodup →
    (m.config n).majority ≤ votes + (todo.filter (· ∈ side)).length →
    (∀ k ∈ side, k ∈ todo → (c.nodes k).VotesFor term log) →
    (∀ k ∈ side, k ≠ n → (c.nodes k).Follows term) →
    (sideSystem m side).CanReach ClusterInput.now c fun _ c' =>
      (∃ v, (m.config n).majority ≤ v ∧ c'.nodes n = ⟨s.raft, .decide v⟩) ∧
        ∀ k ∈ side, k ≠ n → (c'.nodes k).Follows term
  | [], votes, c, hc, _, _, hlen, _, hfollows => .here ⟨⟨votes, by simpa using hlen, hc⟩, hfollows⟩
  | k :: todo, votes, c, hc, hsub, hnd, hlen, hvotes, hfollows => by
    have hpeer : k ∈ m.peers n := hsub List.mem_cons_self
    have hk : k ∈ m.ids := (m.peers_perm n hn).subset (List.mem_cons_of_mem _ hpeer)
    have hne : k ≠ n := m.ne_of_mem_peers hn hpeer
    rw [List.cons_subset] at hsub
    rw [List.nodup_cons] at hnd
    by_cases hkside : k ∈ side
    · have hvote := hvotes k hkside List.mem_cons_self
      rw [← hterm, ← hst.log_eq] at hvote
      refine (reach_vote hn hside hk hkside hne hc hvote).bind ?_
      rintro _ c₁ ⟨hc₁, hk₁, hothers⟩
      have hfollows₁ : ∀ j ∈ side, j ≠ n → (c₁.nodes j).Follows term := by
        intro j hj hjn
        by_cases hjk : j = k
        · exact hjk ▸ hterm ▸ hk₁
        · exact (hothers j hjn hjk).symm ▸ hfollows j hj hjn
      unfold afterVote at hc₁
      split at hc₁
      · next hv => exact .here ⟨⟨_, hv, hc₁⟩, hfollows₁⟩
      · rw [List.filter_cons_of_pos (by simpa using hkside), List.length_cons] at hlen
        refine reach_decide hn hside hst hr hterm hc₁ hsub.2 hnd.2 (by omega) ?_ hfollows₁
        intro j hj hjt
        have hjk : j ≠ k := fun he => hnd.1 (he ▸ hjt)
        have hjn : j ≠ n := m.ne_of_mem_peers hn (hsub.2 hjt)
        exact (hothers j hjn hjk).symm ▸ hvotes j hj (List.mem_cons_of_mem _ hjt)
    · rw [List.filter_cons_of_neg (by simpa using hkside)] at hlen
      have hfail : ReachesAlone m side n ⟨s.raft, .requestTerm votes k todo⟩ fun s' =>
          s' = ⟨s.raft, electionLoop votes todo⟩ := by
        refine (hst.of_thread hr _).reach_requestTerm hn hside rfl ?_
        rintro ⟨raft, thread⟩ - hraft ht
        exact .here (by rw [show raft = s.raft from hraft, show thread = _ from ht])
      refine (hfail c hc).bind ?_
      rintro _ c₁ ⟨hothers, hc₁⟩
      refine reach_decide hn hside hst hr hterm hc₁ hsub.2 hnd.2 hlen ?_ ?_
      · intro j hj hjt
        have hjn : j ≠ n := m.ne_of_mem_peers hn (hsub.2 hjt)
        exact (hothers j hjn).symm ▸ hvotes j hj (List.mem_cons_of_mem _ hjt)
      · intro j hj hjn
        exact (hothers j hjn).symm ▸ hfollows j hj hjn

/-- **The election is won**, with the votes of the side alone. -/
theorem Node.Campaigning.wins (hmaj : Majority m.ids side) (hside : n ∈ side)
    (h : (c.nodes n).Campaigning (m.config n) log term)
    (hvotes : ∀ k ∈ side, k ≠ n → (c.nodes k).VotesFor term log) :
    (sideSystem m side).CanReach ClusterInput.now c fun es c' => .elected n term log ∈ es ∧
      c'.nodes n = ⟨{ (c.nodes n).raft with role := .leader }, .initLeader⟩ ∧
      ∀ k ∈ side, k ≠ n → (c'.nodes k).Follows term := by
  have hn := hmaj.subset n hside
  have hr : (c.nodes n).raft.role ≠ .leader := by rw [h.role]; nofun
  have hc : c.nodes n = ⟨(c.nodes n).raft, electionLoop 1 (m.peers n)⟩ := by
    rw [show electionLoop 1 (m.peers n) = (c.nodes n).thread from h.thread.symm]
  refine (reach_decide hn hside h.toSteady hr h.term_eq hc (List.Subset.refl _)
    (List.nodup_cons.mp (m.cons_peers_nodup hn)).2 (m.majority_le hmaj hside) ?_ ?_).bind ?_
  · exact fun k hk hpeer => hvotes k hk (m.ne_of_mem_peers hn hpeer)
  · exact fun k hk hne => ⟨(hvotes k hk hne).term_lt.le, (hvotes k hk hne).commit_le⟩
  rintro es c₁ ⟨⟨v, hv, hc₁⟩, hfollows⟩
  have hs : ∀ now, (c₁.nodes n).step (m.config n) ⟨now, .decide shortTimeout⟩ = some
      { node := ⟨{ (c.nodes n).raft with role := .leader }, .initLeader⟩
        events := [.elected n term log]
        sends := [] } := by
    intro now
    have hwin : (c.nodes n).raft.role = .candidate ∧ v ≥ (m.config n).majority := ⟨h.role, hv⟩
    rw [hc₁]
    simp only [Node.step, Node.decide, if_pos hwin, h.term_eq, h.log_eq]
    rfl
  refine canReach_act _ hn hside rfl hs fun c₂ hc₂ hothers _ => .here ?_
  refine ⟨by simp, hc₂, fun k hk hne => ?_⟩
  rw [hothers k hne]
  exact hfollows k hk hne

end Rafty
