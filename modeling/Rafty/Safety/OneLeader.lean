import Rafty.Safety.Election
import Rafty.Safety.Votes

/-!
# One leader per term

A run in which nobody votes twice in a term, for different candidates, has at most one leader in
each term.

* `keepsBallot` — a step that keeps the term and the vote of the node that takes it, which is what
  `Rafty/Safety/Votes.lean` asks for. `KeepsBallots` asks for less: a vote may be taken back, as by
  a leader that gives up for want of a majority, if the node does not vote again in the same term.
* `term_le_of_votedFor`, `VoteRecord` — a vote a node has given binds it: its term is at least that
  of the vote, and while it is in that term `voted_for_` names the candidate, unless the vote was
  taken back. So nobody votes for two candidates in a term.
* Two quorums of one term share a voter, so they elect the same node: `one_leader_per_term`.
-/

namespace Rafty

open Infra

/-- The step handles a `RequestVote` that term, vote and log of the node let it grant. -/
def Node.mayGrant (s : Node) : Action → Bool
  | .requestVote call _ => s.raft.currentTerm ≤ call.request.term ∧
      (s.raft.core.voteIn call.request.term = none ∨
        s.raft.core.voteIn call.request.term = some call.request.candidateId) ∧
      upToDate s.raft.log call.request.lastLogIndex call.request.lastLogTerm = true
  | _ => false

/-- The step keeps the vote of the node that takes it. -/
def Cluster.keepsVote (m : Membership) (c : Cluster) (i : ClusterInput) : Bool :=
  (c.nodes i.node).keepsVote (m.config i.node) ⟨i.now, i.action⟩

/-- The step keeps the term and the vote of the node that takes it. -/
def Cluster.keepsBallot (m : Membership) (c : Cluster) (i : ClusterInput) : Bool :=
  (c.nodes i.node).keepsTerm i.action && c.keepsVote m i

/--
In `u` a node takes back the vote of the term it is in, and in `t` it may vote in this term for
somebody else.
-/
def votesAgain (m : Membership) (u t : Transition Cluster ClusterInput Event) : Bool :=
  match t.input.action with
  | .requestVote call _ => u.input.node = t.input.node ∧ u.before.keepsVote m u.input = false ∧
      call.request.term = (u.before.nodes u.input.node).raft.currentTerm ∧
      some call.request.candidateId ≠ (u.before.nodes u.input.node).raft.votedFor ∧
      (t.before.nodes t.input.node).mayGrant t.input.action
  | _ => false

/-- The runs in which no term goes back and nobody votes again in a term. -/
structure KeepsBallots (m : Membership) (ts : List (Transition Cluster ClusterInput Event)) :
    Prop where
  keepsTerm : ∀ t ∈ ts, (t.before.nodes t.input.node).keepsTerm t.input.action = true
  votesOnce : ts.Pairwise fun u t => votesAgain m u t = false

theorem KeepsBallots.init {m : Membership} {ts us : List (Transition Cluster ClusterInput Event)}
    (h : KeepsBallots m (ts ++ us)) : KeepsBallots m ts where
  keepsTerm t ht := h.keepsTerm t (List.mem_append_left _ ht)
  votesOnce := (List.pairwise_append.mp h.votesOnce).1

/-- A run whose steps all keep the term and the vote of their node is one of them. -/
theorem keepsBallots_of_forall {m : Membership}
    {ts : List (Transition Cluster ClusterInput Event)}
    (h : ∀ t ∈ ts, t.before.keepsBallot m t.input = true) : KeepsBallots m ts where
  keepsTerm t ht := (Bool.and_eq_true_iff.mp (h t ht)).1
  votesOnce := by
    refine List.pairwise_of_forall_mem_list fun u hu t _ => ?_
    have hkeeps := (Bool.and_eq_true_iff.mp (h u hu)).2
    unfold votesAgain
    split
    · exact decide_eq_false fun hagain => by rw [hkeeps] at hagain; cases hagain.2.1
    · rfl

/-- Node `v` has voted for `candidate` in `term`, by a grant or by starting an election. -/
def VotedFor (es : List Event) (v : NodeId) (term : Nat) (candidate : NodeId) : Prop :=
  (∃ request log, .granted v request log ∈ es ∧ request.term = term ∧
    request.candidateId = candidate) ∨
  (∃ log, .started v term log ∈ es) ∧ candidate = v

theorem votedFor_append {es es' : List Event} {v : NodeId} {term : Nat} {candidate : NodeId} :
    VotedFor (es ++ es') v term candidate ↔
      VotedFor es v term candidate ∨ VotedFor es' v term candidate := by
  simp only [VotedFor, List.mem_append]
  grind

section Step

variable {cfg : Config} {s : Node} {i : Input} {eff : Effect}

/-- A vote given in a step is in the term after it, and `voted_for_` names the candidate. -/
theorem Node.Move.of_votedFor (h : Move cfg s i eff) {v : NodeId} {term : Nat} {candidate : NodeId}
    (hv : VotedFor eff.events v term candidate) :
    v = cfg.id ∧ eff.node.raft.currentTerm = term ∧ eff.node.raft.votedFor = some candidate := by
  cases h with
  | voteGranted _ _ _ hcore =>
    simp only [VotedFor, List.mem_singleton, Event.granted.injEq, reduceCtorEq, exists_false,
      false_and, or_false] at hv
    obtain ⟨request, log, ⟨rfl, rfl, rfl⟩, rfl, rfl⟩ := hv
    exact ⟨rfl, congrArg Core.currentTerm hcore, congrArg Core.votedFor hcore⟩
  | startElection =>
    simp only [VotedFor, List.mem_singleton, Event.started.injEq, reduceCtorEq, false_and,
      exists_false, false_or] at hv
    obtain ⟨⟨log, rfl, rfl, rfl⟩, rfl⟩ := hv
    exact ⟨rfl, rfl, rfl⟩
  | roundFinished =>
    unfold commitEvents at hv
    split at hv <;> simp [VotedFor] at hv
  | _ => simp [VotedFor, silent, Node.requestSend] at hv

/-- The two ways to vote, seen from the state before. -/
theorem Node.Move.vote_cases (h : Move cfg s i eff) {v : NodeId} {term : Nat} {candidate : NodeId}
    (hv : VotedFor eff.events v term candidate) :
    (∃ call timeout, i.action = .requestVote call timeout ∧ call.request.term = term ∧
      call.request.candidateId = candidate ∧ s.mayGrant i.action = true) ∨
    ∃ timeout, i.action = .startElection timeout ∧ s.thread = .startElection ∧
      s.raft.receivedHeartbeat = false ∧ term = succ64 s.raft.currentTerm := by
  cases h with
  | voteGranted hle hfree hup =>
    simp only [VotedFor, List.mem_singleton, Event.granted.injEq, reduceCtorEq, exists_false,
      false_and, or_false] at hv
    obtain ⟨request, log, ⟨rfl, rfl, rfl⟩, rfl, rfl⟩ := hv
    exact Or.inl ⟨_, _, rfl, rfl, rfl, decide_eq_true ⟨hle, hfree, hup⟩⟩
  | startElection ht hb =>
    simp only [VotedFor, List.mem_singleton, Event.started.injEq, reduceCtorEq, false_and,
      exists_false, false_or] at hv
    obtain ⟨⟨log, rfl, rfl, rfl⟩, rfl⟩ := hv
    exact Or.inr ⟨_, rfl, ht, hb, rfl⟩
  | roundFinished =>
    unfold commitEvents at hv
    split at hv <;> simp [VotedFor] at hv
  | _ => simp [VotedFor, silent, Node.requestSend] at hv

end Step

/-! ## The record of votes -/

variable {m : Membership} {ts : List (Transition Cluster ClusterInput Event)} {c : Cluster}

/-- If terms do not go back, a node stays in the term of its last vote or moves beyond it. -/
theorem term_le_of_votedFor (h : (clusterSystem m).Run ts c)
    (hk : ∀ t ∈ ts, (t.before.nodes t.input.node).keepsTerm t.input.action = true) :
    ∀ {v term candidate}, VotedFor (events ts) v term candidate →
      term ≤ (c.nodes v).raft.currentTerm := by
  induction h with
  | init => simp [VotedFor]
  | @step ts c c' i es hr hs ih =>
    rw [List.forall_mem_append, List.forall_mem_singleton] at hk
    obtain ⟨-, -, eff, hmove, rfl, rfl⟩ := clusterSystem_move hs
    intro v term candidate hv
    rw [events_append, events_singleton, votedFor_append] at hv
    rcases hv with hv | hv
    · have hle := ih hk.1 hv
      by_cases hne : v = i.node
      · subst hne
        rw [Cluster.advance_nodes_self]
        exact hle.trans (hmove.currentTerm_le_iff.mpr hk.2)
      · rw [Cluster.advance_nodes_ne hne]
        exact hle
    · obtain ⟨rfl, hterm, -⟩ := hmove.of_votedFor hv
      rw [show (m.config i.node).id = i.node from rfl, Cluster.advance_nodes_self]
      exact hterm.ge

/-- Node `v` has taken back a vote for `candidate` while it was in `term`. -/
def TakenBack (m : Membership) (ts : List (Transition Cluster ClusterInput Event)) (v : NodeId)
    (term : Nat) (candidate : NodeId) : Prop :=
  ∃ u ∈ ts, u.input.node = v ∧ u.before.keepsVote m u.input = false ∧
    (u.before.nodes v).raft.currentTerm = term ∧ (u.before.nodes v).raft.votedFor = some candidate

/--
The votes given so far bind the nodes, except for those taken back, and nobody has voted for two
candidates in a term.
-/
structure VoteRecord (m : Membership) (ts : List (Transition Cluster ClusterInput Event))
    (c : Cluster) : Prop where
  votedFor : ∀ {v term candidate}, VotedFor (events ts) v term candidate →
    (c.nodes v).raft.currentTerm = term →
    (c.nodes v).raft.votedFor = some candidate ∨ TakenBack m ts v term candidate
  unique : ∀ {v term candidate candidate'}, VotedFor (events ts) v term candidate →
    VotedFor (events ts) v term candidate' → candidate = candidate'

theorem votedSelf_of_clusterRun (h : (clusterSystem m).Run ts c) (n : NodeId) :
    (c.nodes n).VotedSelf (m.config n) :=
  forall_node_of_run (P := fun n s => s.VotedSelf (m.config n)) (fun _ _ => .of_follower rfl)
    (fun _ _ _ _ hv hmove => hmove.votedSelf hv) h n

/-- An earlier vote after one more step of the node. -/
theorem VoteRecord.votedFor_step {i : ClusterInput} {eff : Effect} {es : List Event} {c' : Cluster}
    (h : VoteRecord m ts c) (hself : (c.nodes i.node).VotedSelf (m.config i.node))
    (hmove : Node.Move (m.config i.node) (c.nodes i.node) ⟨i.now, i.action⟩ eff)
    {term : Nat} {candidate : NodeId} (hv : VotedFor (events ts) i.node term candidate)
    (hle : term ≤ (c.nodes i.node).raft.currentTerm)
    (hterm : (c.nodes i.node).raft.currentTerm ≤ eff.node.raft.currentTerm)
    (heq : eff.node.raft.currentTerm = term) : eff.node.raft.votedFor = some candidate ∨
      TakenBack m (ts ++ [⟨c, i, es, c'⟩]) i.node term candidate := by
  have hcur : (c.nodes i.node).raft.currentTerm = term := by omega
  rcases h.votedFor hv hcur with hsome | ⟨u, hu, hrest⟩
  · cases hk : c.keepsVote m i with
    | true =>
      rcases (hmove.keepsVote_iff hself).mpr hk (heq.trans hcur.symm) with hsame | hnone
      · exact Or.inl (hsame.trans hsome)
      · rw [hnone] at hsome
        cases hsome
    | false =>
      exact Or.inr ⟨_, List.mem_append_right _ (List.mem_singleton_self _), rfl, hk, hcur, hsome⟩
  · exact Or.inr ⟨u, List.mem_append_left _ hu, hrest⟩

/-- **A new vote against an earlier one of the same term** is for the same candidate. -/
theorem VoteRecord.eq_of_vote {i : ClusterInput} {eff : Effect} {es : List Event} {c' : Cluster}
    (h : VoteRecord m ts c)
    (hmove : Node.Move (m.config i.node) (c.nodes i.node) ⟨i.now, i.action⟩ eff)
    (honce : ∀ u ∈ ts, votesAgain m u ⟨c, i, es, c'⟩ = false)
    (hkeeps : (c.nodes i.node).keepsTerm i.action = true) {term : Nat}
    {candidate candidate' : NodeId} (hv : VotedFor (events ts) i.node term candidate)
    (hle : term ≤ (c.nodes i.node).raft.currentTerm)
    (hv' : VotedFor eff.events i.node term candidate') : candidate = candidate' := by
  rcases hmove.vote_cases hv' with ⟨call, timeout, ha, rfl, rfl, hgrant⟩ |
    ⟨timeout, ha, hthread, -, hterm⟩
  · have ha' : i.action = .requestVote call timeout := ha
    have hgrant' : (c.nodes i.node).mayGrant i.action = true := hgrant
    have hfree := hgrant'
    rw [ha'] at hfree
    obtain ⟨hcur, hfree, -⟩ := of_decide_eq_true hfree
    rw [Core.voteIn_of_le hle] at hfree
    rcases h.votedFor hv (Nat.le_antisymm hcur hle) with hsome | ⟨u, hu, hnode, hk, hterm, hsome⟩
    · -- `voted_for_` still names the first one
      rcases hfree with hnone | hsame
      · cases hsome.symm.trans hnone
      · exact Option.some.inj (hsome.symm.trans hsame)
    · -- the vote was taken back, so it is not given to somebody else
      by_contra hne
      have hagain := honce u hu
      simp only [votesAgain, ha'] at hagain
      refine of_decide_eq_false hagain ⟨hnode, hk, ?_, ?_, ha' ▸ hgrant'⟩
      · rw [hnode, hterm]
      · rw [hnode, hsome]
        exact fun he => hne (Option.some.inj he).symm
  · -- an election is started in a term of its own
    have hlt := hmove.currentTerm_le_iff.mpr hkeeps
    obtain ⟨-, hafter, -⟩ := hmove.of_votedFor hv'
    have := Node.succ64_ne (c.nodes i.node).raft.currentTerm
    omega

/-- A step that keeps the terms and gives no second vote keeps the record. -/
theorem VoteRecord.step {i : ClusterInput} {eff : Effect} (h : VoteRecord m ts c)
    (hself : (c.nodes i.node).VotedSelf (m.config i.node))
    (hmove : Node.Move (m.config i.node) (c.nodes i.node) ⟨i.now, i.action⟩ eff)
    (hle : ∀ {v term candidate}, VotedFor (events ts) v term candidate →
      term ≤ (c.nodes v).raft.currentTerm)
    (hkeeps : (c.nodes i.node).keepsTerm i.action = true)
    (honce : ∀ u ∈ ts,
      votesAgain m u ⟨c, i, eff.events, c.advance i.node i.action eff⟩ = false) :
    VoteRecord m (ts ++ [⟨c, i, eff.events, c.advance i.node i.action eff⟩])
      (c.advance i.node i.action eff) := by
  constructor
  · intro v term candidate hv
    rw [events_append, events_singleton, votedFor_append] at hv
    by_cases hne : v = i.node
    · subst hne
      rw [Cluster.advance_nodes_self]
      intro heq
      rcases hv with hv | hv
      · exact h.votedFor_step hself hmove hv (hle hv) (hmove.currentTerm_le_iff.mpr hkeeps) heq
      · exact Or.inl (hmove.of_votedFor hv).2.2
    · rw [Cluster.advance_nodes_ne hne]
      rcases hv with hv | hv
      · exact fun heq => (h.votedFor hv heq).imp id fun ⟨u, hu, hrest⟩ =>
          ⟨u, List.mem_append_left _ hu, hrest⟩
      · exact absurd (hmove.of_votedFor hv).1 hne
  · intro v term candidate candidate' hv hv'
    rw [events_append, events_singleton, votedFor_append] at hv hv'
    rcases hv with hv | hv <;> rcases hv' with hv' | hv'
    · exact h.unique hv hv'
    · obtain rfl : v = i.node := (hmove.of_votedFor hv').1
      exact h.eq_of_vote hmove honce hkeeps hv (hle hv) hv'
    · obtain rfl : v = i.node := (hmove.of_votedFor hv).1
      exact (h.eq_of_vote hmove honce hkeeps hv' (hle hv') hv).symm
    · exact Option.some.inj ((hmove.of_votedFor hv).2.2.symm.trans (hmove.of_votedFor hv').2.2)

theorem voteRecord (h : (clusterSystem m).Run ts c) (hk : KeepsBallots m ts) :
    VoteRecord m ts c := by
  induction h with
  | init hi => exact ⟨by simp [VotedFor], by simp [VotedFor]⟩
  | @step ts c c' i es hr hs ih =>
    obtain ⟨-, -, eff, hmove, rfl, rfl⟩ := clusterSystem_move hs
    exact (ih hk.init).step (votedSelf_of_clusterRun hr _) hmove
      (term_le_of_votedFor hr hk.init.keepsTerm)
      (hk.keepsTerm _ (List.mem_append_right _ (List.mem_singleton_self _)))
      fun u hu => (List.pairwise_append.mp hk.votesOnce).2.2 u hu _ (List.mem_singleton_self _)

/-- A member of the quorum of an election has voted for the winner. -/
theorem ElectionQuorum.votedFor {es : List Event} {n v : NodeId} {t : Nat} {g : List Entry}
    {quorum : List NodeId} (h : ElectionQuorum m es n t g quorum) (hv : v ∈ quorum) :
    VotedFor es v t n := by
  by_cases hne : v = n
  · subst hne
    exact Or.inr ⟨⟨g, h.started⟩, rfl⟩
  · obtain ⟨f, hf, -⟩ := h.granted v hv hne
    exact Or.inl ⟨_, f, hf, rfl, rfl⟩

/-- A quorum of an election that is somewhere among the events. -/
theorem exists_quorum_of_elected (h : (clusterSystem m).Run ts c) {n : NodeId} {t : Nat}
    {g : List Entry} (he : .elected n t g ∈ events ts) :
    ∃ quorum, Majority m.ids quorum ∧ ∀ v ∈ quorum, VotedFor (events ts) v t n := by
  obtain ⟨before, after, hsplit⟩ := List.append_of_mem he
  obtain ⟨quorum, hq⟩ := exists_electionQuorum h hsplit
  refine ⟨quorum, hq.majority, fun v hv => ?_⟩
  rw [hsplit]
  exact votedFor_append.mpr (Or.inl (hq.votedFor hv))

theorem eq_of_elected (h : (clusterSystem m).Run ts c)
    (hk : KeepsBallots m ts) {n n' : NodeId} {t : Nat}
    {g g' : List Entry} (he : .elected n t g ∈ events ts) (he' : .elected n' t g' ∈ events ts) :
    n = n' := by
  obtain ⟨quorum, hmaj, hvoted⟩ := exists_quorum_of_elected h he
  obtain ⟨quorum', hmaj', hvoted'⟩ := exists_quorum_of_elected h he'
  obtain ⟨v, hv, hv'⟩ := hmaj.inter hmaj'
  exact (voteRecord h hk).unique (hvoted v hv) (hvoted' v hv')

/--
**Election safety**: in a run in which no term goes back and no node that has taken back its vote of
a term votes again in it, no two nodes become leader in the same term.
-/
theorem one_leader_per_term (h : (clusterSystem m).Run ts c)
    (hk : KeepsBallots m ts) {n n' : NodeId} {t : Nat}
    {g g' : List Entry} (he : .elected n t g ∈ events ts) (he' : .elected n' t g' ∈ events ts) :
    n = n' :=
  eq_of_elected h hk he he'

theorem one_leader_firstElection : ∃ ts c, (clusterSystem threeNodes).Run ts c ∧
    ts.map Transition.input = firstElection ∧
    .elected 0 1 [] ∈ events ts ∧ ∀ n g, .elected n 1 g ∈ events ts → n = 0 := by
  obtain ⟨ts, c, hr, hi, he, hall⟩ := exists_clusterRun firstElection
    (fun ts _ => .elected 0 1 [] ∈ events ts ∧
      ∀ t ∈ ts, t.before.keepsBallot threeNodes t.input = true) (by decide +kernel)
  exact ⟨ts, c, hr, hi, he, fun n g hn =>
    one_leader_per_term hr (keepsBallots_of_forall hall) hn he⟩

/--
Node 0, elected in term 1, gets no reply to its rounds, gives up the leadership after 380 ms and
clears its vote. Node 2, which has been started late and has heard nothing, starts its election of
term 1 and asks node 0.
-/
def secondElection : List ClusterInput :=
  firstElection ++
  stepsOf 0 320 [.initLeader, .buildRound 2] ++
  stepsOf 0 350 [unanswered, .loopTop, .buildRound 4] ++ stepsOf 0 380 [unanswered] ++
  stepsOf 2 400 [.loopTop] ++
  stepsOf 0 430 (nextRound 6) ++ stepsOf 0 460 [unanswered] ++
  stepsOf 0 510 (nextRound 8) ++ stepsOf 0 540 [unanswered] ++
  stepsOf 0 590 (nextRound 10) ++ stepsOf 0 620 [unanswered] ++
  stepsOf 0 670 (nextRound 12) ++ stepsOf 0 700 [unanswered] ++
  stepsOf 2 700 ([.poll, .startElection shortTimeout] ++ ask 14) ++
  stepsOf 0 710 [.requestVote ⟨14, 2, 0, ballot 1 2 []⟩ shortTimeout] ++
  stepsOf 2 720 [.voteReturned (some { term := 1, voteGranted := true }), .compareTerm,
    .decide shortTimeout]

/-- In that run nodes 0 and 2 both become leader of term 1. -/
theorem two_leaders_in_term : ∃ ts c, (clusterSystem threeNodes).Run ts c ∧
    ts.map Transition.input = secondElection ∧
    .elected 0 1 [] ∈ events ts ∧ .elected 2 1 [] ∈ events ts :=
  exists_clusterRun secondElection _ (by decide +kernel)

end Rafty
