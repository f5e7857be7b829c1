import Rafty.Infra.Reach
import Rafty.Safety.Indices
import Rafty.Safety.Running

/-!
# A node left to itself

What one node can do while nobody answers it: its calls fail, its timers run out. From wherever its
`run()` thread is, it gets back to the head of the loop, gives up a leadership for want of a
majority, and starts one election after the other, each in the next term. `Node.Steady.campaigns`
says so: unless it was killed, a node can always start an election in a term above any given one.

No step of this needs the others, so what is proved of one node here holds in a cluster that is
otherwise in any state: `ReachesAlone` is `CanReach` of the cluster with all other nodes as they
were. The clock does not go back on the way. It goes on where the thread has to wait: a call fails
at its deadline, and a timeout has to be over.
-/

namespace Rafty

open Infra

/-! ## Steps to which nobody else contributes -/

/-- Steps of the `run()` thread while every call fails. -/
def Action.isAlone (nextCall : Nat) : Action → Bool
  | .appendEntries .. | .requestVote .. | .propose _ | .kill => false
  | .requestSend callId | .buildRound callId => callId = nextCall
  | .voteReturned reply => reply.isNone
  | .roundReturned replies _ => replies.all Option.isNone
  | _ => true

/-- The network has nothing to say about such a step. -/
theorem Cluster.offers_of_isAlone {c : Cluster} {n : NodeId} {action : Action}
    (h : action.isAlone c.nextCall = true) : c.offers n action = true := by
  cases action with
  | requestSend callId | buildRound callId => simpa [offers, Action.isAlone] using h
  | voteReturned reply =>
    cases reply with
    | none => rfl
    | some reply => cases h
  | roundReturned replies timeout =>
    unfold offers
    cases (c.nodes n).thread with
    | awaitRound reqs site =>
      dsimp only
      rw [List.all_eq_true]
      rintro ⟨req, reply⟩ hmem
      have hnone := List.all_eq_true.mp h reply (List.of_mem_zip hmem).2
      cases reply with
      | none => rfl
      | some reply => cases hnone
    | _ => rfl
  | appendEntries | requestVote => cases h
  | _ => rfl

/-- The cluster when only the members in `side` take steps. -/
def sideSystem (m : Membership) (side : List NodeId) : System Cluster ClusterInput Event :=
  (clusterSystem m).restrict fun _ i => i.node ∈ side

theorem sideSystem_step {m : Membership} {side : List NodeId} {c : Cluster} {n : NodeId} {now : Nat}
    {action : Action} {eff : Effect} (hn : n ∈ m.ids) (hside : n ∈ side)
    (ho : c.offers n action = true)
    (h : (c.nodes n).step (m.config n) ⟨now, action⟩ = some eff) :
    (sideSystem m side).step c ⟨n, now, action⟩ = some (c.advance n action eff, eff.events) := by
  refine System.restrict_step.mpr ⟨decide_eq_true hside, ?_⟩
  show Cluster.step m c ⟨n, now, action⟩ = _
  rw [Cluster.step, if_pos ⟨hn, ho⟩, h, Option.map_some]

/-- The deadline of a call of `RequestVote`, from its start. -/
def voteDeadline : Nat := milliseconds 100

/-- The deadline of a call of `AppendEntries`. -/
def appendDeadline : Nat := milliseconds 30

/-- `heartbeat_timeout`, which a leader waits at most before its next round. -/
def heartbeatTimeout : Nat := milliseconds 50

/-- Node `n` in state `s` can get to where `P` holds, and no other node takes a step. -/
def ReachesAlone (m : Membership) (side : List NodeId) (n : NodeId) (s : Node)
    (P : Node → Prop) : Prop :=
  ∀ c : Cluster, c.nodes n = s → (sideSystem m side).CanReach ClusterInput.now c fun _ c' =>
    (∀ k, k ≠ n → c'.nodes k = c.nodes k) ∧ P (c'.nodes n)

namespace ReachesAlone

variable {m : Membership} {side : List NodeId} {n : NodeId} {s : Node} {P R : Node → Prop}

theorem here (h : P s) : ReachesAlone m side n s P :=
  fun _ hc => .here ⟨fun _ _ => rfl, hc ▸ h⟩

theorem bind (h : ReachesAlone m side n s P)
    (hnext : ∀ s', P s' → ReachesAlone m side n s' R) : ReachesAlone m side n s R := by
  intro c hc
  refine (h c hc).bind ?_
  rintro _ c' ⟨hothers, hp⟩
  refine (hnext _ hp c' rfl).mono ?_
  rintro _ c'' ⟨hothers', hr⟩
  exact ⟨fun k hk => (hothers' k hk).trans (hothers k hk), hr⟩

theorem mono (h : ReachesAlone m side n s P) (himp : ∀ s', P s' → R s') :
    ReachesAlone m side n s R :=
  h.bind fun s' hp => here (himp s' hp)

/-- One step. The id of a new call is what the cluster has next, so the step is given for all. -/
theorem step (hn : n ∈ m.ids) (hside : n ∈ side)
    (h : ∀ next now, ∃ now' ≥ now, ∃ action eff, Action.isAlone next action = true ∧
      s.step (m.config n) ⟨now', action⟩ = some eff ∧ ReachesAlone m side n eff.node P) :
    ReachesAlone m side n s P := by
  rintro c rfl
  refine .step fun now => ?_
  obtain ⟨now', hle, action, eff, halone, hstep, hnext⟩ := h c.nextCall now
  refine ⟨⟨n, now', action⟩, _, _, hle,
    sideSystem_step hn hside (Cluster.offers_of_isAlone halone) hstep, ?_⟩
  refine (hnext _ Cluster.advance_nodes_self).mono ?_
  rintro _ c' ⟨hothers, hp⟩
  exact ⟨fun k hk => (hothers k hk).trans (Cluster.advance_nodes_ne hk), hp⟩

end ReachesAlone

/-! ## What such steps leave alone -/

/-- The term that the thread may set before it is back at the head of the loop. -/
def Thread.nextTerm (term : Nat) : Thread → Nat
  | .waiting _ | .startElection => succ64 term
  | .gotReply _ _ reply _ => max term reply.term
  | .stepDown _ term' => term'
  | _ => term

namespace Node

/-- A node that runs, with the log it has and a bound on its term. -/
structure Steady (cfg : Config) (log : List Entry) (bound : Nat) (s : Node) : Prop where
  alive : s.raft.dead = false
  log_eq : s.raft.log = log
  commit_le : s.raft.commitIndex ≤ log.length
  applied : s.raft.lastApplied = s.raft.commitIndex
  term_le : s.raft.currentTerm ≤ bound
  inv : s.IndexInv cfg

variable {cfg : Config} {log : List Entry} {bound next : Nat} {s : Node} {i : Input} {eff : Effect}

theorem mem_peerResults_reply {result : PeerResult} : ∀ {reqs : List PeerReq}
    {replies : List (Option AppendEntriesReply)}, result ∈ peerResults reqs replies →
    result.reply ∈ replies
  | [], _, h => by simp [peerResults] at h
  | _ :: _, [], h => by simp [peerResults] at h
  | req :: reqs, reply :: replies, h => by
    rw [peerResults, List.zipWith_cons_cons, List.mem_cons] at h
    rcases h with rfl | h
    · exact List.mem_cons_self
    · exact List.mem_cons_of_mem _ (mem_peerResults_reply h)

/-- Alone a node raises its term when it starts an election or has a reply that tells it to. -/
theorem Move.term_of_isAlone (h : Move cfg s i eff) (ha : i.action.isAlone next = true) :
    eff.node.raft.currentTerm = s.raft.currentTerm ∨
      eff.node.raft.currentTerm = s.thread.nextTerm s.raft.currentTerm := by
  cases h with
  | startElection ht | stepDown ht => exact Or.inr (by rw [ht]; rfl)
  | @roundYielded _ replies _ _ _ _ result reply _ _ hmem hreply =>
    have hnone := List.all_eq_true.mp ha _ (mem_peerResults_reply hmem)
    rw [Option.mem_def.mp hreply] at hnone
    cases hnone
  | roundFinished _ _ h => exact Or.inl h.currentTerm
  | quiet _ h => exact Or.inl (congrArg Core.currentTerm h.core)
  | buildRound _ _ hb =>
    obtain ⟨⟨table, rfl⟩, -, -⟩ := Raft.buildRequests_eq_some hb
    exact Or.inl rfl
  | voteReturned | compareTerm => exact Or.inl (by simp [silent])
  | appendStale | appendRefused | appendStored | voteStale | voteRefused | voteGranted
  | proposed => cases ha
  | _ => exact Or.inl rfl

/-- Of the four moves that touch the log, the indices or the queue, two are left. -/
theorem Move.storage_of_isAlone (h : Move cfg s i eff) (ha : i.action.isAlone next = true) :
    s.raft.SameStorage eff.node.raft ∨
      (∃ now results toApply, s.raft.RoundFinished cfg now results eff.node.raft toApply) ∨
      ∃ result, eff.node.raft = s.raft.apply result := by
  cases h with
  | appendStale | appendRefused | appendStored | voteStale | voteRefused | voteGranted
  | proposed => cases ha
  | roundYielded _ _ _ _ _ hcore => exact Or.inl (.of_core hcore)
  | roundFinished _ _ h => exact Or.inr (Or.inl ⟨_, _, _, h⟩)
  | applyNext => exact Or.inr (Or.inr ⟨_, rfl⟩)
  | buildRound _ _ hb =>
    obtain ⟨⟨table, rfl⟩, -, -⟩ := Raft.buildRequests_eq_some hb
    exact Or.inl ⟨rfl, rfl, rfl, rfl⟩
  | quiet _ h => exact Or.inl (.of_core h.core)
  | voteReturned | compareTerm => exact Or.inl (by constructor <;> simp [silent])
  | _ => exact Or.inl ⟨rfl, rfl, rfl, rfl⟩

/-- **One step.** The log stays, and a round commits inside it. -/
theorem Steady.step (hst : s.Steady cfg log bound) (h : s.step cfg i = some eff)
    (ha : i.action.isAlone next = true) (hnext : s.thread.nextTerm s.raft.currentTerm ≤ bound) :
    eff.node.Steady cfg log bound := by
  have hmove := move_of_step h
  have hdead : eff.node.raft.dead = false := by
    rw [dead_of_step h (by rintro hk; rw [hk] at ha; cases ha), hst.alive]
  have hterm : eff.node.raft.currentTerm ≤ bound := by
    rcases hmove.term_of_isAlone ha with he | he
    · exact he ▸ hst.term_le
    · exact he ▸ hnext
  have hinv := hst.inv.step h
  have hle := hst.commit_le
  have happlied := hst.applied
  rcases hmove.storage_of_isAlone ha with h | ⟨now, results, toApply, h⟩ | ⟨result, h⟩
  · exact ⟨hdead, h.log.trans hst.log_eq, h.commitIndex ▸ hle,
      h.lastApplied.trans (happlied.trans h.commitIndex.symm), hterm, hinv⟩
  · have hcommit : s.raft.commitIndex ≤ eff.node.raft.commitIndex ∧
        eff.node.raft.commitIndex ≤ log.length := by
      rw [← hst.log_eq] at hle ⊢
      rcases h.commitIndex with he | ⟨hlt, hle', -⟩
      · exact ⟨he.ge, he ▸ hle⟩
      · exact ⟨hlt.le, hle'⟩
    refine ⟨hdead, h.log.trans hst.log_eq, hcommit.2, ?_, hterm, hinv⟩
    rw [h.lastApplied, happlied]
    exact max_eq_right hcommit.1
  · rw [h] at hdead hterm
    refine ⟨?_, ?_, ?_, ?_, ?_, hinv⟩ <;> rw [h]
    · exact hdead
    · exact hst.log_eq
    · exact hle
    · exact happlied
    · exact hterm

end Node

/-! ## Back to the head of the loop -/

namespace Node

/-- At the head of `while (!is_dead())`. -/
structure AtTop (cfg : Config) (log : List Entry) (bound : Nat) (s : Node) : Prop
    extends Steady cfg log bound s where
  thread : s.thread = .loopTop

section

variable {m : Membership} {side : List NodeId} {n : NodeId} (hn : n ∈ m.ids) (hside : n ∈ side)
  {log : List Entry} {bound now : Nat} {s : Node} {P : Node → Prop}

/-- The end of a round that nobody answered. -/
theorem Steady.step_unanswered (hst : s.Steady (m.config n) log bound) {reqs : List PeerReq}
    {site : CallSite} (ht : s.thread = .awaitRound reqs site) (now : Nat) :
    ∃ raft toApply,
      s.raft.processResults (m.config n) now shortTimeout
        (peerResults reqs (reqs.map fun _ => none)) = some (raft, toApply) ∧
      s.step (m.config n) ⟨now, .roundReturned (reqs.map fun _ => none) shortTimeout⟩ =
        some ⟨⟨raft, applyResults site toApply⟩, commitEvents n s.raft raft, []⟩ := by
  obtain ⟨⟨raft, toApply⟩, hp⟩ := Option.isSome_iff_exists.mp
    (Raft.processResults_isSome (hst.log_eq ▸ hst.commit_le) (m.config n) now shortTimeout
      (peerResults reqs (reqs.map fun _ => none)))
  refine ⟨raft, toApply, hp, ?_⟩
  simp only [Node.step, ht, List.length_map, if_true, roundReturned, hp, Option.map_some]
  rfl

theorem isAlone_unanswered (next : Nat) (reqs : List PeerReq) :
    Action.isAlone next (.roundReturned (reqs.map fun _ => none) shortTimeout) = true := by
  simp [Action.isAlone]

/-- The first critical section of `send_heartbeats`: the tables of a leader are in range. -/
theorem Steady.step_buildRound (hst : s.Steady (m.config n) log bound) {site : CallSite}
    (ht : s.thread = .buildRound site) (hr : s.raft.role = .leader) (now next : Nat) :
    ∃ reqs, s.raft.buildRequests n next (m.peers n) = some (s.raft, reqs) ∧
      List.Forall₂ s.raft.RequestInRange (m.peers n) reqs ∧
      s.step (m.config n) ⟨now, .buildRound next⟩ =
        some ⟨⟨s.raft, .awaitRound reqs site⟩, [],
          reqs.map fun req => .appendRequest req.call⟩ := by
  obtain ⟨reqs, hb, hrange⟩ := Raft.buildRequests_in_range
    (hst.inv.tables hr (by rw [ht]; nofun)) n next (List.Subset.refl _)
  have hb' : s.raft.buildRequests (m.config n).id next (m.config n).peers = some (s.raft, reqs) :=
    hb
  refine ⟨reqs, hb, hrange, ?_⟩
  simp only [Node.step, ht, buildRound, if_pos hr, hb', Option.map_some]

/-- The wait is over at the latest when the timeout is. -/
theorem step_poll {start : Nat} (ht : s.thread = .waiting start)
    (hover : start + milliseconds s.raft.electionTimeout.val ≤ now) :
    s.step (m.config n) ⟨now, .poll⟩ = some (silent { s with thread := .startElection }) := by
  have hends : s.raft.dead ∨ s.raft.receivedHeartbeat ∨
      now - start ≥ milliseconds s.raft.electionTimeout.val := Or.inr (Or.inr (by omega))
  simp only [Node.step, ht, poll, if_pos hends]

include hn hside

/-- A step of a node that stays steady. -/
theorem Steady.reach (hst : s.Steady (m.config n) log bound)
    (hterm : s.thread.nextTerm s.raft.currentTerm ≤ bound)
    (h : ∀ next now, ∃ now' ≥ now, ∃ action eff, Action.isAlone next action = true ∧
      s.step (m.config n) ⟨now', action⟩ = some eff ∧
      (eff.node.Steady (m.config n) log bound → ReachesAlone m side n eff.node P)) :
    ReachesAlone m side n s P := by
  refine .step hn hside fun next now => ?_
  obtain ⟨now', hle, action, eff, ha, hs, hnext⟩ := h next now
  exact ⟨now', hle, action, eff, ha, hs, hnext (hst.step hs ha hterm)⟩

/-- Out of `send_heartbeats`. -/
theorem Steady.reach_returnTo (hst : s.Steady (m.config n) log bound) {site : CallSite}
    (ht : s.thread = returnTo site) : ReachesAlone m side n s fun s' =>
      s'.AtTop (m.config n) log bound ∧ ∃ queue, s'.raft = { s.raft with readyQueue := queue } := by
  cases site with
  | electionWon => exact .here ⟨⟨hst, ht⟩, s.raft.readyQueue, rfl⟩
  | leaderLoop =>
    refine hst.reach hn hside (by rw [ht]; exact hst.term_le) fun _ now => ?_
    refine ⟨now + heartbeatTimeout, Nat.le_add_right _ _, .leaderWait,
      silent { s with thread := .loopTop }, rfl, ?_, fun hst' => ?_⟩
    · simp only [Node.step, ht, returnTo]
    · exact .here ⟨⟨hst', rfl⟩, s.raft.readyQueue, rfl⟩

/-- Through the calls of `apply`. -/
theorem Steady.reach_applyResults {site : CallSite} : ∀ {toApply : List ApplyResult} {s : Node},
    s.Steady (m.config n) log bound → s.thread = applyResults site toApply →
    ReachesAlone m side n s fun s' =>
      s'.AtTop (m.config n) log bound ∧ ∃ queue, s'.raft = { s.raft with readyQueue := queue }
  | [], s, hst, ht => hst.reach_returnTo hn hside ht
  | result :: rest, s, hst, ht => by
    refine hst.reach hn hside (by rw [ht]; exact hst.term_le) fun _ now => ?_
    refine ⟨now, le_rfl, .applyNext, _, rfl, by simp only [Node.step, ht, applyResults]; rfl,
      fun hst' => ?_⟩
    exact Steady.reach_applyResults hst' rfl

theorem Steady.reach_awaitRound (hst : s.Steady (m.config n) log bound) {reqs : List PeerReq}
    {site : CallSite} (ht : s.thread = .awaitRound reqs site) :
    ReachesAlone m side n s (AtTop (m.config n) log bound) := by
  refine hst.reach hn hside (by rw [ht]; exact hst.term_le) fun next now => ?_
  obtain ⟨raft, toApply, -, hs⟩ := hst.step_unanswered ht (now + appendDeadline)
  refine ⟨_, Nat.le_add_right _ _, _, _, isAlone_unanswered next reqs, hs, fun hst' => ?_⟩
  exact (hst'.reach_applyResults hn hside rfl).mono fun s' hs' => hs'.1

theorem Steady.reach_buildRound (hst : s.Steady (m.config n) log bound) {site : CallSite}
    (ht : s.thread = .buildRound site) :
    ReachesAlone m side n s (AtTop (m.config n) log bound) := by
  refine hst.reach hn hside (by rw [ht]; exact hst.term_le) fun next now => ?_
  by_cases hr : s.raft.role = .leader
  · obtain ⟨reqs, -, -, hs⟩ := hst.step_buildRound ht hr now next
    exact ⟨now, le_rfl, .buildRound next, _, decide_eq_true rfl, hs,
      fun hst' => hst'.reach_awaitRound hn hside rfl⟩
  · refine ⟨now, le_rfl, .buildRound next, ⟨{ s with thread := returnTo site }, [], []⟩,
      decide_eq_true rfl, by simp only [Node.step, ht, buildRound, if_neg hr], fun hst' => ?_⟩
    exact (hst'.reach_returnTo hn hside rfl).mono fun s' hs' => hs'.1

theorem Steady.reach_initLeader (hst : s.Steady (m.config n) log bound)
    (ht : s.thread = .initLeader) :
    ReachesAlone m side n s (AtTop (m.config n) log bound) := by
  refine hst.reach hn hside (by rw [ht]; exact hst.term_le) fun _ now => ?_
  exact ⟨now, le_rfl, .initLeader, silent (s.initLeader (m.config n) now), rfl,
    by simp only [Node.step, ht], fun hst' => hst'.reach_buildRound hn hside rfl⟩

theorem Steady.reach_decide (hst : s.Steady (m.config n) log bound) {votes : Nat}
    (ht : s.thread = .decide votes) :
    ReachesAlone m side n s (AtTop (m.config n) log bound) := by
  refine hst.reach hn hside (by rw [ht]; exact hst.term_le) fun _ now => ?_
  refine ⟨now, le_rfl, .decide shortTimeout, s.decide (m.config n) votes shortTimeout, rfl,
    by simp only [Node.step, ht], fun hst' => ?_⟩
  unfold Node.decide at hst' ⊢
  split at hst'
  · next h =>
    rw [if_pos h]
    exact hst'.reach_initLeader hn hside rfl
  · next h =>
    rw [if_neg h]
    split at hst'
    · next hr =>
      rw [if_pos hr]
      exact .here ⟨hst', rfl⟩
    · next hr =>
      rw [if_neg hr]
      exact .here ⟨hst', rfl⟩

/-! ## An election in which nobody answers -/

/-- The call for a vote fails. -/
theorem Steady.reach_awaitVote (hst : s.Steady (m.config n) log bound) {votes : Nat}
    {call : Call RequestVoteReq} {todo : List NodeId} (ht : s.thread = .awaitVote votes call todo)
    (hrest : ∀ s', s'.Steady (m.config n) log bound → s'.raft = s.raft →
      s'.thread = electionLoop votes todo → ReachesAlone m side n s' P) :
    ReachesAlone m side n s P := by
  refine hst.reach hn hside (by rw [ht]; exact hst.term_le) fun _ now => ?_
  exact ⟨now + voteDeadline, Nat.le_add_right _ _, .voteReturned none,
    silent { s with thread := electionLoop votes todo }, rfl,
    by simp only [Node.step, ht, voteReturned], fun hst' => hrest _ hst' rfl rfl⟩

theorem Steady.reach_requestSend (hst : s.Steady (m.config n) log bound) {votes : Nat}
    {peer : NodeId} {todo : List NodeId} {term lastIndex : Nat}
    (ht : s.thread = .requestSend votes peer todo term lastIndex)
    (hrest : ∀ s', s'.Steady (m.config n) log bound → s'.raft = s.raft →
      s'.thread = electionLoop votes todo → ReachesAlone m side n s' P) :
    ReachesAlone m side n s P := by
  refine hst.reach hn hside (by rw [ht]; exact hst.term_le) fun next now => ?_
  refine ⟨now, le_rfl, .requestSend next,
    s.requestSend (m.config n) votes peer todo term lastIndex next, decide_eq_true rfl,
    by simp only [Node.step, ht], fun hst' => ?_⟩
  exact hst'.reach_awaitVote hn hside rfl hrest

theorem Steady.reach_requestIndex (hst : s.Steady (m.config n) log bound) {votes : Nat}
    {peer : NodeId} {todo : List NodeId} {term : Nat}
    (ht : s.thread = .requestIndex votes peer todo term)
    (hrest : ∀ s', s'.Steady (m.config n) log bound → s'.raft = s.raft →
      s'.thread = electionLoop votes todo → ReachesAlone m side n s' P) :
    ReachesAlone m side n s P := by
  refine hst.reach hn hside (by rw [ht]; exact hst.term_le) fun _ now => ?_
  refine ⟨now, le_rfl, .requestIndex, _, rfl, by simp only [Node.step, ht]; rfl, fun hst' => ?_⟩
  exact hst'.reach_requestSend hn hside rfl hrest

theorem Steady.reach_requestTerm (hst : s.Steady (m.config n) log bound) {votes : Nat}
    {peer : NodeId} {todo : List NodeId} (ht : s.thread = .requestTerm votes peer todo)
    (hrest : ∀ s', s'.Steady (m.config n) log bound → s'.raft = s.raft →
      s'.thread = electionLoop votes todo → ReachesAlone m side n s' P) :
    ReachesAlone m side n s P := by
  refine hst.reach hn hside (by rw [ht]; exact hst.term_le) fun _ now => ?_
  refine ⟨now, le_rfl, .requestTerm, _, rfl, by simp only [Node.step, ht]; rfl, fun hst' => ?_⟩
  exact hst'.reach_requestIndex hn hside rfl hrest

/-- The loop over the peers adds nothing to the votes. -/
theorem Steady.reach_electionLoop {votes : Nat} : ∀ {todo : List NodeId} {s : Node},
    s.Steady (m.config n) log bound → s.thread = electionLoop votes todo →
    ReachesAlone m side n s fun s' =>
      s'.Steady (m.config n) log bound ∧ s'.raft = s.raft ∧ s'.thread = .decide votes
  | [], s, hst, ht => .here ⟨hst, rfl, ht⟩
  | peer :: todo, s, hst, ht => by
    refine hst.reach_requestTerm hn hside ht fun s' hst' hraft ht' => ?_
    exact (hst'.reach_electionLoop ht').mono fun s'' h => ⟨h.1, h.2.1.trans hraft, h.2.2⟩

/-- From anywhere in the loop over the peers. -/
theorem Steady.reach_of_electionLoop (hst : s.Steady (m.config n) log bound) {votes : Nat}
    {todo : List NodeId} (ht : s.thread = electionLoop votes todo) :
    ReachesAlone m side n s (AtTop (m.config n) log bound) :=
  (hst.reach_electionLoop hn hside ht).bind fun _ h => h.1.reach_decide hn hside h.2.2

theorem Steady.reach_stepDown (hst : s.Steady (m.config n) log bound) {votes term : Nat}
    (ht : s.thread = .stepDown votes term) (hterm : term ≤ bound) :
    ReachesAlone m side n s (AtTop (m.config n) log bound) := by
  refine hst.reach hn hside (by rw [ht]; exact hterm) fun _ now => ?_
  exact ⟨now, le_rfl, .stepDown shortTimeout, silent (s.stepDown votes term shortTimeout), rfl,
    by simp only [Node.step, ht], fun hst' => hst'.reach_decide hn hside rfl⟩

theorem Steady.reach_gotReply (hst : s.Steady (m.config n) log bound) {votes : Nat}
    {peer : NodeId} {reply : RequestVoteReply} {todo : List NodeId}
    (ht : s.thread = .gotReply votes peer reply todo) (hterm : reply.term ≤ bound) :
    ReachesAlone m side n s (AtTop (m.config n) log bound) := by
  refine hst.reach hn hside (by rw [ht]; exact max_le hst.term_le hterm) fun _ now => ?_
  refine ⟨now, le_rfl, .compareTerm, silent (s.compareTerm (m.config n) votes reply todo), rfl,
    by simp only [Node.step, ht], fun hst' => ?_⟩
  unfold compareTerm at hst' ⊢
  split at hst'
  · next h =>
    rw [if_pos h]
    exact hst'.reach_stepDown hn hside rfl hterm
  · next h =>
    rw [if_neg h]
    split at hst'
    · next hg =>
      rw [if_pos hg]
      unfold afterVote at hst' ⊢
      split at hst'
      · next hv =>
        rw [if_pos hv]
        exact hst'.reach_decide hn hside rfl
      · next hv =>
        rw [if_neg hv]
        exact hst'.reach_of_electionLoop hn hside rfl
    · next hg =>
      rw [if_neg hg]
      exact hst'.reach_of_electionLoop hn hside rfl

theorem Steady.reach_startElection (hst : s.Steady (m.config n) log bound)
    (ht : s.thread = .startElection) (hterm : succ64 s.raft.currentTerm ≤ bound) :
    ReachesAlone m side n s (AtTop (m.config n) log bound) := by
  refine hst.reach hn hside (by rw [ht]; exact hterm) fun _ now => ?_
  refine ⟨now, le_rfl, .startElection shortTimeout, s.startElection (m.config n) shortTimeout, rfl,
    by simp only [Node.step, ht], fun hst' => ?_⟩
  unfold startElection at hst' ⊢
  split at hst'
  · next h =>
    rw [if_pos h]
    exact hst'.reach_of_electionLoop hn hside rfl
  · next h =>
    rw [if_neg h]
    exact .here ⟨hst', rfl⟩

theorem Steady.reach_waiting (hst : s.Steady (m.config n) log bound) {start : Nat}
    (ht : s.thread = .waiting start) (hterm : succ64 s.raft.currentTerm ≤ bound) :
    ReachesAlone m side n s (AtTop (m.config n) log bound) := by
  refine hst.reach hn hside (by rw [ht]; exact hterm) fun _ now => ?_
  exact ⟨max now (start + milliseconds s.raft.electionTimeout.val), le_max_left _ _, .poll, _, rfl,
    step_poll ht (le_max_right _ _), fun hst' => hst'.reach_startElection hn hside rfl hterm⟩

/-- **From anywhere in `run()`**, a node that was not killed gets back to the head of the loop. -/
theorem Steady.reach_top (hst : s.Steady (m.config n) log bound)
    (hrun : s.thread.isRunning = true)
    (hterm : s.thread.nextTerm s.raft.currentTerm ≤ bound) :
    ReachesAlone m side n s (AtTop (m.config n) log bound) := by
  cases ht : s.thread with
  | loopTop => exact .here ⟨hst, ht⟩
  | leaderWait =>
    have ht' : s.thread = returnTo .leaderLoop := ht
    exact (hst.reach_returnTo hn hside ht').mono fun s' hs' => hs'.1
  | waiting start => exact hst.reach_waiting hn hside ht (by rwa [ht] at hterm)
  | startElection => exact hst.reach_startElection hn hside ht (by rwa [ht] at hterm)
  | requestTerm votes peer todo =>
    exact hst.reach_requestTerm hn hside ht
      fun s' hst' _ ht' => hst'.reach_of_electionLoop hn hside ht'
  | requestIndex votes peer todo term =>
    exact hst.reach_requestIndex hn hside ht
      fun s' hst' _ ht' => hst'.reach_of_electionLoop hn hside ht'
  | requestSend votes peer todo term lastIndex =>
    exact hst.reach_requestSend hn hside ht
      fun s' hst' _ ht' => hst'.reach_of_electionLoop hn hside ht'
  | awaitVote votes call todo =>
    exact hst.reach_awaitVote hn hside ht
      fun s' hst' _ ht' => hst'.reach_of_electionLoop hn hside ht'
  | gotReply votes peer reply todo =>
    rw [ht] at hterm
    exact hst.reach_gotReply hn hside ht ((le_max_right _ _).trans hterm)
  | stepDown votes term => exact hst.reach_stepDown hn hside ht (by rwa [ht] at hterm)
  | decide votes => exact hst.reach_decide hn hside ht
  | initLeader => exact hst.reach_initLeader hn hside ht
  | buildRound site => exact hst.reach_buildRound hn hside ht
  | awaitRound reqs site => exact hst.reach_awaitRound hn hside ht
  | applying toApply site =>
    cases toApply with
    | nil => rw [ht] at hrun; cases hrun
    | cons result rest =>
      have ht' : s.thread = applyResults site (result :: rest) := ht
      exact (hst.reach_applyResults hn hside ht').mono fun s' hs' => hs'.1
  | exited => rw [ht] at hrun; cases hrun

end

end Node

/-! ## One election after the other -/

theorem Raft.roundFinished_of_unanswered {s s' : Raft} {cfg : Config} {now : Nat}
    {timeout : ElectionTimeout} {results : List PeerResult} {toApply : List ApplyResult}
    (hr : s.role = .leader) (hnone : ∀ result ∈ results, result.reply = none)
    (h : s.processResults cfg now timeout results = some (s', toApply)) :
    s.RoundFinished cfg now results s' toApply := by
  rcases processResults_cases h with ⟨hr', -⟩ | ⟨-, -, -, -, result, hmem, reply, hreply, -⟩ | hfin
  · exact absurd hr hr'
  · rw [hnone result hmem] at hreply
    cases hreply
  · exact hfin

/-- Nobody answers, and the last majority is too long ago. -/
theorem Raft.losesMajority_of_unanswered {s : Raft} {cfg : Config} {now : Nat}
    {results : List PeerResult} (hr : s.role = .leader)
    (hnone : ∀ result ∈ results, result.reply = none) (htwo : 2 ≤ cfg.majority)
    (hlong : s.lastMajorityAt + milliseconds s.electionTimeout.val < now) :
    s.LosesMajority cfg now results := by
  refine ⟨hr, fun result hmem reply hreply => ?_, ?_, ?_⟩
  · rw [hnone result hmem] at hreply
    cases hreply
  · have hzero : confirmed s.currentTerm results = 0 := by
      rw [confirmed, List.length_eq_zero_iff, List.filter_eq_nil_iff]
      intro result hmem
      simp [hnone result hmem]
    omega
  · rw [majorityLost, decide_eq_true_eq]
    omega

theorem reply_none_of_unanswered (reqs : List PeerReq) :
    ∀ result ∈ peerResults reqs (reqs.map fun _ => none), result.reply = none := by
  intro result hmem
  obtain ⟨-, -, hnone⟩ := List.mem_map.mp (Node.mem_peerResults_reply hmem)
  exact hnone.symm

namespace Node

theorem step_startElection {cfg : Config} {s : Node} {now : Nat} {timeout : ElectionTimeout}
    (ht : s.thread = .startElection) (hb : s.raft.receivedHeartbeat = false)
    (hr : s.raft.role ≠ .leader) : s.step cfg ⟨now, .startElection timeout⟩ = some
      { node := { raft := s.raft.campaign cfg.id timeout, thread := electionLoop 1 cfg.peers }
        events := [.started cfg.id (succ64 s.raft.currentTerm) s.raft.log]
        sends := [] } := by
  have helection : ¬s.raft.receivedHeartbeat ∧ s.raft.role ≠ .leader := ⟨by simp [hb], hr⟩
  simp only [step, ht, startElection, if_pos helection]
  rfl

/-- In an election of `term`, before the first call. -/
structure Campaigning (cfg : Config) (log : List Entry) (term : Nat) (s : Node) : Prop
    extends Steady cfg log term s where
  role : s.raft.role = .candidate
  term_eq : s.raft.currentTerm = term
  thread : s.thread = electionLoop 1 cfg.peers

/-- A leader starts its next round. -/
theorem AtTop.step_loopTop {cfg : Config} {log : List Entry} {bound : Nat} {s : Node}
    (h : s.AtTop cfg log bound) (hr : s.raft.role = .leader) (now : Nat) :
    s.step cfg ⟨now, .loopTop⟩ = some (silent { s with thread := .buildRound .leaderLoop }) := by
  simp [Node.step, h.thread, loopTop, h.alive, hr]

section

variable {m : Membership} {side : List NodeId} {n : NodeId} (hn : n ∈ m.ids) (hside : n ∈ side)
  {log : List Entry} {bound term : Nat} {s : Node}

include hn hside

/-- A leader whom nobody answers gives up. -/
theorem AtTop.reach_follower (h : s.AtTop (m.config n) log bound)
    (htwo : 2 ≤ (m.config n).majority) : ReachesAlone m side n s fun s' =>
      s'.AtTop (m.config n) log bound ∧ s'.raft.role ≠ .leader := by
  by_cases hr : s.raft.role = .leader
  · refine h.reach hn hside (by rw [h.thread]; exact h.term_le) fun _ now => ?_
    refine ⟨now, le_rfl, .loopTop, _, rfl, h.step_loopTop hr now, fun hst₁ => ?_⟩
    refine hst₁.reach hn hside hst₁.term_le fun next now => ?_
    obtain ⟨reqs, -, -, hs₁⟩ := hst₁.step_buildRound rfl hr now next
    refine ⟨now, le_rfl, .buildRound next, _, decide_eq_true rfl, hs₁, fun hst₂ => ?_⟩
    refine hst₂.reach hn hside hst₂.term_le fun next now => ?_
    -- by the time the calls have failed, the last majority is too long ago
    obtain ⟨late, hle, hlong⟩ : ∃ late ≥ now,
        s.raft.lastMajorityAt + milliseconds s.raft.electionTimeout.val < late :=
      ⟨max (now + appendDeadline)
          (s.raft.lastMajorityAt + milliseconds s.raft.electionTimeout.val + 1),
        (Nat.le_add_right _ _).trans (le_max_left _ _), Nat.lt_of_succ_le (le_max_right _ _)⟩
    obtain ⟨raft, toApply, hp, hs₂⟩ := hst₂.step_unanswered rfl late
    refine ⟨late, hle, _, _, isAlone_unanswered next reqs, hs₂, fun hst₃ => ?_⟩
    have hlost : raft.role = .follower :=
      ((Raft.roundFinished_of_unanswered hr (reply_none_of_unanswered reqs) hp).lost
        (Raft.losesMajority_of_unanswered hr (reply_none_of_unanswered reqs) htwo hlong)).1
    refine (hst₃.reach_applyResults hn hside rfl).mono ?_
    rintro s' ⟨htop, queue, hraft⟩
    refine ⟨htop, ?_⟩
    rw [hraft]
    simp [hlost]
  · exact .here ⟨h, hr⟩

/-- A node that does not lead starts an election once its timeout is over. -/
theorem AtTop.reach_campaign (h : s.AtTop (m.config n) log bound) (hr : s.raft.role ≠ .leader)
    (hwrap : s.raft.currentTerm + 1 < 2 ^ 64) :
    ReachesAlone m side n s (Campaigning (m.config n) log (s.raft.currentTerm + 1)) := by
  have hsucc : succ64 s.raft.currentTerm = s.raft.currentTerm + 1 := Nat.mod_eq_of_lt hwrap
  have hst : s.Steady (m.config n) log (s.raft.currentTerm + 1) :=
    { h with term_le := Nat.le_succ _ }
  refine hst.reach hn hside (by rw [h.thread]; exact Nat.le_succ _) fun _ now => ?_
  refine ⟨now, le_rfl, .loopTop,
    silent ⟨{ s.raft with receivedHeartbeat := false }, .waiting now⟩, rfl, ?_, ?_⟩
  · simp [Node.step, h.thread, loopTop, h.alive, hr]
  intro hst₁
  refine hst₁.reach hn hside hsucc.le fun _ later => ?_
  refine ⟨max later (now + milliseconds s.raft.electionTimeout.val), le_max_left _ _, .poll, _, rfl,
    step_poll rfl (le_max_right _ _), fun hst₂ => ?_⟩
  refine hst₂.reach hn hside hsucc.le fun _ now => ?_
  exact ⟨now, le_rfl, .startElection shortTimeout, _, rfl, step_startElection rfl rfl hr,
    fun hst₃ => .here ⟨hst₃, rfl, hsucc, rfl⟩⟩

/-- The election is lost if nobody answers. -/
theorem Campaigning.reach_top (h : s.Campaigning (m.config n) log term)
    (htwo : 2 ≤ (m.config n).majority) : ReachesAlone m side n s fun s' =>
      s'.AtTop (m.config n) log term ∧ s'.raft.role ≠ .leader ∧ s'.raft.currentTerm = term := by
  refine (h.reach_electionLoop hn hside h.thread).bind ?_
  rintro s' ⟨hst, hraft, ht⟩
  refine hst.reach hn hside (by rw [ht]; exact hst.term_le) fun _ now => ?_
  refine ⟨now, le_rfl, .decide shortTimeout, s'.decide (m.config n) 1 shortTimeout, rfl,
    by simp only [Node.step, ht], fun hst' => .here ?_⟩
  have hr : s'.raft.role = .candidate := hraft ▸ h.role
  have hfew : ¬(s'.raft.role = .candidate ∧ 1 ≥ (m.config n).majority) := by omega
  rw [Node.decide, if_neg hfew, if_pos hr] at hst' ⊢
  refine ⟨⟨hst', rfl⟩, ?_, by rw [← h.term_eq, ← hraft]; rfl⟩
  intro hl
  cases hl

/-- Lost elections take the node up to any term. -/
theorem AtTop.reach_term (htwo : 2 ≤ (m.config n).majority) (hwrap : term < 2 ^ 64) :
    ∀ {k : Nat} {s : Node}, s.AtTop (m.config n) log term → s.raft.role ≠ .leader →
    s.raft.currentTerm + k = term → ReachesAlone m side n s fun s' =>
      s'.AtTop (m.config n) log term ∧ s'.raft.role ≠ .leader ∧ s'.raft.currentTerm = term
  | 0, s, h, hr, hterm => .here ⟨h, hr, hterm⟩
  | k + 1, s, h, hr, hterm => by
    refine (h.reach_campaign hn hside hr (by omega)).bind fun s₁ h₁ => ?_
    refine (h₁.reach_top hn hside htwo).bind ?_
    rintro s₂ ⟨h₂, hr₂, hterm₂⟩
    have hle : s₂.raft.currentTerm ≤ term := by omega
    exact AtTop.reach_term htwo hwrap { h₂ with term_le := hle } hr₂
      (show s₂.raft.currentTerm + k = term by omega)

/--
**A node can always campaign.** Whatever its thread is at, a node that was not killed and has a
majority to ask for gets alone to an election of the term after `term`, if `term` bounds the terms
it has seen.
-/
theorem Steady.campaigns (hst : s.Steady (m.config n) log term)
    (hrun : s.thread.isRunning = true) (hnext : s.thread.nextTerm s.raft.currentTerm ≤ term)
    (htwo : 2 ≤ (m.config n).majority) (hwrap : term + 1 < 2 ^ 64) :
    ReachesAlone m side n s (Campaigning (m.config n) log (term + 1)) := by
  refine (hst.reach_top hn hside hrun hnext).bind fun s₁ h₁ => ?_
  refine (h₁.reach_follower hn hside htwo).bind ?_
  rintro s₂ ⟨h₂, hr₂⟩
  have hk : s₂.raft.currentTerm + (term - s₂.raft.currentTerm) = term :=
    Nat.add_sub_cancel' h₂.term_le
  refine (h₂.reach_term hn hside htwo (by omega) hr₂ hk).bind ?_
  rintro s₃ ⟨h₃, hr₃, rfl⟩
  exact h₃.reach_campaign hn hside hr₃ hwrap

end

end Node

end Rafty
