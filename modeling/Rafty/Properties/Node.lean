import Rafty.Node
import Rafty.Properties.Heartbeat

/-!
# What a step of a node can be

`Move` is the list of the things a step can do, with the guards under which the code does them, and
`move_of_step` says that there are no others. Proofs about steps go by cases on `Move` and do not
unfold `Node.step`.

The steps that change nothing a peer or an observer could see are one case, `quiet`: of the `Raft`
object they touch `received_heartbeat_` and `dead` only. `Quiet.timer` says what they do to the
election timer.

`Move.storage` is the inversion for proofs that look at the log, the two indices or the queue: four
moves change them and the others do not. `Move.results` is the one for proofs about the queue
together with what is still to be enqueued.
-/

namespace Rafty

/-- Outside an election and outside a round of `send_heartbeats`. -/
def Thread.isIdle : Thread → Bool
  | .loopTop | .leaderWait | .waiting _ | .startElection | .buildRound _ | .exited => true
  | _ => false

/-- In the election loop, or about to decide the election. -/
def Thread.inElection : Thread → Bool
  | .requestTerm .. | .requestIndex .. | .requestSend .. | .awaitVote .. | .gotReply ..
  | .stepDown .. | .decide _ => true
  | _ => false

@[simp] theorem inElection_electionLoop (votes : Nat) (todo : List NodeId) :
    (electionLoop votes todo).inElection = true := by
  cases todo <;> rfl

@[simp] theorem inElection_afterVote (cfg : Config) (votes : Nat) (todo : List NodeId) :
    (afterVote cfg votes todo).inElection = true := by
  unfold afterVote
  split
  · rfl
  · simp

@[simp] theorem inElection_returnTo (site : CallSite) : (returnTo site).inElection = false := by
  cases site <;> rfl

@[simp] theorem inElection_applyResults (site : CallSite) (toApply : List ApplyResult) :
    (applyResults site toApply).inElection = false := by
  cases toApply
  · simp [applyResults]
  · rfl

theorem inElection_of_isIdle {thread : Thread} (h : thread.isIdle = true) :
    thread.inElection = false := by
  cases thread <;> first | rfl | cases h

/-- Waiting for the election timeout, or about to act on it. -/
def Thread.isTimed : Thread → Bool
  | .waiting _ | .startElection => true
  | _ => false

@[simp] theorem isTimed_returnTo (site : CallSite) : (returnTo site).isTimed = false := by
  cases site <;> rfl

@[simp] theorem isTimed_applyResults (site : CallSite) (toApply : List ApplyResult) :
    (applyResults site toApply).isTimed = false := by
  cases toApply
  · simp [applyResults]
  · rfl

theorem isTimed_of_inElection {thread : Thread} (h : thread.inElection = true) :
    thread.isTimed = false := by
  cases thread <;> first | rfl | cases h

/-- The results that `send_heartbeats` has still to enqueue. -/
def Thread.pending : Thread → List ApplyResult
  | .applying toApply _ => toApply
  | _ => []

@[simp] theorem pending_returnTo (site : CallSite) : (returnTo site).pending = [] := by
  cases site <;> rfl

@[simp] theorem pending_applyResults (site : CallSite) (toApply : List ApplyResult) :
    (applyResults site toApply).pending = toApply := by
  cases toApply
  · simp [applyResults]
  · rfl

theorem pending_of_isIdle {thread : Thread} (h : thread.isIdle = true) : thread.pending = [] := by
  cases thread <;> first | rfl | cases h

theorem pending_of_inElection {thread : Thread} (h : thread.inElection = true) :
    thread.pending = [] := by
  cases thread <;> first | rfl | cases h

/-- The requests of the round that `send_heartbeats` has under way. -/
def Thread.requests : Thread → List PeerReq
  | .awaitRound reqs _ => reqs
  | _ => []

@[simp] theorem requests_returnTo (site : CallSite) : (returnTo site).requests = [] := by
  cases site <;> rfl

@[simp] theorem requests_applyResults (site : CallSite) (toApply : List ApplyResult) :
    (applyResults site toApply).requests = [] := by
  cases toApply
  · simp [applyResults]
  · rfl

theorem requests_of_isIdle {thread : Thread} (h : thread.isIdle = true) : thread.requests = [] := by
  cases thread <;> first | rfl | cases h

theorem requests_of_inElection {thread : Thread} (h : thread.inElection = true) :
    thread.requests = [] := by
  cases thread <;> first | rfl | cases h

/-- Actions that can leave everything but the thread as it is. -/
def Action.isQuiet : Action → Bool
  | .kill | .loopTop | .leaderWait | .poll | .decide _ | .buildRound _ => true
  | _ => false

namespace Node

/-- What the fields are after a step that only moves the thread. -/
structure Quiet (i : Input) (s s' : Node) : Prop where
  core : s'.raft.core = s.raft.core
  matchIndex : s'.raft.matchIndex = s.raft.matchIndex
  leaseExpires : s'.raft.leaseExpires = s.raft.leaseExpires
  thread : s'.thread = s.thread ∨
    (s'.thread.isIdle = true ∧ (s.thread.isIdle = true ∨ ∃ votes, s.thread = .decide votes))
  /-- The wait starts, goes on, is over, or the thread is elsewhere. -/
  timer : s'.thread = .waiting i.now ∨ s'.thread.isTimed = false ∨
    (s'.raft.receivedHeartbeat = s.raft.receivedHeartbeat ∧ (s'.thread = s.thread ∨
      ∃ start, s.thread = .waiting start ∧ s'.thread = .startElection ∧ (s.raft.dead = true ∨
        s.raft.receivedHeartbeat = true ∨ start + milliseconds 300 ≤ i.now)))

/-- The things a step of node `s` can do. -/
inductive Move (cfg : Config) (s : Node) : Input → Effect → Prop
  -- `handle_append_entries`
  | appendStale {now : Nat} {call : Call AppendEntriesRequest} {timeout : ElectionTimeout}
      (hlt : call.request.term < s.raft.currentTerm) :
      Move cfg s ⟨now, .appendEntries call timeout⟩
        ⟨s, [], [.appendReply call { term := s.raft.currentTerm, success := false }]⟩
  | appendRefused {now : Nat} {call : Call AppendEntriesRequest} {timeout : ElectionTimeout}
      {raft : Raft} (hle : s.raft.currentTerm ≤ call.request.term)
      (hm : logMatches s.raft.log call.request = false)
      (hcore : raft.core = s.raft.core.follow call.request.term) (hl : s.raft.SameLease raft)
      (hb : raft.receivedHeartbeat = true) :
      Move cfg s ⟨now, .appendEntries call timeout⟩
        ⟨⟨raft, s.thread⟩, [], [.appendReply call { term := call.request.term, success := false }]⟩
  | appendStored {now : Nat} {call : Call AppendEntriesRequest} {timeout : ElectionTimeout}
      {raft : Raft} {results : List ApplyResult} (h : s.raft.Stored call.request raft results)
      (hl : s.raft.SameLease raft) (hb : raft.receivedHeartbeat = true) :
      Move cfg s ⟨now, .appendEntries call timeout⟩
        ⟨⟨raft, s.thread⟩,
          .accepted cfg.id call.request.term
            (call.request.prevLogIndex + call.request.entries.length) ::
            results.map (.applied cfg.id),
          [.appendReply call { term := call.request.term, success := true }]⟩
  -- `handle_request_vote`
  | voteStale {now : Nat} {call : Call RequestVoteReq} {timeout : ElectionTimeout}
      (hlt : call.request.term < s.raft.currentTerm) :
      Move cfg s ⟨now, .requestVote call timeout⟩
        ⟨s, [], [.voteReply call { term := s.raft.currentTerm, voteGranted := false }]⟩
  | voteRefused {now : Nat} {call : Call RequestVoteReq} {timeout : ElectionTimeout} {raft : Raft}
      (hle : s.raft.currentTerm ≤ call.request.term)
      (hcore : raft.core = s.raft.core.raise call.request.term) (hl : s.raft.SameLease raft)
      (hb : raft.receivedHeartbeat = s.raft.receivedHeartbeat) :
      Move cfg s ⟨now, .requestVote call timeout⟩
        ⟨⟨raft, s.thread⟩, [],
          [.voteReply call { term := call.request.term, voteGranted := false }]⟩
  | voteGranted {now : Nat} {call : Call RequestVoteReq} {timeout : ElectionTimeout} {raft : Raft}
      (hle : s.raft.currentTerm ≤ call.request.term)
      (hfree : s.raft.core.voteIn call.request.term = none ∨
        s.raft.core.voteIn call.request.term = some call.request.candidateId)
      (hup : upToDate s.raft.log call.request.lastLogIndex call.request.lastLogTerm = true)
      (hcore : raft.core = { s.raft.core.raise call.request.term with
        votedFor := some call.request.candidateId })
      (hl : s.raft.SameLease raft) (hb : raft.receivedHeartbeat = s.raft.receivedHeartbeat) :
      Move cfg s ⟨now, .requestVote call timeout⟩
        ⟨⟨raft, s.thread⟩, [.granted cfg.id call.request s.raft.log],
          [.voteReply call { term := call.request.term, voteGranted := true }]⟩
  -- `propose`
  | proposed {now : Nat} {data : Bytes} (hr : s.raft.role = .leader) :
      Move cfg s ⟨now, .propose data⟩
        ⟨{ s with raft := { s.raft with
            log := s.raft.log ++ [{ term := s.raft.currentTerm, command := data }] } },
          [.proposed cfg.id { term := s.raft.currentTerm, command := data }], []⟩
  | notLeader {now : Nat} {data : Bytes} (hr : s.raft.role ≠ .leader) :
      Move cfg s ⟨now, .propose data⟩ ⟨s, [], []⟩
  -- the election of `run()`
  | startElection {now : Nat} {timeout : ElectionTimeout} (ht : s.thread = .startElection)
      (hb : s.raft.receivedHeartbeat = false) (hr : s.raft.role ≠ .leader) :
      Move cfg s ⟨now, .startElection timeout⟩
        { node := { raft := s.raft.campaign cfg.id timeout, thread := electionLoop 1 cfg.peers }
          events := [.started cfg.id (succ64 s.raft.currentTerm) s.raft.log]
          sends := [] }
  | noElection {now : Nat} {timeout : ElectionTimeout} (ht : s.thread = .startElection)
      (h : s.raft.receivedHeartbeat = true ∨ s.raft.role = .leader) :
      Move cfg s ⟨now, .startElection timeout⟩ (silent { s with thread := .loopTop })
  | requestTerm {now votes : Nat} {peer : NodeId} {todo : List NodeId}
      (ht : s.thread = .requestTerm votes peer todo) :
      Move cfg s ⟨now, .requestTerm⟩
        (silent { s with thread := .requestIndex votes peer todo s.raft.currentTerm })
  | requestIndex {now votes : Nat} {peer : NodeId} {todo : List NodeId} {term : Nat}
      (ht : s.thread = .requestIndex votes peer todo term) :
      Move cfg s ⟨now, .requestIndex⟩
        (silent { s with thread := .requestSend votes peer todo term s.raft.log.length })
  | requestSend {now votes : Nat} {peer : NodeId} {todo : List NodeId} {term lastIndex callId : Nat}
      (ht : s.thread = .requestSend votes peer todo term lastIndex) :
      Move cfg s ⟨now, .requestSend callId⟩
        (s.requestSend cfg votes peer todo term lastIndex callId)
  | voteReturned {now votes : Nat} {call : Call RequestVoteReq} {todo : List NodeId}
      {reply : Option RequestVoteReply} (ht : s.thread = .awaitVote votes call todo) :
      Move cfg s ⟨now, .voteReturned reply⟩ (silent (s.voteReturned votes call todo reply))
  | compareTerm {now votes : Nat} {peer : NodeId} {reply : RequestVoteReply} {todo : List NodeId}
      (ht : s.thread = .gotReply votes peer reply todo) :
      Move cfg s ⟨now, .compareTerm⟩ (silent (s.compareTerm cfg votes reply todo))
  | stepDown {now votes term : Nat} {timeout : ElectionTimeout}
      (ht : s.thread = .stepDown votes term) :
      Move cfg s ⟨now, .stepDown timeout⟩ (silent (s.stepDown votes term timeout))
  | elected {now votes : Nat} {timeout : ElectionTimeout} (ht : s.thread = .decide votes)
      (hr : s.raft.role = .candidate) (hv : cfg.majority ≤ votes) :
      Move cfg s ⟨now, .decide timeout⟩
        { node := { raft := { s.raft with role := .leader }, thread := .initLeader }
          events := [.elected cfg.id s.raft.currentTerm s.raft.log]
          sends := [] }
  | defeated {now votes : Nat} {timeout : ElectionTimeout} (ht : s.thread = .decide votes)
      (hr : s.raft.role = .candidate) (hv : votes < cfg.majority) :
      Move cfg s ⟨now, .decide timeout⟩
        (silent { raft := { s.raft with role := .follower, electionTimeout := timeout }
                  thread := .loopTop })
  -- the leader
  | initLeader {now : Nat} (ht : s.thread = .initLeader) :
      Move cfg s ⟨now, .initLeader⟩ (silent (s.initLeader cfg now))
  | buildRound {now callId : Nat} {site : CallSite} {raft : Raft} {reqs : List PeerReq}
      (ht : s.thread = .buildRound site) (hr : s.raft.role = .leader)
      (h : s.raft.buildRequests cfg.id callId cfg.peers = some (raft, reqs)) :
      Move cfg s ⟨now, .buildRound callId⟩
        { node := { raft := raft, thread := .awaitRound reqs site }
          events := []
          sends := reqs.map fun req => .appendRequest req.call }
  | roundDropped {now : Nat} {replies : List (Option AppendEntriesReply)}
      {timeout : ElectionTimeout} {reqs : List PeerReq} {site : CallSite}
      (ht : s.thread = .awaitRound reqs site) (hr : s.raft.role ≠ .leader) :
      Move cfg s ⟨now, .roundReturned replies timeout⟩ ⟨⟨s.raft, returnTo site⟩, [], []⟩
  | roundYielded {now : Nat} {replies : List (Option AppendEntriesReply)}
      {timeout : ElectionTimeout} {reqs : List PeerReq} {site : CallSite} {raft : Raft}
      {result : PeerResult} {reply : AppendEntriesReply}
      (ht : s.thread = .awaitRound reqs site) (hr : s.raft.role = .leader)
      (hmem : result ∈ peerResults reqs replies) (hreply : reply ∈ result.reply)
      (hlt : s.raft.currentTerm < reply.term)
      (hcore : raft.core = { s.raft.core with
        role := .follower, currentTerm := reply.term, votedFor := none })
      (hrec : Raft.Recorded (peerResults reqs replies) s.raft.matchIndex raft.matchIndex)
      (hlease : raft.leaseExpires = s.raft.leaseExpires) :
      Move cfg s ⟨now, .roundReturned replies timeout⟩ ⟨⟨raft, returnTo site⟩, [], []⟩
  | roundFinished {now : Nat} {replies : List (Option AppendEntriesReply)}
      {timeout : ElectionTimeout} {reqs : List PeerReq} {site : CallSite} {raft : Raft}
      {toApply : List ApplyResult} (ht : s.thread = .awaitRound reqs site)
      (hlen : replies.length = reqs.length)
      (h : s.raft.RoundFinished cfg now (peerResults reqs replies) raft toApply) :
      Move cfg s ⟨now, .roundReturned replies timeout⟩
        ⟨⟨raft, applyResults site toApply⟩, commitEvents cfg.id s.raft raft, []⟩
  | applyNext {now : Nat} {result : ApplyResult} {rest : List ApplyResult} {site : CallSite}
      (ht : s.thread = .applying (result :: rest) site) :
      Move cfg s ⟨now, .applyNext⟩
        { node := { raft := s.raft.apply result, thread := applyResults site rest }
          events := [.applied cfg.id result]
          sends := [] }
  | quiet {i : Input} {s' : Node} (hi : i.action.isQuiet = true) (h : Quiet i s s') :
      Move cfg s i (silent s')

@[simp] theorem voteReturned_raft (s : Node) (votes : Nat) (call : Call RequestVoteReq)
    (todo : List NodeId) (reply : Option RequestVoteReply) :
    (s.voteReturned votes call todo reply).raft = s.raft := by
  cases reply <;> rfl

@[simp] theorem compareTerm_raft (cfg : Config) (s : Node) (votes : Nat) (reply : RequestVoteReply)
    (todo : List NodeId) : (s.compareTerm cfg votes reply todo).raft = s.raft := by
  unfold compareTerm
  split
  · rfl
  · split <;> rfl

@[simp] theorem inElection_voteReturned (s : Node) (votes : Nat) (call : Call RequestVoteReq)
    (todo : List NodeId) (reply : Option RequestVoteReply) :
    (s.voteReturned votes call todo reply).thread.inElection = true := by
  cases reply
  · exact inElection_electionLoop votes todo
  · rfl

@[simp] theorem inElection_compareTerm (cfg : Config) (s : Node) (votes : Nat)
    (reply : RequestVoteReply) (todo : List NodeId) :
    (s.compareTerm cfg votes reply todo).thread.inElection = true := by
  unfold compareTerm
  split
  · rfl
  · split
    · exact inElection_afterVote cfg (votes + 1) todo
    · exact inElection_electionLoop votes todo

theorem isIdle_returnTo (site : CallSite) : (returnTo site).isIdle = true := by
  cases site <;> rfl

theorem drop_readyQueue {s s' : Raft} {request : AppendEntriesRequest} {results : List ApplyResult}
    (h : s.Stored request s' results) : s'.readyQueue.drop s.readyQueue.length = results := by
  have hq : s'.readyQueue = s.readyQueue ++ results := congrArg Core.readyQueue h.core
  rw [hq, List.drop_left]

theorem move_appendEntries {cfg : Config} {s : Node} {call : Call AppendEntriesRequest} {now : Nat}
    {timeout : ElectionTimeout} {eff : Effect} (h : s.appendEntries cfg call timeout = some eff) :
    Move cfg s ⟨now, .appendEntries call timeout⟩ eff := by
  obtain ⟨⟨raft, reply⟩, hraft, rfl⟩ := Option.map_eq_some_iff.mp h
  have hl := Raft.handleAppendEntries_sameLease hraft
  rcases Raft.handleAppendEntries_cases hraft with
    ⟨hlt, rfl, rfl⟩ | ⟨hle, hm, hcore, rfl⟩ | ⟨results, hst, rfl⟩
  · simpa [appendEvents] using Move.appendStale hlt
  · have hq : raft.readyQueue = s.raft.readyQueue := congrArg Core.readyQueue hcore
    have hb := Raft.handleAppendEntries_heard hle hraft
    simpa [appendEvents, hq] using Move.appendRefused hle hm hcore hl hb
  · have hb := Raft.handleAppendEntries_heard hst.term hraft
    simpa [appendEvents, drop_readyQueue hst] using Move.appendStored hst hl hb

theorem move_requestVote {cfg : Config} {s : Node} (call : Call RequestVoteReq) (now : Nat)
    (timeout : ElectionTimeout) :
    Move cfg s ⟨now, .requestVote call timeout⟩ (s.requestVote cfg call timeout) := by
  have hl := Raft.handleRequestVote_sameLease s.raft call.request timeout
  have hb := Raft.handleRequestVote_heard s.raft call.request timeout
  rcases Raft.handleRequestVote_cases s.raft call.request timeout with
    ⟨hlt, he⟩ | ⟨hle, hcore, he⟩ | ⟨hle, hfree, hup, hcore, he⟩
  · simpa [requestVote, he] using Move.voteStale hlt
  · simpa [requestVote, he] using Move.voteRefused hle hcore hl hb
  · simpa [requestVote, he] using Move.voteGranted hle hfree hup hcore hl hb

theorem move_propose {cfg : Config} {s : Node} (data : Bytes) (now : Nat) :
    Move cfg s ⟨now, .propose data⟩ (s.propose cfg data) := by
  rcases Raft.propose_cases s.raft data with ⟨hr, h1, h2, h3⟩ | ⟨hr, h1, h2⟩
  · simpa [propose, h1, h2, h3] using Move.proposed hr
  · simpa [propose, h1, h2] using Move.notLeader hr

theorem quiet_loopTop {s : Node} {i : Input} (ht : s.thread = .loopTop) :
    Quiet i s (s.loopTop i.now) := by
  unfold loopTop
  have hidle : s.thread.isIdle = true := by rw [ht]; rfl
  split
  · exact ⟨rfl, rfl, rfl, Or.inr ⟨rfl, Or.inl hidle⟩, Or.inr (Or.inl rfl)⟩
  · split
    · exact ⟨rfl, rfl, rfl, Or.inr ⟨rfl, Or.inl hidle⟩, Or.inr (Or.inl rfl)⟩
    · exact ⟨rfl, rfl, rfl, Or.inr ⟨rfl, Or.inl hidle⟩, Or.inl rfl⟩

theorem quiet_poll {s : Node} {i : Input} {start : Nat} (ht : s.thread = .waiting start) :
    Quiet i s (s.poll i.now start) := by
  unfold poll
  split
  · next hover =>
    refine ⟨rfl, rfl, rfl, Or.inr ⟨rfl, Or.inl (by rw [ht]; rfl)⟩, Or.inr (Or.inr ⟨rfl, Or.inr ?_⟩)⟩
    refine ⟨start, ht, rfl, hover.imp id (Or.imp id fun helapsed => ?_)⟩
    -- the draw of `reset_election_timer` is 300 ms or more
    have hdraw := s.raft.electionTimeout.property.1
    unfold milliseconds at helapsed ⊢
    omega
  · exact ⟨rfl, rfl, rfl, Or.inl rfl, Or.inr (Or.inr ⟨rfl, Or.inl rfl⟩)⟩

theorem move_startElection {cfg : Config} {s : Node} (ht : s.thread = .startElection) (now : Nat)
    (timeout : ElectionTimeout) :
    Move cfg s ⟨now, .startElection timeout⟩ (s.startElection cfg timeout) := by
  unfold startElection
  split
  · next h => exact Move.startElection ht (by simpa using h.1) h.2
  · next h =>
    refine Move.noElection ht ?_
    by_contra hnot
    rw [not_or] at hnot
    exact h hnot

theorem move_decide {cfg : Config} {s : Node} {votes : Nat} (ht : s.thread = .decide votes)
    (now : Nat) (timeout : ElectionTimeout) :
    Move cfg s ⟨now, .decide timeout⟩ (s.decide cfg votes timeout) := by
  unfold decide
  split
  · next h => exact Move.elected ht h.1 h.2
  · next hnot =>
    split
    · next h => exact Move.defeated ht h (Nat.lt_of_not_le fun hv => hnot ⟨h, hv⟩)
    · exact Move.quiet rfl
        ⟨rfl, rfl, rfl, Or.inr ⟨rfl, Or.inr ⟨votes, ht⟩⟩, Or.inr (Or.inl rfl)⟩

theorem move_buildRound {cfg : Config} {s : Node} {site : CallSite} {now callId : Nat}
    {eff : Effect} (ht : s.thread = .buildRound site)
    (h : s.buildRound cfg site callId = some eff) :
    Move cfg s ⟨now, .buildRound callId⟩ eff := by
  unfold buildRound at h
  split at h
  · next hr =>
    obtain ⟨⟨raft, reqs⟩, hreqs, rfl⟩ := Option.map_eq_some_iff.mp h
    exact Move.buildRound ht hr hreqs
  · rw [Option.some.injEq] at h
    subst h
    exact Move.quiet rfl ⟨rfl, rfl, rfl, Or.inr ⟨isIdle_returnTo site, Or.inl (by rw [ht]; rfl)⟩,
      Or.inr (Or.inl (isTimed_returnTo site))⟩

theorem commitEvents_of_eq {id : NodeId} {s s' : Raft} (h : s'.commitIndex = s.commitIndex) :
    commitEvents id s s' = [] := if_pos h

theorem move_roundReturned {cfg : Config} {s : Node} {reqs : List PeerReq} {site : CallSite}
    {now : Nat} {replies : List (Option AppendEntriesReply)} {timeout : ElectionTimeout}
    {eff : Effect} (ht : s.thread = .awaitRound reqs site) (hlen : replies.length = reqs.length)
    (h : s.roundReturned cfg now reqs site replies timeout = some eff) :
    Move cfg s ⟨now, .roundReturned replies timeout⟩ eff := by
  obtain ⟨⟨raft, toApply⟩, hraft, rfl⟩ := Option.map_eq_some_iff.mp h
  rcases Raft.processResults_cases hraft with
    ⟨hr, rfl, rfl⟩ | ⟨hr, rfl, hrec, hlease, result, hmem, reply, hreply, hlt, hcore⟩ | hfin
  · simpa [commitEvents_of_eq, applyResults] using Move.roundDropped ht hr
  · have hc : raft.commitIndex = s.raft.commitIndex := congrArg Core.commitIndex hcore
    have hmove : Move cfg s ⟨now, .roundReturned replies timeout⟩ ⟨⟨raft, returnTo site⟩, [], []⟩ :=
      Move.roundYielded ht hr hmem hreply hlt hcore hrec hlease
    simpa [commitEvents_of_eq hc, applyResults] using hmove
  · exact Move.roundFinished ht hlen hfin

/-- **Inversion of `Node.step`.** -/
theorem move_of_step {cfg : Config} {s : Node} {i : Input} {eff : Effect}
    (h : s.step cfg i = some eff) : Move cfg s i eff := by
  obtain ⟨now, action⟩ := i
  unfold step at h
  dsimp only at h
  split at h
  · exact move_appendEntries h
  · obtain rfl := Option.some.inj h
    exact move_requestVote _ _ _
  · obtain rfl := Option.some.inj h
    exact move_propose _ _
  · obtain rfl := Option.some.inj h
    exact Move.quiet rfl ⟨rfl, rfl, rfl, Or.inl rfl, Or.inr (Or.inr ⟨rfl, Or.inl rfl⟩)⟩
  · next ht =>
    obtain rfl := Option.some.inj h
    exact Move.quiet rfl (quiet_loopTop ht)
  · next ht =>
    obtain rfl := Option.some.inj h
    exact Move.quiet rfl
      ⟨rfl, rfl, rfl, Or.inr ⟨rfl, Or.inl (by rw [ht]; rfl)⟩, Or.inr (Or.inl rfl)⟩
  · next ht =>
    obtain rfl := Option.some.inj h
    exact Move.quiet rfl (quiet_poll ht)
  · next ht =>
    obtain rfl := Option.some.inj h
    exact move_startElection ht _ _
  · next ht =>
    obtain rfl := Option.some.inj h
    exact Move.requestTerm ht
  · next ht =>
    obtain rfl := Option.some.inj h
    exact Move.requestIndex ht
  · next ht =>
    obtain rfl := Option.some.inj h
    exact Move.requestSend ht
  · next ht =>
    obtain rfl := Option.some.inj h
    exact Move.voteReturned ht
  · next ht =>
    obtain rfl := Option.some.inj h
    exact Move.compareTerm ht
  · next ht =>
    obtain rfl := Option.some.inj h
    exact Move.stepDown ht
  · next ht =>
    obtain rfl := Option.some.inj h
    exact move_decide ht _ _
  · next ht =>
    obtain rfl := Option.some.inj h
    exact Move.initLeader ht
  · next ht => exact move_buildRound ht h
  · next ht =>
    split at h
    · next hlen =>
      exact move_roundReturned ht hlen h
    · cases h
  · next ht =>
    obtain rfl := Option.some.inj h
    exact Move.applyNext ht
  · cases h

/--
What the actions that can be quiet write, quiet or not: at most four fields, unless a leader builds
the requests of a round.
-/
theorem frame_of_isQuiet {cfg : Config} {s : Node} {i : Input} {eff : Effect}
    (hi : i.action.isQuiet = true) (h : s.step cfg i = some eff) :
    (∃ role drawn heard dead, eff.node.raft =
      { s.raft with
        role := role, electionTimeout := drawn, receivedHeartbeat := heard, dead := dead }) ∨
    ∃ callId reqs, s.raft.buildRequests cfg.id callId cfg.peers = some (eff.node.raft, reqs) := by
  -- the fields as they were, for the branches that write none of the four
  have hsame : ∃ role drawn heard dead, s.raft =
      { s.raft with
        role := role, electionTimeout := drawn, receivedHeartbeat := heard, dead := dead } :=
    ⟨s.raft.role, s.raft.electionTimeout, s.raft.receivedHeartbeat, s.raft.dead, rfl⟩
  obtain ⟨now, action⟩ := i
  cases action with
  | kill =>
    obtain rfl := Option.some.inj h
    exact Or.inl ⟨s.raft.role, s.raft.electionTimeout, s.raft.receivedHeartbeat, true, rfl⟩
  | loopTop =>
    cases ht : s.thread with
    | loopTop =>
      simp only [step, ht, Option.some.injEq] at h
      rw [← h, silent, loopTop]
      refine Or.inl ?_
      split
      · exact hsame
      · split
        · exact hsame
        · exact ⟨s.raft.role, s.raft.electionTimeout, false, s.raft.dead, rfl⟩
    | _ => simp [step, ht] at h
  | leaderWait =>
    cases ht : s.thread with
    | leaderWait =>
      simp only [step, ht, Option.some.injEq] at h
      exact Or.inl (h ▸ hsame)
    | _ => simp [step, ht] at h
  | poll =>
    cases ht : s.thread with
    | waiting start =>
      simp only [step, ht, Option.some.injEq] at h
      rw [← h, silent, poll]
      refine Or.inl ?_
      split <;> exact hsame
    | _ => simp [step, ht] at h
  | decide timeout =>
    cases ht : s.thread with
    | decide votes =>
      simp only [step, ht, Option.some.injEq] at h
      rw [← h, Node.decide]
      refine Or.inl ?_
      split
      · exact ⟨.leader, s.raft.electionTimeout, s.raft.receivedHeartbeat, s.raft.dead, rfl⟩
      · split
        · exact ⟨.follower, timeout, s.raft.receivedHeartbeat, s.raft.dead, rfl⟩
        · exact hsame
    | _ => simp [step, ht] at h
  | buildRound callId =>
    cases ht : s.thread with
    | buildRound site =>
      simp only [step, ht, buildRound] at h
      split at h
      · obtain ⟨⟨raft, reqs⟩, hreqs, rfl⟩ := Option.map_eq_some_iff.mp h
        exact Or.inr ⟨callId, reqs, hreqs⟩
      · obtain rfl := Option.some.inj h
        exact Or.inl hsame
    | _ => simp [step, ht] at h
  | _ => cases hi

/-! ## The blocks behind the steps -/

section Blocks

variable {cfg : Config} {s : Node} {now : Nat} {eff : Effect}

theorem step_appendEntries {call : Call AppendEntriesRequest} {timeout : ElectionTimeout}
    (h : s.step cfg ⟨now, .appendEntries call timeout⟩ = some eff) :
    ∃ reply, s.raft.handleAppendEntries call.request timeout = some (eff.node.raft, reply) := by
  obtain ⟨⟨raft, reply⟩, hraft, rfl⟩ := Option.map_eq_some_iff.mp h
  exact ⟨reply, hraft⟩

theorem step_requestVote {call : Call RequestVoteReq} {timeout : ElectionTimeout}
    (h : s.step cfg ⟨now, .requestVote call timeout⟩ = some eff) :
    eff.node.raft = (s.raft.handleRequestVote call.request timeout).1 := by
  obtain rfl := Option.some.inj h
  rfl

theorem awaitRound_of_step {replies : List (Option AppendEntriesReply)} {timeout : ElectionTimeout}
    (h : s.step cfg ⟨now, .roundReturned replies timeout⟩ = some eff) :
    ∃ reqs site, s.thread = .awaitRound reqs site := by
  cases ht : s.thread with
  | awaitRound reqs site => exact ⟨reqs, site, rfl⟩
  | _ => simp [step, ht] at h

theorem step_roundReturned {replies : List (Option AppendEntriesReply)} {timeout : ElectionTimeout}
    {reqs : List PeerReq} {site : CallSite} (ht : s.thread = .awaitRound reqs site)
    (h : s.step cfg ⟨now, .roundReturned replies timeout⟩ = some eff) :
    ∃ toApply, s.raft.processResults cfg now timeout (peerResults reqs replies) =
      some (eff.node.raft, toApply) := by
  simp only [step, ht] at h
  split at h
  · obtain ⟨⟨raft, toApply⟩, hraft, rfl⟩ := Option.map_eq_some_iff.mp h
    exact ⟨toApply, hraft⟩
  · cases h

end Blocks

/-! ## The log, the two indices and the queue -/

/-- What a step does to the log, the two indices and the queue. -/
inductive Storage (cfg : Config) (s : Raft) (action : Action) (s' : Raft) : Prop
  | same (h : s.SameStorage s')
  | stored {call : Call AppendEntriesRequest} {timeout : ElectionTimeout}
      {results : List ApplyResult} (ha : action = .appendEntries call timeout)
      (h : s.Stored call.request s' results)
  | proposed (entry : Entry) (h : s' = { s with log := s.log ++ [entry] })
  | finished {now : Nat} {results : List PeerResult} {toApply : List ApplyResult}
      (h : s.RoundFinished cfg now results s' toApply)
      (ha : ∃ replies timeout, action = .roundReturned replies timeout)
  | enqueued (result : ApplyResult) (h : s' = s.apply result)

/-- All but four of the moves leave the log, the indices and the queue alone. -/
theorem Move.storage {cfg : Config} {s : Node} {i : Input} {eff : Effect} (h : Move cfg s i eff) :
    Storage cfg s.raft i.action eff.node.raft := by
  cases h with
  | appendRefused _ _ hcore | voteRefused _ hcore | voteGranted _ _ _ hcore
  | roundYielded _ _ _ _ _ hcore => exact .same (.of_core hcore)
  | appendStored h => exact .stored rfl h
  | proposed => exact .proposed _ rfl
  | roundFinished _ _ h => exact .finished h ⟨_, _, rfl⟩
  | applyNext => exact .enqueued _ rfl
  | buildRound _ _ h =>
    obtain ⟨⟨table, rfl⟩, -, -⟩ := Raft.buildRequests_eq_some h
    exact .same ⟨rfl, rfl, rfl, rfl⟩
  | quiet _ h => exact .same (.of_core h.core)
  | voteReturned | compareTerm => exact .same (by constructor <;> simp [silent])
  | _ => exact .same ⟨rfl, rfl, rfl, rfl⟩

/-- The queue only grows. -/
theorem Move.readyQueue {cfg : Config} {s : Node} {i : Input} {eff : Effect}
    (h : Move cfg s i eff) : ∃ more, eff.node.raft.readyQueue = s.raft.readyQueue ++ more := by
  cases h.storage with
  | same h => exact ⟨[], by simpa using h.readyQueue⟩
  | stored _ h => exact ⟨_, congrArg Core.readyQueue h.core⟩
  | proposed entry h => exact ⟨[], by simp [h]⟩
  | finished h => exact ⟨[], by simpa using h.readyQueue⟩
  | enqueued result h => exact ⟨[result], by rw [h]; rfl⟩

/-- `last_applied_` only grows. -/
theorem Move.lastApplied_le {cfg : Config} {s : Node} {i : Input} {eff : Effect}
    (h : Move cfg s i eff) : s.raft.lastApplied ≤ eff.node.raft.lastApplied := by
  cases h.storage with
  | same h => exact Nat.le_of_eq h.lastApplied.symm
  | stored _ h => exact (le_max_left _ _).trans_eq (congrArg Core.lastApplied h.core).symm
  | proposed entry h => rw [h]
  | finished h => exact (le_max_left _ _).trans_eq h.lastApplied.symm
  | enqueued result h => exact Nat.le_of_eq (by rw [h]; rfl)

/-- The results of the node: those in the queue, and behind them those still to be enqueued. -/
def results (s : Node) : List ApplyResult := s.raft.readyQueue ++ s.thread.pending

/-- What a step can do to the results and to what they come from. -/
inductive Results (s : Node) (action : Action) (s' : Node) : Prop
  | same (h : s'.results = s.results) (hlog : s.raft.log <+: s'.raft.log)
      (hl : s'.raft.lastApplied = s.raft.lastApplied)
      (hc : s'.raft.commitIndex = s.raft.commitIndex)
  | stored {call : Call AppendEntriesRequest} {timeout : ElectionTimeout}
      {results : List ApplyResult} (ha : action = .appendEntries call timeout)
      (h : s.raft.Stored call.request s'.raft results)
      (hp : s'.thread.pending = s.thread.pending)
  | finished {toApply : List ApplyResult} (hp : s.thread.pending = [])
      (h : s'.results = s.results ++ toApply) (hlog : s'.raft.log = s.raft.log)
      (ht : applyLoop s.raft.log s.raft.lastApplied
        (s'.raft.commitIndex - s.raft.lastApplied) = some toApply)
      (hl : s'.raft.lastApplied = max s.raft.lastApplied s'.raft.commitIndex)

theorem Results.of_same {s s' : Node} {action : Action} (h : s.raft.SameStorage s'.raft)
    (hp : s'.thread.pending = s.thread.pending) : Results s action s' :=
  .same (by rw [results, results, h.readyQueue, hp]) (h.log ▸ List.prefix_rfl) h.lastApplied
    h.commitIndex

/-- **Inversion for the results**: a handler or a round adds some, anything else leaves them. -/
theorem Move.results {cfg : Config} {s : Node} {i : Input} {eff : Effect} (h : Move cfg s i eff) :
    Results s i.action eff.node := by
  cases h with
  | appendStale | voteStale | notLeader => exact .of_same ⟨rfl, rfl, rfl, rfl⟩ rfl
  | appendRefused _ _ hcore | voteRefused _ hcore | voteGranted _ _ _ hcore =>
    exact .of_same (.of_core hcore) rfl
  | appendStored h => exact .stored rfl h rfl
  | proposed => exact .same rfl (List.prefix_append _ _) rfl rfl
  | stepDown ht | noElection ht | requestTerm ht | requestIndex ht | requestSend ht | elected ht
  | defeated ht | initLeader ht => exact .of_same ⟨rfl, rfl, rfl, rfl⟩ (by rw [ht]; rfl)
  | startElection ht =>
    refine .of_same ⟨rfl, rfl, rfl, rfl⟩ ?_
    rw [ht]
    exact pending_of_inElection (inElection_electionLoop _ _)
  | voteReturned ht =>
    refine .of_same (by constructor <;> simp [silent]) ?_
    rw [ht]
    exact pending_of_inElection (inElection_voteReturned ..)
  | compareTerm ht =>
    refine .of_same (by constructor <;> simp [silent]) ?_
    rw [ht]
    exact pending_of_inElection (inElection_compareTerm ..)
  | buildRound ht _ h =>
    obtain ⟨⟨table, rfl⟩, -, -⟩ := Raft.buildRequests_eq_some h
    exact .of_same ⟨rfl, rfl, rfl, rfl⟩ (by rw [ht]; rfl)
  | roundDropped ht =>
    exact .of_same ⟨rfl, rfl, rfl, rfl⟩ (by rw [ht]; exact pending_returnTo _)
  | roundYielded ht _ _ _ _ hcore =>
    exact .of_same (.of_core hcore) (by rw [ht]; exact pending_returnTo _)
  | roundFinished ht _ h =>
    have hp : s.thread.pending = [] := by rw [ht]; rfl
    refine .finished hp ?_ h.log h.toApply h.lastApplied
    simp [Node.results, h.readyQueue, hp]
  | @applyNext _ result rest _ ht =>
    have hp : s.thread.pending = result :: rest := by rw [ht]; rfl
    refine .same ?_ List.prefix_rfl rfl rfl
    simp [Node.results, Raft.apply, hp]
  | quiet _ h =>
    refine .of_same (.of_core h.core) ?_
    rcases h.thread with he | ⟨hidle, hfrom⟩
    · exact congrArg Thread.pending he
    · rw [show (silent _).node.thread.pending = [] from pending_of_isIdle hidle]
      rcases hfrom with hidle' | ⟨votes, ht⟩
      · exact (pending_of_isIdle hidle').symm
      · rw [ht]; rfl

end Node

variable {cfg : Config} {s s' : Node} {i : Input} {es : List Event}

theorem nodeSystem_step (h : (nodeSystem cfg).step s i = some (s', es)) :
    ∃ eff, s.step cfg i = some eff ∧ eff.node = s' ∧ eff.events = es := by
  obtain ⟨eff, heff, he⟩ := Option.map_eq_some_iff.mp h
  exact ⟨eff, heff, Prod.mk.inj he⟩

/-- A step of `nodeSystem` is a move of the node. -/
theorem nodeSystem_move (h : (nodeSystem cfg).step s i = some (s', es)) :
    ∃ eff, Node.Move cfg s i eff ∧ eff.node = s' ∧ eff.events = es := by
  obtain ⟨eff, heff, he⟩ := nodeSystem_step h
  exact ⟨eff, Node.move_of_step heff, he⟩

end Rafty
