import Rafty.Heartbeat
import Rafty.Infra.Run

/-!
# One node: the `run()` thread, the handlers and the callers of `propose`

`Thread` is the place of the single `run()` thread between two of its blocks, with its local
variables. `Action` is one block of any thread of the node together with everything the block gets
from outside: the request or the reply, the value of the clock, the draw of `reset_election_timer`.

The model leaves all of these free, so a run of `nodeSystem` is an interleaving of the `run()`
thread with handlers and proposals on arbitrary requests, replies and clock readings. A cluster
(`Rafty/Cluster.lean`) ties requests and replies of its nodes together.

The election loop builds its request outside the lock, one field after the other, so the three reads
are three steps.
-/

namespace Rafty

open Infra

/-- Where `send_heartbeats` was called from, which is where it returns to. -/
inductive CallSite where
  | leaderLoop
  | electionWon
deriving DecidableEq, Repr

inductive Thread where
  /-- At the head of `while (!is_dead())`. -/
  | loopTop
  /-- In the wait on `propose_cv_`. -/
  | leaderWait
  /-- In the loop that waits for a heartbeat or the election timeout. -/
  | waiting (start : Nat)
  /-- About to decide whether to start an election. -/
  | startElection
  /-- About to read `current_term_` for the request to `peer`. -/
  | requestTerm (votes : Nat) (peer : NodeId) (todo : List NodeId)
  /-- About to read `log_.size()`. -/
  | requestIndex (votes : Nat) (peer : NodeId) (todo : List NodeId) (term : Nat)
  /-- About to read the last term and to send. -/
  | requestSend (votes : Nat) (peer : NodeId) (todo : List NodeId) (term lastIndex : Nat)
  | awaitVote (votes : Nat) (call : Call RequestVoteReq) (todo : List NodeId)
  /-- Has a reply, about to read `my_term`. -/
  | gotReply (votes : Nat) (peer : NodeId) (reply : RequestVoteReply) (todo : List NodeId)
  /-- Has seen `reply.term() > my_term`, about to take the lock again. -/
  | stepDown (votes : Nat) (term : Nat)
  | decide (votes : Nat)
  | initLeader
  | buildRound (site : CallSite)
  | awaitRound (reqs : List PeerReq) (site : CallSite)
  /-- Has released the lock, `apply(r)` still to be called for these. -/
  | applying (toApply : List ApplyResult) (site : CallSite)
  | exited
deriving DecidableEq, Repr

/-- The head of `for (auto &peer : peers_snapshot)`. -/
def electionLoop (votes : Nat) : List NodeId → Thread
  | [] => .decide votes
  | peer :: todo => .requestTerm votes peer todo

/-- After a reply was counted: leave the loop at a majority. -/
def afterVote (cfg : Config) (votes : Nat) (todo : List NodeId) : Thread :=
  if votes ≥ cfg.majority then .decide votes else electionLoop votes todo

/-- Where `send_heartbeats` returns to. -/
def returnTo : CallSite → Thread
  | .leaderLoop => .leaderWait
  | .electionWon => .loopTop

/-- The head of `for (auto &r : to_apply)`. -/
def applyResults (site : CallSite) : List ApplyResult → Thread
  | [] => returnTo site
  | result :: rest => .applying (result :: rest) site

structure Node where
  raft : Raft
  thread : Thread
deriving DecidableEq

def Node.init (timeout : ElectionTimeout) : Node where
  raft := Raft.init timeout
  thread := .loopTop

/-- What an observer of the node sees it do. -/
inductive Event where
  /-- The node started an election for `term`, which is a vote for itself. -/
  | started (node : NodeId) (term : Nat) (log : List Entry)
  /-- The node granted `request` while its log was `log`. -/
  | granted (node : NodeId) (request : RequestVoteReq) (log : List Entry)
  /-- `role_ = LEADER`. -/
  | elected (node : NodeId) (term : Nat) (log : List Entry)
  | proposed (node : NodeId) (entry : Entry)
  /-- An `AppendEntries` of `term` was answered with success up to index `upTo`. -/
  | accepted (node : NodeId) (term upTo : Nat)
  /-- The commit loop of `send_heartbeats` set `commit_index_` to `index`. -/
  | committed (node : NodeId) (term index : Nat) (log : List Entry)
  /-- `apply(result)`. -/
  | applied (node : NodeId) (result : ApplyResult)
deriving DecidableEq, Repr

inductive Action where
  /-- A handler thread runs `handle_append_entries`. -/
  | appendEntries (call : Call AppendEntriesRequest) (timeout : ElectionTimeout)
  /-- A handler thread runs `handle_request_vote`. -/
  | requestVote (call : Call RequestVoteReq) (timeout : ElectionTimeout)
  | propose (data : Bytes)
  | kill
  -- from here on the steps of the `run()` thread
  | loopTop
  | leaderWait
  | poll
  | startElection (timeout : ElectionTimeout)
  | requestTerm
  | requestIndex
  | requestSend (callId : Nat)
  | voteReturned (reply : Option RequestVoteReply)
  | compareTerm
  | stepDown (timeout : ElectionTimeout)
  | decide (timeout : ElectionTimeout)
  | initLeader
  | buildRound (callId : Nat)
  | roundReturned (replies : List (Option AppendEntriesReply)) (timeout : ElectionTimeout)
  | applyNext
deriving DecidableEq

/-- A step of a node: the block and the value `steady_clock::now()` has in it. -/
structure Input where
  now : Nat
  action : Action
deriving DecidableEq

/-- What a step does: the node after it, what an observer sees, what it sends. -/
structure Effect where
  node : Node
  events : List Event
  sends : List Packet

/-- What starting an election does to the fields. -/
def Raft.campaign (s : Raft) (id : NodeId) (timeout : ElectionTimeout) : Raft :=
  { s with role := .candidate, currentTerm := succ64 s.currentTerm, votedFor := some id
    }.resetElectionTimer timeout

namespace Node

/-- The events of `handle_append_entries`: a success, and the results it enqueued. -/
def appendEvents (id : NodeId) (s s' : Raft) (request : AppendEntriesRequest)
    (reply : AppendEntriesReply) : List Event :=
  (if reply.success then
    [.accepted id request.term (request.prevLogIndex + request.entries.length)] else []) ++
  (s'.readyQueue.drop s.readyQueue.length).map (.applied id)

/-- The event of a round: the commit index moved. -/
def commitEvents (id : NodeId) (s s' : Raft) : List Event :=
  if s'.commitIndex = s.commitIndex then []
  else [.committed id s'.currentTerm s'.commitIndex s'.log]

/-- `handle_append_entries` in its handler thread. -/
def appendEntries (cfg : Config) (s : Node) (call : Call AppendEntriesRequest)
    (timeout : ElectionTimeout) : Option Effect :=
  (s.raft.handleAppendEntries call.request timeout).map fun (raft, reply) =>
    { node := { s with raft := raft }
      events := appendEvents cfg.id s.raft raft call.request reply
      sends := [.appendReply call reply] }

/-- `handle_request_vote` in its handler thread. -/
def requestVote (cfg : Config) (s : Node) (call : Call RequestVoteReq)
    (timeout : ElectionTimeout) : Effect :=
  let (raft, reply) := s.raft.handleRequestVote call.request timeout
  { node := { s with raft := raft }
    events := if reply.voteGranted then [.granted cfg.id call.request s.raft.log] else []
    sends := [.voteReply call reply] }

def propose (cfg : Config) (s : Node) (data : Bytes) : Effect :=
  let (raft, result) := s.raft.propose data
  { node := { s with raft := raft }
    events := if result.isLeader then
      [.proposed cfg.id { term := result.term, command := data }] else []
    sends := [] }

/-- The first block of the loop; the start of the wait is read right after it. -/
def loopTop (s : Node) (now : Nat) : Node :=
  if s.raft.dead then { s with thread := .exited }
  else if s.raft.role = .leader then { s with thread := .buildRound .leaderLoop }
  else { raft := { s.raft with receivedHeartbeat := false }, thread := .waiting now }

/-- One turn of the wait for a heartbeat or the timeout. -/
def poll (s : Node) (now start : Nat) : Node :=
  if s.raft.dead ∨ s.raft.receivedHeartbeat ∨
      now - start ≥ milliseconds s.raft.electionTimeout.val then
    { s with thread := .startElection }
  else s

/-- The block that starts an election, with the snapshot of `peers_` after it. -/
def startElection (cfg : Config) (s : Node) (timeout : ElectionTimeout) : Effect :=
  if ¬s.raft.receivedHeartbeat ∧ s.raft.role ≠ .leader then
    let raft := s.raft.campaign cfg.id timeout
    { node := { raft := raft, thread := electionLoop 1 cfg.peers }
      events := [.started cfg.id raft.currentTerm raft.log]
      sends := [] }
  else { node := { s with thread := .loopTop }, events := [], sends := [] }

/-- The request is complete once the last term is read. -/
def requestSend (cfg : Config) (s : Node) (votes : Nat) (peer : NodeId) (todo : List NodeId)
    (term lastIndex callId : Nat) : Effect :=
  let call : Call RequestVoteReq := {
    callId := callId, caller := cfg.id, callee := peer
    request := {
      term := term, candidateId := cfg.id, lastLogIndex := lastIndex,
      lastLogTerm := lastLogTerm s.raft.log } }
  { node := { s with thread := .awaitVote votes call todo }
    events := []
    sends := [.voteRequest call] }

/-- `status.ok()` or not. -/
def voteReturned (s : Node) (votes : Nat) (call : Call RequestVoteReq) (todo : List NodeId)
    (reply : Option RequestVoteReply) : Node :=
  match reply with
  | none => { s with thread := electionLoop votes todo }
  | some reply => { s with thread := .gotReply votes call.callee reply todo }

/-- Reads `my_term` under the lock; what follows works on local variables only. -/
def compareTerm (cfg : Config) (s : Node) (votes : Nat) (reply : RequestVoteReply)
    (todo : List NodeId) : Node :=
  if reply.term > s.raft.currentTerm then { s with thread := .stepDown votes reply.term }
  else if reply.voteGranted then { s with thread := afterVote cfg (votes + 1) todo }
  else { s with thread := electionLoop votes todo }

/-- The second lock acquisition: `current_term_` is overwritten without another look at it. -/
def stepDown (s : Node) (votes term : Nat) (timeout : ElectionTimeout) : Node where
  raft := { s.raft with currentTerm := term, role := .follower, votedFor := none
    }.resetElectionTimer timeout
  thread := .decide votes

/-- The block that makes the node leader or ends the election. -/
def decide (cfg : Config) (s : Node) (votes : Nat) (timeout : ElectionTimeout) : Effect :=
  if s.raft.role = .candidate ∧ votes ≥ cfg.majority then
    { node := { raft := { s.raft with role := .leader }, thread := .initLeader }
      events := [.elected cfg.id s.raft.currentTerm s.raft.log]
      sends := [] }
  else if s.raft.role = .candidate then
    { node := {
        raft := { s.raft with role := .follower }.resetElectionTimer timeout
        thread := .loopTop }
      events := []
      sends := [] }
  else { node := { s with thread := .loopTop }, events := [], sends := [] }

/-- The tables of a new leader, in a critical section of their own. -/
def initLeader (cfg : Config) (s : Node) (now : Nat) : Node where
  raft := { s.raft with
    nextIndex := cfg.peers.foldl (fun t peer => t.insert peer (s.raft.log.length + 1))
      s.raft.nextIndex
    matchIndex := cfg.peers.foldl (fun t peer => t.insert peer 0) s.raft.matchIndex
    lastMajorityAt := now
    isLeaderAtomic := true }
  thread := .buildRound .electionWon

/-- The first critical section of `send_heartbeats`. -/
def buildRound (cfg : Config) (s : Node) (site : CallSite) (callId : Nat) : Option Effect :=
  if s.raft.role = .leader then
    (s.raft.buildRequests cfg.id callId cfg.peers).map fun (raft, reqs) =>
      { node := { raft := raft, thread := .awaitRound reqs site }
        events := []
        sends := reqs.map fun req => .appendRequest req.call }
  else some { node := { s with thread := returnTo site }, events := [], sends := [] }

/-- The second critical section of `send_heartbeats`. -/
def roundReturned (cfg : Config) (s : Node) (now : Nat) (reqs : List PeerReq) (site : CallSite)
    (replies : List (Option AppendEntriesReply)) (timeout : ElectionTimeout) : Option Effect :=
  (s.raft.processResults cfg now timeout (peerResults reqs replies)).map fun (raft, toApply) =>
    { node := { raft := raft, thread := applyResults site toApply }
      events := commitEvents cfg.id s.raft raft
      sends := [] }

/-- A step that nobody else can see. -/
def silent (s : Node) : Effect where
  node := s
  events := []
  sends := []

/--
One step of a node. `none`: the thread is not at that block, or the block reads `log_` outside the
vector.
-/
def step (cfg : Config) (s : Node) (i : Input) : Option Effect :=
  match i.action, s.thread with
  | .appendEntries call timeout, _ => s.appendEntries cfg call timeout
  | .requestVote call timeout, _ => some (s.requestVote cfg call timeout)
  | .propose data, _ => some (s.propose cfg data)
  | .kill, _ => some (silent { s with raft := { s.raft with dead := true } })
  | .loopTop, .loopTop => some (silent (s.loopTop i.now))
  | .leaderWait, .leaderWait => some (silent { s with thread := .loopTop })
  | .poll, .waiting start => some (silent (s.poll i.now start))
  | .startElection timeout, .startElection => some (s.startElection cfg timeout)
  | .requestTerm, .requestTerm votes peer todo =>
    some (silent { s with thread := .requestIndex votes peer todo s.raft.currentTerm })
  | .requestIndex, .requestIndex votes peer todo term =>
    some (silent { s with thread := .requestSend votes peer todo term s.raft.log.length })
  | .requestSend callId, .requestSend votes peer todo term lastIndex =>
    some (s.requestSend cfg votes peer todo term lastIndex callId)
  | .voteReturned reply, .awaitVote votes call todo =>
    some (silent (s.voteReturned votes call todo reply))
  | .compareTerm, .gotReply votes _ reply todo =>
    some (silent (s.compareTerm cfg votes reply todo))
  | .stepDown timeout, .stepDown votes term => some (silent (s.stepDown votes term timeout))
  | .decide timeout, .decide votes => some (s.decide cfg votes timeout)
  | .initLeader, .initLeader => some (silent (s.initLeader cfg i.now))
  | .buildRound callId, .buildRound site => s.buildRound cfg site callId
  | .roundReturned replies timeout, .awaitRound reqs site =>
    if replies.length = reqs.length then s.roundReturned cfg i.now reqs site replies timeout
    else none
  | .applyNext, .applying (result :: rest) site =>
    some {
      node := { raft := s.raft.apply result, thread := applyResults site rest }
      events := [.applied cfg.id result]
      sends := [] }
  | _, _ => none

end Node

/-- A node among arbitrary requests, replies and clock readings. -/
def nodeSystem (cfg : Config) : System Node Input Event where
  init s := ∃ timeout, s = Node.init timeout
  step s i := (s.step cfg i).map fun eff => (eff.node, eff.events)

end Rafty
