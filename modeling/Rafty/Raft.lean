import Rafty.Message

/-!
# The `Raft` object and its critical sections

`Raft` holds the fields of `class Raft` that its functions read. Each block the code runs under
`Raft::mtx` is one function here: it takes the fields, the arguments of the call and what the block
reads from outside (the clock, the draw of `reset_election_timer`), and returns the fields after it.

`none` stands for an access to `log_` outside the vector.

Left out: `lease_granted_at_` (written, never read), the logger, the gRPC server and stubs, and the
flags of the per-peer workers. `peers_` is filled by `connect_peers` before `run` starts and never
changes, so its keys are a part of the configuration.
-/

namespace Rafty

inductive Role where
  | follower
  | candidate
  | leader
deriving DecidableEq, Repr

/-- What `reset_election_timer` can draw, in milliseconds. -/
abbrev ElectionTimeout := { ms : Nat // 300 ≤ ms ∧ ms ≤ 600 }

/-- A duration in milliseconds, counted in the nanoseconds of `steady_clock`. -/
def milliseconds (ms : Nat) : Nat := ms * 1000000

/-- `kLeaseDuration`. -/
def leaseDuration : Nat := milliseconds 250

/-- The part of `rafty::Config` that the protocol uses: the node's id and the keys of `peers_`. -/
structure Config where
  id : NodeId
  peers : List NodeId

/-- `(peers_.size() + 1) / 2 + 1`. -/
def Config.majority (cfg : Config) : Nat := (cfg.peers.length + 1) / 2 + 1

structure Raft where
  role : Role
  currentTerm : Nat
  votedFor : Option NodeId
  electionTimeout : ElectionTimeout
  lastMajorityAt : Nat
  isLeaderAtomic : Bool
  leaseExpires : Nat
  lastTermCommitIdx : Nat
  receivedHeartbeat : Bool
  dead : Bool
  log : List Entry
  commitIndex : Nat
  lastApplied : Nat
  nextIndex : PeerTable
  matchIndex : PeerTable
  /-- Everything `apply` has enqueued so far, oldest first. -/
  readyQueue : List ApplyResult
deriving DecidableEq

/-- The constructor `Raft::Raft`; it ends with a `reset_election_timer`. -/
def Raft.init (timeout : ElectionTimeout) : Raft where
  role := .follower
  currentTerm := 0
  votedFor := none
  electionTimeout := timeout
  lastMajorityAt := 0
  isLeaderAtomic := false
  leaseExpires := 0
  lastTermCommitIdx := 0
  receivedHeartbeat := false
  dead := false
  log := []
  commitIndex := 0
  lastApplied := 0
  nextIndex := ∅
  matchIndex := ∅
  readyQueue := []

namespace Raft

def resetElectionTimer (s : Raft) (timeout : ElectionTimeout) : Raft :=
  { s with electionTimeout := timeout }

/-- `apply`: enqueue into `ready_queue`. -/
def apply (s : Raft) (result : ApplyResult) : Raft :=
  { s with readyQueue := s.readyQueue ++ [result] }

/-! ## `handle_append_entries` -/

/-- The part after the term check and before the log is looked at. -/
def acceptLeader (s : Raft) (request : AppendEntriesRequest) (timeout : ElectionTimeout) : Raft :=
  let s := if request.term > s.currentTerm then
      { s with currentTerm := request.term, votedFor := none } else s
  let s := if s.role = .leader then { s with isLeaderAtomic := false } else s
  { s with role := .follower, receivedHeartbeat := true }.resetElectionTimer timeout

/-- `commit_index_` after the clamp at the end of the handler. -/
def followerCommit (s : Raft) (request : AppendEntriesRequest) (log : List Entry) : Nat :=
  if request.leaderCommit > s.commitIndex then min request.leaderCommit log.length
  else s.commitIndex

/-- The part once the previous entry matches: the entry loop, the commit clamp, the apply loop. -/
def storeEntries (s : Raft) (request : AppendEntriesRequest) : Option Raft := do
  let log := appendLoop s.log request.prevLogIndex request.entries
  let commitIndex := s.followerCommit request log
  let results ← applyLoop log s.lastApplied (commitIndex - s.lastApplied)
  some { s with
    log := log
    commitIndex := commitIndex
    lastApplied := max s.lastApplied commitIndex
    readyQueue := s.readyQueue ++ results }

def handleAppendEntries (s : Raft) (request : AppendEntriesRequest) (timeout : ElectionTimeout) :
    Option (Raft × AppendEntriesReply) :=
  if request.term < s.currentTerm then
    some (s, { term := s.currentTerm, success := false })
  else
    let s := s.acceptLeader request timeout
    if logMatches s.log request then
      (s.storeEntries request).map fun s => (s, { term := s.currentTerm, success := true })
    else some (s, { term := s.currentTerm, success := false })

/-! ## `handle_request_vote` -/

/-- A higher term ends whatever the node was doing. `is_leader_atomic_` is not touched here. -/
def raiseTerm (s : Raft) (request : RequestVoteReq) (timeout : ElectionTimeout) : Raft :=
  if request.term > s.currentTerm then
    { s with currentTerm := request.term, votedFor := none, role := .follower }.resetElectionTimer
      timeout
  else s

/-- The condition under which the vote is given. -/
def mayVote (s : Raft) (request : RequestVoteReq) : Bool :=
  (s.votedFor.isNone || s.votedFor = some request.candidateId) &&
    upToDate s.log request.lastLogIndex request.lastLogTerm

def handleRequestVote (s : Raft) (request : RequestVoteReq) (timeout : ElectionTimeout) :
    Raft × RequestVoteReply :=
  if request.term < s.currentTerm then
    (s, { term := s.currentTerm, voteGranted := false })
  else
    let s := s.raiseTerm request timeout
    if s.mayVote request then
      ({ s with votedFor := some request.candidateId }.resetElectionTimer timeout,
        { term := s.currentTerm, voteGranted := true })
    else (s, { term := s.currentTerm, voteGranted := false })

/-! ## `propose` -/

def propose (s : Raft) (data : Bytes) : Raft × ProposalResult :=
  if s.role = .leader then
    let log := s.log ++ [{ term := s.currentTerm, command := data }]
    ({ s with log := log }, { index := log.length, term := s.currentTerm, isLeader := true })
  else (s, { index := 0, term := s.currentTerm, isLeader := false })

/-! ## `get_lease_state` -/

/--
The code holds no lock here and reads the three atomics and the clock one after the other, so a step
of another thread can come in between. Here they are read at one moment.
-/
def getLeaseState (s : Raft) (now : Nat) : Bool × Nat :=
  if ¬s.isLeaderAtomic then (false, 0)
  else if now ≥ s.leaseExpires then (false, 0)
  else if s.lastTermCommitIdx = 0 then (false, 0)
  else (true, s.lastTermCommitIdx)

end Raft

end Rafty
