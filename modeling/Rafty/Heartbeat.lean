import Rafty.Raft

/-!
# The critical sections of `send_heartbeats`

A round has two of them. The first builds one request per peer; the second, once every worker is
done, works through the results, moves `commit_index_` and renews or drops the leadership. The calls
`apply(r)` come after the second one, without the lock, and are steps of the thread
(`Rafty/Node.lean`).

A worker hands the request to gRPC and stores the reply, so the requests are on their way when they
are built, and a result is either a reply to that very call or `rpc_ok = false`.
-/

namespace Rafty

/-- `PeerReq`; `peer_id` and `request` are the callee and the request of the call. -/
structure PeerReq where
  call : Call AppendEntriesRequest
  prevIdx : Nat
  entriesSent : Nat
deriving DecidableEq, Repr

/-- `PeerResult`; `reply = none` is `rpc_ok = false`. -/
structure PeerResult where
  peerId : NodeId
  prevIdx : Nat
  entriesSent : Nat
  reply : Option AppendEntriesReply
deriving DecidableEq, Repr

/-- The results of a round, from its requests and what each call returned. -/
def peerResults (reqs : List PeerReq) (replies : List (Option AppendEntriesReply)) :
    List PeerResult :=
  List.zipWith (fun req reply =>
    { peerId := req.call.callee, prevIdx := req.prevIdx, entriesSent := req.entriesSent,
      reply := reply }) reqs replies

namespace Raft

/-! ## Building the requests -/

/-- The body of the loop over `peers_`, for a peer whose `nextIndex_` is `nextIdx`. -/
def buildRequest (s : Raft) (id peer : NodeId) (nextIdx callId : Nat) : Option PeerReq := do
  let prevIdx := pred64 nextIdx
  let prevLogTerm ← if prevIdx = 0 then some 0 else (s.log[prevIdx - 1]?).map Entry.term
  let entries := s.log.drop (pred64 nextIdx)
  some {
    call := {
      callId := callId, caller := id, callee := peer
      request := {
        term := s.currentTerm, leaderId := id, prevLogIndex := prevIdx,
        prevLogTerm := prevLogTerm, entries := entries, leaderCommit := s.commitIndex } }
    prevIdx := prevIdx
    entriesSent := entries.length }

/-- A peer without a `nextIndex_` gets one past the end of the log. -/
def ensureNextIndex (s : Raft) (peer : NodeId) : Raft :=
  if (s.nextIndex.lookup peer).isSome then s
  else { s with nextIndex := s.nextIndex.insert peer (s.log.length + 1) }

def buildRequests (s : Raft) (id : NodeId) (callId : Nat) :
    List NodeId → Option (Raft × List PeerReq)
  | [] => some (s, [])
  | peer :: peers => do
    let s := s.ensureNextIndex peer
    let req ← s.buildRequest id peer (s.nextIndex.get peer) callId
    let (s, reqs) ← buildRequests s id (callId + 1) peers
    some (s, req :: reqs)

/-! ## Working through the results -/

/-- A reply with a higher term: the node gives up the leadership. -/
def yieldTo (s : Raft) (term : Nat) (timeout : ElectionTimeout) : Raft :=
  { s with currentTerm := term, role := .follower, votedFor := none, isLeaderAtomic := false
    }.resetElectionTimer timeout

/-- The update of `matchIndex_` and `nextIndex_` for one reply. -/
def recordReply (s : Raft) (result : PeerResult) (reply : AppendEntriesReply) : Raft :=
  if reply.success then
    let matched := result.prevIdx + result.entriesSent
    { s with
      matchIndex := s.matchIndex.insert result.peerId matched
      nextIndex := s.nextIndex.insert result.peerId (matched + 1) }
  else
    let nextIndex := PeerTable.touch s.nextIndex result.peerId
    if PeerTable.get nextIndex result.peerId > 1 then
      { s with
        nextIndex := nextIndex.insert result.peerId (PeerTable.get nextIndex result.peerId - 1) }
    else { s with nextIndex := nextIndex }

/-- The loop over the results. `error` is the early return after `yieldTo`. -/
def resultsLoop (s : Raft) (timeout : ElectionTimeout) (confirmations : Nat) :
    List PeerResult → Except Raft (Raft × Nat)
  | [] => .ok (s, confirmations)
  | result :: rest =>
    match result.reply with
    | none => resultsLoop s timeout confirmations rest
    | some reply =>
      if reply.term > s.currentTerm then .error (s.yieldTo reply.term timeout)
      else
        resultsLoop (s.recordReply result reply) timeout
          (if reply.term = s.currentTerm then confirmations + 1 else confirmations) rest

/-- How many nodes, the leader included, hold the log up to `idx` as far as the leader knows. -/
def replicaCount (s : Raft) (idx : Nat) : Nat :=
  1 + (s.matchIndex.entries.filter fun entry => idx ≤ entry.2).length

/-- The loop `for (idx = log_.size(); idx > commit_index_; --idx)`; its value is `commit_index_`. -/
def commitLoop (s : Raft) (majority : Nat) : Nat → Nat
  | 0 => s.commitIndex
  | idx + 1 =>
    if idx + 1 > s.commitIndex then
      if (s.log[idx]?).map Entry.term ≠ some s.currentTerm then commitLoop s majority idx
      else if s.replicaCount (idx + 1) ≥ majority then idx + 1
      else commitLoop s majority idx
    else s.commitIndex

def commitEntries (s : Raft) (majority : Nat) : Raft :=
  { s with commitIndex := s.commitLoop majority s.log.length }

/-- A majority answered: the lease runs from now. -/
def renewLease (s : Raft) (now : Nat) : Option Raft :=
  let s := { s with lastMajorityAt := now, leaseExpires := now + leaseDuration }
  if s.commitIndex > 0 then
    (s.log[s.commitIndex - 1]?).map fun entry =>
      if entry.term = s.currentTerm then { s with lastTermCommitIdx := s.commitIndex } else s
  else some s

/-- The test of the branch that gives up a leadership for want of a majority. -/
def majorityLost (s : Raft) (now : Nat) : Bool :=
  now - s.lastMajorityAt > milliseconds s.electionTimeout.val

/-- The other branch: no majority answered, and the last one may be too long ago. -/
def checkMajority (s : Raft) (now : Nat) (timeout : ElectionTimeout) : Raft :=
  if s.majorityLost now then
    { s with role := .follower, votedFor := none, isLeaderAtomic := false }.resetElectionTimer
      timeout
  else s

/-- The second critical section once the loop over the results is through. -/
def finishRound (s : Raft) (cfg : Config) (now : Nat) (timeout : ElectionTimeout)
    (confirmations : Nat) : Option (Raft × List ApplyResult) := do
  let s := s.commitEntries cfg.majority
  let toApply ← applyLoop s.log s.lastApplied (s.commitIndex - s.lastApplied)
  let s := { s with lastApplied := max s.lastApplied s.commitIndex }
  let s ← if confirmations ≥ cfg.majority then s.renewLease now
    else some (s.checkMajority now timeout)
  some (s, toApply)

/-- The second critical section; the list is `to_apply`. -/
def processResults (s : Raft) (cfg : Config) (now : Nat) (timeout : ElectionTimeout)
    (results : List PeerResult) : Option (Raft × List ApplyResult) :=
  if s.role = .leader then
    match s.resultsLoop timeout 1 results with
    | .error s => some (s, [])
    | .ok (s, confirmations) => s.finishRound cfg now timeout confirmations
  else some (s, [])

end Raft

end Rafty
