import Rafty.Heartbeat
import Rafty.Infra.Run

/-!
# A leader and one of its followers, within a term

Two ways to look at the requests that `send_heartbeats` builds for one peer.

* `pairSystem` — the leader builds requests now and then, from any `nextIndex_`, while `propose`
  lets its log grow; the network hands them to the follower in any order, again and again, or never.
* `repair` — round after round with nothing lost, until the follower answers success.
-/

namespace Rafty

open Infra

/-- The log grows by one entry for each of `batch`. -/
def Raft.proposeAll (s : Raft) (batch : List Bytes) : Raft :=
  batch.foldl (fun s data => (s.propose data).1) s

/-! ## Requests in any order -/

/-- A leader, what it has built for the peer so far, and the peer. -/
structure Pair where
  leader : Raft
  sent : List AppendEntriesRequest
  follower : Raft

inductive PairAction where
  | propose (data : Bytes)
  /-- The leader's `commit_index_` moves, to wherever the other peers let it. -/
  | commit (index : Nat)
  /-- `send_heartbeats` builds a request while `nextIndex_` of the peer is `nextIdx`. -/
  | build (nextIdx : Nat)
  /-- The follower handles the request built as number `k`, once more or for the first time. -/
  | deliver (k : Nat) (timeout : ElectionTimeout)
deriving DecidableEq

/-- The follower answered success to a request that covers the indices `1, …, upTo`. -/
inductive PairEvent where
  | acked (upTo : Nat)
deriving DecidableEq, Repr

namespace Pair

def step (id peer : NodeId) (s : Pair) : PairAction → Option (Pair × List PairEvent)
  | .propose data => some ({ s with leader := (s.leader.propose data).1 }, [])
  | .commit index => some ({ s with leader := { s.leader with commitIndex := index } }, [])
  | .build nextIdx =>
    if 1 ≤ nextIdx ∧ nextIdx ≤ s.leader.log.length + 1 then
      (s.leader.buildRequest id peer nextIdx s.sent.length).map fun req =>
        ({ s with sent := s.sent ++ [req.call.request] }, [])
    else none
  | .deliver k timeout => do
    let request ← s.sent[k]?
    let (follower, reply) ← s.follower.handleAppendEntries request timeout
    some ({ s with follower := follower },
      if reply.success then [.acked (request.prevLogIndex + request.entries.length)] else [])

end Pair

/-- The leader and the follower start in any two states. -/
def pairSystem (id peer : NodeId) (leader follower : Raft) : System Pair PairAction PairEvent where
  init s := s = { leader := leader, sent := [], follower := follower }
  step := Pair.step id peer

/-! ## Round after round -/

/--
A round of `send_heartbeats` with one peer, in which the request and the reply arrive: the leader
and the follower after it, and the reply.
-/
def repairRound (id peer : NodeId) (timeout : ElectionTimeout) (leader follower : Raft) :
    Option (Raft × Raft × AppendEntriesReply) := do
  let (leader, reqs) ← leader.buildRequests id 0 [peer]
  let req ← reqs.head?
  let (follower, reply) ← follower.handleAppendEntries req.call.request timeout
  match leader.resultsLoop timeout 1 (peerResults [req] [some reply]) with
  | .ok (leader, _) => some (leader, follower, reply)
  | .error leader => some (leader, follower, reply)

/-- Where a repair ended: both nodes after the first success, and how many rounds it took. -/
structure Repaired where
  leader : Raft
  follower : Raft
  rounds : Nat

/--
Rounds until the first success. Each comes with the commands proposed right before it and the draw
of its `reset_election_timer`; `none` if the list is used up.
-/
def repair (id peer : NodeId) :
    List (List Bytes × ElectionTimeout) → Raft → Raft → Option Repaired
  | [], _, _ => none
  | (batch, timeout) :: rest, leader, follower => do
    let (leader, follower, reply) ←
      repairRound id peer timeout (leader.proposeAll batch) follower
    if reply.success then
      some { leader := leader, follower := follower, rounds := 1 }
    else
      (repair id peer rest leader follower).map fun r => { r with rounds := r.rounds + 1 }

end Rafty
