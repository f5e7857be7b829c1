import Mathlib.Algebra.Group.Nat.Defs
import Mathlib.Data.List.AList

/-!
# Messages and records

The messages of `proto/raft.proto`, the records of `inc/common/common.hpp` and the indices kept per
peer. A `uint64` that only counts up to the size of a container in memory is a `Nat`; the two places
where the code can wrap (`current_term_++` and `nextIdx - 1`) go through `succ64` and `pred64`.
-/

namespace Rafty

abbrev NodeId := Nat

/-- `bytes` of protobuf and `std::string` used as a byte string. -/
abbrev Bytes := List UInt8

/-- `x + 1` on `uint64_t`. -/
def succ64 (x : Nat) : Nat := (x + 1) % 2 ^ 64

/-- `x - 1` on `uint64_t`. -/
def pred64 (x : Nat) : Nat := if x = 0 then 2 ^ 64 - 1 else x - 1

/-- `raftpb::Entry`. -/
structure Entry where
  term : Nat
  command : Bytes
deriving DecidableEq, Repr

/-- `raftpb::AppendEntriesRequest`. -/
structure AppendEntriesRequest where
  term : Nat
  leaderId : NodeId
  prevLogIndex : Nat
  prevLogTerm : Nat
  entries : List Entry
  leaderCommit : Nat
deriving DecidableEq, Repr

/-- `raftpb::AppendEntriesReply`. -/
structure AppendEntriesReply where
  term : Nat
  success : Bool
deriving DecidableEq, Repr

/-- `raftpb::RequestVoteReq`. -/
structure RequestVoteReq where
  term : Nat
  candidateId : NodeId
  lastLogIndex : Nat
  lastLogTerm : Nat
deriving DecidableEq, Repr

/-- `raftpb::RequestVoteReply`. -/
structure RequestVoteReply where
  term : Nat
  voteGranted : Bool
deriving DecidableEq, Repr

/-- `rafty::ApplyResult`. -/
structure ApplyResult where
  valid : Bool
  data : Bytes
  index : Nat
deriving DecidableEq, Repr

/-- `rafty::ProposalResult`. -/
structure ProposalResult where
  index : Nat
  term : Nat
  isLeader : Bool
deriving DecidableEq, Repr

/--
One RPC: the client context of gRPC as far as the model needs it.

gRPC hands a reply to the call that made the request, so a reply on the wire carries the whole
call. `callId` keeps apart two calls with the same request.
-/
structure Call (α : Type) where
  callId : Nat
  caller : NodeId
  callee : NodeId
  request : α
deriving DecidableEq, Repr

/-- What is on its way between nodes. -/
inductive Packet where
  | voteRequest (call : Call RequestVoteReq)
  | voteReply (call : Call RequestVoteReq) (reply : RequestVoteReply)
  | appendRequest (call : Call AppendEntriesRequest)
  | appendReply (call : Call AppendEntriesRequest) (reply : AppendEntriesReply)
deriving DecidableEq, Repr

/-! ## Tables keyed by peer -/

/-- `std::unordered_map<uint64_t, uint64_t>`. -/
abbrev PeerTable := AList (fun _ : NodeId => Nat)

namespace PeerTable

/-- `table[peer]` read: a missing key reads as the zero that `operator[]` puts there. -/
def get (table : PeerTable) (peer : NodeId) : Nat := (table.lookup peer).getD 0

/-- The insertion that `operator[]` makes for a missing key. -/
def touch (table : PeerTable) (peer : NodeId) : PeerTable :=
  if (table.lookup peer).isSome then table else table.insert peer 0

end PeerTable

/-! ## Logs -/

/-- The term of the last entry, `0` for an empty log. -/
def lastLogTerm (log : List Entry) : Nat :=
  match log.getLast? with
  | none => 0
  | some entry => entry.term

/--
The comparison of `handle_request_vote`: may a log with last entry `(candidateLastTerm,
candidateLastIndex)` be voted for by a node whose log is `log`?
-/
def upToDate (log : List Entry) (candidateLastIndex candidateLastTerm : Nat) : Bool :=
  if candidateLastTerm > lastLogTerm log then true
  else if candidateLastTerm = lastLogTerm log ∧ candidateLastIndex ≥ log.length then true
  else false

/-- `prevlogindex` lies inside the log and the term there is `prevlogterm`. -/
def logMatches (log : List Entry) (request : AppendEntriesRequest) : Bool :=
  if request.prevLogIndex > log.length then false
  else if request.prevLogIndex > 0 ∧
      (log[request.prevLogIndex - 1]?).map Entry.term ≠ some request.prevLogTerm then false
  else true

/--
The entry loop of `handle_append_entries`. `idx` is the index of the entry handled last.

A local entry whose term agrees is kept and its command is not looked at; at the first term that
differs the log is cut there and every remaining entry is pushed.
-/
def appendLoop (log : List Entry) (idx : Nat) : List Entry → List Entry
  | [] => log
  | entry :: rest =>
    if log.length ≥ idx + 1 then
      if (log[idx]?).map Entry.term ≠ some entry.term then
        appendLoop (log.take idx ++ [entry]) (idx + 1) rest
      else appendLoop log (idx + 1) rest
    else appendLoop (log ++ [entry]) (idx + 1) rest

/--
The loop `while (last_applied_ < commit_index_)`, run `n` times from `lastApplied`.

`none` is an access `log_[last_applied_ - 1]` outside the vector.
-/
def applyLoop (log : List Entry) : Nat → Nat → Option (List ApplyResult)
  | _, 0 => some []
  | lastApplied, n + 1 => do
    let entry ← log[lastApplied]?
    let rest ← applyLoop log (lastApplied + 1) n
    some ({ valid := true, data := entry.command, index := lastApplied + 1 } :: rest)

end Rafty
