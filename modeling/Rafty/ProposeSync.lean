import Rafty.Node

/-!
# `propose_sync`

A call appends its entry with `propose` and then polls under the lock, at most five seconds, until
`last_applied_` has reached the index of the entry or the node leads no more. Any number of calls
run next to each other and to the other threads of the node; a call is a list entry that each of its
blocks moves on.
-/

namespace Rafty

open Infra

/-- A call `propose_sync(data)`, with the `result` of its `propose`. -/
inductive SyncCall where
  /-- At the head of the loop. -/
  | looping (data : Bytes) (result : ProposalResult) (deadline : Nat)
  /-- In the loop, about to take the lock. -/
  | locking (data : Bytes) (result : ProposalResult) (deadline : Nat)
  | returned (data : Bytes) (result : ProposalResult)
deriving DecidableEq, Repr

namespace SyncCall

/-- The call after its `propose`. -/
def start (data : Bytes) (result : ProposalResult) (now : Nat) : SyncCall :=
  if result.isLeader then .looping data result (now + milliseconds 5000)
  else .returned data result

/-- The condition of the loop; past it the leadership is reported as lost. -/
def check (dead : Bool) (now : Nat) : SyncCall → Option SyncCall
  | .looping data result deadline =>
    if ¬dead ∧ now < deadline then some (.locking data result deadline)
    else some (.returned data { result with isLeader := false })
  | _ => none

/-- The block under the lock. -/
def poll (raft : Raft) : SyncCall → Option SyncCall
  | .locking data result deadline =>
    if raft.lastApplied ≥ result.index then some (.returned data result)
    else if raft.role ≠ .leader then some (.returned data { result with isLeader := false })
    else some (.looping data result deadline)
  | _ => none

end SyncCall

/-- A node and the calls of `propose_sync` on it, oldest first. -/
structure SyncNode where
  node : Node
  calls : List SyncCall

inductive SyncAction where
  /-- A step of another thread. -/
  | node (action : Action)
  | call (data : Bytes)
  | check (k : Nat)
  | poll (k : Nat)
deriving DecidableEq

structure SyncInput where
  now : Nat
  action : SyncAction
deriving DecidableEq

/-- Call number `k`, of `propose_sync(data)`, returned `result`. -/
inductive SyncEvent where
  | returned (k : Nat) (data : Bytes) (result : ProposalResult)
deriving DecidableEq, Repr

namespace SyncNode

/-- The call number `k` moves on to `call`. -/
def proceed (s : SyncNode) (k : Nat) (call : SyncCall) : SyncNode × List SyncEvent :=
  ({ s with calls := s.calls.set k call },
    match call with
    | .returned data result => [.returned k data result]
    | _ => [])

def step (cfg : Config) (s : SyncNode) (i : SyncInput) : Option (SyncNode × List SyncEvent) :=
  match i.action with
  | .node action =>
    (s.node.step cfg ⟨i.now, action⟩).map fun eff => ({ s with node := eff.node }, [])
  | .call data =>
    let (raft, result) := s.node.raft.propose data
    some (
      { node := { s.node with raft := raft }
        calls := s.calls ++ [.start data result i.now] },
      if result.isLeader then [] else [.returned s.calls.length data result])
  | .check k => do
    let call ← s.calls[k]?
    let call ← call.check s.node.raft.dead i.now
    some (s.proceed k call)
  | .poll k => do
    let call ← s.calls[k]?
    let call ← call.poll s.node.raft
    some (s.proceed k call)

end SyncNode

/-- A node among arbitrary requests, replies and clock readings, with calls of `propose_sync`. -/
def syncSystem (cfg : Config) : System SyncNode SyncInput SyncEvent where
  init s := ∃ timeout, s = { node := Node.init timeout, calls := [] }
  step := SyncNode.step cfg

end Rafty
