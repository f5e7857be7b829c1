import Rafty.Kv.Codec

/-!
# The key-value server

`KvServer` of `inc/kv/kv_server.hpp`, block by block. `store_` has a lock of its own, `rifl_`,
`pending_` and `last_kv_applied_` share `state_mu_`; `on_apply` takes the locks one after the other,
so it is three blocks: the look into `rifl_`, the operation on `store_`, and the record of both with
the search for a waiter.

`Replica` is the part that the applied entries determine.
-/

namespace Rafty

/-- `kvpb::KvStatus`. -/
inductive KvStatus where
  | success
  | notLeader
  | timeout
deriving DecidableEq, Repr

/-- `std::pair<KvStatus, std::string>`, the value of a promise. -/
structure Reply where
  status : KvStatus
  value : Bytes
deriving DecidableEq, Repr

/-- `CachedReply`. -/
structure CachedReply where
  seqNum : Nat
  reply : Reply
deriving DecidableEq, Repr

/-- `PendingOp`; of the promise, the number of the call that waits for it. -/
structure PendingOp where
  clientId : Nat
  seqNum : Nat
  call : Nat
deriving DecidableEq, Repr

/-- The store and the table of the newest reply to each client. -/
structure Replica where
  store : AList (fun _ : Bytes => Bytes)
  rifl : AList (fun _ : Nat => CachedReply)
deriving DecidableEq

/-- The local variables of `on_apply` after its first block. -/
structure Outcome where
  isDup : Bool
  reply : Reply
deriving DecidableEq, Repr

namespace Replica

def init : Replica where
  store := ∅
  rifl := ∅

/-- The first block: a sequence number at or below the recorded one is a duplicate. -/
def check (s : Replica) (cmd : Command) : Outcome :=
  match s.rifl.lookup cmd.clientId with
  | some cached =>
    if cached.seqNum ≥ cmd.seqNum then { isDup := true, reply := cached.reply }
    else { isDup := false, reply := { status := .success, value := [] } }
  | none => { isDup := false, reply := { status := .success, value := [] } }

/-- `store_[key]` read, with the empty string for a missing key. -/
def read (s : Replica) (key : Bytes) : Bytes := (s.store.lookup key).getD []

/-- The second block: the operation, unless the entry is a duplicate. -/
def execute (s : Replica) (cmd : Command) (outcome : Outcome) : Replica × Outcome :=
  if outcome.isDup then (s, outcome)
  else
    match cmd.op with
    | .put => ({ s with store := s.store.insert cmd.key cmd.value }, outcome)
    | .get => (s, { outcome with reply := { outcome.reply with value := s.read cmd.key } })
    | .append =>
      ({ s with store := s.store.insert cmd.key (s.read cmd.key ++ cmd.value) }, outcome)

/-- What the third block does to `rifl_`. -/
def record (s : Replica) (cmd : Command) (outcome : Outcome) : Replica :=
  if outcome.isDup then s
  else { s with rifl := s.rifl.insert cmd.clientId ⟨cmd.seqNum, outcome.reply⟩ }

/-- The three blocks on one command: the replica after them and the computed reply. -/
def applyCommand (s : Replica) (cmd : Command) : Replica × Reply :=
  let (s, outcome) := s.execute cmd (s.check cmd)
  (s.record cmd outcome, outcome.reply)

/-- `on_apply` as far as the replica is concerned; no reply is computed for what is not decoded. -/
def onApply (order : ByteOrder) (s : Replica) (result : ApplyResult) : Replica × Option Reply :=
  if ¬result.valid then (s, none)
  else
    match deserialize order result.data with
    | none => (s, none)
    | some cmd => ((s.applyCommand cmd).1, some (s.applyCommand cmd).2)

end Replica

structure KvServer extends Replica where
  pending : AList (fun _ : Nat => PendingOp)
  lastKvApplied : Nat
deriving DecidableEq

namespace KvServer

def init : KvServer where
  toReplica := .init
  pending := ∅
  lastKvApplied := 0

/-- What a waiter is told when the entry at its index turns out to be of `clientId, seqNum`. -/
def answerTo (op : PendingOp) (clientId seqNum : Nat) (reply : Reply) : Reply :=
  if op.clientId = clientId ∧ op.seqNum = seqNum then reply
  else { status := .timeout, value := [] }

/-- The waiter at `index` is taken out of `pending_`, with what it is to be told. -/
def takeWaiter (s : KvServer) (index clientId seqNum : Nat) (reply : Reply) :
    KvServer × Option (PendingOp × Reply) :=
  ({ s with pending := s.pending.erase index },
    (s.pending.lookup index).map fun op => (op, answerTo op clientId seqNum reply))

/-- The third block. The promise of the waiter is fulfilled once the lock is free. -/
def finish (s : KvServer) (index : Nat) (cmd : Command) (outcome : Outcome) :
    KvServer × Option (PendingOp × Reply) :=
  { s with toReplica := s.record cmd outcome, lastKvApplied := index }.takeWaiter index
    cmd.clientId cmd.seqNum outcome.reply

/-- The block of an entry that cannot be decoded, `notify_waiter_state_locked`. -/
def reject (s : KvServer) (index : Nat) : KvServer × Option (PendingOp × Reply) :=
  s.takeWaiter index 0 0 { status := .timeout, value := [] }

/-- `on_apply` without interruption: the server after it and the computed reply. -/
def onApply (order : ByteOrder) (s : KvServer) (result : ApplyResult) :
    KvServer × Option Reply :=
  if ¬result.valid then (s, none)
  else
    match deserialize order result.data with
    | none => ((s.reject result.index).1, none)
    | some cmd =>
      let outcome := s.check cmd
      let (replica, outcome) := s.execute cmd outcome
      let s := { s with toReplica := replica }
      ((s.finish result.index cmd outcome).1, some outcome.reply)

/-- `pending_[index] = std::move(op)`. -/
def register (s : KvServer) (index : Nat) (op : PendingOp) : KvServer :=
  { s with pending := s.pending.insert index op }

end KvServer

end Rafty
