import Rafty.Kv.Server

/-!
# The client of the key-value service

`KvClient` of `inc/kv/kv_client.hpp`. Each operation takes the next sequence number and is sent,
with that number, up to `max_attempts_` times: to the replica at `leader_idx_` first, and after
every attempt that is not answered `KV_SUCCESS` to the next one. The constructor and the operations
of a client are called by one thread, one after the other.
-/

namespace Rafty

/-- `max_attempts_`. -/
def maxAttempts : Nat := 50

/-- Where the thread that uses the client is. -/
inductive ClientThread where
  | idle
  /-- At the head of the loop, about to send. -/
  | attempting (cmd : Command) (attempt : Nat)
  /-- Waiting for the response of the RPC with this number. -/
  | calling (cmd : Command) (attempt rpc : Nat)
deriving DecidableEq, Repr

/-- The operation that is under way. -/
def ClientThread.command : ClientThread → Option Command
  | .idle => none
  | .attempting cmd _ | .calling cmd _ _ => some cmd

/-- `stubs_` is not empty, and `leader_idx_` is an index of it. -/
structure KvClient where
  clientId : Nat
  stubs : List NodeId
  leaderIdx : Fin stubs.length
  seqNum : Nat
  thread : ClientThread

namespace KvClient

/-- `client_id_` is drawn at random, and nothing compares it with the id of another client. -/
def init (clientId : UInt64) (stubs : List NodeId) (h : 0 < stubs.length) : KvClient where
  clientId := clientId.toNat
  stubs := stubs
  leaderIdx := ⟨0, h⟩
  seqNum := 0
  thread := .idle

/-- The head of an operation: `uint64_t seq = ++seq_num_`, and the loop starts. -/
def perform (c : KvClient) (op : OpType) (key value : Bytes) : KvClient :=
  { c with
    seqNum := succ64 c.seqNum
    thread := .attempting
      { op := op, clientId := c.clientId, seqNum := succ64 c.seqNum, key := key, value := value }
      0 }

def put (c : KvClient) (key value : Bytes) : KvClient := c.perform .put key value

/-- A `GetRequest` has no value. -/
def get (c : KvClient) (key : Bytes) : KvClient := c.perform .get key []

def append (c : KvClient) (key value : Bytes) : KvClient := c.perform .append key value

/-- The replica behind `stubs_[leader_idx_]`. -/
def target (c : KvClient) : NodeId := c.stubs.get c.leaderIdx

def rotateLeader (c : KvClient) : KvClient :=
  { c with leaderIdx :=
      ⟨(c.leaderIdx + 1) % c.stubs.length, Nat.mod_lt _ (Nat.zero_lt_of_lt c.leaderIdx.isLt)⟩ }

/--
The rest of the loop body, once the RPC has returned: `none` is a status that is not ok. The second
part is what the operation returns, if it does.
-/
def returned (c : KvClient) (cmd : Command) (attempt : Nat) (response : Option Reply) :
    KvClient × Option Reply :=
  match response with
  | some ⟨.success, value⟩ => ({ c with thread := .idle }, some ⟨.success, value⟩)
  | _ =>
    let c := c.rotateLeader
    if attempt + 1 < maxAttempts then ({ c with thread := .attempting cmd (attempt + 1) }, none)
    else ({ c with thread := .idle }, some ⟨.timeout, []⟩)

end KvClient

end Rafty
