import Rafty.Cluster
import Rafty.Kv.Server

/-!
# A node with its key-value server

`KvNodeWrapper` of `app/kv_node.cpp`: next to the threads of the Raft node there are

* the thread that takes results out of `ready_queue` and hands each to `on_apply`;
* a thread for every `Put`, `Get` and `Append`, in `propose_and_wait` or `try_leader_read`.

Each block under a lock is a step, and so is each `set_value` and each return of `wait_for`; between
two of them anything can happen. Calls are numbered in the order in which they come in.

A promise lives in the `PendingOp` it was moved to. If that is overwritten or erased, the promise is
destroyed, and if it has no value by then the call that waits for it gets an exception.
-/

namespace Rafty

open Infra

/-- The state shared by a promise and the future that `propose_and_wait` keeps. -/
inductive Promise where
  | unset
  | fulfilled (reply : Reply)
  /-- Destroyed without a value: `fut.get()` throws. -/
  | broken
deriving DecidableEq, Repr

/-- What happens to a promise that is destroyed. -/
def Promise.destroy : Promise → Promise
  | .unset => .broken
  | promise => promise

/-- How a call ends. -/
inductive Ending where
  /-- `KV_NOTLEADER`. -/
  | notLeader
  /-- `KV_SUCCESS` on the fast path. -/
  | fastRead (value : Bytes)
  /-- What `fut.get()` returned. -/
  | answered (reply : Reply)
  /-- `KV_TIMEOUT` after five seconds. -/
  | timedOut
  /-- The exception of `fut.get()`. -/
  | threw
deriving DecidableEq, Repr

/-- A call of a client, between two of its blocks. -/
inductive CallThread where
  /-- In a `Get`, about to ask `get_lease_state`. -/
  | asking (cmd : Command)
  /-- On the fast path with `commit_idx`, about to read `store_`. -/
  | reading (key : Bytes) (commitIdx : Nat)
  | proposing (cmd : Command)
  /-- Has proposed at `index`, about to register. -/
  | registering (index clientId seqNum : Nat)
  /-- In `fut.wait_for`. -/
  | waiting (index deadline : Nat)
  /-- `wait_for` has returned `timeout`, about to erase. -/
  | expired (index : Nat)
  | ended (ending : Ending)
deriving DecidableEq, Repr

structure KvCall where
  thread : CallThread
  promise : Promise
deriving DecidableEq, Repr

/-- The thread that calls `on_apply`. -/
inductive Applier where
  | idle
  /-- About to decode, and to look into `rifl_`. -/
  | received (result : ApplyResult)
  /-- About to touch `store_`. -/
  | checked (index : Nat) (cmd : Command) (outcome : Outcome)
  /-- About to take `state_mu_` again. -/
  | executed (index : Nat) (cmd : Command) (outcome : Outcome)
  /-- Has released the lock, about to call `set_value`. -/
  | fulfilling (op : PendingOp) (reply : Reply)
  | exited
deriving DecidableEq, Repr

structure KvNode where
  node : Node
  server : KvServer
  applier : Applier
  /-- How many results have been taken out of `ready_queue`. -/
  dequeued : Nat
  calls : List KvCall

inductive KvAction where
  /-- A step of the Raft node, or a proposal by somebody else. -/
  | raft (action : Action)
  -- the thread that calls `on_apply`
  | dequeue
  | check
  | execute
  | finish
  | fulfil
  -- the thread of call number `k`
  | call (cmd : Command)
  | lease (k : Nat)
  | read (k : Nat)
  | propose (k : Nat)
  | register (k : Nat)
  | expire (k : Nat)
  | erase (k : Nat)
  | collect (k : Nat)
deriving DecidableEq

structure KvInput where
  now : Nat
  action : KvAction
deriving DecidableEq

inductive KvEvent where
  /-- The operation of `cmd` was executed against `store_` and computed `value`. -/
  | executed (cmd : Command) (value : Bytes)
  /-- The promise of `op` got its value. -/
  | fulfilled (op : PendingOp) (reply : Reply)
deriving DecidableEq, Repr

namespace KvNode

def init (timeout : ElectionTimeout) : KvNode where
  node := Node.init timeout
  server := .init
  applier := .idle
  dequeued := 0
  calls := []

/-! ## Calls and promises -/

/-- The thread of call `k` goes on. -/
def proceed (s : KvNode) (k : Nat) (thread : CallThread) : KvNode :=
  { s with calls := s.calls.modify k fun call => { call with thread := thread } }

/-- `set_value` on the promise of `op`. -/
def fulfilPromise (s : KvNode) (op : PendingOp) (reply : Reply) : KvNode :=
  { s with calls := s.calls.modify op.call fun call => { call with promise := .fulfilled reply } }

/-- The entry of `pending_` at `index` is overwritten or erased, its promise with it. -/
def destroyAt (s : KvNode) (index : Nat) : KvNode :=
  match s.server.pending.lookup index with
  | none => s
  | some op =>
    { s with calls := s.calls.modify op.call fun call =>
        { call with promise := call.promise.destroy } }

/-! ## The thread that calls `on_apply` -/

/-- One turn of the loop in `KvNodeWrapper::Apply`, up to the call of `on_apply`. -/
def dequeue (s : KvNode) : Option KvNode :=
  if s.applier ≠ .idle then none
  else if s.node.raft.dead then some { s with applier := .exited }
  else
    (s.node.raft.readyQueue[s.dequeued]?).map fun result =>
      { s with
        applier := if result.valid then .received result else .idle
        dequeued := s.dequeued + 1 }

/-- The first block. An entry that cannot be decoded is through with it. -/
def check (order : ByteOrder) (s : KvNode) (result : ApplyResult) : KvNode × List KvEvent :=
  match deserialize order result.data with
  | some cmd => ({ s with applier := .checked result.index cmd (s.server.check cmd) }, [])
  | none =>
    let (server, waiter) := s.server.reject result.index
    let s := { s with server := server, applier := .idle }
    match waiter with
    | none => (s, [])
    | some (op, reply) => (s.fulfilPromise op reply, [.fulfilled op reply])

/-- The second block. -/
def execute (s : KvNode) (index : Nat) (cmd : Command) (outcome : Outcome) :
    KvNode × List KvEvent :=
  let (replica, outcome') := s.server.execute cmd outcome
  ({ s with
      server := { s.server with toReplica := replica }
      applier := .executed index cmd outcome' },
    if outcome.isDup then [] else [.executed cmd outcome'.reply.value])

/-- The third block. -/
def finish (s : KvNode) (index : Nat) (cmd : Command) (outcome : Outcome) : KvNode :=
  let (server, waiter) := s.server.finish index cmd outcome
  { s with
    server := server
    applier := match waiter with
      | none => .idle
      | some (op, reply) => .fulfilling op reply }

/-! ## The calls -/

/-- A request comes in. A `Get` has no value, and tries the fast path first. -/
def call (s : KvNode) (cmd : Command) : KvNode :=
  let thread := if cmd.op = .get then .asking { cmd with value := [] } else .proposing cmd
  { s with calls := s.calls ++ [{ thread := thread, promise := .unset }] }

/-- `get_lease_state` in `try_leader_read`. -/
def lease (s : KvNode) (now k : Nat) (cmd : Command) : KvNode :=
  let (hasLease, commitIdx) := s.node.raft.getLeaseState now
  s.proceed k (if hasLease then .reading cmd.key commitIdx else .proposing cmd)

/-- The rest of `try_leader_read`; `commit_idx` is not used. -/
def read (s : KvNode) (k : Nat) (key : Bytes) : KvNode :=
  s.proceed k (.ended (.fastRead (s.server.read key)))

/-- The call of `propose` in `propose_and_wait`. -/
def propose (order : ByteOrder) (s : KvNode) (k : Nat) (cmd : Command) : Option KvNode :=
  (serialize order cmd).map fun data =>
    let (raft, result) := s.node.raft.propose data
    let s := { s with node := { s.node with raft := raft } }
    if result.isLeader then s.proceed k (.registering result.index cmd.clientId cmd.seqNum)
    else s.proceed k (.ended .notLeader)

/-- The registration in `pending_`, after which the wait of five seconds starts. -/
def register (s : KvNode) (now k index clientId seqNum : Nat) : KvNode :=
  let s := s.destroyAt index
  { s with server := s.server.register index ⟨clientId, seqNum, k⟩ }.proceed k
    (.waiting index (now + milliseconds 5000))

/-- The erasure after a timeout: whatever stands at the index goes. -/
def erase (s : KvNode) (k index : Nat) : KvNode :=
  let s := s.destroyAt index
  { s with server := { s.server with pending := s.server.pending.erase index } }.proceed k
    (.ended .timedOut)

/-- `fut.get()`, once the shared state is ready. -/
def collect (s : KvNode) (k : Nat) : Promise → Option KvNode
  | .unset => none
  | .fulfilled reply => some (s.proceed k (.ended (.answered reply)))
  | .broken => some (s.proceed k (.ended .threw))

/-- One step of the thread of call `k`, whose next block is that of `action`. -/
def callStep (order : ByteOrder) (s : KvNode) (now : Nat) (action : KvAction) (k : Nat) :
    Option KvNode := do
  let call ← s.calls[k]?
  match action, call.thread with
  | .lease _, .asking cmd => some (s.lease now k cmd)
  | .read _, .reading key _ => some (s.read k key)
  | .propose _, .proposing cmd => s.propose order k cmd
  | .register _, .registering index clientId seqNum =>
    some (s.register now k index clientId seqNum)
  | .expire _, .waiting index deadline =>
    if call.promise = .unset ∧ deadline ≤ now then some (s.proceed k (.expired index)) else none
  | .erase _, .expired index => some (s.erase k index)
  | .collect _, .waiting _ _ => s.collect k call.promise
  | _, _ => none

def step (order : ByteOrder) (cfg : Config) (s : KvNode) (i : KvInput) :
    Option (KvNode × List KvEvent) :=
  match i.action with
  | .raft action =>
    (s.node.step cfg ⟨i.now, action⟩).map fun eff => ({ s with node := eff.node }, [])
  | .dequeue => s.dequeue.map fun s => (s, [])
  | .check =>
    match s.applier with
    | .received result => some (s.check order result)
    | _ => none
  | .execute =>
    match s.applier with
    | .checked index cmd outcome => some (s.execute index cmd outcome)
    | _ => none
  | .finish =>
    match s.applier with
    | .executed index cmd outcome => some (s.finish index cmd outcome, [])
    | _ => none
  | .fulfil =>
    match s.applier with
    | .fulfilling op reply =>
      some ({ s with applier := .idle }.fulfilPromise op reply, [.fulfilled op reply])
    | _ => none
  | .call cmd => some (s.call cmd, [])
  | .lease k | .read k | .propose k | .register k | .expire k | .erase k | .collect k =>
    (s.callStep order i.now i.action k).map fun s => (s, [])

end KvNode

/-- A node and its server among arbitrary messages, requests of clients and clock readings. -/
def kvSystem (order : ByteOrder) (cfg : Config) : System KvNode KvInput KvEvent where
  init s := ∃ timeout, s = KvNode.init timeout
  step := KvNode.step order cfg

/-! ## Node 0 of three, for concrete runs -/

/-- Steps of the node and its server, all at the time `ms`. -/
def kvSteps (ms : Nat) (actions : List KvAction) : List KvInput :=
  actions.map fun action => ⟨milliseconds ms, action⟩

/-- The node waits long enough, is elected in term 1 and has a first round without entries. -/
def kvLeader : List KvInput :=
  kvSteps 0 [.raft .loopTop] ++
  kvSteps 300 ((winElection ++ [.buildRound 1, bothAnswer, .loopTop]).map .raft)

/-- One result through the blocks of `on_apply`. -/
def applyOne : List KvAction := [.dequeue, .check, .execute, .finish]

/-- The steps `inputs` of node 0 and its server are a run with what `P` asks for. -/
theorem exists_kvRun (inputs : List KvInput)
    (P : List (Transition KvNode KvInput KvEvent) → KvNode → Prop) [∀ ts s, Decidable (P ts s)]
    (h : ((kvSystem .little (threeNodes.config 0)).exec [] (KvNode.init shortTimeout) inputs).any
      (fun r => decide (P r.1 r.2)) = true) :
    ∃ ts s, (kvSystem .little (threeNodes.config 0)).Run ts s ∧ ts.map Transition.input = inputs ∧
      P ts s :=
  System.exists_run_of_exec _ inputs P ⟨_, rfl⟩ h

end Rafty
