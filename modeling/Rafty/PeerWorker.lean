import Mathlib.Logic.Function.Basic
import Rafty.Infra.Run
import Rafty.Message

/-!
# The heartbeat workers

`connect_peers` starts one thread per peer. A round of `send_heartbeats` posts a task to each of
them and then waits for each of them; `kill` stops and joins them one by one, on another thread.

A step is what a thread does while it holds the worker's mutex, or the task, which runs without it.
A wait on the worker's condition variable is a step that is enabled while its predicate holds. Since
a thread may wake up spuriously, these are the runs of the code whatever `notify_one` wakes up.

A task stands for the number of the round that posted it. The rounds are numbered by how many ended
before them. `none` as a task is the empty `std::function`.
-/

namespace Rafty

open Infra

/-- Where the thread of a worker is. -/
inductive WorkerThread where
  /-- At its wait, or on the way there. -/
  | waiting
  /-- Has moved the task out and given the mutex back. -/
  | running (task : Option Nat)
  /-- Has executed the task. -/
  | executed
  /-- Has left its loop. -/
  | exited
deriving DecidableEq, Repr

structure PeerWorker where
  task : Option Nat := none
  hasTask : Bool := false
  done : Bool := true
  stop : Bool := false
  thread : WorkerThread := .waiting
deriving DecidableEq, Repr

namespace PeerWorker

/-- `send_heartbeats` has found the worker `done` and gives it a task. -/
def post (w : PeerWorker) (round : Nat) : PeerWorker :=
  { w with task := some round, done := false, hasTask := true }

/-- The worker's wait is over: it leaves its loop, or takes the task. -/
def wake (w : PeerWorker) : Option PeerWorker :=
  if w.thread = .waiting ∧ (w.hasTask || w.stop) then
    if w.stop then some { w with thread := .exited }
    else some { w with hasTask := false, task := none, thread := .running w.task }
  else none

/-- The call of the task; calling an empty `std::function` throws. -/
def execute (w : PeerWorker) : Option (PeerWorker × Nat) :=
  match w.thread with
  | .running (some round) => some ({ w with thread := .executed }, round)
  | _ => none

def finish (w : PeerWorker) : Option PeerWorker :=
  match w.thread with
  | .executed => some { w with done := true, thread := .waiting }
  | _ => none

end PeerWorker

/-- Where the thread of `run` is. -/
inductive RunThread where
  /-- At the condition of its loop. -/
  | loopTop
  /-- In the body of the loop, which may call `send_heartbeats` once. -/
  | body
  /-- In the first loop of `send_heartbeats`, with these peers to go. -/
  | posting (todo : List NodeId)
  /-- In the second loop. -/
  | awaiting (todo : List NodeId)
  | exited
deriving DecidableEq, Repr

/-- Where the thread that calls `kill` is. -/
inductive KillThread where
  | notCalled
  /-- In the loop of `kill`, with these peers to go. -/
  | stopping (todo : List NodeId)
  /-- At the `join` of this peer's worker. -/
  | joining (peer : NodeId) (todo : List NodeId)
  | returned
deriving DecidableEq, Repr

structure Workers where
  workers : NodeId → PeerWorker
  dead : Bool
  /-- How many rounds have ended. -/
  rounds : Nat
  run : RunThread
  kill : KillThread

inductive WorkerEvent where
  | posted (peer : NodeId) (round : Nat)
  | executed (peer : NodeId) (round : Nat)
  /-- The wait for the worker in the second loop of the round has returned. -/
  | returned (peer : NodeId) (round : Nat)
deriving DecidableEq, Repr

inductive WorkerAction where
  /-- The thread of `run` evaluates the condition of its loop. -/
  | checkDead
  /-- It comes to the end of the body without a call of `send_heartbeats`. -/
  | noRound
  | sendHeartbeats
  /-- The next step of the first loop. -/
  | post
  /-- The next step of the second loop. -/
  | await
  | wake (peer : NodeId)
  | execute (peer : NodeId)
  | finish (peer : NodeId)
  /-- The call of `kill`, which sets `dead`. -/
  | kill
  /-- `kill` stops the next worker. -/
  | stop
  | join
deriving DecidableEq, Repr

/-- The order in which `send_heartbeats` walks `peers_` and the one of `kill` in `peer_workers_`. -/
structure WorkerConfig where
  peers : List NodeId
  workers : List NodeId
  nodup : peers.Nodup
  perm : workers.Perm peers

namespace Workers

def init : Workers where
  workers _ := {}
  dead := false
  rounds := 0
  run := .loopTop
  kill := .notCalled

def setWorker (s : Workers) (peer : NodeId) (w : PeerWorker) : Workers :=
  { s with workers := Function.update s.workers peer w }

/-- The thread of `run`. -/
def stepRun (cfg : WorkerConfig) (s : Workers) : WorkerAction → RunThread →
    Option (Workers × List WorkerEvent)
  | .checkDead, .loopTop => some ({ s with run := if s.dead then .exited else .body }, [])
  | .noRound, .body => some ({ s with run := .loopTop }, [])
  | .sendHeartbeats, .body => some ({ s with run := .posting cfg.peers }, [])
  | .post, .posting (peer :: todo) =>
    if (s.workers peer).done then
      some ({ s.setWorker peer ((s.workers peer).post s.rounds) with run := .posting todo },
        [.posted peer s.rounds])
    else none
  | .post, .posting [] => some ({ s with run := .awaiting cfg.peers }, [])
  | .await, .awaiting (peer :: todo) =>
    if (s.workers peer).done then
      some ({ s with run := .awaiting todo }, [.returned peer s.rounds])
    else none
  | .await, .awaiting [] => some ({ s with run := .loopTop, rounds := s.rounds + 1 }, [])
  | _, _ => none

/-- The thread that calls `kill`. -/
def stepKill (cfg : WorkerConfig) (s : Workers) : WorkerAction → KillThread → Option Workers
  | .kill, .notCalled => some { s with dead := true, kill := .stopping cfg.workers }
  | .stop, .stopping (peer :: todo) =>
    some { s.setWorker peer { s.workers peer with stop := true } with kill := .joining peer todo }
  | .stop, .stopping [] => some { s with kill := .returned }
  | .join, .joining peer todo =>
    if (s.workers peer).thread = .exited then some { s with kill := .stopping todo } else none
  | _, _ => none

def step (cfg : WorkerConfig) (s : Workers) (action : WorkerAction) :
    Option (Workers × List WorkerEvent) :=
  match action with
  | .wake peer => (s.workers peer).wake.map fun w => (s.setWorker peer w, [])
  | .execute peer =>
    (s.workers peer).execute.map fun (w, round) => (s.setWorker peer w, [.executed peer round])
  | .finish peer => (s.workers peer).finish.map fun w => (s.setWorker peer w, [])
  | .kill | .stop | .join => (s.stepKill cfg action s.kill).map fun s => (s, [])
  | action => s.stepRun cfg action s.run

end Workers

/-- A node with its workers, whose threads take their steps in any order. -/
def workerSystem (cfg : WorkerConfig) : System Workers WorkerAction WorkerEvent where
  init s := s = Workers.init
  step := Workers.step cfg

end Rafty
