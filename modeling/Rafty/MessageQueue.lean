import Rafty.Infra.Monitor
import Rafty.Infra.Run

/-!
# `MessageQueue`

The queue of `inc/toolings/msg_queue.hpp` with any number of threads in it. A step is what one
thread does while it holds `mutex_`, between two reads of `closed_`: `close` sets that flag without
the mutex, so it may do so in the middle of another thread's critical section.

`cv.wait(lock, pred)` is the loop `while (!pred()) cv.wait(lock)`: a thread in it evaluates its
predicate with the mutex held, enters the wait set and gives the mutex back if the predicate is
false, and when it is woken, by a notification or spuriously, takes the mutex and looks again.

`none` in the step function stands for a step the thread is not at, or for `front()` of an empty
queue. The move operations are left out.
-/

namespace Rafty

open Infra

variable {α : Type}

/-- The three waits of the class. -/
inductive QueueWait (α : Type) where
  /-- The first wait of `enqueue(value)`. -/
  | room (value : α)
  /-- The second wait of `enqueue`, on an unbuffered queue. -/
  | taken
  /-- The wait of `dequeue`. -/
  | item
deriving DecidableEq, Repr

/-- The wait is on `prod_ready_`; the other one is on `con_ready_`. -/
def QueueWait.onProdReady : QueueWait α → Bool
  | room _ | taken => true
  | item => false

def QueueWait.onConReady (wait : QueueWait α) : Bool := !wait.onProdReady

/-- The calls that begin with taking the mutex. -/
inductive QueueCall (α : Type) where
  | enqueue (value : α)
  | dequeue
  | tryDequeue
deriving DecidableEq, Repr

/-- Where a thread is that is in no wait set. -/
inductive QueuePc (α : Type) where
  /-- In no call. -/
  | idle
  /-- At the beginning of the call, about to take the mutex. -/
  | called (call : QueueCall α)
  /-- About to evaluate the predicate, with the mutex. -/
  | checking (wait : QueueWait α)
  /-- Past the wait, with the mutex. -/
  | passed (wait : QueueWait α)
  /-- In `close`, has set `closed_`, about to take the mutex. -/
  | closing
deriving DecidableEq, Repr

abbrev QueueThread (α : Type) := MonitorThread (QueuePc α) (QueueWait α)

/-- The wait whose predicate the thread evaluates once it has the mutex. -/
def nextCheck : QueueThread α → Option (QueueWait α)
  | .running (.called (.enqueue value)) => some (.room value)
  | .running (.called .dequeue) => some .item
  | .woken wait => some wait
  | _ => none

structure MessageQueue (α : Type) where
  queue : List α
  closed : Bool
  /-- The thread that holds `mutex_` between two of its steps. -/
  mutex : Option Nat
  threads : List (QueueThread α)
deriving DecidableEq

/-- What an observer sees. The thread is named by its place in `threads`. -/
inductive QueueEvent (α : Type) where
  | pushed (thread : Nat) (value : α)
  | removed (thread : Nat) (value : α)
  | enqueueReturned (thread : Nat)
  | dequeueReturned (thread : Nat) (value : α)
  | tryDequeueReturned (thread : Nat) (value : Option α)
deriving DecidableEq, Repr

inductive QueueAction (α : Type) where
  | call (call : QueueCall α)
  /-- The call of `close`, with its `compare_exchange_strong`. -/
  | close
  /-- Take the mutex. -/
  | lock
  /-- Evaluate the predicate of the wait. -/
  | check
  /-- The rest of the critical section, up to the next wait or to the end of the call. -/
  | proceed
  /-- A spurious wake-up. -/
  | wakeUp
deriving DecidableEq, Repr

structure QueueInput (α : Type) where
  thread : Nat
  action : QueueAction α
deriving DecidableEq, Repr

namespace MessageQueue

/-- The constructor, with `n` threads that will use the queue. -/
def init (n : Nat) : MessageQueue α where
  queue := []
  closed := false
  mutex := none
  threads := List.replicate n (.running .idle)

/-- The predicate of the wait. -/
def ready (bufferSize : Nat) (s : MessageQueue α) : QueueWait α → Bool
  | .room _ =>
    if bufferSize = 0 then s.queue.isEmpty || s.closed
    else s.queue.length < bufferSize || s.closed
  | .taken => s.queue.isEmpty || s.closed
  | .item => !s.queue.isEmpty || s.closed

/-- Thread `i` goes to its next place. -/
def goto (s : MessageQueue α) (i : Nat) (thread : QueueThread α) : MessageQueue α :=
  { s with threads := s.threads.set i thread }

/-- The call of thread `i` ends, and with it the scope of the lock. -/
def leave (s : MessageQueue α) (i : Nat) : MessageQueue α :=
  { s with mutex := none }.goto i (.running .idle)

/-- `notify_all`. -/
def notify (s : MessageQueue α) (on : QueueWait α → Bool) : MessageQueue α :=
  { s with threads := notifyAll on s.threads }

/-- `close` up to the lock. -/
def close (s : MessageQueue α) (i : Nat) : MessageQueue α :=
  if s.closed then s else { s with closed := true }.goto i (.running .closing)

/-- `try_dequeue`, whose critical section reads no atomic. -/
def tryDequeue (s : MessageQueue α) (i : Nat) : MessageQueue α × List (QueueEvent α) :=
  match s.queue with
  | [] => (s.leave i, [.tryDequeueReturned i none])
  | value :: rest =>
    ({ s with queue := rest }.leave i, [.removed i value, .tryDequeueReturned i (some value)])

/-- What a thread does as soon as it gets the mutex. -/
def lock (s : MessageQueue α) (i : Nat) (thread : QueueThread α) :
    Option (MessageQueue α × List (QueueEvent α)) :=
  match thread with
  | .running (.called .tryDequeue) => some (s.tryDequeue i)
  | .running .closing => some ((s.notify fun _ => true).leave i, [])
  | thread =>
    (nextCheck thread).map fun wait =>
      ({ s with mutex := some i }.goto i (.running (.checking wait)), [])

/-- The predicate of the wait; after the second wait of `enqueue` there is nothing left to do. -/
def check (bufferSize : Nat) (s : MessageQueue α) (i : Nat) (wait : QueueWait α) :
    MessageQueue α × List (QueueEvent α) :=
  if s.ready bufferSize wait then
    match wait with
    | .taken => (s.leave i, [.enqueueReturned i])
    | wait => (s.goto i (.running (.passed wait)), [])
  else ({ s with mutex := none }.goto i (.blocked wait), [])

/-- `enqueue` behind its first wait. -/
def enqueue (bufferSize : Nat) (s : MessageQueue α) (i : Nat) (value : α) :
    MessageQueue α × List (QueueEvent α) :=
  if s.closed then (s.leave i, [.enqueueReturned i])
  else
    let s := { s with queue := s.queue ++ [value] }.notify QueueWait.onConReady
    if bufferSize = 0 then (s.goto i (.running (.checking .taken)), [.pushed i value])
    else (s.leave i, [.pushed i value, .enqueueReturned i])

/-- `dequeue` behind its wait. -/
def dequeue [Inhabited α] (s : MessageQueue α) (i : Nat) :
    Option (MessageQueue α × List (QueueEvent α)) :=
  if s.closed then some (s.leave i, [.dequeueReturned i default])
  else match s.queue with
    | [] => none
    | value :: rest =>
      some (({ s with queue := rest }.notify QueueWait.onProdReady).leave i,
        [.removed i value, .dequeueReturned i value])

def step [Inhabited α] (bufferSize : Nat) (s : MessageQueue α) (input : QueueInput α) :
    Option (MessageQueue α × List (QueueEvent α)) :=
  let i := input.thread
  match input.action, s.threads[i]? with
  | .call call, some (.running .idle) => some (s.goto i (.running (.called call)), [])
  | .close, some (.running .idle) => some (s.close i, [])
  | .lock, some thread => if s.mutex = none then s.lock i thread else none
  | .check, some (.running (.checking wait)) => some (s.check bufferSize i wait)
  | .proceed, some (.running (.passed (.room value))) => some (s.enqueue bufferSize i value)
  | .proceed, some (.running (.passed .item)) => s.dequeue i
  | .wakeUp, some (.blocked wait) => some (s.goto i (.woken wait), [])
  | _, _ => none

end MessageQueue

/-- A queue that any number of threads use, in any order. -/
def queueSystem [Inhabited α] (bufferSize : Nat) :
    System (MessageQueue α) (QueueInput α) (QueueEvent α) where
  init s := ∃ n, s = MessageQueue.init n
  step s input := s.step bufferSize input

end Rafty
