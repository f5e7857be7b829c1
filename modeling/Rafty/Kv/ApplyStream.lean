import Rafty.Infra.Monitor
import Rafty.Infra.Run
import Rafty.Message

/-!
# The stream of applied results

`KvNodeWrapper::Apply` of `app/kv_node.cpp`. The thread of the handler takes results out of
`ready_queue`, hands each to `on_apply` and puts a copy into `write_buf`. A second thread swaps the
buffer out and writes the copies to the stream of the tester, so that a slow stream does not delay
the clients. In the end the handler sets `write_stopped` and joins the second thread.

A step is what a thread does while it holds `write_mu`, or what it does in between. Both
notifications come after the mutex is given back, as steps of their own. The queue and `on_apply`
are modelled elsewhere; here a result can come at any time, and `is_dead` can change at any time.
-/

namespace Rafty

open Infra

/-- `testerpb::ApplyResult`. -/
structure StreamResult where
  valid : Bool
  data : Bytes
  index : Nat
  id : NodeId
deriving DecidableEq, Repr

/-- The copy for the stream. -/
def ApplyResult.streamed (id : NodeId) (result : ApplyResult) : StreamResult where
  valid := result.valid
  data := result.data
  index := result.index
  id := id

/-- Where the thread of the handler is. -/
inductive ApplyThread where
  /-- At the condition of its loop. -/
  | loopTop
  | dequeuing
  /-- Has a result, about to look at `is_dead` again. -/
  | received (result : ApplyResult)
  | applying (result : ApplyResult)
  /-- About to take `write_mu` and push the copy. -/
  | pushing (result : ApplyResult)
  | notifying
  /-- Has left the loop, about to set `write_stopped`. -/
  | stopping
  | notifyingStop
  | joining
  | returned
deriving DecidableEq, Repr

/-- Where the second thread is, unless it is in its wait. -/
inductive WriterPc where
  /-- In the loop over `local`, with these results to go; at its end it takes `write_mu`. -/
  | writing (todo : List StreamResult)
  | exited
deriving DecidableEq, Repr

structure ApplyStream where
  dead : Bool
  main : ApplyThread
  writer : MonitorThread WriterPc Unit
  writeBuf : List StreamResult
  writeStopped : Bool
deriving DecidableEq, Repr

inductive StreamAction where
  | kill
  -- the thread of the handler
  | loopTop
  | dequeue (result : ApplyResult)
  | recheck
  | onApply
  | push
  | notify
  | stop
  | notifyStop
  | join
  -- the second thread
  | check
  | write
  /-- A spurious wake-up. -/
  | wakeUp
deriving DecidableEq, Repr

inductive StreamEvent where
  /-- The result was handed to `on_apply`. -/
  | applied (result : ApplyResult)
  /-- `writer->Write` was called. -/
  | written (result : StreamResult)
deriving DecidableEq, Repr

namespace ApplyStream

def init : ApplyStream where
  dead := false
  main := .loopTop
  writer := .running (.writing [])
  writeBuf := []
  writeStopped := false

/-- `write_cv.notify_one()`; nobody else waits there. -/
def notified (s : ApplyStream) : ApplyStream :=
  { s with writer := s.writer.notified fun _ => true }

/-- The block of the second thread under `write_mu`, from its predicate on. -/
def check (s : ApplyStream) : ApplyStream :=
  if s.writeBuf = [] ∧ s.writeStopped = false then { s with writer := .blocked () }
  else if s.writeBuf = [] ∧ s.writeStopped = true then { s with writer := .running .exited }
  else { s with writer := .running (.writing s.writeBuf), writeBuf := [] }

/-- A step of the thread of the handler. -/
def mainStep (id : NodeId) (s : ApplyStream) (action : StreamAction) :
    Option (ApplyStream × List StreamEvent) :=
  match action, s.main with
  | .loopTop, .loopTop => some ({ s with main := if s.dead then .stopping else .dequeuing }, [])
  | .dequeue result, .dequeuing => some ({ s with main := .received result }, [])
  | .recheck, .received result =>
    some ({ s with
      main := if s.dead then .stopping else if result.valid then .applying result else .loopTop },
      [])
  | .onApply, .applying result => some ({ s with main := .pushing result }, [.applied result])
  | .push, .pushing result =>
    some ({ s with main := .notifying, writeBuf := s.writeBuf ++ [result.streamed id] }, [])
  | .notify, .notifying => some ({ s.notified with main := .loopTop }, [])
  | .stop, .stopping => some ({ s with main := .notifyingStop, writeStopped := true }, [])
  | .notifyStop, .notifyingStop => some ({ s.notified with main := .joining }, [])
  | .join, .joining =>
    if s.writer = .running .exited then some ({ s with main := .returned }, []) else none
  | _, _ => none

def step (id : NodeId) (s : ApplyStream) (action : StreamAction) :
    Option (ApplyStream × List StreamEvent) :=
  match action with
  | .kill => some ({ s with dead := true }, [])
  | .check =>
    match s.writer with
    | .running (.writing []) | .woken () => some (s.check, [])
    | _ => none
  | .write =>
    match s.writer with
    | .running (.writing (result :: todo)) =>
      some ({ s with writer := .running (.writing todo) }, [.written result])
    | _ => none
  | .wakeUp =>
    match s.writer with
    | .blocked () => some ({ s with writer := .woken () }, [])
    | _ => none
  | action => s.mainStep id action

end ApplyStream

/-- The call of `Apply` at node `id`. -/
def applyStreamSystem (id : NodeId) : System ApplyStream StreamAction StreamEvent where
  init s := s = .init
  step := ApplyStream.step id

end Rafty
