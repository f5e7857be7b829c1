import Rafty.Cluster
import Rafty.Infra.View
import Mathlib.Data.Finset.Basic

/-!
# The network interceptor

Each channel to a peer has a `NetInterceptor`, whose static members are shared by the channels of
one process. The test controller calls `Prepare`, `Disconnect` and `Reconnect` at every process,
one after the other as far as the processes are concerned, and an interceptor then hijacks the calls
of its own process: the request is not sent, and the call returns `UNAVAILABLE`.

In the cluster (`Rafty/Cluster.lean`) a request is on the network as soon as it is built. Here it
meets the interceptor of its caller at some later moment, once, and only a request that was let
through reaches a handler. A reply belongs to a call that was let through, and nothing stops it.

`plainView` forgets the interceptors: what they leave of a run is a run of the cluster.
-/

namespace Rafty

open Infra

inductive NetInterceptionType where
  | networkFailure
  | networkPartition
deriving DecidableEq, Repr

/-- The static members of `NetInterceptor`; an id stands for the decimal text the code keeps. -/
structure NetInterceptor where
  type : NetInterceptionType
  /-- The connected servers, or one side of the partition. -/
  rank1 : Finset NodeId
  /-- The disconnected servers, or the other side. -/
  rank2 : Finset NodeId
deriving DecidableEq

/-- What the controller can have done at a process, one critical section at a time. -/
inductive NetControl where
  | setupRank (ids : List NodeId)
  | setType (type : NetInterceptionType)
  | disconnect (id : NodeId)
  | reconnect (id : NodeId)
deriving DecidableEq

namespace NetInterceptor

/-- Static storage: `type` is the first of its enumeration, the sets are empty. -/
def init : NetInterceptor where
  type := .networkFailure
  rank1 := ∅
  rank2 := ∅

/-- Whether `Intercept` hijacks a call with this `from` and `to`. -/
def hijacks (s : NetInterceptor) (caller callee : NodeId) : Bool :=
  match s.type with
  | .networkFailure => caller ∈ s.rank2 || callee ∈ s.rank2
  | .networkPartition =>
    (caller ∈ s.rank1 && callee ∈ s.rank2) || (callee ∈ s.rank1 && caller ∈ s.rank2)

def setupRank (s : NetInterceptor) (ids : List NodeId) : NetInterceptor :=
  { s with rank1 := ids.toFinset, rank2 := ∅ }

def setType (s : NetInterceptor) (type : NetInterceptionType) : NetInterceptor :=
  { s with type := type }

def disconnect (s : NetInterceptor) (id : NodeId) : NetInterceptor :=
  if id ∈ s.rank1 then { s with rank1 := s.rank1.erase id, rank2 := insert id s.rank2 } else s

def reconnect (s : NetInterceptor) (id : NodeId) : NetInterceptor :=
  if id ∈ s.rank2 then { s with rank2 := s.rank2.erase id, rank1 := insert id s.rank1 } else s

def control (s : NetInterceptor) : NetControl → NetInterceptor
  | .setupRank ids => s.setupRank ids
  | .setType type => s.setType type
  | .disconnect id => s.disconnect id
  | .reconnect id => s.reconnect id

end NetInterceptor

namespace RaftWrapper

/-- `Prepare`: the world, then the kind of failure, where an unknown one is a network failure. -/
def prepare (world : List NodeId) (failType : Nat) : List NetControl :=
  [.setupRank world, .setType (if failType = 1 then .networkPartition else .networkFailure)]

/-- `Disconnect`. -/
def disconnect (ids : List NodeId) : List NetControl := ids.map .disconnect

/-- `Reconnect`. -/
def reconnect (ids : List NodeId) : List NetControl := ids.map .reconnect

end RaftWrapper

/-- The `from` and the `to` that `create_context` puts into the metadata of a call. -/
def Packet.route : Packet → Option (NodeId × NodeId)
  | .voteRequest call => some (call.caller, call.callee)
  | .appendRequest call => some (call.caller, call.callee)
  | .voteReply .. | .appendReply .. => none

/-- The request that a handler gets. -/
def Action.handled : Action → Option Packet
  | .appendEntries call _ => some (.appendRequest call)
  | .requestVote call _ => some (.voteRequest call)
  | _ => none

/-- The cluster with the interceptors of its processes. -/
structure InterceptedCluster where
  cluster : Cluster
  interceptors : NodeId → NetInterceptor
  /-- The requests that were let through. -/
  sent : List Packet
  /-- The requests that were hijacked. -/
  lost : List Packet

inductive InterceptedInput where
  | node (i : ClusterInput)
  /-- A request meets the interceptor of its caller. -/
  | send (request : Packet)
  | control (node : NodeId) (control : NetControl)
deriving DecidableEq

namespace InterceptedCluster

def init (timeouts : NodeId → ElectionTimeout) : InterceptedCluster where
  cluster := Cluster.init timeouts
  interceptors _ := .init
  sent := []
  lost := []

/-- The interceptor of process `caller` decides on a request. -/
def intercept (s : InterceptedCluster) (request : Packet) (caller callee : NodeId) :
    InterceptedCluster :=
  if (s.interceptors caller).hijacks caller callee then { s with lost := request :: s.lost }
  else { s with sent := request :: s.sent }

/-- The controller has its way at process `n`. -/
def command (s : InterceptedCluster) (n : NodeId) (control : NetControl) : InterceptedCluster :=
  { s with
    interceptors := Function.update s.interceptors n ((s.interceptors n).control control) }

def step (m : Membership) (s : InterceptedCluster) :
    InterceptedInput → Option (InterceptedCluster × List Event)
  | .node i =>
    if ∀ request ∈ i.action.handled, request ∈ s.sent then
      (s.cluster.step m i).map fun (c, es) => ({ s with cluster := c }, es)
    else none
  | .send request =>
    match request.route with
    | some (caller, callee) =>
      if request ∈ s.cluster.net ∧ request ∉ s.sent ∧ request ∉ s.lost then
        some (s.intercept request caller callee, [])
      else none
    | none => none
  | .control n control => some (s.command n control, [])

/-- The cluster without the interceptors. -/
def plainView : View InterceptedCluster InterceptedInput Event Cluster ClusterInput Event where
  state := cluster
  input
    | _, .node i => some i
    | _, .send _ | _, .control .. => none
  event := some

/-- The calls between `side` and the other members are all hijacked. -/
def separates (m : Membership) (side : List NodeId) (s : InterceptedCluster) : Bool :=
  m.ids.all fun caller => m.ids.all fun callee =>
    decide (caller ∈ side ↔ callee ∈ side) || (s.interceptors caller).hijacks caller callee

end InterceptedCluster

def interceptedSystem (m : Membership) : System InterceptedCluster InterceptedInput Event where
  init s := ∃ timeouts, s = InterceptedCluster.init timeouts
  step := InterceptedCluster.step m

/-- The steps `inputs` of three nodes under interceptors are a run, if a replay says so. -/
theorem exists_interceptedRun (inputs : List InterceptedInput)
    (P : List (Transition InterceptedCluster InterceptedInput Event) → InterceptedCluster → Prop)
    [∀ ts s, Decidable (P ts s)]
    (h : ((interceptedSystem threeNodes).exec [] (InterceptedCluster.init fun _ => shortTimeout)
      inputs).any (fun r => decide (P r.1 r.2)) = true) :
    ∃ ts s, (interceptedSystem threeNodes).Run ts s ∧ ts.map Transition.input = inputs ∧ P ts s :=
  System.exists_run_of_exec _ inputs P ⟨_, rfl⟩ h

end Rafty
