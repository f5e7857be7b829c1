import Rafty.Properties.Kv

/-!
# The thread of a call

What the next block of a call can be (`CallThread.Next`), and that a step of a node with its server
leaves each call where it is or takes it to its next block (`KvNode.Move.thread`).
-/

namespace Rafty

/-- From one block of a call to the next, in a step that a node takes in state `s`. -/
inductive CallThread.Next (s : KvNode) : CallThread → CallThread → Prop
  | leased (cmd : Command) :
      Next s (.asking cmd) (.reading cmd.key s.node.raft.lastTermCommitIdx)
  | unleased (cmd : Command) : Next s (.asking cmd) (.proposing cmd)
  | read (key : Bytes) (commitIdx : Nat) :
      Next s (.reading key commitIdx) (.ended (.fastRead (s.server.read key)))
  | proposed (cmd : Command) (index : Nat) :
      Next s (.proposing cmd) (.registering index cmd.clientId cmd.seqNum)
  | notLeader (cmd : Command) : Next s (.proposing cmd) (.ended .notLeader)
  | registered (index clientId seqNum deadline : Nat) :
      Next s (.registering index clientId seqNum) (.waiting index deadline)
  | expired (index deadline : Nat) : Next s (.waiting index deadline) (.expired index)
  | erased (index : Nat) : Next s (.expired index) (.ended .timedOut)
  | answered (index deadline : Nat) (reply : Reply) :
      Next s (.waiting index deadline) (.ended (.answered reply))
  | threw (index deadline : Nat) : Next s (.waiting index deadline) (.ended .threw)

namespace KvNode

variable {order : ByteOrder} {cfg : Config} {s s' : KvNode} {i : KvInput} {es : List KvEvent}

/-- Call `j` is where it was, or has gone on. -/
def GoesOn (s : KvNode) (j : Nat) (call' : KvCall) : Prop :=
  ∃ call, s.calls[j]? = some call ∧
    (call'.thread = call.thread ∨ CallThread.Next s call.thread call'.thread)

theorem goesOn_refl {j : Nat} {call : KvCall} (h : s.calls[j]? = some call) : s.GoesOn j call :=
  ⟨call, h, Or.inl rfl⟩

/-- A change to one call that leaves its thread alone. -/
theorem goesOn_modify {calls : List KvCall} {k : Nat} {f : KvCall → KvCall}
    (hf : ∀ call, (f call).thread = call.thread)
    (h : ∀ j (call : KvCall), calls[j]? = some call → s.GoesOn j call) :
    ∀ j (call : KvCall), (calls.modify k f)[j]? = some call → s.GoesOn j call := by
  intro j call hj
  rw [List.getElem?_modify] at hj
  obtain ⟨old, hold, he⟩ := Option.map_eq_some_iff.mp hj
  obtain ⟨call₀, hc₀, hnext⟩ := h j old hold
  have ht : call.thread = old.thread := by
    rw [← he]
    split
    · exact hf old
    · rfl
  exact ⟨call₀, hc₀, ht ▸ hnext⟩

theorem goesOn_destroyAt (s : KvNode) (index : Nat) :
    ∀ j (call : KvCall), (s.destroyAt index).calls[j]? = some call → s.GoesOn j call := by
  unfold destroyAt
  split
  · intro j call hj
    exact goesOn_refl hj
  · exact goesOn_modify (fun _ => rfl) fun j call hj => goesOn_refl hj

/-- The thread of one call goes on, and all else that happens to calls leaves threads alone. -/
theorem goesOn_proceed {calls : List KvCall} {k : Nat} {call₀ : KvCall} {thread : CallThread}
    (hc : s.calls[k]? = some call₀) (hnext : CallThread.Next s call₀.thread thread)
    (h : ∀ j (call : KvCall), calls[j]? = some call → s.GoesOn j call) :
    ∀ j (call : KvCall), (calls.modify k fun call => { call with thread := thread })[j]? =
      some call → s.GoesOn j call := by
  intro j call hj
  rw [List.getElem?_modify] at hj
  obtain ⟨old, hold, he⟩ := Option.map_eq_some_iff.mp hj
  split at he
  · next hkj =>
    subst hkj
    subst he
    exact ⟨call₀, hc, Or.inr hnext⟩
  · obtain rfl : old = call := he
    exact h j old hold

/-- **What a step does to the calls**: each goes on or stays where it is, and a new one may come. -/
theorem Move.thread (hm : Move order cfg s i s' es) {j : Nat} {call' : KvCall}
    (hj : s'.calls[j]? = some call') :
    s.GoesOn j call' ∨ j = s.calls.length ∧ ∃ cmd, i.action = .call cmd ∧
      call'.thread =
        if cmd.op = .get then .asking { cmd with value := [] } else .proposing cmd := by
  have hsame : ∀ j (call : KvCall), s.calls[j]? = some call → s.GoesOn j call := by
    intro j call h
    exact goesOn_refl h
  cases hm with
  | raft | exit | skip | dequeue | check | reject | executeDup | execute | finish | finishWaiter =>
    exact Or.inl (hsame j call' hj)
  | rejectWaiter | fulfil =>
    refine Or.inl (goesOn_modify ?_ hsame j call' hj)
    intro call
    rfl
  | @call _ cmd =>
    rw [KvNode.call, List.getElem?_append] at hj
    split at hj
    · exact Or.inl (hsame j call' hj)
    · next hge =>
      have hlt := (List.getElem?_eq_some_iff.mp hj).1
      rw [List.length_singleton] at hlt
      have hmem := List.mem_singleton.mp (List.mem_of_getElem? hj)
      exact Or.inr ⟨by omega, cmd, rfl, by rw [hmem]⟩
  | @lease now k cmd call hc ht =>
    have hnext : CallThread.Next s call.thread
        (if (s.node.raft.getLeaseState now).1 then
          .reading cmd.key (s.node.raft.getLeaseState now).2 else .proposing cmd) := by
      rw [ht]
      split
      · next hlease =>
        have hidx : s.node.raft.lastTermCommitIdx = (s.node.raft.getLeaseState now).2 :=
          (Raft.getLeaseState_eq_true.mp (Prod.ext hlease rfl)).2.2.2
        rw [← hidx]
        exact .leased cmd
      · exact .unleased cmd
    exact Or.inl (goesOn_proceed hc hnext hsame j call' hj)
  | read hc ht =>
    refine Or.inl (goesOn_proceed hc ?_ hsame j call' hj)
    rw [ht]
    exact .read _ _
  | propose hc ht =>
    refine Or.inl (goesOn_proceed hc ?_ hsame j call' hj)
    rw [ht]
    exact .proposed _ _
  | notLeader hc ht =>
    refine Or.inl (goesOn_proceed hc ?_ hsame j call' hj)
    rw [ht]
    exact .notLeader _
  | @register now k index clientId seqNum call hc ht =>
    refine Or.inl (goesOn_proceed hc ?_ (goesOn_destroyAt s index) j call' hj)
    rw [ht]
    exact .registered _ _ _ _
  | expire hc ht =>
    refine Or.inl (goesOn_proceed hc ?_ hsame j call' hj)
    rw [ht]
    exact .expired _ _
  | @erase now k index call hc ht =>
    refine Or.inl (goesOn_proceed hc ?_ (goesOn_destroyAt s index) j call' hj)
    rw [ht]
    exact .erased _
  | collect hc ht =>
    refine Or.inl (goesOn_proceed hc ?_ hsame j call' hj)
    rw [ht]
    exact .answered _ _ _
  | throw hc ht =>
    refine Or.inl (goesOn_proceed hc ?_ hsame j call' hj)
    rw [ht]
    exact .threw _ _

end KvNode

end Rafty
