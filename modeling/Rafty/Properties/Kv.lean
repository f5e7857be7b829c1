import Rafty.Kv.Node
import Rafty.Properties.Node

/-!
# What the blocks of the key-value server do

* `applyCommand_cases` — a command is a duplicate, and then the replica stays as it is; or it is
  executed, and its client gets a new newest reply.
* `onApply_toReplica` — on the replica, `KvServer::on_apply` is `Replica.onApply`.
* `KvNode.Move` — the things a step of a node with its server can do, and `move_of_step` that there
  are no others.
-/

namespace Rafty

namespace Replica

variable {s : Replica} {cmd : Command}

/-- The client's operations up to `seqNum` count as done. -/
def Done (s : Replica) (clientId seqNum : Nat) : Prop :=
  ∃ cached, s.rifl.lookup clientId = some cached ∧ seqNum ≤ cached.seqNum

/-- **The first block**: the newest reply to the client, or nothing yet. -/
theorem check_cases (s : Replica) (cmd : Command) :
    (∃ cached, s.rifl.lookup cmd.clientId = some cached ∧ cmd.seqNum ≤ cached.seqNum ∧
      s.check cmd = ⟨true, cached.reply⟩) ∨
    (¬s.Done cmd.clientId cmd.seqNum ∧ s.check cmd = ⟨false, ⟨.success, []⟩⟩) := by
  unfold check Done
  cases hr : s.rifl.lookup cmd.clientId with
  | none => exact Or.inr ⟨by simp, rfl⟩
  | some cached =>
    by_cases hle : cmd.seqNum ≤ cached.seqNum
    · exact Or.inl ⟨cached, rfl, hle, if_pos hle⟩
    · refine Or.inr ⟨?_, if_neg hle⟩
      rintro ⟨cached', he, hle'⟩
      obtain rfl := Option.some.inj he
      exact hle hle'

theorem check_isDup : (s.check cmd).isDup = true ↔ s.Done cmd.clientId cmd.seqNum := by
  rcases s.check_cases cmd with ⟨cached, hr, hle, hc⟩ | ⟨hnot, hc⟩
  · exact iff_of_true (by rw [hc]) ⟨cached, hr, hle⟩
  · exact iff_of_false (by rw [hc]; exact Bool.false_ne_true) hnot

/-- The second block leaves `rifl_` and the status alone, and of a duplicate everything. -/
theorem execute_spec (s : Replica) (cmd : Command) (outcome : Outcome) :
    (s.execute cmd outcome).1.rifl = s.rifl ∧
    (s.execute cmd outcome).2.isDup = outcome.isDup ∧
    (s.execute cmd outcome).2.reply.status = outcome.reply.status ∧
    (outcome.isDup = true → s.execute cmd outcome = (s, outcome)) := by
  unfold execute
  split
  · next h => exact ⟨rfl, rfl, rfl, fun _ => rfl⟩
  · next h =>
    refine ⟨?_, ?_, ?_, fun h' => absurd h' h⟩ <;> split <;> rfl

/-- **A command on a replica**: a duplicate, or an execution that is recorded. -/
theorem applyCommand_cases (s : Replica) (cmd : Command) :
    (s.Done cmd.clientId cmd.seqNum ∧ (s.applyCommand cmd).1 = s) ∨
    (¬s.Done cmd.clientId cmd.seqNum ∧ (s.applyCommand cmd).1.rifl =
      s.rifl.insert cmd.clientId ⟨cmd.seqNum, (s.applyCommand cmd).2⟩) := by
  obtain ⟨hrifl, hdup, -, hsame⟩ := s.execute_spec cmd (s.check cmd)
  unfold applyCommand
  by_cases h : s.Done cmd.clientId cmd.seqNum
  · have hd := check_isDup.mpr h
    refine Or.inl ⟨h, ?_⟩
    simp only [hsame hd]
    exact if_pos hd
  · have hd : (s.check cmd).isDup ≠ true := fun hd => h (check_isDup.mp hd)
    refine Or.inr ⟨h, ?_⟩
    simp only [record, hdup, if_neg hd, hrifl]

theorem Done.of_rifl {s' : Replica} {clientId seqNum : Nat} (h : s.Done clientId seqNum)
    (he : s'.rifl = s.rifl) : s'.Done clientId seqNum := by
  unfold Done
  rw [he]
  exact h

/-- A new record of a client is above its old one. -/
theorem Done.insert {s' : Replica} {clientId seqNum : Nat} {reply : Reply}
    (h : s.Done clientId seqNum) (hnot : ¬s.Done cmd.clientId cmd.seqNum)
    (he : s'.rifl = s.rifl.insert cmd.clientId ⟨cmd.seqNum, reply⟩) :
    s'.Done clientId seqNum := by
  unfold Done
  rw [he]
  by_cases hc : clientId = cmd.clientId
  · subst hc
    obtain ⟨cached, hr, hle⟩ := h
    have hlt : cached.seqNum < cmd.seqNum := Nat.lt_of_not_le fun hle' => hnot ⟨cached, hr, hle'⟩
    exact ⟨_, AList.lookup_insert _, by dsimp only; omega⟩
  · rw [AList.lookup_insert_ne hc]
    exact h

/-- The sequence number recorded for a client does not go back. -/
theorem Done.applyCommand {clientId seqNum : Nat} (h : s.Done clientId seqNum) (cmd : Command) :
    (s.applyCommand cmd).1.Done clientId seqNum := by
  rcases s.applyCommand_cases cmd with ⟨-, he⟩ | ⟨hnot, he⟩
  · rwa [he]
  · exact h.insert hnot he

/-- After a command its sequence number is recorded, or a higher one is. -/
theorem done_applyCommand (s : Replica) (cmd : Command) :
    (s.applyCommand cmd).1.Done cmd.clientId cmd.seqNum := by
  rcases s.applyCommand_cases cmd with ⟨hd, he⟩ | ⟨-, he⟩
  · rwa [he]
  · exact ⟨_, by rw [he]; exact AList.lookup_insert _, Nat.le_refl _⟩

theorem onApply_of_decoded {order : ByteOrder} {r : ApplyResult} (hv : r.valid = true)
    (hd : deserialize order r.data = some cmd) :
    (s.onApply order r).1 = (s.applyCommand cmd).1 := by
  rw [onApply, if_neg (by simp [hv]), hd]

end Replica

/-- **`on_apply` on the replica** is a function of the replica. -/
theorem KvServer.onApply_toReplica (order : ByteOrder) (s : KvServer) (result : ApplyResult) :
    (s.onApply order result).1.toReplica = (s.toReplica.onApply order result).1 ∧
      (s.onApply order result).2 = (s.toReplica.onApply order result).2 := by
  unfold KvServer.onApply Replica.onApply
  split
  · exact ⟨rfl, rfl⟩
  · split <;> exact ⟨rfl, rfl⟩

/-! ## Steps of a node with its server -/

/-- The call whose thread takes the step. -/
def KvAction.caller : KvAction → Option Nat
  | .lease k | .read k | .propose k | .register k | .expire k | .erase k | .collect k => some k
  | _ => none

/-- The step is one of the thread that calls `on_apply`. -/
def KvAction.isApplier : KvAction → Bool
  | .dequeue | .check | .execute | .finish | .fulfil => true
  | _ => false

namespace KvNode

section Frame

variable (s : KvNode) (k index : Nat) (thread : CallThread) (op : PendingOp) (reply : Reply)

@[simp] theorem proceed_node : (s.proceed k thread).node = s.node := rfl
@[simp] theorem proceed_server : (s.proceed k thread).server = s.server := rfl
@[simp] theorem proceed_applier : (s.proceed k thread).applier = s.applier := rfl
@[simp] theorem proceed_dequeued : (s.proceed k thread).dequeued = s.dequeued := rfl

@[simp] theorem fulfilPromise_server : (s.fulfilPromise op reply).server = s.server := rfl
@[simp] theorem fulfilPromise_applier : (s.fulfilPromise op reply).applier = s.applier := rfl

/-- A destroyed promise is a matter of the calls. -/
theorem destroyAt_eq : ∃ calls, s.destroyAt index = { s with calls := calls } := by
  unfold destroyAt
  split
  · exact ⟨s.calls, rfl⟩
  · exact ⟨_, rfl⟩

@[simp] theorem destroyAt_node : (s.destroyAt index).node = s.node := by
  obtain ⟨calls, h⟩ := s.destroyAt_eq index
  rw [h]

@[simp] theorem destroyAt_server : (s.destroyAt index).server = s.server := by
  obtain ⟨calls, h⟩ := s.destroyAt_eq index
  rw [h]

@[simp] theorem destroyAt_applier : (s.destroyAt index).applier = s.applier := by
  obtain ⟨calls, h⟩ := s.destroyAt_eq index
  rw [h]

@[simp] theorem destroyAt_dequeued : (s.destroyAt index).dequeued = s.dequeued := by
  obtain ⟨calls, h⟩ := s.destroyAt_eq index
  rw [h]

end Frame

/-- What an undecodable entry leaves: its waiter is gone. -/
def rejected (s : KvNode) (index : Nat) : KvNode :=
  { s with server := { s.server with pending := s.server.pending.erase index }, applier := .idle }

/-- What the third block leaves, apart from the thread. -/
def finished (s : KvNode) (index : Nat) (cmd : Command) (outcome : Outcome) (applier : Applier) :
    KvNode :=
  { s with
    server := {
      toReplica := s.server.record cmd outcome
      pending := s.server.pending.erase index
      lastKvApplied := index }
    applier := applier }

/-- The things a step can do. -/
inductive Move (order : ByteOrder) (cfg : Config) (s : KvNode) :
    KvInput → KvNode → List KvEvent → Prop
  | raft {now : Nat} {action : Action} {eff : Effect}
      (h : s.node.step cfg ⟨now, action⟩ = some eff) :
      Move order cfg s ⟨now, .raft action⟩ { s with node := eff.node } []
  -- the thread that calls `on_apply`
  | exit {now : Nat} (ha : s.applier = .idle) (hd : s.node.raft.dead = true) :
      Move order cfg s ⟨now, .dequeue⟩ { s with applier := .exited } []
  | skip {now : Nat} {result : ApplyResult} (ha : s.applier = .idle)
      (hq : s.node.raft.readyQueue[s.dequeued]? = some result) (hv : result.valid = false) :
      Move order cfg s ⟨now, .dequeue⟩ { s with applier := .idle, dequeued := s.dequeued + 1 } []
  | dequeue {now : Nat} {result : ApplyResult} (ha : s.applier = .idle)
      (hq : s.node.raft.readyQueue[s.dequeued]? = some result) (hv : result.valid = true) :
      Move order cfg s ⟨now, .dequeue⟩
        { s with applier := .received result, dequeued := s.dequeued + 1 } []
  | check {now : Nat} {result : ApplyResult} {cmd : Command} (ha : s.applier = .received result)
      (hd : deserialize order result.data = some cmd) :
      Move order cfg s ⟨now, .check⟩
        { s with applier := .checked result.index cmd (s.server.check cmd) } []
  | reject {now : Nat} {result : ApplyResult} (ha : s.applier = .received result)
      (hd : deserialize order result.data = none)
      (hp : s.server.pending.lookup result.index = none) :
      Move order cfg s ⟨now, .check⟩ (s.rejected result.index) []
  | rejectWaiter {now : Nat} {result : ApplyResult} {op : PendingOp} {reply : Reply}
      (ha : s.applier = .received result) (hd : deserialize order result.data = none)
      (hp : s.server.pending.lookup result.index = some op) (hr : reply.status = .timeout) :
      Move order cfg s ⟨now, .check⟩ ((s.rejected result.index).fulfilPromise op reply)
        [.fulfilled op reply]
  | executeDup {now index : Nat} {cmd : Command} {outcome : Outcome}
      (ha : s.applier = .checked index cmd outcome) (hd : outcome.isDup = true) :
      Move order cfg s ⟨now, .execute⟩ { s with applier := .executed index cmd outcome } []
  | execute {now index : Nat} {cmd : Command} {outcome : Outcome}
      (ha : s.applier = .checked index cmd outcome) (hd : outcome.isDup = false) :
      Move order cfg s ⟨now, .execute⟩
        { s with
          server := { s.server with toReplica := (s.server.execute cmd outcome).1 }
          applier := .executed index cmd (s.server.execute cmd outcome).2 }
        [.executed cmd (s.server.execute cmd outcome).2.reply.value]
  | finish {now index : Nat} {cmd : Command} {outcome : Outcome}
      (ha : s.applier = .executed index cmd outcome)
      (hp : s.server.pending.lookup index = none) :
      Move order cfg s ⟨now, .finish⟩ (s.finished index cmd outcome .idle) []
  | finishWaiter {now index : Nat} {cmd : Command} {outcome : Outcome} {op : PendingOp}
      (ha : s.applier = .executed index cmd outcome)
      (hp : s.server.pending.lookup index = some op) :
      Move order cfg s ⟨now, .finish⟩
        (s.finished index cmd outcome
          (.fulfilling op (KvServer.answerTo op cmd.clientId cmd.seqNum outcome.reply))) []
  | fulfil {now : Nat} {op : PendingOp} {reply : Reply} (ha : s.applier = .fulfilling op reply) :
      Move order cfg s ⟨now, .fulfil⟩ ({ s with applier := .idle }.fulfilPromise op reply)
        [.fulfilled op reply]
  -- the calls
  | call {now : Nat} {cmd : Command} : Move order cfg s ⟨now, .call cmd⟩ (s.call cmd) []
  | lease {now k : Nat} {cmd : Command} {call : KvCall} (hc : s.calls[k]? = some call)
      (ht : call.thread = .asking cmd) : Move order cfg s ⟨now, .lease k⟩ (s.lease now k cmd) []
  | read {now k : Nat} {key : Bytes} {commitIdx : Nat} {call : KvCall}
      (hc : s.calls[k]? = some call) (ht : call.thread = .reading key commitIdx) :
      Move order cfg s ⟨now, .read k⟩ (s.read k key) []
  | propose {now k : Nat} {cmd : Command} {data : Bytes} {call : KvCall}
      (hc : s.calls[k]? = some call) (ht : call.thread = .proposing cmd)
      (hs : serialize order cmd = some data) (hl : s.node.raft.role = .leader) :
      Move order cfg s ⟨now, .propose k⟩
        ({ s with node := { s.node with raft := (s.node.raft.propose data).1 } }.proceed k
          (.registering (s.node.raft.log.length + 1) cmd.clientId cmd.seqNum)) []
  | notLeader {now k : Nat} {cmd : Command} {call : KvCall} (hc : s.calls[k]? = some call)
      (ht : call.thread = .proposing cmd) (hl : s.node.raft.role ≠ .leader) :
      Move order cfg s ⟨now, .propose k⟩ (s.proceed k (.ended .notLeader)) []
  | register {now k index clientId seqNum : Nat} {call : KvCall} (hc : s.calls[k]? = some call)
      (ht : call.thread = .registering index clientId seqNum) :
      Move order cfg s ⟨now, .register k⟩ (s.register now k index clientId seqNum) []
  | expire {now k index deadline : Nat} {call : KvCall} (hc : s.calls[k]? = some call)
      (ht : call.thread = .waiting index deadline) (hp : call.promise = .unset)
      (hd : deadline ≤ now) :
      Move order cfg s ⟨now, .expire k⟩ (s.proceed k (.expired index)) []
  | erase {now k index : Nat} {call : KvCall} (hc : s.calls[k]? = some call)
      (ht : call.thread = .expired index) : Move order cfg s ⟨now, .erase k⟩ (s.erase k index) []
  | collect {now k index deadline : Nat} {reply : Reply} {call : KvCall}
      (hc : s.calls[k]? = some call) (ht : call.thread = .waiting index deadline)
      (hp : call.promise = .fulfilled reply) :
      Move order cfg s ⟨now, .collect k⟩ (s.proceed k (.ended (.answered reply))) []
  | throw {now k index deadline : Nat} {call : KvCall} (hc : s.calls[k]? = some call)
      (ht : call.thread = .waiting index deadline) (hp : call.promise = .broken) :
      Move order cfg s ⟨now, .collect k⟩ (s.proceed k (.ended .threw)) []

variable {order : ByteOrder} {cfg : Config} {s s' : KvNode} {now : Nat} {es : List KvEvent}

theorem move_dequeue (h : s.dequeue = some s') : Move order cfg s ⟨now, .dequeue⟩ s' [] := by
  unfold dequeue at h
  split at h
  · cases h
  · next ha =>
    rw [not_not] at ha
    split at h
    · next hd =>
      obtain rfl := Option.some.inj h
      exact .exit ha hd
    · obtain ⟨result, hq, rfl⟩ := Option.map_eq_some_iff.mp h
      cases hv : result.valid with
      | true => exact .dequeue ha hq hv
      | false => exact .skip ha hq hv

theorem move_check {result : ApplyResult} (ha : s.applier = .received result) :
    Move order cfg s ⟨now, .check⟩ (s.check order result).1 (s.check order result).2 := by
  unfold check
  split
  · next cmd hd => exact .check ha hd
  · next hd =>
    unfold KvServer.reject KvServer.takeWaiter
    cases hp : s.server.pending.lookup result.index with
    | none => exact .reject ha hd hp
    | some op =>
      refine .rejectWaiter ha hd hp ?_
      unfold KvServer.answerTo
      split <;> rfl

theorem move_execute {index : Nat} {cmd : Command} {outcome : Outcome}
    (ha : s.applier = .checked index cmd outcome) :
    Move order cfg s ⟨now, .execute⟩ (s.execute index cmd outcome).1
      (s.execute index cmd outcome).2 := by
  unfold execute
  cases hd : outcome.isDup with
  | true =>
    simp only [(s.server.execute_spec cmd outcome).2.2.2 hd, if_true]
    exact .executeDup ha hd
  | false => exact .execute ha hd

theorem move_finish {index : Nat} {cmd : Command} {outcome : Outcome}
    (ha : s.applier = .executed index cmd outcome) :
    Move order cfg s ⟨now, .finish⟩ (s.finish index cmd outcome) [] := by
  unfold finish KvServer.finish KvServer.takeWaiter
  cases hp : s.server.pending.lookup index with
  | none =>
    simp only [Option.map_none]
    exact .finish ha hp
  | some op =>
    simp only [Option.map_some]
    exact .finishWaiter ha hp

theorem move_propose {k : Nat} {cmd : Command} {call : KvCall} (hc : s.calls[k]? = some call)
    (ht : call.thread = .proposing cmd) (h : s.propose order k cmd = some s') :
    Move order cfg s ⟨now, .propose k⟩ s' [] := by
  obtain ⟨data, hdata, rfl⟩ := Option.map_eq_some_iff.mp h
  by_cases hl : s.node.raft.role = .leader
  · have hresult : (s.node.raft.propose data).2 =
        ⟨s.node.raft.log.length + 1, s.node.raft.currentTerm, true⟩ := by
      simp [Raft.propose, hl]
    simp only [hresult, if_true]
    exact .propose hc ht hdata hl
  · have hsame : s.node.raft.propose data =
        (s.node.raft, ⟨0, s.node.raft.currentTerm, false⟩) := by
      simp [Raft.propose, hl]
    simp only [hsame, Bool.false_eq_true, if_false]
    exact .notLeader hc ht hl

theorem move_collect {k index deadline : Nat} {call : KvCall} (hc : s.calls[k]? = some call)
    (ht : call.thread = .waiting index deadline) (h : s.collect k call.promise = some s') :
    Move order cfg s ⟨now, .collect k⟩ s' [] := by
  cases hp : call.promise with
  | unset =>
    rw [hp] at h
    cases h
  | fulfilled reply =>
    rw [hp] at h
    obtain rfl := Option.some.inj h
    exact .collect hc ht hp
  | broken =>
    rw [hp] at h
    obtain rfl := Option.some.inj h
    exact .throw hc ht hp

/-- The steps of a call. -/
theorem move_callStep {action : KvAction} {k : Nat} (hk : action.caller = some k)
    (h : s.callStep order now action k = some s') : Move order cfg s ⟨now, action⟩ s' [] := by
  simp only [callStep, Option.bind_eq_bind, Option.bind_eq_some_iff] at h
  obtain ⟨call, hc, h⟩ := h
  split at h
  · next cmd ht =>
    obtain rfl := Option.some.inj hk
    exact Option.some.inj h ▸ .lease hc ht
  · next key commitIdx ht =>
    obtain rfl := Option.some.inj hk
    exact Option.some.inj h ▸ .read hc ht
  · next cmd ht =>
    obtain rfl := Option.some.inj hk
    exact move_propose hc ht h
  · next index clientId seqNum ht =>
    obtain rfl := Option.some.inj hk
    exact Option.some.inj h ▸ .register hc ht
  · next index deadline ht =>
    obtain rfl := Option.some.inj hk
    split at h
    · next hp => exact Option.some.inj h ▸ .expire hc ht hp.1 hp.2
    · cases h
  · next index ht =>
    obtain rfl := Option.some.inj hk
    exact Option.some.inj h ▸ .erase hc ht
  · next index deadline ht =>
    obtain rfl := Option.some.inj hk
    exact move_collect hc ht h
  · cases h

/-- **Inversion of `KvNode.step`.** -/
theorem move_of_step {i : KvInput} (h : s.step order cfg i = some (s', es)) :
    Move order cfg s i s' es := by
  obtain ⟨now, action⟩ := i
  cases action with
  | raft action =>
    obtain ⟨eff, heff, he⟩ := Option.map_eq_some_iff.mp h
    rw [Prod.mk.injEq] at he
    obtain ⟨rfl, rfl⟩ := he
    exact .raft heff
  | dequeue =>
    obtain ⟨s₁, hs₁, he⟩ := Option.map_eq_some_iff.mp h
    rw [Prod.mk.injEq] at he
    obtain ⟨rfl, rfl⟩ := he
    exact move_dequeue hs₁
  | check =>
    simp only [step] at h
    split at h
    · next result ha =>
      have he := Option.some.inj h
      have hm : Move order cfg s ⟨now, .check⟩ _ _ := move_check ha
      rwa [he] at hm
    · cases h
  | execute =>
    simp only [step] at h
    split at h
    · next index cmd outcome ha =>
      have he := Option.some.inj h
      have hm : Move order cfg s ⟨now, .execute⟩ _ _ := move_execute ha
      rwa [he] at hm
    · cases h
  | finish =>
    simp only [step] at h
    split at h
    · next index cmd outcome ha =>
      rw [Option.some.injEq, Prod.mk.injEq] at h
      obtain ⟨rfl, rfl⟩ := h
      exact move_finish ha
    · cases h
  | fulfil =>
    simp only [step] at h
    split at h
    · next op reply ha =>
      rw [Option.some.injEq, Prod.mk.injEq] at h
      obtain ⟨rfl, rfl⟩ := h
      exact .fulfil ha
    · cases h
  | call cmd =>
    simp only [step, Option.some.injEq, Prod.mk.injEq] at h
    obtain ⟨rfl, rfl⟩ := h
    exact .call
  | lease k | read k | propose k | register k | expire k | erase k | collect k =>
    obtain ⟨s₁, hs₁, he⟩ := Option.map_eq_some_iff.mp h
    rw [Prod.mk.injEq] at he
    obtain ⟨rfl, rfl⟩ := he
    exact move_callStep rfl hs₁

/-- What a step does to the Raft node is a step of that node. -/
theorem Move.node {i : KvInput} (h : Move order cfg s i s' es) : s'.node = s.node ∨
    ∃ now action eff, Node.Move cfg s.node ⟨now, action⟩ eff ∧ s'.node = eff.node ∧
      (i.action = .raft action ∨ ∃ data, action = .propose data) := by
  cases h with
  | @raft now action eff h =>
    exact Or.inr ⟨now, action, eff, Node.move_of_step h, rfl, Or.inl rfl⟩
  | @propose now _ _ data =>
    exact Or.inr ⟨now, .propose data, _, Node.move_of_step rfl, rfl, Or.inr ⟨data, rfl⟩⟩
  | register | erase => exact Or.inl (by simp [KvNode.register, KvNode.erase])
  | _ => exact Or.inl rfl

/-- The queue only grows. -/
theorem Move.readyQueue {i : KvInput} (h : Move order cfg s i s' es) :
    s.node.raft.readyQueue <+: s'.node.raft.readyQueue := by
  rcases h.node with he | ⟨now, action, eff, hm, he, -⟩
  · exact he ▸ List.prefix_rfl
  · obtain ⟨more, hmore⟩ := hm.readyQueue
    exact ⟨more, by rw [he, hmore]⟩

/-- The replica belongs to the thread that calls `on_apply`, and so do its events. -/
theorem Move.frame {i : KvInput} (h : Move order cfg s i s' es)
    (ha : i.action.isApplier = false) :
    s'.server.toReplica = s.server.toReplica ∧
    s'.server.lastKvApplied = s.server.lastKvApplied ∧ s'.applier = s.applier ∧
    s'.dequeued = s.dequeued ∧ es = [] := by
  cases h with
  | exit | skip | dequeue | check | reject | rejectWaiter | executeDup | execute | finish
  | finishWaiter | fulfil => cases ha
  | register | erase => simp [KvNode.register, KvNode.erase, KvServer.register]
  | _ => exact ⟨rfl, rfl, rfl, rfl, rfl⟩

end KvNode

end Rafty
