import Rafty.Safety.ExactlyOnce
import Rafty.Safety.Promises

/-!
# What a server answers

What the answers of a node say about the executions it has behind it, in any run.

`success_executed_or_superseded`: a call that is answered `KV_SUCCESS` was for an operation that
this node has executed once, and carries the value of that execution; or its client has a newer
operation that this node has executed. The second case is the one in which the answer is somebody
else's, and it needs a client that does not wait for its answers.
-/

namespace Rafty

open Infra

/-! ## What an answer says -/

/-- The operation was executed with this value, or a newer one of its client was executed. -/
def Answered (xs : List (Command × Bytes)) (cmd : Command) (value : Bytes) : Prop :=
  (∃ x ∈ xs, x.1.clientId = cmd.clientId ∧ x.1.seqNum = cmd.seqNum ∧ x.2 = value) ∨
    ∃ x ∈ xs, x.1.clientId = cmd.clientId ∧ cmd.seqNum < x.1.seqNum

theorem Answered.append {xs : List (Command × Bytes)} {cmd : Command} {value : Bytes}
    (h : Answered xs cmd value) (ys : List (Command × Bytes)) : Answered (xs ++ ys) cmd value := by
  rcases h with ⟨x, hx, hrest⟩ | ⟨x, hx, hrest⟩
  · exact Or.inl ⟨x, List.mem_append_left _ hx, hrest⟩
  · exact Or.inr ⟨x, List.mem_append_left _ hx, hrest⟩

/-! ## Calls and the commands they came with -/

/-- The command that a call for `cmd` proposes: a `Get` has no value. -/
def Command.sent (cmd : Command) : Command :=
  if cmd.op = .get then { cmd with value := [] } else cmd

/-- The command that a step brings in. -/
def KvInput.issues (i : KvInput) : List Command :=
  match i.action with
  | .call cmd => [cmd]
  | _ => []

/-- The commands that calls came in with, in the order of the calls. -/
def issued (ts : List (Transition KvNode KvInput KvEvent)) : List Command :=
  ts.flatMap fun t => t.input.issues

theorem issued_concat (ts : List (Transition KvNode KvInput KvEvent))
    (t : Transition KvNode KvInput KvEvent) : issued (ts ++ [t]) = issued ts ++ t.input.issues := by
  simp [issued]

/-- A place in a call where it neither holds its command or its numbers nor has its answer. -/
def CallThread.isSilent : CallThread → Bool
  | .asking _ | .proposing _ | .registering .. | .ended (.answered _) => false
  | _ => true

/-- What is known of a call for `cmd`. -/
structure KvCall.About (cmd : Command) (xs : List (Command × Bytes)) (call : KvCall) : Prop where
  proposes : ∀ c, call.thread = .asking c ∨ call.thread = .proposing c → c = cmd.sent
  registers : ∀ index clientId seqNum, call.thread = .registering index clientId seqNum →
    clientId = cmd.clientId ∧ seqNum = cmd.seqNum
  promised : ∀ reply, call.promise = .fulfilled reply → reply.status = .success →
    Answered xs cmd reply.value
  answered : ∀ reply, call.thread = .ended (.answered reply) → reply.status = .success →
    Answered xs cmd reply.value

theorem KvCall.About.append {cmd : Command} {xs : List (Command × Bytes)} {call : KvCall}
    (h : call.About cmd xs) (ys : List (Command × Bytes)) : call.About cmd (xs ++ ys) where
  proposes := h.proposes
  registers := h.registers
  promised reply hp hs := (h.promised reply hp hs).append ys
  answered reply ht hs := (h.answered reply ht hs).append ys

/-- The waiter is for the operation of the call it belongs to. -/
def PendingOp.IsFor (op : PendingOp) (cmds : List Command) : Prop :=
  ∀ cmd, cmds[op.call]? = some cmd → op.clientId = cmd.clientId ∧ op.seqNum = cmd.seqNum

/-- What is known of the calls that came in with `cmds` after the executions `xs`. -/
structure KvNode.Answers (cmds : List Command) (xs : List (Command × Bytes)) (s : KvNode) :
    Prop where
  length : s.calls.length = cmds.length
  calls : ∀ (k : Nat) (call : KvCall) cmd, s.calls[k]? = some call → cmds[k]? = some cmd →
    call.About cmd xs
  waiters : ∀ index op, s.server.pending.lookup index = some op →
    op.call < cmds.length ∧ op.IsFor cmds
  taken : ∀ op reply, s.applier = .fulfilling op reply → op.call < cmds.length ∧ op.IsFor cmds ∧
    (reply.status = .success → ∀ cmd, cmds[op.call]? = some cmd → Answered xs cmd reply.value)

namespace KvNode

variable {order : ByteOrder} {cfg : Config} {s s' : KvNode} {i : KvInput} {es : List KvEvent}
  {cmds : List Command} {xs : List (Command × Bytes)}

/-- What holds of all calls holds of them after one of them was changed. -/
theorem forall_modify {P : Nat → KvCall → Prop} {calls : List KvCall} {k : Nat}
    {f : KvCall → KvCall} (h : ∀ j (call : KvCall), calls[j]? = some call → P j call)
    (hk : ∀ call, calls[k]? = some call → P k (f call)) :
    ∀ j (call : KvCall), (calls.modify k f)[j]? = some call → P j call := by
  intro j call hj
  rw [List.getElem?_modify] at hj
  split at hj
  · next hjk =>
    subst hjk
    obtain ⟨old, hold, rfl⟩ := Option.map_eq_some_iff.mp hj
    exact hk old hold
  · obtain ⟨old, hold, rfl⟩ := Option.map_eq_some_iff.mp hj
    exact h j old hold

/-- The call goes on to a place about which `About` says nothing. -/
theorem about_elsewhere {cmd : Command} {call : KvCall} {thread : CallThread}
    (h : call.About cmd xs) (hs : thread.isSilent = true) :
    KvCall.About cmd xs { call with thread := thread } where
  proposes c ht := by rcases ht with rfl | rfl <;> cases hs
  registers index clientId seqNum ht := by cases ht; cases hs
  promised := h.promised
  answered reply ht := by cases ht; cases hs

/-- A destroyed promise has the value it had. -/
theorem about_destroyed {cmd : Command} {call : KvCall} (h : call.About cmd xs) :
    KvCall.About cmd xs { call with promise := call.promise.destroy } where
  proposes := h.proposes
  registers := h.registers
  promised reply hp := by
    refine h.promised reply ?_
    cases hc : call.promise <;> simp_all [Promise.destroy]
  answered := h.answered

/-- The calls after the entry at an index, and the promise in it, are destroyed. -/
theorem forall_destroyAt {P : Nat → KvCall → Prop} (index : Nat)
    (h : ∀ j (call : KvCall), s.calls[j]? = some call → P j call)
    (hd : ∀ j (call : KvCall), P j call → P j { call with promise := call.promise.destroy }) :
    ∀ j (call : KvCall), (s.destroyAt index).calls[j]? = some call → P j call := by
  unfold destroyAt
  split
  · exact h
  · exact forall_modify h fun call hc => hd _ _ (h _ call hc)

/-- The first place of a call, and that its promise has no value yet. -/
theorem about_new (cmd : Command) (xs : List (Command × Bytes)) : ∀ call ∈
    [{ thread := if cmd.op = .get then .asking { cmd with value := [] } else .proposing cmd
       promise := .unset : KvCall }], call.About cmd xs := by
  intro call hmem
  rw [List.mem_singleton] at hmem
  subst hmem
  split
  · next hget => exact ⟨by simp [Command.sent, hget], by simp, by simp, by simp⟩
  · next hget => exact ⟨by simp [Command.sent, hget], by simp, by simp, by simp⟩

/-- **What a step does to the calls.** -/
theorem Answers.about (h : s.Answers cmds xs) (hm : Move order cfg s i s' es) :
    ∀ (k : Nat) (call : KvCall), s'.calls[k]? = some call →
      ∀ cmd, (cmds ++ i.issues)[k]? = some cmd → call.About cmd xs := by
  -- all steps but one bring in no command
  have hall : i.issues = [] → ∀ (k : Nat) (call : KvCall), s.calls[k]? = some call →
      ∀ cmd, (cmds ++ i.issues)[k]? = some cmd → call.About cmd xs := by
    intro hi k call hc cmd hcmd
    rw [hi, List.append_nil] at hcmd
    exact h.calls k call cmd hc hcmd
  cases hm with
  | raft | exit | skip | dequeue | check | reject | executeDup | execute | finish | finishWaiter =>
    exact hall rfl
  | rejectWaiter _ _ _ hr =>
    refine forall_modify (hall rfl) fun call hc cmd hcmd => ?_
    have ha := hall rfl _ call hc cmd hcmd
    refine ⟨ha.proposes, ha.registers, fun reply hp hs => ?_, ha.answered⟩
    obtain rfl := Promise.fulfilled.inj hp
    rw [hr] at hs
    cases hs
  | @fulfil _ op reply hfulfil =>
    refine forall_modify (hall rfl) fun call hc cmd hcmd => ?_
    have ha := hall rfl _ call hc cmd hcmd
    refine ⟨ha.proposes, ha.registers, fun reply' hp hs => ?_, ha.answered⟩
    obtain rfl := Promise.fulfilled.inj hp
    rw [show KvInput.issues ⟨_, .fulfil⟩ = [] from rfl, List.append_nil] at hcmd
    exact (h.taken op reply hfulfil).2.2 hs cmd hcmd
  | @call _ cmd =>
    intro k call hc cmd' hcmd
    rw [KvNode.call, List.getElem?_append] at hc
    rw [List.getElem?_append, ← h.length] at hcmd
    split at hc
    · next hlt =>
      rw [if_pos hlt] at hcmd
      exact h.calls k call cmd' hc hcmd
    · next hge =>
      rw [if_neg hge] at hcmd
      have hcmd' := List.mem_singleton.mp (List.mem_of_getElem? hcmd)
      subst hcmd'
      exact about_new _ xs call (List.mem_of_getElem? hc)
  | @lease now k cmd _ hc ht =>
    have hnext : ∀ thread, thread.isSilent = true ∨ thread = .proposing cmd →
        ∀ call, s.calls[k]? = some call → ∀ c, (cmds ++ [])[k]? = some c →
          KvCall.About c xs { call with thread := thread } := by
      rintro thread hthread call hc' c hcmd
      obtain rfl := Option.some.inj (hc.symm.trans hc')
      have ha := hall rfl _ _ hc c hcmd
      rcases hthread with hs | rfl
      · exact about_elsewhere ha hs
      · refine ⟨?_, by simp, ha.promised, by simp⟩
        rintro c' (he | he)
        · cases he
        · obtain rfl := CallThread.proposing.inj he
          exact ha.proposes _ (Or.inl ht)
    rw [show s.lease now k cmd = s.proceed k
      (if (s.node.raft.getLeaseState now).1 then
        .reading cmd.key (s.node.raft.getLeaseState now).2 else .proposing cmd) from rfl]
    refine forall_modify (hall rfl) (hnext _ ?_)
    cases (s.node.raft.getLeaseState now).1 with
    | true => exact Or.inl rfl
    | false => exact Or.inr rfl
  | @propose now k cmd data _ hc ht =>
    refine forall_modify (hall rfl) fun call hc' c hcmd => ?_
    obtain rfl := Option.some.inj (hc.symm.trans hc')
    have ha := hall rfl _ _ hc c hcmd
    refine ⟨by simp, ?_, ha.promised, by simp⟩
    rintro index clientId seqNum he
    obtain ⟨-, rfl, rfl⟩ := CallThread.registering.inj he
    rw [ha.proposes _ (Or.inr ht)]
    unfold Command.sent
    split <;> exact ⟨rfl, rfl⟩
  | @collect _ k _ _ reply _ hc ht hp =>
    refine forall_modify (hall rfl) fun call hc' c hcmd => ?_
    obtain rfl := Option.some.inj (hc.symm.trans hc')
    have ha := hall rfl _ _ hc c hcmd
    refine ⟨by simp, by simp, ha.promised, ?_⟩
    rintro reply' he
    obtain rfl := Ending.answered.inj (CallThread.ended.inj he)
    exact ha.promised _ hp
  | @register now k index clientId seqNum call hc ht =>
    refine forall_modify (forall_destroyAt index (hall rfl) fun j call h cmd hcmd =>
      about_destroyed (h cmd hcmd)) fun call hc' cmd hcmd => ?_
    exact about_elsewhere (forall_destroyAt index (hall rfl) (fun j call h cmd hcmd =>
      about_destroyed (h cmd hcmd)) _ call hc' cmd hcmd) rfl
  | @erase now k index call hc ht =>
    refine forall_modify (forall_destroyAt index (hall rfl) fun j call h cmd hcmd =>
      about_destroyed (h cmd hcmd)) fun call hc' cmd hcmd => ?_
    exact about_elsewhere (forall_destroyAt index (hall rfl) (fun j call h cmd hcmd =>
      about_destroyed (h cmd hcmd)) _ call hc' cmd hcmd) rfl
  | read | notLeader | expire | throw =>
    exact forall_modify (hall rfl) fun call hc' c hcmd =>
      about_elsewhere (hall rfl _ call hc' c hcmd) rfl

@[simp] theorem length_destroyAt (s : KvNode) (index : Nat) :
    (s.destroyAt index).calls.length = s.calls.length := by
  unfold destroyAt
  split <;> simp

theorem Move.length_calls (hm : Move order cfg s i s' es) :
    s'.calls.length = s.calls.length + i.issues.length := by
  cases hm with
  | call => simp [KvNode.call, KvInput.issues]
  | register => simp [KvNode.register, KvNode.proceed, KvInput.issues]
  | erase => simp [KvNode.erase, KvNode.proceed, KvInput.issues]
  | lease => simp [KvNode.lease, KvNode.proceed, KvInput.issues]
  | read => simp [KvNode.read, KvNode.proceed, KvInput.issues]
  | propose | notLeader | expire | collect | throw => simp [KvNode.proceed, KvInput.issues]
  | fulfil | rejectWaiter => simp [fulfilPromise, rejected, KvInput.issues]
  | _ => rfl

/-- More commands do not change whom a waiter is for. -/
theorem isFor_append {op : PendingOp} (h : op.call < cmds.length ∧ op.IsFor cmds)
    (more : List Command) : op.call < (cmds ++ more).length ∧ op.IsFor (cmds ++ more) := by
  refine ⟨by rw [List.length_append]; omega, fun cmd hcmd => h.2 cmd ?_⟩
  rwa [List.getElem?_append_left h.1] at hcmd

/-- **What a step does to the waiters.** -/
theorem Answers.isFor (h : s.Answers cmds xs) (hm : Move order cfg s i s' es) :
    ∀ index op, s'.server.pending.lookup index = some op →
      op.call < (cmds ++ i.issues).length ∧ op.IsFor (cmds ++ i.issues) := by
  have hsame : ∀ index op, s.server.pending.lookup index = some op →
      op.call < (cmds ++ i.issues).length ∧ op.IsFor (cmds ++ i.issues) :=
    fun index op hop => isFor_append (h.waiters index op hop) _
  intro index op hop
  cases hm with
  | reject | rejectWaiter | finish | finishWaiter => exact hsame index op (lookup_of_erase hop).2
  | erase =>
    simp only [KvNode.erase, proceed_server, destroyAt_server] at hop
    exact hsame index op (lookup_of_erase hop).2
  | @register now k index' clientId seqNum call hc ht =>
    simp only [KvNode.register, proceed_server, KvServer.register, destroyAt_server] at hop
    by_cases hidx : index = index'
    · -- the call's own numbers
      subst hidx
      rw [AList.lookup_insert, Option.some.injEq] at hop
      subst hop
      have hlt := (List.getElem?_eq_some_iff.mp hc).1
      rw [show KvInput.issues ⟨_, .register k⟩ = [] from rfl, List.append_nil]
      exact ⟨h.length ▸ hlt, fun cmd hcmd => (h.calls k call cmd hc hcmd).registers _ _ _ ht⟩
    · rw [AList.lookup_insert_ne hidx] at hop
      exact hsame index op hop
  | _ => exact hsame index op hop

/-- What `on_apply` tells the waiter at the index of a command that it has executed. -/
theorem Replaying.answerTo (h : s.Replaying order xs) {index : Nat} {cmd : Command}
    {outcome : Outcome} {op : PendingOp} (ha : s.applier = .executed index cmd outcome)
    (hs : (KvServer.answerTo op cmd.clientId cmd.seqNum outcome.reply).status = .success)
    {cmd' : Command} (hop : op.clientId = cmd'.clientId ∧ op.seqNum = cmd'.seqNum) :
    Answered xs cmd' (KvServer.answerTo op cmd.clientId cmd.seqNum outcome.reply).value := by
  unfold KvServer.answerTo at hs ⊢
  split at hs
  · next hsame =>
    rw [if_pos hsame]
    have hclient' : cmd.clientId = cmd'.clientId := hsame.1.symm.trans hop.1
    have hseq' : cmd.seqNum = cmd'.seqNum := hsame.2.symm.trans hop.2
    rcases h.reply_cases ha with ⟨cached, -, hle, hreply, x, hx, hclient, hseq, hvalue⟩ | hmem
    · -- a duplicate: the newest reply to the client is that of an execution
      rw [hreply, hvalue]
      rcases Nat.lt_or_eq_of_le hle with hlt | heq
      · exact Or.inr ⟨x, hx, hclient.trans hclient', by omega⟩
      · exact Or.inl ⟨x, hx, hclient.trans hclient', by omega, rfl⟩
    · exact Or.inl ⟨_, hmem, hclient', hseq', rfl⟩
  · cases hs

/-- **The step lemma.** -/
theorem Answers.step (h : s.Answers cmds xs) (hr : s.Replaying order xs)
    (hm : Move order cfg s i s' es) :
    s'.Answers (cmds ++ i.issues) (xs ++ executions es) where
  length := by rw [hm.length_calls, h.length, List.length_append]
  calls k call cmd hc hcmd := (h.about hm k call hc cmd hcmd).append _
  waiters := h.isFor hm
  taken op reply happ := by
    have hframe := hm.frame
    cases hm with
    | @finishWaiter _ index cmd outcome op' ha hp =>
      obtain ⟨rfl, rfl⟩ := Applier.fulfilling.inj happ
      obtain ⟨hlt, hfor⟩ := h.waiters index op' hp
      refine ⟨(isFor_append ⟨hlt, hfor⟩ []).1, (isFor_append ⟨hlt, hfor⟩ []).2,
        fun hs c hc => ?_⟩
      rw [show KvInput.issues ⟨_, .finish⟩ = [] from rfl, List.append_nil] at hc
      exact (hr.answerTo ha hs (hfor c hc)).append _
    | exit | skip | dequeue | check | executeDup | execute | reject | rejectWaiter | finish
    | fulfil => cases happ
    | _ =>
      rw [(hframe rfl).2.2.1] at happ
      obtain ⟨hlt, hfor, hanswer⟩ := h.taken op reply happ
      refine ⟨(isFor_append ⟨hlt, hfor⟩ _).1, (isFor_append ⟨hlt, hfor⟩ _).2, fun hs c hc => ?_⟩
      rw [List.getElem?_append_left hlt] at hc
      exact (hanswer hs c hc).append _

end KvNode

/-- **The run lemma.** -/
theorem answers_of_run {order : ByteOrder} {cfg : Config}
    {ts : List (Transition KvNode KvInput KvEvent)} {s : KvNode}
    (h : (kvSystem order cfg).Run ts s) : s.Answers (issued ts) (executions (events ts)) := by
  induction h with
  | init hi =>
    obtain ⟨timeout, rfl⟩ := hi
    exact ⟨rfl, by simp [KvNode.init], by simp [KvNode.init, KvServer.init],
      by simp [KvNode.init]⟩
  | step hr hs ih =>
    rw [events_append, events_singleton, executions_append, issued_concat]
    exact ih.step (replaying_of_run hr) (KvNode.move_of_step hs)

/--
**A successful answer stands for one execution, unless the client is past it.** In any run: a call
that came in with `cmd` and ended with `KV_SUCCESS` and `value` was for an operation that this node
has executed exactly once, with that value; or the node has executed a newer operation of the same
client. The executions are those of a plain store, and `store_` holds what that store holds after
exactly these.
-/
theorem success_executed_or_superseded {order : ByteOrder} {cfg : Config}
    {ts : List (Transition KvNode KvInput KvEvent)} {s : KvNode}
    (h : (kvSystem order cfg).Run ts s) {k : Nat} {cmd : Command} {call : KvCall} {value : Bytes}
    (hcmd : (issued ts)[k]? = some cmd) (hc : s.calls[k]? = some call)
    (ht : call.thread = .ended (.answered ⟨.success, value⟩)) :
    ((∃ cmd', (executions (events ts)).filter (isOf ⟨cmd.clientId, cmd.seqNum, k⟩) =
      [(cmd', value)]) ∨
    ∃ x ∈ executions (events ts), x.1.clientId = cmd.clientId ∧ cmd.seqNum < x.1.seqNum) ∧
    Legal PlainStore.apply .empty (executions (events ts)) ∧
    s.server.toReplica.read = storeAfter (executions (events ts)) := by
  have hreplaying := replaying_of_run h
  have hreplays := Replica.replays_executed order (s.applier.reached s.takenResults)
  rw [← hreplaying.history] at hreplays
  refine ⟨?_, hreplays.legal, hreplaying.read_eq⟩
  rcases ((answers_of_run h).calls k call cmd hc hcmd).answered _ ht rfl with
    ⟨⟨cmd', v⟩, hx, hclient, hseq, rfl⟩ | hnewer
  · exact Or.inl ⟨cmd', filter_eq_singleton hreplays.once _ hx (decide_eq_true ⟨hclient, hseq⟩)⟩
  · exact Or.inr hnewer

/-- In the run of `success_without_execution` number 1 is superseded. -/
theorem success_executed_or_superseded_twoPuts : ∃ ts s,
    (kvSystem .little (threeNodes.config 0)).Run ts s ∧
    ts.map Transition.input = twoPuts 2 1 ++ kvSteps 320 [.collect 1] ∧
    ((∃ cmd', (executions (events ts)).filter (isOf ⟨7, 1, 1⟩) = [(cmd', [])]) ∨
      ∃ x ∈ executions (events ts), x.1.clientId = 7 ∧ 1 < x.1.seqNum) ∧
    s.server.toReplica.read = storeAfter (executions (events ts)) := by
  obtain ⟨ts, s, hr, hi, hcmd, hc⟩ := exists_kvRun (twoPuts 2 1 ++ kvSteps 320 [.collect 1])
    (fun ts s => (issued ts)[1]? = some ⟨.put, 7, 1, [108], [98]⟩ ∧
      s.calls[1]? = some ⟨.ended (.answered ⟨.success, []⟩), .fulfilled ⟨.success, []⟩⟩)
    (by decide +kernel)
  obtain ⟨hcase, -, hstore⟩ := success_executed_or_superseded hr hcmd hc rfl
  exact ⟨ts, s, hr, hi, hcase, hstore⟩

end Rafty
