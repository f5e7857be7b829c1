import Rafty.Safety.Replay

/-!
# What `KV_SUCCESS` means

`on_apply` executes an operation only if its sequence number is above the recorded one of its
client, so nothing is executed twice. A number at or below it counts as done, and is answered with
the newest reply to the client: for the newest operation that is its own reply, but for an older
one it is somebody else's, and nothing says that the older one was ever executed
(`success_without_execution`).

`success_means_executed_once`: if the newest reply reads like the operation's own whenever a waiter
is given it, every `KV_SUCCESS` stands for one execution and carries its value, and the store is the
one that these executions make.
-/

namespace Rafty

open Infra

/--
The third block answers the waiter of a repeated operation with the reply recorded for its client.
Either no higher number is recorded, so that the reply is the operation's own. Or the operation took
effect further up in the log, and what a plain store returned for it there reads like the reply.
-/
def KvNode.answersOwn (order : ByteOrder) (s : KvNode) (i : KvInput) : Bool :=
  match i.action, s.applier with
  | .finish, .executed index cmd _ =>
    (s.server.pending.lookup index).all fun op =>
      op.clientId = cmd.clientId ∧ op.seqNum = cmd.seqNum →
        (s.server.rifl.lookup cmd.clientId).all fun cached => cached.seqNum ≤ cmd.seqNum ∨
          (PlainStore.history (effective (Replica.commands order s.takenResults))).any fun x =>
            isOf op x ∧ x.2 = cached.reply.value
  | _, _ => true

/-- An answer on its way to the waiter `op` is the value of an execution of its operation. -/
def Applier.Told (xs : List (Command × Bytes)) : Applier → Prop
  | .fulfilling op reply => reply.status = .success →
    ∃ cmd, (cmd, reply.value) ∈ xs ∧ isOf op (cmd, reply.value) = true
  | _ => True

namespace KvNode

variable {order : ByteOrder} {cfg : Config} {s s' : KvNode} {i : KvInput} {es : List KvEvent}
  {xs : List (Command × Bytes)}

/-- The waiter of an entry, told success: its operation was executed. -/
theorem Replaying.told (h : s.Replaying order xs) {now index : Nat} {cmd : Command}
    {outcome : Outcome} {op : PendingOp} (ha : s.applier = .executed index cmd outcome)
    (hop : s.server.pending.lookup index = some op)
    (hp : s.answersOwn order ⟨now, .finish⟩ = true) :
    (Applier.fulfilling op
      (KvServer.answerTo op cmd.clientId cmd.seqNum outcome.reply)).Told xs := by
  intro hs
  unfold KvServer.answerTo at hs ⊢
  split at hs
  · next hown =>
    rw [if_pos hown]
    have hof : ∀ {x : Command × Bytes}, x.1.clientId = cmd.clientId → x.1.seqNum = cmd.seqNum →
        isOf op x = true :=
      fun h1 h2 => decide_eq_true ⟨h1.trans hown.1.symm, h2.trans hown.2.symm⟩
    rcases h.reply_cases ha with ⟨cached, hr, hle, hreply, x, hx, hclient, hseq, hvalue⟩ | hmem
    · simp only [answersOwn, ha, hop, Option.all_some, hr, decide_eq_true_eq] at hp
      rw [hreply]
      rcases hp hown with hnewest | hretry
      · -- the recorded number is the operation's own
        rw [hvalue]
        have hown : x.1.seqNum = cmd.seqNum := by omega
        exact ⟨x.1, hx, hof hclient hown⟩
      · obtain ⟨y, hy, hcond⟩ := List.any_eq_true.mp hretry
        obtain ⟨hyof, hyvalue⟩ := of_decide_eq_true hcond
        have hxs : xs = Replica.executed order s.takenResults := by
          have hhist := h.history
          rwa [ha] at hhist
        rw [← hyvalue, hxs, Replica.executed_eq_history]
        exact ⟨y.1, hy, hyof⟩
    · exact ⟨cmd, hmem, hof rfl rfl⟩
  · cases hs

/-- **The step lemma.** -/
theorem Replaying.told_step (h : s.Replaying order xs) (htold : s.applier.Told xs)
    (hm : Move order cfg s i s' es) (hp : s.answersOwn order i = true) :
    s'.applier.Told (xs ++ executions es) := by
  have hframe := hm.frame
  cases hm with
  | finishWaiter ha hop =>
    rw [show executions [] = [] from rfl, List.append_nil]
    exact h.told ha hop hp
  | exit | skip | dequeue | check | executeDup | execute | reject | rejectWaiter | finish
  | fulfil => trivial
  | _ =>
    rw [(hframe rfl).2.2.1, show executions [] = [] from rfl, List.append_nil]
    exact htold

end KvNode

variable {order : ByteOrder} {cfg : Config} {ts : List (Transition KvNode KvInput KvEvent)}
  {s : KvNode}

/-- **The run lemma.** -/
theorem told_of_run (h : (kvSystem order cfg).Run ts s)
    (hp : ∀ t ∈ ts, t.before.answersOwn order t.input = true) :
    s.applier.Told (executions (events ts)) := by
  induction h with
  | init hi =>
    obtain ⟨timeout, rfl⟩ := hi
    trivial
  | step hr hs ih =>
    rw [List.forall_mem_append, List.forall_mem_singleton] at hp
    rw [events_append, events_singleton, executions_append]
    exact (replaying_of_run hr).told_step (ih hp.1) (KvNode.move_of_step hs) hp.2

/-- A promise gets `KV_SUCCESS` from the answer on its way, and the replica stays as it is. -/
theorem KvNode.Move.of_success {s' : KvNode} {i : KvInput} {es : List KvEvent}
    (hm : KvNode.Move order cfg s i s' es) {op : PendingOp} {value : Bytes}
    (he : .fulfilled op ⟨.success, value⟩ ∈ es) :
    s.applier = .fulfilling op ⟨.success, value⟩ ∧ s'.server = s.server := by
  cases hm with
  | rejectWaiter _ _ _ hr =>
    rw [List.mem_singleton, KvEvent.fulfilled.injEq] at he
    rw [← he.2] at hr
    cases hr
  | fulfil ha =>
    rw [List.mem_singleton, KvEvent.fulfilled.injEq] at he
    obtain ⟨rfl, rfl⟩ := he
    exact ⟨ha, rfl⟩
  | execute => simp at he
  | _ => cases he

/--
**A successful answer stands for one execution.** When a waiter is told `KV_SUCCESS` with `value`,
exactly one of the executions so far is of its operation, and that one computed `value`. The
executions are real: each computed what the plain store returns at its place, and `store_` holds
what the plain store holds after exactly these.
-/
theorem success_means_executed_once (order : ByteOrder) (cfg : Config)
    {ts : List (Transition KvNode KvInput KvEvent)} {s : KvNode} (h : (kvSystem order cfg).Run ts s)
    (hp : ∀ t ∈ ts, t.before.answersOwn order t.input = true)
    {ts₁ ts₂ : List (Transition KvNode KvInput KvEvent)} {t : Transition KvNode KvInput KvEvent}
    (hts : ts = ts₁ ++ t :: ts₂) {op : PendingOp} {value : Bytes}
    (he : .fulfilled op ⟨.success, value⟩ ∈ t.events) :
    (∃ cmd, (executions (events ts₁)).filter (isOf op) = [(cmd, value)]) ∧
    Legal PlainStore.apply .empty (executions (events ts₁)) ∧
    t.after.server.toReplica.read = storeAfter (executions (events ts₁)) := by
  subst hts
  obtain ⟨hr, hs, -⟩ := h.of_append_cons
  obtain ⟨happ, hserver⟩ := (KvNode.move_of_step hs).of_success he
  have hreplaying := replaying_of_run hr
  have htold := told_of_run hr fun u hu => hp u (List.mem_append_left _ hu)
  rw [happ] at htold
  obtain ⟨cmd, hmem, hop⟩ := htold rfl
  have hreplays := Replica.replays_executed order (t.before.applier.reached t.before.takenResults)
  rw [← hreplaying.history] at hreplays
  refine ⟨⟨cmd, filter_eq_singleton hreplays.once _ hmem hop⟩, hreplays.legal, ?_⟩
  rw [hserver]
  exact hreplaying.read_eq

/-! ## Two operations of one client -/

/-- Client 7 puts `a` and `b`, the two reach the log in the order of `first` and `second`. -/
def twoPuts (first second : Nat) : List KvInput :=
  kvLeader ++ kvSteps 310 ([.call ⟨.put, 7, first, [107], [97]⟩,
      .call ⟨.put, 7, second, [108], [98]⟩, .propose 0, .register 0, .propose 1, .register 1] ++
    [.buildRound 3, bothAnswer, .applyNext, .applyNext].map .raft ++
    applyOne ++ [.fulfil] ++ applyOne ++ [.fulfil])

/-- In the order of their numbers, both are executed and answered. -/
theorem success_means_executed_once_inOrder : ∃ ts₁ t s,
    (kvSystem .little (threeNodes.config 0)).Run (ts₁ ++ [t]) s ∧
    (ts₁ ++ [t]).map Transition.input = twoPuts 1 2 ∧
    .fulfilled ⟨7, 2, 1⟩ ⟨.success, []⟩ ∈ t.events ∧
    executions (events ts₁) =
      [(⟨.put, 7, 1, [107], [97]⟩, []), (⟨.put, 7, 2, [108], [98]⟩, [])] ∧
    (∃ cmd, (executions (events ts₁)).filter (isOf ⟨7, 2, 1⟩) = [(cmd, [])]) ∧
    t.after.server.toReplica.read = storeAfter (executions (events ts₁)) := by
  obtain ⟨ts, s, hr, hi, ⟨t, ht, he⟩, hx, hp⟩ := exists_kvRun (twoPuts 1 2)
    (fun ts _ => (∃ t ∈ ts.getLast?, .fulfilled ⟨7, 2, 1⟩ ⟨.success, []⟩ ∈ t.events) ∧
      executions (events ts.dropLast) =
        [(⟨.put, 7, 1, [107], [97]⟩, []), (⟨.put, 7, 2, [108], [98]⟩, [])] ∧
      ∀ t ∈ ts, t.before.answersOwn .little t.input = true) (by decide +kernel)
  have hts := List.dropLast_append_getLast? t ht
  rw [← hts] at hr hi hp
  obtain ⟨hone, -, hstore⟩ := success_means_executed_once .little _ hr hp rfl he
  exact ⟨_, t, s, hr, hi, he, hx, hone, hstore⟩

/--
In the other order number 1 counts as done when it comes: it is answered with the reply to number 2,
and nothing is ever stored for it.
-/
theorem success_without_execution : ∃ ts s,
    (kvSystem .little (threeNodes.config 0)).Run ts s ∧
    ts.map Transition.input = twoPuts 2 1 ∧
    events ts = [.executed ⟨.put, 7, 2, [107], [97]⟩ [], .fulfilled ⟨7, 2, 0⟩ ⟨.success, []⟩,
      .fulfilled ⟨7, 1, 1⟩ ⟨.success, []⟩] ∧
    (executions (events ts)).filter (isOf ⟨7, 1, 1⟩) = [] ∧ s.server.store.lookup [108] = none :=
  exists_kvRun (twoPuts 2 1) _ (by decide +kernel)

end Rafty
