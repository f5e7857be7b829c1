import Rafty.Infra.Linearizable
import Rafty.Kv.Spec
import Rafty.Safety.FastRead

/-!
# Replaying the log is the plain store

`executed` picks, out of a list of results, those that `on_apply` executes, with the values it
computes for them. Everything that is left out is no command, or repeats or precedes an operation of
the same client that was executed before.

* `replay_is_plain_store` — what `on_apply` does with a list of results is what the plain store does
  with the executed operations, one after the other.
* `executed_eq_history` — which operations these are, and the values, can be said without
  `on_apply`.
* `replaying_of_run`, `KvNode.Replaying.read_eq` — the executions of a node are those of a replay of
  the results that have reached its store, and its store holds what the plain store holds after
  them.
-/

namespace Rafty

open Infra

/-- The executions among the events: the command and the value it computed. -/
def executions (es : List KvEvent) : List (Command × Bytes) :=
  es.filterMap fun
    | .executed cmd value => some (cmd, value)
    | .fulfilled .. => none

@[simp] theorem executions_nil : executions [] = [] := rfl

@[simp] theorem executions_append (es es' : List KvEvent) :
    executions (es ++ es') = executions es ++ executions es' := List.filterMap_append

/-- The execution is one of the operation that the waiter is for. -/
def isOf (op : PendingOp) (x : Command × Bytes) : Bool :=
  x.1.clientId = op.clientId ∧ x.1.seqNum = op.seqNum

/-! ## The table and the executions -/

/-- `rifl_` holds the newest execution of each client, and no operation is executed twice. -/
structure Settled (xs : List (Command × Bytes)) (s : Replica) : Prop where
  newest : ∀ clientId cached, s.rifl.lookup clientId = some cached → ∃ cmd value,
    (cmd, value) ∈ xs ∧ cmd.clientId = clientId ∧ cmd.seqNum = cached.seqNum ∧
    cached.reply = ⟨.success, value⟩
  done : ∀ x ∈ xs, s.Done x.1.clientId x.1.seqNum
  once : xs.Pairwise fun x y => ¬(x.1.clientId = y.1.clientId ∧ x.1.seqNum = y.1.seqNum)

variable {xs : List (Command × Bytes)} {s : Replica}

theorem Settled.of_rifl {s' : Replica} (h : Settled xs s) (he : s'.rifl = s.rifl) :
    Settled xs s' where
  newest clientId cached hr := h.newest clientId cached (he ▸ hr)
  done x hx := Replica.Done.of_rifl (h.done x hx) he
  once := h.once

/-- An execution of an operation that did not count as done, once it is recorded. -/
theorem Settled.record (h : Settled xs s) {cmd : Command} {outcome : Outcome}
    (hnot : ¬s.Done cmd.clientId cmd.seqNum) (hd : outcome.isDup = false)
    (hs : outcome.reply.status = .success) :
    Settled (xs ++ [(cmd, outcome.reply.value)]) (s.record cmd outcome) := by
  have hrifl : (s.record cmd outcome).rifl =
      s.rifl.insert cmd.clientId ⟨cmd.seqNum, outcome.reply⟩ := by
    simp [Replica.record, hd]
  constructor
  case newest =>
    intro clientId cached hr
    rw [hrifl] at hr
    by_cases hc : clientId = cmd.clientId
    · subst hc
      rw [AList.lookup_insert, Option.some.injEq] at hr
      subst hr
      exact ⟨cmd, outcome.reply.value, by simp, rfl, rfl, by rw [← hs]⟩
    · rw [AList.lookup_insert_ne hc] at hr
      obtain ⟨cmd', value, hmem, hrest⟩ := h.newest clientId cached hr
      exact ⟨cmd', value, List.mem_append_left _ hmem, hrest⟩
  case done =>
    intro x hx
    rcases List.mem_append.mp hx with hx | hx
    · exact (h.done x hx).insert hnot hrifl
    · rw [List.mem_singleton] at hx
      subst hx
      exact ⟨_, by rw [hrifl]; exact AList.lookup_insert _, Nat.le_refl _⟩
  case once =>
    refine List.pairwise_append.mpr ⟨h.once, List.pairwise_singleton _ _, ?_⟩
    intro x hx y hy
    rw [List.mem_singleton] at hy
    subst hy
    rintro ⟨hclient, hseq⟩
    exact hnot (hclient ▸ hseq ▸ h.done x hx)

/-- What was executed once is the only execution of its operation. -/
theorem filter_eq_singleton {op : PendingOp} : ∀ {xs : List (Command × Bytes)},
    xs.Pairwise (fun x y => ¬(x.1.clientId = y.1.clientId ∧ x.1.seqNum = y.1.seqNum)) →
    ∀ x ∈ xs, isOf op x = true → xs.filter (isOf op) = [x]
  | [], _, x, hx, _ => by cases hx
  | y :: xs, hp, x, hx, hop => by
    obtain ⟨hy, hp⟩ := List.pairwise_cons.mp hp
    have hop' := of_decide_eq_true hop
    rcases List.mem_cons.mp hx with rfl | hx
    · rw [List.filter_cons_of_pos hop, List.filter_eq_nil_iff.mpr]
      intro z hz hz'
      have := of_decide_eq_true hz'
      exact hy z hz ⟨hop'.1.trans this.1.symm, hop'.2.trans this.2.symm⟩
    · rw [List.filter_cons_of_neg, filter_eq_singleton hp x hx hop]
      intro hy'
      have := of_decide_eq_true hy'
      exact hy x hx ⟨this.1.trans hop'.1.symm, this.2.trans hop'.2.symm⟩

/-- Exactly the executed operations and those before them count as done. -/
theorem Settled.done_iff (h : Settled xs s) {clientId seqNum : Nat} : s.Done clientId seqNum ↔
    ∃ x ∈ xs, x.1.clientId = clientId ∧ seqNum ≤ x.1.seqNum := by
  constructor
  · rintro ⟨cached, hr, hle⟩
    obtain ⟨cmd, value, hmem, hclient, hseq, -⟩ := h.newest _ _ hr
    exact ⟨_, hmem, hclient, hseq ▸ hle⟩
  · rintro ⟨x, hx, rfl, hle⟩
    obtain ⟨cached, hr, hle'⟩ := h.done x hx
    exact ⟨cached, hr, hle.trans hle'⟩

/-! ## What is executed of a list of results -/

namespace Replica

/-- What `on_apply` executes for a result, and the value it computes. -/
def executes (order : ByteOrder) (s : Replica) (result : ApplyResult) : Option (Command × Bytes) :=
  if ¬result.valid then none
  else
    match deserialize order result.data with
    | none => none
    | some cmd => if (s.check cmd).isDup then none else some (cmd, (s.applyCommand cmd).2.value)

/-- `on_apply` with what it executes as output. -/
def replay (order : ByteOrder) (s : Replica) (result : ApplyResult) :
    Replica × Option (Command × Bytes) :=
  ((s.onApply order result).1, s.executes order result)

/-- What is executed of a list of results. -/
def executed (order : ByteOrder) (results : List ApplyResult) : List (Command × Bytes) :=
  (feed (replay order) .init results).2.filterMap id

/-- The commands in a list of results. -/
def commands (order : ByteOrder) (results : List ApplyResult) : List Command :=
  results.filterMap fun result => if result.valid then deserialize order result.data else none

variable {order : ByteOrder} {results : List ApplyResult} {result : ApplyResult} {cmd : Command}

theorem feed_replay (order : ByteOrder) (results : List ApplyResult) :
    (feed (replay order) .init results).1 = after order results :=
  feed_fst_congr (f := replay order) (g := Replica.onApply order) (fun _ _ => rfl) _ _

theorem executed_concat : executed order (results ++ [result]) =
    executed order results ++ ((after order results).executes order result).toList := by
  unfold executed
  rw [feed_concat_snd, List.filterMap_append, feed_replay, replay]
  cases (after order results).executes order result <;> rfl

/-- **What becomes of a result**: nothing, a duplicate, or an execution. -/
theorem executes_cases (order : ByteOrder) (s : Replica) (result : ApplyResult) :
    (s.executes order result = none ∧ (s.onApply order result).1 = s ∧
      ∀ cmd, result.valid = true → deserialize order result.data = some cmd →
        s.Done cmd.clientId cmd.seqNum) ∨
    ∃ cmd, result.valid = true ∧ deserialize order result.data = some cmd ∧
      ¬s.Done cmd.clientId cmd.seqNum ∧
      s.executes order result = some (cmd, (s.applyCommand cmd).2.value) ∧
      (s.onApply order result).1 = (s.applyCommand cmd).1 := by
  cases hv : result.valid with
  | false => exact Or.inl ⟨by simp [executes, hv], by simp [onApply, hv], by simp⟩
  | true =>
    cases hd : deserialize order result.data with
    | none => exact Or.inl ⟨by simp [executes, hd], by simp [onApply, hd], by simp⟩
    | some cmd =>
      rcases s.applyCommand_cases cmd with ⟨hdone, hsame⟩ | ⟨hnot, -⟩
      · refine Or.inl ⟨?_, by rw [onApply_of_decoded hv hd, hsame], ?_⟩
        · simp [executes, hv, hd, check_isDup.mpr hdone]
        · rintro cmd' - he
          rwa [← Option.some.inj he]
      · have hdup : (s.check cmd).isDup ≠ true := fun h => hnot (check_isDup.mp h)
        refine Or.inr ⟨cmd, rfl, rfl, hnot, ?_, onApply_of_decoded hv hd⟩
        simp [executes, hv, hd, hdup]

/-! ## One execution -/

/-- The value and the store of an execution are those of the plain store. -/
theorem applyCommand_plain (hnot : ¬s.Done cmd.clientId cmd.seqNum) :
    (s.applyCommand cmd).2 = ⟨.success, (PlainStore.apply s.read cmd).2⟩ ∧
      (s.applyCommand cmd).1.read = (PlainStore.apply s.read cmd).1 := by
  have hc : s.check cmd = ⟨false, ⟨.success, []⟩⟩ := by
    rcases s.check_cases cmd with ⟨cached, hr, hle, -⟩ | ⟨-, hc⟩
    · exact absurd ⟨cached, hr, hle⟩ hnot
    · exact hc
  have hread : ∀ value, Replica.read { s with store := s.store.insert cmd.key value } =
      Function.update s.read cmd.key value := by
    intro value
    funext key
    by_cases hk : key = cmd.key
    · subst hk
      simp [read]
    · simp [read, hk]
  unfold applyCommand PlainStore.apply execute record
  rw [hc]
  cases cmd.op with
  | put => exact ⟨rfl, hread cmd.value⟩
  | get => exact ⟨rfl, rfl⟩
  | append => exact ⟨rfl, hread _⟩

/-- The executions so far, the table and the store belong together. -/
structure Replays (xs : List (Command × Bytes)) (s : Replica) : Prop extends Settled xs s where
  increasing : xs.Pairwise fun x y => x.1.clientId = y.1.clientId → x.1.seqNum < y.1.seqNum
  legal : Legal PlainStore.apply .empty xs
  store : s.read = (feed PlainStore.apply .empty (xs.map Prod.fst)).1

theorem Replays.execute (h : Replays xs s) (hnot : ¬s.Done cmd.clientId cmd.seqNum) :
    Replays (xs ++ [(cmd, (s.applyCommand cmd).2.value)]) (s.applyCommand cmd).1 := by
  obtain ⟨hreply, hread⟩ := applyCommand_plain hnot
  obtain ⟨hrifl, hdup, -, -⟩ := s.execute_spec cmd (s.check cmd)
  have hd : (s.check cmd).isDup = false := by
    rw [Bool.eq_false_iff]
    exact fun h => hnot (check_isDup.mp h)
  constructor
  case toSettled =>
    exact (h.toSettled.of_rifl hrifl).record (fun hdone => hnot (hdone.of_rifl hrifl.symm))
      (hdup.trans hd) (congrArg Reply.status hreply)
  case increasing =>
    refine List.pairwise_append.mpr ⟨h.increasing, List.pairwise_singleton _ _, ?_⟩
    intro x hx y hy hclient
    rw [List.mem_singleton] at hy
    subst hy
    -- what counts as done does not reach the new number
    obtain ⟨cached, hr, hle⟩ := h.done x hx
    rw [hclient] at hr
    have hlt : ¬cmd.seqNum ≤ cached.seqNum := fun hle' => hnot ⟨cached, hr, hle'⟩
    show x.1.seqNum < cmd.seqNum
    omega
  case legal =>
    rw [hreply, h.store]
    exact h.legal.concat cmd
  case store =>
    rw [hread, h.store, List.map_append, List.map_singleton, feed_concat]

/-! ## A list of results -/

/-- **Whatever the results, the replica replays what was executed.** -/
theorem replays_executed (order : ByteOrder) (results : List ApplyResult) :
    Replays (executed order results) (after order results) := by
  induction results using List.reverseRecOn with
  | nil =>
    exact {
      newest := by simp [after, feed, init]
      done := by simp [executed, feed]
      once := List.Pairwise.nil
      increasing := List.Pairwise.nil
      legal := rfl
      store := by
        funext key
        simp [after, feed, init, read, executed, PlainStore.empty] }
  | append_singleton results result ih =>
    rw [executed_concat, after_concat]
    rcases executes_cases order (after order results) result with
      ⟨hnone, hsame, -⟩ | ⟨cmd, -, -, hnot, hsome, hafter⟩
    · rw [hnone, hsame, Option.toList_none, List.append_nil]
      exact ih
    · rw [hsome, hafter]
      exact ih.execute hnot

theorem read_after (order : ByteOrder) (results : List ApplyResult) :
    (after order results).read = storeAfter (executed order results) :=
  (replays_executed order results).store

/-- What is executed of a longer list begins with what is executed of a shorter one. -/
theorem executed_isPrefix {results' : List ApplyResult} (h : results <+: results') :
    executed order results <+: executed order results' := by
  obtain ⟨more, rfl⟩ := h
  induction more using List.reverseRecOn with
  | nil => simp
  | append_singleton more result ih =>
    rw [← List.append_assoc, executed_concat]
    exact ih.trans (List.prefix_append _ _)

/-- Where an execution comes from. -/
theorem exists_of_executed {ys zs : List (Command × Bytes)} {x : Command × Bytes}
    (h : executed order results = ys ++ x :: zs) :
    ∃ before result later, results = before ++ result :: later ∧ executed order before = ys ∧
      result.valid = true ∧ deserialize order result.data = some x.1 := by
  induction results using List.reverseRecOn generalizing zs with
  | nil => simp [executed, feed] at h
  | append_singleton results result ih =>
    rw [executed_concat] at h
    rcases System.split_append h with ⟨zs', hys⟩ | ⟨a, hys, hlast⟩
    · obtain ⟨before, r, later, rfl, hrest⟩ := ih hys
      exact ⟨before, r, later ++ [result], by simp, hrest⟩
    · rcases executes_cases order (after order results) result with
        ⟨hnone, -, -⟩ | ⟨cmd, hv, hd, -, hsome, -⟩
      · rw [hnone] at hlast
        simp at hlast
      · rw [hsome] at hlast
        obtain ⟨rfl, hx⟩ := System.split_singleton hlast
        subst hx
        exact ⟨results, result, [], rfl, by simpa using hys.symm, hv, hd⟩

/-- A command is executed when it comes, or a newer one of its client has been. -/
theorem exists_executed (hv : result.valid = true)
    (hd : deserialize order result.data = some cmd) :
    ∃ x ∈ executed order (results ++ [result]), x.1.clientId = cmd.clientId ∧
      cmd.seqNum ≤ x.1.seqNum := by
  refine (replays_executed order (results ++ [result])).done_iff.mp ?_
  rw [after_of_decoded hv hd]
  exact done_applyCommand _ cmd

/-- What takes effect when one more command comes. -/
theorem effective_concat (cmds : List Command) (cmd : Command) : effective (cmds ++ [cmd]) =
    if (effective cmds).all fun c => c.clientId = cmd.clientId → c.seqNum < cmd.seqNum then
      effective cmds ++ [cmd] else effective cmds := by
  rw [effective, List.foldl_append]
  rfl

theorem commands_of_undecoded (h : result.valid = false ∨ deserialize order result.data = none) :
    commands order (results ++ [result]) = commands order results := by
  rcases h with h | h <;> simp [commands, h]

theorem commands_of_decoded (hv : result.valid = true)
    (hd : deserialize order result.data = some cmd) :
    commands order (results ++ [result]) = commands order results ++ [cmd] := by
  simp [commands, hv, hd]

/-- Which commands are executed. -/
theorem map_fst_executed (order : ByteOrder) (results : List ApplyResult) :
    (executed order results).map Prod.fst = effective (commands order results) := by
  induction results using List.reverseRecOn with
  | nil => rfl
  | append_singleton results result ih =>
    have hset := (replays_executed order results).toSettled
    rw [executed_concat, List.map_append]
    rcases executes_cases order (after order results) result with
      ⟨hnone, -, hdone⟩ | ⟨cmd, hv, hd, hnot, hsome, -⟩
    · rw [hnone, Option.toList_none, List.map_nil, List.append_nil]
      cases hv : result.valid with
      | false => rw [ih, commands_of_undecoded (Or.inl hv)]
      | true =>
        cases hd : deserialize order result.data with
        | none => rw [ih, commands_of_undecoded (Or.inr hd)]
        | some cmd =>
          -- a duplicate: what was executed reaches its number
          obtain ⟨x, hx, hclient, hle⟩ := hset.done_iff.mp (hdone cmd hv hd)
          rw [commands_of_decoded hv hd, effective_concat, ← ih, if_neg]
          intro hall
          have hlt := List.all_eq_true.mp hall x.1 (List.mem_map_of_mem hx)
          have := of_decide_eq_true hlt hclient
          omega
    · rw [hsome, Option.toList_some, List.map_singleton, commands_of_decoded hv hd,
        effective_concat, ← ih, if_pos]
      rw [List.all_eq_true]
      intro c hc
      obtain ⟨x, hx, rfl⟩ := List.mem_map.mp hc
      refine decide_eq_true fun hclient => ?_
      by_contra hge
      exact hnot (hset.done_iff.mpr ⟨x, hx, hclient, by omega⟩)

/-- **The executions of a list of results**, said without `on_apply`. -/
theorem executed_eq_history (order : ByteOrder) (results : List ApplyResult) :
    executed order results = PlainStore.history (effective (commands order results)) := by
  rw [← map_fst_executed, PlainStore.history]
  exact (replays_executed order results).legal.zip_eq.symm

end Replica

/--
**Replaying the log is the plain store.** For any list of results: the operations that `on_apply`
executes, in their order, with the values it computes, are a history of the plain store, and what
the replica holds in the end is what the plain store holds. The numbers of each client go up in that
history, so nothing is executed twice; and by the time a command has gone through, it or a newer one
of its client has been executed.
-/
theorem replay_is_plain_store (order : ByteOrder) (results : List ApplyResult) :
    Legal PlainStore.apply .empty (Replica.executed order results) ∧
    (Replica.after order results).read =
      (feed PlainStore.apply .empty ((Replica.executed order results).map Prod.fst)).1 ∧
    (Replica.executed order results).Pairwise
      (fun x y => x.1.clientId = y.1.clientId → x.1.seqNum < y.1.seqNum) ∧
    ∀ before result later cmd, results = before ++ result :: later → result.valid = true →
      deserialize order result.data = some cmd →
      Replica.executed order (before ++ [result]) <+: Replica.executed order results ∧
        ∃ x ∈ Replica.executed order (before ++ [result]), x.1.clientId = cmd.clientId ∧
          cmd.seqNum ≤ x.1.seqNum := by
  have h := Replica.replays_executed order results
  refine ⟨h.legal, h.store, h.increasing, ?_⟩
  rintro before result later cmd rfl hv hd
  exact ⟨Replica.executed_isPrefix ⟨later, by simp⟩, Replica.exists_executed hv hd⟩

/-! ## The executions of a node -/

/-- Of the results taken out of the queue, those whose operation has reached `store_`. -/
def Applier.reached (taken : List ApplyResult) : Applier → List ApplyResult
  | .received _ | .checked .. => taken.dropLast
  | _ => taken

/-- The node replays its queue, and `xs` are the executions so far. -/
structure KvNode.Replaying (order : ByteOrder) (xs : List (Command × Bytes)) (s : KvNode) :
    Prop where
  dequeued_le : s.dequeued ≤ s.node.raft.readyQueue.length
  replica : s.applier.Follows order s.takenResults s.server.toReplica
  history : xs = Replica.executed order (s.applier.reached s.takenResults)

namespace KvNode

variable {order : ByteOrder} {cfg : Config} {s s' : KvNode} {i : KvInput} {es : List KvEvent}
  {xs : List (Command × Bytes)}

/-- An execution by the blocks of `on_apply` is one of the replay. -/
theorem executed_of_checked {done : List ApplyResult} {result : ApplyResult} {cmd : Command}
    (hv : result.valid = true) (hd : deserialize order result.data = some cmd) :
    Replica.executed order (done ++ [result]) = Replica.executed order done ++
      if ((Replica.after order done).check cmd).isDup then []
      else [(cmd, ((Replica.after order done).execute cmd
        ((Replica.after order done).check cmd)).2.reply.value)] := by
  rw [Replica.executed_concat, Replica.executes]
  simp only [hv, not_true_eq_false, if_false, hd, Replica.applyCommand]
  split <;> rfl

theorem executed_of_undecoded {done : List ApplyResult} {result : ApplyResult}
    (h : result.valid = false ∨ deserialize order result.data = none) :
    Replica.executed order (done ++ [result]) = Replica.executed order done := by
  rw [Replica.executed_concat, Replica.executes]
  rcases h with h | h <;> simp [h]

/-- **The step lemma.** -/
theorem Replaying.step (h : s.Replaying order xs) (hm : Move order cfg s i s' es) :
    s'.Replaying order (xs ++ executions es) := by
  obtain ⟨hle, hrep⟩ := hm.follows h.dequeued_le h.replica
  refine ⟨hle, hrep, ?_⟩
  have hframe := hm.frame
  have htaken := hm.takenResults
  have hold := h.replica
  have hxs := h.history
  cases hm with
  | exit ha | fulfil ha =>
    rw [ha] at hxs
    exact (List.append_nil _).trans hxs
  | skip ha hq hv =>
    rw [ha] at hxs
    refine (List.append_nil _).trans (hxs.trans ?_)
    show _ = Replica.executed order (s.node.raft.readyQueue.take (s.dequeued + 1))
    rw [takenResults_succ hq, executed_of_undecoded (Or.inl hv)]
    rfl
  | dequeue ha hq hv =>
    rw [ha] at hxs
    refine (List.append_nil _).trans (hxs.trans ?_)
    show _ = Replica.executed order (s.node.raft.readyQueue.take (s.dequeued + 1)).dropLast
    rw [takenResults_succ hq, List.dropLast_concat]
    rfl
  | check ha =>
    rw [ha] at hxs
    exact (List.append_nil _).trans hxs
  | reject ha hd | rejectWaiter ha hd =>
    rw [ha] at hxs hold
    obtain ⟨done, ht, -, -⟩ := hold
    refine (List.append_nil _).trans (hxs.trans ?_)
    show Replica.executed order s.takenResults.dropLast = Replica.executed order s.takenResults
    rw [ht, List.dropLast_concat, executed_of_undecoded (Or.inr hd)]
  | executeDup ha hd =>
    rw [ha] at hxs hold
    obtain ⟨done, result, ht, hv, hcmd, hr, rfl⟩ := hold
    refine (List.append_nil _).trans (hxs.trans ?_)
    show Replica.executed order s.takenResults.dropLast = Replica.executed order s.takenResults
    rw [ht, List.dropLast_concat, executed_of_checked hv hcmd, ← hr, if_pos hd, List.append_nil]
  | execute ha hd =>
    rw [ha] at hxs hold
    obtain ⟨done, result, ht, hv, hcmd, hr, rfl⟩ := hold
    have hxs' : xs = Replica.executed order s.takenResults.dropLast := hxs
    show _ = Replica.executed order s.takenResults
    rw [hxs', ht, List.dropLast_concat, executed_of_checked hv hcmd, ← hr, if_neg (by simp [hd])]
    rfl
  | finish ha | finishWaiter ha =>
    rw [ha] at hxs
    exact (List.append_nil _).trans hxs
  | _ =>
    obtain ⟨-, -, ha, hd, he⟩ := hframe rfl
    obtain ⟨ht, -⟩ := htaken hd h.dequeued_le
    rw [ha, ht]
    exact (List.append_nil _).trans hxs

/--
**What `on_apply` has computed for a command**: the reply recorded for its client, which is that of
the newest execution, or the value of the command's own execution.
-/
theorem Replaying.reply_cases (h : s.Replaying order xs) {index : Nat} {cmd : Command}
    {outcome : Outcome} (ha : s.applier = .executed index cmd outcome) :
    (∃ cached, s.server.rifl.lookup cmd.clientId = some cached ∧ cmd.seqNum ≤ cached.seqNum ∧
      outcome.reply = cached.reply ∧ ∃ x ∈ xs, x.1.clientId = cmd.clientId ∧
        x.1.seqNum = cached.seqNum ∧ cached.reply = ⟨.success, x.2⟩) ∨
    (cmd, outcome.reply.value) ∈ xs := by
  have hrep := h.replica
  have hxs := h.history
  rw [ha] at hrep hxs
  obtain ⟨done, result, htaken, hv, hd, he⟩ := hrep
  obtain ⟨hrifl, -, -, hsame⟩ := (Replica.after order done).execute_spec cmd
    ((Replica.after order done).check cmd)
  rw [← he] at hrifl
  rw [show xs = Replica.executed order s.takenResults from hxs, htaken, executed_of_checked hv hd,
    ← he]
  rcases (Replica.after order done).check_cases cmd with ⟨cached, hr, hle, hc⟩ | ⟨-, hc⟩
  · obtain ⟨cmd', value, hmem, hclient, hseq, hreply⟩ :=
      (Replica.replays_executed order done).newest _ _ hr
    have hout : outcome = ⟨true, cached.reply⟩ := by
      rw [hc] at he hsame
      exact congrArg Prod.snd (he.trans (hsame rfl))
    refine Or.inl ⟨cached, hrifl ▸ hr, hle, by rw [hout], (cmd', value), ?_, hclient, hseq, hreply⟩
    exact List.mem_append_left _ hmem
  · rw [if_neg (by rw [hc]; exact Bool.false_ne_true)]
    exact Or.inr (List.mem_append_right _ (List.mem_singleton_self _))

/-- The store of a server holds what it has executed, also between two blocks of `on_apply`. -/
theorem Replaying.read_eq (h : s.Replaying order xs) :
    s.server.toReplica.read = storeAfter xs := by
  have hrep := h.replica
  have hxs := h.history
  cases ha : s.applier with
  | idle | fulfilling | exited =>
    rw [ha] at hrep hxs
    rw [hxs, show s.server.toReplica = _ from hrep]
    exact Replica.read_after order _
  | received result =>
    rw [ha] at hrep hxs
    obtain ⟨done, htaken, -, hdone⟩ := hrep
    rw [Applier.reached, htaken, List.dropLast_concat] at hxs
    rw [hxs, hdone]
    exact Replica.read_after order _
  | checked index cmd outcome =>
    rw [ha] at hrep hxs
    obtain ⟨done, result, htaken, -, -, hdone, -⟩ := hrep
    rw [Applier.reached, htaken, List.dropLast_concat] at hxs
    rw [hxs, hdone]
    exact Replica.read_after order _
  | executed index cmd outcome =>
    rw [ha] at hrep hxs
    obtain ⟨done, result, htaken, hv, hd, he⟩ := hrep
    -- the third block does not touch the store
    have hstore := congrArg Replica.store (after_of_executed hv hd he)
    rw [Replica.record_store] at hstore
    have hxs' : xs = Replica.executed order s.takenResults := hxs
    rw [hxs', htaken, ← Replica.read_after]
    funext key
    rw [Replica.read, Replica.read, hstore]

end KvNode

/-- **The executions of a node** are those of a replay of what has reached its store. -/
theorem replaying_of_run {order : ByteOrder} {cfg : Config}
    {ts : List (Transition KvNode KvInput KvEvent)} {s : KvNode}
    (h : (kvSystem order cfg).Run ts s) : s.Replaying order (executions (events ts)) := by
  induction h with
  | init hi =>
    obtain ⟨timeout, rfl⟩ := hi
    exact ⟨Nat.le_refl _, rfl, rfl⟩
  | step _ hs ih =>
    rw [events_append, events_singleton, executions_append]
    exact ih.step (KvNode.move_of_step hs)

end Rafty
