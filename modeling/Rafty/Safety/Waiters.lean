import Rafty.Properties.Kv
import Rafty.Safety.ApplyOrder

/-!
# Waiters and the entries they wait for

`propose_and_wait` learns the index of its entry from `propose`, and registers under it in a block
of its own. In between the entry can be committed and go through `on_apply`, which finds no waiter;
the call then waits for an entry that has been applied already (`waiter_too_late`).

`waiters_in_time_iff`: when entries are applied in the order of their indices, every waiter is ahead
of `on_apply` exactly if every call registers before `on_apply` is through with its index.
-/

namespace Rafty

open Infra

/-- The index that `on_apply` is busy with. -/
def Applier.busyWith : Applier → Option Nat
  | .received result => some result.index
  | .checked index _ _ | .executed index _ _ => some index
  | .idle | .fulfilling .. | .exited => none

namespace KvNode

/-- The number of results that `on_apply` is through with, apart from a promise to fulfil. -/
def handled (s : KvNode) : Nat :=
  match s.applier.busyWith with
  | some _ => s.dequeued - 1
  | none => s.dequeued

/-- A call registers before `on_apply` is through with its index. -/
def registersInTime (s : KvNode) (i : KvInput) : Bool :=
  match i.action with
  | .register k => (s.calls[k]?).all fun call =>
    match call.thread with
    | .registering index _ _ => s.handled < index
    | _ => true
  | _ => true

/-- Every waiter is ahead of `last_kv_applied_` and of what `on_apply` is through with. -/
def WaitersInTime (s : KvNode) : Prop :=
  ∀ index ∈ s.server.pending, s.server.lastKvApplied < index ∧ s.handled < index

variable {order : ByteOrder} {cfg : Config} {s s' : KvNode} {i : KvInput} {es : List KvEvent}

/-! ## What is in the queue -/

/-- The Raft node passes on valid results only. -/
def ResultsValid (s : KvNode) : Prop := ∀ r ∈ s.node.results, r.valid = true

theorem Move.resultsValid (h : Move order cfg s i s' es) (hv : s.ResultsValid) :
    s'.ResultsValid := by
  rcases h.node with he | ⟨now, action, eff, hm, he, -⟩
  · rwa [ResultsValid, he]
  unfold ResultsValid Node.results at *
  rw [he]
  cases hm.results with
  | same h =>
    unfold Node.results at h
    rwa [h]
  | stored _ h hp =>
    have hq : eff.node.raft.readyQueue = _ := congrArg Core.readyQueue h.core
    rw [hq, hp]
    simp only [List.forall_mem_append] at hv ⊢
    exact ⟨⟨hv.1, valid_of_applyLoop h.applied⟩, hv.2⟩
  | finished _ h _ ht =>
    unfold Node.results at h
    rw [h]
    exact List.forall_mem_append.mpr ⟨hv, valid_of_applyLoop ht⟩

/-! ## Ahead of `on_apply` -/

theorem handled_of_busy {index : Nat} (h : s.applier.busyWith = some index) :
    s.handled = s.dequeued - 1 := by
  rw [handled, h]

theorem handled_of_idle (h : s.applier.busyWith = none) : s.handled = s.dequeued := by
  rw [handled, h]

/-- Where `on_apply` is, and that the waiters are ahead of it. -/
structure Ahead (s : KvNode) : Prop where
  busy : ∀ index ∈ s.applier.busyWith, index = s.dequeued
  applied_le : s.server.lastKvApplied ≤ s.handled
  waiters : ∀ index ∈ s.server.pending, s.handled < index

/-- `on_apply` stays where it is, and what is registered is ahead of it. -/
theorem Ahead.stay (h : s.Ahead) (hb : s'.applier.busyWith = s.applier.busyWith)
    (hd : s'.dequeued = s.dequeued) (hl : s'.server.lastKvApplied = s.server.lastKvApplied)
    (hp : ∀ index ∈ s'.server.pending, index ∈ s.server.pending ∨ s.handled < index) :
    s'.Ahead := by
  have hh : s'.handled = s.handled := by rw [handled, handled, hb, hd]
  constructor
  · rw [hb, hd]
    exact h.busy
  · rw [hl, hh]
    exact h.applied_le
  · intro index hmem
    rw [hh]
    exact (hp index hmem).elim (h.waiters index) id

/-- `on_apply` is through with its index, whose waiter it has taken out. -/
theorem Ahead.leave (h : s.Ahead) {index : Nat} (hb : s.applier.busyWith = some index)
    (hb' : s'.applier.busyWith = none) (hd : s'.dequeued = s.dequeued)
    (hl : s'.server.lastKvApplied ≤ index) (hp : s'.server.pending = s.server.pending.erase index) :
    s'.Ahead := by
  have hidx : index = s.dequeued := h.busy index hb
  have hbefore : s.handled = s.dequeued - 1 := handled_of_busy hb
  have hafter : s'.handled = s.dequeued := (handled_of_idle hb').trans hd
  constructor
  · simp [hb']
  · omega
  · intro j hmem
    rw [hp, AList.mem_erase] at hmem
    have := h.waiters j hmem.2
    omega

/-- **The step lemma.** -/
theorem Move.ahead (h : Move order cfg s i s' es) (ha : s.Ahead)
    (ho : Node.InOrder s.node.raft.readyQueue) (hv : s.ResultsValid)
    (hp : s.registersInTime i = true) : s'.Ahead := by
  have hframe := h.frame
  cases h with
  | skip _ hq hinv =>
    have := hv _ (List.mem_append_left _ (List.mem_of_getElem? hq))
    rw [hinv] at this
    cases this
  | dequeue happ hq _ =>
    have hh : s.handled = s.dequeued := handled_of_idle (by rw [happ]; rfl)
    constructor
    · simpa [Applier.busyWith] using index_of_getElem? ho hq
    · exact hh ▸ ha.applied_le
    · exact hh ▸ ha.waiters
  | exit happ | check happ | executeDup happ | execute happ | fulfil happ =>
    exact ha.stay (by rw [happ]; rfl) rfl rfl fun index hmem => Or.inl hmem
  | reject happ | rejectWaiter happ =>
    have hb := congrArg Applier.busyWith happ
    have hh := handled_of_busy hb
    have hidx := ha.busy _ hb
    refine ha.leave hb rfl rfl ?_ rfl
    have := ha.applied_le
    show s.server.lastKvApplied ≤ _
    omega
  | finish happ | finishWaiter happ =>
    exact ha.leave (congrArg Applier.busyWith happ) rfl rfl (Nat.le_refl _) rfl
  | register hc ht =>
    obtain ⟨-, hl, happ, hd, -⟩ := hframe rfl
    refine ha.stay (congrArg _ happ) hd hl fun index hmem => ?_
    simp only [registersInTime, hc, ht, Option.all_some, decide_eq_true_eq] at hp
    simp only [KvNode.register, KvServer.register, destroyAt_server, proceed_server,
      AList.mem_insert] at hmem
    rcases hmem with rfl | hmem
    · exact Or.inr hp
    · exact Or.inl hmem
  | erase =>
    obtain ⟨-, hl, happ, hd, -⟩ := hframe rfl
    refine ha.stay (congrArg _ happ) hd hl fun index hmem => Or.inl ?_
    simp only [KvNode.erase, destroyAt_server, proceed_server, AList.mem_erase] at hmem
    exact hmem.2
  | _ =>
    obtain ⟨-, hl, happ, hd, -⟩ := hframe rfl
    exact ha.stay (congrArg _ happ) hd hl fun index hmem => Or.inl hmem

/-- A call that registers late has a waiter that is behind `on_apply`. -/
theorem Move.not_waitersInTime (h : Move order cfg s i s' es)
    (hp : s.registersInTime i ≠ true) : ¬s'.WaitersInTime := by
  have hframe := h.frame
  cases h with
  | @register _ k index _ _ _ hc ht =>
    obtain ⟨-, -, happ, hd, -⟩ := hframe rfl
    simp only [registersInTime, hc, ht, Option.all_some, ne_eq, decide_eq_true_eq] at hp
    intro hall
    have hlt := (hall index (by simp [KvNode.register, KvServer.register])).2
    rw [handled, happ, hd] at hlt
    exact hp hlt
  | _ => exact absurd rfl hp

end KvNode

variable {order : ByteOrder} {cfg : Config} {ts : List (Transition KvNode KvInput KvEvent)}
  {s : KvNode}

theorem resultsValid_of_run (h : (kvSystem order cfg).Run ts s) : s.ResultsValid := by
  refine (h.invariant (P := KvNode.ResultsValid) ?_ ?_).1
  · rintro s ⟨timeout, rfl⟩ r hr
    simp [KvNode.init, Node.results, Node.init, Raft.init, Thread.pending] at hr
  · exact fun s i s' es hv hs => (KvNode.move_of_step hs).resultsValid hv

/-- **The run lemma.** -/
theorem ahead_of_run (h : (kvSystem order cfg).Run ts s)
    (ho : Node.InOrder s.node.raft.readyQueue)
    (hp : ∀ t ∈ ts, t.before.registersInTime t.input = true) :
    s.Ahead ∧ ∀ t ∈ ts, t.after.Ahead := by
  induction h with
  | init hi =>
    obtain ⟨timeout, rfl⟩ := hi
    refine ⟨⟨?_, Nat.le_refl _, ?_⟩, by simp⟩
    · simp [KvNode.init, Applier.busyWith]
    · simp [KvNode.init, KvServer.init]
  | @step ts s s' i es hr hs ih =>
    have hm := KvNode.move_of_step hs
    obtain ⟨more, hmore⟩ := hm.readyQueue
    rw [← hmore] at ho
    simp only [List.forall_mem_append, List.forall_mem_singleton] at hp ⊢
    have ho' := (Node.inOrder_append.mp ho).1
    obtain ⟨ha, hall⟩ := ih ho' hp.1
    have ha' := hm.ahead ha ho' (resultsValid_of_run hr) hp.2
    exact ⟨ha', hall, ha'⟩

/--
**No waiter is too late**, exactly in the runs in which each call registers while `on_apply` is not
through with its index. The entries are applied in the order of their indices.
-/
theorem waiters_in_time_iff (order : ByteOrder) (cfg : Config)
    {ts : List (Transition KvNode KvInput KvEvent)} {s : KvNode} (h : (kvSystem order cfg).Run ts s)
    (ho : Node.InOrder s.node.raft.readyQueue) :
    (∀ t ∈ ts, t.after.WaitersInTime) ↔ ∀ t ∈ ts, t.before.registersInTime t.input = true := by
  constructor
  · intro hall t ht
    by_contra hp
    exact (KvNode.move_of_step (h.mem t ht)).not_waitersInTime hp (hall t ht)
  · intro hp t ht index hmem
    have ha := (ahead_of_run h ho hp).2 t ht
    have hlt := ha.waiters index hmem
    exact ⟨Nat.lt_of_le_of_lt ha.applied_le hlt, hlt⟩

/-! ## A registration after the entry was applied -/

/-- Node 0 leads term 1 and has put `a`, committed it with both peers and enqueued it. -/
def appliedPut : List KvInput :=
  kvLeader ++ kvSteps 310 ([.call ⟨.put, 7, 1, [107], [97]⟩, .propose 0] ++
    [.buildRound 3, bothAnswer, .applyNext].map .raft)

/-- The call registers while `on_apply` is about to look for its waiter. -/
theorem waiters_in_time_lastMoment : ∃ ts s, (kvSystem .little (threeNodes.config 0)).Run ts s ∧
    ts.map Transition.input = appliedPut ++
      kvSteps 310 [.dequeue, .check, .execute, .register 0, .finish, .fulfil] ∧
    (s.calls[0]?).map KvCall.promise = some (.fulfilled ⟨.success, []⟩) ∧
    ∀ t ∈ ts, t.after.WaitersInTime := by
  obtain ⟨ts, s, hr, hi, hf, ho, hp⟩ := exists_kvRun
    (appliedPut ++ kvSteps 310 [.dequeue, .check, .execute, .register 0, .finish, .fulfil])
    (fun ts s => (s.calls[0]?).map KvCall.promise = some (.fulfilled ⟨.success, []⟩) ∧
      s.node.raft.readyQueue.map ApplyResult.index =
        List.range' 1 s.node.raft.readyQueue.length ∧
      ∀ t ∈ ts, t.before.registersInTime t.input = true) (by decide +kernel)
  exact ⟨ts, s, hr, hi, hf, (waiters_in_time_iff .little _ hr ho).mpr hp⟩

/-- It registers after that: its entry is applied, and it waits at index 1 all the same. -/
theorem waiter_too_late : ∃ ts s, (kvSystem .little (threeNodes.config 0)).Run ts s ∧
    ts.map Transition.input = appliedPut ++ kvSteps 310 (applyOne ++ [.register 0]) ∧
    s.node.raft.readyQueue.map ApplyResult.index = [1] ∧ s.server.lastKvApplied = 1 ∧
    s.server.pending.keys = [1] :=
  exists_kvRun _ _ (by decide +kernel)

end Rafty
