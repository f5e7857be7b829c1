import Rafty.Cluster
import Rafty.Properties.Node

/-!
# The order of the results a node enqueues

`handle_append_entries` enqueues while it holds the lock. `send_heartbeats` moves `last_applied_`
under the lock and enqueues after it has released it, so what it has still to enqueue (`pending`) is
already counted as applied.

The invariant: the indices in the queue, followed by those that are pending, are `1, …,
last_applied_`. A handler that enqueues while something is pending breaks the order for good, and
nothing else does: `apply_in_order_iff`.
-/

namespace Rafty

open Infra

/-- `handle_append_entries` has something to enqueue. -/
def Raft.enqueues (s : Raft) (request : AppendEntriesRequest) : Bool :=
  s.currentTerm ≤ request.term ∧ logMatches s.log request ∧ s.lastApplied < request.leaderCommit ∧
    s.lastApplied < (appendLoop s.log request.prevLogIndex request.entries).length

namespace Node

/-- No handler enqueues between the release of the lock and the last `apply(r)` of a round. -/
def appliesAlone (s : Node) : Action → Bool
  | .appendEntries call _ => ¬s.raft.enqueues call.request ∨ s.thread.pending = []
  | _ => true

/-- The queue and what is pending make up `1, …, last_applied_`. -/
structure Ordered (s : Node) : Prop where
  indices : (s.raft.readyQueue ++ s.thread.pending).map ApplyResult.index =
    List.range' 1 s.raft.lastApplied
  commit_le : s.raft.commitIndex ≤ s.raft.lastApplied

variable {cfg : Config} {s s' : Node} {i : Input} {eff : Effect}

/-- A block of new results, from `last_applied_ + 1` on, behind a queue with nothing pending. -/
theorem range_append_results {log : List Entry} {results : List ApplyResult} {l c : Nat}
    (h : applyLoop log l (c - l) = some results) :
    List.range' 1 l ++ results.map ApplyResult.index = List.range' 1 (max l c) := by
  rw [applyLoop_indices h, Nat.add_comm l 1, List.range'_append_1]
  congr 1
  omega

theorem results_eq_nil_iff {log : List Entry} {results : List ApplyResult} {l n : Nat}
    (h : applyLoop log l n = some results) : results = [] ↔ n = 0 := by
  have hlen := congrArg List.length (applyLoop_indices h)
  rw [List.length_map, List.length_range'] at hlen
  rw [← List.length_eq_zero_iff, hlen]

/-- What the clamp leaves, for a node that has applied what it has committed. -/
theorem lt_followerCommit_iff {s : Raft} (request : AppendEntriesRequest) (log : List Entry)
    (h : s.commitIndex ≤ s.lastApplied) : s.lastApplied < s.followerCommit request log ↔
      s.lastApplied < request.leaderCommit ∧ s.lastApplied < log.length := by
  unfold Raft.followerCommit
  split
  · rw [Nat.lt_min]
  · omega

/-- The handler enqueues exactly if it succeeds with something new to apply. -/
theorem enqueues_iff {raft : Raft} {request : AppendEntriesRequest} {results : List ApplyResult}
    (h : s.raft.Stored request raft results) (hc : s.raft.commitIndex ≤ s.raft.lastApplied) :
    s.raft.enqueues request = true ↔ results ≠ [] := by
  have hlt := lt_followerCommit_iff request raft.log hc
  rw [← h.commitIndex] at hlt
  rw [ne_eq, results_eq_nil_iff h.applied, Nat.sub_eq_zero_iff_le, Nat.not_le, hlt, h.log]
  simp [Raft.enqueues, h.term, h.logMatches]

/-- The results of a handler that applies alone are behind all others. -/
theorem results_of_stored {call : Call AppendEntriesRequest} {timeout : ElectionTimeout}
    {results : List ApplyResult} (h : s.raft.Stored call.request s'.raft results)
    (hp : s'.thread.pending = s.thread.pending) (hc : s.raft.commitIndex ≤ s.raft.lastApplied)
    (halone : s.appliesAlone (.appendEntries call timeout) = true) :
    s'.results = s.results ++ results := by
  have hq : s'.raft.readyQueue = s.raft.readyQueue ++ results := congrArg Core.readyQueue h.core
  have hone : results = [] ∨ s.thread.pending = [] := by
    simp only [appliesAlone, decide_eq_true_eq] at halone
    rw [enqueues_iff h hc, not_not] at halone
    exact halone
  unfold Node.results
  rw [hq, hp]
  rcases hone with hnil | hnil <;> simp [hnil]

/-- **What one step does to the order**, while every step applies alone. -/
theorem Move.ordered (h : Move cfg s i eff) (ho : s.Ordered)
    (halone : s.appliesAlone i.action = true) : eff.node.Ordered := by
  cases h.results with
  | same h _ hl hc =>
    constructor
    · rw [hl, ← ho.indices]
      exact congrArg _ h
    · rw [hc, hl]
      exact ho.commit_le
  | stored ha h hp =>
    have hl : eff.node.raft.lastApplied = max s.raft.lastApplied eff.node.raft.commitIndex :=
      congrArg Core.lastApplied h.core
    refine ⟨?_, by rw [hl]; exact le_max_right _ _⟩
    rw [hl, ← range_append_results h.applied, ← ho.indices, ← List.map_append]
    exact congrArg _ (results_of_stored h hp ho.commit_le (ha ▸ halone))
  | finished hp h _ ht hl =>
    refine ⟨?_, by rw [hl]; exact le_max_right _ _⟩
    rw [hl, ← range_append_results ht, ← ho.indices, ← List.map_append]
    exact congrArg _ h

/-- The indices in the queue are `1, 2, 3, …`. -/
def InOrder (queue : List ApplyResult) : Prop :=
  queue.map ApplyResult.index = List.range' 1 queue.length

theorem inOrder_append {queue more : List ApplyResult} : InOrder (queue ++ more) ↔
    InOrder queue ∧ more.map ApplyResult.index = List.range' (1 + queue.length) more.length := by
  unfold InOrder
  rw [List.map_append, List.length_append, ← List.range'_append_1]
  constructor
  · exact fun h => List.append_inj h (by simp)
  · rintro ⟨h1, h2⟩
    rw [h1, h2]

theorem Ordered.length_add (h : s.Ordered) :
    s.raft.readyQueue.length + s.thread.pending.length = s.raft.lastApplied := by
  simpa using congrArg List.length h.indices

theorem Ordered.inOrder (h : s.Ordered) : InOrder s.raft.readyQueue := by
  have hall : InOrder (s.raft.readyQueue ++ s.thread.pending) := by
    rw [InOrder, h.indices, List.length_append, h.length_add]
  exact (inOrder_append.mp hall).1

/-- A result enqueued past something pending is out of order. -/
theorem Ordered.not_inOrder_append (ho : s.Ordered) {log : List Entry} {n : Nat}
    {results : List ApplyResult} (h : applyLoop log s.raft.lastApplied n = some results)
    (hne : results ≠ []) (hp : s.thread.pending ≠ []) :
    ¬InOrder (s.raft.readyQueue ++ results) := by
  intro hin
  have hidx := (inOrder_append.mp hin).2
  have hlen := ho.length_add
  have hpos := List.length_pos_iff.mpr hp
  have hn : 0 < n := Nat.pos_of_ne_zero fun h0 => hne ((results_eq_nil_iff h).mpr h0)
  rw [applyLoop_indices h] at hidx
  have hhead := congrArg List.head? hidx
  have hrpos := List.length_pos_iff.mpr hne
  rw [List.head?_range', List.head?_range', if_neg (by omega), if_neg (by omega),
    Option.some.injEq] at hhead
  omega

/-- A handler that enqueues while something is pending breaks the order. -/
theorem Move.not_inOrder (h : Move cfg s i eff) (ho : s.Ordered)
    (hnot : s.appliesAlone i.action ≠ true) : ¬InOrder eff.node.raft.readyQueue := by
  cases h with
  | appendStale hlt =>
    refine absurd ?_ hnot
    simp [appliesAlone, Raft.enqueues, Nat.not_le.mpr hlt]
  | appendRefused hle hm =>
    refine absurd ?_ hnot
    simp [appliesAlone, Raft.enqueues, hm]
  | appendStored h =>
    simp only [appliesAlone, ne_eq, decide_eq_true_eq, not_or, not_not] at hnot
    rw [show (Node.mk _ _).raft.readyQueue = _ from congrArg Core.readyQueue h.core]
    exact ho.not_inOrder_append h.applied ((enqueues_iff h ho.commit_le).mp hnot.1) hnot.2
  | quiet hi =>
    obtain ⟨now, action⟩ := i
    cases action <;> first | exact absurd rfl hnot | cases hi
  | _ => exact absurd rfl hnot

end Node

/-- Taken in order, the result at a position of the queue has the next index. -/
theorem index_of_getElem? {queue : List ApplyResult} {k : Nat} {r : ApplyResult}
    (h : Node.InOrder queue) (hr : queue[k]? = some r) : r.index = k + 1 := by
  have hlt := (List.getElem?_eq_some_iff.mp hr).1
  have hk := congrArg (fun l : List Nat => l[k]?) h
  simp only [List.getElem?_map, hr, Option.map_some] at hk
  rw [List.getElem?_range' hlt, Option.some.injEq] at hk
  omega

/--
Along a run: as long as every handler applies alone the queue and what is pending are in order, and
after the first that does not the queue is out of order for good.
-/
theorem ordered_or_not_inOrder {cfg : Config} {ts : List (Transition Node Input Event)} {s : Node}
    (h : (nodeSystem cfg).Run ts s) :
    ((∀ t ∈ ts, t.before.appliesAlone t.input.action = true) ∧ s.Ordered) ∨
      ((¬∀ t ∈ ts, t.before.appliesAlone t.input.action = true) ∧
        ¬Node.InOrder s.raft.readyQueue) := by
  induction h with
  | init hi =>
    obtain ⟨timeout, rfl⟩ := hi
    exact Or.inl ⟨by simp, rfl, Nat.le_refl _⟩
  | @step ts s s' i es _ hs ih =>
    obtain ⟨eff, hmove, rfl, -⟩ := nodeSystem_move hs
    simp only [List.forall_mem_append, List.forall_mem_singleton]
    rcases ih with ⟨hall, ho⟩ | ⟨hnot, hout⟩
    · by_cases halone : s.appliesAlone i.action = true
      · exact Or.inl ⟨⟨hall, halone⟩, hmove.ordered ho halone⟩
      · exact Or.inr ⟨fun h => halone h.2, hmove.not_inOrder ho halone⟩
    · refine Or.inr ⟨fun h => hnot h.1, fun hin => hout ?_⟩
      obtain ⟨more, hmore⟩ := hmove.readyQueue
      rw [hmore] at hin
      exact (Node.inOrder_append.mp hin).1

/--
**Results are enqueued in order, each once**, exactly in the runs in which no `AppendEntries`
handler enqueues while `send_heartbeats` still has results to enqueue.
-/
theorem apply_in_order_iff {cfg : Config} {ts : List (Transition Node Input Event)} {s : Node}
    (h : (nodeSystem cfg).Run ts s) :
    Node.InOrder s.raft.readyQueue ↔ ∀ t ∈ ts, t.before.appliesAlone t.input.action = true := by
  rcases ordered_or_not_inOrder h with ⟨hall, ho⟩ | ⟨hnot, hout⟩
  · exact iff_of_true ho.inOrder hall
  · exact iff_of_false hout hnot

/--
Node 0 wins the election of term 1 with the vote of node 1, takes a proposal and commits it with
both peers. It has released the lock and has not called `apply` yet.
-/
def committedRound : List Input :=
  steps 0 [.loopTop] ++ steps 300 [.poll, .startElection shortTimeout, .requestTerm,
    .requestIndex, .requestSend 0, .voteReturned (some { term := 1, voteGranted := true }),
    .compareTerm, .decide shortTimeout, .initLeader, .propose [120], .buildRound 1] ++
  steps 310 [.roundReturned [some { term := 1, success := true },
    some { term := 1, success := true }] shortTimeout]

theorem apply_in_order_committedRound : ∃ ts s, (nodeSystem (threeNodes.config 0)).Run ts s ∧
    ts.map Transition.input = committedRound ++ steps 320 [.applyNext] ∧
    s.raft.readyQueue = [{ valid := true, data := [120], index := 1 }] ∧
    Node.InOrder s.raft.readyQueue := by
  obtain ⟨ts, s, hr, hi, hq, hall⟩ := exists_nodeRun (committedRound ++ steps 320 [.applyNext])
    (fun ts s => s.raft.readyQueue = [{ valid := true, data := [120], index := 1 }] ∧
      ∀ t ∈ ts, t.before.appliesAlone t.input.action = true) (by decide +kernel)
  exact ⟨ts, s, hr, hi, hq, (apply_in_order_iff hr).mpr hall⟩

/--
Node 1 has meanwhile been elected in term 2, has committed a second entry with node 2 and sends both
to node 0.
-/
def overtakenRound : List Input :=
  committedRound ++ steps 320 [.appendEntries ⟨9, 1, 0,
    { term := 2, leaderId := 1, prevLogIndex := 1, prevLogTerm := 1,
      entries := [{ term := 2, command := [121] }], leaderCommit := 2 }⟩ shortTimeout, .applyNext]

/-- In that run node 0 enqueues index 2 before index 1. -/
theorem apply_out_of_order : ∃ ts s, (nodeSystem (threeNodes.config 0)).Run ts s ∧
    ts.map Transition.input = overtakenRound ∧
    s.raft.readyQueue.map ApplyResult.index = [2, 1] :=
  exists_nodeRun overtakenRound _ (by decide +kernel)

end Rafty
