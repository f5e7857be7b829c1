import Rafty.Infra.Linearizable
import Rafty.Safety.EndToEnd

/-!
# The service is linearizable through the log

What clients see of operations that are answered through the log is what they would see of the plain
store, if each operation took place at one moment between its call and its return
(`linearizable_through_log`). The history is what the node with the longest queue executes. It has
been growing: at each time, what the servers have executed is a beginning of it and consists of
operations invoked by then.

The assumptions are those under which nodes deliver one sequence (terms and votes are kept, and no
handler enqueues past a round), that no two clients have drawn the same id, and that clients do not
run out of numbers. A `Get` that returns on
the fast path is not among the operations that are explained: it reads the store of a server that
may have missed operations which have returned.
-/

namespace Rafty

open Infra

variable {order : ByteOrder} {m : Membership} {ids : Nat → UInt64} {s : KvCluster}
  {ts : List (Transition KvCluster KvClusterInput KvClusterEvent)}

/-- What the clients see, with the operations that return through the log. -/
def clientEvents (es : List KvClusterEvent) : List (ClientEvent Command Bytes) :=
  es.filterMap fun
    | .invoked _ cmd => some (.invoked cmd)
    | .succeeded _ cmd value false => some (.returned cmd value)
    | _ => none

theorem invoked_mem_clientEvents {es : List KvClusterEvent} {cmd : Command} :
    .invoked cmd ∈ clientEvents es ↔ ∃ k, .invoked k cmd ∈ es := by
  unfold clientEvents
  rw [List.mem_filterMap]
  constructor
  · rintro ⟨e, he, heq⟩
    split at heq
    · next k cmd' => exact ⟨k, ClientEvent.invoked.inj (Option.some.inj heq) ▸ he⟩
    · cases heq
    · cases heq
  · rintro ⟨k, he⟩
    exact ⟨_, he, rfl⟩

theorem returned_mem_clientEvents {es : List KvClusterEvent} {cmd : Command} {value : Bytes} :
    .returned cmd value ∈ clientEvents es ↔ ∃ k, .succeeded k cmd value false ∈ es := by
  unfold clientEvents
  rw [List.mem_filterMap]
  constructor
  · rintro ⟨e, he, heq⟩
    split at heq
    · cases heq
    · next k cmd' value' =>
      obtain ⟨rfl, rfl⟩ := ClientEvent.returned.inj (Option.some.inj heq)
      exact ⟨k, he⟩
    · cases heq
  · rintro ⟨k, he⟩
    exact ⟨_, he, rfl⟩

/-- An operation starts in a step of its own. -/
theorem KvCluster.Move.of_invoked {i : KvClusterInput} {s' : KvCluster}
    {a b : List KvClusterEvent} {k : Nat} {cmd : Command}
    (hm : Move order m s i s' (a ++ .invoked k cmd :: b)) :
    a ++ .invoked k cmd :: b = [.invoked k cmd] ∧ a = [] := by
  rcases hm.numbers with ⟨hno, -⟩ | ⟨k', op, key, value, cmd', -, hone, -⟩
  · have hmem : (k, cmd) ∈ invocations (a ++ .invoked k cmd :: b) :=
      mem_invocations.mpr (by simp)
    rw [hno] at hmem
    cases hmem
  · obtain ⟨ha, heq⟩ := System.split_singleton hone.symm
    rw [hone, heq]
    exact ⟨rfl, ha⟩

/-- The split of the client events at an invocation, in the run. -/
theorem exists_run_of_invoked (h : (kvClusterSystem order m ids).Run ts s)
    {pre post : List (ClientEvent Command Bytes)} {b : Command}
    (he : clientEvents (events ts) = pre ++ .invoked b :: post) :
    ∃ ts₁ t ts₂ k, ts = ts₁ ++ t :: ts₂ ∧ (kvClusterSystem order m ids).Run ts₁ t.before ∧
      (kvClusterSystem order m ids).Run (ts₁ ++ [t]) t.after ∧ t.events = [.invoked k b] ∧
      pre = clientEvents (events ts₁) := by
  obtain ⟨es₁, es', hes, hpre, hb⟩ := List.filterMap_eq_append_iff.mp he
  obtain ⟨es₂, e, es₃, rfl, hnone, hsome, -⟩ := List.filterMap_eq_cons_iff.mp hb
  have he' : ∃ k, e = .invoked k b := by
    split at hsome
    · next k cmd => exact ⟨k, congrArg _ (ClientEvent.invoked.inj (Option.some.inj hsome))⟩
    · cases hsome
    · cases hsome
  obtain ⟨k, rfl⟩ := he'
  rw [← List.append_assoc] at hes
  obtain ⟨ts₁, t, ts₂, a, b', rfl, hr, hs, hev, hcut⟩ := h.of_event hes
  have hm := KvCluster.move_of_step hs
  rw [hev] at hm
  obtain ⟨hone, rfl⟩ := hm.of_invoked
  rw [List.append_nil] at hcut
  refine ⟨ts₁, t, ts₂, k, rfl, hr, .step hr hs, hev.trans hone, ?_⟩
  rw [← hcut, clientEvents, List.filterMap_append, hpre, List.filterMap_eq_nil_iff.mpr hnone,
    List.append_nil]

/-- The queue of a node at one time is the beginning of its queue later. -/
theorem readyQueue_isPrefix (h : (kvClusterSystem order m ids).Run ts s)
    {us : List (Transition KvCluster KvClusterInput KvClusterEvent)} {s' : KvCluster}
    (h' : (kvClusterSystem order m ids).Run (ts ++ us) s') (n : NodeId) :
    (s.nodes n).node.raft.readyQueue <+: (s'.nodes n).node.raft.readyQueue := by
  have hq := readyQueue_of_run ((KvCluster.clusterView_sound order m ids).run h) n
  have hq' := readyQueue_of_run ((KvCluster.clusterView_sound order m ids).run h') n
  rw [View.run_append, events_append, appliedBy_append, ← hq] at hq'
  exact ⟨_, hq'.symm⟩

/--
The steps that are taken, as the nodes see them, keep ballots and apply alone, and the clients have
ids and numbers of their own.
-/
structure WellBehaved (order : ByteOrder) (m : Membership) (ids : Nat → UInt64)
    (ts : List (Transition KvCluster KvClusterInput KvClusterEvent)) : Prop where
  keepsBallots : KeepsBallots m ((KvCluster.clusterView order).run ts)
  appliesAlone : ∀ u ∈ (KvCluster.clusterView order).run ts,
    u.before.appliesAlone u.input = true
  distinctIds : DistinctIds ids (events ts)
  numbersLeft : ∀ t ∈ ts, t.before.numbersLeft t.input = true

theorem WellBehaved.init {us : List (Transition KvCluster KvClusterInput KvClusterEvent)}
    (h : WellBehaved order m ids (ts ++ us)) : WellBehaved order m ids ts where
  keepsBallots := by
    have hk := h.keepsBallots
    rw [View.run_append] at hk
    exact hk.init
  appliesAlone u hu := h.appliesAlone u (by rw [View.run_append]; exact List.mem_append_left _ hu)
  distinctIds := by
    have hids := h.distinctIds
    rw [events_append] at hids
    exact hids.init
  numbersLeft t ht := h.numbersLeft t (List.mem_append_left _ ht)

/-- What the longest queue makes a server execute explains what has been returned. -/
theorem exists_history (h : (kvClusterSystem order m ids).Run ts s)
    (hw : WellBehaved order m ids ts) :
    ∃ n, (∀ v, (s.nodes v).node.raft.readyQueue <+: (s.nodes n).node.raft.readyQueue) ∧
      (∀ x ∈ Replica.executed order (s.nodes n).node.raft.readyQueue,
        .invoked x.1 ∈ clientEvents (events ts)) ∧
      ∀ op value, .returned op value ∈ clientEvents (events ts) →
        (op, value) ∈ Replica.executed order (s.nodes n).node.raft.readyQueue := by
  obtain ⟨n, hn⟩ := exists_longest ((KvCluster.clusterView_sound order m ids).run h) hw.keepsBallots
    hw.appliesAlone
  refine ⟨n, hn, fun x hx => ?_, fun op value hret => ?_⟩
  · obtain ⟨k, hinv⟩ := invoked_of_executed h (List.Subset.refl _) hx
    exact invoked_mem_clientEvents.mpr ⟨k, mem_invocations.mp hinv⟩
  · -- the server that answered has executed a part of it
    obtain ⟨k, hsucc⟩ := returned_mem_clientEvents.mp hret
    obtain ⟨pre, post, he⟩ := List.append_of_mem hsucc
    obtain ⟨-, v, hx⟩ := executed_before_success h hw.distinctIds hw.numbersLeft he
    have hx' := (executedBy_isPrefix ⟨_, he.symm⟩).subset hx
    rw [executedBy_eq h] at hx'
    exact (Replica.executed_isPrefix ((reached_isPrefix _).trans (hn v))).subset hx'

/-- What a replica executes are different operations. -/
theorem nodup_executed (order : ByteOrder) (results : List ApplyResult) :
    ((Replica.executed order results).map Prod.fst).Nodup := by
  rw [List.Nodup, List.pairwise_map]
  refine (Replica.replays_executed order results).increasing.imp fun hlt heq => ?_
  have hirr := hlt (congrArg Command.clientId heq)
  rw [heq] at hirr
  exact absurd hirr (Nat.lt_irrefl _)

/-- What the longest queue makes a server execute is a history that explains all. -/
theorem exists_linearization (h : (kvClusterSystem order m ids).Run ts s)
    (hw : WellBehaved order m ids ts) :
    ∃ n, (∀ v, (s.nodes v).node.raft.readyQueue <+: (s.nodes n).node.raft.readyQueue) ∧
      Linearizes PlainStore.apply .empty (clientEvents (events ts))
        (Replica.executed order (s.nodes n).node.raft.readyQueue) := by
  obtain ⟨n, hn, hinvoked, hreturned⟩ := exists_history h hw
  refine ⟨n, hn, linearizes_of_growing (Replica.replays_executed order _).legal
    (nodup_executed order _) hinvoked hreturned ?_⟩
  intro pre b post he
  obtain ⟨ts₁, t, ts₂, k, rfl, h₁, h₂, hev, rfl⟩ := exists_run_of_invoked h he
  constructor
  · -- the number of `b` was not given out before, and no other client has its id
    rw [← List.singleton_append, ← List.append_assoc] at hw
    have hnodup := (numbered_of_run h₂ hw.init.numbersLeft).nodup
    have hids := hw.init.distinctIds
    have hclients := clientInv_of_run h₂
    have hes : invocations (events (ts₁ ++ [t])) = invocations (events ts₁) ++ [(k, b)] := by
      rw [events_append, events_singleton, hev, invocations_append]
      rfl
    intro hold
    obtain ⟨j, hold⟩ := invoked_mem_clientEvents.mp hold
    have hj : (j, b) ∈ invocations (events ts₁) := mem_invocations.mpr hold
    obtain rfl : j = k := by
      refine hids.client_eq hclients (a := (j, b)) (b := (k, b)) ?_ ?_ rfl
      · rw [hes]
        exact List.mem_append_left _ hj
      · rw [hes]
        exact List.mem_append_right _ (List.mem_singleton_self _)
    rw [hes] at hnodup
    exact List.disjoint_of_nodup_append hnodup hj (List.mem_singleton_self _)
  · obtain ⟨n₁, hn₁, hinvoked₁, hreturned₁⟩ := exists_history h₁ hw.init
    exact ⟨_, Replica.executed_isPrefix ((readyQueue_isPrefix h₁ h n₁).trans (hn n₁)), hinvoked₁,
      hreturned₁⟩

/--
**The service is linearizable through the log.** Let the nodes keep terms and votes, let no handler
enqueue past a round of its node, let no two clients have drawn the same id, and let no client run
out of numbers. Then the operations that clients invoke, with the values of those that return
through the log, are linearizable with respect to the plain store.
-/
theorem linearizable_through_log (h : (kvClusterSystem order m ids).Run ts s)
    (hw : WellBehaved order m ids ts) :
    Linearizable PlainStore.apply .empty (clientEvents (events ts)) := by
  obtain ⟨n, -, hlin⟩ := exists_linearization h hw
  exact ⟨_, hlin⟩

/-- In `putThenGet` the second operation is invoked after the first has returned. -/
theorem linearizable_through_log_putThenGet : ∃ ts s,
    (kvClusterSystem .little threeNodes UInt64.ofNat).Run ts s ∧
    ts.map Transition.input = putThenGet ∧
    clientEvents (events ts) =
      [.invoked ⟨.put, 7, 1, [107], [97]⟩, .returned ⟨.put, 7, 1, [107], [97]⟩ [],
        .invoked ⟨.get, 8, 1, [107], []⟩, .returned ⟨.get, 8, 1, [107], []⟩ [97]] ∧
    Linearizable PlainStore.apply .empty (clientEvents (events ts)) := by
  obtain ⟨ts, s, hr, hi, he, hk, halone, hids, hleft⟩ := exists_kvClusterRun UInt64.ofNat putThenGet
    (fun ts _ => clientEvents (events ts) =
      [.invoked ⟨.put, 7, 1, [107], [97]⟩, .returned ⟨.put, 7, 1, [107], [97]⟩ [],
        .invoked ⟨.get, 8, 1, [107], []⟩, .returned ⟨.get, 8, 1, [107], []⟩ [97]] ∧
      (∀ u ∈ (KvCluster.clusterView .little).run ts,
        u.before.keepsBallot threeNodes u.input = true) ∧
      (∀ u ∈ (KvCluster.clusterView .little).run ts, u.before.appliesAlone u.input = true) ∧
      DistinctIds UInt64.ofNat (events ts) ∧
      ∀ t ∈ ts, t.before.numbersLeft t.input = true) (by decide +kernel)
  exact ⟨ts, s, hr, hi, he, linearizable_through_log hr
    ⟨keepsBallots_of_forall hk, halone, hids, hleft⟩⟩

end Rafty
