import Rafty.Safety.Clients
import Rafty.Safety.TotalOrder

/-!
# From the client to the replica and back

What becomes of the operations of clients, across all levels of the service:

* `executed_was_invoked` — a server executes nothing but operations that a client invoked before, as
  the client sent them;
* `success_end_to_end` — if no two clients have drawn the same id, an operation that returned
  `KV_SUCCESS` through the log was executed exactly once by the server that answered, and the value
  is the one computed then. The case of `success_executed_or_superseded` in which a newer operation
  of the client was executed cannot occur: the client has not started one.
-/

namespace Rafty

open Infra

variable {order : ByteOrder} {m : Membership} {ids : Nat → UInt64} {s : KvCluster}
  {ts : List (Transition KvCluster KvClusterInput KvClusterEvent)}

/-! ## What is proposed -/

namespace KvCluster

theorem proposal_eq_some {node : KvNode} {action : KvAction} {data : Bytes}
    (h : proposal order node action = some data) : ∃ (k : Nat) (call : KvCall) (cmd : Command),
      node.calls[k]? = some call ∧ call.thread = .proposing cmd ∧
      serialize order cmd = some data := by
  cases action with
  | propose k =>
    simp only [proposal] at h
    split at h
    · next cmd hthread =>
      obtain ⟨call, hc, ht⟩ := Option.map_eq_some_iff.mp hthread
      exact ⟨k, call, cmd, hc, ht, h⟩
    · cases h
  | _ => cases h

/-- A step that reports a proposal is a step of a server. -/
theorem Move.of_proposed {i : KvClusterInput} {s' : KvCluster} {es : List KvClusterEvent}
    (hm : Move order m s i s' es) {u : NodeId} {entry : Entry}
    (hmem : .raft (.proposed u entry) ∈ es) :
    ∃ n action, proposal order (s.nodes n) action = some entry.command := by
  cases hm with
  | @raft n now action eff hn ho hp h =>
    obtain ⟨e, he, heq⟩ := List.mem_map.mp hmem
    obtain rfl := KvClusterEvent.raft.inj heq
    exact absurd ((Node.move_of_step h).of_proposed he) (hp _)
  | @server n now action node es hn hr hc h =>
    refine ⟨n, action, ?_⟩
    rcases List.mem_append.mp hmem with hmem | hmem
    · obtain ⟨e, he, heq⟩ := List.mem_map.mp hmem
      obtain rfl := KvClusterEvent.raft.inj heq
      unfold proposed at he
      split at he
      · next data hdata =>
        simp only [Node.propose] at he
        split at he
        · rw [List.mem_singleton] at he
          rw [hdata, (Event.proposed.inj he).2]
        · cases he
      · cases he
    · obtain ⟨e, -, heq⟩ := List.mem_map.mp hmem
      cases heq
  | _ => simp at hmem

end KvCluster

/-- A command that a server is about to propose is one that a client started. -/
theorem invoked_of_proposing (h : (kvClusterSystem order m ids).Run ts s) {n : NodeId} {k : Nat}
    {call : KvCall} {cmd : Command} (hc : (s.nodes n).calls[k]? = some call)
    (ht : call.thread = .proposing cmd) : ∃ j, (j, cmd) ∈ invocations (events ts) := by
  have hans := answers_of_run ((KvCluster.nodeView_sound order m ids n).run h)
  have hlt : k < (arrived n ts).length := hans.length ▸ (List.getElem?_eq_some_iff.mp hc).1
  have hsent := (hans.calls k call _ hc (List.getElem?_eq_getElem hlt)).proposes cmd (Or.inr ht)
  obtain ⟨rpc, hrpc, hcmd⟩ := (arrived_of_run h).requests n _ (List.getElem_mem hlt)
  have hinv := (clientInv_of_run h).requests rpc hrpc
  have hself : rpc.cmd.sent = rpc.cmd := ((clientInv_of_run h).fits _ hinv).2
  -- the server has dropped the value of a `Get` that has none
  have heq : cmd = rpc.cmd := by
    rw [hsent, ← hcmd, hself]
  rw [heq]
  exact ⟨rpc.client, hinv⟩

theorem invoked_of_proposed (h : (kvClusterSystem order m ids).Run ts s) {u : NodeId}
    {entry : Entry} (hmem : .raft (.proposed u entry) ∈ events ts) :
    ∃ op ∈ invocations (events ts), serialize order op.2 = some entry.command := by
  induction h with
  | init => simp at hmem
  | step hr hs ih =>
    rw [events_append, events_singleton, invocations_append] at *
    rcases List.mem_append.mp hmem with hmem | hmem
    · obtain ⟨op, hop, hser⟩ := ih hmem
      exact ⟨op, List.mem_append_left _ hop, hser⟩
    · obtain ⟨n, action, hp⟩ := (KvCluster.move_of_step hs).of_proposed hmem
      obtain ⟨k, call, cmd, hc, ht, hser⟩ := KvCluster.proposal_eq_some hp
      obtain ⟨j, hinv⟩ := invoked_of_proposing hr hc ht
      exact ⟨(j, cmd), List.mem_append_left _ hinv, hser⟩

/-! ## What is applied and executed -/

theorem mem_raft_events (h : (kvClusterSystem order m ids).Run ts s) {e : Event} :
    e ∈ events ((KvCluster.clusterView order).run ts) ↔ .raft e ∈ events ts := by
  rw [(KvCluster.clusterView_sound order m ids).events_run h, List.mem_filterMap]
  constructor
  · rintro ⟨e', he', heq⟩
    cases e' with
    | raft e' => exact Option.some.inj heq ▸ he'
    | _ => cases heq
  · exact fun he => ⟨_, he, rfl⟩

/-- What a server decodes is an operation as a client sent it. -/
theorem invoked_of_applied (h : (kvClusterSystem order m ids).Run ts s) {n : NodeId}
    {result : ApplyResult} {cmd : Command}
    (hmem : result ∈ (s.nodes n).node.raft.readyQueue)
    (hd : deserialize order result.data = some cmd) :
    ∃ j, (j, cmd) ∈ invocations (events ts) := by
  have hr := (KvCluster.clusterView_sound order m ids).run h
  have hq : result ∈ appliedBy n (events ((KvCluster.clusterView order).run ts)) := by
    rw [← readyQueue_of_run hr n]
    exact hmem
  obtain ⟨pre, post, he⟩ := List.append_of_mem (mem_appliedBy.mp hq)
  obtain ⟨entry, ⟨u, hu⟩, hdata⟩ := proposed_before_applied hr he
  have hu' : .proposed u entry ∈ events ((KvCluster.clusterView order).run ts) := by
    rw [he]
    exact List.mem_append_left _ hu
  obtain ⟨op, hop, hser⟩ := invoked_of_proposed h ((mem_raft_events h).mp hu')
  have hback := (deserialize_iff_isPrefix ((clientInv_of_run h).fits op hop).1 hser _).mpr
    List.prefix_rfl
  rw [hdata, hd, Option.some.injEq] at hback
  rw [hback]
  exact ⟨op.1, hop⟩

/-- What a server executes out of its queue. -/
theorem invoked_of_executed (h : (kvClusterSystem order m ids).Run ts s) {n : NodeId}
    {results : List ApplyResult} (hsub : results ⊆ (s.nodes n).node.raft.readyQueue)
    {x : Command × Bytes} (hx : x ∈ Replica.executed order results) :
    ∃ j, (j, x.1) ∈ invocations (events ts) := by
  obtain ⟨ys, zs, he⟩ := List.append_of_mem hx
  obtain ⟨before, result, later, rfl, -, -, hd⟩ := Replica.exists_of_executed he
  exact invoked_of_applied h (hsub (by simp)) hd

/-- What the server of `n` has executed, by the events. -/
def executedBy (n : NodeId) (es : List KvClusterEvent) : List (Command × Bytes) :=
  executions (es.filterMap (KvCluster.nodeView n).event)

theorem reached_isPrefix (node : KvNode) :
    node.applier.reached node.takenResults <+: node.node.raft.readyQueue := by
  refine List.IsPrefix.trans ?_ (List.take_prefix node.dequeued _)
  unfold Applier.reached
  split
  · exact List.dropLast_prefix _
  · exact List.dropLast_prefix _
  · exact List.prefix_rfl

/-- The executions of a server are those of an initial part of its queue. -/
theorem executedBy_eq (h : (kvClusterSystem order m ids).Run ts s) (n : NodeId) :
    executedBy n (events ts) =
      Replica.executed order ((s.nodes n).applier.reached (s.nodes n).takenResults) := by
  have hr := (KvCluster.nodeView_sound order m ids n).run h
  rw [executedBy, ← (KvCluster.nodeView_sound order m ids n).events_run h]
  exact (replaying_of_run hr).history

theorem invoked_of_executedBy (h : (kvClusterSystem order m ids).Run ts s) {n : NodeId}
    {x : Command × Bytes} (hx : x ∈ executedBy n (events ts)) :
    ∃ j, (j, x.1) ∈ invocations (events ts) := by
  rw [executedBy_eq h] at hx
  exact invoked_of_executed h (reached_isPrefix _).subset hx

/--
**Nothing is executed that was not asked for.** In any run, whatever ids the clients have drawn,
when a server executes a command, a client has invoked this very command before.
-/
theorem executed_was_invoked (h : (kvClusterSystem order m ids).Run ts s)
    {pre post : List KvClusterEvent} {n : NodeId} {cmd : Command} {value : Bytes}
    (he : events ts = pre ++ .kv n (.executed cmd value) :: post) :
    ∃ j, .invoked j cmd ∈ pre := by
  obtain ⟨ts₁, t, ts₂, a, b, rfl, hr, hs, hes, rfl⟩ := h.of_event he
  have hx : (cmd, value) ∈ executedBy n (events (ts₁ ++ [t])) := by
    rw [events_append, events_singleton, hes]
    refine List.mem_filterMap.mpr ⟨.executed cmd value, ?_, rfl⟩
    refine List.mem_filterMap.mpr ⟨.kv n (.executed cmd value), by simp, ?_⟩
    simp [KvCluster.nodeView]
  obtain ⟨j, hinv⟩ := invoked_of_executedBy (System.Run.step hr hs) hx
  rw [events_append, events_singleton, invocations_append] at hinv
  rcases List.mem_append.mp hinv with hinv | hinv
  · exact ⟨j, List.mem_append_left _ (mem_invocations.mp hinv)⟩
  · -- a step that executes starts nothing
    rcases (KvCluster.move_of_step hs).numbers with ⟨hno, -⟩ | ⟨k, op, key, val, cmd', -, hone, -⟩
    · rw [hno] at hinv
      cases hinv
    · rw [hone] at hes
      obtain ⟨-, heq⟩ := System.split_singleton hes
      cases heq

/-- The command as it is proposed. -/
def dataOf (cmd : Command) : Bytes := (serialize .little cmd).getD []

/-- The end of a round of a leader of term 1 to which the first of two peers answers success. -/
def oneAnswers : Action := .roundReturned [some { term := 1, success := true }, none] shortTimeout

/-- Node 0 leads in term 1. Client 7 puts a value, which node 0 replicates to node 1. -/
def putReturned : List KvClusterInput :=
  raftSteps (firstElection ++ stepsOf 0 320 [.initLeader]) ++
  [.invoke 7 .put [107] [97], .send 7, .deliver 0 (milliseconds 320)] ++
  stepsAt 0 320 [.propose 0, .register 0, .raft (.buildRound 2)] ++
  raftSteps (stepsOf 1 330
    [.appendEntries (firstAppend 2 0 1 ⟨1, dataOf ⟨.put, 7, 1, [107], [97]⟩⟩) shortTimeout]) ++
  stepsAt 0 340 ([oneAnswers, .applyNext].map .raft ++ applyOne ++ [.fulfil, .collect 0]) ++
  [.receive 7 false]

/-- When the lease of the leader is over, client 8 gets the value through the log. -/
def putThenGet : List KvClusterInput :=
  putReturned ++
  [.invoke 8 .get [107] [], .send 8, .deliver 1 (milliseconds 3000)] ++
  stepsAt 0 3000 [.lease 1, .propose 1, .register 1, .raft .loopTop, .raft (.buildRound 5)] ++
  raftSteps (stepsOf 1 3010
    [.appendEntries ⟨5, 0, 1, ⟨1, 0, 1, 1, [⟨1, dataOf ⟨.get, 8, 1, [107], []⟩⟩], 1⟩⟩
      shortTimeout]) ++
  stepsAt 0 3020 ([oneAnswers, .applyNext].map .raft ++ applyOne ++ [.fulfil, .collect 1]) ++
  [.receive 8 false]

theorem executed_was_invoked_putThenGet : ∃ ts s pre post,
    (kvClusterSystem .little threeNodes UInt64.ofNat).Run ts s ∧
    ts.map Transition.input = putThenGet ∧
    events ts = pre ++ .kv 0 (.executed ⟨.get, 8, 1, [107], []⟩ [97]) :: post ∧
    ∃ j, .invoked j ⟨.get, 8, 1, [107], []⟩ ∈ pre := by
  obtain ⟨ts, s, hr, hi, hmem⟩ := exists_kvClusterRun UInt64.ofNat putThenGet
    (fun ts _ => .kv 0 (.executed ⟨.get, 8, 1, [107], []⟩ [97]) ∈ events ts) (by decide +kernel)
  obtain ⟨pre, post, he⟩ := List.append_of_mem hmem
  exact ⟨ts, s, pre, post, hr, hi, he, executed_was_invoked hr he⟩

/-! ## What is answered -/

/-- An answer that is not from the fast path and says success. -/
theorem answered_of_response {ending : Ending} {op : OpType} {value : Bytes}
    (hv : ending.response op = some ⟨.success, value⟩) (hf : ending.isFast = false) :
    ∃ reply, ending = .answered reply ∧ reply.status = .success ∧
      value = if op = .get then reply.value else [] := by
  cases ending with
  | answered reply =>
    simp only [Ending.response, Option.some.injEq, Reply.mk.injEq] at hv
    refine ⟨reply, rfl, hv.1, ?_⟩
    rw [← hv.2]
    simp [hv.1]
  | fastRead => cases hf
  | notLeader | timedOut | threw => cases hv

theorem ending_eq_some {r : Nat} {ending : Ending} (h : s.ending r = some ending) :
    ∃ rpc k call, s.rpcs[r]? = some rpc ∧ rpc.call = some k ∧
      (s.nodes rpc.node).calls[k]? = some call ∧ call.thread = .ended ending := by
  simp only [KvCluster.ending, Option.bind_eq_bind, Option.bind_eq_some_iff] at h
  obtain ⟨rpc, hr, k, hk, call, hc, he⟩ := h
  split at he
  · next ending' ht =>
    obtain rfl := Option.some.inj he
    exact ⟨rpc, k, call, hr, hk, hc, ht⟩
  · cases he

/-- An operation returns in a step of its own. -/
theorem KvCluster.Move.of_succeeded {i : KvClusterInput} {s' : KvCluster}
    {a b : List KvClusterEvent} {k : Nat} {cmd : Command} {value : Bytes} {fast : Bool}
    (hm : Move order m s i s' (a ++ .succeeded k cmd value fast :: b)) :
    a = [] ∧ ∃ attempt r ending, (s.clients k).thread = .calling cmd attempt r ∧
      s.ending r = some ending ∧ ending.response cmd.op = some ⟨.success, value⟩ ∧
      fast = ending.isFast := by
  have hmem : .succeeded k cmd value fast ∈ a ++ .succeeded k cmd value fast :: b := by simp
  generalize hes : a ++ .succeeded k cmd value fast :: b = es at hm hmem
  cases hm with
  | raft => simp at hmem
  | server => simp at hmem
  | @succeeded k' attempt r cmd' ending value' ht he hv =>
    obtain ⟨ha, heq⟩ := System.split_singleton hes.symm
    obtain ⟨rfl, rfl, rfl, rfl⟩ := KvClusterEvent.succeeded.inj heq
    exact ⟨ha, attempt, r, ending, ht, he, hv, rfl⟩
  | _ => simp at hmem

/-- Only a `Get` computes a value. -/
theorem value_of_executed {results : List ApplyResult} {x : Command × Bytes}
    (hx : x ∈ Replica.executed order results) (hop : x.1.op ≠ .get) : x.2 = [] := by
  obtain ⟨s', hs'⟩ := (Replica.replays_executed order results).legal.exists_of_mem x hx
  rw [hs', PlainStore.apply]
  cases hc : x.1.op with
  | get => exact absurd hc hop
  | put => rfl
  | append => rfl

/-- A response that a client takes for a success is that of an execution of its operation. -/
theorem executed_of_response (h : (kvClusterSystem order m ids).Run ts s)
    (hids : DistinctIds ids (events ts))
    (hleft : ∀ t ∈ ts, t.before.numbersLeft t.input = true) {j attempt r : Nat} {cmd : Command}
    {ending : Ending} {value : Bytes} (ht : (s.clients j).thread = .calling cmd attempt r)
    (he : s.ending r = some ending) (hv : ending.response cmd.op = some ⟨.success, value⟩)
    (hf : ending.isFast = false) :
    ∃ n, (cmd, value) ∈ executedBy n (events ts) := by
  obtain ⟨reply, rfl, hstatus, hvalue⟩ := answered_of_response hv hf
  obtain ⟨rpc, k, call, hr, hk, hc, hended⟩ := ending_eq_some he
  have hclients := clientInv_of_run h
  have hnumbers := numbered_of_run h hleft
  -- the call is for the operation that the client has under way
  have hop := hclients.calling j cmd attempt r ht
  rw [hr, Option.map_some, Option.some.injEq] at hop
  have hcmd : rpc.cmd = cmd := congrArg Prod.snd hop
  have harrived := (arrived_of_run h).calls rpc (List.mem_of_getElem? hr) k hk
  rw [hcmd] at harrived
  have hrun := (KvCluster.nodeView_sound order m ids rpc.node).run h
  have hans := ((answers_of_run hrun).calls k call cmd hc harrived).answered reply hended hstatus
  rw [(KvCluster.nodeView_sound order m ids rpc.node).events_run h] at hans
  obtain ⟨hinv, hseq⟩ := hclients.underWay j cmd (by rw [ht]; rfl)
  refine ⟨rpc.node, ?_⟩
  rcases hans with ⟨x, hx, hclient, hnum, hreply⟩ | ⟨x, hx, hclient, hlt⟩
  · obtain ⟨j', hinv'⟩ := invoked_of_executedBy h hx
    have hj : j' = j := hids.client_eq hclients hinv' hinv hclient
    have heq : x.1 = cmd := congrArg Prod.snd (hnumbers.eq _ hinv' _ hinv hj hnum)
    have hx' : x = (cmd, value) := by
      refine Prod.ext heq ?_
      rw [hvalue]
      split
      · exact hreply
      · next hop =>
        rw [← heq] at hop
        have hmem := hx
        rw [← executedBy, executedBy_eq h] at hmem
        exact value_of_executed hmem hop
    exact hx' ▸ hx
  · -- a newer operation of the client would have a number still to come
    obtain ⟨j', hinv'⟩ := invoked_of_executedBy h hx
    obtain rfl : j' = j := hids.client_eq hclients hinv' hinv hclient
    have hle : x.1.seqNum ≤ (s.clients j').seqNum := hnumbers.le _ hinv'
    omega

/-- By the time an operation returns, it has been executed. -/
theorem executed_before_success (h : (kvClusterSystem order m ids).Run ts s)
    (hids : DistinctIds ids (events ts))
    (hleft : ∀ t ∈ ts, t.before.numbersLeft t.input = true) {pre post : List KvClusterEvent}
    {k : Nat} {cmd : Command} {value : Bytes}
    (he : events ts = pre ++ .succeeded k cmd value false :: post) :
    .invoked k cmd ∈ pre ∧ ∃ n, (cmd, value) ∈ executedBy n pre := by
  obtain ⟨ts₁, t, ts₂, a, b, rfl, hr, hs, hes, rfl⟩ := h.of_event he
  have hm := KvCluster.move_of_step hs
  rw [hes] at hm
  obtain ⟨rfl, attempt, r, ending, ht, hend, hv, hf⟩ := hm.of_succeeded
  rw [List.append_nil]
  have hinv := ((clientInv_of_run hr).underWay k cmd (by rw [ht]; rfl)).1
  refine ⟨mem_invocations.mp hinv, executed_of_response hr ?_ ?_ ht hend hv hf.symm⟩
  · rw [events_append] at hids
    exact hids.init
  · exact fun t ht => hleft t (List.mem_append_left _ ht)

/-- What a server has executed at one time is the beginning of what it has executed later. -/
theorem executedBy_isPrefix {n : NodeId} {es es' : List KvClusterEvent} (h : es <+: es') :
    executedBy n es <+: executedBy n es' := (h.filterMap _).filterMap _

/--
**From the client's call to its return.** Let no two clients have drawn the same id, and let no
client run out of numbers. When an operation returns `KV_SUCCESS` through the log, some server has
executed this very command before, exactly once, and the value returned is the one it computed then.

The ids matter: to a server two clients of one id are one client (`success_unexecuted_of_same_id`).
-/
theorem success_end_to_end (h : (kvClusterSystem order m ids).Run ts s)
    (hids : DistinctIds ids (events ts))
    (hleft : ∀ t ∈ ts, t.before.numbersLeft t.input = true) {pre post : List KvClusterEvent}
    {k : Nat} {cmd : Command} {value : Bytes}
    (he : events ts = pre ++ .succeeded k cmd value false :: post) :
    .invoked k cmd ∈ pre ∧ ∃ n, (executedBy n pre).filter
      (fun x => x.1.clientId = cmd.clientId ∧ x.1.seqNum = cmd.seqNum) = [(cmd, value)] := by
  obtain ⟨hinv, n, hx⟩ := executed_before_success h hids hleft he
  refine ⟨hinv, n, ?_⟩
  have honce : (executedBy n (events ts)).Pairwise
      (fun x y => ¬(x.1.clientId = y.1.clientId ∧ x.1.seqNum = y.1.seqNum)) := by
    rw [executedBy_eq h]
    exact (Replica.replays_executed order _).once
  have hp : executedBy n pre <+: executedBy n (events ts) := executedBy_isPrefix ⟨_, he.symm⟩
  have hself : isOf ⟨cmd.clientId, cmd.seqNum, 0⟩ (cmd, value) = true := by simp [isOf]
  exact filter_eq_singleton (honce.sublist hp.sublist) _ hx hself

theorem success_end_to_end_putThenGet : ∃ ts s pre post,
    (kvClusterSystem .little threeNodes UInt64.ofNat).Run ts s ∧
    ts.map Transition.input = putThenGet ∧
    events ts = pre ++ .succeeded 8 ⟨.get, 8, 1, [107], []⟩ [97] false :: post ∧
    ∃ n, (executedBy n pre).filter (fun x => x.1.clientId = 8 ∧ x.1.seqNum = 1) =
      [(⟨.get, 8, 1, [107], []⟩, [97])] := by
  obtain ⟨ts, s, hr, hi, hmem, hids, hleft⟩ := exists_kvClusterRun UInt64.ofNat putThenGet
    (fun ts _ => .succeeded 8 ⟨.get, 8, 1, [107], []⟩ [97] false ∈ events ts ∧
      DistinctIds UInt64.ofNat (events ts) ∧
      ∀ t ∈ ts, t.before.numbersLeft t.input = true) (by decide +kernel)
  obtain ⟨pre, post, he⟩ := List.append_of_mem hmem
  exact ⟨ts, s, pre, post, hr, hi, he, (success_end_to_end hr hids hleft he).2⟩

/-- After the put of client 7, client 8 puts another value under the same id. -/
def putUnderSameId : List KvClusterInput :=
  putReturned ++ [.invoke 8 .put [107] [98], .send 8, .deliver 1 (milliseconds 3000)] ++
  stepsAt 0 3000 [.propose 1, .register 1, .raft .loopTop, .raft (.buildRound 5)] ++
  raftSteps (stepsOf 1 3010
    [.appendEntries ⟨5, 0, 1, ⟨1, 0, 1, 1, [⟨1, dataOf ⟨.put, 7, 1, [107], [98]⟩⟩], 1⟩⟩
      shortTimeout]) ++
  stepsAt 0 3020 ([oneAnswers, .applyNext].map .raft ++ applyOne ++ [.fulfil, .collect 1]) ++
  [.receive 8 false]

/-- With one id for two clients a put is answered that no server executes. -/
theorem success_unexecuted_of_same_id : ∃ ts s,
    (kvClusterSystem .little threeNodes fun _ => 7).Run ts s ∧
    ts.map Transition.input = putUnderSameId ∧
    .succeeded 8 ⟨.put, 7, 1, [107], [98]⟩ [] false ∈ events ts ∧
    ∀ n ∈ threeNodes.ids, (⟨.put, 7, 1, [107], [98]⟩, []) ∉ executedBy n (events ts) :=
  exists_kvClusterRun (fun _ => 7) putUnderSameId
    (fun ts _ => .succeeded 8 ⟨.put, 7, 1, [107], [98]⟩ [] false ∈ events ts ∧
      ∀ n ∈ threeNodes.ids, (⟨.put, 7, 1, [107], [98]⟩, []) ∉ executedBy n (events ts))
    (by decide +kernel)

end Rafty
