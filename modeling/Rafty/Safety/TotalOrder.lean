import Rafty.Safety.ApplyOrder
import Rafty.Safety.Proposals
import Rafty.Safety.StateMachine
import Mathlib.Order.Lattice.Nat

/-!
# The cluster as one sequence of results

What the nodes hand to their applications, put together:

* `delivered_comparable` — of what two nodes have delivered, one is an initial part of the other, in
  runs that keep terms and votes and in which no handler enqueues past a round;
* `later_proposal_applied_later` — a command that is proposed only after some node has applied an
  index is applied at higher indices only. The order of the log respects real time.
-/

namespace Rafty

open Infra Replication

variable {m : Membership} {ts us : List (Transition Cluster ClusterInput Event)} {c : Cluster}

/-! ## The queue and the events -/

/-- What node `n` has applied, by the events. -/
def appliedBy (n : NodeId) (es : List Event) : List ApplyResult :=
  es.filterMap fun
    | .applied v result => if v = n then some result else none
    | _ => none

@[simp] theorem appliedBy_append (n : NodeId) (es es' : List Event) :
    appliedBy n (es ++ es') = appliedBy n es ++ appliedBy n es' := List.filterMap_append

theorem mem_appliedBy {n : NodeId} {es : List Event} {result : ApplyResult} :
    result ∈ appliedBy n es ↔ .applied n result ∈ es := by
  unfold appliedBy
  rw [List.mem_filterMap]
  constructor
  · rintro ⟨e, he, heq⟩
    cases e with
    | applied v r =>
      dsimp only at heq
      split at heq
      · next hv =>
        subst hv
        exact Option.some.inj heq ▸ he
      · cases heq
    | _ => cases heq
  · exact fun he => ⟨_, he, if_pos rfl⟩

theorem appliedBy_map (n : NodeId) (results : List ApplyResult) :
    appliedBy n (results.map (.applied n)) = results := by
  simp [appliedBy, List.filterMap_map]

namespace Node

variable {cfg : Config} {s : Node} {i : Input} {eff : Effect}

/-- A step enqueues what it reports as applied. -/
theorem Move.readyQueue_eq (h : Move cfg s i eff) :
    eff.node.raft.readyQueue = s.raft.readyQueue ++ appliedBy cfg.id eff.events := by
  cases h with
  | appendStored h =>
    rw [show (Node.mk _ _).raft.readyQueue = _ from congrArg Core.readyQueue h.core]
    exact congrArg _ (appliedBy_map _ _).symm
  | appendRefused _ _ hcore | voteRefused _ hcore | roundYielded _ _ _ _ _ hcore =>
    rw [show (Node.mk _ _).raft.readyQueue = _ from congrArg Core.readyQueue hcore]
    exact (List.append_nil _).symm
  | voteGranted _ _ _ hcore =>
    rw [show (Node.mk _ _).raft.readyQueue = _ from congrArg Core.readyQueue hcore]
    exact (List.append_nil _).symm
  | buildRound _ _ h =>
    obtain ⟨⟨table, rfl⟩, -, -⟩ := Raft.buildRequests_eq_some h
    exact (List.append_nil _).symm
  | @roundFinished _ _ _ _ _ raft _ _ _ h =>
    have hno : appliedBy cfg.id (commitEvents cfg.id s.raft raft) = [] := by
      unfold commitEvents
      split <;> rfl
    rw [h.readyQueue, hno, List.append_nil]
  | applyNext =>
    exact congrArg _ (appliedBy_map cfg.id [_]).symm
  | quiet _ h =>
    rw [show (silent _).node.raft.readyQueue = _ from congrArg Core.readyQueue h.core]
    exact (List.append_nil _).symm
  | voteReturned | compareTerm =>
    simp only [silent, voteReturned_raft, compareTerm_raft]
    exact (List.append_nil _).symm
  | _ => exact (List.append_nil _).symm

/-- A node reports its own results only. -/
theorem Move.applied_id (h : Move cfg s i eff) {v : NodeId} {result : ApplyResult}
    (hmem : .applied v result ∈ eff.events) : v = cfg.id := by
  cases h with
  | appendStored =>
    rw [List.mem_cons] at hmem
    obtain ⟨_, -, he⟩ := List.mem_map.mp (hmem.resolve_left (by simp))
    exact (Event.applied.inj he).1.symm
  | applyNext =>
    rw [List.mem_singleton] at hmem
    exact (Event.applied.inj hmem).1
  | voteGranted | proposed | startElection | elected => simp at hmem
  | roundFinished =>
    unfold commitEvents at hmem
    split at hmem <;> simp at hmem
  | _ => cases hmem

end Node

/-- **The queue of a node is what it has applied.** -/
theorem readyQueue_of_run (h : (clusterSystem m).Run ts c) (n : NodeId) :
    (c.nodes n).raft.readyQueue = appliedBy n (events ts) := by
  induction h with
  | init hi =>
    obtain ⟨timeouts, rfl⟩ := hi
    rfl
  | @step ts c c' i es _ hs ih =>
    obtain ⟨-, -, eff, hmove, rfl, rfl⟩ := clusterSystem_move hs
    rw [events_append, events_singleton, appliedBy_append]
    by_cases hn : n = i.node
    · subst hn
      rw [Cluster.advance_nodes_self, hmove.readyQueue_eq, ih]
      rfl
    · have hnone : appliedBy n eff.events = [] := by
        rw [List.eq_nil_iff_forall_not_mem]
        exact fun result hmem => hn (hmove.applied_id (mem_appliedBy.mp hmem))
      rw [Cluster.advance_nodes_ne hn, ih, hnone, List.append_nil]

/-! ## One order for all nodes -/

/-- The results of a node that applies alone are in order, and are all valid. -/
structure Node.Delivers (s : Node) : Prop extends s.Ordered where
  valid : ∀ result ∈ s.results, result.valid = true

theorem Node.Move.delivers {cfg : Config} {s : Node} {i : Input} {eff : Effect}
    (h : Move cfg s i eff) (hd : s.Delivers) (halone : s.appliesAlone i.action = true) :
    eff.node.Delivers := by
  refine ⟨h.ordered hd.toOrdered halone, ?_⟩
  cases h.results with
  | same h =>
    rw [h]
    exact hd.valid
  | stored ha h hp =>
    rw [results_of_stored h hp hd.commit_le (ha ▸ halone), List.forall_mem_append]
    exact ⟨hd.valid, valid_of_applyLoop h.applied⟩
  | finished _ h _ ht =>
    rw [h, List.forall_mem_append]
    exact ⟨hd.valid, valid_of_applyLoop ht⟩

/-- No handler of the cluster enqueues past a round of its node. -/
def Cluster.appliesAlone (c : Cluster) (i : ClusterInput) : Bool :=
  (c.nodes i.node).appliesAlone i.action

theorem delivers_of_run (h : (clusterSystem m).Run ts c)
    (halone : ∀ t ∈ ts, t.before.appliesAlone t.input = true) (n : NodeId) :
    (c.nodes n).Delivers := by
  induction h with
  | init hi =>
    obtain ⟨timeouts, rfl⟩ := hi
    exact ⟨⟨rfl, Nat.le_refl _⟩, by simp [Cluster.init, Node.init, Raft.init, Node.results,
      Thread.pending]⟩
  | @step ts c c' i es _ hs ih =>
    rw [List.forall_mem_append, List.forall_mem_singleton] at halone
    obtain ⟨-, -, eff, hmove, rfl, -⟩ := clusterSystem_move hs
    by_cases hn : n = i.node
    · subst hn
      rw [Cluster.advance_nodes_self]
      exact hmove.delivers (ih halone.1) halone.2
    · rw [Cluster.advance_nodes_ne hn]
      exact ih halone.1

/-- Two lists that agree wherever both have an element are comparable. -/
theorem isPrefix_or_isPrefix {α : Type*} {l l' : List α}
    (h : ∀ (k : Nat) (x y : α), l[k]? = some x → l'[k]? = some y → x = y) :
    l <+: l' ∨ l' <+: l := by
  rcases Nat.le_total l.length l'.length with hle | hle
  · refine Or.inl (List.prefix_iff_getElem?.mpr fun k hk => ?_)
    have hk' : k < l'.length := by omega
    rw [List.getElem?_eq_getElem hk', h k _ _ (List.getElem?_eq_getElem hk)
      (List.getElem?_eq_getElem hk')]
  · refine Or.inr (List.prefix_iff_getElem?.mpr fun k hk => ?_)
    have hk' : k < l.length := by omega
    rw [List.getElem?_eq_getElem hk', h k _ _ (List.getElem?_eq_getElem hk')
      (List.getElem?_eq_getElem hk)]

/-- Two nodes have delivered the same result at the same place. -/
theorem delivered_eq (h : (clusterSystem m).Run ts c) (hk : KeepsBallots m ts)
    (halone : ∀ t ∈ ts, t.before.appliesAlone t.input = true) {n n' : NodeId} {k : Nat}
    {r r' : ApplyResult} (hr : (c.nodes n).raft.readyQueue[k]? = some r)
    (hr' : (c.nodes n').raft.readyQueue[k]? = some r') : r = r' := by
  have htame := tame_of_keepsBallots h hk
  have hw := (refines h htame).2
  have hin : ∀ v r, r ∈ (c.nodes v).raft.readyQueue → .applied v r ∈ events ts := by
    intro v r hr
    rw [readyQueue_of_run h v] at hr
    exact mem_appliedBy.mp hr
  have hvalid : ∀ v, ∀ r ∈ (c.nodes v).raft.readyQueue, r.valid = true := fun v r hr =>
    (delivers_of_run h halone v).valid r (List.mem_append_left _ hr)
  -- the same place means the same index, and the same index the same data
  have hi := index_of_getElem? (delivers_of_run h halone n).inOrder hr
  have hi' := index_of_getElem? (delivers_of_run h halone n').inOrder hr'
  have hmem := List.mem_of_getElem? hr
  have hmem' := List.mem_of_getElem? hr'
  have hdata := (hw.results n r (hin n r hmem)).data_eq (inv_of_run h htame)
    (hw.results n' r' (hin n' r' hmem')) (hi.trans hi'.symm)
  have hv := (hvalid n r hmem).trans (hvalid n' r' hmem').symm
  cases r
  cases r'
  simp_all

/--
**One order for all nodes.** In a run that keeps terms and votes, and in which no handler enqueues
between the release of the lock and the last `apply(r)` of a round, what a node has delivered is an
initial part of what another has delivered, or the other way round.
-/
theorem delivered_comparable (h : (clusterSystem m).Run ts c) (hk : KeepsBallots m ts)
    (halone : ∀ t ∈ ts, t.before.appliesAlone t.input = true) (n n' : NodeId) :
    (c.nodes n).raft.readyQueue <+: (c.nodes n').raft.readyQueue ∨
      (c.nodes n').raft.readyQueue <+: (c.nodes n).raft.readyQueue :=
  isPrefix_or_isPrefix fun _ _ _ hr hr' => delivered_eq h hk halone hr hr'

/-- Some node has delivered all that any node has. -/
theorem exists_longest (h : (clusterSystem m).Run ts c) (hk : KeepsBallots m ts)
    (halone : ∀ t ∈ ts, t.before.appliesAlone t.input = true) :
    ∃ n, ∀ n', (c.nodes n').raft.readyQueue <+: (c.nodes n).raft.readyQueue := by
  let lengths := Set.range fun n => (c.nodes n).raft.readyQueue.length
  have hbound : BddAbove lengths := by
    refine ⟨(events ts).length, ?_⟩
    rintro _ ⟨n, rfl⟩
    dsimp only
    rw [readyQueue_of_run h n]
    exact List.length_filterMap_le _ _
  obtain ⟨n, hn⟩ := Nat.sSup_mem (Set.range_nonempty _) hbound
  refine ⟨n, fun n' => ?_⟩
  have hle : (c.nodes n').raft.readyQueue.length ≤ (c.nodes n).raft.readyQueue.length :=
    (le_csSup hbound ⟨n', rfl⟩).trans_eq hn.symm
  rcases isPrefix_or_isPrefix fun _ _ _ hr hr' => delivered_eq h hk halone hr hr' with hp | hp
  · exact hp
  · rw [hp.eq_of_length_le hle]

/-- The leader of `handoverApplied` applies its own entry, too. -/
def handoverDelivered : List ClusterInput := handoverApplied ++ stepsOf 1 700 [.applyNext]

theorem delivered_comparable_handover : ∃ ts c, (clusterSystem threeNodes).Run ts c ∧
    ts.map Transition.input = handoverDelivered ∧
    (c.nodes 0).raft.readyQueue.length = 1 ∧ (c.nodes 1).raft.readyQueue.length = 2 ∧
    ((c.nodes 0).raft.readyQueue <+: (c.nodes 1).raft.readyQueue ∨
      (c.nodes 1).raft.readyQueue <+: (c.nodes 0).raft.readyQueue) := by
  obtain ⟨ts, c, hr, hi, hlen, hlen', hk, halone⟩ := exists_clusterRun handoverDelivered
    (fun ts c => (c.nodes 0).raft.readyQueue.length = 1 ∧ (c.nodes 1).raft.readyQueue.length = 2 ∧
      (∀ t ∈ ts, t.before.keepsBallot threeNodes t.input = true) ∧
      ∀ t ∈ ts, t.before.appliesAlone t.input = true) (by decide +kernel)
  exact ⟨ts, c, hr, hi, hlen, hlen', delivered_comparable hr (keepsBallots_of_forall hk) halone 0 1⟩

/-! ## Real time -/

/-- A committed log holds proposed entries only. -/
theorem proposed_of_known (h : (clusterSystem m).Run ts c) {T : Nat} {l : List Entry}
    (hk : (protocolState (events ts) c).Known T l) : ∀ entry ∈ l, Proposed (events ts) entry := by
  intro entry hmem
  rcases hk with rfl | ⟨t, N, -, -, -, hp⟩
  · cases hmem
  · exact proposed_of_mem_leaderLogs h (hp.subset hmem)

/--
**The order of the log respects real time.** Let a node have applied an index by the end of `ts`. In
a run that keeps terms and votes, a command that is proposed later only is never applied at that
index or below it, by any node.
-/
theorem later_proposal_applied_later (h : (clusterSystem m).Run (ts ++ us) c)
    (hk : KeepsBallots m (ts ++ us)) {n n' : NodeId}
    {result result' : ApplyResult} (hr : .applied n result ∈ events ts)
    (hnew : ∀ u entry, .proposed u entry ∈ events ts → entry.command ≠ result'.data)
    (hr' : .applied n' result' ∈ events (ts ++ us)) : result.index < result'.index := by
  have htame := tame_of_keepsBallots h hk
  obtain ⟨c₁, h₁, hg⟩ := grows_of_append h htame
  -- what holds the first result is committed by the end of `ts`, and proposed by then
  obtain ⟨T, l, e, hknown, hpos, he, -⟩ := (refines h₁ htame.init).2.results n result hr
  obtain ⟨T', l', e', hknown', hpos', he', hdata'⟩ := (refines h htame).2.results n' result' hr'
  by_contra hle
  have hlt := (List.getElem?_eq_some_iff.mp he).1
  have hlt' := (List.getElem?_eq_some_iff.mp he').1
  -- the second result is then at a place of that log
  have hmem : e' ∈ l := by
    rcases (inv_of_run h htame).known_total (hg.Known hknown) hknown' with hp | hp
    · have hin : result'.index - 1 < l.length := by omega
      have hsame := getElem?_of_isPrefix hp (List.getElem?_eq_getElem hin)
      rw [he', Option.some.injEq] at hsame
      rw [hsame]
      exact List.getElem_mem hin
    · exact hp.subset (List.mem_of_getElem? he')
  obtain ⟨u, hu⟩ := proposed_of_known h₁ hknown e' hmem
  exact hnew u e' hu hdata'.symm

/-- In `handoverDelivered` the second command is proposed after node 0 has applied the first. -/
theorem later_proposal_applied_later_handover : ∃ ts us c result',
    (clusterSystem threeNodes).Run (ts ++ us) c ∧
    (ts ++ us).map Transition.input = handoverDelivered ∧
    .applied 0 ⟨true, [120], 1⟩ ∈ events ts ∧ .applied 1 result' ∈ events (ts ++ us) ∧
    result'.data = [121] ∧ 1 < result'.index := by
  obtain ⟨ts, c, hr, hi, hk, hfirst, hsecond, hnew⟩ := exists_clusterRun handoverDelivered
    (fun ts _ => (∀ t ∈ ts, t.before.keepsBallot threeNodes t.input = true) ∧
      .applied 0 ⟨true, [120], 1⟩ ∈ events (ts.take handover.length) ∧
      .applied 1 ⟨true, [121], 2⟩ ∈ events ts ∧
      ∀ e ∈ events (ts.take handover.length),
        (match e with
          | .proposed _ entry => decide (entry.command ≠ [121])
          | _ => true) = true) (by decide +kernel)
  rw [← List.take_append_drop handover.length ts] at hr hi hk hsecond
  refine ⟨_, _, c, _, hr, hi, hfirst, hsecond, rfl,
    later_proposal_applied_later hr (keepsBallots_of_forall hk) hfirst (fun u entry hmem => ?_)
      hsecond⟩
  simpa using hnew _ hmem

end Rafty
