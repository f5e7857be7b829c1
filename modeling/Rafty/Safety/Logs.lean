import Rafty.Safety.Simulation

/-!
# What the logs keep

In runs whose terms do not go back and in which no two nodes lead the same term:

* `leader_completeness` — what a leader commits is in the log of every leader of a later term.
* `log_matching` — the same term at the same index means the same log up to there.
* `committed_part_kept` — `last_applied_` and `commit_index_` agree and lie in the log, no step
  lowers `commit_index_` or touches an entry below it, and no access to `log_` that goes by these
  indices leaves the vector.

They are read off the invariant of the protocol, which holds of the cluster by `refines`.
-/

namespace Rafty

open Infra Replication

variable {m : Membership} {ts : List (Transition Cluster ClusterInput Event)} {c : Cluster}

/-- The request with which the leader of the entry's term first replicates its log `[entry]`. -/
def firstAppend (callId : Nat) (leader peer : NodeId) (entry : Entry) :
    Call AppendEntriesRequest where
  callId := callId
  caller := leader
  callee := peer
  request := {
    term := entry.term, leaderId := leader, prevLogIndex := 0, prevLogTerm := 0,
    entries := [entry], leaderCommit := 0 }

/--
Node 0, leader of term 1, commits an entry with node 1. Node 1 then hears nothing for 300 ms and is
elected in term 2 with the vote of node 0.
-/
def handover : List ClusterInput :=
  firstElection ++
  stepsOf 0 320 [.initLeader, .propose [120], .buildRound 2] ++
  stepsOf 1 330 [.appendEntries (firstAppend 2 0 1 ⟨1, [120]⟩) shortTimeout] ++
  stepsOf 0 340 [.roundReturned [some { term := 1, success := true }, none] shortTimeout,
    .applyNext] ++
  stepsOf 1 340 [.loopTop] ++
  stepsOf 1 640 [.poll, .startElection shortTimeout, .requestTerm, .requestIndex,
    .requestSend 5] ++
  stepsOf 0 650 [.requestVote ⟨5, 1, 0, ballot 2 1 [⟨1, [120]⟩]⟩ shortTimeout] ++
  stepsOf 1 660 [.voteReturned (some { term := 2, voteGranted := true }), .compareTerm,
    .decide shortTimeout]

/-- The run on these inputs is tame. In it the entry is committed and both logs have it. -/
theorem exists_handover : ∃ ts c, (clusterSystem threeNodes).Run ts c ∧
    ts.map Transition.input = handover ∧ Tame ts ∧
    .committed 0 1 1 [⟨1, [120]⟩] ∈ events ts ∧ .elected 1 2 [⟨1, [120]⟩] ∈ events ts ∧
    (c.nodes 0).raft.log[0]? = some ⟨1, [120]⟩ ∧ (c.nodes 1).raft.log[0]? = some ⟨1, [120]⟩ ∧
    (c.nodes 0).raft.commitIndex = 1 := by
  obtain ⟨ts, c, hr, hi, hall, hp⟩ := exists_clusterRun handover
    (fun ts c => (∀ t ∈ ts, t.before.keepsBallot threeNodes t.input = true) ∧
      .committed 0 1 1 [⟨1, [120]⟩] ∈ events ts ∧ .elected 1 2 [⟨1, [120]⟩] ∈ events ts ∧
      (c.nodes 0).raft.log[0]? = some ⟨1, [120]⟩ ∧ (c.nodes 1).raft.log[0]? = some ⟨1, [120]⟩ ∧
      (c.nodes 0).raft.commitIndex = 1) (by decide +kernel)
  exact ⟨ts, c, hr, hi, tame_of_keepsBallots hr (keepsBallots_of_forall hall), hp⟩

/-! ## Leader completeness -/

/--
**Leader completeness.** If a leader of term `t` sets its commit index to `N`, every leader of a
later term has the same entries up to `N` when it is elected.
-/
theorem leader_completeness (h : (clusterSystem m).Run ts c) (htame : Tame ts) {n n' : NodeId}
    {t t' N : Nat} {g g' : List Entry} (hc : .committed n t N g ∈ events ts)
    (he : .elected n' t' g' ∈ events ts) (hlt : t < t') :
    N ≤ g.length ∧ g'.take N = g.take N := by
  obtain ⟨hle, hp⟩ := (refines h htame).2.commits n t N g hc
  obtain ⟨rest, hrest⟩ := hp
  have hkept : ((protocolState (events ts) c).leaderLog t).take N <+: g' :=
    (inv_of_run h htame).leaderCompleteness ⟨n, g, hc⟩ t' he hlt
  have htake : ((protocolState (events ts) c).leaderLog t).take N = g.take N := by
    show (leaderLogs (events ts) t).take N = _
    rw [← hrest, List.take_append_of_le_length hle]
  rw [htake] at hkept
  have hcut := List.prefix_iff_eq_take.mp hkept
  rw [List.length_take, Nat.min_eq_left hle] at hcut
  exact ⟨hle, hcut.symm⟩

theorem leader_completeness_handover : ∃ ts c, (clusterSystem threeNodes).Run ts c ∧
    ts.map Transition.input = handover ∧
    ∃ g g', .committed 0 1 1 g ∈ events ts ∧ .elected 1 2 g' ∈ events ts ∧
      1 ≤ g.length ∧ g'.take 1 = g.take 1 := by
  obtain ⟨ts, c, hr, hi, htame, hc, he, -⟩ := exists_handover
  exact ⟨ts, c, hr, hi, _, _, hc, he, leader_completeness hr htame hc he (by decide)⟩

/-! ## Log matching -/

/-- **Log matching.** -/
theorem log_matching (h : (clusterSystem m).Run ts c) (htame : Tame ts) {n n' : NodeId} {i : Nat}
    {e e' : Entry} (he : (c.nodes n).raft.log[i]? = some e)
    (he' : (c.nodes n').raft.log[i]? = some e') (hterm : e.term = e'.term) :
    (c.nodes n).raft.log.take (i + 1) = (c.nodes n').raft.log.take (i + 1) := by
  have hinv := inv_of_run h htame
  exact (hinv.log_woven n).matching (hinv.log_woven n') he he' hterm

theorem log_matching_handover : ∃ ts c, (clusterSystem threeNodes).Run ts c ∧
    ts.map Transition.input = handover ∧
    (∃ e, (c.nodes 0).raft.log[0]? = some e ∧ e.term = 1) ∧
    (c.nodes 0).raft.log.take 1 = (c.nodes 1).raft.log.take 1 := by
  obtain ⟨ts, c, hr, hi, htame, -, -, he, he', -⟩ := exists_handover
  exact ⟨ts, c, hr, hi, ⟨_, he, rfl⟩, log_matching hr htame he he' rfl⟩

/-! ## The committed part -/

/-- **The committed part of a log is kept** by every step, truncations included. -/
theorem Wire.take_commitIndex {es : List Event} {n : NodeId} {i : Input} {eff : Effect}
    (hw : Wire m es c) (hinv : Inv Entry.term (majorities m.ids) (protocolState es c))
    (hoffers : c.offers n i.action = true)
    (hmove : Node.Move (m.config n) (c.nodes n) i eff) :
    (c.nodes n).raft.log.take (c.nodes n).raft.commitIndex <+: eff.node.raft.log := by
  cases hmove.storage with
  | same h =>
    rw [h.log]
    exact List.take_prefix _ _
  | stored ha h =>
    rw [ha] at hoffers
    obtain ⟨lead, hvalid⟩ := hw.requests _ (Cluster.offers_appendEntries hoffers).2
    obtain ⟨u, g, hel, -⟩ := hvalid.elected
    have hknown := (hinv.commit_known n).2.mono h.term
    rw [log_eq_splice (v := n) hinv hvalid rfl h]
    exact splice_keeps (List.take_prefix _ _) (hinv.known_comparable hknown hel hvalid.isPrefix)
  | proposed _ h =>
    rw [h]
    exact (List.take_prefix _ _).trans (List.prefix_append _ _)
  | finished h =>
    rw [h.log]
    exact List.take_prefix _ _
  | enqueued _ h =>
    rw [h]
    exact List.take_prefix _ _

/-- What one step of the cluster does to the commit index and the log of each node. -/
theorem commit_kept_of_mem (h : (clusterSystem m).Run ts c) (htame : Tame ts) :
    ∀ t ∈ ts, ∀ n, (t.before.nodes n).raft.commitIndex ≤ (t.after.nodes n).raft.commitIndex ∧
      (t.after.nodes n).raft.log.take (t.before.nodes n).raft.commitIndex =
        (t.before.nodes n).raft.log.take (t.before.nodes n).raft.commitIndex := by
  induction h with
  | init => simp
  | @step ts c c' i es hr hs ih =>
    rw [List.forall_mem_append, List.forall_mem_singleton]
    refine ⟨ih htame.init, fun n => ?_⟩
    obtain ⟨-, hoffers, eff, hmove, rfl, rfl⟩ := clusterSystem_move hs
    have hw := (refines hr htame.init).2
    have hinv := inv_of_run hr htame.init
    by_cases hn : n = i.node
    · subst hn
      rw [Cluster.advance_nodes_self]
      refine ⟨hw.commitIndex_le hinv hoffers hmove, ?_⟩
      have hle : (c.nodes i.node).raft.commitIndex ≤ (c.nodes i.node).raft.log.length :=
        (hinv.commit_known i.node).1
      have hcut := List.prefix_iff_eq_take.mp (hw.take_commitIndex hinv hoffers hmove)
      rw [List.length_take, Nat.min_eq_left hle] at hcut
      exact hcut.symm
    · rw [Cluster.advance_nodes_ne hn]
      exact ⟨Nat.le_refl _, rfl⟩

/--
**The committed part is never rewritten and the indices are in range.** The last two parts say that
neither `handle_append_entries` nor the second critical section of `send_heartbeats` reads outside
`log_`, on any request and any replies.
-/
theorem committed_part_kept (h : (clusterSystem m).Run ts c) (htame : Tame ts) :
    (∀ n, (c.nodes n).raft.lastApplied = (c.nodes n).raft.commitIndex ∧
      (c.nodes n).raft.commitIndex ≤ (c.nodes n).raft.log.length) ∧
    (∀ t ∈ ts, ∀ n, (t.before.nodes n).raft.commitIndex ≤ (t.after.nodes n).raft.commitIndex ∧
      (t.after.nodes n).raft.log.take (t.before.nodes n).raft.commitIndex =
        (t.before.nodes n).raft.log.take (t.before.nodes n).raft.commitIndex) ∧
    (∀ n request timeout,
      ((c.nodes n).raft.handleAppendEntries request timeout).isSome = true) ∧
    ∀ n now timeout results,
      ((c.nodes n).raft.processResults (m.config n) now timeout results).isSome = true := by
  have hinv := inv_of_run h htame
  have happlied : ∀ n, (c.nodes n).raft.lastApplied = (c.nodes n).raft.commitIndex :=
    fun n => ((refines h htame).2.nodes n).applied
  have hle : ∀ n, (c.nodes n).raft.commitIndex ≤ (c.nodes n).raft.log.length :=
    fun n => (hinv.commit_known n).1
  refine ⟨fun n => ⟨happlied n, hle n⟩, commit_kept_of_mem h htame, ?_, ?_⟩
  · exact fun n request timeout => Raft.handleAppendEntries_isSome (happlied n).ge request timeout
  · exact fun n now timeout results => Raft.processResults_isSome (hle n) _ now timeout results

theorem committed_part_kept_handover : ∃ ts c, (clusterSystem threeNodes).Run ts c ∧
    ts.map Transition.input = handover ∧ (c.nodes 0).raft.commitIndex = 1 ∧
    (c.nodes 0).raft.lastApplied = 1 ∧ 1 ≤ (c.nodes 0).raft.log.length := by
  obtain ⟨ts, c, hr, hi, htame, -, -, -, -, hone⟩ := exists_handover
  obtain ⟨hrange, -⟩ := committed_part_kept hr htame
  exact ⟨ts, c, hr, hi, hone, (hrange 0).1.trans hone, hone ▸ (hrange 0).2⟩

end Rafty
