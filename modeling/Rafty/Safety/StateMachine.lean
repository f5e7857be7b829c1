import Rafty.Safety.Logs

/-!
# State machine safety

What two nodes apply at an index is the same in every run whose steps keep terms and votes: each
result comes from a committed log (`Wire.results`), and any two committed logs are comparable.

`replicas_diverge` is a run in which one vote is given twice in a term.
-/

namespace Rafty

open Infra Replication

variable {m : Membership} {ts : List (Transition Cluster ClusterInput Event)} {c : Cluster}

/-- Two results that committed logs hold at the same index carry the same data. -/
theorem Justified.data_eq {Q : QuorumSystem NodeId} {s : State NodeId Entry}
    {result result' : ApplyResult} (hinv : Inv Entry.term Q s) (h : Justified s result)
    (h' : Justified s result') (hi : result.index = result'.index) :
    result.data = result'.data := by
  obtain ⟨T, l, e, hk, -, he, hdata⟩ := h
  obtain ⟨T', l', e', hk', -, he', hdata'⟩ := h'
  rw [← hi] at he'
  -- the entry of the shorter log is the one of the longer log
  have heq : e = e' := by
    rcases hinv.known_total hk hk' with ⟨rest, rfl⟩ | ⟨rest, rfl⟩
    · rw [List.getElem?_append_left (List.getElem?_eq_some_iff.mp he).1, he] at he'
      exact Option.some.inj he'
    · rw [List.getElem?_append_left (List.getElem?_eq_some_iff.mp he').1, he'] at he
      exact (Option.some.inj he).symm
  rw [hdata, hdata', heq]

/--
**State machine safety**: in a run in which no term goes back and no node that has taken back its
vote of a term votes again in it, what is applied at an index is the same everywhere.
-/
theorem state_machine_safety (h : (clusterSystem m).Run ts c) (hk : KeepsBallots m ts)
    {n n' : NodeId} {result result' : ApplyResult} (hr : .applied n result ∈ events ts)
    (hr' : .applied n' result' ∈ events ts) (hi : result.index = result'.index) :
    result.data = result'.data := by
  have htame := tame_of_keepsBallots h hk
  have hw := (refines h htame).2
  exact (hw.results n result hr).data_eq (inv_of_run h htame) (hw.results n' result' hr') hi

/-- The new leader of `handover` brings its own entry through with node 0. -/
def handoverApplied : List ClusterInput :=
  handover ++
  stepsOf 1 670 [.initLeader, .propose [121], .buildRound 7] ++
  stepsOf 0 680 [.appendEntries ⟨7, 1, 0, ⟨2, 1, 1, 1, [⟨2, [121]⟩], 0⟩⟩ shortTimeout] ++
  stepsOf 1 690 [.roundReturned [some { term := 2, success := true }, none] shortTimeout,
    .applyNext]

theorem state_machine_safety_handoverApplied : ∃ ts c, (clusterSystem threeNodes).Run ts c ∧
    ts.map Transition.input = handoverApplied ∧
    ∃ result result', .applied 0 result ∈ events ts ∧ .applied 1 result' ∈ events ts ∧
      result.index = 1 ∧ result'.index = 1 ∧ result.data = result'.data := by
  obtain ⟨ts, c, hr, hi, ha, ha', hall⟩ := exists_clusterRun handoverApplied
    (fun ts _ => .applied 0 ⟨true, [120], 1⟩ ∈ events ts ∧
      .applied 1 ⟨true, [120], 1⟩ ∈ events ts ∧
      ∀ t ∈ ts, t.before.keepsBallot threeNodes t.input = true) (by decide +kernel)
  exact ⟨ts, c, hr, hi, _, _, ha, ha', rfl, rfl,
    state_machine_safety hr (keepsBallots_of_forall hall) ha ha' rfl⟩

/--
Node 1, a candidate of term 1, learns from node 0 of term 2. Before it takes the lock again it votes
for node 0 in term 2; then it writes term 2 once more, clears that vote and gives it to node 2. Both
leaders of term 2 replicate an entry to node 1, which keeps the first and acknowledges both.
-/
def doubleVote : List ClusterInput :=
  stepsOf 0 0 [.loopTop] ++ stepsOf 1 0 [.loopTop] ++ stepsOf 2 0 [.loopTop] ++
  stepsOf 2 300 ([.poll, .startElection shortTimeout] ++ ask 0) ++
  stepsOf 0 310 [.requestVote ⟨0, 2, 0, ballot 1 2 []⟩ shortTimeout, .poll,
    .startElection shortTimeout] ++
  stepsOf 1 310 ([.poll, .startElection shortTimeout] ++ ask 2) ++
  stepsOf 0 320 [.requestVote ⟨2, 1, 0, ballot 1 1 []⟩ shortTimeout] ++
  stepsOf 1 330 [.voteReturned (some { term := 2, voteGranted := false }), .compareTerm] ++
  stepsOf 0 330 (ask 4) ++
  stepsOf 1 340 [.requestVote ⟨4, 0, 1, ballot 2 0 []⟩ shortTimeout, .stepDown shortTimeout] ++
  stepsOf 0 350 [.voteReturned (some { term := 2, voteGranted := true }), .compareTerm,
    .decide shortTimeout] ++
  stepsOf 2 400 ([.voteReturned none] ++ ask 6 ++
    [.voteReturned none, .decide shortTimeout, .loopTop]) ++
  stepsOf 2 700 ([.poll, .startElection shortTimeout] ++ ask 7 ++ [.voteReturned none] ++ ask 8) ++
  stepsOf 1 710 [.requestVote ⟨8, 2, 1, ballot 2 2 []⟩ shortTimeout] ++
  stepsOf 2 720 [.voteReturned (some { term := 2, voteGranted := true }), .compareTerm,
    .decide shortTimeout] ++
  stepsOf 0 730 [.initLeader, .propose [120], .buildRound 10] ++
  stepsOf 1 740 [.appendEntries (firstAppend 10 0 1 ⟨2, [120]⟩) shortTimeout] ++
  stepsOf 0 750 [.roundReturned [some { term := 2, success := true }, none] shortTimeout,
    .applyNext] ++
  stepsOf 2 750 [.initLeader, .propose [121], .buildRound 13] ++
  stepsOf 1 760 [.appendEntries (firstAppend 14 2 1 ⟨2, [121]⟩) shortTimeout] ++
  stepsOf 2 770 [.roundReturned [none, some { term := 2, success := true }] shortTimeout,
    .applyNext]

/-- In that run nodes 0 and 2 apply different data at index 1. -/
theorem replicas_diverge : ∃ ts c, (clusterSystem threeNodes).Run ts c ∧
    ts.map Transition.input = doubleVote ∧
    .applied 0 ⟨true, [120], 1⟩ ∈ events ts ∧ .applied 2 ⟨true, [121], 1⟩ ∈ events ts :=
  exists_clusterRun doubleVote _ (by decide +kernel)

end Rafty
