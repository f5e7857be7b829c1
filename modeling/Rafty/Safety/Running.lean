import Rafty.Safety.LeaseFlags

/-!
# Only `kill` stops a node

`dead` is set by `kill` alone and never cleared, and the `run()` thread leaves its loop only when it
finds it set. So the thread of a node that was not killed always has a block to run
(`isRunning_of_run`).
-/

namespace Rafty

open Infra

/-! ## `dead` -/

namespace Raft

theorem handleAppendEntries_dead {s s' : Raft} {request : AppendEntriesRequest}
    {timeout : ElectionTimeout} {reply : AppendEntriesReply}
    (h : s.handleAppendEntries request timeout = some (s', reply)) : s'.dead = s.dead := by
  have haccept : (s.acceptLeader request timeout).dead = s.dead := by
    unfold acceptLeader resetElectionTimer
    dsimp only
    split <;> split <;> rfl
  unfold handleAppendEntries at h
  split at h
  · simp only [Option.some.injEq, Prod.mk.injEq] at h
    exact h.1 ▸ rfl
  · dsimp only at h
    split at h
    · obtain ⟨s₁, hs₁, he⟩ := Option.map_eq_some_iff.mp h
      obtain ⟨results, -, rfl⟩ := storeEntries_eq_some hs₁
      rw [Prod.mk.injEq] at he
      exact he.1 ▸ haccept
    · simp only [Option.some.injEq, Prod.mk.injEq] at h
      exact h.1 ▸ haccept

theorem recordReply_dead (s : Raft) (result : PeerResult) (reply : AppendEntriesReply) :
    (s.recordReply result reply).dead = s.dead := by
  unfold recordReply
  split
  · rfl
  · dsimp only
    split <;> rfl

theorem resultsLoop_dead {timeout : ElectionTimeout} : ∀ {results : List PeerResult} {s : Raft}
    {c : Nat}, (∀ {s'}, s.resultsLoop timeout c results = .error s' → s'.dead = s.dead) ∧
      ∀ {s' c'}, s.resultsLoop timeout c results = .ok (s', c') → s'.dead = s.dead
  | [], s, c => by
    refine ⟨fun h => by simp [resultsLoop] at h, fun h => ?_⟩
    simp only [resultsLoop, Except.ok.injEq, Prod.mk.injEq] at h
    exact h.1 ▸ rfl
  | result :: rest, s, c => by
    rw [resultsLoop]
    split
    · exact resultsLoop_dead
    · next reply _ =>
      split
      · refine ⟨fun h => ?_, fun h => by cases h⟩
        rw [Except.error.injEq] at h
        exact h ▸ rfl
      · rw [← recordReply_dead s result reply]
        exact resultsLoop_dead

theorem finishRound_dead {s s' : Raft} {cfg : Config} {now : Nat} {timeout : ElectionTimeout}
    {confirmations : Nat} {toApply : List ApplyResult}
    (h : s.finishRound cfg now timeout confirmations = some (s', toApply)) :
    s'.dead = s.dead := by
  unfold finishRound at h
  simp only [Option.bind_eq_bind, Option.bind_eq_some_iff] at h
  obtain ⟨toApply', -, h⟩ := h
  split at h
  · simp only [Option.bind_eq_some_iff, Option.some.injEq, Prod.mk.injEq] at h
    obtain ⟨s₁, hs₁, rfl, -⟩ := h
    unfold renewLease at hs₁
    dsimp only at hs₁
    split at hs₁
    · obtain ⟨entry, -, rfl⟩ := Option.map_eq_some_iff.mp hs₁
      split <;> rfl
    · obtain rfl := Option.some.inj hs₁
      rfl
  · simp only [Option.bind_some, Option.some.injEq, Prod.mk.injEq] at h
    obtain ⟨rfl, -⟩ := h
    unfold checkMajority
    split <;> rfl

theorem processResults_dead {s s' : Raft} {cfg : Config} {now : Nat} {timeout : ElectionTimeout}
    {results : List PeerResult} {toApply : List ApplyResult}
    (h : s.processResults cfg now timeout results = some (s', toApply)) : s'.dead = s.dead := by
  unfold processResults at h
  split at h
  · split at h
    · next s₁ hs₁ =>
      simp only [Option.some.injEq, Prod.mk.injEq] at h
      exact h.1 ▸ resultsLoop_dead.1 hs₁
    · next s₁ c hs₁ => exact (finishRound_dead h).trans (resultsLoop_dead.2 hs₁)
  · simp only [Option.some.injEq, Prod.mk.injEq] at h
    exact h.1 ▸ rfl

end Raft

/-- The thread has a block to run: it has not left the loop. -/
def Thread.isRunning : Thread → Bool
  | .exited | .applying [] _ => false
  | _ => true

theorem isRunning_of_inElection {thread : Thread} (h : thread.inElection = true) :
    thread.isRunning = true := by
  cases thread <;> first | rfl | cases h

theorem isRunning_applyResults (site : CallSite) (toApply : List ApplyResult) :
    (applyResults site toApply).isRunning = true := by
  cases toApply <;> cases site <;> rfl

namespace Node

variable {cfg : Config} {s : Node} {i : Input} {eff : Effect}

theorem dead_of_isQuiet (hi : i.action.isQuiet = true) (hk : i.action ≠ .kill)
    (h : s.step cfg i = some eff) : eff.node.raft.dead = s.raft.dead ∧
      (s.raft.dead = false → eff.node.thread.isRunning = true) := by
  obtain ⟨now, action⟩ := i
  cases action with
  | kill => exact absurd rfl hk
  | loopTop =>
    cases ht : s.thread with
    | loopTop =>
      simp only [step, ht, Option.some.injEq] at h
      rw [← h, silent, loopTop]
      split
      · next hdead => exact ⟨rfl, fun hrun => by cases hdead.symm.trans hrun⟩
      · split <;> exact ⟨rfl, fun _ => rfl⟩
    | _ => simp [step, ht] at h
  | leaderWait =>
    cases ht : s.thread with
    | leaderWait =>
      simp only [step, ht, Option.some.injEq] at h
      rw [← h, silent]
      exact ⟨rfl, fun _ => rfl⟩
    | _ => simp [step, ht] at h
  | poll =>
    cases ht : s.thread with
    | waiting start =>
      simp only [step, ht, Option.some.injEq] at h
      rw [← h, silent, poll]
      split
      · exact ⟨rfl, fun _ => rfl⟩
      · exact ⟨rfl, fun _ => by rw [ht]; rfl⟩
    | _ => simp [step, ht] at h
  | decide timeout =>
    cases ht : s.thread with
    | decide votes =>
      simp only [step, ht, Option.some.injEq] at h
      rw [← h, Node.decide]
      split
      · exact ⟨rfl, fun _ => rfl⟩
      · split <;> exact ⟨rfl, fun _ => rfl⟩
    | _ => simp [step, ht] at h
  | buildRound callId =>
    cases ht : s.thread with
    | buildRound site =>
      simp only [step, ht, buildRound] at h
      split at h
      · obtain ⟨⟨raft, reqs⟩, hreqs, rfl⟩ := Option.map_eq_some_iff.mp h
        obtain ⟨⟨table, rfl⟩, -, -⟩ := Raft.buildRequests_eq_some hreqs
        exact ⟨rfl, fun _ => rfl⟩
      · obtain rfl := Option.some.inj h
        exact ⟨rfl, fun _ => isRunning_applyResults site []⟩
    | _ => simp [step, ht] at h
  | _ => cases hi

/-- **Only `kill` sets `dead`**, and nothing clears it. -/
theorem dead_of_step (h : s.step cfg i = some eff) (hk : i.action ≠ .kill) :
    eff.node.raft.dead = s.raft.dead := by
  cases move_of_step h with
  | appendRefused | appendStored =>
    obtain ⟨reply, hf⟩ := step_appendEntries h
    exact Raft.handleAppendEntries_dead hf
  | @voteRefused _ call timeout | @voteGranted _ call timeout =>
    rw [step_requestVote h]
    obtain ⟨role, term, vote, drawn, he⟩ :=
      Raft.handleRequestVote_frame s.raft call.request timeout
    rw [he]
  | roundYielded ht | roundFinished ht =>
    obtain ⟨toApply, hp⟩ := step_roundReturned ht h
    exact Raft.processResults_dead hp
  | buildRound _ _ hb =>
    obtain ⟨⟨table, rfl⟩, -, -⟩ := Raft.buildRequests_eq_some hb
    rfl
  | voteReturned | compareTerm => simp [silent]
  | quiet hi => exact (dead_of_isQuiet hi hk h).1
  | _ => rfl

/-- **The thread of a node that was not killed has a block to run.** -/
theorem isRunning_step (hinv : s.raft.dead = false → s.thread.isRunning = true)
    (h : s.step cfg i = some eff) (hdead : eff.node.raft.dead = false) :
    eff.node.thread.isRunning = true := by
  by_cases hk : i.action = .kill
  · obtain ⟨now, action⟩ := i
    obtain rfl : action = .kill := hk
    obtain rfl := Option.some.inj h
    cases hdead
  rw [dead_of_step h hk] at hdead
  cases move_of_step h with
  | quiet hi => exact (dead_of_isQuiet hi hk h).2 hdead
  | startElection => exact isRunning_of_inElection (inElection_electionLoop _ _)
  | voteReturned => exact isRunning_of_inElection (inElection_voteReturned ..)
  | compareTerm => exact isRunning_of_inElection (inElection_compareTerm ..)
  | roundFinished | applyNext => exact isRunning_applyResults _ _
  | roundDropped | roundYielded => exact isRunning_applyResults _ []
  | appendStale | appendRefused | appendStored | voteStale | voteRefused | voteGranted
  | proposed | notLeader => exact hinv hdead
  | _ => rfl

end Node

theorem isRunning_of_run {cfg : Config} {ts : List (Transition Node Input Event)} {s : Node}
    (h : (nodeSystem cfg).Run ts s) (hdead : s.raft.dead = false) :
    s.thread.isRunning = true := by
  refine (h.invariant (P := fun s => s.raft.dead = false → s.thread.isRunning = true) ?_ ?_).1 hdead
  · rintro s ⟨timeout, rfl⟩ -
    rfl
  · intro s i s' es hinv hs
    obtain ⟨eff, heff, rfl, -⟩ := nodeSystem_step hs
    exact Node.isRunning_step hinv heff

end Rafty
