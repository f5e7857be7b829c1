import Rafty.Cluster
import Rafty.Properties.Raft

/-!
# A repeated `AppendEntries`

A leader that did not see an answer sends the same entries again. `handleAppendEntries_repeat` says
that the second time changes nothing, on every request: what the first time cut, pushed, clamped and
applied is found in place by the second. Among the fields the protocol argues about (`Core`) is the
queue of results, so nothing is applied again either.
-/

namespace Rafty

/-- Following a leader of the own term makes a follower no different. -/
theorem Core.follow_self {c : Core} {term : Nat} (hrole : c.role = .follower)
    (hterm : c.currentTerm = term) : c.follow term = c := by
  subst hterm
  rw [Core.follow, Core.voteIn_of_le (Nat.le_refl _), ← hrole]

namespace Raft

variable {s s₁ s₂ : Raft} {request : AppendEntriesRequest} {results results' : List ApplyResult}

/-- The clamp of `commit_index_`, taken a second time. -/
theorem followerCommit_self {log : List Entry} (h : s₁.commitIndex = s.followerCommit request log) :
    s₁.followerCommit request log = s₁.commitIndex := by
  unfold followerCommit at *
  split at h <;> split <;> omega

theorem Stored.logMatches_after (h : s.Stored request s₁ results) :
    Rafty.logMatches s₁.log request = true := by
  rw [h.log]
  exact logMatches_appendLoop h.logMatches request.entries

theorem Stored.commit_le_applied (h : s.Stored request s₁ results) :
    s₁.commitIndex ≤ s₁.lastApplied := by
  have hla : s₁.lastApplied = max s.lastApplied s₁.commitIndex := congrArg Core.lastApplied h.core
  omega

/-- A request stored twice in a row: log and indices stay, and no result is left to enqueue. -/
theorem Stored.core_repeat (h : s.Stored request s₁ results) (h' : s₁.Stored request s₂ results') :
    s₂.core = s₁.core := by
  have hlog : s₂.log = s₁.log := by
    rw [h'.log, h.log]
    exact appendLoop_appendLoop _ (prev_le_of_logMatches h.logMatches)
  have hci : s₂.commitIndex = s₁.commitIndex := by
    rw [h'.commitIndex, hlog]
    exact followerCommit_self h.commitIndex
  have hresults : results' = [] := by
    have happlied := h'.applied
    rw [hci, Nat.sub_eq_zero_of_le h.commit_le_applied, applyLoop, Option.some.injEq] at happlied
    exact happlied.symm
  have hrole : s₁.core.role = .follower := congrArg Core.role h.core
  have hterm : s₁.core.currentTerm = request.term := congrArg Core.currentTerm h.core
  rw [h'.core, Core.follow_self hrole hterm, hlog, hci, hresults, List.append_nil,
    Nat.max_eq_left h.commit_le_applied]
  rfl

/--
**`AppendEntries` is idempotent.** The second of two equal requests in a row gets the same reply and
finds every field the protocol argues about as it leaves it.
-/
theorem handleAppendEntries_repeat (h : s.commitIndex ≤ s.lastApplied)
    (request : AppendEntriesRequest) (timeout timeout' : ElectionTimeout) :
    ∃ s₁ s₂ reply, s.handleAppendEntries request timeout = some (s₁, reply) ∧
      s₁.handleAppendEntries request timeout' = some (s₂, reply) ∧ s₂.core = s₁.core := by
  obtain ⟨⟨s₁, reply⟩, h₁⟩ :=
    Option.isSome_iff_exists.mp (handleAppendEntries_isSome h request timeout)
  rcases handleAppendEntries_cases h₁ with
    ⟨hlt, rfl, rfl⟩ | ⟨-, hm, hcore, rfl⟩ | ⟨results, hst, rfl⟩
  · exact ⟨s₁, s₁, _, h₁, if_pos hlt, rfl⟩
  · -- refused: the state is that of a follower of the request's term, with the log as it was
    have hrole : s₁.core.role = .follower := congrArg Core.role hcore
    have hterm : s₁.core.currentTerm = request.term := congrArg Core.currentTerm hcore
    have hlog : s₁.log = s.log := congrArg Core.log hcore
    have hle : s₁.commitIndex ≤ s₁.lastApplied := by
      rw [show s₁.commitIndex = s.commitIndex from congrArg Core.commitIndex hcore,
        show s₁.lastApplied = s.lastApplied from congrArg Core.lastApplied hcore]
      exact h
    obtain ⟨⟨s₂, reply⟩, h₂⟩ :=
      Option.isSome_iff_exists.mp (handleAppendEntries_isSome hle request timeout')
    rcases handleAppendEntries_cases h₂ with
      ⟨hlt, -, -⟩ | ⟨-, -, hcore', rfl⟩ | ⟨results, hst, -⟩
    · exact absurd hlt (Nat.not_lt.mpr (Nat.le_of_eq hterm))
    · exact ⟨s₁, s₂, _, h₁, h₂, by rw [hcore', Core.follow_self hrole hterm]⟩
    · have hm' := hst.logMatches
      rw [hlog, hm] at hm'
      cases hm'
  · obtain ⟨⟨s₂, reply⟩, h₂⟩ := Option.isSome_iff_exists.mp
      (handleAppendEntries_isSome hst.commit_le_applied request timeout')
    have hterm : s₁.currentTerm = request.term := congrArg Core.currentTerm hst.core
    rcases handleAppendEntries_cases h₂ with
      ⟨hlt, -, -⟩ | ⟨-, hm, -, -⟩ | ⟨results', hst', rfl⟩
    · exact absurd hlt (Nat.not_lt.mpr (Nat.le_of_eq hterm))
    · rw [hst.logMatches_after] at hm
      cases hm
    · exact ⟨s₁, s₂, _, h₁, h₂, hst.core_repeat hst'⟩

/-- A follower with one applied entry, whose second entry is of a leader that has been replaced. -/
def overtaken : Raft :=
  { Raft.init shortTimeout with
    currentTerm := 2
    log := [{ term := 1, command := [1] }, { term := 1, command := [2] }]
    commitIndex := 1
    lastApplied := 1 }

/-- The request that cuts that entry off, pushes another and commits it. -/
def replacement : AppendEntriesRequest where
  term := 3
  leaderId := 1
  prevLogIndex := 1
  prevLogTerm := 1
  entries := [{ term := 3, command := [3] }]
  leaderCommit := 2

theorem overtaken_repeat :
    (overtaken.handleAppendEntries replacement shortTimeout).map (fun r => r.1.lastApplied) =
        some 2 ∧
      ∃ s₁ s₂ reply, overtaken.handleAppendEntries replacement shortTimeout = some (s₁, reply) ∧
        s₁.handleAppendEntries replacement shortTimeout = some (s₂, reply) ∧ s₂.core = s₁.core :=
  ⟨by decide, handleAppendEntries_repeat (s := overtaken) (by decide) replacement shortTimeout
    shortTimeout⟩

end Raft

end Rafty
