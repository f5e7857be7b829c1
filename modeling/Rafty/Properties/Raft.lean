import Rafty.Heartbeat
import Rafty.Properties.Log

/-!
# What the two handlers do

One lemma per handler, saying everything it can do. The proofs about runs use these and never unfold
the functions.

The fields that the protocol argues about are role, term, vote, log, the two indices and the queue;
`Core` bundles them, so that "nothing else changed" can be said at once. What the leader keeps for
itself (the table of replicated indices, the end of its lease) is `SameLease`, what a node stores is
`SameStorage`.
-/

namespace Rafty

open Replication

/-- The fields that the protocol argues about. -/
structure Core where
  role : Role
  currentTerm : Nat
  votedFor : Option NodeId
  log : List Entry
  commitIndex : Nat
  lastApplied : Nat
  readyQueue : List ApplyResult

namespace Core

/-- A vote belongs to its term. -/
def voteIn (c : Core) (term : Nat) : Option NodeId :=
  if term > c.currentTerm then none else c.votedFor

/-- An `AppendEntries` of `term` makes the node a follower. -/
def follow (c : Core) (term : Nat) : Core :=
  { c with role := .follower, currentTerm := term, votedFor := c.voteIn term }

/-- A `RequestVote` of `term` makes the node a follower only if the term is higher. -/
def raise (c : Core) (term : Nat) : Core :=
  { c with
    role := if term > c.currentTerm then .follower else c.role
    currentTerm := term
    votedFor := c.voteIn term }

variable {c : Core} {term : Nat}

theorem voteIn_of_le (h : term ≤ c.currentTerm) : c.voteIn term = c.votedFor :=
  if_neg (Nat.not_lt.mpr h)

/-- A `RequestVote` makes the node a follower, or finds it in the request's term. -/
theorem raise_role_cases (h : c.currentTerm ≤ term) :
    (c.raise term).role = .follower ∨ term = c.currentTerm ∧ (c.raise term).role = c.role := by
  by_cases hgt : term > c.currentTerm
  · exact Or.inl (if_pos hgt)
  · exact Or.inr ⟨Nat.le_antisymm (Nat.not_lt.mp hgt) h, if_neg hgt⟩

end Core

namespace Raft

def core (s : Raft) : Core where
  role := s.role
  currentTerm := s.currentTerm
  votedFor := s.votedFor
  log := s.log
  commitIndex := s.commitIndex
  lastApplied := s.lastApplied
  readyQueue := s.readyQueue

/-- The leader's own bookkeeping is untouched. -/
structure SameLease (s s' : Raft) : Prop where
  matchIndex : s'.matchIndex = s.matchIndex
  leaseExpires : s'.leaseExpires = s.leaseExpires

/-- The log, the two indices and the queue are untouched. -/
structure SameStorage (s s' : Raft) : Prop where
  log : s'.log = s.log
  commitIndex : s'.commitIndex = s.commitIndex
  lastApplied : s'.lastApplied = s.lastApplied
  readyQueue : s'.readyQueue = s.readyQueue

theorem SameStorage.of_core {s s' : Raft} {role : Role} {term : Nat} {vote : Option NodeId}
    (h : s'.core = { s.core with role := role, currentTerm := term, votedFor := vote }) :
    s.SameStorage s' where
  log := congrArg Core.log h
  commitIndex := congrArg Core.commitIndex h
  lastApplied := congrArg Core.lastApplied h
  readyQueue := congrArg Core.readyQueue h

/-! ## `handle_append_entries` -/

section AcceptLeader

variable (s : Raft) (request : AppendEntriesRequest) (timeout : ElectionTimeout)

theorem acceptLeader_core (h : s.currentTerm ≤ request.term) :
    (s.acceptLeader request timeout).core = s.core.follow request.term := by
  unfold acceptLeader resetElectionTimer core Core.follow Core.voteIn
  by_cases ht : request.term > s.currentTerm
  · simp only [ht, if_true]
    split <;> rfl
  · have heq : s.currentTerm = request.term := by omega
    simp only [ht, if_false]
    split <;> simp [heq]

theorem acceptLeader_sameLease : s.SameLease (s.acceptLeader request timeout) := by
  unfold acceptLeader
  dsimp only
  split <;> split <;> exact ⟨rfl, rfl⟩

end AcceptLeader

/-- The handler's part on the log, seen from its result. -/
theorem storeEntries_eq_some {s s' : Raft} {request : AppendEntriesRequest}
    (h : s.storeEntries request = some s') :
    ∃ results, applyLoop (appendLoop s.log request.prevLogIndex request.entries) s.lastApplied
        (s.followerCommit request (appendLoop s.log request.prevLogIndex request.entries) -
          s.lastApplied) = some results ∧
      s' = { s with
        log := appendLoop s.log request.prevLogIndex request.entries
        commitIndex := s.followerCommit request
          (appendLoop s.log request.prevLogIndex request.entries)
        lastApplied := max s.lastApplied (s.followerCommit request
          (appendLoop s.log request.prevLogIndex request.entries))
        readyQueue := s.readyQueue ++ results } := by
  unfold storeEntries at h
  simp only [Option.bind_eq_bind, Option.bind_eq_some_iff, Option.some.injEq] at h
  obtain ⟨results, hr, he⟩ := h
  exact ⟨results, hr, he.symm⟩

/-- What a successful `handle_append_entries` leaves behind. -/
structure Stored (s : Raft) (request : AppendEntriesRequest) (s' : Raft)
    (results : List ApplyResult) : Prop where
  term : s.currentTerm ≤ request.term
  logMatches : logMatches s.log request = true
  applied : applyLoop s'.log s.lastApplied (s'.commitIndex - s.lastApplied) = some results
  log : s'.log = appendLoop s.log request.prevLogIndex request.entries
  commitIndex : s'.commitIndex = s.followerCommit request s'.log
  core : s'.core = { s.core.follow request.term with
    log := s'.log
    commitIndex := s'.commitIndex
    lastApplied := max s.lastApplied s'.commitIndex
    readyQueue := s.readyQueue ++ results }

theorem stored_of_storeEntries {s s' : Raft} {request : AppendEntriesRequest}
    {timeout : ElectionTimeout} (hle : s.currentTerm ≤ request.term)
    (hm : logMatches s.log request = true)
    (h : (s.acceptLeader request timeout).storeEntries request = some s') :
    ∃ results, s.Stored request s' results := by
  have hcore := acceptLeader_core s request timeout hle
  obtain ⟨results, hr, rfl⟩ := storeEntries_eq_some h
  obtain ⟨hrole, hterm, hvote, hlog, hci, hla, hrq⟩ := Core.mk.inj hcore
  have hfc : (s.acceptLeader request timeout).followerCommit request =
      s.followerCommit request := by
    funext log
    unfold followerCommit
    rw [hci]
    rfl
  refine ⟨results, hle, hm, hla ▸ hr, by rw [hlog]; rfl, by rw [hfc], ?_⟩
  simp only [core, hrole, hterm, hvote, hla, hrq]
  rfl

/-- **`handle_append_entries`**: a stale request, a request that does not match, a success. -/
theorem handleAppendEntries_cases {s s' : Raft} {request : AppendEntriesRequest}
    {timeout : ElectionTimeout} {reply : AppendEntriesReply}
    (h : s.handleAppendEntries request timeout = some (s', reply)) :
    (request.term < s.currentTerm ∧ s' = s ∧
      reply = { term := s.currentTerm, success := false }) ∨
    (s.currentTerm ≤ request.term ∧ logMatches s.log request = false ∧
      s'.core = s.core.follow request.term ∧ reply = { term := request.term, success := false }) ∨
    ∃ results, s.Stored request s' results ∧
      reply = { term := request.term, success := true } := by
  unfold handleAppendEntries at h
  split at h
  · next hlt =>
    simp only [Option.some.injEq, Prod.mk.injEq] at h
    exact Or.inl ⟨hlt, h.1.symm, h.2.symm⟩
  · next hge =>
    have hle : s.currentTerm ≤ request.term := by omega
    have hcore := acceptLeader_core s request timeout hle
    have hterm : (s.acceptLeader request timeout).currentTerm = request.term :=
      congrArg Core.currentTerm hcore
    have hlog : (s.acceptLeader request timeout).log = s.log := congrArg Core.log hcore
    simp only [hlog] at h
    split at h
    · next hm =>
      rw [Option.map_eq_some_iff] at h
      obtain ⟨s₁, hs₁, he⟩ := h
      simp only [Prod.mk.injEq] at he
      obtain ⟨rfl, rfl⟩ := he
      obtain ⟨results, hst⟩ := stored_of_storeEntries hle hm hs₁
      have hterm' : s₁.currentTerm = request.term := congrArg Core.currentTerm hst.core
      exact Or.inr (Or.inr ⟨results, hst, by rw [hterm']⟩)
    · next hm =>
      simp only [Option.some.injEq, Prod.mk.injEq] at h
      obtain ⟨rfl, rfl⟩ := h
      exact Or.inr (Or.inl ⟨hle, by simpa using hm, hcore, by rw [hterm]⟩)

/-- A success, with the log the request was cut from: the follower splices that log in. -/
theorem Stored.log_eq_splice {s s' : Raft} {request : AppendEntriesRequest}
    {results : List ApplyResult} {lead : List Entry} (h : s.Stored request s' results)
    (hcut : CutFrom lead request) (hm : Matching s.log lead) : s'.log = splice s.log lead := by
  rw [h.log, hcut.appendLoop_eq_splice hm h.logMatches]

theorem stored_of_success {s s' : Raft} {request : AppendEntriesRequest}
    {timeout : ElectionTimeout} {reply : AppendEntriesReply}
    (h : s.handleAppendEntries request timeout = some (s', reply)) (hs : reply.success = true) :
    ∃ results, s.Stored request s' results := by
  rcases handleAppendEntries_cases h with ⟨-, -, rfl⟩ | ⟨-, -, -, rfl⟩ | ⟨results, hst, -⟩
  · cases hs
  · cases hs
  · exact ⟨results, hst⟩

theorem log_of_refused {s s' : Raft} {request : AppendEntriesRequest}
    {timeout : ElectionTimeout} {reply : AppendEntriesReply}
    (h : s.handleAppendEntries request timeout = some (s', reply)) (hs : reply.success = false) :
    s'.log = s.log := by
  rcases handleAppendEntries_cases h with ⟨-, rfl, -⟩ | ⟨-, -, hcore, -⟩ | ⟨results, -, rfl⟩
  · rfl
  · exact congrArg Core.log hcore
  · cases hs

theorem handleAppendEntries_sameLease {s s' : Raft} {request : AppendEntriesRequest}
    {timeout : ElectionTimeout} {reply : AppendEntriesReply}
    (h : s.handleAppendEntries request timeout = some (s', reply)) : s.SameLease s' := by
  unfold handleAppendEntries at h
  split at h
  · simp only [Option.some.injEq, Prod.mk.injEq] at h
    exact h.1 ▸ ⟨rfl, rfl⟩
  · have hsame := acceptLeader_sameLease s request timeout
    dsimp only at h
    split at h
    · rw [Option.map_eq_some_iff] at h
      obtain ⟨s₁, hs₁, he⟩ := h
      obtain ⟨results, -, rfl⟩ := storeEntries_eq_some hs₁
      simp only [Prod.mk.injEq] at he
      exact he.1 ▸ ⟨hsame.1, hsame.2⟩
    · simp only [Option.some.injEq, Prod.mk.injEq] at h
      exact h.1 ▸ hsame

/-- Of the two lease flags the handler only clears the first, and only a leader's. -/
theorem handleAppendEntries_flags {s s' : Raft} {request : AppendEntriesRequest}
    {timeout : ElectionTimeout} {reply : AppendEntriesReply}
    (h : s.handleAppendEntries request timeout = some (s', reply)) :
    s'.lastTermCommitIdx = s.lastTermCommitIdx ∧
      (s'.isLeaderAtomic = true →
        s.isLeaderAtomic = true ∧ (s.currentTerm ≤ request.term → s.role ≠ .leader)) := by
  have haccept : (s.acceptLeader request timeout).lastTermCommitIdx = s.lastTermCommitIdx ∧
      ((s.acceptLeader request timeout).isLeaderAtomic = true →
        s.isLeaderAtomic = true ∧ s.role ≠ .leader) := by
    unfold acceptLeader resetElectionTimer
    dsimp only
    split <;> split <;> simp_all
  unfold handleAppendEntries at h
  split at h
  · next hlt =>
    simp only [Option.some.injEq, Prod.mk.injEq] at h
    exact h.1 ▸ ⟨rfl, fun hf => ⟨hf, fun hle => absurd hlt (Nat.not_lt.mpr hle)⟩⟩
  · dsimp only at h
    split at h
    · obtain ⟨s₁, hs₁, he⟩ := Option.map_eq_some_iff.mp h
      obtain ⟨results, -, rfl⟩ := storeEntries_eq_some hs₁
      rw [Prod.mk.injEq] at he
      exact he.1 ▸ ⟨haccept.1, fun hf => ⟨(haccept.2 hf).1, fun _ => (haccept.2 hf).2⟩⟩
    · simp only [Option.some.injEq, Prod.mk.injEq] at h
      exact h.1 ▸ ⟨haccept.1, fun hf => ⟨(haccept.2 hf).1, fun _ => (haccept.2 hf).2⟩⟩

/-- A request that is not stale counts as a heartbeat. -/
theorem handleAppendEntries_heard {s s' : Raft} {request : AppendEntriesRequest}
    {timeout : ElectionTimeout} {reply : AppendEntriesReply} (hle : s.currentTerm ≤ request.term)
    (h : s.handleAppendEntries request timeout = some (s', reply)) :
    s'.receivedHeartbeat = true := by
  unfold handleAppendEntries at h
  rw [if_neg (Nat.not_lt.mpr hle)] at h
  dsimp only at h
  split at h
  · rw [Option.map_eq_some_iff] at h
    obtain ⟨s₁, hs₁, he⟩ := h
    obtain ⟨results, -, rfl⟩ := storeEntries_eq_some hs₁
    rw [Prod.mk.injEq] at he
    exact he.1 ▸ rfl
  · simp only [Option.some.injEq, Prod.mk.injEq] at h
    exact h.1 ▸ rfl

/--
**The handler stays inside the log**, on every request: the apply loop starts at `last_applied_` and
the clamp lets `commit_index_` grow to the end of the log at most.
-/
theorem handleAppendEntries_isSome {s : Raft} (h : s.commitIndex ≤ s.lastApplied)
    (request : AppendEntriesRequest) (timeout : ElectionTimeout) :
    (s.handleAppendEntries request timeout).isSome = true := by
  unfold handleAppendEntries
  split
  · rfl
  · next hge =>
    obtain ⟨-, -, -, -, hci, hla, -⟩ :=
      Core.mk.inj (acceptLeader_core s request timeout (Nat.not_lt.mp hge))
    replace h : (s.acceptLeader request timeout).commitIndex ≤
        (s.acceptLeader request timeout).lastApplied := by rw [hci, hla]; exact h
    dsimp only
    split
    · rw [Option.isSome_map, storeEntries, Option.bind_eq_bind, Option.isSome_bind,
        Option.any_eq_true]
      refine (Option.isSome_iff_exists.mp (applyLoop_isSome_iff.mpr ?_)).imp fun _ hr => ⟨hr, rfl⟩
      unfold followerCommit
      split <;> omega
    · rfl

/-! ## `handle_request_vote` -/

theorem raiseTerm_core {s : Raft} {request : RequestVoteReq} (timeout : ElectionTimeout)
    (h : s.currentTerm ≤ request.term) :
    (s.raiseTerm request timeout).core = s.core.raise request.term := by
  unfold raiseTerm resetElectionTimer core Core.raise Core.voteIn
  split
  · simp
  · next hgt =>
    have heq : s.currentTerm = request.term := by omega
    simp [heq]

theorem mayVote_iff {s : Raft} {request : RequestVoteReq} :
    s.mayVote request = true ↔ (s.votedFor = none ∨ s.votedFor = some request.candidateId) ∧
      upToDate s.log request.lastLogIndex request.lastLogTerm = true := by
  simp [mayVote]

/-- **`handle_request_vote`**: a stale request, a refusal, a vote. -/
theorem handleRequestVote_cases (s : Raft) (request : RequestVoteReq) (timeout : ElectionTimeout) :
    (request.term < s.currentTerm ∧ s.handleRequestVote request timeout =
      (s, { term := s.currentTerm, voteGranted := false })) ∨
    (s.currentTerm ≤ request.term ∧
      (s.handleRequestVote request timeout).1.core = s.core.raise request.term ∧
      (s.handleRequestVote request timeout).2 = { term := request.term, voteGranted := false }) ∨
    (s.currentTerm ≤ request.term ∧
      (s.core.voteIn request.term = none ∨
        s.core.voteIn request.term = some request.candidateId) ∧
      upToDate s.log request.lastLogIndex request.lastLogTerm = true ∧
      (s.handleRequestVote request timeout).1.core =
        { s.core.raise request.term with votedFor := some request.candidateId } ∧
      (s.handleRequestVote request timeout).2 = { term := request.term, voteGranted := true }) := by
  unfold handleRequestVote
  by_cases hlt : request.term < s.currentTerm
  · exact Or.inl ⟨hlt, if_pos hlt⟩
  · have hle : s.currentTerm ≤ request.term := by omega
    have hcore := raiseTerm_core timeout hle
    have hterm : (s.raiseTerm request timeout).currentTerm = request.term :=
      congrArg Core.currentTerm hcore
    rw [if_neg hlt]
    simp only [hterm]
    refine Or.inr ?_
    split
    · next hm =>
      obtain ⟨hvote, hlog⟩ := mayVote_iff.mp hm
      rw [show (s.raiseTerm request timeout).votedFor = s.core.voteIn request.term from
        congrArg Core.votedFor hcore] at hvote
      rw [show (s.raiseTerm request timeout).log = s.log from congrArg Core.log hcore] at hlog
      refine Or.inr ⟨hle, hvote, hlog, ?_, rfl⟩
      rw [← hcore, ← hterm]
      rfl
    · exact Or.inl ⟨hle, hcore, rfl⟩

/-- The four fields that `handle_request_vote` can write. -/
theorem handleRequestVote_frame (s : Raft) (request : RequestVoteReq) (timeout : ElectionTimeout) :
    ∃ role term vote drawn, (s.handleRequestVote request timeout).1 =
      { s with role := role, currentTerm := term, votedFor := vote, electionTimeout := drawn } := by
  have hraise : ∃ role term vote drawn, s.raiseTerm request timeout =
      { s with role := role, currentTerm := term, votedFor := vote,
               electionTimeout := drawn } := by
    unfold raiseTerm
    split
    · exact ⟨_, _, _, _, rfl⟩
    · exact ⟨s.role, s.currentTerm, s.votedFor, s.electionTimeout, rfl⟩
  obtain ⟨role, term, vote, drawn, hraise⟩ := hraise
  unfold handleRequestVote
  split
  · exact ⟨s.role, s.currentTerm, s.votedFor, s.electionTimeout, rfl⟩
  · rw [hraise]
    dsimp only
    split
    · exact ⟨role, term, _, timeout, rfl⟩
    · exact ⟨role, term, vote, drawn, rfl⟩

theorem handleRequestVote_sameLease (s : Raft) (request : RequestVoteReq)
    (timeout : ElectionTimeout) : s.SameLease (s.handleRequestVote request timeout).1 := by
  obtain ⟨role, term, vote, drawn, h⟩ := handleRequestVote_frame s request timeout
  exact h ▸ ⟨rfl, rfl⟩

/-- A `RequestVote` touches neither of the lease flags, also when it ends a leadership. -/
theorem handleRequestVote_flags (s : Raft) (request : RequestVoteReq) (timeout : ElectionTimeout) :
    (s.handleRequestVote request timeout).1.isLeaderAtomic = s.isLeaderAtomic ∧
      (s.handleRequestVote request timeout).1.lastTermCommitIdx = s.lastTermCommitIdx := by
  obtain ⟨role, term, vote, drawn, h⟩ := handleRequestVote_frame s request timeout
  exact h ▸ ⟨rfl, rfl⟩

/-- A `RequestVote` is no heartbeat. -/
theorem handleRequestVote_heard (s : Raft) (request : RequestVoteReq) (timeout : ElectionTimeout) :
    (s.handleRequestVote request timeout).1.receivedHeartbeat = s.receivedHeartbeat := by
  obtain ⟨role, term, vote, drawn, h⟩ := handleRequestVote_frame s request timeout
  exact h ▸ rfl

/-! ## `propose` -/

theorem propose_cases (s : Raft) (data : Bytes) :
    (s.role = .leader ∧
      (s.propose data).1 = { s with log := s.log ++ [{ term := s.currentTerm, command := data }] } ∧
      (s.propose data).2.isLeader = true ∧ (s.propose data).2.term = s.currentTerm) ∨
    (s.role ≠ .leader ∧ (s.propose data).1 = s ∧ (s.propose data).2.isLeader = false) := by
  unfold propose
  split
  · next h => exact Or.inl ⟨h, rfl, rfl, rfl⟩
  · next h => exact Or.inr ⟨h, rfl, rfl⟩

/-! ## `get_lease_state` -/

theorem getLeaseState_eq_true {s : Raft} {now c : Nat} : s.getLeaseState now = (true, c) ↔
    s.isLeaderAtomic = true ∧ now < s.leaseExpires ∧ 0 < c ∧ s.lastTermCommitIdx = c := by
  unfold getLeaseState
  split
  · next h => simp_all
  · split
    · simp
      omega
    · split
      · simp
        omega
      · simp_all
        omega

end Raft

end Rafty
