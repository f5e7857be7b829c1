import Rafty.Properties.Raft

/-!
# What a round of `send_heartbeats` does

* `buildRequests_eq_some` — a request carries the leader's term and commit index, and of its log a
  suffix together with the term before it.
* `processResults_cases` — the second critical section does nothing (the node leads no more), yields
  to a higher term, or finishes the round. `RoundFinished` lists what finishing does.

`LosesMajority` is the condition of the branch that gives the leadership up because too few peers
answered for too long, `GrantsLease` that of the branch that renews the lease. Both are decided by
the state before the block and the replies.
-/

namespace Rafty

namespace Raft

/-! ## The requests -/

/-- The request a leader with state `s` builds for a peer, cut at `prevLogIndex`. -/
structure BuiltFrom (s : Raft) (req : PeerReq) : Prop where
  term : req.call.request.term = s.currentTerm
  leaderCommit : req.call.request.leaderCommit = s.commitIndex
  prev_le : req.call.request.prevLogIndex ≤ s.log.length
  entries : req.call.request.entries = s.log.drop req.call.request.prevLogIndex
  prevLogTerm : req.call.request.prevLogIndex > 0 →
    (s.log[req.call.request.prevLogIndex - 1]?).map Entry.term = some req.call.request.prevLogTerm
  prevIdx : req.prevIdx = req.call.request.prevLogIndex
  entriesSent : req.entriesSent = req.call.request.entries.length

theorem BuiltFrom.cutFrom {s : Raft} {req : PeerReq} (h : s.BuiltFrom req) :
    CutFrom s.log req.call.request := ⟨h.prev_le, h.entries, h.prevLogTerm⟩

theorem buildRequest_eq_some {s : Raft} {id peer : NodeId} {nextIdx callId : Nat} {req : PeerReq}
    (h : s.buildRequest id peer nextIdx callId = some req) :
    s.BuiltFrom req ∧ req.call.callee = peer ∧ req.call.caller = id := by
  unfold buildRequest at h
  simp only [Option.bind_eq_bind] at h
  by_cases hz : pred64 nextIdx = 0
  · rw [if_pos hz, Option.bind_some, Option.some.injEq] at h
    subst h
    refine ⟨⟨rfl, rfl, ?_, rfl, ?_, rfl, rfl⟩, rfl, rfl⟩
    · show pred64 nextIdx ≤ _
      omega
    · intro hpos
      have hpos' : pred64 nextIdx > 0 := hpos
      omega
  · rw [if_neg hz] at h
    cases hget : s.log[pred64 nextIdx - 1]? with
    | none => rw [hget] at h; simp at h
    | some entry =>
      rw [hget, Option.map_some, Option.bind_some, Option.some.injEq] at h
      subst h
      have hlt := (List.getElem?_eq_some_iff.mp hget).1
      refine ⟨⟨rfl, rfl, ?_, rfl, fun _ => ?_, rfl, rfl⟩, rfl, rfl⟩
      · show pred64 nextIdx ≤ _
        omega
      · show (s.log[pred64 nextIdx - 1]?).map Entry.term = some entry.term
        rw [hget, Option.map_some]

/-- The loop body stays inside the log while `nextIndex_` does. -/
theorem exists_buildRequest {s : Raft} {nextIdx : Nat} (h1 : 1 ≤ nextIdx)
    (h2 : nextIdx ≤ s.log.length + 1) (id peer : NodeId) (callId : Nat) :
    ∃ req, s.buildRequest id peer nextIdx callId = some req ∧
      req.call.request.prevLogIndex = nextIdx - 1 := by
  have hpred : pred64 nextIdx = nextIdx - 1 := if_neg (by omega)
  unfold buildRequest
  simp only [hpred, Option.bind_eq_bind]
  by_cases hz : nextIdx - 1 = 0
  · rw [if_pos hz, Option.bind_some]
    exact ⟨_, rfl, rfl⟩
  · rw [if_neg hz, List.getElem?_eq_getElem (by omega), Option.map_some, Option.bind_some]
    exact ⟨_, rfl, rfl⟩

/-- Only `nextIndex_` differs. -/
theorem ensureNextIndex_eq (s : Raft) (peer : NodeId) :
    ∃ table, s.ensureNextIndex peer = { s with nextIndex := table } := by
  unfold ensureNextIndex
  split
  · exact ⟨s.nextIndex, rfl⟩
  · exact ⟨_, rfl⟩

/-- The requests are built from one state, one for each peer in turn. -/
theorem buildRequests_eq_some {id : NodeId} : ∀ {peers : List NodeId} {s s' : Raft} {callId : Nat}
    {reqs : List PeerReq}, s.buildRequests id callId peers = some (s', reqs) →
    (∃ table, s' = { s with nextIndex := table }) ∧ reqs.map (·.call.callee) = peers ∧
      ∀ req ∈ reqs, s.BuiltFrom req ∧ req.call.caller = id
  | [], s, s', callId, reqs, h => by
    simp only [buildRequests, Option.some.injEq, Prod.mk.injEq] at h
    obtain ⟨rfl, rfl⟩ := h
    exact ⟨⟨s.nextIndex, rfl⟩, rfl, by simp⟩
  | peer :: peers, s, s', callId, reqs, h => by
    obtain ⟨table, ht⟩ := ensureNextIndex_eq s peer
    rw [buildRequests] at h
    simp only [ht, Option.bind_eq_bind] at h
    cases hreq : ({ s with nextIndex := table } : Raft).buildRequest id peer
        (PeerTable.get table peer) callId with
    | none => rw [hreq] at h; simp at h
    | some req =>
      rw [hreq, Option.bind_some] at h
      cases hrest : ({ s with nextIndex := table } : Raft).buildRequests id (callId + 1) peers with
      | none => rw [hrest] at h; simp at h
      | some r =>
        rw [hrest, Option.bind_some, Option.some.injEq, Prod.mk.injEq] at h
        obtain ⟨rfl, rfl⟩ := h
        obtain ⟨⟨table', hs⟩, hpeers, hreqs⟩ := buildRequests_eq_some hrest
        obtain ⟨hb, hcallee, hcaller⟩ := buildRequest_eq_some hreq
        -- `BuiltFrom` does not look at `nextIndex_`
        have hto : ∀ {q : PeerReq}, ({ s with nextIndex := table } : Raft).BuiltFrom q →
            s.BuiltFrom q := fun hq => ⟨hq.1, hq.2, hq.3, hq.4, hq.5, hq.6, hq.7⟩
        refine ⟨⟨table', hs⟩, by rw [List.map_cons, hcallee, hpeers], ?_⟩
        intro q hq
        rcases List.mem_cons.mp hq with rfl | hq
        · exact ⟨hto hb, hcaller⟩
        · exact ⟨hto (hreqs q hq).1, (hreqs q hq).2⟩

/-! ## The results -/

/-- How many replies carry the leader's own term. -/
def confirmed (term : Nat) (results : List PeerResult) : Nat :=
  (results.filter fun result => result.reply.any fun reply => reply.term = term).length

/-- No reply is of a higher term. -/
def NoHigherTerm (s : Raft) (results : List PeerResult) : Prop :=
  ∀ result ∈ results, ∀ reply ∈ result.reply, reply.term ≤ s.currentTerm

instance (s : Raft) (results : List PeerResult) : Decidable (s.NoHigherTerm results) :=
  inferInstanceAs (Decidable (∀ result ∈ results, ∀ reply ∈ result.reply,
    reply.term ≤ s.currentTerm))

/-- The branch that gives up the leadership for want of a majority is taken. -/
def LosesMajority (s : Raft) (cfg : Config) (now : Nat) (results : List PeerResult) : Prop :=
  s.role = .leader ∧ s.NoHigherTerm results ∧
    1 + confirmed s.currentTerm results < cfg.majority ∧ s.majorityLost now = true

instance (s : Raft) (cfg : Config) (now : Nat) (results : List PeerResult) :
    Decidable (s.LosesMajority cfg now results) :=
  inferInstanceAs (Decidable (_ ∧ _ ∧ _ ∧ _))

/-- The branch that renews the lease is taken. -/
def GrantsLease (s : Raft) (cfg : Config) (results : List PeerResult) : Prop :=
  s.role = .leader ∧ s.NoHigherTerm results ∧
    cfg.majority ≤ 1 + confirmed s.currentTerm results

instance (s : Raft) (cfg : Config) (results : List PeerResult) :
    Decidable (s.GrantsLease cfg results) :=
  inferInstanceAs (Decidable (_ ∧ _ ∧ _))

/-- What the loop over the results leaves alone. -/
structure SameButTables (s s' : Raft) : Prop where
  core : s'.core = s.core
  lastMajorityAt : s'.lastMajorityAt = s.lastMajorityAt
  electionTimeout : s'.electionTimeout = s.electionTimeout
  leaseExpires : s'.leaseExpires = s.leaseExpires

theorem SameButTables.trans {s s' s'' : Raft} (h : s.SameButTables s') (h' : s'.SameButTables s'') :
    s.SameButTables s'' where
  core := h'.core.trans h.core
  lastMajorityAt := h'.lastMajorityAt.trans h.lastMajorityAt
  electionTimeout := h'.electionTimeout.trans h.electionTimeout
  leaseExpires := h'.leaseExpires.trans h.leaseExpires

theorem recordReply_same (s : Raft) (result : PeerResult) (reply : AppendEntriesReply) :
    s.SameButTables (s.recordReply result reply) := by
  unfold recordReply
  split
  · exact ⟨rfl, rfl, rfl, rfl⟩
  · dsimp only
    split <;> exact ⟨rfl, rfl, rfl, rfl⟩

/-- An entry of `matchIndex_` was there before or comes from a success in the round. -/
def Recorded (results : List PeerResult) (old new : PeerTable) : Prop :=
  ∀ p k, new.lookup p = some k → old.lookup p = some k ∨
    ∃ result ∈ results, result.peerId = p ∧ k = result.prevIdx + result.entriesSent ∧
      ∃ reply, result.reply = some reply ∧ reply.success = true

theorem Recorded.refl {results : List PeerResult} {table : PeerTable} :
    Recorded results table table := fun _ _ => Or.inl

theorem Recorded.mono {results results' : List PeerResult} {old new : PeerTable}
    (h : Recorded results old new) (hsub : results ⊆ results') : Recorded results' old new := by
  intro p k hk
  rcases h p k hk with hold | ⟨result, hmem, hrest⟩
  · exact Or.inl hold
  · exact Or.inr ⟨result, hsub hmem, hrest⟩

/-- One more result in front. -/
theorem Recorded.trans {result : PeerResult} {rest : List PeerResult} {t₁ t₂ t₃ : PeerTable}
    (h : Recorded [result] t₁ t₂) (h' : Recorded rest t₂ t₃) :
    Recorded (result :: rest) t₁ t₃ := by
  intro p k hk
  rcases h' p k hk with hk | ⟨x, hx, hrest⟩
  · exact h.mono (by simp) p k hk
  · exact Or.inr ⟨x, List.mem_cons_of_mem _ hx, hrest⟩

theorem recordReply_matchIndex (s : Raft) {result : PeerResult} {reply : AppendEntriesReply}
    (h : result.reply = some reply) :
    Recorded [result] s.matchIndex (s.recordReply result reply).matchIndex := by
  intro p k hk
  unfold recordReply at hk
  split at hk
  · next hsucc =>
    by_cases hp : p = result.peerId
    · subst hp
      rw [AList.lookup_insert, Option.some.injEq] at hk
      exact Or.inr ⟨result, by simp, rfl, hk.symm, reply, h, hsucc⟩
    · rw [AList.lookup_insert_ne hp] at hk
      exact Or.inl hk
  · dsimp only at hk
    split at hk <;> exact Or.inl hk

theorem resultsLoop_ok {timeout : ElectionTimeout} : ∀ {results : List PeerResult} {s s' : Raft}
    {c c' : Nat}, s.resultsLoop timeout c results = .ok (s', c') →
    s.SameButTables s' ∧ s.NoHigherTerm results ∧ c' = c + confirmed s.currentTerm results ∧
      Recorded results s.matchIndex s'.matchIndex
  | [], s, s', c, c', h => by
    simp only [resultsLoop, Except.ok.injEq, Prod.mk.injEq] at h
    obtain ⟨rfl, rfl⟩ := h
    exact ⟨⟨rfl, rfl, rfl, rfl⟩, by simp [NoHigherTerm], by simp [confirmed], .refl⟩
  | result :: rest, s, s', c, c', h => by
    rw [resultsLoop] at h
    cases hr : result.reply with
    | none =>
      rw [hr] at h
      obtain ⟨h1, h2, h3, h4⟩ := resultsLoop_ok h
      refine ⟨h1, ?_, ?_, h4.mono (List.subset_cons_self _ _)⟩
      · intro x hx reply hreply
        rcases List.mem_cons.mp hx with rfl | hx
        · rw [hr] at hreply; cases hreply
        · exact h2 x hx reply hreply
      · rw [h3, confirmed, confirmed, List.filter_cons_of_neg (by simp [hr])]
    | some reply =>
      rw [hr] at h
      dsimp only at h
      split at h
      · cases h
      · next hle =>
        have hsame := recordReply_same s result reply
        have hterm : (s.recordReply result reply).currentTerm = s.currentTerm :=
          congrArg Core.currentTerm hsame.core
        obtain ⟨h1, h2, h3, h4⟩ := resultsLoop_ok h
        refine ⟨hsame.trans h1, ?_, ?_, (recordReply_matchIndex s hr).trans h4⟩
        · intro x hx reply' hreply
          rcases List.mem_cons.mp hx with rfl | hx
          · rw [hr, Option.mem_some] at hreply
            subst hreply
            omega
          · rw [← hterm]
            exact h2 x hx reply' hreply
        · rw [hterm] at h3
          rw [h3]
          unfold confirmed
          rw [List.filter_cons, hr]
          by_cases heq : reply.term = s.currentTerm
          · simp [heq]; omega
          · simp [heq]

theorem resultsLoop_error {timeout : ElectionTimeout} : ∀ {results : List PeerResult} {s s' : Raft}
    {c : Nat}, s.resultsLoop timeout c results = .error s' →
    Recorded results s.matchIndex s'.matchIndex ∧ s'.leaseExpires = s.leaseExpires ∧
      ∃ result ∈ results, ∃ reply, result.reply = some reply ∧ s.currentTerm < reply.term ∧
        s'.core = { s.core with role := .follower, currentTerm := reply.term, votedFor := none }
  | [], s, s', c, h => by simp [resultsLoop] at h
  | result :: rest, s, s', c, h => by
    rw [resultsLoop] at h
    cases hr : result.reply with
    | none =>
      rw [hr] at h
      obtain ⟨hrec, hlease, x, hx, hrest⟩ := resultsLoop_error h
      exact ⟨hrec.mono (List.subset_cons_self _ _), hlease, x, List.mem_cons_of_mem _ hx, hrest⟩
    | some reply =>
      rw [hr] at h
      dsimp only at h
      split at h
      · next hgt =>
        rw [Except.error.injEq] at h
        subst h
        exact ⟨.refl, rfl, result, List.mem_cons_self, reply, hr, hgt, rfl⟩
      · have hsame := recordReply_same s result reply
        have hterm : (s.recordReply result reply).currentTerm = s.currentTerm :=
          congrArg Core.currentTerm hsame.core
        obtain ⟨hrec, hlease, x, hx, reply', hreply, hlt, hcore⟩ := resultsLoop_error h
        refine ⟨(recordReply_matchIndex s hr).trans hrec, hlease.trans hsame.leaseExpires, x,
          List.mem_cons_of_mem _ hx, reply', hreply, by omega, ?_⟩
        rw [hcore, hsame.core]

/-! ## The commit loop -/

/-- Either nothing is committed, or an entry of the current term that enough nodes hold. -/
theorem commitLoop_cases (s : Raft) (majority : Nat) : ∀ n,
    s.commitLoop majority n = s.commitIndex ∨
      ∃ c, s.commitLoop majority n = c ∧ s.commitIndex < c ∧ c ≤ n ∧
        (s.log[c - 1]?).map Entry.term = some s.currentTerm ∧ majority ≤ s.replicaCount c
  | 0 => Or.inl rfl
  | n + 1 => by
    rw [commitLoop]
    split
    · next hgt =>
      split
      · rcases commitLoop_cases s majority n with h | ⟨c, h, h1, h2, h3, h4⟩
        · exact Or.inl h
        · exact Or.inr ⟨c, h, h1, by omega, h3, h4⟩
      · next hterm =>
        split
        · next hcount =>
          exact Or.inr ⟨n + 1, rfl, hgt, Nat.le_refl _, by simpa using hterm, hcount⟩
        · rcases commitLoop_cases s majority n with h | ⟨c, h, h1, h2, h3, h4⟩
          · exact Or.inl h
          · exact Or.inr ⟨c, h, h1, by omega, h3, h4⟩
    · exact Or.inl rfl

/-! ## The second critical section -/

/-- What the second critical section does when it runs through. -/
structure RoundFinished (s : Raft) (cfg : Config) (now : Nat) (results : List PeerResult)
    (s' : Raft) (toApply : List ApplyResult) : Prop where
  leader : s.role = .leader
  noHigherTerm : s.NoHigherTerm results
  currentTerm : s'.currentTerm = s.currentTerm
  log : s'.log = s.log
  readyQueue : s'.readyQueue = s.readyQueue
  matchIndex : Recorded results s.matchIndex s'.matchIndex
  commitIndex : s'.commitIndex = s.commitIndex ∨ (s.commitIndex < s'.commitIndex ∧
    s'.commitIndex ≤ s.log.length ∧
    (s.log[s'.commitIndex - 1]?).map Entry.term = some s.currentTerm ∧
    cfg.majority ≤ s'.replicaCount s'.commitIndex)
  toApply : applyLoop s.log s.lastApplied (s'.commitIndex - s.lastApplied) = some toApply
  lastApplied : s'.lastApplied = max s.lastApplied s'.commitIndex
  lost : s.LosesMajority cfg now results → s'.role = .follower ∧ s'.votedFor = none
  kept : ¬s.LosesMajority cfg now results → s'.role = .leader ∧ s'.votedFor = s.votedFor
  lease : s'.leaseExpires =
    if s.GrantsLease cfg results then now + leaseDuration else s.leaseExpires

/-- `renewLease` touches the fields of the lease only. -/
theorem renewLease_eq_some {s s' : Raft} {now : Nat} (h : s.renewLease now = some s') :
    s'.core = s.core ∧ s'.matchIndex = s.matchIndex ∧ s'.leaseExpires = now + leaseDuration := by
  unfold renewLease at h
  dsimp only at h
  split at h
  · rw [Option.map_eq_some_iff] at h
    obtain ⟨entry, -, rfl⟩ := h
    split <;> exact ⟨rfl, rfl, rfl⟩
  · rw [Option.some.injEq] at h
    subst h
    exact ⟨rfl, rfl, rfl⟩

/-- `checkMajority` gives up the role and the vote, or does nothing. -/
theorem checkMajority_spec (s : Raft) (now : Nat) (timeout : ElectionTimeout) :
    (s.checkMajority now timeout).matchIndex = s.matchIndex ∧
    (s.checkMajority now timeout).leaseExpires = s.leaseExpires ∧
    (s.checkMajority now timeout).core =
      if s.majorityLost now then { s.core with role := .follower, votedFor := none }
      else s.core := by
  unfold checkMajority
  split <;> exact ⟨rfl, rfl, rfl⟩

/-- What `commitEntries` and the apply loop leave in the fields before the lease is looked at. -/
theorem finishRound_eq_some {s s' : Raft} {cfg : Config} {now : Nat} {timeout : ElectionTimeout}
    {confirmations : Nat} {toApply : List ApplyResult}
    (h : s.finishRound cfg now timeout confirmations = some (s', toApply)) :
    let c := s.commitLoop cfg.majority s.log.length
    let core := { s.core with commitIndex := c, lastApplied := max s.lastApplied c }
    applyLoop s.log s.lastApplied (c - s.lastApplied) = some toApply ∧
      s'.matchIndex = s.matchIndex ∧
      ((cfg.majority ≤ confirmations ∧ s'.core = core ∧ s'.leaseExpires = now + leaseDuration) ∨
        (confirmations < cfg.majority ∧ s'.leaseExpires = s.leaseExpires ∧
          s'.core = if s.majorityLost now then { core with role := .follower, votedFor := none }
            else core)) := by
  intro c core
  unfold finishRound at h
  simp only [Option.bind_eq_bind, Option.bind_eq_some_iff] at h
  obtain ⟨toApply', happly, h⟩ := h
  split at h
  · next hconf =>
    simp only [Option.bind_eq_some_iff, Option.some.injEq, Prod.mk.injEq] at h
    obtain ⟨s₁, hs₁, rfl, rfl⟩ := h
    obtain ⟨hcore, hmatch, hlease⟩ := renewLease_eq_some hs₁
    exact ⟨happly, hmatch, Or.inl ⟨hconf, hcore, hlease⟩⟩
  · next hconf =>
    simp only [Option.bind_some, Option.some.injEq, Prod.mk.injEq] at h
    obtain ⟨rfl, rfl⟩ := h
    obtain ⟨hmatch, hlease, hcore⟩ := checkMajority_spec
      { s.commitEntries cfg.majority with lastApplied := max s.lastApplied c } now timeout
    exact ⟨happly, hmatch, Or.inr ⟨by omega, hlease, hcore⟩⟩

theorem replicaCount_congr {s s' : Raft} (h : s'.matchIndex = s.matchIndex) (idx : Nat) :
    s'.replicaCount idx = s.replicaCount idx := by
  rw [replicaCount, replicaCount, h]

theorem roundFinished_of_finishRound {s₀ s s' : Raft} {cfg : Config} {now : Nat}
    {timeout : ElectionTimeout} {results : List PeerResult} {toApply : List ApplyResult}
    (hl : s₀.role = .leader) (hno : s₀.NoHigherTerm results) (hs : s₀.SameButTables s)
    (hm : Recorded results s₀.matchIndex s.matchIndex)
    (h : s.finishRound cfg now timeout (1 + confirmed s₀.currentTerm results) =
      some (s', toApply)) :
    s₀.RoundFinished cfg now results s' toApply := by
  obtain ⟨happly, hmatch, hrest⟩ := finishRound_eq_some h
  obtain ⟨hcore, hat, htimeout, hlease⟩ := hs
  obtain ⟨hrole, hterm, hvote, hlog, hci, hla, hrq⟩ := Core.mk.inj hcore
  have hlost : s.majorityLost now = s₀.majorityLost now := by
    rw [majorityLost, majorityLost, hat, htimeout]
  have hcommit := commitLoop_cases s cfg.majority s.log.length
  -- in both branches everything but the role, the vote and the lease is the same
  have hfields : s'.currentTerm = s.currentTerm ∧ s'.log = s.log ∧
      s'.commitIndex = s.commitLoop cfg.majority s.log.length ∧
      s'.lastApplied = max s.lastApplied s'.commitIndex ∧ s'.readyQueue = s.readyQueue := by
    rcases hrest with ⟨-, hc, -⟩ | ⟨-, -, hc⟩
    · obtain ⟨-, h2, -, h4, h5, h6, h7⟩ := Core.mk.inj hc
      exact ⟨h2, h4, h5, h6.trans (by rw [h5]), h7⟩
    · split at hc <;>
      · obtain ⟨-, h2, -, h4, h5, h6, h7⟩ := Core.mk.inj hc
        exact ⟨h2, h4, h5, h6.trans (by rw [h5]), h7⟩
  obtain ⟨hterm', hlog', hci', hla', hrq'⟩ := hfields
  refine ⟨hl, hno, hterm'.trans hterm, hlog'.trans hlog, hrq'.trans hrq, hmatch ▸ hm, ?_, ?_,
    hla'.trans (by rw [hla]), ?_, ?_, ?_⟩
  · rw [hci', replicaCount_congr hmatch, ← hci, ← hlog, ← hterm]
    rcases hcommit with hc | ⟨c, hc, h1, h2, h3, h4⟩
    · exact Or.inl hc
    · rw [hc]
      exact Or.inr ⟨h1, h2, h3, h4⟩
  · rw [hci', ← hlog, ← hla]
    exact happly
  · rintro ⟨-, -, hfew, hgone⟩
    rcases hrest with ⟨hmaj, -, -⟩ | ⟨-, -, hc⟩
    · omega
    · rw [hlost, if_pos hgone] at hc
      exact ⟨congrArg Core.role hc, congrArg Core.votedFor hc⟩
  · intro hnot
    have hl' := hrole.trans hl
    rcases hrest with ⟨-, hc, -⟩ | ⟨hfew, -, hc⟩
    · exact ⟨(congrArg Core.role hc).trans hl', (congrArg Core.votedFor hc).trans hvote⟩
    · rw [hlost, if_neg fun hgone => hnot ⟨hl, hno, hfew, hgone⟩] at hc
      exact ⟨(congrArg Core.role hc).trans hl', (congrArg Core.votedFor hc).trans hvote⟩
  · rcases hrest with ⟨hmaj, -, he⟩ | ⟨hfew, he, -⟩
    · rw [if_pos ⟨hl, hno, hmaj⟩, he]
    · rw [if_neg fun hg => Nat.not_le.mpr hfew hg.2.2, he, hlease]

/-- **The second critical section**: not a leader, a higher term, or the round is finished. -/
theorem processResults_cases {s s' : Raft} {cfg : Config} {now : Nat} {timeout : ElectionTimeout}
    {results : List PeerResult} {toApply : List ApplyResult}
    (h : s.processResults cfg now timeout results = some (s', toApply)) :
    (s.role ≠ .leader ∧ s' = s ∧ toApply = []) ∨
    (s.role = .leader ∧ toApply = [] ∧ Recorded results s.matchIndex s'.matchIndex ∧
      s'.leaseExpires = s.leaseExpires ∧
      ∃ result ∈ results, ∃ reply, result.reply = some reply ∧ s.currentTerm < reply.term ∧
        s'.core = { s.core with role := .follower, currentTerm := reply.term, votedFor := none }) ∨
    s.RoundFinished cfg now results s' toApply := by
  unfold processResults at h
  split at h
  · next hl =>
    refine Or.inr ?_
    split at h
    · next s₁ hs₁ =>
      simp only [Option.some.injEq, Prod.mk.injEq] at h
      obtain ⟨rfl, rfl⟩ := h
      exact Or.inl ⟨hl, rfl, resultsLoop_error hs₁⟩
    · next s₁ c hs₁ =>
      obtain ⟨hsame, hno, rfl, hm⟩ := resultsLoop_ok hs₁
      exact Or.inr (roundFinished_of_finishRound hl hno hsame hm h)
  · next hl =>
    simp only [Option.some.injEq, Prod.mk.injEq] at h
    exact Or.inl ⟨hl, h.1.symm, h.2.symm⟩

/-! ## The lease flags -/

/-- The commit index is that of an entry of the current term. -/
def CommitsInTerm (s : Raft) : Prop :=
  0 < s.commitIndex ∧ (s.log[s.commitIndex - 1]?).map Entry.term = some s.currentTerm

instance (s : Raft) : Decidable s.CommitsInTerm := inferInstanceAs (Decidable (_ ∧ _))

theorem recordReply_flags (s : Raft) (result : PeerResult) (reply : AppendEntriesReply) :
    (s.recordReply result reply).isLeaderAtomic = s.isLeaderAtomic ∧
      (s.recordReply result reply).lastTermCommitIdx = s.lastTermCommitIdx := by
  unfold recordReply
  split
  · exact ⟨rfl, rfl⟩
  · dsimp only
    split <;> exact ⟨rfl, rfl⟩

theorem resultsLoop_ok_flags {timeout : ElectionTimeout} : ∀ {results : List PeerResult}
    {s s' : Raft} {c c' : Nat}, s.resultsLoop timeout c results = .ok (s', c') →
    s'.isLeaderAtomic = s.isLeaderAtomic ∧ s'.lastTermCommitIdx = s.lastTermCommitIdx
  | [], s, s', c, c', h => by
    simp only [resultsLoop, Except.ok.injEq, Prod.mk.injEq] at h
    exact h.1 ▸ ⟨rfl, rfl⟩
  | result :: rest, s, s', c, c', h => by
    rw [resultsLoop] at h
    split at h
    · exact resultsLoop_ok_flags h
    · next reply _ =>
      split at h
      · cases h
      · obtain ⟨h1, h2⟩ := resultsLoop_ok_flags h
        obtain ⟨h3, h4⟩ := recordReply_flags s result reply
        exact ⟨h1.trans h3, h2.trans h4⟩

theorem resultsLoop_error_flags {timeout : ElectionTimeout} : ∀ {results : List PeerResult}
    {s s' : Raft} {c : Nat}, s.resultsLoop timeout c results = .error s' →
    s'.isLeaderAtomic = false ∧ s'.lastTermCommitIdx = s.lastTermCommitIdx
  | [], s, s', c, h => by simp [resultsLoop] at h
  | result :: rest, s, s', c, h => by
    rw [resultsLoop] at h
    split at h
    · exact resultsLoop_error_flags h
    · next reply _ =>
      split at h
      · rw [Except.error.injEq] at h
        exact h ▸ ⟨rfl, rfl⟩
      · obtain ⟨h1, h2⟩ := resultsLoop_error_flags h
        exact ⟨h1, h2.trans (recordReply_flags s result reply).2⟩

/-- A renewed lease comes with the commit index, if that is of the current term. -/
theorem renewLease_flags {s s' : Raft} {now : Nat} (h : s.renewLease now = some s') :
    s'.isLeaderAtomic = s.isLeaderAtomic ∧
      s'.lastTermCommitIdx = if s'.CommitsInTerm then s'.commitIndex else s.lastTermCommitIdx := by
  unfold renewLease at h
  dsimp only at h
  split at h
  · next hpos =>
    obtain ⟨entry, hentry, rfl⟩ := Option.map_eq_some_iff.mp h
    split
    · next hterm => exact ⟨rfl, (if_pos ⟨hpos, by rw [hentry, Option.map_some, hterm]⟩).symm⟩
    · next hterm =>
      refine ⟨rfl, (if_neg fun hcommits => hterm ?_).symm⟩
      have hsame := hcommits.2
      dsimp only at hsame
      rw [hentry, Option.map_some, Option.some.injEq] at hsame
      exact hsame
  · next hzero =>
    rw [Option.some.injEq] at h
    exact h ▸ ⟨rfl, (if_neg fun hcommits => hzero hcommits.1).symm⟩

/--
**The lease flags after the second critical section.** `is_leader_atomic_` goes with the role. If a
majority answered, the lease is renewed, and `last_term_commit_idx_` moves to the commit index if
that is of the current term. Otherwise both stay.
-/
theorem processResults_flags {s s' : Raft} {cfg : Config} {now : Nat} {timeout : ElectionTimeout}
    {results : List PeerResult} {toApply : List ApplyResult}
    (h : s.processResults cfg now timeout results = some (s', toApply)) :
    (s'.isLeaderAtomic = true → s.isLeaderAtomic = true ∧ s'.role = s.role) ∧
    if s.GrantsLease cfg results then
      s'.isLeaderAtomic = s.isLeaderAtomic ∧
        s'.lastTermCommitIdx = if s'.CommitsInTerm then s'.commitIndex else s.lastTermCommitIdx
    else s'.lastTermCommitIdx = s.lastTermCommitIdx := by
  unfold processResults at h
  split at h
  · next hl =>
    split at h
    · next s₁ hs₁ =>
      simp only [Option.some.injEq, Prod.mk.injEq] at h
      obtain ⟨rfl, -⟩ := h
      obtain ⟨h1, h2⟩ := resultsLoop_error_flags hs₁
      obtain ⟨-, -, result, hmem, reply, hreply, hlt, -⟩ := resultsLoop_error hs₁
      refine ⟨fun hf => absurd (h1.symm.trans hf) (by simp), ?_⟩
      rw [if_neg fun hg => Nat.not_le.mpr hlt (hg.2.1 result hmem reply hreply)]
      exact h2
    · next s₁ c hs₁ =>
      obtain ⟨h1, h2⟩ := resultsLoop_ok_flags hs₁
      obtain ⟨hsame, hno, rfl, -⟩ := resultsLoop_ok hs₁
      have hrole : s₁.role = s.role := congrArg Core.role hsame.core
      unfold finishRound at h
      simp only [Option.bind_eq_bind, Option.bind_eq_some_iff] at h
      obtain ⟨toApply', -, h⟩ := h
      split at h
      · next hmaj =>
        simp only [Option.bind_eq_some_iff, Option.some.injEq, Prod.mk.injEq] at h
        obtain ⟨s₂, hs₂, rfl, -⟩ := h
        obtain ⟨hcore, -, -⟩ := renewLease_eq_some hs₂
        obtain ⟨h3, h4⟩ := renewLease_flags hs₂
        refine ⟨fun hf => ⟨h1.symm.trans (h3.symm.trans hf), ?_⟩, ?_⟩
        · exact (congrArg Core.role hcore).trans hrole
        rw [if_pos ⟨hl, hno, hmaj⟩, ← h1, ← h2]
        exact ⟨h3, h4⟩
      · next hfew =>
        simp only [Option.bind_some, Option.some.injEq, Prod.mk.injEq] at h
        obtain ⟨rfl, -⟩ := h
        rw [if_neg fun hg => hfew hg.2.2]
        unfold checkMajority resetElectionTimer
        split
        · exact ⟨fun hf => absurd hf (by simp), h2⟩
        · exact ⟨fun hf => ⟨h1.symm.trans hf, hrole⟩, h2⟩
  · next hl =>
    simp only [Option.some.injEq, Prod.mk.injEq] at h
    rw [if_neg fun hg => hl hg.1]
    exact h.1 ▸ ⟨fun hf => ⟨hf, rfl⟩, rfl⟩

/-- The commit loop does not leave the log. -/
theorem commitLoop_le {s : Raft} (h : s.commitIndex ≤ s.log.length) (majority : Nat) :
    s.commitLoop majority s.log.length ≤ s.log.length := by
  rcases commitLoop_cases s majority s.log.length with hc | ⟨c, hc, -, hle, -, -⟩ <;> omega

theorem renewLease_isSome {s : Raft} (h : s.commitIndex ≤ s.log.length) (now : Nat) :
    (s.renewLease now).isSome = true := by
  unfold renewLease
  dsimp only
  split
  · next hpos => simp [List.getElem?_eq_getElem (show s.commitIndex - 1 < s.log.length by omega)]
  · rfl

/-- **The second critical section stays inside the log**, whatever the peers replied. -/
theorem processResults_isSome {s : Raft} (h : s.commitIndex ≤ s.log.length) (cfg : Config)
    (now : Nat) (timeout : ElectionTimeout) (results : List PeerResult) :
    (s.processResults cfg now timeout results).isSome = true := by
  unfold processResults
  split
  · split
    · rfl
    · next s₁ confirmations hok =>
      obtain ⟨-, -, -, hlog, hci, -, -⟩ := Core.mk.inj (resultsLoop_ok hok).1.core
      rw [← hlog, ← hci] at h
      have hle := commitLoop_le h cfg.majority
      have happly : (applyLoop s₁.log s₁.lastApplied
          (s₁.commitLoop cfg.majority s₁.log.length - s₁.lastApplied)).isSome = true :=
        applyLoop_isSome_iff.mpr (by omega)
      obtain ⟨toApply, hApply⟩ := Option.isSome_iff_exists.mp happly
      unfold finishRound
      dsimp only [commitEntries]
      rw [hApply, Option.bind_eq_bind, Option.bind_some]
      split
      · rw [Option.bind_eq_bind, Option.isSome_bind, Option.any_eq_true]
        exact (Option.isSome_iff_exists.mp (renewLease_isSome hle now)).imp fun _ hr => ⟨hr, rfl⟩
      · rfl
  · rfl

end Raft

end Rafty
