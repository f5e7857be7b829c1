import Rafty.Cluster
import Rafty.Pair
import Rafty.Properties.Heartbeat

/-!
# How the log of a leader gets to a follower

`handle_append_entries` clamps the leader's commit index by the length of the follower's log, and
cuts the log in the middle of its entry loop. Both are safe for one reason: `send_heartbeats` always
ships everything after `prevLogIndex`, so that on a log that matches the leader's a success splices
the leader's whole log in.

* `follower_commits_verified` — a success commits nothing the request did not verify.
* `acked_entries_stay` — requests of one term, however old, cut nothing that was acknowledged.
* `repair_converges` — a follower is repaired after at most `nextIndex_` rounds.

The last two ask for logs that match as far as the leader's gets. That they match at first does not
say so if a term can have two leaders: `acked_entry_differs`, `repair_keeps_other_entry`.
-/

namespace Rafty

open Infra Replication

/-! ## One request -/

/-- After a success the leader's log begins the follower's. -/
theorem isPrefix_of_success {lead : List Entry} {request : AppendEntriesRequest}
    {follower follower' : Raft} {timeout : ElectionTimeout} {reply : AppendEntriesReply}
    (hcut : CutFrom lead request) (hm : Matching follower.log lead)
    (h : follower.handleAppendEntries request timeout = some (follower', reply))
    (hs : reply.success = true) : lead <+: follower'.log := by
  obtain ⟨results, hst⟩ := Raft.stored_of_success h hs
  rw [hst.log_eq_splice hcut hm]
  exact isPrefix_splice _ _

/-- The clamp of the handler is a maximum at most. -/
theorem Raft.Stored.commitIndex_le {s s' : Raft} {request : AppendEntriesRequest}
    {results : List ApplyResult} (h : s.Stored request s' results) :
    s'.commitIndex ≤ max s.commitIndex request.leaderCommit := by
  rw [h.commitIndex]
  unfold Raft.followerCommit
  split <;> omega

/--
**The follower never commits past what the request verified.** A success on the request that
`send_heartbeats` builds for `peer` makes the logs agree up to the last entry sent, and commits
nothing beyond it.
-/
theorem follower_commits_verified {lead : Raft} {peer : NodeId}
    (hc : lead.commitIndex ≤ lead.log.length) (h1 : 1 ≤ PeerTable.get lead.nextIndex peer)
    (h2 : PeerTable.get lead.nextIndex peer ≤ lead.log.length + 1) (id : NodeId) (callId : Nat) :
    ∃ req, lead.buildRequest id peer (PeerTable.get lead.nextIndex peer) callId = some req ∧
      ∀ {follower follower' : Raft} {timeout : ElectionTimeout} {reply : AppendEntriesReply},
        Matching follower.log lead.log →
        follower.handleAppendEntries req.call.request timeout = some (follower', reply) →
        reply.success = true →
        let upTo := req.call.request.prevLogIndex + req.call.request.entries.length
        upTo ≤ lead.log.length ∧ follower'.log.take upTo = lead.log.take upTo ∧
          follower'.commitIndex ≤ max follower.commitIndex upTo := by
  obtain ⟨req, hreq, -⟩ := Raft.exists_buildRequest h1 h2 id peer callId
  refine ⟨req, hreq, ?_⟩
  intro follower follower' timeout reply hm h hs
  obtain ⟨hbuilt, -, -⟩ := Raft.buildRequest_eq_some hreq
  have hp := isPrefix_of_success hbuilt.cutFrom hm h hs
  obtain ⟨results, hst⟩ := Raft.stored_of_success h hs
  have hle := hst.commitIndex_le
  rw [hbuilt.leaderCommit] at hle
  simp only [hbuilt.cutFrom.upTo_eq_length, List.take_length]
  exact ⟨Nat.le_refl _, (List.prefix_iff_eq_take.mp hp).symm, by omega⟩

/-- A leader of term 3 that has committed its first entry and sends from index 2 on. -/
def repairLeader : Raft :=
  { Raft.init shortTimeout with
    role := .leader
    currentTerm := 3
    log := [⟨1, [97]⟩, ⟨3, [98]⟩]
    commitIndex := 1
    nextIndex := AList.insert 1 2 ∅ }

/-- A follower that went on with an old leader: it has two entries of term 2 in the way. -/
def divergedFollower : Raft :=
  { Raft.init shortTimeout with
    currentTerm := 2
    log := [⟨1, [97]⟩, ⟨2, [120]⟩, ⟨2, [121]⟩] }

/-- The logs match, and still do when the leader takes a proposal. -/
theorem matching_grown :
    Matching divergedFollower.log (repairLeader.log ++ [⟨3, [99]⟩]) := by
  intro i e e' he he' hterm
  rcases i with _ | _ | _ | i
  · rfl
  · cases he
    cases he'
    cases hterm
  · cases he
    cases he'
    cases hterm
  · cases he

theorem follower_commits_verified_diverged : ∃ req follower' reply,
    repairLeader.buildRequest 0 1 2 0 = some req ∧
    divergedFollower.handleAppendEntries req.call.request shortTimeout =
      some (follower', reply) ∧ reply.success = true ∧
    follower'.log.take 2 = repairLeader.log.take 2 ∧ follower'.commitIndex ≤ max 0 2 := by
  obtain ⟨req, hreq, hall⟩ := follower_commits_verified
    (show repairLeader.commitIndex ≤ repairLeader.log.length by decide)
    (show 1 ≤ PeerTable.get repairLeader.nextIndex 1 by decide) (by decide) 0 0
  have hrun : (repairLeader.buildRequest 0 1 2 0).any (fun req =>
      req.call.request.prevLogIndex + req.call.request.entries.length = 2 ∧
      (divergedFollower.handleAppendEntries req.call.request shortTimeout).any
        fun r => r.2.success) = true := by decide
  rw [show repairLeader.buildRequest 0 1 2 0 = some req from hreq, Option.any_some,
    decide_eq_true_eq, Option.any_eq_true] at hrun
  obtain ⟨hupTo, ⟨follower', reply⟩, hf, hs⟩ := hrun
  obtain ⟨-, hlog, hcommit⟩ := hall (matching_grown.of_isPrefix (List.prefix_append _ _)) hf hs
  rw [hupTo] at hlog hcommit
  exact ⟨req, follower', reply, hreq, hf, hs, hlog, hcommit⟩

/-! ## Requests of one term, in any order -/

theorem isPrefix_propose (s : Raft) (data : Bytes) : s.log <+: (s.propose data).1.log := by
  rcases s.propose_cases data with ⟨-, h, -, -⟩ | ⟨-, h, -⟩
  · exact h.symm ▸ List.prefix_append _ _
  · exact h.symm ▸ List.prefix_rfl

namespace Pair

/--
What holds between the leader, its requests and the follower, whose log was `start` at first. Each
request is the end of what the leader's log was once; the follower has its first log, or an initial
part of the leader's; what it acknowledged is in both logs.
-/
structure Inv (start : List Entry) (es : List PairEvent) (s : Pair) : Prop where
  sent : ∀ request ∈ s.sent, ∃ lead, lead <+: s.leader.log ∧ CutFrom lead request
  follower : s.follower.log = start ∨ s.follower.log <+: s.leader.log
  acked : ∀ m, .acked m ∈ es → m ≤ s.leader.log.length ∧ s.leader.log.take m <+: s.follower.log

variable {id peer : NodeId} {start : List Entry} {es : List PairEvent} {s : Pair}

/-- The leader's log may grow. -/
theorem Inv.grow (h : s.Inv start es) {leader : Raft} (hp : s.leader.log <+: leader.log) :
    Pair.Inv start es { s with leader := leader } where
  sent request hmem := by
    obtain ⟨lead, hlead, hcut⟩ := h.sent request hmem
    exact ⟨lead, hlead.trans hp, hcut⟩
  follower := h.follower.imp id fun hf => hf.trans hp
  acked m hm := by
    obtain ⟨hle, hpre⟩ := h.acked m hm
    obtain ⟨rest, hrest⟩ := hp
    refine ⟨?_, ?_⟩ <;> rw [← hrest]
    · rw [List.length_append]
      omega
    · rwa [List.take_append_of_le_length hle]

/-- A delivery that succeeds puts the log its request was cut from in front of the follower's. -/
theorem Inv.deliver (h : s.Inv start es) (hm : Matching start s.leader.log)
    {request : AppendEntriesRequest} (hmem : request ∈ s.sent) {follower : Raft}
    {timeout : ElectionTimeout} {reply : AppendEntriesReply}
    (hf : s.follower.handleAppendEntries request timeout = some (follower, reply))
    (hs : reply.success = true) :
    Pair.Inv start (es ++ [.acked (request.prevLogIndex + request.entries.length)])
      { s with follower := follower } := by
  obtain ⟨lead, hlead, hcut⟩ := h.sent request hmem
  have hown : Matching s.follower.log lead := by
    rcases h.follower with he | hp
    · exact he ▸ hm.of_isPrefix hlead
    · exact (matching_of_isPrefix hp).of_isPrefix hlead
  obtain ⟨results, hst⟩ := Raft.stored_of_success hf hs
  have hsplice := hst.log_eq_splice hcut hown
  refine ⟨h.sent, ?_, ?_⟩
  · show follower.log = start ∨ follower.log <+: s.leader.log
    rcases splice_cases s.follower.log lead with ⟨-, he⟩ | ⟨-, he⟩
    · rw [hsplice, he]
      exact h.follower
    · rw [hsplice, he]
      exact Or.inr hlead
  · intro m hmem
    show m ≤ s.leader.log.length ∧ s.leader.log.take m <+: follower.log
    rw [hsplice]
    rcases List.mem_append.mp hmem with hmem | hmem
    · -- acknowledged before: a part of the leader's log, so comparable with what was sent
      obtain ⟨hle, hpre⟩ := h.acked m hmem
      exact ⟨hle, splice_keeps hpre
        (List.prefix_or_prefix_of_prefix (List.take_prefix _ _) hlead)⟩
    · -- acknowledged right now
      rw [List.mem_singleton, PairEvent.acked.injEq, hcut.upTo_eq_length] at hmem
      rw [hmem, ← List.prefix_iff_eq_take.mp hlead]
      exact ⟨hlead.length_le, isPrefix_splice _ _⟩

/-- **One step**, as long as the follower's first log matches the leader's log after it. -/
theorem Inv.step (h : s.Inv start es) {i : PairAction} {s' : Pair} {new : List PairEvent}
    (hs : s.step id peer i = some (s', new)) (hm : Matching start s'.leader.log) :
    s'.Inv start (es ++ new) := by
  cases i with
  | propose data =>
    simp only [Pair.step, Option.some.injEq, Prod.mk.injEq] at hs
    obtain ⟨rfl, rfl⟩ := hs
    rw [List.append_nil]
    exact h.grow (isPrefix_propose _ _)
  | commit index =>
    simp only [Pair.step, Option.some.injEq, Prod.mk.injEq] at hs
    obtain ⟨rfl, rfl⟩ := hs
    rw [List.append_nil]
    exact h.grow List.prefix_rfl
  | build nextIdx =>
    simp only [Pair.step] at hs
    split at hs
    · obtain ⟨req, hreq, he⟩ := Option.map_eq_some_iff.mp hs
      rw [Prod.mk.injEq] at he
      obtain ⟨rfl, rfl⟩ := he
      rw [List.append_nil]
      refine ⟨?_, h.follower, h.acked⟩
      intro request hmem
      rcases List.mem_append.mp hmem with hmem | hmem
      · exact h.sent request hmem
      · rw [List.mem_singleton] at hmem
        subst hmem
        exact ⟨_, List.prefix_rfl, (Raft.buildRequest_eq_some hreq).1.cutFrom⟩
    · cases hs
  | deliver k timeout =>
    simp only [Pair.step, Option.bind_eq_bind, Option.bind_eq_some_iff, Option.some.injEq] at hs
    obtain ⟨request, hk, ⟨follower, reply⟩, hf, he⟩ := hs
    rw [Prod.mk.injEq] at he
    obtain ⟨rfl, rfl⟩ := he
    cases hr : reply.success with
    | true => exact h.deliver hm (List.mem_of_getElem? hk) hf hr
    | false =>
      have hlog := Raft.log_of_refused hf hr
      rw [if_neg (by simp), List.append_nil]
      refine ⟨h.sent, ?_, ?_⟩
      · show follower.log = start ∨ follower.log <+: s.leader.log
        rw [hlog]
        exact h.follower
      · intro m hmem
        show m ≤ s.leader.log.length ∧ s.leader.log.take m <+: follower.log
        rw [hlog]
        exact h.acked m hmem

/-- Within the term the leader's log only grows. -/
theorem isPrefix_leader_log {i : PairAction} {s' : Pair} {new : List PairEvent}
    (hs : s.step id peer i = some (s', new)) : s.leader.log <+: s'.leader.log := by
  cases i with
  | propose data =>
    simp only [Pair.step, Option.some.injEq, Prod.mk.injEq] at hs
    obtain ⟨rfl, -⟩ := hs
    exact isPrefix_propose _ _
  | commit index =>
    simp only [Pair.step, Option.some.injEq, Prod.mk.injEq] at hs
    obtain ⟨rfl, -⟩ := hs
    exact List.prefix_rfl
  | build nextIdx =>
    simp only [Pair.step] at hs
    split at hs
    · obtain ⟨req, -, he⟩ := Option.map_eq_some_iff.mp hs
      rw [Prod.mk.injEq] at he
      exact he.1 ▸ List.prefix_rfl
    · cases hs
  | deliver k timeout =>
    simp only [Pair.step, Option.bind_eq_bind, Option.bind_eq_some_iff, Option.some.injEq] at hs
    obtain ⟨request, -, ⟨follower, reply⟩, -, he⟩ := hs
    rw [Prod.mk.injEq] at he
    exact he.1 ▸ List.prefix_rfl

theorem inv_of_run {leader follower : Raft} {ts : List (Transition Pair PairAction PairEvent)}
    (h : (pairSystem id peer leader follower).Run ts s)
    (hm : Matching follower.log s.leader.log) : s.Inv follower.log (events ts) := by
  induction h with
  | init hi =>
    subst hi
    exact ⟨by simp, Or.inl rfl, by simp⟩
  | @step ts s s' i es _ hs ih =>
    rw [events_append, events_singleton]
    exact (ih (hm.of_isPrefix (isPrefix_leader_log hs))).step hs hm

end Pair

/--
**Acknowledged entries stay.** Within a term of the leader, for a follower whose first log matches
the leader's: whatever was delivered, and whatever is delivered again, the entries the follower has
acknowledged are still the leader's.
-/
theorem acked_entries_stay {id peer : NodeId} {leader follower : Raft} {s : Pair}
    {ts : List (Transition Pair PairAction PairEvent)}
    (h : (pairSystem id peer leader follower).Run ts s)
    (hm : Matching follower.log s.leader.log) {m : Nat} (hacked : .acked m ∈ events ts) :
    m ≤ s.leader.log.length ∧ s.follower.log.take m = s.leader.log.take m := by
  obtain ⟨hle, hp⟩ := (Pair.inv_of_run h hm).acked m hacked
  refine ⟨hle, ?_⟩
  have := List.prefix_iff_eq_take.mp hp
  rwa [List.length_take, Nat.min_eq_left hle, eq_comm] at this

/--
The leader's last entry reaches the follower, a further one is proposed and reaches it with the
whole log; then both requests, the older one last, come again.
-/
def redelivery : List PairAction :=
  [.build 2, .deliver 0 shortTimeout, .propose [99], .commit 2, .build 1, .deliver 1 shortTimeout,
    .deliver 1 shortTimeout, .deliver 0 shortTimeout]

theorem acked_entries_stay_redelivery : ∃ ts s,
    (pairSystem 0 1 repairLeader divergedFollower).Run ts s ∧
    ts.map Transition.input = redelivery ∧ .acked 3 ∈ events ts ∧
    s.follower.log.take 3 = s.leader.log.take 3 := by
  have hinit : (pairSystem 0 1 repairLeader divergedFollower).init
    ⟨repairLeader, [], divergedFollower⟩ := rfl
  obtain ⟨ts, s, hr, hi, hacked, hlog⟩ := System.exists_run_of_exec _ redelivery
    (fun ts s => .acked 3 ∈ events ts ∧ s.leader.log = repairLeader.log ++ [⟨3, [99]⟩]) hinit
    (by decide +kernel)
  have hm : Matching divergedFollower.log s.leader.log := hlog ▸ matching_grown
  exact ⟨ts, s, hr, hi, hacked, (acked_entries_stay hr hm hacked).2⟩

/-- A leader of term 3 that has made no entry of that term yet. -/
def secondLeader : Raft :=
  { Raft.init shortTimeout with
    role := .leader
    currentTerm := 3
    log := [⟨1, [97]⟩]
    nextIndex := AList.insert 1 2 ∅ }

/-- A follower with an entry of the leader's own term, which another leader of term 3 has made. -/
def firstFollower : Raft :=
  { Raft.init shortTimeout with
    currentTerm := 3
    log := [⟨1, [97]⟩, ⟨3, [120]⟩] }

/-- Where both logs have an entry they agree. -/
theorem matching_firstFollower : Matching firstFollower.log secondLeader.log := by
  intro i e e' he he' hterm
  rcases i with _ | _ | i
  · rfl
  · cases he'
  · cases he

/--
It is not enough that the logs match at first. The entry that the leader proposes has the index and
the term of the follower's second one, so the handler takes the two for the same.
-/
theorem acked_entry_differs : ∃ ts s, (pairSystem 0 1 secondLeader firstFollower).Run ts s ∧
    ts.map Transition.input = [.propose [121], .build 2, .deliver 0 shortTimeout] ∧
    Matching firstFollower.log secondLeader.log ∧ .acked 2 ∈ events ts ∧
    s.follower.currentTerm = s.leader.currentTerm ∧
    s.follower.log.take 2 ≠ s.leader.log.take 2 := by
  have hinit : (pairSystem 0 1 secondLeader firstFollower).init
    ⟨secondLeader, [], firstFollower⟩ := rfl
  obtain ⟨ts, s, hr, hi, hacked, hterm, hlog⟩ := System.exists_run_of_exec _
    [.propose [121], .build 2, .deliver 0 shortTimeout]
    (fun ts s => .acked 2 ∈ events ts ∧ s.follower.currentTerm = s.leader.currentTerm ∧
      s.follower.log.take 2 ≠ s.leader.log.take 2) hinit (by decide +kernel)
  exact ⟨ts, s, hr, hi, matching_firstFollower, hacked, hterm, hlog⟩

/-! ## Round after round -/

@[simp] theorem PeerTable.get_insert (table : PeerTable) (peer : NodeId) (k : Nat) :
    PeerTable.get (table.insert peer k) peer = k := by
  simp [PeerTable.get]

/-- A positive index is not the zero of a missing key. -/
theorem PeerTable.lookup_isSome {table : PeerTable} {peer : NodeId}
    (h : 1 ≤ PeerTable.get table peer) : (table.lookup peer).isSome = true := by
  unfold PeerTable.get at h
  cases hl : table.lookup peer with
  | none =>
    rw [hl, Option.getD_none] at h
    omega
  | some k => rfl

theorem proposeAll_spec : ∀ (batch : List Bytes) (s : Raft),
    s.log <+: (s.proposeAll batch).log ∧ (s.proposeAll batch).nextIndex = s.nextIndex ∧
      (s.proposeAll batch).currentTerm = s.currentTerm
  | [], s => ⟨List.prefix_rfl, rfl, rfl⟩
  | data :: batch, s => by
    obtain ⟨h1, h2, h3⟩ := proposeAll_spec batch (s.propose data).1
    have hstep : (s.propose data).1.nextIndex = s.nextIndex ∧
        (s.propose data).1.currentTerm = s.currentTerm := by
      rcases s.propose_cases data with ⟨-, h, -, -⟩ | ⟨-, h, -⟩ <;> rw [h] <;> exact ⟨rfl, rfl⟩
    exact ⟨(isPrefix_propose s data).trans h1, h2.trans hstep.1, h3.trans hstep.2⟩

/--
A leader whose `nextIndex_` for `peer` is `n`, and that peer. `commit_index_ ≤ last_applied_` holds
in every reachable state, since each block that moves the first moves the second.
-/
structure Repairing (peer : NodeId) (n : Nat) (leader follower : Raft) : Prop where
  nextIndex : PeerTable.get leader.nextIndex peer = n
  pos : 1 ≤ n
  le : n ≤ leader.log.length + 1
  term : follower.currentTerm ≤ leader.currentTerm
  commit_le : follower.commitIndex ≤ follower.lastApplied

theorem Repairing.proposeAll {peer : NodeId} {n : Nat} {leader follower : Raft}
    (h : Repairing peer n leader follower) (batch : List Bytes) :
    Repairing peer n (leader.proposeAll batch) follower := by
  obtain ⟨hlog, hnext, hterm⟩ := proposeAll_spec batch leader
  have := hlog.length_le
  have := h.le
  exact ⟨hnext ▸ h.nextIndex, h.pos, by omega, hterm ▸ h.term, h.commit_le⟩

/-- What an answered request leaves at the follower. -/
theorem follower_after {follower follower' : Raft} {request : AppendEntriesRequest}
    {timeout : ElectionTimeout} {reply : AppendEntriesReply}
    (hle : follower.currentTerm ≤ request.term)
    (hc : follower.commitIndex ≤ follower.lastApplied)
    (h : follower.handleAppendEntries request timeout = some (follower', reply)) :
    reply.term = request.term ∧ follower'.currentTerm = request.term ∧
      follower'.commitIndex ≤ follower'.lastApplied := by
  rcases Raft.handleAppendEntries_cases h with
    ⟨hlt, -, -⟩ | ⟨-, -, hcore, rfl⟩ | ⟨results, hst, rfl⟩
  · omega
  · obtain ⟨-, hterm, -, -, hci, hla, -⟩ := Core.mk.inj hcore
    exact ⟨rfl, hterm, by rw [hci, hla]; exact hc⟩
  · obtain ⟨-, hterm, -, -, -, hla, -⟩ := Core.mk.inj hst.core
    exact ⟨rfl, hterm, by rw [hla]; exact le_max_right _ _⟩

/-- The round goes through: a request is built, handled, and its reply recorded. -/
theorem Repairing.repairRound_eq {peer : NodeId} {n : Nat} {leader follower : Raft}
    (h : Repairing peer n leader follower) (id : NodeId) (timeout : ElectionTimeout) :
    ∃ req follower' reply, leader.buildRequest id peer n 0 = some req ∧
      follower.handleAppendEntries req.call.request timeout = some (follower', reply) ∧
      repairRound id peer timeout leader follower =
        some (leader.recordReply ⟨peer, req.prevIdx, req.entriesSent, some reply⟩ reply,
          follower', reply) := by
  obtain ⟨req, hreq, -⟩ := Raft.exists_buildRequest h.pos h.le id peer 0
  obtain ⟨⟨follower', reply⟩, hf⟩ := Option.isSome_iff_exists.mp
    (Raft.handleAppendEntries_isSome h.commit_le req.call.request timeout)
  obtain ⟨hbuilt, hcallee, -⟩ := Raft.buildRequest_eq_some hreq
  have hterm := (follower_after (hbuilt.term ▸ h.term) h.commit_le hf).1
  refine ⟨req, follower', reply, hreq, hf, ?_⟩
  have hsome : (leader.nextIndex.lookup peer).isSome = true :=
    PeerTable.lookup_isSome (h.nextIndex ▸ h.pos)
  have hbuild : leader.buildRequests id 0 [peer] = some (leader, [req]) := by
    simp [Raft.buildRequests, Raft.ensureNextIndex, hsome, h.nextIndex, hreq]
  have hnot : ¬reply.term > leader.currentTerm := by
    rw [hterm, hbuilt.term]
    exact Nat.lt_irrefl _
  simp [repairRound, hbuild, hf, peerResults, Raft.resultsLoop, hnot, hcallee]

/-- A request with `prevLogIndex = 0` matches every log. -/
theorem logMatches_of_prev_zero (log : List Entry) {request : AppendEntriesRequest}
    (h : request.prevLogIndex = 0) : logMatches log request = true := by
  simp [logMatches, h]

/-- At `nextIndex_ = 1` a request cannot be refused any more. -/
theorem Repairing.two_le_of_refused {id peer : NodeId} {n : Nat} {leader follower follower' : Raft}
    (h : Repairing peer n leader follower) {req : PeerReq} {timeout : ElectionTimeout}
    {reply : AppendEntriesReply} (hreq : leader.buildRequest id peer n 0 = some req)
    (hf : follower.handleAppendEntries req.call.request timeout = some (follower', reply))
    (hs : reply.success = false) : 2 ≤ n := by
  obtain ⟨req', hreq', hprev⟩ := Raft.exists_buildRequest h.pos h.le id peer 0
  obtain rfl := Option.some.inj (hreq.symm.trans hreq')
  have hterm := (Raft.buildRequest_eq_some hreq).1.term
  have hpos := h.pos
  by_contra hlt
  rcases Raft.handleAppendEntries_cases hf with ⟨hstale, -, -⟩ | ⟨-, hm, -, -⟩ | ⟨-, -, rfl⟩
  · have := h.term
    omega
  · rw [logMatches_of_prev_zero _ (by omega)] at hm
    cases hm
  · cases hs

/-- What is recorded for a success. -/
theorem recordReply_success (s : Raft) (result : PeerResult) {reply : AppendEntriesReply}
    (hs : reply.success = true) :
    PeerTable.get (s.recordReply result reply).matchIndex result.peerId =
        result.prevIdx + result.entriesSent ∧
      PeerTable.get (s.recordReply result reply).nextIndex result.peerId =
        result.prevIdx + result.entriesSent + 1 := by
  simp [Raft.recordReply, hs]

/-- A refusal moves `nextIndex_` back by one, but not below one. -/
theorem recordReply_refused {s : Raft} {result : PeerResult} {reply : AppendEntriesReply}
    (hs : reply.success = false) (hn : 2 ≤ PeerTable.get s.nextIndex result.peerId) :
    PeerTable.get (s.recordReply result reply).nextIndex result.peerId =
      PeerTable.get s.nextIndex result.peerId - 1 := by
  have hsome : (s.nextIndex.lookup result.peerId).isSome = true :=
    PeerTable.lookup_isSome (Nat.le_of_succ_le hn)
  simp [Raft.recordReply, hs, PeerTable.touch, hsome, show _ > 1 from hn]

/--
**One round of a repair.** Either it succeeds, and then the leader knows that the follower has its
whole log; or nothing changes but `nextIndex_`, which goes back by one and was not at one.
-/
theorem Repairing.round {peer : NodeId} {n : Nat} {leader follower : Raft}
    (h : Repairing peer n leader follower) (id : NodeId) (timeout : ElectionTimeout) :
    ∃ leader' follower' reply,
      repairRound id peer timeout leader follower = some (leader', follower', reply) ∧
      leader'.log = leader.log ∧
      ((reply.success = true ∧ PeerTable.get leader'.matchIndex peer = leader.log.length ∧
          PeerTable.get leader'.nextIndex peer = leader.log.length + 1 ∧
          (Matching follower.log leader.log → leader.log <+: follower'.log)) ∨
        (reply.success = false ∧ follower'.log = follower.log ∧ 2 ≤ n ∧
          Repairing peer (n - 1) leader' follower')) := by
  obtain ⟨req, follower', reply, hreq, hf, heq⟩ := h.repairRound_eq id timeout
  obtain ⟨hbuilt, -, -⟩ := Raft.buildRequest_eq_some hreq
  obtain ⟨hreply, hcur, hcommit⟩ := follower_after (hbuilt.term ▸ h.term) h.commit_le hf
  have hcore := (Raft.recordReply_same leader
    ⟨peer, req.prevIdx, req.entriesSent, some reply⟩ reply).core
  have hlog := congrArg Core.log hcore
  refine ⟨_, follower', reply, heq, hlog, ?_⟩
  cases hs : reply.success with
  | true =>
    obtain ⟨hmatch, hnext⟩ := recordReply_success leader
      ⟨peer, req.prevIdx, req.entriesSent, some reply⟩ hs
    have hall : req.prevIdx + req.entriesSent = leader.log.length := by
      rw [hbuilt.prevIdx, hbuilt.entriesSent]
      exact hbuilt.cutFrom.upTo_eq_length
    exact Or.inl ⟨rfl, hmatch.trans hall, hnext.trans (congrArg (· + 1) hall),
      fun hm => isPrefix_of_success hbuilt.cutFrom hm hf hs⟩
  | false =>
    have htwo := h.two_le_of_refused hreq hf hs
    refine Or.inr ⟨rfl, Raft.log_of_refused hf hs, htwo, ?_, by omega, ?_, ?_, hcommit⟩
    · rw [recordReply_refused hs (by rw [h.nextIndex]; exact htwo), h.nextIndex]
    · rw [show (Raft.recordReply _ _ _).log = leader.log from hlog]
      have := h.le
      omega
    · rw [hcur, hbuilt.term]
      exact Nat.le_of_eq (congrArg Core.currentTerm hcore).symm

/--
**Log repair terminates and converges.** From `nextIndex_ = n` on, `n` rounds or fewer bring a
success, whatever is proposed in between. The leader then knows that the follower has its log, and
if the follower's log matched that log, it has.
-/
theorem repair_converges (id : NodeId) {peer : NodeId} : ∀ {n : Nat} {leader follower : Raft}
    {rounds : List (List Bytes × ElectionTimeout)}, Repairing peer n leader follower →
    n ≤ rounds.length → ∃ r, repair id peer rounds leader follower = some r ∧ r.rounds ≤ n ∧
      (Matching follower.log r.leader.log → r.leader.log <+: r.follower.log) ∧
      PeerTable.get r.leader.matchIndex peer = r.leader.log.length ∧
      PeerTable.get r.leader.nextIndex peer = r.leader.log.length + 1
  | n, leader, follower, [], h, hlen => absurd (h.pos.trans hlen) (by simp)
  | n, leader, follower, (batch, timeout) :: rest, h, hlen => by
    obtain ⟨leader', follower', reply, heq, hlog, hcase⟩ :=
      (h.proposeAll batch).round id timeout
    rw [repair, heq]
    simp only [Option.bind_eq_bind, Option.bind_some]
    rcases hcase with ⟨hs, hmatch, hnext, hp⟩ | ⟨hs, hf, htwo, hnext⟩
    · rw [if_pos hs]
      refine ⟨_, rfl, h.pos, ?_, ?_, ?_⟩ <;> dsimp only <;> rw [hlog]
      · exact hp
      · exact hmatch
      · exact hnext
    · rw [if_neg (by simp [hs])]
      rw [List.length_cons] at hlen
      have hrest : n - 1 ≤ rest.length := by omega
      obtain ⟨r, hr, hle, hp, hmatch, hidx⟩ := repair_converges id hnext hrest
      rw [hr, Option.map_some]
      exact ⟨_, rfl, by dsimp only; omega, hf ▸ hp, hmatch, hidx⟩

/-- Three rounds, a proposal before the second. -/
def threeRounds : List (List Bytes × ElectionTimeout) :=
  [([], shortTimeout), ([[99]], shortTimeout), ([], shortTimeout)]

/-- From `nextIndex_ = 3` on, the follower is repaired in the second of the three rounds. -/
theorem repair_converges_threeRounds : ∃ r,
    repair 0 1 threeRounds { repairLeader with nextIndex := AList.insert 1 3 ∅ } divergedFollower =
      some r ∧ r.rounds = 2 ∧ r.rounds ≤ 3 ∧ r.leader.log.length = 3 ∧
      r.leader.log <+: r.follower.log := by
  have h : Repairing 1 3 { repairLeader with nextIndex := AList.insert 1 3 ∅ } divergedFollower :=
    ⟨by decide, by decide, by decide, by decide, by decide⟩
  have hlen : 3 ≤ threeRounds.length := by decide
  obtain ⟨r, hr, hle, hp, -, -⟩ := repair_converges 0 h hlen
  have hrun : (repair 0 1 threeRounds { repairLeader with nextIndex := AList.insert 1 3 ∅ }
      divergedFollower).any (fun r => r.rounds = 2 ∧
        r.leader.log = repairLeader.log ++ [⟨3, [99]⟩]) = true := by decide +kernel
  rw [hr, Option.any_some, decide_eq_true_eq] at hrun
  obtain ⟨hrounds, hlog⟩ := hrun
  refine ⟨r, hr, hrounds, hle, by rw [hlog]; rfl, hp ?_⟩
  rw [hlog]
  exact matching_grown

/--
The round is answered with success, and the leader takes its log for replicated, but the follower
still has the other entry of the term.
-/
theorem repair_keeps_other_entry : Matching firstFollower.log secondLeader.log ∧
    Repairing 1 2 secondLeader firstFollower ∧
    ∃ r, repair 0 1 [([[121]], shortTimeout)] secondLeader firstFollower = some r ∧
      r.rounds = 1 ∧ r.leader.log = [⟨1, [97]⟩, ⟨3, [121]⟩] ∧
      PeerTable.get r.leader.matchIndex 1 = 2 ∧ ¬r.leader.log <+: r.follower.log := by
  refine ⟨matching_firstFollower, ⟨by decide, by decide, by decide, by decide, by decide⟩, ?_⟩
  have hrun : (repair 0 1 [([[121]], shortTimeout)] secondLeader firstFollower).any (fun r =>
      r.rounds = 1 ∧ r.leader.log = [⟨1, [97]⟩, ⟨3, [121]⟩] ∧
      PeerTable.get r.leader.matchIndex 1 = 2 ∧ ¬r.leader.log <+: r.follower.log) = true := by
    decide +kernel
  obtain ⟨r, hr, hall⟩ := (Option.any_eq_true _ _).mp hrun
  exact ⟨r, hr, of_decide_eq_true hall⟩

end Rafty
