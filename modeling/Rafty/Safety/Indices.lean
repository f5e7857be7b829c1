import Rafty.Safety.LeaseFlags
import Rafty.Safety.Repair

/-!
# The index tables of a leader

`nextIndex_` and `matchIndex_` are set in a critical section of their own once the election is won,
read when the requests of a round are built and written when its results come in, and the log may
grow, be cut or pass to another leader between any two of these. `leader_indices_in_range` says that
none of this takes an index out of the log while the node leads:

* a leader's log only grows, since whatever cuts it makes the node a follower first;
* only the `run()` thread makes the node leader again, and it resets the tables before it sends.

So what a round has sent still lies in the log when its results are used, or the results are not
used at all.
-/

namespace Rafty

open Infra

/-! ## Tables -/

theorem PeerTable.get_insert_ne {table : PeerTable} {p peer : NodeId} (h : p ≠ peer) (k : Nat) :
    PeerTable.get (table.insert peer k) p = PeerTable.get table p := by
  simp [PeerTable.get, AList.lookup_insert_ne h]

/-- The tables of a new leader: the same value for every peer. -/
theorem PeerTable.get_foldl_insert {p : NodeId} {k : Nat} : ∀ {peers : List NodeId}
    {table : PeerTable}, p ∈ peers ∨ PeerTable.get table p = k →
    PeerTable.get (peers.foldl (fun t peer => t.insert peer k) table) p = k
  | [], table, h => by simpa using h
  | peer :: peers, table, h => by
    rw [List.foldl_cons]
    apply PeerTable.get_foldl_insert
    by_cases hp : p = peer
    · exact Or.inr (hp ▸ PeerTable.get_insert table peer k)
    · rw [PeerTable.get_insert_ne hp]
      exact h.imp (fun hmem => (List.mem_cons.mp hmem).resolve_left hp) id

namespace Raft

/-- What the tables of a leader say about the peers lies inside its log. -/
structure IndicesInRange (peers : List NodeId) (s : Raft) : Prop where
  next_pos : ∀ p ∈ peers, 1 ≤ PeerTable.get s.nextIndex p
  next_le : ∀ p ∈ peers, PeerTable.get s.nextIndex p ≤ s.log.length + 1
  match_le : ∀ p ∈ peers, PeerTable.get s.matchIndex p ≤ s.log.length

variable {peers : List NodeId} {s s' : Raft}

/-- A log that grew keeps the tables in range. -/
theorem IndicesInRange.mono (h : s.IndicesInRange peers) (hn : s'.nextIndex = s.nextIndex)
    (hm : s'.matchIndex = s.matchIndex) (hlog : s.log.length ≤ s'.log.length) :
    s'.IndicesInRange peers where
  next_pos p hp := hn ▸ h.next_pos p hp
  next_le p hp := by
    have := h.next_le p hp
    rw [hn]
    omega
  match_le p hp := by
    have := h.match_le p hp
    rw [hm]
    omega

/-! ## The first critical section -/

/-- The request for `peer` starts where `nextIndex_` points and reaches to the end of the log. -/
structure RequestInRange (s : Raft) (peer : NodeId) (req : PeerReq) : Prop where
  callee : req.call.callee = peer
  prevIdx : req.prevIdx + 1 = PeerTable.get s.nextIndex peer
  upTo : req.prevIdx + req.entriesSent = s.log.length

theorem buildRequest_in_range {peer : NodeId} (h : s.IndicesInRange peers) (hp : peer ∈ peers)
    (id : NodeId) (callId : Nat) :
    ∃ req, s.buildRequest id peer (PeerTable.get s.nextIndex peer) callId = some req ∧
      s.RequestInRange peer req := by
  obtain ⟨req, hreq, hprev⟩ :=
    exists_buildRequest (h.next_pos peer hp) (h.next_le peer hp) id peer callId
  obtain ⟨hbuilt, hcallee, -⟩ := buildRequest_eq_some hreq
  refine ⟨req, hreq, hcallee, ?_, ?_⟩
  · have := h.next_pos peer hp
    rw [hbuilt.prevIdx, hprev]
    omega
  · rw [hbuilt.prevIdx, hbuilt.entriesSent, hbuilt.cutFrom.upTo_eq_length]

/-- **The first critical section stays inside the log** and leaves the tables as they are. -/
theorem buildRequests_in_range (h : s.IndicesInRange peers) (id : NodeId) :
    ∀ {todo : List NodeId} (callId : Nat), todo ⊆ peers →
    ∃ reqs, s.buildRequests id callId todo = some (s, reqs) ∧
      List.Forall₂ s.RequestInRange todo reqs
  | [], _, _ => ⟨[], rfl, .nil⟩
  | peer :: rest, callId, hsub => by
    have hpeer : peer ∈ peers := hsub List.mem_cons_self
    have hkey : s.ensureNextIndex peer = s :=
      if_pos (PeerTable.lookup_isSome (h.next_pos peer hpeer))
    obtain ⟨req, hreq, hrange⟩ := buildRequest_in_range h hpeer id callId
    obtain ⟨reqs, hreqs, hranges⟩ :=
      buildRequests_in_range h id (callId + 1) fun p hp => hsub (List.mem_cons_of_mem _ hp)
    refine ⟨req :: reqs, ?_, .cons hrange hranges⟩
    simp only [buildRequests, hkey, hreq, hreqs, Option.bind_eq_bind, Option.bind_some]

/-! ## The second critical section -/

/-- One reply, whatever it says, for a request that reached no further than the log. -/
theorem IndicesInRange.recordReply (h : s.IndicesInRange peers) {result : PeerResult}
    (hle : result.prevIdx + result.entriesSent ≤ s.log.length) (reply : AppendEntriesReply) :
    (s.recordReply result reply).IndicesInRange peers := by
  unfold Raft.recordReply
  split
  · -- a success: the new values are computed from the request
    refine ⟨fun p hp => ?_, fun p hp => ?_, fun p hp => ?_⟩ <;> by_cases heq : p = result.peerId
    · rw [heq, PeerTable.get_insert]
      omega
    · rw [PeerTable.get_insert_ne heq]
      exact h.next_pos p hp
    · rw [heq, PeerTable.get_insert]
      exact Nat.succ_le_succ hle
    · rw [PeerTable.get_insert_ne heq]
      exact h.next_le p hp
    · rw [heq, PeerTable.get_insert]
      exact hle
    · rw [PeerTable.get_insert_ne heq]
      exact h.match_le p hp
  · -- a refusal: a peer's `nextIndex_` is there, so nothing is inserted for it
    have htouch : ∀ p ∈ peers,
        PeerTable.get (PeerTable.touch s.nextIndex result.peerId) p =
          PeerTable.get s.nextIndex p := by
      intro p hp
      unfold PeerTable.touch
      split
      · rfl
      · next hmissing =>
        refine PeerTable.get_insert_ne (fun heq => hmissing ?_) 0
        exact heq ▸ PeerTable.lookup_isSome (h.next_pos p hp)
    dsimp only
    split
    · next hgt =>
      refine ⟨fun p hp => ?_, fun p hp => ?_, h.match_le⟩ <;> by_cases heq : p = result.peerId
      · rw [heq, PeerTable.get_insert]
        omega
      · rw [PeerTable.get_insert_ne heq, htouch p hp]
        exact h.next_pos p hp
      · have := h.next_le p hp
        subst heq
        rw [PeerTable.get_insert, htouch _ hp]
        exact Nat.le_trans (Nat.sub_le _ _) this
      · rw [PeerTable.get_insert_ne heq, htouch p hp]
        exact h.next_le p hp
    · refine ⟨fun p hp => ?_, fun p hp => ?_, h.match_le⟩
      · exact (htouch p hp).symm ▸ h.next_pos p hp
      · exact (htouch p hp).symm ▸ h.next_le p hp

/-- The loop over the results, as long as it goes on. -/
theorem IndicesInRange.resultsLoop {timeout : ElectionTimeout} : ∀ {results : List PeerResult}
    {s s' : Raft} {c c' : Nat}, s.IndicesInRange peers →
    (∀ result ∈ results, result.prevIdx + result.entriesSent ≤ s.log.length) →
    s.resultsLoop timeout c results = .ok (s', c') → s'.IndicesInRange peers
  | [], s, s', c, c', h, _, hloop => by
    simp only [Raft.resultsLoop, Except.ok.injEq, Prod.mk.injEq] at hloop
    exact hloop.1 ▸ h
  | result :: rest, s, s', c, c', h, hle, hloop => by
    rw [List.forall_mem_cons] at hle
    rw [Raft.resultsLoop] at hloop
    cases hr : result.reply with
    | none =>
      rw [hr] at hloop
      exact h.resultsLoop hle.2 hloop
    | some reply =>
      rw [hr] at hloop
      dsimp only at hloop
      split at hloop
      · cases hloop
      · refine (h.recordReply hle.1 reply).resultsLoop ?_ hloop
        rw [show (s.recordReply result reply).log = s.log from
          congrArg Core.log (recordReply_same s result reply).core]
        exact hle.2

/-- What comes after the loop leaves the tables alone. -/
theorem finishRound_tables {cfg : Config} {now : Nat} {timeout : ElectionTimeout}
    {confirmations : Nat} {toApply : List ApplyResult}
    (h : s.finishRound cfg now timeout confirmations = some (s', toApply)) :
    s'.nextIndex = s.nextIndex ∧ s'.matchIndex = s.matchIndex ∧ s'.log = s.log := by
  unfold finishRound at h
  simp only [Option.bind_eq_bind, Option.bind_eq_some_iff] at h
  obtain ⟨toApply', -, h⟩ := h
  split at h
  · simp only [Option.bind_eq_some_iff, Option.some.injEq, Prod.mk.injEq] at h
    obtain ⟨s₁, hs₁, rfl, -⟩ := h
    unfold renewLease at hs₁
    dsimp only at hs₁
    split at hs₁
    · obtain ⟨entry, -, rfl⟩ := Option.map_eq_some_iff.mp hs₁
      split <;> exact ⟨rfl, rfl, rfl⟩
    · obtain rfl := Option.some.inj hs₁
      exact ⟨rfl, rfl, rfl⟩
  · simp only [Option.bind_some, Option.some.injEq, Prod.mk.injEq] at h
    obtain ⟨rfl, -⟩ := h
    unfold checkMajority
    split <;> exact ⟨rfl, rfl, rfl⟩

/-- **The second critical section**: whoever comes out of it as leader has its tables in range. -/
theorem IndicesInRange.processResults {cfg : Config} {now : Nat} {timeout : ElectionTimeout}
    {results : List PeerResult} {toApply : List ApplyResult} (h : s.IndicesInRange peers)
    (hle : ∀ result ∈ results, result.prevIdx + result.entriesSent ≤ s.log.length)
    (hp : s.processResults cfg now timeout results = some (s', toApply))
    (hl : s'.role = .leader) : s'.IndicesInRange peers := by
  unfold Raft.processResults at hp
  split at hp
  · cases hloop : s.resultsLoop timeout 1 results with
    | error s₁ =>
      rw [hloop, Option.some.injEq, Prod.mk.injEq] at hp
      obtain ⟨-, -, _, -, _, -, -, hcore⟩ := resultsLoop_error hloop
      rw [hp.1] at hcore
      cases (congrArg Core.role hcore).symm.trans hl
    | ok r =>
      rw [hloop] at hp
      obtain ⟨hn, hm, hlog⟩ := finishRound_tables hp
      exact (h.resultsLoop hle hloop).mono hn hm (Nat.le_of_eq (congrArg _ hlog.symm))
  · rw [Option.some.injEq, Prod.mk.injEq] at hp
    exact hp.1 ▸ h

end Raft

/-- A result carries the numbers of one of the requests. -/
theorem mem_peerResults {result : PeerResult} : ∀ {reqs : List PeerReq}
    {replies : List (Option AppendEntriesReply)}, result ∈ peerResults reqs replies →
    ∃ req ∈ reqs, result.prevIdx = req.prevIdx ∧ result.entriesSent = req.entriesSent
  | [], _, h => by simp [peerResults] at h
  | _ :: _, [], h => by simp [peerResults] at h
  | req :: reqs, reply :: replies, h => by
    rw [peerResults, List.zipWith_cons_cons, List.mem_cons] at h
    rcases h with rfl | h
    · exact ⟨req, List.mem_cons_self, rfl, rfl⟩
    · obtain ⟨req', hmem, hsame⟩ := mem_peerResults h
      exact ⟨req', List.mem_cons_of_mem _ hmem, hsame⟩

/-! ## Runs of a node -/

namespace Node

/-- What holds of a node that leads: between the election and `initLeader` only the first field. -/
structure IndexInv (cfg : Config) (s : Node) : Prop where
  election : s.thread.inElection = true → s.raft.role ≠ .leader
  tables : s.raft.role = .leader → s.thread ≠ .initLeader → s.raft.IndicesInRange cfg.peers
  sent : s.raft.role = .leader →
    ∀ req ∈ s.thread.requests, req.prevIdx + req.entriesSent ≤ s.raft.log.length

variable {cfg : Config} {s : Node} {i : Input} {eff : Effect}

/-- A node that leads after a step and did not win the election in it has kept its log. -/
theorem Move.log_le (h : Move cfg s i eff) (hl : eff.node.raft.role = .leader) :
    s.raft.log.length ≤ eff.node.raft.log.length := by
  cases h.storage with
  | same h => rw [h.log]
  | stored _ h => cases (congrArg Core.role h.core).symm.trans hl
  | proposed entry h => simp [h]
  | finished h => rw [h.log]
  | enqueued result h => rw [h]; exact Nat.le_refl _

theorem indicesInRange_initLeader (cfg : Config) (s : Node) (now : Nat) :
    (s.initLeader cfg now).raft.IndicesInRange cfg.peers where
  next_pos p hp := by
    rw [show PeerTable.get (s.initLeader cfg now).raft.nextIndex p = s.raft.log.length + 1 from
      PeerTable.get_foldl_insert (Or.inl hp)]
    omega
  next_le p hp := Nat.le_of_eq (PeerTable.get_foldl_insert (Or.inl hp))
  match_le p hp := by
    rw [show PeerTable.get (s.initLeader cfg now).raft.matchIndex p = 0 from
      PeerTable.get_foldl_insert (Or.inl hp)]
    exact Nat.zero_le _

/-- A step that leaves the tables of a leader alone. -/
theorem IndexInv.same_tables (hinv : s.IndexInv cfg) (hmove : Move cfg s i eff)
    (hrole : s.raft.role = .leader) (hl : eff.node.raft.role = .leader)
    (ht : s.thread ≠ .initLeader) (hn : eff.node.raft.nextIndex = s.raft.nextIndex)
    (hm : eff.node.raft.matchIndex = s.raft.matchIndex) :
    eff.node.raft.IndicesInRange cfg.peers :=
  (hinv.tables hrole ht).mono hn hm (hmove.log_le hl)

/-- The first critical section of a leader whose thread is not about to reset the tables. -/
theorem IndexInv.buildRequests (hinv : s.IndexInv cfg) (hrole : s.raft.role = .leader)
    (ht : s.thread ≠ .initLeader) {callId : Nat} {raft : Raft} {reqs : List PeerReq}
    (hb : s.raft.buildRequests cfg.id callId cfg.peers = some (raft, reqs)) :
    raft = s.raft ∧ List.Forall₂ s.raft.RequestInRange cfg.peers reqs := by
  obtain ⟨reqs', hb', hrange⟩ :=
    Raft.buildRequests_in_range (hinv.tables hrole ht) cfg.id callId (List.Subset.refl _)
  rw [hb, Option.some.injEq, Prod.mk.injEq] at hb'
  obtain ⟨rfl, rfl⟩ := hb'
  exact ⟨rfl, hrange⟩

/-- **One step and the tables.** -/
theorem IndexInv.tables_step (hinv : s.IndexInv cfg) (h : s.step cfg i = some eff)
    (hl : eff.node.raft.role = .leader) (ht : eff.node.thread ≠ .initLeader) :
    eff.node.raft.IndicesInRange cfg.peers := by
  have hmove := move_of_step h
  have hrole : s.raft.role = .leader := by
    rcases hmove.of_leader hl with ⟨hr, -⟩ | ⟨hinit, -⟩
    · exact hr
    · exact absurd hinit ht
  have hsame := hinv.same_tables hmove hrole hl
  cases hmove with
  | appendRefused _ _ hcore | roundYielded _ _ _ _ _ hcore =>
    cases (congrArg Core.role hcore).symm.trans hl
  | appendStored hst => cases (congrArg Core.role hst.core).symm.trans hl
  | @voteRefused _ call timeout | @voteGranted _ call timeout =>
    obtain ⟨role, term, vote, drawn, hframe⟩ :=
      Raft.handleRequestVote_frame s.raft call.request timeout
    rw [← step_requestVote h] at hframe
    exact hsame ht (by rw [hframe]) (by rw [hframe])
  | appendStale | voteStale | proposed | notLeader => exact hsame ht rfl rfl
  | startElection | defeated => cases hl
  | elected => exact absurd rfl ht
  | voteReturned hthread | compareTerm hthread =>
    exact hsame (by simp [hthread]) (by simp [silent]) (by simp [silent])
  | noElection hthread | requestTerm hthread | requestIndex hthread | requestSend hthread
  | stepDown hthread | applyNext hthread => exact hsame (by simp [hthread]) rfl rfl
  | initLeader => exact indicesInRange_initLeader cfg s _
  | buildRound hthread _ hb =>
    have hne : s.thread ≠ .initLeader := by simp [hthread]
    obtain ⟨rfl, -⟩ := hinv.buildRequests hrole hne hb
    exact hinv.tables hrole hne
  | roundDropped _ hr => exact absurd hrole hr
  | roundFinished hthread =>
    obtain ⟨toApply, hp⟩ := step_roundReturned hthread h
    refine (hinv.tables hrole (by simp [hthread])).processResults (fun result hmem => ?_) hp hl
    obtain ⟨req, hreq, hprev, hsent⟩ := mem_peerResults hmem
    rw [hprev, hsent]
    exact hinv.sent hrole req (by rw [hthread]; exact hreq)
  | quiet hi hq =>
    have hne : s.thread ≠ .initLeader := by
      rcases hq.thread with hthread | ⟨-, hidle | ⟨votes, hthread⟩⟩
      · exact fun he => ht (hthread.trans he)
      · exact fun he => by rw [he] at hidle; cases hidle
      · simp [hthread]
    rcases frame_of_isQuiet hi h with ⟨role, drawn, heard, dead, hraft⟩ | ⟨callId, reqs, hb⟩
    · exact hsame hne (by rw [hraft]) (by rw [hraft])
    · exact (hinv.buildRequests hrole hne hb).1 ▸ hinv.tables hrole hne

/-- **One step and the round under way.** A leader's log reaches as far as it did. -/
theorem IndexInv.sent_step (hinv : s.IndexInv cfg) (h : Move cfg s i eff)
    (hl : eff.node.raft.role = .leader) :
    ∀ req ∈ eff.node.thread.requests,
      req.prevIdx + req.entriesSent ≤ eff.node.raft.log.length := by
  intro req hreq
  rcases h.of_leader hl with ⟨hrole, -⟩ | ⟨hinit, -⟩
  · refine Nat.le_trans ?_ (h.log_le hl)
    rcases h.requests with hnil | hsame | ⟨raft, callId, hb⟩
    · rw [hnil] at hreq
      cases hreq
    · exact hinv.sent hrole req (hsame ▸ hreq)
    · obtain ⟨hbuilt, -⟩ := (Raft.buildRequests_eq_some hb).2.2 req hreq
      rw [hbuilt.prevIdx, hbuilt.entriesSent, hbuilt.cutFrom.upTo_eq_length]
  · rw [hinit] at hreq
    cases hreq

theorem IndexInv.step (hinv : s.IndexInv cfg) (h : s.step cfg i = some eff) :
    eff.node.IndexInv cfg where
  election := (move_of_step h).election hinv.election
  tables := hinv.tables_step h
  sent := hinv.sent_step (move_of_step h)

end Node

variable {cfg : Config} {ts : List (Transition Node Input Event)} {s : Node}

theorem indexInv_of_run (h : (nodeSystem cfg).Run ts s) : s.IndexInv cfg := by
  refine (h.invariant (P := fun s => s.IndexInv cfg) ?_ ?_).1
  · rintro s ⟨timeout, rfl⟩
    exact ⟨nofun, nofun, nofun⟩
  · intro s i s' es hinv hs
    obtain ⟨eff, heff, rfl, -⟩ := nodeSystem_step hs
    exact hinv.step heff

/--
**Leader indices stay in range.** In every run, a node that leads and has set up its tables has them
in range: so the first critical section of `send_heartbeats` neither wraps nor leaves the log, and
what it sent still lies in the log in the second.
-/
theorem leader_indices_in_range (h : (nodeSystem cfg).Run ts s) (hl : s.raft.role = .leader)
    (ht : s.thread ≠ .initLeader) :
    s.raft.IndicesInRange cfg.peers ∧
      (∀ callId, ∃ reqs, s.raft.buildRequests cfg.id callId cfg.peers = some (s.raft, reqs) ∧
        List.Forall₂ s.raft.RequestInRange cfg.peers reqs) ∧
      ∀ reqs site, s.thread = .awaitRound reqs site →
        ∀ req ∈ reqs, req.prevIdx + req.entriesSent ≤ s.raft.log.length := by
  have hinv := indexInv_of_run h
  refine ⟨hinv.tables hl ht, fun callId => ?_, fun reqs site hthread req hreq => ?_⟩
  · exact Raft.buildRequests_in_range (hinv.tables hl ht) cfg.id callId (List.Subset.refl _)
  · exact hinv.sent hl req (by rw [hthread]; exact hreq)

/--
A leader of term 1 whose first round is refused by one peer, with a proposal between the two
critical sections, waits for its second round.
-/
def refusedRound : List Input :=
  steps 0 [.loopTop] ++ steps 300 (winElection ++ [.buildRound 1, .propose [7],
    .roundReturned [some { term := 1, success := true }, some { term := 1, success := false }]
      shortTimeout, .loopTop, .buildRound 3])

theorem leader_indices_in_range_refusedRound : ∃ ts s,
    (nodeSystem (threeNodes.config 0)).Run ts s ∧ ts.map Transition.input = refusedRound ∧
    s.raft.log.length = 1 ∧ s.thread.requests.map PeerReq.entriesSent = [1, 1] ∧
    s.raft.IndicesInRange (threeNodes.config 0).peers := by
  obtain ⟨ts, s, hr, hi, hl, ht, hlog, hsent⟩ := exists_nodeRun refusedRound
    (fun _ s => s.raft.role = .leader ∧ s.thread ≠ .initLeader ∧ s.raft.log.length = 1 ∧
      s.thread.requests.map PeerReq.entriesSent = [1, 1]) (by decide +kernel)
  exact ⟨ts, s, hr, hi, hlog, hsent, (leader_indices_in_range hr hl ht).1⟩

end Rafty
