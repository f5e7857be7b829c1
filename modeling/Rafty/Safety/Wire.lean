import Rafty.Safety.Leader
import Rafty.Safety.OneLeader
import Rafty.Safety.Refinement

/-!
# What is on the wire and in the leaders' tables

The steps of the protocol need facts about the code that the protocol does not know: that a request
on its way is one a leader could build (`requests`), that a success was a real acknowledgement
(`replies`), that `matchIndex_` counts acknowledgements of this leader's term (`matched`). `Wire`
collects them. It is about runs whose terms do not go back and in which no two nodes lead the same
term (`Tame`).
-/

namespace Rafty

open Infra Replication

/-- No node's term goes back, and no two nodes become leader in the same term. -/
structure Tame (ts : List (Transition Cluster ClusterInput Event)) : Prop where
  term_le : ∀ t ∈ ts, ∀ n,
    (t.before.nodes n).raft.currentTerm ≤ (t.after.nodes n).raft.currentTerm
  one_leader : ∀ {n n' t g g'}, .elected n t g ∈ events ts → .elected n' t g' ∈ events ts → n = n'

/-- A part of a tame run is tame. -/
theorem Tame.init {ts us : List (Transition Cluster ClusterInput Event)} (h : Tame (ts ++ us)) :
    Tame ts where
  term_le t ht := h.term_le t (List.mem_append_left _ ht)
  one_leader he he' := by
    have hsub : events ts ⊆ events (ts ++ us) := by simp
    exact h.one_leader (hsub he) (hsub he')

/-- Runs in which terms do not go back and nobody votes twice are tame. -/
theorem tame_of_keepsBallots {m : Membership} {ts : List (Transition Cluster ClusterInput Event)}
    {c : Cluster} (h : (clusterSystem m).Run ts c) (hk : KeepsBallots m ts) : Tame ts where
  term_le t ht n := by
    obtain ⟨-, -, eff, hmove, hafter, -⟩ := clusterSystem_move (h.mem t ht)
    rw [hafter]
    by_cases hn : n = t.input.node
    · subst hn
      rw [Cluster.advance_nodes_self]
      exact hmove.currentTerm_le_iff.mpr (hk.keepsTerm t ht)
    · rw [Cluster.advance_nodes_ne hn]
  one_leader := eq_of_elected h hk

/-- A result that a committed log holds at its index. -/
def Justified (s : State NodeId Entry) (result : ApplyResult) : Prop :=
  ∃ T l e, s.Known T l ∧ 0 < result.index ∧ l[result.index - 1]? = some e ∧
    result.data = e.command

theorem Justified.grows {s s' : State NodeId Entry} {result : ApplyResult}
    (h : Justified s result) (hg : Grows s s') : Justified s' result := by
  obtain ⟨T, l, e, hk, hrest⟩ := h
  exact ⟨T, l, e, hg.Known hk, hrest⟩

/-- What is known of one node, given the events `es` and the protocol state `p`. -/
structure NodeInv (es : List Event) (p : State NodeId Entry) (cfg : Config) (s : Node) : Prop where
  rounds : s.RoundInv cfg
  peers : ∀ v k, s.raft.matchIndex.lookup v = some k → v ∈ cfg.peers
  matched : s.raft.role = .leader → s.thread ≠ .initLeader →
    ∀ v k, s.raft.matchIndex.lookup v = some k → k = 0 ∨ .accepted v s.raft.currentTerm k ∈ es
  /-- A candidate has not been elected in its term yet. -/
  fresh : s.raft.role = .candidate → ∀ t g, .elected cfg.id t g ∈ es → t < s.raft.currentTerm
  applied : s.raft.lastApplied = s.raft.commitIndex
  pending : ∀ result ∈ s.thread.pending, Justified p result

structure Wire (m : Membership) (es : List Event) (c : Cluster) : Prop where
  nodes : ∀ n, NodeInv es (protocolState es c) (m.config n) (c.nodes n)
  requests : ∀ call, .appendRequest call ∈ c.net →
    ∃ lead, ValidRequest (protocolState es c) call.request lead
  replies : ∀ call reply, .appendReply call reply ∈ c.net → reply.success = true →
    .accepted call.callee call.request.term
      (call.request.prevLogIndex + call.request.entries.length) ∈ es
  results : ∀ n result, .applied n result ∈ es → Justified (protocolState es c) result
  commits : ∀ n t N g, .committed n t N g ∈ es → N ≤ g.length ∧ g <+: leaderLogs es t

theorem wire_init (m : Membership) (timeouts : NodeId → ElectionTimeout) :
    Wire m [] (Cluster.init timeouts) where
  nodes n :=
    { rounds := ⟨List.nil_sublist _, fun hr => by cases hr⟩
      peers := fun v k hk => by simp [Cluster.init, Node.init, Raft.init] at hk
      matched := fun hr => by cases hr
      fresh := fun hr => by cases hr
      applied := rfl
      pending := fun result hmem => by cases hmem }
  requests _ hmem := by cases hmem
  replies _ _ hmem := by cases hmem
  results _ _ hmem := by cases hmem
  commits _ _ _ _ hmem := by cases hmem

/-! ## What a step of a node does to these -/

namespace Node

variable {cfg : Config} {s : Node} {i : Input} {eff : Effect}

/-- What the replies of a round put into `matchIndex_` was acknowledged in the leader's term. -/
def CountsReplies (es : List Event) (cfg : Config) (s : Node) (i : Input) : Prop :=
  ∀ reqs site replies timeout table, s.thread = .awaitRound reqs site →
    i.action = .roundReturned replies timeout → s.raft.role = .leader →
    Raft.Recorded (peerResults reqs replies) s.raft.matchIndex table →
    ∀ v k, table.lookup v = some k →
      v ∈ cfg.peers ∧ (k = 0 ∨ .accepted v s.raft.currentTerm k ∈ es)

theorem lookup_foldl_insert (v : NodeId) : ∀ (peers : List NodeId) (table : PeerTable),
    (peers.foldl (fun t peer => t.insert peer 0) table).lookup v =
      if v ∈ peers then some 0 else table.lookup v
  | [], table => by simp
  | peer :: peers, table => by
    rw [List.foldl_cons, lookup_foldl_insert v peers]
    by_cases hv : v = peer
    · subst hv
      simp
    · rw [AList.lookup_insert_ne hv]
      simp [hv]

/-- `matchIndex_` is reset by a new leader, written by its rounds, and left alone otherwise. -/
theorem Move.matchIndex (h : Move cfg s i eff) :
    eff.node.raft.matchIndex = s.raft.matchIndex ∨
    (s.thread = .initLeader ∧ ∀ v, eff.node.raft.matchIndex.lookup v =
      if v ∈ cfg.peers then some 0 else s.raft.matchIndex.lookup v) ∨
    ∃ reqs site replies timeout, s.thread = .awaitRound reqs site ∧
      i.action = .roundReturned replies timeout ∧ s.raft.role = .leader ∧
      Raft.Recorded (peerResults reqs replies) s.raft.matchIndex eff.node.raft.matchIndex := by
  cases h with
  | initLeader ht => exact Or.inr (Or.inl ⟨ht, fun v => lookup_foldl_insert v _ _⟩)
  | roundYielded ht hr _ _ _ _ hrec => exact Or.inr (Or.inr ⟨_, _, _, _, ht, rfl, hr, hrec⟩)
  | roundFinished ht _ h => exact Or.inr (Or.inr ⟨_, _, _, _, ht, rfl, h.leader, h.matchIndex⟩)
  | appendRefused _ _ _ hl | appendStored _ hl | voteRefused _ _ hl | voteGranted _ _ _ _ hl =>
    exact Or.inl hl.matchIndex
  | buildRound _ _ h =>
    obtain ⟨⟨table, rfl⟩, -, -⟩ := Raft.buildRequests_eq_some h
    exact Or.inl rfl
  | quiet _ h => exact Or.inl h.matchIndex
  | voteReturned | compareTerm => exact Or.inl (by simp [silent])
  | _ => exact Or.inl rfl

/-- Only the step that resets the tables leaves `initLeader`. -/
theorem Move.of_initLeader (h : Move cfg s i eff) (ht : s.thread = .initLeader) :
    eff.node.thread = .initLeader ∨ ∀ v, eff.node.raft.matchIndex.lookup v =
      if v ∈ cfg.peers then some 0 else s.raft.matchIndex.lookup v := by
  cases h with
  | initLeader => exact Or.inr fun v => lookup_foldl_insert v _ _
  | quiet _ h =>
    rcases h.thread with he | ⟨-, hidle | ⟨votes, hd⟩⟩
    · exact Or.inl (he.trans ht)
    · rw [ht] at hidle; cases hidle
    · rw [ht] at hd; cases hd
  | appendStale | appendRefused | appendStored | voteStale | voteRefused | voteGranted | proposed
  | notLeader => exact Or.inl ht
  | startElection ht' | noElection ht' | requestTerm ht' | requestIndex ht' | requestSend ht'
  | voteReturned ht' | compareTerm ht' | stepDown ht' | elected ht' | defeated ht' | buildRound ht'
  | roundDropped ht' | roundYielded ht' | roundFinished ht' | applyNext ht' =>
    rw [ht] at ht'; cases ht'

/-- A candidate stays in its term, or has just started an election in the next one. -/
theorem Move.of_candidate (h : Move cfg s i eff) (hr : eff.node.raft.role = .candidate) :
    (∀ n t g, .elected n t g ∉ eff.events) ∧
      ((s.raft.role = .candidate ∧ eff.node.raft.currentTerm = s.raft.currentTerm) ∨
        eff.node.raft.currentTerm = succ64 s.raft.currentTerm) := by
  constructor
  · intro n t g hmem
    obtain ⟨-, -, -, -, -, hl, -⟩ := h.of_elected hmem
    cases hl.symm.trans hr
  · cases h with
    | appendRefused _ _ hcore | roundYielded _ _ _ _ _ hcore =>
      cases (congrArg Core.role hcore).symm.trans hr
    | appendStored h => cases (congrArg Core.role h.core).symm.trans hr
    | voteRefused hle hcore | voteGranted hle _ _ hcore =>
      have hrole := (congrArg Core.role hcore).symm.trans hr
      rcases Core.raise_role_cases (c := s.raft.core) hle with hfollower | ⟨hterm, hsame⟩
      · cases hfollower.symm.trans hrole
      · exact Or.inl ⟨hsame.symm.trans hrole, (congrArg Core.currentTerm hcore).trans hterm⟩
    | startElection => exact Or.inr rfl
    | @roundFinished now replies _ reqs _ _ _ _ _ h =>
      by_cases hlost : s.raft.LosesMajority cfg now (peerResults reqs replies)
      · cases (h.lost hlost).1.symm.trans hr
      · cases (h.kept hlost).1.symm.trans hr
    | buildRound ht hl h =>
      obtain ⟨⟨table, rfl⟩, -, -⟩ := Raft.buildRequests_eq_some h
      exact Or.inl ⟨hr, rfl⟩
    | quiet _ h =>
      exact Or.inl ⟨(congrArg Core.role h.core).symm.trans hr, congrArg Core.currentTerm h.core⟩
    | voteReturned | compareTerm => exact Or.inl ⟨by simpa [silent] using hr, by simp [silent]⟩
    | elected | stepDown | defeated => cases hr
    | appendStale | voteStale | proposed | notLeader | noElection | requestTerm | requestIndex
    | requestSend | initLeader | roundDropped | applyNext => exact Or.inl ⟨hr, rfl⟩

/-- The two indices stay, or `last_applied_` follows `commit_index_`. -/
theorem Move.lastApplied (h : Move cfg s i eff) :
    (eff.node.raft.lastApplied = s.raft.lastApplied ∧
      eff.node.raft.commitIndex = s.raft.commitIndex) ∨
    eff.node.raft.lastApplied = max s.raft.lastApplied eff.node.raft.commitIndex := by
  cases h.storage with
  | same h => exact Or.inl ⟨h.lastApplied, h.commitIndex⟩
  | stored _ h => exact Or.inr (congrArg Core.lastApplied h.core)
  | finished h => exact Or.inr h.lastApplied
  | proposed _ h | enqueued _ h => exact Or.inl (by rw [h]; exact ⟨rfl, rfl⟩)

/-- The result comes from the apply loop of the step. -/
def FromLoop (s : Node) (eff : Effect) (result : ApplyResult) : Prop :=
  ∃ results, applyLoop eff.node.raft.log s.raft.lastApplied
    (eff.node.raft.commitIndex - s.raft.lastApplied) = some results ∧ result ∈ results

/-- A result that is pending or enqueued was pending, or comes from the apply loop of the step. -/
theorem Move.of_result (h : Move cfg s i eff) {v : NodeId} {result : ApplyResult}
    (hmem : result ∈ eff.node.thread.pending ∨ .applied v result ∈ eff.events) :
    result ∈ s.thread.pending ∨ FromLoop s eff result := by
  cases h with
  | @appendStored _ call _ raft results h =>
    rcases hmem with hmem | hmem
    · exact Or.inl hmem
    · refine Or.inr ⟨results, h.applied, ?_⟩
      simp only [List.mem_cons, reduceCtorEq, List.mem_map, false_or, Event.applied.injEq] at hmem
      obtain ⟨r, hr, -, rfl⟩ := hmem
      exact hr
  | @roundFinished _ _ _ _ _ raft toApply _ _ h =>
    refine Or.inr ⟨toApply, ?_, ?_⟩
    · show applyLoop raft.log _ _ = _
      rw [h.log]
      exact h.toApply
    · rcases hmem with hmem | hmem
      · simpa using hmem
      · unfold commitEvents at hmem
        split at hmem <;> simp at hmem
  | @applyNext _ r rest site ht =>
    refine Or.inl ?_
    rw [ht]
    show result ∈ r :: rest
    rcases hmem with hmem | hmem
    · rw [pending_applyResults] at hmem
      exact List.mem_cons_of_mem _ hmem
    · simp only [List.mem_singleton, Event.applied.injEq] at hmem
      exact hmem.2 ▸ List.mem_cons_self
  | quiet _ h =>
    rcases hmem with hmem | hmem
    · rcases h.thread with ht | ⟨hidle, -⟩
      · exact Or.inl (by rw [← ht]; exact hmem)
      · rw [show (silent _).node.thread.pending = [] from pending_of_isIdle hidle] at hmem
        cases hmem
    · cases hmem
  | appendStale | appendRefused | voteStale | voteRefused | notLeader =>
    exact Or.inl (hmem.resolve_right (by simp))
  | voteGranted | proposed => exact Or.inl (hmem.resolve_right (by simp))
  | startElection | voteReturned | compareTerm => simp [silent, pending_of_inElection] at hmem
  | roundDropped | roundYielded => simp at hmem
  | elected =>
    rcases hmem with hmem | hmem
    · cases hmem
    · simp at hmem
  | _ => rcases hmem with hmem | hmem <;> cases hmem

/-- A request that is sent was built by the leader in the same step. -/
theorem Move.of_appendRequest (h : Move cfg s i eff) {call : Call AppendEntriesRequest}
    (hmem : .appendRequest call ∈ eff.sends) :
    s.raft.role = .leader ∧ ∃ req, req.call = call ∧ s.raft.BuiltFrom req := by
  cases h with
  | buildRound _ hr h =>
    obtain ⟨-, -, hall⟩ := Raft.buildRequests_eq_some h
    obtain ⟨req, hreq, hcall⟩ := List.mem_map.mp hmem
    exact ⟨hr, req, Packet.appendRequest.inj hcall, (hall req hreq).1⟩
  | appendStale | appendRefused | appendStored | voteStale | voteRefused | voteGranted =>
    simp at hmem
  | requestSend => simp [Node.requestSend] at hmem
  | _ => cases hmem

/-- A reset table holds zeros only, if its keys are peers. -/
theorem eq_zero_of_reset {peers : List NodeId} {old new : PeerTable}
    (hnew : ∀ v, new.lookup v = if v ∈ peers then some 0 else old.lookup v)
    (hold : ∀ v k, old.lookup v = some k → v ∈ peers) {v : NodeId} {k : Nat}
    (hk : new.lookup v = some k) : v ∈ peers ∧ k = 0 := by
  rw [hnew v] at hk
  split at hk
  · next hv => exact ⟨hv, (Option.some.inj hk).symm⟩
  · next hv => exact absurd (hold v k hk) hv

/-- **What is known of a node is kept by its own steps.** -/
theorem Move.nodeInv {es : List Event} {p p' : State NodeId Entry} (h : Move cfg s i eff)
    (hinv : NodeInv es p cfg s) (hcounts : CountsReplies es cfg s i) (hg : Grows p p')
    (hel : ∀ t g, .elected cfg.id t g ∈ es → t ≤ s.raft.currentTerm)
    (hterm : s.raft.currentTerm ≤ eff.node.raft.currentTerm)
    (hci : s.raft.commitIndex ≤ eff.node.raft.commitIndex)
    (hloop : ∀ result, FromLoop s eff result → Justified p' result) :
    NodeInv (es ++ eff.events) p' cfg eff.node where
  rounds := h.roundInv hinv.rounds
  peers v k hk := by
    rcases h.matchIndex with hsame | ⟨-, hreset⟩ | ⟨reqs, site, replies, timeout, ht, ha, hl, hrec⟩
    · exact hinv.peers v k (hsame ▸ hk)
    · exact (eq_zero_of_reset hreset hinv.peers hk).1
    · exact (hcounts reqs site replies timeout _ ht ha hl hrec v k hk).1
  matched hr hni v k hk := by
    rcases h.of_leader hr with ⟨hl, ht⟩ | ⟨hinit, -⟩
    · rw [ht]
      rcases h.matchIndex with hsame | ⟨-, hreset⟩ |
        ⟨reqs, site, replies, timeout, hth, ha, -, hrec⟩
      · by_cases hni' : s.thread = .initLeader
        · rcases h.of_initLeader hni' with hth | hreset
          · exact absurd hth hni
          · exact Or.inl (eq_zero_of_reset hreset hinv.peers hk).2
        · exact (hinv.matched hl hni' v k (hsame ▸ hk)).imp id (List.mem_append_left _)
      · exact Or.inl (eq_zero_of_reset hreset hinv.peers hk).2
      · exact (hcounts reqs site replies timeout _ hth ha hl hrec v k hk).2.imp id
          (List.mem_append_left _)
    · exact absurd hinit hni
  fresh hr t g hmem := by
    obtain ⟨hno, hcase⟩ := h.of_candidate hr
    have hmem' := (List.mem_append.mp hmem).resolve_right (hno _ t g)
    rcases hcase with ⟨hc, ht⟩ | hsucc
    · rw [ht]
      exact hinv.fresh hc t g hmem'
    · have hle := hel t g hmem'
      have hne := succ64_ne s.raft.currentTerm
      omega
  applied := by
    have happlied := hinv.applied
    rcases h.lastApplied with ⟨h1, h2⟩ | hmax
    · rw [h1, h2, happlied]
    · rw [hmax]
      omega
  pending result hmem := by
    rcases h.of_result (v := cfg.id) (Or.inl hmem) with hold | hnew
    · exact (hinv.pending result hold).grows hg
    · exact hloop result hnew

end Node

/-! ## The cluster -/

section Cluster

variable {m : Membership} {es : List Event} {c : Cluster} {n : NodeId} {i : Input} {eff : Effect}

theorem NodeInv.mono {evs : List Event} {p p' : State NodeId Entry} {cfg : Config} {s : Node}
    (h : NodeInv es p cfg s) (hg : Grows p p') (hno : ∀ t g, .elected cfg.id t g ∉ evs) :
    NodeInv (es ++ evs) p' cfg s where
  rounds := h.rounds
  peers := h.peers
  matched hr hni v k hk := (h.matched hr hni v k hk).imp id (List.mem_append_left _)
  fresh hr t g hmem := h.fresh hr t g ((List.mem_append.mp hmem).resolve_right (hno t g))
  applied := h.applied
  pending result hmem := (h.pending result hmem).grows hg

/-- The replies a round takes from the network count what was acknowledged. -/
theorem Wire.countsReplies (h : Wire m es c) (hoffers : c.offers n i.action = true) :
    Node.CountsReplies es (m.config n) (c.nodes n) i := by
  intro reqs site replies timeout table ht ha hl hrec v k hk
  have hinv := h.nodes n
  rcases hrec v k hk with hold | ⟨result, hmem, rfl, rfl, reply, hreply, hsucc⟩
  · exact ⟨hinv.peers v k hold, hinv.matched hl (by rw [ht]; simp) v k hold⟩
  · rw [ha] at hoffers
    obtain ⟨req, hzip, hpeer, hprev, hsent, hnet⟩ :=
      Cluster.offers_roundReturned ht hoffers hmem hreply
    have hmem' : req ∈ (c.nodes n).thread.requests := by rw [ht]; exact (List.of_mem_zip hzip).1
    have hround := hinv.rounds.own hl req hmem'
    have hcallee := hinv.rounds.callees.subset (List.mem_map_of_mem hmem')
    have hacc := h.replies _ _ hnet hsucc
    rw [hround.term, ← hround.prevIdx, ← hround.entriesSent, ← hpeer, ← hprev, ← hsent] at hacc
    exact ⟨hpeer ▸ hcallee, Or.inr hacc⟩

end Cluster

end Rafty
