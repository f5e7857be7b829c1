import Rafty.Safety.Wire

/-!
# Every step of the cluster is a step of the protocol

`Wire.simulate` goes through the moves of a node and gives the steps of the protocol for each;
`Wire.step` shows that what is known of the wire is kept. Together, by induction on the run,
`refines`: in a tame run the state of the cluster is one the protocol can reach, and the invariant
of the protocol holds of it.
-/

namespace Rafty

open Infra Replication

section Step

variable {m : Membership} {es : List Event} {c : Cluster} {n : NodeId} {i : Input} {eff : Effect}

/-- Each member of an election's quorum voted with a log that is no more up to date. -/
theorem ElectionQuorum.votedWith {t : Nat} {g : List Entry} {quorum : List NodeId}
    (h : ElectionQuorum m es n t g quorum) {v : NodeId} (hv : v ∈ quorum) :
    ∃ f, VotedWith es v t f ∧ AtLeast Entry.term f g := by
  by_cases hne : v = n
  · subst hne
    exact ⟨g, Or.inl h.started, Or.inr ⟨rfl, Nat.le_refl _⟩⟩
  · obtain ⟨f, hf, hup⟩ := h.granted v hv hne
    rw [lastLogTerm_eq, lastLogTerm_eq] at hup
    exact ⟨f, Or.inr ⟨_, hf, rfl⟩, hup⟩

/-- A `RequestVote` ends the leadership, or leaves term and role. -/
theorem not_leader_or_same {old raft : Raft} {term : Nat} (hle : old.currentTerm ≤ term)
    (hcur : raft.currentTerm = term) (hrole : raft.role = (old.core.raise term).role) :
    raft.role ≠ .leader ∨
      raft.currentTerm = old.currentTerm ∧ (old.role = .leader ↔ raft.role = .leader) := by
  rcases Core.raise_role_cases (c := old.core) hle with hfollower | ⟨hterm, hsame⟩
  · exact Or.inl (by rw [hrole, hfollower]; simp)
  · exact Or.inr ⟨hcur.trans hterm, by rw [hrole, hsame]; rfl⟩

/-- **Simulation.** -/
theorem Wire.simulate (hw : Wire m es c)
    (hinv : Inv Entry.term (majorities m.ids) (protocolState es c)) (hn : n ∈ m.ids)
    (hoffers : c.offers n i.action = true)
    (hmove : Node.Move (m.config n) (c.nodes n) i eff)
    (hterm : (c.nodes n).raft.currentTerm ≤ eff.node.raft.currentTerm)
    (hel : ∀ t g, .elected n t g ∈ eff.events →
      (∀ u g', .elected u t g' ∉ es) ∧ ∃ quorum, ElectionQuorum m es n t g quorum) :
    Relation.ReflTransGen (Step Entry.term (majorities m.ids)) (protocolState es c)
      (protocolState (es ++ eff.events) (c.advance n i.action eff)) := by
  have hcounts := hw.countsReplies hoffers
  have hh := historyAfter es eff.events c (c.advance n i.action eff)
  have hs' := nodeAfter es (es ++ eff.events) c n i.action eff
  cases hmove with
  | appendRefused hle hm hcore =>
    refine steps_raise hh hs' hterm (congrArg Core.log hcore) (congrArg Core.commitIndex hcore) ?_
    rw [show (Node.mk _ _).raft.role = .follower from congrArg Core.role hcore]
    simp
  | appendStored h =>
    obtain ⟨-, hnet⟩ := Cluster.offers_appendEntries hoffers
    obtain ⟨lead, hvalid⟩ := hw.requests _ hnet
    exact steps_stored hinv hvalid rfl rfl rfl h hh hs'
  | voteRefused hle hcore =>
    have hcur := congrArg Core.currentTerm hcore
    rcases not_leader_or_same hle hcur (congrArg Core.role hcore) with hrole | ⟨hsame, hrole⟩
    · exact steps_raise hh hs' hterm (congrArg Core.log hcore) (congrArg Core.commitIndex hcore)
        hrole
    · exact steps_same hh hs' (by simp) hsame (congrArg Core.log hcore)
        (congrArg Core.commitIndex hcore) hrole
  | voteGranted hle _ _ hcore =>
    have hcur := congrArg Core.currentTerm hcore
    exact steps_vote hh hs' (Or.inr ⟨_, rfl, hcur.symm⟩) hterm (congrArg Core.log hcore)
      (congrArg Core.commitIndex hcore) (not_leader_or_same hle hcur (congrArg Core.role hcore))
  | proposed hr => exact .single (step_proposed hh hs' rfl rfl rfl hr hr rfl)
  | startElection ht hb hr =>
    exact steps_vote hh hs' (Or.inl rfl) hterm rfl rfl
      (Or.inl (by simp [Raft.campaign, Raft.resetElectionTimer]))
  | stepDown =>
    refine steps_raise hh hs' hterm rfl rfl ?_
    simp [Node.silent, Node.stepDown, Raft.resetElectionTimer]
  | elected ht hr =>
    obtain ⟨hno, quorum, hq⟩ := hel _ _ (List.mem_singleton_self _)
    refine .single (step_elected hh hs' rfl rfl rfl rfl (P := { v | v ∈ quorum }) ?_ ?_ hno)
    · exact ⟨quorum, hq.majority, fun _ hv => hv⟩
    · exact fun v hv => hq.votedWith hv
  | roundYielded ht hr _ _ hlt hcore =>
    refine steps_raise hh hs' hterm (congrArg Core.log hcore) (congrArg Core.commitIndex hcore) ?_
    rw [show (Node.mk _ _).raft.role = .follower from congrArg Core.role hcore]
    simp
  | roundFinished ht hlen h =>
    refine steps_finished hinv hn h.leader rfl rfl rfl h ?_ hh hs'
    exact hcounts _ _ _ _ _ ht rfl h.leader h.matchIndex
  | buildRound ht hr h =>
    obtain ⟨⟨table, rfl⟩, -, -⟩ := Raft.buildRequests_eq_some h
    exact steps_same hh hs' (by simp) rfl rfl rfl Iff.rfl
  | quiet _ h =>
    exact steps_same hh hs' (by simp [Node.silent]) (congrArg Core.currentTerm h.core)
      (congrArg Core.log h.core) (congrArg Core.commitIndex h.core)
      (by rw [show (Node.silent _).node.raft.role = _ from congrArg Core.role h.core]; rfl)
  | defeated ht hr =>
    refine steps_same hh hs' (by simp [Node.silent]) rfl rfl rfl (iff_of_false ?_ ?_)
    · show (c.nodes n).raft.role ≠ .leader
      simp [hr]
    · simp [Node.silent]
  | voteReturned | compareTerm =>
    -- the thread moves and the fields stay
    refine steps_same hh hs' (by simp [Node.silent]) ?_ ?_ ?_ ?_ <;>
    · simp only [Node.silent, Node.voteReturned_raft, Node.compareTerm_raft]
      rfl
  | applyNext => exact steps_same hh hs' (by simp) rfl rfl rfl Iff.rfl
  | _ => exact steps_same hh hs' (by simp [Node.silent, Node.requestSend]) rfl rfl rfl Iff.rfl

/-- No step lowers a commit index. -/
theorem Wire.commitIndex_le (hw : Wire m es c)
    (hinv : Inv Entry.term (majorities m.ids) (protocolState es c))
    (hoffers : c.offers n i.action = true)
    (hmove : Node.Move (m.config n) (c.nodes n) i eff) :
    (c.nodes n).raft.commitIndex ≤ eff.node.raft.commitIndex := by
  cases hmove.storage with
  | same h => exact h.commitIndex.ge
  | stored ha h =>
    rw [ha] at hoffers
    obtain ⟨lead, hvalid⟩ := hw.requests _ (Cluster.offers_appendEntries hoffers).2
    rcases commitIndex_cases (v := n) hinv hvalid rfl h with heq | ⟨hlt, -⟩
    · exact heq.ge
    · exact hlt.le
  | finished h =>
    rcases h.commitIndex with heq | ⟨hlt, -⟩
    · exact heq.ge
    · exact hlt.le
  | proposed _ h | enqueued _ h => exact (congrArg Raft.commitIndex h).ge

/-- What the apply loop of a step yields is committed. -/
theorem justified_of_fromLoop {es' : List Event} {c' : Cluster}
    (hinv' : Inv Entry.term (majorities m.ids) (protocolState es' c'))
    (hnode : c'.nodes n = eff.node) {result : ApplyResult}
    (h : Node.FromLoop (c.nodes n) eff result) :
    Justified (protocolState es' c') result := by
  obtain ⟨results, hloop, hmem⟩ := h
  obtain ⟨hlt, hle, entry, hentry, hdata⟩ := applyLoop_data hloop result hmem
  obtain ⟨-, hknown⟩ := hinv'.commit_known n
  have hlog : (protocolState es' c').log n = eff.node.raft.log := by rw [← hnode]; rfl
  have hci : (protocolState es' c').commitIndex n = eff.node.raft.commitIndex := by
    rw [← hnode]; rfl
  rw [hlog, hci] at hknown
  refine ⟨_, _, entry, hknown, by omega, ?_, hdata⟩
  rw [List.getElem?_take_of_lt (by omega)]
  exact hentry

/-- A request that a leader builds is valid. -/
theorem validRequest_of_built (hinv : Inv Entry.term (majorities m.ids) (protocolState es c))
    (hr : (c.nodes n).raft.role = .leader) {req : PeerReq}
    (hb : (c.nodes n).raft.BuiltFrom req) :
    ValidRequest (protocolState es c) req.call.request (c.nodes n).raft.log := by
  obtain ⟨⟨g, hg⟩, hlog⟩ := hinv.leading_log (n := n) hr
  obtain ⟨hle, hknown⟩ := hinv.commit_known n
  have hlog' : (c.nodes n).raft.log = (protocolState es c).leaderLog (c.nodes n).raft.currentTerm :=
    hlog
  exact {
    elected := ⟨n, g, by rw [hb.term]; exact hg, by rw [hlog']; exact hinv.elected_isPrefix hg⟩
    isPrefix := by rw [hb.term, ← hlog']
    prev_le := hb.prev_le
    entries := hb.entries
    prevLogTerm := hb.prevLogTerm
    commit_le := by rw [hb.leaderCommit]; exact hle
    known := by rw [hb.leaderCommit, hb.term]; exact hknown }

/-- **What is known of the wire is kept.** -/
theorem Wire.step (hw : Wire m es c)
    (hinv : Inv Entry.term (majorities m.ids) (protocolState es c))
    (hinv' : Inv Entry.term (majorities m.ids)
      (protocolState (es ++ eff.events) (c.advance n i.action eff)))
    (hg : Grows (protocolState es c) (protocolState (es ++ eff.events) (c.advance n i.action eff)))
    (hoffers : c.offers n i.action = true)
    (hmove : Node.Move (m.config n) (c.nodes n) i eff)
    (hterm : (c.nodes n).raft.currentTerm ≤ eff.node.raft.currentTerm) :
    Wire m (es ++ eff.events) (c.advance n i.action eff) where
  nodes k := by
    by_cases hk : k = n
    · subst hk
      rw [Cluster.advance_nodes_self]
      refine hmove.nodeInv (hw.nodes k) (hw.countsReplies hoffers) hg ?_ hterm
        (hw.commitIndex_le hinv hoffers hmove) fun result hres => ?_
      · exact fun t g hel => hinv.elected_le (n := k) hel
      · exact justified_of_fromLoop hinv' Cluster.advance_nodes_self hres
    · rw [Cluster.advance_nodes_ne hk]
      refine (hw.nodes k).mono hg fun t g hel => hk ?_
      exact (hmove.of_elected hel).2.1
  requests call hmem := by
    rcases Cluster.mem_advance_net hmem with hmem | hmem
    · obtain ⟨lead, hvalid⟩ := hw.requests call hmem
      exact ⟨lead, hvalid.grows hg⟩
    · obtain ⟨hr, req, rfl, hb⟩ := hmove.of_appendRequest hmem
      exact ⟨_, (validRequest_of_built hinv hr hb).grows hg⟩
  replies call reply hmem hsucc := by
    rcases Cluster.mem_advance_net hmem with hmem | hmem
    · exact List.mem_append_left _ (hw.replies call reply hmem hsucc)
    · obtain ⟨⟨timeout, ha⟩, ⟨hfail, -⟩ | ⟨-, hacc⟩⟩ := hmove.of_appendReply hmem
      · rw [hsucc] at hfail
        cases hfail
      · rw [ha] at hoffers
        rw [(Cluster.offers_appendEntries hoffers).1]
        exact List.mem_append_right _ (hacc hsucc)
  results v result hmem := by
    rcases List.mem_append.mp hmem with hmem | hmem
    · exact (hw.results v result hmem).grows hg
    · rcases hmove.of_result (Or.inr hmem) with hold | hnew
      · exact ((hw.nodes n).pending result hold).grows hg
      · exact justified_of_fromLoop hinv' Cluster.advance_nodes_self hnew
  commits v t N g hmem := by
    rcases List.mem_append.mp hmem with hmem | hmem
    · obtain ⟨hle, hp⟩ := hw.commits v t N g hmem
      exact ⟨hle, hp.trans (hg.leaderLog t)⟩
    · obtain ⟨-, hr, rfl, rfl, hle⟩ := hmove.of_committed hmem
      refine ⟨hle, ?_⟩
      have hlog : (c.nodes n).raft.log = leaderLogs es (c.nodes n).raft.currentTerm :=
        (hinv.leading_log (n := n) hr).2
      rw [hlog]
      exact hg.leaderLog _

end Step

/-! ## Runs -/

variable {m : Membership} {ts : List (Transition Cluster ClusterInput Event)} {c : Cluster}

/-- A step of the cluster is a sequence of steps of the protocol. -/
theorem steps_of_step {c' : Cluster} {i : ClusterInput} {es : List Event}
    (hr : (clusterSystem m).Run ts c) (hw : Wire m (events ts) c)
    (hinv : Inv Entry.term (majorities m.ids) (protocolState (events ts) c))
    (hs : (clusterSystem m).step c i = some (c', es)) (htame : Tame (ts ++ [⟨c, i, es, c'⟩])) :
    Relation.ReflTransGen (Step Entry.term (majorities m.ids)) (protocolState (events ts) c)
      (protocolState (events ts ++ es) c') ∧ Wire m (events ts ++ es) c' := by
  obtain ⟨hn, hoffers, eff, hmove, rfl, rfl⟩ := clusterSystem_move hs
  have hterm : (c.nodes i.node).raft.currentTerm ≤ eff.node.raft.currentTerm := by
    have := htame.term_le _ (List.mem_append_right _ (List.mem_singleton_self _)) i.node
    rwa [Cluster.advance_nodes_self] at this
  have hel : ∀ t g, .elected i.node t g ∈ eff.events →
      (∀ u g', .elected u t g' ∉ events ts) ∧
        ∃ quorum, ElectionQuorum m (events ts) i.node t g quorum := by
    intro t g hmem
    obtain ⟨-, -, rfl, rfl, hrole, -, votes, ht, hv⟩ := hmove.of_elected hmem
    constructor
    · -- nobody else by assumption, and not the node itself, which is a candidate
      intro u g' hu
      have hself : u = i.node := htame.one_leader
        (by rw [events_append]; exact List.mem_append_left _ hu)
        (by rw [events_append, events_singleton]; exact List.mem_append_right _ hmem)
      subst hself
      exact Nat.lt_irrefl _ ((hw.nodes i.node).fresh hrole _ g' hu)
    · exact electionQuorum_of_votes hr hn hrole ht hv
  have hmore := hw.simulate hinv hn hoffers hmove hterm hel
  exact ⟨hmore, hw.step hinv (hinv.steps hmore) (hinv.steps_grows hmore) hoffers hmove hterm⟩

/-- **Refinement.** In a tame run the cluster goes through states of the protocol. -/
theorem refines (h : (clusterSystem m).Run ts c) (htame : Tame ts) :
    Relation.ReflTransGen (Step Entry.term (majorities m.ids)) State.initial
      (protocolState (events ts) c) ∧ Wire m (events ts) c := by
  induction h with
  | init hi =>
    obtain ⟨timeouts, rfl⟩ := hi
    rw [events_nil, protocolState_init]
    exact ⟨.refl, wire_init m timeouts⟩
  | @step ts c c' i es hr hs ih =>
    obtain ⟨hsteps, hw⟩ := ih htame.init
    obtain ⟨hmore, hw'⟩ := steps_of_step hr hw (inv_initial.steps hsteps) hs htame
    rw [events_append, events_singleton]
    exact ⟨hsteps.trans hmore, hw'⟩

theorem inv_of_run (h : (clusterSystem m).Run ts c) (htame : Tame ts) :
    Inv Entry.term (majorities m.ids) (protocolState (events ts) c) :=
  inv_initial.steps (refines h htame).1

/-- The history of the protocol grows along a run. -/
theorem grows_of_append {us : List (Transition Cluster ClusterInput Event)}
    (h : (clusterSystem m).Run (ts ++ us) c) (htame : Tame (ts ++ us)) :
    ∃ c₁, (clusterSystem m).Run ts c₁ ∧
      Grows (protocolState (events ts) c₁) (protocolState (events (ts ++ us)) c) := by
  induction us using List.reverseRecOn generalizing c with
  | nil => exact ⟨c, by simpa using h, by simpa using Grows.refl⟩
  | append_singleton us t ih =>
    rw [← List.append_assoc] at h htame ⊢
    obtain ⟨hr, hs, rfl⟩ := h.of_concat
    obtain ⟨c₁, hr₁, hg⟩ := ih hr htame.init
    have hinv := inv_of_run hr htame.init
    obtain ⟨hmore, -⟩ := steps_of_step hr (refines hr htame.init).2 hinv hs htame
    rw [events_append (ts ++ us), events_singleton]
    exact ⟨c₁, hr₁, hg.trans (hinv.steps_grows hmore)⟩

end Rafty
