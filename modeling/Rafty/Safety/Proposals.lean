import Rafty.Safety.Logs

/-!
# Where entries come from

Nothing is invented: an entry in a log, on the network or handed to the application was proposed
before (`applied_was_proposed`). This needs no assumption on the run.

What `propose` returns is a name for the entry: with terms that do not go back and one leader for
each term, nobody else is given the same index and term, and whoever holds an entry of that term at
that index holds this very one (`proposal_names_entry`).
-/

namespace Rafty

open Infra Replication

variable {m : Membership} {ts : List (Transition Cluster ClusterInput Event)} {c : Cluster}

/-- `entry` was accepted by a leader. -/
def Proposed (es : List Event) (entry : Entry) : Prop := ∃ u, .proposed u entry ∈ es

theorem Proposed.append {es : List Event} {entry : Entry} (h : Proposed es entry)
    (evs : List Event) : Proposed (es ++ evs) entry := by
  obtain ⟨u, hu⟩ := h
  exact ⟨u, List.mem_append_left _ hu⟩

/-! ## Nothing is invented -/

/-- What the entry loop leaves in the log was there or in the request. -/
theorem mem_appendLoop {entry : Entry} : ∀ {entries log : List Entry} {idx : Nat},
    entry ∈ appendLoop log idx entries → entry ∈ log ∨ entry ∈ entries
  | [], log, idx, h => Or.inl h
  | first :: rest, log, idx, h => by
    rw [appendLoop] at h
    split at h
    · split at h
      · -- truncate and push
        rcases mem_appendLoop h with h | h
        · rw [List.mem_append, List.mem_singleton] at h
          rcases h with h | rfl
          · exact Or.inl (List.mem_of_mem_take h)
          · exact Or.inr List.mem_cons_self
        · exact Or.inr (List.mem_cons_of_mem _ h)
      · exact (mem_appendLoop h).imp id (List.mem_cons_of_mem _)
    · rcases mem_appendLoop h with h | h
      · rw [List.mem_append, List.mem_singleton] at h
        rcases h with h | rfl
        · exact Or.inl h
        · exact Or.inr List.mem_cons_self
      · exact Or.inr (List.mem_cons_of_mem _ h)

/-- Every entry of a log or of a request, and the data of every result, was proposed. -/
structure FromProposals (es : List Event) (c : Cluster) : Prop where
  logs : ∀ n, ∀ entry ∈ (c.nodes n).raft.log, Proposed es entry
  requests : ∀ call, .appendRequest call ∈ c.net → ∀ entry ∈ call.request.entries,
    Proposed es entry
  pending : ∀ n, ∀ result ∈ (c.nodes n).thread.pending,
    ∃ entry, Proposed es entry ∧ result.data = entry.command

namespace Node

variable {cfg : Config} {s : Node} {i : Input} {eff : Effect}

/-- How an entry gets into a log. -/
theorem Move.mem_log (h : Move cfg s i eff) {entry : Entry} (hmem : entry ∈ eff.node.raft.log) :
    entry ∈ s.raft.log ∨
      (∃ call timeout, i.action = .appendEntries call timeout ∧ entry ∈ call.request.entries) ∨
      .proposed cfg.id entry ∈ eff.events := by
  cases h with
  | proposed =>
    rw [List.mem_append, List.mem_singleton] at hmem
    rcases hmem with hmem | rfl
    · exact Or.inl hmem
    · exact Or.inr (Or.inr (List.mem_singleton_self _))
  | appendStored h =>
    rw [h.log] at hmem
    exact (mem_appendLoop hmem).imp id fun hmem => Or.inl ⟨_, _, rfl, hmem⟩
  | appendRefused _ _ hcore | voteRefused _ hcore | voteGranted _ _ _ hcore
  | roundYielded _ _ _ _ _ hcore =>
    rw [show (Node.mk _ _).raft.log = _ from congrArg Core.log hcore] at hmem
    exact Or.inl hmem
  | buildRound _ _ h =>
    obtain ⟨⟨table, rfl⟩, -, -⟩ := Raft.buildRequests_eq_some h
    exact Or.inl hmem
  | roundFinished _ _ h =>
    rw [h.log] at hmem
    exact Or.inl hmem
  | quiet _ h =>
    rw [show (silent _).node.raft.log = _ from congrArg Core.log h.core] at hmem
    exact Or.inl hmem
  | voteReturned | compareTerm =>
    simp only [silent, voteReturned_raft, compareTerm_raft] at hmem
    exact Or.inl hmem
  | _ => exact Or.inl hmem

/-- The data of a result of the apply loop are those of an entry of the log. -/
theorem FromLoop.exists_mem {result : ApplyResult} (h : FromLoop s eff result) :
    ∃ entry ∈ eff.node.raft.log, result.data = entry.command := by
  obtain ⟨results, hloop, hmem⟩ := h
  obtain ⟨-, -, entry, hentry, hdata⟩ := applyLoop_data hloop result hmem
  exact ⟨entry, List.mem_of_getElem? hentry, hdata⟩

end Node

theorem fromProposals_init (timeouts : NodeId → ElectionTimeout) :
    FromProposals [] (Cluster.init timeouts) where
  logs _ _ h := by cases h
  requests _ h := by cases h
  pending _ _ h := by cases h

section Step

variable {es : List Event} {n : NodeId} {i : Input} {eff : Effect}

/-- The log of the node that takes a step. -/
theorem FromProposals.mem_log (h : FromProposals es c) (hoffers : c.offers n i.action = true)
    (hmove : Node.Move (m.config n) (c.nodes n) i eff) {entry : Entry}
    (hmem : entry ∈ eff.node.raft.log) : Proposed (es ++ eff.events) entry := by
  rcases hmove.mem_log hmem with hold | ⟨call, timeout, ha, hreq⟩ | hnew
  · exact (h.logs n entry hold).append _
  · rw [ha] at hoffers
    exact (h.requests call (Cluster.offers_appendEntries hoffers).2 entry hreq).append _
  · exact ⟨_, List.mem_append_right _ hnew⟩

/-- A result that a step makes pending or enqueues. -/
theorem FromProposals.of_result (h : FromProposals es c) (hoffers : c.offers n i.action = true)
    (hmove : Node.Move (m.config n) (c.nodes n) i eff) {v : NodeId} {result : ApplyResult}
    (hmem : result ∈ eff.node.thread.pending ∨ .applied v result ∈ eff.events) :
    ∃ entry, Proposed (es ++ eff.events) entry ∧ result.data = entry.command := by
  rcases hmove.of_result hmem with hold | hnew
  · obtain ⟨entry, hp, hdata⟩ := h.pending n result hold
    exact ⟨entry, hp.append _, hdata⟩
  · obtain ⟨entry, hentry, hdata⟩ := hnew.exists_mem
    exact ⟨entry, h.mem_log hoffers hmove hentry, hdata⟩

theorem FromProposals.step (h : FromProposals es c) (hoffers : c.offers n i.action = true)
    (hmove : Node.Move (m.config n) (c.nodes n) i eff) :
    FromProposals (es ++ eff.events) (c.advance n i.action eff) where
  logs k entry hmem := by
    by_cases hk : k = n
    · subst hk
      rw [Cluster.advance_nodes_self] at hmem
      exact h.mem_log hoffers hmove hmem
    · rw [Cluster.advance_nodes_ne hk] at hmem
      exact (h.logs k entry hmem).append _
  requests call hmem entry hentry := by
    rcases Cluster.mem_advance_net hmem with hmem | hmem
    · exact (h.requests call hmem entry hentry).append _
    · -- a leader cuts its requests out of its own log
      obtain ⟨-, req, rfl, hb⟩ := hmove.of_appendRequest hmem
      rw [hb.entries] at hentry
      exact (h.logs n entry (List.mem_of_mem_drop hentry)).append _
  pending k result hmem := by
    by_cases hk : k = n
    · subst hk
      rw [Cluster.advance_nodes_self] at hmem
      exact h.of_result (v := k) hoffers hmove (Or.inl hmem)
    · rw [Cluster.advance_nodes_ne hk] at hmem
      obtain ⟨entry, hp, hdata⟩ := h.pending k result hmem
      exact ⟨entry, hp.append _, hdata⟩

end Step

theorem fromProposals_of_run (h : (clusterSystem m).Run ts c) : FromProposals (events ts) c := by
  induction h with
  | init hi =>
    obtain ⟨timeouts, rfl⟩ := hi
    exact fromProposals_init timeouts
  | step _ hs ih =>
    obtain ⟨-, hoffers, eff, hmove, rfl, rfl⟩ := clusterSystem_move hs
    rw [events_append, events_singleton]
    exact ih.step hoffers hmove

/-- A step that applies something proposes nothing. -/
theorem Node.Move.not_proposed {cfg : Config} {s : Node} {i : Input} {eff : Effect}
    (h : Move cfg s i eff) {v u : NodeId} {result : ApplyResult} {entry : Entry}
    (hmem : .applied v result ∈ eff.events) : .proposed u entry ∉ eff.events := by
  cases h with
  | appendStored | applyNext => simp
  | voteGranted | proposed | startElection | elected => simp at hmem
  | roundFinished =>
    unfold commitEvents at hmem
    split at hmem <;> simp at hmem
  | _ => cases hmem

/-- A proposal is a step of its own. -/
theorem Node.Move.of_proposed {cfg : Config} {s : Node} {i : Input} {eff : Effect}
    (h : Move cfg s i eff) {u : NodeId} {entry : Entry} (hmem : .proposed u entry ∈ eff.events) :
    i.action = .propose entry.command := by
  cases h with
  | proposed =>
    rw [List.mem_singleton] at hmem
    rw [(Event.proposed.inj hmem).2]
  | appendStored | applyNext | voteGranted | startElection | elected => simp at hmem
  | roundFinished =>
    unfold commitEvents at hmem
    split at hmem <;> simp at hmem
  | _ => cases hmem

/-- What is applied was proposed in an earlier step. -/
theorem proposed_before_applied (h : (clusterSystem m).Run ts c) {pre post : List Event}
    {n : NodeId} {result : ApplyResult} (he : events ts = pre ++ .applied n result :: post) :
    ∃ entry, Proposed pre entry ∧ entry.command = result.data := by
  obtain ⟨ts₁, t, _, a, b, -, hr, hs, hes, rfl⟩ := h.of_event he
  obtain ⟨-, hoffers, eff, hmove, -, hev⟩ := clusterSystem_move hs
  have hmem : .applied n result ∈ eff.events := by rw [← hev, hes]; simp
  obtain ⟨entry, ⟨u, hu⟩, hdata⟩ := (fromProposals_of_run hr).of_result hoffers hmove (Or.inr hmem)
  have hu' := (List.mem_append.mp hu).resolve_right (hmove.not_proposed hmem)
  exact ⟨entry, ⟨u, List.mem_append_left _ hu'⟩, hdata.symm⟩

/--
**Nothing is invented**, in any run: every entry in a log and every entry on its way to a peer was
proposed, and so was, before it is applied, everything that is applied.
-/
theorem applied_was_proposed (h : (clusterSystem m).Run ts c) :
    (∀ n, ∀ entry ∈ (c.nodes n).raft.log, ∃ u, .proposed u entry ∈ events ts) ∧
    (∀ call, .appendRequest call ∈ c.net → ∀ entry ∈ call.request.entries,
      ∃ u, .proposed u entry ∈ events ts) ∧
    ∀ pre n result post, events ts = pre ++ .applied n result :: post →
      ∃ u entry, .proposed u entry ∈ pre ∧ entry.command = result.data := by
  obtain ⟨hlogs, hrequests, -⟩ := fromProposals_of_run h
  refine ⟨hlogs, hrequests, fun pre n result post he => ?_⟩
  obtain ⟨entry, ⟨u, hu⟩, hdata⟩ := proposed_before_applied h he
  exact ⟨u, entry, hu, hdata⟩

theorem applied_was_proposed_handover : ∃ ts c, (clusterSystem threeNodes).Run ts c ∧
    ts.map Transition.input = handover ∧
    ∃ pre post, events ts = pre ++ .applied 0 ⟨true, [120], 1⟩ :: post ∧
      ∃ u entry, .proposed u entry ∈ pre ∧ entry.command = [120] := by
  obtain ⟨ts, c, hr, hi, hmem⟩ := exists_clusterRun handover
    (fun ts _ => .applied 0 ⟨true, [120], 1⟩ ∈ events ts) (by decide +kernel)
  obtain ⟨pre, post, he⟩ := List.append_of_mem hmem
  exact ⟨ts, c, hr, hi, pre, post, he, (applied_was_proposed hr).2.2 pre 0 _ post he⟩

/-! ## The logs of the leaders -/

/-- What a leader log holds came with an election or was proposed. -/
theorem mem_foldl_growLog {t : Nat} {entry : Entry} : ∀ {evs : List Event} {log : List Entry},
    entry ∈ evs.foldl (growLog t) log → entry ∈ log ∨
      (∃ n term g, .elected n term g ∈ evs ∧ entry ∈ g) ∨ ∃ u, .proposed u entry ∈ evs
  | [], log, h => Or.inl h
  | e :: evs, log, h => by
    rw [List.foldl_cons] at h
    rcases mem_foldl_growLog h with h | ⟨n, term, g, hel, hg⟩ | ⟨u, hu⟩
    · cases e with
      | elected n term g =>
        rw [growLog] at h
        split at h
        · exact Or.inr (Or.inl ⟨n, term, g, List.mem_cons_self, h⟩)
        · exact Or.inl h
      | proposed u new =>
        rw [growLog] at h
        split at h
        · rcases List.mem_append.mp h with h | h
          · exact Or.inl h
          · rw [List.mem_singleton] at h
            subst h
            exact Or.inr (Or.inr ⟨u, List.mem_cons_self⟩)
        · exact Or.inl h
      | _ => exact Or.inl h
    · exact Or.inr (Or.inl ⟨n, term, g, List.mem_cons_of_mem _ hel, hg⟩)
    · exact Or.inr (Or.inr ⟨u, List.mem_cons_of_mem _ hu⟩)

/-- The log of a leader was proposed, that of its election included. -/
theorem proposed_of_mem_leaderLogs (h : (clusterSystem m).Run ts c) {t : Nat} {entry : Entry}
    (hmem : entry ∈ leaderLogs (events ts) t) : Proposed (events ts) entry := by
  -- logs at elections first
  have helected : ∀ n term g, .elected n term g ∈ events ts → ∀ e ∈ g, Proposed (events ts) e := by
    clear hmem
    induction h with
    | init => simp
    | step hr hs ih =>
      obtain ⟨-, -, eff, hmove, rfl, rfl⟩ := clusterSystem_move hs
      intro n term g hel e he
      rw [events_append, events_singleton] at hel ⊢
      rcases List.mem_append.mp hel with hel | hel
      · exact (ih n term g hel e he).append _
      · obtain ⟨-, -, -, rfl, -⟩ := hmove.of_elected hel
        exact ((fromProposals_of_run hr).logs _ e he).append _
  rcases mem_foldl_growLog hmem with h | ⟨n, term, g, hel, hg⟩ | hu
  · cases h
  · exact helected n term g hel entry hg
  · exact hu

/-! ## What `propose` returns -/

theorem getElem?_of_isPrefix {α : Type*} {l l' : List α} (h : l <+: l') {k : Nat} {x : α}
    (hx : l[k]? = some x) : l'[k]? = some x := by
  obtain ⟨hlt, rfl⟩ := List.getElem?_eq_some_iff.mp hx
  exact List.prefix_iff_getElem?.mp h k hlt

/-- A leader's answer: the entry is the last one of the log of its term. -/
theorem propose_leader {s : Raft} {data : Bytes} (h : (s.propose data).2.isLeader = true) :
    s.role = .leader ∧ (s.propose data).2.term = s.currentTerm ∧
      (s.propose data).2.index = s.log.length + 1 := by
  unfold Raft.propose at h ⊢
  split at h
  · next hr =>
    rw [if_pos hr]
    exact ⟨hr, rfl, by simp⟩
  · cases h

/-- After an accepted proposal the log of the term ends with the entry. -/
theorem leaderLogs_of_proposed {t : Transition Cluster ClusterInput Event}
    (h : (clusterSystem m).Run (ts ++ [t]) c) (htame : Tame (ts ++ [t])) {data : Bytes}
    (ha : t.input.action = .propose data)
    (hr : (t.before.nodes t.input.node).raft.role = .leader) :
    leaderLogs (events (ts ++ [t])) (t.before.nodes t.input.node).raft.currentTerm =
      (t.before.nodes t.input.node).raft.log ++
        [⟨(t.before.nodes t.input.node).raft.currentTerm, data⟩] := by
  obtain ⟨-, hs, rfl⟩ := h.of_concat
  obtain ⟨-, -, eff, hmove, hafter, -⟩ := clusterSystem_move hs
  rw [ha] at hmove
  cases hmove with
  | notLeader hnr => exact absurd hr hnr
  | quiet hi => cases hi
  | proposed =>
    have hnode := congrArg (fun c => c.nodes t.input.node) hafter
    dsimp only at hnode
    rw [Cluster.advance_nodes_self] at hnode
    -- the node still leads the term, and a leader's log is the log of its term
    have hlead : (protocolState (events (ts ++ [t])) t.after).leading t.input.node := by
      show (t.after.nodes t.input.node).raft.role = .leader
      rw [hnode]
      exact hr
    have hlog := ((inv_of_run h htame).leading_log hlead).2
    simp only [protocolState, hnode] at hlog
    exact hlog.symm

/--
**What `propose` returns names the entry.** A run that goes on after an accepted proposal leads to
states in which an entry of that term at that index is the proposed one, in every log; and later
proposals accepted in the same term get higher indices.
-/
theorem proposal_names_entry {us : List (Transition Cluster ClusterInput Event)}
    {t : Transition Cluster ClusterInput Event}
    (h : (clusterSystem m).Run (ts ++ t :: us) c) (htame : Tame (ts ++ t :: us)) {data : Bytes}
    {result : ProposalResult} (ha : t.input.action = .propose data)
    (hp : ((t.before.nodes t.input.node).raft.propose data).2 = result)
    (hl : result.isLeader = true) :
    (∀ n entry, (c.nodes n).raft.log[result.index - 1]? = some entry → entry.term = result.term →
      entry.command = data) ∧
    ∀ u ∈ us, ∀ data' result', u.input.action = .propose data' →
      ((u.before.nodes u.input.node).raft.propose data').2 = result' → result'.isLeader = true →
      result'.term = result.term → result.index < result'.index := by
  subst hp
  obtain ⟨hr, hterm, hindex⟩ := propose_leader hl
  rw [hterm, hindex]
  -- the log of the term right after the proposal, and at the end of any continuation
  have hgrown : ∀ {vs : List (Transition Cluster ClusterInput Event)} {d : Cluster},
      (clusterSystem m).Run (ts ++ [t] ++ vs) d → Tame (ts ++ [t] ++ vs) →
      (t.before.nodes t.input.node).raft.log ++
        [⟨(t.before.nodes t.input.node).raft.currentTerm, data⟩] <+:
      leaderLogs (events (ts ++ [t] ++ vs)) (t.before.nodes t.input.node).raft.currentTerm := by
    intro vs d hd hdtame
    obtain ⟨c₁, hr₁, hg⟩ := grows_of_append hd hdtame
    rw [← leaderLogs_of_proposed hr₁ hdtame.init ha hr]
    exact hg.leaderLog _
  rw [← List.singleton_append, ← List.append_assoc] at h htame
  constructor
  · intro n entry hentry ht
    have hwoven := (inv_of_run h htame).log_woven n _ entry hentry
    rw [ht] at hwoven
    -- the log of the term holds both at that place
    have hheld := getElem?_of_isPrefix hwoven (by
      rw [List.getElem?_take_of_lt (Nat.lt_succ_self _)]
      exact hentry)
    have hnew := getElem?_of_isPrefix (hgrown h htame) List.getElem?_concat_length
    exact congrArg Entry.command (Option.some.inj (hheld.symm.trans hnew))
  · rintro u hu data' result' ha' rfl hl' hterm'
    obtain ⟨hr', ht', hi'⟩ := propose_leader hl'
    rw [hi']
    rw [ht'] at hterm'
    -- the run up to the later proposal
    obtain ⟨vs, ws, rfl⟩ := List.append_of_mem hu
    have hcut : ts ++ [t] ++ (vs ++ u :: ws) = ts ++ [t] ++ vs ++ [u] ++ ws := by simp
    rw [hcut] at h htame
    obtain ⟨d, hd, -⟩ := h.of_append
    obtain ⟨hd, -, -⟩ := hd.of_concat
    have hdtame := htame.init.init
    have hlog := ((inv_of_run hd hdtame).leading_log (n := u.input.node) hr').2
    have hle := (hgrown hd hdtame).length_le
    simp only [protocolState] at hlog
    rw [← hterm', ← hlog, List.length_append, List.length_singleton] at hle
    omega

/-- The leader of term 1 accepts two proposals and replicates both to node 1. -/
def twoProposals : List ClusterInput :=
  firstElection ++
  stepsOf 0 320 [.initLeader, .propose [120], .propose [121], .buildRound 2] ++
  stepsOf 1 330 [.appendEntries ⟨2, 0, 1, ⟨1, 0, 0, 0, [⟨1, [120]⟩, ⟨1, [121]⟩], 0⟩⟩ shortTimeout]

theorem proposal_names_entry_twoProposals : ∃ ts t us c,
    (clusterSystem threeNodes).Run (ts ++ t :: us) c ∧
    (ts ++ t :: us).map Transition.input = twoProposals ∧ t.input.action = .propose [120] ∧
    (∃ entry, (c.nodes 1).raft.log[0]? = some entry ∧ entry.command = [120]) ∧
    ∃ u ∈ us, u.input.action = .propose [121] ∧
      1 < ((u.before.nodes u.input.node).raft.propose [121]).2.index := by
  obtain ⟨ts, c, hr, hi, hall, hfirst, hsecond, hlog⟩ := exists_clusterRun twoProposals
    (fun ts c => (∀ t ∈ ts, t.before.keepsBallot threeNodes t.input = true) ∧
      ((ts.drop (firstElection.length + 1)).head?.any fun t => t.input.action = .propose [120] ∧
        ((t.before.nodes t.input.node).raft.propose [120]).2 = ⟨1, 1, true⟩) = true ∧
      (∃ u ∈ ts.drop (firstElection.length + 2), u.input.action = .propose [121] ∧
        ((u.before.nodes u.input.node).raft.propose [121]).2 = ⟨2, 1, true⟩) ∧
      (c.nodes 1).raft.log[0]? = some ⟨1, [120]⟩) (by decide +kernel)
  have hcut := List.take_append_drop (firstElection.length + 1) ts
  have htail : ts.drop (firstElection.length + 2) = (ts.drop (firstElection.length + 1)).tail := by
    rw [List.tail_drop]
  cases hdrop : ts.drop (firstElection.length + 1) with
  | nil => simp [hdrop] at hfirst
  | cons t us =>
    rw [hdrop] at hfirst hcut
    rw [htail, hdrop, List.tail_cons] at hsecond
    obtain ⟨ha, hp⟩ : t.input.action = .propose [120] ∧
        ((t.before.nodes t.input.node).raft.propose [120]).2 = ⟨1, 1, true⟩ := by
      simpa using hfirst
    obtain ⟨u, hu, hau, hpu⟩ := hsecond
    have htame := tame_of_keepsBallots hr (keepsBallots_of_forall hall)
    rw [← hcut] at hr hi htame
    obtain ⟨hnames, hlater⟩ := proposal_names_entry hr htame ha hp rfl
    refine ⟨_, t, us, c, hr, hi, ha, ⟨_, hlog, hnames 1 _ hlog rfl⟩, u, hu, hau, ?_⟩
    exact hlater u hu _ _ hau rfl (by rw [hpu]) (by rw [hpu])

end Rafty
