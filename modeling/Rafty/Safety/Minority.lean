import Rafty.Safety.Partition
import Rafty.Safety.TotalOrder

/-!
# A minority applies nothing new

The partition of `Rafty/Safety/Partition.lean`, in runs whose terms do not go back and in which no
two nodes lead the same term.

A leader on `side` commits what a majority has acknowledged, so somebody on the other side has. The
request that this one answered went from one side to the other, so it was let through before the
partition, and what it carried was in the leader's log then (`committed_le`).

A follower on `side` learns its commit index from a request. It comes from `side`, or it was let
through before, so by induction it names nothing that was proposed since (`FromBefore`).
-/

namespace Rafty

open Infra Replication InterceptedCluster

variable {m : Membership} {ts us : List (Transition InterceptedCluster InterceptedInput Event)}
  {s₀ s : InterceptedCluster} {side : List NodeId}

/-! ## What was let through -/

/-- A request of a term comes from the leader of the term. -/
theorem elected_of_request {ts : List (Transition Cluster ClusterInput Event)} {c : Cluster}
    (h : (clusterSystem m).Run ts c) : ∀ call, .appendRequest call ∈ c.net →
      ∃ g, .elected call.caller call.request.term g ∈ events ts := by
  induction h with
  | init hi =>
    obtain ⟨timeouts, rfl⟩ := hi
    simp [Cluster.init]
  | step hr hs ih =>
    obtain ⟨-, -, eff, hmove, rfl, rfl⟩ := clusterSystem_move hs
    intro call hmem
    rw [events_append, events_singleton]
    rcases Cluster.mem_advance_net hmem with hmem | hmem
    · obtain ⟨g, hg⟩ := ih call hmem
      exact ⟨g, List.mem_append_left _ hg⟩
    · obtain ⟨hl, req, hreq, hb⟩ := hmove.of_appendRequest hmem
      have hcaller := hmove.caller_eq hmem rfl
      obtain ⟨g, hg⟩ := elected_of_leader hr hl
      rw [← hreq] at hcaller ⊢
      rw [hcaller, hb.term]
      exact ⟨g, List.mem_append_left _ hg⟩

/-- Whether a request is valid depends on the history only. -/
theorem ValidRequest.of_events {es : List Event} {c : Cluster} {request : AppendEntriesRequest}
    {lead : List Entry} (h : ValidRequest (protocolState es c) request lead) (c' : Cluster) :
    ValidRequest (protocolState es c') request lead :=
  ⟨h.elected, h.isPrefix, h.prev_le, h.entries, h.prevLogTerm, h.commit_le, h.known⟩

/-- A request that was let through is valid and comes from the leader of its term. -/
theorem validRequest_of_sent (h : (interceptedSystem m).Run ts s)
    (htame : Tame (plainView.run ts)) {call : Call AppendEntriesRequest}
    (hmem : .appendRequest call ∈ s.sent) :
    (∃ lead, ValidRequest (protocolState (events ts) s.cluster) call.request lead) ∧
      ∃ g, .elected call.caller call.request.term g ∈ events ts := by
  obtain ⟨as, bs, s₁, rfl, h₁, -, hnet⟩ := exists_run_of_sent h hmem
  have hrun := plain_run h
  have hevents := plain_events h
  rw [View.run_append] at htame hrun hevents
  obtain ⟨lead, hvalid⟩ := (refines (plain_run h₁) htame.init).2.requests call hnet
  obtain ⟨c₁, -, hg⟩ := grows_of_append hrun htame
  obtain ⟨g, hel⟩ := elected_of_request (plain_run h₁) call hnet
  rw [hevents] at hg
  rw [plain_events h₁] at hel
  refine ⟨⟨lead, (hvalid.of_events c₁).grows hg⟩, g, ?_⟩
  rw [events_append]
  exact List.mem_append_left _ hel

/-! ## What a minority commits -/

section Commits

variable (h₀ : (interceptedSystem m).Run ts s₀)
  (h : ((interceptedSystem m).startingAt s₀).Run us s)
  (htame : Tame (plainView.run (ts ++ us)))
  (hcut : ∀ t ∈ us, t.before.separates m side = true)
include h₀ h htame hcut

/-- What the other side has acknowledged to a leader on `side` was in its log before. -/
theorem accepted_le {n v : NodeId} {t k : Nat} {g : List Entry} (hn : n ∈ side)
    (hel : .elected n t g ∈ events (ts ++ us)) (hv : v ∉ side)
    (hacc : .accepted v t k ∈ events (ts ++ us)) : k ≤ (leaderLogs (events ts) t).length := by
  have htame₀ : Tame (plainView.run ts) := by
    rw [View.run_append] at htame
    exact htame.init
  rw [events_append] at hacc
  rcases List.mem_append.mp hacc with hacc | hacc
  · have hinv := inv_of_run (plain_run h₀) htame₀
    rw [plain_events h₀] at hinv
    exact (hinv.acked_le hacc).2.1
  · obtain ⟨us₁, us₂, b, w, i, eff, rfl, hr, hw, hsent, hoffers, hmove, hmem⟩ :=
      exists_move_of_event h hacc
    obtain ⟨rfl, call, timeout, ha, rfl, rfl⟩ := hmove.of_accepted hmem
    have hin : .appendRequest call ∈ b.sent := hsent _ (by rw [ha]; rfl)
    rw [ha] at hoffers
    obtain ⟨hcallee, -⟩ := Cluster.offers_appendEntries hoffers
    have htame₁ : Tame (plainView.run (ts ++ us₁)) := by
      rw [← List.append_assoc, View.run_append] at htame
      exact htame.init
    -- the request comes from the leader, so it went from one side to the other
    have hcaller : call.caller = n := by
      obtain ⟨-, g', hg'⟩ := validRequest_of_sent (h₀.append hr) htame₁ hin
      have hevents := plain_events (h₀.append h)
      have hfirst : .elected call.caller call.request.term g' ∈
          events (plainView.run (ts ++ (us₁ ++ us₂))) := by
        rw [hevents, ← List.append_assoc, events_append]
        exact List.mem_append_left _ hg'
      rw [← hevents] at hel
      exact htame.one_leader hfirst hel
    have hbefore : .appendRequest call ∈ s₀.sent := by
      refine sent_before hr (List.forall_mem_append.mp hcut).1 hin rfl
        (caller_mem_of_sent (h₀.append hr) hin rfl) (hcallee ▸ hw) ?_
      rw [hcaller, hcallee]
      intro hiff
      exact hv (hiff.mp hn)
    obtain ⟨⟨lead, hvalid⟩, -⟩ := validRequest_of_sent h₀ htame₀ hbefore
    have hlen : lead.length ≤ (leaderLogs (events ts) call.request.term).length :=
      hvalid.isPrefix.length_le
    have hprev := hvalid.prev_le
    rw [hvalid.entries, List.length_drop]
    omega

/-- What a leader on `side` commits was in its log before. -/
theorem committed_le (hside : 2 * (m.ids.filter (· ∈ side)).length ≤ m.ids.length) {n : NodeId}
    {t N : Nat} {g : List Entry} (hn : n ∈ side) (hc : .committed n t N g ∈ events (ts ++ us)) :
    N ≤ (leaderLogs (events ts) t).length := by
  have hrun := plain_run (h₀.append h)
  have hevents := plain_events (h₀.append h)
  have hinv := inv_of_run hrun htame
  rw [← hevents] at hc
  obtain ⟨g', hel⟩ := elected_of_committed hrun hc
  obtain ⟨P, ⟨votes, hmaj, hvotes⟩, hacked⟩ := (hinv.committed_quorum ⟨n, g, hc⟩).1
  obtain ⟨v, hv, hout⟩ := hmaj.exists_not_mem hside
  rcases hacked v (hvotes v hv) with ⟨k, hk, hacc⟩ | ⟨g'', hel', -⟩
  · have hacc' : .accepted v t k ∈ events (ts ++ us) := by
      rw [← hevents]
      exact hacc
    rw [hevents] at hel
    exact hk.trans (accepted_le h₀ h htame hcut hn hel hout hacc')
  · obtain rfl : v = n := htame.one_leader hel' hel
    exact absurd hn hout

/-- What a leader on `side` commits was proposed before. -/
theorem proposed_of_committed (hside : 2 * (m.ids.filter (· ∈ side)).length ≤ m.ids.length)
    {n : NodeId} {t N : Nat} {g : List Entry} (hn : n ∈ side)
    (hc : .committed n t N g ∈ events (ts ++ us)) : ∀ e ∈ g.take N, Proposed (events ts) e := by
  have hN := committed_le h₀ h htame hcut hside hn hc
  have hrun := plain_run (h₀.append h)
  have hevents := plain_events (h₀.append h)
  rw [View.run_append] at hrun htame hevents
  rw [← hevents] at hc
  obtain ⟨-, hp⟩ := (refines hrun htame).2.commits n t N g hc
  -- the log of the term had grown to this length before
  obtain ⟨c₁, -, hg⟩ := grows_of_append hrun htame
  have hlog := hg.leaderLog t
  simp only [protocolState, plain_events h₀] at hlog
  intro e he
  have hmem : e ∈ leaderLogs (events ts) t := by
    have hle : (g.take N).length ≤ (leaderLogs (events ts) t).length :=
      (List.length_take_le _ _).trans hN
    exact (List.prefix_of_prefix_length_le ((List.take_prefix _ _).trans hp) hlog hle).subset he
  rw [← plain_events h₀] at hmem ⊢
  exact proposed_of_mem_leaderLogs (plain_run h₀) hmem

end Commits

/-! ## What a minority applies -/

/-- The commit index moves with a request that is stored, or with a commit. -/
theorem Node.Move.commitIndex_cases {cfg : Config} {s : Node} {i : Input} {eff : Effect}
    (h : Move cfg s i eff) : eff.node.raft.commitIndex = s.raft.commitIndex ∨
      (∃ call timeout results, i.action = .appendEntries call timeout ∧
        s.raft.Stored call.request eff.node.raft results) ∨
      .committed cfg.id eff.node.raft.currentTerm eff.node.raft.commitIndex eff.node.raft.log ∈
        eff.events := by
  cases h with
  | appendStored h => exact Or.inr (Or.inl ⟨_, _, _, rfl, h⟩)
  | @roundFinished _ _ _ _ _ raft =>
    by_cases hsame : raft.commitIndex = s.raft.commitIndex
    · exact Or.inl hsame
    · refine Or.inr (Or.inr ?_)
      simp [commitEvents, hsame]
  | appendRefused _ _ hcore | voteRefused _ hcore | voteGranted _ _ _ hcore
  | roundYielded _ _ _ _ _ hcore => exact Or.inl (congrArg Core.commitIndex hcore)
  | buildRound _ _ h =>
    obtain ⟨⟨table, rfl⟩, -, -⟩ := Raft.buildRequests_eq_some h
    exact Or.inl rfl
  | quiet _ h => exact Or.inl (congrArg Core.commitIndex h.core)
  | voteReturned | compareTerm => exact Or.inl (by simp [silent])
  | _ => exact Or.inl rfl

/-- A valid request whose commit index covers entries with `old` only. -/
def Carries (old : Entry → Prop) (p : State NodeId Entry) (request : AppendEntriesRequest) : Prop :=
  ∃ lead, ValidRequest p request lead ∧ ∀ e ∈ lead.take request.leaderCommit, old e

theorem Carries.grows {old : Entry → Prop} {p p' : State NodeId Entry}
    {request : AppendEntriesRequest} (h : Carries old p request) (hg : Grows p p') :
    Carries old p' request := by
  obtain ⟨lead, hvalid, hold⟩ := h
  exact ⟨lead, hvalid.grows hg, hold⟩

/-- What the members on `side` have committed, and what they can learn to be, has `old`. -/
structure FromBefore (m : Membership) (old : Entry → Prop) (side : List NodeId) (es : List Event)
    (s : InterceptedCluster) : Prop where
  committed : ∀ n ∈ side,
    ∀ e ∈ (s.cluster.nodes n).raft.log.take (s.cluster.nodes n).raft.commitIndex, old e
  pending : ∀ n ∈ side, ∀ result ∈ (s.cluster.nodes n).thread.pending,
    ∃ e, old e ∧ result.data = e.command
  built : ∀ call, .appendRequest call ∈ s.cluster.net → call.caller ∈ side →
    Carries old (protocolState es s.cluster) call.request
  sent : ∀ call, .appendRequest call ∈ s.sent → call.callee ∈ side → call.callee ∈ m.ids →
    Carries old (protocolState es s.cluster) call.request

/-- In the beginning everything was proposed before. -/
theorem fromBefore_init (h₀ : (interceptedSystem m).Run ts s₀) (htame : Tame (plainView.run ts)) :
    FromBefore m (Proposed (events ts)) side (events ts) s₀ := by
  have hrun := plain_run h₀
  have hfrom := fromProposals_of_run hrun
  have hw := (refines hrun htame).2
  rw [plain_events h₀] at hfrom hw
  have hcarries : ∀ {request : AppendEntriesRequest} {lead : List Entry},
      ValidRequest (protocolState (events ts) s₀.cluster) request lead →
      Carries (Proposed (events ts)) (protocolState (events ts) s₀.cluster) request := by
    intro request lead hvalid
    refine ⟨lead, hvalid, ?_⟩
    intro e he
    have hmem : e ∈ leaderLogs (events ts) request.term :=
      hvalid.isPrefix.subset (List.mem_of_mem_take he)
    rw [← plain_events h₀] at hmem ⊢
    exact proposed_of_mem_leaderLogs hrun hmem
  constructor
  · intro n _ e he
    exact hfrom.logs n e (List.mem_of_mem_take he)
  · intro n _ result hres
    exact hfrom.pending n result hres
  · intro call hmem _
    obtain ⟨lead, hvalid⟩ := hw.requests call hmem
    exact hcarries hvalid
  · intro call hmem _ _
    obtain ⟨⟨lead, hvalid⟩, -⟩ := validRequest_of_sent h₀ htame hmem
    exact hcarries hvalid

section Step

variable {old : Entry → Prop} {es : List Event} {n : NodeId} {i : Input} {eff : Effect}

/-- The committed part of the log of the node that takes a step. -/
theorem FromBefore.take_commitIndex (hb : FromBefore m old side es s)
    (hw : Wire m es s.cluster)
    (hinv : Inv Entry.term (majorities m.ids) (protocolState es s.cluster))
    (hn : n ∈ m.ids) (hin : n ∈ side) (hsent : ∀ request ∈ i.action.handled, request ∈ s.sent)
    (hoffers : s.cluster.offers n i.action = true)
    (hmove : Node.Move (m.config n) (s.cluster.nodes n) i eff)
    (hcommit : ∀ t N g, .committed n t N g ∈ eff.events → ∀ e ∈ g.take N, old e) :
    ∀ e ∈ eff.node.raft.log.take eff.node.raft.commitIndex, old e := by
  -- what was committed is kept
  have hkept : eff.node.raft.commitIndex = (s.cluster.nodes n).raft.commitIndex →
      ∀ e ∈ eff.node.raft.log.take eff.node.raft.commitIndex, old e := by
    intro hsame e he
    have hle : (s.cluster.nodes n).raft.commitIndex ≤ (s.cluster.nodes n).raft.log.length :=
      (hinv.commit_known n).1
    have hcut := List.prefix_iff_eq_take.mp (hw.take_commitIndex hinv hoffers hmove)
    rw [List.length_take, Nat.min_eq_left hle] at hcut
    rw [hsame, ← hcut] at he
    exact hb.committed n hin e he
  rcases hmove.commitIndex_cases with hsame | ⟨call, timeout, results, ha, hst⟩ | hc
  · exact hkept hsame
  · have hreq : .appendRequest call ∈ s.sent := hsent _ (by rw [ha]; rfl)
    rw [ha] at hoffers
    obtain ⟨hcallee, -⟩ := Cluster.offers_appendEntries hoffers
    obtain ⟨lead, hvalid, hold⟩ := hb.sent call hreq (by rw [hcallee]; exact hin)
      (by rw [hcallee]; exact hn)
    rcases commitIndex_cases (v := n) hinv hvalid rfl hst with hsame | ⟨-, -, htake⟩
    · exact hkept hsame
    · rw [htake]
      exact hold
  · exact hcommit _ _ _ hc

/-- A result that the step makes pending or enqueues. -/
theorem FromBefore.of_result (hb : FromBefore m old side es s) (hin : n ∈ side)
    (hmove : Node.Move (m.config n) (s.cluster.nodes n) i eff)
    (hcommitted : ∀ e ∈ eff.node.raft.log.take eff.node.raft.commitIndex, old e) {v : NodeId}
    {result : ApplyResult}
    (hmem : result ∈ eff.node.thread.pending ∨ .applied v result ∈ eff.events) :
    ∃ e, old e ∧ result.data = e.command := by
  rcases hmove.of_result hmem with hres | ⟨results, hloop, hres⟩
  · exact hb.pending n hin result hres
  · obtain ⟨hlt, hle, e, he, hdata⟩ := applyLoop_data hloop result hres
    refine ⟨e, hcommitted e ?_, hdata⟩
    have hget : (eff.node.raft.log.take eff.node.raft.commitIndex)[result.index - 1]? = some e := by
      rw [List.getElem?_take_of_lt (by omega)]
      exact he
    exact List.mem_of_getElem? hget

/-- A step of a node. -/
theorem FromBefore.node (hb : FromBefore m old side es s)
    (hinv : Inv Entry.term (majorities m.ids) (protocolState es s.cluster))
    (hg : Grows (protocolState es s.cluster)
      (protocolState (es ++ eff.events) (s.cluster.advance n i.action eff)))
    (hmove : Node.Move (m.config n) (s.cluster.nodes n) i eff)
    (hcommitted : n ∈ side → ∀ e ∈ eff.node.raft.log.take eff.node.raft.commitIndex, old e) :
    FromBefore m old side (es ++ eff.events)
      { s with cluster := s.cluster.advance n i.action eff } := by
  constructor
  · intro k hk
    by_cases hkn : k = n
    · subst hkn
      rw [Cluster.advance_nodes_self]
      exact hcommitted hk
    · rw [Cluster.advance_nodes_ne hkn]
      exact hb.committed k hk
  · intro k hk result hres
    by_cases hkn : k = n
    · subst hkn
      rw [Cluster.advance_nodes_self] at hres
      exact hb.of_result (v := k) hk hmove (hcommitted hk) (Or.inl hres)
    · rw [Cluster.advance_nodes_ne hkn] at hres
      exact hb.pending k hk result hres
  · intro call hmem hcaller
    rcases Cluster.mem_advance_net hmem with hold | hnew
    · exact (hb.built call hold hcaller).grows hg
    · -- a leader on `side` sends its own commit index
      obtain rfl : call.caller = n := hmove.caller_eq hnew rfl
      obtain ⟨hl, req, rfl, hbuilt⟩ := hmove.of_appendRequest hnew
      refine Carries.grows ⟨_, validRequest_of_built hinv hl hbuilt, ?_⟩ hg
      rw [hbuilt.leaderCommit]
      exact hb.committed _ hcaller
  · intro call hmem hcallee hmember
    exact (hb.sent call hmem hcallee hmember).grows hg

/-- A request is let through: if it is for `side`, it comes from `side`. -/
theorem FromBefore.letThrough (hb : FromBefore m old side es s) {request : Packet}
    {caller callee : NodeId} (hroute : request.route = some (caller, callee))
    (hnet : request ∈ s.cluster.net) (hcaller : caller ∈ m.ids)
    (hno : (s.interceptors caller).hijacks caller callee = false)
    (hcut : s.separates m side = true) :
    FromBefore m old side es { s with sent := request :: s.sent } := by
  refine ⟨hb.committed, hb.pending, hb.built, ?_⟩
  intro call hmem hcallee hmember
  rcases List.mem_cons.mp hmem with rfl | hmem
  · rw [Packet.route, Option.some.injEq, Prod.mk.injEq] at hroute
    obtain ⟨rfl, rfl⟩ := hroute
    refine hb.built call hnet ?_
    by_contra hout
    rw [separates_iff.mp hcut _ hcaller _ hmember fun hiff => hout (hiff.mpr hcallee)] at hno
    cases hno
  · exact hb.sent call hmem hcallee hmember

end Step

section Run

variable (h₀ : (interceptedSystem m).Run ts s₀)
  (hside : 2 * (m.ids.filter (· ∈ side)).length ≤ m.ids.length)
include h₀ hside

/-- **As long as the partition lasts**, all that is committed and applied on `side` is old. -/
theorem fromBefore_of_run (h : ((interceptedSystem m).startingAt s₀).Run us s)
    (htame : Tame (plainView.run (ts ++ us)))
    (hcut : ∀ t ∈ us, t.before.separates m side = true) :
    FromBefore m (Proposed (events ts)) side (events (ts ++ us)) s ∧
      ∀ n ∈ side, ∀ result, .applied n result ∈ events us →
        ∃ e, Proposed (events ts) e ∧ result.data = e.command := by
  induction h with
  | init hi =>
    obtain rfl : _ = s₀ := hi
    rw [List.append_nil] at htame ⊢
    exact ⟨fromBefore_init h₀ htame, by simp⟩
  | @step us s s' i es hr hs ih =>
    have hcut' := List.forall_mem_append.mp hcut
    have htame' : Tame (plainView.run (ts ++ us)) := by
      rw [← List.append_assoc, View.run_append] at htame
      exact htame.init
    obtain ⟨hb, hres⟩ := ih htame' hcut'.1
    rw [← List.append_assoc, events_append (ts ++ us), events_append us, events_singleton]
    have hrun := plain_run (h₀.append hr)
    have hevents := plain_events (h₀.append hr)
    cases move_of_step hs with
    | @node i c es hsent hc =>
      have hinv := inv_of_run hrun htame'
      have hw := (refines hrun htame').2
      have hsteps := steps_of_step hrun hw hinv hc (by
        rw [← List.append_assoc, View.run_append, plain_node] at htame
        exact htame)
      rw [hevents] at hinv hw hsteps
      have hg := hinv.steps_grows hsteps.1
      -- the run up to here and this step, for what it commits
      have hcommit : ∀ n ∈ side, ∀ t N g, .committed n t N g ∈ es →
          ∀ e ∈ g.take N, Proposed (events ts) e := by
        intro n hn t N g hc'
        refine proposed_of_committed h₀ (.step hr hs) htame hcut hside hn (t := t) ?_
        rw [← List.append_assoc, events_append, events_singleton]
        exact List.mem_append_right _ hc'
      obtain ⟨hn, hoffers, eff, hmove, rfl, rfl⟩ := clusterSystem_move hc
      have hcommitted : i.node ∈ side →
          ∀ e ∈ eff.node.raft.log.take eff.node.raft.commitIndex, Proposed (events ts) e := by
        intro hin
        exact hb.take_commitIndex hw hinv hn hin hsent hoffers hmove (hcommit _ hin)
      refine ⟨hb.node hinv hg hmove hcommitted, ?_⟩
      intro n hin result hmem
      rcases List.mem_append.mp hmem with hmem | hmem
      · exact hres n hin result hmem
      · obtain rfl : n = i.node := hmove.applied_id hmem
        exact hb.of_result hin hmove (hcommitted hin) (Or.inr hmem)
    | letThrough hroute hnet hno =>
      rw [List.append_nil, List.append_nil]
      have hcaller := caller_mem_of_net hrun _ hnet _ _ hroute
      have hnow : s.separates m side = true := hcut'.2 _ (List.mem_singleton_self _)
      exact ⟨hb.letThrough hroute hnet hcaller hno hnow, hres⟩
    | hijacked | control =>
      rw [List.append_nil, List.append_nil]
      exact ⟨⟨hb.committed, hb.pending, hb.built, hb.sent⟩, hres⟩

/--
**A minority applies nothing new.** While the interceptors separate `side`, which has at most half
of the members, from the others, what a leader on `side` commits and what any node on `side` hands
to its application was proposed before.
-/
theorem minority_applies_nothing_new (h : ((interceptedSystem m).startingAt s₀).Run us s)
    (htame : Tame (plainView.run (ts ++ us)))
    (hcut : ∀ t ∈ us, t.before.separates m side = true) :
    (∀ n ∈ side, ∀ t N g, .committed n t N g ∈ events us →
      ∀ e ∈ g.take N, ∃ u, .proposed u e ∈ events ts) ∧
    ∀ n ∈ side, ∀ result, .applied n result ∈ events us →
      ∃ u e, .proposed u e ∈ events ts ∧ result.data = e.command := by
  constructor
  · intro n hn t N g hc e he
    refine proposed_of_committed h₀ h htame hcut hside hn (t := t) (g := g) ?_ e he
    rw [events_append]
    exact List.mem_append_right _ hc
  · intro n hn result hmem
    obtain ⟨e, ⟨u, hu⟩, hdata⟩ := (fromBefore_of_run h₀ hside h htame hcut).2 n hn result hmem
    exact ⟨u, e, hu, hdata⟩

end Run

/-- Node 0, leader of term 1, has sent an entry to node 1 when it is cut off. -/
def entryOut : List InterceptedInput :=
  everywhere (RaftWrapper.prepare [0, 1, 2] 1) ++
  (stepsOf 0 0 [.loopTop] ++
    stepsOf 0 300 ([.poll, .startElection shortTimeout] ++ ask 0)).map .node ++
  [.send (.voteRequest ⟨0, 0, 1, ballot 1 0 []⟩)] ++ wonBehindCut ++
  (stepsOf 0 330 [.initLeader, .propose [120], .buildRound 2]).map .node ++
  [.send (.appendRequest (firstAppend 2 0 1 ⟨1, [120]⟩))] ++
  everywhere (RaftWrapper.disconnect [0])

/-- It commits and applies the entry then, but the next one does not get to anybody. -/
def appliedBehindCut : List InterceptedInput :=
  (stepsOf 1 340 [.appendEntries (firstAppend 2 0 1 ⟨1, [120]⟩) shortTimeout] ++
    stepsOf 0 350 [.roundReturned [some { term := 1, success := true }, none] shortTimeout,
      .applyNext, .propose [121], .loopTop, .buildRound 5]).map .node ++
  [.send (.appendRequest ⟨5, 0, 1, ⟨1, 0, 1, 1, [⟨1, [121]⟩], 1⟩⟩)]

theorem minority_applies_nothing_new_appliedBehindCut : ∃ ts us s₀ s,
    (interceptedSystem threeNodes).Run ts s₀ ∧
    ((interceptedSystem threeNodes).startingAt s₀).Run us s ∧
    (ts ++ us).map Transition.input = entryOut ++ appliedBehindCut ∧
    (∀ t ∈ us, t.before.separates threeNodes [0] = true) ∧
    .applied 0 ⟨true, [120], 1⟩ ∈ events us ∧ s.lost.length = 1 ∧
    ∃ u e, .proposed u e ∈ events ts ∧ [120] = e.command := by
  obtain ⟨ts, s, hr, hi, hk, hcut, he, hlost⟩ := exists_interceptedRun
    (entryOut ++ appliedBehindCut)
    (fun ts s => (∀ t ∈ plainView.run ts, t.before.keepsBallot threeNodes t.input = true) ∧
      (∀ t ∈ ts.drop entryOut.length, t.before.separates threeNodes [0] = true) ∧
      .applied 0 ⟨true, [120], 1⟩ ∈ events (ts.drop entryOut.length) ∧ s.lost.length = 1)
    (by decide +kernel)
  have htame := tame_of_keepsBallots (plain_run hr) (keepsBallots_of_forall hk)
  rw [← List.take_append_drop entryOut.length ts] at hr hi htame
  obtain ⟨s₀, h₀, h⟩ := hr.of_append
  have hnew := minority_applies_nothing_new h₀ (by decide) h htame hcut
  exact ⟨_, _, s₀, s, h₀, h, hi, hcut, he, hlost, hnew.2 0 (List.mem_singleton_self 0) _ he⟩

end Rafty
