import Rafty.Properties.Interceptor
import Rafty.Safety.Proposals

/-!
# A minority behind a partition

From some moment on the interceptors hijack every call between `side` and the other members, and no
more than half of the members are on `side`. What was let through before may still arrive.

* `sent_before` — a request from one side to the other that reaches a handler was let through before
  that moment.
* `no_new_leader_in_minority` — whoever is elected on `side` is elected in a term it had reached
  before: a voter from the other side got its request then.
* `minority_applies_nothing_new` — what is committed or applied on `side` was proposed before: a
  commit needs a follower on the other side, and what that one can acknowledge was sent then.
-/

namespace Rafty

open Infra Replication

/-! ## Who sends what -/

namespace Node

variable {cfg : Config} {s : Node} {i : Input} {eff : Effect}

/-- A node sends requests in its own name. -/
theorem Move.caller_eq (h : Move cfg s i eff) {request : Packet} {caller callee : NodeId}
    (hmem : request ∈ eff.sends) (hroute : request.route = some (caller, callee)) :
    caller = cfg.id := by
  cases h with
  | buildRound _ _ h =>
    obtain ⟨-, -, hall⟩ := Raft.buildRequests_eq_some h
    obtain ⟨req, hreq, rfl⟩ := List.mem_map.mp hmem
    rw [Packet.route, Option.some.injEq, Prod.mk.injEq] at hroute
    exact hroute.1.symm.trans (hall req hreq).2
  | requestSend =>
    obtain rfl := List.mem_singleton.mp hmem
    rw [Packet.route, Option.some.injEq, Prod.mk.injEq] at hroute
    exact hroute.1.symm
  | appendStale | appendRefused | appendStored | voteStale | voteRefused | voteGranted =>
    obtain rfl := List.mem_singleton.mp hmem
    cases hroute
  | _ => cases hmem

end Node

/-- The term that the election loop has read for its next request. -/
def Thread.readTerm : Thread → Option Nat
  | .requestIndex _ _ _ term => some term
  | .requestSend _ _ _ term _ => some term
  | _ => none

namespace Node

variable {cfg : Config} {s : Node} {i : Input} {eff : Effect}

theorem readTerm_of_isIdle {thread : Thread} (h : thread.isIdle = true) :
    thread.readTerm = none := by
  cases thread <;> first | rfl | cases h

theorem readTerm_electionLoop (votes : Nat) (todo : List NodeId) :
    (electionLoop votes todo).readTerm = none := by
  cases todo <;> rfl

theorem readTerm_afterVote (votes : Nat) (todo : List NodeId) :
    (afterVote cfg votes todo).readTerm = none := by
  unfold afterVote
  split
  · rfl
  · exact readTerm_electionLoop votes todo

theorem readTerm_applyResults (site : CallSite) (results : List ApplyResult) :
    (applyResults site results).readTerm = none := by
  cases results <;> cases site <;> rfl

/-- The term for a request is the current one when it is read, and is kept until the request. -/
theorem Move.readTerm (h : Move cfg s i eff) {term : Nat}
    (hread : eff.node.thread.readTerm = some term) :
    s.thread.readTerm = some term ∨ term = s.raft.currentTerm := by
  cases h with
  | requestTerm => exact Or.inr (Option.some.inj hread).symm
  | requestIndex ht =>
    refine Or.inl ?_
    rw [ht]
    exact hread
  | quiet _ h =>
    rcases h.thread with ht | ⟨hidle, -⟩
    · exact Or.inl (by rw [← ht]; exact hread)
    · rw [show (silent _).node.thread.readTerm = none from readTerm_of_isIdle hidle] at hread
      cases hread
  | startElection => simp [readTerm_electionLoop] at hread
  | @voteReturned _ votes call todo reply =>
    cases reply with
    | none => simp [silent, Node.voteReturned, readTerm_electionLoop] at hread
    | some reply => cases hread
  | compareTerm =>
    simp only [silent, Node.compareTerm] at hread
    split at hread
    · cases hread
    · split at hread
      · simp [readTerm_afterVote] at hread
      · simp [readTerm_electionLoop] at hread
  | roundFinished | applyNext => simp [readTerm_applyResults] at hread
  | @roundDropped _ _ _ _ site | @roundYielded _ _ _ _ site => cases site <;> cases hread
  | appendStale | appendRefused | appendStored | voteStale | voteRefused | voteGranted | proposed
  | notLeader => exact Or.inl hread
  | _ => cases hread

/-- A ballot carries the term that was read for it. -/
theorem Move.of_voteRequest (h : Move cfg s i eff) {call : Call RequestVoteReq}
    (hmem : .voteRequest call ∈ eff.sends) :
    call.caller = cfg.id ∧ call.request.candidateId = cfg.id ∧
      s.thread.readTerm = some call.request.term := by
  cases h with
  | requestSend ht =>
    obtain ⟨rfl⟩ := Packet.voteRequest.inj (List.mem_singleton.mp hmem)
    rw [ht]
    exact ⟨rfl, rfl, rfl⟩
  | buildRound => simp at hmem
  | appendStale | appendRefused | appendStored | voteStale | voteRefused | voteGranted =>
    simp at hmem
  | _ => cases hmem

/-- A grant answers the request at hand. -/
theorem Move.of_granted (h : Move cfg s i eff) {v : NodeId} {request : RequestVoteReq}
    {log : List Entry} (hmem : .granted v request log ∈ eff.events) :
    v = cfg.id ∧ ∃ call timeout, i.action = .requestVote call timeout ∧ call.request = request := by
  cases h with
  | voteGranted =>
    rw [List.mem_singleton, Event.granted.injEq] at hmem
    obtain ⟨rfl, rfl, -⟩ := hmem
    exact ⟨rfl, _, _, rfl, rfl⟩
  | appendStored | proposed | startElection | elected | applyNext => simp at hmem
  | roundFinished =>
    unfold commitEvents at hmem
    split at hmem <;> simp at hmem
  | _ => cases hmem

/-- A success answers the request at hand. -/
theorem Move.of_accepted (h : Move cfg s i eff) {v : NodeId} {t k : Nat}
    (hmem : .accepted v t k ∈ eff.events) :
    v = cfg.id ∧ ∃ call timeout, i.action = .appendEntries call timeout ∧
      t = call.request.term ∧ k = call.request.prevLogIndex + call.request.entries.length := by
  cases h with
  | appendStored =>
    simp only [List.mem_cons, Event.accepted.injEq, List.mem_map, reduceCtorEq, and_false,
      exists_false, or_false] at hmem
    obtain ⟨rfl, rfl, rfl⟩ := hmem
    exact ⟨rfl, _, _, rfl, rfl, rfl⟩
  | voteGranted | proposed | startElection | elected | applyNext => simp at hmem
  | roundFinished =>
    unfold commitEvents at hmem
    split at hmem <;> simp at hmem
  | _ => cases hmem

end Node

/-! ## What gets across -/

section Across

variable {m : Membership} {ts us : List (Transition InterceptedCluster InterceptedInput Event)}
  {s₀ s : InterceptedCluster} {side : List NodeId}

open InterceptedCluster

theorem plain_run (h : (interceptedSystem m).Run ts s) :
    (clusterSystem m).Run (plainView.run ts) s.cluster := (plainView_sound m).run h

theorem plain_events (h : (interceptedSystem m).Run ts s) :
    events (plainView.run ts) = events ts := by
  rw [(plainView_sound m).events_run h]
  simp [plainView]

theorem plain_node {i : ClusterInput} {es : List Event} {s' : InterceptedCluster} :
    plainView.run [⟨s, .node i, es, s'⟩] = [⟨s.cluster, i, es, s'.cluster⟩] := by
  simp [View.run, View.transition, plainView]

/-- The requests on the network are those of members. -/
theorem caller_mem_of_net {ts : List (Transition Cluster ClusterInput Event)} {c : Cluster}
    (h : (clusterSystem m).Run ts c) : ∀ request ∈ c.net, ∀ caller callee,
      request.route = some (caller, callee) → caller ∈ m.ids := by
  induction h with
  | init hi =>
    obtain ⟨timeouts, rfl⟩ := hi
    simp [Cluster.init]
  | step _ hs ih =>
    obtain ⟨hn, -, eff, hmove, rfl, -⟩ := clusterSystem_move hs
    intro request hmem caller callee hroute
    rcases Cluster.mem_advance_net hmem with hmem | hmem
    · exact ih request hmem caller callee hroute
    · obtain rfl := hmove.caller_eq hmem hroute
      exact hn

/-- What was let through was on the network then. -/
theorem exists_run_of_sent (h : (interceptedSystem m).Run ts s) {request : Packet}
    (hmem : request ∈ s.sent) : ∃ as bs s₁, ts = as ++ bs ∧ (interceptedSystem m).Run as s₁ ∧
      ((interceptedSystem m).startingAt s₁).Run bs s ∧ request ∈ s₁.cluster.net := by
  induction h with
  | init hi =>
    obtain ⟨timeouts, rfl⟩ := hi
    cases hmem
  | @step ts s s' i es hr hs ih =>
    have hold : request ∈ s.sent → ∃ as bs s₁, ts ++ [⟨s, i, es, s'⟩] = as ++ bs ∧
        (interceptedSystem m).Run as s₁ ∧ ((interceptedSystem m).startingAt s₁).Run bs s' ∧
        request ∈ s₁.cluster.net := by
      intro hold
      obtain ⟨as, bs, s₁, rfl, h₁, hbs, hnet⟩ := ih hold
      exact ⟨as, bs ++ [_], s₁, List.append_assoc .., h₁, .step hbs hs, hnet⟩
    cases move_of_step hs with
    | node | hijacked | control => exact hold hmem
    | letThrough _ hnet =>
      rcases List.mem_cons.mp hmem with rfl | hmem
      · exact ⟨ts, [_], s, rfl, hr, .step (.init rfl) hs, hnet⟩
      · exact hold hmem

theorem caller_mem_of_sent (h : (interceptedSystem m).Run ts s) {request : Packet}
    (hmem : request ∈ s.sent) {caller callee : NodeId}
    (hroute : request.route = some (caller, callee)) : caller ∈ m.ids := by
  obtain ⟨as, bs, s₁, -, h₁, -, hnet⟩ := exists_run_of_sent h hmem
  exact caller_mem_of_net (plain_run h₁) request hnet caller callee hroute

/-- **What crosses the cut was let through before.** -/
theorem sent_before (h : ((interceptedSystem m).startingAt s₀).Run us s)
    (hcut : ∀ t ∈ us, t.before.separates m side = true) {request : Packet}
    (hmem : request ∈ s.sent) {caller callee : NodeId}
    (hroute : request.route = some (caller, callee)) (hcaller : caller ∈ m.ids)
    (hcallee : callee ∈ m.ids) (hcross : ¬(caller ∈ side ↔ callee ∈ side)) :
    request ∈ s₀.sent := by
  induction h with
  | init hi =>
    obtain rfl : _ = s₀ := hi
    exact hmem
  | step _ hs ih =>
    rw [List.forall_mem_append, List.forall_mem_singleton] at hcut
    cases move_of_step hs with
    | node | hijacked | control => exact ih hcut.1 hmem
    | letThrough hroute' _ hno =>
      rcases List.mem_cons.mp hmem with rfl | hmem
      · -- its caller would have hijacked it
        rw [hroute, Option.some.injEq, Prod.mk.injEq] at hroute'
        obtain ⟨rfl, rfl⟩ := hroute'
        rw [separates_iff.mp hcut.2 _ hcaller _ hcallee hcross] at hno
        cases hno
      · exact ih hcut.1 hmem

/-- An event is one of a node, on a request that was let through if it handles one. -/
theorem exists_move_of_event (h : ((interceptedSystem m).startingAt s₀).Run us s) {e : Event}
    (he : e ∈ events us) : ∃ us₁ us₂ b n, ∃ (i : Input) (eff : Effect), us = us₁ ++ us₂ ∧
      ((interceptedSystem m).startingAt s₀).Run us₁ b ∧ n ∈ m.ids ∧
      (∀ request ∈ i.action.handled, request ∈ b.sent) ∧ b.cluster.offers n i.action = true ∧
      Node.Move (m.config n) (b.cluster.nodes n) i eff ∧ e ∈ eff.events := by
  obtain ⟨⟨b, i, es, a⟩, ht, he⟩ := mem_events.mp he
  obtain ⟨us₁, us₂, hus, hr, hs⟩ := h.of_mem ht
  dsimp only at hr hs he
  cases move_of_step hs with
  | node hsent hc =>
    obtain ⟨hn, hoffers, eff, hmove, -, rfl⟩ := clusterSystem_move hc
    exact ⟨us₁, _ :: us₂, b, _, _, eff, hus, hr, hn, hsent, hoffers, hmove, he⟩
  | letThrough | hijacked | control => cases he

end Across

/-! ## Elections -/

section Elections

variable {m : Membership} {ts us : List (Transition InterceptedCluster InterceptedInput Event)}
  {s₀ s : InterceptedCluster} {side : List NodeId}

open InterceptedCluster

/-- A candidate has reached the term of each ballot it has out. -/
structure Ballots (es : List Event) (s : InterceptedCluster) : Prop where
  reading : ∀ n term, (s.cluster.nodes n).thread.readTerm = some term →
    term ≤ (s.cluster.nodes n).raft.currentTerm
  requests : ∀ call, .voteRequest call ∈ s.cluster.net ∨ .voteRequest call ∈ s.sent →
    call.request.candidateId = call.caller ∧
      call.request.term ≤ (s.cluster.nodes call.caller).raft.currentTerm
  granted : ∀ v request log, .granted v request log ∈ es →
    request.term ≤ (s.cluster.nodes request.candidateId).raft.currentTerm

/-- A step of a node whose term does not go back. -/
theorem Ballots.node {es : List Event} {n : NodeId} {i : Input} {eff : Effect}
    (hb : Ballots es s) (hoffers : s.cluster.offers n i.action = true)
    (hmove : Node.Move (m.config n) (s.cluster.nodes n) i eff)
    (hterm : (s.cluster.nodes n).raft.currentTerm ≤ eff.node.raft.currentTerm) :
    Ballots (es ++ eff.events) { s with cluster := s.cluster.advance n i.action eff } := by
  -- no term goes back
  have hle : ∀ k, (s.cluster.nodes k).raft.currentTerm ≤
      ((s.cluster.advance n i.action eff).nodes k).raft.currentTerm := by
    intro k
    by_cases hk : k = n
    · subst hk
      rw [Cluster.advance_nodes_self]
      exact hterm
    · rw [Cluster.advance_nodes_ne hk]
  constructor
  · intro k term hread
    by_cases hk : k = n
    · subst hk
      refine le_trans ?_ (hle k)
      rw [Cluster.advance_nodes_self] at hread
      rcases hmove.readTerm hread with hold | rfl
      · exact hb.reading k term hold
      · exact Nat.le_refl _
    · rw [Cluster.advance_nodes_ne hk] at hread ⊢
      exact hb.reading k term hread
  · intro call hmem
    have hold : .voteRequest call ∈ s.cluster.net ∨ .voteRequest call ∈ s.sent →
        call.request.candidateId = call.caller ∧ call.request.term ≤
          ((s.cluster.advance n i.action eff).nodes call.caller).raft.currentTerm := by
      intro hmem
      obtain ⟨hid, ht⟩ := hb.requests call hmem
      exact ⟨hid, ht.trans (hle _)⟩
    rcases hmem with hmem | hmem
    · rcases Cluster.mem_advance_net hmem with hmem | hmem
      · exact hold (Or.inl hmem)
      · obtain ⟨hcaller, hid, hread⟩ := hmove.of_voteRequest hmem
        have hn : call.caller = n := hcaller
        refine ⟨hid.trans hcaller.symm, ?_⟩
        rw [hn]
        exact (hb.reading n _ hread).trans (hle n)
    · exact hold (Or.inr hmem)
  · intro v request log hmem
    rcases List.mem_append.mp hmem with hmem | hmem
    · exact (hb.granted v request log hmem).trans (hle _)
    · obtain ⟨-, call, timeout, ha, rfl⟩ := hmove.of_granted hmem
      rw [ha] at hoffers
      obtain ⟨hid, ht⟩ := hb.requests call (Or.inl (Cluster.offers_requestVote hoffers).2)
      rw [hid]
      exact ht.trans (hle _)

theorem ballots_of_run (h : (interceptedSystem m).Run ts s)
    (hk : ∀ t ∈ plainView.run ts,
      (t.before.nodes t.input.node).keepsTerm t.input.action = true) :
    Ballots (events ts) s := by
  induction h with
  | init hi =>
    obtain ⟨timeouts, rfl⟩ := hi
    constructor
    · intro n term hread
      cases hread
    · intro call hmem
      rcases hmem with hmem | hmem <;> cases hmem
    · intro v request log hmem
      cases hmem
  | @step ts s s' i es hr hs ih =>
    rw [View.run_append, List.forall_mem_append] at hk
    have hb := ih hk.1
    rw [events_append, events_singleton]
    cases move_of_step hs with
    | @node i c es _ hc =>
      obtain ⟨-, hoffers, eff, hmove, rfl, rfl⟩ := clusterSystem_move hc
      rw [plain_node, List.forall_mem_singleton] at hk
      exact hb.node hoffers hmove (hmove.currentTerm_le_iff.mpr hk.2)
    | letThrough _ hnet =>
      rw [List.append_nil]
      refine ⟨hb.reading, ?_, hb.granted⟩
      intro call hmem
      rcases hmem with hmem | hmem
      · exact hb.requests call (Or.inl hmem)
      · rcases List.mem_cons.mp hmem with rfl | hmem
        · exact hb.requests call (Or.inl hnet)
        · exact hb.requests call (Or.inr hmem)
    | hijacked | control =>
      rw [List.append_nil]
      exact ⟨hb.reading, hb.requests, hb.granted⟩

/-- A vote from the other side was asked for before, in a term the candidate had reached. -/
theorem term_le_of_granted (h₀ : (interceptedSystem m).Run ts s₀)
    (h : ((interceptedSystem m).startingAt s₀).Run us s)
    (hk : ∀ t ∈ plainView.run (ts ++ us),
      (t.before.nodes t.input.node).keepsTerm t.input.action = true)
    (hcut : ∀ t ∈ us, t.before.separates m side = true) {v : NodeId} {request : RequestVoteReq}
    {log : List Entry} (hmem : .granted v request log ∈ events (ts ++ us)) (hv : v ∉ side)
    (hcand : request.candidateId ∈ side) :
    request.term ≤ (s₀.cluster.nodes request.candidateId).raft.currentTerm := by
  rw [View.run_append, List.forall_mem_append] at hk
  have hb₀ := ballots_of_run h₀ hk.1
  rw [events_append] at hmem
  rcases List.mem_append.mp hmem with hmem | hmem
  · exact hb₀.granted v request log hmem
  · obtain ⟨us₁, us₂, b, n, i, eff, rfl, hr, hn, hsent, hoffers, hmove, he⟩ :=
      exists_move_of_event h hmem
    rw [View.run_append, List.forall_mem_append] at hk
    obtain ⟨rfl, call, timeout, ha, rfl⟩ := hmove.of_granted he
    have hin : .voteRequest call ∈ b.sent := hsent _ (by rw [ha]; rfl)
    rw [ha] at hoffers
    obtain ⟨hcallee, -⟩ := Cluster.offers_requestVote hoffers
    -- the request comes from the candidate, so it went from one side to the other
    have hb : Ballots (events (ts ++ us₁)) b := by
      refine ballots_of_run (h₀.append hr) ?_
      rw [View.run_append, List.forall_mem_append]
      exact ⟨hk.1, hk.2.1⟩
    have hid := (hb.requests call (Or.inr hin)).1
    have hbefore : .voteRequest call ∈ s₀.sent := by
      refine sent_before hr (List.forall_mem_append.mp hcut).1 hin rfl
        (caller_mem_of_sent (h₀.append hr) hin rfl) (hcallee ▸ hn) ?_
      rw [← hid, hcallee]
      intro hiff
      exact hv (hiff.mp hcand)
    rw [hid]
    exact (hb₀.requests call (Or.inr hbefore)).2

/--
**No new leader in a minority.** While the interceptors separate `side`, which has at most half of
the members, from the others, a node on `side` is not elected in a term that it had not reached
before.
-/
theorem no_new_leader_in_minority (h₀ : (interceptedSystem m).Run ts s₀)
    (h : ((interceptedSystem m).startingAt s₀).Run us s)
    (hk : ∀ t ∈ plainView.run (ts ++ us),
      (t.before.nodes t.input.node).keepsTerm t.input.action = true)
    (hcut : ∀ t ∈ us, t.before.separates m side = true)
    (hside : 2 * (m.ids.filter (· ∈ side)).length ≤ m.ids.length) {n : NodeId} {t : Nat}
    {g : List Entry} (hn : n ∈ side) (he : .elected n t g ∈ events us) :
    t ≤ (s₀.cluster.nodes n).raft.currentTerm := by
  have hrun := h₀.append h
  have hevents := plain_events hrun
  have he' : .elected n t g ∈ events (plainView.run (ts ++ us)) := by
    rw [hevents, events_append]
    exact List.mem_append_right _ he
  obtain ⟨quorum, hmaj, hvoted⟩ := exists_quorum_of_elected (plain_run hrun) he'
  obtain ⟨v, hv, hout⟩ := hmaj.exists_not_mem hside
  rcases hvoted v hv with ⟨request, log, hmem, rfl, rfl⟩ | ⟨-, rfl⟩
  · rw [hevents] at hmem
    exact term_le_of_granted h₀ h hk hcut hmem hout hn
  · exact absurd hn hout

end Elections

open InterceptedCluster

/-- Node 0 has asked node 1 for its vote when it is cut off. -/
def ballotOut : List InterceptedInput :=
  everywhere (RaftWrapper.prepare [0, 1, 2] 1) ++
  (stepsOf 0 0 [.loopTop] ++
    stepsOf 0 300 ([.poll, .startElection shortTimeout] ++ ask 0)).map .node ++
  [.send (.voteRequest ⟨0, 0, 1, ballot 1 0 []⟩)] ++ everywhere (RaftWrapper.disconnect [0])

/-- The request arrives nevertheless, and so does the reply. -/
def wonBehindCut : List InterceptedInput :=
  (stepsOf 1 310 [.requestVote ⟨0, 0, 1, ballot 1 0 []⟩ shortTimeout] ++
    stepsOf 0 320 [.voteReturned (some { term := 1, voteGranted := true }), .compareTerm,
      .decide shortTimeout]).map .node

theorem no_new_leader_in_minority_wonBehindCut : ∃ ts us s₀ s,
    (interceptedSystem threeNodes).Run ts s₀ ∧
    ((interceptedSystem threeNodes).startingAt s₀).Run us s ∧
    (ts ++ us).map Transition.input = ballotOut ++ wonBehindCut ∧
    (∀ t ∈ us, t.before.separates threeNodes [0] = true) ∧ .elected 0 1 [] ∈ events us ∧
    1 ≤ (s₀.cluster.nodes 0).raft.currentTerm := by
  obtain ⟨ts, s, hr, hi, hk, hcut, he⟩ := exists_interceptedRun (ballotOut ++ wonBehindCut)
    (fun ts _ => (∀ t ∈ plainView.run ts,
        (t.before.nodes t.input.node).keepsTerm t.input.action = true) ∧
      (∀ t ∈ ts.drop ballotOut.length, t.before.separates threeNodes [0] = true) ∧
      .elected 0 1 [] ∈ events (ts.drop ballotOut.length)) (by decide +kernel)
  rw [← List.take_append_drop ballotOut.length ts] at hr hi hk
  obtain ⟨s₀, h₀, h⟩ := hr.of_append
  refine ⟨_, _, s₀, s, h₀, h, hi, hcut, he, ?_⟩
  exact no_new_leader_in_minority h₀ h hk hcut (by decide) (List.mem_singleton_self 0) he

end Rafty
