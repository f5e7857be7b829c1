import Rafty.Safety.Leader
import Rafty.Safety.Logs
import Rafty.Safety.Timers

/-!
# The read lease

`get_lease_state` promises that no newer leader has committed anything. Under one clock the promise
can rest on the followers: whoever answered the leader in the round that granted the lease starts no
election for 300 ms (`Rafty/Safety/Timers.lean`), and the lease is shorter than that. But nothing
keeps such a node from voting for somebody else meanwhile: `handle_request_vote` knows neither the
timer nor the lease.

`LeaseSafe` asks for what is missing, of the nodes whose answers a granted lease rests on. Then a
majority stands behind each lease that runs (`leaseSupport`), none of its members can have voted in
a later term (`vote_after_support`), and `lease_exclusive` follows since two majorities meet.
`lease_overlaps_commit` is a run without it.
-/

namespace Rafty

open Infra

variable {m : Membership} {ts : List (Transition Cluster ClusterInput Event)} {c : Cluster}

/-! ## The condition -/

/-- The step ends a round that grants a lease, and counts a reply to `call` for it. -/
def Node.countsForLease (cfg : Config) (s : Node) (action : Action)
    (call : Call AppendEntriesRequest) : Bool :=
  match action, s.thread with
  | .roundReturned replies _, .awaitRound reqs _ =>
    s.raft.GrantsLease cfg (peerResults reqs replies) ∧
      (reqs.zip replies).any fun p =>
        p.1.call = call ∧ p.2.any fun reply => reply.term = s.raft.currentTerm
  | _, _ => false

/-- In `u` a node accepts an `AppendEntries`, and the lease granted in `g` rests on its answer. -/
def supports (m : Membership) (u g : Transition Cluster ClusterInput Event) : Bool :=
  match u.input.action with
  | .appendEntries call _ => (u.before.nodes u.input.node).hears u.input.action ∧
      (g.before.nodes g.input.node).countsForLease (m.config g.input.node) g.input.action call
  | _ => false

/-- In `t` the node of `u` may vote, in a later term than that of the `AppendEntries` of `u`. -/
def votesPast (u t : Transition Cluster ClusterInput Event) : Bool :=
  match u.input.action, t.input.action with
  | .appendEntries call _, .requestVote vote _ => u.input.node = t.input.node ∧
      call.request.term < vote.request.term ∧
      (t.before.nodes t.input.node).mayGrant t.input.action
  | _, _ => false

/-- Whoever supports the lease granted in `g` votes in no later term until it has run out. -/
def voteWaits (m : Membership) (g u t : Transition Cluster ClusterInput Event) : Bool :=
  supports m u g ∧ votesPast u t → g.input.now + leaseDuration ≤ t.input.now

/-- The lease granted in `g` rests on answers that are at most 50 ms old. -/
def answerFresh (m : Membership) (u g : Transition Cluster ClusterInput Event) : Bool :=
  supports m u g → g.input.now ≤ u.input.now + milliseconds 50

/--
The runs in which leases can be relied on. The clock is shared, no term goes back and killed nodes
stand still. A lease rests on answers that are at most 50 ms old when it is granted, and whoever
gave one of them votes for nobody in a later term until it has run out.
-/
structure LeaseSafe (m : Membership) (ts : List (Transition Cluster ClusterInput Event)) :
    Prop where
  clock : ts.Pairwise fun u t => u.input.now ≤ t.input.now
  keepsTerm : ∀ t ∈ ts, (t.before.nodes t.input.node).keepsTerm t.input.action = true
  alive : ∀ t ∈ ts, (t.before.nodes t.input.node).raft.dead = false
  voteWaits : ∀ g ∈ ts, ts.Pairwise fun u t => voteWaits m g u t = true
  answerFresh : ts.Pairwise fun u g => answerFresh m u g = true

theorem LeaseSafe.init {us : List (Transition Cluster ClusterInput Event)}
    (h : LeaseSafe m (ts ++ us)) : LeaseSafe m ts where
  clock := (List.pairwise_append.mp h.clock).1
  keepsTerm t ht := h.keepsTerm t (List.mem_append_left _ ht)
  alive t ht := h.alive t (List.mem_append_left _ ht)
  voteWaits g hg := (List.pairwise_append.mp (h.voteWaits g (List.mem_append_left _ hg))).1
  answerFresh := (List.pairwise_append.mp h.answerFresh).1

theorem supports_iff {u g : Transition Cluster ClusterInput Event}
    {call : Call AppendEntriesRequest} {timeout : ElectionTimeout}
    (ha : u.input.action = .appendEntries call timeout) : supports m u g = true ↔
      (u.before.nodes u.input.node).raft.currentTerm ≤ call.request.term ∧
      (g.before.nodes g.input.node).countsForLease (m.config g.input.node) g.input.action call =
        true := by
  simp [supports, ha, Node.hears]

/-! ## Votes -/

/-- A vote was given in some step. -/
theorem votedFor_events {v : NodeId} {term : Nat} {candidate : NodeId} :
    VotedFor (events ts) v term candidate ↔ ∃ t ∈ ts, VotedFor t.events v term candidate := by
  simp only [VotedFor, mem_events]
  grind

/--
**A node that supports a lease votes in no later term until it has run out.** The lease is granted
in `g`, which may be a step of the run or come after it.
-/
theorem vote_after_support (h : (clusterSystem m).Run ts c)
    (hclock : ts.Pairwise fun u t => u.input.now ≤ t.input.now)
    (hterm : ∀ t ∈ ts, (t.before.nodes t.input.node).keepsTerm t.input.action = true)
    (halive : ∀ t ∈ ts, (t.before.nodes t.input.node).raft.dead = false)
    {g : Transition Cluster ClusterInput Event}
    (hwaits : ts.Pairwise fun u t => voteWaits m g u t = true) :
    ∀ u ∈ ts, supports m u g = true → g.input.now ≤ u.input.now + milliseconds 50 →
      ∀ {call timeout}, u.input.action = .appendEntries call timeout →
      ∀ t ∈ ts, ∀ {term candidate}, VotedFor t.events u.input.node term candidate →
        call.request.term < term → g.input.now + leaseDuration ≤ t.input.now := by
  induction h with
  | init => simp
  | @step ts c c' i es hr hs ih =>
    obtain ⟨-, -, eff, hmove, rfl, rfl⟩ := clusterSystem_move hs
    rw [List.forall_mem_append, List.forall_mem_singleton] at hterm halive
    obtain ⟨hclock, -, hlast⟩ := List.pairwise_append.mp hclock
    obtain ⟨hwaits, -, hwait⟩ := List.pairwise_append.mp hwaits
    intro u hu hsup hfresh call timeout ha t ht term candidate hv hlt
    have hle := ((supports_iff ha).mp hsup).1
    rcases List.mem_append.mp hu with hu | hu
    · rcases List.mem_append.mp ht with ht | ht
      · exact ih hclock hterm.1 halive.1 hwaits u hu hsup hfresh ha t ht hv hlt
      · rw [List.mem_singleton] at ht
        subst ht
        obtain ⟨hnode, -, -⟩ := hmove.of_votedFor hv
        have hnode' : u.input.node = i.node := hnode
        rcases hmove.vote_cases hv with ⟨vote, timeout', hvote, rfl, -, hgrant⟩ |
          ⟨-, -, hthread, hb, -⟩
        · have hvote' : i.action = .requestVote vote timeout' := hvote
          refine of_decide_eq_true (hwait u hu _ (List.mem_singleton_self _)) ⟨hsup, ?_⟩
          simp only [votesPast, ha, hvote']
          exact decide_eq_true ⟨hnode', hlt, hvote' ▸ hgrant⟩
        · -- its own election: the timer has run for 300 ms, the lease runs for 250
          have hheard : Heard ts i.node call.request.term u.input.now :=
            ⟨u, hu, hnode', rfl, hnode' ▸ hle, call, timeout, ha, rfl⟩
          obtain ⟨w, hw, hover⟩ :=
            (timerInv hr hclock halive.1 i.node).expired hb hthread _ _ hheard
          have := hlast w hw _ (List.mem_singleton_self _)
          unfold leaseDuration milliseconds at *
          omega
    · rw [List.mem_singleton] at hu
      subst hu
      rcases List.mem_append.mp ht with ht | ht
      · -- it had reached the later term by the time it accepted the request
        have hreached : term ≤ (c.nodes i.node).raft.currentTerm :=
          term_le_of_votedFor hr hterm.1 (votedFor_events.mpr ⟨t, ht, hv⟩)
        exact absurd (hreached.trans hle) (Nat.not_le.mpr hlt)
      · rw [List.mem_singleton] at ht
        subst ht
        have ha' : i.action = .appendEntries call timeout := ha
        rcases hmove.vote_cases hv with ⟨vote, timeout', hvote, -⟩ | ⟨timeout', hstart, -⟩
        · cases ha'.symm.trans hvote
        · cases ha'.symm.trans hstart

/-! ## Leases -/

/-- A lease stays as it is, or is granted at the end of a round that a majority answered. -/
theorem Node.Move.leaseExpires {cfg : Config} {s : Node} {i : Input} {eff : Effect}
    (h : Move cfg s i eff) : eff.node.raft.leaseExpires = s.raft.leaseExpires ∨
    ∃ reqs site replies timeout, s.thread = .awaitRound reqs site ∧
      i.action = .roundReturned replies timeout ∧
      s.raft.GrantsLease cfg (peerResults reqs replies) ∧
      eff.node.raft.currentTerm = s.raft.currentTerm ∧
      eff.node.raft.leaseExpires = i.now + leaseDuration := by
  cases h with
  | @roundFinished _ replies _ reqs _ _ _ ht _ h =>
    by_cases hg : s.raft.GrantsLease cfg (peerResults reqs replies)
    · exact Or.inr ⟨_, _, _, _, ht, rfl, hg, h.currentTerm, h.lease.trans (if_pos hg)⟩
    · exact Or.inl (h.lease.trans (if_neg hg))
  | appendRefused _ _ _ hl | appendStored _ hl | voteRefused _ _ hl | voteGranted _ _ _ _ hl =>
    exact Or.inl hl.leaseExpires
  | roundYielded _ _ _ _ _ _ _ hlease => exact Or.inl hlease
  | buildRound _ _ h =>
    obtain ⟨⟨table, rfl⟩, -, -⟩ := Raft.buildRequests_eq_some h
    exact Or.inl rfl
  | quiet _ h => exact Or.inl h.leaseExpires
  | voteReturned | compareTerm => exact Or.inl (by simp [silent])
  | _ => exact Or.inl rfl

/-- Every answer on its way is to a stale request, or was given in a step that accepted it. -/
theorem answered (h : (clusterSystem m).Run ts c) {call : Call AppendEntriesRequest}
    {reply : AppendEntriesReply} (hmem : .appendReply call reply ∈ c.net) :
    call.request.term < reply.term ∨ ∃ u ∈ ts, u.input.node = call.callee ∧
      (u.before.nodes call.callee).raft.currentTerm ≤ call.request.term ∧
      ∃ timeout, u.input.action = .appendEntries call timeout := by
  induction h with
  | init hi =>
    obtain ⟨timeouts, rfl⟩ := hi
    cases hmem
  | @step ts c c' i es _ hs ih =>
    obtain ⟨-, hoffers, eff, hmove, rfl, rfl⟩ := clusterSystem_move hs
    rcases Cluster.mem_advance_net hmem with hmem | hmem
    · exact (ih hmem).imp id fun ⟨u, hu, hrest⟩ => ⟨u, List.mem_append_left _ hu, hrest⟩
    · obtain ⟨⟨timeout, ha⟩, ⟨-, hstale⟩ | ⟨hle, -⟩⟩ := hmove.of_appendReply hmem
      · exact Or.inl hstale
      · have ha' : i.action = .appendEntries call timeout := ha
        rw [ha'] at hoffers
        have hcallee := (Cluster.offers_appendEntries hoffers).1
        exact Or.inr ⟨_, List.mem_append_right _ (List.mem_singleton_self _), hcallee.symm,
          by rw [hcallee]; exact hle, timeout, ha⟩

/-- The peers whose replies carry the leader's term. -/
def confirmers (term : Nat) (results : List PeerResult) : List NodeId :=
  (results.filter fun result => result.reply.any fun reply => reply.term = term).map
    PeerResult.peerId

theorem mem_confirmers {term : Nat} {results : List PeerResult} {v : NodeId}
    (h : v ∈ confirmers term results) : ∃ result ∈ results, result.peerId = v ∧
      ∃ reply ∈ result.reply, reply.term = term := by
  obtain ⟨result, hmem, rfl⟩ := List.mem_map.mp h
  obtain ⟨hmem, hany⟩ := List.mem_filter.mp hmem
  obtain ⟨reply, hreply, hterm⟩ := (Option.any_eq_true _ _).mp hany
  exact ⟨result, hmem, rfl, reply, hreply, of_decide_eq_true hterm⟩

/-- The results of a round are of the peers it asked, in their order. -/
theorem peerIds_sublist : ∀ (reqs : List PeerReq) (replies : List (Option AppendEntriesReply)),
    ((peerResults reqs replies).map PeerResult.peerId).Sublist (reqs.map (·.call.callee))
  | [], _ => by simp [peerResults]
  | req :: reqs, [] => List.nil_sublist _
  | req :: reqs, reply :: replies => (peerIds_sublist reqs replies).cons_cons _

/-- A lease rests on the answers of a majority: each of them was given in a step of the run. -/
theorem supporters_of_round (hr : (clusterSystem m).Run ts c)
    {g : Transition Cluster ClusterInput Event} (hg : g.before = c) (hn : g.input.node ∈ m.ids)
    {reqs : List PeerReq} {site : CallSite} {replies : List (Option AppendEntriesReply)}
    {timeout : ElectionTimeout} (ht : (c.nodes g.input.node).thread = .awaitRound reqs site)
    (ha : g.input.action = .roundReturned replies timeout)
    (hoffers : c.offers g.input.node g.input.action = true)
    (hgrant : (c.nodes g.input.node).raft.GrantsLease (m.config g.input.node)
      (peerResults reqs replies)) :
    ∃ supporters, Majority m.ids supporters ∧ ∀ v ∈ supporters, v = g.input.node ∨
      ∃ u ∈ ts, u.input.node = v ∧ supports m u g = true ∧ ∃ call timeout,
        u.input.action = .appendEntries call timeout ∧
        call.request.term = (c.nodes g.input.node).raft.currentTerm := by
  have hround := roundInv_of_run hr g.input.node
  have hsub : (confirmers (c.nodes g.input.node).raft.currentTerm
      (peerResults reqs replies)).Sublist (m.peers g.input.node) := by
    have hcallees := hround.callees
    rw [ht] at hcallees
    exact ((List.filter_sublist.map _).trans (peerIds_sublist reqs replies)).trans hcallees
  refine ⟨_, m.majority_cons hn ((m.cons_peers_nodup hn).of_cons.sublist hsub) hsub.subset ?_, ?_⟩
  · rw [confirmers, List.length_map]
    exact hgrant.2.2
  · intro v hv
    refine (List.mem_cons.mp hv).imp id fun hv => ?_
    obtain ⟨result, hmem, rfl, reply, hreply, hterm⟩ := mem_confirmers hv
    rw [ha] at hoffers
    obtain ⟨req, hzip, hpeer, -, -, hnet⟩ := Cluster.offers_roundReturned ht hoffers hmem hreply
    have hown := (hround.own hgrant.1 req (by rw [ht]; exact (List.of_mem_zip hzip).1)).term
    rcases answered hr hnet with hstale | ⟨u, hu, hnode, hle, timeout', haction⟩
    · omega
    · refine ⟨u, hu, hnode.trans hpeer.symm, (supports_iff haction).mpr ⟨hnode ▸ hle, ?_⟩,
        _, _, haction, hown⟩
      unfold Node.countsForLease
      rw [hg, ha, ht]
      exact decide_eq_true ⟨hgrant,
        List.any_eq_true.mpr ⟨_, hzip, decide_eq_true ⟨rfl, by simp [hterm]⟩⟩⟩

/--
A majority stands behind the lease: it was granted in a step `g` of the run, and its members have
given answers for it, in terms the node has reached.
-/
def LeaseSupport (m : Membership) (ts : List (Transition Cluster ClusterInput Event)) (c : Cluster)
    (n : NodeId) : Prop :=
  (c.nodes n).raft.leaseExpires = 0 ∨ ∃ g ∈ ts,
    (c.nodes n).raft.leaseExpires = g.input.now + leaseDuration ∧
    ∃ supporters, Majority m.ids supporters ∧ ∀ v ∈ supporters, v = n ∨
      ∃ u ∈ ts, u.input.node = v ∧ supports m u g = true ∧
        g.input.now ≤ u.input.now + milliseconds 50 ∧ ∃ call timeout,
          u.input.action = .appendEntries call timeout ∧
          call.request.term ≤ (c.nodes n).raft.currentTerm

/-- Support stays when the lease does and the term does not go back. -/
theorem LeaseSupport.mono {us : List (Transition Cluster ClusterInput Event)} {c' : Cluster}
    {n : NodeId} (h : LeaseSupport m ts c n)
    (hlease : (c'.nodes n).raft.leaseExpires = (c.nodes n).raft.leaseExpires)
    (hterm : (c.nodes n).raft.currentTerm ≤ (c'.nodes n).raft.currentTerm) :
    LeaseSupport m (ts ++ us) c' n := by
  unfold LeaseSupport
  rw [hlease]
  refine h.imp id fun ⟨g, hg, hexp, supporters, hmaj, hall⟩ =>
    ⟨g, List.mem_append_left _ hg, hexp, supporters, hmaj, fun v hv => ?_⟩
  refine (hall v hv).imp id fun ⟨u, hu, hnode, hsup, hfresh, call, timeout, ha, hle⟩ => ?_
  exact ⟨u, List.mem_append_left _ hu, hnode, hsup, hfresh, call, timeout, ha, hle.trans hterm⟩

/-- **A majority stands behind every lease.** -/
theorem leaseSupport (h : (clusterSystem m).Run ts c) (hsafe : LeaseSafe m ts) (n : NodeId) :
    LeaseSupport m ts c n := by
  induction h with
  | init hi =>
    obtain ⟨timeouts, rfl⟩ := hi
    exact Or.inl rfl
  | @step ts c c' i es hr hs ih =>
    have hold := ih hsafe.init
    obtain ⟨hmem, hoffers, eff, hmove, rfl, rfl⟩ := clusterSystem_move hs
    by_cases hn : n = i.node
    · subst hn
      have hterm : (c.nodes i.node).raft.currentTerm ≤ eff.node.raft.currentTerm :=
        hmove.currentTerm_le_iff.mpr
          (hsafe.keepsTerm _ (List.mem_append_right _ (List.mem_singleton_self _)))
      rcases hmove.leaseExpires with hsame | ⟨reqs, site, replies, timeout, ht, ha, hg, hcur, hnew⟩
      · exact hold.mono (by rw [Cluster.advance_nodes_self]; exact hsame)
          (by rw [Cluster.advance_nodes_self]; exact hterm)
      · -- the new step grants the lease
        obtain ⟨supporters, hmaj, hall⟩ := supporters_of_round hr (g := ⟨c, i, eff.events, _⟩) rfl
          hmem ht ha hoffers hg
        refine Or.inr ⟨_, List.mem_append_right _ (List.mem_singleton_self _), ?_,
          supporters, hmaj, fun v hv => (hall v hv).imp id ?_⟩
        · rw [Cluster.advance_nodes_self]
          exact hnew
        · rintro ⟨u, hu, hnode, hsup, call, timeout', ha', hterm'⟩
          have hfresh := of_decide_eq_true ((List.pairwise_append.mp hsafe.answerFresh).2.2 u hu _
            (List.mem_singleton_self _)) hsup
          refine ⟨u, List.mem_append_left _ hu, hnode, hsup, hfresh, call, timeout', ha', ?_⟩
          rw [Cluster.advance_nodes_self, hcur]
          exact hterm'.le
    · exact hold.mono (by rw [Cluster.advance_nodes_ne hn]) (by rw [Cluster.advance_nodes_ne hn])

/--
**Lease exclusivity.** While `get_lease_state` returns true on a node, nobody has committed as
leader of a later term than the node's.
-/
theorem lease_exclusive (h : (clusterSystem m).Run ts c) (hsafe : LeaseSafe m ts) {n : NodeId}
    {now : Nat} (hnow : ∀ t ∈ ts, t.input.now ≤ now)
    (hlease : ((c.nodes n).raft.getLeaseState now).1 = true) {n' : NodeId} {t N : Nat}
    {g : List Entry} (hc : .committed n' t N g ∈ events ts) :
    t ≤ (c.nodes n).raft.currentTerm := by
  by_contra hgt
  have hlt := (Raft.getLeaseState_eq_true.mp (Prod.ext hlease rfl)).2.1
  obtain ⟨g', hel⟩ := elected_of_committed h hc
  obtain ⟨quorum, hmaj, hvoted⟩ := exists_quorum_of_elected h hel
  rcases leaseSupport h hsafe n with hzero | ⟨r, hr, hexp, supporters, hmaj', hall⟩
  · omega
  · obtain ⟨v, hv, hv'⟩ := hmaj.inter hmaj'
    rcases hall v hv' with rfl | ⟨u, hu, rfl, hsup, hfresh, call, timeout, ha, hle⟩
    · exact hgt (term_le_of_votedFor h hsafe.keepsTerm (hvoted v hv))
    · obtain ⟨w, hw, hvote⟩ := votedFor_events.mp (hvoted _ hv)
      have := vote_after_support h hsafe.clock hsafe.keepsTerm hsafe.alive (hsafe.voteWaits r hr)
        u hu hsup hfresh ha w hw hvote (by omega)
      have := hnow w hw
      omega

/-- Node 0, leader of term 1, commits an entry with both peers, which grants it a lease. -/
def grantedLease : List ClusterInput :=
  firstElection ++
  stepsOf 0 320 [.initLeader, .propose [120], .buildRound 2] ++
  stepsOf 1 330 [.appendEntries (firstAppend 2 0 1 ⟨1, [120]⟩) shortTimeout] ++
  stepsOf 2 330 [.appendEntries (firstAppend 3 0 2 ⟨1, [120]⟩) shortTimeout] ++
  stepsOf 0 340 [.roundReturned [some { term := 1, success := true },
    some { term := 1, success := true }] shortTimeout, .applyNext]

theorem lease_exclusive_grantedLease : ∃ ts c, (clusterSystem threeNodes).Run ts c ∧
    ts.map Transition.input = grantedLease ∧
    (c.nodes 0).raft.getLeaseState (milliseconds 500) = (true, 1) ∧
    ∃ g, .committed 0 1 1 g ∈ events ts ∧ 1 ≤ (c.nodes 0).raft.currentTerm := by
  obtain ⟨ts, c, hr, hi, hc, hlease, hnow, h1, h2, h3, h4, h5⟩ := exists_clusterRun grantedLease
    (fun ts c => .committed 0 1 1 [⟨1, [120]⟩] ∈ events ts ∧
      (c.nodes 0).raft.getLeaseState (milliseconds 500) = (true, 1) ∧
      (∀ t ∈ ts, t.input.now ≤ milliseconds 500) ∧
      (ts.Pairwise fun u t => u.input.now ≤ t.input.now) ∧
      (∀ t ∈ ts, (t.before.nodes t.input.node).keepsTerm t.input.action = true) ∧
      (∀ t ∈ ts, (t.before.nodes t.input.node).raft.dead = false) ∧
      (∀ g ∈ ts, ts.Pairwise fun u t => voteWaits threeNodes g u t = true) ∧
      ts.Pairwise fun u g => answerFresh threeNodes u g = true) (by decide +kernel)
  exact ⟨ts, c, hr, hi, hlease, _, hc,
    lease_exclusive hr ⟨h1, h2, h3, h4, h5⟩ hnow (by rw [hlease]) hc⟩

/--
The rest of a round of node 0, whose requests went out at `ms` with call ids from `callId` on: node
2 answers, node 1 does not before the deadline of 30 ms.
-/
def halfAnswered (ms callId : Nat) : List ClusterInput :=
  stepsOf 2 (ms + 10) [.appendEntries ⟨callId + 1, 0, 2, ⟨1, 0, 1, 1, [], 1⟩⟩ shortTimeout] ++
  stepsOf 0 (ms + 30) [.roundReturned [none, some { term := 1, success := true }] shortTimeout]

/--
Node 1 is then cut off from node 0 and starts an election of term 2 after 300 ms. Node 2 hears from
node 0 at 680 ms in the round that renews the lease until 950 ms, and votes for node 1 at 755 ms.
-/
def brokenLease : List ClusterInput :=
  grantedLease ++
  stepsOf 1 350 [.loopTop] ++
  stepsOf 0 350 [.loopTop, .buildRound 6] ++ halfAnswered 350 6 ++
  stepsOf 0 430 (nextRound 9) ++ halfAnswered 430 9 ++
  stepsOf 0 510 (nextRound 12) ++ halfAnswered 510 12 ++
  stepsOf 0 590 (nextRound 15) ++ halfAnswered 590 15 ++
  stepsOf 1 650 ([.poll, .startElection shortTimeout] ++ ask 18) ++
  stepsOf 0 670 (nextRound 19) ++ halfAnswered 670 19 ++
  stepsOf 0 750 (nextRound 22) ++
  stepsOf 1 750 ([.voteReturned none] ++ ask 24) ++
  stepsOf 2 755 [.requestVote ⟨24, 1, 2, ballot 2 1 [⟨1, [120]⟩]⟩ shortTimeout] ++
  stepsOf 1 760 [.voteReturned (some { term := 2, voteGranted := true }), .compareTerm,
    .decide shortTimeout, .initLeader, .propose [121], .buildRound 26] ++
  stepsOf 2 770 [.appendEntries ⟨27, 1, 2, ⟨2, 1, 1, 1, [⟨2, [121]⟩], 0⟩⟩ shortTimeout] ++
  stepsOf 0 780 [unanswered] ++
  stepsOf 1 790 [.roundReturned [none, some { term := 2, success := true }] shortTimeout]

/-- In that run node 1 has committed in term 2 while node 0, in term 1, still holds its lease. -/
theorem lease_overlaps_commit : ∃ ts c, (clusterSystem threeNodes).Run ts c ∧
    ts.map Transition.input = brokenLease ∧
    (ts.Pairwise fun u t => u.input.now ≤ t.input.now) ∧
    (c.nodes 0).raft.currentTerm = 1 ∧
    (c.nodes 0).raft.getLeaseState (milliseconds 800) = (true, 1) ∧
    .committed 1 2 2 [⟨1, [120]⟩, ⟨2, [121]⟩] ∈ events ts :=
  exists_clusterRun brokenLease _ (by decide +kernel)

end Rafty
