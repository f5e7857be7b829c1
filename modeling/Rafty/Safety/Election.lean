import Rafty.Infra.Quorum
import Rafty.Properties.Cluster

/-!
# What stands behind an election

The election loop does not stop when the node is demoted on the way: it goes on asking with whatever
term and log the node has by then, and goes on counting. `Counting` says what the local variables of
the loop mean as long as the node is still a candidate. Nothing but the start of an election makes a
node a candidate, and a step that changes the term or the log makes it a follower, so the meaning is
kept until `role_ = LEADER`.

`election_quorum` reads it off there: a majority voted for exactly the term and log the leader
starts with.
-/

namespace Rafty

open Infra

/-- The request of a candidate in `term` with `log`. -/
def ballot (term : Nat) (candidate : NodeId) (log : List Entry) : RequestVoteReq where
  term := term
  candidateId := candidate
  lastLogIndex := log.length
  lastLogTerm := lastLogTerm log

/-- Node `v` has granted the request, with a log that is no more up to date. -/
def Granted (es : List Event) (v : NodeId) (request : RequestVoteReq) : Prop :=
  ∃ log, .granted v request log ∈ es ∧
    upToDate log request.lastLogIndex request.lastLogTerm = true

theorem Granted.mono {es es' : List Event} {v : NodeId} {request : RequestVoteReq}
    (h : Granted es v request) (hsub : es ⊆ es') : Granted es' v request := by
  obtain ⟨log, hmem, hup⟩ := h
  exact ⟨log, hsub hmem, hup⟩

/-- The election for the present term: `votes` are counted and `remaining` have not been. -/
structure Campaign (es : List Event) (cfg : Config) (s : Raft) (votes : Nat)
    (remaining : List NodeId) : Prop where
  started : .started cfg.id s.currentTerm s.log ∈ es
  voters : ∃ voters : List NodeId, (voters ++ remaining).Nodup ∧ voters ++ remaining ⊆ cfg.peers ∧
    votes = voters.length + 1 ∧ ∀ v ∈ voters, Granted es v (ballot s.currentTerm cfg.id s.log)

namespace Campaign

variable {es es' : List Event} {cfg : Config} {s s' : Raft} {votes : Nat} {peer : NodeId}
  {todo remaining : List NodeId}

/-- The campaign depends on the term, the log and the events so far. -/
theorem mono (h : Campaign es cfg s votes remaining) (hterm : s'.currentTerm = s.currentTerm)
    (hlog : s'.log = s.log) (hsub : es ⊆ es') : Campaign es' cfg s' votes remaining := by
  obtain ⟨hstarted, voters, hnd, hpeers, hvotes, hall⟩ := h
  refine ⟨hsub (by rw [hterm, hlog]; exact hstarted), voters, hnd, hpeers, hvotes, ?_⟩
  intro v hv
  rw [hterm, hlog]
  exact (hall v hv).mono hsub

/-- No vote from `peer`. -/
theorem skip (h : Campaign es cfg s votes (peer :: todo)) : Campaign es cfg s votes todo := by
  obtain ⟨hstarted, voters, hnd, hpeers, hvotes, hall⟩ := h
  have hsub : (voters ++ todo).Sublist (voters ++ peer :: todo) :=
    (List.sublist_cons_self peer todo).append_left voters
  exact ⟨hstarted, voters, hnd.sublist hsub, fun v hv => hpeers (hsub.subset hv), hvotes, hall⟩

/-- One more vote. -/
theorem count (h : Campaign es cfg s votes (peer :: todo))
    (hgrant : Granted es peer (ballot s.currentTerm cfg.id s.log)) :
    Campaign es cfg s (votes + 1) todo := by
  obtain ⟨hstarted, voters, hnd, hpeers, hvotes, hall⟩ := h
  have heq : voters ++ [peer] ++ todo = voters ++ peer :: todo := by simp
  refine ⟨hstarted, voters ++ [peer], heq ▸ hnd, heq ▸ hpeers, by simp [hvotes], ?_⟩
  intro v hv
  rcases List.mem_append.mp hv with hv | hv
  · exact hall v hv
  · rw [List.mem_singleton] at hv
    exact hv ▸ hgrant

/-- Enough votes, no matter who is left. -/
theorem stop (h : Campaign es cfg s votes remaining) : Campaign es cfg s votes [] := by
  induction remaining with
  | nil => exact h
  | cons peer todo ih => exact ih h.skip

end Campaign

/-- What the local variables of the election loop mean while the node is a candidate. -/
def Counting (es : List Event) (cfg : Config) (s : Node) : Prop :=
  match s.thread with
  | .requestTerm votes peer todo => Campaign es cfg s.raft votes (peer :: todo)
  | .requestIndex votes peer todo term =>
    Campaign es cfg s.raft votes (peer :: todo) ∧ term = s.raft.currentTerm
  | .requestSend votes peer todo term lastIndex =>
    Campaign es cfg s.raft votes (peer :: todo) ∧ term = s.raft.currentTerm ∧
      lastIndex = s.raft.log.length
  | .awaitVote votes call todo =>
    Campaign es cfg s.raft votes (call.callee :: todo) ∧
      call.request = ballot s.raft.currentTerm cfg.id s.raft.log
  | .gotReply votes peer reply todo =>
    Campaign es cfg s.raft votes (peer :: todo) ∧
      (reply.voteGranted = true → Granted es peer (ballot s.raft.currentTerm cfg.id s.raft.log))
  | .decide votes => Campaign es cfg s.raft votes []
  | _ => True

section Counting

variable {es es' : List Event} {cfg : Config} {s s' : Node} {i : Input} {eff : Effect}

theorem Counting.mono (h : Counting es cfg s) (ht : s'.thread = s.thread)
    (hterm : s'.raft.currentTerm = s.raft.currentTerm) (hlog : s'.raft.log = s.raft.log)
    (hsub : es ⊆ es') : Counting es' cfg s' := by
  unfold Counting at h ⊢
  rw [ht]
  split at h
  · exact h.mono hterm hlog hsub
  · exact ⟨h.1.mono hterm hlog hsub, h.2.trans hterm.symm⟩
  · exact ⟨h.1.mono hterm hlog hsub, h.2.1.trans hterm.symm, by rw [hlog]; exact h.2.2⟩
  · exact ⟨h.1.mono hterm hlog hsub, by rw [hterm, hlog]; exact h.2⟩
  · exact ⟨h.1.mono hterm hlog hsub, fun hg => by rw [hterm, hlog]; exact (h.2 hg).mono hsub⟩
  · exact h.mono hterm hlog hsub
  · trivial

theorem counting_electionLoop {raft : Raft} {votes : Nat} {todo : List NodeId}
    (h : Campaign es cfg raft votes todo) : Counting es cfg ⟨raft, electionLoop votes todo⟩ := by
  cases todo with
  | nil => exact h
  | cons peer todo => exact h

theorem counting_afterVote {raft : Raft} {votes : Nat} {todo : List NodeId}
    (h : Campaign es cfg raft votes todo) : Counting es cfg ⟨raft, afterVote cfg votes todo⟩ := by
  unfold afterVote
  split
  · exact h.stop
  · exact counting_electionLoop h

theorem counting_of_isIdle (h : s.thread.isIdle = true) : Counting es cfg s := by
  unfold Counting
  split <;> first | trivial | (next ht => rw [ht] at h; cases h)

theorem counting_applyResults {raft : Raft} {site : CallSite} {toApply : List ApplyResult} :
    Counting es cfg ⟨raft, applyResults site toApply⟩ := by
  cases toApply with
  | nil => exact counting_of_isIdle (Node.isIdle_returnTo site)
  | cons result rest => trivial

/-- The reply a step takes from the network is one the peer has given. -/
def RepliesFrom (es : List Event) (s : Node) (i : Input) : Prop :=
  ∀ votes call todo reply, s.thread = .awaitVote votes call todo →
    i.action = .voteReturned (some reply) → reply.voteGranted = true →
    Granted es call.callee call.request

theorem counting_voteReturned {votes : Nat} {call : Call RequestVoteReq} {todo : List NodeId}
    {reply : Option RequestVoteReply} (hc : Campaign es cfg s.raft votes (call.callee :: todo))
    (hreq : call.request = ballot s.raft.currentTerm cfg.id s.raft.log)
    (hfrom : ∀ r, reply = some r → r.voteGranted = true → Granted es call.callee call.request) :
    Counting es cfg (s.voteReturned votes call todo reply) := by
  cases reply with
  | none => exact counting_electionLoop hc.skip
  | some r => exact ⟨hc, fun hg => hreq ▸ hfrom r rfl hg⟩

theorem counting_compareTerm {votes : Nat} {peer : NodeId} {reply : RequestVoteReply}
    {todo : List NodeId} (hc : Campaign es cfg s.raft votes (peer :: todo))
    (hg : reply.voteGranted = true →
      Granted es peer (ballot s.raft.currentTerm cfg.id s.raft.log)) :
    Counting es cfg (s.compareTerm cfg votes reply todo) := by
  unfold Node.compareTerm
  split
  · trivial
  · split
    · next hgranted => exact counting_afterVote (hc.count (hg hgranted))
    · exact counting_electionLoop hc.skip

/-- **The meaning of the votes is kept**, for the node that takes a step. -/
theorem Node.Move.counting (h : Move cfg s i eff) (hnd : cfg.peers.Nodup)
    (hfrom : RepliesFrom es s i) (hc : s.raft.role = .candidate → Counting es cfg s)
    (hr : eff.node.raft.role = .candidate) : Counting (es ++ eff.events) cfg eff.node := by
  have hsub : es ⊆ es ++ eff.events := List.subset_append_left _ _
  cases h with
  | appendRefused _ _ hcore | roundYielded _ _ _ _ _ hcore =>
    cases (congrArg Core.role hcore).symm.trans hr
  | appendStored h => cases (congrArg Core.role h.core).symm.trans hr
  | voteRefused hle hcore | voteGranted hle _ _ hcore =>
    have hrole := (congrArg Core.role hcore).symm.trans hr
    rcases Core.raise_role_cases (c := s.raft.core) hle with hfollower | ⟨hterm, hsame⟩
    · cases hfollower.symm.trans hrole
    · exact (hc (hsame.symm.trans hrole)).mono rfl
        ((congrArg Core.currentTerm hcore).trans hterm) (congrArg Core.log hcore) hsub
  | proposed hl => exact absurd (hl.symm.trans hr) (by simp)
  | @startElection _ timeout ht =>
    refine counting_electionLoop ⟨by simp [Raft.campaign, Raft.resetElectionTimer], [], ?_⟩
    exact ⟨hnd, fun v hv => hv, rfl, by simp⟩
  | requestTerm ht =>
    have h := hc hr
    unfold Counting at h
    rw [ht] at h
    exact ⟨h.mono rfl rfl hsub, rfl⟩
  | requestIndex ht =>
    have h := hc hr
    unfold Counting at h
    rw [ht] at h
    exact ⟨h.1.mono rfl rfl hsub, h.2, rfl⟩
  | requestSend ht =>
    have h := hc hr
    unfold Counting at h
    rw [ht] at h
    refine ⟨h.1.mono rfl rfl hsub, ?_⟩
    show RequestVoteReq.mk _ _ _ _ = ballot s.raft.currentTerm cfg.id s.raft.log
    rw [h.2.1, h.2.2]
    rfl
  | voteReturned ht =>
    have h := hc (by simpa [silent] using hr)
    unfold Counting at h
    rw [ht] at h
    refine (counting_voteReturned h.1 h.2 fun r hr hg => ?_).mono rfl rfl rfl hsub
    exact hfrom _ _ _ r ht (by rw [hr]) hg
  | compareTerm ht =>
    have h := hc (by simpa [silent] using hr)
    unfold Counting at h
    rw [ht] at h
    exact (counting_compareTerm h.1 h.2).mono rfl rfl rfl hsub
  | @roundFinished now replies _ reqs _ raft _ _ _ h =>
    exact counting_applyResults
  | roundDropped => exact counting_of_isIdle (isIdle_returnTo _)
  | applyNext => exact counting_applyResults
  | quiet hi h =>
    rcases h.thread with ht | ⟨hidle, -⟩
    · exact (hc ((congrArg Core.role h.core).symm.trans hr)).mono ht
        (congrArg Core.currentTerm h.core) (congrArg Core.log h.core) hsub
    · exact counting_of_isIdle hidle
  | appendStale | voteStale | notLeader => exact (hc hr).mono rfl rfl rfl hsub
  | noElection | initLeader | buildRound => trivial
  | elected | stepDown | defeated => cases hr

/-- A vote that is sent was given in the same step. -/
theorem Node.Move.granted_of_sends (h : Move cfg s i eff) {call : Call RequestVoteReq}
    {reply : RequestVoteReply} (hmem : .voteReply call reply ∈ eff.sends)
    (hg : reply.voteGranted = true) :
    (∃ timeout, i.action = .requestVote call timeout) ∧
      Granted eff.events cfg.id call.request := by
  cases h with
  | voteStale | voteRefused =>
    rw [List.mem_singleton, Packet.voteReply.injEq] at hmem
    rw [hmem.2] at hg
    cases hg
  | voteGranted _ _ hup =>
    rw [List.mem_singleton, Packet.voteReply.injEq] at hmem
    obtain ⟨rfl, -⟩ := hmem
    exact ⟨⟨_, rfl⟩, _, List.mem_singleton_self _, hup⟩
  | appendStale | appendRefused | appendStored | buildRound => simp at hmem
  | requestSend => simp [Node.requestSend] at hmem
  | _ => cases hmem

/-- Where `role_ = LEADER` is executed. -/
theorem Node.Move.of_elected (h : Move cfg s i eff) {n : NodeId} {t : Nat} {g : List Entry}
    (hmem : .elected n t g ∈ eff.events) :
    eff.events = [.elected n t g] ∧ n = cfg.id ∧ t = s.raft.currentTerm ∧ g = s.raft.log ∧
      s.raft.role = .candidate ∧ eff.node.raft.role = .leader ∧
      ∃ votes, s.thread = .decide votes ∧ cfg.majority ≤ votes := by
  cases h with
  | elected ht hr hv =>
    rw [List.mem_singleton, Event.elected.injEq] at hmem
    obtain ⟨rfl, rfl, rfl⟩ := hmem
    exact ⟨rfl, rfl, rfl, rfl, hr, rfl, _, ht, hv⟩
  | appendStored | voteGranted | proposed | startElection | applyNext => simp at hmem
  | roundFinished =>
    unfold commitEvents at hmem
    split at hmem <;> simp at hmem
  | _ => cases hmem

end Counting

/-! ## The cluster -/

/-- What is known about the elections going on. -/
structure ElectionInv (m : Membership) (es : List Event) (c : Cluster) : Prop where
  counting : ∀ n ∈ m.ids, (c.nodes n).raft.role = .candidate →
    Counting es (m.config n) (c.nodes n)
  replies : ∀ call reply, .voteReply call reply ∈ c.net → reply.voteGranted = true →
    Granted es call.callee call.request

variable {m : Membership} {ts : List (Transition Cluster ClusterInput Event)} {c : Cluster}

theorem Membership.cons_peers_nodup (m : Membership) {n : NodeId} (h : n ∈ m.ids) :
    (n :: m.peers n).Nodup := (m.peers_perm n h).nodup_iff.mpr m.nodup

theorem Membership.majority_eq (m : Membership) {n : NodeId} (h : n ∈ m.ids) :
    (m.config n).majority = m.ids.length / 2 + 1 := by
  rw [← (m.peers_perm n h).length_eq]
  rfl

/-- A node and enough of its peers are a majority. -/
theorem Membership.majority_cons (m : Membership) {n : NodeId} (hn : n ∈ m.ids) {l : List NodeId}
    (hnd : l.Nodup) (hsub : l ⊆ m.peers n) (hlen : (m.config n).majority ≤ 1 + l.length) :
    Majority m.ids (n :: l) where
  nodup := List.nodup_cons.mpr
    ⟨fun hmem => (List.nodup_cons.mp (m.cons_peers_nodup hn)).1 (hsub hmem), hnd⟩
  subset := by
    intro v hv
    rcases List.mem_cons.mp hv with rfl | hv
    · exact hn
    · exact (m.peers_perm n hn).subset (List.mem_cons_of_mem _ (hsub hv))
  half := by
    rw [m.majority_eq hn] at hlen
    rw [List.length_cons]
    omega

theorem electionInv (h : (clusterSystem m).Run ts c) : ElectionInv m (events ts) c := by
  induction h with
  | init hi =>
    obtain ⟨timeouts, rfl⟩ := hi
    constructor
    · intro n _ hr
      cases hr
    · intro call reply hmem
      cases hmem
  | @step ts c c' i es _ hs ih =>
    obtain ⟨hn, hoffers, eff, hmove, rfl, rfl⟩ := clusterSystem_move hs
    rw [events_append, events_singleton]
    have hsub : events ts ⊆ events ts ++ eff.events := List.subset_append_left _ _
    constructor
    · intro n hmem hr
      by_cases hne : n = i.node
      · subst hne
        rw [Cluster.advance_nodes_self] at hr ⊢
        refine hmove.counting (m.cons_peers_nodup hn).of_cons ?_ (ih.counting _ hn) hr
        intro votes call todo reply ht haction hg
        have haction' : i.action = .voteReturned (some reply) := haction
        rw [haction'] at hoffers
        exact ih.replies call reply (Cluster.offers_voteReturned ht hoffers) hg
      · rw [Cluster.advance_nodes_ne hne] at hr ⊢
        exact (ih.counting n hmem hr).mono rfl rfl rfl hsub
    · intro call reply hmem hg
      rcases Cluster.mem_advance_net hmem with hmem | hmem
      · exact (ih.replies call reply hmem hg).mono hsub
      · obtain ⟨⟨timeout, haction⟩, hgranted⟩ := hmove.granted_of_sends hmem hg
        have haction' : i.action = .requestVote call timeout := haction
        rw [haction'] at hoffers
        rw [(Cluster.offers_requestVote hoffers).1]
        exact hgranted.mono (List.subset_append_right _ _)

/-- A quorum of `n`'s election in term `t` with log `g`, as the events `es` show it. -/
structure ElectionQuorum (m : Membership) (es : List Event) (n : NodeId) (t : Nat) (g : List Entry)
    (quorum : List NodeId) : Prop where
  nodup : quorum.Nodup
  members : quorum ⊆ m.ids
  length : quorum.length = m.ids.length / 2 + 1
  self : n ∈ quorum
  /-- The node has voted for itself, by starting the election. -/
  started : .started n t g ∈ es
  /-- The others have granted the request for this term and log. -/
  granted : ∀ v ∈ quorum, v ≠ n → ∃ f, .granted v (ballot t n g) f ∈ es ∧
    (lastLogTerm f < lastLogTerm g ∨ lastLogTerm f = lastLogTerm g ∧ f.length ≤ g.length)

theorem ElectionQuorum.majority {es : List Event} {n : NodeId} {t : Nat} {g : List Entry}
    {quorum : List NodeId} (h : ElectionQuorum m es n t g quorum) : Majority m.ids quorum where
  nodup := h.nodup
  subset := fun _ hv => h.members hv
  half := by
    rw [h.length]
    omega

/-- A campaign with enough votes has its quorum: the node and as many voters as are needed. -/
theorem Campaign.quorum {es : List Event} {n : NodeId} {s : Raft} {votes : Nat}
    (hn : n ∈ m.ids) (h : Campaign es (m.config n) s votes [])
    (hv : (m.config n).majority ≤ votes) :
    ∃ quorum, ElectionQuorum m es n s.currentTerm s.log quorum := by
  obtain ⟨hstarted, voters, hnd, hpeers, rfl, hall⟩ := h
  rw [List.append_nil] at hnd hpeers
  rw [m.majority_eq hn] at hv
  have hcons := m.cons_peers_nodup hn
  have htake : voters.take (m.ids.length / 2) ⊆ voters := List.take_subset _ _
  have hnot : n ∉ voters.take (m.ids.length / 2) :=
    fun hmem => (List.nodup_cons.mp hcons).1 (hpeers (htake hmem))
  refine ⟨n :: voters.take (m.ids.length / 2), ?_, ?_, ?_, List.mem_cons_self, hstarted, ?_⟩
  · exact List.nodup_cons.mpr ⟨hnot, hnd.sublist (List.take_sublist _ _)⟩
  · intro v hmem
    rcases List.mem_cons.mp hmem with rfl | hmem
    · exact hn
    · exact (m.peers_perm n hn).subset (List.mem_cons_of_mem _ (hpeers (htake hmem)))
  · rw [List.length_cons, List.length_take]
    omega
  · intro v hmem hne
    have hvoter := htake ((List.mem_cons.mp hmem).resolve_left hne)
    obtain ⟨f, hf, hup⟩ := hall v hvoter
    exact ⟨f, hf, upToDate_iff.mp hup⟩

/-- A candidate that has counted enough votes has its quorum. -/
theorem electionQuorum_of_votes (h : (clusterSystem m).Run ts c) {n : NodeId} (hn : n ∈ m.ids)
    (hr : (c.nodes n).raft.role = .candidate) {votes : Nat}
    (ht : (c.nodes n).thread = .decide votes) (hv : (m.config n).majority ≤ votes) :
    ∃ quorum, ElectionQuorum m (events ts) n (c.nodes n).raft.currentTerm (c.nodes n).raft.log
      quorum := by
  have hcount := (electionInv h).counting n hn hr
  unfold Counting at hcount
  rw [ht] at hcount
  exact hcount.quorum hn hv

theorem exists_electionQuorum (h : (clusterSystem m).Run ts c) {before after : List Event}
    {n : NodeId} {t : Nat} {g : List Entry}
    (he : events ts = before ++ .elected n t g :: after) :
    ∃ quorum, ElectionQuorum m before n t g quorum := by
  refine h.forall_event (P := fun before e => ∀ n t g, e = .elected n t g →
    ∃ quorum, ElectionQuorum m before n t g quorum) ?_ before _ after he n t g rfl
  rintro ts c i c' es hr hs a e b hes n t g rfl
  obtain ⟨hn, -, eff, hmove, -, rfl⟩ := clusterSystem_move hs
  have hmem : .elected n t g ∈ eff.events := by simp [hes]
  obtain ⟨hone, rfl, rfl, rfl, hrole, -, votes, ht, hv⟩ := hmove.of_elected hmem
  -- the step has this one event, so the events before it are those of the run so far
  obtain rfl : a = [] := by
    rw [hone] at hes
    cases a <;> simp_all
  rw [List.append_nil]
  exact electionQuorum_of_votes hr hn hrole ht hv

/-- Node 0 of three is elected in term 1 with the vote of node 1. -/
def firstElection : List ClusterInput :=
  stepsOf 0 0 [.loopTop] ++
  stepsOf 0 300 [.poll, .startElection shortTimeout, .requestTerm, .requestIndex,
    .requestSend 0] ++
  stepsOf 1 310 [.requestVote ⟨0, 0, 1, ballot 1 0 []⟩ shortTimeout] ++
  stepsOf 0 320 [.voteReturned (some { term := 1, voteGranted := true }), .compareTerm,
    .decide shortTimeout]

end Rafty
