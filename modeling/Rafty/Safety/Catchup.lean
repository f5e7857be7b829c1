import Rafty.Safety.Campaign

/-!
# A leader brings an entry through

A leader with a new entry at the end of its log, and the members of a majority that can follow it.
They answer every request of a round, so the leader keeps its majority however long a round takes. A
refusal moves the peer's `nextIndex_` back by one, and a request from the first entry on cannot be
refused. As soon as `matchIndex_` counts a majority at the last index the round commits it, and the
results of the apply loop, the new entry last, are enqueued (`Leading.commits`).
-/

namespace Rafty

open Infra

/-! ## A round with replies of the leader's term -/

theorem PeerTable.get_touch (table : PeerTable) (peer p : NodeId) :
    PeerTable.get (PeerTable.touch table peer) p = PeerTable.get table p := by
  unfold touch
  split
  · rfl
  · next hnone =>
    by_cases hp : p = peer
    · rw [hp, PeerTable.get_insert, PeerTable.get, Option.not_isSome_iff_eq_none.mp hnone]
      rfl
    · exact PeerTable.get_insert_ne hp 0

namespace Raft

variable {s s' : Raft} {timeout : ElectionTimeout}

/-- A reply says nothing about the other peers. -/
theorem recordReply_ne {p : NodeId} {result : PeerResult} (reply : AppendEntriesReply)
    (hp : p ≠ result.peerId) :
    PeerTable.get (s.recordReply result reply).matchIndex p = PeerTable.get s.matchIndex p ∧
      PeerTable.get (s.recordReply result reply).nextIndex p = PeerTable.get s.nextIndex p := by
  unfold recordReply
  split
  · exact ⟨PeerTable.get_insert_ne hp _, PeerTable.get_insert_ne hp _⟩
  · dsimp only
    split
    · refine ⟨rfl, ?_⟩
      rw [PeerTable.get_insert_ne hp, PeerTable.get_touch]
    · exact ⟨rfl, PeerTable.get_touch ..⟩

/-- What a reply makes of the entries for its peer. -/
structure Counted (s : Raft) (result : PeerResult) (reply : AppendEntriesReply) (s' : Raft) :
    Prop where
  success : reply.success = true →
    PeerTable.get s'.matchIndex result.peerId = result.prevIdx + result.entriesSent
  refused : reply.success = false →
    PeerTable.get s'.matchIndex result.peerId = PeerTable.get s.matchIndex result.peerId ∧
      (2 ≤ PeerTable.get s.nextIndex result.peerId →
        PeerTable.get s'.nextIndex result.peerId + 1 = PeerTable.get s.nextIndex result.peerId)

theorem counted_recordReply (s : Raft) (result : PeerResult) (reply : AppendEntriesReply) :
    s.Counted result reply (s.recordReply result reply) where
  success hs := (recordReply_success s result hs).1
  refused hs := by
    constructor
    · simp only [recordReply, hs, Bool.false_eq_true, if_false]
      split <;> rfl
    · intro htwo
      rw [recordReply_refused hs htwo]
      omega

/-- Only the entries for the peer matter. -/
theorem Counted.congr {result : PeerResult} {reply : AppendEntriesReply} {t t' : Raft}
    (h : s.Counted result reply s')
    (hmatch : PeerTable.get t.matchIndex result.peerId = PeerTable.get s.matchIndex result.peerId)
    (hnext : PeerTable.get t.nextIndex result.peerId = PeerTable.get s.nextIndex result.peerId)
    (hmatch' : PeerTable.get t'.matchIndex result.peerId =
      PeerTable.get s'.matchIndex result.peerId)
    (hnext' : PeerTable.get t'.nextIndex result.peerId =
      PeerTable.get s'.nextIndex result.peerId) : t.Counted result reply t' where
  success := by
    rw [hmatch']
    exact h.success
  refused := by
    rw [hmatch, hnext, hmatch', hnext']
    exact h.refused

/-- The loop leaves the entries of peers alone of which it has no result. -/
theorem resultsLoop_ne {p : NodeId} : ∀ {results : List PeerResult} {s s' : Raft} {c c' : Nat},
    s.resultsLoop timeout c results = .ok (s', c') → (∀ result ∈ results, p ≠ result.peerId) →
    PeerTable.get s'.matchIndex p = PeerTable.get s.matchIndex p ∧
      PeerTable.get s'.nextIndex p = PeerTable.get s.nextIndex p
  | [], s, s', c, c', h, _ => by
    simp only [resultsLoop, Except.ok.injEq, Prod.mk.injEq] at h
    obtain ⟨rfl, -⟩ := h
    exact ⟨rfl, rfl⟩
  | result :: rest, s, s', c, c', h, hp => by
    rw [List.forall_mem_cons] at hp
    rw [resultsLoop] at h
    split at h
    · exact resultsLoop_ne h hp.2
    · next reply hreply =>
      split at h
      · cases h
      · obtain ⟨hmatch, hnext⟩ := resultsLoop_ne h hp.2
        obtain ⟨hmatch', hnext'⟩ := recordReply_ne (s := s) reply hp.1
        exact ⟨hmatch.trans hmatch', hnext.trans hnext'⟩

/-- With one result for each peer every reply counts. -/
theorem resultsLoop_counted : ∀ {results : List PeerResult} {s s' : Raft} {c c' : Nat},
    s.resultsLoop timeout c results = .ok (s', c') → (results.map PeerResult.peerId).Nodup →
    ∀ result ∈ results, ∀ reply, result.reply = some reply → s.Counted result reply s'
  | [], _, _, _, _, _, _ => by simp
  | result :: rest, s, s', c, c', h, hnodup => by
    rw [List.map_cons, List.nodup_cons] at hnodup
    have hne : ∀ x ∈ rest, x.peerId ≠ result.peerId :=
      fun x hx he => hnodup.1 (he ▸ List.mem_map_of_mem hx)
    intro x hx reply hreply
    rw [resultsLoop] at h
    rcases List.mem_cons.mp hx with rfl | hx
    · -- the rest of the loop leaves the peer alone
      rw [hreply] at h
      dsimp only at h
      split at h
      · cases h
      · obtain ⟨hmatch, hnext⟩ := resultsLoop_ne h fun y hy => (hne y hy).symm
        exact (counted_recordReply s x reply).congr rfl rfl hmatch hnext
    · split at h
      · exact resultsLoop_counted h hnodup.2 x hx reply hreply
      · next first hfirst =>
        split at h
        · cases h
        · obtain ⟨hmatch, hnext⟩ := recordReply_ne (s := s) first (hne x hx)
          exact (resultsLoop_counted h hnodup.2 x hx reply hreply).congr hmatch.symm hnext.symm
            rfl rfl

/-- What a round leaves behind that a majority answered; `s₁` is the state after the loop. -/
structure Answered (s : Raft) (majority : Nat) (results : List PeerResult) (s₁ s' : Raft)
    (toApply : List ApplyResult) : Prop where
  loop : s₁.core = s.core
  counted : ∀ result ∈ results, ∀ reply, result.reply = some reply → s.Counted result reply s₁
  core : s'.core = { s.core with
    commitIndex := s₁.commitLoop majority s.log.length
    lastApplied := max s.lastApplied (s₁.commitLoop majority s.log.length) }
  nextIndex : s'.nextIndex = s₁.nextIndex
  matchIndex : s'.matchIndex = s₁.matchIndex
  toApply : applyLoop s.log s.lastApplied (s'.commitIndex - s.lastApplied) = some toApply

/-- A leader that a majority answered in its own term stays the leader, whatever the time is. -/
theorem processResults_answered (cfg : Config) (now : Nat) (timeout : ElectionTimeout)
    {results : List PeerResult} (hr : s.role = .leader) (hle : s.commitIndex ≤ s.log.length)
    (hterm : ∀ result ∈ results, ∀ reply ∈ result.reply, reply.term = s.currentTerm)
    (hnodup : (results.map PeerResult.peerId).Nodup)
    (hmaj : cfg.majority ≤ 1 + confirmed s.currentTerm results) :
    ∃ s₁ s' toApply, s.processResults cfg now timeout results = some (s', toApply) ∧
      s.Answered cfg.majority results s₁ s' toApply := by
  obtain ⟨⟨s', toApply⟩, hp⟩ := Option.isSome_iff_exists.mp
    (processResults_isSome hle cfg now timeout results)
  have hp' := hp
  rw [processResults, if_pos hr] at hp'
  cases hloop : s.resultsLoop timeout 1 results with
  | error s₁ =>
    obtain ⟨-, -, result, hmem, reply, hreply, hlt, -⟩ := resultsLoop_error hloop
    have := hterm result hmem reply hreply
    omega
  | ok r =>
    obtain ⟨s₁, c⟩ := r
    rw [hloop] at hp'
    obtain ⟨hsame, -, rfl, -⟩ := resultsLoop_ok hloop
    have hlog : s₁.log = s.log := congrArg Core.log hsame.core
    have hla : s₁.lastApplied = s.lastApplied := congrArg Core.lastApplied hsame.core
    obtain ⟨hnext, hmatch, -⟩ := finishRound_tables hp'
    obtain ⟨happly, -, hrest⟩ := finishRound_eq_some hp'
    rw [hlog, hla] at happly
    have hcore : s'.core = { s.core with
        commitIndex := s₁.commitLoop cfg.majority s.log.length
        lastApplied := max s.lastApplied (s₁.commitLoop cfg.majority s.log.length) } := by
      rw [hlog, hla, hsame.core] at hrest
      rcases hrest with ⟨-, hc, -⟩ | ⟨hfew, -, -⟩
      · exact hc
      · omega
    refine ⟨s₁, s', toApply, hp, hsame.core, resultsLoop_counted hloop hnodup, hcore, hnext, hmatch,
      ?_⟩
    rw [show s'.commitIndex = _ from congrArg Core.commitIndex hcore]
    exact happly

end Raft

/-! ## What the leader counts -/

theorem PeerTable.mem_entries_of_get {table : PeerTable} {p : NodeId}
    (h : 1 ≤ PeerTable.get table p) : ⟨p, PeerTable.get table p⟩ ∈ table.entries := by
  obtain ⟨k, hk⟩ := Option.isSome_iff_exists.mp (PeerTable.lookup_isSome h)
  rw [show PeerTable.get table p = k by rw [PeerTable.get, hk, Option.getD_some]]
  exact AList.mem_lookup_iff.mp hk

namespace Raft

variable {s : Raft}

/-- Each peer known to hold the log up to `idx` is counted. -/
theorem le_replicaCount {idx : Nat} (hpos : 1 ≤ idx) {matched : List NodeId} (hnd : matched.Nodup)
    (h : ∀ p ∈ matched, idx ≤ PeerTable.get s.matchIndex p) :
    1 + matched.length ≤ s.replicaCount idx := by
  have hmap : (matched.map fun p =>
      (⟨p, PeerTable.get s.matchIndex p⟩ : Sigma fun _ => Nat)).Nodup :=
    hnd.map fun p q he => (Sigma.mk.inj he).1
  have hsub : (matched.map fun p => (⟨p, PeerTable.get s.matchIndex p⟩ : Sigma fun _ => Nat)) ⊆
      s.matchIndex.entries.filter fun entry => idx ≤ entry.2 := by
    intro entry hmem
    obtain ⟨p, hp, rfl⟩ := List.mem_map.mp hmem
    rw [List.mem_filter]
    exact ⟨PeerTable.mem_entries_of_get (hpos.trans (h p hp)), decide_eq_true (h p hp)⟩
  have hlen := (hmap.subperm hsub).length_le
  rw [List.length_map] at hlen
  exact Nat.add_le_add_left hlen 1

/-- The commit loop with an entry of the current term at the end of the log. -/
theorem commitLoop_last {log : List Entry} {entry : Entry} (majority : Nat)
    (hlog : s.log = log ++ [entry]) (hterm : entry.term = s.currentTerm)
    (hle : s.commitIndex ≤ log.length) :
    (majority ≤ s.replicaCount (log.length + 1) ∧
      s.commitLoop majority (log.length + 1) = log.length + 1) ∨
    (s.replicaCount (log.length + 1) < majority ∧
      s.commitIndex ≤ s.commitLoop majority (log.length + 1) ∧
      s.commitLoop majority (log.length + 1) ≤ log.length) := by
  have hget : (s.log[log.length]?).map Entry.term = some s.currentTerm := by simp [hlog, hterm]
  rw [commitLoop, if_pos (by omega), if_neg (by simp [hget])]
  split
  · next hcount => exact Or.inl ⟨hcount, rfl⟩
  · next hcount =>
    refine Or.inr ⟨by omega, ?_⟩
    rcases commitLoop_cases s majority log.length with hc | ⟨c, hc, h1, h2, -, -⟩ <;>
      rw [hc] <;> omega

end Raft

/-- The apply loop has a result for every index it passes. -/
theorem mem_applyLoop {log : List Entry} {i : Nat} {entry : Entry} (hi : log[i]? = some entry) :
    ∀ {n k : Nat} {results : List ApplyResult}, applyLoop log k n = some results →
    k ≤ i → i < k + n → ⟨true, entry.command, i + 1⟩ ∈ results
  | 0, k, results, _, hle, hlt => absurd hlt (Nat.not_lt.mpr hle)
  | n + 1, k, results, h, hle, hlt => by
    obtain ⟨entry', rest, hk, hr, rfl⟩ := applyLoop_succ h
    by_cases heq : i = k
    · subst heq
      obtain rfl := Option.some.inj (hk.symm.trans hi)
      exact List.mem_cons_self
    · exact List.mem_cons_of_mem _ (mem_applyLoop hi hr (by omega) (by omega))

/-! ## One round of the leader -/

namespace Node

/-- A leader of `term` whose log is `log` and a last entry that is not committed yet. -/
structure Leading (cfg : Config) (term : Nat) (log : List Entry) (data : Bytes) (s : Node) : Prop
    extends Steady cfg (log ++ [⟨term, data⟩]) term s where
  role : s.raft.role = .leader
  term_eq : s.raft.currentTerm = term
  commit_lt : s.raft.commitIndex ≤ log.length

/-- What a round that a majority answered leaves of a leader: a commit of the last entry, or not. -/
inductive RoundLeft (cfg : Config) (term : Nat) (log : List Entry) (data : Bytes) (s s' : Node)
    (results : List PeerResult) (toApply : List ApplyResult) (es : List Event) : Prop
  | committed (hes : es = [.committed cfg.id term (log.length + 1) (log ++ [⟨term, data⟩])])
      (happly : ⟨true, data, log.length + 1⟩ ∈ toApply)
  | notYet (hlead : s'.Leading cfg term log data)
      (hcount : s'.raft.replicaCount (log.length + 1) < cfg.majority)
      (hcounted : ∀ result ∈ results, ∀ reply, result.reply = some reply →
        s.raft.Counted result reply s'.raft)

/-- A leader processes the replies of a round that a majority answered in its term. -/
theorem Leading.step_roundReturned {cfg : Config} {term : Nat} {log : List Entry} {data : Bytes}
    {s : Node} (h : s.Leading cfg term log data) {reqs : List PeerReq} {site : CallSite}
    {replies : List (Option AppendEntriesReply)} (ht : s.thread = .awaitRound reqs site)
    (hlen : replies.length = reqs.length)
    (hterms : ∀ result ∈ peerResults reqs replies, ∀ reply ∈ result.reply,
      reply.term = s.raft.currentTerm)
    (hnodup : ((peerResults reqs replies).map PeerResult.peerId).Nodup)
    (hconfirmed : cfg.majority ≤
      1 + Raft.confirmed s.raft.currentTerm (peerResults reqs replies)) (now : Nat) :
    ∃ raft toApply es, s.step cfg ⟨now, .roundReturned replies shortTimeout⟩ =
        some ⟨⟨raft, applyResults site toApply⟩, es, []⟩ ∧
      RoundLeft cfg term log data s ⟨raft, applyResults site toApply⟩ (peerResults reqs replies)
        toApply es := by
  obtain ⟨s₁, raft, toApply, hp, hround⟩ := Raft.processResults_answered cfg now shortTimeout
    h.role (h.log_eq ▸ h.commit_le) hterms hnodup hconfirmed
  have hs : s.step cfg ⟨now, .roundReturned replies shortTimeout⟩ =
      some ⟨⟨raft, applyResults site toApply⟩, commitEvents cfg.id s.raft raft, []⟩ := by
    simp only [Node.step, ht, if_pos hlen, Node.roundReturned, hp, Option.map_some]
  refine ⟨raft, toApply, _, hs, ?_⟩
  obtain ⟨hrole, hcur, -, hlog, hci, hla, -⟩ := Core.mk.inj hround.core
  obtain ⟨-, hcur', -, hlog', hci', -, -⟩ := Core.mk.inj hround.loop
  have hsize : s.raft.log.length = log.length + 1 := by simp [h.log_eq]
  have hcommit := h.commit_lt
  rw [hsize] at hci hla
  rcases Raft.commitLoop_last cfg.majority (hlog'.trans h.log_eq)
    (h.term_eq.symm.trans hcur'.symm) (hci'.trans_le hcommit) with ⟨-, hcl⟩ | ⟨hcount, hge, hle⟩
  · -- a majority has the last entry
    rw [hcl] at hci
    refine .committed ?_ ?_
    · have hnew : raft.commitIndex ≠ s.raft.commitIndex := by omega
      rw [commitEvents, if_neg hnew, hci, show raft.currentTerm = term from hcur.trans h.term_eq,
        show raft.log = _ from hlog.trans h.log_eq]
    · have happly := hround.toApply
      rw [h.log_eq, hci] at happly
      have hget : (log ++ [(⟨term, data⟩ : Entry)])[log.length]? = some ⟨term, data⟩ := by simp
      have happlied := h.applied
      exact mem_applyLoop hget happly (by omega) (by omega)
  · -- not yet, but other entries may be committed
    rw [← hci] at hge hle
    have hdead := (dead_of_step hs fun hk => by cases hk).trans h.alive
    have happlied : raft.lastApplied = raft.commitIndex := by
      rw [hla, ← hci, h.applied]
      exact max_eq_right (hci'.symm.trans_le hge)
    have hsteady : Steady cfg (log ++ [⟨term, data⟩]) term ⟨raft, applyResults site toApply⟩ := by
      refine ⟨hdead, hlog.trans h.log_eq, ?_, happlied, (hcur.trans h.term_eq).le, h.inv.step hs⟩
      rw [List.length_append]
      exact hle.trans (Nat.le_add_right _ _)
    refine .notYet ⟨hsteady, hrole.trans h.role, hcur.trans h.term_eq, hle⟩ ?_ ?_
    · exact (Raft.replicaCount_congr hround.matchIndex _).trans_lt hcount
    · intro result hmem reply hreply
      exact (hround.counted result hmem reply hreply).congr rfl rfl (by rw [hround.matchIndex])
        (by rw [hround.nextIndex])

end Node

/-- The entry was committed and applied. -/
def Through (n : NodeId) (term : Nat) (log : List Entry) (data : Bytes) (es : List Event) : Prop :=
  .committed n term (log.length + 1) (log ++ [⟨term, data⟩]) ∈ es ∧
    .applied n ⟨true, data, log.length + 1⟩ ∈ es

theorem Through.append {n : NodeId} {term : Nat} {log : List Entry} {data : Bytes}
    {es : List Event} (h : Through n term log data es) (es' : List Event) :
    Through n term log data (es' ++ es) :=
  ⟨List.mem_append_right _ h.1, List.mem_append_right _ h.2⟩

/-- A request from the first entry on is not refused. -/
theorem prevLogIndex_pos_of_refused {follower follower' : Raft} {request : AppendEntriesRequest}
    {timeout : ElectionTimeout} {reply : AppendEntriesReply}
    (hle : follower.currentTerm ≤ request.term)
    (h : follower.handleAppendEntries request timeout = some (follower', reply))
    (hs : reply.success = false) : 0 < request.prevLogIndex := by
  rcases Raft.handleAppendEntries_cases h with ⟨hlt, -, -⟩ | ⟨-, hm, -, -⟩ | ⟨results, -, rfl⟩
  · omega
  · by_contra hzero
    rw [logMatches_of_prev_zero _ (by omega)] at hm
    cases hm
  · cases hs

/-- What a reply to the request makes of it. -/
def PeerReq.result (req : PeerReq) (reply : Option AppendEntriesReply) : PeerResult where
  peerId := req.call.callee
  prevIdx := req.prevIdx
  entriesSent := req.entriesSent
  reply := reply

/-- What the calls of a round return when the members of the side answer. -/
def sideReplies (side : List NodeId) (answer : PeerReq → AppendEntriesReply)
    (reqs : List PeerReq) : List (Option AppendEntriesReply) :=
  reqs.map fun req => if req.call.callee ∈ side then some (answer req) else none

section SideReplies

variable {side : List NodeId} {answer : PeerReq → AppendEntriesReply} {reqs : List PeerReq}

theorem length_sideReplies : (sideReplies side answer reqs).length = reqs.length :=
  List.length_map _

theorem peerResults_sideReplies : peerResults reqs (sideReplies side answer reqs) =
    reqs.map fun req =>
      req.result (if req.call.callee ∈ side then some (answer req) else none) := by
  rw [peerResults, sideReplies, List.zipWith_map_right, List.zipWith_self]
  rfl

theorem mem_peerResults_sideReplies {req : PeerReq} (hreq : req ∈ reqs)
    (hside : req.call.callee ∈ side) :
    req.result (some (answer req)) ∈ peerResults reqs (sideReplies side answer reqs) := by
  rw [peerResults_sideReplies, List.mem_map]
  exact ⟨req, hreq, by rw [if_pos hside]⟩

theorem of_mem_peerResults_sideReplies {result : PeerResult} {reply : AppendEntriesReply}
    (hmem : result ∈ peerResults reqs (sideReplies side answer reqs))
    (hreply : result.reply = some reply) :
    ∃ req ∈ reqs, req.call.callee ∈ side ∧ reply = answer req := by
  rw [peerResults_sideReplies, List.mem_map] at hmem
  obtain ⟨req, hreq, rfl⟩ := hmem
  simp only [PeerReq.result, Option.ite_none_right_eq_some, Option.some.injEq] at hreply
  exact ⟨req, hreq, hreply.1, hreply.2.symm⟩

theorem map_peerId_sideReplies :
    (peerResults reqs (sideReplies side answer reqs)).map PeerResult.peerId =
      reqs.map fun req => req.call.callee := by
  rw [peerResults_sideReplies, List.map_map]
  rfl

/-- Each member of the side confirms the term. -/
theorem confirmed_sideReplies {term : Nat}
    (hterm : ∀ req ∈ reqs, req.call.callee ∈ side → (answer req).term = term) :
    Raft.confirmed term (peerResults reqs (sideReplies side answer reqs)) =
      ((reqs.map fun req => req.call.callee).filter (· ∈ side)).length := by
  rw [peerResults_sideReplies, Raft.confirmed, List.filter_map, List.filter_map, List.length_map,
    List.length_map]
  congr 1
  refine List.filter_congr fun req hreq => ?_
  by_cases hside : req.call.callee ∈ side
  · simp [PeerReq.result, hside, hterm req hreq hside]
  · simp [PeerReq.result, hside]

/-- The replies are on the network, and the other calls fail. -/
theorem offers_sideReplies {c : Cluster} {n : NodeId} {site : CallSite}
    (ht : (c.nodes n).thread = .awaitRound reqs site)
    (hnet : ∀ req ∈ reqs, req.call.callee ∈ side → .appendReply req.call (answer req) ∈ c.net) :
    c.offers n (.roundReturned (sideReplies side answer reqs) shortTimeout) = true := by
  unfold Cluster.offers
  rw [ht]
  dsimp only
  rw [List.all_eq_true, sideReplies, ← List.map_prod_left_eq_zip]
  intro x hx
  obtain ⟨req, hreq, rfl⟩ := List.mem_map.mp hx
  dsimp only
  split
  · next hside => exact decide_eq_true (hnet req hreq hside)
  · rfl

end SideReplies

theorem inRange_of_mem {s : Raft} {peers : List NodeId} {reqs : List PeerReq} {req : PeerReq}
    (h : List.Forall₂ s.RequestInRange peers reqs) (hmem : req ∈ reqs) :
    s.RequestInRange req.call.callee req := by
  induction h with
  | nil => cases hmem
  | cons hreq _ ih =>
    rcases List.mem_cons.mp hmem with rfl | hmem
    · exact hreq.callee.symm ▸ hreq
    · exact ih hmem

/-- The callees have answered the requests, and can follow on. -/
structure Replied (term : Nat) (todo : List PeerReq) (c c' : Cluster) : Prop where
  others : ∀ j, (∀ req ∈ todo, j ≠ req.call.callee) → c'.nodes j = c.nodes j
  replies : ∀ call reply, .appendReply call reply ∈ c.net → .appendReply call reply ∈ c'.net
  follows : ∀ req ∈ todo, (c'.nodes req.call.callee).Follows term
  replied : ∀ req ∈ todo, ∃ reply, .appendReply req.call reply ∈ c'.net ∧ reply.term = term ∧
    (reply.success = false → 0 < req.call.request.prevLogIndex)

/-- The requests of a round are built, and the members of the side have answered theirs. -/
structure RoundAnswered (m : Membership) (side : List NodeId) (n : NodeId) (term : Nat)
    (site : CallSite) (reqs : List PeerReq) (answer : PeerReq → AppendEntriesReply)
    (c c' : Cluster) : Prop where
  callees : (reqs.map fun req => req.call.callee) = m.peers n
  built : ∀ req ∈ reqs, (c.nodes n).raft.BuiltFrom req ∧
    (c.nodes n).raft.RequestInRange req.call.callee req
  node : c'.nodes n = ⟨(c.nodes n).raft, .awaitRound reqs site⟩
  follows : ∀ req ∈ reqs, req.call.callee ∈ side → (c'.nodes req.call.callee).Follows term
  answers : ∀ req ∈ reqs, req.call.callee ∈ side →
    .appendReply req.call (answer req) ∈ c'.net ∧ (answer req).term = term ∧
      ((answer req).success = false → 0 < req.call.request.prevLogIndex)

/-- The leader is back at the start of a round. -/
structure RoundOver (m : Membership) (n : NodeId) (term : Nat) (log : List Entry) (data : Bytes)
    (c c' : Cluster) : Prop where
  leading : (c'.nodes n).Leading (m.config n) term log data
  thread : (c'.nodes n).thread = .buildRound .leaderLoop
  count : (c'.nodes n).raft.replicaCount (log.length + 1) < (m.config n).majority
  others : ∀ j, j ≠ n → c'.nodes j = c.nodes j

section Round

variable {m : Membership} {side : List NodeId} {c : Cluster} {n k : NodeId} {term : Nat}
  {log : List Entry} {data : Bytes}

/-- **The members of the side answer**, one after the other. -/
theorem reach_replied : ∀ {todo : List PeerReq} {c : Cluster},
    (∀ req ∈ todo, .appendRequest req.call ∈ c.net ∧ req.call.callee ∈ m.ids ∧
      req.call.callee ∈ side ∧ (c.nodes req.call.callee).Follows term ∧
      req.call.request.term = term) →
    (todo.map fun req => req.call.callee).Nodup →
    (sideSystem m side).CanReach ClusterInput.now c fun _ c' => Replied term todo c c'
  | [], c, _, _ => .here ⟨fun _ _ => rfl, fun _ _ hp => hp, by simp, by simp⟩
  | req :: rest, c, h, hnodup => by
    obtain ⟨⟨hnet, hk, hkside, hfollows, hterm⟩, hrest⟩ := List.forall_mem_cons.mp h
    rw [List.map_cons, List.nodup_cons] at hnodup
    have hne : ∀ x ∈ rest, x.call.callee ≠ req.call.callee :=
      fun x hx he => hnodup.1 (he ▸ List.mem_map_of_mem hx)
    obtain ⟨⟨raft, reply⟩, hf⟩ := Option.isSome_iff_exists.mp
      (Raft.handleAppendEntries_isSome hfollows.commit_le req.call.request shortTimeout)
    obtain ⟨hreply, hcur, hcommit⟩ :=
      follower_after (hterm.symm ▸ hfollows.term_le) hfollows.commit_le hf
    have ho : c.offers req.call.callee (.appendEntries req.call shortTimeout) = true := by
      simp [Cluster.offers, hnet]
    have hs : ∀ now, (c.nodes req.call.callee).step (m.config req.call.callee)
        ⟨now, .appendEntries req.call shortTimeout⟩ = some
          { node := { (c.nodes req.call.callee) with raft := raft }
            events := Node.appendEvents req.call.callee (c.nodes req.call.callee).raft raft
              req.call.request reply
            sends := [.appendReply req.call reply] } := by
      intro now
      simp only [Node.step, Node.appendEntries, hf, Option.map_some]
      rfl
    refine canReach_act _ hk hkside ho hs fun c₁ hc₁ hothers₁ hnet₁ => ?_
    have hrest₁ : ∀ x ∈ rest, .appendRequest x.call ∈ c₁.net ∧ x.call.callee ∈ m.ids ∧
        x.call.callee ∈ side ∧ (c₁.nodes x.call.callee).Follows term ∧
        x.call.request.term = term := by
      intro x hx
      obtain ⟨hxnet, hxids, hxside, hxfollows, hxterm⟩ := hrest x hx
      refine ⟨hnet₁ _ (Or.inr ?_), hxids, hxside, hothers₁ _ (hne x hx) ▸ hxfollows, hxterm⟩
      refine (List.mem_erase_of_ne fun he => hne x hx ?_).mpr hxnet
      rw [Packet.appendRequest.inj he]
    have hkeep : ∀ call reply', .appendReply call reply' ∈ c.net →
        .appendReply call reply' ∈ c₁.net := by
      intro call reply' hmem
      refine hnet₁ _ (Or.inr ((List.mem_erase_of_ne ?_).mpr hmem))
      intro he
      cases he
    refine (reach_replied hrest₁ hnodup.2).mono fun es c₂ h₂ => ?_
    constructor
    case others =>
      intro j hj
      rw [List.forall_mem_cons] at hj
      exact (h₂.others j hj.2).trans (hothers₁ j hj.1)
    case replies => exact fun call reply' hmem => h₂.replies _ _ (hkeep _ _ hmem)
    case follows =>
      rw [List.forall_mem_cons]
      refine ⟨?_, h₂.follows⟩
      rw [h₂.others _ fun x hx => (hne x hx).symm, hc₁]
      exact ⟨(hcur.trans hterm).le, hcommit⟩
    case replied =>
      rw [List.forall_mem_cons]
      refine ⟨⟨reply, ?_, hreply.trans hterm, ?_⟩, h₂.replied⟩
      · exact h₂.replies _ _ (hnet₁ _ (Or.inl (List.mem_singleton_self _)))
      · exact prevLogIndex_pos_of_refused (hterm.symm ▸ hfollows.term_le) hf

variable (hn : n ∈ m.ids) (hside : n ∈ side)

include hn hside

/-- The results that were taken are enqueued. -/
theorem reach_applied {site : CallSite} : ∀ {toApply : List ApplyResult} {raft : Raft}
    {c : Cluster}, c.nodes n = ⟨raft, applyResults site toApply⟩ →
    (sideSystem m side).CanReach ClusterInput.now c fun es _ =>
      ∀ result ∈ toApply, .applied n result ∈ es
  | [], raft, c, _ => .here (by simp)
  | result :: rest, raft, c, hc => by
    refine canReach_act .applyNext hn hside rfl (fun _ => by rw [hc]; rfl) fun c₁ hc₁ _ _ => ?_
    refine (reach_applied hc₁).mono fun es c₂ hes => ?_
    rw [List.forall_mem_cons]
    exact ⟨List.mem_cons_self, fun r hr => List.mem_cons_of_mem _ (hes r hr)⟩

/-- A leader enqueues what it has to and begins its next round, with the tables as they are. -/
theorem Node.Leading.reach_buildRound (h : (c.nodes n).Leading (m.config n) term log data)
    {site : CallSite} {toApply : List ApplyResult}
    (ht : (c.nodes n).thread = applyResults site toApply) :
    (sideSystem m side).CanReach ClusterInput.now c fun _ c' =>
      (c'.nodes n).Leading (m.config n) term log data ∧
      (c'.nodes n).thread = .buildRound .leaderLoop ∧ (∀ j, j ≠ n → c'.nodes j = c.nodes j) ∧
      ∃ queue, (c'.nodes n).raft = { (c.nodes n).raft with readyQueue := queue } := by
  refine (h.reach_applyResults hn hside ht c rfl).bind ?_
  rintro _ c₁ ⟨hothers₁, htop, queue, hraft₁⟩
  have hrole₁ : (c₁.nodes n).raft.role = .leader := by
    rw [hraft₁]
    exact h.role
  have hs₁ := htop.step_loopTop hrole₁
  have halone : Action.isAlone 0 .loopTop = true := rfl
  have hst₂ := htop.step (hs₁ 0) halone (by rw [htop.thread]; exact htop.term_le)
  refine canReach_act _ hn hside rfl hs₁ fun c₂ hc₂ hothers₂ _ => .here ?_
  have hraft₂ : (c₂.nodes n).raft = { (c.nodes n).raft with readyQueue := queue } := by
    rw [hc₂]
    exact hraft₁
  refine ⟨⟨hc₂ ▸ hst₂, ?_, ?_, ?_⟩, by rw [hc₂]; rfl, ?_, queue, hraft₂⟩
  · rw [hraft₂]
    exact h.role
  · rw [hraft₂]
    exact h.term_eq
  · rw [hraft₂]
    exact h.commit_lt
  · exact fun j hj => (hothers₂ j hj).trans (hothers₁ j hj)

/-- The end of a round that a majority answered: the last entry is through, or there is more. -/
theorem reach_of_replies {reqs : List PeerReq} {site : CallSite}
    {answer : PeerReq → AppendEntriesReply}
    (h : (c.nodes n).Leading (m.config n) term log data)
    (ht : (c.nodes n).thread = .awaitRound reqs site)
    (hcallees : (reqs.map fun req => req.call.callee) = m.peers n)
    (hmaj : (m.config n).majority ≤ 1 + ((m.peers n).filter (· ∈ side)).length)
    (hterm : ∀ req ∈ reqs, req.call.callee ∈ side → (answer req).term = term)
    (hnet : ∀ req ∈ reqs, req.call.callee ∈ side → .appendReply req.call (answer req) ∈ c.net) :
    (sideSystem m side).CanReach ClusterInput.now c fun es c' => Through n term log data es ∨
      RoundOver m n term log data c c' ∧
        ∀ req ∈ reqs, req.call.callee ∈ side →
          (c.nodes n).raft.Counted (req.result (some (answer req))) (answer req)
            (c'.nodes n).raft := by
  refine canReach_step hn hside fun now => ?_
  have hnodup : ((peerResults reqs (sideReplies side answer reqs)).map
      PeerResult.peerId).Nodup := by
    rw [map_peerId_sideReplies, hcallees]
    exact (List.nodup_cons.mp (m.cons_peers_nodup hn)).2
  have hterms : ∀ result ∈ peerResults reqs (sideReplies side answer reqs),
      ∀ reply ∈ result.reply, reply.term = (c.nodes n).raft.currentTerm := by
    intro result hmem reply hreply
    obtain ⟨req, hreq, hreqside, rfl⟩ := of_mem_peerResults_sideReplies hmem hreply
    rw [hterm req hreq hreqside, h.term_eq]
  have hconfirmed : (m.config n).majority ≤ 1 + Raft.confirmed (c.nodes n).raft.currentTerm
      (peerResults reqs (sideReplies side answer reqs)) := by
    rw [h.term_eq, confirmed_sideReplies hterm, hcallees]
    exact hmaj
  obtain ⟨raft, toApply, es₁, hs, hleft⟩ := h.step_roundReturned ht length_sideReplies hterms
    hnodup hconfirmed (now + appendDeadline)
  refine ⟨now + appendDeadline, Nat.le_add_right _ _, _, _, offers_sideReplies ht hnet, hs,
    fun c₁ hc₁ hothers₁ _ => ?_⟩
  cases hleft with
  | committed hes happly =>
    refine (reach_applied hn hside hc₁).mono fun es c₂ happlied => Or.inl ?_
    subst hes
    exact ⟨List.mem_cons_self, List.mem_cons_of_mem _ (happlied _ happly)⟩
  | notYet hlead hcount hcounted =>
    have hlead₁ : (c₁.nodes n).Leading (m.config n) term log data := hc₁ ▸ hlead
    refine (hlead₁.reach_buildRound hn hside (by rw [hc₁])).mono fun es c₂ h₂ => Or.inr ?_
    obtain ⟨hlead₂, ht₂, hothers₂, queue, hraft₂⟩ := h₂
    rw [hc₁] at hraft₂
    refine ⟨⟨hlead₂, ht₂, ?_, fun j hj => (hothers₂ j hj).trans (hothers₁ j hj)⟩, ?_⟩
    · rw [hraft₂]
      exact hcount
    · intro req hreq hreqside
      have h₁ := hcounted _ (mem_peerResults_sideReplies hreq hreqside) _ rfl
      rw [hraft₂]
      exact h₁.congr rfl rfl rfl rfl

/-- The leader sends its requests, and the members of the side answer. -/
theorem Node.Leading.reach_answered (h : (c.nodes n).Leading (m.config n) term log data)
    {site : CallSite} (ht : (c.nodes n).thread = .buildRound site)
    (hfollows : ∀ k ∈ m.peers n, k ∈ side → (c.nodes k).Follows term) :
    (sideSystem m side).CanReach ClusterInput.now c fun _ c' =>
      (c'.nodes n).Leading (m.config n) term log data ∧
      ∃ reqs answer, RoundAnswered m side n term site reqs answer c c' := by
  refine canReach_step hn hside fun now => ?_
  obtain ⟨reqs, hb, hrange, hs₁⟩ := h.step_buildRound ht h.role now c.nextCall
  have hcallees : (reqs.map fun req => req.call.callee) = m.peers n :=
    (Raft.buildRequests_eq_some hb).2.1
  have hbuilt : ∀ req ∈ reqs, (c.nodes n).raft.BuiltFrom req := fun req hreq =>
    ((Raft.buildRequests_eq_some hb).2.2 req hreq).1
  have hpeer : ∀ req ∈ reqs, req.call.callee ∈ m.peers n :=
    fun req hreq => hcallees ▸ List.mem_map_of_mem hreq
  have halone : Action.isAlone c.nextCall (.buildRound c.nextCall) = true := decide_eq_true rfl
  have hst₁ := h.step hs₁ halone (by rw [ht]; exact h.term_le)
  refine ⟨now, le_rfl, _, _, Cluster.offers_of_isAlone halone, hs₁,
    fun c₁ hc₁ hothers₁ hnet₁ => ?_⟩
  have hsent : ∀ req ∈ reqs.filter (fun req => req.call.callee ∈ side),
      .appendRequest req.call ∈ c₁.net ∧ req.call.callee ∈ m.ids ∧ req.call.callee ∈ side ∧
      (c₁.nodes req.call.callee).Follows term ∧ req.call.request.term = term := by
    intro req hmem
    rw [List.mem_filter, decide_eq_true_eq] at hmem
    obtain ⟨hreq, hreqside⟩ := hmem
    have hids := (m.peers_perm n hn).subset (List.mem_cons_of_mem _ (hpeer req hreq))
    refine ⟨hnet₁ _ (Or.inl (List.mem_map_of_mem hreq)), hids, hreqside, ?_,
      (hbuilt req hreq).term.trans h.term_eq⟩
    rw [hothers₁ _ (m.ne_of_mem_peers hn (hpeer req hreq))]
    exact hfollows _ (hpeer req hreq) hreqside
  have hnodup : ((reqs.filter fun req => req.call.callee ∈ side).map
      fun req => req.call.callee).Nodup := by
    refine List.Nodup.sublist (List.filter_sublist.map _) ?_
    rw [hcallees]
    exact (List.nodup_cons.mp (m.cons_peers_nodup hn)).2
  refine (reach_replied hsent hnodup).mono fun es c₂ h₂ => ?_
  have : Nonempty AppendEntriesReply := ⟨⟨0, false⟩⟩
  choose! answer hanswer using h₂.replied
  have htodo : ∀ {req}, req ∈ reqs → req.call.callee ∈ side →
      req ∈ reqs.filter (fun req => req.call.callee ∈ side) :=
    fun hreq hreqside => List.mem_filter.mpr ⟨hreq, decide_eq_true hreqside⟩
  have hn₂ : c₂.nodes n = ⟨(c.nodes n).raft, .awaitRound reqs site⟩ := by
    refine (h₂.others n fun req hmem => ?_).trans hc₁
    exact (m.ne_of_mem_peers hn (hpeer req (List.mem_of_mem_filter hmem))).symm
  constructor
  · rw [hn₂]
    exact ⟨hst₁, h.role, h.term_eq, h.commit_lt⟩
  · exact ⟨reqs, answer, hcallees,
      fun req hreq => ⟨hbuilt req hreq, inRange_of_mem hrange hreq⟩, hn₂,
      fun req hreq hreqside => h₂.follows req (htodo hreq hreqside),
      fun req hreq hreqside => hanswer req (htodo hreq hreqside)⟩

/--
**One round.** The leader sends its requests and the members of the side answer. The last entry is
through then, or each of them has the whole log or its `nextIndex_` goes back by one.
-/
theorem reach_round (h : (c.nodes n).Leading (m.config n) term log data) {site : CallSite}
    (ht : (c.nodes n).thread = .buildRound site)
    (hmaj : (m.config n).majority ≤ 1 + ((m.peers n).filter (· ∈ side)).length)
    (hfollows : ∀ k ∈ m.peers n, k ∈ side → (c.nodes k).Follows term) :
    (sideSystem m side).CanReach ClusterInput.now c fun es c' => Through n term log data es ∨
      (c'.nodes n).Leading (m.config n) term log data ∧
      (c'.nodes n).thread = .buildRound .leaderLoop ∧
      (c'.nodes n).raft.replicaCount (log.length + 1) < (m.config n).majority ∧
      ∀ k ∈ m.peers n, k ∈ side → (c'.nodes k).Follows term ∧
        (PeerTable.get (c'.nodes n).raft.matchIndex k = log.length + 1 ∨
          PeerTable.get (c'.nodes n).raft.matchIndex k =
              PeerTable.get (c.nodes n).raft.matchIndex k ∧
            PeerTable.get (c'.nodes n).raft.nextIndex k + 1 =
              PeerTable.get (c.nodes n).raft.nextIndex k) := by
  refine (h.reach_answered hn hside ht hfollows).bind ?_
  rintro es₁ c₁ ⟨hlead₁, reqs, answer, h₁⟩
  refine (reach_of_replies hn hside hlead₁ (by rw [h₁.node]) h₁.callees hmaj
    (fun req hreq hreqside => (h₁.answers req hreq hreqside).2.1)
    fun req hreq hreqside => (h₁.answers req hreq hreqside).1).mono ?_
  rintro es c₂ (hthrough | ⟨hover, hcounted⟩)
  · exact Or.inl (hthrough.append _)
  refine Or.inr ⟨hover.leading, hover.thread, hover.count, fun k hk hkside => ?_⟩
  obtain ⟨req, hreq, rfl⟩ := List.mem_map.mp (h₁.callees.symm ▸ hk)
  constructor
  · rw [hover.others _ (m.ne_of_mem_peers hn hk)]
    exact h₁.follows req hreq hkside
  · have hcount := hcounted req hreq hkside
    rw [h₁.node] at hcount
    obtain ⟨hbuilt, hrange⟩ := h₁.built req hreq
    cases hsucc : (answer req).success with
    | true =>
      refine Or.inl ((hcount.success hsucc).trans (hrange.upTo.trans ?_))
      simp [h.log_eq]
    | false =>
      -- a refused request did not start at the first entry
      obtain ⟨hmatch, hnext⟩ := hcount.refused hsucc
      have hpos := (h₁.answers req hreq hkside).2.2 hsucc
      have hprev := hrange.prevIdx
      rw [hbuilt.prevIdx] at hprev
      have htwo : 2 ≤ PeerTable.get (c.nodes n).raft.nextIndex req.call.callee := by omega
      exact Or.inr ⟨hmatch, hnext htwo⟩

/-- **Round after round**, until the leader counts a majority. -/
theorem reach_through (hmaj : (m.config n).majority ≤ 1 + ((m.peers n).filter (· ∈ side)).length) :
    ∀ (next : Nat) {c : Cluster} {site : CallSite},
    (c.nodes n).Leading (m.config n) term log data → (c.nodes n).thread = .buildRound site →
    (∀ k ∈ m.peers n, k ∈ side → (c.nodes k).Follows term) →
    (∀ k ∈ m.peers n, k ∈ side →
      PeerTable.get (c.nodes n).raft.matchIndex k = log.length + 1 ∨
        PeerTable.get (c.nodes n).raft.nextIndex k ≤ next + 1) →
    (sideSystem m side).CanReach ClusterInput.now c fun es _ => Through n term log data es := by
  intro next
  induction next with
  | zero =>
    intro c site h ht hfollows hnext
    refine (reach_round hn hside h ht hmaj hfollows).bind ?_
    rintro es₁ c₁ (hthrough | ⟨h₁, ht₁, hcount, hpeers⟩)
    · exact .here (by rw [List.append_nil]; exact hthrough)
    -- nobody is left to repair, so a majority has the entry
    have hmatched : ∀ k ∈ (m.peers n).filter (· ∈ side),
        log.length + 1 ≤ PeerTable.get (c₁.nodes n).raft.matchIndex k := by
      intro k hmem
      rw [List.mem_filter, decide_eq_true_eq] at hmem
      obtain ⟨hk, hkside⟩ := hmem
      have hpos := (h₁.inv.tables h₁.role (by rw [ht₁]; nofun)).next_pos k hk
      have hbefore := hnext k hk hkside
      rcases (hpeers k hk hkside).2 with hmatch | ⟨hmatch, hback⟩
      · exact hmatch.ge
      · omega
    have hnodup := (List.nodup_cons.mp (m.cons_peers_nodup hn)).2.filter (· ∈ side)
    have hall := Raft.le_replicaCount (Nat.le_add_left 1 log.length) hnodup hmatched
    omega
  | succ next ih =>
    intro c site h ht hfollows hnext
    refine (reach_round hn hside h ht hmaj hfollows).bind ?_
    rintro es₁ c₁ (hthrough | ⟨h₁, ht₁, -, hpeers⟩)
    · exact .here (by rw [List.append_nil]; exact hthrough)
    refine (ih h₁ ht₁ (fun k hk hkside => (hpeers k hk hkside).1) fun k hk hkside => ?_).mono
      fun _ _ hes => hes.append es₁
    have hbefore := hnext k hk hkside
    rcases (hpeers k hk hkside).2 with hmatch | ⟨hmatch, hback⟩
    · exact Or.inl hmatch
    · omega

end Round

/--
**A leader can bring its last entry through**, with the members of any majority that can follow it.
-/
theorem Node.Leading.commits {m : Membership} {side : List NodeId} {c : Cluster} {n : NodeId}
    {term : Nat} {log : List Entry} {data : Bytes} (hmaj : Majority m.ids side) (hside : n ∈ side)
    (h : (c.nodes n).Leading (m.config n) term log data) {site : CallSite}
    (ht : (c.nodes n).thread = .buildRound site)
    (hfollows : ∀ k ∈ side, k ≠ n → (c.nodes k).Follows term) :
    (sideSystem m side).CanReach ClusterInput.now c fun es _ => Through n term log data es := by
  have hn := hmaj.subset n hside
  refine reach_through hn hside (m.majority_le hmaj hside) (c.nodes n).raft.log.length h ht
    (fun k hk hkside => hfollows k hkside (m.ne_of_mem_peers hn hk)) fun k hk _ => Or.inr ?_
  exact (h.inv.tables h.role (by rw [ht]; nofun)).next_le k hk

end Rafty
