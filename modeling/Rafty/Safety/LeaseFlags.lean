import Rafty.Safety.ApplyOrder
import Rafty.Safety.Lease

/-!
# What `get_lease_state` says about its own node

`get_lease_state` reads three atomics without the lock: `is_leader_atomic_`, `lease_expires_` and
`last_term_commit_idx_`. The first two blocks of becoming leader, and most ways to stop being one,
keep them in step with `role_`, `commit_index_` and the log. Two steps do not:

* a `RequestVote` of a higher term ends a leadership and leaves `is_leader_atomic_` set;
* the block that fills the tables of a new leader sets `is_leader_atomic_` without looking at
  `role_`, and does not reset the `last_term_commit_idx_` of an earlier leadership.

What they leave is reported only while a lease runs: the old one, if it has not run out by then, or
the next one, which a round grants whether or not the new leadership has committed anything.

`lease_state_truthful_iff`: what `get_lease_state` says from the time of a state on is so in every
state of a run exactly if every step of the run passes a test on the state before it.
-/

namespace Rafty

open Infra

namespace Raft

/--
If from the time `clock` on the lease is reported with index `c`, the node leads and has committed
`c` in its term.
-/
def LeaseTruthful (s : Raft) (clock : Nat) : Prop :=
  ∀ now c, clock ≤ now → s.getLeaseState now = (true, c) → s.role = .leader ∧ 1 ≤ c ∧
    c ≤ s.commitIndex ∧ (s.log[c - 1]?).map Entry.term = some s.currentTerm

/-- The node leads, and `last_term_commit_idx_` is an index it has committed in its term. -/
def leadsFrom (s : Raft) : Bool :=
  s.role = .leader ∧ s.lastTermCommitIdx ≤ s.commitIndex ∧
    (s.log[s.lastTermCommitIdx - 1]?).map Entry.term = some s.currentTerm

/-- `get_lease_state` has something to report. -/
def reports (s : Raft) (now : Nat) : Bool := (s.getLeaseState now).1

theorem reports_iff {s : Raft} {now : Nat} : s.reports now = true ↔
    s.isLeaderAtomic = true ∧ now < s.leaseExpires ∧ 0 < s.lastTermCommitIdx := by
  constructor
  · intro h
    obtain ⟨h1, h2, h3, h4⟩ := getLeaseState_eq_true.mp (Prod.ext h rfl)
    exact ⟨h1, h2, h4 ▸ h3⟩
  · rintro ⟨h1, h2, h3⟩
    exact congrArg Prod.fst (getLeaseState_eq_true.mpr ⟨h1, h2, h3, rfl⟩)

/-- A lease that is reported later is reported now. -/
theorem reports_mono {s : Raft} {clock now : Nat} (hle : clock ≤ now)
    (h : s.reports now = true) : s.reports clock = true := by
  rw [reports_iff] at h ⊢
  exact ⟨h.1, Nat.lt_of_le_of_lt hle h.2.1, h.2.2⟩

theorem leaseTruthful_iff {s : Raft} {clock : Nat} :
    s.LeaseTruthful clock ↔ (s.reports clock = true → s.leadsFrom = true) := by
  constructor
  · intro ht hreports
    obtain ⟨h1, h2, h3⟩ := reports_iff.mp hreports
    obtain ⟨hrole, -, hle, hterm⟩ :=
      ht clock _ (Nat.le_refl _) (getLeaseState_eq_true.mpr ⟨h1, h2, h3, rfl⟩)
    exact decide_eq_true ⟨hrole, hle, hterm⟩
  · intro ht now c hnow hc
    obtain ⟨h1, h2, hpos, rfl⟩ := getLeaseState_eq_true.mp hc
    have hreports := reports_mono hnow (reports_iff.mpr ⟨h1, h2, hpos⟩)
    obtain ⟨hrole, hle, hterm⟩ := of_decide_eq_true (ht hreports)
    exact ⟨hrole, hpos, hle, hterm⟩

theorem LeaseTruthful.mono {s : Raft} {clock now : Nat} (h : s.LeaseTruthful clock)
    (hle : clock ≤ now) : s.LeaseTruthful now :=
  fun now' c hnow => h now' c (hle.trans hnow)

/-- A leadership that goes on: the log grows, and so does the commit index. -/
theorem leadsFrom_mono {s s' : Raft} (h : s.leadsFrom = true) (hrole : s'.role = s.role)
    (hterm : s'.currentTerm = s.currentTerm) (hidx : s'.lastTermCommitIdx = s.lastTermCommitIdx)
    (hlog : s.log <+: s'.log) (hcommit : s.commitIndex ≤ s'.commitIndex) :
    s'.leadsFrom = true := by
  obtain ⟨h1, h2, h3⟩ := of_decide_eq_true h
  obtain ⟨entry, hentry, hle⟩ := Option.map_eq_some_iff.mp h3
  have hlt := (List.getElem?_eq_some_iff.mp hentry).1
  obtain ⟨rest, hrest⟩ := hlog
  refine decide_eq_true ⟨hrole.trans h1, by omega, ?_⟩
  rw [hidx, ← hrest, List.getElem?_append_left hlt, hterm]
  exact h3

end Raft

namespace Node

/--
The step does not part the lease flags from the state they speak about. A node that has a lease to
report is not deposed by a `RequestVote`. The block that sets `is_leader_atomic_` finds no index, or
a lease that has run out, or an index of this leadership. And a round that grants a lease to a node
with an index of an earlier leadership commits an entry of its own term.
-/
def keepsLeaseState (cfg : Config) (s : Node) (i : Input) : Bool :=
  match i.action, s.thread with
  | .requestVote call _, _ =>
    ¬(s.raft.reports i.now = true ∧ s.raft.currentTerm < call.request.term)
  | .initLeader, .initLeader =>
    s.raft.lastTermCommitIdx = 0 ∨ s.raft.leaseExpires ≤ i.now ∨ s.raft.leadsFrom = true
  | .roundReturned replies timeout, .awaitRound reqs _ =>
    s.raft.GrantsLease cfg (peerResults reqs replies) ∧ s.raft.isLeaderAtomic = true ∧
        0 < s.raft.lastTermCommitIdx ∧ s.raft.leadsFrom = false →
      (s.raft.processResults cfg i.now timeout (peerResults reqs replies)).all fun r =>
        r.1.CommitsInTerm
  | _, _ => true

variable {cfg : Config} {s : Node} {now : Nat} {i : Input} {eff : Effect}

/-- The actions that can be quiet leave the lease flags alone, quiet or not. -/
theorem flags_of_isQuiet (hi : i.action.isQuiet = true) (h : s.step cfg i = some eff) :
    eff.node.raft.isLeaderAtomic = s.raft.isLeaderAtomic ∧
      eff.node.raft.lastTermCommitIdx = s.raft.lastTermCommitIdx := by
  rcases frame_of_isQuiet hi h with ⟨role, drawn, heard, dead, hraft⟩ | ⟨callId, reqs, hb⟩
  · exact hraft ▸ ⟨rfl, rfl⟩
  · obtain ⟨⟨table, hraft⟩, -, -⟩ := Raft.buildRequests_eq_some hb
    exact hraft ▸ ⟨rfl, rfl⟩

/--
What `get_lease_state` reports is applied: `last_term_commit_idx_` only takes the value of
`commit_index_`, in a block that has brought `last_applied_` up to it.
-/
theorem lastTermCommitIdx_le_of_step (h : s.step cfg i = some eff)
    (hle : s.raft.lastTermCommitIdx ≤ s.raft.lastApplied) :
    eff.node.raft.lastTermCommitIdx ≤ eff.node.raft.lastApplied := by
  have hmono := (move_of_step h).lastApplied_le
  have hsame : eff.node.raft.lastTermCommitIdx = s.raft.lastTermCommitIdx →
      eff.node.raft.lastTermCommitIdx ≤ eff.node.raft.lastApplied := by omega
  cases move_of_step h with
  | appendRefused | appendStored =>
    obtain ⟨reply, hf⟩ := step_appendEntries h
    exact hsame (Raft.handleAppendEntries_flags hf).1
  | voteRefused | voteGranted =>
    refine hsame ?_
    rw [step_requestVote h]
    exact (Raft.handleRequestVote_flags _ _ _).2
  | buildRound _ _ hb =>
    obtain ⟨⟨table, rfl⟩, -, -⟩ := Raft.buildRequests_eq_some hb
    exact hle
  | roundYielded hthread _ hmem hreply hlt =>
    obtain ⟨toApply, hp⟩ := step_roundReturned hthread h
    have hidx := (Raft.processResults_flags hp).2
    rw [if_neg fun hg => absurd (hg.2.1 _ hmem _ hreply) (Nat.not_le.mpr hlt)] at hidx
    exact hsame hidx
  | roundFinished hthread _ hfin =>
    obtain ⟨toApply, hp⟩ := step_roundReturned hthread h
    have hidx := (Raft.processResults_flags hp).2
    split at hidx
    · split at hidx
      · exact (hidx.2.trans_le (le_max_right _ _)).trans_eq hfin.lastApplied.symm
      · exact hsame hidx.2
    · exact hsame hidx
  | quiet hq => exact hsame (flags_of_isQuiet hq h).2
  | voteReturned | compareTerm => exact hsame (by simp [silent])
  | _ => exact hle

theorem keepsLeaseState_of_isQuiet (hi : i.action.isQuiet = true) :
    s.keepsLeaseState cfg i = true := by
  obtain ⟨now, action⟩ := i
  cases action <;> first | rfl | cases hi

/-! ## One step -/

/-- Whoever is in an election starts it as a candidate, and can only become a follower. -/
theorem Move.election (h : Move cfg s i eff)
    (hs : s.thread.inElection = true → s.raft.role ≠ .leader)
    (ht : eff.node.thread.inElection = true) : eff.node.raft.role ≠ .leader := by
  intro hl
  rcases h.of_leader hl with ⟨hrole, -⟩ | ⟨hthread, -⟩
  · -- a leader before the step, so not in an election before it, and no step takes it into one
    have hnot : s.thread.inElection ≠ true := fun h => hs h hrole
    cases h with
    | startElection _ _ hr => exact hr hrole
    | requestTerm h | requestIndex h | requestSend h | voteReturned h | compareTerm h | stepDown h
    | elected h | defeated h => exact hnot (by rw [h]; rfl)
    | noElection | initLeader | buildRound => cases ht
    | roundDropped | roundYielded | roundFinished | applyNext => simp at ht
    | quiet _ h =>
      rcases h.thread with he | ⟨hidle, -⟩
      · exact hnot (he ▸ ht)
      · exact Bool.false_ne_true ((inElection_of_isIdle hidle).symm.trans ht)
    | appendStale | appendRefused | appendStored | voteStale | voteRefused | voteGranted | proposed
    | notLeader => exact hnot ht
  · rw [hthread] at ht
    cases ht

/-- What a round without a new lease, or with one, leaves of a leadership that is reported. -/
theorem leadsFrom_round {replies : List (Option AppendEntriesReply)} {timeout : ElectionTimeout}
    {reqs : List PeerReq} {site : CallSite} {raft : Raft} {toApply toApply' : List ApplyResult}
    (hthread : s.thread = .awaitRound reqs site)
    (hp : s.raft.processResults cfg now timeout (peerResults reqs replies) = some (raft, toApply'))
    (hfin : s.raft.RoundFinished cfg now (peerResults reqs replies) raft toApply)
    (ht : s.raft.reports now = true → s.raft.leadsFrom = true) :
    (raft.reports now = true → raft.leadsFrom = true) ↔
      s.keepsLeaseState cfg ⟨now, .roundReturned replies timeout⟩ = true := by
  obtain ⟨hatomic, hidx⟩ := Raft.processResults_flags hp
  have hcommit : s.raft.commitIndex ≤ raft.commitIndex := by
    rcases hfin.commitIndex with he | ⟨hlt, -⟩ <;> omega
  -- with the same index, a leadership that goes on goes on from it
  have hsame : raft.isLeaderAtomic = true → raft.lastTermCommitIdx = s.raft.lastTermCommitIdx →
      s.raft.leadsFrom = true → raft.leadsFrom = true := fun hflag hidx hleads =>
    Raft.leadsFrom_mono hleads (hatomic hflag).2 hfin.currentTerm hidx (hfin.log ▸ List.prefix_rfl)
      hcommit
  simp only [keepsLeaseState, hthread, hp, Option.all_some, decide_eq_true_eq]
  by_cases hg : s.raft.GrantsLease cfg (peerResults reqs replies)
  · rw [if_pos hg] at hidx
    obtain ⟨hflag, hidx⟩ := hidx
    have hlease : now < raft.leaseExpires := by
      rw [hfin.lease, if_pos hg, leaseDuration, milliseconds]
      omega
    by_cases hcommits : raft.CommitsInTerm
    · rw [if_pos hcommits] at hidx
      refine iff_of_true (fun hrep => ?_) fun _ => hcommits
      have hrole := (hatomic (Raft.reports_iff.mp hrep).1).2
      exact decide_eq_true
        ⟨hrole.trans hfin.leader, Nat.le_of_eq hidx, by rw [hidx]; exact hcommits.2⟩
    · rw [if_neg hcommits] at hidx
      -- nothing is committed, since only entries of the current term are
      have hci : raft.commitIndex = s.raft.commitIndex := by
        rcases hfin.commitIndex with he | ⟨hlt, -, hterm, -⟩
        · exact he
        · refine absurd ⟨by omega, ?_⟩ hcommits
          rw [hfin.log, hfin.currentTerm]
          exact hterm
      constructor
      · rintro htrue ⟨-, hatomic', hpos, hnot⟩
        have hleads := htrue (Raft.reports_iff.mpr ⟨hflag.trans hatomic', hlease, hidx ▸ hpos⟩)
        obtain ⟨-, hle, hterm⟩ := of_decide_eq_true hleads
        rw [hidx, hci] at hle
        rw [hidx, hfin.log, hfin.currentTerm] at hterm
        rw [show s.raft.leadsFrom = true from decide_eq_true ⟨hfin.leader, hle, hterm⟩] at hnot
        cases hnot
      · intro hk hrep
        obtain ⟨hflag', -, hpos⟩ := Raft.reports_iff.mp hrep
        refine hsame hflag' hidx ?_
        by_contra hnot
        exact hcommits (hk ⟨hg, hflag ▸ hflag', hidx ▸ hpos, by simpa using hnot⟩)
  · rw [if_neg hg] at hidx
    refine iff_of_true (fun hrep => ?_) fun h => absurd h.1 hg
    obtain ⟨hflag, hlease, hpos⟩ := Raft.reports_iff.mp hrep
    rw [hfin.lease, if_neg hg] at hlease
    exact hsame hflag hidx
      (ht (Raft.reports_iff.mpr ⟨(hatomic hflag).1, hlease, hidx ▸ hpos⟩))

/-- A `RequestVote` deposes whoever has a lease to report, or leaves the leadership as it is. -/
theorem leadsFrom_vote {call : Call RequestVoteReq} {timeout : ElectionTimeout} {raft : Raft}
    (hle : s.raft.currentTerm ≤ call.request.term)
    (hreports : raft.reports now = s.raft.reports now)
    (hidx : raft.lastTermCommitIdx = s.raft.lastTermCommitIdx)
    (hrole : raft.role = (s.raft.core.raise call.request.term).role)
    (hterm : raft.currentTerm = call.request.term) (hlog : raft.log = s.raft.log)
    (hcommit : raft.commitIndex = s.raft.commitIndex)
    (ht : s.raft.reports now = true → s.raft.leadsFrom = true) :
    (raft.reports now = true → raft.leadsFrom = true) ↔
      s.keepsLeaseState cfg ⟨now, .requestVote call timeout⟩ = true := by
  simp only [keepsLeaseState, decide_eq_true_eq, hreports]
  rcases Nat.lt_or_eq_of_le hle with hlt | heq
  · have hfollower : raft.role = .follower := hrole.trans (if_pos hlt)
    refine ⟨fun htrue hboth => ?_, fun hnot hrep => absurd ⟨hrep, hlt⟩ hnot⟩
    cases hfollower.symm.trans (of_decide_eq_true (htrue hboth.1)).1
  · have hsame : raft.role = s.raft.role :=
      hrole.trans (if_neg (Nat.not_lt.mpr (Nat.le_of_eq heq.symm)))
    refine iff_of_true (fun hrep => ?_) fun hboth => Nat.lt_irrefl _ (heq ▸ hboth.2)
    exact Raft.leadsFrom_mono (ht hrep) hsame (hterm.trans heq.symm) hidx (hlog ▸ List.prefix_rfl)
      (Nat.le_of_eq hcommit.symm)

/-- An accepted `AppendEntries` ends a leadership, and clears `is_leader_atomic_` as it does. -/
theorem not_reports_of_append {call : Call AppendEntriesRequest} {timeout : ElectionTimeout}
    (h : s.step cfg ⟨now, .appendEntries call timeout⟩ = some eff)
    (hle : s.raft.currentTerm ≤ call.request.term)
    (hlease : eff.node.raft.leaseExpires = s.raft.leaseExpires)
    (ht : s.raft.reports now = true → s.raft.leadsFrom = true) :
    eff.node.raft.reports now ≠ true := by
  intro hrep
  obtain ⟨reply, hf⟩ := step_appendEntries h
  obtain ⟨hidx, hatomic⟩ := Raft.handleAppendEntries_flags hf
  obtain ⟨h1, h2, h3⟩ := Raft.reports_iff.mp hrep
  have hleads := ht (Raft.reports_iff.mpr ⟨(hatomic h1).1, hlease ▸ h2, hidx ▸ h3⟩)
  exact (hatomic h1).2 hle (of_decide_eq_true hleads).1

/--
**The step lemma.** After a step that starts truthful, what is reported is so exactly if the step
keeps the lease state.
-/
theorem leadsFrom_step_iff (h : s.step cfg i = some eff)
    (helection : s.thread.inElection = true → s.raft.role ≠ .leader)
    (ht : s.raft.reports i.now = true → s.raft.leadsFrom = true) :
    (eff.node.raft.reports i.now = true → eff.node.raft.leadsFrom = true) ↔
      s.keepsLeaseState cfg i = true := by
  -- whoever does not lead before the step has nothing to report
  have hlead : s.raft.reports i.now = true → s.raft.role = .leader :=
    fun h => (of_decide_eq_true (ht h)).1
  cases move_of_step h with
  | appendRefused hle _ _ hl =>
    exact iff_of_true (fun hrep => absurd hrep (not_reports_of_append h hle hl.leaseExpires ht)) rfl
  | appendStored hst hl =>
    exact iff_of_true
      (fun hrep => absurd hrep (not_reports_of_append h hst.term hl.leaseExpires ht)) rfl
  | @voteRefused _ call timeout raft hle hcore hl
  | @voteGranted _ call timeout raft hle _ _ hcore hl =>
    obtain ⟨h1, h2⟩ := Raft.handleRequestVote_flags s.raft call.request timeout
    rw [← step_requestVote h] at h1 h2
    obtain ⟨hrole, hcur, -, hlog, hci, -, -⟩ := Core.mk.inj hcore
    refine leadsFrom_vote hle ?_ h2 hrole hcur hlog hci ht
    rw [Bool.eq_iff_iff, Raft.reports_iff, Raft.reports_iff]
    exact Iff.of_eq (by rw [show raft.isLeaderAtomic = _ from h1,
      show raft.lastTermCommitIdx = _ from h2, hl.leaseExpires])
  | voteStale hlt =>
    refine iff_of_true ht (decide_eq_true fun hboth => ?_)
    exact Nat.lt_asymm hlt hboth.2
  | proposed =>
    refine iff_of_true (fun hrep => ?_) rfl
    exact Raft.leadsFrom_mono (ht hrep) rfl rfl rfl (List.prefix_append _ _) (Nat.le_refl _)
  | startElection _ _ hr => exact iff_of_true (fun hrep => absurd (hlead hrep) hr) rfl
  | stepDown hthread | elected hthread | defeated hthread =>
    refine iff_of_true (fun hrep => absurd (hlead hrep) (helection ?_)) rfl
    rw [hthread]
    rfl
  | @initLeader now hthread =>
    simp only [keepsLeaseState, hthread, decide_eq_true_eq]
    constructor
    · intro htrue
      by_cases hpos : s.raft.lastTermCommitIdx = 0
      · exact Or.inl hpos
      · rcases Nat.lt_or_ge now s.raft.leaseExpires with hruns | hover
        · exact Or.inr (Or.inr (htrue (Raft.reports_iff.mpr
            ⟨rfl, hruns, Nat.pos_of_ne_zero hpos⟩)))
        · exact Or.inr (Or.inl hover)
    · intro hk hrep
      obtain ⟨-, hruns, hpos⟩ := Raft.reports_iff.mp hrep
      rcases hk with hzero | hover | hleads
      · exact absurd hzero (Nat.ne_of_gt hpos)
      · exact absurd hruns (Nat.not_lt.mpr hover)
      · exact hleads
  | buildRound _ _ hb =>
    obtain ⟨⟨table, rfl⟩, -, -⟩ := Raft.buildRequests_eq_some hb
    exact iff_of_true ht rfl
  | roundDropped hthread hr =>
    refine iff_of_true ht ?_
    simp only [keepsLeaseState, hthread, decide_eq_true_eq]
    exact fun hboth => absurd hboth.1.1 hr
  | roundYielded hthread hr hmem hreply hlt hcore =>
    obtain ⟨toApply, hp⟩ := step_roundReturned hthread h
    refine iff_of_true (fun hrep => ?_) ?_
    · have hrole := ((Raft.processResults_flags hp).1 (Raft.reports_iff.mp hrep).1).2
      exact absurd ((congrArg Core.role hcore).symm.trans (hrole.trans hr)) (by simp)
    · simp only [keepsLeaseState, hthread, decide_eq_true_eq]
      exact fun hboth => absurd (hboth.1.2.1 _ hmem _ hreply) (Nat.not_le.mpr hlt)
  | roundFinished hthread _ hfin =>
    obtain ⟨toApply, hp⟩ := step_roundReturned hthread h
    exact leadsFrom_round hthread hp hfin ht
  | quiet hi hq =>
    obtain ⟨h1, h2⟩ := flags_of_isQuiet hi h
    obtain ⟨hrole, hcur, -, hlog, hci, -, -⟩ := Core.mk.inj hq.core
    refine iff_of_true (fun hrep => ?_) (keepsLeaseState_of_isQuiet hi)
    obtain ⟨h3, h4, h5⟩ := Raft.reports_iff.mp hrep
    rw [show (silent _).node.raft.leaseExpires = _ from hq.leaseExpires] at h4
    exact Raft.leadsFrom_mono (ht (Raft.reports_iff.mpr ⟨h1.symm.trans h3, h4, h2 ▸ h5⟩)) hrole hcur
      h2 ((show _ = s.raft.log from hlog) ▸ List.prefix_rfl) (Nat.le_of_eq hci.symm)
  | voteReturned | compareTerm =>
    simp only [silent, voteReturned_raft, compareTerm_raft]
    exact iff_of_true ht rfl
  | _ => exact iff_of_true ht rfl

end Node

/-! ## Runs -/

section Run

variable {cfg : Config} {ts : List (Transition Node Input Event)} {s : Node}

/-- Nobody leads during an election of its own. -/
theorem election_of_run (h : (nodeSystem cfg).Run ts s) :
    s.thread.inElection = true → s.raft.role ≠ .leader := by
  refine (h.invariant (P := fun s => s.thread.inElection = true → s.raft.role ≠ .leader) ?_ ?_).1
  · rintro s ⟨timeout, rfl⟩ h
    cases h
  · intro s i s' es hinv hs
    obtain ⟨eff, heff, rfl, -⟩ := nodeSystem_step hs
    exact (Node.move_of_step heff).election hinv

/-- The state a run ends in is the last one it reached. -/
theorem leaseTruthful_of_run (h : (nodeSystem cfg).Run ts s)
    (hall : ∀ t ∈ ts, t.after.raft.LeaseTruthful t.input.now) {now : Nat}
    (hnow : ∀ t ∈ ts, t.input.now ≤ now) : s.raft.LeaseTruthful now := by
  cases h with
  | init hi =>
    obtain ⟨timeout, rfl⟩ := hi
    intro now' c _ hc
    cases (Raft.getLeaseState_eq_true.mp hc).1
  | @step ts s₀ _ i es hr hs =>
    have hlast : ⟨s₀, i, es, s⟩ ∈ ts ++ [⟨s₀, i, es, s⟩] :=
      List.mem_append_right _ (List.mem_singleton_self _)
    exact (hall _ hlast).mono (hnow _ hlast)

/--
**What `get_lease_state` says is so** in every state that a run reaches, from the time of the state
on, exactly if every step of the run keeps the lease state.
-/
theorem lease_state_truthful_iff (h : (nodeSystem cfg).Run ts s)
    (hclock : ts.Pairwise fun u t => u.input.now ≤ t.input.now) :
    (∀ t ∈ ts, t.after.raft.LeaseTruthful t.input.now) ↔
      ∀ t ∈ ts, t.before.keepsLeaseState cfg t.input = true := by
  induction h with
  | init => simp
  | @step ts s s' i es hr hs ih =>
    obtain ⟨eff, heff, rfl, -⟩ := nodeSystem_step hs
    obtain ⟨hclock, -, hlast⟩ := List.pairwise_append.mp hclock
    simp only [List.forall_mem_append, List.forall_mem_singleton]
    rw [← ih hclock]
    refine and_congr_right fun hall => ?_
    have hnow := fun t ht => hlast t ht _ (List.mem_singleton_self _)
    rw [Raft.leaseTruthful_iff]
    exact Node.leadsFrom_step_iff heff (election_of_run hr)
      (Raft.leaseTruthful_iff.mp (leaseTruthful_of_run hr hall hnow))

end Run

/-- Node 0 leads term 1, has committed an entry and holds a lease for it. -/
theorem lease_state_truthful_committedRound : ∃ ts s, (nodeSystem (threeNodes.config 0)).Run ts s ∧
    ts.map Transition.input = committedRound ∧
    s.raft.getLeaseState (milliseconds 400) = (true, 1) ∧
    ∀ t ∈ ts, t.after.raft.LeaseTruthful t.input.now := by
  obtain ⟨ts, s, hr, hi, hlease, hclock, hall⟩ := exists_nodeRun committedRound
    (fun ts s => s.raft.getLeaseState (milliseconds 400) = (true, 1) ∧
      (ts.Pairwise fun u t => u.input.now ≤ t.input.now) ∧
      ∀ t ∈ ts, t.before.keepsLeaseState (threeNodes.config 0) t.input = true) (by decide +kernel)
  exact ⟨ts, s, hr, hi, hlease, (lease_state_truthful_iff hr hclock).mpr hall⟩

/-- A candidate of term 2 asks the leader for its vote. -/
def deposedByVote : List Input :=
  committedRound ++ steps 320 [.requestVote ⟨9, 1, 0, ⟨2, 1, 1, 1⟩⟩ shortTimeout]

/-- The node then follows in term 2, and `get_lease_state` still reports a lease of the leader. -/
theorem lease_state_of_follower : ∃ ts s, (nodeSystem (threeNodes.config 0)).Run ts s ∧
    ts.map Transition.input = deposedByVote ∧
    (ts.Pairwise fun u t => u.input.now ≤ t.input.now) ∧
    s.raft.getLeaseState (milliseconds 400) = (true, 1) ∧ s.raft.role = .follower ∧
    s.raft.currentTerm = 2 ∧ ¬s.raft.LeaseTruthful (milliseconds 320) := by
  obtain ⟨ts, s, hr, hi, hclock, hlease, hrole, hterm⟩ := exists_nodeRun deposedByVote
    (fun ts s => (ts.Pairwise fun u t => u.input.now ≤ t.input.now) ∧
      s.raft.getLeaseState (milliseconds 400) = (true, 1) ∧ s.raft.role = .follower ∧
      s.raft.currentTerm = 2) (by decide +kernel)
  refine ⟨ts, s, hr, hi, hclock, hlease, hrole, hterm, fun htrue => ?_⟩
  cases hrole.symm.trans (htrue _ _ (by decide) hlease).1

end Rafty
