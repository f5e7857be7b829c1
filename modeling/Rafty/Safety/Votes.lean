import Rafty.Cluster
import Rafty.Properties.Node

/-!
# The term and the vote of one node

A node among arbitrary requests, replies and clock readings.

* `currentTerm_monotone_iff` — the term never goes back along a run exactly if each step of the run
  `keepsTerm`: the election loop does not write a stale reply's term over a higher one, and
  `current_term_++` does not wrap.
* `vote_final_iff` — a vote is final within its term exactly if each step of the run `keepsVote`: no
  leader gives up for want of a majority, and the election loop does not clear the vote of a term
  the node has already reached.

Both conditions are tests on the state before the step and its inputs.
-/

namespace Rafty

open Infra

namespace Node

/-- The step does not make the term smaller. -/
def keepsTerm (s : Node) (action : Action) : Bool :=
  match action, s.thread with
  | .startElection _, .startElection =>
    s.raft.receivedHeartbeat || s.raft.role = .leader || s.raft.currentTerm + 1 < 2 ^ 64
  | .stepDown _, .stepDown _ term => s.raft.currentTerm ≤ term
  | _, _ => true

/-- The step does not take back a vote of the current term. -/
def keepsVote (cfg : Config) (s : Node) (i : Input) : Bool :=
  match i.action, s.thread with
  | .stepDown _, .stepDown _ term => term ≠ s.raft.currentTerm ∨ s.raft.votedFor = none
  | .roundReturned replies _, .awaitRound reqs _ =>
    ¬s.raft.LosesMajority cfg i.now (peerResults reqs replies)
  | _, _ => true

/-! ## The term -/

theorem succ64_le_iff (x : Nat) : x ≤ succ64 x ↔ x + 1 < 2 ^ 64 := by
  unfold succ64
  constructor
  · intro h
    by_contra hge
    have := Nat.mod_lt (x + 1) (show 0 < 2 ^ 64 by decide)
    by_cases hx : x + 1 = 2 ^ 64
    · rw [hx, Nat.mod_self] at h
      omega
    · omega
  · intro h
    rw [Nat.mod_eq_of_lt h]
    omega

theorem succ64_ne (x : Nat) : succ64 x ≠ x := by
  intro h
  have hlt := (succ64_le_iff x).mp h.ge
  unfold succ64 at h
  rw [Nat.mod_eq_of_lt hlt] at h
  omega

variable {cfg : Config} {s : Node} {i : Input} {eff : Effect}

theorem keepsTerm_stepDown {votes term : Nat} {timeout : ElectionTimeout}
    (ht : s.thread = .stepDown votes term) :
    s.keepsTerm (.stepDown timeout) = true ↔ s.raft.currentTerm ≤ term := by
  unfold keepsTerm
  rw [ht]
  exact decide_eq_true_iff

theorem keepsTerm_startElection {timeout : ElectionTimeout} (ht : s.thread = .startElection) :
    s.keepsTerm (.startElection timeout) = true ↔ s.raft.receivedHeartbeat = true ∨
      s.raft.role = .leader ∨ s.raft.currentTerm + 1 < 2 ^ 64 := by
  unfold keepsTerm
  rw [ht]
  simp [or_assoc]

theorem keepsTerm_of_isQuiet {action : Action} (h : action.isQuiet = true) :
    s.keepsTerm action = true := by
  cases action <;> first | rfl | cases h

/-- **What one step does to the term.** -/
theorem Move.currentTerm_le_iff (h : Move cfg s i eff) :
    s.raft.currentTerm ≤ eff.node.raft.currentTerm ↔ s.keepsTerm i.action = true := by
  cases h with
  | appendRefused hle _ hcore | voteRefused hle hcore | voteGranted hle _ _ hcore =>
    exact iff_of_true (hle.trans_eq (congrArg Core.currentTerm hcore).symm) rfl
  | appendStored h =>
    exact iff_of_true (h.term.trans_eq (congrArg Core.currentTerm h.core).symm) rfl
  | startElection ht hb hr =>
    have hiff := succ64_le_iff s.raft.currentTerm
    rw [keepsTerm_startElection ht, hb]
    simpa [hr, Raft.campaign, Raft.resetElectionTimer] using hiff
  | noElection ht hno =>
    refine iff_of_true (Nat.le_refl _) ((keepsTerm_startElection ht).mpr ?_)
    rcases hno with h | h
    · exact Or.inl h
    · exact Or.inr (Or.inl h)
  | stepDown ht => exact (keepsTerm_stepDown ht).symm
  | roundYielded _ _ _ _ hlt hcore =>
    exact iff_of_true (hlt.le.trans_eq (congrArg Core.currentTerm hcore).symm) rfl
  | roundFinished _ _ h => exact iff_of_true (Nat.le_of_eq h.currentTerm.symm) rfl
  | buildRound ht hr h =>
    obtain ⟨⟨table, rfl⟩, -, -⟩ := Raft.buildRequests_eq_some h
    exact iff_of_true (Nat.le_refl _) rfl
  | quiet hi h =>
    exact iff_of_true (Nat.le_of_eq (congrArg Core.currentTerm h.core).symm)
      (keepsTerm_of_isQuiet hi)
  | voteReturned | compareTerm => exact iff_of_true (Nat.le_of_eq (by simp [silent])) rfl
  | appendStale | voteStale | proposed | notLeader | requestTerm | requestIndex | requestSend
  | elected | defeated | initLeader | roundDropped | applyNext =>
    exact iff_of_true (Nat.le_refl _) rfl

/-! ## The vote -/

/-- A candidate and a leader have voted for themselves. -/
def VotedSelf (cfg : Config) (s : Node) : Prop :=
  s.raft.role ≠ .follower → s.raft.votedFor = some cfg.id

theorem VotedSelf.of_core {s' : Node} (h : s.VotedSelf cfg) (hcore : s'.raft.core = s.raft.core) :
    s'.VotedSelf cfg := by
  intro hr
  have hrole : s'.raft.role = s.raft.role := congrArg Core.role hcore
  have hvote : s'.raft.votedFor = s.raft.votedFor := congrArg Core.votedFor hcore
  rw [hvote]
  exact h (hrole ▸ hr)

theorem VotedSelf.of_follower {s' : Node} (h : s'.raft.role = .follower) : s'.VotedSelf cfg :=
  fun hr => absurd h hr

/-- `role_` and `voted_for_` after a `RequestVote`, answered with a vote or not. -/
theorem VotedSelf.of_raise {s' : Node} {term : Nat} (h : s.VotedSelf cfg)
    (hle : s.raft.currentTerm ≤ term) (hrole : s'.raft.role = (s.raft.core.raise term).role)
    (hvote : term = s.raft.currentTerm → s.raft.votedFor = some cfg.id →
      s'.raft.votedFor = some cfg.id) : s'.VotedSelf cfg := by
  intro hr
  rcases Core.raise_role_cases (c := s.raft.core) hle with hfollower | ⟨hterm, hsame⟩
  · exact absurd (hrole.trans hfollower) hr
  · rw [hrole, hsame] at hr
    exact hvote hterm (h hr)

/-- **A candidate and a leader have voted for themselves**, after each step. -/
theorem Move.votedSelf (h : Move cfg s i eff) (hv : s.VotedSelf cfg) : eff.node.VotedSelf cfg := by
  cases h with
  | appendRefused _ _ hcore | roundYielded _ _ _ _ _ hcore =>
    exact .of_follower (congrArg Core.role hcore)
  | appendStored h => exact .of_follower (congrArg Core.role h.core)
  | voteRefused hle hcore =>
    refine hv.of_raise hle (congrArg Core.role hcore) fun hterm hself => ?_
    exact (congrArg Core.votedFor hcore).trans ((Core.voteIn_of_le hterm.le).trans hself)
  | voteGranted hle hfree _ hcore =>
    refine hv.of_raise hle (congrArg Core.role hcore) fun hterm hself => ?_
    rw [Core.voteIn_of_le hterm.le] at hfree
    refine (congrArg Core.votedFor hcore).trans ?_
    rcases hfree with hnone | hsome
    · exact absurd (hself.symm.trans hnone) (by simp)
    · exact hsome.symm.trans hself
  | startElection => exact fun _ => rfl
  | stepDown | defeated => exact .of_follower rfl
  | elected _ hr => exact fun _ => hv (by simp [hr])
  | @roundFinished now replies _ reqs _ raft _ _ _ h =>
    by_cases hlost : s.raft.LosesMajority cfg now (peerResults reqs replies)
    · exact .of_follower (h.lost hlost).1
    · exact fun _ => (h.kept hlost).2.trans (hv (by simp [h.leader]))
  | buildRound ht hr h =>
    obtain ⟨⟨table, rfl⟩, -, -⟩ := Raft.buildRequests_eq_some h
    exact hv
  | quiet hi h => exact hv.of_core h.core
  | voteReturned | compareTerm => exact hv.of_core (by simp [silent])
  | appendStale | voteStale | proposed | notLeader | noElection | requestTerm | requestIndex
  | requestSend | initLeader | roundDropped | applyNext => exact hv

/-- Within its term a vote can only be given. -/
def KeepsVote (s s' : Raft) : Prop :=
  s'.currentTerm = s.currentTerm → s'.votedFor = s.votedFor ∨ s.votedFor = none

theorem keepsVote_stepDown {now votes term : Nat} {timeout : ElectionTimeout}
    (ht : s.thread = .stepDown votes term) :
    s.keepsVote cfg ⟨now, .stepDown timeout⟩ = true ↔
      term ≠ s.raft.currentTerm ∨ s.raft.votedFor = none := by
  unfold keepsVote
  dsimp only
  rw [ht]
  exact decide_eq_true_iff

theorem keepsVote_roundReturned {now : Nat} {replies : List (Option AppendEntriesReply)}
    {timeout : ElectionTimeout} {reqs : List PeerReq} {site : CallSite}
    (ht : s.thread = .awaitRound reqs site) :
    s.keepsVote cfg ⟨now, .roundReturned replies timeout⟩ = true ↔
      ¬s.raft.LosesMajority cfg now (peerResults reqs replies) := by
  unfold keepsVote
  dsimp only
  rw [ht]
  exact decide_eq_true_iff

theorem keepsVote_of_isQuiet (h : i.action.isQuiet = true) : s.keepsVote cfg i = true := by
  obtain ⟨now, action⟩ := i
  cases action <;> first | rfl | cases h

/-- **What one step does to the vote.** -/
theorem Move.keepsVote_iff (h : Move cfg s i eff) (hv : s.VotedSelf cfg) :
    KeepsVote s.raft eff.node.raft ↔ s.keepsVote cfg i = true := by
  cases h with
  | appendRefused hle _ hcore | voteRefused hle hcore =>
    refine iff_of_true (fun heq => Or.inl ?_) rfl
    have hterm := (congrArg Core.currentTerm hcore).symm.trans heq
    exact (congrArg Core.votedFor hcore).trans (Core.voteIn_of_le hterm.le)
  | appendStored h =>
    refine iff_of_true (fun heq => Or.inl ?_) rfl
    have hterm := (congrArg Core.currentTerm h.core).symm.trans heq
    exact (congrArg Core.votedFor h.core).trans (Core.voteIn_of_le hterm.le)
  | voteGranted hle hfree _ hcore =>
    refine iff_of_true (fun heq => ?_) rfl
    have hterm := (congrArg Core.currentTerm hcore).symm.trans heq
    rw [Core.voteIn_of_le hterm.le] at hfree
    rcases hfree with hnone | hsome
    · exact Or.inr hnone
    · exact Or.inl ((congrArg Core.votedFor hcore).trans hsome.symm)
  | startElection =>
    exact iff_of_true (fun heq => absurd heq (succ64_ne _)) rfl
  | @stepDown _ _ term _ ht =>
    rw [keepsVote_stepDown ht]
    constructor
    · intro hkeeps
      by_cases heq : term = s.raft.currentTerm
      · exact Or.inr ((hkeeps heq).elim Eq.symm id)
      · exact Or.inl heq
    · rintro (hne | hnone) heq
      · exact absurd heq hne
      · exact Or.inr hnone
  | roundDropped ht hr =>
    rw [keepsVote_roundReturned ht]
    exact iff_of_true (fun _ => Or.inl rfl) fun hlost => hr hlost.1
  | roundYielded ht _ hmem hreply hlt hcore =>
    rw [keepsVote_roundReturned ht]
    refine iff_of_true (fun heq => ?_) fun hlost => ?_
    · have hterm := (congrArg Core.currentTerm hcore).symm.trans heq
      exact absurd hterm hlt.ne'
    · exact absurd (hlost.2.1 _ hmem _ hreply) (Nat.not_le.mpr hlt)
  | roundFinished ht _ h =>
    rw [keepsVote_roundReturned ht]
    constructor
    · intro hkeeps hlost
      have hself := hv (by simp [h.leader])
      rcases hkeeps h.currentTerm with hvote | hvote
      · rw [(h.lost hlost).2, hself] at hvote
        cases hvote
      · rw [hself] at hvote
        cases hvote
    · exact fun hkept _ => Or.inl (h.kept hkept).2
  | buildRound ht hr h =>
    obtain ⟨⟨table, rfl⟩, -, -⟩ := Raft.buildRequests_eq_some h
    exact iff_of_true (fun _ => Or.inl rfl) rfl
  | quiet hi h =>
    exact iff_of_true (fun _ => Or.inl (congrArg Core.votedFor h.core)) (keepsVote_of_isQuiet hi)
  | voteReturned | compareTerm => exact iff_of_true (fun _ => Or.inl (by simp [silent])) rfl
  | appendStale | voteStale | proposed | notLeader | noElection | requestTerm | requestIndex
  | requestSend | elected | defeated | initLeader | applyNext =>
    exact iff_of_true (fun _ => Or.inl rfl) rfl

end Node

/-! ## Runs -/

variable {cfg : Config} {ts : List (Transition Node Input Event)} {s : Node}

theorem move_of_mem (h : (nodeSystem cfg).Run ts s) {t : Transition Node Input Event}
    (ht : t ∈ ts) : ∃ eff, Node.Move cfg t.before t.input eff ∧ eff.node = t.after := by
  obtain ⟨eff, hmove, hnode, -⟩ := nodeSystem_move (h.mem t ht)
  exact ⟨eff, hmove, hnode⟩

theorem votedSelf_of_run (h : (nodeSystem cfg).Run ts s) : ∀ t ∈ ts, t.before.VotedSelf cfg := by
  refine (h.invariant (P := Node.VotedSelf cfg) ?_ ?_).2
  · rintro s ⟨timeout, rfl⟩
    exact .of_follower rfl
  · intro s i s' es hv hs
    obtain ⟨eff, hmove, rfl, -⟩ := nodeSystem_move hs
    exact hmove.votedSelf hv

/--
**Terms never go back**, exactly in the runs whose steps do not write a stale term over a higher one
and do not start an election in the last term of a `uint64`.
-/
theorem currentTerm_monotone_iff (h : (nodeSystem cfg).Run ts s) :
    (∀ t ∈ ts, t.before.raft.currentTerm ≤ t.after.raft.currentTerm) ↔
      ∀ t ∈ ts, t.before.keepsTerm t.input.action = true := by
  refine forall₂_congr fun t ht => ?_
  obtain ⟨eff, hmove, hnode⟩ := move_of_mem h ht
  rw [← hnode]
  exact hmove.currentTerm_le_iff

/-- Node 0 of three wins the election of term 1 with the vote of node 1. -/
def wonElection : List Input :=
  steps 0 [.loopTop] ++ steps 300 [.poll, .startElection shortTimeout, .requestTerm,
    .requestIndex, .requestSend 0, .voteReturned (some { term := 1, voteGranted := true }),
    .compareTerm, .decide shortTimeout, .initLeader, .buildRound 1]

theorem currentTerm_monotone_wonElection : ∃ ts s, (nodeSystem (threeNodes.config 0)).Run ts s ∧
    ts.map Transition.input = wonElection ∧
    ∀ t ∈ ts, t.before.raft.currentTerm ≤ t.after.raft.currentTerm := by
  obtain ⟨ts, s, hr, hi, hall⟩ := exists_nodeRun wonElection
    (fun ts _ => ∀ t ∈ ts, t.before.keepsTerm t.input.action = true) (by decide +kernel)
  exact ⟨ts, s, hr, hi, (currentTerm_monotone_iff hr).mpr hall⟩

/--
Node 0 asks node 1 for its vote in term 1 and gets a refusal of term 5. Before it takes the lock
again a `RequestVote` of term 9 arrives.
-/
def staleReply : List Input :=
  steps 0 [.loopTop] ++ steps 300 [.poll, .startElection shortTimeout, .requestTerm,
    .requestIndex, .requestSend 0, .voteReturned (some { term := 5, voteGranted := false }),
    .compareTerm, .requestVote ⟨1, 2, 0, ⟨9, 2, 0, 0⟩⟩ shortTimeout, .stepDown shortTimeout]

/-- In that run the term goes back, from 9 to 5. -/
theorem currentTerm_goes_back : ∃ ts s, (nodeSystem (threeNodes.config 0)).Run ts s ∧
    ts.map Transition.input = staleReply ∧
    ∃ t ∈ ts, t.before.raft.currentTerm = 9 ∧ t.after.raft.currentTerm = 5 :=
  exists_nodeRun staleReply _ (by decide +kernel)

/-! ## Finality of the vote -/

/-- The step changes `voted_for_`. -/
def changesVote (t : Transition Node Input Event) : Bool :=
  t.after.raft.votedFor ≠ t.before.raft.votedFor

/--
Along any stretch in which the term stays the same the vote changes at most once, and then it was
empty and is set.
-/
def VoteFinal (ts : List (Transition Node Input Event)) : Prop :=
  ∀ before stretch after, ts = before ++ stretch ++ after →
    (∀ t ∈ stretch, t.after.raft.currentTerm = t.before.raft.currentTerm) →
    (stretch.filter changesVote).length ≤ 1 ∧
      ∀ t ∈ stretch, changesVote t = true →
        t.before.raft.votedFor = none ∧ t.after.raft.votedFor.isSome = true

theorem changesVote_iff {t : Transition Node Input Event} :
    changesVote t = true ↔ t.after.raft.votedFor ≠ t.before.raft.votedFor := by
  simp [changesVote]

/-- A step is a stretch. -/
theorem VoteFinal.keepsVote (h : VoteFinal ts) {t : Transition Node Input Event} (ht : t ∈ ts) :
    Node.KeepsVote t.before.raft t.after.raft := by
  intro hterm
  obtain ⟨before, after, rfl⟩ := List.append_of_mem ht
  have hone := (h before [t] after (by simp) (by simpa using hterm)).2 t (by simp)
  by_cases hc : changesVote t = true
  · exact Or.inr (hone hc).1
  · rw [changesVote_iff, not_not] at hc
    exact Or.inl hc

/-- Once there is a vote it stays. -/
theorem filter_changesVote_eq_nil : ∀ {stretch : List (Transition Node Input Event)},
    (stretch.IsChain fun t u => t.after = u.before) →
    (∀ t ∈ stretch, t.after.raft.votedFor = t.before.raft.votedFor ∨
      t.before.raft.votedFor = none) →
    (∀ t ∈ stretch.head?, t.before.raft.votedFor ≠ none) → stretch.filter changesVote = []
  | [], _, _, _ => rfl
  | t :: rest, hchain, hkeeps, hhead => by
    have hsome := hhead t (by simp)
    have hsame := (hkeeps t (by simp)).resolve_right hsome
    rw [List.filter_cons_of_neg (by simpa [changesVote] using hsame)]
    have hrest := fun u hu => hkeeps u (List.mem_cons_of_mem t hu)
    refine filter_changesVote_eq_nil hchain.tail hrest fun u hu => ?_
    rw [← hchain.rel_head? hu, hsame]
    exact hsome

theorem length_filter_changesVote_le : ∀ {stretch : List (Transition Node Input Event)},
    (stretch.IsChain fun t u => t.after = u.before) →
    (∀ t ∈ stretch, t.after.raft.votedFor = t.before.raft.votedFor ∨
      t.before.raft.votedFor = none) →
    (stretch.filter changesVote).length ≤ 1
  | [], _, _ => by simp
  | t :: rest, hchain, hkeeps => by
    have hrest := fun u hu => hkeeps u (List.mem_cons_of_mem t hu)
    by_cases hc : changesVote t = true
    · -- from here on there is a vote
      have hnil : rest.filter changesVote = [] := by
        refine filter_changesVote_eq_nil hchain.tail hrest fun u hu => ?_
        rw [← hchain.rel_head? hu]
        rw [changesVote_iff] at hc
        exact ((hkeeps t (by simp)).resolve_left hc) ▸ hc
      rw [List.filter_cons_of_pos hc, hnil]
      simp
    · rw [List.filter_cons_of_neg hc]
      exact length_filter_changesVote_le hchain.tail hrest

theorem voteFinal_of_keepsVote (h : (nodeSystem cfg).Run ts s)
    (hkeeps : ∀ t ∈ ts, Node.KeepsVote t.before.raft t.after.raft) : VoteFinal ts := by
  rintro before stretch after rfl hterm
  have hchain : stretch.IsChain fun t u => t.after = u.before :=
    h.isChain.1.left_of_append.right_of_append
  have hsteps : ∀ t ∈ stretch, t.after.raft.votedFor = t.before.raft.votedFor ∨
      t.before.raft.votedFor = none := fun t ht => hkeeps t (by simp [ht]) (hterm t ht)
  refine ⟨length_filter_changesVote_le hchain hsteps, fun t ht hc => ?_⟩
  rw [changesVote_iff] at hc
  have hnone := (hsteps t ht).resolve_left hc
  exact ⟨hnone, Option.isSome_iff_ne_none.mpr (hnone ▸ hc)⟩

/--
**A vote is final within its term**, exactly in the runs in which no leader gives up for want of a
majority and no reply in the election loop clears a vote of the term the node is in.
-/
theorem vote_final_iff (h : (nodeSystem cfg).Run ts s) :
    VoteFinal ts ↔ ∀ t ∈ ts, t.before.keepsVote cfg t.input = true := by
  have hstep : ∀ t ∈ ts, Node.KeepsVote t.before.raft t.after.raft ↔
      t.before.keepsVote cfg t.input = true := by
    intro t ht
    obtain ⟨eff, hmove, hnode⟩ := move_of_mem h ht
    rw [← hnode]
    exact hmove.keepsVote_iff (votedSelf_of_run h t ht)
  constructor
  · exact fun hfinal t ht => (hstep t ht).mp (hfinal.keepsVote ht)
  · exact fun hall => voteFinal_of_keepsVote h fun t ht => (hstep t ht).mpr (hall t ht)

theorem vote_final_wonElection : ∃ ts s, (nodeSystem (threeNodes.config 0)).Run ts s ∧
    ts.map Transition.input = wonElection ∧ VoteFinal ts := by
  obtain ⟨ts, s, hr, hi, hall⟩ := exists_nodeRun wonElection
    (fun ts _ => ∀ t ∈ ts, t.before.keepsVote (threeNodes.config 0) t.input = true)
    (by decide +kernel)
  exact ⟨ts, s, hr, hi, (vote_final_iff hr).mpr hall⟩

/--
After the election no peer replies any more. Each round ends after the 30 ms of its calls and the
next one comes 50 ms later; the one that ends at 680 ms gives up.
-/
def lostMajority : List Input :=
  wonElection ++
  steps 330 [unanswered, .loopTop, .buildRound 3] ++ steps 360 [unanswered] ++
  steps 410 (nextRound 5) ++ steps 440 [unanswered] ++
  steps 490 (nextRound 7) ++ steps 520 [unanswered] ++
  steps 570 (nextRound 9) ++ steps 600 [unanswered] ++
  steps 650 (nextRound 11) ++ steps 680 [unanswered]

/-- In that run node 0 takes back its vote of term 1. -/
theorem vote_taken_back : ∃ ts s, (nodeSystem (threeNodes.config 0)).Run ts s ∧
    ts.map Transition.input = lostMajority ∧ ¬VoteFinal ts := by
  obtain ⟨ts, s, hr, hi, t, ht, hterm, hself, hnone⟩ := exists_nodeRun lostMajority
    (fun ts _ => ∃ t ∈ ts, t.before.raft.currentTerm = t.after.raft.currentTerm ∧
      t.before.raft.votedFor = some 0 ∧ t.after.raft.votedFor = none) (by decide +kernel)
  refine ⟨ts, s, hr, hi, fun hfinal => ?_⟩
  rcases hfinal.keepsVote ht hterm.symm with h | h
  · rw [hself, hnone] at h
    cases h
  · rw [hself] at h
    cases h

end Rafty
