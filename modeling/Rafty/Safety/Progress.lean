import Mathlib.Algebra.Order.BigOperators.Group.List
import Mathlib.Algebra.Order.Group.Nat
import Mathlib.Data.Finset.Max
import Mathlib.Data.Prod.Lex
import Rafty.Safety.Catchup
import Rafty.Safety.Logs

/-!
# A majority can always go on

The safety properties say what no run does; a cluster that does nothing has them all. Here is what
remains possible: from every state that a run with monotone terms and one leader a term can reach,
the members of any majority that were not killed can elect one of them and bring a new command
through, whatever they were doing, whatever is on the network, and though nobody else takes a step
or answers (`majority_makes_progress`). The clock does not go back on the way.

It takes that the results that are handed to `apply` are taken: the ready queue of a node is
unbuffered, so `apply` returns when the consumer of the queue, `RaftWrapper::Apply`, has taken the
result. In the steps of a node here it always has.

The one to elect is a member whose log is most up to date. It gets to a campaign of its own
(`Node.Steady.campaigns`), wins it (`Node.Campaigning.wins`), takes the command and repairs the
others until it is committed (`Node.Leading.commits`).
-/

namespace Rafty

open Infra

/-! ## The terms in replies -/

/-- The term of a reply that the thread has still to act on. -/
def Thread.heardTerm : Thread → Option Nat
  | .gotReply _ _ reply _ => some reply.term
  | .stepDown _ term => some term
  | _ => none

theorem heardTerm_of_isIdle {thread : Thread} (h : thread.isIdle = true) :
    thread.heardTerm = none := by
  cases thread <;> first | rfl | cases h

@[simp] theorem heardTerm_electionLoop (votes : Nat) (todo : List NodeId) :
    (electionLoop votes todo).heardTerm = none := by
  cases todo <;> rfl

@[simp] theorem heardTerm_afterVote (cfg : Config) (votes : Nat) (todo : List NodeId) :
    (afterVote cfg votes todo).heardTerm = none := by
  unfold afterVote
  split
  · rfl
  · exact heardTerm_electionLoop votes todo

@[simp] theorem heardTerm_applyResults (site : CallSite) (toApply : List ApplyResult) :
    (applyResults site toApply).heardTerm = none := by
  cases toApply <;> cases site <;> rfl

namespace Node

variable {cfg : Config} {s : Node} {i : Input} {eff : Effect}

/-- A term that is heard was heard before or comes with a reply. -/
theorem Move.heardTerm (h : Move cfg s i eff) {term : Nat}
    (hterm : term ∈ eff.node.thread.heardTerm) : term ∈ s.thread.heardTerm ∨
      ∃ votes call todo reply, s.thread = .awaitVote votes call todo ∧
        i.action = .voteReturned (some reply) ∧ term = reply.term := by
  cases h with
  | @voteReturned _ votes call todo reply ht =>
    cases reply with
    | none => simp [silent, Node.voteReturned] at hterm
    | some reply =>
      simp only [silent, Node.voteReturned, Thread.heardTerm, Option.mem_some] at hterm
      exact Or.inr ⟨votes, call, todo, reply, ht, rfl, hterm.symm⟩
  | @compareTerm _ votes peer reply todo ht =>
    left
    simp only [silent, Node.compareTerm] at hterm
    split at hterm
    · rw [ht]
      exact hterm
    · split at hterm <;> simp at hterm
  | appendStale | appendRefused | appendStored | voteStale | voteRefused | voteGranted
  | proposed | notLeader => exact Or.inl hterm
  | startElection | roundFinished | applyNext => simp at hterm
  | roundDropped | roundYielded =>
    rw [show (returnTo _).heardTerm = none from heardTerm_of_isIdle (isIdle_returnTo _)] at hterm
    cases hterm
  | quiet _ h =>
    rcases h.thread with he | ⟨hidle, -⟩
    · exact Or.inl (he ▸ hterm)
    · rw [show (silent _).node.thread.heardTerm = none from heardTerm_of_isIdle hidle] at hterm
      cases hterm
  | _ => cases hterm

/-- A voter replies with the term it has then. -/
theorem Move.voteReply_term (h : Move cfg s i eff) {call : Call RequestVoteReq}
    {reply : RequestVoteReply} (hmem : .voteReply call reply ∈ eff.sends) :
    reply.term = eff.node.raft.currentTerm := by
  cases h with
  | voteStale =>
    simp only [List.mem_singleton, Packet.voteReply.injEq] at hmem
    rw [hmem.2]
  | voteRefused _ hcore | voteGranted _ _ _ hcore =>
    simp only [List.mem_singleton, Packet.voteReply.injEq] at hmem
    rw [hmem.2]
    exact (congrArg Core.currentTerm hcore).symm
  | buildRound =>
    obtain ⟨req, -, hreq⟩ := List.mem_map.mp hmem
    cases hreq
  | appendStale | appendRefused | appendStored => simp at hmem
  | requestSend => simp [Node.requestSend] at hmem
  | _ => cases hmem

end Node

variable {m : Membership} {ts : List (Transition Cluster ClusterInput Event)} {c : Cluster}

/-- Some member has reached the term. -/
def Reached (m : Membership) (c : Cluster) (term : Nat) : Prop :=
  ∃ k ∈ m.ids, term ≤ (c.nodes k).raft.currentTerm

/-- The terms in replies, on the network and in the threads. -/
structure RepliesReached (m : Membership) (c : Cluster) : Prop where
  net : ∀ call reply, .voteReply call reply ∈ c.net → Reached m c reply.term
  threads : ∀ n, ∀ term ∈ (c.nodes n).thread.heardTerm, Reached m c term

/-- **No reply is of a term that nobody has reached**, while no term goes back. -/
theorem repliesReached (h : (clusterSystem m).Run ts c) (htame : Tame ts) :
    RepliesReached m c := by
  induction h with
  | init hi =>
    obtain ⟨timeouts, rfl⟩ := hi
    exact ⟨nofun, nofun⟩
  | @step ts c c' i es hr hs ih =>
    have ih := ih htame.init
    have hmono : ∀ {term}, Reached m c term → Reached m c' term := by
      rintro term ⟨k, hk, hle⟩
      refine ⟨k, hk, hle.trans ?_⟩
      exact htame.term_le _ (List.mem_append_right _ (List.mem_singleton_self _)) k
    obtain ⟨hn, hoffers, eff, hmove, rfl, rfl⟩ := clusterSystem_move hs
    refine ⟨fun call reply hmem => ?_, fun k term hterm => ?_⟩
    · rcases Cluster.mem_advance_net hmem with hmem | hmem
      · exact hmono (ih.net call reply hmem)
      · refine ⟨i.node, hn, ?_⟩
        rw [Cluster.advance_nodes_self]
        exact (hmove.voteReply_term hmem).le
    · by_cases hk : k = i.node
      · subst hk
        rw [Cluster.advance_nodes_self] at hterm
        rcases hmove.heardTerm hterm with hold | ⟨votes, call, todo, reply, ht, ha, rfl⟩
        · exact hmono (ih.threads _ term hold)
        · rw [show i.action = _ from ha] at hoffers
          exact hmono (ih.net call reply (Cluster.offers_voteReturned ht hoffers))
      · rw [Cluster.advance_nodes_ne hk] at hterm
        exact hmono (ih.threads k term hterm)

/-- What the thread may set the term to is the next term, or one that somebody has reached. -/
theorem nextTerm_le {thread : Thread} {term bound : Nat} (hterm : term ≤ bound)
    (hheard : ∀ t ∈ thread.heardTerm, t ≤ bound) : thread.nextTerm term ≤ bound + 1 := by
  cases thread with
  | waiting | startElection => exact (Nat.mod_le _ _).trans (Nat.succ_le_succ hterm)
  | gotReply votes peer reply todo =>
    exact (max_le hterm (hheard reply.term rfl)).trans (Nat.le_succ _)
  | stepDown votes t => exact (hheard t rfl).trans (Nat.le_succ _)
  | _ => exact hterm.trans (Nat.le_succ _)

/-! ## The member to elect -/

/-- Some member of the side has a log that is up to date for all of them. -/
theorem exists_upToDate (c : Cluster) {side : List NodeId} (hne : side ≠ []) :
    ∃ n ∈ side, ∀ k ∈ side, upToDate (c.nodes k).raft.log (c.nodes n).raft.log.length
      (lastLogTerm (c.nodes n).raft.log) = true := by
  obtain ⟨n, hn, hmax⟩ := side.toFinset.exists_max_image
    (fun k => toLex (lastLogTerm (c.nodes k).raft.log, (c.nodes k).raft.log.length))
    (List.toFinset_nonempty_iff _ |>.mpr hne)
  refine ⟨n, List.mem_toFinset.mp hn, fun k hk => ?_⟩
  exact upToDate_iff.mpr (Prod.Lex.toLex_le_toLex.mp (hmax k (List.mem_toFinset.mpr hk)))

/-! ## The way there -/

/-- What is known of a member that was not killed. -/
theorem steady_of_run (h : (clusterSystem m).Run ts c) (htame : Tame ts) {n : NodeId}
    (halive : (c.nodes n).raft.dead = false) {bound : Nat}
    (hterm : (c.nodes n).raft.currentTerm ≤ bound) :
    (c.nodes n).Steady (m.config n) (c.nodes n).raft.log bound := by
  obtain ⟨us, hus⟩ := exists_run_of_node h n
  exact ⟨halive, rfl, ((inv_of_run h htame).commit_known n).1,
    ((refines h htame).2.nodes n).applied, hterm, indexInv_of_run hus⟩

/-- A new leader sets up its tables and takes a proposal. -/
theorem reach_leading {side : List NodeId} {n : NodeId} (hn : n ∈ m.ids) (hside : n ∈ side)
    {s : Node} {log : List Entry} {term : Nat} (hst : s.Steady (m.config n) log term)
    (hterm : s.raft.currentTerm = term)
    (hc : c.nodes n = ⟨{ s.raft with role := .leader }, .initLeader⟩) (data : Bytes) :
    (sideSystem m side).CanReach ClusterInput.now c fun es c' => .proposed n ⟨term, data⟩ ∈ es ∧
      (c'.nodes n).Leading (m.config n) term log data ∧
      (c'.nodes n).thread = .buildRound .electionWon ∧
      ∀ k, k ≠ n → c'.nodes k = c.nodes k := by
  have hinv : (c.nodes n).IndexInv (m.config n) := by
    rw [hc]
    exact ⟨nofun, fun _ hne => absurd rfl hne, fun _ _ hmem => by cases hmem⟩
  refine canReach_step hn hside fun now => ?_
  have hs₁ : (c.nodes n).step (m.config n) ⟨now, .initLeader⟩ =
      some (Node.silent ((c.nodes n).initLeader (m.config n) now)) := by
    rw [hc]
    rfl
  have hinv₁ := hinv.step hs₁
  refine ⟨now, le_rfl, _, _, rfl, hs₁, fun c₁ hc₁ hothers₁ _ => ?_⟩
  rw [← hc₁] at hinv₁
  have hrole₁ : (c₁.nodes n).raft.role = .leader := by
    rw [hc₁, hc]
    rfl
  have hterm₁ : (c₁.nodes n).raft.currentTerm = term := by
    rw [hc₁, hc]
    exact hterm
  have hs₂ : ∀ now, (c₁.nodes n).step (m.config n) ⟨now, .propose data⟩ = some
      { node := { (c₁.nodes n) with raft := { (c₁.nodes n).raft with
          log := (c₁.nodes n).raft.log ++ [⟨term, data⟩] } }
        events := [.proposed n ⟨term, data⟩]
        sends := [] } := by
    intro now
    simp only [Node.step, Node.propose, Raft.propose, if_pos hrole₁, hterm₁, if_true]
    rfl
  have hinv₂ := hinv₁.step (hs₂ now)
  refine canReach_act _ hn hside rfl hs₂ fun c₂ hc₂ hothers₂ _ => .here ?_
  rw [← hc₂] at hinv₂
  refine ⟨by simp, ?_, ?_, fun k hk => (hothers₂ k hk).trans (hothers₁ k hk)⟩
  · have hlog : (c₂.nodes n).raft.log = log ++ [⟨term, data⟩] := by
      rw [hc₂, hc₁, hc, ← hst.log_eq]
      rfl
    have hle : (c₂.nodes n).raft.commitIndex ≤ log.length := by
      rw [hc₂, hc₁, hc]
      exact hst.commit_le
    refine ⟨⟨?_, hlog, ?_, ?_, ?_, hinv₂⟩, ?_, ?_, hle⟩
    · rw [hc₂, hc₁, hc]
      exact hst.alive
    · rw [List.length_append]
      exact hle.trans (Nat.le_add_right _ _)
    · rw [hc₂, hc₁, hc]
      exact hst.applied
    · rw [hc₂]
      exact hterm₁.le
    · rw [hc₂]
      exact hrole₁
    · rw [hc₂]
      exact hterm₁
  · rw [hc₂, hc₁]
    rfl

/--
From where a run has got to, a member of the side whose log is up to date for all of it can win
the second term after `bound` and bring a command through.
-/
theorem canReach_through (h : (clusterSystem m).Run ts c) (htame : Tame ts) {side : List NodeId}
    (hmaj : Majority m.ids side) (htwo : 2 ≤ m.ids.length) {n : NodeId} (hside : n ∈ side)
    (hup : ∀ k ∈ side, upToDate (c.nodes k).raft.log (c.nodes n).raft.log.length
      (lastLogTerm (c.nodes n).raft.log) = true)
    (halive : (c.nodes n).raft.dead = false) {bound : Nat}
    (hterm : ∀ k ∈ m.ids, (c.nodes k).raft.currentTerm ≤ bound) (hwrap : bound + 2 < 2 ^ 64)
    (data : Bytes) :
    (sideSystem m side).CanReach ClusterInput.now c fun es _ =>
      .elected n (bound + 2) (c.nodes n).raft.log ∈ es ∧ .proposed n ⟨bound + 2, data⟩ ∈ es ∧
        Through n (bound + 2) (c.nodes n).raft.log data es := by
  have hn := hmaj.subset n hside
  have hmajority : 2 ≤ (m.config n).majority := by
    rw [m.majority_eq hn]
    omega
  -- alone to a campaign in the second term after `bound`
  have hst : (c.nodes n).Steady (m.config n) (c.nodes n).raft.log (bound + 1) :=
    steady_of_run h htame halive ((hterm n hn).trans (Nat.le_succ _))
  have hrun : (c.nodes n).thread.isRunning = true := by
    obtain ⟨us, hus⟩ := exists_run_of_node h n
    exact isRunning_of_run hus halive
  have hnext : (c.nodes n).thread.nextTerm (c.nodes n).raft.currentTerm ≤ bound + 1 := by
    refine nextTerm_le (hterm n hn) fun t ht => ?_
    obtain ⟨k, hk, hle⟩ := (repliesReached h htame).threads n t ht
    exact hle.trans (hterm k hk)
  refine (hst.campaigns hn hside hrun hnext hmajority hwrap c rfl).bind ?_
  rintro es₁ c₁ ⟨hothers₁, hcampaign⟩
  -- the votes of the others
  have hvotes : ∀ k ∈ side, k ≠ n → (c₁.nodes k).VotesFor (bound + 2) (c.nodes n).raft.log := by
    intro k hk hkn
    rw [hothers₁ k hkn]
    have hle := hterm k (hmaj.subset k hk)
    exact ⟨by omega, hup k hk, ((refines h htame).2.nodes k).applied.ge⟩
  refine (hcampaign.wins hmaj hside hvotes).bind ?_
  rintro es₂ c₂ ⟨helected, hc₂, hfollows₂⟩
  refine (reach_leading hn hside hcampaign.toSteady hcampaign.term_eq hc₂ data).bind ?_
  rintro es₃ c₃ ⟨hproposed, hleading, ht₃, hothers₃⟩
  -- the repair of the others
  have hfollows₃ : ∀ k ∈ side, k ≠ n → (c₃.nodes k).Follows (bound + 2) := by
    intro k hk hkn
    rw [hothers₃ k hkn]
    exact hfollows₂ k hk hkn
  refine (hleading.commits hmaj hside ht₃ hfollows₃).mono fun es₄ _ hthrough => ?_
  exact ⟨by simp [helected], by simp [hproposed], ((hthrough.append es₃).append es₂).append es₁⟩

/--
**A majority can always make progress.** In every state that a run with monotone terms and one
leader a term reaches, in a cluster of two members or more, the members of any majority that were
not killed can go on, with nobody else taking a step, so that one of them is elected, takes the
given command, commits it and applies it. They can do so from any time on, and with a clock that
does not go back, neither behind that time nor behind the steps so far. `bound` is any bound on the
terms of the members that leaves room for two elections.
-/
theorem majority_makes_progress (h : (clusterSystem m).Run ts c) (htame : Tame ts)
    {side : List NodeId} (hmaj : Majority m.ids side) (htwo : 2 ≤ m.ids.length)
    (halive : ∀ k ∈ side, (c.nodes k).raft.dead = false) {bound : Nat}
    (hterm : ∀ k ∈ m.ids, (c.nodes k).raft.currentTerm ≤ bound) (hwrap : bound + 2 < 2 ^ 64)
    (data : Bytes) (now : Nat) :
    ∃ n ∈ side, ∃ us c', (clusterSystem m).Run (ts ++ us) c' ∧ (∀ u ∈ us, u.input.node ∈ side) ∧
      (∀ u ∈ us, now ≤ u.input.now ∧ ∀ t ∈ ts, t.input.now ≤ u.input.now) ∧
      us.Pairwise (fun u v => u.input.now ≤ v.input.now) ∧
      .elected n (bound + 2) (c.nodes n).raft.log ∈ events us ∧
      .proposed n ⟨bound + 2, data⟩ ∈ events us ∧
      .committed n (bound + 2) ((c.nodes n).raft.log.length + 1)
        ((c.nodes n).raft.log ++ [⟨bound + 2, data⟩]) ∈ events us ∧
      .applied n ⟨true, data, (c.nodes n).raft.log.length + 1⟩ ∈ events us := by
  have hne : side ≠ [] := by
    rintro rfl
    exact absurd hmaj.half (by simp)
  obtain ⟨n, hside, hup⟩ := exists_upToDate c hne
  have hreach := canReach_through h htame hmaj htwo hside hup (halive n hside) hterm hwrap data
  -- a time that is behind neither `now` nor any step of the run
  obtain ⟨us, c', hrun, hnodes, hlate, htimes, helected, hproposed, hthrough⟩ :=
    hreach.exists_append h (now + (ts.map fun t => t.input.now).sum)
  refine ⟨n, hside, us, c', hrun, fun u hu => of_decide_eq_true (hnodes u hu),
    fun u hu => ⟨?_, ?_⟩, htimes, helected, hproposed, hthrough.1, hthrough.2⟩
  · exact (Nat.le_add_right _ _).trans (hlate u hu)
  · intro t ht
    have hle : t.input.now ≤ (ts.map fun t => t.input.now).sum :=
      List.le_sum_of_mem (List.mem_map_of_mem ht)
    exact hle.trans ((Nat.le_add_left _ _).trans (hlate u hu))

/--
After `handover` node 1 leads term 2 and has not set up its tables, node 0 is back at the head of
its loop, and node 2 has taken no step. Nodes 0 and 2 bring a command through without node 1.
-/
theorem majority_makes_progress_handover : ∃ ts c us c', ∃ n ∈ [0, 2],
    (clusterSystem threeNodes).Run ts c ∧ ts.map Transition.input = handover ∧
    (clusterSystem threeNodes).Run (ts ++ us) c' ∧ (∀ u ∈ us, u.input.node ∈ [0, 2]) ∧
    (∀ u ∈ us, ∀ t ∈ ts, t.input.now ≤ u.input.now) ∧
    us.Pairwise (fun u v => u.input.now ≤ v.input.now) ∧
    .elected n 4 (c.nodes n).raft.log ∈ events us ∧
    .applied n ⟨true, [122], (c.nodes n).raft.log.length + 1⟩ ∈ events us := by
  obtain ⟨ts, c, hr, hi, hall, halive, hterm⟩ := exists_clusterRun handover
    (fun ts c => (∀ t ∈ ts, t.before.keepsBallot threeNodes t.input = true) ∧
      (∀ k ∈ ([0, 2] : List NodeId), (c.nodes k).raft.dead = false) ∧
      ∀ k ∈ threeNodes.ids, (c.nodes k).raft.currentTerm ≤ 2) (by decide +kernel)
  have hmaj : Majority threeNodes.ids [0, 2] := ⟨by decide, by decide, by decide⟩
  have htame := tame_of_keepsBallots hr (keepsBallots_of_forall hall)
  obtain ⟨n, hn, us, c', hrun, hnodes, htime, htimes, he, -, -, ha⟩ :=
    majority_makes_progress hr htame hmaj (by decide) halive hterm (by decide) [122] 0
  exact ⟨ts, c, us, c', n, hn, hr, hi, hrun, hnodes, fun u hu => (htime u hu).2, htimes, he, ha⟩

end Rafty
