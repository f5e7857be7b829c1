import Rafty.ProposeSync
import Rafty.Cluster
import Rafty.Properties.Node

/-!
# What a success of `propose_sync` says

`propose_sync` takes `last_applied_ >= index` for the news that its own entry has been applied. It
does not look at the entry: if another leader has replaced it meanwhile, and the new one is applied
before the next poll, the poll cannot tell (`propose_sync_replaced`). An entry that is replaced and
not applied while the call polls does no harm, since the call then reports the leadership as lost.
`propose_sync_own_entry` says that nothing else can go wrong.
-/

namespace Rafty

open Infra

/--
The step applies nothing but `entry` at `index`, and does not replace it there once it is applied:
neither does `handle_append_entries`, which cuts, commits and applies in one block, nor the commit
of a round.
-/
def Node.appliesOnly (cfg : Config) (s : Node) (i : Input) (index : Nat) (entry : Entry) : Bool :=
  match i.action, s.thread with
  | .appendEntries call _, _ =>
    let log := appendLoop s.raft.log call.request.prevLogIndex call.request.entries
    s.raft.currentTerm ≤ call.request.term ∧ logMatches s.raft.log call.request ∧
        index ≤ max s.raft.lastApplied (s.raft.followerCommit call.request log) →
      log[index - 1]? = some entry
  | .roundReturned replies timeout, .awaitRound reqs _ =>
    (s.raft.processResults cfg i.now timeout (peerResults reqs replies)).all fun r =>
      index ≤ r.1.commitIndex → s.raft.log[index - 1]? = some entry
  | _, _ => true

/-- The index and the entry that a call which has not returned yet waits for. -/
def SyncCall.proposal : SyncCall → Option (Nat × Entry)
  | .looping data result _ | .locking data result _ => some (result.index, ⟨result.term, data⟩)
  | .returned .. => none

/-- No step applies another entry at an index that a call of `propose_sync` is waiting for. -/
def SyncNode.keepsProposals (cfg : Config) (s : SyncNode) (i : SyncInput) : Bool :=
  match i.action with
  | .node action => s.calls.all fun c => c.proposal.all fun p =>
      s.node.appliesOnly cfg ⟨i.now, action⟩ p.1 p.2
  | _ => true

/-- If `index` is applied, `entry` stands there. -/
def Raft.AppliedOnly (s : Raft) (index : Nat) (entry : Entry) : Prop :=
  index ≤ s.lastApplied → s.log[index - 1]? = some entry

theorem Raft.AppliedOnly.append {s : Raft} {index : Nat} {entry : Entry}
    (h : s.AppliedOnly index entry) (e : Entry) :
    Raft.AppliedOnly { s with log := s.log ++ [e] } index entry := by
  intro hle
  have hold := h hle
  exact (List.getElem?_append_left (List.getElem?_eq_some_iff.mp hold).1).trans hold

/-- Only `handle_append_entries` and the commit of a round can apply another entry. -/
theorem Node.appliedOnly_of_step {cfg : Config} {s : Node} {i : Input} {eff : Effect}
    (h : s.step cfg i = some eff) {index : Nat} {entry : Entry}
    (hold : s.raft.AppliedOnly index entry) (hk : s.appliesOnly cfg i index entry = true) :
    eff.node.raft.AppliedOnly index entry := by
  have hsame : s.raft.SameStorage eff.node.raft → eff.node.raft.AppliedOnly index entry := by
    intro hst hle
    rw [hst.log]
    exact hold (hst.lastApplied ▸ hle)
  have hmove := move_of_step h
  cases hmove.storage with
  | same hst => exact hsame hst
  | proposed e he => exact he ▸ hold.append e
  | enqueued result he => exact he ▸ hold
  | @stored call timeout results ha hst =>
    intro hle
    have hl : eff.node.raft.lastApplied = max s.raft.lastApplied eff.node.raft.commitIndex :=
      congrArg Core.lastApplied hst.core
    rw [hl, hst.commitIndex, hst.log] at hle
    obtain ⟨now, action⟩ := i
    subst ha
    rw [hst.log]
    exact of_decide_eq_true hk ⟨hst.term, hst.logMatches, hle⟩
  | finished hfin ha =>
    intro hle
    rw [hfin.lastApplied] at hle
    rw [hfin.log]
    obtain ⟨replies, timeout, ha⟩ := ha
    obtain ⟨now, action⟩ := i
    subst ha
    obtain ⟨reqs, site, ht⟩ := awaitRound_of_step h
    obtain ⟨toApply, hp⟩ := step_roundReturned ht h
    simp only [appliesOnly, ht, hp, Option.all_some, decide_eq_true_eq] at hk
    by_cases hcommit : index ≤ eff.node.raft.commitIndex
    · exact hk hcommit
    · exact hold (by omega)

namespace SyncNode

/-- No call that has not returned waits for an index at which another entry is applied. -/
def Own (s : SyncNode) : Prop :=
  ∀ c ∈ s.calls, ∀ p, c.proposal = some p → 1 ≤ p.1 ∧ s.node.raft.AppliedOnly p.1 p.2

variable {cfg : Config} {s s' : SyncNode} {i : SyncInput} {es : List SyncEvent}

/-- Moving one call on within its proposal. -/
theorem Own.set (h : s.Own) {k : Nat} {c c' : SyncCall} (hk : s.calls[k]? = some c)
    (hc : ∀ p, c'.proposal = some p → c.proposal = some p) :
    SyncNode.Own { s with calls := s.calls.set k c' } := by
  intro x hx p hp
  rcases List.mem_or_eq_of_mem_set hx with hmem | rfl
  · exact h x hmem p hp
  · exact h c (List.mem_of_getElem? hk) p (hc _ hp)

theorem proposal_of_check {dead : Bool} {now : Nat} {c c' : SyncCall}
    (h : c.check dead now = some c') : ∀ p, c'.proposal = some p → c.proposal = some p := by
  cases c with
  | looping data result deadline =>
    simp only [SyncCall.check] at h
    split at h <;> cases h <;> simp [SyncCall.proposal]
  | locking | returned => cases h

theorem proposal_of_poll {raft : Raft} {c c' : SyncCall} (h : c.poll raft = some c') :
    ∀ p, c'.proposal = some p → c.proposal = some p := by
  cases c with
  | locking data result deadline =>
    simp only [SyncCall.poll] at h
    split at h
    · cases h
      simp [SyncCall.proposal]
    · split at h <;> cases h <;> simp [SyncCall.proposal]
  | looping | returned => cases h

/-- A call that starts as a leader has its entry at the end of the log. -/
theorem Own.call (h : s.Own) (data : Bytes) (now : Nat) :
    SyncNode.Own {
      node := { s.node with raft := (s.node.raft.propose data).1 }
      calls := s.calls ++ [.start data (s.node.raft.propose data).2 now] } := by
  intro x hx p hp
  rcases List.mem_append.mp hx with hmem | hmem
  · obtain ⟨h1, h2⟩ := h x hmem p hp
    refine ⟨h1, ?_⟩
    show (s.node.raft.propose data).1.AppliedOnly p.1 p.2
    rcases s.node.raft.propose_cases data with ⟨-, hraft, -, -⟩ | ⟨-, hraft, -⟩ <;> rw [hraft]
    · exact h2.append _
    · exact h2
  · rw [List.mem_singleton] at hmem
    subst hmem
    unfold Raft.propose at hp ⊢
    split at hp
    · next hl =>
      simp only [SyncCall.start, if_true, SyncCall.proposal, Option.some.injEq] at hp
      subst hp
      simp [hl, Raft.AppliedOnly]
    · simp [SyncCall.start, SyncCall.proposal] at hp

/-- **One step** that applies no other entry at the index of a proposal. -/
theorem Own.step (h : s.Own) (hs : s.step cfg i = some (s', es))
    (hk : s.keepsProposals cfg i = true) : s'.Own := by
  obtain ⟨now, action⟩ := i
  cases action with
  | node action =>
    obtain ⟨eff, heff, he⟩ := Option.map_eq_some_iff.mp hs
    rw [Prod.mk.injEq] at he
    obtain ⟨rfl, -⟩ := he
    intro c hc p hp
    obtain ⟨h1, h2⟩ := h c hc p hp
    have hall := List.all_eq_true.mp hk c hc
    rw [hp] at hall
    exact ⟨h1, Node.appliedOnly_of_step heff h2 hall⟩
  | call data =>
    simp only [SyncNode.step, Option.some.injEq, Prod.mk.injEq] at hs
    exact hs.1 ▸ h.call data now
  | check k =>
    simp only [SyncNode.step, Option.bind_eq_bind, Option.bind_eq_some_iff, Option.some.injEq] at hs
    obtain ⟨c, hc, c', hc', he⟩ := hs
    obtain rfl : (s.proceed k c').1 = s' := congrArg Prod.fst he
    exact h.set hc (proposal_of_check hc')
  | poll k =>
    simp only [SyncNode.step, Option.bind_eq_bind, Option.bind_eq_some_iff, Option.some.injEq] at hs
    obtain ⟨c, hc, c', hc', he⟩ := hs
    obtain rfl : (s.proceed k c').1 = s' := congrArg Prod.fst he
    exact h.set hc (proposal_of_poll hc')

theorem eq_of_mem_proceed {k k' : Nat} {c : SyncCall} {data : Bytes} {result : ProposalResult}
    (h : .returned k data result ∈ (s.proceed k' c).2) : c = .returned data result := by
  cases c with
  | returned d r =>
    simp only [proceed, List.mem_singleton, SyncEvent.returned.injEq] at h
    rw [h.2.1, h.2.2]
  | looping | locking => cases h

/-- A call returns as a leader only from a poll, once the index it was waiting for is applied. -/
theorem Own.of_returned (h : s.Own) (hs : s.step cfg i = some (s', es)) {k : Nat} {data : Bytes}
    {result : ProposalResult} (hmem : .returned k data result ∈ es)
    (hl : result.isLeader = true) :
    1 ≤ result.index ∧ result.index ≤ s'.node.raft.lastApplied ∧
      s'.node.raft.log[result.index - 1]? = some ⟨result.term, data⟩ := by
  obtain ⟨now, action⟩ := i
  cases action with
  | node action =>
    obtain ⟨eff, -, he⟩ := Option.map_eq_some_iff.mp hs
    obtain rfl : [] = es := congrArg Prod.snd he
    cases hmem
  | call d =>
    simp only [SyncNode.step, Option.some.injEq, Prod.mk.injEq] at hs
    obtain ⟨-, rfl⟩ := hs
    split at hmem
    · cases hmem
    · next hnot =>
      rw [List.mem_singleton, SyncEvent.returned.injEq] at hmem
      exact absurd (hmem.2.2 ▸ hl) hnot
  | check k' =>
    simp only [SyncNode.step, Option.bind_eq_bind, Option.bind_eq_some_iff, Option.some.injEq] at hs
    obtain ⟨c, -, c', hc', he⟩ := hs
    obtain rfl : (s.proceed k' c').2 = es := congrArg Prod.snd he
    obtain rfl := eq_of_mem_proceed hmem
    cases c with
    | looping d r deadline =>
      simp only [SyncCall.check] at hc'
      split at hc' <;> cases hc'
      cases hl
    | locking | returned => cases hc'
  | poll k' =>
    simp only [SyncNode.step, Option.bind_eq_bind, Option.bind_eq_some_iff, Option.some.injEq] at hs
    obtain ⟨c, hc, c', hc', he⟩ := hs
    obtain rfl : (s.proceed k' c').2 = es := congrArg Prod.snd he
    obtain rfl := eq_of_mem_proceed hmem
    have hnode : s'.node = s.node := (congrArg (fun p => p.1.node) he).symm
    cases c with
    | locking d r deadline =>
      simp only [SyncCall.poll] at hc'
      split at hc'
      · next happlied =>
        cases hc'
        rw [hnode]
        obtain ⟨hpos, hown⟩ := h _ (List.mem_of_getElem? hc) _ rfl
        exact ⟨hpos, happlied, hown happlied⟩
      · split at hc' <;> cases hc'
        cases hl
    | looping | returned => cases hc'

end SyncNode

section Run

variable {cfg : Config} {ts : List (Transition SyncNode SyncInput SyncEvent)} {s : SyncNode}

theorem own_of_run (h : (syncSystem cfg).Run ts s)
    (hkeeps : ∀ t ∈ ts, t.before.keepsProposals cfg t.input = true) :
    ∀ t ∈ ts, t.before.Own := by
  have hr : ((syncSystem cfg).restrict fun s i => s.keepsProposals cfg i).Run ts s :=
    h.restrict hkeeps
  refine (hr.invariant (P := SyncNode.Own) ?_ ?_).2
  · rintro s ⟨timeout, rfl⟩ c hc
    cases hc
  · intro s i s' es hown hs
    obtain ⟨hk, hs⟩ := System.restrict_step.mp hs
    exact hown.step hs hk

/--
**`propose_sync` reports only its own success**, in the runs in which no other entry is applied at
an index that a call is waiting for: at the moment of return the node has applied the index it
reports, and the entry there is the one it appended.
-/
theorem propose_sync_own_entry (h : (syncSystem cfg).Run ts s)
    (hkeeps : ∀ t ∈ ts, t.before.keepsProposals cfg t.input = true) :
    ∀ t ∈ ts, ∀ {k data result}, .returned k data result ∈ t.events → result.isLeader = true →
      1 ≤ result.index ∧ result.index ≤ t.after.node.raft.lastApplied ∧
        t.after.node.raft.log[result.index - 1]? = some ⟨result.term, data⟩ := by
  intro t ht k data result hmem hl
  exact (own_of_run h hkeeps t ht).of_returned (h.mem t ht) hmem hl

end Run

/-! ## Two runs -/

/-- The steps `inputs` of node 0 and its callers are a run with what `P` asks for. -/
theorem exists_syncRun (inputs : List SyncInput)
    (P : List (Transition SyncNode SyncInput SyncEvent) → SyncNode → Prop)
    [∀ ts s, Decidable (P ts s)]
    (h : ((syncSystem (threeNodes.config 0)).exec [] ⟨Node.init shortTimeout, []⟩ inputs).any
      (fun r => decide (P r.1 r.2)) = true) :
    ∃ ts s, (syncSystem (threeNodes.config 0)).Run ts s ∧ ts.map Transition.input = inputs ∧
      P ts s :=
  System.exists_run_of_exec _ inputs P ⟨_, rfl⟩ h

/-- Steps of node 0 and of its callers, all at the time `ms`. -/
def syncSteps (ms : Nat) (actions : List SyncAction) : List SyncInput :=
  actions.map fun action => ⟨milliseconds ms, action⟩

/-- Node 0 is elected in term 1, and `propose_sync` is called on it. -/
def calledLeader : List SyncInput :=
  syncSteps 0 [.node .loopTop] ++
  syncSteps 300 (winElection.map .node ++ [.call [120]])

/-- The entry is committed with both peers before the first poll. -/
def syncSuccess : List SyncInput :=
  calledLeader ++ syncSteps 310 [.node (.buildRound 1), .node bothAnswer, .check 0, .poll 0]

theorem propose_sync_own_entry_success : ∃ ts s, (syncSystem (threeNodes.config 0)).Run ts s ∧
    ts.map Transition.input = syncSuccess ∧
    ∃ t ∈ ts, .returned 0 [120] ⟨1, 1, true⟩ ∈ t.events ∧ 1 ≤ t.after.node.raft.lastApplied ∧
      t.after.node.raft.log[0]? = some ⟨1, [120]⟩ := by
  obtain ⟨ts, s, hr, hi, ⟨t, ht, hmem⟩, hkeeps⟩ := exists_syncRun syncSuccess
    (fun ts _ => (∃ t ∈ ts, .returned 0 [120] ⟨1, 1, true⟩ ∈ t.events) ∧
      ∀ t ∈ ts, t.before.keepsProposals (threeNodes.config 0) t.input = true) (by decide +kernel)
  exact ⟨ts, s, hr, hi, t, ht, hmem, (propose_sync_own_entry hr hkeeps t ht hmem rfl).2⟩

/--
Node 1 has been elected in term 2 without the entry of node 0, has committed one of its own with
node 2 and sends it to node 0.
-/
def syncReplaced : List SyncInput :=
  calledLeader ++ syncSteps 310 [.check 0, .poll 0,
    .node (.appendEntries ⟨9, 1, 0,
      { term := 2, leaderId := 1, prevLogIndex := 0, prevLogTerm := 0,
        entries := [{ term := 2, command := [121] }], leaderCommit := 1 }⟩ shortTimeout),
    .check 0, .poll 0]

/-- The call then reports success at index 1 in term 1, where node 0 has applied another entry. -/
theorem propose_sync_replaced : ∃ ts s, (syncSystem (threeNodes.config 0)).Run ts s ∧
    ts.map Transition.input = syncReplaced ∧
    ∃ t ∈ ts, .returned 0 [120] ⟨1, 1, true⟩ ∈ t.events ∧
      t.after.node.raft.log[0]? = some ⟨2, [121]⟩ ∧
      t.after.node.raft.readyQueue = [⟨true, [121], 1⟩] :=
  exists_syncRun syncReplaced _ (by decide +kernel)

end Rafty
