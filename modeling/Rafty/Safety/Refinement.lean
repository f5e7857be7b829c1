import Rafty.Replication.Invariant
import Rafty.Safety.Election

/-!
# The cluster refines the replication protocol

`protocolState` reads a state of the abstract protocol off the nodes and the events so far. Each
step of the cluster is a short sequence of steps of the protocol: an accepted `AppendEntries`, for
example, raises the term, splices the leader's log in and learns a commit index.
-/

namespace Rafty

open Infra Replication

/-! ## The abstraction -/

/-- What an event does to the log of the leader of term `t`. -/
def growLog (t : Nat) (log : List Entry) : Event → List Entry
  | .elected _ term g => if term = t then g else log
  | .proposed _ entry => if entry.term = t then log ++ [entry] else log
  | _ => log

/-- The log of the leader of each term, from the events. -/
def leaderLogs (es : List Event) (t : Nat) : List Entry := es.foldl (growLog t) []

/-- Node `v` has voted in `term` with `log`. -/
def VotedWith (es : List Event) (v : NodeId) (term : Nat) (log : List Entry) : Prop :=
  .started v term log ∈ es ∨ ∃ request, .granted v request log ∈ es ∧ request.term = term

def protocolState (es : List Event) (c : Cluster) : State NodeId Entry where
  currentTerm n := (c.nodes n).raft.currentTerm
  log n := (c.nodes n).raft.log
  commitIndex n := (c.nodes n).raft.commitIndex
  leading n := (c.nodes n).raft.role = .leader
  elected n t g := .elected n t g ∈ es
  leaderLog t := leaderLogs es t
  acked v t k := .accepted v t k ∈ es
  voted := VotedWith es
  committed t N := ∃ n g, .committed n t N g ∈ es

theorem protocolState_init (timeouts : NodeId → ElectionTimeout) :
    protocolState [] (Cluster.init timeouts) = State.initial := by
  ext <;> simp [protocolState, State.initial, Cluster.init, Node.init, Raft.init, leaderLogs,
    VotedWith]

/-- The history part of the abstraction after more events. -/
structure HistoryAfter (evs : List Event) (s s' : State NodeId Entry) : Prop where
  elected : ∀ n t g, s'.elected n t g ↔ s.elected n t g ∨ .elected n t g ∈ evs
  leaderLog : ∀ t, s'.leaderLog t = evs.foldl (growLog t) (s.leaderLog t)
  acked : ∀ v t k, s'.acked v t k ↔ s.acked v t k ∨ .accepted v t k ∈ evs
  voted : ∀ v t f, s'.voted v t f ↔ s.voted v t f ∨ VotedWith evs v t f
  committed : ∀ t N, s'.committed t N ↔ s.committed t N ∨ ∃ n g, .committed n t N g ∈ evs

theorem historyAfter (es evs : List Event) (c c' : Cluster) :
    HistoryAfter evs (protocolState es c) (protocolState (es ++ evs) c') where
  elected n t g := List.mem_append
  leaderLog t := List.foldl_append
  acked v t k := List.mem_append
  voted v t f := by
    simp only [protocolState, VotedWith, List.mem_append]
    grind
  committed t N := by
    simp only [protocolState, List.mem_append]
    grind

/-- The node part of the abstraction after a step of node `n`. -/
structure NodeAfter (n : NodeId) (raft : Raft) (s s' : State NodeId Entry) : Prop where
  currentTerm : s'.currentTerm = Function.update s.currentTerm n raft.currentTerm
  log : s'.log = Function.update s.log n raft.log
  commitIndex : s'.commitIndex = Function.update s.commitIndex n raft.commitIndex
  leading_self : s'.leading n ↔ raft.role = .leader
  leading_ne : ∀ u, u ≠ n → (s'.leading u ↔ s.leading u)

theorem nodeAfter (es es' : List Event) (c : Cluster) (n : NodeId) (action : Action)
    (eff : Effect) : NodeAfter n eff.node.raft (protocolState es c)
      (protocolState es' (c.advance n action eff)) where
  currentTerm := Cluster.advance_field fun s => s.raft.currentTerm
  log := Cluster.advance_field fun s => s.raft.log
  commitIndex := Cluster.advance_field fun s => s.raft.commitIndex
  leading_self := by simp [protocolState]
  leading_ne u hu := by simp [protocolState, Cluster.advance_nodes_ne hu]

/-- The two parts make up the state. -/
theorem eq_of_after {evs : List Event} {n : NodeId} {raft : Raft} {s s' r : State NodeId Entry}
    (hh : HistoryAfter evs s s') (hn : NodeAfter n raft s s') (hr : HistoryAfter evs s r)
    (hrn : NodeAfter n raft s r) : s' = r := by
  apply State.ext
  · rw [hn.currentTerm, hrn.currentTerm]
  · rw [hn.log, hrn.log]
  · rw [hn.commitIndex, hrn.commitIndex]
  · funext u
    by_cases hu : u = n
    · rw [hu]
      exact propext (hn.leading_self.trans hrn.leading_self.symm)
    · exact propext ((hn.leading_ne u hu).trans (hrn.leading_ne u hu).symm)
  · funext u t g
    exact propext ((hh.elected u t g).trans (hr.elected u t g).symm)
  · funext t
    rw [hh.leaderLog, hr.leaderLog]
  · funext v t k
    exact propext ((hh.acked v t k).trans (hr.acked v t k).symm)
  · funext v t f
    exact propext ((hh.voted v t f).trans (hr.voted v t f).symm)
  · funext t N
    exact propext ((hh.committed t N).trans (hr.committed t N).symm)

/-! ## Steps of the protocol as steps of a node -/

section Simulation

variable {s r : State NodeId Entry} {n v : NodeId} {raft : Raft} {evs : List Event}

/-- `raise` and `learn` are no history. -/
theorem HistoryAfter.raise (h : HistoryAfter evs s r) (T : Nat) :
    HistoryAfter evs s (r.raise v T) :=
  ⟨h.elected, h.leaderLog, h.acked, h.voted, h.committed⟩

theorem HistoryAfter.learn (h : HistoryAfter evs s r) (c : Nat) :
    HistoryAfter evs s (r.learn v c) :=
  ⟨h.elected, h.leaderLog, h.acked, h.voted, h.committed⟩

/-- `vote` is nothing but history. -/
theorem NodeAfter.vote (h : NodeAfter n raft s r) : NodeAfter n raft s (r.vote v) :=
  ⟨h.currentTerm, h.log, h.commitIndex, h.leading_self, h.leading_ne⟩

/-- The events say nothing about elections, votes, acknowledgements and commits. -/
theorem historyAfter_self (h : ∀ e ∈ evs, ∃ v result, e = .applied v result) :
    HistoryAfter evs s s := by
  have hno : ∀ e, (∀ v result, e ≠ .applied v result) → e ∉ evs := by
    intro e hne hmem
    obtain ⟨v, result, he⟩ := h e hmem
    exact hne v result he
  constructor
  · intro u t g
    simp [hno]
  · intro t
    induction evs with
    | nil => rfl
    | cons e rest ih =>
      obtain ⟨v, result, rfl⟩ := h e (by simp)
      exact ih (fun e he => h e (by simp [he])) fun e hne hmem => hno e hne (by simp [hmem])
  · intro v t k
    simp [hno]
  · intro v t f
    simp [VotedWith, hno]
  · intro t N
    simp [hno]

theorem nodeAfter_self (hterm : raft.currentTerm = s.currentTerm n) (hlog : raft.log = s.log n)
    (hci : raft.commitIndex = s.commitIndex n) (hrole : s.leading n ↔ raft.role = .leader) :
    NodeAfter n raft s s where
  currentTerm := by simp [hterm]
  log := by simp [hlog]
  commitIndex := by simp [hci]
  leading_self := hrole
  leading_ne _ _ := Iff.rfl

theorem nodeAfter_raise (hlog : raft.log = s.log n) (hci : raft.commitIndex = s.commitIndex n)
    (hrole : raft.role ≠ .leader) : NodeAfter n raft s (s.raise n raft.currentTerm) where
  currentTerm := rfl
  log := by simp [State.raise, hlog]
  commitIndex := by simp [State.raise, hci]
  leading_self := by simp [State.raise, hrole]
  leading_ne u hu := by simp [State.raise, hu]

variable {Q : QuorumSystem NodeId} {s' : State NodeId Entry}

/-- A step the protocol does not see. -/
theorem steps_same (hh : HistoryAfter evs s s') (hn : NodeAfter n raft s s')
    (hevs : ∀ e ∈ evs, ∃ v result, e = .applied v result)
    (hterm : raft.currentTerm = s.currentTerm n) (hlog : raft.log = s.log n)
    (hci : raft.commitIndex = s.commitIndex n) (hrole : s.leading n ↔ raft.role = .leader) :
    Relation.ReflTransGen (Step Entry.term Q) s s' := by
  rw [eq_of_after hh hn (historyAfter_self hevs) (nodeAfter_self hterm hlog hci hrole)]

/-- A step that raises the term, or ends a leadership. -/
theorem steps_raise (hh : HistoryAfter [] s s') (hn : NodeAfter n raft s s')
    (hle : s.currentTerm n ≤ raft.currentTerm) (hlog : raft.log = s.log n)
    (hci : raft.commitIndex = s.commitIndex n) (hrole : raft.role ≠ .leader) :
    Relation.ReflTransGen (Step Entry.term Q) s s' := by
  have hself : HistoryAfter [] s s := historyAfter_self (by simp)
  rw [eq_of_after hh hn (hself.raise _) (nodeAfter_raise hlog hci hrole)]
  exact .single (.raise n _ hle)

end Simulation

/-! ## `AppendEntries` -/

/--
A request that some leader of its term could have built from an initial part `lead` of its log: all
of it after the previous entry, and of the commit index what is in it.
-/
structure ValidRequest (s : State NodeId Entry) (request : AppendEntriesRequest)
    (lead : List Entry) : Prop where
  elected : ∃ n g, s.elected n request.term g ∧ g <+: lead
  isPrefix : lead <+: s.leaderLog request.term
  prev_le : request.prevLogIndex ≤ lead.length
  entries : request.entries = lead.drop request.prevLogIndex
  prevLogTerm : request.prevLogIndex > 0 →
    (lead[request.prevLogIndex - 1]?).map Entry.term = some request.prevLogTerm
  commit_le : request.leaderCommit ≤ lead.length
  known : s.Known request.term (lead.take request.leaderCommit)

theorem ValidRequest.grows {s s' : State NodeId Entry} {request : AppendEntriesRequest}
    {lead : List Entry} (h : ValidRequest s request lead) (hg : Grows s s') :
    ValidRequest s' request lead := by
  obtain ⟨n, g, he, hp⟩ := h.elected
  exact { h with
    elected := ⟨n, g, hg.elected he, hp⟩
    isPrefix := h.isPrefix.trans (hg.leaderLog _)
    known := hg.Known h.known }

theorem ValidRequest.cutFrom {s : State NodeId Entry} {request : AppendEntriesRequest}
    {lead : List Entry} (h : ValidRequest s request lead) : CutFrom lead request :=
  ⟨h.prev_le, h.entries, h.prevLogTerm⟩

section Append

variable {Q : QuorumSystem NodeId} {s : State NodeId Entry} {v : NodeId}
  {request : AppendEntriesRequest} {lead : List Entry} {old raft : Raft}
  {results : List ApplyResult}

/-- A log of the protocol and what a leader sends match: equal terms mean equal logs up to there. -/
theorem matching_of_valid (hinv : Inv Entry.term Q s) (hv : ValidRequest s request lead) :
    Matching (s.log v) lead := by
  intro i e e' he he' hterm
  exact (hinv.log_woven v).matching ((hinv.leaderLog_woven _).of_isPrefix hv.isPrefix) he he' hterm

/-- **A stored request is a splice of the leader's log.** -/
theorem log_eq_splice (hinv : Inv Entry.term Q s) (hv : ValidRequest s request lead)
    (hlog : old.log = s.log v) (hst : old.Stored request raft results) :
    raft.log = splice (s.log v) lead := by
  rw [hst.log, hlog]
  exact hv.cutFrom.appendLoop_eq_splice (matching_of_valid hinv hv) (hlog ▸ hst.logMatches)

/-- The commit index stays, or becomes the leader's, which lies in what the leader sent. -/
theorem commitIndex_cases (hinv : Inv Entry.term Q s) (hv : ValidRequest s request lead)
    (hlog : old.log = s.log v) (hst : old.Stored request raft results) :
    raft.commitIndex = old.commitIndex ∨
      (old.commitIndex < raft.commitIndex ∧ raft.commitIndex ≤ raft.log.length ∧
        raft.log.take raft.commitIndex = lead.take request.leaderCommit) := by
  have hp : lead <+: raft.log := by
    rw [log_eq_splice hinv hv hlog hst]
    exact isPrefix_splice _ _
  have hlen := hp.length_le
  have hle := hv.commit_le
  have hc := hst.commitIndex
  unfold Raft.followerCommit at hc
  split at hc
  · next hgt =>
    rw [Nat.min_eq_left (by omega)] at hc
    refine Or.inr ⟨by omega, by omega, ?_⟩
    obtain ⟨rest, hrest⟩ := hp
    rw [hc, ← hrest, List.take_append_of_le_length hle]
  · exact Or.inl hc

/-- The events of a success, seen as history: one acknowledgement. -/
theorem historyAfter_accept (v : NodeId) (results : List ApplyResult)
    (hv : ValidRequest s request lead) :
    HistoryAfter (.accepted v request.term (request.prevLogIndex + request.entries.length) ::
        results.map (.applied v)) s ((s.raise v request.term).accept v lead) := by
  have hself : HistoryAfter (results.map (.applied v)) s s := by
    refine historyAfter_self fun e he => ?_
    obtain ⟨result, -, rfl⟩ := List.mem_map.mp he
    exact ⟨v, result, rfl⟩
  rw [hv.cutFrom.upTo_eq_length]
  constructor
  · intro u t g
    simp [State.raise, State.accept]
  · exact fun t => hself.leaderLog t
  · intro u t k
    simp [State.accept, State.raise, and_comm]
  · intro u t f
    simp [VotedWith, State.accept, State.raise]
  · intro t N
    simp [State.accept, State.raise]

/-- **An accepted `AppendEntries`**: raise the term, splice the log in, learn the commit. -/
theorem steps_stored (hinv : Inv Entry.term Q s) (hv : ValidRequest s request lead)
    (hterm : old.currentTerm = s.currentTerm v) (hlog : old.log = s.log v)
    (hci : old.commitIndex = s.commitIndex v) (hst : old.Stored request raft results)
    {s' : State NodeId Entry}
    (hh : HistoryAfter (.accepted v request.term
      (request.prevLogIndex + request.entries.length) :: results.map (.applied v)) s s')
    (hn : NodeAfter v raft s s') : Relation.ReflTransGen (Step Entry.term Q) s s' := by
  have hsplice := log_eq_splice hinv hv hlog hst
  have hcur : raft.currentTerm = request.term := congrArg Core.currentTerm hst.core
  have hrole : raft.role = .follower := congrArg Core.role hst.core
  obtain ⟨m, g, he, hg⟩ := hv.elected
  have hraise : Step Entry.term Q s (s.raise v request.term) :=
    .raise v request.term (hterm ▸ hst.term)
  have haccept : Step Entry.term Q (s.raise v request.term)
      ((s.raise v request.term).accept v lead) := by
    refine .accept v m g lead ?_ hg ?_
    · rw [State.raise_currentTerm_self]
      exact he
    · rw [State.raise_currentTerm_self]
      exact hv.isPrefix
  have hboth := (Relation.ReflTransGen.single hraise).tail haccept
  have hhist := historyAfter_accept v results hv
  have hleading : ∀ u, u ≠ v → (((s.raise v request.term).accept v lead).leading u ↔
      s.leading u) := fun u hu => by simp [State.accept, State.raise, hu]
  rcases commitIndex_cases hinv hv hlog hst with hsame | ⟨-, hle, htake⟩
  · have hnode : NodeAfter v raft s ((s.raise v request.term).accept v lead) :=
      { currentTerm := by rw [hcur]; rfl
        log := by rw [hsplice]; rfl
        commitIndex := by rw [hsame, hci, Function.update_eq_self]; rfl
        leading_self := by simp [State.accept, State.raise, hrole]
        leading_ne := hleading }
    rw [eq_of_after hh hn hhist hnode]
    exact hboth
  · have hlearn : Step Entry.term Q ((s.raise v request.term).accept v lead)
        (((s.raise v request.term).accept v lead).learn v raft.commitIndex) := by
      have hown : ((s.raise v request.term).accept v lead).log v = raft.log :=
        (State.accept_log_self).trans hsplice.symm
      refine .learn v _ (by rw [hown]; exact hle) ?_
      rw [hown, htake]
      show State.Known _ ((s.raise v request.term).currentTerm v) _
      rw [State.raise_currentTerm_self]
      exact hv.known
    have hnode : NodeAfter v raft s
        (((s.raise v request.term).accept v lead).learn v raft.commitIndex) :=
      { currentTerm := by rw [hcur]; rfl
        log := by rw [hsplice]; rfl
        commitIndex := rfl
        leading_self := by simp [State.learn, State.accept, State.raise, hrole]
        leading_ne := hleading }
    rw [eq_of_after hh hn (hhist.learn _) hnode]
    exact hboth.tail hlearn

end Append

/-! ## Votes, elections and proposals -/

section Leader

variable {Q : QuorumSystem NodeId} {s s' : State NodeId Entry} {n : NodeId} {raft : Raft}

/-- The event of a vote in `term` with `log`. -/
def IsVote (v : NodeId) (term : Nat) (log : List Entry) (e : Event) : Prop :=
  e = .started v term log ∨ ∃ request, e = .granted v request log ∧ request.term = term

theorem votedWith_singleton {e : Event} {v : NodeId} {term : Nat} {log : List Entry}
    (he : IsVote v term log e) (u : NodeId) (t : Nat) (f : List Entry) :
    VotedWith [e] u t f ↔ u = v ∧ t = term ∧ f = log := by
  rcases he with rfl | ⟨request, rfl, hreq⟩
  · simp [VotedWith]
  · simp only [VotedWith, List.mem_singleton, reduceCtorEq, false_or, Event.granted.injEq]
    constructor
    · rintro ⟨request', ⟨rfl, rfl, rfl⟩, rfl⟩
      exact ⟨rfl, hreq, rfl⟩
    · rintro ⟨rfl, rfl, rfl⟩
      exact ⟨request, ⟨rfl, rfl, rfl⟩, hreq⟩

/-- A vote, in the term the node has moved to or is in. -/
theorem historyAfter_vote {e : Event} {T : Nat} (he : IsVote n T (s.log n) e) :
    HistoryAfter [e] s ((s.raise n T).vote n) ∧
      (T = s.currentTerm n → HistoryAfter [e] s (s.vote n)) := by
  have hno : (∀ u t g, e ≠ .elected u t g) ∧ (∀ t log, growLog t log e = log) ∧
      (∀ u t k, e ≠ .accepted u t k) ∧ ∀ u t N g, e ≠ .committed u t N g := by
    rcases he with rfl | ⟨request, rfl, -⟩ <;> simp [growLog]
  obtain ⟨h1, h2, h3, h4⟩ := hno
  have hvoted := votedWith_singleton he
  constructor
  · constructor
    · simp [State.vote, State.raise, (h1 _ _ _).symm]
    · simp [State.vote, State.raise, h2]
    · simp [State.vote, State.raise, (h3 _ _ _).symm]
    · intro u t f
      rw [hvoted]
      simp [State.vote, State.raise]
    · simp [State.vote, State.raise, (h4 _ _ _ _).symm]
  · rintro rfl
    constructor
    · simp [State.vote, (h1 _ _ _).symm]
    · simp [State.vote, h2]
    · simp [State.vote, (h3 _ _ _).symm]
    · intro u t f
      rw [hvoted]
      simp [State.vote]
    · simp [State.vote, (h4 _ _ _ _).symm]

/-- **A vote**: raise the term, or stay in it, and vote. -/
theorem steps_vote {e : Event} (hh : HistoryAfter [e] s s') (hn : NodeAfter n raft s s')
    (he : IsVote n raft.currentTerm (s.log n) e)
    (hle : s.currentTerm n ≤ raft.currentTerm) (hlog : raft.log = s.log n)
    (hci : raft.commitIndex = s.commitIndex n)
    (hrole : raft.role ≠ .leader ∨
      raft.currentTerm = s.currentTerm n ∧ (s.leading n ↔ raft.role = .leader)) :
    Relation.ReflTransGen (Step Entry.term Q) s s' := by
  obtain ⟨hraised, hstayed⟩ := historyAfter_vote he
  rcases hrole with hrole | ⟨hterm, hrole⟩
  · rw [eq_of_after hh hn hraised (nodeAfter_raise hlog hci hrole).vote]
    exact (Relation.ReflTransGen.single (.raise n _ hle)).tail (.vote n)
  · rw [eq_of_after hh hn (hstayed hterm) (nodeAfter_self hterm hlog hci hrole).vote]
    exact Relation.ReflTransGen.single (.vote n)

/-- **An election.** -/
theorem step_elected (hh : HistoryAfter [.elected n (s.currentTerm n) (s.log n)] s s')
    (hn : NodeAfter n raft s s') (hterm : raft.currentTerm = s.currentTerm n)
    (hlog : raft.log = s.log n) (hci : raft.commitIndex = s.commitIndex n)
    (hrole : raft.role = .leader) {P : Set NodeId} (hP : Q.isQuorum P)
    (hv : ∀ v ∈ P, ∃ f, s.voted v (s.currentTerm n) f ∧ AtLeast Entry.term f (s.log n))
    (hno : ∀ m g, ¬s.elected m (s.currentTerm n) g) : Step Entry.term Q s s' := by
  have hhist : HistoryAfter [.elected n (s.currentTerm n) (s.log n)] s (s.elect n) := by
    constructor
    · simp [State.elect]
    · intro t
      by_cases ht : t = s.currentTerm n
      · subst ht; simp [growLog]
      · simp [growLog, State.elect_leaderLog_ne ht, Ne.symm ht]
    · simp [State.elect]
    · simp [State.elect, VotedWith]
    · simp [State.elect]
  have hnode : NodeAfter n raft s (s.elect n) :=
    { currentTerm := by rw [hterm, Function.update_eq_self]; rfl
      log := by rw [hlog, Function.update_eq_self]; rfl
      commitIndex := by rw [hci, Function.update_eq_self]; rfl
      leading_self := by simp [State.elect, hrole]
      leading_ne := fun u hu => by simp [State.elect, hu] }
  rw [eq_of_after hh hn hhist hnode]
  exact .elect n P hP hv hno

/-- **A proposal.** -/
theorem step_proposed {entry : Entry} (hh : HistoryAfter [.proposed n entry] s s')
    (hn : NodeAfter n raft s s') (hterm : raft.currentTerm = s.currentTerm n)
    (hlog : raft.log = s.log n ++ [entry]) (hci : raft.commitIndex = s.commitIndex n)
    (hrole : raft.role = .leader) (hl : s.leading n) (he : entry.term = s.currentTerm n) :
    Step Entry.term Q s s' := by
  have hhist : HistoryAfter [.proposed n entry] s (s.propose n entry) := by
    constructor
    · simp [State.propose]
    · intro t
      by_cases ht : t = s.currentTerm n
      · subst ht; simp [growLog, he]
      · simp [growLog, State.propose_leaderLog_ne ht, he, Ne.symm ht]
    · simp [State.propose]
    · simp [State.propose, VotedWith]
    · simp [State.propose]
  have hnode : NodeAfter n raft s (s.propose n entry) :=
    { currentTerm := by rw [hterm, Function.update_eq_self]; rfl
      log := by rw [hlog]; rfl
      commitIndex := by rw [hci, Function.update_eq_self]; rfl
      leading_self := by simp [State.propose, hrole, hl]
      leading_ne := fun u _ => Iff.rfl }
  rw [eq_of_after hh hn hhist hnode]
  exact .propose n entry hl he

end Leader

/-! ## A round of the leader -/

section Round

variable {m : Membership} {s s' : State NodeId Entry} {n : NodeId} {old raft : Raft}
  {now : Nat} {results : List PeerResult} {toApply : List ApplyResult}

/-- The nodes a leader counts for index `idx`: itself and the peers with a high enough entry. -/
def replicas (n : NodeId) (raft : Raft) (idx : Nat) : List NodeId :=
  n :: (raft.matchIndex.entries.filter fun entry => idx ≤ entry.2).map Sigma.fst

theorem mem_replicas {v : NodeId} {idx : Nat} (h : v ∈ replicas n raft idx) :
    v = n ∨ ∃ k, raft.matchIndex.lookup v = some k ∧ idx ≤ k := by
  rcases List.mem_cons.mp h with rfl | h
  · exact Or.inl rfl
  · obtain ⟨⟨p, k⟩, hmem, rfl⟩ := List.mem_map.mp h
    rw [List.mem_filter] at hmem
    exact Or.inr ⟨k, AList.mem_lookup_iff.mpr hmem.1, of_decide_eq_true hmem.2⟩

/-- The counted nodes are distinct members, so enough of them are a majority. -/
theorem majority_replicas (hn : n ∈ m.ids)
    (hpeers : ∀ p k, raft.matchIndex.lookup p = some k → p ∈ m.peers n) {idx : Nat}
    (hcount : (m.config n).majority ≤ raft.replicaCount idx) :
    Majority m.ids (replicas n raft idx) := by
  have hkeys : ((raft.matchIndex.entries.filter fun entry => idx ≤ entry.2).map
      Sigma.fst).Nodup :=
    List.Nodup.sublist (List.filter_sublist.map _) raft.matchIndex.nodupKeys
  refine m.majority_cons hn hkeys (fun v hv => ?_) ?_
  · obtain ⟨⟨p, k⟩, hentry, rfl⟩ := List.mem_map.mp hv
    exact hpeers _ k (AList.mem_lookup_iff.mpr (List.mem_of_mem_filter hentry))
  · rw [List.length_map]
    exact hcount

/-- **The leader's commit**: commit an entry of its term and learn it. -/
theorem steps_commit (hinv : Inv Entry.term (majorities m.ids) s) (hn : n ∈ m.ids)
    (hl : s.leading n) (hterm : raft.currentTerm = s.currentTerm n) (hlog : raft.log = s.log n)
    (hpos : 0 < raft.commitIndex) (hle : raft.commitIndex ≤ raft.log.length)
    (hentry : (raft.log[raft.commitIndex - 1]?).map Entry.term = some raft.currentTerm)
    (hcount : (m.config n).majority ≤ raft.replicaCount raft.commitIndex)
    (hpeers : ∀ p k, raft.matchIndex.lookup p = some k → p ∈ m.peers n ∧
      (k = 0 ∨ s.acked p (s.currentTerm n) k)) :
    Relation.ReflTransGen (Step Entry.term (majorities m.ids)) s
      ((s.commit n raft.commitIndex).learn n raft.commitIndex) := by
  obtain ⟨⟨g, hg⟩, hleader⟩ := hinv.leading_log hl
  rw [hlog] at hle hentry
  obtain ⟨e, he, heterm⟩ := Option.map_eq_some_iff.mp hentry
  have hmaj := majority_replicas hn (fun p k hk => (hpeers p k hk).1) hcount
  have hacked : ∀ v ∈ replicas n raft raft.commitIndex,
      s.Acked v (s.currentTerm n) raft.commitIndex := by
    intro v hv
    rcases mem_replicas hv with rfl | ⟨k, hk, hidx⟩
    · exact Or.inr ⟨g, hg, by rw [← hleader]; exact hle⟩
    · rcases (hpeers v k hk).2 with rfl | hack
      · omega
      · exact Or.inl ⟨k, hidx, hack⟩
  have hcommit : Step Entry.term (majorities m.ids) s (s.commit n raft.commitIndex) :=
    .commit n _ e hl hpos he (heterm.trans hterm) { v | v ∈ replicas n raft raft.commitIndex }
      ⟨_, hmaj, fun _ hv => hv⟩ hacked
  refine (Relation.ReflTransGen.single hcommit).tail (.learn n _ hle ?_)
  refine Or.inr ⟨s.currentTerm n, raft.commitIndex, Or.inr ⟨rfl, rfl⟩, Nat.le_refl _, ?_, ?_⟩
  · exact (List.length_take_le _ _)
  · show (s.log n).take _ <+: s.leaderLog _
    rw [← hleader]
    exact List.take_prefix _ _

/-- The end of a round: the leader stays, or gives up in its term. -/
theorem steps_role {r : State NodeId Entry} {evs : List Event}
    (hr : Relation.ReflTransGen (Step Entry.term (majorities m.ids)) s r)
    (hhist : HistoryAfter evs s r) (hterm : raft.currentTerm = r.currentTerm n)
    (hnode : raft.role = .leader → NodeAfter n raft s r)
    (hnode' : raft.role ≠ .leader → NodeAfter n raft s (r.raise n raft.currentTerm))
    (hh : HistoryAfter evs s s') (hn : NodeAfter n raft s s') :
    Relation.ReflTransGen (Step Entry.term (majorities m.ids)) s s' := by
  by_cases hrole : raft.role = .leader
  · rw [eq_of_after hh hn hhist (hnode hrole)]
    exact hr
  · rw [eq_of_after hh hn (hhist.raise _) (hnode' hrole)]
    exact hr.tail (.raise n _ hterm.ge)

/-- **A finished round**: perhaps a commit, perhaps the end of the leadership. -/
theorem steps_finished (hinv : Inv Entry.term (majorities m.ids) s) (hn : n ∈ m.ids)
    (hl : s.leading n) (hterm : old.currentTerm = s.currentTerm n) (hlog : old.log = s.log n)
    (hci : old.commitIndex = s.commitIndex n)
    (hfin : old.RoundFinished (m.config n) now results raft toApply)
    (hpeers : ∀ p k, raft.matchIndex.lookup p = some k → p ∈ m.peers n ∧
      (k = 0 ∨ s.acked p (s.currentTerm n) k))
    (hh : HistoryAfter (Node.commitEvents n old raft) s s') (hs' : NodeAfter n raft s s') :
    Relation.ReflTransGen (Step Entry.term (majorities m.ids)) s s' := by
  have hterm' := hfin.currentTerm.trans hterm
  have hlog' := hfin.log.trans hlog
  rcases hfin.commitIndex with hsame | ⟨hlt, hle, hentry, hcount⟩
  · rw [Node.commitEvents_of_eq hsame] at hh
    have hci' := hsame.trans hci
    refine steps_role .refl (historyAfter_self (by simp)) hterm' ?_ ?_ hh hs'
    · exact fun hrole => nodeAfter_self hterm' hlog' hci' (iff_of_true hl hrole)
    · exact fun hrole => nodeAfter_raise hlog' hci' hrole
  · rw [Node.commitEvents, if_neg hlt.ne'] at hh
    rw [← hfin.log] at hle hentry
    rw [← hfin.currentTerm] at hentry
    have hsteps := steps_commit hinv hn hl hterm' hlog' (by omega) hle hentry hcount hpeers
    have hhist : HistoryAfter [.committed n raft.currentTerm raft.commitIndex raft.log] s
        ((s.commit n raft.commitIndex).learn n raft.commitIndex) := by
      rw [hterm']
      constructor
      · simp [State.commit, State.learn]
      · simp [State.commit, State.learn, growLog]
      · simp [State.commit, State.learn]
      · simp [State.commit, State.learn, VotedWith]
      · simp [State.commit, State.learn]
    refine steps_role hsteps hhist hterm' ?_ ?_ hh hs'
    · exact fun hrole =>
        { currentTerm := by rw [hterm', Function.update_eq_self]; rfl
          log := by rw [hlog', Function.update_eq_self]; rfl
          commitIndex := rfl
          leading_self := iff_of_true hl hrole
          leading_ne := fun u _ => Iff.rfl }
    · exact fun hrole =>
        { currentTerm := rfl
          log := by rw [hlog', Function.update_eq_self]; rfl
          commitIndex := rfl
          leading_self := by simp [State.raise, hrole]
          leading_ne := fun u hu => by simp [State.raise, State.commit, State.learn, hu] }

end Round

end Rafty
