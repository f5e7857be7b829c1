import Rafty.Properties.Cluster

/-!
# The election timer

A node that accepts an `AppendEntries` starts no election for 300 ms. The code has no record of the
time at which it last heard from a leader: it has a flag that an `AppendEntries` raises, that is
cleared when a new wait begins, and that is looked at once more under the lock before the election
starts. `TimerInv` is what that amounts to under one clock, for nodes that have not been killed. A
killed node leaves the wait early and does start an election.
-/

namespace Rafty

open Infra

/-- The node accepts an `AppendEntries`: the request is not of a lower term. -/
def Node.hears (s : Node) : Action → Bool
  | .appendEntries call _ => s.raft.currentTerm ≤ call.request.term
  | _ => false

/-- Node `v` has accepted an `AppendEntries` of `term` at the time `r`. -/
def Heard (ts : List (Transition Cluster ClusterInput Event)) (v : NodeId) (term r : Nat) : Prop :=
  ∃ t ∈ ts, t.input.node = v ∧ t.input.now = r ∧ (t.before.nodes v).raft.currentTerm ≤ term ∧
    ∃ call timeout, t.input.action = .appendEntries call timeout ∧ call.request.term = term

theorem heard_append {ts us : List (Transition Cluster ClusterInput Event)} {v : NodeId}
    {term r : Nat} : Heard (ts ++ us) v term r ↔ Heard ts v term r ∨ Heard us v term r := by
  simp only [Heard, List.mem_append, or_and_right, exists_or]

/-- What one step adds. -/
theorem heard_singleton {t : Transition Cluster ClusterInput Event} {v : NodeId} {term r : Nat}
    (h : Heard [t] v term r) : t.input.node = v ∧ t.input.now = r ∧
      (t.before.nodes v).raft.currentTerm ≤ term ∧
      (t.before.nodes v).hears t.input.action = true := by
  obtain ⟨u, hu, hnode, hnow, hle, call, timeout, haction, rfl⟩ := h
  rw [List.mem_singleton] at hu
  subst hu
  refine ⟨hnode, hnow, hle, ?_⟩
  rw [haction]
  exact decide_eq_true hle

namespace Node

variable {cfg : Config} {s : Node} {i : Input} {eff : Effect}

/-- What a step of a node that is not killed does to the timer. -/
theorem Move.timer (h : Move cfg s i eff) (hd : s.raft.dead = false) :
    eff.node.raft.receivedHeartbeat = true ∨ eff.node.thread.isTimed = false ∨
    (s.hears i.action = false ∧ (eff.node.thread = .waiting i.now ∨
      (eff.node.raft.receivedHeartbeat = s.raft.receivedHeartbeat ∧
        (eff.node.thread = s.thread ∨ ∃ start, s.thread = .waiting start ∧
          eff.node.thread = .startElection ∧
          (s.raft.receivedHeartbeat = true ∨ start + milliseconds 300 ≤ i.now))))) := by
  cases h with
  | appendStale hlt =>
    exact Or.inr (Or.inr ⟨decide_eq_false (Nat.not_le.mpr hlt), Or.inr ⟨rfl, Or.inl rfl⟩⟩)
  | appendRefused _ _ _ _ hb | appendStored _ _ hb => exact Or.inl hb
  | voteRefused _ _ _ hb | voteGranted _ _ _ _ _ hb =>
    exact Or.inr (Or.inr ⟨rfl, Or.inr ⟨hb, Or.inl rfl⟩⟩)
  | voteStale | proposed | notLeader =>
    exact Or.inr (Or.inr ⟨rfl, Or.inr ⟨rfl, Or.inl rfl⟩⟩)
  | startElection =>
    exact Or.inr (Or.inl (isTimed_of_inElection (inElection_electionLoop _ _)))
  | voteReturned => exact Or.inr (Or.inl (isTimed_of_inElection (inElection_voteReturned ..)))
  | compareTerm => exact Or.inr (Or.inl (isTimed_of_inElection (inElection_compareTerm ..)))
  | roundDropped | roundYielded | roundFinished | applyNext => exact Or.inr (Or.inl (by simp))
  | @quiet i s' hi h =>
    have hears : s.hears i.action = false := by
      cases ha : i.action <;> first | rfl | (rw [ha] at hi; cases hi)
    rcases h.timer with hwait | hnot | ⟨hflag, hsame | ⟨start, ht, ht', hwhy⟩⟩
    · exact Or.inr (Or.inr ⟨hears, Or.inl hwait⟩)
    · exact Or.inr (Or.inl hnot)
    · exact Or.inr (Or.inr ⟨hears, Or.inr ⟨hflag, Or.inl hsame⟩⟩)
    · rw [hd] at hwhy
      exact Or.inr (Or.inr ⟨hears, Or.inr ⟨hflag, Or.inr ⟨start, ht, ht',
        hwhy.resolve_left (by simp)⟩⟩⟩)
  | _ => exact Or.inr (Or.inl rfl)

end Node

variable {m : Membership} {ts : List (Transition Cluster ClusterInput Event)} {c : Cluster}

/-- What the wait of a node means as long as it has heard nothing in it. -/
structure TimerInv (ts : List (Transition Cluster ClusterInput Event)) (v : NodeId) (s : Node) :
    Prop where
  waiting : s.raft.receivedHeartbeat = false → ∀ start, s.thread = .waiting start →
    ∀ term r, Heard ts v term r → r ≤ start
  expired : s.raft.receivedHeartbeat = false → s.thread = .startElection →
    ∀ term r, Heard ts v term r → ∃ t ∈ ts, r + milliseconds 300 ≤ t.input.now

/-- A step that is no heartbeat for the node and leaves its wait alone. -/
theorem TimerInv.mono {us : List (Transition Cluster ClusterInput Event)} {v : NodeId}
    {s s' : Node} (h : TimerInv ts v s)
    (hflag : s'.raft.receivedHeartbeat = s.raft.receivedHeartbeat) (hthread : s'.thread = s.thread)
    (hold : ∀ {term r}, Heard (ts ++ us) v term r → Heard ts v term r) :
    TimerInv (ts ++ us) v s' where
  waiting hb start ht term r hheard :=
    h.waiting (hflag.symm.trans hb) start (hthread.symm.trans ht) term r (hold hheard)
  expired hb ht term r hheard := by
    obtain ⟨t, hmem, hle⟩ :=
      h.expired (hflag.symm.trans hb) (hthread.symm.trans ht) term r (hold hheard)
    exact ⟨t, List.mem_append_left _ hmem, hle⟩

/-- What one step of the node itself keeps. -/
theorem TimerInv.step {i : ClusterInput} {es : List Event} {eff : Effect} {cfg : Config}
    (h : TimerInv ts i.node (c.nodes i.node))
    (hmove : Node.Move cfg (c.nodes i.node) ⟨i.now, i.action⟩ eff)
    (hclock : ∀ t ∈ ts, t.input.now ≤ i.now) (hd : (c.nodes i.node).raft.dead = false)
    (c' : Cluster) : TimerInv (ts ++ [⟨c, i, es, c'⟩]) i.node eff.node := by
  rcases hmove.timer hd with hb | hnot | ⟨hears, hcase⟩
  · exact ⟨fun hb' => absurd (hb.symm.trans hb') (by simp),
      fun hb' => absurd (hb.symm.trans hb') (by simp)⟩
  · exact ⟨fun _ start ht => absurd hnot (by simp [ht, Thread.isTimed]),
      fun _ ht => absurd hnot (by simp [ht, Thread.isTimed])⟩
  · -- the step is no heartbeat, so whatever was heard was heard before
    have hold : ∀ {term r}, Heard (ts ++ [⟨c, i, es, c'⟩]) i.node term r →
        Heard ts i.node term r := by
      intro term r hheard
      refine (heard_append.mp hheard).resolve_right fun hnew => ?_
      have := (heard_singleton hnew).2.2.2
      rw [show (c.nodes i.node).hears i.action = false from hears] at this
      cases this
    rcases hcase with hwait | ⟨hflag, hsame | ⟨start, ht, ht', hwhy⟩⟩
    · constructor
      · intro _ start ht term r hheard
        obtain ⟨t, hmem, -, rfl, -⟩ := hold hheard
        rw [hwait] at ht
        cases ht
        exact hclock t hmem
      · intro _ ht
        rw [hwait] at ht
        cases ht
    · exact h.mono hflag hsame hold
    · constructor
      · intro _ start' hwait
        cases ht'.symm.trans hwait
      · intro hb _ term r hheard
        rw [hflag] at hb
        have hr := h.waiting hb start ht term r (hold hheard)
        have hover : start + milliseconds 300 ≤ i.now := hwhy.resolve_left (by rw [hb]; simp)
        refine ⟨_, List.mem_append_right _ (List.mem_singleton_self _), ?_⟩
        show r + milliseconds 300 ≤ i.now
        omega

/-- **The timer works**, under one clock and for nodes that have not been killed. -/
theorem timerInv (h : (clusterSystem m).Run ts c)
    (hclock : ts.Pairwise fun u t => u.input.now ≤ t.input.now)
    (halive : ∀ t ∈ ts, (t.before.nodes t.input.node).raft.dead = false) (v : NodeId) :
    TimerInv ts v (c.nodes v) := by
  induction h with
  | init hi =>
    exact ⟨fun _ _ _ _ _ ⟨_, hmem, _⟩ => absurd hmem (by simp),
      fun _ _ _ _ ⟨_, hmem, _⟩ => absurd hmem (by simp)⟩
  | @step ts c c' i es hr hs ih =>
    rw [List.forall_mem_append, List.forall_mem_singleton] at halive
    obtain ⟨hclock, -, hlast⟩ := List.pairwise_append.mp hclock
    have hinv := ih hclock halive.1
    obtain ⟨-, -, eff, hmove, rfl, rfl⟩ := clusterSystem_move hs
    by_cases hv : v = i.node
    · subst hv
      rw [Cluster.advance_nodes_self]
      exact hinv.step hmove (fun t ht => hlast t ht _ (List.mem_singleton_self _)) halive.2 _
    · rw [Cluster.advance_nodes_ne hv]
      exact hinv.mono rfl rfl fun hheard =>
        (heard_append.mp hheard).resolve_right fun hnew => hv (heard_singleton hnew).1.symm

end Rafty
