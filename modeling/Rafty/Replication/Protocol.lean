import Mathlib.Logic.Function.Basic
import Mathlib.Logic.Relation
import Rafty.Infra.Quorum
import Rafty.Replication.Log

/-!
# Leader based replication of a log, abstractly

Nodes `ν` hold logs of entries `ε`. A node can be elected leader of a term, appends to its log while
it leads, and other nodes splice the leader's log into theirs. An entry of the leader's own term is
committed once a quorum has acknowledged it.

The state keeps, next to what the nodes hold now, the history the argument needs: who was elected
with which log, the log `leaderLog t` of the leader of term `t` (as far as it got while it led), who
acknowledged how much of it, and with which log a node voted.

Nothing here says how votes are counted or messages travel. What an implementation has to supply is
in the premises of `Step`; the two that carry the weight are that no term elects twice (`elect`) and
that terms do not go back (`raise`).
-/

namespace Replication

open Infra

variable {ν ε : Type*}

@[ext]
structure State (ν ε : Type*) where
  currentTerm : ν → ℕ
  log : ν → List ε
  commitIndex : ν → ℕ
  leading : ν → Prop
  /-- The node was elected in the term, with the log. -/
  elected : ν → ℕ → List ε → Prop
  /-- The log of the leader of a term; empty as long as the term has none. -/
  leaderLog : ℕ → List ε
  /-- The node acknowledged the leader log of the term up to an index. -/
  acked : ν → ℕ → ℕ → Prop
  /-- The node voted in the term, with the log. -/
  voted : ν → ℕ → List ε → Prop
  /-- The leader of the term committed its log up to an index. -/
  committed : ℕ → ℕ → Prop

namespace State

variable (s : State ν ε)

/-- The node holds, as far as the term's leader may conclude, `leaderLog t` up to `k`. -/
def Acked (v : ν) (t k : ℕ) : Prop :=
  (∃ k', k ≤ k' ∧ s.acked v t k') ∨ ∃ g, s.elected v t g ∧ k ≤ (s.leaderLog t).length

/-- Every leader elected after term `t` and before term `b` was elected with `l`. -/
def Inherited (t b : ℕ) (l : List ε) : Prop :=
  ∀ m u g, s.elected m u g → t < u → u < b → l <+: g

/--
`f` still has everything `v` acknowledged before term `b`, unless a leader elected since then and
before `b` did not have it.
-/
def Keeps (v : ν) (b : ℕ) (f : List ε) : Prop :=
  ∀ t k, s.Acked v t k → t < b → s.Inherited t b ((s.leaderLog t).take k) →
    (s.leaderLog t).take k <+: f

/-- `l` is an initial part of what a leader of a term up to `T` committed. -/
def Known (T : ℕ) (l : List ε) : Prop :=
  l = [] ∨ ∃ t N, s.committed t N ∧ t ≤ T ∧ l.length ≤ N ∧ l <+: s.leaderLog t

variable {s}

theorem Inherited.mono {t b b' : ℕ} {l : List ε} (h : s.Inherited t b' l) (hb : b ≤ b') :
    s.Inherited t b l :=
  fun m u g he ht hu => h m u g he ht (by omega)

theorem Known.mono {T T' : ℕ} {l : List ε} (h : s.Known T l) (hT : T ≤ T') : s.Known T' l := by
  rcases h with rfl | ⟨t, N, hc, ht, hl, hp⟩
  · exact Or.inl rfl
  · exact Or.inr ⟨t, N, hc, by omega, hl, hp⟩

end State

/-- Nothing has happened: all logs are empty and nobody leads. -/
def State.initial : State ν ε where
  currentTerm _ := 0
  log _ := []
  commitIndex _ := 0
  leading _ := False
  elected _ _ _ := False
  leaderLog _ := []
  acked _ _ _ := False
  voted _ _ _ := False
  committed _ _ := False

/-! ## The steps -/

section Updates

variable (s : State ν ε)

/-- `v` voted in its term, with its log. -/
def State.vote (v : ν) : State ν ε :=
  { s with voted := fun u t f => s.voted u t f ∨ u = v ∧ t = s.currentTerm v ∧ f = s.log v }

/-- `n`, the leader of its term, committed its log up to `N`. -/
def State.commit (n : ν) (N : ℕ) : State ν ε :=
  { s with committed := fun t N' => s.committed t N' ∨ t = s.currentTerm n ∧ N' = N }

/-- `n` leads its term. -/
def State.elect (n : ν) : State ν ε :=
  { s with
    leading := fun u => u = n ∨ s.leading u
    elected := fun u t g => s.elected u t g ∨ u = n ∧ t = s.currentTerm n ∧ g = s.log n
    leaderLog := Function.update s.leaderLog (s.currentTerm n) (s.log n) }

variable [DecidableEq ν]

/-- `v` is in term `T` now and does not lead. -/
def State.raise (v : ν) (T : ℕ) : State ν ε :=
  { s with
    currentTerm := Function.update s.currentTerm v T
    leading := fun u => u ≠ v ∧ s.leading u }

/-- `n`, the leader of its term, appended `e`. -/
def State.propose (n : ν) (e : ε) : State ν ε :=
  { s with
    log := Function.update s.log n (s.log n ++ [e])
    leaderLog := Function.update s.leaderLog (s.currentTerm n)
      (s.leaderLog (s.currentTerm n) ++ [e]) }

/-- `v` spliced in and acknowledged the leader's log `lead`. -/
noncomputable def State.accept (v : ν) (lead : List ε) : State ν ε :=
  { s with
    log := Function.update s.log v (splice (s.log v) lead)
    acked := fun u t k => s.acked u t k ∨ u = v ∧ t = s.currentTerm v ∧ k = lead.length }

/-- `v` knows its log to be committed up to `c`. -/
def State.learn (v : ν) (c : ℕ) : State ν ε :=
  { s with commitIndex := Function.update s.commitIndex v c }

namespace State

variable {s} {u v n : ν}

omit [DecidableEq ν] in
@[simp] theorem elect_leaderLog_self :
    (s.elect n).leaderLog (s.currentTerm n) = s.log n := Function.update_self ..

omit [DecidableEq ν] in
theorem elect_leaderLog_ne {t : ℕ} (h : t ≠ s.currentTerm n) :
    (s.elect n).leaderLog t = s.leaderLog t := Function.update_of_ne h ..

@[simp] theorem raise_currentTerm_self {T : ℕ} : (s.raise v T).currentTerm v = T :=
  Function.update_self ..

theorem raise_currentTerm_ne {T : ℕ} (h : u ≠ v) :
    (s.raise v T).currentTerm u = s.currentTerm u := Function.update_of_ne h ..

@[simp] theorem propose_log_self {e : ε} : (s.propose n e).log n = s.log n ++ [e] :=
  Function.update_self ..

theorem propose_log_ne {e : ε} (h : u ≠ n) : (s.propose n e).log u = s.log u :=
  Function.update_of_ne h ..

@[simp] theorem propose_leaderLog_self {e : ε} :
    (s.propose n e).leaderLog (s.currentTerm n) = s.leaderLog (s.currentTerm n) ++ [e] :=
  Function.update_self ..

theorem propose_leaderLog_ne {e : ε} {t : ℕ} (h : t ≠ s.currentTerm n) :
    (s.propose n e).leaderLog t = s.leaderLog t := Function.update_of_ne h ..

@[simp] theorem accept_log_self {lead : List ε} :
    (s.accept v lead).log v = splice (s.log v) lead := Function.update_self ..

theorem accept_log_ne {lead : List ε} (h : u ≠ v) : (s.accept v lead).log u = s.log u :=
  Function.update_of_ne h ..

@[simp] theorem learn_commitIndex_self {c : ℕ} : (s.learn v c).commitIndex v = c :=
  Function.update_self ..

theorem learn_commitIndex_ne {c : ℕ} (h : u ≠ v) :
    (s.learn v c).commitIndex u = s.commitIndex u := Function.update_of_ne h ..

end State

end Updates

variable [DecidableEq ν] (term : ε → ℕ) (Q : QuorumSystem ν)

inductive Step (s : State ν ε) : State ν ε → Prop
  /-- A node moves to a term, not back, and leads no more. -/
  | raise (v : ν) (T : ℕ) (hT : s.currentTerm v ≤ T) : Step s (s.raise v T)
  /-- A node votes in its term. -/
  | vote (v : ν) : Step s (s.vote v)
  /-- A node is elected by a quorum whose logs are not ahead of its own. -/
  | elect (n : ν) (P : Set ν) (hP : Q.isQuorum P)
    (hv : ∀ v ∈ P, ∃ f, s.voted v (s.currentTerm n) f ∧ AtLeast term f (s.log n))
    (hno : ∀ m g, ¬s.elected m (s.currentTerm n) g) : Step s (s.elect n)
  /-- The leader appends an entry of its term. -/
  | propose (n : ν) (e : ε) (hl : s.leading n) (he : term e = s.currentTerm n) :
    Step s (s.propose n e)
  /-- A node splices in what the leader of its term had at some point since its election. -/
  | accept (v m : ν) (g lead : List ε) (he : s.elected m (s.currentTerm v) g) (hg : g <+: lead)
    (hlead : lead <+: s.leaderLog (s.currentTerm v)) : Step s (s.accept v lead)
  /-- The leader commits an entry of its own term that a quorum has acknowledged. -/
  | commit (n : ν) (N : ℕ) (e : ε) (hl : s.leading n) (hN : 0 < N)
    (he : (s.log n)[N - 1]? = some e) (ht : term e = s.currentTerm n) (P : Set ν)
    (hP : Q.isQuorum P) (ha : ∀ v ∈ P, s.Acked v (s.currentTerm n) N) : Step s (s.commit n N)
  /-- A node learns that an initial part of its log is committed. -/
  | learn (v : ν) (c : ℕ) (hc : c ≤ (s.log v).length)
    (hk : s.Known (s.currentTerm v) ((s.log v).take c)) : Step s (s.learn v c)

end Replication
