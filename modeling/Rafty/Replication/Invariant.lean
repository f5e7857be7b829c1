import Rafty.Replication.Completeness

/-!
# Every step keeps the invariant

One lemma per constructor of `Step`, then `Inv.step` and, along any number of steps, `Inv.steps`.

`propose` and `elect` change a leader log, but only let it grow, and `accept` adds to what is
acknowledged. What they share is `Extends`: everything newly acknowledged is acknowledged in the
acknowledging node's current term. A log that was voted with keeps nothing that new, so it keeps
what it kept. `accept` is also the one step that can cut a log, and there `known_comparable`, that
is, leader completeness, saves the committed part.
-/

namespace Replication

open Infra

variable {ν ε : Type*} {term : ε → ℕ} {Q : QuorumSystem ν} {s s' : State ν ε}

theorem inv_initial : Inv term Q (State.initial : State ν ε) where
  elected_unique h := h.elim
  elected_le h := h.elim
  elected_base h := h.elim
  leaderLog_elected h := absurd rfl h
  leading_log h := h.elim
  leaderLog_woven _ := woven_nil
  log_woven _ := woven_nil
  log_term_le _ _ he := by cases he
  acked_le h := h.elim
  log_keeps _ _ _ _ _ _ := by simp [State.initial]
  voted_le h := h.elim
  voted_keeps h := h.elim
  elected_quorum h := h.elim
  committed_quorum h := h.elim
  commit_known _ := ⟨Nat.le_refl _, Or.inl rfl⟩

/-! ## Growing history -/

/-- `s'` has the history of `s` and more. -/
structure Grows (s s' : State ν ε) : Prop where
  elected : ∀ {n t g}, s.elected n t g → s'.elected n t g
  leaderLog : ∀ t, s.leaderLog t <+: s'.leaderLog t
  acked : ∀ {v t k}, s.acked v t k → s'.acked v t k
  committed : ∀ {t N}, s.committed t N → s'.committed t N

namespace Grows

theorem refl : Grows s s := ⟨id, fun _ => List.prefix_rfl, id, id⟩

theorem trans {s'' : State ν ε} (e : Grows s s') (e' : Grows s' s'') : Grows s s'' where
  elected h := e'.elected (e.elected h)
  leaderLog t := (e.leaderLog t).trans (e'.leaderLog t)
  acked h := e'.acked (e.acked h)
  committed h := e'.committed (e.committed h)

variable (e : Grows s s')
include e

theorem Acked {v : ν} {t k : ℕ} (h : s.Acked v t k) : s'.Acked v t k := by
  rcases h with ⟨k', hk, h⟩ | ⟨g, hg, hk⟩
  · exact Or.inl ⟨k', hk, e.acked h⟩
  · exact Or.inr ⟨g, e.elected hg, hk.trans (e.leaderLog t).length_le⟩

theorem Known {T : ℕ} {l : List ε} (h : s.Known T l) : s'.Known T l := by
  rcases h with h | ⟨t, N, hc, hT, hl, hp⟩
  · exact Or.inl h
  · exact Or.inr ⟨t, N, e.committed hc, hT, hl, hp.trans (e.leaderLog t)⟩

end Grows

/-- The history grows, and nothing is newly acknowledged in an earlier term. -/
structure Extends (s s' : State ν ε) : Prop extends Grows s s' where
  currentTerm : s'.currentTerm = s.currentTerm
  newAcked : ∀ {v t k}, s'.Acked v t k →
    (s.Acked v t k ∧ (s'.leaderLog t).take k = (s.leaderLog t).take k) ∨ t = s.currentTerm v

namespace Extends

variable (e : Extends s s')
include e

/-- What kept the acknowledgements before a term the node has reached keeps them. -/
theorem keeps {v : ν} {b : ℕ} {f : List ε} (hb : b ≤ s.currentTerm v) (h : s.Keeps v b f) :
    s'.Keeps v b f := by
  intro t k ha ht hi
  rcases e.newAcked ha with ⟨ha, htake⟩ | rfl
  · rw [htake] at hi ⊢
    exact h t k ha ht fun m u g hg => hi m u g (e.elected hg)
  · omega

/-- If the log only grew, it is enough to look at the current term. -/
theorem log_keeps {v : ν} (h : s.Keeps v (s.currentTerm v + 1) (s.log v))
    (hlog : s.log v <+: s'.log v)
    (hcur : ∀ k, s'.Acked v (s.currentTerm v) k →
      (s'.leaderLog (s.currentTerm v)).take k <+: s'.log v) :
    s'.Keeps v (s'.currentTerm v + 1) (s'.log v) := by
  intro t k ha ht hi
  rcases e.newAcked ha with ⟨ha, htake⟩ | rfl
  · rw [e.currentTerm] at hi ht
    rw [htake] at hi ⊢
    exact (h t k ha ht fun m u g hg => hi m u g (e.elected hg)).trans hlog
  · exact hcur k ha

theorem voted_keeps {v : ν} {t : ℕ} {f : List ε} (h : Inv term Q s) (hv : s.voted v t f)
    (hno : ∀ m g, ¬s'.elected m t g) : s'.Keeps v t f :=
  e.keeps (h.voted_le hv).1 (h.voted_keeps hv fun m g hg => hno m g (e.elected hg))

theorem elected_quorum {n : ν} {t : ℕ} {g : List ε} (h : Inv term Q s) (hg : s.elected n t g) :
    ∃ P, Q.isQuorum P ∧ ∀ v ∈ P, t ≤ s'.currentTerm v ∧
      ∃ f, Woven term s'.leaderLog f ∧ AtLeast term f g ∧ s'.Keeps v t f := by
  obtain ⟨P, hP, hPv⟩ := h.elected_quorum hg
  refine ⟨P, hP, fun v hv => ?_⟩
  obtain ⟨hle, f, hf, hge, hk⟩ := hPv v hv
  exact ⟨by rw [e.currentTerm]; exact hle, f, hf.mono e.leaderLog, hge, e.keeps hle hk⟩

theorem committed_quorum {t N : ℕ} (h : Inv term Q s) (hc : s.committed t N) :
    (∃ P, Q.isQuorum P ∧ ∀ v ∈ P, s'.Acked v t N) ∧
      0 < N ∧ ∃ x, (s'.leaderLog t)[N - 1]? = some x ∧ term x = t := by
  obtain ⟨⟨P, hP, hPa⟩, hN, x, hx, hxt⟩ := h.committed_quorum hc
  refine ⟨⟨P, hP, fun v hv => e.Acked (hPa v hv)⟩, hN, x, ?_, hxt⟩
  obtain ⟨r, hr⟩ := e.leaderLog t
  rw [← hr, List.getElem?_append_left (List.getElem?_eq_some_iff.mp hx).1]
  exact hx

end Extends

section

variable [DecidableEq ν]

theorem accept_extends (s : State ν ε) (v : ν) (lead : List ε) : Extends s (s.accept v lead) where
  currentTerm := rfl
  elected := id
  leaderLog _ := List.prefix_rfl
  acked := Or.inl
  committed := id
  newAcked := by
    rintro u t k (⟨k', hk, ha | ⟨rfl, rfl, -⟩⟩ | ha)
    · exact Or.inl ⟨Or.inl ⟨k', hk, ha⟩, rfl⟩
    · exact Or.inr rfl
    · exact Or.inl ⟨Or.inr ha, rfl⟩

theorem propose_log_isPrefix (s : State ν ε) (n : ν) (x : ε) (v : ν) :
    s.log v <+: (s.propose n x).log v := by
  by_cases hv : v = n
  · subst hv; rw [State.propose_log_self]; exact List.prefix_append _ _
  · rw [State.propose_log_ne hv]

end

namespace Inv

theorem vote (h : Inv term Q s) (v : ν) : Inv term Q (s.vote v) :=
  { h with
    voted_le := by
      rintro u t f (hv | ⟨rfl, rfl, rfl⟩)
      · exact h.voted_le hv
      · exact ⟨Nat.le_refl _, h.log_woven u⟩
    voted_keeps := by
      rintro u t f (hv | ⟨rfl, rfl, rfl⟩) hno
      · exact h.voted_keeps hv hno
      · -- the term has no leader, so nothing beyond the leaders of earlier terms is asked
        intro t k ha ht hi
        refine h.log_keeps u t k ha (by omega) fun m x g hg htx hxc => ?_
        rcases Nat.lt_or_ge x (s.currentTerm u) with hlt | hge
        · exact hi m x g hg htx hlt
        · refine absurd ?_ (hno m g)
          rwa [show s.currentTerm u = x by omega] }

theorem commit (h : Inv term Q s) {n : ν} {N : ℕ} {x : ε} (hl : s.leading n) (hN : 0 < N)
    (hx : (s.log n)[N - 1]? = some x) (hxt : term x = s.currentTerm n) {P : Set ν}
    (hP : Q.isQuorum P) (ha : ∀ v ∈ P, s.Acked v (s.currentTerm n) N) :
    Inv term Q (s.commit n N) :=
  { h with
    committed_quorum := by
      rintro t N' (hc | ⟨rfl, rfl⟩)
      · exact h.committed_quorum hc
      · refine ⟨⟨P, hP, ha⟩, hN, x, ?_, hxt⟩
        show (s.leaderLog (s.currentTerm n))[_]? = some x
        rw [← (h.leading_log hl).2]
        exact hx
    commit_known := by
      intro v
      obtain ⟨hle, hk⟩ := h.commit_known v
      refine ⟨hle, ?_⟩
      rcases hk with hk | ⟨t, N', hc, hT, hlen, hp⟩
      · exact Or.inl hk
      · exact Or.inr ⟨t, N', Or.inl hc, hT, hlen, hp⟩ }

/-! ## Election -/

section Elect

variable (h : Inv term Q s) {n : ν} (hno : ∀ m g, ¬s.elected m (s.currentTerm n) g)
include hno

/-- The term had no leader, so no leader log there was changes. -/
theorem elect_leaderLog {m : ν} {t : ℕ} {g : List ε} (hg : s.elected m t g) :
    (s.elect n).leaderLog t = s.leaderLog t :=
  State.elect_leaderLog_ne fun ht => hno m g (ht ▸ hg)

include h

theorem elect_extends : Extends s (s.elect n) where
  currentTerm := rfl
  elected := Or.inl
  leaderLog := by
    intro t
    by_cases hne : s.leaderLog t = []
    · rw [hne]; exact List.nil_prefix
    · obtain ⟨m, g, hg⟩ := h.leaderLog_elected hne
      rw [elect_leaderLog hno hg]
  acked := id
  committed := id
  newAcked := by
    rintro v t k (⟨k', hk, ha⟩ | ⟨g, hg | ⟨rfl, rfl, -⟩, hk⟩)
    · obtain ⟨-, -, m, g, hg⟩ := h.acked_le ha
      exact Or.inl ⟨Or.inl ⟨k', hk, ha⟩, by rw [elect_leaderLog hno hg]⟩
    · rw [elect_leaderLog hno hg] at hk ⊢
      exact Or.inl ⟨Or.inr ⟨g, hg, hk⟩, rfl⟩
    · exact Or.inr rfl

/-- A log that is about to lead has no entry of its own term yet. -/
theorem log_term_lt : ∀ x ∈ s.log n, term x < s.currentTerm n := by
  intro x hx
  refine Nat.lt_of_le_of_ne (h.log_term_le n x hx) fun heq => ?_
  obtain ⟨i, hi⟩ := List.mem_iff_getElem?.mp hx
  obtain ⟨m, g, hg⟩ := h.elected_of_mem (h.log_woven n) hi
  exact hno m g (heq ▸ hg)

theorem elect {P : Set ν} (hP : Q.isQuorum P)
    (hv : ∀ v ∈ P, ∃ f, s.voted v (s.currentTerm n) f ∧ AtLeast term f (s.log n)) :
    Inv term Q (s.elect n) := by
  have e := h.elect_extends hno
  exact {
    elected_unique := by
      rintro a b t g g' (ha | ⟨rfl, rfl, rfl⟩) (hb | ⟨rfl, ht, rfl⟩)
      · exact h.elected_unique ha hb
      · subst ht; exact absurd ha (hno _ _)
      · exact absurd hb (hno _ _)
      · exact ⟨rfl, rfl⟩
    elected_le := by
      rintro a t g (ha | ⟨rfl, rfl, rfl⟩)
      · exact h.elected_le ha
      · exact Nat.le_refl _
    elected_base := by
      rintro a t g (ha | ⟨rfl, rfl, rfl⟩)
      · rw [elect_leaderLog hno ha]
        exact h.elected_base ha
      · exact ⟨[], by simp, h.log_term_lt hno, by simp⟩
    leaderLog_elected := by
      intro t hne
      by_cases ht : t = s.currentTerm n
      · exact ⟨n, s.log n, Or.inr ⟨rfl, ht, rfl⟩⟩
      · rw [State.elect_leaderLog_ne ht] at hne
        obtain ⟨m, g, hg⟩ := h.leaderLog_elected hne
        exact ⟨m, g, Or.inl hg⟩
    leading_log := by
      rintro u (rfl | hl)
      · exact ⟨⟨s.log u, Or.inr ⟨rfl, rfl, rfl⟩⟩, (State.elect_leaderLog_self (s := s)).symm⟩
      · obtain ⟨⟨g, hg⟩, hlog⟩ := h.leading_log hl
        exact ⟨⟨g, Or.inl hg⟩, hlog.trans (elect_leaderLog hno hg).symm⟩
    leaderLog_woven := by
      intro t
      by_cases ht : t = s.currentTerm n
      · subst ht
        rw [State.elect_leaderLog_self]
        exact (h.log_woven n).mono e.leaderLog
      · rw [State.elect_leaderLog_ne ht]
        exact (h.leaderLog_woven t).mono e.leaderLog
    log_woven := fun v => (h.log_woven v).mono e.leaderLog
    log_term_le := h.log_term_le
    acked_le := by
      intro v t k ha
      obtain ⟨h1, h2, m, g, hg⟩ := h.acked_le ha
      exact ⟨h1, h2.trans (e.leaderLog t).length_le, m, g, Or.inl hg⟩
    log_keeps := by
      intro v
      refine e.log_keeps (h.log_keeps v) List.prefix_rfl ?_
      rintro k (⟨k', hk, ha⟩ | ⟨g, hg | ⟨rfl, -, -⟩, hk⟩)
      · obtain ⟨-, -, m, g, hg⟩ := h.acked_le ha
        rw [elect_leaderLog hno hg]
        exact h.log_keeps v _ k (Or.inl ⟨k', hk, ha⟩) (by omega) fun m u g hg htu hu => by omega
      · rw [elect_leaderLog hno hg] at hk ⊢
        exact h.log_keeps v _ k (Or.inr ⟨g, hg, hk⟩) (by omega) fun m u g hg htu hu => by omega
      · rw [State.elect_leaderLog_self]; exact List.take_prefix _ _
    voted_le := fun hvo => ⟨(h.voted_le hvo).1, (h.voted_le hvo).2.mono e.leaderLog⟩
    voted_keeps := e.voted_keeps h
    elected_quorum := by
      rintro a t g (ha | ⟨rfl, rfl, rfl⟩)
      · exact e.elected_quorum h ha
      · refine ⟨P, hP, fun v hvP => ?_⟩
        obtain ⟨f, hvo, hge⟩ := hv v hvP
        obtain ⟨hle, hf⟩ := h.voted_le hvo
        exact ⟨hle, f, hf.mono e.leaderLog, hge, e.keeps hle (h.voted_keeps hvo hno)⟩
    committed_quorum := e.committed_quorum h
    commit_known := fun v => ⟨(h.commit_known v).1, e.Known (h.commit_known v).2⟩ }

end Elect

variable [DecidableEq ν]

theorem raise (h : Inv term Q s) {v : ν} {T : ℕ} (hT : s.currentTerm v ≤ T) :
    Inv term Q (s.raise v T) := by
  have hmono : ∀ u, s.currentTerm u ≤ (s.raise v T).currentTerm u := by
    intro u
    by_cases hu : u = v
    · subst hu; rw [State.raise_currentTerm_self]; exact hT
    · rw [State.raise_currentTerm_ne hu]
  exact { h with
    elected_le := fun he => (h.elected_le he).trans (hmono _)
    leading_log := by
      rintro n ⟨hn, hl⟩
      rw [State.raise_currentTerm_ne hn]
      exact h.leading_log hl
    log_term_le := fun u x hx => (h.log_term_le u x hx).trans (hmono u)
    acked_le := fun ha => ⟨(h.acked_le ha).1.trans (hmono _), (h.acked_le ha).2⟩
    log_keeps := by
      intro u t k ha _ hi
      have ht := (h.acked_elected ha).2.1
      exact h.log_keeps u t k ha (by omega) (State.Inherited.mono hi (Nat.succ_le_succ (hmono u)))
    voted_le := fun hv => ⟨(h.voted_le hv).1.trans (hmono _), (h.voted_le hv).2⟩
    elected_quorum := by
      intro n t g hg
      obtain ⟨P, hP, hPv⟩ := h.elected_quorum hg
      exact ⟨P, hP, fun u hu => ⟨(hPv u hu).1.trans (hmono u), (hPv u hu).2⟩⟩
    commit_known := fun u => ⟨(h.commit_known u).1, (h.commit_known u).2.mono (hmono u)⟩ }

theorem learn (h : Inv term Q s) {v : ν} {c : ℕ} (hc : c ≤ (s.log v).length)
    (hk : s.Known (s.currentTerm v) ((s.log v).take c)) : Inv term Q (s.learn v c) :=
  { h with
    commit_known := by
      intro u
      by_cases hu : u = v
      · subst hu
        rw [State.learn_commitIndex_self]
        exact ⟨hc, hk⟩
      · rw [State.learn_commitIndex_ne hu]
        exact h.commit_known u }

/-! ## Proposals -/

section Propose

variable (h : Inv term Q s) {n : ν} {x : ε} (hl : s.leading n)
include h hl

theorem propose_extends : Extends s (s.propose n x) where
  currentTerm := rfl
  elected := id
  leaderLog := by
    intro t
    by_cases ht : t = s.currentTerm n
    · subst ht; rw [State.propose_leaderLog_self]; exact List.prefix_append _ _
    · rw [State.propose_leaderLog_ne ht]
  acked := id
  committed := id
  newAcked := by
    rintro v t k ha
    by_cases ht : t = s.currentTerm n
    · subst ht
      rcases ha with ⟨k', hk, ha⟩ | ⟨g, hg, -⟩
      · refine Or.inl ⟨Or.inl ⟨k', hk, ha⟩, ?_⟩
        rw [State.propose_leaderLog_self,
          List.take_append_of_le_length (hk.trans (h.acked_le ha).2.1)]
      · rw [h.eq_of_elected_leading hl hg]
        exact Or.inr rfl
    · unfold State.Acked at ha
      rw [State.propose_leaderLog_ne ht] at ha ⊢
      exact Or.inl ⟨ha, rfl⟩

/-- The leader's log is still the leader log of its term. -/
theorem propose_log_eq : (s.propose n x).log n = (s.propose n x).leaderLog (s.currentTerm n) := by
  rw [State.propose_log_self, State.propose_leaderLog_self, (h.leading_log hl).2]

theorem propose_leaderLog_woven (hx : term x = s.currentTerm n) (t : ℕ) :
    Woven term (s.propose n x).leaderLog ((s.propose n x).leaderLog t) := by
  have e := h.propose_extends (x := x) hl
  by_cases ht : t = s.currentTerm n
  · subst ht
    rw [State.propose_leaderLog_self]
    exact ((h.leaderLog_woven _).mono e.leaderLog).concat
      (by rw [hx, State.propose_leaderLog_self])
  · rw [State.propose_leaderLog_ne ht]
    exact (h.leaderLog_woven t).mono e.leaderLog

theorem propose (hx : term x = s.currentTerm n) : Inv term Q (s.propose n x) := by
  have e := h.propose_extends (x := x) hl
  exact { h with
    elected_base := by
      intro m t g hg
      obtain ⟨new, hnew, hlt, heq⟩ := h.elected_base hg
      by_cases ht : t = s.currentTerm n
      · subst ht
        refine ⟨new ++ [x], by rw [State.propose_leaderLog_self, hnew, List.append_assoc], hlt, ?_⟩
        intro y hy
        rcases List.mem_append.mp hy with hy | hy
        · exact heq y hy
        · rw [List.mem_singleton] at hy
          subst hy
          exact hx
      · exact ⟨new, by rw [State.propose_leaderLog_ne ht, hnew], hlt, heq⟩
    leaderLog_elected := by
      intro t hne
      by_cases ht : t = s.currentTerm n
      · obtain ⟨⟨g, hg⟩, -⟩ := h.leading_log hl
        exact ⟨n, g, ht ▸ hg⟩
      · rw [State.propose_leaderLog_ne ht] at hne
        exact h.leaderLog_elected hne
    leading_log := by
      intro m hm
      obtain ⟨⟨g, hg⟩, hlog⟩ := h.leading_log hm
      refine ⟨⟨g, hg⟩, ?_⟩
      by_cases hmn : m = n
      · subst hmn
        exact h.propose_log_eq hl
      · have ht : s.currentTerm m ≠ s.currentTerm n :=
          fun ht => hmn (h.eq_of_elected_leading hl (ht ▸ hg))
        rw [State.propose_log_ne hmn]
        exact hlog.trans (State.propose_leaderLog_ne ht).symm
    leaderLog_woven := h.propose_leaderLog_woven hl hx
    log_woven := by
      intro v
      by_cases hv : v = n
      · subst hv
        rw [h.propose_log_eq hl]
        exact h.propose_leaderLog_woven hl hx _
      · rw [State.propose_log_ne hv]
        exact (h.log_woven v).mono e.leaderLog
    log_term_le := by
      intro v y hy
      by_cases hv : v = n
      · subst hv
        rw [State.propose_log_self] at hy
        rcases List.mem_append.mp hy with hy | hy
        · exact h.log_term_le v y hy
        · rw [List.mem_singleton] at hy
          subst hy
          exact hx.le
      · rw [State.propose_log_ne hv] at hy
        exact h.log_term_le v y hy
    acked_le := by
      intro v t k ha
      obtain ⟨h1, h2, h3⟩ := h.acked_le ha
      exact ⟨h1, h2.trans (e.leaderLog t).length_le, h3⟩
    log_keeps := by
      intro v
      refine e.log_keeps (h.log_keeps v) (propose_log_isPrefix s n x v) fun k ha => ?_
      by_cases hv : v = n
      · subst hv
        rw [h.propose_log_eq hl]
        exact List.take_prefix _ _
      · -- only the leader itself can have acknowledged the new entry
        have hold : s.Acked v (s.currentTerm v) k ∧
            ((s.propose n x).leaderLog (s.currentTerm v)).take k =
              (s.leaderLog (s.currentTerm v)).take k := by
          rcases ha with ⟨k', hk, ha⟩ | ⟨g, hg, hk⟩
          · refine ⟨Or.inl ⟨k', hk, ha⟩, ?_⟩
            obtain ⟨r, hr⟩ := e.leaderLog (s.currentTerm v)
            rw [← hr, List.take_append_of_le_length (hk.trans (h.acked_le ha).2.1)]
          · have ht : s.currentTerm v ≠ s.currentTerm n :=
              fun ht => hv (h.eq_of_elected_leading hl (ht ▸ hg))
            rw [State.propose_leaderLog_ne ht] at hk ⊢
            exact ⟨Or.inr ⟨g, hg, hk⟩, rfl⟩
        rw [hold.2, State.propose_log_ne hv]
        exact h.log_keeps v _ k hold.1 (by omega) fun m u g hg htu hu => by omega
    voted_le := fun hv => ⟨(h.voted_le hv).1, (h.voted_le hv).2.mono e.leaderLog⟩
    voted_keeps := e.voted_keeps h
    elected_quorum := e.elected_quorum h
    committed_quorum := e.committed_quorum h
    commit_known := by
      intro v
      obtain ⟨hle, hk⟩ := h.commit_known v
      have hp := propose_log_isPrefix s n x v
      refine ⟨hle.trans hp.length_le, ?_⟩
      obtain ⟨r, hr⟩ := hp
      show State.Known _ _ (((s.propose n x).log v).take (s.commitIndex v))
      rw [← hr, List.take_append_of_le_length hle]
      exact e.Known hk }

end Propose

/-! ## Acknowledgements -/

section Accept

variable (h : Inv term Q s) {v m : ν} {g lead : List ε}
  (hg : s.elected m (s.currentTerm v) g) (hgl : g <+: lead)
  (hlead : lead <+: s.leaderLog (s.currentTerm v))
include h hg hgl hlead

theorem accept : Inv term Q (s.accept v lead) := by
  have e := accept_extends s v lead
  exact { h with
    leading_log := by
      intro n hn
      obtain ⟨he, hlog⟩ := h.leading_log hn
      refine ⟨he, ?_⟩
      by_cases hnv : n = v
      · subst hnv
        rw [State.accept_log_self]
        rcases splice_cases (s.log n) lead with ⟨-, hs⟩ | ⟨hno, -⟩
        · rw [hs]; exact hlog
        · exact absurd (hlog ▸ hlead) hno
      · rw [State.accept_log_ne hnv]; exact hlog
    log_woven := by
      intro u
      by_cases hu : u = v
      · subst hu
        rw [State.accept_log_self]
        rcases splice_cases (s.log u) lead with ⟨-, hs⟩ | ⟨-, hs⟩
        · rw [hs]; exact h.log_woven u
        · rw [hs]; exact (h.leaderLog_woven _).of_isPrefix hlead
      · rw [State.accept_log_ne hu]; exact h.log_woven u
    log_term_le := by
      intro u x hx
      by_cases hu : u = v
      · subst hu
        rw [State.accept_log_self] at hx
        rcases splice_cases (s.log u) lead with ⟨-, hs⟩ | ⟨-, hs⟩
        · rw [hs] at hx; exact h.log_term_le u x hx
        · rw [hs] at hx; exact h.leaderLog_term_le _ x (hlead.subset hx)
      · rw [State.accept_log_ne hu] at hx; exact h.log_term_le u x hx
    acked_le := by
      rintro u t k (ha | ⟨rfl, rfl, rfl⟩)
      · exact h.acked_le ha
      · exact ⟨Nat.le_refl _, hlead.length_le, m, g, hg⟩
    log_keeps := by
      rintro u t k ha ht hi
      by_cases hu : u = v
      · subst hu
        rw [State.accept_log_self]
        rcases ha with ⟨k', hk, ha | ⟨-, rfl, rfl⟩⟩ | ha
        · exact h.splice_acked_isPrefix hg hlead hgl (Or.inl ⟨k', hk, ha⟩) hi
        · refine List.IsPrefix.trans ?_ (isPrefix_splice _ _)
          refine List.prefix_of_prefix_length_le (List.take_prefix _ _) hlead ?_
          rw [List.length_take]
          omega
        · exact h.splice_acked_isPrefix hg hlead hgl (Or.inr ha) hi
      · rw [State.accept_log_ne hu]
        rcases ha with ⟨k', hk, ha | ⟨hv, -, -⟩⟩ | ha
        · exact h.log_keeps u t k (Or.inl ⟨k', hk, ha⟩) ht hi
        · exact absurd hv hu
        · exact h.log_keeps u t k (Or.inr ha) ht hi
    voted_keeps := e.voted_keeps h
    elected_quorum := e.elected_quorum h
    committed_quorum := e.committed_quorum h
    commit_known := by
      intro u
      obtain ⟨hle, hk⟩ := h.commit_known u
      by_cases hu : u = v
      · subst hu
        have hp := h.splice_commit_isPrefix hg hlead
        have hlen := hp.length_le
        rw [List.length_take, Nat.min_eq_left hle] at hlen
        rw [State.accept_log_self]
        refine ⟨hlen, ?_⟩
        have hcut := List.prefix_iff_eq_take.mp hp
        rw [List.length_take, Nat.min_eq_left hle] at hcut
        show State.Known _ _ ((splice (s.log u) lead).take (s.commitIndex u))
        rw [← hcut]
        exact e.Known hk
      · rw [State.accept_log_ne hu]
        exact ⟨hle, e.Known hk⟩ }

end Accept

/-! ## All steps -/

theorem step (h : Inv term Q s) (hs : Step term Q s s') : Inv term Q s' := by
  cases hs with
  | raise v T hT => exact h.raise hT
  | vote v => exact h.vote v
  | elect n P hP hv hno => exact h.elect hno hP hv
  | propose n x hl hx => exact h.propose hl hx
  | accept v m g lead hg hgl hlead => exact h.accept hg hgl hlead
  | commit n N x hl hN hx hxt P hP ha => exact h.commit hl hN hx hxt hP ha
  | learn v c hc hk => exact h.learn hc hk

/-- No step loses history. -/
theorem step_grows (h : Inv term Q s) (hs : Step term Q s s') : Grows s s' := by
  cases hs with
  | raise | vote | learn => exact ⟨id, fun _ => List.prefix_rfl, id, id⟩
  | commit => exact ⟨id, fun _ => List.prefix_rfl, id, Or.inl⟩
  | elect n P hP hv hno => exact (h.elect_extends hno).toGrows
  | propose n x hl hx => exact (h.propose_extends hl).toGrows
  | accept v m g lead => exact (accept_extends s v lead).toGrows

/-- **The invariant holds along any number of steps.** -/
theorem steps (h : Inv term Q s) (hs : Relation.ReflTransGen (Step term Q) s s') :
    Inv term Q s' := by
  induction hs with
  | refl => exact h
  | tail _ hs ih => exact ih.step hs

theorem steps_grows (h : Inv term Q s) (hs : Relation.ReflTransGen (Step term Q) s s') :
    Grows s s' := by
  induction hs with
  | refl => exact .refl
  | tail hr hs ih => exact ih.trans ((h.steps hr).step_grows hs)

end Inv

end Replication
