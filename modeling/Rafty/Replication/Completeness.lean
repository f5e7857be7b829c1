import Rafty.Replication.Protocol

/-!
# The invariant of the replication protocol, and leader completeness

`Inv` is what every step keeps (`Rafty/Replication/Invariant.lean`). Its heart is the pair
`log_keeps` / `elected_quorum`. Both are conditional: an acknowledged part of a leader log is still
there *as long as every leader elected since holds it*. The condition makes them inductive, and
leader completeness discharges it by induction on the term:

* `leaderCompleteness` — what the leader of term `t` committed is in the log every leader of a later
  term was elected with.
* `known_comparable` — hence a committed part of a log is comparable with whatever a later leader
  sends.
-/

namespace Replication

open Infra

variable {ν ε : Type*} (term : ε → ℕ) (Q : QuorumSystem ν)

structure Inv (s : State ν ε) : Prop where
  elected_unique : ∀ {n m t g h}, s.elected n t g → s.elected m t h → n = m ∧ g = h
  elected_le : ∀ {n t g}, s.elected n t g → t ≤ s.currentTerm n
  /-- A leader log is what the leader was elected with, then entries of its own term. -/
  elected_base : ∀ {n t g}, s.elected n t g →
    ∃ new, s.leaderLog t = g ++ new ∧ (∀ e ∈ g, term e < t) ∧ ∀ e ∈ new, term e = t
  leaderLog_elected : ∀ {t}, s.leaderLog t ≠ [] → ∃ n g, s.elected n t g
  leading_log : ∀ {n}, s.leading n →
    (∃ g, s.elected n (s.currentTerm n) g) ∧ s.log n = s.leaderLog (s.currentTerm n)
  leaderLog_woven : ∀ t, Woven term s.leaderLog (s.leaderLog t)
  log_woven : ∀ v, Woven term s.leaderLog (s.log v)
  log_term_le : ∀ v, ∀ e ∈ s.log v, term e ≤ s.currentTerm v
  acked_le : ∀ {v t k}, s.acked v t k →
    t ≤ s.currentTerm v ∧ k ≤ (s.leaderLog t).length ∧ ∃ n g, s.elected n t g
  /-- What a node acknowledged is in its log unless a later leader did not have it. -/
  log_keeps : ∀ v, s.Keeps v (s.currentTerm v + 1) (s.log v)
  voted_le : ∀ {v t f}, s.voted v t f → t ≤ s.currentTerm v ∧ Woven term s.leaderLog f
  /-- The same for the log a node voted with, while the term has no leader. -/
  voted_keeps : ∀ {v t f}, s.voted v t f → (∀ m g, ¬s.elected m t g) → s.Keeps v t f
  /-- The same for the voters of a leader, from its election on. -/
  elected_quorum : ∀ {n t g}, s.elected n t g → ∃ P, Q.isQuorum P ∧ ∀ v ∈ P,
    t ≤ s.currentTerm v ∧ ∃ f, Woven term s.leaderLog f ∧ AtLeast term f g ∧ s.Keeps v t f
  committed_quorum : ∀ {t N}, s.committed t N →
    (∃ P, Q.isQuorum P ∧ ∀ v ∈ P, s.Acked v t N) ∧
      0 < N ∧ ∃ e, (s.leaderLog t)[N - 1]? = some e ∧ term e = t
  commit_known : ∀ v, s.commitIndex v ≤ (s.log v).length ∧
    s.Known (s.currentTerm v) ((s.log v).take (s.commitIndex v))

variable {term Q} {s : State ν ε}

namespace Inv

variable (h : Inv term Q s)
include h

theorem elected_isPrefix {n : ν} {t : ℕ} {g : List ε} (he : s.elected n t g) :
    g <+: s.leaderLog t := by
  obtain ⟨new, hl, -, -⟩ := h.elected_base he
  exact ⟨new, hl.symm⟩

/-- Everything in a leader log has at most the leader's term. -/
theorem leaderLog_term_le (t : ℕ) : ∀ e ∈ s.leaderLog t, term e ≤ t := by
  intro e he
  obtain ⟨n, g, hn⟩ := h.leaderLog_elected (List.ne_nil_of_mem he)
  obtain ⟨new, hl, hg, hnew⟩ := h.elected_base hn
  rw [hl] at he
  rcases List.mem_append.mp he with he | he
  · exact (hg e he).le
  · exact (hnew e he).le

/-- The term of an entry in a woven log has a leader. -/
theorem elected_of_mem {l : List ε} (hl : Woven term s.leaderLog l) {i : ℕ} {e : ε}
    (hi : l[i]? = some e) : ∃ n g, s.elected n (term e) g := by
  refine h.leaderLog_elected fun hnil => ?_
  have hp := hl i e hi
  have hlt := (List.getElem?_eq_some_iff.mp hi).1
  rw [hnil, List.prefix_nil] at hp
  have := congrArg List.length hp
  simp only [List.length_take, List.length_nil] at this
  omega

theorem acked_elected {v : ν} {t k : ℕ} (ha : s.Acked v t k) :
    k ≤ (s.leaderLog t).length ∧ t ≤ s.currentTerm v ∧ ∃ n g, s.elected n t g := by
  rcases ha with ⟨k', hk, ha⟩ | ⟨g, hg, hk⟩
  · obtain ⟨h1, h2, h3⟩ := h.acked_le ha
    exact ⟨hk.trans h2, h1, h3⟩
  · exact ⟨hk, h.elected_le hg, v, g, hg⟩

/-- Terms grow along a woven log. -/
theorem woven_term_le {l : List ε} (hl : Woven term s.leaderLog l) {i j : ℕ} {x y : ε}
    (hi : l[i]? = some x) (hj : l[j]? = some y) (hij : i ≤ j) : term x ≤ term y :=
  hl.term_le h.leaderLog_term_le hi hj hij

/--
A woven log that ends in term `u` holds the whole log the leader of `u` was elected with.

The entries of that log have smaller terms, so the last entry of `l` lies beyond them.
-/
theorem elected_isPrefix_of_last {l g : List ε} {n : ν} {e : ε}
    (hl : Woven term s.leaderLog l) (he : l[l.length - 1]? = some e)
    (hg : s.elected n (term e) g) : g <+: l := by
  have hlen := (List.getElem?_eq_some_iff.mp he).1
  have hp : l <+: s.leaderLog (term e) := by
    have := hl _ e he
    rwa [show l.length - 1 + 1 = l.length by omega, List.take_length] at this
  obtain ⟨new, hL, hlt, -⟩ := h.elected_base hg
  refine List.prefix_of_prefix_length_le ⟨new, hL.symm⟩ hp ?_
  by_contra hgt
  have hin : g[l.length - 1]? = some e := by
    have hidx : (s.leaderLog (term e))[l.length - 1]? = some e := by
      obtain ⟨r, hr⟩ := hp
      rw [← hr, List.getElem?_append_left hlen]
      exact he
    rw [hL, List.getElem?_append_left (by omega)] at hidx
    exact hidx
  exact absurd (hlt e (List.mem_of_getElem? hin)) (by omega)

/--
**An up to date log inherits.** If a voter's log `f` holds `leaderLog t` up to an entry of term `t`,
and all leaders between `t` and `t'` hold it too, then so does every woven log of terms below `t'`
that is at least as up to date as `f`.
-/
theorem isPrefix_of_atLeast {t t' N : ℕ} {f g : List ε} {x : ε}
    (hf : Woven term s.leaderLog f) (hg : Woven term s.leaderLog g)
    (hgt : ∀ e ∈ g, term e < t') (hN : 0 < N) (hx : (s.leaderLog t)[N - 1]? = some x)
    (hxt : term x = t) (hin : s.Inherited t t' ((s.leaderLog t).take N))
    (hp : (s.leaderLog t).take N <+: f) (hle : AtLeast term f g) :
    (s.leaderLog t).take N <+: g := by
  have hxl := (List.getElem?_eq_some_iff.mp hx).1
  have hNf : N ≤ f.length := by
    have := hp.length_le
    rw [List.length_take] at this
    omega
  have hfx : f[N - 1]? = some x := by
    obtain ⟨r, rfl⟩ := hp
    rw [List.getElem?_append_left (by simp; omega), List.getElem?_take_of_lt (by omega)]
    exact hx
  obtain ⟨y, hy, hyl⟩ := exists_last_of_ne_nil term (l := f)
    (fun hnil => by rw [hnil] at hNf; simp at hNf; omega)
  have hty : t ≤ term y := by
    rw [← hxt]
    exact h.woven_term_le hf hfx hy (by omega)
  have hgne : g ≠ [] := by
    rintro rfl
    rcases hle with hlt | ⟨-, hlen⟩
    · exact Nat.not_lt_zero _ hlt
    · rw [List.length_nil] at hlen; omega
  obtain ⟨z, hz, hzl⟩ := exists_last_of_ne_nil term hgne
  have htz : t ≤ term z := by
    rcases hle with hlt | ⟨heq, -⟩ <;> omega
  rcases Nat.lt_or_ge t (term z) with hlt | hge
  · -- the last entry of `g` is from a later leader, which was elected with the committed part
    obtain ⟨m, gz, hgz⟩ := h.elected_of_mem hg hz
    exact (hin m _ gz hgz hlt (hgt z (List.mem_of_getElem? hz))).trans
      (h.elected_isPrefix_of_last hg hz hgz)
  · -- both logs end in term `t`, and `g` is at least as long
    have hzt : term z = t := by omega
    have hlen : f.length ≤ g.length := by
      rcases hle with hlt | ⟨-, hlen⟩
      · omega
      · exact hlen
    have hgp : g <+: s.leaderLog t := by
      have := hg _ z hz
      rw [hzt, Nat.sub_add_cancel (List.length_pos_iff.mpr hgne), List.take_length] at this
      exact this
    refine List.prefix_of_prefix_length_le (List.take_prefix _ _) hgp ?_
    rw [List.length_take]
    omega

/--
**Leader completeness.** What the leader of term `t` committed is in the log that the leader of any
later term was elected with.

Induction on the later term: the two quorums share a node. Its log at the vote still holds the
committed part because, by induction, all leaders in between hold it; and the new leader's log is at
least as up to date.
-/
theorem leaderCompleteness {t N : ℕ} (hc : s.committed t N) :
    ∀ (t' : ℕ) {m : ν} {g : List ε}, s.elected m t' g → t < t' → (s.leaderLog t).take N <+: g := by
  intro t'
  induction t' using Nat.strongRecOn with
  | _ t' ih =>
    intro m g hg htt'
    obtain ⟨⟨P, hP, hPa⟩, hN, x, hx, hxt⟩ := h.committed_quorum hc
    obtain ⟨P', hP', hPv⟩ := h.elected_quorum hg
    obtain ⟨v, hvP, hvP'⟩ := Q.inter hP hP'
    obtain ⟨-, f, hf, hle, hkeep⟩ := hPv v hvP'
    have hin : s.Inherited t t' ((s.leaderLog t).take N) :=
      fun m' u g' hu htu hut' => ih u hut' hu htu
    have hvf : (s.leaderLog t).take N <+: f := hkeep t N (hPa v hvP) htt' hin
    obtain ⟨new, -, hgt, -⟩ := h.elected_base hg
    exact h.isPrefix_of_atLeast hf ((h.leaderLog_woven t').of_isPrefix (h.elected_isPrefix hg)) hgt
      hN hx hxt hin hvf hle

/-- What is committed in a term is in the log of every leader of this or a later term. -/
theorem known_isPrefix_leaderLog {t N T : ℕ} {l g : List ε} {m : ν} (hc : s.committed t N)
    (htT : t ≤ T) (hl : l.length ≤ N) (hp : l <+: s.leaderLog t) (hg : s.elected m T g) :
    l <+: s.leaderLog T := by
  rcases Nat.lt_or_ge t T with hlt | hge
  · have hN : l <+: (s.leaderLog t).take N := List.prefix_take_iff.mpr ⟨hp, hl⟩
    exact (hN.trans (h.leaderCompleteness hc T hg hlt)).trans (h.elected_isPrefix hg)
  · rwa [show T = t by omega]

/-- A committed part of a log is comparable with whatever a leader of this or a later term sends. -/
theorem known_comparable {T : ℕ} {l g lead : List ε} {m : ν} (hk : s.Known T l)
    (hg : s.elected m T g) (hlead : lead <+: s.leaderLog T) : l <+: lead ∨ lead <+: l := by
  rcases hk with rfl | ⟨t, N, hc, htT, hl, hp⟩
  · exact Or.inl List.nil_prefix
  · exact List.prefix_or_prefix_of_prefix (h.known_isPrefix_leaderLog hc htT hl hp hg) hlead

/-- **Any two committed parts are comparable.** -/
theorem known_total {T T' : ℕ} {l l' : List ε} (hk : s.Known T l) (hk' : s.Known T' l') :
    l <+: l' ∨ l' <+: l := by
  rcases hk with rfl | ⟨t, N, hc, -, hl, hp⟩
  · exact Or.inl List.nil_prefix
  rcases hk' with rfl | ⟨t', N', hc', -, hl', hp'⟩
  · exact Or.inr List.nil_prefix
  obtain ⟨-, -, x, hx, hxt⟩ := h.committed_quorum hc
  obtain ⟨-, -, x', hx', hxt'⟩ := h.committed_quorum hc'
  obtain ⟨m, g, hg⟩ := h.leaderLog_elected (List.ne_nil_of_mem (List.mem_of_getElem? hx))
  obtain ⟨m', g', hg'⟩ := h.leaderLog_elected (List.ne_nil_of_mem (List.mem_of_getElem? hx'))
  rcases Nat.le_total t t' with htt | htt
  · exact List.prefix_or_prefix_of_prefix (h.known_isPrefix_leaderLog hc htt hl hp hg') hp'
  · exact List.prefix_or_prefix_of_prefix hp (h.known_isPrefix_leaderLog hc' htt hl' hp' hg)

/-- The leader of a term is the only one who can have been elected in it. -/
theorem eq_of_elected_leading {n m : ν} {g : List ε} (hl : s.leading n)
    (hg : s.elected m (s.currentTerm n) g) : m = n := by
  obtain ⟨⟨g', hg'⟩, -⟩ := h.leading_log hl
  exact (h.elected_unique hg hg').1

/-! ## What a splice keeps -/

section Splice

variable {v m : ν} {g lead : List ε} (hg : s.elected m (s.currentTerm v) g)
  (hlead : lead <+: s.leaderLog (s.currentTerm v))
include hg hlead

/-- **The committed part of a log survives a splice.** -/
theorem splice_commit_isPrefix :
    (s.log v).take (s.commitIndex v) <+: splice (s.log v) lead :=
  splice_keeps (List.take_prefix _ _) (h.known_comparable (h.commit_known v).2 hg hlead)

/-- What a node acknowledged survives too, as long as all later leaders have it. -/
theorem splice_acked_isPrefix (hgl : g <+: lead) {t k : ℕ} (ha : s.Acked v t k)
    (hi : s.Inherited t (s.currentTerm v + 1) ((s.leaderLog t).take k)) :
    (s.leaderLog t).take k <+: splice (s.log v) lead := by
  have hle := (h.acked_elected ha).2.1
  refine splice_keeps (h.log_keeps v t k ha (by omega) hi) ?_
  rcases Nat.lt_or_ge t (s.currentTerm v) with hlt | hge
  · exact Or.inl ((hi m _ g hg hlt (by omega)).trans hgl)
  · rw [show t = s.currentTerm v by omega]
    exact List.prefix_or_prefix_of_prefix (List.take_prefix _ _) hlead

end Splice

end Inv

end Replication
