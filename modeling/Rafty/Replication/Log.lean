import Mathlib.Data.List.Basic

/-!
# Logs of entries that carry a term

A log is a list of entries, each with a term. The protocol keeps, for every term `t`, the log
`Λ t` of the leader of that term. A log is *woven* from these leader logs when every initial part of
it is an initial part of the leader log of its last term. All logs of the protocol are, and two
woven logs match: the same term at the same index forces everything before it to be the same.

* `Woven.matching` — two woven logs with the same term at an index agree up to there.
* `splice` — what a follower does with a leader's log: keep the own log if it already continues the
  leader's, otherwise take the leader's.
* `AtLeast` — the order of logs that voters compare.
-/

namespace Replication

variable {ε : Type*} (term : ε → ℕ)

/-! ## Woven logs -/

/-- Every initial part of `l` is an initial part of the leader log of its last term. -/
def Woven (Λ : ℕ → List ε) (l : List ε) : Prop :=
  ∀ (i : ℕ) (e : ε), l[i]? = some e → l.take (i + 1) <+: Λ (term e)

variable {term} {Λ Λ' : ℕ → List ε} {l l' : List ε}

theorem woven_nil : Woven term Λ [] := by
  intro i e h
  simp at h

theorem Woven.of_isPrefix (h : Woven term Λ l') (hp : l <+: l') : Woven term Λ l := by
  intro i e hi
  obtain ⟨hlt, he⟩ := List.getElem?_eq_some_iff.mp hi
  have hi' : l'[i]? = some e := by
    rw [List.getElem?_eq_some_iff]
    exact ⟨Nat.lt_of_lt_of_le hlt hp.length_le, by rw [← hp.getElem hlt]; exact he⟩
  have htake : l.take (i + 1) = l'.take (i + 1) := by
    obtain ⟨r, rfl⟩ := hp
    rw [List.take_append_of_le_length (by omega)]
  rw [htake]
  exact h i e hi'

/-- Leader logs only grow, which keeps a log woven. -/
theorem Woven.mono (h : Woven term Λ l) (hΛ : ∀ t, Λ t <+: Λ' t) : Woven term Λ' l :=
  fun i e hi => (h i e hi).trans (hΛ _)

/-- A log that is itself a leader log stays woven when its leader appends. -/
theorem Woven.concat {e : ε} (h : Woven term Λ l) (he : Λ (term e) = l ++ [e]) :
    Woven term Λ (l ++ [e]) := by
  intro i x hi
  rcases Nat.lt_trichotomy i l.length with hlt | heq | hgt
  · rw [List.getElem?_append_left hlt] at hi
    rw [List.take_append_of_le_length (by omega)]
    exact h i x hi
  · subst heq
    simp only [List.getElem?_concat_length, Option.some.injEq] at hi
    subst hi
    rw [he]
    exact List.take_prefix _ _
  · rw [List.getElem?_eq_none (by simp; omega)] at hi
    cases hi

/-- **Log matching.** Two woven logs with the same term at index `i` agree up to `i`. -/
theorem Woven.matching (h : Woven term Λ l) (h' : Woven term Λ l') {i : ℕ} {e e' : ε}
    (hi : l[i]? = some e) (hi' : l'[i]? = some e') (ht : term e = term e') :
    l.take (i + 1) = l'.take (i + 1) := by
  have hl := (List.getElem?_eq_some_iff.mp hi).1
  have hl' := (List.getElem?_eq_some_iff.mp hi').1
  have h1 := h i e hi
  have h2 := h' i e' hi'
  rw [← ht] at h2
  refine (List.prefix_of_prefix_length_le h1 h2 ?_).eq_of_length ?_ <;>
  · simp only [List.length_take]
    omega

/-- If everything in a leader log has at most the leader's term, terms grow along a woven log. -/
theorem Woven.term_le (h : Woven term Λ l) (hΛ : ∀ t, ∀ e ∈ Λ t, term e ≤ t) {i j : ℕ} {x y : ε}
    (hi : l[i]? = some x) (hj : l[j]? = some y) (hij : i ≤ j) : term x ≤ term y := by
  refine hΛ _ x ((h j y hj).subset ?_)
  have hget : (l.take (j + 1))[i]? = some x := by
    rw [List.getElem?_take_of_lt (by omega)]; exact hi
  exact List.mem_of_getElem? hget

/-! ## Splicing -/

open Classical in
/-- The follower's log after it took in the leader's log `lead`. -/
noncomputable def splice (own lead : List ε) : List ε :=
  if lead <+: own then own else lead

theorem splice_cases (own lead : List ε) :
    (lead <+: own ∧ splice own lead = own) ∨ (¬lead <+: own ∧ splice own lead = lead) := by
  unfold splice
  by_cases h : lead <+: own
  · exact Or.inl ⟨h, if_pos h⟩
  · exact Or.inr ⟨h, if_neg h⟩

/-- The leader's log is an initial part of what the follower has afterwards. -/
theorem isPrefix_splice (own lead : List ε) : lead <+: splice own lead := by
  rcases splice_cases own lead with ⟨h, he⟩ | ⟨_, he⟩
  · exact he.symm ▸ h
  · exact he.symm ▸ List.prefix_rfl

/--
An initial part of the follower's log survives the splice if it is comparable with the leader's log.
-/
theorem splice_keeps {own lead kept : List ε} (hk : kept <+: own)
    (hc : kept <+: lead ∨ lead <+: kept) : kept <+: splice own lead := by
  rcases splice_cases own lead with ⟨_, he⟩ | ⟨hn, he⟩
  · rw [he]; exact hk
  · rw [he]
    rcases hc with hc | hc
    · exact hc
    · exact absurd (hc.trans hk) hn

/-! ## The order voters compare -/

variable (term)

/-- The term of the last entry, `0` for the empty log. -/
def lastTerm (l : List ε) : ℕ := (l.getLast?.map term).getD 0

/-- `g` is at least as up to date as `f`. -/
def AtLeast (f g : List ε) : Prop :=
  lastTerm term f < lastTerm term g ∨ lastTerm term f = lastTerm term g ∧ f.length ≤ g.length

theorem exists_last_of_ne_nil (h : l ≠ []) :
    ∃ e, l[l.length - 1]? = some e ∧ term e = lastTerm term l := by
  refine ⟨l.getLast h, ?_, ?_⟩
  · rw [← List.getLast?_eq_getElem?, List.getLast?_eq_some_getLast h]
  · rw [lastTerm, List.getLast?_eq_some_getLast h]; rfl

end Replication
