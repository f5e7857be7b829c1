import Mathlib.Data.List.Basic

/-!
# Machines that answer every input

A machine is a function that takes a state and an input to the next state and an output; `feed` runs
it on a list. Some inputs can be *absorbed*: the machine answers them and stays as it is. If each of
the inputs added to a list is absorbed by the time it comes, the machine does on the longer list
what it does on the shorter one (`feed_keep`).

The longer list is a list of inputs with marks, `true` for those of the shorter list, which
`keep` picks out.
-/

namespace Infra

variable {σ τ α β : Type*}

/-- The state after a list of inputs, and the outputs to them. -/
def feed (f : σ → α → σ × β) : σ → List α → σ × List β
  | s, [] => (s, [])
  | s, a :: as => ((feed f (f s a).1 as).1, (f s a).2 :: (feed f (f s a).1 as).2)

variable {f : σ → α → σ × β}

theorem feed_concat (s : σ) (as : List α) (a : α) :
    (feed f s (as ++ [a])).1 = (f (feed f s as).1 a).1 := by
  induction as generalizing s with
  | nil => rfl
  | cons x as ih => exact ih _

theorem feed_concat_snd (s : σ) (as : List α) (a : α) :
    (feed f s (as ++ [a])).2 = (feed f s as).2 ++ [(f (feed f s as).1 a).2] := by
  induction as generalizing s with
  | nil => rfl
  | cons x as ih => exact congrArg _ (ih _)

/-- The states do not depend on what is output. -/
theorem feed_fst_congr {γ : Type*} {g : σ → α → σ × γ} (h : ∀ s a, (f s a).1 = (g s a).1) (s : σ)
    (as : List α) : (feed f s as).1 = (feed g s as).1 := by
  induction as generalizing s with
  | nil => rfl
  | cons a as ih =>
    show (feed f (f s a).1 as).1 = (feed g (g s a).1 as).1
    rw [ih, h]

/-- A part of the state that evolves on its own is a machine of its own. -/
theorem feed_view {g : τ → α → τ × β} (view : σ → τ)
    (hview : ∀ s a, view (f s a).1 = (g (view s) a).1 ∧ (f s a).2 = (g (view s) a).2) (s : σ)
    (as : List α) :
    view (feed f s as).1 = (feed g (view s) as).1 ∧ (feed f s as).2 = (feed g (view s) as).2 := by
  induction as generalizing s with
  | nil => exact ⟨rfl, rfl⟩
  | cons a as ih =>
    obtain ⟨h1, h2⟩ := hview s a
    obtain ⟨h3, h4⟩ := ih (f s a).1
    rw [h1] at h3 h4
    exact ⟨h3, congrArg₂ List.cons h2 h4⟩

/-- The elements of `xs` at the marked places. -/
def keep : List Bool → List β → List β
  | true :: marks, x :: xs => x :: keep marks xs
  | false :: marks, _ :: xs => keep marks xs
  | _, _ => []

/-! ## Absorbed inputs -/

/-- What it takes for some inputs to be absorbed: `R b a` makes `a` a repetition of `b`. -/
structure Absorbs (f : σ → α → σ × β) (absorbed : σ → α → Prop) (R : α → α → Prop) : Prop where
  stays : ∀ s a, absorbed s a → (f s a).1 = s
  lasts : ∀ s a b, absorbed s a → absorbed (f s b).1 a
  repeats : ∀ s a b, R b a → absorbed (f s b).1 a

/-- Each unmarked input repeats a marked one before it. -/
def RepeatsOnly (R : α → α → Prop) (l : List (α × Bool)) : Prop :=
  ∀ pre a post, l = pre ++ (a, false) :: post → ∃ b, (b, true) ∈ pre ∧ R b a

variable {absorbed : σ → α → Prop} {R : α → α → Prop}

/--
The induction behind `feed_keep`: an unmarked input is absorbed from the start, or repeats a marked
one before it.
-/
theorem Absorbs.feed_keep_aux (h : Absorbs f absorbed R) : ∀ (l : List (α × Bool)) (s : σ),
    (∀ pre a post, l = pre ++ (a, false) :: post →
      absorbed s a ∨ ∃ b, (b, true) ∈ pre ∧ R b a) →
    (feed f s (l.map Prod.fst)).1 = (feed f s (keep (l.map Prod.snd) (l.map Prod.fst))).1 ∧
      keep (l.map Prod.snd) (feed f s (l.map Prod.fst)).2 =
        (feed f s (keep (l.map Prod.snd) (l.map Prod.fst))).2
  | [], s, _ => ⟨rfl, rfl⟩
  | (x, true) :: l, s, hl => by
    have ih := h.feed_keep_aux l (f s x).1 ?_
    · exact ⟨ih.1, congrArg ((f s x).2 :: ·) ih.2⟩
    · rintro pre a post rfl
      rcases hl ((x, true) :: pre) a post rfl with habs | ⟨b, hb, hR⟩
      · exact Or.inl (h.lasts s a x habs)
      · rcases List.mem_cons.mp hb with he | hb
        · obtain rfl : b = x := congrArg Prod.fst he
          exact Or.inl (h.repeats s a b hR)
        · exact Or.inr ⟨b, hb, hR⟩
  | (x, false) :: l, s, hl => by
    have habs : absorbed s x := by
      rcases hl [] x l rfl with habs | ⟨b, hb, -⟩
      · exact habs
      · cases hb
    have hs := h.stays s x habs
    have ih := h.feed_keep_aux l s ?_
    · show (feed f (f s x).1 (l.map Prod.fst)).1 = _ ∧
        keep (l.map Prod.snd) (feed f (f s x).1 (l.map Prod.fst)).2 = _
      rw [hs]
      exact ih
    · rintro pre a post rfl
      rcases hl ((x, false) :: pre) a post rfl with habs | ⟨b, hb, hR⟩
      · exact Or.inl habs
      · rcases List.mem_cons.mp hb with he | hb
        · cases congrArg Prod.snd he
        · exact Or.inr ⟨b, hb, hR⟩

/-- **Repetitions are invisible** to a machine that absorbs them. -/
theorem Absorbs.feed_keep (h : Absorbs f absorbed R) {l : List (α × Bool)}
    (hl : RepeatsOnly R l) (s : σ) :
    (feed f s (l.map Prod.fst)).1 = (feed f s (keep (l.map Prod.snd) (l.map Prod.fst))).1 ∧
      keep (l.map Prod.snd) (feed f s (l.map Prod.fst)).2 =
        (feed f s (keep (l.map Prod.snd) (l.map Prod.fst))).2 :=
  h.feed_keep_aux l s fun pre a post he => Or.inr (hl pre a post he)

end Infra
