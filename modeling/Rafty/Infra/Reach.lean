import Mathlib.Order.Defs.PartialOrder
import Rafty.Infra.Run

/-!
# What a system can still do

`CanReach time s P`: whatever the time is, the system can go on from `s`, with steps whose times do
not go back, so that `P` holds of the events on the way and of the state it gets to. Statements
about what must remain possible are put together from single steps with `CanReach.step` and
`CanReach.bind`; `CanReach.exists_append` reads the result off as the continuation of a run.
-/

namespace Infra

/-- The times `times` do not go back on the way from `now` to `later`. -/
def Passes {τ : Type*} [LE τ] (now : τ) (times : List τ) (later : τ) : Prop :=
  (now :: (times ++ [later])).Pairwise (· ≤ ·)

namespace Passes

variable {τ : Type*} [Preorder τ] {now later latest : τ} {times times' : List τ}

theorem refl (now : τ) : Passes now [] now := by simp [Passes]

theorem trans (h : Passes now times later) (h' : Passes later times' latest) :
    Passes now (times ++ times') latest := by
  simp only [Passes, List.pairwise_cons, List.pairwise_append, List.forall_mem_append,
    List.forall_mem_singleton] at h h' ⊢
  obtain ⟨⟨hnow, hlater⟩, htimes, -, hle⟩ := h
  obtain ⟨⟨hnow', hlater'⟩, htimes', hone, hle'⟩ := h'
  refine ⟨⟨⟨hnow, fun b hb => hlater.trans (hnow' b hb)⟩, hlater.trans hlater'⟩,
    ⟨htimes, htimes', fun a ha b hb => (hle a ha).trans (hnow' b hb)⟩, hone, ?_, hle'⟩
  exact fun a ha => (hle a ha).trans hlater'

theorem single (h : now ≤ later) : Passes now [later] later := by simp [Passes, h]

theorem le (h : Passes now times later) : ∀ time ∈ times, now ≤ time :=
  fun _ ht => (List.pairwise_cons.mp h).1 _ (List.mem_append_left _ ht)

theorem pairwise (h : Passes now times later) : times.Pairwise (· ≤ ·) :=
  (List.pairwise_append.mp (List.pairwise_cons.mp h).2).1

end Passes

namespace System

variable {σ ι ε τ : Type*} (S : System σ ι ε)

/--
From `s`, whatever the time is, the system can go on so that `P` holds of the events and of the
state after them.
-/
def CanReach [LE τ] (time : ι → τ) (s : σ) (P : List ε → σ → Prop) : Prop :=
  ∀ now, ∃ us later s', (S.startingAt s).Run us s' ∧
    Passes now (us.map fun u => time u.input) later ∧ P (events us) s'

variable {S} [Preorder τ] {time : ι → τ} {s s' : σ} {P R : List ε → σ → Prop}

theorem CanReach.here (h : P [] s) : S.CanReach time s P :=
  fun now => ⟨[], now, s, .init rfl, .refl now, h⟩

theorem CanReach.mono (h : S.CanReach time s P) (himp : ∀ es s', P es s' → R es s') :
    S.CanReach time s R := by
  intro now
  obtain ⟨us, later, s', hus, hpasses, hp⟩ := h now
  exact ⟨us, later, s', hus, hpasses, himp _ _ hp⟩

theorem CanReach.bind (h : S.CanReach time s P)
    (hnext : ∀ es s', P es s' → S.CanReach time s' fun es' s'' => R (es ++ es') s'') :
    S.CanReach time s R := by
  intro now
  obtain ⟨us, later, s', hus, hpasses, hp⟩ := h now
  obtain ⟨vs, latest, s'', hvs, hpasses', hr⟩ := hnext _ _ hp later
  refine ⟨us ++ vs, latest, s'', hus.append hvs, ?_, by rw [events_append]; exact hr⟩
  rw [List.map_append]
  exact hpasses.trans hpasses'

/-- One step, at a time from now on. -/
theorem CanReach.step (h : ∀ now, ∃ i s' es, now ≤ time i ∧ S.step s i = some (s', es) ∧
      S.CanReach time s' fun es' s'' => R (es ++ es') s'') : S.CanReach time s R := by
  intro now
  obtain ⟨i, s', es, hle, hs, hnext⟩ := h now
  obtain ⟨us, later, s'', hus, hpasses, hr⟩ := hnext (time i)
  have hone : (S.startingAt s).Run [⟨s, i, es, s'⟩] s' := .step (.init rfl) hs
  refine ⟨⟨s, i, es, s'⟩ :: us, later, s'', hone.append hus, (Passes.single hle).trans hpasses, ?_⟩
  rw [← List.singleton_append, events_append, events_singleton]
  exact hr

/-- A run of a restriction is a run whose steps all meet the condition. -/
theorem Run.of_restrict {p : σ → ι → Bool} {us : List (Transition σ ι ε)}
    (h : ((S.restrict p).startingAt s).Run us s') :
    (S.startingAt s).Run us s' ∧ ∀ t ∈ us, p t.before t.input = true := by
  induction h with
  | init hi => exact ⟨.init hi, by simp⟩
  | step _ hs ih =>
    obtain ⟨hp, hs⟩ := restrict_step.mp hs
    exact ⟨.step ih.1 hs, List.forall_mem_append.mpr ⟨ih.2, List.forall_mem_singleton.mpr hp⟩⟩

/-- A run goes on the way the system can, from `now` on and with the steps it is restricted to. -/
theorem CanReach.exists_append {p : σ → ι → Bool} {ts : List (Transition σ ι ε)}
    (h : (S.restrict p).CanReach time s P) (hr : S.Run ts s) (now : τ) :
    ∃ us s', S.Run (ts ++ us) s' ∧ (∀ t ∈ us, p t.before t.input = true) ∧
      (∀ t ∈ us, now ≤ time t.input) ∧ us.Pairwise (fun t u => time t.input ≤ time u.input) ∧
      P (events us) s' := by
  obtain ⟨us, later, s', hus, hpasses, hp⟩ := h now
  obtain ⟨hrun, hall⟩ := Run.of_restrict hus
  refine ⟨us, s', hr.append hrun, hall, ?_, List.pairwise_map.mp hpasses.pairwise, hp⟩
  exact fun t ht => hpasses.le _ (List.mem_map_of_mem ht)

end System

end Infra
