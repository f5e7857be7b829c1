import Rafty.Infra.Run

/-!
# One system seen as another

A view reads a state of another system off every state, and takes each step either for a step of
that system or for none at all. If it does so soundly, every run of the first system is seen as a
run of the second, and what is known of the runs of the second holds of what is seen.

A condition on the steps of a run that a property needs is asked of the run that is seen.
-/

namespace Infra

variable {σ ι ε τ κ δ : Type*}

/-- How states, steps and events of one system are seen in another. -/
structure View (σ ι ε τ κ δ : Type*) where
  state : σ → τ
  /-- `none`: the step is not seen. -/
  input : σ → ι → Option κ
  event : ε → Option δ

namespace View

variable (V : View σ ι ε τ κ δ) {S : System σ ι ε} {T : System τ κ δ}

/-- What is not seen changes nothing that is seen, and what is seen is a step. -/
structure Sound (S : System σ ι ε) (T : System τ κ δ) : Prop where
  init : ∀ s, S.init s → T.init (V.state s)
  hidden : ∀ {s i s' es}, S.step s i = some (s', es) → V.input s i = none →
    V.state s' = V.state s ∧ es.filterMap V.event = []
  seen : ∀ {s i s' es j}, S.step s i = some (s', es) → V.input s i = some j →
    T.step (V.state s) j = some (V.state s', es.filterMap V.event)

def transition (t : Transition σ ι ε) : Option (Transition τ κ δ) :=
  (V.input t.before t.input).map fun j =>
    ⟨V.state t.before, j, t.events.filterMap V.event, V.state t.after⟩

/-- The run that is seen. -/
def run (ts : List (Transition σ ι ε)) : List (Transition τ κ δ) := ts.filterMap V.transition

@[simp] theorem run_append (ts us : List (Transition σ ι ε)) :
    V.run (ts ++ us) = V.run ts ++ V.run us := List.filterMap_append

variable {V} {ts : List (Transition σ ι ε)} {s : σ}

/-- **What is seen of a run is a run.** -/
theorem Sound.run (h : V.Sound S T) (hr : S.Run ts s) : T.Run (V.run ts) (V.state s) := by
  induction hr with
  | init hi => exact .init (h.init _ hi)
  | @step ts s s' i es _ hs ih =>
    rw [run_append]
    cases hj : V.input s i with
    | none =>
      have hnone : V.run [⟨s, i, es, s'⟩] = [] := by simp [View.run, transition, hj]
      rw [hnone, List.append_nil, (h.hidden hs hj).1]
      exact ih
    | some j =>
      have hone : V.run [⟨s, i, es, s'⟩] =
          [⟨V.state s, j, es.filterMap V.event, V.state s'⟩] := by
        simp [View.run, transition, hj]
      rw [hone]
      exact .step ih (h.seen hs hj)

/-- **What is seen of the events are the events of what is seen.** -/
theorem Sound.events_run (h : V.Sound S T) (hr : S.Run ts s) :
    events (V.run ts) = (events ts).filterMap V.event := by
  induction hr with
  | init => rfl
  | @step ts s s' i es _ hs ih =>
    rw [run_append, events_append, events_append, events_singleton, List.filterMap_append, ih]
    congr 1
    cases hj : V.input s i with
    | none => simp [View.run, transition, hj, (h.hidden hs hj).2]
    | some j => simp [View.run, transition, hj]

end View

end Infra
