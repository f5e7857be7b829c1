import Mathlib.Data.List.Chain

/-!
# Runs of a guarded step function

A system is a predicate for its initial states and a step function: `step s i` is `none` when the
input `i` is not enabled in `s`, and otherwise the next state with the events the step emits.

A run is the list of its transitions, oldest first. Everything a statement about runs needs can be
read off that list: the states passed through, the inputs taken and the events emitted.

* Induction on `Run` is the general invariant rule: the invariant may speak about the transitions so
  far. `Run.invariant` is the rule for a property of states, `Run.forall_event` the one for events.
* `restrict` leaves a system only the steps that meet a condition. By `Run.restrict`, a property of
  the runs whose steps all meet it is a property of the runs of the restriction.
* `exec` replays a list of inputs. `exists_run_of_exec` turns a replay that computes into a run,
  which is how a concrete run is exhibited.
-/

namespace Infra

variable {σ ι ε : Type*}

/-- One step of a run: the state before, the input, the events emitted and the state after. -/
structure Transition (σ ι ε : Type*) where
  before : σ
  input : ι
  events : List ε
  after : σ

/-- A transition system with inputs `ι` and events `ε`. -/
structure System (σ ι ε : Type*) where
  init : σ → Prop
  step : σ → ι → Option (σ × List ε)

/-- The events of a run, oldest first. -/
def events (ts : List (Transition σ ι ε)) : List ε :=
  ts.flatMap Transition.events

@[simp] theorem events_nil : events ([] : List (Transition σ ι ε)) = [] := rfl

@[simp] theorem events_append (ts us : List (Transition σ ι ε)) :
    events (ts ++ us) = events ts ++ events us := by
  simp [events]

@[simp] theorem events_singleton (t : Transition σ ι ε) : events [t] = t.events := by
  simp [events]

theorem mem_events {ts : List (Transition σ ι ε)} {e : ε} :
    e ∈ events ts ↔ ∃ t ∈ ts, e ∈ t.events := List.mem_flatMap

namespace System

variable (S : System σ ι ε)

/-- `Run ts s`: the transitions `ts` lead from an initial state to `s`. -/
inductive Run : List (Transition σ ι ε) → σ → Prop
  | init {s : σ} (h : S.init s) : Run [] s
  | step {ts : List (Transition σ ι ε)} {s s' : σ} {i : ι} {es : List ε} (hr : Run ts s)
      (h : S.step s i = some (s', es)) : Run (ts ++ [⟨s, i, es, s'⟩]) s'

variable {S}

/-- Every transition of a run is a step of the system, taken in a state some run reaches. -/
theorem Run.mem {ts : List (Transition σ ι ε)} {s : σ} (h : S.Run ts s) :
    ∀ t ∈ ts, S.step t.before t.input = some (t.after, t.events) := by
  induction h with
  | init _ => simp
  | step hr hs ih =>
    intro t ht
    rcases List.mem_append.mp ht with ht | ht
    · exact ih t ht
    · rw [List.mem_singleton] at ht
      subst ht
      exact hs

/-- A property of states that every step keeps holds at the end of a run and before each step. -/
theorem Run.invariant {P : σ → Prop} (hinit : ∀ s, S.init s → P s)
    (hstep : ∀ s i s' es, P s → S.step s i = some (s', es) → P s')
    {ts : List (Transition σ ι ε)} {s : σ} (h : S.Run ts s) : P s ∧ ∀ t ∈ ts, P t.before := by
  induction h with
  | init hi => exact ⟨hinit _ hi, by simp⟩
  | step hr hs ih =>
    refine ⟨hstep _ _ _ _ ih.1 hs, ?_⟩
    intro t ht
    rcases List.mem_append.mp ht with ht | ht
    · exact ih.2 t ht
    · rw [List.mem_singleton] at ht
      subst ht
      exact ih.1

/-- A run with a last step is a run up to it and that step. -/
theorem Run.of_concat {ts : List (Transition σ ι ε)} {t : Transition σ ι ε} {s : σ}
    (h : S.Run (ts ++ [t]) s) :
    S.Run ts t.before ∧ S.step t.before t.input = some (t.after, t.events) ∧ s = t.after := by
  generalize hus : ts ++ [t] = us at h
  cases h with
  | init _ => simp at hus
  | step hr hs =>
    obtain ⟨rfl, ht⟩ := List.append_inj' hus rfl
    obtain rfl := (List.cons.inj ht).1
    exact ⟨hr, hs, rfl⟩

variable (S)

/-- The system started in `s₀`: its runs are how the system goes on from there. -/
def startingAt (s₀ : σ) : System σ ι ε where
  init s := s = s₀
  step := S.step

variable {S}

/-- A run and a way it goes on make up a run. -/
theorem Run.append {ts us : List (Transition σ ι ε)} {s₀ s : σ} (h₀ : S.Run ts s₀)
    (h : (S.startingAt s₀).Run us s) : S.Run (ts ++ us) s := by
  induction h with
  | init hi =>
    obtain rfl : _ = s₀ := hi
    rw [List.append_nil]
    exact h₀
  | step _ hs ih =>
    rw [← List.append_assoc]
    exact .step ih hs

/-- The first part of a run is a run, and the second one goes on from its end. -/
theorem Run.of_append {ts us : List (Transition σ ι ε)} {s : σ} (h : S.Run (ts ++ us) s) :
    ∃ s₀, S.Run ts s₀ ∧ (S.startingAt s₀).Run us s := by
  induction us using List.reverseRecOn generalizing s with
  | nil => exact ⟨s, by simpa using h, .init rfl⟩
  | append_singleton us t ih =>
    rw [← List.append_assoc] at h
    obtain ⟨hr, hs, rfl⟩ := h.of_concat
    obtain ⟨s₀, h₀, hus⟩ := ih hr
    exact ⟨s₀, h₀, .step hus hs⟩

/-- A run leads up to each of its steps, and goes on from it. -/
theorem Run.of_append_cons {ts us : List (Transition σ ι ε)} {t : Transition σ ι ε} {s : σ}
    (h : S.Run (ts ++ t :: us) s) :
    S.Run ts t.before ∧ S.step t.before t.input = some (t.after, t.events) ∧
      (S.startingAt t.after).Run us s := by
  rw [← List.singleton_append, ← List.append_assoc] at h
  obtain ⟨s₁, h₁, hus⟩ := h.of_append
  obtain ⟨hr, hs, rfl⟩ := h₁.of_concat
  exact ⟨hr, hs, hus⟩

theorem Run.of_mem {ts : List (Transition σ ι ε)} {s : σ} (h : S.Run ts s) {t : Transition σ ι ε}
    (ht : t ∈ ts) : ∃ ts₁ ts₂, ts = ts₁ ++ t :: ts₂ ∧ S.Run ts₁ t.before ∧
      S.step t.before t.input = some (t.after, t.events) := by
  obtain ⟨ts₁, ts₂, rfl⟩ := List.append_of_mem ht
  exact ⟨ts₁, ts₂, rfl, h.of_append_cons.1, h.of_append_cons.2.1⟩

/-- Each step of a run starts where the one before it ended. -/
theorem Run.isChain {ts : List (Transition σ ι ε)} {s : σ} (h : S.Run ts s) :
    (ts.IsChain fun t u => t.after = u.before) ∧ ∀ t ∈ ts.getLast?, t.after = s := by
  induction h with
  | init _ => exact ⟨List.IsChain.nil, by simp⟩
  | step hr hs ih =>
    refine ⟨ih.1.append (List.IsChain.singleton _) ?_, by simp⟩
    intro t ht u hu
    rw [List.head?_cons, Option.mem_some] at hu
    subst hu
    exact ih.2 t ht

theorem split_append {l l' pre post : List ε} {e : ε} (h : l ++ l' = pre ++ e :: post) :
    (∃ post', l = pre ++ e :: post') ∨ ∃ a, pre = l ++ a ∧ l' = a ++ e :: post := by
  rcases List.append_eq_append_iff.mp h with ⟨a, hpre, hl⟩ | ⟨a, hl, hpost⟩
  · exact Or.inr ⟨a, hpre, hl⟩
  · cases a with
    | nil => exact Or.inr ⟨[], by simpa using hl.symm, by simpa using hpost.symm⟩
    | cons x a =>
      rw [List.cons_append, List.cons.injEq] at hpost
      rw [← hpost.1] at hl
      exact Or.inl ⟨a, hl⟩

/-- A step with one event emits nothing before it. -/
theorem split_singleton {x e : ε} {a b : List ε} (h : [x] = a ++ e :: b) : a = [] ∧ x = e := by
  cases a with
  | nil => exact ⟨rfl, (List.cons.inj h).1⟩
  | cons => simp at h

/--
**The rule for events.** What holds of each event of a step and the events before it holds of each
event of a run and the events before it.
-/
theorem Run.forall_event {P : List ε → ε → Prop}
    (hstep : ∀ ts s i s' es, S.Run ts s → S.step s i = some (s', es) →
      ∀ a e b, es = a ++ e :: b → P (events ts ++ a) e)
    {ts : List (Transition σ ι ε)} {s : σ} (h : S.Run ts s) :
    ∀ pre e post, events ts = pre ++ e :: post → P pre e := by
  induction h with
  | init _ => simp
  | step hr hs ih =>
    intro pre e post he
    rw [events_append, events_singleton] at he
    rcases split_append he with ⟨post', hpre⟩ | ⟨a, rfl, hes⟩
    · exact ih pre e post' hpre
    · exact hstep _ _ _ _ _ hr hs a e post hes

/-- An event is emitted by a step, and a run leads up to that step. -/
theorem Run.of_event {ts : List (Transition σ ι ε)} {s : σ} (h : S.Run ts s) {pre post : List ε}
    {e : ε} (he : events ts = pre ++ e :: post) :
    ∃ ts₁ t ts₂ a b, ts = ts₁ ++ t :: ts₂ ∧ S.Run ts₁ t.before ∧
      S.step t.before t.input = some (t.after, t.events) ∧ t.events = a ++ e :: b ∧
      pre = events ts₁ ++ a := by
  induction h generalizing post with
  | init _ => simp at he
  | step hr hs ih =>
    rw [events_append, events_singleton] at he
    rcases split_append he with ⟨post', hpre⟩ | ⟨a, hpre, hes⟩
    · obtain ⟨ts₁, t, ts₂, a, b, rfl, hrest⟩ := ih hpre
      exact ⟨ts₁, t, ts₂ ++ [_], a, b, List.append_assoc .., hrest⟩
    · exact ⟨_, _, [], a, post, rfl, hr, hs, hes, hpre⟩

/-! ## Runs whose steps all meet a condition -/

variable (S)

/-- The system with the steps that meet `p` only. -/
def restrict (p : σ → ι → Bool) : System σ ι ε where
  init := S.init
  step s i := if p s i then S.step s i else none

variable {S} {p : σ → ι → Bool}

theorem restrict_step {s : σ} {i : ι} {r : σ × List ε} :
    (S.restrict p).step s i = some r ↔ p s i = true ∧ S.step s i = some r := by
  simp only [restrict]
  split <;> simp_all

/-- **The rule for conditional properties.** -/
theorem Run.restrict {ts : List (Transition σ ι ε)} {s : σ} (h : S.Run ts s)
    (hp : ∀ t ∈ ts, p t.before t.input = true) : (S.restrict p).Run ts s := by
  induction h with
  | init hi => exact .init hi
  | step hr hs ih =>
    simp only [List.forall_mem_append, List.forall_mem_singleton] at hp
    exact .step (ih hp.1) (restrict_step.mpr ⟨hp.2, hs⟩)

/-! ## Replay -/

variable (S)

/-- Replay a list of inputs from `s`, keeping the transitions already made. -/
def exec : List (Transition σ ι ε) → σ → List ι → Option (List (Transition σ ι ε) × σ)
  | ts, s, [] => some (ts, s)
  | ts, s, i :: is =>
    match S.step s i with
    | none => none
    | some (s', es) => exec (ts ++ [⟨s, i, es, s'⟩]) s' is

variable {S}

theorem run_of_exec : ∀ (is : List ι) {ts ts' : List (Transition σ ι ε)} {s s' : σ},
    S.Run ts s → S.exec ts s is = some (ts', s') →
    S.Run ts' s' ∧ ts'.map Transition.input = ts.map Transition.input ++ is
  | [], ts, ts', s, s', hr, h => by
    simp only [exec, Option.some.injEq, Prod.mk.injEq] at h
    obtain ⟨rfl, rfl⟩ := h
    exact ⟨hr, by simp⟩
  | i :: is, ts, ts', s, s', hr, h => by
    rw [exec] at h
    split at h
    · cases h
    · next s₁ es hs =>
      obtain ⟨hr', hi⟩ := run_of_exec is (Run.step hr hs) h
      exact ⟨hr', by simpa using hi⟩

/-- A replay that computes is a run on its inputs, and has what `P` asks for if a look says so. -/
theorem exists_run_of_exec (s : σ) (is : List ι) (P : List (Transition σ ι ε) → σ → Prop)
    [∀ ts s, Decidable (P ts s)] (hi : S.init s)
    (h : (S.exec [] s is).any (fun r => decide (P r.1 r.2)) = true) :
    ∃ ts s', S.Run ts s' ∧ ts.map Transition.input = is ∧ P ts s' := by
  cases he : S.exec [] s is with
  | none => rw [he] at h; simp at h
  | some r =>
    rw [he] at h
    obtain ⟨hr, his⟩ := run_of_exec is (Run.init hi) he
    exact ⟨r.1, r.2, hr, by simpa using his, by simpa using h⟩

end System

end Infra
