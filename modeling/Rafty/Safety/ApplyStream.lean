import Rafty.Kv.ApplyStream

/-!
# The stream is complete

`stream_complete`: whatever the two threads of `KvNodeWrapper::Apply` do in turn,

* the stream holds the results that were handed to `on_apply`, in their order, each at most once,
  and all of them when `Apply` returns;
* the second thread is never left in its wait with results in the buffer, unless the notification is
  just about to come;
* once the handler waits for the second thread to end, that thread ends by itself, after a number of
  steps that is bounded by what is left to write, and without relying on spurious wake-ups.
-/

namespace Rafty

open Infra MonitorThread

/-- The results that were handed to `on_apply`. -/
def appliedIn (es : List StreamEvent) : List ApplyResult :=
  es.filterMap fun
    | .applied result => some result
    | .written _ => none

/-- What was written to the stream. -/
def writtenIn (es : List StreamEvent) : List StreamResult :=
  es.filterMap fun
    | .applied _ => none
    | .written result => some result

@[simp] theorem appliedIn_append (es es' : List StreamEvent) :
    appliedIn (es ++ es') = appliedIn es ++ appliedIn es' := List.filterMap_append

@[simp] theorem writtenIn_append (es es' : List StreamEvent) :
    writtenIn (es ++ es') = writtenIn es ++ writtenIn es' := List.filterMap_append

@[simp] theorem appliedIn_nil : appliedIn [] = [] := rfl

@[simp] theorem writtenIn_nil : writtenIn [] = [] := rfl

/-- The copy that the handler has still to push. -/
def ApplyThread.inHand (id : NodeId) : ApplyThread → List StreamResult
  | .pushing result => [result.streamed id]
  | _ => []

/-- The handler has set `write_stopped`. -/
def ApplyThread.hasStopped : ApplyThread → Bool
  | .notifyingStop | .joining | .returned => true
  | _ => false

/-- The handler has no copy in hand, no notification to give and has not stopped. -/
def ApplyThread.isQuiet : ApplyThread → Bool
  | .loopTop | .dequeuing | .received _ | .applying _ | .stopping => true
  | _ => false

theorem ApplyThread.quiet {main : ApplyThread} (id : NodeId) (h : main.isQuiet = true) :
    main.inHand id = [] ∧ main.hasStopped = false ∧ main ≠ .notifying ∧ main ≠ .notifyingStop := by
  cases main with
  | loopTop | dequeuing | received | applying | stopping => exact ⟨rfl, rfl, nofun, nofun⟩
  | pushing | notifying | notifyingStop | joining | returned => cases h

/-- What is left of `local`. -/
def writerTodo : MonitorThread WriterPc Unit → List StreamResult
  | .running (.writing todo) => todo
  | _ => []

@[simp] theorem writerTodo_notified (writer : MonitorThread WriterPc Unit) (on : Unit → Bool) :
    writerTodo (writer.notified on) = writerTodo writer := by
  cases writer with
  | blocked wait =>
    rw [MonitorThread.notified]
    split <;> rfl
  | running pc => rfl
  | woken wait => rfl

/-- What holds after the events `es`. -/
structure ApplyStream.Flows (id : NodeId) (es : List StreamEvent) (s : ApplyStream) : Prop where
  /-- Nothing is lost, doubled or out of order between `on_apply` and the stream. -/
  content : (appliedIn es).map (ApplyResult.streamed id) =
    writtenIn es ++ writerTodo s.writer ++ s.writeBuf ++ s.main.inHand id
  stopped : s.writeStopped = s.main.hasStopped
  exited : s.writer = .running .exited → s.writeBuf = [] ∧ s.writeStopped = true
  /-- Who is in the wait has nothing to do, or is about to be notified. -/
  blocked : s.writer = .blocked () → s.main = .notifying ∨ s.main = .notifyingStop ∨
    s.writeBuf = [] ∧ s.writeStopped = false
  returned : s.main = .returned → s.writer = .running .exited

namespace ApplyStream

variable {id : NodeId} {es evs : List StreamEvent} {s s' : ApplyStream} {action : StreamAction}

theorem notified_ne_blocked (s : ApplyStream) : s.notified.writer ≠ .blocked () := by
  intro h
  have hb := (notified_eq_blocked.mp h).2
  cases hb

/-- The things a step can do. -/
inductive Move (id : NodeId) (s : ApplyStream) :
    StreamAction → ApplyStream → List StreamEvent → Prop
  | kill : Move id s .kill { s with dead := true } []
  | goOn {action : StreamAction} {main : ApplyThread} (h : s.main.isQuiet = true)
      (h' : main.isQuiet = true) : Move id s action { s with main := main } []
  | onApply {result : ApplyResult} (h : s.main = .applying result) :
      Move id s .onApply { s with main := .pushing result } [.applied result]
  | push {result : ApplyResult} (h : s.main = .pushing result) :
      Move id s .push
        { s with main := .notifying, writeBuf := s.writeBuf ++ [result.streamed id] } []
  | notify (h : s.main = .notifying) : Move id s .notify { s.notified with main := .loopTop } []
  | stop (h : s.main = .stopping) :
      Move id s .stop { s with main := .notifyingStop, writeStopped := true } []
  | notifyStop (h : s.main = .notifyingStop) :
      Move id s .notifyStop { s.notified with main := .joining } []
  | join (h : s.main = .joining) (hw : s.writer = .running .exited) :
      Move id s .join { s with main := .returned } []
  | check (hw : s.writer = .running (.writing []) ∨ s.writer = .woken ()) :
      Move id s .check s.check []
  | write {result : StreamResult} {todo : List StreamResult}
      (hw : s.writer = .running (.writing (result :: todo))) :
      Move id s .write { s with writer := .running (.writing todo) } [.written result]
  | wakeUp (hw : s.writer = .blocked ()) : Move id s .wakeUp { s with writer := .woken () } []

theorem move_of_mainStep (h : s.mainStep id action = some (s', evs)) :
    Move id s action s' evs := by
  cases action with
  | loopTop =>
    cases hm : s.main with
    | loopTop =>
      simp only [mainStep, hm, Option.some.injEq, Prod.mk.injEq] at h
      obtain ⟨rfl, rfl⟩ := h
      exact .goOn (by rw [hm]; rfl) (by split <;> rfl)
    | _ => simp [mainStep, hm] at h
  | dequeue result =>
    cases hm : s.main with
    | dequeuing =>
      simp only [mainStep, hm, Option.some.injEq, Prod.mk.injEq] at h
      obtain ⟨rfl, rfl⟩ := h
      exact .goOn (by rw [hm]; rfl) rfl
    | _ => simp [mainStep, hm] at h
  | recheck =>
    cases hm : s.main with
    | received result =>
      simp only [mainStep, hm, Option.some.injEq, Prod.mk.injEq] at h
      obtain ⟨rfl, rfl⟩ := h
      refine .goOn (by rw [hm]; rfl) ?_
      split
      · rfl
      · split <;> rfl
    | _ => simp [mainStep, hm] at h
  | onApply =>
    cases hm : s.main with
    | applying result =>
      simp only [mainStep, hm, Option.some.injEq, Prod.mk.injEq] at h
      obtain ⟨rfl, rfl⟩ := h
      exact .onApply hm
    | _ => simp [mainStep, hm] at h
  | push =>
    cases hm : s.main with
    | pushing result =>
      simp only [mainStep, hm, Option.some.injEq, Prod.mk.injEq] at h
      obtain ⟨rfl, rfl⟩ := h
      exact .push hm
    | _ => simp [mainStep, hm] at h
  | notify =>
    cases hm : s.main with
    | notifying =>
      simp only [mainStep, hm, Option.some.injEq, Prod.mk.injEq] at h
      obtain ⟨rfl, rfl⟩ := h
      exact .notify hm
    | _ => simp [mainStep, hm] at h
  | stop =>
    cases hm : s.main with
    | stopping =>
      simp only [mainStep, hm, Option.some.injEq, Prod.mk.injEq] at h
      obtain ⟨rfl, rfl⟩ := h
      exact .stop hm
    | _ => simp [mainStep, hm] at h
  | notifyStop =>
    cases hm : s.main with
    | notifyingStop =>
      simp only [mainStep, hm, Option.some.injEq, Prod.mk.injEq] at h
      obtain ⟨rfl, rfl⟩ := h
      exact .notifyStop hm
    | _ => simp [mainStep, hm] at h
  | join =>
    cases hm : s.main with
    | joining =>
      simp only [mainStep, hm, Option.ite_none_right_eq_some, Option.some.injEq,
        Prod.mk.injEq] at h
      obtain ⟨hw, rfl, rfl⟩ := h
      exact .join hm hw
    | _ => simp [mainStep, hm] at h
  | kill | check | write | wakeUp => simp [mainStep] at h

/-- **Inversion of a step.** -/
theorem move_of_step (h : (applyStreamSystem id).step s action = some (s', evs)) :
    Move id s action s' evs := by
  have h' : s.step id action = some (s', evs) := h
  unfold step at h'
  cases action with
  | kill =>
    obtain ⟨rfl, rfl⟩ := Prod.mk.inj (Option.some.inj h')
    exact .kill
  | check =>
    dsimp only at h'
    split at h'
    · next hw =>
      obtain ⟨rfl, rfl⟩ := Prod.mk.inj (Option.some.inj h')
      exact .check (Or.inl hw)
    · next hw =>
      obtain ⟨rfl, rfl⟩ := Prod.mk.inj (Option.some.inj h')
      exact .check (Or.inr hw)
    · cases h'
  | write =>
    dsimp only at h'
    split at h'
    · next hw =>
      obtain ⟨rfl, rfl⟩ := Prod.mk.inj (Option.some.inj h')
      exact .write hw
    · cases h'
  | wakeUp =>
    dsimp only at h'
    split at h'
    · next hw =>
      obtain ⟨rfl, rfl⟩ := Prod.mk.inj (Option.some.inj h')
      exact .wakeUp hw
    · cases h'
  | _ => exact move_of_mainStep h'

/-- **The step lemma.** -/
theorem Flows.step (h : s.Flows id es) (hm : Move id s action s' evs) :
    s'.Flows id (es ++ evs) := by
  have hcontent := h.content
  have hstopped := h.stopped
  cases hm with
  | kill =>
    rw [List.append_nil]
    exact ⟨hcontent, hstopped, h.exited, h.blocked, h.returned⟩
  | @goOn _ main hq hq' =>
    obtain ⟨hhand, hrun, hnot, hnot'⟩ := ApplyThread.quiet id hq
    obtain ⟨hhand', hrun', -, -⟩ := ApplyThread.quiet id hq'
    rw [List.append_nil]
    refine ⟨?_, ?_, h.exited, ?_, ?_⟩
    · rw [hhand']
      rwa [hhand] at hcontent
    · rw [hrun']
      rwa [hrun] at hstopped
    · intro hb
      exact Or.inr (Or.inr (((h.blocked hb).resolve_left hnot).resolve_left hnot'))
    · rintro rfl
      cases hq'
  | @onApply result hmain =>
    rw [hmain] at hcontent hstopped
    refine ⟨?_, hstopped, h.exited, ?_, nofun⟩
    · rw [appliedIn_append, List.map_append, hcontent, writtenIn_append]
      simp [appliedIn, writtenIn, ApplyThread.inHand]
    · intro hb
      have hold := h.blocked hb
      simp only [hmain, reduceCtorEq, false_or] at hold
      exact Or.inr (Or.inr hold)
  | @push result hmain =>
    rw [hmain] at hcontent hstopped
    rw [List.append_nil]
    refine ⟨?_, hstopped, ?_, fun _ => Or.inl rfl, nofun⟩
    · rw [hcontent]
      simp [ApplyThread.inHand]
    · intro hw
      have hstop := (h.exited hw).2
      rw [hstopped] at hstop
      cases hstop
  | notify hmain =>
    rw [hmain] at hcontent hstopped
    rw [List.append_nil]
    refine ⟨?_, hstopped, ?_, fun hb => absurd hb s.notified_ne_blocked, nofun⟩
    · rw [hcontent]
      simp [notified, ApplyThread.inHand]
    · intro hw
      exact h.exited (notified_eq_running.mp hw)
  | stop hmain =>
    rw [hmain] at hcontent
    rw [List.append_nil]
    refine ⟨hcontent, rfl, ?_, fun _ => Or.inr (Or.inl rfl), nofun⟩
    intro hw
    exact ⟨(h.exited hw).1, rfl⟩
  | notifyStop hmain =>
    rw [hmain] at hcontent hstopped
    rw [List.append_nil]
    refine ⟨?_, hstopped, ?_, fun hb => absurd hb s.notified_ne_blocked, nofun⟩
    · rw [hcontent]
      simp [notified, ApplyThread.inHand]
    · intro hw
      exact h.exited (notified_eq_running.mp hw)
  | join hmain hw =>
    rw [hmain] at hcontent hstopped
    rw [List.append_nil]
    refine ⟨hcontent, hstopped, h.exited, ?_, fun _ => hw⟩
    intro hb
    cases hw.symm.trans hb
  | check hw =>
    have htodo : writerTodo s.writer = [] := by
      rcases hw with hw | hw <;> rw [hw] <;> rfl
    have hnot : s.main ≠ .returned := by
      intro hmain
      rcases hw with hw | hw <;> cases hw.symm.trans (h.returned hmain)
    rw [htodo, List.append_nil] at hcontent
    rw [List.append_nil]
    unfold ApplyStream.check
    split
    · next hwait =>
      exact ⟨by simpa [writerTodo] using hcontent, hstopped, nofun,
        fun _ => Or.inr (Or.inr hwait), fun hmain => absurd hmain hnot⟩
    · split
      · next hexit =>
        exact ⟨by simpa [writerTodo] using hcontent, hstopped, fun _ => hexit, nofun,
          fun _ => rfl⟩
      · exact ⟨by simpa [writerTodo] using hcontent, hstopped, nofun, nofun,
          fun hmain => absurd hmain hnot⟩
  | @write result todo hw =>
    rw [hw] at hcontent
    refine ⟨?_, hstopped, nofun, nofun, ?_⟩
    · rw [appliedIn_append, List.map_append, hcontent, writtenIn_append]
      simp [appliedIn, writtenIn, writerTodo]
    · intro hmain
      cases hw.symm.trans (h.returned hmain)
  | wakeUp hw =>
    rw [hw] at hcontent
    rw [List.append_nil]
    refine ⟨hcontent, hstopped, nofun, nofun, ?_⟩
    intro hmain
    cases hw.symm.trans (h.returned hmain)

end ApplyStream

theorem flows_of_run {id : NodeId} {ts : List (Transition ApplyStream StreamAction StreamEvent)}
    {s : ApplyStream} (h : (applyStreamSystem id).Run ts s) : s.Flows id (events ts) := by
  induction h with
  | init hi =>
    obtain rfl := hi
    exact ⟨rfl, rfl, nofun, nofun, nofun⟩
  | step _ hs ih =>
    rw [events_append, events_singleton]
    exact ih.step (ApplyStream.move_of_step hs)

/-! ## The end of `Apply` -/

section Join

variable {id : NodeId} {ts : List (Transition ApplyStream StreamAction StreamEvent)}
  {s : ApplyStream}

/-- What the second thread has still to do: a result in the buffer is swapped out and written. -/
def ApplyStream.rank (s : ApplyStream) : Nat :=
  (writerTodo s.writer).length + 2 * s.writeBuf.length

/-- A step of the second thread, or the end of `join`. -/
def StreamAction.isFinal : StreamAction → Bool
  | .check | .write | .join => true
  | _ => false

/-- `Apply` returns after steps that nobody else has to take part in. -/
def Returns (id : NodeId) (ts : List (Transition ApplyStream StreamAction StreamEvent))
    (bound : Nat) : Prop :=
  ∃ us s', (applyStreamSystem id).Run (ts ++ us) s' ∧ s'.main = .returned ∧
    (∀ u ∈ us, u.input.isFinal = true) ∧ us.length ≤ bound

theorem Returns.cons {t : Transition ApplyStream StreamAction StreamEvent} {bound bound' : Nat}
    (h : Returns id (ts ++ [t]) bound) (ht : t.input.isFinal = true) (hle : bound < bound') :
    Returns id ts bound' := by
  obtain ⟨us, s', hr, hmain, hall, hlen⟩ := h
  refine ⟨t :: us, s', ?_, hmain, ?_, ?_⟩
  · rw [List.append_assoc] at hr
    exact hr
  · rw [List.forall_mem_cons]
    exact ⟨ht, hall⟩
  · rw [List.length_cons]
    omega

/-- The second thread has exited: `join` returns. -/
theorem returns_of_exited (h : (applyStreamSystem id).Run ts s) (hj : s.main = .joining)
    (hw : s.writer = .running .exited) : Returns id ts 1 := by
  have hs : (applyStreamSystem id).step s .join = some ({ s with main := .returned }, []) := by
    show ApplyStream.step id s .join = _
    simp [ApplyStream.step, ApplyStream.mainStep, hj, hw]
  exact ⟨[_], _, .step h hs, rfl, by simp [StreamAction.isFinal], by simp⟩

/-- The second thread looks at its predicate, which is true since `write_stopped` is set. -/
theorem check_of_stopped (hs : s.writeStopped = true) :
    s.writeBuf = [] ∧ s.check = { s with writer := .running .exited } ∨
    s.writeBuf ≠ [] ∧
      s.check = { s with writer := .running (.writing s.writeBuf), writeBuf := [] } := by
  unfold ApplyStream.check
  by_cases hb : s.writeBuf = []
  · exact Or.inl ⟨hb, by simp [hb, hs]⟩
  · exact Or.inr ⟨hb, by simp [hb]⟩

/-- **Once the handler is at its `join`, it returns.** The induction is on what is left to do. -/
theorem returns_of_joining : ∀ {bound : Nat}
    {ts : List (Transition ApplyStream StreamAction StreamEvent)} {s : ApplyStream},
    (applyStreamSystem id).Run ts s → s.main = .joining → s.rank = bound →
    Returns id ts (bound + 2) := by
  intro bound
  induction bound using Nat.strong_induction_on with
  | _ bound ih =>
    intro ts s h hj hrank
    have hflows := flows_of_run h
    have hstopped : s.writeStopped = true := by
      rw [hflows.stopped, hj]
      rfl
    -- from its wait or the head of its loop, the thread takes the buffer or exits
    have hcheck : writerTodo s.writer = [] →
        (applyStreamSystem id).step s .check = some (s.check, []) → Returns id ts (bound + 2) := by
      intro htodo hs
      rcases check_of_stopped hstopped with ⟨-, he⟩ | ⟨hne, he⟩
      · rw [he] at hs
        exact (returns_of_exited (.step h hs) hj rfl).cons rfl (by omega)
      · rw [he] at hs
        have hpos := List.length_pos_of_ne_nil hne
        have hless : s.writeBuf.length < bound := by
          rw [← hrank, ApplyStream.rank]
          omega
        exact (ih _ hless (.step h hs) hj rfl).cons rfl (by omega)
    cases hw : s.writer with
    | running pc =>
      cases pc with
      | exited =>
        obtain ⟨us, s', hrest⟩ := returns_of_exited h hj hw
        exact ⟨us, s', hrest.1, hrest.2.1, hrest.2.2.1, by omega⟩
      | writing todo =>
        cases todo with
        | nil => exact hcheck (by rw [hw]; rfl) (by
            show ApplyStream.step id s .check = _
            simp [ApplyStream.step, hw])
        | cons result todo =>
          have hs : (applyStreamSystem id).step s .write =
              some ({ s with writer := .running (.writing todo) }, [.written result]) := by
            show ApplyStream.step id s .write = _
            simp [ApplyStream.step, hw]
          have hless : todo.length + 2 * s.writeBuf.length < bound := by
            rw [← hrank, ApplyStream.rank, hw]
            simp [writerTodo]
          exact (ih _ hless (.step h hs) hj rfl).cons rfl (by omega)
    | blocked wait =>
      have hb := hflows.blocked hw
      simp [hj, hstopped] at hb
    | woken wait =>
      exact hcheck (by rw [hw]; rfl) (by
        show ApplyStream.step id s .check = _
        simp [ApplyStream.step, hw])

/--
**The stream is complete**, in every run of `Apply` at node `id`. What has been written is the
beginning of what was handed to `on_apply`, and all of it when `Apply` has returned. The second
thread is not left in its wait while there is something in the buffer and no notification to come.
And once the handler is at its `join`, the second thread alone can bring it to its return, in a
number of steps bounded by what is left to write.
-/
theorem stream_complete (h : (applyStreamSystem id).Run ts s) :
    writtenIn (events ts) <+: (appliedIn (events ts)).map (ApplyResult.streamed id) ∧
    (s.main = .returned →
      writtenIn (events ts) = (appliedIn (events ts)).map (ApplyResult.streamed id)) ∧
    (s.writer = .blocked () → s.writeBuf ≠ [] → s.main = .notifying ∨ s.main = .notifyingStop) ∧
    (s.main = .joining → ∃ us s', (applyStreamSystem id).Run (ts ++ us) s' ∧
      s'.main = .returned ∧ (∀ u ∈ us, u.input.isFinal = true) ∧
      us.length ≤ (writerTodo s.writer).length + 2 * s.writeBuf.length + 2) := by
  have hflows := flows_of_run h
  refine ⟨?_, ?_, ?_, ?_⟩
  · rw [hflows.content, List.append_assoc, List.append_assoc]
    exact List.prefix_append _ _
  · intro hmain
    have hw := hflows.returned hmain
    rw [hflows.content, hw, (hflows.exited hw).1, hmain]
    simp [writerTodo, ApplyThread.inHand]
  · intro hb hne
    rcases hflows.blocked hb with hm | hm | ⟨hnil, -⟩
    · exact Or.inl hm
    · exact Or.inr hm
    · exact absurd hnil hne
  · intro hj
    exact returns_of_joining h hj rfl

end Join

/-- One result goes to `on_apply` while the second thread is in its wait; then the node dies. -/
def oneStreamed : List StreamAction :=
  [.check, .loopTop, .dequeue ⟨true, [120], 1⟩, .recheck, .onApply, .push, .kill, .notify, .loopTop,
    .stop, .notifyStop]

theorem stream_complete_oneStreamed : ∃ ts s us s', (applyStreamSystem 0).Run ts s ∧
    ts.map Transition.input = oneStreamed ∧ s.main = .joining ∧ writtenIn (events ts) = [] ∧
    (applyStreamSystem 0).Run (ts ++ us) s' ∧ s'.main = .returned ∧ us.length ≤ 4 := by
  obtain ⟨ts, s, hr, hi, hmain, hw, hwriter, hbuf⟩ := System.exists_run_of_exec
    (S := applyStreamSystem 0) .init oneStreamed
    (fun ts s => s.main = .joining ∧ writtenIn (events ts) = [] ∧ s.writer = .woken () ∧
      s.writeBuf = [⟨true, [120], 1, 0⟩]) rfl (by decide)
  obtain ⟨us, s', hr', hmain', -, hlen⟩ := (stream_complete hr).2.2.2 hmain
  rw [hwriter, hbuf] at hlen
  exact ⟨ts, s, us, s', hr, hi, hmain, hw, hr', hmain', hlen⟩

end Rafty
