import Rafty.Properties.MessageQueue

/-!
# `MessageQueue` is a bounded queue with a rendezvous

* `fifo_of_run` — what was removed, followed by what is in the queue, is what was pushed.
* `queueInv_of_run` bounds the queue: an unbuffered one holds at most the one value that is being
  handed over.
* `handedOver_of_run` — on an unbuffered queue `enqueue` returns once its own value has been
  removed. Which value that is can be told by its place in the order: no thread does anything
  between its push and the return of the call, and the queue is empty when the call returns.
* `doing_of_run` — what one call does: `enqueue(v)` pushes `v`, and `dequeue` and `try_dequeue`
  return the value they remove.

`message_queue_order` puts the four together.
-/

namespace Rafty

open Infra

variable {α : Type} {bufferSize : Nat}

/-- The thread that did it. -/
def QueueEvent.thread : QueueEvent α → Nat
  | pushed i _ | removed i _ | enqueueReturned i | dequeueReturned i _ | tryDequeueReturned i _ => i

/-- The values pushed, in order. -/
def pushes (es : List (QueueEvent α)) : List α :=
  es.filterMap fun | .pushed _ value => some value | _ => none

/-- The values removed, in order. -/
def removals (es : List (QueueEvent α)) : List α :=
  es.filterMap fun | .removed _ value => some value | _ => none

@[simp] theorem pushes_append (es es' : List (QueueEvent α)) :
    pushes (es ++ es') = pushes es ++ pushes es' := List.filterMap_append

@[simp] theorem removals_append (es es' : List (QueueEvent α)) :
    removals (es ++ es') = removals es ++ removals es' := List.filterMap_append

/-- A thread between its push and the end of its `enqueue`, on an unbuffered queue. -/
def offering : QueueThread α → Bool
  | .running (.checking .taken) | .blocked .taken | .woken .taken => true
  | _ => false

theorem offering_notified (on : QueueWait α → Bool) (thread : QueueThread α) :
    offering (thread.notified on) = offering thread := by
  cases thread with
  | blocked wait =>
    rw [MonitorThread.notified]
    split
    · cases wait <;> rfl
    · rfl
  | _ => rfl

theorem offering_of_nextCheck {thread : QueueThread α} (h : nextCheck thread = some .taken) :
    offering thread = true := by
  unfold nextCheck at h
  split at h
  · cases h
  · cases h
  · cases h
    rfl
  · cases h

/-- The last thing thread `i` did is to push. -/
def Offered (es : List (QueueEvent α)) (i : Nat) : Prop :=
  ∃ before value between, es = before ++ .pushed i value :: between ∧
    ∀ e ∈ between, e.thread ≠ i

/-- The last thing thread `i` did is to push, and the value it pushed has been removed. -/
def HandedOver (es : List (QueueEvent α)) (i : Nat) : Prop :=
  ∃ before value between, es = before ++ .pushed i value :: between ∧
    (∀ e ∈ between, e.thread ≠ i) ∧ (removals es)[(pushes before).length]? = some value

theorem Offered.append {es es' : List (QueueEvent α)} {i : Nat} (h : Offered es i)
    (h' : ∀ e ∈ es', e.thread ≠ i) : Offered (es ++ es') i := by
  obtain ⟨before, value, between, rfl, hbetween⟩ := h
  refine ⟨before, value, between ++ es', by simp, fun e he => ?_⟩
  exact (List.mem_append.mp he).elim (hbetween e) (h' e)

/-- A value that was pushed has been removed once everything has. -/
theorem Offered.handedOver {es : List (QueueEvent α)} {i : Nat} (h : Offered es i)
    (hall : removals es = pushes es) : HandedOver es i := by
  obtain ⟨before, value, between, rfl, hbetween⟩ := h
  refine ⟨before, value, between, rfl, hbetween, ?_⟩
  rw [hall, pushes_append]
  simp [pushes]

/-! ## One call -/

/-- What thread `i` did. -/
def eventsOf (i : Nat) (es : List (QueueEvent α)) : List (QueueEvent α) :=
  es.filter fun e => e.thread = i

theorem eventsOf_append (i : Nat) (es es' : List (QueueEvent α)) :
    eventsOf i (es ++ es') = eventsOf i es ++ eventsOf i es' := List.filter_append ..

theorem eventsOf_eq_self {i : Nat} {es : List (QueueEvent α)} (h : ∀ e ∈ es, e.thread = i) :
    eventsOf i es = es := List.filter_eq_self.mpr fun e he => decide_eq_true (h e he)

theorem eventsOf_eq_nil {i : Nat} {es : List (QueueEvent α)} (h : ∀ e ∈ es, e.thread ≠ i) :
    eventsOf i es = [] := List.filter_eq_nil_iff.mpr fun e he => by simpa using h e he

/-- What a call of thread `i` does, up to its return, on a queue that is not closed. -/
inductive QueueCall.Does (i : Nat) : QueueCall α → List (QueueEvent α) → Prop
  | enqueue (value : α) : Does i (.enqueue value) [.pushed i value, .enqueueReturned i]
  | dequeue (value : α) : Does i .dequeue [.removed i value, .dequeueReturned i value]
  | tryDequeue (value : α) :
      Does i .tryDequeue [.removed i value, .tryDequeueReturned i (some value)]
  | foundEmpty : Does i .tryDequeue [.tryDequeueReturned i none]

/-- The wait a thread is in, or has just passed. -/
def waitOf : QueueThread α → Option (QueueWait α)
  | .running (.checking wait) | .running (.passed wait) | .blocked wait | .woken wait => some wait
  | _ => none

theorem waitOf_notified (on : QueueWait α → Bool) (thread : QueueThread α) :
    waitOf (thread.notified on) = waitOf thread := by
  cases thread with
  | blocked wait =>
    rw [MonitorThread.notified]
    split <;> rfl
  | _ => rfl

/-- What thread `i` has done of the call when it is at a certain place of it. -/
inductive QueueCall.Doing (i : Nat) :
    QueueCall α → QueueThread α → List (QueueEvent α) → Prop
  | begun (call : QueueCall α) : Doing i call (.running (.called call)) []
  | room {thread : QueueThread α} {value : α} (h : waitOf thread = some (.room value)) :
      Doing i (.enqueue value) thread []
  | taken {thread : QueueThread α} (value : α) (h : waitOf thread = some .taken) :
      Doing i (.enqueue value) thread [.pushed i value]
  | item {thread : QueueThread α} (h : waitOf thread = some .item) : Doing i .dequeue thread []
  | returned {call : QueueCall α} {es : List (QueueEvent α)} (h : call.Does i es) :
      Doing i call (.running .idle) es

namespace QueueCall.Doing

variable {i : Nat} {call : QueueCall α} {thread : QueueThread α} {es : List (QueueEvent α)}

theorem notified (h : call.Doing i thread es) (on : QueueWait α → Bool) :
    call.Doing i (thread.notified on) es := by
  cases h with
  | begun => exact .begun call
  | room h => exact .room ((waitOf_notified on thread).trans h)
  | taken value h => exact .taken value ((waitOf_notified on thread).trans h)
  | item h => exact .item ((waitOf_notified on thread).trans h)
  | returned h => exact .returned h

theorem of_called {call' : QueueCall α} (h : call.Doing i (.running (.called call')) es) :
    call' = call ∧ es = [] := by
  cases h with
  | begun => exact ⟨rfl, rfl⟩
  | room h | taken _ h | item h => cases h

theorem of_room {value : α} (h : call.Doing i thread es)
    (hw : waitOf thread = some (.room value)) : call = .enqueue value ∧ es = [] := by
  cases h with
  | begun | returned => cases hw
  | room h =>
    cases hw.symm.trans h
    exact ⟨rfl, rfl⟩
  | taken _ h | item h => cases hw.symm.trans h

theorem of_taken (h : call.Doing i thread es) (hw : waitOf thread = some .taken) :
    ∃ value, call = .enqueue value ∧ es = [.pushed i value] := by
  cases h with
  | begun | returned => cases hw
  | taken value => exact ⟨value, rfl, rfl⟩
  | room h | item h => cases hw.symm.trans h

theorem of_item (h : call.Doing i thread es) (hw : waitOf thread = some .item) :
    call = .dequeue ∧ es = [] := by
  cases h with
  | begun | returned => cases hw
  | item => exact ⟨rfl, rfl⟩
  | room h | taken _ h => cases hw.symm.trans h

/-- A thread that stays at its wait. -/
theorem stay {thread' : QueueThread α} {wait : QueueWait α} (h : call.Doing i thread es)
    (hw : waitOf thread = some wait) (hw' : waitOf thread' = some wait) :
    call.Doing i thread' es := by
  cases h with
  | begun | returned => cases hw
  | room h => exact .room (hw'.trans (hw.symm.trans h))
  | taken value h => exact .taken value (hw'.trans (hw.symm.trans h))
  | item h => exact .item (hw'.trans (hw.symm.trans h))

/-- What is done so far is the beginning of what the call does, and all of it at the return. -/
theorem exists_does [Inhabited α] (h : call.Doing i thread es) :
    ∃ all, call.Does i all ∧ es <+: all ∧ (thread = .running .idle → es = all) := by
  cases h with
  | begun =>
    cases call with
    | enqueue value => exact ⟨_, .enqueue value, List.nil_prefix, by simp⟩
    | dequeue => exact ⟨_, .dequeue default, List.nil_prefix, by simp⟩
    | tryDequeue => exact ⟨_, .foundEmpty, List.nil_prefix, by simp⟩
  | @room _ value h =>
    exact ⟨_, .enqueue value, List.nil_prefix, by rintro rfl; cases h⟩
  | taken value h =>
    exact ⟨_, .enqueue value, ⟨[.enqueueReturned i], rfl⟩, by rintro rfl; cases h⟩
  | item h => exact ⟨_, .dequeue default, List.nil_prefix, by rintro rfl; cases h⟩
  | returned h => exact ⟨es, h, List.prefix_rfl, fun _ => rfl⟩

end QueueCall.Doing

namespace MessageQueue

variable [Inhabited α] {s s' : MessageQueue α} {i : Nat} {action : QueueAction α}
  {es : List (QueueEvent α)}

/-! ## One step -/

theorem Move.fifo (h : Move bufferSize s i action s' es) :
    removals es ++ s'.queue = s.queue ++ pushes es := by
  cases h with
  | tookOut _ _ hq | pop _ _ hq => simp [removals, pushes, hq]
  | push | hand => simp [removals, pushes]
  | _ => simp [removals, pushes]

theorem Move.thread_eq (h : Move bufferSize s i action s' es) : ∀ e ∈ es, e.thread = i := by
  cases h <;> simp [QueueEvent.thread]

/-- A closed queue stays closed. -/
theorem Move.closed_mono (h : Move bufferSize s i action s' es) (hc : s'.closed = false) :
    s.closed = false := by
  cases h with
  | close => cases hc
  | _ => exact hc

/-- Whoever offers a value has just pushed it, or was already offering it and is silent. -/
theorem Move.offering (h : Move bufferSize s i action s' es) {j : Nat} {thread : QueueThread α}
    (hj : s'.threads[j]? = some thread) (ho : Rafty.offering thread = true) :
    (bufferSize = 0 ∧ ∃ value, es = [.pushed j value]) ∨ ((∀ e ∈ es, e.thread ≠ j) ∧
      ∃ old, s.threads[j]? = some old ∧ Rafty.offering old = true) := by
  have hthread := h.thread_eq
  -- the threads that do not move
  have hother : j ≠ i → (∃ old, s.threads[j]? = some old ∧ Rafty.offering old = true) →
      (∀ e ∈ es, e.thread ≠ j) ∧ ∃ old, s.threads[j]? = some old ∧ Rafty.offering old = true :=
    fun hne hold => ⟨fun e he hej => hne (hej.symm.trans (hthread e he)), hold⟩
  have hnotified : ∀ {on : QueueWait α → Bool}, (notifyAll on s.threads)[j]? = some thread →
      ∃ old, s.threads[j]? = some old ∧ Rafty.offering old = true := by
    intro on hj
    obtain ⟨old, hold, rfl⟩ := getElem?_notifyAll_eq_some hj
    exact ⟨old, hold, by rwa [offering_notified] at ho⟩
  cases h with
  | closedBefore => exact Or.inr ⟨by simp, thread, hj, ho⟩
  | call | close | foundEmpty | tookOut | pass | refuse | handed | giveUp =>
    rcases getElem?_set_eq_some hj with ⟨-, rfl⟩ | ⟨hne, hj⟩
    · cases ho
    · exact Or.inr (hother hne ⟨thread, hj, ho⟩)
  | notify | push | pop =>
    rcases getElem?_set_eq_some hj with ⟨-, rfl⟩ | ⟨hne, hj⟩
    · cases ho
    · exact Or.inr (hother hne (hnotified hj))
  | hand _ _ hb =>
    rcases getElem?_set_eq_some hj with ⟨rfl, -⟩ | ⟨hne, hj⟩
    · exact Or.inl ⟨hb, _, rfl⟩
    · exact Or.inr (hother hne (hnotified hj))
  | @acquire old wait ht hw =>
    rcases getElem?_set_eq_some hj with ⟨rfl, rfl⟩ | ⟨hne, hj⟩
    · refine Or.inr ⟨by simp, old, ht, ?_⟩
      cases wait with
      | taken => exact offering_of_nextCheck hw
      | _ => cases ho
    · exact Or.inr (hother hne ⟨thread, hj, ho⟩)
  | @block wait ht | @wakeUp wait ht =>
    rcases getElem?_set_eq_some hj with ⟨rfl, rfl⟩ | ⟨hne, hj⟩
    · refine Or.inr ⟨by simp, _, ht, ?_⟩
      cases wait with
      | taken => rfl
      | _ => cases ho
    · exact Or.inr (hother hne ⟨thread, hj, ho⟩)

/-- On an open unbuffered queue `enqueue` returns from its second wait only. -/
theorem Move.returned (h : Move 0 s i action s' es) (hc : s.closed = false) {j : Nat}
    (hj : .enqueueReturned j ∈ es) :
    es = [.enqueueReturned j] ∧ s.queue = [] ∧
      s.threads[j]? = some (.running (.checking .taken)) := by
  cases h with
  | handed ht hr =>
    obtain rfl : j = i := by simpa using hj
    exact ⟨rfl, by simpa [ready, hc] using hr, ht⟩
  | refuse _ hclosed =>
    rw [hc] at hclosed
    cases hclosed
  | push _ _ hb => exact absurd rfl hb
  | _ => simp at hj

/-- The threads that do not move are where they were, or notified. -/
theorem Move.thread_ne (h : Move bufferSize s i action s' es) {j : Nat} (hj : j ≠ i)
    {thread : QueueThread α} (ht : s.threads[j]? = some thread) :
    s'.threads[j]? = some thread ∨ ∃ on, s'.threads[j]? = some (thread.notified on) := by
  have hnotified : ∀ on, (notifyAll on s.threads)[j]? = some (thread.notified on) := by
    intro on
    rw [notifyAll, List.getElem?_map, ht]
    rfl
  cases h with
  | closedBefore => exact Or.inl ht
  | notify | push | hand | pop =>
    exact Or.inr ⟨_, (List.getElem?_set_ne hj.symm).trans (hnotified _)⟩
  | _ => exact Or.inl ((List.getElem?_set_ne hj.symm).trans ht)

/-- **The step lemma** for one call: the thread goes on with it. -/
theorem Move.goesOn (h : Move bufferSize s i action s' es) (hc : s'.closed = false)
    (hno : ∀ call', action ≠ .call call') {call : QueueCall α} {thread : QueueThread α}
    {done : List (QueueEvent α)} (ht : s.threads[i]? = some thread)
    (hd : call.Doing i thread done) :
    ∃ thread', s'.threads[i]? = some thread' ∧ call.Doing i thread' (done ++ es) := by
  have hopen := h.closed_mono hc
  have hlt := (List.getElem?_eq_some_iff.mp ht).1
  have hset : ∀ (threads : List (QueueThread α)) (thread' : QueueThread α),
      threads.length = s.threads.length → (threads.set i thread')[i]? = some thread' := by
    intro threads thread' hlen
    exact List.getElem?_set_self (hlen ▸ hlt)
  have hlen : ∀ on, (notifyAll on s.threads).length = s.threads.length := fun on =>
    List.length_map ..
  -- the place of the thread is the one the step is taken at
  have hat : ∀ {thread'}, s.threads[i]? = some thread' → call.Doing i thread' done := by
    intro thread' ht'
    rw [ht, Option.some.injEq] at ht'
    exact ht' ▸ hd
  cases h with
  | call => exact absurd rfl (hno _)
  | closedBefore _ hclosed | refuse _ hclosed | giveUp _ hclosed =>
    rw [hopen] at hclosed
    cases hclosed
  | close => cases hc
  | notify ht' =>
    -- whoever is in `close` is in no other call
    cases hat ht' with
    | room h | taken _ h | item h => cases h
  | foundEmpty ht' =>
    obtain ⟨rfl, rfl⟩ := (hat ht').of_called
    exact ⟨_, hset _ _ rfl, .returned .foundEmpty⟩
  | tookOut ht' =>
    obtain ⟨rfl, rfl⟩ := (hat ht').of_called
    exact ⟨_, hset _ _ rfl, .returned (.tryDequeue _)⟩
  | acquire ht' hw =>
    refine ⟨_, hset _ _ rfl, ?_⟩
    rw [List.append_nil]
    unfold nextCheck at hw
    split at hw <;> cases hw
    · obtain ⟨rfl, rfl⟩ := (hat ht').of_called
      exact .room rfl
    · obtain ⟨rfl, rfl⟩ := (hat ht').of_called
      exact .item rfl
    · exact (hat ht').stay rfl rfl
  | pass ht' | block ht' | wakeUp ht' =>
    refine ⟨_, hset _ _ rfl, ?_⟩
    rw [List.append_nil]
    exact (hat ht').stay rfl rfl
  | push ht' =>
    obtain ⟨rfl, rfl⟩ := (hat ht').of_room rfl
    exact ⟨_, hset _ _ (hlen _), .returned (.enqueue _)⟩
  | hand ht' =>
    obtain ⟨rfl, rfl⟩ := (hat ht').of_room rfl
    exact ⟨_, hset _ _ (hlen _), .taken _ rfl⟩
  | handed ht' =>
    obtain ⟨value, rfl, rfl⟩ := (hat ht').of_taken rfl
    exact ⟨_, hset _ _ rfl, .returned (.enqueue value)⟩
  | pop ht' =>
    obtain ⟨rfl, rfl⟩ := (hat ht').of_item rfl
    exact ⟨_, hset _ _ (hlen _), .returned (.dequeue _)⟩

end MessageQueue

/-! ## Every run -/

section Runs

open MessageQueue

variable [Inhabited α] {s : MessageQueue α}
  {ts : List (Transition (MessageQueue α) (QueueInput α) (QueueEvent α))}

/-- Values leave the queue in the order in which they were pushed, each of them once. -/
theorem fifo_of_run (h : (queueSystem bufferSize).Run ts s) :
    removals (events ts) ++ s.queue = pushes (events ts) := by
  induction h with
  | init hi =>
    obtain ⟨n, rfl⟩ := hi
    rfl
  | @step ts s s' input es hr hs ih =>
    rw [events_append, events_singleton, removals_append, pushes_append, List.append_assoc,
      (move_of_step hs).fifo, ← List.append_assoc, ih]

/-- A thread that offers a value, on an unbuffered queue, has done nothing since it pushed it. -/
theorem offered_of_run (h : (queueSystem bufferSize).Run ts s) :
    ∀ {j : Nat} {thread : QueueThread α}, s.threads[j]? = some thread →
      offering thread = true → bufferSize = 0 ∧ Offered (events ts) j := by
  induction h with
  | init hi =>
    obtain ⟨n, rfl⟩ := hi
    intro j thread hj ho
    rw [eq_idle_of_mem_init (List.mem_of_getElem? hj)] at ho
    cases ho
  | @step ts s s' input es hr hs ih =>
    intro j thread hj ho
    rw [events_append, events_singleton]
    rcases (move_of_step hs).offering hj ho with ⟨hb, value, rfl⟩ | ⟨hsilent, old, hold, ho⟩
    · exact ⟨hb, events ts, value, [], rfl, nofun⟩
    · exact (ih hold ho).imp id fun hoffered => hoffered.append hsilent

/-- Until it is closed, an unbuffered queue hands each value over before its `enqueue` returns. -/
theorem handedOver_of_run (h : (queueSystem 0).Run ts s) (hc : s.closed = false) :
    ∀ pre i post, events ts = pre ++ .enqueueReturned i :: post → HandedOver pre i := by
  induction h with
  | init _ => simp
  | @step ts s s' input es hr hs ih =>
    intro pre i post he
    have hmove := move_of_step hs
    have hc := hmove.closed_mono hc
    rw [events_append, events_singleton] at he
    rcases System.split_append he with ⟨post', hpre⟩ | ⟨a, rfl, hes⟩
    · exact ih hc pre i post' hpre
    · dsimp only at hes
      have hmem : .enqueueReturned i ∈ es := by simp [hes]
      obtain ⟨hone, hempty, ht⟩ := hmove.returned hc hmem
      obtain ⟨rfl, -⟩ := System.split_singleton (hone.symm.trans hes)
      rw [List.append_nil]
      refine (offered_of_run hr ht rfl).2.handedOver ?_
      rw [← fifo_of_run hr, hempty, List.append_nil]

/-- Where a thread is after it has made a call and no other one, and what it has done there. -/
theorem doing_of_run {s₀ : MessageQueue α} {i : Nat} {call : QueueCall α}
    (h : ((queueSystem bufferSize).startingAt s₀).Run ts s)
    (hstart : s₀.threads[i]? = some (.running (.called call)))
    (hno : ∀ t ∈ ts, ∀ call', t.input ≠ ⟨i, .call call'⟩) (hc : s.closed = false) :
    ∃ thread, s.threads[i]? = some thread ∧ call.Doing i thread (eventsOf i (events ts)) := by
  induction h with
  | init hi =>
    obtain rfl := hi
    exact ⟨_, hstart, .begun call⟩
  | @step ts s s' input es hr hs ih =>
    simp only [List.forall_mem_append, List.forall_mem_singleton] at hno
    have hmove := move_of_step hs
    obtain ⟨thread, ht, hd⟩ := ih hno.1 (hmove.closed_mono hc)
    rw [events_append, events_singleton, eventsOf_append]
    by_cases hi : i = input.thread
    · have hown : eventsOf i es = es := eventsOf_eq_self (hi ▸ hmove.thread_eq)
      rw [hown]
      subst hi
      refine hmove.goesOn hc ?_ ht hd
      intro call' ha
      exact hno.2 call' (congrArg (QueueInput.mk input.thread) ha)
    · have hnone : eventsOf i es = [] :=
        eventsOf_eq_nil fun e he => hmove.thread_eq e he ▸ Ne.symm hi
      rw [hnone, List.append_nil]
      rcases hmove.thread_ne hi ht with ht' | ⟨on, ht'⟩
      · exact ⟨thread, ht', hd⟩
      · exact ⟨_, ht', hd.notified on⟩

/-- What a call has done when its thread has made no other one since. -/
theorem does_of_run {t : Transition (MessageQueue α) (QueueInput α) (QueueEvent α)}
    {pre post : List (Transition (MessageQueue α) (QueueInput α) (QueueEvent α))}
    (h : (queueSystem bufferSize).Run (pre ++ t :: post) s) (hc : s.closed = false) {i : Nat}
    {call : QueueCall α} (hcall : t.input = ⟨i, .call call⟩)
    (hno : ∀ u ∈ post, ∀ call', u.input ≠ ⟨i, .call call'⟩) :
    ∃ all, call.Does i all ∧ eventsOf i (events post) <+: all ∧
      (s.threads[i]? = some (.running .idle) → eventsOf i (events post) = all) := by
  obtain ⟨-, hs, hpost⟩ := h.of_append_cons
  have hstart : t.after.threads[i]? = some (.running (.called call)) := by
    have hmove := move_of_step hs
    obtain ⟨before, input, es, after⟩ := t
    dsimp only at hcall hmove ⊢
    subst hcall
    cases hmove with
    | call ht => exact List.getElem?_set_self (List.getElem?_eq_some_iff.mp ht).1
  obtain ⟨thread, ht, hd⟩ := doing_of_run hpost hstart hno hc
  obtain ⟨all, hall, hprefix, hidle⟩ := hd.exists_does
  refine ⟨all, hall, hprefix, fun hi => hidle ?_⟩
  rwa [ht, Option.some.injEq] at hi

/--
**A bounded queue with a rendezvous.** Whatever the threads do, the values removed and then those in
the queue are the values pushed, in order, and the queue holds at most `max 1 bufferSize` of them.
On an unbuffered queue that is not closed, a call of `enqueue` returns only after its own value, the
last thing its thread pushed, has been removed. And on a queue that is not closed, a call of
`enqueue(v)` pushes `v` and nothing else, and `dequeue` and `try_dequeue` return the value they
remove.
-/
theorem message_queue_order (h : (queueSystem bufferSize).Run ts s) :
    removals (events ts) ++ s.queue = pushes (events ts) ∧
    s.queue.length ≤ max 1 bufferSize ∧
    (bufferSize = 0 → s.closed = false →
      ∀ pre i post, events ts = pre ++ .enqueueReturned i :: post → HandedOver pre i) ∧
    (s.closed = false → ∀ pre t post i call, ts = pre ++ t :: post → t.input = ⟨i, .call call⟩ →
      (∀ u ∈ post, ∀ call', u.input ≠ ⟨i, .call call'⟩) →
      ∃ all, call.Does i all ∧ eventsOf i (events post) <+: all ∧
        (s.threads[i]? = some (.running .idle) → eventsOf i (events post) = all)) := by
  refine ⟨fifo_of_run h, (queueInv_of_run h).1.bound, ?_, ?_⟩
  · rintro rfl hc
    exact handedOver_of_run h hc
  · rintro hc pre t post i call rfl hcall hno
    exact does_of_run h hc hcall hno

end Runs

/--
Two producers and a consumer on an unbuffered queue: the second producer pushes between the removal
of the first value and the return of the call that pushed it.
-/
def rendezvous : List (QueueInput Nat) :=
  [⟨0, .call (.enqueue 7)⟩, ⟨0, .lock⟩, ⟨0, .check⟩, ⟨0, .proceed⟩, ⟨0, .check⟩,
   ⟨1, .call (.enqueue 8)⟩, ⟨2, .call .dequeue⟩, ⟨2, .lock⟩, ⟨2, .check⟩, ⟨2, .proceed⟩,
   ⟨1, .lock⟩, ⟨1, .check⟩, ⟨1, .proceed⟩, ⟨1, .check⟩, ⟨2, .call .tryDequeue⟩, ⟨2, .lock⟩,
   ⟨0, .lock⟩, ⟨0, .check⟩]

theorem message_queue_order_rendezvous :
    ∃ ts s, (queueSystem 0).Run ts s ∧ s.closed = false ∧
      pushes (events ts) = [7, 8] ∧ s.queue = [] ∧
      .enqueueReturned 0 ∈ events ts ∧
      (removals (events ts) ++ s.queue = pushes (events ts) ∧
      s.queue.length ≤ max 1 0 ∧
      ((0 : Nat) = 0 → s.closed = false →
        ∀ pre i post, events ts = pre ++ .enqueueReturned i :: post → HandedOver pre i) ∧
      (s.closed = false → ∀ pre t post i call, ts = pre ++ t :: post → t.input = ⟨i, .call call⟩ →
        (∀ u ∈ post, ∀ call', u.input ≠ ⟨i, .call call'⟩) →
        ∃ all, call.Does i all ∧ eventsOf i (events post) <+: all ∧
          (s.threads[i]? = some (.running .idle) → eventsOf i (events post) = all))) := by
  obtain ⟨ts, s, hr, -, hc, hp, hq, he⟩ := exists_queueRun 0 3 rendezvous
    (fun ts s => s.closed = false ∧ pushes (events ts) = [7, 8] ∧ s.queue = [] ∧
      .enqueueReturned 0 ∈ events ts) (by decide +kernel)
  exact ⟨ts, s, hr, hc, hp, hq, he, message_queue_order hr⟩

end Rafty
