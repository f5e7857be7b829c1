import Rafty.Safety.QueueOrder

/-!
# When `MessageQueue` loses a wake-up

A lost wake-up is a thread in a wait set whose predicate is true: it entered with a predicate that
was false, and nobody has notified it since. Each critical section that makes a predicate true
notifies the threads that wait for it, except for one: `try_dequeue` makes room and does not notify
`prod_ready_`, as `dequeue` does. And `close` makes every predicate true before it takes the mutex,
so the threads that wait are left behind until it gets there.

`no_lost_wakeup_iff` says that these are the only two ways, and that a wake-up lost by `close` is
one its notification makes up for.
-/

namespace Rafty

open Infra

variable {α : Type} {bufferSize : Nat}

namespace MessageQueue

/-- No thread is in a wait set while its predicate is true. -/
def NoLostWakeup (bufferSize : Nat) (s : MessageQueue α) : Prop :=
  NoLost (s.ready bufferSize) s.threads

/-- A `try_dequeue` that is to remove a value finds no thread waiting on `prod_ready_`. -/
def noSilentRemoval (s : MessageQueue α) (input : QueueInput α) : Bool :=
  match input.action, s.threads[input.thread]? with
  | .lock, some (.running (.called .tryDequeue)) =>
    s.queue.isEmpty || !waitsOn QueueWait.onProdReady s.threads
  | _, _ => true

/-- A `close` of an open queue finds no thread waiting at all. -/
def noEarlyClose (s : MessageQueue α) (input : QueueInput α) : Bool :=
  match input.action, s.threads[input.thread]? with
  | .close, some (.running .idle) => s.closed || !waitsOn (fun _ => true) s.threads
  | _, _ => true

variable {s s' : MessageQueue α} {i : Nat} {action : QueueAction α} {es : List (QueueEvent α)}

theorem noLostWakeup_init (n : Nat) :
    (init n : MessageQueue α).NoLostWakeup bufferSize := fun _ hmem =>
  nomatch eq_idle_of_mem_init hmem

/-! ## The predicates -/

theorem queue_eq_nil_of_item (h : s.ready bufferSize .item = false) : s.queue = [] := by
  simp only [ready, Bool.or_eq_false_iff, Bool.not_eq_false'] at h
  exact List.isEmpty_iff.mp h.1

/-- Pushing makes no producer's predicate true. -/
theorem ready_push {wait : QueueWait α} (value : α) (hw : wait.onConReady = false)
    (h : s.ready bufferSize wait = false) :
    ({ s with queue := s.queue ++ [value] } : MessageQueue α).ready bufferSize wait = false := by
  cases wait with
  | item => cases hw
  | taken => simp_all [ready]
  | room v =>
    simp only [ready] at h ⊢
    split at h
    · simp_all
    · next hb =>
      rw [if_neg hb]
      simp only [Bool.or_eq_false_iff, decide_eq_false_iff_not, List.length_append] at h ⊢
      exact ⟨by omega, h.2⟩

/-- Removing a value makes the predicate of each producer true. -/
theorem ready_of_removal {wait : QueueWait α} {value : α} {rest : List α}
    (hbound : s.queue.length ≤ max 1 bufferSize) (hq : s.queue = value :: rest)
    (hw : wait.onProdReady = true) (hb : wait = .taken → bufferSize = 0) :
    ({ s with queue := rest } : MessageQueue α).ready bufferSize wait = true := by
  rw [hq, List.length_cons] at hbound
  have hempty : bufferSize = 0 → rest = [] := fun hb => List.length_eq_zero_iff.mp (by omega)
  cases wait with
  | item => cases hw
  | taken => simp [ready, hempty (hb rfl)]
  | room v =>
    simp only [ready]
    split
    · next hb => simp [hempty hb]
    · have hlt : rest.length < bufferSize := by omega
      simp [hlt]

/-! ## One step -/

variable [Inhabited α]

theorem Move.noLostWakeup (h : Move bufferSize s i action s' es) (hn : s.NoLostWakeup bufferSize)
    (hr : s.noSilentRemoval ⟨i, action⟩ = true) (hc : s.noEarlyClose ⟨i, action⟩ = true) :
    s'.NoLostWakeup bufferSize := by
  cases h with
  | call | foundEmpty | acquire | pass | wakeUp | refuse | handed | giveUp => exact hn.set nofun
  | closedBefore => exact hn
  | block _ hready =>
    refine hn.set ?_
    rintro wait ⟨⟩
    exact hready
  | notify => exact NoLost.notifyAll_all.set nofun
  | push => exact (NoLost.notifyAll hn fun _ => ready_push _).set nofun
  | hand => exact (NoLost.notifyAll hn fun _ => ready_push _).set nofun
  | @pop value rest ht hopen hq =>
    -- a consumer that waits has found the queue empty
    refine NoLost.set (NoLost.notifyAll hn fun wait hw hready => ?_) nofun
    cases wait with
    | item => cases hq.symm.trans (queue_eq_nil_of_item hready)
    | _ => cases hw
  | @tookOut value rest ht hm hq =>
    simp only [noSilentRemoval, ht, hq, List.isEmpty_cons, Bool.false_or, Bool.not_eq_true'] at hr
    refine NoLost.set (fun wait hmem => ?_) nofun
    cases wait with
    | item => cases hq.symm.trans (queue_eq_nil_of_item (hn _ hmem))
    | _ => cases waitsOn_eq_false.mp hr _ hmem
  | close ht hopen =>
    simp only [noEarlyClose, ht, hopen, Bool.false_or, Bool.not_eq_true'] at hc
    refine NoLost.set (fun wait hmem => ?_) nofun
    cases waitsOn_eq_false.mp hc wait hmem

/-- A removal or a closing that finds a thread waiting leaves it behind. -/
theorem Move.conditions (h : Move bufferSize s i action s' es) (hinv : s.QueueInv bufferSize)
    (hb : .blocked .taken ∈ s.threads → bufferSize = 0) (hn : s'.NoLostWakeup bufferSize) :
    s.noSilentRemoval ⟨i, action⟩ = true ∧ s.noEarlyClose ⟨i, action⟩ = true := by
  cases h with
  | @tookOut value rest ht hm hq =>
    refine ⟨?_, rfl⟩
    simp only [noSilentRemoval, ht, Bool.or_eq_true, Bool.not_eq_true']
    refine Or.inr (waitsOn_eq_false.mpr fun wait hmem => Bool.eq_false_iff.mpr fun hw => ?_)
    have hready := ready_of_removal hinv.bound hq hw fun heq => hb (heq ▸ hmem)
    exact Bool.eq_false_iff.mp (hn wait (mem_set_of_ne hmem ht nofun)) hready
  | close ht hopen =>
    refine ⟨rfl, ?_⟩
    simp only [noEarlyClose, ht, Bool.or_eq_true, Bool.not_eq_true']
    refine Or.inr (waitsOn_eq_false.mpr fun wait hmem => ?_)
    have hlost := hn wait (mem_set_of_ne hmem ht nofun)
    rw [ready_of_closed rfl] at hlost
    cases hlost
  | foundEmpty ht hm hq => simp [noSilentRemoval, noEarlyClose, ht, hq]
  | closedBefore ht hclosed => simp [noSilentRemoval, noEarlyClose, ht, hclosed]
  | @acquire thread wait ht hw hm =>
    refine ⟨?_, rfl⟩
    unfold noSilentRemoval
    split
    · next _ hthread =>
      cases ht.symm.trans hthread
      cases hw
    · rfl
  | notify ht hm => simp [noSilentRemoval, noEarlyClose, ht]
  | _ => exact ⟨rfl, rfl⟩

/-- A `close` under way stays so until it has notified everybody. -/
theorem Move.closing (h : Move bufferSize s i action s' es)
    (hc : .running .closing ∈ s.threads) :
    .running .closing ∈ s'.threads ∨ s'.NoLostWakeup bufferSize := by
  cases h with
  | notify => exact Or.inr (NoLost.notifyAll_all.set nofun)
  | closedBefore => exact Or.inl hc
  | call ht | close ht | foundEmpty ht | tookOut ht | pass ht | block ht | wakeUp ht | refuse ht
  | handed ht | giveUp ht => exact Or.inl (mem_set_of_ne hc ht nofun)
  | acquire ht hw =>
    refine Or.inl (mem_set_of_ne hc ht ?_)
    rintro rfl
    cases hw
  | push ht | hand ht | pop ht =>
    exact Or.inl (mem_set_of_ne (running_mem_notifyAll.mpr hc)
      (getElem?_notifyAll_running.mpr ht) nofun)

/-- Without silent removals, threads are left behind while a `close` is under way at most. -/
theorem Move.noLostWakeup_or_closing (h : Move bufferSize s i action s' es)
    (hr : s.noSilentRemoval ⟨i, action⟩ = true)
    (hn : s.NoLostWakeup bufferSize ∨ .running .closing ∈ s.threads) :
    s'.NoLostWakeup bufferSize ∨ .running .closing ∈ s'.threads := by
  rcases hn with hn | hc
  · cases action with
    | close =>
      cases h with
      | closedBefore => exact Or.inl hn
      | close ht =>
        have hi : i < s.threads.length := (List.getElem?_eq_some_iff.mp ht).1
        exact Or.inr (List.mem_set hi _)
    | _ => exact Or.inl (h.noLostWakeup hn hr rfl)
  · exact (h.closing hc).symm

end MessageQueue

/-! ## Every run -/

section Runs

open MessageQueue

variable [Inhabited α] {s : MessageQueue α}
  {ts : List (Transition (MessageQueue α) (QueueInput α) (QueueEvent α))}

/-- A run loses no wake-up exactly if none of its steps meets a thread it leaves behind. -/
theorem noLostWakeup_run_iff (h : (queueSystem bufferSize).Run ts s) :
    (s.NoLostWakeup bufferSize ∧ ∀ t ∈ ts, t.before.NoLostWakeup bufferSize) ↔
      ∀ t ∈ ts, t.before.noSilentRemoval t.input = true ∧ t.before.noEarlyClose t.input = true := by
  induction h with
  | init hi =>
    obtain ⟨n, rfl⟩ := hi
    exact iff_of_true ⟨noLostWakeup_init n, nofun⟩ nofun
  | @step ts s s' input es hr hs ih =>
    have hmove := move_of_step hs
    have hb : .blocked .taken ∈ s.threads → bufferSize = 0 := fun hmem => by
      obtain ⟨j, hj⟩ := List.getElem?_of_mem hmem
      exact (offered_of_run hr hj rfl).1
    simp only [List.forall_mem_append, List.forall_mem_singleton]
    rw [← ih]
    constructor
    · rintro ⟨hn', hall, hn⟩
      exact ⟨⟨hn, hall⟩, hmove.conditions (queueInv_of_run hr).1 hb hn'⟩
    · rintro ⟨⟨hn, hall⟩, hr, hc⟩
      exact ⟨hmove.noLostWakeup hn hr hc, hall, hn⟩

/-- A run without silent removals leaves threads behind only while a `close` is under way. -/
theorem noLostWakeup_or_closing_of_run (h : (queueSystem bufferSize).Run ts s)
    (hp : ∀ t ∈ ts, t.before.noSilentRemoval t.input = true) :
    (s.NoLostWakeup bufferSize ∨ .running .closing ∈ s.threads) ∧
      ∀ t ∈ ts, t.before.NoLostWakeup bufferSize ∨ .running .closing ∈ t.before.threads := by
  refine (h.restrict hp).invariant
    (P := fun s => s.NoLostWakeup bufferSize ∨ .running .closing ∈ s.threads) ?_ ?_
  · rintro s ⟨n, rfl⟩
    exact Or.inl (noLostWakeup_init n)
  · intro s input s' es hn hs
    obtain ⟨hr, hs⟩ := System.restrict_step.mp hs
    exact (move_of_step hs).noLostWakeup_or_closing hr hn

/--
**When no wake-up is lost.** In no state that a run passes through is a thread blocked with a true
predicate and no notification since, exactly if each `try_dequeue` that removes a value finds no
producer waiting, and each `close` finds nobody waiting. If only the first half is kept, a thread
is left behind only while a `close` is between setting the flag and its notifications.
-/
theorem no_lost_wakeup_iff (h : (queueSystem bufferSize).Run ts s) :
    ((s.NoLostWakeup bufferSize ∧ ∀ t ∈ ts, t.before.NoLostWakeup bufferSize) ↔
      ∀ t ∈ ts, t.before.noSilentRemoval t.input = true ∧ t.before.noEarlyClose t.input = true) ∧
    ((∀ t ∈ ts, t.before.noSilentRemoval t.input = true) →
      (s.NoLostWakeup bufferSize ∨ .running .closing ∈ s.threads) ∧
      ∀ t ∈ ts, t.before.NoLostWakeup bufferSize ∨ .running .closing ∈ t.before.threads) :=
  ⟨noLostWakeup_run_iff h, noLostWakeup_or_closing_of_run h⟩

end Runs

/-- A producer fills a queue of one place and blocks with its second value. -/
def blockedProducer : List (QueueInput Nat) :=
  [⟨0, .call (.enqueue 7)⟩, ⟨0, .lock⟩, ⟨0, .check⟩, ⟨0, .proceed⟩,
   ⟨0, .call (.enqueue 8)⟩, ⟨0, .lock⟩, ⟨0, .check⟩]

/-- A consumer calls `dequeue`, the producer goes on, and the consumer closes the queue. -/
def wokenProducer : List (QueueInput Nat) :=
  blockedProducer ++
    [⟨1, .call .dequeue⟩, ⟨1, .lock⟩, ⟨1, .check⟩, ⟨1, .proceed⟩, ⟨0, .lock⟩, ⟨0, .check⟩,
     ⟨0, .proceed⟩, ⟨1, .close⟩, ⟨1, .lock⟩]

theorem no_lost_wakeup_dequeue : ∃ ts s, (queueSystem 1).Run ts s ∧
    ts.map Transition.input = wokenProducer ∧ s.queue = [8] ∧
    s.NoLostWakeup 1 ∧ ∀ t ∈ ts, t.before.NoLostWakeup 1 := by
  obtain ⟨ts, s, hr, hi, hq, hall⟩ := exists_queueRun 1 2 wokenProducer
    (fun ts s => s.queue = [8] ∧ ∀ t ∈ ts,
      t.before.noSilentRemoval t.input = true ∧ t.before.noEarlyClose t.input = true)
    (by decide +kernel)
  exact ⟨ts, s, hr, hi, hq, (no_lost_wakeup_iff hr).1.mpr hall⟩

/-- A consumer removes the value with `try_dequeue`, and the producer still waits for room. -/
theorem lost_wakeup_tryDequeue : ∃ ts s, (queueSystem 1).Run ts s ∧
    ts.map Transition.input = blockedProducer ++ [⟨1, .call .tryDequeue⟩, ⟨1, .lock⟩] ∧
    s.queue = [] ∧ s.closed = false ∧ s.mutex = none ∧
    s.threads = [.blocked (.room 8), .running .idle] ∧ s.ready 1 (.room 8) = true ∧
    ¬s.NoLostWakeup 1 := by
  obtain ⟨ts, s, hr, hi, hq, hc, hm, ht, hready⟩ := exists_queueRun 1 2
    (blockedProducer ++ [⟨1, .call .tryDequeue⟩, ⟨1, .lock⟩])
    (fun _ s => s.queue = [] ∧ s.closed = false ∧ s.mutex = none ∧
      s.threads = [.blocked (.room 8), .running .idle] ∧ s.ready 1 (.room 8) = true)
    (by decide +kernel)
  refine ⟨ts, s, hr, hi, hq, hc, hm, ht, hready, fun hn => ?_⟩
  have hlost := hn (.room 8) (by rw [ht]; exact List.mem_cons_self)
  cases hready.symm.trans hlost

end Rafty
