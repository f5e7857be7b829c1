import Rafty.MessageQueue

/-!
# What a step of `MessageQueue` can be

`Move` is the list of the things a thread can do in one step, and `move_of_step` says that there are
no others. `QueueInv` is what mutual exclusion gives: whoever is past a wait still finds what it
waited for, so the queue stays within its size and `front()` is never called on an empty queue.
-/

namespace Rafty

open Infra

variable {α : Type} {bufferSize : Nat}

namespace MessageQueue

section Fields

variable (s : MessageQueue α) (i : Nat) (thread : QueueThread α) (on : QueueWait α → Bool)

@[simp] theorem goto_queue : (s.goto i thread).queue = s.queue := rfl
@[simp] theorem goto_mutex : (s.goto i thread).mutex = s.mutex := rfl

@[simp] theorem leave_queue : (s.leave i).queue = s.queue := rfl

@[simp] theorem notify_queue : (s.notify on).queue = s.queue := rfl
@[simp] theorem notify_mutex : (s.notify on).mutex = s.mutex := rfl

end Fields

/-- The things thread `i` can do in one step. -/
inductive Move [Inhabited α] (bufferSize : Nat) (s : MessageQueue α) (i : Nat) :
    QueueAction α → MessageQueue α → List (QueueEvent α) → Prop
  | call {call : QueueCall α} (ht : s.threads[i]? = some (.running .idle)) :
      Move bufferSize s i (.call call) (s.goto i (.running (.called call))) []
  -- `close`
  | closedBefore (ht : s.threads[i]? = some (.running .idle)) (hc : s.closed = true) :
      Move bufferSize s i .close s []
  | close (ht : s.threads[i]? = some (.running .idle)) (hc : s.closed = false) :
      Move bufferSize s i .close ({ s with closed := true }.goto i (.running .closing)) []
  | notify (ht : s.threads[i]? = some (.running .closing)) (hm : s.mutex = none) :
      Move bufferSize s i .lock ((s.notify fun _ => true).leave i) []
  -- `try_dequeue`
  | foundEmpty (ht : s.threads[i]? = some (.running (.called .tryDequeue))) (hm : s.mutex = none)
      (hq : s.queue = []) : Move bufferSize s i .lock (s.leave i) [.tryDequeueReturned i none]
  | tookOut {value : α} {rest : List α}
      (ht : s.threads[i]? = some (.running (.called .tryDequeue))) (hm : s.mutex = none)
      (hq : s.queue = value :: rest) :
      Move bufferSize s i .lock ({ s with queue := rest }.leave i)
        [.removed i value, .tryDequeueReturned i (some value)]
  -- the waits
  | acquire {thread : QueueThread α} {wait : QueueWait α} (ht : s.threads[i]? = some thread)
      (hw : nextCheck thread = some wait) (hm : s.mutex = none) :
      Move bufferSize s i .lock ({ s with mutex := some i }.goto i (.running (.checking wait))) []
  | pass {wait : QueueWait α} (ht : s.threads[i]? = some (.running (.checking wait)))
      (hr : s.ready bufferSize wait = true) (hw : wait ≠ .taken) :
      Move bufferSize s i .check (s.goto i (.running (.passed wait))) []
  | block {wait : QueueWait α} (ht : s.threads[i]? = some (.running (.checking wait)))
      (hr : s.ready bufferSize wait = false) :
      Move bufferSize s i .check ({ s with mutex := none }.goto i (.blocked wait)) []
  | wakeUp {wait : QueueWait α} (ht : s.threads[i]? = some (.blocked wait)) :
      Move bufferSize s i .wakeUp (s.goto i (.woken wait)) []
  -- `enqueue`
  | refuse {value : α} (ht : s.threads[i]? = some (.running (.passed (.room value))))
      (hc : s.closed = true) : Move bufferSize s i .proceed (s.leave i) [.enqueueReturned i]
  | push {value : α} (ht : s.threads[i]? = some (.running (.passed (.room value))))
      (hc : s.closed = false) (hb : bufferSize ≠ 0) :
      Move bufferSize s i .proceed
        (({ s with queue := s.queue ++ [value] }.notify QueueWait.onConReady).leave i)
        [.pushed i value, .enqueueReturned i]
  | hand {value : α} (ht : s.threads[i]? = some (.running (.passed (.room value))))
      (hc : s.closed = false) (hb : bufferSize = 0) :
      Move bufferSize s i .proceed
        (({ s with queue := s.queue ++ [value] }.notify QueueWait.onConReady).goto i
          (.running (.checking .taken))) [.pushed i value]
  | handed (ht : s.threads[i]? = some (.running (.checking .taken)))
      (hr : s.ready bufferSize .taken = true) :
      Move bufferSize s i .check (s.leave i) [.enqueueReturned i]
  -- `dequeue`
  | giveUp (ht : s.threads[i]? = some (.running (.passed .item))) (hc : s.closed = true) :
      Move bufferSize s i .proceed (s.leave i) [.dequeueReturned i default]
  | pop {value : α} {rest : List α} (ht : s.threads[i]? = some (.running (.passed .item)))
      (hc : s.closed = false) (hq : s.queue = value :: rest) :
      Move bufferSize s i .proceed
        (({ s with queue := rest }.notify QueueWait.onProdReady).leave i)
        [.removed i value, .dequeueReturned i value]

variable [Inhabited α] {s s' : MessageQueue α} {i : Nat} {es : List (QueueEvent α)}

theorem move_lock {thread : QueueThread α} (ht : s.threads[i]? = some thread)
    (hm : s.mutex = none) (h : s.lock i thread = some (s', es)) :
    Move bufferSize s i .lock s' es := by
  unfold lock at h
  split at h
  · rw [Option.some.injEq] at h
    unfold tryDequeue at h
    split at h
    · next hq =>
      obtain ⟨rfl, rfl⟩ := Prod.mk.inj h
      exact .foundEmpty ht hm hq
    · next value rest hq =>
      obtain ⟨rfl, rfl⟩ := Prod.mk.inj h
      exact .tookOut ht hm hq
  · obtain ⟨rfl, rfl⟩ := Prod.mk.inj (Option.some.inj h)
    exact .notify ht hm
  · obtain ⟨wait, hw, he⟩ := Option.map_eq_some_iff.mp h
    obtain ⟨rfl, rfl⟩ := Prod.mk.inj he
    exact .acquire ht hw hm

theorem move_check {wait : QueueWait α} (ht : s.threads[i]? = some (.running (.checking wait)))
    (h : s.check bufferSize i wait = (s', es)) : Move bufferSize s i .check s' es := by
  unfold check at h
  split at h
  · next hr =>
    split at h
    · obtain ⟨rfl, rfl⟩ := Prod.mk.inj h
      exact .handed ht hr
    · next hw =>
      obtain ⟨rfl, rfl⟩ := Prod.mk.inj h
      exact .pass ht hr hw
  · next hr =>
    obtain ⟨rfl, rfl⟩ := Prod.mk.inj h
    exact .block ht (Bool.eq_false_iff.mpr hr)

theorem move_enqueue {value : α} (ht : s.threads[i]? = some (.running (.passed (.room value))))
    (h : s.enqueue bufferSize i value = (s', es)) : Move bufferSize s i .proceed s' es := by
  unfold enqueue at h
  split at h
  · next hc =>
    obtain ⟨rfl, rfl⟩ := Prod.mk.inj h
    exact .refuse ht hc
  · next hc =>
    have hc : s.closed = false := Bool.eq_false_iff.mpr hc
    dsimp only at h
    split at h
    · next hb =>
      obtain ⟨rfl, rfl⟩ := Prod.mk.inj h
      exact .hand ht hc hb
    · next hb =>
      obtain ⟨rfl, rfl⟩ := Prod.mk.inj h
      exact .push ht hc hb

theorem move_dequeue (ht : s.threads[i]? = some (.running (.passed .item)))
    (h : s.dequeue i = some (s', es)) : Move bufferSize s i .proceed s' es := by
  unfold dequeue at h
  split at h
  · next hc =>
    obtain ⟨rfl, rfl⟩ := Prod.mk.inj (Option.some.inj h)
    exact .giveUp ht hc
  · next hc =>
    split at h
    · cases h
    · next value rest hq =>
      obtain ⟨rfl, rfl⟩ := Prod.mk.inj (Option.some.inj h)
      exact .pop ht (Bool.eq_false_iff.mpr hc) hq

/-- **Inversion of `MessageQueue.step`.** -/
theorem move_of_step {input : QueueInput α} (h : s.step bufferSize input = some (s', es)) :
    Move bufferSize s input.thread input.action s' es := by
  obtain ⟨i, action⟩ := input
  unfold step at h
  dsimp only at h
  split at h
  · next ht =>
    obtain ⟨rfl, rfl⟩ := Prod.mk.inj (Option.some.inj h)
    exact .call ht
  · next ht =>
    obtain ⟨rfl, rfl⟩ := Prod.mk.inj (Option.some.inj h)
    unfold close
    split
    · next hc => exact .closedBefore ht hc
    · next hc => exact .close ht (Bool.eq_false_iff.mpr hc)
  · next ht =>
    split at h
    · next hm => exact move_lock ht hm h
    · cases h
  · next ht => exact move_check ht (Option.some.inj h)
  · next ht => exact move_enqueue ht (Option.some.inj h)
  · next ht => exact move_dequeue ht h
  · next ht =>
    obtain ⟨rfl, rfl⟩ := Prod.mk.inj (Option.some.inj h)
    exact .wakeUp ht
  · cases h

/-! ## Mutual exclusion -/

end MessageQueue

/-- The places of a thread that holds the mutex. -/
def QueuePc.critical : QueuePc α → Bool
  | checking _ | passed _ => true
  | _ => false

namespace MessageQueue

/-- What holds of the queue between two steps. -/
structure QueueInv (bufferSize : Nat) (s : MessageQueue α) : Prop where
  exclusive : Exclusive QueuePc.critical s.mutex s.threads
  /-- Whoever is past a wait still finds its predicate true. -/
  passed : ∀ (j : Nat) (wait : QueueWait α),
    s.threads[j]? = some (.running (.passed wait)) → s.ready bufferSize wait = true
  bound : s.queue.length ≤ max 1 bufferSize

variable {s s' : MessageQueue α} {i : Nat} {action : QueueAction α} {es : List (QueueEvent α)}

theorem eq_idle_of_mem_init {n : Nat} {thread : QueueThread α}
    (h : thread ∈ (init n : MessageQueue α).threads) : thread = .running .idle :=
  (List.mem_replicate.mp h).2

/-- A thread inside its critical section is the holder of the mutex. -/
theorem QueueInv.mutex_eq (hinv : s.QueueInv bufferSize) {pc : QueuePc α}
    (ht : s.threads[i]? = some (.running pc)) (hpc : pc.critical = true) : s.mutex = some i :=
  hinv.exclusive i pc ht hpc

/-- While one thread holds the mutex, or none does, the others are past no wait. -/
theorem QueueInv.not_passed (hinv : s.QueueInv bufferSize) {j : Nat} (hm : s.mutex ≠ some j)
    (wait : QueueWait α) : s.threads[j]? ≠ some (.running (.passed wait)) := fun hj =>
  hm (hinv.exclusive j _ hj rfl)

theorem ready_of_closed (h : s.closed = true) (wait : QueueWait α) :
    s.ready bufferSize wait = true := by
  cases wait <;> simp [ready, h]

/-- A producer that found room in an open queue. -/
theorem length_lt_of_room {value : α} (h : s.ready bufferSize (.room value) = true)
    (hc : s.closed = false) : s.queue.length < max 1 bufferSize := by
  simp only [ready] at h
  split at h
  · have hempty : s.queue = [] := by simpa [hc] using h
    rw [hempty, List.length_nil]
    omega
  · have hlt : s.queue.length < bufferSize := by simpa [hc] using h
    omega

variable [Inhabited α]

theorem QueueInv.exclusive_step (hinv : s.QueueInv bufferSize)
    (h : Move bufferSize s i action s' es) : Exclusive QueuePc.critical s'.mutex s'.threads := by
  have hex := hinv.exclusive
  have hidle : ∀ pc, (.running .idle : QueueThread α) = .running pc → pc.critical = false := by
    rintro pc ⟨⟩
    rfl
  cases h with
  | call | close => exact hex.set_outside (by rintro pc ⟨⟩; rfl)
  | closedBefore => exact hex
  | notify _ hm =>
    rw [hm] at hex
    exact (hex.notifyAll _).set_outside hidle
  | foundEmpty _ hm | tookOut _ hm =>
    rw [hm] at hex
    exact hex.set_outside hidle
  | acquire _ _ hm =>
    rw [hm] at hex
    exact (hex.acquire i).set_holder _
  | wakeUp => exact hex.set_outside nofun
  | pass ht =>
    have hm := hinv.mutex_eq ht rfl
    rw [goto_mutex, hm]
    exact (hm ▸ hex).set_holder _
  | block ht =>
    rw [hinv.mutex_eq ht rfl] at hex
    exact hex.release nofun
  | hand ht =>
    have hm := hinv.mutex_eq ht rfl
    rw [goto_mutex, notify_mutex, hm]
    exact ((hm ▸ hex).notifyAll _).set_holder _
  | refuse ht | handed ht | giveUp ht =>
    rw [hinv.mutex_eq ht rfl] at hex
    exact hex.release hidle
  | push ht | pop ht =>
    rw [hinv.mutex_eq ht rfl] at hex
    exact (hex.notifyAll _).release hidle

theorem QueueInv.passed_step (hinv : s.QueueInv bufferSize)
    (h : Move bufferSize s i action s' es) (j : Nat) (wait : QueueWait α)
    (hj : s'.threads[j]? = some (.running (.passed wait))) :
    s'.ready bufferSize wait = true := by
  cases h with
  | call | foundEmpty | acquire | block | wakeUp | refuse | handed | giveUp =>
    -- the queue and the flag are as they were
    rcases getElem?_set_eq_some hj with ⟨-, heq⟩ | ⟨-, hj⟩
    · cases heq
    · exact hinv.passed j wait hj
  | closedBefore => exact hinv.passed j wait hj
  | close => exact ready_of_closed rfl wait
  | notify =>
    rcases getElem?_set_eq_some hj with ⟨-, heq⟩ | ⟨-, hj⟩
    · cases heq
    · exact hinv.passed j wait (getElem?_notifyAll_running.mp hj)
  | pass _ hr =>
    rcases getElem?_set_eq_some hj with ⟨-, heq⟩ | ⟨-, hj⟩
    · cases heq
      exact hr
    · exact hinv.passed j wait hj
  | tookOut _ hm =>
    -- the mutex is free, so nobody is past a wait
    rcases getElem?_set_eq_some hj with ⟨-, heq⟩ | ⟨-, hj⟩
    · cases heq
    · exact absurd hj (hinv.not_passed (by rw [hm]; nofun) wait)
  | push ht | hand ht | pop ht =>
    -- thread `i` holds the mutex, so no other thread is past a wait
    rcases getElem?_set_eq_some hj with ⟨-, heq⟩ | ⟨hne, hj⟩
    · cases heq
    · refine absurd (getElem?_notifyAll_running.mp hj) (hinv.not_passed ?_ wait)
      rw [hinv.mutex_eq ht rfl]
      exact fun heq => hne (Option.some.inj heq).symm

theorem QueueInv.bound_step (hinv : s.QueueInv bufferSize)
    (h : Move bufferSize s i action s' es) : s'.queue.length ≤ max 1 bufferSize := by
  have hbound := hinv.bound
  cases h with
  | tookOut _ _ hq | pop _ _ hq =>
    rw [hq, List.length_cons] at hbound
    exact Nat.le_trans (Nat.le_succ _) hbound
  | push ht hc hb | hand ht hc hb =>
    have hroom := length_lt_of_room (hinv.passed i _ ht) hc
    simp only [leave_queue, goto_queue, notify_queue, List.length_append, List.length_singleton]
    omega
  | _ => exact hbound

theorem QueueInv.step (hinv : s.QueueInv bufferSize) (h : Move bufferSize s i action s' es) :
    s'.QueueInv bufferSize where
  exclusive := hinv.exclusive_step h
  passed := hinv.passed_step h
  bound := hinv.bound_step h

end MessageQueue

theorem queueInv_of_run [Inhabited α] {s : MessageQueue α}
    {ts : List (Transition (MessageQueue α) (QueueInput α) (QueueEvent α))}
    (h : (queueSystem bufferSize).Run ts s) :
    s.QueueInv bufferSize ∧ ∀ t ∈ ts, t.before.QueueInv bufferSize := by
  refine h.invariant ?_ fun s input s' es hinv hs =>
    hinv.step (MessageQueue.move_of_step hs)
  rintro s ⟨n, rfl⟩
  refine ⟨fun j pc hj hpc => ?_, fun j wait hj => ?_, Nat.zero_le _⟩
  · cases MessageQueue.eq_idle_of_mem_init (List.mem_of_getElem? hj)
    cases hpc
  · cases MessageQueue.eq_idle_of_mem_init (List.mem_of_getElem? hj)

/-- The steps `inputs` of `n` threads are a run that has what `P` asks for, if a replay says so. -/
theorem exists_queueRun [Inhabited α] (bufferSize n : Nat) (inputs : List (QueueInput α))
    (P : List (Transition (MessageQueue α) (QueueInput α) (QueueEvent α)) → MessageQueue α → Prop)
    [∀ ts s, Decidable (P ts s)]
    (h : ((queueSystem bufferSize).exec [] (MessageQueue.init n) inputs).any
      (fun r => decide (P r.1 r.2)) = true) :
    ∃ ts s, (queueSystem bufferSize).Run ts s ∧ ts.map Transition.input = inputs ∧ P ts s :=
  System.exists_run_of_exec _ inputs P ⟨n, rfl⟩ h

end Rafty
