import Mathlib.Data.List.Basic

/-!
# Threads in a monitor

Threads that share a mutex and wait on condition variables. A thread is at some place of its own
code, or in the wait set of a condition variable, or has been woken there and must take the mutex
before it looks at its predicate again. `π` are the places, `ω` the waits.

* `Exclusive` — only the holder of the mutex is at a place inside a critical section. The lemmas say
  how a thread that takes the mutex, gives it back or moves on keeps this.
* `NoLost` — no thread is in a wait set while its predicate is true. Since a notification takes a
  thread out of the wait set, and a thread enters it with a predicate that is false, such a thread
  would be one that nobody has notified since its predicate became true. `NoLost.notifyAll` is the
  rule for a step that changes what the predicates read: whoever becomes ready must be notified.
-/

namespace Infra

variable {π ω : Type*}

inductive MonitorThread (π ω : Type*) where
  | running (pc : π)
  | blocked (wait : ω)
  | woken (wait : ω)
deriving DecidableEq, Repr

namespace MonitorThread

/-- The thread after `notify_all` on the condition variables of the waits `on`. -/
def notified (on : ω → Bool) : MonitorThread π ω → MonitorThread π ω
  | blocked wait => if on wait then woken wait else blocked wait
  | thread => thread

variable {on : ω → Bool} {thread : MonitorThread π ω}

theorem notified_eq_running {pc : π} :
    thread.notified on = running pc ↔ thread = running pc := by
  cases thread with
  | running pc' => rfl
  | blocked wait =>
    rw [notified]
    split <;> simp
  | woken wait => simp [notified]

theorem notified_eq_blocked {wait : ω} :
    thread.notified on = blocked wait ↔ thread = blocked wait ∧ on wait = false := by
  cases thread with
  | running pc' => simp [notified]
  | blocked wait' =>
    rw [notified]
    split
    · next hon =>
      simp only [reduceCtorEq, blocked.injEq, false_iff, not_and, Bool.not_eq_false]
      rintro rfl
      exact hon
    · next hon =>
      simp only [blocked.injEq, iff_self_and]
      rintro rfl
      exact Bool.eq_false_iff.mpr hon
  | woken wait' => simp [notified]

end MonitorThread

open MonitorThread

/-- `notify_all` on the condition variables of the waits `on`. -/
def notifyAll (on : ω → Bool) (threads : List (MonitorThread π ω)) : List (MonitorThread π ω) :=
  threads.map (MonitorThread.notified on)

variable {threads : List (MonitorThread π ω)} {thread : MonitorThread π ω} {i j : Nat} {pc : π}
  {on : ω → Bool}

theorem getElem?_notifyAll_running :
    (notifyAll on threads)[i]? = some (running pc) ↔ threads[i]? = some (running pc) := by
  rw [notifyAll, List.getElem?_map, Option.map_eq_some_iff]
  simp [notified_eq_running]

theorem blocked_mem_notifyAll {wait : ω} :
    blocked wait ∈ notifyAll on threads ↔ blocked wait ∈ threads ∧ on wait = false := by
  rw [notifyAll, List.mem_map]
  simp [notified_eq_blocked]

theorem running_mem_notifyAll : running pc ∈ notifyAll on threads ↔ running pc ∈ threads := by
  rw [notifyAll, List.mem_map]
  simp [notified_eq_running]

theorem getElem?_notifyAll_eq_some (h : (notifyAll on threads)[i]? = some thread) :
    ∃ old, threads[i]? = some old ∧ old.notified on = thread := by
  rwa [notifyAll, List.getElem?_map, Option.map_eq_some_iff] at h

/-- A thread after thread `i` has moved. -/
theorem getElem?_set_eq_some {moved : MonitorThread π ω}
    (h : (threads.set i moved)[j]? = some thread) :
    j = i ∧ moved = thread ∨ j ≠ i ∧ threads[j]? = some thread := by
  rw [List.getElem?_set] at h
  split at h
  · next hij =>
    split at h
    · exact Or.inl ⟨hij.symm, Option.some.inj h⟩
    · cases h
  · next hij => exact Or.inr ⟨Ne.symm hij, h⟩

/-- The threads that do not move are still there. -/
theorem mem_set_of_ne {moved old : MonitorThread π ω} (h : thread ∈ threads)
    (hi : threads[i]? = some old) (hne : thread ≠ old) : thread ∈ threads.set i moved := by
  obtain ⟨j, hj⟩ := List.getElem?_of_mem h
  have hij : i ≠ j := by
    rintro rfl
    exact hne (Option.some.inj (hj.symm.trans hi))
  rw [← List.getElem?_set_ne hij] at hj
  exact List.mem_of_getElem? hj

/-- Some thread is in the wait set of one of the waits `on`. -/
def waitsOn (on : ω → Bool) (threads : List (MonitorThread π ω)) : Bool :=
  threads.any fun | blocked wait => on wait | _ => false

theorem waitsOn_eq_false :
    waitsOn on threads = false ↔ ∀ wait, blocked wait ∈ threads → on wait = false := by
  rw [waitsOn, List.any_eq_false]
  constructor
  · intro h wait hmem
    exact Bool.eq_false_iff.mpr (h _ hmem)
  · intro h thread hmem
    cases thread with
    | blocked wait => simp [h wait hmem]
    | _ => simp

/-! ## The mutex -/

/-- Only the holder of the mutex is inside a critical section. -/
def Exclusive (critical : π → Bool) (mutex : Option Nat) (threads : List (MonitorThread π ω)) :
    Prop :=
  ∀ i pc, threads[i]? = some (running pc) → critical pc = true → mutex = some i

namespace Exclusive

variable {critical : π → Bool} {mutex : Option Nat}

theorem notifyAll (h : Exclusive critical mutex threads) (on : ω → Bool) :
    Exclusive critical mutex (notifyAll on threads) := fun i pc hi =>
  h i pc (getElem?_notifyAll_running.mp hi)

/-- A thread that is outside of critical sections after its step. -/
theorem set_outside (h : Exclusive critical mutex threads)
    (ht : ∀ pc, thread = running pc → critical pc = false) :
    Exclusive critical mutex (threads.set i thread) := by
  intro j pc hj hpc
  rcases getElem?_set_eq_some hj with ⟨-, heq⟩ | ⟨-, hj⟩
  · exact absurd hpc (Bool.eq_false_iff.mp (ht pc heq))
  · exact h j pc hj hpc

/-- A thread that holds the mutex before and after its step. -/
theorem set_holder (h : Exclusive critical (some i) threads) (thread : MonitorThread π ω) :
    Exclusive critical (some i) (threads.set i thread) := by
  intro j pc hj hpc
  rcases getElem?_set_eq_some hj with ⟨hji, -⟩ | ⟨-, hj⟩
  · rw [hji]
  · exact h j pc hj hpc

/-- A thread takes the mutex. -/
theorem acquire (h : Exclusive critical none threads) (i : Nat) :
    Exclusive critical (some i) threads := fun j pc hj hpc => nomatch h j pc hj hpc

/-- The holder leaves its critical section and gives the mutex back. -/
theorem release (h : Exclusive critical (some i) threads)
    (ht : ∀ pc, thread = running pc → critical pc = false) :
    Exclusive critical none (threads.set i thread) := by
  intro j pc hj hpc
  rcases getElem?_set_eq_some hj with ⟨-, heq⟩ | ⟨hji, hj⟩
  · exact absurd hpc (Bool.eq_false_iff.mp (ht pc heq))
  · exact absurd (Option.some.inj (h j pc hj hpc)).symm hji

end Exclusive

/-! ## Wake-ups -/

/-- No thread is in a wait set while its predicate is true. -/
def NoLost (ready : ω → Bool) (threads : List (MonitorThread π ω)) : Prop :=
  ∀ wait, blocked wait ∈ threads → ready wait = false

namespace NoLost

variable {ready ready' : ω → Bool}

/-- A thread that enters a wait set does so with a predicate that is false. -/
theorem set (h : NoLost ready threads) (ht : ∀ wait, thread = blocked wait → ready wait = false) :
    NoLost ready (threads.set i thread) := by
  intro wait hmem
  rcases List.mem_or_eq_of_mem_set hmem with hmem | heq
  · exact h wait hmem
  · exact ht wait heq.symm

/-- **The rule for notifications.** -/
theorem notifyAll (h : NoLost ready threads)
    (hon : ∀ wait, on wait = false → ready wait = false → ready' wait = false) :
    NoLost ready' (notifyAll on threads) := by
  intro wait hmem
  obtain ⟨hmem, hno⟩ := blocked_mem_notifyAll.mp hmem
  exact hon wait hno (h wait hmem)

/-- After everybody has been notified nobody is left in a wait set. -/
theorem notifyAll_all : NoLost ready (Infra.notifyAll (fun _ => true) threads) := fun _ hmem =>
  nomatch (blocked_mem_notifyAll.mp hmem).2

end NoLost

end Infra
