import Rafty.PeerWorker

/-!
# What a step of the heartbeat workers can be

`Workers.Move` is the list of the things the threads can do in one step. `PeerWorker.Inv` is what
the three flags of a worker say about where its thread is.
-/

namespace Rafty

open Infra

/-! ## The flags of one worker -/

namespace PeerWorker

/-- The thread has taken a task and not yet reported it as done. -/
def busy (w : PeerWorker) : Bool :=
  match w.thread with
  | .running _ | .executed => true
  | _ => false

/-- What the flags say. -/
structure Inv (w : PeerWorker) : Prop where
  busy : w.busy = true → w.hasTask = false ∧ w.done = false
  /-- Outside of a task, `has_task` and `done` are opposites. -/
  idle : w.busy = false → w.hasTask = !w.done
  exited : w.thread = .exited → w.stop = true

variable {w : PeerWorker}

theorem Inv.not_busy (h : w.Inv) (hd : w.done = true) : w.busy = false :=
  Bool.eq_false_iff.mpr fun hb => by cases hd.symm.trans (h.busy hb).2

theorem Inv.hasTask_of_done (h : w.Inv) (hd : w.done = true) : w.hasTask = false := by
  rw [h.idle (h.not_busy hd), hd]
  rfl

theorem inv_init : ({} : PeerWorker).Inv := ⟨nofun, fun _ => rfl, nofun⟩

theorem Inv.post (h : w.Inv) (hd : w.done = true) (round : Nat) : (w.post round).Inv where
  busy hb := by cases (h.not_busy hd).symm.trans hb
  idle _ := rfl
  exited := h.exited

theorem Inv.exit (h : w.Inv) (ht : w.thread = .waiting) (hs : w.stop = true) :
    ({ w with thread := .exited } : PeerWorker).Inv where
  busy := nofun
  idle _ := h.idle (by simp [PeerWorker.busy, ht])
  exited _ := hs

theorem Inv.take (h : w.Inv) (ht : w.thread = .waiting) (hh : w.hasTask = true) :
    ({ w with hasTask := false, task := none, thread := .running w.task } : PeerWorker).Inv where
  busy _ := by
    have hidle := h.idle (by simp [PeerWorker.busy, ht])
    rw [hh] at hidle
    exact ⟨rfl, by simpa using hidle⟩
  idle := nofun
  exited := nofun

theorem Inv.execute (h : w.Inv) (hb : w.busy = true) :
    ({ w with thread := .executed } : PeerWorker).Inv where
  busy _ := h.busy hb
  idle := nofun
  exited := nofun

theorem Inv.finish (h : w.Inv) (hb : w.busy = true) :
    ({ w with done := true, thread := .waiting } : PeerWorker).Inv where
  busy := nofun
  idle _ := (h.busy hb).1
  exited := nofun

theorem Inv.setStop (h : w.Inv) : ({ w with stop := true } : PeerWorker).Inv where
  busy := h.busy
  idle := h.idle
  exited _ := rfl

end PeerWorker

/-! ## The steps -/

namespace Workers

@[simp] theorem setWorker_self (s : Workers) (peer : NodeId) (w : PeerWorker) :
    (s.setWorker peer w).workers peer = w := Function.update_self ..

theorem setWorker_ne (s : Workers) {peer p : NodeId} (h : p ≠ peer) (w : PeerWorker) :
    (s.setWorker peer w).workers p = s.workers p := Function.update_of_ne h ..

@[simp] theorem setWorker_rounds (s : Workers) (peer : NodeId) (w : PeerWorker) :
    (s.setWorker peer w).rounds = s.rounds := rfl

/-- The things that can happen in one step. -/
inductive Move (cfg : WorkerConfig) (s : Workers) :
    WorkerAction → Workers → List WorkerEvent → Prop
  -- the thread of `run`
  | checkDead (hr : s.run = .loopTop) :
      Move cfg s .checkDead { s with run := if s.dead then .exited else .body } []
  | noRound (hr : s.run = .body) : Move cfg s .noRound { s with run := .loopTop } []
  | sendHeartbeats (hr : s.run = .body) :
      Move cfg s .sendHeartbeats { s with run := .posting cfg.peers } []
  | post {peer : NodeId} {todo : List NodeId} (hr : s.run = .posting (peer :: todo))
      (hd : (s.workers peer).done = true) :
      Move cfg s .post
        { s.setWorker peer ((s.workers peer).post s.rounds) with run := .posting todo }
        [.posted peer s.rounds]
  | allPosted (hr : s.run = .posting []) :
      Move cfg s .post { s with run := .awaiting cfg.peers } []
  | await {peer : NodeId} {todo : List NodeId} (hr : s.run = .awaiting (peer :: todo))
      (hd : (s.workers peer).done = true) :
      Move cfg s .await { s with run := .awaiting todo } [.returned peer s.rounds]
  | allReturned (hr : s.run = .awaiting []) :
      Move cfg s .await { s with run := .loopTop, rounds := s.rounds + 1 } []
  -- the worker of `peer`
  | exit {peer : NodeId} (ht : (s.workers peer).thread = .waiting)
      (hs : (s.workers peer).stop = true) :
      Move cfg s (.wake peer) (s.setWorker peer { s.workers peer with thread := .exited }) []
  | take {peer : NodeId} (ht : (s.workers peer).thread = .waiting)
      (hs : (s.workers peer).stop = false) (hh : (s.workers peer).hasTask = true) :
      Move cfg s (.wake peer)
        (s.setWorker peer { s.workers peer with
          hasTask := false, task := none, thread := .running (s.workers peer).task }) []
  | execute {peer : NodeId} {round : Nat}
      (ht : (s.workers peer).thread = .running (some round)) :
      Move cfg s (.execute peer) (s.setWorker peer { s.workers peer with thread := .executed })
        [.executed peer round]
  | finish {peer : NodeId} (ht : (s.workers peer).thread = .executed) :
      Move cfg s (.finish peer)
        (s.setWorker peer { s.workers peer with done := true, thread := .waiting }) []
  -- the thread of `kill`
  | kill (hk : s.kill = .notCalled) :
      Move cfg s .kill { s with dead := true, kill := .stopping cfg.workers } []
  | stop {peer : NodeId} {todo : List NodeId} (hk : s.kill = .stopping (peer :: todo)) :
      Move cfg s .stop
        { s.setWorker peer { s.workers peer with stop := true } with kill := .joining peer todo } []
  | allJoined (hk : s.kill = .stopping []) : Move cfg s .stop { s with kill := .returned } []
  | join {peer : NodeId} {todo : List NodeId} (hk : s.kill = .joining peer todo)
      (ht : (s.workers peer).thread = .exited) :
      Move cfg s .join { s with kill := .stopping todo } []

variable {cfg : WorkerConfig} {s s' : Workers} {action : WorkerAction} {es : List WorkerEvent}

theorem move_stepRun {run : RunThread} (hr : s.run = run)
    (h : s.stepRun cfg action run = some (s', es)) : Move cfg s action s' es := by
  unfold stepRun at h
  split at h
  · obtain ⟨rfl, rfl⟩ := Prod.mk.inj (Option.some.inj h)
    exact .checkDead hr
  · obtain ⟨rfl, rfl⟩ := Prod.mk.inj (Option.some.inj h)
    exact .noRound hr
  · obtain ⟨rfl, rfl⟩ := Prod.mk.inj (Option.some.inj h)
    exact .sendHeartbeats hr
  · split at h
    · next hd =>
      obtain ⟨rfl, rfl⟩ := Prod.mk.inj (Option.some.inj h)
      exact .post hr hd
    · cases h
  · obtain ⟨rfl, rfl⟩ := Prod.mk.inj (Option.some.inj h)
    exact .allPosted hr
  · split at h
    · next hd =>
      obtain ⟨rfl, rfl⟩ := Prod.mk.inj (Option.some.inj h)
      exact .await hr hd
    · cases h
  · obtain ⟨rfl, rfl⟩ := Prod.mk.inj (Option.some.inj h)
    exact .allReturned hr
  · cases h

theorem move_stepKill {kill : KillThread} (hk : s.kill = kill)
    (h : (s.stepKill cfg action kill).map (fun s => (s, [])) = some (s', es)) :
    Move cfg s action s' es := by
  obtain ⟨s₁, h, he⟩ := Option.map_eq_some_iff.mp h
  obtain ⟨rfl, rfl⟩ := Prod.mk.inj he
  unfold stepKill at h
  split at h
  · cases h
    exact .kill hk
  · cases h
    exact .stop hk
  · cases h
    exact .allJoined hk
  · split at h
    · next ht =>
      cases h
      exact .join hk ht
    · cases h
  · cases h

theorem move_wake {peer : NodeId} {w : PeerWorker} (h : (s.workers peer).wake = some w) :
    Move cfg s (.wake peer) (s.setWorker peer w) [] := by
  unfold PeerWorker.wake at h
  split at h
  · next hwait =>
    split at h
    · next hs =>
      cases h
      exact .exit hwait.1 hs
    · next hs =>
      cases h
      exact .take hwait.1 (Bool.eq_false_iff.mpr hs) (by simpa [hs] using hwait.2)
  · cases h

theorem move_execute {peer : NodeId} {w : PeerWorker} {round : Nat}
    (h : (s.workers peer).execute = some (w, round)) :
    Move cfg s (.execute peer) (s.setWorker peer w) [.executed peer round] := by
  unfold PeerWorker.execute at h
  split at h
  · next ht =>
    cases h
    exact .execute ht
  · cases h

theorem move_finish {peer : NodeId} {w : PeerWorker} (h : (s.workers peer).finish = some w) :
    Move cfg s (.finish peer) (s.setWorker peer w) [] := by
  unfold PeerWorker.finish at h
  split at h
  · next ht =>
    cases h
    exact .finish ht
  · cases h

/-- **Inversion of `Workers.step`.** -/
theorem move_of_step (h : s.step cfg action = some (s', es)) : Move cfg s action s' es := by
  unfold step at h
  split at h
  · obtain ⟨w, hw, he⟩ := Option.map_eq_some_iff.mp h
    obtain ⟨rfl, rfl⟩ := Prod.mk.inj he
    exact move_wake hw
  · obtain ⟨⟨w, round⟩, hw, he⟩ := Option.map_eq_some_iff.mp h
    obtain ⟨rfl, rfl⟩ := Prod.mk.inj he
    exact move_execute hw
  · obtain ⟨w, hw, he⟩ := Option.map_eq_some_iff.mp h
    obtain ⟨rfl, rfl⟩ := Prod.mk.inj he
    exact move_finish hw
  · exact move_stepKill rfl h
  · exact move_stepKill rfl h
  · exact move_stepKill rfl h
  · exact move_stepRun rfl h

/-- What each of the workers keeps is kept by a step that changes one of them. -/
theorem forall_setWorker {P : PeerWorker → Prop} (h : ∀ p, P (s.workers p)) {peer : NodeId}
    {w : PeerWorker} (hw : P w) (p : NodeId) : P ((s.setWorker peer w).workers p) := by
  by_cases hp : p = peer
  · rw [hp, setWorker_self]
    exact hw
  · rw [setWorker_ne s hp]
    exact h p

theorem Move.workers_inv (h : Move cfg s action s' es) (hinv : ∀ p, (s.workers p).Inv) :
    ∀ p, (s'.workers p).Inv := by
  have hrunning : ∀ {peer task}, (s.workers peer).thread = .running task →
      (s.workers peer).busy = true := fun ht => by simp [PeerWorker.busy, ht]
  cases h with
  | @post peer _ _ hd => exact forall_setWorker hinv ((hinv peer).post hd _)
  | @exit peer ht hs => exact forall_setWorker hinv ((hinv peer).exit ht hs)
  | @take peer ht _ hh => exact forall_setWorker hinv ((hinv peer).take ht hh)
  | @execute peer _ ht => exact forall_setWorker hinv ((hinv peer).execute (hrunning ht))
  | @finish peer ht =>
    exact forall_setWorker hinv ((hinv peer).finish (by simp [PeerWorker.busy, ht]))
  | @stop peer => exact forall_setWorker hinv (hinv peer).setStop
  | _ => exact hinv

end Workers

end Rafty
