import Rafty.Properties.PeerWorker

/-!
# Tasks of the heartbeat workers

* `returned_of_run` — when the wait for a worker returns, its task of this round has been executed,
  once, as have those of the rounds before it. This holds however `kill` comes in between: a worker
  that leaves its loop with a task leaves `done` at false, so the wait does not return at all.
* `noneAbandoned_of_run` — no worker leaves its loop with a task that is not done, as long as `kill`
  stops no worker with a task it has not picked up, and no task is posted to a stopped worker.
* `abandoned_of_disorderly` — each step that breaks this condition can be followed by a hang.

The footing of the first one is that the events of one worker are rounds of posting, executing and
returning, of which the last may be under way: `Workers.Tracks`.
-/

namespace Rafty

open Infra

/-! ## The history of one worker -/

def WorkerEvent.peer : WorkerEvent → NodeId
  | posted peer _ | executed peer _ | returned peer _ => peer

/-- The events of one worker. -/
def history (peer : NodeId) (es : List WorkerEvent) : List WorkerEvent :=
  es.filter fun e => e.peer = peer

/-- The first `n` rounds of one worker, from the posting to the return. -/
def fullRounds (peer : NodeId) (n : Nat) : List WorkerEvent :=
  (List.range n).flatMap fun round =>
    [.posted peer round, .executed peer round, .returned peer round]

theorem history_append (peer : NodeId) (es es' : List WorkerEvent) :
    history peer (es ++ es') = history peer es ++ history peer es' := List.filter_append ..

@[simp] theorem history_nil (peer : NodeId) : history peer [] = [] := rfl

theorem history_singleton {peer : NodeId} {e : WorkerEvent} (h : e.peer = peer) :
    history peer [e] = [e] := by
  simp [history, h]

theorem history_singleton_ne {peer : NodeId} {e : WorkerEvent} (h : peer ≠ e.peer) :
    history peer [e] = [] := by
  simp [history, h.symm]

theorem fullRounds_succ (peer : NodeId) (n : Nat) : fullRounds peer (n + 1) =
    fullRounds peer n ++ [.posted peer n, .executed peer n, .returned peer n] := by
  simp [fullRounds, List.range_succ]

theorem count_history {peer : NodeId} {es : List WorkerEvent} {e : WorkerEvent}
    (h : e.peer = peer) : (history peer es).count e = es.count e :=
  List.count_filter (by simpa using h)

theorem count_executed_fullRounds (peer : NodeId) (n round : Nat) :
    (fullRounds peer n).count (.executed peer round) = if round < n then 1 else 0 := by
  induction n with
  | zero => rfl
  | succ n ih =>
    rw [fullRounds_succ, List.count_append, ih]
    by_cases hn : round = n
    · simp [hn]
    · have hlt : round < n + 1 ↔ round < n := by omega
      simp [hlt, Ne.symm hn]

namespace PeerWorker

/-- The task has been posted and not yet been executed. -/
def pending (w : PeerWorker) : Bool :=
  w.hasTask || match w.thread with | .running _ => true | _ => false

/-- `n` rounds are behind the worker. -/
structure Settled (w : PeerWorker) (peer : NodeId) (n : Nat) (h : List WorkerEvent) : Prop where
  done : w.done = true
  history : h = fullRounds peer n

/-- The worker has been given the task of `round`, and the wait for it has not returned. -/
structure Outstanding (w : PeerWorker) (peer : NodeId) (round : Nat) (h : List WorkerEvent) :
    Prop where
  history : h = fullRounds peer round ++
    .posted peer round :: if w.pending then [] else [.executed peer round]
  posted : w.hasTask = true → w.task = some round
  running : ∀ task, w.thread = .running task → task = some round

variable {w : PeerWorker} {peer : NodeId} {n round : Nat} {h : List WorkerEvent}

theorem pending_of_not_busy (hb : w.busy = false) : w.pending = w.hasTask := by
  unfold busy at hb
  unfold pending
  split at hb <;> simp_all

theorem Settled.post (hs : w.Settled peer n h) (hinv : w.Inv) :
    (w.post n).Outstanding peer n (h ++ [.posted peer n]) where
  history := by rw [hs.history]; rfl
  posted _ := rfl
  running task ht := by
    have hb := hinv.not_busy hs.done
    rw [busy, show w.thread = _ from ht] at hb
    cases hb

theorem Outstanding.returned (ho : w.Outstanding peer n h) (hinv : w.Inv) (hd : w.done = true) :
    h = fullRounds peer n ++ [.posted peer n, .executed peer n] := by
  have hpending : w.pending = false := by
    rw [pending_of_not_busy (hinv.not_busy hd), hinv.hasTask_of_done hd]
  rw [ho.history, hpending]
  rfl

theorem Outstanding.take (ho : w.Outstanding peer n h) (hh : w.hasTask = true) :
    ({ w with hasTask := false, task := none, thread := .running w.task } :
      PeerWorker).Outstanding peer n h where
  history := by
    have hpending : w.pending = true := by simp [pending, hh]
    rw [ho.history, hpending]
    rfl
  posted := nofun
  running task ht := by
    cases ht
    exact ho.posted hh

theorem Outstanding.execute (ho : w.Outstanding peer n h) (hinv : w.Inv)
    (ht : w.thread = .running (some round)) :
    ({ w with thread := .executed } : PeerWorker).Outstanding peer n
      (h ++ [.executed peer round]) where
  history := by
    cases ho.running _ ht
    have hidle := (hinv.busy (by simp [busy, ht])).1
    simp [ho.history, pending, ht, hidle]
  posted := ho.posted
  running := nofun

theorem Outstanding.finish (ho : w.Outstanding peer n h) (ht : w.thread = .executed) :
    ({ w with done := true, thread := .waiting } : PeerWorker).Outstanding peer n h where
  history := by simp [ho.history, pending, ht]
  posted := ho.posted
  running := nofun

theorem Outstanding.exit (ho : w.Outstanding peer n h) (ht : w.thread = .waiting) :
    ({ w with thread := .exited } : PeerWorker).Outstanding peer n h where
  history := by simp [ho.history, pending, ht]
  posted := ho.posted
  running := nofun

theorem Outstanding.setStop (ho : w.Outstanding peer n h) :
    ({ w with stop := true } : PeerWorker).Outstanding peer n h :=
  ⟨ho.history, ho.posted, ho.running⟩

end PeerWorker

/-! ## One step -/

/-- The peers that the loop of `send_heartbeats` still has to go through. -/
def RunThread.todo : RunThread → List NodeId
  | posting todo | awaiting todo => todo
  | _ => []

namespace Workers

/-- The task of this round has been posted to the worker and the wait for it has not returned. -/
def outstanding (s : Workers) (peer : NodeId) : Bool :=
  match s.run with
  | .posting todo => peer ∉ todo
  | .awaiting todo => peer ∈ todo
  | _ => false

/-- The number of rounds behind the workers whose task is not outstanding. -/
def completed (s : Workers) : Nat :=
  match s.run with
  | .awaiting _ => s.rounds + 1
  | _ => s.rounds

/-- The history of a worker is as its flags and the thread of `run` say. -/
structure Tracks (s : Workers) (peer : NodeId) (h : List WorkerEvent) : Prop where
  outstanding : s.outstanding peer = true → (s.workers peer).Outstanding peer s.rounds h
  settled : s.outstanding peer = false → (s.workers peer).Settled peer s.completed h

variable {cfg : WorkerConfig} {s s' : Workers} {action : WorkerAction} {es : List WorkerEvent}
  {p peer : NodeId} {h : List WorkerEvent} {w : PeerWorker}

/-- The thread of `run` has moved on, but not for this worker. -/
theorem Tracks.congr (ht : s.Tracks p h) (hw : s'.workers p = s.workers p)
    (ho : s'.outstanding p = s.outstanding p)
    (hr : s.outstanding p = true → s'.rounds = s.rounds)
    (hc : s.outstanding p = false → s'.completed = s.completed) : s'.Tracks p h where
  outstanding hout := by
    rw [ho] at hout
    rw [hw, hr hout]
    exact ht.outstanding hout
  settled hset := by
    rw [ho] at hset
    rw [hw, hc hset]
    exact ht.settled hset

/-- The worker of `peer` has moved on, without an event. -/
theorem Tracks.setWorker (ht : s.Tracks p h)
    (hout : p = peer → (s.workers p).Outstanding p s.rounds h → w.Outstanding p s.rounds h)
    (hset : p = peer → (s.workers p).Settled p s.completed h → w.Settled p s.completed h) :
    (s.setWorker peer w).Tracks p h := by
  by_cases hp : p = peer
  · have hself : (s.setWorker peer w).workers p = w := by rw [hp, setWorker_self]
    refine ⟨fun ho => ?_, fun ho => ?_⟩
    · rw [hself]
      exact hout hp (ht.outstanding ho)
    · rw [hself]
      exact hset hp (ht.settled ho)
  · exact ht.congr (setWorker_ne s hp w) rfl (fun _ => rfl) fun _ => rfl

theorem Tracks.append_nil (ht : s.Tracks p h) : s.Tracks p (h ++ history p []) := by
  rwa [history_nil, List.append_nil]

/-- The peer the loop has come to is not among those behind it. -/
theorem not_mem_todo {todo : List NodeId} (h : peer :: todo <:+ cfg.peers) : peer ∉ todo :=
  (List.nodup_cons.mp (h.sublist.nodup cfg.nodup)).1

theorem Tracks.post (ht : s.Tracks p h) (hinv : (s.workers peer).Inv) {todo : List NodeId}
    (hr : s.run = .posting (peer :: todo)) (htodo : peer :: todo <:+ cfg.peers) :
    ({ s.setWorker peer ((s.workers peer).post s.rounds) with run := .posting todo } :
      Workers).Tracks p (h ++ history p [.posted peer s.rounds]) := by
  by_cases hp : p = peer
  · subst hp
    have hset : (s.workers p).Settled p s.rounds h := by
      simpa [completed, hr] using ht.settled (by simp [Workers.outstanding, hr])
    refine ⟨fun _ => ?_, fun ho => absurd (not_mem_todo htodo) ?_⟩
    · dsimp only
      rw [history_singleton (show (WorkerEvent.posted p s.rounds).peer = p from rfl),
        setWorker_self, setWorker_rounds]
      exact hset.post hinv
    · simpa [Workers.outstanding] using ho
  · rw [history_singleton_ne hp, List.append_nil]
    refine ht.congr (setWorker_ne s hp _) ?_ (fun _ => rfl) fun _ => ?_
    · simp [Workers.outstanding, hr, hp]
    · simp [completed, hr]

theorem Tracks.await (ht : s.Tracks p h) (hinv : (s.workers peer).Inv)
    (hd : (s.workers peer).done = true) {todo : List NodeId}
    (hr : s.run = .awaiting (peer :: todo)) (htodo : peer :: todo <:+ cfg.peers) :
    ({ s with run := .awaiting todo } : Workers).Tracks p
      (h ++ history p [.returned peer s.rounds]) := by
  by_cases hp : p = peer
  · subst hp
    have hout := ht.outstanding (by simp [Workers.outstanding, hr])
    refine ⟨fun ho => absurd (not_mem_todo htodo) ?_, fun _ => ⟨hd, ?_⟩⟩
    · simpa [Workers.outstanding] using ho
    · rw [history_singleton (show (WorkerEvent.returned p s.rounds).peer = p from rfl),
        hout.returned hinv hd, completed, fullRounds_succ, List.append_assoc]
      rfl
  · rw [history_singleton_ne hp, List.append_nil]
    refine ht.congr rfl ?_ (fun _ => rfl) fun _ => ?_
    · simp [Workers.outstanding, hr, hp]
    · simp [completed, hr]

theorem Tracks.execute (ht : s.Tracks p h) (hinv : (s.workers peer).Inv) {round : Nat}
    (hthread : (s.workers peer).thread = .running (some round)) :
    (s.setWorker peer { s.workers peer with thread := .executed }).Tracks p
      (h ++ history p [.executed peer round]) := by
  by_cases hp : p = peer
  · subst hp
    have hd := (hinv.busy (by simp [PeerWorker.busy, hthread])).2
    refine ⟨fun ho => ?_, fun ho => ?_⟩
    · rw [history_singleton (show (WorkerEvent.executed p round).peer = p from rfl),
        setWorker_self, setWorker_rounds]
      exact (ht.outstanding ho).execute hinv hthread
    · cases hd.symm.trans (ht.settled ho).done
  · rw [history_singleton_ne hp, List.append_nil]
    exact ht.congr (setWorker_ne s hp _) rfl (fun _ => rfl) fun _ => rfl

/-- **One step** keeps the history of each worker in line with its flags. -/
theorem Move.tracks (hm : Move cfg s action s' es) (hinv : ∀ p, (s.workers p).Inv)
    (htodo : s.run.todo <:+ cfg.peers) (hp : p ∈ cfg.peers) (ht : s.Tracks p h) :
    s'.Tracks p (h ++ history p es) := by
  cases hm with
  | @post peer todo hr =>
    rw [hr] at htodo
    exact ht.post (hinv peer) hr htodo
  | @await peer todo hr hd =>
    rw [hr] at htodo
    exact ht.await (hinv peer) hd hr htodo
  | @execute peer round hthread => exact ht.execute (hinv peer) hthread
  -- the thread of `run` between the two loops
  | checkDead hr =>
    refine Tracks.append_nil (ht.congr rfl ?_ (fun _ => rfl) fun _ => ?_)
    · cases hd : s.dead <;> simp [Workers.outstanding, hr]
    · cases hd : s.dead <;> simp [completed, hr]
  | noRound hr =>
    refine Tracks.append_nil (ht.congr rfl ?_ (fun _ => rfl) fun _ => ?_)
    · simp [Workers.outstanding, hr]
    · simp [completed, hr]
  | sendHeartbeats hr =>
    refine Tracks.append_nil (ht.congr rfl ?_ (fun _ => rfl) fun _ => ?_)
    · simp [Workers.outstanding, hr, hp]
    · simp [completed, hr]
  | allPosted hr =>
    refine Tracks.append_nil (ht.congr rfl ?_ (fun _ => rfl) fun ho => ?_)
    · simp [Workers.outstanding, hr, hp]
    · simp [Workers.outstanding, hr] at ho
  | allReturned hr =>
    refine Tracks.append_nil (ht.congr rfl ?_ (fun ho => ?_) fun _ => ?_)
    · simp [Workers.outstanding, hr]
    · simp [Workers.outstanding, hr] at ho
    · simp [completed, hr]
  -- the workers
  | @exit peer hthread =>
    refine Tracks.append_nil (ht.setWorker ?_ ?_)
    · rintro rfl ho
      exact ho.exit hthread
    · rintro rfl hs
      exact ⟨hs.done, hs.history⟩
  | @take peer hthread hs hh =>
    refine Tracks.append_nil (ht.setWorker ?_ ?_)
    · rintro rfl ho
      exact ho.take hh
    · rintro rfl hs
      cases hh.symm.trans ((hinv p).hasTask_of_done hs.done)
  | @finish peer hthread =>
    refine Tracks.append_nil (ht.setWorker ?_ ?_)
    · rintro rfl ho
      exact ho.finish hthread
    · rintro rfl hs
      exact ⟨rfl, hs.history⟩
  | @stop peer =>
    refine Tracks.append_nil (Tracks.congr (ht.setWorker ?_ ?_) rfl rfl (fun _ => rfl) fun _ => rfl)
    · rintro rfl ho
      exact ho.setStop
    · rintro rfl hs
      exact ⟨hs.done, hs.history⟩
  | _ => exact Tracks.append_nil (ht.congr rfl rfl (fun _ => rfl) fun _ => rfl)

theorem Move.todo (hm : Move cfg s action s' es) (htodo : s.run.todo <:+ cfg.peers) :
    s'.run.todo <:+ cfg.peers := by
  cases hm with
  | post hr | await hr =>
    rw [hr] at htodo
    exact (List.suffix_cons _ _).trans htodo
  | sendHeartbeats | allPosted => exact List.suffix_rfl
  | checkDead =>
    cases s.dead
    · exact List.nil_suffix
    · exact List.nil_suffix
  | noRound | allReturned => exact List.nil_suffix
  | _ => exact htodo

/-- What holds after the events `es`. -/
structure Inv (cfg : WorkerConfig) (s : Workers) (es : List WorkerEvent) : Prop where
  workers : ∀ p, (s.workers p).Inv
  todo : s.run.todo <:+ cfg.peers
  tracks : ∀ p ∈ cfg.peers, s.Tracks p (history p es)

/-- When the wait for a worker returns, its task has been executed. -/
theorem Move.returned (hm : Move cfg s action s' es) {past : List WorkerEvent}
    (hinv : s.Inv cfg past) {round : Nat} (hmem : .returned peer round ∈ es) :
    es = [.returned peer round] ∧ peer ∈ cfg.peers ∧
      history peer past = fullRounds peer round ++ [.posted peer round, .executed peer round] := by
  cases hm with
  | await hr hd =>
    rw [List.mem_singleton, WorkerEvent.returned.injEq] at hmem
    obtain ⟨rfl, rfl⟩ := hmem
    have htodo := hinv.todo
    rw [hr] at htodo
    have hpeer : peer ∈ cfg.peers := htodo.subset List.mem_cons_self
    have hout := (hinv.tracks peer hpeer).outstanding (by simp [Workers.outstanding, hr])
    exact ⟨rfl, hpeer, hout.returned (hinv.workers peer) hd⟩
  | _ => simp at hmem

/-! ## A `kill` that finds no task on the way -/

/-- No worker has left its loop with a task that is not done. -/
def NoneAbandoned (s : Workers) : Prop :=
  ∀ p, ¬((s.workers p).done = false ∧ (s.workers p).thread = .exited)

/--
`kill` stops a worker that has picked up what was posted to it, and a task is posted to a worker
that has not been stopped.
-/
def orderly (s : Workers) : WorkerAction → Bool
  | .stop =>
    match s.kill with
    | .stopping (peer :: _) => !(s.workers peer).hasTask
    | _ => true
  | .post =>
    match s.run with
    | .posting (peer :: _) => !(s.workers peer).stop
    | _ => true
  | _ => true

/-- No stopped worker has a task to pick up. -/
def Attended (s : Workers) : Prop :=
  ∀ p, (s.workers p).hasTask = true → (s.workers p).stop = false

theorem Move.attended (hm : Move cfg s action s' es) (ha : s.Attended)
    (ho : s.orderly action = true) : s'.Attended := by
  have hkeep : ∀ {peer : NodeId} {w : PeerWorker}, (w.hasTask = true → w.stop = false) →
      (s.setWorker peer w).Attended := fun hw =>
    forall_setWorker (P := fun w => w.hasTask = true → w.stop = false) ha hw
  cases hm with
  | @post peer todo hr =>
    simp only [orderly, hr, Bool.not_eq_true'] at ho
    exact hkeep fun _ => ho
  | @stop peer todo hk =>
    simp only [orderly, hk, Bool.not_eq_true'] at ho
    exact hkeep fun hh => by cases ho.symm.trans hh
  | take => exact hkeep nofun
  | @exit peer | @execute peer | @finish peer => exact hkeep (ha peer)
  | _ => exact ha

/-- A worker leaves its loop once it is stopped, and then it has no task. -/
theorem noneAbandoned_of_attended (hinv : ∀ p, (s.workers p).Inv) (ha : s.Attended) :
    s.NoneAbandoned := by
  rintro p ⟨hd, ht⟩
  have hidle := (hinv p).idle (by simp [PeerWorker.busy, ht])
  have hstop := ha p (by rw [hidle, hd]; rfl)
  cases hstop.symm.trans ((hinv p).exited ht)

/-! ## A `kill` that finds one -/

/-- A stopped worker with a task to pick up has left its loop, or will do so in its next step. -/
theorem exists_abandoned {ts : List (Transition Workers WorkerAction WorkerEvent)}
    (hrun : (workerSystem cfg).Run ts s) (hinv : (s.workers peer).Inv)
    (hh : (s.workers peer).hasTask = true) (hs : (s.workers peer).stop = true) :
    ∃ us u, (workerSystem cfg).Run (ts ++ us) u ∧ ¬u.NoneAbandoned := by
  have hb : (s.workers peer).busy = false :=
    Bool.eq_false_iff.mpr fun hb => by cases hh.symm.trans (hinv.busy hb).1
  have hd : (s.workers peer).done = false := by
    have hidle := hinv.idle hb
    rw [hh] at hidle
    simpa using hidle
  cases ht : (s.workers peer).thread with
  | exited => exact ⟨[], s, by rwa [List.append_nil], fun hn => hn peer ⟨hd, ht⟩⟩
  | waiting =>
    have hstep : (workerSystem cfg).step s (.wake peer) =
        some (s.setWorker peer { s.workers peer with thread := .exited }, []) := by
      simp [workerSystem, step, PeerWorker.wake, ht, hs]
    refine ⟨_, _, hrun.step hstep, fun hn => hn peer ?_⟩
    rw [setWorker_self]
    exact ⟨hd, rfl⟩
  | running task | executed =>
    rw [PeerWorker.busy, ht] at hb
    cases hb

/-- A step that is not orderly leaves a stopped worker with a task to pick up. -/
theorem Move.disorderly (hm : Move cfg s action s' es) (ho : s.orderly action = false) :
    ∃ peer, (s'.workers peer).hasTask = true ∧ (s'.workers peer).stop = true := by
  cases hm with
  | @post peer todo hr =>
    simp only [orderly, hr, Bool.not_eq_false'] at ho
    refine ⟨peer, ?_⟩
    dsimp only
    rw [setWorker_self]
    exact ⟨rfl, ho⟩
  | @stop peer todo hk =>
    simp only [orderly, hk, Bool.not_eq_false'] at ho
    refine ⟨peer, ?_⟩
    dsimp only
    rw [setWorker_self]
    exact ⟨ho, rfl⟩
  | allPosted hr => simp [orderly, hr] at ho
  | allJoined hk => simp [orderly, hk] at ho
  | _ => cases ho

end Workers

/-! ## Every run -/

section Runs

open Workers

variable {cfg : WorkerConfig} {s : Workers}
  {ts : List (Transition Workers WorkerAction WorkerEvent)}

theorem workersInv_of_run (h : (workerSystem cfg).Run ts s) : s.Inv cfg (events ts) := by
  induction h with
  | init hi =>
    obtain rfl := hi
    exact ⟨fun _ => PeerWorker.inv_init, List.nil_suffix, fun _ _ => ⟨nofun, fun _ => ⟨rfl, rfl⟩⟩⟩
  | step hr hs ih =>
    have hmove := move_of_step hs
    refine ⟨hmove.workers_inv ih.workers, hmove.todo ih.todo, fun p hp => ?_⟩
    rw [events_append, events_singleton, history_append]
    exact hmove.tracks ih.workers ih.todo hp (ih.tracks p hp)

/-- Every wait of a round finds the task of this round executed, after those of all others. -/
theorem returned_of_run (h : (workerSystem cfg).Run ts s) :
    ∀ pre e post, events ts = pre ++ e :: post → ∀ peer round, e = .returned peer round →
      history peer pre = fullRounds peer round ++ [.posted peer round, .executed peer round] := by
  refine h.forall_event fun ts s action s' es hr hs a e b hes peer round he => ?_
  subst he
  have hmem : .returned peer round ∈ es := by simp [hes]
  obtain ⟨hone, -, hhist⟩ := (move_of_step hs).returned (workersInv_of_run hr) hmem
  obtain ⟨rfl, -⟩ := System.split_singleton (hone.symm.trans hes)
  rwa [List.append_nil]

/-- No task is executed twice. -/
theorem count_executed_le_one (h : (workerSystem cfg).Run ts s) {peer : NodeId}
    (hp : peer ∈ cfg.peers) (round : Nat) : (events ts).count (.executed peer round) ≤ 1 := by
  have htracks := (workersInv_of_run h).tracks peer hp
  rw [← count_history (show (WorkerEvent.executed peer round).peer = peer from rfl)]
  cases ho : s.outstanding peer with
  | true =>
    rw [(htracks.outstanding ho).history, List.count_append, count_executed_fullRounds]
    by_cases hr : round = s.rounds
    · cases (s.workers peer).pending <;> simp [hr]
    · cases (s.workers peer).pending <;> simp [Ne.symm hr] <;> split <;> omega
  | false =>
    rw [(htracks.settled ho).history, count_executed_fullRounds]
    split <;> omega

theorem noneAbandoned_of_run (h : (workerSystem cfg).Run ts s)
    (hp : ∀ t ∈ ts, t.before.orderly t.input = true) :
    s.NoneAbandoned ∧ ∀ t ∈ ts, t.before.NoneAbandoned := by
  have hinv := (h.restrict hp).invariant (P := fun s => (∀ p, (s.workers p).Inv) ∧ s.Attended)
    (by
      rintro s rfl
      exact ⟨fun _ => PeerWorker.inv_init, nofun⟩)
    (by
      rintro s action s' es ⟨hinv, ha⟩ hs
      obtain ⟨ho, hs⟩ := System.restrict_step.mp hs
      have hmove := move_of_step hs
      exact ⟨hmove.workers_inv hinv, hmove.attended ha ho⟩)
  exact ⟨noneAbandoned_of_attended hinv.1.1 hinv.1.2,
    fun t ht => noneAbandoned_of_attended (hinv.2 t ht).1 (hinv.2 t ht).2⟩

/-- After a step that is not orderly, a worker may leave its loop with a task that is not done. -/
theorem abandoned_of_disorderly (h : (workerSystem cfg).Run ts s) {action : WorkerAction}
    {s' : Workers} {es : List WorkerEvent} (hs : s.step cfg action = some (s', es))
    (ho : s.orderly action = false) :
    ∃ us u, (workerSystem cfg).Run (ts ++ ⟨s, action, es, s'⟩ :: us) u ∧ ¬u.NoneAbandoned := by
  have hrun := System.Run.step h hs
  obtain ⟨peer, hh, hstop⟩ := (move_of_step hs).disorderly ho
  obtain ⟨us, u, hu, hlost⟩ :=
    exists_abandoned hrun ((workersInv_of_run hrun).workers peer) hh hstop
  exact ⟨us, u, by simpa using hu, hlost⟩

/--
**Tasks are executed once, and not lost by an orderly `kill`.** In every run, when the wait for a
worker in a round returns, the events of this worker so far are those of the full rounds before it,
and that the task of this round was posted and executed; no task is executed twice. If `kill` stops
no worker with a task still to be picked up, and no task is posted to a stopped worker, then no
worker leaves its loop while `done` is false. If a step breaks this, such a state can follow.
-/
theorem heartbeat_workers (h : (workerSystem cfg).Run ts s) :
    (∀ pre peer round post, events ts = pre ++ .returned peer round :: post →
      history peer pre = fullRounds peer round ++ [.posted peer round, .executed peer round] ∧
      pre.count (.executed peer round) = 1) ∧
    (∀ peer ∈ cfg.peers, ∀ round, (events ts).count (.executed peer round) ≤ 1) ∧
    ((∀ t ∈ ts, t.before.orderly t.input = true) →
      s.NoneAbandoned ∧ ∀ t ∈ ts, t.before.NoneAbandoned) ∧
    ∀ action s' es, s.step cfg action = some (s', es) → s.orderly action = false →
      ∃ us u, (workerSystem cfg).Run (ts ++ ⟨s, action, es, s'⟩ :: us) u ∧ ¬u.NoneAbandoned := by
  refine ⟨fun pre peer round post he => ?_, fun peer hp => count_executed_le_one h hp,
    noneAbandoned_of_run h, fun action s' es => abandoned_of_disorderly h⟩
  have hhist := returned_of_run h pre _ post he peer round rfl
  refine ⟨hhist, ?_⟩
  rw [← count_history (show (WorkerEvent.executed peer round).peer = peer from rfl), hhist,
    List.count_append, count_executed_fullRounds]
  simp

end Runs

/-- Two peers, whose workers `kill` stops in the other order. -/
def twoWorkers : WorkerConfig where
  peers := [1, 2]
  workers := [2, 1]
  nodup := by decide
  perm := by decide

/-- `kill` is called in the middle of a round whose tasks have been picked up. -/
def killedAfterPickUp : List WorkerAction :=
  [.checkDead, .sendHeartbeats, .post, .wake 1, .post, .kill, .wake 2, .stop, .post, .execute 1,
   .execute 2, .finish 2, .wake 2, .finish 1, .await, .await, .await, .join, .stop, .wake 1, .join,
   .stop, .checkDead]

/-- The round ends, both workers leave their loops and both threads come to their end. -/
theorem heartbeat_workers_killedAfterPickUp : ∃ ts s, (workerSystem twoWorkers).Run ts s ∧
    ts.map Transition.input = killedAfterPickUp ∧
    s.run = .exited ∧ s.kill = .returned ∧ .returned 1 0 ∈ events ts ∧
    .returned 2 0 ∈ events ts ∧ s.NoneAbandoned ∧ ∀ t ∈ ts, t.before.NoneAbandoned := by
  obtain ⟨ts, s, hr, hi, hrun, hkill, h1, h2, hall⟩ := System.exists_run_of_exec
    (S := workerSystem twoWorkers) Workers.init killedAfterPickUp
    (fun ts s => s.run = .exited ∧ s.kill = .returned ∧ .returned 1 0 ∈ events ts ∧
      .returned 2 0 ∈ events ts ∧ ∀ t ∈ ts, t.before.orderly t.input = true)
    rfl (by decide +kernel)
  exact ⟨ts, s, hr, hi, hrun, hkill, h1, h2, (heartbeat_workers hr).2.2.1 hall⟩

/-- `kill` is called before a task that was posted is picked up. -/
def killedBeforePickUp : List WorkerAction :=
  [.checkDead, .sendHeartbeats, .post, .wake 1, .post, .kill, .stop, .wake 2, .post, .execute 1,
   .finish 1, .await]

/-- The worker of peer 2 leaves its loop without the task, and the round is left waiting for it. -/
theorem heartbeat_round_hangs : ∃ ts s, (workerSystem twoWorkers).Run ts s ∧
    ts.map Transition.input = killedBeforePickUp ∧
    s.run = .awaiting [2] ∧ (s.workers 2).done = false ∧ (s.workers 2).thread = .exited ∧
    .posted 2 0 ∈ events ts ∧ .executed 2 0 ∉ events ts ∧ ¬s.NoneAbandoned := by
  obtain ⟨ts, s, hr, hi, hrun, hd, ht, hp, he⟩ := System.exists_run_of_exec
    (S := workerSystem twoWorkers) Workers.init killedBeforePickUp
    (fun ts s => s.run = .awaiting [2] ∧ (s.workers 2).done = false ∧
      (s.workers 2).thread = .exited ∧ .posted 2 0 ∈ events ts ∧ .executed 2 0 ∉ events ts)
    rfl (by decide +kernel)
  exact ⟨ts, s, hr, hi, hrun, hd, ht, hp, he, fun hn => hn 2 ⟨hd, ht⟩⟩

end Rafty
