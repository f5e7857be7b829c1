import Rafty.Infra.Machine
import Rafty.Properties.KvCalls
import Rafty.Safety.LeaseFlags

/-!
# The fast read of a leader

A `Get` on the fast path asks `get_lease_state` for a lease and the index `c` up to which the leader
has committed, and then reads `store_`. Between the commit and the store there are the enqueueing of
the result and the thread that calls `on_apply`, and nothing makes the read wait for them: `c` is
not used. A read can return what the store held before the entries up to `c` (`fast_read_stale`).

`fast_read_agrees`: a read of a key that comes once the entries up to `c` that write the key have
reached the store returns what the log up to some index from `c` on makes of the key. Two things
have to hold in the steps before the read for the results to be those of the log: no handler
enqueues between the release of the lock and the last `apply(r)` of a round, and no request replaces
an applied entry.
-/

namespace Rafty

open Infra

namespace Node

/-- Handling the request leaves the entries that are applied alone. -/
def keepsApplied (s : Node) : Action → Bool
  | .appendEntries call _ =>
    s.raft.currentTerm ≤ call.request.term ∧ logMatches s.raft.log call.request →
      (appendLoop s.raft.log call.request.prevLogIndex call.request.entries).take
        s.raft.lastApplied = s.raft.log.take s.raft.lastApplied
  | _ => true

/-- The results of the node are those of its log up to `last_applied_`. -/
structure AppliesLog (s : Node) : Prop extends Ordered s where
  results_eq : s.results = logResults (s.raft.log.take s.raft.lastApplied)

variable {cfg : Config} {s : Node} {i : Input} {eff : Effect}

theorem AppliesLog.length_eq (h : s.AppliesLog) : s.results.length = s.raft.lastApplied := by
  simpa [Node.results] using h.length_add

theorem AppliesLog.applied_le (h : s.AppliesLog) : s.raft.lastApplied ≤ s.raft.log.length := by
  have hlen := congrArg List.length h.results_eq
  rw [h.length_eq] at hlen
  simp only [logResults, List.length_mapIdx, List.length_take] at hlen
  omega

/-- A block of new results behind those of the log so far. -/
theorem logResults_append {log : List Entry} {results : List ApplyResult} {l c : Nat}
    (h : applyLoop log l (c - l) = some results) :
    logResults (log.take l) ++ results = logResults (log.take (max l c)) := by
  rw [applyLoop_eq h, ← take_logResults, ← take_logResults, ← List.take_add]
  congr 1
  omega

/-- **The step lemma** for the Raft node. -/
theorem Move.appliesLog (h : Move cfg s i eff) (ha : s.AppliesLog)
    (halone : s.appliesAlone i.action = true) (hkeep : s.keepsApplied i.action = true) :
    eff.node.AppliesLog := by
  refine ⟨h.ordered ha.toOrdered halone, ?_⟩
  cases h.results with
  | same h hlog hl =>
    obtain ⟨more, hmore⟩ := hlog
    rw [h, hl, ha.results_eq, ← hmore, List.take_append_of_le_length ha.applied_le]
  | stored hact h hp =>
    have hl : eff.node.raft.lastApplied = max s.raft.lastApplied eff.node.raft.commitIndex :=
      congrArg Core.lastApplied h.core
    rw [hact] at halone hkeep
    have hsame := of_decide_eq_true hkeep ⟨h.term, h.logMatches⟩
    rw [← h.log] at hsame
    rw [results_of_stored h hp ha.commit_le halone, hl, ha.results_eq, ← hsame]
    exact logResults_append h.applied
  | finished _ h hlog ht hl =>
    rw [h, hl, hlog, ha.results_eq]
    exact logResults_append ht

end Node

/-- The command can change what `store_` has for the key. -/
def Command.writes (key : Bytes) (cmd : Command) : Bool := cmd.op ≠ .get ∧ cmd.key = key

/-- `on_apply` on these bytes can change what `store_` has for the key. -/
def dataWrites (order : ByteOrder) (key : Bytes) (data : Bytes) : Bool :=
  (deserialize order data).any fun cmd => cmd.writes key

namespace Replica

/-- The replica after `on_apply` on a list of results. -/
def after (order : ByteOrder) (results : List ApplyResult) : Replica :=
  (feed (Replica.onApply order) .init results).1

variable {order : ByteOrder} {results : List ApplyResult} {result : ApplyResult} {cmd : Command}

theorem after_concat : after order (results ++ [result]) =
    ((after order results).onApply order result).1 := feed_concat _ _ _

theorem after_of_undecoded (h : result.valid = false ∨ deserialize order result.data = none) :
    after order (results ++ [result]) = after order results := by
  rw [after_concat, onApply]
  rcases h with h | h <;> simp [h]

theorem after_of_decoded (hv : result.valid = true)
    (hd : deserialize order result.data = some cmd) :
    after order (results ++ [result]) = ((after order results).applyCommand cmd).1 := by
  rw [after_concat, onApply_of_decoded hv hd]

/-- The third block leaves the store alone. -/
theorem record_store (s : Replica) (cmd : Command) (outcome : Outcome) :
    (s.record cmd outcome).store = s.store := by
  unfold record
  split <;> rfl

/-! ## Results that do not write a key -/

theorem read_execute {s : Replica} {key : Bytes} (h : cmd.writes key = false)
    (outcome : Outcome) : (s.execute cmd outcome).1.read key = s.read key := by
  have hread : cmd.op ≠ .get → ∀ value,
      Replica.read { s with store := s.store.insert cmd.key value } key = s.read key := by
    intro hop value
    have hkey : key ≠ cmd.key := fun he => of_decide_eq_false h ⟨hop, he.symm⟩
    simp [read, hkey]
  unfold execute
  split
  · rfl
  · cases hop : cmd.op with
    | put => exact hread (by simp [hop]) _
    | get => rfl
    | append => exact hread (by simp [hop]) _

theorem read_record (s : Replica) (cmd : Command) (outcome : Outcome) (key : Bytes) :
    (s.record cmd outcome).read key = s.read key := by
  rw [read, record_store, read]

theorem read_after_concat {key : Bytes} (h : dataWrites order key result.data = false) :
    (after order (results ++ [result])).read key = (after order results).read key := by
  cases hv : result.valid with
  | false => rw [after_of_undecoded (Or.inl hv)]
  | true =>
    cases hd : deserialize order result.data with
    | none => rw [after_of_undecoded (Or.inr hd)]
    | some cmd =>
      rw [dataWrites, hd, Option.any_some] at h
      rw [after_of_decoded hv hd]
      exact (read_record _ _ _ _).trans (read_execute h _)

theorem read_after_append {key : Bytes} {more : List ApplyResult}
    (h : ∀ result ∈ more, dataWrites order key result.data = false) :
    (after order (results ++ more)).read key = (after order results).read key := by
  induction more using List.reverseRecOn with
  | nil => rw [List.append_nil]
  | append_singleton more result ih =>
    simp only [List.forall_mem_append, List.forall_mem_singleton] at h
    rw [← List.append_assoc, read_after_concat h.2, ih h.1]

/-- Entries that do not write the key may be applied or not. -/
theorem read_after_logResults {key : Bytes} {log : List Entry} {l c : Nat}
    (h : ∀ entry ∈ (log.take c).drop l, dataWrites order key entry.command = false) :
    (after order (logResults (log.take (max c l)))).read key =
      (after order (logResults (log.take l))).read key := by
  rcases Nat.le_total c l with hle | hle
  · rw [Nat.max_eq_right hle]
  · have hsplit : logResults (log.take c) =
        logResults (log.take l) ++ (logResults (log.take c)).drop l := by
      have h := List.take_append_drop l (logResults (log.take c))
      rw [take_logResults, List.take_take, Nat.min_eq_left hle] at h
      exact h.symm
    rw [Nat.max_eq_left hle, hsplit]
    refine read_after_append fun result hmem => ?_
    have hdata := List.mem_map_of_mem (f := ApplyResult.data) hmem
    rw [List.map_drop, map_data_logResults, ← List.map_drop] at hdata
    obtain ⟨entry, hentry, he⟩ := List.mem_map.mp hdata
    exact he ▸ h entry hentry

end Replica

/-! ## Between two blocks of `on_apply` -/

/-- What the replica is when the results `taken` have been taken out of the queue. -/
def Applier.Follows (order : ByteOrder) (taken : List ApplyResult) (s : Replica) : Applier → Prop
  | .idle | .fulfilling .. | .exited => s = .after order taken
  | .received result => ∃ done, taken = done ++ [result] ∧ result.valid = true ∧
    s = .after order done
  | .checked _ cmd outcome => ∃ done result, taken = done ++ [result] ∧ result.valid = true ∧
    deserialize order result.data = some cmd ∧ s = .after order done ∧ outcome = s.check cmd
  | .executed _ cmd outcome => ∃ done result, taken = done ++ [result] ∧ result.valid = true ∧
    deserialize order result.data = some cmd ∧
    (s, outcome) = (Replica.after order done).execute cmd ((Replica.after order done).check cmd)

namespace KvNode

/-- The number of results whose operation has reached `store_`. -/
def stored (s : KvNode) : Nat :=
  match s.applier with
  | .received _ | .checked .. => s.dequeued - 1
  | _ => s.dequeued

/-- The step keeps the results those of the log. -/
def appliesInOrder (s : KvNode) (i : KvInput) : Bool :=
  match i.action with
  | .raft action => s.node.appliesAlone action ∧ s.node.keepsApplied action
  | _ => true

/-- Every entry up to `commitIdx` that writes the key has reached `store_`. -/
def readsApplied (order : ByteOrder) (s : KvNode) (key : Bytes) (commitIdx : Nat) : Bool :=
  ((s.node.raft.log.take commitIdx).drop s.stored).all fun entry =>
    !dataWrites order key entry.command

/-- The results taken out of the queue so far. -/
def takenResults (s : KvNode) : List ApplyResult := s.node.raft.readyQueue.take s.dequeued

structure FollowsLog (order : ByteOrder) (s : KvNode) : Prop where
  node : s.node.AppliesLog
  dequeued_le : s.dequeued ≤ s.node.raft.readyQueue.length
  replica : s.applier.Follows order s.takenResults s.server.toReplica

variable {order : ByteOrder} {cfg : Config} {s s' : KvNode} {i : KvInput} {es : List KvEvent}

theorem Move.appliesLog (h : Move order cfg s i s' es) (ha : s.node.AppliesLog)
    (hp : s.appliesInOrder i = true) : s'.node.AppliesLog := by
  rcases h.node with he | ⟨now, action, eff, hm, he, hact⟩
  · rwa [he]
  · rw [he]
    rcases hact with hact | ⟨data, rfl⟩
    · simp only [appliesInOrder, hact, decide_eq_true_eq] at hp
      exact hm.appliesLog ha hp.1 hp.2
    · exact hm.appliesLog ha rfl rfl

/-- Nothing that is taken out changes when the queue grows. -/
theorem Move.takenResults (h : Move order cfg s i s' es) (hd : s'.dequeued = s.dequeued)
    (hle : s.dequeued ≤ s.node.raft.readyQueue.length) :
    s'.takenResults = s.takenResults ∧ s'.dequeued ≤ s'.node.raft.readyQueue.length := by
  obtain ⟨more, hmore⟩ := h.readyQueue
  unfold KvNode.takenResults
  rw [← hmore, hd, List.take_append_of_le_length hle, List.length_append]
  exact ⟨rfl, by omega⟩

theorem takenResults_succ {result : ApplyResult}
    (hq : s.node.raft.readyQueue[s.dequeued]? = some result) :
    s.node.raft.readyQueue.take (s.dequeued + 1) = s.takenResults ++ [result] := by
  rw [List.take_add_one, hq]
  rfl

/-- The third block brings the replica to where the whole result leaves it. -/
theorem after_of_executed {done : List ApplyResult} {result : ApplyResult} {r : Replica}
    {cmd : Command} {outcome : Outcome} (hv : result.valid = true)
    (hd : deserialize order result.data = some cmd)
    (he : (r, outcome) =
      (Replica.after order done).execute cmd ((Replica.after order done).check cmd)) :
    r.record cmd outcome = .after order (done ++ [result]) := by
  rw [Replica.after_of_decoded hv hd, Replica.applyCommand, ← he]

/-- The replica follows the results that were taken out of the queue, whatever these are. -/
theorem Move.follows (h : Move order cfg s i s' es)
    (hle : s.dequeued ≤ s.node.raft.readyQueue.length)
    (hrep : s.applier.Follows order s.takenResults s.server.toReplica) :
    s'.dequeued ≤ s'.node.raft.readyQueue.length ∧
      s'.applier.Follows order s'.takenResults s'.server.toReplica := by
  have hframe := h.frame
  have htaken := h.takenResults
  cases h with
  | exit ha | fulfil ha =>
    rw [ha] at hrep
    exact ⟨hle, hrep⟩
  | skip ha hq hv =>
    rw [ha] at hrep
    refine ⟨(List.getElem?_eq_some_iff.mp hq).1, ?_⟩
    show s.server.toReplica = .after order (s.node.raft.readyQueue.take (s.dequeued + 1))
    rw [takenResults_succ hq, Replica.after_of_undecoded (Or.inl hv)]
    exact hrep
  | dequeue ha hq hv =>
    rw [ha] at hrep
    exact ⟨(List.getElem?_eq_some_iff.mp hq).1, _, takenResults_succ hq, hv, hrep⟩
  | check ha hd =>
    rw [ha] at hrep
    obtain ⟨done, ht, hv, hr⟩ := hrep
    exact ⟨hle, done, _, ht, hv, hd, hr, rfl⟩
  | reject ha hd | rejectWaiter ha hd =>
    rw [ha] at hrep
    obtain ⟨done, ht, hv, hr⟩ := hrep
    refine ⟨hle, ?_⟩
    show s.server.toReplica = .after order s.takenResults
    rw [ht, Replica.after_of_undecoded (Or.inr hd), hr]
  | executeDup ha hd =>
    rw [ha] at hrep
    obtain ⟨done, result, ht, hv, hcmd, hr, rfl⟩ := hrep
    refine ⟨hle, done, result, ht, hv, hcmd, ?_⟩
    rw [← hr]
    exact ((s.server.execute_spec _ _).2.2.2 hd).symm
  | execute ha hd =>
    rw [ha] at hrep
    obtain ⟨done, result, ht, hv, hcmd, hr, rfl⟩ := hrep
    refine ⟨hle, done, result, ht, hv, hcmd, ?_⟩
    rw [← hr]
  | finish ha | finishWaiter ha =>
    rw [ha] at hrep
    obtain ⟨done, result, ht, hv, hcmd, he⟩ := hrep
    exact ⟨hle, (after_of_executed hv hcmd he).trans (congrArg _ ht.symm)⟩
  | _ =>
    obtain ⟨hr, -, ha, hd, -⟩ := hframe rfl
    obtain ⟨ht, hle⟩ := htaken hd hle
    exact ⟨hle, by rw [ha, ht, hr]; exact hrep⟩

/-- **The step lemma.** -/
theorem Move.followsLog (h : Move order cfg s i s' es) (hf : s.FollowsLog order)
    (hp : s.appliesInOrder i = true) : s'.FollowsLog order := by
  obtain ⟨hle, hrep⟩ := h.follows hf.dequeued_le hf.replica
  exact ⟨h.appliesLog hf.node hp, hle, hrep⟩

/-! ## What the store holds -/

theorem FollowsLog.length_taken (h : s.FollowsLog order) :
    s.takenResults.length = s.dequeued := by
  rw [takenResults, List.length_take]
  exact Nat.min_eq_left h.dequeued_le

theorem stored_le (s : KvNode) : s.stored ≤ s.dequeued := by
  unfold stored
  split <;> omega

/-- The store is the one after the results that have reached it. -/
theorem FollowsLog.store_eq (h : s.FollowsLog order) :
    s.server.store = (Replica.after order (s.takenResults.take s.stored)).store := by
  have hrep := h.replica
  have hlen := h.length_taken
  have hall : s.takenResults.take s.dequeued = s.takenResults :=
    List.take_of_length_le hlen.le
  have hlast : ∀ {done result}, s.takenResults = done ++ [result] →
      s.takenResults.take (s.dequeued - 1) = done := by
    intro done result ht
    rw [← hlen, ht]
    simp
  unfold stored
  cases ha : s.applier with
  | idle | fulfilling | exited =>
    rw [ha] at hrep
    simp only [hall]
    exact congrArg Replica.store hrep
  | received =>
    rw [ha] at hrep
    obtain ⟨done, ht, -, hr⟩ := hrep
    simp only [hlast ht]
    exact congrArg Replica.store hr
  | checked =>
    rw [ha] at hrep
    obtain ⟨done, result, ht, -, -, hr, -⟩ := hrep
    simp only [hlast ht]
    exact congrArg Replica.store hr
  | executed =>
    rw [ha] at hrep
    obtain ⟨done, result, ht, hv, hd, he⟩ := hrep
    simp only [hall]
    rw [ht, ← after_of_executed hv hd he, Replica.record_store]

/-- The results that have reached the store are those of the log. -/
theorem FollowsLog.take_eq (h : s.FollowsLog order) :
    s.takenResults.take s.stored = logResults (s.node.raft.log.take s.stored) ∧
      s.stored ≤ s.node.raft.log.length := by
  have hle := s.stored_le
  have hq : s.stored ≤ s.node.raft.readyQueue.length := hle.trans h.dequeued_le
  have hlen := h.node.length_eq
  have happlied := h.node.applied_le
  simp only [Node.results, List.length_append] at hlen
  constructor
  · calc s.takenResults.take s.stored
        = s.node.raft.readyQueue.take s.stored := by
          rw [takenResults, List.take_take, Nat.min_eq_left hle]
      _ = s.node.results.take s.stored := by
          rw [Node.results, List.take_append_of_le_length hq]
      _ = logResults (s.node.raft.log.take s.stored) := by
          rw [h.node.results_eq, take_logResults, List.take_take, Nat.min_eq_left (by omega)]
  · omega

end KvNode

variable {order : ByteOrder} {cfg : Config} {ts : List (Transition KvNode KvInput KvEvent)}
  {s : KvNode}

/-- **The run lemma.** -/
theorem followsLog_of_run (h : (kvSystem order cfg).Run ts s)
    (hp : ∀ t ∈ ts, t.before.appliesInOrder t.input = true) : s.FollowsLog order := by
  refine ((h.restrict hp).invariant (P := KvNode.FollowsLog order) ?_ ?_).1
  · rintro s ⟨timeout, rfl⟩
    exact ⟨⟨⟨rfl, Nat.le_refl _⟩, rfl⟩, Nat.le_refl _, rfl⟩
  · intro s i s' es hf hs
    obtain ⟨hp, hs⟩ := System.restrict_step.mp hs
    exact (KvNode.move_of_step hs).followsLog hf hp

/-- What `on_apply` on the first entries of the node's log leaves in the store. -/
theorem KvNode.FollowsLog.read_eq (h : s.FollowsLog order) {key : Bytes} {c : Nat}
    (hread : s.readsApplied order key c = true) :
    s.server.read key = (feed (KvServer.onApply order) .init
      (logResults (s.node.raft.log.take (max c s.stored)))).1.read key := by
  have hview := (feed_view KvServer.toReplica (KvServer.onApply_toReplica order) .init
    (logResults (s.node.raft.log.take (max c s.stored)))).1
  have hfree : ∀ entry ∈ (s.node.raft.log.take c).drop s.stored,
      dataWrites order key entry.command = false := by
    simpa [KvNode.readsApplied] using hread
  calc s.server.read key
      = (Replica.after order (logResults (s.node.raft.log.take s.stored))).read key := by
        rw [Replica.read, h.store_eq, h.take_eq.1, Replica.read]
    _ = (Replica.after order (logResults (s.node.raft.log.take (max c s.stored)))).read key :=
        (Replica.read_after_logResults hfree).symm
    _ = _ := by rw [hview]; rfl

/-! ## What a read is told -/

/-- The indices that `get_lease_state` reports, and those it has reported, are applied. -/
structure KvNode.ToldApplied (s : KvNode) : Prop where
  told : s.node.raft.lastTermCommitIdx ≤ s.node.raft.lastApplied
  reading : ∀ (k : Nat) (call : KvCall) (key : Bytes) (c : Nat), s.calls[k]? = some call →
    call.thread = .reading key c → c ≤ s.node.raft.lastApplied

namespace KvNode

variable {s' : KvNode} {i : KvInput} {es : List KvEvent}

theorem Move.lastApplied_le (h : Move order cfg s i s' es) :
    s.node.raft.lastApplied ≤ s'.node.raft.lastApplied := by
  rcases h.node with he | ⟨now, action, eff, hm, he, -⟩
  · rw [he]
  · rw [he]
    exact hm.lastApplied_le

theorem Move.told (h : Move order cfg s i s' es)
    (hle : s.node.raft.lastTermCommitIdx ≤ s.node.raft.lastApplied) :
    s'.node.raft.lastTermCommitIdx ≤ s'.node.raft.lastApplied := by
  cases h with
  | raft h => exact Node.lastTermCommitIdx_le_of_step h hle
  | @propose now _ _ data =>
    have hstep : s.node.step cfg ⟨now, .propose data⟩ = some _ := rfl
    exact Node.lastTermCommitIdx_le_of_step hstep hle
  | register | erase => simpa [KvNode.register, KvNode.erase] using hle
  | _ => exact hle

/-- **The step lemma** for what is told. -/
theorem Move.toldApplied (h : Move order cfg s i s' es) (ht : s.ToldApplied) : s'.ToldApplied := by
  refine ⟨h.told ht.told, ?_⟩
  intro k call' key c hc hthread
  refine Nat.le_trans ?_ h.lastApplied_le
  rcases h.thread hc with ⟨call, hold, hsame | hnext⟩ | ⟨-, cmd, -, hnew⟩
  · exact ht.reading k call key c hold (hsame.symm.trans hthread)
  · -- only the answer of `get_lease_state` takes a call to its read
    rw [hthread] at hnext
    generalize call.thread = thread at hnext
    cases hnext with
    | leased => exact ht.told
  · rw [hthread] at hnew
    split at hnew <;> cases hnew

end KvNode

theorem toldApplied_of_run (h : (kvSystem order cfg).Run ts s) : s.ToldApplied := by
  refine (h.invariant (P := KvNode.ToldApplied) ?_ ?_).1
  · rintro s ⟨timeout, rfl⟩
    exact ⟨Nat.le_refl _, fun k call key c hc => nomatch hc⟩
  · intro s i s' es ht hs
    exact (KvNode.move_of_step hs).toldApplied ht

/--
**The fast read agrees with the log.** A `Get` that was told `c` by `get_lease_state` and reads
`key` ends with the value that `on_apply`, on the entries `1, …, n` of the node's log for some
`n ≥ c`, leaves for the key.
-/
theorem fast_read_agrees (order : ByteOrder) (cfg : Config)
    {pre post : List (Transition KvNode KvInput KvEvent)} {t : Transition KvNode KvInput KvEvent}
    {s : KvNode} (h : (kvSystem order cfg).Run (pre ++ t :: post) s)
    (hp : ∀ u ∈ pre, u.before.appliesInOrder u.input = true) {k : Nat} {key : Bytes} {c : Nat}
    {promise : Promise} (hact : t.input.action = .read k)
    (hc : t.before.calls[k]? = some ⟨.reading key c, promise⟩)
    (hread : t.before.readsApplied order key c = true) :
    ∃ n, c ≤ n ∧ n ≤ t.before.node.raft.log.length ∧
      (t.after.calls[k]?).map KvCall.thread = some (.ended (.fastRead
        ((feed (KvServer.onApply order) .init
          (logResults (t.before.node.raft.log.take n))).1.read key))) := by
  obtain ⟨hr, hs, -⟩ := h.of_append_cons
  have hf := followsLog_of_run hr hp
  have htold := (toldApplied_of_run hr).reading k _ key c hc rfl
  refine ⟨max c t.before.stored, le_max_left _ _,
    max_le (htold.trans hf.node.applied_le) hf.take_eq.2, ?_⟩
  rw [← hf.read_eq hread]
  have hm := KvNode.move_of_step hs
  obtain ⟨before, ⟨now, action⟩, es, after⟩ := t
  dsimp only at hm hact hc ⊢
  cases hm with
  | read hc' ht' =>
    cases hact
    rw [hc, Option.some.injEq] at hc'
    subst hc'
    cases ht'
    simp [KvNode.read, KvNode.proceed, hc]
  | _ => cases hact

/-! ## Two reads of a key -/

/-- Node 0 leads term 1 and has committed a put of `a` with both peers. -/
def committedPut : List KvInput :=
  kvLeader ++ kvSteps 310 ([.call ⟨.put, 7, 1, [107], [97]⟩, .propose 0, .register 0] ++
    [.buildRound 3, bothAnswer].map .raft)

/-- A `Get` of the key on the fast path. -/
def fastGet : List KvAction := [.call ⟨.get, 8, 1, [107], []⟩, .lease 1, .read 1]

/-- Once `on_apply` is through with the put, the `Get` returns it. -/
theorem fast_read_agrees_applied : ∃ ts s, (kvSystem .little (threeNodes.config 0)).Run ts s ∧
    ts.map Transition.input =
      committedPut ++ kvSteps 320 (.raft .applyNext :: applyOne ++ fastGet) ∧
    (s.calls[1]?).map KvCall.thread = some (.ended (.fastRead [97])) ∧
    ∃ t ∈ ts, ∃ n, 1 ≤ n ∧ n ≤ t.before.node.raft.log.length ∧
      (t.after.calls[1]?).map KvCall.thread = some (.ended (.fastRead
        ((feed (KvServer.onApply .little) .init
          (logResults (t.before.node.raft.log.take n))).1.read [107]))) := by
  obtain ⟨ts, s, hr, hi, hend, hp, t, ht, hact, hc, hread⟩ := exists_kvRun
    (committedPut ++ kvSteps 320 (.raft .applyNext :: applyOne ++ fastGet))
    (fun ts s => (s.calls[1]?).map KvCall.thread = some (.ended (.fastRead [97])) ∧
      (∀ t ∈ ts.dropLast, t.before.appliesInOrder t.input = true) ∧
      ∃ t ∈ ts.getLast?, t.input.action = .read 1 ∧
        t.before.calls[1]? = some ⟨.reading [107] 1, .unset⟩ ∧
        t.before.readsApplied .little [107] 1 = true) (by decide +kernel)
  rw [← List.dropLast_append_getLast? t ht] at hr
  exact ⟨_, s, hr, by rw [List.dropLast_append_getLast? t ht, hi], hend, t, by simp,
    fast_read_agrees .little _ hr hp hact hc hread⟩

/--
Before that it returns nothing, although `get_lease_state` says that index 1 is committed and the
only entry of the log is the put.
-/
theorem fast_read_stale : ∃ ts s, (kvSystem .little (threeNodes.config 0)).Run ts s ∧
    ts.map Transition.input = committedPut ++ kvSteps 320 fastGet ∧
    s.node.raft.getLeaseState (milliseconds 320) = (true, 1) ∧ s.node.raft.log.length = 1 ∧
    (s.calls[1]?).map KvCall.thread = some (.ended (.fastRead [])) ∧
    (feed (KvServer.onApply .little) .init
      (logResults (s.node.raft.log.take 1))).1.read [107] = [97] :=
  exists_kvRun _ _ (by decide +kernel)

end Rafty
