import Rafty.Cluster
import Rafty.Properties.KvCalls

/-!
# Nothing is left behind in `pending_`

Two calls can come to the same index, and then one of them overwrites or erases the entry of the
other. Even so the table does not leak: in every run, whatever is in `pending_` belongs to a call
that is still waiting at this index, or has timed out there and is about to erase it
(`pending_has_waiters`). So the table is empty once all calls have returned.
-/

namespace Rafty

open Infra

/-! ## Where a call is -/

/--
The index at which a call is in progress: from `propose` until its promise is fulfilled or, after a
timeout, until it has erased its entry.
-/
def KvCall.slot (call : KvCall) : Option Nat :=
  match call.thread with
  | .registering index _ _ | .expired index => some index
  | .waiting index _ => if call.promise = .unset then some index else none
  | _ => none

/-- The call has not registered yet. -/
def CallThread.isEarly : CallThread → Bool
  | .asking _ | .reading .. | .proposing _ | .registering .. => true
  | .waiting .. | .expired _ | .ended _ => false

/-- The entry at `index` is the one of this call, whose promise is in it. -/
structure KvCall.WaitsAt (call : KvCall) (index : Nat) : Prop where
  slot : call.slot = some index
  registered : call.thread.isEarly = false
  promise : call.promise = .unset

/-- Where the call of an entry is. -/
theorem KvCall.WaitsAt.thread {call : KvCall} {index : Nat} (h : call.WaitsAt index) :
    (∃ deadline, call.thread = .waiting index deadline) ∨ call.thread = .expired index := by
  have hslot := h.slot
  have hreg := h.registered
  unfold KvCall.slot at hslot
  cases ht : call.thread with
  | waiting index' deadline =>
    simp only [ht, h.promise, if_true, Option.some.injEq] at hslot
    exact Or.inl ⟨deadline, by rw [hslot]⟩
  | expired index' =>
    simp only [ht, Option.some.injEq] at hslot
    exact Or.inr (by rw [hslot])
  | asking | reading | proposing | registering => simp [ht, CallThread.isEarly] at hreg
  | ended => simp [ht] at hslot

namespace KvNode

theorem lookup_of_erase {pending : AList fun _ : Nat => PendingOp} {index index' : Nat}
    {op : PendingOp} (h : (pending.erase index).lookup index' = some op) :
    index' ≠ index ∧ pending.lookup index' = some op := by
  by_cases hidx : index' = index
  · rw [hidx, AList.lookup_erase] at h
    cases h
  · exact ⟨hidx, by rwa [AList.lookup_erase_ne hidx] at h⟩

theorem call_calls (s : KvNode) (cmd : Command) : ∃ new, (s.call cmd).calls = s.calls ++ [new] ∧
    new.promise = .unset ∧ new.slot = none ∧ new.thread.isEarly = true := by
  refine ⟨_, rfl, rfl, ?_, ?_⟩ <;> by_cases hget : cmd.op = .get <;>
    simp [KvCall.slot, CallThread.isEarly, hget]

/-! ## The entries and their calls -/

variable {order : ByteOrder} {cfg : Config} {s s' : KvNode} {i : KvInput} {es : List KvEvent}

/-- Every entry has its call, and what `on_apply` has taken out has no entry any more. -/
structure Registered (s : KvNode) : Prop where
  early : ∀ (k : Nat) call, s.calls[k]? = some call → call.thread.isEarly = true →
    call.promise = .unset
  waiters : ∀ index op, s.server.pending.lookup index = some op →
    ∃ call, s.calls[op.call]? = some call ∧ call.WaitsAt index
  taken : ∀ op reply, s.applier = .fulfilling op reply →
    (∃ call, s.calls[op.call]? = some call ∧ call.thread.isEarly = false) ∧
    ∀ index op', s.server.pending.lookup index = some op' → op'.call ≠ op.call

theorem Registered.waitsAt (h : s.Registered) {index : Nat} {op : PendingOp} {call : KvCall}
    (hop : s.server.pending.lookup index = some op) (hc : s.calls[op.call]? = some call) :
    call.WaitsAt index := by
  obtain ⟨call', hc', hw⟩ := h.waiters index op hop
  rw [hc, Option.some.injEq] at hc'
  exact hc' ▸ hw

/-- The call of an entry tells where it is. -/
theorem Registered.index_eq (h : s.Registered) {index index' : Nat} {op op' : PendingOp}
    (hop : s.server.pending.lookup index = some op)
    (hop' : s.server.pending.lookup index' = some op') (hk : op'.call = op.call) :
    index' = index := by
  obtain ⟨call, hc, hw⟩ := h.waiters index op hop
  have hw' := h.waitsAt hop' (hk ▸ hc)
  exact Option.some.inj (hw'.slot.symm.trans hw.slot)

/-- A step that leaves the calls alone, and of the entries takes at most one out. -/
theorem Registered.same (h : s.Registered) (hc : s'.calls = s.calls)
    (hp : ∀ index op, s'.server.pending.lookup index = some op →
      s.server.pending.lookup index = some op)
    (ht : ∀ op reply, s'.applier = .fulfilling op reply → s.applier = .fulfilling op reply ∨
      ∃ index, s.server.pending.lookup index = some op ∧ s'.server.pending.lookup index = none) :
    s'.Registered := by
  constructor
  case early =>
    rw [hc]
    exact h.early
  case waiters =>
    intro index op hop
    rw [hc]
    exact h.waiters index op (hp index op hop)
  case taken =>
    intro op reply happ
    rw [hc]
    rcases ht op reply happ with happ | ⟨index, hop, hgone⟩
    · obtain ⟨hcall, hothers⟩ := h.taken op reply happ
      exact ⟨hcall, fun index' op' hop' => hothers index' op' (hp index' op' hop')⟩
    · obtain ⟨call, hk, hw⟩ := h.waiters index op hop
      refine ⟨⟨call, hk, hw.registered⟩, ?_⟩
      intro index' op' hop' heq
      rw [← h.index_eq hop (hp index' op' hop') heq, hop'] at hgone
      cases hgone

/-- The thread of a call goes on, and stays at the entries of the call. -/
theorem Registered.proceed (h : s.Registered) {k : Nat} {call : KvCall} {thread : CallThread}
    (hc : s.calls[k]? = some call)
    (hw : ∀ index op, s.server.pending.lookup index = some op → op.call = k →
      KvCall.WaitsAt { call with thread := thread } index)
    (hearly : thread.isEarly = true → call.thread.isEarly = true) :
    (s.proceed k thread).Registered := by
  have hself : (s.proceed k thread).calls[k]? = some { call with thread := thread } := by
    simp [KvNode.proceed, hc]
  have hne : ∀ {j : Nat}, j ≠ k → (s.proceed k thread).calls[j]? = s.calls[j]? := by
    intro j hj
    exact List.getElem?_modify_ne _ _ (Ne.symm hj)
  constructor
  case early =>
    intro j call' hj ht
    by_cases hjk : j = k
    · rw [hjk, hself, Option.some.injEq] at hj
      subst hj
      exact h.early k call hc (hearly ht)
    · exact h.early j call' (hne hjk ▸ hj) ht
  case waiters =>
    intro index op hop
    by_cases hk : op.call = k
    · refine ⟨_, ?_, hw index op hop hk⟩
      rw [hk]
      exact hself
    · obtain ⟨call', hc', hw'⟩ := h.waiters index op hop
      exact ⟨call', (hne hk).trans hc', hw'⟩
  case taken =>
    intro op reply happ
    obtain ⟨⟨call', hc', hnot⟩, hothers⟩ := h.taken op reply happ
    refine ⟨?_, hothers⟩
    by_cases hk : op.call = k
    · rw [hk] at hc' ⊢
      rw [hc, Option.some.injEq] at hc'
      subst hc'
      refine ⟨_, hself, Bool.eq_false_iff.mpr ?_⟩
      intro ht
      exact absurd (hearly ht) (by simp [hnot])
    · exact ⟨call', (hne hk).trans hc', hnot⟩

/-- A call that has no entry goes on. -/
theorem Registered.proceed_of_not (h : s.Registered) {k : Nat} {call : KvCall}
    {thread : CallThread} (hc : s.calls[k]? = some call)
    (hno : ∀ index, ¬call.WaitsAt index)
    (hearly : thread.isEarly = true → call.thread.isEarly = true) :
    (s.proceed k thread).Registered := by
  refine h.proceed hc ?_ hearly
  rintro index op hop rfl
  exact absurd (h.waitsAt hop hc) (hno index)

/-- A promise without an entry changes. -/
theorem Registered.modify (h : s.Registered) {k : Nat} {f : Promise → Promise}
    (hno : ∀ index op, s.server.pending.lookup index = some op → op.call ≠ k)
    (hk : ∀ call, s.calls[k]? = some call → call.thread.isEarly = false) :
    KvNode.Registered
      { s with calls := s.calls.modify k fun call => { call with promise := f call.promise } } := by
  have hne : ∀ {j : Nat}, j ≠ k → (s.calls.modify k fun call =>
      { call with promise := f call.promise })[j]? = s.calls[j]? := by
    intro j hj
    exact List.getElem?_modify_ne _ _ (Ne.symm hj)
  constructor
  case early =>
    intro j call hj ht
    by_cases hjk : j = k
    · subst hjk
      rw [List.getElem?_modify_eq] at hj
      obtain ⟨old, hold, rfl⟩ := Option.map_eq_some_iff.mp hj
      exact absurd ht (by simp [hk old hold])
    · exact h.early j call (hne hjk ▸ hj) ht
  case waiters =>
    intro index op hop
    obtain ⟨call, hc, hw⟩ := h.waiters index op hop
    exact ⟨call, (hne (hno index op hop)).trans hc, hw⟩
  case taken =>
    intro op reply happ
    obtain ⟨⟨call, hc, hnot⟩, hothers⟩ := h.taken op reply happ
    refine ⟨?_, hothers⟩
    by_cases hkop : op.call = k
    · refine ⟨{ call with promise := f call.promise }, ?_, hnot⟩
      rw [hkop] at hc ⊢
      rw [List.getElem?_modify_eq, hc]
      rfl
    · exact ⟨call, (hne hkop).trans hc, hnot⟩

/-- The entry at an index goes, and its promise is destroyed. -/
theorem Registered.destroyed (h : s.Registered) (index : Nat) :
    KvNode.Registered
      { s.destroyAt index with
        server := { s.server with pending := s.server.pending.erase index } } := by
  have hgone : KvNode.Registered
      { s with server := { s.server with pending := s.server.pending.erase index } } := by
    refine h.same rfl ?_ fun op reply happ => Or.inl happ
    intro index' op hop
    exact (lookup_of_erase hop).2
  unfold destroyAt
  split
  · exact hgone
  · next op hop =>
    refine hgone.modify ?_ ?_
    · intro index' op' hop' hk
      obtain ⟨hne, hop'⟩ := lookup_of_erase hop'
      exact hne (h.index_eq hop hop' hk)
    · intro call hc
      exact (h.waitsAt hop hc).registered

/-- A call registers. -/
theorem Registered.enter (h : s.Registered) {k index : Nat} {call : KvCall}
    (clientId seqNum deadline : Nat) (hc : s.calls[k]? = some call)
    (ht : call.thread.isEarly = true) :
    KvNode.Registered ({ s with server := s.server.register index ⟨clientId, seqNum, k⟩ }.proceed k
      (.waiting index deadline)) := by
  have hunset := h.early k call hc ht
  have hno : ∀ index op, s.server.pending.lookup index = some op → op.call ≠ k := by
    rintro index op hop rfl
    exact absurd ht (by simp [(h.waitsAt hop hc).registered])
  -- the thread first, and then the entry
  have hgone : (s.proceed k (.waiting index deadline)).Registered :=
    h.proceed hc (fun index' op hop hk => absurd hk (hno index' op hop)) fun _ => ht
  have hself : (s.proceed k (.waiting index deadline)).calls[k]? =
      some { call with thread := .waiting index deadline } := by
    simp [KvNode.proceed, hc]
  constructor
  case early => exact hgone.early
  case waiters =>
    intro index' op hop
    simp only [proceed_server, KvServer.register] at hop
    by_cases hidx : index' = index
    · subst hidx
      rw [AList.lookup_insert, Option.some.injEq] at hop
      subst hop
      exact ⟨_, hself, by simp [KvCall.slot, hunset], rfl, hunset⟩
    · rw [AList.lookup_insert_ne hidx] at hop
      exact hgone.waiters index' op hop
  case taken =>
    intro op reply happ
    obtain ⟨hcall, hothers⟩ := hgone.taken op reply happ
    refine ⟨hcall, ?_⟩
    intro index' op' hop'
    simp only [proceed_server, KvServer.register] at hop'
    by_cases hidx : index' = index
    · subst hidx
      rw [AList.lookup_insert, Option.some.injEq] at hop'
      subst hop'
      -- what is taken out belongs to a call that has registered before
      rintro rfl
      obtain ⟨⟨call', hc', hnot⟩, -⟩ := h.taken op reply happ
      rw [hc, Option.some.injEq] at hc'
      subst hc'
      simp [hnot] at ht
    · rw [AList.lookup_insert_ne hidx] at hop'
      exact hothers index' op' hop'

theorem not_waitsAt_of_early {call : KvCall} (h : call.thread.isEarly = true) (index : Nat) :
    ¬call.WaitsAt index := by
  intro hw
  rw [hw.registered] at h
  cases h

theorem not_waitsAt_of_promise {call : KvCall} (h : call.promise ≠ .unset) (index : Nat) :
    ¬call.WaitsAt index := fun hw => h hw.promise

/-- A call after the entry at an index is destroyed. -/
theorem destroyAt_getElem? {k : Nat} {call : KvCall} (hc : s.calls[k]? = some call) (index : Nat) :
    ∃ promise, (s.destroyAt index).calls[k]? = some { call with promise := promise } ∧
      (promise = call.promise ∨ ∃ op, s.server.pending.lookup index = some op ∧ op.call = k) := by
  unfold destroyAt
  split
  · exact ⟨call.promise, hc, Or.inl rfl⟩
  · next op hop =>
    by_cases hk : op.call = k
    · subst hk
      exact ⟨call.promise.destroy, by simp [hc], Or.inr ⟨op, hop, rfl⟩⟩
    · exact ⟨call.promise, (List.getElem?_modify_ne _ _ hk).trans hc, Or.inl rfl⟩

theorem Registered.register (h : s.Registered) {now k index clientId seqNum : Nat} {call : KvCall}
    (hc : s.calls[k]? = some call) (ht : call.thread.isEarly = true) :
    (s.register now k index clientId seqNum).Registered := by
  obtain ⟨promise, hc', -⟩ := destroyAt_getElem? hc index
  refine ((h.destroyed index).enter clientId seqNum _ hc' ht).same rfl ?_ ?_
  case refine_2 =>
    intro op reply happ
    simp only [KvNode.register, proceed_applier] at happ ⊢
    exact Or.inl happ
  -- what stood at the index is overwritten
  intro index' op hop
  simp only [KvNode.register, KvServer.register, proceed_server, destroyAt_server] at hop ⊢
  by_cases hidx : index' = index
  · subst hidx
    rw [AList.lookup_insert] at hop ⊢
    exact hop
  · rw [AList.lookup_insert_ne hidx] at hop ⊢
    rw [AList.lookup_erase_ne hidx]
    exact hop

theorem Registered.erase (h : s.Registered) {k index : Nat} {call : KvCall}
    (hc : s.calls[k]? = some call) (ht : call.thread = .expired index) :
    (s.erase k index).Registered := by
  obtain ⟨promise, hc', -⟩ := destroyAt_getElem? hc index
  have hgone : ({ s.destroyAt index with
      server := { s.server with pending := s.server.pending.erase index } }.proceed k
        (.ended .timedOut)).Registered := by
    refine (h.destroyed index).proceed hc' ?_ (by simp [CallThread.isEarly])
    rintro index' op hop rfl
    -- the call would have another entry
    obtain ⟨hidx, hop⟩ := lookup_of_erase hop
    have hslot : call.slot = some index := by simp [KvCall.slot, ht]
    exact absurd (Option.some.inj ((h.waitsAt hop hc).slot.symm.trans hslot)) hidx
  simp only [KvNode.erase, destroyAt_server]
  exact hgone

theorem Registered.call (h : s.Registered) (cmd : Command) : (s.call cmd).Registered := by
  obtain ⟨new, hcalls, hunset, -, hearly⟩ := s.call_calls cmd
  have hold : ∀ {k : Nat} {call : KvCall}, s.calls[k]? = some call →
      (s.call cmd).calls[k]? = some call := by
    intro k call hc
    rw [hcalls, List.getElem?_append_left (List.getElem?_eq_some_iff.mp hc).1, hc]
  constructor
  case early =>
    intro k call hc ht
    rw [hcalls, List.getElem?_append] at hc
    split at hc
    · exact h.early k call hc ht
    · rw [List.mem_singleton.mp (List.mem_of_getElem? hc)]
      exact hunset
  case waiters =>
    intro index op hop
    obtain ⟨call, hc, hw⟩ := h.waiters index op hop
    exact ⟨call, hold hc, hw⟩
  case taken =>
    intro op reply happ
    obtain ⟨⟨call, hc, hnot⟩, hothers⟩ := h.taken op reply happ
    exact ⟨⟨call, hold hc, hnot⟩, hothers⟩

/-- **The step lemma.** -/
theorem Move.registered (hm : Move order cfg s i s' es) (h : s.Registered) : s'.Registered := by
  -- `on_apply` takes at most the entry at its index out of the table
  have hshrink : ∀ {index : Nat} {applier : Applier} {replica : Replica} {last : Nat},
      (∀ op reply, applier = .fulfilling op reply → s.server.pending.lookup index = some op) →
      KvNode.Registered { s with
        server := { toReplica := replica, pending := s.server.pending.erase index,
                    lastKvApplied := last }
        applier := applier } := by
    intro index applier replica last ht
    refine h.same rfl (fun index' op hop => (lookup_of_erase hop).2) ?_
    intro op reply happ
    exact Or.inr ⟨index, ht op reply happ, AList.lookup_erase ..⟩
  cases hm with
  | raft => exact h.same rfl (fun _ _ hop => hop) fun op reply happ => Or.inl happ
  | exit | skip | dequeue | check | executeDup | execute =>
    refine h.same rfl (fun _ _ hop => hop) ?_
    intro op reply happ
    cases happ
  | reject | finish =>
    refine hshrink ?_
    intro op reply he
    cases he
  | @rejectWaiter now result op reply ha hd hp hr =>
    have hgone : (s.rejected result.index).Registered := by
      refine hshrink ?_
      intro op reply he
      cases he
    refine hgone.modify (k := op.call) (f := fun _ => .fulfilled reply) ?_ ?_
    · intro index' op' hop' hk
      obtain ⟨hidx, hop'⟩ := lookup_of_erase hop'
      exact hidx (h.index_eq hp hop' hk)
    · intro call hc
      exact (h.waitsAt hp hc).registered
  | finishWaiter ha hp =>
    refine hshrink ?_
    intro op reply he
    rw [← (Applier.fulfilling.inj he).1]
    exact hp
  | @fulfil now op reply ha =>
    obtain ⟨⟨call, hc, hnot⟩, hothers⟩ := h.taken op reply ha
    have hidle : KvNode.Registered { s with applier := .idle } := by
      refine h.same rfl (fun _ _ hop => hop) ?_
      intro op reply happ
      cases happ
    refine hidle.modify (k := op.call) (f := fun _ => .fulfilled reply) hothers ?_
    intro call' hc'
    rw [show ({ s with applier := .idle } : KvNode).calls = s.calls from rfl, hc,
      Option.some.injEq] at hc'
    exact hc' ▸ hnot
  | call => exact h.call _
  | @lease now k cmd call hc ht =>
    have hearly : call.thread.isEarly = true := by rw [ht]; rfl
    exact h.proceed_of_not hc (not_waitsAt_of_early hearly) fun _ => hearly
  | read hc ht | notLeader hc ht =>
    have hearly := congrArg CallThread.isEarly ht
    exact h.proceed_of_not hc (not_waitsAt_of_early hearly) fun _ => hearly
  | @propose now k cmd data call hc ht =>
    have hearly := congrArg CallThread.isEarly ht
    have hnode : KvNode.Registered
        { s with node := { s.node with raft := (s.node.raft.propose data).1 } } :=
      h.same rfl (fun _ _ hop => hop) fun op reply happ => Or.inl happ
    exact hnode.proceed_of_not hc (not_waitsAt_of_early hearly) fun _ => hearly
  | register hc ht => exact h.register hc (congrArg CallThread.isEarly ht)
  | @expire now k index deadline call hc ht hp =>
    refine h.proceed hc ?_ (by simp [CallThread.isEarly])
    rintro index' op hop rfl
    have hslot : call.slot = some index := by simp [KvCall.slot, ht, hp]
    have hidx := Option.some.inj ((h.waitsAt hop hc).slot.symm.trans hslot)
    exact ⟨by simp [KvCall.slot, hidx], rfl, hp⟩
  | erase hc ht => exact h.erase hc ht
  | collect hc ht hp | throw hc ht hp =>
    refine h.proceed_of_not hc (not_waitsAt_of_promise ?_) (by simp [CallThread.isEarly])
    simp [hp]

end KvNode

theorem registered_of_run {order : ByteOrder} {cfg : Config}
    {ts : List (Transition KvNode KvInput KvEvent)} {s : KvNode}
    (h : (kvSystem order cfg).Run ts s) : s.Registered := by
  induction h with
  | init hi =>
    obtain ⟨timeout, rfl⟩ := hi
    exact ⟨by simp [KvNode.init], by simp [KvNode.init, KvServer.init], by simp [KvNode.init]⟩
  | step _ hs ih => exact (KvNode.move_of_step hs).registered ih

/--
**Nothing is left behind in `pending_`**, in any run of a node with its server: an entry belongs to
a call that waits at this index without an answer, or has timed out there and is about to erase the
entry; no call has two entries; and when all calls have ended, there are no entries.
-/
theorem pending_has_waiters {order : ByteOrder} {cfg : Config}
    {ts : List (Transition KvNode KvInput KvEvent)} {s : KvNode}
    (h : (kvSystem order cfg).Run ts s) :
    (∀ index op, s.server.pending.lookup index = some op → ∃ call,
      s.calls[op.call]? = some call ∧ call.promise = .unset ∧
        ((∃ deadline, call.thread = .waiting index deadline) ∨ call.thread = .expired index)) ∧
    (∀ index index' op op', s.server.pending.lookup index = some op →
      s.server.pending.lookup index' = some op' → op.call = op'.call → index = index') ∧
    ((∀ call ∈ s.calls, ∃ ending, call.thread = .ended ending) →
      ∀ index, s.server.pending.lookup index = none) := by
  have hreg := registered_of_run h
  refine ⟨?_, ?_, ?_⟩
  · intro index op hop
    obtain ⟨call, hc, hw⟩ := hreg.waiters index op hop
    exact ⟨call, hc, hw.promise, hw.thread⟩
  · intro index index' op op' hop hop' hk
    exact hreg.index_eq hop' hop hk
  · intro hended index
    refine Option.eq_none_iff_forall_ne_some.mpr ?_
    intro op hop
    obtain ⟨call, hc, hw⟩ := hreg.waiters index op hop
    obtain ⟨ending, ht⟩ := hended call (List.mem_of_getElem? hc)
    rcases hw.thread with ⟨deadline, ht'⟩ | ht' <;> cases ht.symm.trans ht'

/-! ## An index given to two calls -/

/-- Node 0 leads term 1, and two puts wait at the indices 1 and 2. -/
def twoWaiters : List KvInput :=
  kvLeader ++ kvSteps 310 [.call ⟨.put, 7, 1, [107], [97]⟩, .call ⟨.put, 8, 1, [108], [98]⟩,
    .propose 0, .register 0, .propose 1, .register 1]

/-- Node 1 leads term 2 with a log of one entry, which replaces those of node 0. -/
def replaced : List Action :=
  [.appendEntries ⟨9, 1, 0,
      { term := 2, leaderId := 1, prevLogIndex := 0, prevLogTerm := 0,
        entries := [{ term := 2, command := [120] }], leaderCommit := 0 }⟩ shortTimeout,
    .buildRound 3, .leaderWait, .loopTop]

/-- Node 0 wins the election of term 3. -/
def reelected : List Action :=
  [.poll, .startElection shortTimeout] ++ ask 3 ++
    [.voteReturned (some { term := 3, voteGranted := true }), .compareTerm, .decide shortTimeout,
      .initLeader]

/-- It gives index 2 to a third call, which registers there. -/
def indexReused : List KvInput :=
  twoWaiters ++ kvSteps 320 (replaced.map .raft) ++
  kvSteps 620 (reelected.map .raft ++
    [.call ⟨.put, 9, 1, [109], [99]⟩, .propose 2, .register 2, .collect 1])

/-- After `indexReused` the entry at index 2 is that of the call that has overwritten it. -/
theorem pending_has_waiters_indexReused : ∃ ts s,
    (kvSystem .little (threeNodes.config 0)).Run ts s ∧ ts.map Transition.input = indexReused ∧
    s.server.pending.lookup 2 = some ⟨9, 1, 2⟩ ∧
    ∃ call, s.calls[2]? = some call ∧ call.promise = .unset ∧
      ((∃ deadline, call.thread = .waiting 2 deadline) ∨ call.thread = .expired 2) := by
  obtain ⟨ts, s, hr, hi, hp⟩ := exists_kvRun indexReused
    (fun _ s => s.server.pending.lookup 2 = some ⟨9, 1, 2⟩) (by decide +kernel)
  exact ⟨ts, s, hr, hi, hp, (pending_has_waiters hr).1 2 _ hp⟩

end Rafty
