import Rafty.Safety.Pending

/-!
# Promises and the calls that wait for them

`pending_` is keyed by the index alone. When the log was truncated and the index was given to
another call, registering that call overwrites the entry of the first, and the timeout of the first
erases the entry of the second; the promise in it is destroyed, and the call that waits for it gets
an exception (`waiter_destroyed`). `on_apply` compares the client and the number before it answers a
waiter, these two do not.

`waiters_spared`: as long as nobody registers or erases at an index at which another call waits for
its answer, no call loses its entry to another one while it waits, and every call ends with its one
answer or its own timeout.
-/

namespace Rafty

open Infra

/-- The call is in `fut.wait_for`, registered at `index`, and has no answer yet. -/
def KvCall.awaits (index : Nat) (call : KvCall) : Bool :=
  match call.thread with
  | .waiting index' _ => index' = index ∧ call.promise = .unset
  | _ => false

/-- `on_apply` has taken the entry of call `k` out and is about to answer it. -/
def Applier.answers (k : Nat) : Applier → Bool
  | .fulfilling op _ => op.call = k
  | _ => false

namespace KvNode

def slotOf (s : KvNode) (k : Nat) : Option Nat := (s.calls[k]?).bind KvCall.slot

/-- Nobody but call `k` waits at `index`, except for an answer that is on its way. -/
def nobodyAwaits (s : KvNode) (k index : Nat) : Bool :=
  ∀ j < s.calls.length, j ≠ k → (s.calls[j]?).any (KvCall.awaits index) = true →
    s.applier.answers j = true

/-- Nobody waits at the index at which a call registers or, after its timeout, erases. -/
def sparesWaiters (s : KvNode) (i : KvInput) : Bool :=
  match i.action with
  | .register k | .erase k => (s.slotOf k).all (s.nobodyAwaits k)
  | _ => true

end KvNode

/-- The values that the promise of call `k` got. -/
def answersTo (k : Nat) (es : List KvEvent) : List Reply :=
  es.filterMap fun
    | .fulfilled op reply => if op.call = k then some reply else none
    | .executed .. => none

@[simp] theorem answersTo_nil (k : Nat) : answersTo k [] = [] := rfl

@[simp] theorem answersTo_append (k : Nat) (es es' : List KvEvent) :
    answersTo k (es ++ es') = answersTo k es ++ answersTo k es' := List.filterMap_append

theorem answersTo_fulfilled_self (op : PendingOp) (reply : Reply) :
    answersTo op.call [.fulfilled op reply] = [reply] := by
  simp [answersTo]

theorem answersTo_fulfilled_ne {op : PendingOp} {k : Nat} (h : k ≠ op.call) (reply : Reply) :
    answersTo k [.fulfilled op reply] = [] := by
  simp [answersTo, h.symm]

/-- The value in the shared state, if there is one. -/
def Promise.replies : Promise → List Reply
  | .fulfilled reply => [reply]
  | .unset | .broken => []

@[simp] theorem Promise.replies_destroy (promise : Promise) :
    promise.destroy.replies = promise.replies := by
  cases promise <;> rfl

/-! ## One call -/

/-- What holds of a call whose promise got the values `answers`. -/
structure KvCall.Sound (call : KvCall) (answers : List Reply) : Prop where
  answers : answers = call.promise.replies
  broken : call.promise = .broken →
    (∃ index, call.thread = .expired index) ∨ call.thread = .ended .timedOut
  answered : ∀ reply, call.thread = .ended (.answered reply) → call.promise = .fulfilled reply
  threw : call.thread ≠ .ended .threw

theorem KvCall.sound_of_unset {call : KvCall} (hunset : call.promise = .unset)
    (hans : ∀ reply, call.thread ≠ .ended (.answered reply))
    (hthrew : call.thread ≠ .ended .threw) : call.Sound [] where
  answers := by rw [hunset]; rfl
  broken hb := absurd (hunset.symm.trans hb) (by simp)
  answered reply ht := absurd ht (hans reply)
  threw := hthrew

namespace KvNode

/-! ## All calls -/

structure Sound (s : KvNode) (es : List KvEvent) : Prop where
  calls : ∀ k (call : KvCall), s.calls[k]? = some call → call.Sound (answersTo k es)
  unborn : ∀ k, s.calls.length ≤ k → answersTo k es = []
  /-- The call that `on_apply` is about to answer has no answer yet. -/
  unset : ∀ op reply (call : KvCall), s.applier = .fulfilling op reply →
    s.calls[op.call]? = some call → call.promise = .unset

variable {order : ByteOrder} {cfg : Config} {s s' : KvNode} {i : KvInput} {es es' : List KvEvent}

/-- The Raft node and the server do not matter. -/
theorem Sound.frame (h : s.Sound es) (node : Node) (server : KvServer) :
    KvNode.Sound { s with node := node, server := server } es := ⟨h.calls, h.unborn, h.unset⟩

/-- A step that leaves the calls alone. -/
theorem Sound.same (h : s.Sound es) (hreg : s.Registered) (hc : s'.calls = s.calls)
    (hes : ∀ k, answersTo k es' = [])
    (ht : ∀ op reply, s'.applier = .fulfilling op reply → s.applier = .fulfilling op reply ∨
      ∃ index, s.server.pending.lookup index = some op) : s'.Sound (es ++ es') := by
  constructor
  case calls =>
    intro k call hk
    rw [answersTo_append, hes, List.append_nil]
    exact h.calls k call (hc ▸ hk)
  case unborn =>
    intro k hk
    rw [answersTo_append, hes, List.append_nil]
    exact h.unborn k (hc ▸ hk)
  case unset =>
    intro op reply call happ hk
    rw [hc] at hk
    rcases ht op reply happ with happ | ⟨index, hop⟩
    · exact h.unset op reply call happ hk
    · exact (hreg.waitsAt hop hk).promise

/-- A step that changes one call. -/
theorem Sound.update {k : Nat} {call : KvCall} (h : s.Sound es) (call' : KvCall)
    (hc : s.calls[k]? = some call) (hcalls : s'.calls = s.calls.set k call')
    (hes : ∀ j, j ≠ k → answersTo j es' = []) (hok : call'.Sound (answersTo k (es ++ es')))
    (ht : ∀ op reply, s'.applier = .fulfilling op reply → s.applier = .fulfilling op reply ∧
      (op.call = k → call'.promise = .unset)) : s'.Sound (es ++ es') := by
  have hself : s'.calls[k]? = some call' := by
    rw [hcalls]
    exact List.getElem?_set_self (List.getElem?_eq_some_iff.mp hc).1
  have hother : ∀ j, j ≠ k → s'.calls[j]? = s.calls[j]? := by
    intro j hj
    rw [hcalls]
    exact List.getElem?_set_ne hj.symm
  constructor
  case calls =>
    intro j other hj
    by_cases hjk : j = k
    · subst hjk
      rw [hself, Option.some.injEq] at hj
      exact hj ▸ hok
    · rw [hother j hjk] at hj
      rw [answersTo_append, hes j hjk, List.append_nil]
      exact h.calls j other hj
  case unborn =>
    intro j hj
    have hlt := (List.getElem?_eq_some_iff.mp hc).1
    rw [hcalls, List.length_set] at hj
    rw [answersTo_append, hes j (by omega), List.append_nil]
    exact h.unborn j hj
  case unset =>
    intro op reply other happ hj
    obtain ⟨happ, hown⟩ := ht op reply happ
    by_cases hk : op.call = k
    · rw [hk, hself, Option.some.injEq] at hj
      exact hj ▸ hown hk
    · exact h.unset op reply other happ (hother _ hk ▸ hj)

/-! ## The steps of a call -/

theorem modify_eq_set {α : Type*} {l : List α} {k : Nat} {a : α} (h : l[k]? = some a)
    (f : α → α) : l.modify k f = l.set k (f a) := by
  rw [List.modify_eq_set_getElem?, h]
  rfl

theorem Sound.proceed {k : Nat} {call : KvCall} {thread : CallThread} (h : s.Sound es)
    (hc : s.calls[k]? = some call) (hok : KvCall.Sound ⟨thread, call.promise⟩ (answersTo k es)) :
    (s.proceed k thread).Sound (es ++ []) := by
  refine h.update ⟨thread, call.promise⟩ hc (modify_eq_set hc _) (fun _ _ => rfl)
    (by simpa using hok) ?_
  rintro op reply happ
  refine ⟨happ, ?_⟩
  rintro rfl
  exact h.unset op reply call happ hc

/-- A call without an answer goes on, and not to an answer. -/
theorem Sound.proceed_unset {k : Nat} {call : KvCall} {thread : CallThread} (h : s.Sound es)
    (hc : s.calls[k]? = some call) (hunset : call.promise = .unset)
    (hans : ∀ reply, thread ≠ .ended (.answered reply)) (hthrew : thread ≠ .ended .threw) :
    (s.proceed k thread).Sound (es ++ []) := by
  refine h.proceed hc ?_
  rw [(h.calls k call hc).answers, hunset]
  exact KvCall.sound_of_unset rfl hans hthrew

/-- The promise of a call that has stopped waiting is destroyed. -/
theorem Sound.destroyAt (h : s.Sound es) (hreg : s.Registered) {index : Nat}
    (hexp : ∀ op (call : KvCall), s.server.pending.lookup index = some op →
      s.calls[op.call]? = some call → call.thread = .expired index) :
    (s.destroyAt index).Sound es := by
  unfold KvNode.destroyAt
  split
  · exact h
  · next op hop =>
    obtain ⟨call, hc, hw⟩ := hreg.waiters index op hop
    have ht := hexp op call hop hc
    rw [← List.append_nil es]
    refine h.update ⟨call.thread, call.promise.destroy⟩ hc (modify_eq_set hc _) (fun _ _ => rfl)
      ?_ ?_
    · rw [List.append_nil, (h.calls _ call hc).answers, ← call.promise.replies_destroy]
      exact ⟨rfl, fun _ => Or.inl ⟨index, ht⟩, fun reply he => absurd (ht.symm.trans he) (by simp),
        fun he => absurd (ht.symm.trans he) (by simp)⟩
    · intro op' reply happ
      exact ⟨happ, fun hk => absurd hk.symm ((hreg.taken op' reply happ).2 index op hop)⟩

/-- Whose entry a call finds at its index: its own, or that of a call that has stopped waiting. -/
theorem expired_of_nobodyAwaits (hreg : s.Registered) {k index : Nat} {op : PendingOp}
    {call : KvCall} (hfree : s.nobodyAwaits k index = true)
    (hop : s.server.pending.lookup index = some op) (hc : s.calls[op.call]? = some call)
    (hk : op.call ≠ k) : call.thread = .expired index := by
  have hw := hreg.waitsAt hop hc
  rcases hw.thread with ⟨deadline, ht⟩ | ht
  · have hawaits : (s.calls[op.call]?).any (KvCall.awaits index) = true := by
      simp [hc, KvCall.awaits, ht, hw.promise]
    have hans := of_decide_eq_true hfree _ (List.getElem?_eq_some_iff.mp hc).1 hk hawaits
    -- but an entry that `on_apply` is about to answer is out of the table
    cases ha : s.applier with
    | fulfilling op' reply =>
      rw [ha] at hans
      exact absurd (of_decide_eq_true hans).symm ((hreg.taken op' reply ha).2 index op hop)
    | _ =>
      rw [ha] at hans
      cases hans
  · exact ht

theorem Sound.register (h : s.Sound es) (hreg : s.Registered)
    {now k index clientId seqNum : Nat} {call : KvCall} (hc : s.calls[k]? = some call)
    (ht : call.thread = .registering index clientId seqNum)
    (hfree : s.nobodyAwaits k index = true) :
    (s.register now k index clientId seqNum).Sound (es ++ []) := by
  have hearly : call.thread.isEarly = true := by rw [ht]; rfl
  have hne : ∀ op, s.server.pending.lookup index = some op → op.call ≠ k := by
    rintro op hop rfl
    exact not_waitsAt_of_early hearly index (hreg.waitsAt hop hc)
  have hgone := h.destroyAt hreg fun op call' hop hc' =>
    expired_of_nobodyAwaits hreg hfree hop hc' (hne op hop)
  obtain ⟨promise, hc', hpromise⟩ := destroyAt_getElem? hc index
  have hsame : promise = call.promise :=
    hpromise.resolve_right fun ⟨op, hop, hk⟩ => hne op hop hk
  refine (hgone.frame _ _).proceed_unset hc' ?_ (by simp) (by simp)
  exact hsame.trans (hreg.early k call hc hearly)

theorem Sound.erase (h : s.Sound es) (hreg : s.Registered) {k index : Nat} {call : KvCall}
    (hc : s.calls[k]? = some call) (ht : call.thread = .expired index)
    (hfree : s.nobodyAwaits k index = true) : (s.erase k index).Sound (es ++ []) := by
  have hgone := h.destroyAt hreg fun op call' hop hc' => by
    by_cases hk : op.call = k
    · rw [hk, hc, Option.some.injEq] at hc'
      exact hc' ▸ ht
    · exact expired_of_nobodyAwaits hreg hfree hop hc' hk
  obtain ⟨promise, hc', -⟩ := destroyAt_getElem? hc index
  refine (hgone.frame _ _).proceed hc' ?_
  rw [(hgone.calls k _ hc').answers]
  constructor <;> simp

/-! ## The steps of `on_apply` -/

/-- A promise that is not in the table any more gets its value. -/
theorem Sound.fulfil (h : s.Sound es) {op : PendingOp} {reply : Reply} {call : KvCall}
    (hc : s.calls[op.call]? = some call) (hunset : call.promise = .unset)
    (ha : ∀ op reply, s'.applier ≠ .fulfilling op reply)
    (hcalls : s'.calls = (s.fulfilPromise op reply).calls) :
    s'.Sound (es ++ [.fulfilled op reply]) := by
  have hs := h.calls _ call hc
  refine h.update ⟨call.thread, .fulfilled reply⟩ hc (hcalls.trans (modify_eq_set hc _))
    (fun j hj => answersTo_fulfilled_ne hj reply) ?_ fun op' reply' happ =>
      absurd happ (ha op' reply')
  rw [answersTo_append, answersTo_fulfilled_self, hs.answers, hunset]
  refine ⟨rfl, fun hb => absurd hb (by simp), ?_, hs.threw⟩
  intro reply' ht
  cases hunset.symm.trans (hs.answered reply' ht)

/-- A request comes in. -/
theorem Sound.call (h : s.Sound es) (hreg : s.Registered) (cmd : Command) :
    (s.call cmd).Sound (es ++ []) := by
  rw [List.append_nil]
  obtain ⟨new, hcalls, hunset, -, hearly⟩ := s.call_calls cmd
  have hcases : ∀ {k : Nat} {call : KvCall}, (s.call cmd).calls[k]? = some call →
      s.calls[k]? = some call ∨ k = s.calls.length ∧ call = new := by
    intro k call hk
    rw [hcalls, List.getElem?_append] at hk
    split at hk
    · exact Or.inl hk
    · obtain ⟨hlt, rfl⟩ := List.getElem?_eq_some_iff.mp hk
      rw [List.length_singleton] at hlt
      exact Or.inr ⟨by omega, by simp⟩
  constructor
  case calls =>
    intro k call hk
    rcases hcases hk with hk | ⟨rfl, rfl⟩
    · exact h.calls k call hk
    · rw [h.unborn _ (Nat.le_refl _)]
      refine KvCall.sound_of_unset hunset ?_ ?_
      · exact fun reply ht => absurd hearly (by simp [ht, CallThread.isEarly])
      · exact fun ht => absurd hearly (by simp [ht, CallThread.isEarly])
  case unborn =>
    intro k hk
    rw [hcalls, List.length_append] at hk
    exact h.unborn k (by omega)
  case unset =>
    intro op reply call happ hk
    obtain ⟨⟨call', hc', -⟩, -⟩ := hreg.taken op reply happ
    rcases hcases hk with hk | ⟨hlen, -⟩
    · exact h.unset op reply call happ hk
    · rw [hlen] at hc'
      simp at hc'

/-- **The step lemma.** -/
theorem Move.sound (h : Move order cfg s i s' es') (hreg : s.Registered) (hs : s.Sound es)
    (hp : s.sparesWaiters i = true) : s'.Sound (es ++ es') := by
  cases h with
  | raft => exact hs.same hreg rfl (fun _ => rfl) fun _ _ happ => Or.inl happ
  | exit | skip | dequeue | check | executeDup | execute =>
    exact hs.same hreg rfl (fun _ => rfl) fun _ _ happ => absurd happ (by simp)
  | reject | finish =>
    exact hs.same hreg rfl (fun _ => rfl) fun _ _ happ => absurd happ (by simp [rejected, finished])
  | finishWaiter _ hpend =>
    refine hs.same hreg rfl (fun _ => rfl) ?_
    intro op reply happ
    simp only [finished, Applier.fulfilling.injEq] at happ
    exact Or.inr ⟨_, happ.1 ▸ hpend⟩
  | rejectWaiter _ _ hpend =>
    obtain ⟨call, hc, hw⟩ := hreg.waiters _ _ hpend
    exact hs.fulfil hc hw.promise (by simp [rejected]) rfl
  | fulfil ha =>
    obtain ⟨⟨call, hc, -⟩, -⟩ := hreg.taken _ _ ha
    exact hs.fulfil hc (hs.unset _ _ call ha hc) (by simp) rfl
  | call => exact hs.call hreg _
  | @lease now k cmd call hc ht =>
    have hunset := hreg.early k call hc (by rw [ht]; rfl)
    unfold KvNode.lease
    obtain ⟨hasLease, commitIdx⟩ := s.node.raft.getLeaseState now
    cases hasLease <;> exact hs.proceed_unset hc hunset (by simp) (by simp)
  | read hc ht | notLeader hc ht =>
    exact hs.proceed_unset hc (hreg.early _ _ hc (by rw [ht]; rfl)) (by simp) (by simp)
  | propose hc ht =>
    refine (hs.frame _ _).proceed_unset hc (hreg.early _ _ hc ?_) (by simp) (by simp)
    rw [ht]
    rfl
  | register hc ht =>
    refine hs.register hreg hc ht ?_
    simpa [sparesWaiters, slotOf, hc, KvCall.slot, ht] using hp
  | expire hc ht hunset => exact hs.proceed_unset hc hunset (by simp) (by simp)
  | erase hc ht =>
    refine hs.erase hreg hc ht ?_
    simpa [sparesWaiters, slotOf, hc, KvCall.slot, ht] using hp
  | collect hc ht hf =>
    refine hs.proceed hc ?_
    rw [(hs.calls _ _ hc).answers, hf]
    constructor <;> simp
  | throw hc ht hb =>
    rcases (hs.calls _ _ hc).broken hb with ⟨index, hend⟩ | hend <;> cases ht.symm.trans hend

/--
Only the call itself removes its entry without an answer, unless it has stopped waiting and another
call is at its index.
-/
theorem Move.entry (h : Move order cfg s i s' es') (hreg : s.Registered)
    (hp : s.sparesWaiters i = true) {index : Nat} {op : PendingOp}
    (hop : s.server.pending.lookup index = some op) (hk : i.action.caller ≠ some op.call) :
    s'.server.pending.lookup index = some op ∨
      (∃ reply, s'.applier = .fulfilling op reply ∨ .fulfilled op reply ∈ es') ∨
      (s.calls[op.call]?).map KvCall.thread = some (.expired index) ∧
        ∃ k, i.action.caller = some k ∧ s.slotOf k = some index := by
  have herase : ∀ {index'}, index' ≠ index →
      (s.server.pending.erase index').lookup index = some op := by
    intro index' hne
    rw [AList.lookup_erase_ne hne.symm]
    exact hop
  -- a call that comes to the entry of another one
  have hother : ∀ {k : Nat}, s.nobodyAwaits k index = true → op.call ≠ k →
      (s.calls[op.call]?).map KvCall.thread = some (.expired index) := by
    intro k hfree hne
    obtain ⟨call, hc, -⟩ := hreg.waiters index op hop
    rw [hc, Option.map_some, expired_of_nobodyAwaits hreg hfree hop hc hne]
  cases h with
  | reject _ _ hpend | finish _ hpend =>
    exact Or.inl (herase fun he => by rw [he, hop] at hpend; cases hpend)
  | @finishWaiter _ index' _ _ _ _ hpend =>
    by_cases hidx : index' = index
    · rw [hidx, hop, Option.some.injEq] at hpend
      exact Or.inr (Or.inl ⟨_, Or.inl (by rw [hpend]; rfl)⟩)
    · exact Or.inl (herase hidx)
  | @rejectWaiter _ result _ _ _ _ hpend =>
    by_cases hidx : result.index = index
    · rw [hidx, hop, Option.some.injEq] at hpend
      exact Or.inr (Or.inl ⟨_, Or.inr (by rw [hpend]; exact List.mem_singleton_self _)⟩)
    · exact Or.inl (herase hidx)
  | @register _ k index' _ _ call hc ht =>
    have hslot : s.slotOf k = some index' := by simp [slotOf, hc, KvCall.slot, ht]
    by_cases hidx : index' = index
    · subst hidx
      have hfree : s.nobodyAwaits k index' = true := by simpa [sparesWaiters, hslot] using hp
      exact Or.inr (Or.inr ⟨hother hfree fun he => hk (congrArg some he.symm), k, rfl, hslot⟩)
    · left
      simp only [KvNode.register, KvServer.register, destroyAt_server, proceed_server]
      rw [AList.lookup_insert_ne (Ne.symm hidx)]
      exact hop
  | @erase _ k index' call hc ht =>
    have hslot : s.slotOf k = some index' := by simp [slotOf, hc, KvCall.slot, ht]
    by_cases hidx : index' = index
    · subst hidx
      have hfree : s.nobodyAwaits k index' = true := by simpa [sparesWaiters, hslot] using hp
      exact Or.inr (Or.inr ⟨hother hfree fun he => hk (congrArg some he.symm), k, rfl, hslot⟩)
    · left
      simp only [KvNode.erase, destroyAt_server, proceed_server]
      exact herase hidx
  | _ => exact Or.inl hop

/-- A call past its deadline is not stuck. -/
theorem waiting_goes_on {k index deadline now : Nat} {call : KvCall} (hc : s.calls[k]? = some call)
    (ht : call.thread = .waiting index deadline) (hd : deadline ≤ now) :
    (s.step order cfg ⟨now, .expire k⟩).isSome = true ∨
      (s.step order cfg ⟨now, .collect k⟩).isSome = true := by
  cases hp : call.promise with
  | unset => exact Or.inl (by simp [step, callStep, hc, ht, hp, hd])
  | fulfilled reply => exact Or.inr (by simp [step, callStep, hc, ht, hp, collect])
  | broken => exact Or.inr (by simp [step, callStep, hc, ht, hp, collect])

end KvNode

variable {order : ByteOrder} {cfg : Config} {ts : List (Transition KvNode KvInput KvEvent)}
  {s : KvNode}

/-- **The run lemma.** -/
theorem sound_of_run (h : (kvSystem order cfg).Run ts s)
    (hp : ∀ t ∈ ts, t.before.sparesWaiters t.input = true) : s.Sound (events ts) := by
  induction h with
  | init hi =>
    obtain ⟨timeout, rfl⟩ := hi
    constructor <;> simp [KvNode.init]
  | step hr hs ih =>
    simp only [List.forall_mem_append, List.forall_mem_singleton] at hp
    rw [events_append, events_singleton]
    exact (KvNode.move_of_step hs).sound (registered_of_run hr) (ih hp.1) hp.2

/--
**Waiters do not destroy each other.** An entry of `pending_` is removed by its own call, or by
`on_apply`, which then answers it, or by another call with its index once its own call has stopped
waiting. A call past its deadline can go on, no call ends with an exception, no promise is fulfilled
twice, and a call that ends with an answer ends with the value its promise got.
-/
theorem waiters_spared (order : ByteOrder) (cfg : Config)
    {ts : List (Transition KvNode KvInput KvEvent)} {s : KvNode} (h : (kvSystem order cfg).Run ts s)
    (hp : ∀ t ∈ ts, t.before.sparesWaiters t.input = true) :
    (∀ t ∈ ts, ∀ index op, t.before.server.pending.lookup index = some op →
      t.input.action.caller ≠ some op.call → t.after.server.pending.lookup index = some op ∨
        (∃ reply, t.after.applier = .fulfilling op reply ∨ .fulfilled op reply ∈ t.events) ∨
        (t.before.calls[op.call]?).map KvCall.thread = some (.expired index) ∧
          ∃ k, t.input.action.caller = some k ∧ t.before.slotOf k = some index) ∧
    ∀ k call, s.calls[k]? = some call →
      (∀ index deadline now, call.thread = .waiting index deadline → deadline ≤ now →
        (s.step order cfg ⟨now, .expire k⟩).isSome ∨
          (s.step order cfg ⟨now, .collect k⟩).isSome) ∧
      call.thread ≠ .ended .threw ∧ (answersTo k (events ts)).length ≤ 1 ∧
      ∀ reply, call.thread = .ended (.answered reply) → answersTo k (events ts) = [reply] := by
  constructor
  · intro t ht index op hop hk
    obtain ⟨ts₁, ts₂, -, hr, hs⟩ := h.of_mem ht
    exact (KvNode.move_of_step hs).entry (registered_of_run hr) (hp t ht) hop hk
  · intro k call hc
    have hs := (sound_of_run h hp).calls k call hc
    refine ⟨fun index deadline now => KvNode.waiting_goes_on hc, hs.threw, ?_, ?_⟩
    · rw [hs.answers]
      cases call.promise <;> simp [Promise.replies]
    · intro reply ht
      rw [hs.answers, hs.answered reply ht]
      rfl

/-! ## Two runs with two waiters -/

/-- Both are committed, applied and answered. -/
def bothAnswered : List KvInput :=
  twoWaiters ++ kvSteps 320 ([.buildRound 3, bothAnswer, .applyNext, .applyNext].map .raft ++
    applyOne ++ [.fulfil] ++ applyOne ++ [.fulfil, .collect 0, .collect 1])

theorem waiters_spared_bothAnswered : ∃ ts s, (kvSystem .little (threeNodes.config 0)).Run ts s ∧
    ts.map Transition.input = bothAnswered ∧
    (s.calls[1]?).map KvCall.thread = some (.ended (.answered ⟨.success, []⟩)) ∧
    answersTo 1 (events ts) = [⟨.success, []⟩] := by
  obtain ⟨ts, s, hr, hi, hc, hp⟩ := exists_kvRun bothAnswered
    (fun ts s => (s.calls[1]?).map KvCall.thread = some (.ended (.answered ⟨.success, []⟩)) ∧
      ∀ t ∈ ts, t.before.sparesWaiters t.input = true) (by decide +kernel)
  obtain ⟨call, hcall, ht⟩ := Option.map_eq_some_iff.mp hc
  obtain ⟨-, -, -, honce⟩ := (waiters_spared .little _ hr hp).2 1 call hcall
  exact ⟨ts, s, hr, hi, hc, honce _ ht⟩

/-- The second call, which waits at index 2, then gets an exception long before its timeout. -/
theorem waiter_destroyed : ∃ ts s, (kvSystem .little (threeNodes.config 0)).Run ts s ∧
    ts.map Transition.input = indexReused ∧
    (s.calls[1]?).map KvCall.thread = some (.ended .threw) ∧ answersTo 1 (events ts) = [] ∧
    s.server.pending.lookup 2 = some ⟨9, 1, 2⟩ :=
  exists_kvRun indexReused _ (by decide +kernel)

end Rafty
