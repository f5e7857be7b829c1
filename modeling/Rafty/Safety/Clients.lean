import Rafty.Properties.Codec
import Rafty.Properties.KvCluster
import Rafty.Safety.Answers

/-!
# Clients and their requests

What is known of the clients in every run of the service: which operation a client has under way
(`ClientInv`), that no two operations share a client and a number as long as the numbers last
(`Numbered`), and that the calls at the servers are those of the requests (`Arrived`).

None of this takes that the ids of the clients differ. Where a command has to tell which client it
is of, `DistinctIds` says so.
-/

namespace Rafty

open Infra

variable {order : ByteOrder} {m : Membership} {ids : Nat → UInt64} {s : KvCluster}
  {ts : List (Transition KvCluster KvClusterInput KvClusterEvent)}

/-- The operations that have been started, each with its client. -/
def invocations (es : List KvClusterEvent) : List (Nat × Command) :=
  es.filterMap fun
    | .invoked k cmd => some (k, cmd)
    | _ => none

@[simp] theorem invocations_append (es es' : List KvClusterEvent) :
    invocations (es ++ es') = invocations es ++ invocations es' := List.filterMap_append

theorem mem_invocations {es : List KvClusterEvent} {op : Nat × Command} :
    op ∈ invocations es ↔ .invoked op.1 op.2 ∈ es := by
  unfold invocations
  rw [List.mem_filterMap]
  constructor
  · rintro ⟨e, he, heq⟩
    cases e with
    | invoked k cmd => exact Option.some.inj heq ▸ he
    | _ => cases heq
  · exact fun he => ⟨_, he, rfl⟩

@[simp] theorem invocations_raft (es : List Event) : invocations (es.map .raft) = [] := by
  simp [invocations, List.filterMap_map]

@[simp] theorem invocations_kv (n : NodeId) (es : List KvEvent) :
    invocations (es.map (.kv n)) = [] := by
  simp [invocations, List.filterMap_map]

/-! ## The clients and their requests -/

/-- The operation that a request is for. -/
def KvRpc.operation (rpc : KvRpc) : Nat × Command := (rpc.client, rpc.cmd)

/-- What is known of the clients when the operations `ops` have been started. -/
structure ClientInv (ids : Nat → UInt64) (ops : List (Nat × Command)) (s : KvCluster) :
    Prop where
  clientId : ∀ k, (s.clients k).clientId = (ids k).toNat
  underWay : ∀ k cmd, (s.clients k).thread.command = some cmd →
    (k, cmd) ∈ ops ∧ cmd.seqNum = (s.clients k).seqNum
  drawn : ∀ op ∈ ops, op.2.clientId = (ids op.1).toNat
  fits : ∀ op ∈ ops, op.2.Fits ∧ op.2.sent = op.2
  requests : ∀ rpc ∈ s.rpcs, rpc.operation ∈ ops
  calling : ∀ k cmd attempt r, (s.clients k).thread = .calling cmd attempt r →
    (s.rpcs[r]?).map KvRpc.operation = some (k, cmd)

namespace KvCluster

@[simp] theorem setClient_self (s : KvCluster) (k : Nat) (client : KvClient) :
    (s.setClient k client).clients k = client := Function.update_self ..

theorem setClient_ne (s : KvCluster) {k j : Nat} (client : KvClient) (h : j ≠ k) :
    (s.setClient k client).clients j = s.clients j := Function.update_of_ne h ..

end KvCluster

namespace ClientInv

variable {ops : List (Nat × Command)} {s' : KvCluster} {i : KvClusterInput}
  {es : List KvClusterEvent}

/-- A step that leaves the clients and the operations of the requests alone. -/
theorem same (h : ClientInv ids ops s) (hc : s'.clients = s.clients)
    (hr : s'.rpcs.map KvRpc.operation = s.rpcs.map KvRpc.operation) : ClientInv ids ops s' where
  clientId := by rw [hc]; exact h.clientId
  underWay := by rw [hc]; exact h.underWay
  drawn := h.drawn
  fits := h.fits
  requests rpc hrpc := by
    have hmem : rpc.operation ∈ s.rpcs.map KvRpc.operation := hr ▸ List.mem_map_of_mem hrpc
    obtain ⟨rpc', hrpc', hop⟩ := List.mem_map.mp hmem
    exact hop ▸ h.requests rpc' hrpc'
  calling k cmd attempt r ht := by
    rw [hc] at ht
    rw [← List.getElem?_map, hr, List.getElem?_map]
    exact h.calling k cmd attempt r ht

/-- A step of client `k` that keeps its number and starts nothing. -/
theorem proceed (h : ClientInv ids ops s) {k : Nat} {client : KvClient}
    (hid : client.clientId = (s.clients k).clientId) (hseq : client.seqNum = (s.clients k).seqNum)
    (hcmd : ∀ cmd, client.thread.command = some cmd → (s.clients k).thread.command = some cmd)
    (hcall : ∀ cmd attempt r, client.thread = .calling cmd attempt r →
      (s.rpcs[r]?).map KvRpc.operation = some (k, cmd)) :
    ClientInv ids ops (s.setClient k client) := by
  constructor
  case clientId =>
    intro j
    by_cases hj : j = k
    · subst hj
      rw [KvCluster.setClient_self, hid, h.clientId]
    · rw [KvCluster.setClient_ne s client hj, h.clientId]
  case underWay =>
    intro j cmd ht
    by_cases hj : j = k
    · subst hj
      rw [KvCluster.setClient_self] at ht ⊢
      rw [hseq]
      exact h.underWay j cmd (hcmd cmd ht)
    · rw [KvCluster.setClient_ne s client hj] at ht ⊢
      exact h.underWay j cmd ht
  case drawn => exact h.drawn
  case fits => exact h.fits
  case requests => exact h.requests
  case calling =>
    intro j cmd attempt r ht
    by_cases hj : j = k
    · subst hj
      rw [KvCluster.setClient_self] at ht
      exact hcall cmd attempt r ht
    · rw [KvCluster.setClient_ne s client hj] at ht
      exact h.calling j cmd attempt r ht

/-- A client sends its operation once more. -/
theorem send (h : ClientInv ids ops s) {rpc : KvRpc} (hmem : rpc.operation ∈ ops) :
    ClientInv ids ops { s with rpcs := s.rpcs ++ [rpc] } where
  clientId := h.clientId
  underWay := h.underWay
  drawn := h.drawn
  fits := h.fits
  requests rpc' hrpc := by
    rcases List.mem_append.mp hrpc with hrpc | hrpc
    · exact h.requests rpc' hrpc
    · rw [List.mem_singleton.mp hrpc]
      exact hmem
  calling k cmd attempt r ht := by
    have hold := h.calling k cmd attempt r ht
    obtain ⟨rpc', hrpc', -⟩ := Option.map_eq_some_iff.mp hold
    rw [List.getElem?_append_left (List.getElem?_eq_some_iff.mp hrpc').1]
    exact hold

/-- A client starts an operation with its next number. -/
theorem invoke (h : ClientInv ids ops s) {k : Nat} {cmd : Command}
    (hid : cmd.clientId = (ids k).toNat) (hseq : cmd.seqNum = succ64 (s.clients k).seqNum)
    (hfits : cmd.Fits) (hsent : cmd.sent = cmd) :
    ClientInv ids (ops ++ [(k, cmd)]) (s.setClient k
      { s.clients k with
        seqNum := succ64 (s.clients k).seqNum, thread := .attempting cmd 0 }) := by
  constructor
  case clientId =>
    intro j
    by_cases hj : j = k
    · subst hj
      rw [KvCluster.setClient_self]
      exact h.clientId j
    · rw [KvCluster.setClient_ne s _ hj, h.clientId]
  case underWay =>
    intro j cmd' ht
    by_cases hj : j = k
    · subst hj
      rw [KvCluster.setClient_self] at ht ⊢
      obtain rfl := Option.some.inj ht
      exact ⟨by simp, hseq⟩
    · rw [KvCluster.setClient_ne s _ hj] at ht ⊢
      obtain ⟨hmem, hnum⟩ := h.underWay j cmd' ht
      exact ⟨List.mem_append_left _ hmem, hnum⟩
  case drawn =>
    intro op hmem
    rcases List.mem_append.mp hmem with hmem | hmem
    · exact h.drawn op hmem
    · rw [List.mem_singleton.mp hmem]
      exact hid
  case fits =>
    intro op hmem
    rcases List.mem_append.mp hmem with hmem | hmem
    · exact h.fits op hmem
    · rw [List.mem_singleton.mp hmem]
      exact ⟨hfits, hsent⟩
  case requests => exact fun rpc hrpc => List.mem_append_left _ (h.requests rpc hrpc)
  case calling =>
    intro j cmd' attempt r ht
    by_cases hj : j = k
    · subst hj
      rw [KvCluster.setClient_self] at ht
      cases ht
    · rw [KvCluster.setClient_ne s _ hj] at ht
      exact h.calling j cmd' attempt r ht

/-- **The step lemma.** -/
theorem step (h : ClientInv ids ops s) (hm : KvCluster.Move order m s i s' es) :
    ClientInv ids (ops ++ invocations es) s' := by
  cases hm with
  | raft =>
    rw [invocations_raft, List.append_nil]
    exact h.same rfl rfl
  | server =>
    rw [invocations_append, invocations_raft, invocations_kv, List.append_nil, List.append_nil]
    exact h.same rfl rfl
  | @invoke k op key value cmd ht hlen hcmd =>
    have hid := h.clientId k
    refine h.invoke ?_ ?_ ?_ ?_
    · rw [hcmd, hid]
    · rw [hcmd]
    · subst hcmd
      refine ⟨hid ▸ (ids k).toNat_lt, Nat.mod_lt _ (by decide), ?_⟩
      dsimp only
      split
      · simp only [List.length_nil]; omega
      · exact hlen
    · subst hcmd
      unfold Command.sent
      split
      · next hget =>
        simp [show op = .get from hget]
      · rfl
  | @send k attempt cmd ht =>
    have hcmd : (s.clients k).thread.command = some cmd := by rw [ht]; rfl
    have hmem : KvRpc.operation ⟨k, (s.clients k).target, cmd, none⟩ ∈ ops :=
      (h.underWay k cmd hcmd).1
    rw [show invocations [] = [] from rfl, List.append_nil]
    refine ClientInv.proceed (s := { s with rpcs := s.rpcs ++ [_] }) (h.send hmem) rfl rfl ?_ ?_
    · intro cmd' ht'
      exact hcmd.trans ht'
    · intro cmd' attempt' r ht'
      obtain ⟨rfl, -, rfl⟩ := ClientThread.calling.inj ht'
      simp [KvRpc.operation]
  | @deliver r now rpc hr hc hn =>
    rw [show invocations [] = [] from rfl, List.append_nil]
    refine h.same rfl ?_
    obtain ⟨hlt, rfl⟩ := List.getElem?_eq_some_iff.mp hr
    rw [List.map_set]
    exact List.ext_getElem (by simp) fun j hj _ => by
      simp only [List.getElem_set, List.getElem_map]
      split
      · next hjr => simp [hjr, KvRpc.operation]
      · rfl
  | succeeded ht =>
    rw [show invocations [_] = [] from rfl, List.append_nil]
    exact h.proceed rfl rfl (fun cmd hc => by cases hc) (fun cmd attempt r hc => by cases hc)
  | retried ht =>
    rw [show invocations [] = [] from rfl, List.append_nil]
    refine h.proceed rfl rfl (fun cmd hc => ?_) (fun cmd attempt r hc => by cases hc)
    rw [ht]
    exact hc
  | gaveUp ht =>
    rw [show invocations [_] = [] from rfl, List.append_nil]
    exact h.proceed rfl rfl (fun cmd hc => by cases hc) (fun cmd attempt r hc => by cases hc)

end ClientInv

theorem clientInv_of_run (h : (kvClusterSystem order m ids).Run ts s) :
    ClientInv ids (invocations (events ts)) s := by
  induction h with
  | init hi =>
    obtain ⟨timeouts, stubs, hstubs, rfl⟩ := hi
    exact ⟨fun _ => rfl, fun k cmd ht => (by cases ht), by simp [invocations],
      by simp [invocations], by simp [KvCluster.init], fun k cmd attempt r ht => (by cases ht)⟩
  | step _ hs ih =>
    rw [events_append, events_singleton, invocations_append]
    exact ih.step (KvCluster.move_of_step hs)

/-! ## Numbers -/

/-- Another number is left when a client starts an operation. -/
def KvCluster.numbersLeft (s : KvCluster) : KvClusterInput → Bool
  | .invoke k _ _ _ => (s.clients k).seqNum + 1 < 2 ^ 64
  | _ => true

/-- No two operations have the same client and number, and none has a number still to come. -/
structure Numbered (ops : List (Nat × Command)) (s : KvCluster) : Prop where
  le : ∀ op ∈ ops, op.2.seqNum ≤ (s.clients op.1).seqNum
  eq : ∀ a ∈ ops, ∀ b ∈ ops, a.1 = b.1 → a.2.seqNum = b.2.seqNum → a = b
  nodup : ops.Nodup

/-- A step that takes no new number starts nothing. -/
theorem KvCluster.Move.numbers {i : KvClusterInput} {s' : KvCluster} {es : List KvClusterEvent}
    (hm : Move order m s i s' es) :
    (invocations es = [] ∧ ∀ j, (s'.clients j).seqNum = (s.clients j).seqNum) ∨
    ∃ k op key value cmd, i = .invoke k op key value ∧ es = [.invoked k cmd] ∧
      cmd.seqNum = succ64 (s.clients k).seqNum ∧
      (s'.clients k).seqNum = succ64 (s.clients k).seqNum ∧
      ∀ j, j ≠ k → (s'.clients j).seqNum = (s.clients j).seqNum := by
  have hset : ∀ (s : KvCluster) k (client : KvClient), client.seqNum = (s.clients k).seqNum →
      ∀ j, ((s.setClient k client).clients j).seqNum = (s.clients j).seqNum := by
    intro s k client hseq j
    by_cases hj : j = k
    · subst hj
      rw [setClient_self, hseq]
    · rw [setClient_ne s client hj]
  cases hm with
  | raft => exact Or.inl ⟨invocations_raft _, fun _ => rfl⟩
  | server =>
    refine Or.inl ⟨?_, fun _ => rfl⟩
    rw [invocations_append, invocations_raft, invocations_kv, List.append_nil]
  | @invoke k op key value cmd ht hlen hcmd =>
    refine Or.inr ⟨k, op, key, value, cmd, rfl, rfl, by rw [hcmd], ?_, ?_⟩
    · rw [setClient_self]
    · intro j hj
      rw [setClient_ne s _ hj]
  | send => exact Or.inl ⟨rfl, hset s _ _ rfl⟩
  | deliver => exact Or.inl ⟨rfl, fun _ => rfl⟩
  | succeeded | retried | gaveUp => exact Or.inl ⟨rfl, hset s _ _ rfl⟩

theorem Numbered.step {ops : List (Nat × Command)} {i : KvClusterInput} {s' : KvCluster}
    {es : List KvClusterEvent} (h : Numbered ops s) (hm : KvCluster.Move order m s i s' es)
    (hleft : s.numbersLeft i = true) : Numbered (ops ++ invocations es) s' := by
  rcases hm.numbers with ⟨hno, hsame⟩ | ⟨k, op, key, value, cmd, rfl, rfl, hseq, hself, hne⟩
  · rw [hno, List.append_nil]
    refine ⟨fun op hmem => ?_, h.eq, h.nodup⟩
    rw [hsame]
    exact h.le op hmem
  · have hlt : (s.clients k).seqNum + 1 < 2 ^ 64 := of_decide_eq_true hleft
    have hsucc : succ64 (s.clients k).seqNum = (s.clients k).seqNum + 1 := Nat.mod_eq_of_lt hlt
    -- the numbers of the client so far are below the new one
    have hbelow : ∀ a ∈ ops, a.1 = k → a.2.seqNum < cmd.seqNum := by
      intro a ha hak
      have hle := h.le a ha
      rw [hak] at hle
      omega
    rw [show invocations [.invoked k cmd] = [(k, cmd)] from rfl]
    constructor
    · intro a ha
      rcases List.mem_append.mp ha with ha | ha
      · by_cases hak : a.1 = k
        · have hlt := hbelow a ha hak
          rw [hak, hself]
          omega
        · rw [hne _ hak]
          exact h.le a ha
      · obtain rfl := List.mem_singleton.mp ha
        rw [hself, hseq]
    · intro a ha b hb hclient hnum
      rw [List.mem_append, List.mem_singleton] at ha hb
      rcases ha with ha | rfl <;> rcases hb with hb | rfl
      · exact h.eq a ha b hb hclient hnum
      · exact absurd hnum (hbelow a ha hclient).ne
      · exact absurd hnum (hbelow b hb hclient.symm).ne'
      · rfl
    · refine h.nodup.append (List.nodup_singleton _) ?_
      rw [List.disjoint_singleton]
      exact fun hmem => (hbelow (k, cmd) hmem rfl).ne rfl

theorem numbered_of_run (h : (kvClusterSystem order m ids).Run ts s)
    (hleft : ∀ t ∈ ts, t.before.numbersLeft t.input = true) :
    Numbered (invocations (events ts)) s := by
  induction h with
  | init => exact ⟨by simp [invocations], by simp [invocations], List.nodup_nil⟩
  | step hr hs ih =>
    rw [List.forall_mem_append, List.forall_mem_singleton] at hleft
    rw [events_append, events_singleton, invocations_append]
    exact (ih hleft.1).step (KvCluster.move_of_step hs) hleft.2

/-! ## Ids -/

/-- No two clients that have used the service have drawn the same id. -/
def DistinctIds (ids : Nat → UInt64) (es : List KvClusterEvent) : Prop :=
  ∀ a ∈ invocations es, ∀ b ∈ invocations es, ids a.1 = ids b.1 → a.1 = b.1

instance (ids : Nat → UInt64) (es : List KvClusterEvent) : Decidable (DistinctIds ids es) :=
  inferInstanceAs (Decidable (∀ a ∈ _, ∀ b ∈ _, _))

theorem DistinctIds.init {es es' : List KvClusterEvent} (h : DistinctIds ids (es ++ es')) :
    DistinctIds ids es := by
  intro a ha b hb
  rw [DistinctIds, invocations_append] at h
  exact h a (List.mem_append_left _ ha) b (List.mem_append_left _ hb)

/-- The id of a command tells which client it is of. -/
theorem DistinctIds.client_eq {es : List KvClusterEvent} (h : DistinctIds ids es)
    (hc : ClientInv ids (invocations es) s) {a b : Nat × Command} (ha : a ∈ invocations es)
    (hb : b ∈ invocations es) (he : a.2.clientId = b.2.clientId) : a.1 = b.1 := by
  rw [hc.drawn a ha, hc.drawn b hb] at he
  exact h a ha b hb (UInt64.toNat_inj.mp he)

/-! ## The calls at the servers -/

/-- The commands of the calls at the server of `n`. -/
def arrived (n : NodeId) (ts : List (Transition KvCluster KvClusterInput KvClusterEvent)) :
    List Command := issued ((KvCluster.nodeView n).run ts)

/-- The command that a step brings to the server of `n`. -/
def KvCluster.arrives (n : NodeId) (s : KvCluster) (i : KvClusterInput) : List Command :=
  (nodeInput n s i).toList.flatMap KvInput.issues

theorem arrived_concat (n : NodeId)
    (ts : List (Transition KvCluster KvClusterInput KvClusterEvent))
    (t : Transition KvCluster KvClusterInput KvClusterEvent) :
    arrived n (ts ++ [t]) = arrived n ts ++ t.before.arrives n t.input := by
  unfold arrived KvCluster.arrives
  rw [View.run_append, issued, List.flatMap_append]
  congr 1
  cases hi : KvCluster.nodeInput n t.before t.input with
  | none => simp [View.run, View.transition, KvCluster.nodeView, hi]
  | some j => simp [View.run, View.transition, KvCluster.nodeView, hi]

/-- The calls at the servers are those of the requests. -/
structure Arrived (cmds : NodeId → List Command) (s : KvCluster) : Prop where
  calls : ∀ rpc ∈ s.rpcs, ∀ k, rpc.call = some k → (cmds rpc.node)[k]? = some rpc.cmd
  requests : ∀ n, ∀ cmd ∈ cmds n, ∃ rpc ∈ s.rpcs, rpc.cmd = cmd

theorem Arrived.step {cmds : NodeId → List Command} {i : KvClusterInput} {s' : KvCluster}
    {es : List KvClusterEvent} (h : Arrived cmds s)
    (hlen : ∀ n, (s.nodes n).calls.length = (cmds n).length)
    (hm : KvCluster.Move order m s i s' es) :
    Arrived (fun n => cmds n ++ s.arrives n i) s' := by
  -- all steps but the arrival of a request bring nothing
  have hsame : (∀ n, s.arrives n i = []) → s'.rpcs = s.rpcs →
      Arrived (fun n => cmds n ++ s.arrives n i) s' := by
    intro hno hrpcs
    simp only [hno, List.append_nil]
    exact ⟨hrpcs ▸ h.calls, hrpcs ▸ h.requests⟩
  cases hm with
  | raft =>
    refine hsame (fun n => ?_) rfl
    simp only [KvCluster.arrives, KvCluster.nodeInput]
    split <;> rfl
  | @server n' now action node es hn hr hc =>
    refine hsame (fun n => ?_) rfl
    simp only [KvCluster.arrives, KvCluster.nodeInput]
    split
    · cases action with
      | call cmd => exact absurd rfl (hc cmd)
      | _ => rfl
    · rfl
  | invoke | succeeded | retried | gaveUp => exact hsame (fun _ => rfl) rfl
  | send =>
    simp only [KvCluster.arrives, KvCluster.nodeInput, Option.toList_none, List.flatMap_nil,
      List.append_nil]
    constructor
    · intro rpc hrpc k hk
      rcases List.mem_append.mp hrpc with hrpc | hrpc
      · exact h.calls rpc hrpc k hk
      · rw [List.mem_singleton.mp hrpc] at hk
        cases hk
    · intro n cmd hcmd
      obtain ⟨rpc, hrpc, he⟩ := h.requests n cmd hcmd
      exact ⟨rpc, List.mem_append_left _ hrpc, he⟩
  | @deliver r now rpc hr hc hn =>
    have hself : s.arrives rpc.node (.deliver r now) = [rpc.cmd] := by
      simp [KvCluster.arrives, KvCluster.nodeInput, hr, KvInput.issues]
    obtain ⟨hlt, hget⟩ := List.getElem?_eq_some_iff.mp hr
    constructor
    · intro rpc' hrpc' k hk
      rcases List.mem_or_eq_of_mem_set hrpc' with hrpc' | rfl
      · have hold := h.calls rpc' hrpc' k hk
        rw [List.getElem?_append_left (List.getElem?_eq_some_iff.mp hold).1]
        exact hold
      · obtain rfl := Option.some.inj hk
        show (cmds rpc.node ++ s.arrives rpc.node _)[_]? = some rpc.cmd
        rw [hself, hlen, List.getElem?_concat_length]
    · intro n cmd hcmd
      rcases List.mem_append.mp hcmd with hcmd | hcmd
      · obtain ⟨rpc', hrpc', rfl⟩ := h.requests n cmd hcmd
        obtain ⟨j, hj, rfl⟩ := List.getElem_of_mem hrpc'
        by_cases hjr : j = r
        · subst hjr
          refine ⟨_, List.mem_set hlt _, ?_⟩
          rw [hget]
        · exact ⟨_, List.mem_iff_getElem.mpr
            ⟨j, by simpa using hj, List.getElem_set_ne (Ne.symm hjr) _⟩, rfl⟩
      · refine ⟨_, List.mem_set hlt _, ?_⟩
        simp only [KvCluster.arrives, KvCluster.nodeInput, hr] at hcmd
        split at hcmd
        · simpa [KvInput.issues, eq_comm] using hcmd
        · simp at hcmd

theorem arrived_of_run (h : (kvClusterSystem order m ids).Run ts s) :
    Arrived (fun n => arrived n ts) s := by
  induction h with
  | init hi =>
    obtain ⟨timeouts, stubs, hstubs, rfl⟩ := hi
    exact ⟨by simp [KvCluster.init], by simp [arrived, View.run, issued]⟩
  | step hr hs ih =>
    simp only [arrived_concat]
    refine ih.step (fun n => ?_) (KvCluster.move_of_step hs)
    exact (answers_of_run ((KvCluster.nodeView_sound order m ids n).run hr)).length

end Rafty
