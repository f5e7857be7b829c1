import Rafty.Safety.Clients

/-!
# The attempts of a client

A client sends one operation at most `max_attempts_` times, always the same command with the same
number, and goes round its replicas while it does so: `attempts_rotate`. It gives up after exactly
`max_attempts_` attempts. If it knows no more replicas than that, each of them was asked.

This is counted over whole runs of the service, from the requests that were sent. It takes that no
two operations of a client are the same command, and so that clients do not run out of numbers.
Whether two clients have drawn the same id does not matter.
-/

namespace Rafty

open Infra

variable {order : ByteOrder} {m : Membership} {ids : Nat → UInt64} {s s' : KvCluster}
  {i : KvClusterInput} {ts : List (Transition KvCluster KvClusterInput KvClusterEvent)}
  {es evs : List KvClusterEvent}
  {ops : List (Nat × Command)} {k : Nat} {cmd : Command} {start : Nat}

namespace KvCluster

/-- The replicas that an operation of client `k` was sent to, in this order. -/
def targets (s : KvCluster) (k : Nat) (cmd : Command) : List NodeId :=
  (s.rpcs.filter fun rpc => rpc.operation = (k, cmd)).map KvRpc.node

/-- What is known of an operation that began at place `start` of the replicas of its client. -/
structure Tries (s : KvCluster) (es : List KvClusterEvent) (k : Nat) (cmd : Command) (start : Nat) :
    Prop where
  rotates : ∀ (j : Nat) n, (s.targets k cmd)[j]? = some n →
    (s.clients k).stubs[(start + j) % (s.clients k).stubs.length]? = some n
  le : (s.targets k cmd).length ≤ maxAttempts
  gaveUp : .gaveUp k cmd ∈ es → (s.targets k cmd).length = maxAttempts
  attempting : ∀ attempt, (s.clients k).thread = .attempting cmd attempt →
    attempt < maxAttempts ∧ (s.targets k cmd).length = attempt ∧
    (s.clients k).leaderIdx.val =
      (start + attempt) % (s.clients k).stubs.length
  calling : ∀ attempt r, (s.clients k).thread = .calling cmd attempt r →
    attempt < maxAttempts ∧ (s.targets k cmd).length = attempt + 1 ∧
    (s.clients k).leaderIdx.val =
      (start + attempt) % (s.clients k).stubs.length

/-- A step that is none of this operation. -/
theorem Tries.same (h : Tries s es k cmd start) (ht : s'.targets k cmd = s.targets k cmd)
    (hc : s'.clients k = s.clients k) (he : .gaveUp k cmd ∉ evs) :
    Tries s' (es ++ evs) k cmd start := by
  constructor
  case rotates =>
    rw [ht, hc]
    exact h.rotates
  case le =>
    rw [ht]
    exact h.le
  case gaveUp =>
    intro hmem
    rw [ht]
    exact h.gaveUp ((List.mem_append.mp hmem).resolve_right he)
  case attempting =>
    rw [ht, hc]
    exact h.attempting
  case calling =>
    rw [ht, hc]
    exact h.calling

/-- A client does something, and has not this operation under way afterwards. -/
theorem Tries.other (h : Tries s es k cmd start) {j : Nat} {client : KvClient}
    (hstubs : client.stubs = (s.clients j).stubs)
    (hover : k = j → client.thread.command ≠ some cmd)
    (he : .gaveUp k cmd ∈ evs → (s.targets k cmd).length = maxAttempts) :
    Tries (s.setClient j client) (es ++ evs) k cmd start := by
  have hgaveUp : .gaveUp k cmd ∈ es ++ evs → (s.targets k cmd).length = maxAttempts := by
    intro hmem
    rcases List.mem_append.mp hmem with hmem | hmem
    · exact h.gaveUp hmem
    · exact he hmem
  by_cases hk : k = j
  · subst hk
    constructor
    case rotates =>
      rw [setClient_self, hstubs]
      exact h.rotates
    case le => exact h.le
    case gaveUp => exact hgaveUp
    case attempting =>
      intro attempt ht
      rw [setClient_self] at ht
      exact absurd (by rw [ht]; rfl) (hover rfl)
    case calling =>
      intro attempt r ht
      rw [setClient_self] at ht
      exact absurd (by rw [ht]; rfl) (hover rfl)
  · have hc := setClient_ne s client hk
    constructor
    case rotates =>
      rw [hc]
      exact h.rotates
    case le => exact h.le
    case gaveUp => exact hgaveUp
    case attempting =>
      rw [hc]
      exact h.attempting
    case calling =>
      rw [hc]
      exact h.calling

/-- The operation begins. -/
theorem tries_invoke {client : KvClient} (hthread : client.thread = .attempting cmd 0)
    (hnone : s.targets k cmd = [])
    (hno : .gaveUp k cmd ∉ es ++ evs) :
    Tries (s.setClient k client) (es ++ evs) k cmd client.leaderIdx := by
  have hnone' : (s.setClient k client).targets k cmd = [] := hnone
  constructor
  case rotates =>
    intro j n hj
    rw [hnone'] at hj
    cases hj
  case le => simp [hnone', maxAttempts]
  case gaveUp => exact fun hmem => absurd hmem hno
  case attempting =>
    intro attempt ht
    rw [setClient_self, hthread] at ht
    obtain ⟨-, rfl⟩ := ClientThread.attempting.inj ht
    refine ⟨by decide, by rw [hnone']; rfl, ?_⟩
    rw [setClient_self, Nat.add_zero, Nat.mod_eq_of_lt client.leaderIdx.isLt]
  case calling =>
    intro attempt r ht
    rw [setClient_self, hthread] at ht
    cases ht

theorem targets_send (s : KvCluster) (rpc : KvRpc) (k : Nat) (cmd : Command) :
    KvCluster.targets { s with rpcs := s.rpcs ++ [rpc] } k cmd =
      s.targets k cmd ++ if rpc.operation = (k, cmd) then [rpc.node] else [] := by
  unfold targets
  rw [List.filter_append, List.map_append]
  congr 1
  by_cases h : rpc.operation = (k, cmd) <;> simp [h]

/-- The operation is sent once more. -/
theorem Tries.send (h : Tries s es k cmd start) {attempt : Nat}
    (ht : (s.clients k).thread = .attempting cmd attempt) :
    Tries
      { s.setClient k
          { s.clients k with thread := .calling cmd attempt s.rpcs.length } with
        rpcs := s.rpcs ++
          [{ client := k, node := (s.clients k).target, cmd := cmd, call := none }] }
      (es ++ []) k cmd start := by
  obtain ⟨hlt, hlen, hidx⟩ := h.attempting attempt ht
  have htargets := targets_send s
    { client := k, node := (s.clients k).target, cmd := cmd, call := none } k cmd
  rw [KvRpc.operation, if_pos rfl] at htargets
  have hself := setClient_self s k
    { s.clients k with thread := .calling cmd attempt s.rpcs.length }
  have htargets' : KvCluster.targets
      { s.setClient k
          { s.clients k with thread := .calling cmd attempt s.rpcs.length } with
        rpcs := s.rpcs ++
          [{ client := k, node := (s.clients k).target, cmd := cmd, call := none }] } k cmd =
      s.targets k cmd ++ [(s.clients k).target] := htargets
  constructor
  case rotates =>
    intro j n hj
    rw [htargets', List.getElem?_append] at hj
    show ((s.setClient k _).clients k).stubs[_]? = some n
    rw [hself]
    split at hj
    · exact h.rotates j n hj
    · next hge =>
      -- the new request goes to the replica at `leader_idx_`
      have hj' := (List.getElem?_eq_some_iff.mp hj).1
      rw [List.length_singleton] at hj'
      have hja : j = attempt := by omega
      obtain rfl := List.mem_singleton.mp (List.mem_of_getElem? hj)
      rw [hja, ← hidx]
      exact List.getElem?_eq_getElem (s.clients k).leaderIdx.isLt
  case le =>
    rw [htargets', List.length_append, hlen, List.length_singleton]
    omega
  case gaveUp =>
    intro hmem
    rw [List.append_nil] at hmem
    have hfull := h.gaveUp hmem
    omega
  case attempting =>
    intro attempt' ht'
    rw [show ((s.setClient k _).clients k).thread = _ from
      congrArg KvClient.thread hself] at ht'
    cases ht'
  case calling =>
    intro attempt' r ht'
    rw [show ((s.setClient k _).clients k).thread = _ from
      congrArg KvClient.thread hself] at ht'
    obtain ⟨-, rfl, -⟩ := ClientThread.calling.inj ht'
    refine ⟨hlt, ?_, ?_⟩
    · rw [htargets', List.length_append, hlen, List.length_singleton]
    · show ((s.setClient k _).clients k).leaderIdx.val = _ %
        ((s.setClient k _).clients k).stubs.length
      rw [hself]
      exact hidx

/-- An attempt has failed, and there is another one. -/
theorem Tries.retry (h : Tries s es k cmd start) {attempt r : Nat}
    (ht : (s.clients k).thread = .calling cmd attempt r)
    (ha : attempt + 1 < maxAttempts) :
    Tries
      (s.setClient k
        { (s.clients k).rotateLeader with thread := .attempting cmd (attempt + 1) })
      (es ++ []) k cmd start := by
  obtain ⟨-, hlen, hidx⟩ := h.calling attempt r ht
  constructor
  case rotates =>
    rw [setClient_self]
    exact h.rotates
  case le => exact h.le
  case gaveUp =>
    rw [List.append_nil]
    exact h.gaveUp
  case attempting =>
    intro attempt' ht'
    rw [setClient_self] at ht' ⊢
    obtain ⟨-, rfl⟩ := ClientThread.attempting.inj ht'
    refine ⟨ha, hlen, ?_⟩
    show ((s.clients k).leaderIdx.val + 1) % (s.clients k).stubs.length = _
    rw [hidx, Nat.mod_add_mod]
    rfl
  case calling =>
    intro attempt' r' ht'
    rw [setClient_self] at ht'
    cases ht'

/-- The request of an RPC arrives. -/
theorem targets_deliver {r : Nat} {rpc : KvRpc} (hr : s.rpcs[r]? = some rpc) (call : Option Nat)
    (nodes : NodeId → KvNode) (k : Nat) (cmd : Command) :
    KvCluster.targets
      { s with nodes := nodes, rpcs := s.rpcs.set r { rpc with call := call } } k cmd =
      s.targets k cmd := by
  obtain ⟨hlt, hget⟩ := List.getElem?_eq_some_iff.mp hr
  have hsplit : s.rpcs = s.rpcs.take r ++ rpc :: s.rpcs.drop (r + 1) := by
    rw [← hget, ← List.drop_eq_getElem_cons hlt, List.take_append_drop]
  unfold targets
  dsimp only
  rw [List.set_eq_take_append_cons_drop, if_pos hlt]
  nth_rewrite 3 [hsplit]
  simp only [List.filter_append, List.filter_cons, List.map_append]
  congr 1
  by_cases hop : rpc.operation = (k, cmd)
  · have hop' : KvRpc.operation { rpc with call := call } = (k, cmd) := hop
    simp [hop, hop']
  · have hop' : KvRpc.operation { rpc with call := call } ≠ (k, cmd) := hop
    simp [hop, hop']

/-- **The step lemma.** -/
theorem Move.tries (hm : Move order m s i s' evs) (hclients : ClientInv ids ops s)
    (hgave : ∀ k cmd, .gaveUp k cmd ∈ es → (k, cmd) ∈ ops)
    (hnodup : (ops ++ invocations evs).Nodup)
    (h : ∀ op ∈ ops, ∃ start, Tries s es op.1 op.2 start) :
    ∀ op ∈ ops ++ invocations evs, ∃ start, Tries s' (es ++ evs) op.1 op.2 start := by
  rintro ⟨k, cmd⟩ hmem
  cases hm with
  | raft =>
    rw [invocations_raft, List.append_nil] at hmem
    obtain ⟨start, htries⟩ := h (k, cmd) hmem
    exact ⟨start, htries.same rfl rfl (by simp)⟩
  | server =>
    rw [invocations_append, invocations_raft, invocations_kv, List.append_nil, List.append_nil]
      at hmem
    obtain ⟨start, htries⟩ := h (k, cmd) hmem
    exact ⟨start, htries.same rfl rfl (by simp)⟩
  | @invoke j op key value new ht hlen hcmd =>
    have hnew : (j, new) ∉ ops := by
      intro hold
      exact List.disjoint_of_nodup_append hnodup hold (List.mem_singleton_self (j, new))
    rcases List.mem_append.mp hmem with hold | hmem
    · obtain ⟨start, htries⟩ := h (k, cmd) hold
      refine ⟨start, htries.other rfl ?_ (by simp)⟩
      rintro rfl he
      obtain rfl := Option.some.inj he
      exact hnew hold
    · obtain ⟨rfl, rfl⟩ := Prod.mk.inj (List.mem_singleton.mp hmem)
      refine ⟨_, tries_invoke rfl ?_ ?_⟩
      · unfold targets
        rw [List.map_eq_nil_iff, List.filter_eq_nil_iff]
        intro rpc hrpc he
        exact hnew (of_decide_eq_true he ▸ hclients.requests rpc hrpc)
      · intro hgone
        rcases List.mem_append.mp hgone with hgone | hgone
        · exact hnew (hgave k cmd hgone)
        · simp at hgone
  | @send j attempt cmd' ht =>
    rw [show invocations [] = [] from rfl, List.append_nil] at hmem
    obtain ⟨start, htries⟩ := h (k, cmd) hmem
    refine ⟨start, ?_⟩
    by_cases hc : (j, cmd') = (k, cmd)
    · obtain ⟨rfl, rfl⟩ := Prod.mk.inj hc
      exact htries.send ht
    · have hother : Tries (s.setClient j
          { s.clients j with thread := .calling cmd' attempt s.rpcs.length }) (es ++ []) k cmd
          start :=
        htries.other rfl (fun hkj he => hc (Prod.ext hkj.symm (Option.some.inj he))) (by simp)
      rw [List.append_nil] at hother
      refine hother.same ?_ rfl (by simp)
      have hsend := targets_send s
        { client := j, node := (s.clients j).target, cmd := cmd', call := none } k cmd
      rw [KvRpc.operation, if_neg hc, List.append_nil] at hsend
      exact hsend
  | deliver hr =>
    rw [show invocations [] = [] from rfl, List.append_nil] at hmem
    obtain ⟨start, htries⟩ := h (k, cmd) hmem
    exact ⟨start, htries.same (targets_deliver hr _ _ k cmd) rfl (by simp)⟩
  | succeeded ht =>
    rw [show invocations [_] = [] from rfl, List.append_nil] at hmem
    obtain ⟨start, htries⟩ := h (k, cmd) hmem
    exact ⟨start, htries.other rfl (fun _ he => by cases he) (by simp)⟩
  | @retried j attempt r cmd' failed ht ha =>
    rw [show invocations [] = [] from rfl, List.append_nil] at hmem
    obtain ⟨start, htries⟩ := h (k, cmd) hmem
    refine ⟨start, ?_⟩
    by_cases hc : (j, cmd') = (k, cmd)
    · obtain ⟨rfl, rfl⟩ := Prod.mk.inj hc
      exact htries.retry ht ha
    · exact htries.other rfl (fun hkj he => hc (Prod.ext hkj.symm (Option.some.inj he))) (by simp)
  | @gaveUp j attempt r cmd' failed ht ha =>
    rw [show invocations [_] = [] from rfl, List.append_nil] at hmem
    obtain ⟨start, htries⟩ := h (k, cmd) hmem
    refine ⟨start, htries.other rfl (fun _ he => by cases he) ?_⟩
    intro hgone
    obtain ⟨rfl, rfl⟩ := KvClusterEvent.gaveUp.inj (List.mem_singleton.mp hgone)
    obtain ⟨hlt, hlen, -⟩ := htries.calling attempt r ht
    omega

end KvCluster

/-- A client gives up what it has started. -/
theorem invoked_of_gaveUp (h : (kvClusterSystem order m ids).Run ts s) :
    ∀ k cmd, .gaveUp k cmd ∈ events ts → (k, cmd) ∈ invocations (events ts) := by
  induction h with
  | init => simp
  | step hr hs ih =>
    intro k cmd hmem
    rw [events_append, events_singleton, invocations_append] at *
    rcases List.mem_append.mp hmem with hmem | hmem
    · exact List.mem_append_left _ (ih k cmd hmem)
    · refine List.mem_append_left _ ?_
      cases KvCluster.move_of_step hs with
      | gaveUp ht =>
        obtain ⟨rfl, rfl⟩ := KvClusterEvent.gaveUp.inj (List.mem_singleton.mp hmem)
        exact ((clientInv_of_run hr).underWay k cmd (by rw [ht]; rfl)).1
      | raft => simp at hmem
      | server => simp at hmem
      | _ => simp at hmem

theorem tries_of_run (h : (kvClusterSystem order m ids).Run ts s)
    (hleft : ∀ t ∈ ts, t.before.numbersLeft t.input = true) :
    ∀ op ∈ invocations (events ts), ∃ start, s.Tries (events ts) op.1 op.2 start := by
  induction h with
  | init => simp [invocations]
  | step hr hs ih =>
    have hnodup := (numbered_of_run (System.Run.step hr hs) hleft).nodup
    rw [List.forall_mem_append] at hleft
    rw [events_append, events_singleton, invocations_append] at *
    exact (KvCluster.move_of_step hs).tries (clientInv_of_run hr) (invoked_of_gaveUp hr) hnodup
      (ih hleft.1)

/-- Going round from any place one comes to every place. -/
theorem exists_rotation (start : Nat) {p n : Nat} (hp : p < n) : ∃ j < n, (start + j) % n = p := by
  have hn : 0 < n := by omega
  refine ⟨(p + (n - start % n)) % n, Nat.mod_lt _ hn, ?_⟩
  have hle : start % n ≤ n := (Nat.mod_lt start hn).le
  rw [Nat.add_mod_mod, ← Nat.mod_add_mod, show start % n + (p + (n - start % n)) = p + n by omega,
    Nat.add_mod_right, Nat.mod_eq_of_lt hp]

/--
**A client goes round its replicas.** Let no client run out of numbers. The requests sent for one
operation are at most `max_attempts_`; they went, one after the other, to the replicas of the client
from some place on, in their order and round and round. If the operation was given up, there are
exactly `max_attempts_` of them, and each replica of the client is among their targets, unless the
client has more replicas than attempts.
-/
theorem attempts_rotate (h : (kvClusterSystem order m ids).Run ts s)
    (hleft : ∀ t ∈ ts, t.before.numbersLeft t.input = true) {k : Nat} {cmd : Command}
    (hinv : .invoked k cmd ∈ events ts) :
    (∃ start, ∀ (j : Nat) n, (s.targets k cmd)[j]? = some n →
      (s.clients k).stubs[(start + j) % (s.clients k).stubs.length]? =
        some n) ∧
    (s.targets k cmd).length ≤ maxAttempts ∧
    (.gaveUp k cmd ∈ events ts → (s.targets k cmd).length = maxAttempts ∧
      ((s.clients k).stubs.length ≤ maxAttempts →
        ∀ n ∈ (s.clients k).stubs, n ∈ s.targets k cmd)) := by
  obtain ⟨start, htries⟩ := tries_of_run h hleft (k, cmd) (mem_invocations.mpr hinv)
  refine ⟨⟨start, htries.rotates⟩, htries.le, ?_⟩
  intro hgone
  have hfull : (s.targets k cmd).length = maxAttempts := htries.gaveUp hgone
  refine ⟨hfull, ?_⟩
  intro hfew n hn
  obtain ⟨p, hp, rfl⟩ := List.getElem_of_mem hn
  obtain ⟨j, hj, hplace⟩ := exists_rotation start hp
  have hlt : j < (s.targets k cmd).length := by omega
  have hrot := htries.rotates j _ (List.getElem?_eq_getElem hlt)
  rw [hplace, List.getElem?_eq_getElem hp, Option.some.injEq] at hrot
  rw [hrot]
  exact List.getElem_mem hlt

/-- No request of client 7 gets a response. -/
def unansweredPut : List KvClusterInput :=
  .invoke 7 .put [107] [97] :: (List.replicate maxAttempts [.send 7, .receive 7 true]).flatten

theorem attempts_rotate_unansweredPut : ∃ ts s,
    (kvClusterSystem .little threeNodes UInt64.ofNat).Run ts s ∧
    ts.map Transition.input = unansweredPut ∧
    .gaveUp 7 ⟨.put, 7, 1, [107], [97]⟩ ∈ events ts ∧
    (s.targets 7 ⟨.put, 7, 1, [107], [97]⟩).length = 50 ∧
    2 ∈ s.targets 7 ⟨.put, 7, 1, [107], [97]⟩ := by
  obtain ⟨ts, s, hr, hi, hleft, hinv, hgone, hstubs⟩ := exists_kvClusterRun UInt64.ofNat
    unansweredPut
    (fun ts s => (∀ t ∈ ts, t.before.numbersLeft t.input = true) ∧
      .invoked 7 ⟨.put, 7, 1, [107], [97]⟩ ∈ events ts ∧
      .gaveUp 7 ⟨.put, 7, 1, [107], [97]⟩ ∈ events ts ∧ (s.clients 7).stubs = [0, 1, 2])
    (by decide +kernel)
  obtain ⟨hfull, hall⟩ := (attempts_rotate hr hleft hinv).2.2 hgone
  refine ⟨ts, s, hr, hi, hgone, hfull, hall ?_ 2 ?_⟩
  · show (s.clients 7).stubs.length ≤ maxAttempts
    rw [hstubs]
    decide
  · show 2 ∈ (s.clients 7).stubs
    rw [hstubs]
    decide

end Rafty
