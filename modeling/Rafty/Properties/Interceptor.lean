import Rafty.Interceptor
import Rafty.Properties.Cluster

/-!
# What the interceptors do

* `InterceptedCluster.Move` — a step is one of the cluster on a request that was let through, the
  decision on one request, or a command of the controller at one process.
* `plainView_sound` — what the interceptors leave of a run is a run of the cluster.
* `interceptor_of_run`, `Ranks` — the sets of a process follow the commands of the controller:
  `rank2` has the servers of the world whose last command was a disconnect, `rank1` the others.
-/

namespace Rafty

open Infra

/-! ## One interceptor -/

/-- `Disconnect` and `Reconnect` consist of these. -/
def NetControl.isConn : NetControl → Bool
  | .disconnect _ | .reconnect _ => true
  | .setupRank _ | .setType _ => false

/-- Which servers are disconnected after the command. -/
def NetControl.downAfter (down : NodeId → Bool) : NetControl → NodeId → Bool
  | .disconnect id => Function.update down id true
  | .reconnect id => Function.update down id false
  | .setupRank _ | .setType _ => down

/-- Which servers are disconnected after the commands, beginning with none. -/
def isDown (commands : List NetControl) : NodeId → Bool :=
  commands.foldl NetControl.downAfter fun _ => false

namespace NetInterceptor

/-- The ranks of the servers in `world` when those in `down` are disconnected. -/
structure Ranks (world : List NodeId) (down : NodeId → Bool) (s : NetInterceptor) : Prop where
  rank1 : ∀ id, id ∈ s.rank1 ↔ id ∈ world ∧ down id = false
  rank2 : ∀ id, id ∈ s.rank2 ↔ id ∈ world ∧ down id = true

variable {world : List NodeId} {down : NodeId → Bool} {s : NetInterceptor}

theorem Ranks.congr (h : Ranks world down s) {down' : NodeId → Bool}
    (hd : ∀ k ∈ world, down' k = down k) : Ranks world down' s where
  rank1 k := (h.rank1 k).trans (and_congr_right fun hk => by rw [hd k hk])
  rank2 k := (h.rank2 k).trans (and_congr_right fun hk => by rw [hd k hk])

section OneServer

variable {rank : Finset NodeId} {b : Bool} {id : NodeId}

/-- The rank that a server leaves. -/
theorem mem_erase_iff_down (h : ∀ k, k ∈ rank ↔ k ∈ world ∧ down k = b) (k : NodeId) :
    k ∈ rank.erase id ↔ k ∈ world ∧ Function.update down id (!b) k = b := by
  rw [Finset.mem_erase, h k]
  by_cases hk : k = id
  · subst hk
    simp
  · simp [hk]

/-- The rank that a server of the world comes to. -/
theorem mem_insert_iff_down (h : ∀ k, k ∈ rank ↔ k ∈ world ∧ down k = b) (hid : id ∈ world)
    (k : NodeId) : k ∈ insert id rank ↔ k ∈ world ∧ Function.update down id b k = b := by
  rw [Finset.mem_insert, h k]
  by_cases hk : k = id
  · subst hk
    simp [hid]
  · simp [hk]

/-- A server that is not in the rank it should leave is outside the world or has left it before. -/
theorem update_eq_of_not_mem (h : ∀ k, k ∈ rank ↔ k ∈ world ∧ down k = b) (hid : id ∉ rank) :
    ∀ k ∈ world, Function.update down id (!b) k = down k := by
  intro k hk
  by_cases hkid : k = id
  · subst hkid
    have hne : down k ≠ b := fun hb => hid ((h k).mpr ⟨hk, hb⟩)
    rw [Function.update_self, Bool.eq_not.mpr hne]
  · rw [Function.update_of_ne hkid]

end OneServer

theorem Ranks.disconnect (h : Ranks world down s) (id : NodeId) :
    Ranks world (Function.update down id true) (s.disconnect id) := by
  unfold NetInterceptor.disconnect
  split
  · next hid =>
    exact ⟨mem_erase_iff_down h.rank1, mem_insert_iff_down h.rank2 ((h.rank1 id).mp hid).1⟩
  · next hid => exact h.congr (update_eq_of_not_mem h.rank1 hid)

theorem Ranks.reconnect (h : Ranks world down s) (id : NodeId) :
    Ranks world (Function.update down id false) (s.reconnect id) := by
  unfold NetInterceptor.reconnect
  split
  · next hid =>
    exact ⟨mem_insert_iff_down h.rank1 ((h.rank2 id).mp hid).1, mem_erase_iff_down h.rank2⟩
  · next hid => exact h.congr (update_eq_of_not_mem h.rank2 hid)

/-- The ranks follow the commands, whose order matters for one server only. -/
theorem Ranks.commands : ∀ {commands : List NetControl} {s : NetInterceptor}
    {down : NodeId → Bool}, Ranks world down s → (∀ c ∈ commands, c.isConn = true) →
    Ranks world (commands.foldl NetControl.downAfter down) (commands.foldl control s) ∧
      (commands.foldl control s).type = s.type
  | [], s, down, h, _ => ⟨h, rfl⟩
  | c :: commands, s, down, h, hall => by
    rw [List.forall_mem_cons] at hall
    cases c with
    | disconnect id =>
      obtain ⟨hr, ht⟩ := (h.disconnect id).commands hall.2
      refine ⟨hr, ht.trans ?_⟩
      show (s.disconnect id).type = s.type
      unfold NetInterceptor.disconnect
      split <;> rfl
    | reconnect id =>
      obtain ⟨hr, ht⟩ := (h.reconnect id).commands hall.2
      refine ⟨hr, ht.trans ?_⟩
      show (s.reconnect id).type = s.type
      unfold NetInterceptor.reconnect
      split <;> rfl
    | setupRank | setType => cases hall.1

/-- After `Prepare`, whatever was before, everything is connected; then the commands count. -/
theorem ranks_of_prepare (s : NetInterceptor) (world : List NodeId) (failType : Nat)
    {commands : List NetControl} (hall : ∀ c ∈ commands, c.isConn = true) :
    Ranks world (isDown commands)
        ((RaftWrapper.prepare world failType ++ commands).foldl control s) ∧
      ((RaftWrapper.prepare world failType ++ commands).foldl control s).type =
        if failType = 1 then .networkPartition else .networkFailure := by
  rw [List.foldl_append]
  have hprepared : Ranks world (fun _ => false)
      ((RaftWrapper.prepare world failType).foldl control s) := by
    constructor <;> simp [RaftWrapper.prepare, control, setupRank, setType]
  obtain ⟨hr, ht⟩ := hprepared.commands hall
  exact ⟨hr, ht⟩

/-- A network failure hits the calls of and to a server, a partition those from side to side. -/
theorem Ranks.hijacks_eq (h : Ranks world down s) {caller callee : NodeId}
    (hcaller : caller ∈ world) (hcallee : callee ∈ world) :
    s.hijacks caller callee = match s.type with
      | .networkFailure => down caller || down callee
      | .networkPartition => down caller != down callee := by
  unfold hijacks
  cases s.type <;> simp only [h.rank1, h.rank2, hcaller, hcallee, true_and] <;>
    cases down caller <;> cases down callee <;> rfl

end NetInterceptor

/-! ## Steps and runs -/

namespace InterceptedCluster

/-- **Inversion of a step under interceptors.** -/
inductive Move (m : Membership) (s : InterceptedCluster) :
    InterceptedInput → InterceptedCluster → List Event → Prop
  | node {i : ClusterInput} {c : Cluster} {es : List Event}
      (hsent : ∀ request ∈ i.action.handled, request ∈ s.sent)
      (h : (clusterSystem m).step s.cluster i = some (c, es)) :
      Move m s (.node i) { s with cluster := c } es
  | letThrough {request : Packet} {caller callee : NodeId}
      (hroute : request.route = some (caller, callee)) (hnet : request ∈ s.cluster.net)
      (hno : (s.interceptors caller).hijacks caller callee = false) :
      Move m s (.send request) { s with sent := request :: s.sent } []
  | hijacked {request : Packet} : Move m s (.send request) { s with lost := request :: s.lost } []
  | control {n : NodeId} {control : NetControl} :
      Move m s (.control n control) (s.command n control) []

variable {m : Membership} {s s' : InterceptedCluster} {i : InterceptedInput} {es : List Event}
  {ts : List (Transition InterceptedCluster InterceptedInput Event)}

theorem move_of_step (h : (interceptedSystem m).step s i = some (s', es)) : Move m s i s' es := by
  have h' : InterceptedCluster.step m s i = some (s', es) := h
  cases i with
  | node i =>
    simp only [InterceptedCluster.step] at h'
    split at h'
    · next hsent =>
      obtain ⟨⟨c, evs⟩, hc, he⟩ := Option.map_eq_some_iff.mp h'
      rw [Prod.mk.injEq] at he
      obtain ⟨rfl, rfl⟩ := he
      exact .node hsent hc
    · cases h'
  | send request =>
    simp only [InterceptedCluster.step] at h'
    split at h'
    · next caller callee hroute =>
      split at h'
      · next hguard =>
        rw [Option.some.injEq, Prod.mk.injEq] at h'
        obtain ⟨rfl, rfl⟩ := h'
        unfold intercept
        split
        · exact .hijacked
        · next hno => exact .letThrough hroute hguard.1 (by simpa using hno)
      · cases h'
    · cases h'
  | control n control =>
    simp only [InterceptedCluster.step, Option.some.injEq, Prod.mk.injEq] at h'
    obtain ⟨rfl, rfl⟩ := h'
    exact .control

/-- **What the interceptors leave of a run is a run of the cluster.** -/
theorem plainView_sound (m : Membership) :
    plainView.Sound (interceptedSystem m) (clusterSystem m) where
  init s hi := by
    obtain ⟨timeouts, rfl⟩ := hi
    exact ⟨timeouts, rfl⟩
  hidden hs hi := by
    cases move_of_step hs with
    | node => cases hi
    | letThrough | hijacked | control => exact ⟨rfl, rfl⟩
  seen hs hj := by
    cases move_of_step hs with
    | node _ h =>
      obtain rfl := Option.some.inj hj
      simpa [plainView] using h
    | letThrough | hijacked | control => cases hj

/-- The commands of the controller at process `n`. -/
def controlsAt (n : NodeId) (ts : List (Transition InterceptedCluster InterceptedInput Event)) :
    List NetControl :=
  ts.filterMap fun t => match t.input with
    | .control k control => if k = n then some control else none
    | .node _ | .send _ => none

/-- A process knows the commands it was given, and nothing else. -/
theorem interceptor_of_run (h : (interceptedSystem m).Run ts s) (n : NodeId) :
    s.interceptors n = (controlsAt n ts).foldl NetInterceptor.control .init := by
  induction h with
  | init hi =>
    obtain ⟨timeouts, rfl⟩ := hi
    rfl
  | @step ts s s' i es _ hs ih =>
    rw [controlsAt, List.filterMap_append, List.foldl_append]
    rw [controlsAt] at ih
    cases move_of_step hs with
    | node | letThrough | hijacked => exact ih
    | @control k control =>
      by_cases hk : k = n
      · subst hk
        simp [command, ih]
      · simp [command, hk, Ne.symm hk, ih]

theorem controlsAt_append
    (ts us : List (Transition InterceptedCluster InterceptedInput Event)) (n : NodeId) :
    controlsAt n (ts ++ us) = controlsAt n ts ++ controlsAt n us := List.filterMap_append

theorem separates_iff {side : List NodeId} : s.separates m side = true ↔
    ∀ caller ∈ m.ids, ∀ callee ∈ m.ids, ¬(caller ∈ side ↔ callee ∈ side) →
      (s.interceptors caller).hijacks caller callee = true := by
  simp only [separates, List.all_eq_true, Bool.or_eq_true, decide_eq_true_eq]
  grind

section Controller

variable {us : List (Transition InterceptedCluster InterceptedInput Event)}
  {s₀ : InterceptedCluster} {failType : Nat} {commands : List NetControl}

/--
**The interceptors do what the controller asked for.** Let every member have been prepared with the
same world and the same kind of failure, and let it have got the same commands since then; what was
before does not matter. Until the next command, a network failure hits exactly the calls of and to
disconnected members, and a partition exactly those between a disconnected and a connected member.
So in both cases the disconnected members are separated from the others.
-/
theorem controller_partitions (h₀ : (interceptedSystem m).Run ts s₀)
    (h : ((interceptedSystem m).startingAt s₀).Run us s)
    (hcommands : ∀ n ∈ m.ids, ∃ earlier,
      controlsAt n ts = earlier ++ (RaftWrapper.prepare m.ids failType ++ commands))
    (hall : ∀ c ∈ commands, c.isConn = true) (hquiet : ∀ n ∈ m.ids, controlsAt n us = []) :
    (∀ caller ∈ m.ids, ∀ callee ∈ m.ids, (s.interceptors caller).hijacks caller callee =
      if failType = 1 then isDown commands caller != isDown commands callee
      else isDown commands caller || isDown commands callee) ∧
    s.separates m (m.ids.filter (isDown commands)) = true := by
  have hhijacks : ∀ caller ∈ m.ids, ∀ callee ∈ m.ids,
      (s.interceptors caller).hijacks caller callee =
        if failType = 1 then isDown commands caller != isDown commands callee
        else isDown commands caller || isDown commands callee := by
    intro caller hcaller callee hcallee
    obtain ⟨earlier, he⟩ := hcommands caller hcaller
    rw [interceptor_of_run (h₀.append h), controlsAt_append, hquiet caller hcaller,
      List.append_nil, he, List.foldl_append]
    obtain ⟨hranks, htype⟩ := NetInterceptor.ranks_of_prepare
      (earlier.foldl NetInterceptor.control .init) m.ids failType hall
    rw [hranks.hijacks_eq hcaller hcallee, htype]
    by_cases hf : failType = 1 <;> simp [hf]
  refine ⟨hhijacks, separates_iff.mpr ?_⟩
  intro caller hcaller callee hcallee hcross
  rw [hhijacks caller hcaller callee hcallee]
  simp only [List.mem_filter, hcaller, hcallee, true_and] at hcross
  cases hdown : isDown commands caller <;> cases hdown' : isDown commands callee <;>
    simp_all

end Controller

/-- The controller calls all three nodes. -/
def everywhere (controls : List NetControl) : List InterceptedInput :=
  threeNodes.ids.flatMap fun n => controls.map (.control n)

/-- Two of three nodes are disconnected and one of them is connected again. -/
def oneLeftOut : List InterceptedInput :=
  everywhere (RaftWrapper.prepare [0, 1, 2] 1) ++ everywhere (RaftWrapper.disconnect [0, 2]) ++
    everywhere (RaftWrapper.reconnect [2])

theorem controller_partitions_oneLeftOut : ∃ ts s, (interceptedSystem threeNodes).Run ts s ∧
    ts.map Transition.input = oneLeftOut ∧ (s.interceptors 0).hijacks 0 2 = true ∧
    (s.interceptors 1).hijacks 1 2 = false ∧ s.separates threeNodes [0] = true := by
  obtain ⟨ts, s, hr, hi, hcommands⟩ := exists_interceptedRun oneLeftOut
    (fun ts _ => ∀ n ∈ threeNodes.ids, controlsAt n ts = RaftWrapper.prepare [0, 1, 2] 1 ++
      (RaftWrapper.disconnect [0, 2] ++ RaftWrapper.reconnect [2])) (by decide +kernel)
  obtain ⟨hhijacks, hsep⟩ := controller_partitions hr (.init rfl)
    (fun n hn => ⟨[], hcommands n hn⟩) (by decide) (fun _ _ => rfl)
  exact ⟨ts, s, hr, hi, hhijacks 0 (by decide) 2 (by decide), hhijacks 1 (by decide) 2 (by decide),
    hsep⟩

end InterceptedCluster

end Rafty
