import Rafty.Infra.Machine
import Rafty.Properties.Kv

/-!
# Retries are invisible

A client that gets no answer sends its operation again, so the log can hold an operation any number
of times. `rifl_` keeps, for every client, the newest sequence number; it never goes back
(`Replica.Done.applyCommand`), so from the first occurrence on a repetition is a duplicate, which
leaves the replica as it is. That makes repetitions absorbed inputs of `on_apply`.
-/

namespace Rafty

open Infra

/-- The result `r` holds an operation that `r₀` has brought before: same client, same number. -/
def SameOperation (order : ByteOrder) (r₀ r : ApplyResult) : Prop :=
  r₀.valid = true ∧ ∃ cmd₀ cmd, deserialize order r₀.data = some cmd₀ ∧
    deserialize order r.data = some cmd ∧ cmd.clientId = cmd₀.clientId ∧
    cmd.seqNum = cmd₀.seqNum

namespace Replica

/-- The result holds an operation that counts as done. -/
def Absorbed (order : ByteOrder) (s : Replica) (r : ApplyResult) : Prop :=
  ∃ cmd, deserialize order r.data = some cmd ∧ s.Done cmd.clientId cmd.seqNum

variable {order : ByteOrder} {s : Replica} {r : ApplyResult}

theorem onApply_cases (order : ByteOrder) (s : Replica) (r : ApplyResult) :
    (s.onApply order r).1 = s ∨ ∃ cmd, r.valid = true ∧ deserialize order r.data = some cmd ∧
      (s.onApply order r).1 = (s.applyCommand cmd).1 := by
  unfold onApply
  split
  · exact Or.inl rfl
  · next hv =>
    cases hd : deserialize order r.data with
    | none => exact Or.inl rfl
    | some cmd => exact Or.inr ⟨cmd, by simpa using hv, rfl, rfl⟩

theorem Done.onApply {clientId seqNum : Nat} (h : s.Done clientId seqNum) (order : ByteOrder)
    (r : ApplyResult) : (s.onApply order r).1.Done clientId seqNum := by
  rcases onApply_cases order s r with he | ⟨cmd, -, -, he⟩
  · rwa [he]
  · rw [he]
    exact h.applyCommand cmd

/-- Repetitions of an operation are absorbed. -/
theorem absorbs (order : ByteOrder) :
    Absorbs (Replica.onApply order) (Absorbed order) (SameOperation order) where
  stays s r := by
    rintro ⟨cmd, hd, hdone⟩
    rcases onApply_cases order s r with he | ⟨cmd', -, hd', he⟩
    · exact he
    · obtain rfl := Option.some.inj (hd.symm.trans hd')
      rcases s.applyCommand_cases cmd with ⟨-, hsame⟩ | ⟨hnot, -⟩
      · rw [he, hsame]
      · exact absurd hdone hnot
  lasts s r r' := by
    rintro ⟨cmd, hd, hdone⟩
    exact ⟨cmd, hd, hdone.onApply order r'⟩
  repeats s r r₀ := by
    rintro ⟨hv, cmd₀, cmd, hd₀, hd, hclient, hseq⟩
    refine ⟨cmd, hd, ?_⟩
    rw [onApply_of_decoded hv hd₀, hclient, hseq]
    exact s.done_applyCommand cmd₀

end Replica

/--
**Retries are invisible.** `l` is a list of results in which everything unmarked repeats an
operation that a marked result brought before. With or without the unmarked results, `on_apply`
leaves the same `store_` and the same `rifl_`, and computes the same reply to each marked one.
-/
theorem retries_invisible (order : ByteOrder) (s : KvServer) {l : List (ApplyResult × Bool)}
    (hl : RepeatsOnly (SameOperation order) l) :
    let all := feed (KvServer.onApply order) s (l.map Prod.fst)
    let original := feed (KvServer.onApply order) s (keep (l.map Prod.snd) (l.map Prod.fst))
    all.1.store = original.1.store ∧ all.1.rifl = original.1.rifl ∧
      keep (l.map Prod.snd) all.2 = original.2 := by
  intro all original
  have hview : ∀ as, (feed (KvServer.onApply order) s as).1.toReplica =
        (feed (Replica.onApply order) s.toReplica as).1 ∧
      (feed (KvServer.onApply order) s as).2 = (feed (Replica.onApply order) s.toReplica as).2 :=
    feed_view KvServer.toReplica (KvServer.onApply_toReplica order) s
  obtain ⟨hstate, hout⟩ := (Replica.absorbs order).feed_keep hl s.toReplica
  have hreplica : all.1.toReplica = original.1.toReplica := by
    rw [(hview _).1, (hview _).1, hstate]
  refine ⟨congrArg Replica.store hreplica, congrArg Replica.rifl hreplica, ?_⟩
  rw [(hview _).2, (hview _).2, hout]

/-! ## An `Append` sent twice -/

/-- The result that carries `cmd` at `index`. -/
def resultOf (index : Nat) (cmd : Command) : ApplyResult where
  valid := true
  data := (serialize .little cmd).getD []
  index := index

/-- Client 7 appends `a` twice, the second time with another key and value. -/
def appendTwice : List (ApplyResult × Bool) :=
  [(resultOf 1 ⟨.append, 7, 1, [107], [97]⟩, true),
    (resultOf 2 ⟨.append, 7, 1, [108], [98]⟩, false)]

theorem retries_invisible_appendTwice :
    (feed (KvServer.onApply .little) .init (appendTwice.map Prod.fst)).1.store =
        (feed (KvServer.onApply .little) .init [resultOf 1 ⟨.append, 7, 1, [107], [97]⟩]).1.store ∧
      (feed (KvServer.onApply .little) .init (appendTwice.map Prod.fst)).1.read [107] = [97] := by
  refine ⟨(retries_invisible .little .init (l := appendTwice) ?_).1, by decide⟩
  intro pre r post h
  rcases pre with _ | ⟨x, _ | ⟨y, pre⟩⟩
  · simp [appendTwice] at h
  · simp only [appendTwice, List.cons_append, List.nil_append, List.cons.injEq, Prod.mk.injEq,
      and_true] at h
    obtain ⟨rfl, rfl, -⟩ := h
    exact ⟨_, List.mem_singleton_self _, rfl, ⟨.append, 7, 1, [107], [97]⟩,
      ⟨.append, 7, 1, [108], [98]⟩, by decide, by decide, rfl, rfl⟩
  · simp [appendTwice] at h

end Rafty
