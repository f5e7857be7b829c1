import Rafty.Infra.Machine

/-!
# Linearizable histories

A sequential object is a machine that answers one operation after the other. Clients of a concurrent
implementation see operations begin and end. What they see is *linearizable* if the operations can
be put into one sequence that

* the object itself could have answered that way (`legal`),
* holds every operation that has returned, with the value it returned, and nothing but operations
  that were invoked, each once,
* keeps the order of operations of which one returned before the other was invoked.

An operation that has not returned, or has returned without a value, may or may not be in it.
-/

namespace Infra

variable {σ ω ν : Type*}

/-- Each value of the history is the object's answer at that place. -/
def Legal (object : σ → ω → σ × ν) (s : σ) (history : List (ω × ν)) : Prop :=
  (feed object s (history.map Prod.fst)).2 = history.map Prod.snd

theorem Legal.concat {object : σ → ω → σ × ν} {s : σ} {history : List (ω × ν)}
    (h : Legal object s history) (op : ω) :
    Legal object s
      (history ++ [(op, (object (feed object s (history.map Prod.fst)).1 op).2)]) := by
  unfold Legal at *
  rw [List.map_append, List.map_singleton, feed_concat_snd, h, List.map_append, List.map_singleton]

/-- A legal history is determined by its operations. -/
theorem Legal.zip_eq {object : σ → ω → σ × ν} {s : σ} {history : List (ω × ν)}
    (h : Legal object s history) :
    (history.map Prod.fst).zip (feed object s (history.map Prod.fst)).2 = history := by
  rw [show (feed object s (history.map Prod.fst)).2 = history.map Prod.snd from h]
  exact (List.zip_of_prod rfl rfl).symm

/-- Every value is an answer of the object in some state. -/
theorem Legal.exists_of_mem {object : σ → ω → σ × ν} : ∀ {history : List (ω × ν)} {s : σ},
    Legal object s history → ∀ x ∈ history, ∃ s', x.2 = (object s' x.1).2
  | [], _, _, x, hx => by cases hx
  | y :: history, s, h, x, hx => by
    unfold Legal at h
    rw [List.map_cons, feed, List.map_cons, List.cons.injEq] at h
    rcases List.mem_cons.mp hx with rfl | hx
    · exact ⟨s, h.1.symm⟩
    · exact Legal.exists_of_mem (s := (object s y.1).1) h.2 x hx

/-- What clients see of an operation. -/
inductive ClientEvent (ω ν : Type*) where
  | invoked (op : ω)
  | returned (op : ω) (value : ν)
deriving DecidableEq

/-- `history` explains what the clients saw. -/
structure Linearizes (object : σ → ω → σ × ν) (s : σ) (es : List (ClientEvent ω ν))
    (history : List (ω × ν)) : Prop where
  legal : Legal object s history
  nodup : (history.map Prod.fst).Nodup
  invoked : ∀ x ∈ history, .invoked x.1 ∈ es
  returned : ∀ op value, .returned op value ∈ es → (op, value) ∈ history
  realTime : ∀ pre post, es = pre ++ post → ∀ a value b, .returned a value ∈ pre →
    .invoked b ∈ post → ∀ i j : Nat, (history.map Prod.fst)[i]? = some a →
    (history.map Prod.fst)[j]? = some b → i < j

def Linearizable (object : σ → ω → σ × ν) (s : σ) (es : List (ClientEvent ω ν)) : Prop :=
  ∃ history, Linearizes object s es history

/-- The place of an operation in an initial part of a history bounds the places before it. -/
theorem exists_mem_of_le {history initial : List (ω × ν)} (hp : initial <+: history)
    (hnodup : (history.map Prod.fst).Nodup) {x : ω × ν} (hx : x ∈ initial) {b : ω} {i j : Nat}
    (hi : (history.map Prod.fst)[i]? = some x.1) (hj : (history.map Prod.fst)[j]? = some b)
    (hle : j ≤ i) : ∃ y ∈ initial, y.1 = b := by
  obtain ⟨k, hk, rfl⟩ := List.getElem_of_mem hx
  obtain ⟨rest, rfl⟩ := hp
  have hk' : ((initial ++ rest).map Prod.fst)[k]? = some initial[k].1 := by
    simp [List.getElem?_append_left, hk]
  -- an operation has one place only
  have hki : k = i := (List.getElem?_inj (by simp; omega) hnodup).mp (hk'.trans hi.symm)
  have hjlt : j < initial.length := by omega
  refine ⟨initial[j], List.getElem_mem hjlt, ?_⟩
  simpa [List.getElem?_append_left, hjlt] using hj

/--
**The rule of the growing history.** Let a history explain what was returned, and let, whenever an
operation is invoked, an initial part of it explain what was returned by then and hold nothing but
operations invoked by then. Then it linearizes what the clients saw.
-/
theorem linearizes_of_growing {object : σ → ω → σ × ν} {s : σ} {es : List (ClientEvent ω ν)}
    {history : List (ω × ν)} (legal : Legal object s history)
    (nodup : (history.map Prod.fst).Nodup) (invoked : ∀ x ∈ history, .invoked x.1 ∈ es)
    (returned : ∀ op value, .returned op value ∈ es → (op, value) ∈ history)
    (growing : ∀ pre b post, es = pre ++ .invoked b :: post → .invoked b ∉ pre ∧
      ∃ initial, initial <+: history ∧ (∀ x ∈ initial, .invoked x.1 ∈ pre) ∧
        ∀ op value, .returned op value ∈ pre → (op, value) ∈ initial) :
    Linearizes object s es history where
  legal := legal
  nodup := nodup
  invoked := invoked
  returned := returned
  realTime := by
    rintro pre post rfl a value b ha hb i j hi hj
    obtain ⟨q₁, q₂, rfl⟩ := List.append_of_mem hb
    obtain ⟨hnew, initial, hp, hinv, hret⟩ := growing (pre ++ q₁) b q₂ (by simp)
    have hx := hret a value (List.mem_append_left _ ha)
    by_contra hle
    obtain ⟨y, hy, rfl⟩ := exists_mem_of_le hp nodup hx hi hj (by omega)
    exact hnew (hinv y hy)

end Infra
