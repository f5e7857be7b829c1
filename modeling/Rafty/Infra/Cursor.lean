import Mathlib.Data.List.Basic

/-!
# Reading from the front of a list

`readN n p` takes the next `n` elements; `none` is a read past the end. A program that walks over a
buffer with a cursor is a chain of such reads, and stays inside the buffer exactly if none of them
is `none`.
-/

namespace Infra

variable {β : Type*} {n : Nat} {p q x : List β}

/-- The next `n` elements and what is left. -/
def readN (n : Nat) (p : List β) : Option (List β × List β) :=
  if n ≤ p.length then some (p.take n, p.drop n) else none

theorem readN_of_le (h : n ≤ p.length) : readN n p = some (p.take n, p.drop n) := if_pos h

theorem readN_eq_some_iff : readN n p = some (x, q) ↔ p = x ++ q ∧ x.length = n := by
  constructor
  · intro h
    unfold readN at h
    split at h
    · next hle =>
      rw [Option.some.injEq, Prod.mk.injEq] at h
      obtain ⟨rfl, rfl⟩ := h
      exact ⟨(List.take_append_drop n p).symm, List.length_take_of_le hle⟩
    · cases h
  · rintro ⟨rfl, rfl⟩
    rw [readN_of_le (by simp), List.take_left, List.drop_left]

theorem readN_append (h : x.length = n) (q : List β) : readN n (x ++ q) = some (x, q) :=
  readN_eq_some_iff.mpr ⟨rfl, h⟩

end Infra
