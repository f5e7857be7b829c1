import Mathlib.Data.Set.Basic
import Mathlib.Data.Finset.Card

/-!
# Quorums

All a protocol needs of its quorums is that any two of them share a member. `majorities` is the
usual instance: more than half of a fixed list of members.
-/

namespace Infra

/-- A family of sets any two of which meet. -/
structure QuorumSystem (ν : Type*) where
  isQuorum : Set ν → Prop
  inter : ∀ {P Q : Set ν}, isQuorum P → isQuorum Q → ∃ v, v ∈ P ∧ v ∈ Q

/-- `votes` names more than half of `ids`, nobody twice. -/
structure Majority {ν : Type*} (ids votes : List ν) : Prop where
  nodup : votes.Nodup
  subset : ∀ v ∈ votes, v ∈ ids
  half : ids.length < 2 * votes.length

/-- Two majorities share a member. -/
theorem Majority.inter {ν : Type*} {ids P Q : List ν} (hP : Majority ids P) (hQ : Majority ids Q) :
    ∃ v, v ∈ P ∧ v ∈ Q := by
  classical
  by_contra hno
  have hdisj : P.Disjoint Q := fun v hp hq => hno ⟨v, hp, hq⟩
  have hnd : (P ++ Q).Nodup := hP.nodup.append hQ.nodup hdisj
  have hsub : (P ++ Q) ⊆ ids := by
    intro v hv
    rcases List.mem_append.mp hv with hv | hv
    · exact hP.subset v hv
    · exact hQ.subset v hv
  have hlen : (P ++ Q).length ≤ ids.length := (hnd.subperm hsub).length_le
  have h1 := hP.half
  have h2 := hQ.half
  rw [List.length_append] at hlen
  omega

/-- A majority is not contained in a side with at most half of the members. -/
theorem Majority.exists_not_mem {ν : Type*} [DecidableEq ν] {ids votes side : List ν}
    (h : Majority ids votes) (hside : 2 * (ids.filter (· ∈ side)).length ≤ ids.length) :
    ∃ v ∈ votes, v ∉ side := by
  by_contra hno
  push Not at hno
  have hsub : votes ⊆ ids.filter (· ∈ side) := by
    intro v hv
    rw [List.mem_filter]
    exact ⟨h.subset v hv, by simpa using hno v hv⟩
  have hlen := (h.nodup.subperm hsub).length_le
  have := h.half
  omega

/-- The sets that hold a majority of `ids`. -/
def majorities {ν : Type*} (ids : List ν) : QuorumSystem ν where
  isQuorum P := ∃ votes, Majority ids votes ∧ ∀ v ∈ votes, v ∈ P
  inter := by
    rintro P Q ⟨p, hp, hpP⟩ ⟨q, hq, hqQ⟩
    obtain ⟨v, hvp, hvq⟩ := hp.inter hq
    exact ⟨v, hpP v hvp, hqQ v hvq⟩

end Infra
