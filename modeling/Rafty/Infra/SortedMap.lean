import Mathlib.Order.Lattice
import Mathlib.Data.List.Basic

/-!
# Maps with ordered keys

A map that is walked in the order of its keys, as a list of entries with strictly increasing keys.
The list is determined by the map, so two maps are equal if their lists are.

`foldl_set_entries` is the rule for reading a map back from a walk over it: setting its entries one
after the other, from the empty map on, gives the map.
-/

namespace Infra

variable {α β : Type*} [LinearOrder α]

/-- Put `value` at `key` into entries that are in order, in place of what is there. -/
def setEntry (key : α) (value : β) : List (α × β) → List (α × β)
  | [] => [(key, value)]
  | entry :: rest =>
    if key < entry.1 then (key, value) :: entry :: rest
    else if key = entry.1 then (key, value) :: rest
    else entry :: setEntry key value rest

variable {key : α} {value : β} {l : List (α × β)}

theorem mem_of_mem_setEntry {e : α × β} (h : e ∈ setEntry key value l) :
    e = (key, value) ∨ e ∈ l := by
  induction l with
  | nil => simpa [setEntry] using h
  | cons entry rest ih =>
    rw [setEntry] at h
    split at h
    · exact List.mem_cons.mp h
    · split at h
      · exact (List.mem_cons.mp h).imp id (List.mem_cons_of_mem _)
      · rcases List.mem_cons.mp h with rfl | h
        · exact Or.inr List.mem_cons_self
        · exact (ih h).imp id (List.mem_cons_of_mem _)

theorem pairwise_setEntry (h : l.Pairwise fun a b => a.1 < b.1) :
    (setEntry key value l).Pairwise fun a b => a.1 < b.1 := by
  induction l with
  | nil => exact List.pairwise_singleton _ _
  | cons entry rest ih =>
    obtain ⟨hhead, hrest⟩ := List.pairwise_cons.mp h
    rw [setEntry]
    split
    · next hlt =>
      refine List.pairwise_cons.mpr ⟨fun e he => ?_, h⟩
      rcases List.mem_cons.mp he with rfl | he
      · exact hlt
      · exact lt_trans hlt (hhead e he)
    · next hge =>
      split
      · next heq => exact List.pairwise_cons.mpr ⟨fun e he => heq ▸ hhead e he, hrest⟩
      · next hne =>
        refine List.pairwise_cons.mpr ⟨fun e he => ?_, ih hrest⟩
        rcases mem_of_mem_setEntry he with rfl | he
        · exact lt_of_le_of_ne (not_lt.mp hge) (Ne.symm hne)
        · exact hhead e he

/-- A key beyond all others goes to the end. -/
theorem setEntry_of_forall_lt (h : ∀ e ∈ l, e.1 < key) :
    setEntry key value l = l ++ [(key, value)] := by
  induction l with
  | nil => rfl
  | cons entry rest ih =>
    obtain ⟨hlt, hrest⟩ := List.forall_mem_cons.mp h
    rw [setEntry, if_neg (not_lt.mpr (le_of_lt hlt)), if_neg (ne_of_gt hlt), ih hrest,
      List.cons_append]

/-- A map, as its entries in the order of the keys. -/
@[ext] structure SortedMap (α β : Type*) [LinearOrder α] where
  entries : List (α × β)
  sorted : entries.Pairwise fun a b => a.1 < b.1

namespace SortedMap

instance : EmptyCollection (SortedMap α β) := ⟨⟨[], List.Pairwise.nil⟩⟩

@[simp] theorem entries_empty : (∅ : SortedMap α β).entries = [] := rfl

instance [DecidableEq β] : DecidableEq (SortedMap α β) := fun _ _ =>
  decidable_of_iff _ SortedMap.ext_iff.symm

/-- `m[key] = value`. -/
def set (m : SortedMap α β) (key : α) (value : β) : SortedMap α β :=
  ⟨setEntry key value m.entries, pairwise_setEntry m.sorted⟩

theorem mem_of_mem_set {m : SortedMap α β} {e : α × β} (h : e ∈ (m.set key value).entries) :
    e = (key, value) ∨ e ∈ m.entries := mem_of_mem_setEntry h

/-- The entries of a map set one after the other behind entries with smaller keys. -/
theorem entries_foldl_set : ∀ (l : List (α × β)) (m : SortedMap α β),
    (m.entries ++ l).Pairwise (fun a b => a.1 < b.1) →
    (l.foldl (fun t e => t.set e.1 e.2) m).entries = m.entries ++ l
  | [], m, _ => (List.append_nil _).symm
  | e :: l, m, h => by
    have hlt : ∀ e' ∈ m.entries, e'.1 < e.1 := fun e' he' =>
      (List.pairwise_append.mp h).2.2 e' he' e List.mem_cons_self
    have hset : (m.set e.1 e.2).entries = m.entries ++ [e] := setEntry_of_forall_lt hlt
    rw [List.append_cons, ← hset] at h
    rw [List.foldl_cons, entries_foldl_set l _ h, hset, ← List.append_cons]

/-- **A map is read back from a walk over it.** -/
theorem foldl_set_entries (m : SortedMap α β) :
    m.entries.foldl (fun t e => t.set e.1 e.2) ∅ = m :=
  SortedMap.ext (entries_foldl_set m.entries ∅ m.sorted)

end SortedMap

end Infra
