import Mathlib.Algebra.BigOperators.Group.Finset.Basic

/-!
# Slots

A list of optional entries, one slot for each of a fixed number of owners. Entries are only put into
empty slots.

* `entry_set`, `holding_set` — the entries, and the slots with an entry of some kind, after one more
  entry.
* `sum_holding_set` — so a counter that adds the weight of each entry when it comes in is the sum of
  the weights over the slots.
-/

namespace Emulator.Slots

variable {α W : Type*} {l : List (Option α)} {i : ℕ}

def entry (l : List (Option α)) (i : ℕ) : Option α := (l[i]?).join

/-- The slots with an entry for which `p` holds. -/
def holding (l : List (Option α)) (p : α → Bool) : Finset ℕ :=
  (Finset.range l.length).filter fun i => (entry l i).any p

theorem entry_replicate (n i : ℕ) : entry (List.replicate n (none : Option α)) i = none := by
  simp only [entry, List.getElem?_replicate]
  split <;> rfl

theorem entry_of_empty (h : l[i]? = some none) : entry l i = none := by
  simp [entry, h]

theorem lt_length_of_entry {a : α} (h : entry l i = some a) : i < l.length :=
  (List.getElem?_eq_some_iff.mp (Option.join_eq_some_iff.mp h)).1

theorem entry_set (hi : i < l.length) (a : α) (j : ℕ) :
    entry (l.set i (some a)) j = if j = i then some a else entry l j := by
  by_cases hj : j = i
  · subst hj
    simp [entry, hi]
  · have hne : i ≠ j := Ne.symm hj
    simp [entry, hne, hj]

theorem mem_holding {p : α → Bool} : i ∈ holding l p ↔ ∃ a, entry l i = some a ∧ p a = true := by
  simp only [holding, Finset.mem_filter, Finset.mem_range, Option.any_eq_true]
  constructor
  · exact fun h => h.2
  · intro h
    obtain ⟨a, ha, hp⟩ := h
    exact ⟨lt_length_of_entry ha, a, ha, hp⟩

theorem notMem_holding (h : l[i]? = some none) (p : α → Bool) : i ∉ holding l p := by
  simp [mem_holding, entry_of_empty h]

theorem holding_eq_empty (h : ∀ i, entry l i = none) (p : α → Bool) : holding l p = ∅ := by
  ext i
  simp [mem_holding, h]

theorem holding_set (h : l[i]? = some none) (a : α) (p : α → Bool) :
    holding (l.set i (some a)) p = if p a then insert i (holding l p) else holding l p := by
  have hi : i < l.length := (List.getElem?_eq_some_iff.mp h).1
  ext j
  by_cases hj : j = i
  · subst hj
    split_ifs with hp <;> simp [mem_holding, entry_set hi, hp, entry_of_empty h]
  · split_ifs with hp <;> simp [mem_holding, entry_set hi, hj]

theorem sum_holding_set [AddCommMonoid W] (h : l[i]? = some none) (a : α) (p : α → Bool)
    (w : ℕ → W) :
    ∑ j ∈ holding (l.set i (some a)) p, w j =
      (∑ j ∈ holding l p, w j) + if p a then w i else 0 := by
  rw [holding_set h]
  split_ifs
  · rw [Finset.sum_insert (notMem_holding h p), add_comm]
  · rw [add_zero]

end Emulator.Slots
