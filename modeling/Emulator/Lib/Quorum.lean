import Mathlib.Algebra.BigOperators.Group.Finset.Basic
import Mathlib.Algebra.Order.BigOperators.Group.Finset
import Mathlib.Algebra.BigOperators.Ring.Finset
import Mathlib.Tactic.Linarith

/-!
# Weighted quorums

Finite sets of voters with natural-number weights. A set is a *supermajority* of a total `W`
when three times its weight exceeds `2 * W`.

* `Supermajority.inter` — two supermajorities of the same total share more than a third of it.
* `not_supermajority_of_disjoint` — disjoint sets are never both supermajorities.
* `forall_supermajority_singleton_iff` — when every single voter is a supermajority.
* `floor_reached_iff` — a set whose weight reaches `2 * W / 3` (rounded down) is a supermajority
  exactly when its weight is not that number itself.
-/

namespace Emulator.Quorum

open Finset

variable {ι : Type*}

/-- The total weight of a set of voters. -/
def weight (w : ι → ℕ) (s : Finset ι) : ℕ := ∑ i ∈ s, w i

/-- More than two thirds of the total `W`. -/
def Supermajority (w : ι → ℕ) (W : ℕ) (s : Finset ι) : Prop := 2 * W < 3 * weight w s

variable {s t u : Finset ι} {w : ι → ℕ}

theorem weight_mono (w : ι → ℕ) (h : s ⊆ t) : weight w s ≤ weight w t :=
  Finset.sum_le_sum_of_subset h

theorem Supermajority.mono {W : ℕ} (h : Supermajority w W s) (hst : s ⊆ t) :
    Supermajority w W t := by
  have hle := weight_mono w hst
  unfold Supermajority at *
  omega

@[simp] theorem weight_empty (w : ι → ℕ) : weight w ∅ = 0 := rfl

variable [DecidableEq ι]

theorem weight_insert (w : ι → ℕ) {i : ι} (h : i ∉ s) : weight w (insert i s) = w i + weight w s :=
  Finset.sum_insert h

theorem weight_union_add_inter (w : ι → ℕ) (s t : Finset ι) :
    weight w (s ∪ t) + weight w (s ∩ t) = weight w s + weight w t :=
  Finset.sum_union_inter

/-- The common part of two sets of voters, all of them among `u`. -/
theorem weight_add_le (w : ι → ℕ) (hs : s ⊆ u) (ht : t ⊆ u) :
    weight w s + weight w t ≤ weight w u + weight w (s ∩ t) := by
  rw [← weight_union_add_inter]
  exact Nat.add_le_add_right (weight_mono w (union_subset hs ht)) _

/-- **Quorum intersection.** Two supermajorities share more than a third of the total. -/
theorem Supermajority.inter (hs : Supermajority w (weight w u) s)
    (ht : Supermajority w (weight w u) t) (hsu : s ⊆ u) (htu : t ⊆ u) :
    weight w u < 3 * weight w (s ∩ t) := by
  have h := weight_add_le w hsu htu
  unfold Supermajority at hs ht
  omega

theorem not_supermajority_of_disjoint (hd : Disjoint s t) (hsu : s ⊆ u) (htu : t ⊆ u)
    (hs : Supermajority w (weight w u) s) : ¬ Supermajority w (weight w u) t := by
  intro ht
  have h := hs.inter ht hsu htu
  rw [disjoint_iff_inter_eq_empty.mp hd, weight_empty] at h
  omega

/-- Single voters are supermajorities only where there is one voter, and it has weight. -/
theorem forall_supermajority_singleton_iff :
    (∀ i ∈ u, Supermajority w (weight w u) {i}) ↔ u.card ≤ 1 ∧ ∀ i ∈ u, 0 < w i := by
  constructor
  · intro h
    refine ⟨card_le_one.mpr fun i hi j hj => ?_, fun i hi => ?_⟩
    · by_contra hne
      exact not_supermajority_of_disjoint (disjoint_singleton.mpr hne)
        (singleton_subset_iff.mpr hi) (singleton_subset_iff.mpr hj) (h i hi) (h j hj)
    · have hi := h i hi
      unfold Supermajority weight at hi
      rw [sum_singleton] at hi
      omega
  · rintro ⟨hcard, hpos⟩ i hi
    obtain rfl : u = {i} := eq_singleton_iff_unique_mem.mpr
      ⟨hi, fun j hj => card_le_one.mp hcard j hj i hi⟩
    have hw := hpos i hi
    unfold Supermajority weight
    rw [sum_singleton]
    omega

/-- Reaching the rounded-down two thirds is a supermajority unless the weight is exactly that
number. -/
theorem floor_reached_iff {W n : ℕ} (h : 2 * W / 3 ≤ n) : 2 * W < 3 * n ↔ n ≠ 2 * W / 3 := by
  omega

end Emulator.Quorum
