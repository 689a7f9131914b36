import Mathlib.Data.Nat.Notation
import Mathlib.Data.Set.Basic
import Mathlib.Order.Interval.Set.Basic

/-!
# Sets of intervals as increasing lists of boundaries

A strictly increasing list of boundaries stands for a union of half-open intervals: the first
boundary opens an interval, the second closes it, the third opens the next one. A point belongs to
the set when an odd number of boundaries is at or below it.

* `below_take`, `below_drop`, `le_iff_lt_below` — on an increasing list, everything about a point is
  the number `below` of boundaries at or below it.
* `eq_of_cover_eq` — the set determines the list.
* `CutLeft`, `CutRight` — what is left of a list up to a point and from a point on, when the points
  between the two cuts are to be in the set or out of it; `CutLeft.cover_append_one` and
  `CutLeft.cover_append_zero` are the sets that the two parts together stand for.
-/

namespace Emulator.Boundaries

variable {α : Type} [LinearOrder α] {l : List α} {p x : α} {k : ℕ} {y : α}

/-- How many boundaries are at or below `p`. -/
def below (l : List α) (p : α) : ℕ := l.countP (· ≤ p)

/-- The points in one of the intervals. -/
def cover (l : List α) : Set α := {p | below l p % 2 = 1}

theorem mem_cover : p ∈ cover l ↔ below l p % 2 = 1 := Iff.rfl

@[simp] theorem below_nil (p : α) : below [] p = 0 := rfl

theorem below_append (l l' : List α) (p : α) : below (l ++ l') p = below l p + below l' p :=
  List.countP_append

theorem below_cons (x : α) (l : List α) (p : α) :
    below (x :: l) p = below l p + if x ≤ p then 1 else 0 := by
  simp only [below, List.countP_cons, decide_eq_true_eq]

theorem below_le_length (l : List α) (p : α) : below l p ≤ l.length := List.countP_le_length

theorem below_mono (l : List α) {p q : α} (h : p ≤ q) : below l p ≤ below l q := by
  apply List.countP_mono_left
  intro x _ hx
  simp only [decide_eq_true_eq] at hx ⊢
  exact hx.trans h

/-! ## Increasing lists -/

theorem below_eq_zero (h : ∀ x ∈ l, p < x) : below l p = 0 := by
  apply List.countP_eq_zero.mpr
  intro x hx
  simpa using h x hx

/-- The boundaries at or below `p` come first. -/
theorem le_iff_lt_below (hl : l.Pairwise (· < ·)) (hk : l[k]? = some x) :
    x ≤ p ↔ k < below l p := by
  induction l generalizing k with
  | nil => cases hk
  | cons y l ih =>
    obtain ⟨hy, hl⟩ := List.pairwise_cons.mp hl
    rw [below_cons]
    cases k with
    | zero =>
      obtain rfl : y = x := Option.some.inj hk
      constructor
      · intro hyp
        rw [if_pos hyp]
        omega
      · intro hlt
        by_contra hyp
        rw [if_neg hyp, below_eq_zero] at hlt
        · omega
        · intro z hz
          exact (not_le.mp hyp).trans (hy z hz)
    | succ k =>
      have hxl : x ∈ l := List.mem_of_getElem? hk
      rw [ih hl hk]
      split_ifs with hyp
      · omega
      · have hzero : below l p = 0 := below_eq_zero fun z hz => (not_le.mp hyp).trans (hy z hz)
        omega

theorem below_getElem (hl : l.Pairwise (· < ·)) (hk : l[k]? = some x) : below l x = k + 1 := by
  have hlt : k < below l x := (le_iff_lt_below hl hk).mp le_rfl
  by_contra hne
  have hlen : k + 1 < l.length := by
    have := below_le_length l x
    omega
  have hnext : l[k + 1]? = some l[k + 1] := List.getElem?_eq_getElem hlen
  have hle : l[k + 1] ≤ x := (le_iff_lt_below hl hnext).mpr (by omega)
  obtain ⟨hklt, hkx⟩ := List.getElem?_eq_some_iff.mp hk
  have hlt' : x < l[k + 1] := by
    rw [← hkx]
    exact List.pairwise_iff_getElem.mp hl k (k + 1) hklt hlen (Nat.lt_succ_self k)
  exact absurd hle (not_le.mpr hlt')

section

variable (hl : (x :: l).Pairwise (· < ·))

include hl

/-- The first boundary of an increasing list opens an interval. -/
theorem mem_cover_cons_self : x ∈ cover (x :: l) := by
  rw [mem_cover, below_cons, if_pos le_rfl, below_eq_zero (List.pairwise_cons.mp hl).1]

theorem le_of_mem_cover_cons (hp : p ∈ cover (x :: l)) : x ≤ p := by
  by_contra hlt
  have hzero : below (x :: l) p = 0 := by
    apply below_eq_zero
    intro y hy
    rcases List.mem_cons.mp hy with rfl | hy
    · exact not_le.mp hlt
    · exact (not_le.mp hlt).trans ((List.pairwise_cons.mp hl).1 y hy)
  rw [mem_cover, hzero] at hp
  cases hp

/-- Without its first boundary, a list stands for the points from there on that were out of the
set. -/
theorem mem_cover_tail :
    p ∈ cover l ↔ x ≤ p ∧ p ∉ cover (x :: l) := by
  rw [mem_cover, mem_cover, below_cons]
  by_cases hp : x ≤ p
  · simp only [hp, if_true, true_and]
    omega
  · have hzero : below l p = 0 := by
      apply below_eq_zero
      intro y hy
      exact (not_le.mp hp).trans ((List.pairwise_cons.mp hl).1 y hy)
    simp [hp, hzero]

end

/-- **The boundaries are determined by the set**: increasing lists that stand for the same points
are equal. -/
theorem eq_of_cover_eq {l' : List α} (hl : l.Pairwise (· < ·)) (hl' : l'.Pairwise (· < ·))
    (h : cover l = cover l') : l = l' := by
  induction l generalizing l' with
  | nil =>
    cases l' with
    | nil => rfl
    | cons x' l' =>
      have hx' := mem_cover_cons_self hl'
      rw [← h] at hx'
      cases hx'
  | cons x l ih =>
    cases l' with
    | nil =>
      have hx := mem_cover_cons_self hl
      rw [h] at hx
      cases hx
    | cons x' l' =>
      have hx : x ∈ cover (x' :: l') := h ▸ mem_cover_cons_self hl
      have hx' : x' ∈ cover (x :: l) := h ▸ mem_cover_cons_self hl'
      obtain rfl : x = x' :=
        le_antisymm (le_of_mem_cover_cons hl hx') (le_of_mem_cover_cons hl' hx)
      have htail : cover l = cover l' := by
        ext p
        rw [mem_cover_tail hl, mem_cover_tail hl', h]
      rw [ih hl.of_cons hl'.of_cons htail]

theorem below_take (hl : l.Pairwise (· < ·)) (k : ℕ) (p : α) :
    below (l.take k) p = min k (below l p) := by
  induction l generalizing k with
  | nil => simp
  | cons y l ih =>
    obtain ⟨hy, hl⟩ := List.pairwise_cons.mp hl
    cases k with
    | zero => simp
    | succ k =>
      rw [List.take_succ_cons, below_cons, below_cons, ih hl]
      split_ifs with hyp
      · omega
      · have hzero : below l p = 0 := below_eq_zero fun z hz => (not_le.mp hyp).trans (hy z hz)
        omega

theorem below_drop (hl : l.Pairwise (· < ·)) (k : ℕ) (p : α) :
    below (l.drop k) p = below l p - k := by
  have happ := below_append (l.take k) (l.drop k) p
  rw [List.take_append_drop, below_take hl] at happ
  omega

/-! ## Cutting a list at a point -/

theorem le_of_mem_take (hl : l.Pairwise (· < ·)) (hk : k ≤ below l p) (hy : y ∈ l.take k) :
    y ≤ p := by
  obtain ⟨n, hn, rfl⟩ := List.mem_iff_getElem.mp hy
  rw [List.length_take] at hn
  rw [List.getElem_take]
  exact (le_iff_lt_below hl (List.getElem?_eq_getElem (by omega))).mpr (by omega)

theorem lt_of_mem_drop (hl : l.Pairwise (· < ·)) (hk : below l p ≤ k) (hy : y ∈ l.drop k) :
    p < y := by
  obtain ⟨n, hn, rfl⟩ := List.mem_iff_getElem.mp hy
  rw [List.length_drop] at hn
  rw [List.getElem_drop, ← not_le,
    le_iff_lt_below hl (List.getElem?_eq_getElem (show k + n < l.length by omega))]
  omega

/-- `p` is the last boundary at or below `p`. -/
def IsBoundary (l : List α) (p : α) : Prop := ∃ k, below l p = k + 1 ∧ l[k]? = some p

theorem lt_of_mem_take (hl : l.Pairwise (· < ·)) (hp : ¬IsBoundary l p)
    (hy : y ∈ l.take (below l p)) : y < p := by
  apply lt_of_le_of_ne (le_of_mem_take hl le_rfl hy)
  rintro rfl
  obtain ⟨n, hn⟩ := List.mem_iff_getElem?.mp (List.mem_of_mem_take hy)
  exact hp ⟨n, below_getElem hl hn, hn⟩

/-- Fewer boundaries are below a point before a boundary than below the boundary itself. -/
theorem IsBoundary.below_lt (hl : l.Pairwise (· < ·)) {x : α} (hx : IsBoundary l x) (hpx : p < x) :
    below l p < below l x := by
  obtain ⟨k, hk, hkx⟩ := hx
  have := mt (le_iff_lt_below hl hkx).mpr (not_le.mpr hpx)
  omega

theorem below_eq_length (h : ∀ x ∈ l, x ≤ p) : below l p = l.length := by
  apply List.countP_eq_length.mpr
  intro x hx
  exact decide_eq_true (h x hx)

/-- `L` is `l` up to `low`, with a last boundary added or removed such that the points after it are
in the set when `inside` is one and out of it when `inside` is zero. -/
structure CutLeft (l : List α) (low : α) (inside : ℕ) (L : List α) : Prop where
  pairwise : L.Pairwise (· < ·)
  le : ∀ x ∈ L, x ≤ low
  length : L.length % 2 = inside
  below_eq : ∀ p < low, below L p = below l p

/-- `R` is `l` from `high` on, with a first boundary added or removed such that the points before it
are in the set when `inside` is one and out of it when `inside` is zero. -/
structure CutRight (l : List α) (high : α) (inside : ℕ) (R : List α) : Prop where
  pairwise : R.Pairwise (· < ·)
  le : ∀ x ∈ R, high ≤ x
  length : (inside + R.length) % 2 = l.length % 2
  below_eq : ∀ p, high ≤ p → (inside + below R p) % 2 = below l p % 2

variable {low high : α} {inside : ℕ}

section

variable (hl : l.Pairwise (· < ·))

include hl

theorem cutLeft_take (h : below l low % 2 = inside) :
    CutLeft l low inside (l.take (below l low)) where
  pairwise := hl.sublist (List.take_sublist _ l)
  le x hx := le_of_mem_take hl le_rfl hx
  length := by
    rw [List.length_take, Nat.min_eq_left (below_le_length l low), h]
  below_eq p hp := by
    have := below_mono l hp.le
    rw [below_take hl]
    omega

theorem cutLeft_boundary (hlow : IsBoundary l low)
    (h : (below l low - 1) % 2 = inside) : CutLeft l low inside (l.take (below l low - 1)) where
  pairwise := hl.sublist (List.take_sublist _ l)
  le x hx := le_of_mem_take hl (Nat.sub_le _ 1) hx
  length := by
    have := below_le_length l low
    rw [List.length_take, Nat.min_eq_left (by omega), h]
  below_eq p hp := by
    have := hlow.below_lt hl hp
    rw [below_take hl]
    omega

theorem cutLeft_concat (hlow : ¬IsBoundary l low)
    (h : (below l low + 1) % 2 = inside) :
    CutLeft l low inside (l.take (below l low) ++ [low]) where
  pairwise := by
    rw [List.pairwise_append]
    refine ⟨hl.sublist (List.take_sublist _ l), List.pairwise_singleton _ _, fun x hx y hy => ?_⟩
    obtain rfl := List.mem_singleton.mp hy
    exact lt_of_mem_take hl hlow hx
  le x hx := by
    rcases List.mem_append.mp hx with hx | hx
    · exact le_of_mem_take hl le_rfl hx
    · exact (List.mem_singleton.mp hx).le
  length := by
    rw [List.length_append, List.length_take, Nat.min_eq_left (below_le_length l low),
      List.length_singleton, h]
  below_eq p hp := by
    have := below_mono l hp.le
    rw [below_append, below_take hl, below_cons, if_neg (not_le.mpr hp), below_nil]
    omega

theorem cutRight_drop (h : below l high % 2 = inside) :
    CutRight l high inside (l.drop (below l high)) where
  pairwise := hl.sublist (List.drop_sublist _ l)
  le x hx := (lt_of_mem_drop hl le_rfl hx).le
  length := by
    have := below_le_length l high
    rw [List.length_drop]
    omega
  below_eq p hp := by
    have := below_mono l hp
    rw [below_drop hl]
    omega

/-- Two keys with the same boundaries below them cut a list at the same place. -/
theorem cuts_of_below_eq (hbelow : below l high = below l low)
    (h : below l low % 2 = inside) :
    CutLeft l low inside (l.take (below l low)) ∧
      CutRight l high inside (l.drop (below l low)) := by
  refine ⟨cutLeft_take hl h, ?_⟩
  rw [← hbelow] at h ⊢
  exact cutRight_drop hl h

theorem cutRight_boundary (hhigh : IsBoundary l high)
    (h : (below l high - 1) % 2 = inside) : CutRight l high inside (l.drop (below l high - 1)) where
  pairwise := hl.sublist (List.drop_sublist _ l)
  le x hx := by
    by_contra hlt
    exact lt_irrefl _ (lt_of_mem_drop hl (Nat.le_sub_one_of_lt (hhigh.below_lt hl (not_le.mp hlt))) hx)
  length := by
    obtain ⟨k, hk, -⟩ := hhigh
    have := below_le_length l high
    rw [List.length_drop]
    omega
  below_eq p hp := by
    obtain ⟨k, hk, -⟩ := hhigh
    have := below_mono l hp
    rw [below_drop hl]
    omega

theorem cutRight_cons (h : (below l high + 1) % 2 = inside) :
    CutRight l high inside (high :: l.drop (below l high)) where
  pairwise := List.pairwise_cons.mpr
    ⟨fun _ hx => lt_of_mem_drop hl le_rfl hx, hl.sublist (List.drop_sublist _ l)⟩
  le x hx := by
    rcases List.mem_cons.mp hx with rfl | hx
    · exact le_rfl
    · exact (lt_of_mem_drop hl le_rfl hx).le
  length := by
    have := below_le_length l high
    rw [List.length_cons, List.length_drop]
    omega
  below_eq p hp := by
    have := below_mono l hp
    rw [below_cons, below_drop hl, if_pos hp]
    omega

end

/-! ## Putting the parts together -/

section

variable {L R : List α}

theorem CutLeft.pairwise_append (hL : CutLeft l low inside L) (hR : CutRight l high inside R)
    (h : low < high) : (L ++ R).Pairwise (· < ·) :=
  List.pairwise_append.mpr ⟨hL.pairwise, hR.pairwise, fun x hx y hy =>
    ((hL.le x hx).trans_lt h).trans_le (hR.le y hy)⟩

theorem CutLeft.length_append (hL : CutLeft l low inside L) (hR : CutRight l high inside R) :
    (L ++ R).length % 2 = l.length % 2 := by
  have hLlen := hL.length
  have hRlen := hR.length
  rw [List.length_append]
  omega

/-- Two cuts set the points between them to `inside` and leave the others. -/
theorem CutLeft.mem_cover_append (hL : CutLeft l low inside L) (hR : CutRight l high inside R)
    (h : low < high) (p : α) :
    p ∈ cover (L ++ R) ↔
      p ∈ Set.Ico low high ∧ inside = 1 ∨ p ∉ Set.Ico low high ∧ p ∈ cover l := by
  have hLlen := hL.length
  rw [mem_cover, mem_cover, below_append, Set.mem_Ico]
  rcases lt_or_ge p low with hp | hp
  · have hnot : ¬(low ≤ p ∧ p < high) := fun hmem => not_le.mpr hp hmem.1
    rw [hL.below_eq p hp, below_eq_zero fun x hx => (hp.trans h).trans_le (hR.le x hx),
      Nat.add_zero]
    simp only [hnot, false_and, false_or, not_false_eq_true, true_and]
  · rw [below_eq_length fun x hx => (hL.le x hx).trans hp]
    rcases lt_or_ge p high with hp' | hp'
    · rw [below_eq_zero fun x hx => hp'.trans_le (hR.le x hx)]
      simp only [hp, hp', and_self, true_and, not_true_eq_false, false_and, or_false]
      omega
    · have hRp := hR.below_eq p hp'
      have hnot : ¬(low ≤ p ∧ p < high) := fun hmem => not_lt.mpr hp' hmem.2
      simp only [hnot, false_and, false_or, not_false_eq_true, true_and]
      omega

/-- **Cuts that leave the points between them in the set** add an interval. -/
theorem CutLeft.cover_append_one (hL : CutLeft l low 1 L) (hR : CutRight l high 1 R)
    (h : low < high) : cover (L ++ R) = cover l ∪ Set.Ico low high := by
  ext p
  rw [hL.mem_cover_append hR h, Set.mem_union]
  by_cases hp : p ∈ Set.Ico low high
  · simp [hp]
  · simp [hp]

/-- **Cuts that leave the points between them out of the set** remove an interval. -/
theorem CutLeft.cover_append_zero (hL : CutLeft l low 0 L) (hR : CutRight l high 0 R)
    (h : low < high) : cover (L ++ R) = cover l \ Set.Ico low high := by
  ext p
  rw [hL.mem_cover_append hR h, Set.mem_sdiff]
  simp [and_comm]

end

end Emulator.Boundaries
