import Mathlib.Data.List.Basic

/-!
# Orders of arrival

Items arrive in some order and some of them more than once. `arrivals` keeps the first arrival of
each item, latest first, so that `List.find?` on it gives the item that came last among those of a
kind.

* `find?_arrivals` — once all items of a kind are there, the last of them stays the last.
-/

namespace Emulator

variable {α : Type} [DecidableEq α] {R order : List α} {a : α}

/-- The items of `R` and then those that arrive for the first time, latest first. -/
def arrivals (R order : List α) : List α := order.foldl (fun R a => if a ∈ R then R else a :: R) R

@[simp] theorem arrivals_nil (R : List α) : arrivals R [] = R := rfl

theorem arrivals_cons_of_mem (h : a ∈ R) : arrivals R (a :: order) = arrivals R order := by
  rw [arrivals, List.foldl_cons, if_pos h, arrivals]

theorem arrivals_cons_of_notMem (h : a ∉ R) :
    arrivals R (a :: order) = arrivals (a :: R) order := by
  rw [arrivals, List.foldl_cons, if_neg h, arrivals]

theorem mem_arrivals : a ∈ arrivals R order ↔ a ∈ R ∨ a ∈ order := by
  induction order generalizing R with
  | nil => simp
  | cons b order ih =>
    by_cases hb : b ∈ R
    · rw [arrivals_cons_of_mem hb, ih, List.mem_cons]
      constructor
      · rintro (h | h)
        · exact .inl h
        · exact .inr (.inr h)
      · rintro (h | rfl | h)
        · exact .inl h
        · exact .inl hb
        · exact .inr h
    · rw [arrivals_cons_of_notMem hb, ih, List.mem_cons, List.mem_cons]
      tauto

theorem find?_arrivals {p : α → Bool} (h : ∀ a, p a = true → a ∈ R) (order : List α) :
    (arrivals R order).find? p = R.find? p := by
  induction order generalizing R with
  | nil => rfl
  | cons a order ih =>
    by_cases ha : a ∈ R
    · rw [arrivals_cons_of_mem ha, ih h]
    · have hp : ¬p a = true := fun hp => ha (h a hp)
      rw [arrivals_cons_of_notMem ha, ih fun b hb => List.mem_cons_of_mem a (h b hb),
        List.find?_cons_of_neg hp]

end Emulator
