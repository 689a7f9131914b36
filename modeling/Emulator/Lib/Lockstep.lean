import Mathlib.Data.Set.Basic
import Mathlib.Data.Nat.Notation

/-!
# Rounds in lockstep

A set of parties goes through rounds. A party opens its next round when every party has closed the
one it is in, and it closes a round it has opened at any time. Parties only see which rounds the
others have closed.

* `InStep.openRound`, `InStep.closeRound` — the two moves keep the invariant `InStep`.
* `InStep.opened_le` — no party is more than one round ahead of another.
* `InStep.closed_le` — a party sees at most one round closed beyond the rounds it has closed itself.
-/

namespace Emulator.Lockstep

variable {ι : Type}

/-- How many rounds each party has opened and closed. -/
structure Rounds (ι : Type) where
  opened : ι → ℕ
  closed : ι → ℕ

namespace Rounds

variable [DecidableEq ι]

def openRound (r : Rounds ι) (i : ι) : Rounds ι :=
  { r with opened := Function.update r.opened i (r.opened i + 1) }

def closeRound (r : Rounds ι) (i : ι) : Rounds ι :=
  { r with closed := Function.update r.closed i (r.closed i + 1) }

end Rounds

/-- A round is closed after it is opened, and opened after all parties closed the one before. -/
structure InStep (S : Set ι) (r : Rounds ι) : Prop where
  closed_le_opened : ∀ i ∈ S, r.closed i ≤ r.opened i
  opened_le_closed : ∀ i ∈ S, ∀ j ∈ S, r.opened i ≤ r.closed j + 1

variable {S : Set ι} {r : Rounds ι}

theorem InStep.openRound [DecidableEq ι] (h : InStep S r) {i : ι}
    (hall : ∀ j ∈ S, r.opened i ≤ r.closed j) : InStep S (r.openRound i) where
  closed_le_opened k hk := by
    have hk' := h.closed_le_opened k hk
    by_cases hki : k = i
    · subst hki
      simp only [Rounds.openRound, Function.update_self]
      omega
    · simpa only [Rounds.openRound, Function.update_of_ne hki] using hk'
  opened_le_closed k hk j hj := by
    by_cases hki : k = i
    · subst hki
      simpa only [Rounds.openRound, Function.update_self, Nat.add_le_add_iff_right] using hall j hj
    · simpa only [Rounds.openRound, Function.update_of_ne hki] using h.opened_le_closed k hk j hj

theorem InStep.closeRound [DecidableEq ι] (h : InStep S r) {i : ι} (hlt : r.closed i < r.opened i) :
    InStep S (r.closeRound i) where
  closed_le_opened k hk := by
    by_cases hki : k = i
    · subst hki
      simp only [Rounds.closeRound, Function.update_self]
      exact hlt
    · simpa only [Rounds.closeRound, Function.update_of_ne hki] using h.closed_le_opened k hk
  opened_le_closed k hk j hj := by
    have hkj := h.opened_le_closed k hk j hj
    by_cases hji : j = i
    · subst hji
      simp only [Rounds.closeRound, Function.update_self]
      omega
    · simpa only [Rounds.closeRound, Function.update_of_ne hji] using hkj

/-- No party is more than one round ahead of another. -/
theorem InStep.opened_le (h : InStep S r) {i j : ι} (hi : i ∈ S) (hj : j ∈ S) :
    r.opened i ≤ r.opened j + 1 :=
  (h.opened_le_closed i hi j hj).trans (Nat.add_le_add_right (h.closed_le_opened j hj) 1)

/-- What the others have closed is at most one round beyond what a party has closed itself. -/
theorem InStep.closed_le (h : InStep S r) {i j : ι} (hi : i ∈ S) (hj : j ∈ S) :
    r.closed j ≤ r.closed i + 1 :=
  (h.closed_le_opened j hj).trans (h.opened_le_closed j hj i hi)

end Emulator.Lockstep
