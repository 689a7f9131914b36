import Emulator.Lib.Wire
import Mathlib.Data.Int.Order.Basic

/-!
# Codes that read back

A `Coder` writes values so that they can be read off the front of any string: what was written is
read back, whatever follows. Coders compose by concatenation, so a coder for a record comes from
coders for its fields.

* `Coder.roundTrips_codec` — the codec of a coder reads back every message.
-/

namespace Emulator

/-- A self-delimiting code. -/
structure Coder (α : Type) where
  put : α → Bytes
  get : Bytes → Option (α × Bytes)
  get_put : ∀ a r, get (put a ++ r) = some (a, r)

namespace Coder

variable {α β : Type}

def nat : Coder ℕ where
  put := Wire.varint
  get := Wire.readVarint
  get_put := Wire.readVarint_varint

/-- The values of `β`, coded as values of `α`. -/
def map (c : Coder α) (f : β → α) (g : α → β) (h : ∀ b, g (f b) = b) : Coder β where
  put b := c.put (f b)
  get bz := (c.get bz).map fun x => (g x.1, x.2)
  get_put b r := by rw [c.get_put, Option.map_some, h]

def pair (c : Coder α) (d : Coder β) : Coder (α × β) where
  put x := c.put x.1 ++ d.put x.2
  get bz := do
    let (a, r) ← c.get bz
    let (b, r) ← d.get r
    pure ((a, b), r)
  get_put x r := by
    rw [List.append_assoc, c.get_put]
    simp [d.get_put]

/-- The sign, and then the absolute value. -/
def int : Coder ℤ :=
  (pair nat nat).map (fun n => (if n < 0 then 1 else 0, n.natAbs))
    (fun x => if x.1 = 0 then x.2 else -x.2) fun n => by
      by_cases h : n < 0
      · simp only [h, if_true, one_ne_zero, if_false]
        omega
      · simp only [h, if_false, if_true]
        omega

def bytes : Coder Bytes where
  put bz := Wire.varint bz.length ++ bz
  get bz := do
    let (n, r) ← Wire.readVarint bz
    if n ≤ r.length then some (r.take n, r.drop n) else none
  get_put bz r := by
    rw [List.append_assoc, Wire.readVarint_varint]
    simp

/-- As many values as `n`. -/
def getMany (c : Coder α) : ℕ → Bytes → Option (List α × Bytes)
  | 0, bz => some ([], bz)
  | n + 1, bz => do
    let (a, r) ← c.get bz
    let (as, r) ← getMany c n r
    pure (a :: as, r)

theorem getMany_flatMap (c : Coder α) (l : List α) (r : Bytes) :
    getMany c l.length (l.flatMap c.put ++ r) = some (l, r) := by
  induction l with
  | nil => rfl
  | cons a l ih =>
    rw [List.flatMap_cons, List.append_assoc, List.length_cons, getMany, c.get_put]
    simp [ih]

def list (c : Coder α) : Coder (List α) where
  put l := Wire.varint l.length ++ l.flatMap c.put
  get bz := do
    let (n, r) ← Wire.readVarint bz
    getMany c n r
  get_put l r := by
    rw [List.append_assoc, Wire.readVarint_varint]
    exact getMany_flatMap c l r

/-- A list of at most one value. -/
def option (c : Coder α) : Coder (Option α) :=
  c.list.map Option.toList List.head? fun o => by cases o <;> rfl

/-- The codec of a coder: a message is everything there is. -/
def codec (c : Coder α) : Codec α where
  marshal := c.put
  unmarshal bz := (c.get bz).bind fun x => if x.2 = [] then some x.1 else none

theorem roundTrips_codec (c : Coder α) : c.codec.RoundTrips id := by
  intro a
  have h := c.get_put a []
  rw [List.append_nil] at h
  simp [codec, h]

end Coder

end Emulator
