import Emulator.Base
import Emulator.Lib.Slots
import Mathlib.Data.Finset.Card
import Mathlib.Data.Finset.Range
import Mathlib.Data.Nat.Bitwise
import Mathlib.Tactic.IntervalCases
import Mathlib.Tactic.SplitIfs

/-!
# Bit vectors

The bit maps that name the signers of an aggregated signature: `bits` flags packed eight to a
byte, lowest bit first. On the wire a vector is one header byte, the number of unused bits, and
then its elements.
-/

namespace Emulator

structure BitVector where
  bits : ℕ
  elems : List UInt8
  deriving DecidableEq, Repr

namespace BitVector

/-- `NewBitVector`, on a non-negative size (a negative one gives `nil`). -/
def newBitVector (bits : ℕ) : BitVector := ⟨bits, List.replicate ((bits + 7) / 8) 0⟩

def mask (i : ℕ) : UInt8 := 1 <<< UInt8.ofNat (i % 8)

def size (v : BitVector) : ℕ := v.bits

def getIndex (v : BitVector) (i : ℕ) : Bool :=
  if v.bits ≤ i then false else (v.elems.getD (i / 8) 0 &&& mask i) > 0

def setIndex (v : BitVector) (i : ℕ) (b : Bool) : BitVector :=
  if v.bits ≤ i then v
  else if b then { v with elems := v.elems.modify (i / 8) (· ||| mask i) }
  else { v with elems := v.elems.modify (i / 8) (· &&& ~~~ mask i) }

def countNoneZero (v : BitVector) : ℕ :=
  (List.range v.size).foldl (fun count i => if v.getIndex i then count + 1 else count) 0

/-- `Byte`: the header is `int8(8*len(Elems) - Bits)`. -/
def byte (v : BitVector) : Bytes :=
  UInt8.ofInt (8 * (v.elems.length : ℤ) - v.bits) :: v.elems

/-- `NewBitArrayFromByte`. A header that makes the size negative gives `nil`. -/
def newBitArrayFromByte : Bytes → Option BitVector
  | [] => some (newBitVector 0)
  | h :: payload =>
    let all : ℤ := payload.length * 8 - h.toInt8.toInt
    if all < 0 then none
    else
      let bv := newBitVector all.toNat
      -- `bv.Elems[i] = temp` for every payload byte; a write past the end panics
      if payload.length ≤ bv.elems.length then
        some { bv with elems := payload ++ bv.elems.drop payload.length }
      else none

/-- `NewBitArrayFromByte` with its panics (`none`), which are told from a `nil` vector (`some
none`). -/
def readBitArray : Bytes → Option (Option BitVector)
  | [] => some (some (newBitVector 0))
  | h :: payload =>
    let all : ℤ := payload.length * 8 - h.toInt8.toInt
    let bv := if all < 0 then none else some (newBitVector all.toNat)
    -- `bv.Elems[i] = temp` for every payload byte: a `nil` vector or a write past the end panics
    if payload.length ≤ (bv.map (·.elems.length)).getD 0 then
      some (bv.map fun bv => { bv with elems := payload ++ bv.elems.drop payload.length })
    else none

/-- The header byte does not claim more unused bits than a byte has, unless no byte follows. -/
def Readable : Bytes → Prop
  | [] => True
  | h :: payload => payload = [] ∨ h.toInt8.toInt ≤ 7

/-- The vector has as many elements as its bits need. -/
def WellFormed (v : BitVector) : Prop := v.elems.length = (v.bits + 7) / 8

variable {v : BitVector} {i : ℕ}

theorem wellFormed_newBitVector (bits : ℕ) : (newBitVector bits).WellFormed :=
  List.length_replicate

theorem WellFormed.setIndex (h : v.WellFormed) (i : ℕ) (b : Bool) :
    (v.setIndex i b).WellFormed := by
  unfold BitVector.setIndex
  split_ifs
  · exact h
  · exact (List.length_modify ..).trans h
  · exact (List.length_modify ..).trans h

@[simp] theorem bits_newBitVector (bits : ℕ) : (newBitVector bits).bits = bits := rfl

@[simp] theorem bits_setIndex (v : BitVector) (i : ℕ) (b : Bool) : (v.setIndex i b).bits = v.bits := by
  unfold setIndex
  split_ifs <;> rfl

theorem getIndex_newBitVector (n i : ℕ) : (newBitVector n).getIndex i = false := by
  have hzero : (List.replicate ((n + 7) / 8) (0 : UInt8)).getD (i / 8) 0 = 0 := by
    rw [List.getD_eq_getElem?_getD, List.getElem?_replicate]
    split_ifs <;> rfl
  unfold getIndex newBitVector
  split_ifs
  · rfl
  · rw [hzero, UInt8.zero_and]
    rfl

theorem toNat_mask (i : ℕ) : (mask i).toNat = 2 ^ (i % 8) := by
  have h : i % 8 < 8 := Nat.mod_lt _ (by decide)
  unfold mask
  interval_cases i % 8 <;> rfl

theorem and_mask_pos (e : UInt8) (i : ℕ) : e &&& mask i > 0 ↔ e.toNat.testBit (i % 8) = true := by
  rw [gt_iff_lt, UInt8.lt_iff_toNat_lt, UInt8.toNat_and, toNat_mask, Nat.and_two_pow]
  cases e.toNat.testBit (i % 8) <;> simp

/-- The bit `i` of the elements, whether it counts or is one of the unused bits of the last byte. -/
def raw (v : BitVector) (i : ℕ) : Bool := (v.elems.getD (i / 8) 0).toNat.testBit (i % 8)

theorem getIndex_eq_raw (v : BitVector) (i : ℕ) : v.getIndex i = (decide (i < v.bits) && v.raw i) := by
  unfold getIndex raw
  by_cases hi : v.bits ≤ i
  · simp [hi]
  · rw [if_neg hi, decide_eq_true (Nat.not_le.mp hi), Bool.true_and, Bool.eq_iff_iff,
      decide_eq_true_eq, and_mask_pos]

theorem testBit_not (e : UInt8) (k : ℕ) :
    (~~~e).toNat.testBit k = (decide (k < 8) && !e.toNat.testBit k) := by
  rw [← UInt8.toNat_toBitVec, ← UInt8.toNat_toBitVec, UInt8.toBitVec_not, BitVec.testBit_toNat,
    BitVec.testBit_toNat, BitVec.getLsbD_not]

theorem testBit_mask (i k : ℕ) : (mask i).toNat.testBit k = decide (i % 8 = k) := by
  rw [toNat_mask, Nat.testBit_two_pow]

/-- What `SetIndex` does to a byte, seen bit by bit. -/
theorem testBit_write (e : UInt8) (i : ℕ) (b : Bool) {k : ℕ} (hk : k < 8) :
    (if b then e ||| mask i else e &&& ~~~ mask i).toNat.testBit k =
      if i % 8 = k then b else e.toNat.testBit k := by
  cases b with
  | true =>
    rw [if_pos rfl, UInt8.toNat_or, Nat.testBit_or, testBit_mask]
    by_cases h : i % 8 = k <;> simp [h]
  | false =>
    rw [if_neg Bool.false_ne_true, UInt8.toNat_and, Nat.testBit_and, testBit_not, testBit_mask]
    by_cases h : i % 8 = k <;> simp [h, hk]

theorem WellFormed.div_lt (hv : v.WellFormed) (hi : i < v.bits) : i / 8 < v.elems.length := by
  rw [show v.elems.length = (v.bits + 7) / 8 from hv]
  omega

theorem setIndex_of_le (hi : v.bits ≤ i) (b : Bool) : v.setIndex i b = v := if_pos hi

theorem elems_setIndex (hi : i < v.bits) (b : Bool) :
    (v.setIndex i b).elems =
      v.elems.modify (i / 8) fun e => if b then e ||| mask i else e &&& ~~~ mask i := by
  rw [setIndex, if_neg (Nat.not_le.mpr hi)]
  cases b <;> rfl

/-- `SetIndex` writes one bit and leaves the others, the unused ones included. -/
theorem raw_setIndex (hv : v.WellFormed) (hi : i < v.bits) (b : Bool) (j : ℕ) :
    (v.setIndex i b).raw j = if i = j then b else v.raw j := by
  have hj : j % 8 < 8 := Nat.mod_lt _ (by decide)
  rw [raw, raw, elems_setIndex hi, List.getD_eq_getElem?_getD, List.getD_eq_getElem?_getD,
    List.getElem?_modify]
  by_cases hbyte : i / 8 = j / 8
  · have hlen : j / 8 < v.elems.length := hbyte ▸ hv.div_lt hi
    have hbit : i = j ↔ i % 8 = j % 8 := by omega
    simp only [hbyte, if_true, List.getElem?_eq_getElem hlen, Option.getD_some, hbit]
    exact testBit_write _ i b hj
  · have hne : i ≠ j := by
      intro h
      exact hbyte (by rw [h])
    simp [hbyte, hne]

theorem getIndex_setIndex (hv : v.WellFormed) (hi : i < v.bits) (b : Bool) (j : ℕ) :
    (v.setIndex i b).getIndex j = if i = j then b else v.getIndex j := by
  rw [getIndex_eq_raw, getIndex_eq_raw, bits_setIndex, raw_setIndex hv hi]
  by_cases hij : i = j
  · subst hij
    simp [hi]
  · rw [if_neg hij, if_neg hij]

theorem getIndex_setIndex_true (hv : v.WellFormed) (hi : i < v.bits) (j : ℕ) :
    (v.setIndex i true).getIndex j = (decide (i = j) || v.getIndex j) := by
  rw [getIndex_setIndex hv hi]
  by_cases hij : i = j <;> simp [hij]

/-- If the bits say which slots are filled, they still do after an entry and its bit are set. -/
theorem getIndex_setIndex_entry {α : Type} (hv : v.WellFormed) {l : List (Option α)}
    (hi : i < v.bits) (hlen : i < l.length) (h : ∀ j, v.getIndex j = (Slots.entry l j).isSome)
    (a : α) (j : ℕ) :
    (v.setIndex i true).getIndex j = (Slots.entry (l.set i (some a)) j).isSome := by
  rw [getIndex_setIndex_true hv hi, Slots.entry_set hlen, h]
  by_cases hj : j = i
  · simp [hj]
  · simp [hj, Ne.symm hj]

theorem countNoneZero_eq_card (v : BitVector) :
    v.countNoneZero = ((Finset.range v.bits).filter fun i => v.getIndex i = true).card := by
  have h : ∀ n, (List.range n).foldl (fun count i => if v.getIndex i then count + 1 else count) 0 =
      ((Finset.range n).filter fun i => v.getIndex i = true).card := by
    intro n
    induction n with
    | zero => rfl
    | succ n ih =>
      rw [List.range_succ, List.foldl_append, ih, Finset.range_add_one, Finset.filter_insert]
      by_cases hn : v.getIndex n = true
      · simp [hn]
      · simp [hn]
  exact h v.bits

/-! ## A loop that marks the entries of a list -/

section Marking

variable {α : Type} (p : α → Bool)

/-- The bits of the entries for which `p` holds are set; the first entry has index `i`. -/
def setWhere (v : BitVector) : ℕ → List α → BitVector
  | _, [] => v
  | i, a :: l => setWhere (if p a then v.setIndex i true else v) (i + 1) l

theorem WellFormed.setWhere (h : v.WellFormed) (i : ℕ) (l : List α) :
    (v.setWhere p i l).WellFormed := by
  induction l generalizing v i with
  | nil => exact h
  | cons a l ih =>
    rw [BitVector.setWhere]
    split_ifs
    · exact ih (h.setIndex i true) _
    · exact ih h _

theorem bits_setWhere (v : BitVector) (i : ℕ) (l : List α) : (v.setWhere p i l).bits = v.bits := by
  induction l generalizing v i with
  | nil => rfl
  | cons a l ih =>
    rw [setWhere, ih]
    split_ifs
    · exact bits_setIndex v i true
    · rfl

/-- The bits after the loop are those from before and those of the marked entries. -/
theorem getIndex_setWhere (h : v.WellFormed) {l : List α} (hl : i + l.length ≤ v.bits) (j : ℕ) :
    (v.setWhere p i l).getIndex j = (v.getIndex j || (decide (i ≤ j) && (l[j - i]?).any p)) := by
  induction l generalizing v i with
  | nil => simp [setWhere]
  | cons a l ih =>
    rw [List.length_cons] at hl
    have hstep : (if p a then v.setIndex i true else v).getIndex j =
        (v.getIndex j || (decide (i = j) && p a)) := by
      split_ifs with ha
      · rw [getIndex_setIndex_true h (by omega), ha, Bool.and_true, Bool.or_comm]
      · simp [ha]
    have hwf : (if p a then v.setIndex i true else v).WellFormed := h.setWhere p i [a]
    have hbits : (if p a then v.setIndex i true else v).bits = v.bits := bits_setWhere p v i [a]
    rw [setWhere, ih hwf (by omega), hstep, Bool.or_assoc]
    congr 1
    rcases Nat.lt_trichotomy i j with hij | rfl | hij
    · -- later entries: the index counts from the next one
      obtain ⟨k, rfl⟩ := Nat.exists_eq_add_of_lt hij
      have hne : i ≠ i + k + 1 := by omega
      have hle : i ≤ i + k + 1 := by omega
      have hle' : i + 1 ≤ i + k + 1 := by omega
      rw [show i + k + 1 - i = k + 1 by omega, show i + k + 1 - (i + 1) = k by omega]
      simp [hne, hle, hle']
    · simp
    · have hne : i ≠ j := by omega
      simp [hne, Nat.not_le.mpr hij, show ¬i + 1 ≤ j by omega]

end Marking

/-- A header of at most seven unused bits is read back as it was written. -/
theorem toInt_header {r : ℤ} (h₀ : 0 ≤ r) (h : r < 8) : (UInt8.ofInt r).toInt8.toInt = r := by
  interval_cases r <;> rfl

theorem newBitArrayFromByte_byte (h : v.WellFormed) : newBitArrayFromByte v.byte = some v := by
  have hlen : v.elems.length = (v.bits + 7) / 8 := h
  have hheader := toInt_header (r := 8 * (v.elems.length : ℤ) - v.bits) (by omega) (by omega)
  have hall : (v.elems.length : ℤ) * 8 - (8 * (v.elems.length : ℤ) - v.bits) = v.bits := by omega
  unfold byte newBitArrayFromByte
  simp only [hheader, hall]
  rw [if_neg (by omega), Int.toNat_natCast, newBitVector, if_pos (by simp [hlen])]
  simp [hlen]

theorem newBitArrayFromByte_eq_join (bz : Bytes) :
    newBitArrayFromByte bz = (readBitArray bz).join := by
  cases bz with
  | nil => rfl
  | cons h payload =>
    unfold newBitArrayFromByte readBitArray
    dsimp only
    by_cases hneg : (payload.length * 8 - h.toInt8.toInt : ℤ) < 0
    · simp only [if_pos hneg, Option.map_none]
      split_ifs <;> rfl
    · simp only [if_neg hneg, Option.map_some, Option.getD_some]
      split_ifs <;> rfl

theorem readBitArray_byte (h : v.WellFormed) : readBitArray v.byte = some (some v) :=
  Option.join_eq_some_iff.mp ((newBitArrayFromByte_eq_join v.byte).symm.trans
    (newBitArrayFromByte_byte h))

/-- **The bytes on which the reading of a bit vector panics.** -/
theorem isSome_readBitArray_iff (bz : Bytes) : (readBitArray bz).isSome ↔ Readable bz := by
  cases bz with
  | nil => exact iff_of_true rfl trivial
  | cons h payload =>
    have hpos : payload = [] ↔ payload.length = 0 := List.length_eq_zero_iff.symm
    unfold readBitArray Readable
    dsimp only
    rw [hpos]
    generalize hu : h.toInt8.toInt = u
    split_ifs with hneg hlen hlen
    · exact iff_of_true rfl (.inl (Nat.le_zero.mp hlen))
    · refine iff_of_false nofun ?_
      simp only [Option.map_none, Option.getD_none] at hlen
      omega
    · simp only [Option.map_some, Option.getD_some, newBitVector, List.length_replicate] at hlen
      exact iff_of_true rfl (.inr (by omega))
    · simp only [Option.map_some, Option.getD_some, newBitVector, List.length_replicate] at hlen
      exact iff_of_false nofun (by omega)

theorem wellFormed_of_readBitArray {bz : Bytes} {bv : BitVector}
    (h : readBitArray bz = some (some bv)) : bv.WellFormed := by
  cases bz with
  | nil =>
    obtain rfl := Option.some.inj (Option.some.inj h)
    exact wellFormed_newBitVector 0
  | cons head payload =>
    simp only [readBitArray] at h
    split_ifs at h with hneg hlen hlen
    · cases h
    · simp only [Option.map_some, Option.some.injEq, Option.getD_some] at h hlen
      subst h
      show (payload ++ List.drop payload.length _).length = _
      rw [List.length_append, List.length_drop, Nat.add_sub_cancel' hlen]
      exact wellFormed_newBitVector _

/-! ## Vectors that are written and sent -/

/-- The vector of `n` bits after a sequence of calls of `SetIndex`. -/
def written (n : ℕ) (writes : List (ℕ × Bool)) : BitVector :=
  writes.foldl (fun v w => v.setIndex w.1 w.2) (newBitVector n)

/-- The value that was written to `i` last, or `false`. -/
def lastWritten (writes : List (ℕ × Bool)) (i : ℕ) : Bool :=
  ((writes.filter fun w => w.1 = i).getLast?.map Prod.snd).getD false

theorem written_concat (n : ℕ) (writes : List (ℕ × Bool)) (w : ℕ × Bool) :
    written n (writes ++ [w]) = (written n writes).setIndex w.1 w.2 :=
  List.foldl_concat ..

theorem lastWritten_concat (writes : List (ℕ × Bool)) (w : ℕ × Bool) (i : ℕ) :
    lastWritten (writes ++ [w]) i = if w.1 = i then w.2 else lastWritten writes i := by
  by_cases h : w.1 = i <;> simp [lastWritten, List.filter_append, h]

theorem bits_written (n : ℕ) (writes : List (ℕ × Bool)) : (written n writes).bits = n := by
  induction writes using List.reverseRecOn with
  | nil => rfl
  | append_singleton writes w ih => rw [written_concat, bits_setIndex, ih]

theorem wellFormed_written (n : ℕ) (writes : List (ℕ × Bool)) : (written n writes).WellFormed := by
  induction writes using List.reverseRecOn with
  | nil => exact wellFormed_newBitVector n
  | append_singleton writes w ih =>
    rw [written_concat]
    exact ih.setIndex w.1 w.2

theorem getIndex_written (n : ℕ) (writes : List (ℕ × Bool)) (i : ℕ) :
    (written n writes).getIndex i = if i < n then lastWritten writes i else false := by
  induction writes using List.reverseRecOn with
  | nil =>
    rw [written, List.foldl_nil, getIndex_newBitVector]
    split_ifs <;> rfl
  | append_singleton writes w ih =>
    rw [written_concat, lastWritten_concat]
    by_cases hw : n ≤ w.1
    · -- a write past the end does nothing, and no bit that is read has its index
      rw [setIndex_of_le ((bits_written n writes).trans_le hw), ih]
      by_cases hi : i < n
      · rw [if_pos hi, if_pos hi, if_neg (by omega)]
      · rw [if_neg hi, if_neg hi]
    · have hlt : w.1 < (written n writes).bits := by
        rw [bits_written]
        exact Nat.not_le.mp hw
      rw [getIndex_setIndex (wellFormed_written n writes) hlt, ih]
      by_cases hwi : w.1 = i
      · rw [if_pos hwi, if_pos hwi, if_pos (by omega)]
      · rw [if_neg hwi, if_neg hwi]

/-- **A written vector is what was written.** After any calls of `SetIndex`, every element that an
index below `n` reads or writes is there, each bit is the value written last, writes past the end do
nothing, `CountNoneZero` counts the bits, and the vector comes back from its bytes. -/
theorem written_codec (n : ℕ) (writes : List (ℕ × Bool)) :
    (∀ i < n, i / 8 < (written n writes).elems.length) ∧
      (∀ i, (written n writes).getIndex i = if i < n then lastWritten writes i else false) ∧
      (∀ i b, n ≤ i → (written n writes).setIndex i b = written n writes) ∧
      (written n writes).countNoneZero =
        ((Finset.range n).filter fun i => lastWritten writes i = true).card ∧
      readBitArray (written n writes).byte = some (some (written n writes)) := by
  have hwf := wellFormed_written n writes
  have hbits := bits_written n writes
  refine ⟨?_, getIndex_written n writes, ?_, ?_, readBitArray_byte hwf⟩
  · intro i hi
    exact hwf.div_lt (hi.trans_eq hbits.symm)
  · intro i b hi
    exact setIndex_of_le (hbits.trans_le hi) b
  · rw [countNoneZero_eq_card, hbits]
    congr 1
    apply Finset.filter_congr
    intro i hi
    rw [getIndex_written, if_pos (Finset.mem_range.mp hi)]

/-! ## Bytes from elsewhere -/

/-- The bytes are read without a panic, into `nil` or a vector with the elements its bits need. -/
def Decodes (bz : Bytes) : Prop :=
  ∃ bv, readBitArray bz = some bv ∧ ∀ v, bv = some v → v.WellFormed

/-- If the header is one of 0 to 7 and a byte follows, the vector that is read has these bytes. -/
def Reencodes (bz : Bytes) : Prop :=
  ∀ head payload v, bz = head :: payload → payload ≠ [] → 0 ≤ head.toInt8.toInt →
    head.toInt8.toInt ≤ 7 → readBitArray bz = some (some v) → v.byte = bz

theorem decodes_iff (bz : Bytes) : Decodes bz ↔ Readable bz := by
  rw [← isSome_readBitArray_iff]
  constructor
  · rintro ⟨bv, hbv, -⟩
    rw [hbv]
    rfl
  · intro h
    obtain ⟨bv, hbv⟩ := Option.isSome_iff_exists.mp h
    refine ⟨bv, hbv, ?_⟩
    rintro v rfl
    exact wellFormed_of_readBitArray hbv

theorem ofInt_toInt_header {head : UInt8} (h₀ : 0 ≤ head.toInt8.toInt) (h : head.toInt8.toInt ≤ 7) :
    UInt8.ofInt head.toInt8.toInt = head := by
  have hinj : Function.Injective fun e : UInt8 => e.toInt8.toInt := by
    intro e e' he
    exact congrArg Int8.toUInt8 (Int8.toInt_inj.mp he)
  apply hinj
  exact toInt_header h₀ (by omega)

theorem reencodes (bz : Bytes) : Reencodes bz := by
  rintro head payload v rfl hne h₀ h7 hread
  have hpos : 0 < payload.length := List.length_pos_iff.mpr hne
  have hheader := ofInt_toInt_header h₀ h7
  unfold readBitArray at hread
  dsimp only at hread
  generalize hu : head.toInt8.toInt = u at *
  have hall : ¬(payload.length : ℤ) * 8 - u < 0 := by omega
  simp only [if_neg hall, Option.map_some, Option.getD_some] at hread
  split_ifs at hread with hlen
  -- with at most seven unused bits there are as many elements as payload bytes
  obtain ⟨k, hk⟩ := Int.eq_ofNat_of_zero_le (not_lt.mp hall)
  have helems : (newBitVector ((payload.length : ℤ) * 8 - u).toNat).elems.drop payload.length = [] := by
    rw [hk, Int.toNat_natCast, newBitVector, List.drop_replicate,
      show (k + 7) / 8 - payload.length = 0 by omega, List.replicate_zero]
  obtain rfl := Option.some.inj (Option.some.inj hread)
  rw [byte, helems, List.append_nil, ← hheader]
  congr 2
  show 8 * (payload.length : ℤ) - ((payload.length : ℤ) * 8 - u).toNat = u
  omega

/-- **Reading a bit vector from untrusted bytes.** Reading ends in a well-formed vector or `nil`,
and the vector gives the bytes back where it should, exactly for the bytes whose header claims at
most seven unused bits or which have nothing after the header. -/
theorem decodes_reencodes_iff (bz : Bytes) : Decodes bz ∧ Reencodes bz ↔ Readable bz := by
  rw [decodes_iff]
  constructor
  · intro h
    exact h.1
  · intro h
    exact ⟨h, reencodes bz⟩

/-- A header of eight unused bits before one byte leaves no element to write that byte to. -/
theorem not_decodes_eight : readBitArray [8, 0] = none ∧ ¬Decodes [8, 0] := by
  have hnone : readBitArray [8, 0] = none := by decide
  refine ⟨hnone, ?_⟩
  rintro ⟨bv, hbv, -⟩
  rw [hnone] at hbv
  cases hbv

end BitVector

end Emulator
