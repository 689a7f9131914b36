import Emulator.Utils.BitVector

/-!
# The algebra of bit vectors

`Or`, `And`, `Not` and `Sub` work byte by byte. The last byte of a vector has unused bits; `Not`
sets them, nothing clears them, and nobody masks them. Seen through `raw`, which reads these bits
too, the operations are

* `And` — the conjunction, which is right whatever the unused bits are;
* `Not` — the negation of every bit of every byte;
* `Or` — the disjunction, but only within the bytes of the receiver: the other vector's bits past
  them are lost;
* `Sub` — the difference, to which the unused bits of the subtrahend count.

`algebra_iff` says when the results are those of the bits.
-/

namespace Emulator.BitVector

variable {a b v : BitVector}

/-! ## Bytes -/

/-- `copyBits`: the elements are cut off, or zeros are added. -/
def copyBits (v : BitVector) (bits : ℕ) : BitVector :=
  ⟨bits, v.elems.take ((bits + 7) / 8) ++ List.replicate ((bits + 7) / 8 - v.elems.length) 0⟩

/-- The loop `for i := 0; i < n; i++ { c[i] = f(c[i], o[i]) }`; an index past an end panics. -/
def mergeElems (f : UInt8 → UInt8 → UInt8) : ℕ → List UInt8 → List UInt8 → Option (List UInt8)
  | 0, c, _ => some c
  | n + 1, x :: c, y :: o => (mergeElems f n c o).map (f x y :: ·)
  | _ + 1, _, _ => none

/-- The same loop on the elements of two vectors. -/
def merge (f : UInt8 → UInt8 → UInt8) (n : ℕ) (c o : BitVector) : Option BitVector :=
  (mergeElems f n c.elems o.elems).map fun elems => { c with elems := elems }

/-- A pointer to a bit vector; `NewBitVector` of a negative size is `nil`. -/
def Ref.newBitVector (bits : ℤ) : Option BitVector :=
  if bits < 0 then none else some (BitVector.newBitVector bits.toNat)

def Ref.size (bA : Option BitVector) : ℕ := (bA.map BitVector.size).getD 0

def Ref.getIndex (bA : Option BitVector) (i : ℕ) : Bool := (bA.map (·.getIndex i)).getD false

/-- `SetIndex`, by the vector it leaves. -/
def Ref.setIndex (bA : Option BitVector) (i : ℕ) (b : Bool) : Option BitVector :=
  bA.map (·.setIndex i b)

/-- `Or`; `none` is a panic, `some none` is `nil`. -/
def Ref.or : Option BitVector → Option BitVector → Option (Option BitVector)
  | none, none => some none
  | none, some o => some (some o)
  | some bA, none => some (some bA)
  | some bA, some o =>
    let c := bA.copyBits (max bA.bits o.bits)
    let smaller := min bA.elems.length o.elems.length
    (merge (· ||| ·) smaller c o).map some

def Ref.and : Option BitVector → Option BitVector → Option (Option BitVector)
  | some bA, some o =>
    let c := bA.copyBits (min bA.bits o.bits)
    (merge (· &&& ·) c.elems.length c o).map some
  | _, _ => some none

def Ref.not (bA : Option BitVector) : Option BitVector :=
  bA.map fun bA => { bA with elems := bA.elems.map (~~~ ·) }

def Ref.sub : Option BitVector → Option BitVector → Option (Option BitVector)
  | some bA, some o =>
    let c := bA.copyBits bA.bits
    let smaller := min bA.elems.length o.elems.length
    (merge (fun x y => x &&& ~~~y) smaller c o).map some
  | _, _ => some none

/-! ## The operations on the bits of the bytes -/

theorem raw_eq_false {i : ℕ} (h : v.elems.length ≤ i / 8) : v.raw i = false := by
  rw [raw, List.getD_eq_getElem?_getD, List.getElem?_eq_none h, Option.getD_none]
  exact Nat.zero_testBit _

theorem lt_of_raw {i : ℕ} (h : v.raw i = true) : i / 8 < v.elems.length := by
  by_contra hlen
  rw [raw_eq_false (Nat.not_lt.mp hlen)] at h
  cases h

theorem wellFormed_copyBits (v : BitVector) (bits : ℕ) : (v.copyBits bits).WellFormed := by
  unfold WellFormed copyBits
  rw [List.length_append, List.length_take, List.length_replicate]
  dsimp only
  omega

theorem raw_copyBits (v : BitVector) (bits i : ℕ) :
    (v.copyBits bits).raw i = (decide (i / 8 < (bits + 7) / 8) && v.raw i) := by
  by_cases hi : i / 8 < (bits + 7) / 8
  · rw [decide_eq_true hi, Bool.true_and]
    by_cases hlen : i / 8 < v.elems.length
    · have htake : i / 8 < (v.elems.take ((bits + 7) / 8)).length := by
        rw [List.length_take]
        omega
      rw [raw, raw, copyBits, List.getD_eq_getElem?_getD, List.getD_eq_getElem?_getD,
        List.getElem?_append_left htake, List.getElem?_take_of_lt hi]
    · -- past the old elements there are zeros
      have htake : (v.elems.take ((bits + 7) / 8)).length ≤ i / 8 := by
        rw [List.length_take]
        omega
      rw [raw_eq_false (Nat.not_lt.mp hlen), raw, copyBits, List.getD_eq_getElem?_getD,
        List.getElem?_append_right htake, List.getElem?_replicate]
      split_ifs
      · exact Nat.zero_testBit _
      · exact Nat.zero_testBit _
  · rw [decide_eq_false hi, Bool.false_and]
    apply raw_eq_false
    rw [show (v.copyBits bits).elems.length = (bits + 7) / 8 from wellFormed_copyBits v bits]
    exact Nat.not_lt.mp hi

theorem mergeElems_eq (f : UInt8 → UInt8 → UInt8) {n : ℕ} {c o : List UInt8} (hc : n ≤ c.length)
    (ho : n ≤ o.length) :
    ∃ r, mergeElems f n c o = some r ∧ r.length = c.length ∧
      ∀ k, r.getD k 0 = if k < n then f (c.getD k 0) (o.getD k 0) else c.getD k 0 := by
  induction n generalizing c o with
  | zero => exact ⟨c, rfl, rfl, fun k => rfl⟩
  | succ n ih =>
    cases c with
    | nil => cases hc
    | cons x c =>
      cases o with
      | nil => cases ho
      | cons y o =>
        obtain ⟨r, hr, hlen, hget⟩ := ih (Nat.le_of_succ_le_succ hc) (Nat.le_of_succ_le_succ ho)
        refine ⟨f x y :: r, by rw [mergeElems, hr, Option.map_some], congrArg Nat.succ hlen, ?_⟩
        intro k
        cases k with
        | zero => rfl
        | succ k =>
          simp only [List.getD_cons_succ, hget, Nat.succ_lt_succ_iff]

/-- The loop on a copy, with an operation that works bit by bit. -/
theorem merge_copyBits {f : UInt8 → UInt8 → UInt8} {g : Bool → Bool → Bool}
    (hf : ∀ x y : UInt8, ∀ k < 8, (f x y).toNat.testBit k = g (x.toNat.testBit k) (y.toNat.testBit k))
    {n bits : ℕ} (hn : n ≤ (bits + 7) / 8) (hb : n ≤ b.elems.length) :
    ∃ c, merge f n (a.copyBits bits) b = some c ∧ c.WellFormed ∧ c.bits = bits ∧
      ∀ i, c.raw i = if i / 8 < n then g (a.raw i) (b.raw i)
        else decide (i / 8 < (bits + 7) / 8) && a.raw i := by
  have hlen : (a.copyBits bits).elems.length = (bits + 7) / 8 := wellFormed_copyBits a bits
  obtain ⟨elems, helems, helen, hget⟩ := mergeElems_eq f (hn.trans_eq hlen.symm) hb
  refine ⟨⟨bits, elems⟩, by rw [merge, helems, Option.map_some]; rfl, helen.trans hlen, rfl, ?_⟩
  intro i
  rw [← raw_copyBits, raw, hget]
  split_ifs with hi
  · rw [hf _ _ _ (Nat.mod_lt _ (by decide))]
    refine congrArg (g · _) ((raw_copyBits a bits i).trans ?_)
    rw [decide_eq_true (hi.trans_le hn), Bool.true_and]
  · rfl

theorem or_some (ha : a.WellFormed) (hb : b.WellFormed) :
    ∃ c, Ref.or (some a) (some b) = some (some c) ∧ c.WellFormed ∧ c.bits = max a.bits b.bits ∧
      ∀ i, c.raw i = (a.raw i || (decide (i / 8 < a.elems.length) && b.raw i)) := by
  have hla : a.elems.length = (a.bits + 7) / 8 := ha
  have hlb : b.elems.length = (b.bits + 7) / 8 := hb
  obtain ⟨c, hc, hwf, hbits, hraw⟩ := merge_copyBits (a := a) (b := b) (f := (· ||| ·)) (g := or)
    (n := min a.elems.length b.elems.length) (fun x y k _ => by rw [UInt8.toNat_or, Nat.testBit_or])
    (show _ ≤ (max a.bits b.bits + 7) / 8 by omega) (by omega)
  refine ⟨c, by rw [Ref.or, hc, Option.map_some], hwf, hbits, fun i => ?_⟩
  have hia := @lt_of_raw a i
  have hib := @lt_of_raw b i
  rw [hraw]
  grind

theorem and_some (ha : a.WellFormed) (hb : b.WellFormed) :
    ∃ c, Ref.and (some a) (some b) = some (some c) ∧ c.WellFormed ∧ c.bits = min a.bits b.bits ∧
      ∀ i, c.raw i = (a.raw i && b.raw i) := by
  have hla : a.elems.length = (a.bits + 7) / 8 := ha
  have hlb : b.elems.length = (b.bits + 7) / 8 := hb
  have hlen : (a.copyBits (min a.bits b.bits)).elems.length = (min a.bits b.bits + 7) / 8 :=
    wellFormed_copyBits a (min a.bits b.bits)
  obtain ⟨c, hc, hwf, hbits, hraw⟩ := merge_copyBits (a := a) (b := b) (f := (· &&& ·)) (g := and)
    (fun x y k _ => by rw [UInt8.toNat_and, Nat.testBit_and]) hlen.le (by omega)
  refine ⟨c, by rw [Ref.and, hc, Option.map_some], hwf, hbits, fun i => ?_⟩
  have hia := @lt_of_raw a i
  have hib := @lt_of_raw b i
  rw [hraw]
  grind

theorem sub_some (ha : a.WellFormed) (b : BitVector) :
    ∃ c, Ref.sub (some a) (some b) = some (some c) ∧ c.WellFormed ∧ c.bits = a.bits ∧
      ∀ i, c.raw i = (a.raw i && !b.raw i) := by
  have hla : a.elems.length = (a.bits + 7) / 8 := ha
  obtain ⟨c, hc, hwf, hbits, hraw⟩ := merge_copyBits (a := a) (b := b) (f := fun x y => x &&& ~~~y)
    (g := fun x y => x && !y) (n := min a.elems.length b.elems.length) (fun x y k hk => by
      rw [UInt8.toNat_and, Nat.testBit_and, testBit_not, decide_eq_true hk, Bool.true_and])
    (show _ ≤ (a.bits + 7) / 8 by omega) (by omega)
  refine ⟨c, by rw [Ref.sub, hc, Option.map_some], hwf, hbits, fun i => ?_⟩
  have hia := @lt_of_raw a i
  have hib := @lt_of_raw b i
  rw [hraw]
  grind

theorem raw_not (v : BitVector) (i : ℕ) :
    BitVector.raw { v with elems := v.elems.map (~~~ ·) } i =
      (decide (i / 8 < v.elems.length) && !v.raw i) := by
  have hi : i % 8 < 8 := Nat.mod_lt _ (by decide)
  by_cases hlen : i / 8 < v.elems.length
  · rw [decide_eq_true hlen, Bool.true_and, raw, raw, List.getD_eq_getElem?_getD,
      List.getD_eq_getElem?_getD, List.getElem?_map, List.getElem?_eq_getElem hlen, Option.map_some,
      Option.getD_some, Option.getD_some, testBit_not, decide_eq_true hi, Bool.true_and]
  · rw [decide_eq_false hlen, Bool.false_and]
    exact raw_eq_false ((List.length_map ..).trans_le (Nat.not_lt.mp hlen))

/-! ## Vectors made by the operations -/

variable {a b : Option BitVector}

/-- The vectors that the constructor and the operations make. -/
inductive Built : Option BitVector → Prop
  | new (bits : ℤ) : Built (Ref.newBitVector bits)
  | setIndex {a : Option BitVector} (i : ℕ) (v : Bool) : Built a → Built (Ref.setIndex a i v)
  | or {a b c : Option BitVector} : Built a → Built b → Ref.or a b = some c → Built c
  | and {a b c : Option BitVector} : Built a → Built b → Ref.and a b = some c → Built c
  | not {a : Option BitVector} : Built a → Built (Ref.not a)
  | sub {a b c : Option BitVector} : Built a → Built b → Ref.sub a b = some c → Built c

/-- A vector, unless `nil`, has the elements its bits need. -/
def RefWellFormed (bA : Option BitVector) : Prop := ∀ v, bA = some v → v.WellFormed

theorem Built.wellFormed {bA : Option BitVector} (h : Built bA) : RefWellFormed bA := by
  induction h with
  | new bits =>
    intro v hv
    unfold Ref.newBitVector at hv
    split_ifs at hv
    obtain rfl := Option.some.inj hv
    exact wellFormed_newBitVector _
  | @setIndex a i b _ ih =>
    intro v hv
    obtain ⟨w, hw, rfl⟩ := Option.map_eq_some_iff.mp hv
    exact (ih w hw).setIndex i b
  | @or a b c _ _ hc iha ihb =>
    rintro v rfl
    cases a with
    | none =>
      cases b with
      | none => cases hc
      | some b => exact ihb v (Option.some.inj hc)
    | some a =>
      cases b with
      | none => exact iha v (Option.some.inj hc)
      | some b =>
        obtain ⟨c, hc', hwf, -⟩ := or_some (iha a rfl) (ihb b rfl)
        obtain rfl := Option.some.inj (Option.some.inj (hc'.symm.trans hc))
        exact hwf
  | @and a b c _ _ hc iha ihb =>
    rintro v rfl
    cases a with
    | none => cases hc
    | some a =>
      cases b with
      | none => cases hc
      | some b =>
        obtain ⟨c, hc', hwf, -⟩ := and_some (iha a rfl) (ihb b rfl)
        obtain rfl := Option.some.inj (Option.some.inj (hc'.symm.trans hc))
        exact hwf
  | @not a _ ih =>
    intro v hv
    obtain ⟨w, hw, rfl⟩ := Option.map_eq_some_iff.mp hv
    exact (List.length_map ..).trans (ih w hw)
  | @sub a b c _ _ hc iha _ =>
    rintro v rfl
    cases a with
    | none => cases hc
    | some a =>
      cases b with
      | none => cases hc
      | some b =>
        obtain ⟨c, hc', hwf, -⟩ := sub_some (iha a rfl) b
        obtain rfl := Option.some.inj (Option.some.inj (hc'.symm.trans hc))
        exact hwf

/-! ## The algebra -/

/-- `Or` gives the larger size and the disjunction of the bits. -/
def OrExact (a b : Option BitVector) : Prop :=
  ∃ c, Ref.or a b = some c ∧ Ref.size c = max (Ref.size a) (Ref.size b) ∧
    ∀ i, Ref.getIndex c i = (Ref.getIndex a i || Ref.getIndex b i)

/-- `And` gives the smaller size and the conjunction of the bits. -/
def AndExact (a b : Option BitVector) : Prop :=
  ∃ c, Ref.and a b = some c ∧ Ref.size c = min (Ref.size a) (Ref.size b) ∧
    ∀ i, Ref.getIndex c i = (Ref.getIndex a i && Ref.getIndex b i)

/-- `Not` flips every bit. -/
def NotExact (a : Option BitVector) : Prop :=
  Ref.size (Ref.not a) = Ref.size a ∧
    ∀ i < Ref.size a, Ref.getIndex (Ref.not a) i = !Ref.getIndex a i

/-- `Sub` keeps the size and gives the difference of the bits. -/
def SubExact (a b : Option BitVector) : Prop :=
  ∃ c, Ref.sub a b = some c ∧ Ref.size c = Ref.size a ∧
    ∀ i, Ref.getIndex c i = (Ref.getIndex a i && !Ref.getIndex b i)

/-- An unused bit of the last byte is set. -/
def Unused (v : BitVector) (i : ℕ) : Prop := v.bits ≤ i ∧ v.raw i = true

/-- What `Or` needs: `b` has no bit past the bytes of `a`, and the unused bits that are set in one
vector are set in the other where they count there. -/
def OrFits : Option BitVector → Option BitVector → Prop
  | some a, some b => ∀ i,
    (b.getIndex i = true → i / 8 < a.elems.length) ∧
      (b.Unused i → i < a.bits → a.getIndex i = true) ∧
      (a.Unused i → i < b.bits → b.getIndex i = true)
  | _, _ => True

/-- What `Sub` needs: no unused bit that is set in `b` is a bit of `a`, and `b` is not `nil` unless
there is nothing to subtract from. -/
def SubFits : Option BitVector → Option BitVector → Prop
  | some a, some b => ∀ i, b.Unused i → a.getIndex i = false
  | some a, none => a.bits = 0
  | none, _ => True

theorem exists_result_iff {x : Option (Option BitVector)} {c : Option BitVector} {n : ℕ}
    {f : ℕ → Bool} (hx : x = some c) (hsize : Ref.size c = n) :
    (∃ c', x = some c' ∧ Ref.size c' = n ∧ ∀ i, Ref.getIndex c' i = f i) ↔
      ∀ i, Ref.getIndex c i = f i := by
  constructor
  · rintro ⟨c', hc', -, hget⟩
    obtain rfl := Option.some.inj (hc'.symm.trans hx)
    exact hget
  · exact fun hget => ⟨c, hx, hsize, hget⟩

section

variable (ha : RefWellFormed a)

include ha

theorem andExact (hb : RefWellFormed b) : AndExact a b := by
  cases a with
  | none => exact ⟨none, rfl, (Nat.zero_min _).symm, fun i => rfl⟩
  | some a =>
    cases b with
    | none => exact ⟨none, rfl, (Nat.min_zero _).symm, fun i => (Bool.and_false _).symm⟩
    | some b =>
      obtain ⟨c, hc, -, hbits, hraw⟩ := and_some (ha a rfl) (hb b rfl)
      refine ⟨some c, hc, hbits, ?_⟩
      intro i
      show c.getIndex i = (a.getIndex i && b.getIndex i)
      rw [getIndex_eq_raw, getIndex_eq_raw, getIndex_eq_raw, hraw, hbits, Bool.eq_iff_iff]
      simp only [Bool.and_eq_true, decide_eq_true_eq, Nat.lt_min]
      tauto

theorem notExact : NotExact a := by
  cases a with
  | none => exact ⟨rfl, fun i hi => by cases hi⟩
  | some a =>
    refine ⟨rfl, ?_⟩
    intro i hi
    have hi : i < a.bits := hi
    show BitVector.getIndex { a with elems := a.elems.map (~~~ ·) } i = !a.getIndex i
    rw [getIndex_eq_raw, getIndex_eq_raw, raw_not, decide_eq_true hi,
      decide_eq_true ((ha a rfl).div_lt hi), Bool.true_and, Bool.true_and, Bool.true_and]

theorem orExact_iff (hb : RefWellFormed b) : OrExact a b ↔ OrFits a b := by
  cases a with
  | none =>
    refine iff_of_true ?_ trivial
    cases b with
    | none => exact ⟨none, rfl, rfl, fun i => rfl⟩
    | some b => exact ⟨some b, rfl, (Nat.zero_max _).symm, fun i => rfl⟩
  | some a =>
    cases b with
    | none =>
      exact iff_of_true ⟨some a, rfl, (Nat.max_zero _).symm, fun i => (Bool.or_false _).symm⟩ trivial
    | some b =>
      obtain ⟨c, hc, -, hbits, hraw⟩ := or_some (ha a rfl) (hb b rfl)
      refine (exists_result_iff hc hbits).trans (forall_congr' fun i => ?_)
      have hia : i < a.bits → i / 8 < a.elems.length := (ha a rfl).div_lt
      have hra := @lt_of_raw a i
      show c.getIndex i = (a.getIndex i || b.getIndex i) ↔ _
      rw [Bool.eq_iff_iff, Bool.or_eq_true]
      simp only [getIndex_eq_raw, Unused, hraw, hbits, Bool.and_eq_true, Bool.or_eq_true,
        decide_eq_true_eq, lt_max_iff, ← Nat.not_lt]
      by_cases hlta : i < a.bits
      · -- the byte is one of `a`, and only an unused bit of `b` can make a difference
        by_cases hltb : i < b.bits
        · simp [hlta, hltb, hia hlta]
        · simp [hlta, hltb, hia hlta]
      · by_cases hltb : i < b.bits
        · simp only [hlta, hltb, false_and, true_and, false_or, or_true, not_false_eq_true,
            not_true_eq_false, false_implies, true_implies]
          constructor
          · intro h
            exact ⟨fun hb => (h.mpr hb).elim hra fun h' => h'.1, fun ha => h.mp (.inl ha)⟩
          · intro h
            exact ⟨fun hab => hab.elim h.2 fun h' => h'.2, fun hb => .inr ⟨h.1 hb, hb⟩⟩
        · simp [hlta, hltb]

theorem subExact_iff : SubExact a b ↔ SubFits a b := by
  cases a with
  | none => exact iff_of_true ⟨none, rfl, rfl, fun i => rfl⟩ trivial
  | some a =>
    cases b with
    | none =>
      constructor
      · rintro ⟨c, hc, hsize, -⟩
        obtain rfl := Option.some.inj hc
        exact hsize.symm
      · intro hzero
        have hzero : a.bits = 0 := hzero
        refine ⟨none, rfl, hzero.symm, ?_⟩
        intro i
        show false = (a.getIndex i && true)
        rw [getIndex_eq_raw, decide_eq_false (by omega), Bool.false_and, Bool.false_and]
    | some b =>
      obtain ⟨c, hc, -, hbits, hraw⟩ := sub_some (ha a rfl) b
      refine (exists_result_iff hc hbits).trans (forall_congr' fun i => ?_)
      show c.getIndex i = (a.getIndex i && !b.getIndex i) ↔ _
      rw [Bool.eq_iff_iff]
      simp only [getIndex_eq_raw, Unused, hraw, hbits, Bool.and_eq_true, Bool.not_eq_true',
        decide_eq_true_eq, ← Nat.not_lt, ← Bool.not_eq_true]
      tauto

end

/-- **The algebra of bit vectors.** On vectors made by any combination of the operations, `And` and
`Not` are those of the bits, and `Or` and `Sub` are exactly where the bytes do not get in the
way. -/
theorem algebra_iff {a b : Option BitVector} (ha : Built a) (hb : Built b) :
    AndExact a b ∧ NotExact a ∧ (OrExact a b ↔ OrFits a b) ∧ (SubExact a b ↔ SubFits a b) :=
  ⟨andExact ha.wellFormed hb.wellFormed, notExact ha.wellFormed,
    orExact_iff ha.wellFormed hb.wellFormed, subExact_iff ha.wellFormed⟩

theorem raw_newBitVector (n i : ℕ) : (newBitVector n).raw i = false := by
  rw [raw, newBitVector, List.getD_eq_getElem?_getD, List.getElem?_replicate]
  split_ifs
  · exact Nat.zero_testBit _
  · exact Nat.zero_testBit _

/-- Three bits of which one is set, and three that are not. -/
theorem algebra_three :
    OrExact (some ((newBitVector 3).setIndex 1 true)) (some (newBitVector 3)) ∧
      SubExact (some ((newBitVector 3).setIndex 1 true)) (some (newBitVector 3)) := by
  have ha : Built (some ((newBitVector 3).setIndex 1 true)) := .setIndex 1 true (.new 3)
  have hb : Built (some (newBitVector 3)) := .new 3
  obtain ⟨-, -, hor, hsub⟩ := algebra_iff ha hb
  refine ⟨hor.mpr ?_, hsub.mpr ?_⟩
  · intro i
    refine ⟨?_, ?_, ?_⟩
    · intro h
      rw [getIndex_newBitVector] at h
      cases h
    · rintro ⟨-, h⟩
      rw [raw_newBitVector] at h
      cases h
    · rintro ⟨hle, -⟩ hlt
      exact absurd hlt (Nat.not_lt.mpr hle)
  · rintro i ⟨-, h⟩
    rw [raw_newBitVector] at h
    cases h

/-- `Or` of one bit with sixteen loses bit 9, which lies past the only byte of the first. `Sub` of
`Not` of three empty bits clears bit 5 as well, which is an unused bit of the subtrahend. -/
theorem not_algebra_lost :
    (Built (some (newBitVector 1)) ∧ Built (some ((newBitVector 16).setIndex 9 true)) ∧
      (∃ c, Ref.or (some (newBitVector 1)) (some ((newBitVector 16).setIndex 9 true)) = some (some c) ∧
        c.getIndex 9 = false ∧ ((newBitVector 16).setIndex 9 true).getIndex 9 = true) ∧
      ¬OrExact (some (newBitVector 1)) (some ((newBitVector 16).setIndex 9 true))) ∧
    (Built (Ref.not (some (newBitVector 8))) ∧ Built (Ref.not (some (newBitVector 3))) ∧
      (∃ c, Ref.sub (Ref.not (some (newBitVector 8))) (Ref.not (some (newBitVector 3))) = some c ∧
        Ref.getIndex c 5 = false ∧ Ref.getIndex (Ref.not (some (newBitVector 8))) 5 = true ∧
        Ref.getIndex (Ref.not (some (newBitVector 3))) 5 = false) ∧
      ¬SubExact (Ref.not (some (newBitVector 8))) (Ref.not (some (newBitVector 3)))) := by
  have hor : Ref.or (some (newBitVector 1)) (some ((newBitVector 16).setIndex 9 true)) =
      some (some ⟨16, [0, 0]⟩) := by decide
  have hsub : Ref.sub (Ref.not (some (newBitVector 8))) (Ref.not (some (newBitVector 3))) =
      some (some ⟨8, [0]⟩) := by decide
  refine ⟨⟨.new 1, .setIndex 9 true (.new 16), ⟨_, hor, by decide, by decide⟩, ?_⟩,
    .not (.new 8), .not (.new 3), ⟨_, hsub, by decide, by decide, by decide⟩, ?_⟩
  · rintro ⟨c, hc, -, hget⟩
    obtain rfl := Option.some.inj (hor.symm.trans hc)
    exact absurd (hget 9) (by decide)
  · rintro ⟨c, hc, -, hget⟩
    obtain rfl := Option.some.inj (hsub.symm.trans hc)
    exact absurd (hget 5) (by decide)

end Emulator.BitVector
