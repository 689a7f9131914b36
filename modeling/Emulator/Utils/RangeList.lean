import Mathlib.Algebra.Group.Nat.Even
import Mathlib.Data.List.Lex
import Mathlib.Order.Interval.Set.Basic
import Emulator.Base
import Emulator.Lib.Boundaries
import Emulator.Lib.Run

/-!
# `utils.RangeList`

The key ranges of a shard, as a list of boundaries: `lists[0]` up to `lists[1]` is in, `lists[1]` up
to `lists[2]` is out. A place is an index of the list or `-1`, and the places with an even index are
the red ones, where a range is open.

An index or a slice out of bounds panics, which is `none` here. The loop of `find` has fuel; one
turn more than the list has boundaries is enough when they are increasing, and running out of it
would be `none` as well.
-/

namespace Emulator

/-- `RangeList`; `none` is a `nil` slice. -/
structure RangeList where
  lists : Option (List Str)
  deriving DecidableEq, Repr

def newRangeList : RangeList := ⟨none⟩

namespace RangeList

/-- The order of Go strings compares bytes. -/
scoped instance linearOrderUInt8 : LinearOrder UInt8 where
  le_refl := UInt8.le_refl
  le_trans _ _ _ := UInt8.le_trans
  le_antisymm _ _ := UInt8.le_antisymm
  le_total := UInt8.le_total
  lt_iff_le_not_ge a b := by
    rw [UInt8.not_le]
    exact ⟨fun h => ⟨UInt8.le_of_lt h, h⟩, fun h => h.2⟩
  toDecidableLE := inferInstance

variable (r : RangeList)

def items : List Str := r.lists.getD []

def range : List (List Str) :=
  (List.range (r.items.length / 2)).map fun i =>
    [r.items.getD (i * 2) [], r.items.getD (i * 2 + 1) []]

def nilRagne : Bool := r.items.length == 0

def get (plc : ℤ) : Option Str := if plc < 0 then none else r.items[plc.toNat]?

def stepThere (s : Str) (plc : ℤ) : Option Bool :=
  if 0 ≤ plc then (r.get plc).map fun x => x = s else some false

def goodPlace (s : Str) (plc : ℤ) : Option Bool :=
  (if plc = -1 then some true else (r.get plc).map fun x => x ≤ s).bind fun low =>
    if low then
      if plc = r.items.length - 1 then some true else (r.get (plc + 1)).map fun x => s < x
    else some false

/-- The loop of `find`; division truncates towards zero. -/
def findLoop (s : Str) : ℕ → ℤ → ℤ → Option ℤ
  | 0, _, _ => none
  | fuel + 1, start, finish =>
    let plc := (start + finish).tdiv 2
    (r.goodPlace s plc).bind fun good =>
      if good then some plc
      else
        (r.get plc).bind fun x =>
          if s < x then findLoop s fuel start (plc - 1) else findLoop s fuel (plc + 1) finish

def find (s : Str) : Option ℤ := r.findLoop s (r.items.length + 1) (-1) (r.items.length - 1)

/-- `redPlace`, with the remainder of truncated division. -/
def redPlace (plc : ℤ) : Bool := plc.tmod 2 = 0

def leftRange (plc : ℤ) : Option (List Str) :=
  if plc = -1 then some []
  else if 0 ≤ plc ∧ plc ≤ r.items.length then some (r.items.take plc.toNat)
  else none

def rightRange (plc : ℤ) : Option (List Str) :=
  if plc = r.items.length - 1 then some []
  else if 0 ≤ plc + 1 ∧ plc + 1 ≤ r.items.length then some (r.items.drop (plc + 1).toNat)
  else none

def search (p : Str) : Option Bool := (r.find p).map redPlace

/-- What `AddRange` keeps to the left of the new range, and where the new range begins. -/
def addLeft (rangeLow : Str) (pl : ℤ) : Option (List Str × Str) :=
  if redPlace pl then do
    let plList ← r.leftRange pl
    let low ← r.get pl
    pure (plList, low)
  else do
    let there ← r.stepThere rangeLow pl
    if there then
      let plList ← r.leftRange (pl - 1)
      let low ← r.get (pl - 1)
      pure (plList, low)
    else
      let plList ← r.leftRange (pl + 1)
      pure (plList, rangeLow)

/-- Where the new range of `AddRange` ends, and what is kept to the right of it. -/
def addRight (rangeHigh : Str) (pr : ℤ) : Option (Str × List Str) :=
  if redPlace pr then do
    let prList ← r.rightRange (pr + 1)
    let high ← r.get (pr + 1)
    pure (high, prList)
  else do
    let there ← r.stepThere rangeHigh pr
    let prList ← r.rightRange pr
    if there then
      let high ← r.get pr
      pure (high, prList)
    else pure (rangeHigh, prList)

def addRange (rangeLow rangeHigh : Str) : Option RangeList :=
  if rangeHigh ≤ rangeLow then some r
  else if r.nilRagne then some ⟨some (r.items ++ [rangeLow, rangeHigh])⟩
  else do
    let pl ← r.find rangeLow
    let pr ← r.find rangeHigh
    if pr = pl ∧ redPlace pl then some r
    else
      let (plList, low) ← r.addLeft rangeLow pl
      let (high, prList) ← r.addRight rangeHigh pr
      pure ⟨some (plList ++ [low, high] ++ prList)⟩

/-- What `DeleteRange` keeps to the left, and the boundary that ends it. -/
def deleteLeft (rangeLow : Str) (pl : ℤ) : Option (List Str × List Str) :=
  if redPlace pl then do
    let there ← r.stepThere rangeLow pl
    if there then
      let plList ← r.leftRange pl
      pure (plList, [])
    else
      let plList ← r.leftRange (pl + 1)
      pure (plList, [rangeLow])
  else do
    let plList ← r.leftRange (pl + 1)
    pure (plList, [])

/-- The boundary that begins what `DeleteRange` keeps to the right, and the rest of it. -/
def deleteRight (rangeHigh : Str) (pr : ℤ) : Option (List Str × List Str) :=
  if redPlace pr then do
    let there ← r.stepThere rangeHigh pr
    if there then
      let prList ← r.rightRange (pr - 1)
      pure ([], prList)
    else
      let prList ← r.rightRange pr
      pure ([rangeHigh], prList)
  else do
    let prList ← r.rightRange pr
    pure ([], prList)

def deleteRange (rangeLow rangeHigh : Str) : Option RangeList :=
  if rangeHigh ≤ rangeLow then some r
  else if r.nilRagne then some r
  else do
    let pl ← r.find rangeLow
    let pr ← r.find rangeHigh
    if pr = pl ∧ !redPlace pl then some r
    else
      let (plList, low) ← r.deleteLeft rangeLow pl
      let (high, prList) ← r.deleteRight rangeHigh pr
      pure ⟨some (plList ++ (low ++ high) ++ prList)⟩

/-- `Add`, on what `Range` of the other store returned. -/
def add (ranges : List (List Str)) : Option RangeList :=
  ranges.foldlM (fun r rg =>
    match rg with
    | [rangeLow, rangeHigh] => r.addRange rangeLow rangeHigh
    | _ => some r) r

/-! ## The binary search -/

open Boundaries

variable {r}

theorem get_natCast (k : ℕ) : r.get k = r.items[k]? := by
  rw [get, if_neg (by omega), Int.toNat_natCast]

theorem exists_get {plc : ℤ} (h : 0 ≤ plc) (hlt : plc < r.items.length) :
    ∃ x, r.get plc = some x ∧ r.items[plc.toNat]? = some x := by
  obtain ⟨k, rfl⟩ := Int.eq_ofNat_of_zero_le h
  refine ⟨r.items[k], ?_, ?_⟩
  · rw [get_natCast]
    exact List.getElem?_eq_getElem (by omega)
  · exact List.getElem?_eq_getElem (by omega)

variable (hl : r.items.Pairwise (· < ·))

include hl in
theorem goodPlace_eq (s : Str) {plc : ℤ} (hplc : -1 ≤ plc)
    (hlt : plc < r.items.length) :
    r.goodPlace s plc = some (decide (plc = below r.items s - 1)) := by
  have hlen := below_le_length r.items s
  have hlow : (if plc = -1 then some true else (r.get plc).map fun x => decide (x ≤ s)) =
      some (decide (plc < below r.items s)) := by
    by_cases hneg : plc = -1
    · rw [if_pos hneg, eq_comm, Option.some.injEq, decide_eq_true_eq]
      omega
    · obtain ⟨x, hx, hxk⟩ := exists_get (show 0 ≤ plc by omega) hlt
      rw [if_neg hneg, hx, Option.map_some, Option.some.injEq, decide_eq_decide,
        le_iff_lt_below hl hxk]
      omega
  rw [goodPlace, hlow, Option.bind_some]
  by_cases hb : plc < below r.items s
  · rw [if_pos (decide_eq_true hb)]
    by_cases hlast : plc = r.items.length - 1
    · rw [if_pos hlast, eq_comm, Option.some.injEq, decide_eq_true_eq]
      omega
    · obtain ⟨x, hx, hxk⟩ := exists_get (show 0 ≤ plc + 1 by omega)
        (show plc + 1 < r.items.length by omega)
      rw [if_neg hlast, hx, Option.map_some, Option.some.injEq, decide_eq_decide, ← not_le,
        le_iff_lt_below hl hxk]
      omega
  · rw [if_neg (by simpa using hb), eq_comm, Option.some.injEq, decide_eq_false_iff_not]
    omega

/-- The middle of two places lies between them, and it is `-1` only when both are. -/
theorem tdiv_two_bounds {start finish : ℤ} (hstart : -1 ≤ start) (hle : start ≤ finish) :
    start ≤ (start + finish).tdiv 2 ∧ (start + finish).tdiv 2 ≤ finish ∧
      ((start + finish).tdiv 2 < 0 → finish = -1) := by
  by_cases hpos : 0 ≤ start + finish
  · rw [Int.tdiv_eq_ediv_of_nonneg hpos]
    omega
  · obtain rfl : start = -1 := by omega
    obtain rfl | rfl : finish = -1 ∨ finish = 0 := by omega
    · decide
    · decide

include hl in
/-- The loop keeps the good place between its ends, and every turn brings them closer. -/
theorem findLoop_eq (s : Str) {fuel : ℕ} {start finish : ℤ}
    (hstart : -1 ≤ start) (hfinish : finish < r.items.length)
    (hlow : start ≤ below r.items s - 1) (hhigh : (below r.items s : ℤ) - 1 ≤ finish)
    (hfuel : finish - start < fuel) :
    r.findLoop s fuel start finish = some ((below r.items s : ℤ) - 1) := by
  induction fuel generalizing start finish with
  | zero => omega
  | succ fuel ih =>
    obtain ⟨plc, hplc⟩ : ∃ plc, plc = (start + finish).tdiv 2 := ⟨_, rfl⟩
    have hmid := tdiv_two_bounds hstart (hlow.trans hhigh)
    rw [← hplc] at hmid
    rw [findLoop, ← hplc, goodPlace_eq hl s (by omega) (by omega), Option.bind_some]
    by_cases hgood : plc = below r.items s - 1
    · rw [if_pos (decide_eq_true hgood), hgood]
    · -- the place `-1` is tried only when nothing else is left, and then it is good
      obtain ⟨x, hx, hxk⟩ := exists_get (show 0 ≤ plc by omega) (show plc < r.items.length by omega)
      have hxs := le_iff_lt_below (p := s) hl hxk
      rw [if_neg (by simpa using hgood), hx, Option.bind_some]
      by_cases hs : s < x
      · rw [if_pos hs]
        have hnle := mt hxs.mpr (not_le.mpr hs)
        exact ih hstart (by omega) hlow (by omega) (by omega)
      · rw [if_neg hs]
        have hbelow := hxs.mp (not_lt.mp hs)
        exact ih (by omega) hfinish (by omega) hhigh (by omega)

include hl in
/-- **Binary search**: on increasing boundaries `find` ends, stays within the list and returns the
place of the last boundary at or below `s`. -/
theorem find_eq (s : Str) :
    r.find s = some ((below r.items s : ℤ) - 1) := by
  have hlen := below_le_length r.items s
  exact findLoop_eq hl s le_rfl (by omega) (by omega) (by omega) (by omega)

/-- `plc` is the last boundary at or below `s`, or `-1` when there is none. -/
def IsPlace (r : RangeList) (s : Str) (plc : ℤ) : Prop :=
  (-1 ≤ plc ∧ plc ≤ r.items.length - 1) ∧
    (plc = -1 ∨ ∃ x, r.get plc = some x ∧ x ≤ s) ∧
    (plc = r.items.length - 1 ∨ ∃ x, r.get (plc + 1) = some x ∧ s < x)

include hl in
theorem isPlace_iff (s : Str) (plc : ℤ) :
    r.IsPlace s plc ↔ plc = (below r.items s : ℤ) - 1 := by
  have hlen := below_le_length r.items s
  constructor
  · rintro ⟨⟨hge, hle⟩, hlow, hhigh⟩
    have hbelow : plc < below r.items s := by
      rcases hlow with rfl | ⟨x, hx, hxs⟩
      · omega
      · obtain ⟨k, rfl⟩ : ∃ k : ℕ, plc = k := by
          refine Int.eq_ofNat_of_zero_le ?_
          by_contra hneg
          rw [get, if_pos (by omega)] at hx
          cases hx
        rw [get_natCast] at hx
        have := (le_iff_lt_below hl hx).mp hxs
        omega
    rcases hhigh with hlast | ⟨x, hx, hsx⟩
    · omega
    · obtain ⟨k, hk⟩ := Int.eq_ofNat_of_zero_le (show 0 ≤ plc + 1 by omega)
      rw [hk] at hx
      have hx' : r.items[k]? = some x := (get_natCast k).symm.trans hx
      have := mt (le_iff_lt_below hl hx').mpr (not_le.mpr hsx)
      omega
  · intro hplc
    refine ⟨by omega, ?_, ?_⟩
    · by_cases hneg : plc = -1
      · exact Or.inl hneg
      · obtain ⟨x, hx, hxk⟩ := exists_get (show 0 ≤ plc by omega) (show plc < r.items.length by omega)
        exact Or.inr ⟨x, hx, (le_iff_lt_below hl hxk).mpr (by omega)⟩
    · by_cases hlast : plc = r.items.length - 1
      · exact Or.inl hlast
      · obtain ⟨x, hx, hxk⟩ := exists_get (show 0 ≤ plc + 1 by omega)
          (show plc + 1 < r.items.length by omega)
        refine Or.inr ⟨x, hx, ?_⟩
        rw [← not_le, le_iff_lt_below hl hxk]
        omega

/-- **The place that `find` returns**: on increasing boundaries the loop ends, after no more turns
than there are places, without an index outside the list, and with the one place of `s`. -/
theorem find_isPlace (r : RangeList) (hl : r.items.Pairwise (· < ·)) (s : Str) :
    ∃ plc, r.find s = some plc ∧ r.IsPlace s plc ∧ (∀ plc', r.IsPlace s plc' → plc' = plc) ∧
      ∀ fuel, r.items.length < fuel →
        r.findLoop s fuel (-1) (r.items.length - 1) = some plc := by
  refine ⟨_, find_eq hl s, (isPlace_iff hl s _).mpr rfl, ?_, ?_⟩
  · intro plc' hplc'
    exact (isPlace_iff hl s plc').mp hplc'
  · intro fuel hfuel
    have hlen := below_le_length r.items s
    exact findLoop_eq hl s le_rfl (by omega) (by omega) (by omega) (by omega)

/-- The place between two boundaries, and the place in an empty list. -/
theorem find_isPlace_range :
    (∃ plc, find ⟨some [[1], [3]]⟩ [2] = some plc ∧ IsPlace ⟨some [[1], [3]]⟩ [2] plc) ∧
      ∃ plc, find ⟨none⟩ [2] = some plc ∧ IsPlace ⟨none⟩ [2] plc := by
  obtain ⟨plc, hfind, hplc, -⟩ := find_isPlace ⟨some [[1], [3]]⟩ (by decide) [2]
  obtain ⟨plc', hfind', hplc', -⟩ := find_isPlace ⟨none⟩ (by decide) [2]
  exact ⟨⟨plc, hfind, hplc⟩, plc', hfind', hplc'⟩

@[simp] theorem redPlace_natCast_sub_one (n : ℕ) : redPlace ((n : ℤ) - 1) = decide (n % 2 = 1) := by
  rw [redPlace, decide_eq_decide]
  cases n with
  | zero => decide
  | succ n =>
    rw [Int.natCast_succ, Int.add_sub_cancel, Int.tmod_eq_emod_of_nonneg (by omega)]
    omega

include hl in
theorem search_eq (p : Str) :
    r.search p = some (decide (below r.items p % 2 = 1)) := by
  rw [search, find_eq hl, Option.map_some, redPlace_natCast_sub_one]

/-! ## The operations -/

theorem stepThere_eq (r : RangeList) (s : Str) :
    ∃ there, r.stepThere s ((below r.items s : ℤ) - 1) = some there ∧
      (there = true ↔ IsBoundary r.items s) := by
  have hlen := below_le_length r.items s
  unfold stepThere
  cases hb : below r.items s with
  | zero =>
    refine ⟨false, if_neg (by omega), ?_⟩
    simp [IsBoundary, hb]
  | succ k =>
    have hk : k < r.items.length := by omega
    rw [Int.natCast_succ, Int.add_sub_cancel, if_pos (by omega), get_natCast,
      List.getElem?_eq_getElem hk, Option.map_some]
    refine ⟨_, rfl, ?_⟩
    rw [decide_eq_true_eq, IsBoundary]
    constructor
    · intro hx
      exact ⟨k, hb, by rw [List.getElem?_eq_getElem hk, hx]⟩
    · rintro ⟨k', hk', hx⟩
      obtain rfl : k = k' := by omega
      rw [List.getElem?_eq_getElem hk] at hx
      exact Option.some.inj hx

theorem leftRange_natCast {k : ℕ} (hk : k ≤ r.items.length) :
    r.leftRange k = some (r.items.take k) := by
  rw [leftRange, if_neg (by omega), if_pos (by omega), Int.toNat_natCast]

theorem rightRange_natCast_sub_one {k : ℕ} (hk : k ≤ r.items.length) :
    r.rightRange ((k : ℤ) - 1) = some (r.items.drop k) := by
  unfold rightRange
  by_cases hlast : k = r.items.length
  · rw [if_pos (by omega), hlast, List.drop_length]
  · rw [if_neg (by omega), if_pos (by omega), Int.sub_add_cancel, Int.toNat_natCast]

theorem exists_leftRange_get {k : ℕ} (hk : k < r.items.length) :
    ∃ x, r.leftRange k = some (r.items.take k) ∧ r.get k = some x ∧
      r.items.take k ++ [x] = r.items.take (k + 1) := by
  refine ⟨r.items[k], leftRange_natCast hk.le, ?_, (List.take_succ_eq_append_getElem hk).symm⟩
  rw [get_natCast, List.getElem?_eq_getElem hk]

theorem exists_get_rightRange {k : ℕ} (hk : k < r.items.length) :
    ∃ x, r.rightRange k = some (r.items.drop (k + 1)) ∧ r.get k = some x ∧
      x :: r.items.drop (k + 1) = r.items.drop k := by
  refine ⟨r.items[k], ?_, ?_, (List.drop_eq_getElem_cons hk).symm⟩
  · rw [← rightRange_natCast_sub_one hk, Int.natCast_succ, Int.add_sub_cancel]
  · rw [get_natCast, List.getElem?_eq_getElem hk]

section

variable (hl : r.items.Pairwise (· < ·))

include hl

theorem addLeft_eq (rangeLow : Str) :
    ∃ plList low, r.addLeft rangeLow ((below r.items rangeLow : ℤ) - 1) = some (plList, low) ∧
      CutLeft r.items rangeLow 1 (plList ++ [low]) := by
  have hlen := below_le_length r.items rangeLow
  obtain ⟨there, hthere, hiff⟩ := r.stepThere_eq rangeLow
  by_cases hred : below r.items rangeLow % 2 = 1
  · -- inside a range, which is extended
    obtain ⟨k, hk⟩ : ∃ k, below r.items rangeLow = k + 1 := ⟨below r.items rangeLow - 1, by omega⟩
    obtain ⟨x, hleft, hget, heq⟩ := r.exists_leftRange_get (show k < r.items.length by omega)
    refine ⟨r.items.take k, x, ?_, ?_⟩
    · rw [addLeft, if_pos (by simpa using hred), hk, Int.natCast_succ, Int.add_sub_cancel, hleft,
        hget]
      rfl
    · rw [heq, ← hk]
      exact cutLeft_take hl hred
  by_cases hb : IsBoundary r.items rangeLow
  · -- at the end of a range, which is extended
    obtain ⟨k, hk⟩ : ∃ k, below r.items rangeLow = k + 2 := by
      obtain ⟨k, hk, -⟩ := hb
      exact ⟨below r.items rangeLow - 2, by omega⟩
    obtain ⟨x, hleft, hget, heq⟩ := r.exists_leftRange_get (show k < r.items.length by omega)
    refine ⟨r.items.take k, x, ?_, ?_⟩
    · rw [addLeft, if_neg (by simpa using hred), hthere, hiff.mpr hb, hk,
        show ((k + 2 : ℕ) : ℤ) - 1 - 1 = k by omega, hleft, hget]
      rfl
    · rw [heq, show k + 1 = below r.items rangeLow - 1 by omega]
      exact cutLeft_boundary hl hb (by omega)
  · -- between two ranges
    refine ⟨r.items.take (below r.items rangeLow), rangeLow, ?_, ?_⟩
    · rw [addLeft, if_neg (by simpa using hred), hthere, Bool.eq_false_iff.mpr (mt hiff.mp hb),
        Int.sub_add_cancel, leftRange_natCast hlen]
      rfl
    · exact cutLeft_concat hl hb (by omega)

theorem addRight_eq (heven : r.items.length % 2 = 0)
    (rangeHigh : Str) :
    ∃ high prList, r.addRight rangeHigh ((below r.items rangeHigh : ℤ) - 1) = some (high, prList) ∧
      CutRight r.items rangeHigh 1 (high :: prList) := by
  have hlen := below_le_length r.items rangeHigh
  obtain ⟨there, hthere, hiff⟩ := r.stepThere_eq rangeHigh
  by_cases hred : below r.items rangeHigh % 2 = 1
  · -- inside a range, whose end is kept: as the length is even, there is one
    obtain ⟨x, hright, hget, heq⟩ := r.exists_get_rightRange
      (show below r.items rangeHigh < r.items.length by omega)
    refine ⟨x, r.items.drop (below r.items rangeHigh + 1), ?_, ?_⟩
    · rw [addRight, if_pos (by simpa using hred), Int.sub_add_cancel, hright, hget]
      rfl
    · rw [heq]
      exact cutRight_drop hl hred
  have hright := rightRange_natCast_sub_one hlen
  refine ⟨rangeHigh, r.items.drop (below r.items rangeHigh), ?_, cutRight_cons hl (by omega)⟩
  by_cases hb : IsBoundary r.items rangeHigh
  · -- at the end of a range: the boundary that is read is `rangeHigh` itself
    have hget : r.get ((below r.items rangeHigh : ℤ) - 1) = some rangeHigh := by
      obtain ⟨k, hk, hx⟩ := hb
      rw [hk, Int.natCast_succ, Int.add_sub_cancel, get_natCast, hx]
    rw [addRight, if_neg (by simpa using hred), hthere, hiff.mpr hb, hright, hget]
    rfl
  · rw [addRight, if_neg (by simpa using hred), hthere, Bool.eq_false_iff.mpr (mt hiff.mp hb),
      hright]
    rfl

theorem deleteLeft_eq (rangeLow : Str) :
    ∃ plList low, r.deleteLeft rangeLow ((below r.items rangeLow : ℤ) - 1) = some (plList, low) ∧
      CutLeft r.items rangeLow 0 (plList ++ low) := by
  have hlen := below_le_length r.items rangeLow
  obtain ⟨there, hthere, hiff⟩ := r.stepThere_eq rangeLow
  by_cases hred : below r.items rangeLow % 2 = 1
  · by_cases hb : IsBoundary r.items rangeLow
    · -- at the start of a range, which goes
      obtain ⟨k, hk⟩ : ∃ k, below r.items rangeLow = k + 1 := ⟨below r.items rangeLow - 1, by omega⟩
      refine ⟨r.items.take k, [], ?_, ?_⟩
      · rw [deleteLeft, if_pos (by simpa using hred), hthere, hiff.mpr hb, hk, Int.natCast_succ,
          Int.add_sub_cancel, leftRange_natCast (by omega)]
        rfl
      · rw [List.append_nil, show k = below r.items rangeLow - 1 by omega]
        exact cutLeft_boundary hl hb (by omega)
    · -- inside a range, which is cut off
      refine ⟨r.items.take (below r.items rangeLow), [rangeLow], ?_, ?_⟩
      · rw [deleteLeft, if_pos (by simpa using hred), hthere,
          Bool.eq_false_iff.mpr (mt hiff.mp hb), Int.sub_add_cancel, leftRange_natCast hlen]
        rfl
      · exact cutLeft_concat hl hb (by omega)
  · refine ⟨r.items.take (below r.items rangeLow), [], ?_, ?_⟩
    · rw [deleteLeft, if_neg (by simpa using hred), Int.sub_add_cancel, leftRange_natCast hlen]
      rfl
    · rw [List.append_nil]
      exact cutLeft_take hl (by omega)

theorem deleteRight_eq (rangeHigh : Str) :
    ∃ high prList, r.deleteRight rangeHigh ((below r.items rangeHigh : ℤ) - 1) =
        some (high, prList) ∧ CutRight r.items rangeHigh 0 (high ++ prList) := by
  have hlen := below_le_length r.items rangeHigh
  obtain ⟨there, hthere, hiff⟩ := r.stepThere_eq rangeHigh
  have hright := rightRange_natCast_sub_one hlen
  by_cases hred : below r.items rangeHigh % 2 = 1
  · by_cases hb : IsBoundary r.items rangeHigh
    · -- at the start of a range, which stays
      obtain ⟨k, hk⟩ : ∃ k, below r.items rangeHigh = k + 1 := ⟨below r.items rangeHigh - 1, by omega⟩
      refine ⟨[], r.items.drop k, ?_, ?_⟩
      · rw [deleteRight, if_pos (by simpa using hred), hthere, hiff.mpr hb, hk, Int.natCast_succ,
          Int.add_sub_cancel, rightRange_natCast_sub_one (by omega)]
        rfl
      · rw [List.nil_append, show k = below r.items rangeHigh - 1 by omega]
        exact cutRight_boundary hl hb (by omega)
    · -- inside a range, whose rest stays
      refine ⟨[rangeHigh], r.items.drop (below r.items rangeHigh), ?_, ?_⟩
      · rw [deleteRight, if_pos (by simpa using hred), hthere,
          Bool.eq_false_iff.mpr (mt hiff.mp hb), hright]
        rfl
      · exact cutRight_cons hl (by omega)
  · refine ⟨[], r.items.drop (below r.items rangeHigh), ?_, ?_⟩
    · rw [deleteRight, if_neg (by simpa using hred), hright]
      rfl
    · rw [List.nil_append]
      exact cutRight_drop hl (by omega)

end

/-- The representation: increasing boundaries, an even number of them. -/
structure WellFormed (r : RangeList) : Prop where
  pairwise : r.items.Pairwise (· < ·)
  even : r.items.length % 2 = 0

def keys (r : RangeList) : Set Str := cover r.items

theorem wellFormed_newRangeList : newRangeList.WellFormed := ⟨List.Pairwise.nil, rfl⟩

@[simp] theorem keys_newRangeList : newRangeList.keys = ∅ :=
  Set.eq_empty_iff_forall_notMem.mpr fun _ h => by cases h

theorem items_eq_nil_of_nilRagne (h : r.nilRagne = true) : r.items = [] := by
  simpa [nilRagne] using h

theorem wellFormed_of_cuts (hr : r.WellFormed) {rangeLow rangeHigh : Str}
    (h : rangeLow < rangeHigh) {inside : ℕ} {L R : List Str}
    (hL : CutLeft r.items rangeLow inside L) (hR : CutRight r.items rangeHigh inside R) :
    WellFormed ⟨some (L ++ R)⟩ :=
  ⟨hL.pairwise_append hR h, (hL.length_append hR).trans hr.even⟩

/-- **`AddRange`** does not panic and adds the keys from `rangeLow` up to `rangeHigh`. -/
theorem addRange_eq (hr : r.WellFormed) (rangeLow rangeHigh : Str) :
    ∃ r', r.addRange rangeLow rangeHigh = some r' ∧ r'.WellFormed ∧
      r'.keys = r.keys ∪ Set.Ico rangeLow rangeHigh := by
  have hl := hr.pairwise
  unfold addRange
  by_cases hle : rangeHigh ≤ rangeLow
  · refine ⟨r, if_pos hle, hr, ?_⟩
    rw [Set.Ico_eq_empty (not_lt.mpr hle), Set.union_empty]
  have hlt := not_le.mp hle
  rw [if_neg hle]
  by_cases hnil : r.nilRagne = true
  · have hitems := items_eq_nil_of_nilRagne hnil
    have hL : CutLeft r.items rangeLow 1 [rangeLow] := by
      rw [hitems]
      exact cutLeft_concat List.Pairwise.nil (by simp [IsBoundary]) rfl
    have hR : CutRight r.items rangeHigh 1 [rangeHigh] := by
      rw [hitems]
      exact cutRight_cons List.Pairwise.nil rfl
    refine ⟨⟨some ([rangeLow] ++ [rangeHigh])⟩, ?_, wellFormed_of_cuts hr hlt hL hR,
      hL.cover_append_one hR hlt⟩
    rw [if_pos hnil, hitems]
    rfl
  rw [if_neg hnil, find_eq hl, find_eq hl]
  by_cases hsame : ((below r.items rangeHigh : ℤ) - 1 = below r.items rangeLow - 1 ∧
      redPlace (below r.items rangeLow - 1) = true)
  · refine ⟨r, if_pos hsame, hr, ?_⟩
    -- both ends are in one range, and cutting it there gives the list back
    obtain ⟨hplc, hred⟩ := hsame
    rw [redPlace_natCast_sub_one, decide_eq_true_eq] at hred
    have hbelow : below r.items rangeHigh = below r.items rangeLow := by omega
    obtain ⟨hL, hR⟩ := cuts_of_below_eq hl hbelow hred
    rw [keys, ← hL.cover_append_one hR hlt, List.take_append_drop]
  · obtain ⟨plList, low, hleft, hL⟩ := addLeft_eq hl rangeLow
    obtain ⟨high, prList, hright, hR⟩ := addRight_eq hl hr.even rangeHigh
    refine ⟨⟨some (plList ++ [low, high] ++ prList)⟩, ?_, ?_⟩
    · simp only [Option.bind_eq_bind, Option.bind_some, if_neg hsame, hleft, hright]
      rfl
    · rw [show plList ++ [low, high] ++ prList = (plList ++ [low]) ++ (high :: prList) by simp]
      exact ⟨wellFormed_of_cuts hr hlt hL hR, hL.cover_append_one hR hlt⟩

/-- **`DeleteRange`** does not panic and removes the keys from `rangeLow` up to `rangeHigh`. -/
theorem deleteRange_eq (hr : r.WellFormed) (rangeLow rangeHigh : Str) :
    ∃ r', r.deleteRange rangeLow rangeHigh = some r' ∧ r'.WellFormed ∧
      r'.keys = r.keys \ Set.Ico rangeLow rangeHigh := by
  have hl := hr.pairwise
  unfold deleteRange
  by_cases hle : rangeHigh ≤ rangeLow
  · refine ⟨r, if_pos hle, hr, ?_⟩
    rw [Set.Ico_eq_empty (not_lt.mpr hle), Set.sdiff_empty]
  have hlt := not_le.mp hle
  rw [if_neg hle]
  by_cases hnil : r.nilRagne = true
  · refine ⟨r, if_pos hnil, hr, ?_⟩
    have hempty : r.keys = ∅ := by
      rw [keys, items_eq_nil_of_nilRagne hnil]
      exact keys_newRangeList
    rw [hempty, Set.empty_sdiff]
  rw [if_neg hnil, find_eq hl, find_eq hl]
  by_cases hsame : ((below r.items rangeHigh : ℤ) - 1 = below r.items rangeLow - 1 ∧
      (!redPlace (below r.items rangeLow - 1)) = true)
  · refine ⟨r, if_pos hsame, hr, ?_⟩
    -- both ends are between two ranges, and cutting there gives the list back
    obtain ⟨hplc, hred⟩ := hsame
    rw [redPlace_natCast_sub_one, Bool.not_eq_true', decide_eq_false_iff_not] at hred
    have hbelow : below r.items rangeHigh = below r.items rangeLow := by omega
    obtain ⟨hL, hR⟩ := cuts_of_below_eq hl hbelow (show _ = 0 by omega)
    rw [keys, ← hL.cover_append_zero hR hlt, List.take_append_drop]
  · obtain ⟨plList, low, hleft, hL⟩ := deleteLeft_eq hl rangeLow
    obtain ⟨high, prList, hright, hR⟩ := deleteRight_eq hl rangeHigh
    refine ⟨⟨some (plList ++ (low ++ high) ++ prList)⟩, ?_, ?_⟩
    · simp only [Option.bind_eq_bind, Option.bind_some, if_neg hsame, hleft, hright]
      rfl
    · rw [show plList ++ (low ++ high) ++ prList = (plList ++ low) ++ (high ++ prList) by simp]
      exact ⟨wellFormed_of_cuts hr hlt hL hR, hL.cover_append_zero hR hlt⟩

/-- The keys of the ranges that `Range` of a store returns. -/
def keysOf (ranges : List (List Str)) : Set Str :=
  {p | ∃ rangeLow rangeHigh, [rangeLow, rangeHigh] ∈ ranges ∧ p ∈ Set.Ico rangeLow rangeHigh}

theorem keysOf_nil : keysOf [] = ∅ :=
  Set.eq_empty_iff_forall_notMem.mpr fun _ ⟨_, _, hmem, _⟩ => by cases hmem

theorem keysOf_cons_pair (rangeLow rangeHigh : Str) (ranges : List (List Str)) :
    keysOf ([rangeLow, rangeHigh] :: ranges) = Set.Ico rangeLow rangeHigh ∪ keysOf ranges := by
  ext p
  constructor
  · rintro ⟨low, high, hmem, hp⟩
    rcases List.mem_cons.mp hmem with heq | hmem
    · obtain ⟨rfl, rfl⟩ : low = rangeLow ∧ high = rangeHigh := by simpa using heq
      exact Or.inl hp
    · exact Or.inr ⟨low, high, hmem, hp⟩
  · rintro (hp | ⟨low, high, hmem, hp⟩)
    · exact ⟨rangeLow, rangeHigh, List.mem_cons_self, hp⟩
    · exact ⟨low, high, List.mem_cons_of_mem _ hmem, hp⟩

theorem keysOf_append_pair (ranges : List (List Str)) (rangeLow rangeHigh : Str) :
    keysOf (ranges ++ [[rangeLow, rangeHigh]]) = keysOf ranges ∪ Set.Ico rangeLow rangeHigh := by
  ext p
  constructor
  · rintro ⟨low, high, hmem, hp⟩
    rcases List.mem_append.mp hmem with hmem | hmem
    · exact Or.inl ⟨low, high, hmem, hp⟩
    · obtain ⟨rfl, rfl⟩ : low = rangeLow ∧ high = rangeHigh := by simpa using hmem
      exact Or.inr hp
  · rintro (⟨low, high, hmem, hp⟩ | hp)
    · exact ⟨low, high, List.mem_append_left _ hmem, hp⟩
    · exact ⟨rangeLow, rangeHigh, by simp, hp⟩

theorem keysOf_cons_of_length_ne {rg : List Str} (h : rg.length ≠ 2) (ranges : List (List Str)) :
    keysOf (rg :: ranges) = keysOf ranges := by
  ext p
  constructor
  · rintro ⟨low, high, hmem, hp⟩
    rcases List.mem_cons.mp hmem with rfl | hmem
    · exact absurd rfl h
    · exact ⟨low, high, hmem, hp⟩
  · rintro ⟨low, high, hmem, hp⟩
    exact ⟨low, high, List.mem_cons_of_mem _ hmem, hp⟩

theorem add_eq (hr : r.WellFormed) (ranges : List (List Str)) :
    ∃ r', r.add ranges = some r' ∧ r'.WellFormed ∧ r'.keys = r.keys ∪ keysOf ranges := by
  induction ranges generalizing r with
  | nil =>
    refine ⟨r, rfl, hr, ?_⟩
    rw [keysOf_nil, Set.union_empty]
  | cons rg ranges ih =>
    unfold add at ih ⊢
    rw [List.foldlM_cons]
    split
    · next rangeLow rangeHigh =>
      obtain ⟨r₁, hadd, hr₁, hkeys⟩ := addRange_eq hr rangeLow rangeHigh
      obtain ⟨r', hrest, hr', hkeys'⟩ := ih hr₁
      refine ⟨r', ?_, hr', ?_⟩
      · rw [hadd]
        exact hrest
      · rw [hkeys', hkeys, keysOf_cons_pair, Set.union_assoc]
    · next hne =>
      -- an entry that is no pair is skipped
      obtain ⟨r', hrest, hr', hkeys'⟩ := ih hr
      refine ⟨r', hrest, hr', ?_⟩
      rw [hkeys', keysOf_cons_of_length_ne]
      intro hlen
      obtain ⟨low, high, rfl⟩ := List.length_eq_two.mp hlen
      exact hne low high rfl

theorem getElem?_eq_getD {l : List Str} {k : ℕ} (hk : k < l.length) :
    l[k]? = some (l.getD k []) := by
  rw [List.getD_eq_getElem?_getD, List.getElem?_eq_getElem hk, Option.getD_some]

/-- The ranges that a list returns are its keys, so `Add` of a list is the union. -/
theorem keysOf_range (hr : r.WellFormed) : keysOf r.range = r.keys := by
  have heven := hr.even
  ext p
  constructor
  · rintro ⟨low, high, hmem, hlow, hhigh⟩
    obtain ⟨i, hi, heq⟩ := List.mem_map.mp hmem
    have hi := List.mem_range.mp hi
    obtain ⟨hl, hh⟩ : r.items[i * 2]? = some low ∧ r.items[i * 2 + 1]? = some high := by
      simp only [List.cons.injEq, and_true] at heq
      rw [← heq.1, ← heq.2]
      exact ⟨getElem?_eq_getD (by omega), getElem?_eq_getD (by omega)⟩
    have hge := (le_iff_lt_below hr.pairwise hl).mp hlow
    have hlt := mt (le_iff_lt_below hr.pairwise hh).mpr (not_le.mpr hhigh)
    show below r.items p % 2 = 1
    omega
  · intro hp
    have hodd : below r.items p % 2 = 1 := hp
    have hlen := below_le_length r.items p
    obtain ⟨i, hi⟩ : ∃ i, below r.items p = i * 2 + 1 := ⟨below r.items p / 2, by omega⟩
    refine ⟨_, _, List.mem_map.mpr ⟨i, List.mem_range.mpr (by omega), rfl⟩, ?_, ?_⟩
    · exact (le_iff_lt_below hr.pairwise (getElem?_eq_getD (by omega))).mpr (by omega)
    · rw [← not_le, le_iff_lt_below hr.pairwise (getElem?_eq_getD (by omega))]
      omega

/-! ## Sequences of operations -/

inductive Op
  | addRange (rangeLow rangeHigh : Str)
  | deleteRange (rangeLow rangeHigh : Str)
  /-- `Add` of a store, by what its `Range` returns -/
  | add (ranges : List (List Str))
  deriving DecidableEq, Repr

def apply (r : RangeList) : Op → Option RangeList
  | .addRange rangeLow rangeHigh => r.addRange rangeLow rangeHigh
  | .deleteRange rangeLow rangeHigh => r.deleteRange rangeLow rangeHigh
  | .add ranges => r.add ranges

/-- What the call means for the set of keys. -/
def Op.on (keys : Set Str) : Op → Set Str
  | .addRange rangeLow rangeHigh => keys ∪ Set.Ico rangeLow rangeHigh
  | .deleteRange rangeLow rangeHigh => keys \ Set.Ico rangeLow rangeHigh
  | .add ranges => keys ∪ keysOf ranges

theorem apply_eq (hr : r.WellFormed) (op : Op) :
    ∃ r', r.apply op = some r' ∧ r'.WellFormed ∧ r'.keys = op.on r.keys := by
  cases op with
  | addRange rangeLow rangeHigh => exact addRange_eq hr rangeLow rangeHigh
  | deleteRange rangeLow rangeHigh => exact deleteRange_eq hr rangeLow rangeHigh
  | add ranges => exact add_eq hr ranges

theorem run_apply (hr : r.WellFormed) (ops : List Op) :
    ∃ r', run apply r ops = some r' ∧ r'.WellFormed ∧ r'.keys = ops.foldl Op.on r.keys := by
  induction ops generalizing r with
  | nil => exact ⟨r, rfl, hr, rfl⟩
  | cons op ops ih =>
    obtain ⟨r₁, happly, hr₁, hkeys⟩ := apply_eq hr op
    obtain ⟨r', hrun, hr', hkeys'⟩ := ih hr₁
    refine ⟨r', run_cons.mpr ⟨r₁, happly, hrun⟩, hr', ?_⟩
    rw [hkeys', hkeys, List.foldl_cons]

/-- **A range list is a set of intervals**: after any calls on a new list, none of which panics, the
boundaries are increasing and even in number, and `Search` decides the set that the calls mean. -/
theorem search_run (ops : List Op) :
    ∃ r, run apply newRangeList ops = some r ∧ r.items.Pairwise (· < ·) ∧ Even r.items.length ∧
      ∀ p, ∃ found, r.search p = some found ∧ (found = true ↔ p ∈ ops.foldl Op.on ∅) := by
  obtain ⟨r, hrun, hr, hkeys⟩ := run_apply wellFormed_newRangeList ops
  refine ⟨r, hrun, hr.pairwise, Nat.even_iff.mpr hr.even, fun p => ⟨_, search_eq hr.pairwise p, ?_⟩⟩
  rw [decide_eq_true_eq, ← keys_newRangeList, ← hkeys]
  rfl

end RangeList

end Emulator
