import Mathlib.Data.List.GetD
import Mathlib.Data.List.Pairwise
import Mathlib.Order.Bounds.Basic
import Emulator.Utils.RangeList

/-!
# The form of a `RangeList` and its text

The calls on a `RangeList` leave increasing boundaries, and increasing boundaries are determined by
the keys they enclose. So two lists that answer `Search` alike have the same `Range`, however they
were made (`range_canonical`).

`String` joins the boundaries with commas, and `NewRangeListFromString` adds the ranges back one by
one. An empty list has the empty text, and `strings.Split` makes one empty label of it: an odd
number of labels, for which `NewRangeListFromString` returns `nil`. `StartKey` and `EndKey` test for
a `nil` slice, but a list from which everything was deleted holds an empty slice, whose first
element they then read (`text_and_bounds_iff`).
-/

namespace Emulator.RangeList

open Boundaries

variable {r r' : RangeList}

/-! ## The canonical form -/

theorem mem_keys_iff (hr : r.WellFormed) (p : Str) : p ∈ r.keys ↔ r.search p = some true := by
  rw [search_eq hr.pairwise, Option.some.injEq, decide_eq_true_eq]
  rfl

theorem keys_eq_iff (hr : r.WellFormed) (hr' : r'.WellFormed) :
    r.keys = r'.keys ↔ ∀ p, r.search p = r'.search p := by
  constructor
  · intro h p
    have hp : below r.items p % 2 = 1 ↔ below r'.items p % 2 = 1 := Set.ext_iff.mp h p
    rw [search_eq hr.pairwise, search_eq hr'.pairwise, decide_eq_decide.mpr hp]
  · intro h
    ext p
    rw [mem_keys_iff hr, mem_keys_iff hr', h]

theorem items_eq_of_keys_eq (hr : r.WellFormed) (hr' : r'.WellFormed) (h : r.keys = r'.keys) :
    r.items = r'.items :=
  eq_of_cover_eq hr.pairwise hr'.pairwise h

theorem range_eq_of_keys_eq (hr : r.WellFormed) (hr' : r'.WellFormed) (h : r.keys = r'.keys) :
    r.range = r'.range := by
  rw [range, range, items_eq_of_keys_eq hr hr' h]

/-- Ranges none of which is empty, each with a gap before the next one. -/
def Separated (ranges : List (List Str)) : Prop :=
  ∃ pairs : List (Str × Str), ranges = pairs.map (fun rg => [rg.1, rg.2]) ∧
    (∀ rg ∈ pairs, rg.1 < rg.2) ∧ pairs.Pairwise fun rg rg' => rg.2 < rg'.1

theorem separated_range (hr : r.WellFormed) : Separated r.range := by
  have heven := hr.even
  have hlt : ∀ i j, i < j → j < r.items.length → r.items.getD i [] < r.items.getD j [] := by
    intro i j hij hj
    rw [List.getD_eq_getElem _ _ (hij.trans hj), List.getD_eq_getElem _ _ hj]
    exact List.pairwise_iff_getElem.mp hr.pairwise i j (hij.trans hj) hj hij
  refine ⟨(List.range (r.items.length / 2)).map fun i =>
    (r.items.getD (i * 2) [], r.items.getD (i * 2 + 1) []), ?_, ?_, ?_⟩
  · rw [range, List.map_map]
    rfl
  · intro rg hrg
    obtain ⟨i, hi, rfl⟩ := List.mem_map.mp hrg
    have hi := List.mem_range.mp hi
    exact hlt _ _ (by omega) (by omega)
  · rw [List.pairwise_map]
    refine List.pairwise_lt_range.imp_of_mem ?_
    intro i j hi hj hij
    have hj := List.mem_range.mp hj
    exact hlt _ _ (by omega) (by omega)

/-- The calls that add the given ranges. -/
def addAll (ranges : List (Str × Str)) : List Op := ranges.map fun rg => .addRange rg.1 rg.2

theorem mem_foldl_addAll (keys : Set Str) (ranges : List (Str × Str)) (p : Str) :
    p ∈ (addAll ranges).foldl Op.on keys ↔
      p ∈ keys ∨ ∃ rg ∈ ranges, p ∈ Set.Ico rg.1 rg.2 := by
  induction ranges generalizing keys with
  | nil => simp [addAll]
  | cons rg ranges ih =>
    rw [addAll, List.map_cons, List.foldl_cons, ← addAll, ih]
    simp only [Op.on, Set.mem_union, List.mem_cons, exists_eq_or_imp, or_assoc]

/-- **A range list is canonical.** Lists that answer `Search` alike return the same `Range`,
whatever calls made them; the ranges are not empty and do not touch; and calls of `AddRange` with
the same ranges in any order, any number of times, give the same `Range`. -/
theorem range_canonical :
    (∀ ops ops' : List Op, ∃ r r', run apply newRangeList ops = some r ∧
      run apply newRangeList ops' = some r' ∧ Separated r.range ∧
      ((∀ p, r.search p = r'.search p) → r.range = r'.range)) ∧
    ∀ ranges ranges' : List (Str × Str), (∀ rg, rg ∈ ranges ↔ rg ∈ ranges') →
      ∃ r r', run apply newRangeList (addAll ranges) = some r ∧
        run apply newRangeList (addAll ranges') = some r' ∧ r.range = r'.range := by
  constructor
  · intro ops ops'
    obtain ⟨r, hrun, hr, -⟩ := run_apply wellFormed_newRangeList ops
    obtain ⟨r', hrun', hr', -⟩ := run_apply wellFormed_newRangeList ops'
    refine ⟨r, r', hrun, hrun', separated_range hr, ?_⟩
    intro hsearch
    exact range_eq_of_keys_eq hr hr' ((keys_eq_iff hr hr').mpr hsearch)
  · intro ranges ranges' hmem
    obtain ⟨r, hrun, hr, hkeys⟩ := run_apply wellFormed_newRangeList (addAll ranges)
    obtain ⟨r', hrun', hr', hkeys'⟩ := run_apply wellFormed_newRangeList (addAll ranges')
    refine ⟨r, r', hrun, hrun', range_eq_of_keys_eq hr hr' ?_⟩
    ext p
    rw [hkeys, hkeys', mem_foldl_addAll, mem_foldl_addAll]
    simp only [hmem]

/-! ## The text of a list and its bounds -/

/-- The separator, `","`. -/
def comma : UInt8 := 44

def string (r : RangeList) : Str := [comma].intercalate r.range.flatten

/-- The loop of `NewRangeListFromString`, which takes two labels at a time. -/
def addLabels : RangeList → List Str → Option RangeList
  | r, [] => some r
  | _, [_] => none
  | r, rangeLow :: rangeHigh :: labels =>
    (r.addRange rangeLow rangeHigh).bind fun r' => addLabels r' labels

/-- `NewRangeListFromString`: `some none` when it returns `nil`. -/
def newRangeListFromString (s : Str) : Option (Option RangeList) :=
  let labels := s.splitOn comma
  if labels.length % 2 = 1 then some none else (newRangeList.addLabels labels).map some

def startKey (r : RangeList) : Option Str :=
  match r.lists with
  | none => some []
  | some lists => lists[0]?

/-- `EndKey`; in an empty slice there is no last element to read. -/
def endKey (r : RangeList) : Option Str :=
  match r.lists with
  | none => some []
  | some lists => lists.getLast?

theorem flatten_range (hr : r.WellFormed) : r.range.flatten = r.items := by
  have h : ∀ k, k * 2 ≤ r.items.length →
      ((List.range k).map fun i =>
        [r.items.getD (i * 2) [], r.items.getD (i * 2 + 1) []]).flatten = r.items.take (k * 2) := by
    intro k hk
    induction k with
    | zero => rfl
    | succ k ih =>
      rw [List.range_succ, List.map_append, List.flatten_append, ih (by omega),
        show (k + 1) * 2 = k * 2 + 1 + 1 by omega,
        List.take_succ_eq_append_getElem (show k * 2 + 1 < r.items.length by omega),
        List.take_succ_eq_append_getElem (show k * 2 < r.items.length by omega)]
      simp only [List.map_singleton, List.flatten_singleton, List.append_assoc, List.cons_append,
        List.nil_append]
      rw [List.getD_eq_getElem _ _ (show k * 2 < r.items.length by omega),
        List.getD_eq_getElem _ _ (show k * 2 + 1 < r.items.length by omega)]
  have heven := hr.even
  rw [range, h _ (by omega), List.take_of_length_le (by omega)]

/-- Adding pairs of labels is what `Add` does with the pairs. -/
theorem addLabels_flatten (r : RangeList) {ranges : List (List Str)}
    (h : ∀ rg ∈ ranges, rg.length = 2) : r.addLabels ranges.flatten = r.add ranges := by
  induction ranges generalizing r with
  | nil => rfl
  | cons rg ranges ih =>
    obtain ⟨rangeLow, rangeHigh, rfl⟩ := List.length_eq_two.mp (h rg List.mem_cons_self)
    rw [List.flatten_cons, List.cons_append, List.cons_append, List.nil_append, addLabels, add,
      List.foldlM_cons]
    exact congrArg _ (funext fun r' => ih r' fun rg' hrg' => h rg' (List.mem_cons_of_mem _ hrg'))

theorem length_of_mem_range {rg : List Str} (h : rg ∈ r.range) : rg.length = 2 := by
  obtain ⟨i, -, rfl⟩ := List.mem_map.mp h
  rfl

/-- The text of a list comes back as a list that answers `Search` alike. -/
def TextKept (r : RangeList) : Prop :=
  ∃ r', newRangeListFromString r.string = some (some r') ∧ ∀ p, r'.search p = r.search p

/-- `StartKey` and `EndKey` do not panic and return the least and the greatest boundary, or empty
strings when the list has no keys. -/
def BoundsGiven (r : RangeList) : Prop :=
  ∃ low high, r.startKey = some low ∧ r.endKey = some high ∧
    ((∀ p, r.search p = some false) → low = [] ∧ high = []) ∧
    (r.items ≠ [] → IsLeast {x | x ∈ r.items} low ∧ IsGreatest {x | x ∈ r.items} high)

theorem textKept_iff (hr : r.WellFormed) (hcomma : ∀ x ∈ r.items, comma ∉ x) :
    r.TextKept ↔ r.items ≠ [] := by
  constructor
  · rintro ⟨r', hnew, -⟩ hnil
    -- the empty text is one label
    rw [string, flatten_range hr, hnil] at hnew
    cases hnew
  · intro hne
    obtain ⟨r', hadd, hr', hkeys⟩ := add_eq wellFormed_newRangeList r.range
    rw [keys_newRangeList, Set.empty_union, keysOf_range hr] at hkeys
    refine ⟨r', ?_, (keys_eq_iff hr' hr).mp hkeys⟩
    have hlabels : r.string.splitOn comma = r.range.flatten := by
      rw [string, flatten_range hr]
      exact List.splitOn_intercalate comma hcomma hne
    have heven : r.range.flatten.length % 2 ≠ 1 := by
      rw [flatten_range hr, hr.even]
      decide
    rw [newRangeListFromString, hlabels]
    simp only [if_neg heven]
    rw [addLabels_flatten _ fun rg hrg => length_of_mem_range hrg, hadd, Option.map_some]

theorem exists_mem_keys (hr : r.WellFormed) (hne : r.items ≠ []) : ∃ p, p ∈ r.keys := by
  obtain ⟨x, l, hitems⟩ := List.exists_cons_of_ne_nil hne
  refine ⟨x, ?_⟩
  have hl := hr.pairwise
  rw [keys, hitems]
  rw [hitems] at hl
  exact mem_cover_cons_self hl

theorem boundsGiven_iff (hr : r.WellFormed) : r.BoundsGiven ↔ r.lists ≠ some [] := by
  constructor
  · rintro ⟨low, high, hstart, -⟩ hempty
    rw [startKey, hempty] at hstart
    cases hstart
  · intro hne
    cases hlists : r.lists with
    | none =>
      refine ⟨[], [], by rw [startKey, hlists], by rw [endKey, hlists], fun _ => ⟨rfl, rfl⟩, ?_⟩
      intro hitems
      exact absurd (by rw [items, hlists, Option.getD_none]) hitems
    | some lists =>
      have hitems : r.items = lists := by rw [items, hlists, Option.getD_some]
      have hlists' : lists ≠ [] := by
        intro hnil
        exact hne (by rw [hlists, hnil])
      have hl := hr.pairwise
      rw [hitems] at hl
      refine ⟨lists.head hlists', lists.getLast hlists', ?_, ?_, ?_, ?_⟩
      · rw [startKey, hlists]
        exact (List.head?_eq_getElem? (l := lists)).symm.trans (List.head?_eq_some_head hlists')
      · rw [endKey, hlists]
        exact List.getLast?_eq_some_getLast hlists'
      · intro hfalse
        obtain ⟨p, hp⟩ := exists_mem_keys hr (hitems ▸ hlists')
        rw [mem_keys_iff hr, hfalse p] at hp
        cases hp
      · intro _
        rw [hitems]
        refine ⟨⟨List.head_mem hlists', ?_⟩, ⟨List.getLast_mem hlists', ?_⟩⟩
        · intro x hx
          exact (hl.imp le_of_lt).rel_head hx
        · intro x hx
          exact (hl.imp le_of_lt).rel_getLast hx

/-- **The text and the bounds of a list.** Without a comma in its boundaries, a list made by any
calls has both the text that gives it back and its bounds exactly when it is not empty. The bounds
alone fail for the empty slice that is left when every range was deleted. -/
theorem text_and_bounds_iff (ops : List Op) {r : RangeList}
    (hrun : run apply newRangeList ops = some r) (hcomma : ∀ x ∈ r.items, comma ∉ x) :
    (r.TextKept ∧ r.BoundsGiven ↔ r.items ≠ []) ∧ (r.BoundsGiven ↔ r.lists ≠ some []) := by
  have hr : r.WellFormed := by
    obtain ⟨r', hrun', hr', -⟩ := run_apply wellFormed_newRangeList ops
    obtain rfl := Option.some.inj (hrun.symm.trans hrun')
    exact hr'
  refine ⟨?_, boundsGiven_iff hr⟩
  rw [textKept_iff hr hcomma, boundsGiven_iff hr]
  constructor
  · intro h
    exact h.1
  · intro hne
    refine ⟨hne, ?_⟩
    intro hempty
    exact hne (by rw [items, hempty, Option.getD_some])

/-- The list `a` to `b` keeps its text and its bounds. -/
theorem text_and_bounds_ab :
    run apply newRangeList [.addRange [97] [98]] = some ⟨some [[97], [98]]⟩ ∧
      TextKept ⟨some [[97], [98]]⟩ ∧ BoundsGiven ⟨some [[97], [98]]⟩ := by
  have hrun : run apply newRangeList [.addRange [97] [98]] = some ⟨some [[97], [98]]⟩ := by decide
  exact ⟨hrun, (text_and_bounds_iff _ hrun (by decide)).1.mpr (by decide)⟩

/-- The new list has an empty text, which gives `nil`. When `a` to `b` is added to it and deleted
again, `StartKey` and `EndKey` panic as well. -/
theorem not_text_and_bounds_empty :
    (newRangeListFromString newRangeList.string = some none ∧ ¬newRangeList.TextKept) ∧
      ∃ r, run apply newRangeList [.addRange [97] [98], .deleteRange [97] [98]] = some r ∧
        newRangeListFromString r.string = some none ∧ r.startKey = none ∧ r.endKey = none ∧
        ¬r.TextKept ∧ ¬r.BoundsGiven := by
  have hnew : newRangeListFromString newRangeList.string = some none := by decide
  have hempty : newRangeListFromString (string ⟨some []⟩) = some none := by decide
  have hstart : startKey ⟨some []⟩ = none := rfl
  refine ⟨⟨hnew, ?_⟩, ⟨some []⟩, by decide, hempty, hstart, rfl, ?_, ?_⟩
  · rintro ⟨r', hr', -⟩
    rw [hnew] at hr'
    cases hr'
  · rintro ⟨r', hr', -⟩
    rw [hempty] at hr'
    cases hr'
  · rintro ⟨low, high, hlow, -⟩
    rw [hstart] at hlow
    cases hlow

end Emulator.RangeList
