import Mathlib.Order.Interval.Set.LinearOrder
import Emulator.Utils.RangeList

/-!
# `utils.RangeTree`

The key ranges of a shard as a tree. A leaf is one half-open range, and an inner node holds what its
two children hold. A node stores one bound, its `ukey`: the upper bound of a left child, the lower
bound of a right child. The other bound comes down from its parent, and those of the root are in the
tree.

The methods change the nodes in place; here they return the new node, and a panic is `none`.

* `addRange_eq`, `deleteRange_eq` — on a well-formed node the six cases are all there are, so
  neither method panics, and they add and remove the keys of the range.
* `agree_run` — after any calls a tree and a list that got the same calls hold the same keys.

Extending the bound of a node extends its outermost leaf, whatever is below the node
(`keys_extend_high`, `keys_extend_low`). This is why `AddRange` may close the gap between two
children by moving a single bound.
-/

namespace Emulator

open scoped RangeList

/-- `RangeTreeNode`; a leaf is a node without children. -/
inductive RangeTreeNode
  | leaf (ukey : Str) (depth : ℕ)
  | node (ukey : Str) (leftChild rightChild : RangeTreeNode) (depth : ℕ)
  deriving DecidableEq, Repr

def newRangeTreeLeaf (ukey : Str) : RangeTreeNode := .leaf ukey 0

def strInRange (s u v : Str) : Bool := u ≤ s && s ≤ v

def strInRangeRightOpen (s u v : Str) : Bool := u ≤ s && s < v

namespace RangeTreeNode

def ukey : RangeTreeNode → Str
  | leaf k _ => k
  | node k _ _ _ => k

def depth : RangeTreeNode → ℕ
  | leaf _ d => d
  | node _ _ _ d => d

def isLeaf : RangeTreeNode → Bool
  | leaf _ _ => true
  | node _ _ _ _ => false

/-- `t.Ukey = k`. -/
def setUkey (k : Str) : RangeTreeNode → RangeTreeNode
  | leaf _ d => leaf k d
  | node _ l r d => node k l r d

/-- The deferred function of `AddRange`: two leaves that meet become one, and the depth is set. -/
def rejoin (k : Str) (l r : RangeTreeNode) : RangeTreeNode :=
  if l.isLeaf && r.isLeaf && l.ukey == r.ukey then leaf k 0
  else node k l r (if l.depth > r.depth then l.depth + 1 else r.depth + 1)

/-- `RangeTreeNode.AddRange`. In the fourth and the fifth case the source moves the bound of the
child first; a node does not read its own bound. -/
def addRange : RangeTreeNode → Str → Str → Str → Str → Option RangeTreeNode
  | leaf k d, _, _, _, _ => some (leaf k d)
  | node k l r _, low, rangeLow, rangeHigh, high =>
    if strInRange rangeLow low l.ukey && strInRange rangeHigh r.ukey high then do
      let l ← l.addRange low rangeLow l.ukey l.ukey
      let r ← r.addRange r.ukey r.ukey rangeHigh high
      if l.depth < r.depth then pure (rejoin k (l.setUkey r.ukey) r)
      else pure (rejoin k l (r.setUkey l.ukey))
    else if strInRange rangeLow low l.ukey && strInRange rangeHigh low l.ukey then do
      let l ← l.addRange low rangeLow rangeHigh l.ukey
      pure (rejoin k l r)
    else if strInRange rangeLow r.ukey high && strInRange rangeHigh r.ukey high then do
      let r ← r.addRange r.ukey rangeLow rangeHigh high
      pure (rejoin k l r)
    else if strInRange rangeLow l.ukey r.ukey && strInRange rangeHigh r.ukey high then do
      let r ← r.addRange rangeLow rangeLow rangeHigh high
      pure (rejoin k l (r.setUkey rangeLow))
    else if strInRange rangeLow low l.ukey && strInRange rangeHigh l.ukey r.ukey then do
      let l ← l.addRange low rangeLow rangeHigh rangeHigh
      pure (rejoin k (l.setUkey rangeHigh) r)
    else if strInRange rangeLow l.ukey r.ukey && strInRange rangeHigh l.ukey r.ukey then
      if l.depth < r.depth then
        pure (rejoin k (node rangeHigh l (newRangeTreeLeaf rangeLow) (l.depth + 1)) r)
      else
        pure (rejoin k l (node rangeLow (newRangeTreeLeaf rangeHigh) r (r.depth + 1)))
    else none

/-- The end of `RangeTreeNode.DeleteRange`, from what is left of the children: a node that has lost
one child gives way to the other. -/
def keep (k low high : Str) (l : Option RangeTreeNode) (leftRange : Str) (r : Option RangeTreeNode)
    (rightRange : Str) : Option (Option RangeTreeNode × Str × Str) :=
  match l, r with
  | none, none => some (none, leftRange, rightRange)
  | some l, some r =>
    let depth := if l.depth > r.depth then l.depth + 1 else r.depth + 1
    if k = high then some (some (node rightRange l r depth), leftRange, rightRange)
    else if k = low then some (some (node leftRange l r depth), leftRange, rightRange)
    else none
  | some l, none =>
    if k = high then some (some l, leftRange, l.ukey)
    else if k = low then some (some (l.setUkey leftRange), leftRange, l.ukey)
    else none
  | none, some r =>
    if k = high then some (some (r.setUkey rightRange), r.ukey, rightRange)
    else if k = low then some (some r, r.ukey, rightRange)
    else none

/-- `RangeTreeNode.DeleteRange`: what is left of the node, and its bounds. -/
def deleteRange : RangeTreeNode → Str → Str → Str → Str → Option (Option RangeTreeNode × Str × Str)
  | leaf k d, low, rangeLow, rangeHigh, high =>
    if rangeLow = low ∧ rangeHigh = high then some (none, low, high)
    else if rangeLow = rangeHigh then some (some (leaf k d), low, high)
    else if rangeHigh = high then
      some (some (leaf (if k = high then rangeLow else k) d), low, rangeLow)
    else if rangeLow = low then
      some (some (leaf (if k = low then rangeHigh else k) d), rangeHigh, high)
    else
      some (some (node k (newRangeTreeLeaf rangeLow) (newRangeTreeLeaf rangeHigh) (d + 1)), low, high)
  | node k l r d, low, rangeLow, rangeHigh, high =>
    if rangeLow = low ∧ rangeHigh = high then some (none, low, high)
    else if rangeLow = rangeHigh then some (some (node k l r d), low, high)
    else if strInRange rangeLow low l.ukey && strInRange rangeHigh r.ukey high then do
      let (l, leftRange, _) ← l.deleteRange low rangeLow l.ukey l.ukey
      let (r, _, rightRange) ← r.deleteRange r.ukey r.ukey rangeHigh high
      keep k low high l leftRange r rightRange
    else if strInRange rangeLow low l.ukey && strInRange rangeHigh low l.ukey then do
      let (l, leftRange, _) ← l.deleteRange low rangeLow rangeHigh l.ukey
      keep k low high l leftRange (some r) high
    else if strInRange rangeLow r.ukey high && strInRange rangeHigh r.ukey high then do
      let (r, _, rightRange) ← r.deleteRange r.ukey rangeLow rangeHigh high
      keep k low high (some l) low r rightRange
    else if strInRange rangeLow l.ukey r.ukey && strInRange rangeHigh r.ukey high then do
      let (r, _, rightRange) ← r.deleteRange r.ukey r.ukey rangeHigh high
      keep k low high (some l) low r rightRange
    else if strInRange rangeLow low l.ukey && strInRange rangeHigh l.ukey r.ukey then do
      let (l, leftRange, _) ← l.deleteRange low rangeLow l.ukey l.ukey
      keep k low high l leftRange (some r) high
    else
      -- the sixth case, and a switch without a default
      keep k low high (some l) low (some r) high

def search : RangeTreeNode → Str → Str → Str → Bool
  | leaf _ _, p, low, high => strInRangeRightOpen p low high
  | node _ l r _, p, low, high =>
    if p < l.ukey then l.search p low l.ukey
    else if p ≥ r.ukey then r.search p r.ukey high
    else false

def range : RangeTreeNode → List (List Str) → Str → Str → List (List Str)
  | leaf _ _, outputList, low, high => outputList ++ [[low, high]]
  | node _ l r _, outputList, low, high => r.range (l.range outputList low l.ukey) r.ukey high

end RangeTreeNode

structure RangeTree where
  startKey : Str
  endKey : Str
  root : Option RangeTreeNode
  deriving DecidableEq, Repr

def newRangeTree : RangeTree := ⟨[], [], none⟩

namespace RangeTree

def search (t : RangeTree) (p : Str) : Bool :=
  match t.root with
  | none => false
  | some root => root.search p t.startKey t.endKey

def addRange (t : RangeTree) (rangeLow rangeHigh : Str) : Option RangeTree :=
  if rangeHigh < rangeLow then some t
  else
    match t.root with
    | none => some ⟨rangeLow, rangeHigh, some (newRangeTreeLeaf rangeHigh)⟩
    | some root =>
      if rangeHigh < t.startKey then
        some ⟨rangeLow, t.endKey, some (.node t.endKey (newRangeTreeLeaf rangeHigh)
          (root.setUkey t.startKey) (root.depth + 1))⟩
      else if rangeLow > t.endKey then
        some ⟨t.startKey, rangeHigh, some (.node rangeHigh root (newRangeTreeLeaf rangeLow)
          (root.depth + 1))⟩
      else do
        let (endKey, root) :=
          if rangeHigh > t.endKey then (rangeHigh, root.setUkey rangeHigh) else (t.endKey, root)
        let startKey := if rangeLow < t.startKey then rangeLow else t.startKey
        let root ← root.addRange startKey rangeLow rangeHigh endKey
        pure ⟨startKey, endKey, some root⟩

def deleteRange (t : RangeTree) (rangeLow rangeHigh : Str) : Option RangeTree :=
  match t.root with
  | none => some t
  | some root =>
    if rangeHigh < rangeLow then some t
    else if rangeHigh < t.startKey ∨ rangeLow > t.endKey then some t
    else do
      let rangeLow := if rangeLow < t.startKey then t.startKey else rangeLow
      let rangeHigh := if rangeHigh > t.endKey then t.endKey else rangeHigh
      let (root, startKey, endKey) ← root.deleteRange t.startKey rangeLow rangeHigh t.endKey
      pure ⟨startKey, endKey, root⟩

def range (t : RangeTree) : List (List Str) :=
  match t.root with
  | none => []
  | some root => root.range [] t.startKey t.endKey

/-- `Add`: every range of the other tree is added, `pair[0]` up to `pair[1]`. -/
def add (t other : RangeTree) : Option RangeTree :=
  other.range.foldlM (fun t pair =>
    match pair with
    | rangeLow :: rangeHigh :: _ => t.addRange rangeLow rangeHigh
    | _ => none) t

end RangeTree

/-! ## Ranges cut by bounds -/

section

variable {K : Type} [LinearOrder K] {A : Set K} {a b x y : K}

section

variable (hA : A ⊆ Set.Ico a b)

include hA

theorem sdiff_Ico_min (x y : K) :
    A \ Set.Ico x (min b y) = A \ Set.Ico x y := by
  ext p
  refine and_congr_right fun hp => not_congr (and_congr_right fun _ => ?_)
  rw [lt_min_iff, and_iff_right (hA hp).2]

theorem sdiff_Ico_max (x y : K) :
    A \ Set.Ico (max x a) y = A \ Set.Ico x y := by
  ext p
  refine and_congr_right fun hp => not_congr (and_congr_left fun _ => ?_)
  rw [max_le_iff, and_iff_left (hA hp).1]

theorem sdiff_Ico_of_le_right (h : b ≤ y) :
    A \ Set.Ico x y = A \ Set.Ico x b := by
  rw [← sdiff_Ico_min hA, min_eq_left h]

theorem sdiff_Ico_of_le_left (h : x ≤ a) :
    A \ Set.Ico x y = A \ Set.Ico a y := by
  rw [← sdiff_Ico_max hA, max_eq_right h]

theorem sdiff_Ico_of_right_le (h : b ≤ x) : A \ Set.Ico x y = A := by
  ext p
  exact ⟨fun hp => hp.1, fun hp => ⟨hp, fun hpx => absurd (h.trans hpx.1) (not_le.mpr (hA hp).2)⟩⟩

theorem sdiff_Ico_of_le_start (h : y ≤ a) : A \ Set.Ico x y = A := by
  ext p
  exact ⟨fun hp => hp.1, fun hp => ⟨hp, fun hpy => absurd (hpy.2.trans_le h) (not_lt.mpr (hA hp).1)⟩⟩

end

theorem Ico_sdiff_Ico (hax : a ≤ x) (hxy : x ≤ y) (hyb : y ≤ b) :
    Set.Ico a b \ Set.Ico x y = Set.Ico a x ∪ Set.Ico y b := by
  ext p
  constructor
  · rintro ⟨⟨hap, hpb⟩, hno⟩
    rcases lt_or_ge p x with hpx | hxp
    · exact Or.inl ⟨hap, hpx⟩
    · exact Or.inr ⟨not_lt.mp fun hpy => hno ⟨hxp, hpy⟩, hpb⟩
  · rintro (⟨hap, hpx⟩ | ⟨hyp, hpb⟩)
    · exact ⟨⟨hap, hpx.trans_le (hxy.trans hyb)⟩, fun hp => absurd hpx (not_lt.mpr hp.1)⟩
    · exact ⟨⟨hax.trans (hxy.trans hyp), hpb⟩, fun hp => absurd hp.2 (not_lt.mpr hyp)⟩

/-- A range from `x` to `y` that reaches into neither of two neighbours lies in the gap from `left`
to `right` between them. -/
theorem le_gap {left right : K} (hlow : a ≤ x) (hle : x ≤ y) (hhigh : y ≤ b)
    (h₁ : ¬((a ≤ x ∧ x ≤ left) ∧ right ≤ y ∧ y ≤ b)) (h₂ : ¬((a ≤ x ∧ x ≤ left) ∧ a ≤ y ∧ y ≤ left))
    (h₃ : ¬((right ≤ x ∧ x ≤ b) ∧ right ≤ y ∧ y ≤ b))
    (h₄ : ¬((left ≤ x ∧ x ≤ right) ∧ right ≤ y ∧ y ≤ b))
    (h₅ : ¬((a ≤ x ∧ x ≤ left) ∧ left ≤ y ∧ y ≤ right)) : left ≤ x ∧ y ≤ right := by
  grind

end

/-! ## Nodes between their bounds -/

variable {k a b high low : Str} {d : ℕ} {S : Set Str} {root : RangeTreeNode}

namespace RangeTreeNode

/-- The bounds of the children are in order, down to the leaves. -/
def WellFormed : RangeTreeNode → Str → Str → Prop
  | leaf _ _, low, high => low ≤ high
  | node _ l r _, low, high =>
    l.ukey ≤ r.ukey ∧ l.WellFormed low l.ukey ∧ r.WellFormed r.ukey high

def keys : RangeTreeNode → Str → Str → Set Str
  | leaf _ _, low, high => Set.Ico low high
  | node _ l r _, low, high => l.keys low l.ukey ∪ r.keys r.ukey high

@[simp] theorem ukey_leaf (k : Str) (d : ℕ) : (leaf k d).ukey = k := rfl

@[simp] theorem ukey_node (k : Str) (l r : RangeTreeNode) (d : ℕ) : (node k l r d).ukey = k := rfl

@[simp] theorem ukey_newRangeTreeLeaf (k : Str) : (newRangeTreeLeaf k).ukey = k := rfl

@[simp] theorem ukey_setUkey (k : Str) (t : RangeTreeNode) : (t.setUkey k).ukey = k := by
  cases t <;> rfl

@[simp] theorem keys_setUkey (k : Str) (t : RangeTreeNode) (low high : Str) :
    (t.setUkey k).keys low high = t.keys low high := by
  cases t <;> rfl

@[simp] theorem wellFormed_setUkey (k : Str) (t : RangeTreeNode) (low high : Str) :
    (t.setUkey k).WellFormed low high ↔ t.WellFormed low high := by
  cases t <;> rfl

@[simp] theorem keys_newRangeTreeLeaf (k low high : Str) :
    (newRangeTreeLeaf k).keys low high = Set.Ico low high := rfl

variable {t l r : RangeTreeNode} {low high rangeLow rangeHigh : Str}

section

variable (h : t.WellFormed low high)

include h

theorem WellFormed.le : low ≤ high := by
  induction t generalizing low high with
  | leaf k d => exact h
  | node k l r d ihl ihr =>
    obtain ⟨hlr, hl, hr⟩ := h
    exact (ihl hl).trans (hlr.trans (ihr hr))

theorem WellFormed.keys_subset : t.keys low high ⊆ Set.Ico low high := by
  induction t generalizing low high with
  | leaf k d => exact subset_rfl
  | node k l r d ihl ihr =>
    obtain ⟨hlr, hl, hr⟩ := h
    apply Set.union_subset
    · exact (ihl hl).trans (Set.Ico_subset_Ico_right (hlr.trans hr.le))
    · exact (ihr hr).trans (Set.Ico_subset_Ico_left (hl.le.trans hlr))

theorem WellFormed.extend_high {high' : Str} (hh : high ≤ high') :
    t.WellFormed low high' := by
  induction t generalizing low high with
  | leaf k d => exact le_trans h hh
  | node k l r d ihl ihr => exact ⟨h.1, h.2.1, ihr h.2.2 hh⟩

theorem WellFormed.extend_low {low' : Str} (hl : low' ≤ low) :
    t.WellFormed low' high := by
  induction t generalizing low high with
  | leaf k d => exact le_trans hl h
  | node k l r d ihl ihr => exact ⟨h.1, ihl h.2.1 hl, h.2.2⟩

/-- A higher upper bound extends the last leaf. -/
theorem WellFormed.keys_extend_high {high' : Str} (hh : high ≤ high') :
    t.keys low high' = t.keys low high ∪ Set.Ico high high' := by
  induction t generalizing low high with
  | leaf k d => exact (Set.Ico_union_Ico_eq_Ico h hh).symm
  | node k l r d ihl ihr => rw [keys, keys, ihr h.2.2 hh, Set.union_assoc]

/-- A lower lower bound extends the first leaf. -/
theorem WellFormed.keys_extend_low {low' : Str} (hl : low' ≤ low) :
    t.keys low' high = Set.Ico low' low ∪ t.keys low high := by
  induction t generalizing low high with
  | leaf k d => exact (Set.Ico_union_Ico_eq_Ico hl h).symm
  | node k l r d ihl ihr => rw [keys, keys, ihl h.2.1 hl, Set.union_assoc]

theorem search_eq (p : Str) :
    t.search p low high = true ↔ p ∈ t.keys low high := by
  induction t generalizing low high with
  | leaf k d => simp [search, strInRangeRightOpen, keys]
  | node k l r d ihl ihr =>
    obtain ⟨hlr, hl, hr⟩ := h
    have hleft : p ∈ l.keys low l.ukey → p < l.ukey := fun hp => (hl.keys_subset hp).2
    have hright : p ∈ r.keys r.ukey high → r.ukey ≤ p := fun hp => (hr.keys_subset hp).1
    rw [search, keys, Set.mem_union]
    split_ifs with h₁ h₂
    · rw [ihl hl]
      exact ⟨Or.inl, fun hp => hp.resolve_right fun hp => absurd (hlr.trans (hright hp)) (not_le.mpr h₁)⟩
    · rw [ihr hr]
      exact ⟨Or.inr, fun hp => hp.resolve_left fun hp => h₁ (hleft hp)⟩
    · constructor
      · intro hp
        cases hp
      · rintro (hp | hp)
        · exact absurd (hleft hp) h₁
        · exact absurd (hright hp) h₂

end

theorem keysOf_range (t : RangeTreeNode) (outputList : List (List Str)) (low high : Str) :
    RangeList.keysOf (t.range outputList low high) =
      RangeList.keysOf outputList ∪ t.keys low high := by
  induction t generalizing outputList low high with
  | leaf k d => rw [range, RangeList.keysOf_append_pair, keys]
  | node k l r d ihl ihr => rw [range, ihr, ihl, keys, Set.union_assoc]

theorem exists_pair_of_mem_range {outputList : List (List Str)}
    (hout : ∀ pair ∈ outputList, ∃ low high, pair = [low, high]) :
    ∀ pair ∈ t.range outputList low high, ∃ low high, pair = [low, high] := by
  induction t generalizing outputList low high with
  | leaf k d =>
    intro pair hpair
    rcases List.mem_append.mp hpair with hpair | hpair
    · exact hout pair hpair
    · exact ⟨low, high, List.mem_singleton.mp hpair⟩
  | node k l r d ihl ihr => exact ihr (ihl hout)

/-! ## Adding -/

/-- What a node became holds the keys `S` between the same bounds, and its own bound stays. -/
structure Became (t : RangeTreeNode) (low high : Str) (S : Set Str) (t' : RangeTreeNode) : Prop where
  ukey : t'.ukey = t.ukey
  wellFormed : t'.WellFormed low high
  keys : t'.keys low high = S

theorem rejoin_became {l' r' : RangeTreeNode} (hlr : l'.ukey ≤ r'.ukey)
    (hl : l'.WellFormed low l'.ukey) (hr : r'.WellFormed r'.ukey high) :
    Became (node k l r d) low high (l'.keys low l'.ukey ∪ r'.keys r'.ukey high)
      (rejoin k l' r') := by
  unfold rejoin
  by_cases h : (l'.isLeaf && r'.isLeaf && l'.ukey == r'.ukey) = true
  · rw [if_pos h]
    refine ⟨rfl, hl.le.trans (hlr.trans hr.le), ?_⟩
    -- both children are leaves, and the first ends where the second starts
    cases l' with
    | node => simp [isLeaf] at h
    | leaf k₁ d₁ =>
      cases r' with
      | node => simp [isLeaf] at h
      | leaf k₂ d₂ =>
        obtain rfl : k₁ = k₂ := by simpa [isLeaf] using h
        exact (Set.Ico_union_Ico_eq_Ico hl hr).symm
  · rw [if_neg h]
    exact ⟨rfl, ⟨hlr, hl, hr⟩, rfl⟩

theorem strInRange_iff {s u v : Str} : strInRange s u v = true ↔ u ≤ s ∧ s ≤ v := by
  simp [strInRange]

theorem Became.congr {S' : Set Str} {t' : RangeTreeNode} (h : Became t low high S t')
    (hS : S = S') : Became t low high S' t' := hS ▸ h

theorem rejoin_left {l' : RangeTreeNode} (hlr : l'.ukey ≤ r.ukey) (hl : l'.WellFormed low l'.ukey)
    (hr : r.WellFormed r.ukey high) (hkeys : l'.keys low l'.ukey = l.keys low l.ukey ∪ S) :
    Became (node k l r d) low high ((node k l r d).keys low high ∪ S) (rejoin k l' r) := by
  refine (rejoin_became hlr hl hr).congr ?_
  rw [hkeys, keys]
  ac_rfl

theorem rejoin_right {r' : RangeTreeNode} (hlr : l.ukey ≤ r'.ukey) (hl : l.WellFormed low l.ukey)
    (hr : r'.WellFormed r'.ukey high) (hkeys : r'.keys r'.ukey high = r.keys r.ukey high ∪ S) :
    Became (node k l r d) low high ((node k l r d).keys low high ∪ S) (rejoin k l r') := by
  refine (rejoin_became hlr hl hr).congr ?_
  rw [hkeys, keys, Set.union_assoc]

/-- **`AddRange`** of a node does not panic and adds the keys of a range within its bounds. -/
theorem addRange_eq (h : t.WellFormed low high) (hlow : low ≤ rangeLow) (hle : rangeLow ≤ rangeHigh)
    (hhigh : rangeHigh ≤ high) :
    ∃ t', t.addRange low rangeLow rangeHigh high = some t' ∧
      Became t low high (t.keys low high ∪ Set.Ico rangeLow rangeHigh) t' := by
  induction t generalizing low rangeLow rangeHigh high with
  | leaf k d =>
    refine ⟨leaf k d, rfl, rfl, h, ?_⟩
    exact (Set.union_eq_self_of_subset_right (Set.Ico_subset_Ico hlow hhigh)).symm
  | node k l r d ihl ihr =>
    obtain ⟨hlr, hl, hr⟩ := h
    simp only [addRange, Bool.and_eq_true, strInRange_iff, Option.bind_eq_bind, Option.pure_def]
    split_ifs with h₁ h₂ h₃ h₄ h₅ h₆ hdepth
    · -- the range reaches from the left child into the right one, and the gap between them closes
      obtain ⟨l', hl₁, hl'⟩ := ihl hl hlow h₁.1.2 le_rfl
      obtain ⟨r', hr₁, hr'⟩ := ihr hr le_rfl h₁.2.1 hhigh
      have hgap : Set.Ico rangeLow rangeHigh =
          Set.Ico rangeLow l.ukey ∪ Set.Ico l.ukey r.ukey ∪ Set.Ico r.ukey rangeHigh := by
        rw [Set.Ico_union_Ico_eq_Ico h₁.1.2 hlr, Set.Ico_union_Ico_eq_Ico (h₁.1.2.trans hlr) h₁.2.1]
      simp only [hl₁, hr₁, Option.bind_some]
      split_ifs
      · refine ⟨_, rfl, (rejoin_became ?_ ?_ ?_).congr ?_⟩
        · simp
        · simpa [hr'.ukey] using hl'.wellFormed.extend_high hlr
        · simpa [hr'.ukey] using hr'.wellFormed
        · simp only [keys_setUkey, ukey_setUkey, hr'.ukey, hr'.keys, hgap,
            hl'.wellFormed.keys_extend_high hlr, hl'.keys, keys]
          ac_rfl
      · refine ⟨_, rfl, (rejoin_became ?_ ?_ ?_).congr ?_⟩
        · simp
        · simpa [hl'.ukey] using hl'.wellFormed
        · simpa [hl'.ukey] using hr'.wellFormed.extend_low hlr
        · simp only [keys_setUkey, ukey_setUkey, hl'.ukey, hl'.keys, hgap,
            hr'.wellFormed.keys_extend_low hlr, hr'.keys, keys]
          ac_rfl
    · obtain ⟨l', hl₁, hl'⟩ := ihl hl hlow hle h₂.2.2
      simp only [hl₁, Option.bind_some]
      refine ⟨_, rfl, rejoin_left ?_ ?_ hr ?_⟩
      · rwa [hl'.ukey]
      · rw [hl'.ukey]
        exact hl'.wellFormed
      · rw [hl'.ukey, hl'.keys]
    · obtain ⟨r', hr₁, hr'⟩ := ihr hr h₃.1.1 hle hhigh
      simp only [hr₁, Option.bind_some]
      refine ⟨_, rfl, rejoin_right ?_ hl ?_ ?_⟩
      · rwa [hr'.ukey]
      · rw [hr'.ukey]
        exact hr'.wellFormed
      · rw [hr'.ukey, hr'.keys]
    · -- the range starts in the gap, and the right child starts where the range does
      obtain ⟨r', hr₁, hr'⟩ := ihr (hr.extend_low h₄.1.2) le_rfl hle hhigh
      have hstart : Set.Ico rangeLow r.ukey ∪ Set.Ico rangeLow rangeHigh =
          Set.Ico rangeLow rangeHigh :=
        Set.union_eq_self_of_subset_left (Set.Ico_subset_Ico_right h₄.2.1)
      simp only [hr₁, Option.bind_some]
      refine ⟨_, rfl, rejoin_right ?_ hl ?_ ?_⟩
      · simpa using h₄.1.1
      · simpa using hr'.wellFormed
      · rw [keys_setUkey, ukey_setUkey, hr'.keys, hr.keys_extend_low h₄.1.2,
          Set.union_comm (Set.Ico rangeLow r.ukey), Set.union_assoc, hstart]
    · -- the range ends in the gap, and the left child ends where the range does
      obtain ⟨l', hl₁, hl'⟩ := ihl (hl.extend_high h₅.2.1) hlow hle le_rfl
      have hend : Set.Ico l.ukey rangeHigh ∪ Set.Ico rangeLow rangeHigh =
          Set.Ico rangeLow rangeHigh :=
        Set.union_eq_self_of_subset_left (Set.Ico_subset_Ico_left h₅.1.2)
      simp only [hl₁, Option.bind_some]
      refine ⟨_, rfl, rejoin_left ?_ ?_ hr ?_⟩
      · simpa using h₅.2.2
      · simpa using hl'.wellFormed
      · rw [keys_setUkey, ukey_setUkey, hl'.keys, hl.keys_extend_high h₅.2.1, Set.union_assoc,
          hend]
    · -- the range lies in the gap and becomes a leaf next to the child that is less deep
      exact ⟨_, rfl, rejoin_left h₆.2.2 ⟨h₆.1.1, hl, hle⟩ hr rfl⟩
    · refine ⟨_, rfl, rejoin_right h₆.1.1 hl ⟨h₆.2.2, hle, hr⟩ ?_⟩
      simp only [keys, ukey_node, ukey_newRangeTreeLeaf, keys_newRangeTreeLeaf]
      exact Set.union_comm _ _
    · -- wherever the ends are, one of the cases applies
      obtain ⟨hl₁, hr₁⟩ := le_gap hlow hle hhigh h₁ h₂ h₃ h₄ h₅
      exact absurd ⟨⟨hl₁, hle.trans hr₁⟩, hl₁.trans hle, hr₁⟩ h₆

/-! ## Deleting -/

/-- What is left of a node holds the keys `S` between the bounds `a` and `b`, and its own bound is
still the upper or the lower one. -/
structure Shrunk (t : RangeTreeNode) (low high : Str) (S : Set Str) (t' : RangeTreeNode)
    (a b : Str) : Prop where
  low_le : low ≤ a
  le_high : b ≤ high
  wellFormed : t'.WellFormed a b
  ukey_high : t.ukey = high → t'.ukey = b
  ukey_low : t.ukey = low → t'.ukey = a
  keys : t'.keys a b = S

/-- The same where nothing may be left. -/
def Remains (t : RangeTreeNode) (low high : Str) (S : Set Str) :
    Option RangeTreeNode → Str → Str → Prop
  | none, _, _ => S = ∅
  | some t', a, b => Shrunk t low high S t' a b

theorem Remains.congr {S' : Set Str} {o : Option RangeTreeNode} (h : Remains t low high S o a b)
    (hS : S = S') : Remains t low high S' o a b := hS ▸ h

theorem remains_self (h : t.WellFormed low high) :
    Remains t low high (t.keys low high) (some t) low high :=
  ⟨le_rfl, le_rfl, h, id, id, rfl⟩

/-- The end of `DeleteRange` does not panic and puts together what is left of the children. -/
theorem keep_eq {la ra : Str} {Sl Sr : Set Str} {lo ro : Option RangeTreeNode} (hne : low ≠ high)
    (hk : k = high ∨ k = low) (h : (node k l r d).WellFormed low high)
    (hl : Remains l low l.ukey Sl lo a la) (hr : Remains r r.ukey high Sr ro ra b) :
    ∃ o a' b', keep k low high lo a ro b = some (o, a', b') ∧
      Remains (node k l r d) low high (Sl ∪ Sr) o a' b' := by
  obtain ⟨hlr, hwl, hwr⟩ := h
  cases lo with
  | none =>
    obtain rfl : Sl = ∅ := hl
    cases ro with
    | none =>
      obtain rfl : Sr = ∅ := hr
      exact ⟨none, a, b, rfl, Set.union_empty ∅⟩
    | some r' =>
      have hra : r'.ukey = ra := hr.ukey_low rfl
      have hlow : low ≤ ra := hwl.le.trans (hlr.trans hr.low_le)
      rcases hk with rfl | rfl
      · refine ⟨some (r'.setUkey b), r'.ukey, b, if_pos rfl, ?_⟩
        rw [hra]
        exact ⟨hlow, hr.le_high, by simpa using hr.wellFormed, fun _ => by simp,
          fun hlow => absurd hlow.symm hne, by simpa using hr.keys⟩
      · refine ⟨some r', r'.ukey, b, ?_, ?_⟩
        · simp only [keep, if_neg hne, if_true]
        · rw [hra]
          exact ⟨hlow, hr.le_high, hr.wellFormed, fun hhigh => absurd hhigh hne, fun _ => hra,
            by simpa using hr.keys⟩
  | some l' =>
    have hla : l'.ukey = la := hl.ukey_high rfl
    cases ro with
    | none =>
      obtain rfl : Sr = ∅ := hr
      have hhigh : la ≤ high := hl.le_high.trans (hlr.trans hwr.le)
      rcases hk with rfl | rfl
      · refine ⟨some l', a, l'.ukey, if_pos rfl, ?_⟩
        rw [hla]
        exact ⟨hl.low_le, hhigh, hl.wellFormed, fun _ => hla, fun hlow => absurd hlow.symm hne,
          by simpa using hl.keys⟩
      · refine ⟨some (l'.setUkey a), a, l'.ukey, ?_, ?_⟩
        · simp only [keep, if_neg hne, if_true]
        · rw [hla]
          exact ⟨hl.low_le, hhigh, by simpa using hl.wellFormed, fun hhigh => absurd hhigh hne,
            fun _ => by simp, by simpa using hl.keys⟩
    | some r' =>
      have hra : r'.ukey = ra := hr.ukey_low rfl
      have hw (k' : Str) (d' : ℕ) : (node k' l' r' d').WellFormed a b := by
        refine ⟨?_, ?_, ?_⟩
        · rw [hla, hra]
          exact hl.le_high.trans (hlr.trans hr.low_le)
        · rw [hla]
          exact hl.wellFormed
        · rw [hra]
          exact hr.wellFormed
      have hkeys (k' : Str) (d' : ℕ) : (node k' l' r' d').keys a b = Sl ∪ Sr := by
        rw [RangeTreeNode.keys, hla, hra, hl.keys, hr.keys]
      rcases hk with rfl | rfl
      · exact ⟨_, a, b, if_pos rfl, hl.low_le, hr.le_high, hw _ _, fun _ => rfl,
          fun hlow => absurd hlow.symm hne, hkeys _ _⟩
      · refine ⟨some (node a l' r' (if l'.depth > r'.depth then l'.depth + 1 else r'.depth + 1)),
          a, b, ?_, hl.low_le, hr.le_high, hw a _, fun hhigh => absurd hhigh hne, fun _ => rfl,
          hkeys a _⟩
        simp only [keep, if_neg hne, if_true]

/-- The same, where the keys `I` have been taken from both children. -/
theorem keep_sdiff {la ra : Str} {I : Set Str} {lo ro : Option RangeTreeNode} (hne : low ≠ high)
    (hk : k = high ∨ k = low) (h : (node k l r d).WellFormed low high)
    (hl : Remains l low l.ukey (l.keys low l.ukey \ I) lo a la)
    (hr : Remains r r.ukey high (r.keys r.ukey high \ I) ro ra b) :
    ∃ o a' b', keep k low high lo a ro b = some (o, a', b') ∧
      Remains (node k l r d) low high ((node k l r d).keys low high \ I) o a' b' := by
  obtain ⟨o, a', b', hkeep, hrem⟩ := keep_eq hne hk h hl hr
  refine ⟨o, a', b', hkeep, hrem.congr ?_⟩
  rw [keys, Set.union_sdiff_distrib]

theorem remains_none (h : t.WellFormed low high) (hall : rangeLow = low ∧ rangeHigh = high)
    (a b : Str) :
    Remains t low high (t.keys low high \ Set.Ico rangeLow rangeHigh) none a b := by
  rw [hall.1, hall.2]
  exact Set.sdiff_eq_empty.mpr h.keys_subset

theorem remains_of_empty (h : t.WellFormed low high) (hempty : rangeLow = rangeHigh) :
    Remains t low high (t.keys low high \ Set.Ico rangeLow rangeHigh) (some t) low high := by
  rw [hempty, Set.Ico_self, Set.sdiff_empty]
  exact remains_self h

theorem deleteRange_leaf (k : Str) (d : ℕ) (hlow : low ≤ rangeLow) (hle : rangeLow ≤ rangeHigh)
    (hhigh : rangeHigh ≤ high) :
    ∃ o a b, (leaf k d).deleteRange low rangeLow rangeHigh high = some (o, a, b) ∧
      Remains (leaf k d) low high ((leaf k d).keys low high \ Set.Ico rangeLow rangeHigh) o a b := by
  have hw : (leaf k d).WellFormed low high := hlow.trans (hle.trans hhigh)
  have hkeys : (leaf k d).keys low high \ Set.Ico rangeLow rangeHigh =
      Set.Ico low rangeLow ∪ Set.Ico rangeHigh high := Ico_sdiff_Ico hlow hle hhigh
  unfold deleteRange
  split_ifs with hall hempty hend hk hstart hk
  · exact ⟨_, _, _, rfl, remains_none hw hall _ _⟩
  · exact ⟨_, _, _, rfl, remains_of_empty hw hempty⟩
  · -- the end of the range goes
    subst hend
    have hne : low ≠ rangeLow := fun h => hall ⟨h.symm, rfl⟩
    refine ⟨_, _, _, rfl, le_rfl, hle, hlow, fun _ => rfl, fun hkl => ?_, ?_⟩
    · exact absurd (hkl.symm.trans hk) (lt_of_lt_of_le (hlow.lt_of_ne hne) hle).ne
    · rw [hkeys, Set.Ico_self, Set.union_empty]
      rfl
  · subst hend
    refine ⟨_, _, _, rfl, le_rfl, hle, hlow, fun hkh => absurd hkh hk, id, ?_⟩
    rw [hkeys, Set.Ico_self, Set.union_empty]
    rfl
  · -- the start of the range goes
    subst hstart
    refine ⟨_, _, _, rfl, hle, le_rfl, hhigh, fun hkh => ?_, fun _ => rfl, ?_⟩
    · exact absurd (hk.symm.trans hkh) (lt_of_le_of_lt hle (hhigh.lt_of_ne hend)).ne
    · rw [hkeys, Set.Ico_self, Set.empty_union]
      rfl
  · subst hstart
    refine ⟨_, _, _, rfl, hle, le_rfl, hhigh, id, fun hkl => absurd hkl hk, ?_⟩
    rw [hkeys, Set.Ico_self, Set.empty_union]
    rfl
  · -- the middle goes, and two leaves are left
    exact ⟨_, _, _, rfl, le_rfl, le_rfl, ⟨hle, hlow, hhigh⟩, id, id, hkeys.symm⟩

/-- **`DeleteRange`** of a node does not panic and removes the keys of a range within its bounds. -/
theorem deleteRange_eq (h : t.WellFormed low high) (hk : t.ukey = high ∨ t.ukey = low)
    (hlow : low ≤ rangeLow) (hle : rangeLow ≤ rangeHigh) (hhigh : rangeHigh ≤ high) :
    ∃ o a b, t.deleteRange low rangeLow rangeHigh high = some (o, a, b) ∧
      Remains t low high (t.keys low high \ Set.Ico rangeLow rangeHigh) o a b := by
  induction t generalizing low rangeLow rangeHigh high with
  | leaf k d => exact deleteRange_leaf k d hlow hle hhigh
  | node k l r d ihl ihr =>
    have ⟨hlr, hl, hr⟩ := h
    rw [ukey_node] at hk
    simp only [deleteRange, Bool.and_eq_true, strInRange_iff, Option.bind_eq_bind]
    by_cases hall : rangeLow = low ∧ rangeHigh = high
    · rw [if_pos hall]
      exact ⟨_, _, _, rfl, remains_none h hall _ _⟩
    by_cases hempty : rangeLow = rangeHigh
    · rw [if_neg hall, if_pos hempty]
      exact ⟨_, _, _, rfl, remains_of_empty h hempty⟩
    rw [if_neg hall, if_neg hempty]
    have hne : low ≠ high := (hlow.trans_lt ((hle.lt_of_ne hempty).trans_le hhigh)).ne
    -- from each child goes the part of the range that meets it
    split_ifs with h₁ h₂ h₃ h₄ h₅
    · obtain ⟨lo, a, la, hl₁, hl'⟩ := ihl hl (.inl rfl) hlow h₁.1.2 le_rfl
      obtain ⟨ro, ra, b, hr₁, hr'⟩ := ihr hr (.inr rfl) le_rfl h₁.2.1 hhigh
      simp only [hl₁, hr₁, Option.bind_some]
      refine keep_sdiff hne hk h (hl'.congr ?_) (hr'.congr ?_)
      · exact (sdiff_Ico_of_le_right hl.keys_subset (hlr.trans h₁.2.1)).symm
      · exact (sdiff_Ico_of_le_left hr.keys_subset (h₁.1.2.trans hlr)).symm
    · obtain ⟨lo, a, la, hl₁, hl'⟩ := ihl hl (.inl rfl) hlow hle h₂.2.2
      simp only [hl₁, Option.bind_some]
      refine keep_sdiff hne hk h hl' ((remains_self hr).congr ?_)
      exact (sdiff_Ico_of_le_start hr.keys_subset (h₂.2.2.trans hlr)).symm
    · obtain ⟨ro, ra, b, hr₁, hr'⟩ := ihr hr (.inr rfl) h₃.1.1 hle hhigh
      simp only [hr₁, Option.bind_some]
      refine keep_sdiff hne hk h ((remains_self hl).congr ?_) hr'
      exact (sdiff_Ico_of_right_le hl.keys_subset (hlr.trans h₃.1.1)).symm
    · obtain ⟨ro, ra, b, hr₁, hr'⟩ := ihr hr (.inr rfl) le_rfl h₄.2.1 hhigh
      simp only [hr₁, Option.bind_some]
      refine keep_sdiff hne hk h ((remains_self hl).congr ?_) (hr'.congr ?_)
      · exact (sdiff_Ico_of_right_le hl.keys_subset h₄.1.1).symm
      · exact (sdiff_Ico_of_le_left hr.keys_subset h₄.1.2).symm
    · obtain ⟨lo, a, la, hl₁, hl'⟩ := ihl hl (.inl rfl) hlow h₅.1.2 le_rfl
      simp only [hl₁, Option.bind_some]
      refine keep_sdiff hne hk h (hl'.congr ?_) ((remains_self hr).congr ?_)
      · exact (sdiff_Ico_of_le_right hl.keys_subset h₅.2.1).symm
      · exact (sdiff_Ico_of_le_start hr.keys_subset h₅.2.2).symm
    · -- the range lies in the gap
      obtain ⟨hgapl, hgapr⟩ := le_gap hlow hle hhigh h₁ h₂ h₃ h₄ h₅
      refine keep_sdiff hne hk h ((remains_self hl).congr ?_) ((remains_self hr).congr ?_)
      · exact (sdiff_Ico_of_right_le hl.keys_subset hgapl).symm
      · exact (sdiff_Ico_of_le_start hr.keys_subset hgapr).symm

end RangeTreeNode

/-! ## Trees -/

namespace RangeTree

/-- The root is well formed between the bounds of the tree, and its own bound is the upper one. -/
structure WellFormed (t : RangeTree) : Prop where
  root : ∀ root ∈ t.root, root.WellFormed t.startKey t.endKey
  ukey : ∀ root ∈ t.root, root.ukey = t.endKey

def keys (t : RangeTree) : Set Str :=
  match t.root with
  | none => ∅
  | some root => root.keys t.startKey t.endKey

theorem wellFormed_newRangeTree : newRangeTree.WellFormed :=
  ⟨by simp [newRangeTree], by simp [newRangeTree]⟩

@[simp] theorem keys_newRangeTree : newRangeTree.keys = ∅ := rfl

theorem wellFormed_some (h : root.WellFormed low high) (hk : root.ukey = high) :
    WellFormed ⟨low, high, some root⟩ where
  root root' hroot := by
    obtain rfl := Option.some.inj hroot
    exact h
  ukey root' hroot := by
    obtain rfl := Option.some.inj hroot
    exact hk

variable {t : RangeTree}

/-- Where the range meets the tree, moving the upper bound out adds only keys of the range. -/
theorem extend_end {rangeLow : Str} (rangeHigh : Str) (h : root.WellFormed low high)
    (hk : root.ukey = high) (hend : rangeLow ≤ high) :
    ∃ high' root', (if rangeHigh > high then (rangeHigh, root.setUkey rangeHigh) else (high, root)) =
        (high', root') ∧ root'.WellFormed low high' ∧ root'.ukey = high' ∧ rangeHigh ≤ high' ∧
      root'.keys low high' ∪ Set.Ico rangeLow rangeHigh =
        root.keys low high ∪ Set.Ico rangeLow rangeHigh := by
  by_cases hout : rangeHigh > high
  · refine ⟨rangeHigh, root.setUkey rangeHigh, if_pos hout, ?_, by simp, le_rfl, ?_⟩
    · simpa using h.extend_high hout.le
    · rw [RangeTreeNode.keys_setUkey, h.keys_extend_high hout.le, Set.union_assoc,
        Set.union_eq_self_of_subset_left (Set.Ico_subset_Ico_left hend)]
  · exact ⟨high, root, if_neg hout, h, hk, not_lt.mp hout, rfl⟩

/-- The same for the lower bound. -/
theorem extend_start {rangeHigh : Str} (rangeLow : Str) (h : root.WellFormed low high)
    (hstart : low ≤ rangeHigh) :
    ∃ low', (if rangeLow < low then rangeLow else low) = low' ∧ root.WellFormed low' high ∧
      low' ≤ rangeLow ∧ root.keys low' high ∪ Set.Ico rangeLow rangeHigh =
        root.keys low high ∪ Set.Ico rangeLow rangeHigh := by
  by_cases hout : rangeLow < low
  · refine ⟨rangeLow, if_pos hout, h.extend_low hout.le, le_rfl, ?_⟩
    rw [h.keys_extend_low hout.le, Set.union_comm (Set.Ico rangeLow low), Set.union_assoc,
      Set.union_eq_self_of_subset_left (Set.Ico_subset_Ico_right hstart)]
  · exact ⟨low, if_neg hout, h, not_lt.mp hout, rfl⟩

/-- **`AddRange`** does not panic and adds the keys from `rangeLow` up to `rangeHigh`. -/
theorem addRange_eq (h : t.WellFormed) (rangeLow rangeHigh : Str) :
    ∃ t', t.addRange rangeLow rangeHigh = some t' ∧ t'.WellFormed ∧
      t'.keys = t.keys ∪ Set.Ico rangeLow rangeHigh := by
  unfold addRange
  by_cases hlt : rangeHigh < rangeLow
  · refine ⟨t, if_pos hlt, h, ?_⟩
    rw [Set.Ico_eq_empty (not_lt.mpr hlt.le), Set.union_empty]
  rw [if_neg hlt]
  have hle := not_lt.mp hlt
  obtain ⟨startKey, endKey, _ | root⟩ := t
  · refine ⟨_, rfl, wellFormed_some hle rfl, ?_⟩
    exact (Set.empty_union _).symm
  have hroot : root.WellFormed startKey endKey := h.root root rfl
  have hk : root.ukey = endKey := h.ukey root rfl
  simp only
  by_cases hbefore : rangeHigh < startKey
  · -- the range comes before all others and becomes a left child
    rw [if_pos hbefore]
    refine ⟨_, rfl, wellFormed_some ⟨?_, hle, ?_⟩ rfl, ?_⟩
    · simpa using hbefore.le
    · simpa using hroot
    · simp [keys, RangeTreeNode.keys, Set.union_comm]
  by_cases hafter : rangeLow > endKey
  · -- the range comes after all others and becomes a right child
    rw [if_neg hbefore, if_pos hafter]
    refine ⟨_, rfl, wellFormed_some ⟨?_, ?_, hle⟩ rfl, ?_⟩
    · simpa [hk] using hafter.le
    · rwa [hk]
    · simp [keys, RangeTreeNode.keys, hk]
  -- the range meets the tree, whose bounds move outwards first
  obtain ⟨high, root₁, hend, hroot₁, hk₁, hhigh, hkeys₁⟩ :=
    extend_end rangeHigh hroot hk (not_lt.mp hafter)
  obtain ⟨low, hstart, hroot₂, hlow, hkeys₂⟩ :=
    extend_start rangeLow hroot₁ (not_lt.mp hbefore)
  obtain ⟨root', hadd, hroot'⟩ := RangeTreeNode.addRange_eq hroot₂ hlow hle hhigh
  rw [if_neg hbefore, if_neg hafter, hend, hstart]
  refine ⟨⟨low, high, some root'⟩, ?_, wellFormed_some hroot'.wellFormed (hroot'.ukey.trans hk₁), ?_⟩
  · simp [hadd]
  · exact hroot'.keys.trans (hkeys₂.trans hkeys₁)

/-- **`DeleteRange`** does not panic and removes the keys from `rangeLow` up to `rangeHigh`. -/
theorem deleteRange_eq (h : t.WellFormed) (rangeLow rangeHigh : Str) :
    ∃ t', t.deleteRange rangeLow rangeHigh = some t' ∧ t'.WellFormed ∧
      t'.keys = t.keys \ Set.Ico rangeLow rangeHigh := by
  unfold deleteRange
  obtain ⟨startKey, endKey, _ | root⟩ := t
  · exact ⟨_, rfl, h, (Set.empty_sdiff _).symm⟩
  have hroot : root.WellFormed startKey endKey := h.root root rfl
  have hsub := hroot.keys_subset
  simp only
  by_cases hlt : rangeHigh < rangeLow
  · refine ⟨_, if_pos hlt, h, ?_⟩
    rw [Set.Ico_eq_empty (not_lt.mpr hlt.le), Set.sdiff_empty]
  have hle := not_lt.mp hlt
  by_cases hout : rangeHigh < startKey ∨ rangeLow > endKey
  · refine ⟨_, by rw [if_neg hlt, if_pos hout], h, ?_⟩
    rcases hout with hbefore | hafter
    · exact (sdiff_Ico_of_le_start hsub hbefore.le).symm
    · exact (sdiff_Ico_of_right_le hsub hafter.le).symm
  obtain ⟨hstart, hend⟩ := not_or.mp hout
  -- the range is cut to the bounds of the tree
  have hmax : (if rangeLow < startKey then startKey else rangeLow) = max rangeLow startKey := by
    split_ifs with hcut
    · exact (max_eq_right hcut.le).symm
    · exact (max_eq_left (not_lt.mp hcut)).symm
  have hmin : (if rangeHigh > endKey then endKey else rangeHigh) = min endKey rangeHigh := by
    split_ifs with hcut
    · exact (min_eq_left hcut.le).symm
    · exact (min_eq_right (not_lt.mp hcut)).symm
  have hcut : max rangeLow startKey ≤ min endKey rangeHigh :=
    max_le (le_min (not_lt.mp hend) hle) (le_min hroot.le (not_lt.mp hstart))
  obtain ⟨o, a, b, hdel, hrem⟩ := RangeTreeNode.deleteRange_eq hroot (.inl (h.ukey root rfl))
    (le_max_right rangeLow startKey) hcut (min_le_left _ _)
  rw [if_neg hlt, if_neg hout, hmax, hmin, hdel]
  rw [sdiff_Ico_max hsub, sdiff_Ico_min hsub] at hrem
  refine ⟨⟨a, b, o⟩, rfl, ?_⟩
  cases o with
  | none => exact ⟨⟨by simp, by simp⟩, hrem.symm⟩
  | some root' => exact ⟨wellFormed_some hrem.wellFormed (hrem.ukey_high (h.ukey root rfl)), hrem.keys⟩

theorem search_eq (h : t.WellFormed) (p : Str) : t.search p = true ↔ p ∈ t.keys := by
  obtain ⟨startKey, endKey, _ | root⟩ := t
  · simp [search, keys]
  · exact RangeTreeNode.search_eq (h.root root rfl) p

theorem keysOf_range (t : RangeTree) : RangeList.keysOf t.range = t.keys := by
  obtain ⟨startKey, endKey, _ | root⟩ := t
  · exact RangeList.keysOf_nil
  · show RangeList.keysOf (root.range [] startKey endKey) = _
    rw [RangeTreeNode.keysOf_range, RangeList.keysOf_nil, Set.empty_union]
    rfl

/-- **`Add`** does not panic, whatever the other tree is, and adds its keys. -/
theorem add_union (h : t.WellFormed) (other : RangeTree) :
    ∃ t', t.add other = some t' ∧ t'.WellFormed ∧ t'.keys = t.keys ∪ other.keys := by
  have hpairs : ∀ pair ∈ other.range, ∃ low high, pair = [low, high] := by
    obtain ⟨startKey, endKey, _ | root⟩ := other
    · intro pair hpair
      cases hpair
    · exact RangeTreeNode.exists_pair_of_mem_range (by simp)
  rw [← keysOf_range other]
  unfold add
  generalize other.range = ranges at hpairs ⊢
  induction ranges generalizing t with
  | nil => exact ⟨t, rfl, h, by rw [RangeList.keysOf_nil, Set.union_empty]⟩
  | cons pair ranges ih =>
    obtain ⟨low, high, rfl⟩ := hpairs pair List.mem_cons_self
    obtain ⟨t₁, hadd, h₁, hkeys₁⟩ := addRange_eq h low high
    obtain ⟨t', hrest, h', hkeys'⟩ := ih h₁ fun p hp => hpairs p (List.mem_cons_of_mem _ hp)
    refine ⟨t', ?_, h', ?_⟩
    · simp only [List.foldlM_cons, hadd]
      exact hrest
    · rw [hkeys', hkeys₁, RangeList.keysOf_cons_pair, Set.union_assoc]

/-- A leaf is added to the empty tree. -/
theorem add_union_leaf : ∃ t', newRangeTree.add ⟨[1], [3], some (newRangeTreeLeaf [3])⟩ = some t' ∧
    t'.WellFormed ∧ t'.keys = newRangeTree.keys ∪ Set.Ico [1] [3] :=
  add_union wellFormed_newRangeTree _

/-! ## The same calls on a tree and on a list -/

inductive Op
  | addRange (rangeLow rangeHigh : Str)
  | deleteRange (rangeLow rangeHigh : Str)
  deriving DecidableEq, Repr

def apply (t : RangeTree) : Op → Option RangeTree
  | .addRange rangeLow rangeHigh => t.addRange rangeLow rangeHigh
  | .deleteRange rangeLow rangeHigh => t.deleteRange rangeLow rangeHigh

/-- The same call for a list. -/
def Op.toList : Op → RangeList.Op
  | .addRange rangeLow rangeHigh => .addRange rangeLow rangeHigh
  | .deleteRange rangeLow rangeHigh => .deleteRange rangeLow rangeHigh

theorem apply_eq (h : t.WellFormed) (op : Op) :
    ∃ t', t.apply op = some t' ∧ t'.WellFormed ∧ t'.keys = op.toList.on t.keys := by
  cases op with
  | addRange rangeLow rangeHigh => exact addRange_eq h rangeLow rangeHigh
  | deleteRange rangeLow rangeHigh => exact deleteRange_eq h rangeLow rangeHigh

theorem run_apply (h : t.WellFormed) (ops : List Op) :
    ∃ t', run apply t ops = some t' ∧ t'.WellFormed ∧
      t'.keys = (ops.map Op.toList).foldl RangeList.Op.on t.keys := by
  induction ops generalizing t with
  | nil => exact ⟨t, rfl, h, rfl⟩
  | cons op ops ih =>
    obtain ⟨t₁, happly, h₁, hkeys⟩ := apply_eq h op
    obtain ⟨t', hrun, h', hkeys'⟩ := ih h₁
    refine ⟨t', run_cons.mpr ⟨t₁, happly, hrun⟩, h', ?_⟩
    rw [hkeys', hkeys, List.map_cons, List.foldl_cons]

/-- **Trees and lists agree**: after any calls on a new tree and a new list, none of which panics,
`Search` answers the same for every key, and the ranges of the tree hold just the keys that are
found. -/
theorem agree_run (ops : List Op) :
    ∃ t r, run apply newRangeTree ops = some t ∧
      run RangeList.apply newRangeList (ops.map Op.toList) = some r ∧
      (∀ p, r.search p = some (t.search p)) ∧
      ∀ p, p ∈ RangeList.keysOf t.range ↔ r.search p = some true := by
  obtain ⟨t, htree, ht, hkeys⟩ := run_apply wellFormed_newRangeTree ops
  obtain ⟨r, hlist, hr, hkeys'⟩ := RangeList.run_apply RangeList.wellFormed_newRangeList
    (ops.map Op.toList)
  have hsame : t.keys = r.keys := by
    rw [hkeys, hkeys', keys_newRangeTree, RangeList.keys_newRangeList]
  have hsearch : ∀ p, r.search p = some (t.search p) := by
    intro p
    rw [RangeList.search_eq hr.pairwise, Option.some.injEq, Bool.eq_iff_iff, search_eq ht, hsame,
      decide_eq_true_eq]
    rfl
  refine ⟨t, r, htree, hlist, hsearch, fun p => ?_⟩
  rw [hsearch p, Option.some.injEq, search_eq ht, keysOf_range]

example : (run apply newRangeTree [.addRange [1] [5], .deleteRange [2] [3], .addRange [5] [7]]).map
    range = some [[[1], [2]], [[3], [7]]] := by decide

end RangeTree

end Emulator
