import Emulator.Utils.RangeTree

/-!
# The nodes of a `RangeTree` in memory

A `RangeTreeNode` has two pointers, either of which could be `nil`, and a depth that the methods
keep up to date. Here the methods run on such nodes: reading a field of `nil` panics, a node is a
leaf when its left pointer is `nil`, and `DeleteRange` may set one pointer and not the other.

* `addRange_ofNode`, `deleteRange_ofNode` — on nodes with no child or two, the methods do what they
  do on the trees of `RangeTreeNode`; a node that has lost one child is replaced at once.
* `Deep` — the depths are right, which every method keeps.
* `represents_run` — after any calls the tree has the shape, the bounds and the depths it should.
-/

namespace Emulator

open scoped RangeList

/-- A pointer to a `RangeTreeNode`. -/
inductive RangeNode
  | nil
  | mk (ukey : Str) (leftChild rightChild : RangeNode) (depth : ℕ)
  deriving DecidableEq, Repr

namespace RangeNode

def ukey : RangeNode → Option Str
  | nil => none
  | mk k _ _ _ => some k

def depth : RangeNode → Option ℕ
  | nil => none
  | mk _ _ _ d => some d

/-- `t.Ukey = k`. -/
def setUkey (k : Str) : RangeNode → Option RangeNode
  | nil => none
  | mk _ l r d => some (mk k l r d)

def isNil : RangeNode → Bool
  | nil => true
  | mk _ _ _ _ => false

def isLeaf : RangeNode → Option Bool
  | nil => none
  | mk _ l _ _ => some l.isNil

def newRangeTreeLeaf (ukey : Str) : RangeNode := mk ukey nil nil 0

/-- The deferred function of `AddRange`. A node whose right pointer alone is `nil` panics in the
test for two leaves or where its depth is read. -/
def rejoin : RangeNode → Option RangeNode
  | nil => none
  | mk k l r _ =>
    if l.isNil then some (mk k l r 0)
    else do
      let leftLeaf ← l.isLeaf
      let rightLeaf ← r.isLeaf
      let left ← l.ukey
      let right ← r.ukey
      let ld ← l.depth
      let rd ← r.depth
      if leftLeaf && rightLeaf && left == right then some (mk k nil nil 0)
      else some (mk k l r (if ld > rd then ld + 1 else rd + 1))

/-- `AddRange`. The bounds of both children are read first: if the right pointer alone is `nil`, the
deferred function panics whatever the cases did. In the fourth and the fifth case the source moves
the bound of the child first; a node does not read its own bound. -/
def addRange : RangeNode → Str → Str → Str → Str → Option RangeNode
  | nil, _, _, _, _ => none
  | mk k l r d, low, rangeLow, rangeHigh, high =>
    if l.isNil then some (mk k l r d)
    else do
      let left ← l.ukey
      let right ← r.ukey
      if strInRange rangeLow low left && strInRange rangeHigh right high then
        let l ← l.addRange low rangeLow left left
        let r ← r.addRange right right rangeHigh high
        let ld ← l.depth
        let rd ← r.depth
        if ld < rd then
          let right ← r.ukey
          let l ← l.setUkey right
          rejoin (mk k l r d)
        else
          let left ← l.ukey
          let r ← r.setUkey left
          rejoin (mk k l r d)
      else if strInRange rangeLow low left && strInRange rangeHigh low left then
        let l ← l.addRange low rangeLow rangeHigh left
        rejoin (mk k l r d)
      else if strInRange rangeLow right high && strInRange rangeHigh right high then
        let r ← r.addRange right rangeLow rangeHigh high
        rejoin (mk k l r d)
      else if strInRange rangeLow left right && strInRange rangeHigh right high then
        let r ← r.addRange rangeLow rangeLow rangeHigh high
        let r ← r.setUkey rangeLow
        rejoin (mk k l r d)
      else if strInRange rangeLow low left && strInRange rangeHigh left right then
        let l ← l.addRange low rangeLow rangeHigh rangeHigh
        let l ← l.setUkey rangeHigh
        rejoin (mk k l r d)
      else if strInRange rangeLow left right && strInRange rangeHigh left right then
        let ld ← l.depth
        let rd ← r.depth
        if ld < rd then
          rejoin (mk k (mk rangeHigh l (newRangeTreeLeaf rangeLow) (ld + 1)) r d)
        else
          rejoin (mk k l (mk rangeLow (newRangeTreeLeaf rangeHigh) r (rd + 1)) d)
      else none

/-- The end of `DeleteRange`, from what the pointers to the children have become. -/
def keep (k low high : Str) (l : RangeNode) (leftRange : Str) (r : RangeNode) (rightRange : Str) :
    Option (RangeNode × Str × Str) :=
  if l.isNil && r.isNil then some (nil, leftRange, rightRange)
  else do
    let (ukey, isLeft) ←
      if k = high then some (rightRange, true)
      else if k = low then some (leftRange, false)
      else none
    if !l.isNil && !r.isNil then
      let ld ← l.depth
      let rd ← r.depth
      some (mk ukey l r (if ld > rd then ld + 1 else rd + 1), leftRange, rightRange)
    else if !l.isNil then
      let left ← l.ukey
      let l ← if isLeft then some l else l.setUkey leftRange
      some (l, leftRange, left)
    else
      let right ← r.ukey
      let r ← if isLeft then r.setUkey rightRange else some r
      some (r, right, rightRange)

/-- `DeleteRange`: what is left of the node, and its bounds. Without a right child, the first case
of the switch that is not already out reads its bound and panics. -/
def deleteRange : RangeNode → Str → Str → Str → Str → Option (RangeNode × Str × Str)
  | nil, low, rangeLow, rangeHigh, high =>
    if rangeLow = low ∧ rangeHigh = high then some (nil, low, high)
    else if rangeLow = rangeHigh then some (nil, low, high)
    else none
  | mk k l r d, low, rangeLow, rangeHigh, high =>
    if rangeLow = low ∧ rangeHigh = high then some (nil, low, high)
    else if rangeLow = rangeHigh then some (mk k l r d, low, high)
    else if l.isNil then
      if rangeHigh = high then some (mk (if k = high then rangeLow else k) l r d, low, rangeLow)
      else if rangeLow = low then some (mk (if k = low then rangeHigh else k) l r d, rangeHigh, high)
      else
        some (mk k (newRangeTreeLeaf rangeLow) (newRangeTreeLeaf rangeHigh) (d + 1), low, high)
    else do
      let left ← l.ukey
      let right ← r.ukey
      if strInRange rangeLow low left && strInRange rangeHigh right high then
        let (l, leftRange, _) ← l.deleteRange low rangeLow left left
        let (r, _, rightRange) ← r.deleteRange right right rangeHigh high
        keep k low high l leftRange r rightRange
      else if strInRange rangeLow low left && strInRange rangeHigh low left then
        let (l, leftRange, _) ← l.deleteRange low rangeLow rangeHigh left
        keep k low high l leftRange r high
      else if strInRange rangeLow right high && strInRange rangeHigh right high then
        let (r, _, rightRange) ← r.deleteRange right rangeLow rangeHigh high
        keep k low high l low r rightRange
      else if strInRange rangeLow left right && strInRange rangeHigh right high then
        let (r, _, rightRange) ← r.deleteRange right right rangeHigh high
        keep k low high l low r rightRange
      else if strInRange rangeLow low left && strInRange rangeHigh left right then
        let (l, leftRange, _) ← l.deleteRange low rangeLow left left
        keep k low high l leftRange r high
      else keep k low high l low r high

/-! ## Nodes with no child or two -/

/-- A tree as its nodes are in memory. -/
def ofNode : RangeTreeNode → RangeNode
  | .leaf k d => mk k nil nil d
  | .node k l r d => mk k (ofNode l) (ofNode r) d

/-- What is left of a node. -/
def ofOption : Option RangeTreeNode → RangeNode
  | none => nil
  | some t => ofNode t

def ofResult (res : Option RangeTreeNode × Str × Str) : RangeNode × Str × Str :=
  (ofOption res.1, res.2)

variable (t l r : RangeTreeNode)

@[simp] theorem isNil_nil : nil.isNil = true := rfl

@[simp] theorem isNil_ofNode : (ofNode t).isNil = false := by
  cases t <;> rfl

@[simp] theorem ukey_ofNode : (ofNode t).ukey = some t.ukey := by
  cases t <;> rfl

@[simp] theorem depth_ofNode : (ofNode t).depth = some t.depth := by
  cases t <;> rfl

@[simp] theorem isLeaf_ofNode : (ofNode t).isLeaf = some t.isLeaf := by
  cases t with
  | leaf k d => rfl
  | node k l r d => exact congrArg some (isNil_ofNode l)

@[simp] theorem setUkey_ofNode (k : Str) : (ofNode t).setUkey k = some (ofNode (t.setUkey k)) := by
  cases t <;> rfl

theorem rejoin_ofNode (k : Str) (d : ℕ) :
    rejoin (mk k (ofNode l) (ofNode r) d) = some (ofNode (RangeTreeNode.rejoin k l r)) := by
  simp only [rejoin, RangeTreeNode.rejoin, isNil_ofNode, isLeaf_ofNode, ukey_ofNode, depth_ofNode,
    Option.bind_eq_bind, Option.bind_some, Bool.false_eq_true, if_false]
  split_ifs <;> rfl

theorem addRange_ofNode (low rangeLow rangeHigh high : Str) :
    (ofNode t).addRange low rangeLow rangeHigh high =
      (t.addRange low rangeLow rangeHigh high).map ofNode := by
  induction t generalizing low rangeLow rangeHigh high with
  | leaf k d => rfl
  | node k l r d ihl ihr =>
    simp only [ofNode, addRange, RangeTreeNode.addRange, isNil_ofNode, ukey_ofNode, depth_ofNode,
      setUkey_ofNode, ihl, ihr, Option.bind_eq_bind, Option.bind_some, Option.pure_def,
      Bool.false_eq_true, if_false, Option.bind_map, apply_ite (Option.map ofNode), Option.map_bind,
      Option.map_some, Option.map_none, Function.comp_def, rejoin_ofNode]
    -- only the two nodes that the sixth case makes are left
    split_ifs with h₁ h₂ h₃ h₄ h₅ h₆ hdepth
    · rfl
    · rfl
    · rfl
    · rfl
    · rfl
    · exact rejoin_ofNode (.node rangeHigh l (Emulator.newRangeTreeLeaf rangeLow) (l.depth + 1)) r k d
    · exact rejoin_ofNode l (.node rangeLow (Emulator.newRangeTreeLeaf rangeHigh) r (r.depth + 1)) k d
    · rfl

theorem keep_ofOption (k low high leftRange rightRange : Str) (lo ro : Option RangeTreeNode) :
    keep k low high (ofOption lo) leftRange (ofOption ro) rightRange =
      (RangeTreeNode.keep k low high lo leftRange ro rightRange).map ofResult := by
  unfold keep RangeTreeNode.keep
  by_cases hhigh : k = high
  · cases lo <;> cases ro <;> simp [hhigh, ofOption, ofResult, ofNode]
  · by_cases hlow : k = low
    · subst hlow
      cases lo <;> cases ro <;> simp [hhigh, ofOption, ofResult, ofNode]
    · cases lo <;> cases ro <;> simp [hhigh, hlow, ofOption, ofResult]

theorem deleteRange_ofNode (low rangeLow rangeHigh high : Str) :
    (ofNode t).deleteRange low rangeLow rangeHigh high =
      (t.deleteRange low rangeLow rangeHigh high).map ofResult := by
  induction t generalizing low rangeLow rangeHigh high with
  | leaf k d =>
    simp only [ofNode, deleteRange, RangeTreeNode.deleteRange, isNil, if_true]
    split_ifs <;> rfl
  | node k l r d ihl ihr =>
    simp only [ofNode, deleteRange, RangeTreeNode.deleteRange, isNil_ofNode, ukey_ofNode, ihl, ihr,
      Option.bind_eq_bind, Option.bind_some, Bool.false_eq_true, if_false, Option.bind_map,
      apply_ite (Option.map ofResult), Option.map_bind, Option.map_some, Function.comp_def, ofResult,
      ← keep_ofOption]
    rfl

end RangeNode

/-! ## Depths -/

namespace RangeTreeNode

def Deep : RangeTreeNode → Prop
  | leaf _ d => d = 0
  | node _ l r d => d = max l.depth r.depth + 1 ∧ l.Deep ∧ r.Deep

variable {t l r : RangeTreeNode}

@[simp] theorem depth_setUkey (k : Str) (t : RangeTreeNode) : (t.setUkey k).depth = t.depth := by
  cases t <;> rfl

@[simp] theorem deep_setUkey (k : Str) (t : RangeTreeNode) : (t.setUkey k).Deep ↔ t.Deep := by
  cases t <;> rfl

theorem deep_newRangeTreeLeaf (k : Str) : (newRangeTreeLeaf k).Deep := rfl

/-- The depth that `AddRange` and `DeleteRange` set. -/
theorem deep_node (k : Str) (hl : l.Deep) (hr : r.Deep) :
    (node k l r (if l.depth > r.depth then l.depth + 1 else r.depth + 1)).Deep := by
  refine ⟨?_, hl, hr⟩
  split_ifs <;> omega

theorem deep_node_leaf_right (k k' : Str) (hl : l.Deep) :
    (node k l (newRangeTreeLeaf k') (l.depth + 1)).Deep :=
  ⟨by rw [newRangeTreeLeaf, depth, Nat.max_zero], hl, deep_newRangeTreeLeaf k'⟩

theorem deep_node_leaf_left (k k' : Str) (hr : r.Deep) :
    (node k (newRangeTreeLeaf k') r (r.depth + 1)).Deep :=
  ⟨by rw [newRangeTreeLeaf, depth, Nat.zero_max], deep_newRangeTreeLeaf k', hr⟩

theorem deep_rejoin (k : Str) (hl : l.Deep) (hr : r.Deep) : (rejoin k l r).Deep := by
  unfold rejoin
  split_ifs with hmeet hdepth
  · rfl
  · exact ⟨by omega, hl, hr⟩
  · exact ⟨by omega, hl, hr⟩

theorem deep_addRange {t' : RangeTreeNode} {low rangeLow rangeHigh high : Str} (ht : t.Deep)
    (h : t.addRange low rangeLow rangeHigh high = some t') : t'.Deep := by
  induction t generalizing low rangeLow rangeHigh high t' with
  | leaf k d =>
    obtain rfl := Option.some.inj h
    exact ht
  | node k l r d ihl ihr =>
    obtain ⟨-, hl, hr⟩ := ht
    simp only [addRange, Option.bind_eq_bind, Option.pure_def] at h
    split_ifs at h with h₁ h₂ h₃ h₄ h₅ h₆ hdepth
    all_goals simp only [Option.bind_eq_some_iff, Option.some.injEq] at h
    · obtain ⟨l', hl', r', hr', h⟩ := h
      have hdl := ihl hl hl'
      have hdr := ihr hr hr'
      split_ifs at h
      · obtain rfl := Option.some.inj h
        exact deep_rejoin k ((deep_setUkey _ _).mpr hdl) hdr
      · obtain rfl := Option.some.inj h
        exact deep_rejoin k hdl ((deep_setUkey _ _).mpr hdr)
    · obtain ⟨l', hl', rfl⟩ := h
      exact deep_rejoin k (ihl hl hl') hr
    · obtain ⟨r', hr', rfl⟩ := h
      exact deep_rejoin k hl (ihr hr hr')
    · obtain ⟨r', hr', rfl⟩ := h
      exact deep_rejoin k hl ((deep_setUkey _ _).mpr (ihr hr hr'))
    · obtain ⟨l', hl', rfl⟩ := h
      exact deep_rejoin k ((deep_setUkey _ _).mpr (ihl hl hl')) hr
    · obtain rfl := h
      exact deep_rejoin k (deep_node_leaf_right _ _ hl) hr
    · obtain rfl := h
      exact deep_rejoin k hl (deep_node_leaf_left _ _ hr)

/-- The depths of what is left of a node are right. -/
def DeepOption (o : Option RangeTreeNode) : Prop := ∀ t, o = some t → t.Deep

theorem deepOption_some (h : t.Deep) : DeepOption (some t) := by
  intro t' ht'
  obtain rfl := Option.some.inj ht'
  exact h

theorem deepOption_none : DeepOption none := by
  intro t' ht'
  cases ht'

variable {low high rangeLow rangeHigh a b : Str} {o : Option RangeTreeNode}

theorem deep_keep {k leftRange rightRange : Str} {lo ro : Option RangeTreeNode}
    (hl : DeepOption lo) (hr : DeepOption ro)
    (h : keep k low high lo leftRange ro rightRange = some (o, a, b)) : DeepOption o := by
  have hset (k' : Str) {t : RangeTreeNode} (ht : DeepOption (some t)) :
      DeepOption (some (t.setUkey k')) := deepOption_some ((deep_setUkey k' t).mpr (ht t rfl))
  cases lo with
  | none =>
    cases ro with
    | none =>
      obtain ⟨rfl, -⟩ := Prod.mk.inj (Option.some.inj h)
      exact hl
    | some r =>
      simp only [keep] at h
      split_ifs at h
      all_goals obtain ⟨rfl, -⟩ := Prod.mk.inj (Option.some.inj h)
      · exact hset _ hr
      · exact hr
  | some l =>
    cases ro with
    | none =>
      simp only [keep] at h
      split_ifs at h
      all_goals obtain ⟨rfl, -⟩ := Prod.mk.inj (Option.some.inj h)
      · exact hl
      · exact hset _ hl
    | some r =>
      have hnode (k' : Str) := deepOption_some (deep_node k' (hl l rfl) (hr r rfl))
      simp only [keep] at h
      generalize (if l.depth > r.depth then l.depth + 1 else r.depth + 1) = d at h hnode
      split_ifs at h
      all_goals
        obtain ⟨rfl, -⟩ := Prod.mk.inj (Option.some.inj h)
        exact hnode _

theorem deep_deleteRange_leaf {k : Str}
    (h : (leaf k 0).deleteRange low rangeLow rangeHigh high = some (o, a, b)) : DeepOption o := by
  simp only [deleteRange] at h
  split_ifs at h
  all_goals obtain ⟨rfl, -⟩ := Prod.mk.inj (Option.some.inj h)
  · exact deepOption_none
  all_goals refine deepOption_some ?_
  -- the last case makes a node, all others leave a leaf
  on_goal 6 => exact deep_node_leaf_right k rangeHigh (deep_newRangeTreeLeaf rangeLow)
  all_goals rfl

theorem deep_deleteRange (ht : t.Deep)
    (h : t.deleteRange low rangeLow rangeHigh high = some (o, a, b)) : DeepOption o := by
  induction t generalizing low rangeLow rangeHigh high a b o with
  | leaf k d =>
    obtain rfl : d = 0 := ht
    exact deep_deleteRange_leaf h
  | node k l r d ihl ihr =>
    have hl := deepOption_some ht.2.1
    have hr := deepOption_some ht.2.2
    simp only [deleteRange, Option.bind_eq_bind] at h
    split_ifs at h with hall hempty h₁ h₂ h₃ h₄ h₅
    · obtain ⟨rfl, -⟩ := Prod.mk.inj (Option.some.inj h)
      exact deepOption_none
    · obtain ⟨rfl, -⟩ := Prod.mk.inj (Option.some.inj h)
      exact deepOption_some ht
    on_goal 6 => exact deep_keep hl hr h
    all_goals simp only [Option.bind_eq_some_iff] at h
    · obtain ⟨⟨lo, a₁, b₁⟩, hl', ⟨ro, a₂, b₂⟩, hr', h⟩ := h
      exact deep_keep (ihl ht.2.1 hl') (ihr ht.2.2 hr') h
    · obtain ⟨⟨lo, a₁, b₁⟩, hl', h⟩ := h
      exact deep_keep (ihl ht.2.1 hl') hr h
    · obtain ⟨⟨ro, a₂, b₂⟩, hr', h⟩ := h
      exact deep_keep hl (ihr ht.2.2 hr') h
    · obtain ⟨⟨ro, a₂, b₂⟩, hr', h⟩ := h
      exact deep_keep hl (ihr ht.2.2 hr') h
    · obtain ⟨⟨lo, a₁, b₁⟩, hl', h⟩ := h
      exact deep_keep (ihl ht.2.1 hl') hr h

end RangeTreeNode

/-! ## Trees -/

/-- `RangeTree`, with its root in memory. -/
structure RangeTreeMem where
  startKey : Str
  endKey : Str
  root : RangeNode
  deriving DecidableEq, Repr

namespace RangeTreeMem

def newRangeTree : RangeTreeMem := ⟨[], [], .nil⟩

def addRange (t : RangeTreeMem) (rangeLow rangeHigh : Str) : Option RangeTreeMem :=
  if rangeHigh < rangeLow then some t
  else if t.root.isNil then some ⟨rangeLow, rangeHigh, RangeNode.newRangeTreeLeaf rangeHigh⟩
  else if rangeHigh < t.startKey then do
    let rightNode ← t.root.setUkey t.startKey
    let depth ← rightNode.depth
    some ⟨rangeLow, t.endKey,
      .mk t.endKey (RangeNode.newRangeTreeLeaf rangeHigh) rightNode (depth + 1)⟩
  else if rangeLow > t.endKey then do
    let depth ← t.root.depth
    some ⟨t.startKey, rangeHigh,
      .mk rangeHigh t.root (RangeNode.newRangeTreeLeaf rangeLow) (depth + 1)⟩
  else do
    let endKey := if rangeHigh > t.endKey then rangeHigh else t.endKey
    let root ← (if rangeHigh > t.endKey then t.root.setUkey rangeHigh else some t.root)
    let startKey := if rangeLow < t.startKey then rangeLow else t.startKey
    let root ← root.addRange startKey rangeLow rangeHigh endKey
    some ⟨startKey, endKey, root⟩

def deleteRange (t : RangeTreeMem) (rangeLow rangeHigh : Str) : Option RangeTreeMem :=
  if rangeHigh < rangeLow ∨ t.root.isNil then some t
  else if rangeHigh < t.startKey ∨ rangeLow > t.endKey then some t
  else do
    let rangeLow := if rangeLow < t.startKey then t.startKey else rangeLow
    let rangeHigh := if rangeHigh > t.endKey then t.endKey else rangeHigh
    let (root, startKey, endKey) ← t.root.deleteRange t.startKey rangeLow rangeHigh t.endKey
    some ⟨startKey, endKey, root⟩

def apply (t : RangeTreeMem) : RangeTree.Op → Option RangeTreeMem
  | .addRange rangeLow rangeHigh => t.addRange rangeLow rangeHigh
  | .deleteRange rangeLow rangeHigh => t.deleteRange rangeLow rangeHigh

def ofTree (t : RangeTree) : RangeTreeMem := ⟨t.startKey, t.endKey, RangeNode.ofOption t.root⟩

theorem addRange_ofTree (t : RangeTree) (rangeLow rangeHigh : Str) :
    (ofTree t).addRange rangeLow rangeHigh = (t.addRange rangeLow rangeHigh).map ofTree := by
  obtain ⟨startKey, endKey, _ | root⟩ := t
  · simp only [addRange, RangeTree.addRange, ofTree, RangeNode.ofOption, RangeNode.isNil_nil, if_true]
    split_ifs <;> rfl
  · simp only [addRange, RangeTree.addRange, ofTree, RangeNode.ofOption, RangeNode.isNil_ofNode,
      RangeNode.setUkey_ofNode, RangeNode.depth_ofNode, Option.bind_eq_bind, Option.bind_some,
      Bool.false_eq_true, if_false]
    split_ifs with hlt hbefore hafter hout hstart hstart
    · rfl
    · rw [RangeTreeNode.depth_setUkey]
      rfl
    · rfl
    all_goals
      simp [hout, hstart, RangeNode.addRange_ofNode, Option.bind_map, Option.map_bind]
      rfl

theorem deleteRange_ofTree (t : RangeTree) (rangeLow rangeHigh : Str) :
    (ofTree t).deleteRange rangeLow rangeHigh = (t.deleteRange rangeLow rangeHigh).map ofTree := by
  obtain ⟨startKey, endKey, _ | root⟩ := t
  · simp [deleteRange, RangeTree.deleteRange, ofTree, RangeNode.ofOption]
  · simp only [deleteRange, RangeTree.deleteRange, ofTree, RangeNode.ofOption,
      RangeNode.isNil_ofNode, Bool.false_eq_true, or_false, RangeNode.deleteRange_ofNode,
      Option.bind_eq_bind, Option.bind_map]
    rw [apply_ite (Option.map ofTree), apply_ite (Option.map ofTree), Option.map_bind]
    rfl

theorem apply_ofTree (t : RangeTree) (op : RangeTree.Op) :
    (ofTree t).apply op = (t.apply op).map ofTree := by
  cases op with
  | addRange rangeLow rangeHigh => exact addRange_ofTree t rangeLow rangeHigh
  | deleteRange rangeLow rangeHigh => exact deleteRange_ofTree t rangeLow rangeHigh

end RangeTreeMem

namespace RangeTree

open RangeTreeNode

def Deep (t : RangeTree) : Prop := DeepOption t.root

variable {t t' : RangeTree} {rangeLow rangeHigh : Str}

theorem deep_addRange (ht : t.Deep) (h : t.addRange rangeLow rangeHigh = some t') : t'.Deep := by
  obtain ⟨startKey, endKey, _ | root⟩ := t
  · simp only [addRange] at h
    split_ifs at h
    all_goals obtain rfl := Option.some.inj h
    · exact ht
    · exact deepOption_some (deep_newRangeTreeLeaf rangeHigh)
  · have hroot : root.Deep := ht root rfl
    have hmoved (k : Str) : (root.setUkey k).Deep := (deep_setUkey k root).mpr hroot
    simp only [addRange, Option.bind_eq_bind, Option.pure_def] at h
    split_ifs at h with hlt hbefore hafter hout
    · obtain rfl := Option.some.inj h
      exact ht
    · obtain rfl := Option.some.inj h
      rw [← depth_setUkey startKey root]
      exact deepOption_some (deep_node_leaf_left _ _ (hmoved startKey))
    · obtain rfl := Option.some.inj h
      exact deepOption_some (deep_node_leaf_right _ _ hroot)
    all_goals
      obtain ⟨root', hroot', h⟩ := Option.bind_eq_some_iff.mp h
      obtain rfl := Option.some.inj h
      refine deepOption_some (RangeTreeNode.deep_addRange ?_ hroot')
      first | exact hroot | exact hmoved rangeHigh

theorem deep_deleteRange (ht : t.Deep) (h : t.deleteRange rangeLow rangeHigh = some t') :
    t'.Deep := by
  obtain ⟨startKey, endKey, _ | root⟩ := t
  · obtain rfl := Option.some.inj h
    exact ht
  · simp only [deleteRange] at h
    by_cases hout : rangeHigh < rangeLow ∨ rangeHigh < startKey ∨ rangeLow > endKey
    · rw [← ite_or, if_pos hout] at h
      obtain rfl := Option.some.inj h
      exact ht
    · rw [← ite_or, if_neg hout] at h
      obtain ⟨⟨o, a, b⟩, hdel, h⟩ := Option.bind_eq_some_iff.mp h
      obtain rfl := Option.some.inj h
      exact RangeTreeNode.deep_deleteRange (ht root rfl) hdel

theorem deep_apply {op : Op} (ht : t.Deep) (h : t.apply op = some t') : t'.Deep := by
  cases op with
  | addRange rangeLow rangeHigh => exact deep_addRange ht h
  | deleteRange rangeLow rangeHigh => exact deep_deleteRange ht h

end RangeTree

/-! ## The representation -/

namespace RangeNode

/-- Where a node hangs: the root and the left children store their upper bound. -/
inductive Side
  | left
  | right
  deriving DecidableEq, Repr

/-- The bound that a node stores. -/
def Side.bound (low high : Str) : Side → Str
  | left => high
  | right => low

/-- The representation of the ranges from `low` to `high`: a node stores its own bound; it has no
child and depth zero, or it has two, whose bounds are in order between its own, and the depth is one
more than theirs. -/
def Represents : RangeNode → Side → Str → Str → Prop
  | nil, _, _, _ => False
  | mk k l r d, side, low, high =>
    k = side.bound low high ∧
      (l = nil ∧ r = nil ∧ d = 0 ∨
        ∃ left right ld rd, l.ukey = some left ∧ r.ukey = some right ∧ l.depth = some ld ∧
          r.depth = some rd ∧ low ≤ left ∧ left ≤ right ∧ right ≤ high ∧ d = max ld rd + 1 ∧
          l.Represents .left low left ∧ r.Represents .right right high)

theorem represents_ofNode {t : RangeTreeNode} {side : Side} {low high : Str}
    (hk : t.ukey = side.bound low high) (h : t.WellFormed low high) (hd : t.Deep) :
    (ofNode t).Represents side low high := by
  induction t generalizing side low high with
  | leaf k d => exact ⟨hk, .inl ⟨rfl, rfl, hd⟩⟩
  | node k l r d ihl ihr =>
    obtain ⟨hlr, hl, hr⟩ := h
    obtain ⟨hdepth, hdl, hdr⟩ := hd
    refine ⟨hk, .inr ⟨l.ukey, r.ukey, l.depth, r.depth, ukey_ofNode l, ukey_ofNode r,
      depth_ofNode l, depth_ofNode r, hl.le, hlr, hr.le, hdepth, ?_, ?_⟩⟩
    · exact ihl rfl hl hdl
    · exact ihr rfl hr hdr

end RangeNode

namespace RangeTreeMem

/-- **The representation invariant.** After any calls on a new tree, none of which panics, the tree
is empty or its nodes represent the ranges between its bounds. -/
theorem represents_run (ops : List RangeTree.Op) :
    ∃ t, run apply newRangeTree ops = some t ∧
      (t.root = .nil ∨ t.root.Represents .left t.startKey t.endKey) := by
  obtain ⟨t, hrun, ht, -⟩ := RangeTree.run_apply RangeTree.wellFormed_newRangeTree ops
  have hnew : Emulator.newRangeTree.Deep := RangeTreeNode.deepOption_none
  have hdeep : t.Deep :=
    run_invariant (fun s op s' hs hstep => RangeTree.deep_apply hs hstep) hnew hrun
  refine ⟨ofTree t, ?_, ?_⟩
  · have hmem := run_commute apply_ofTree Emulator.newRangeTree ops
    rw [hrun] at hmem
    exact hmem
  · obtain ⟨startKey, endKey, _ | root⟩ := t
    · exact .inl rfl
    · exact .inr (RangeNode.represents_ofNode (ht.ukey root rfl) (ht.root root rfl) (hdeep root rfl))

example : (run apply newRangeTree [.addRange [1] [2], .addRange [5] [7], .addRange [3] [4]]).map root =
    some (.mk [7] (.mk [2] .nil .nil 0)
      (.mk [3] (.mk [4] .nil .nil 0) (.mk [5] .nil .nil 0) 1) 2) := by decide

end RangeTreeMem

end Emulator
