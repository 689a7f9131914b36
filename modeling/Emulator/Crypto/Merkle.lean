import Emulator.Base
import Mathlib.Data.Nat.Log
import Mathlib.Data.Set.Function
import Mathlib.Tactic.SplitIfs

/-!
# Merkle trees

The RFC-6962 trees over lists of byte strings: `HashFromByteSlices`, the inclusion proofs of
`ProofsFromByteSlices`, and their verification. The hash function `sum` is a parameter.

* `verify_proofs` — completeness: the proof made for an item verifies against the root.
* `hashFromByteSlices_inj` — a root determines the list, as long as the hashed strings do not
  collide.
* `verify_unique` — binding: two proofs for the same position and total that verify against the same
  root prove the same item, as long as the hashed strings do not collide.
* `opens_root_iff` — soundness: whatever position and total a proof names, what it shows against the
  root of a list is an item of the list. Against the empty root a proof shows anything
  (`opens_nil`).
-/

namespace Emulator.Merkle

/-! ## Hashes -/

section

variable (sum : Bytes → Bytes)

def emptyHash : Bytes := sum []
def leafHash (leaf : Bytes) : Bytes := sum (0 :: leaf)
def innerHash (left right : Bytes) : Bytes := sum (1 :: (left ++ right))

/-- `getSplitPoint`: the largest power of 2 less than the length. -/
def getSplitPoint (length : ℕ) : ℕ :=
  if 2 ^ Nat.log2 length = length then 2 ^ Nat.log2 length / 2 else 2 ^ Nat.log2 length

/-- `HashFromByteSlices`, with fuel for the recursion on the halves. -/
def hashAux : ℕ → List Bytes → Bytes
  | _, [] => emptyHash sum
  | _, [item] => leafHash sum item
  | 0, _ => []
  | fuel + 1, items =>
    innerHash sum (hashAux fuel (items.take (getSplitPoint items.length)))
      (hashAux fuel (items.drop (getSplitPoint items.length)))

def hashFromByteSlices (items : List Bytes) : Bytes := hashAux sum items.length items

/-! ## Proofs -/

structure Proof where
  total : ℤ
  index : ℤ
  leafHash : Bytes
  aunts : List Bytes
  deriving DecidableEq, Repr

/-- `trailsFromByteSlices`: each leaf's hash with its `FlattenAunts`, and the hash of the root. -/
def trailsAux : ℕ → List Bytes → List (Bytes × List Bytes) × Bytes
  | _, [] => ([], emptyHash sum)
  | _, [item] => ([(leafHash sum item, [])], leafHash sum item)
  | 0, _ => ([], [])
  | fuel + 1, items =>
    let lefts := trailsAux fuel (items.take (getSplitPoint items.length))
    let rights := trailsAux fuel (items.drop (getSplitPoint items.length))
    (lefts.1.map (fun t => (t.1, t.2 ++ [rights.2])) ++
      rights.1.map (fun t => (t.1, t.2 ++ [lefts.2])), innerHash sum lefts.2 rights.2)

def proofsFromByteSlices (items : List Bytes) : Bytes × List Proof :=
  let trails := trailsAux sum items.length items
  (trails.2, trails.1.mapIdx fun i t =>
    { total := items.length, index := i, leafHash := t.1, aunts := t.2 })

/-- `computeHashFromAunts` on an index within the total; the aunts come top first. -/
def computeAux : ℕ → ℕ → Bytes → List Bytes → Option Bytes
  | _, total, leaf, [] => if total = 1 then some leaf else none
  | index, total, leaf, aunt :: aunts =>
    if total ≤ 1 then none
    else if index < getSplitPoint total then
      (computeAux index (getSplitPoint total) leaf aunts).map fun left => innerHash sum left aunt
    else
      (computeAux (index - getSplitPoint total) (total - getSplitPoint total) leaf aunts).map
        fun right => innerHash sum aunt right

/-- `ComputeRootHash`; `none` is the `nil` result. -/
def Proof.computeRootHash (p : Proof) : Option Bytes :=
  if p.total ≤ p.index ∨ p.index < 0 ∨ p.total ≤ 0 then none
  else computeAux sum p.index.toNat p.total.toNat p.leafHash p.aunts.reverse

def Proof.verify (p : Proof) (rootHash leaf : Bytes) : Bool :=
  0 ≤ p.total && 0 ≤ p.index && p.leafHash == Merkle.leafHash sum leaf &&
    (p.computeRootHash sum).getD [] == rootHash

/-- The size of a hash, `tmhash.Size`. -/
def hashSize : ℕ := 32

def maxAunts : ℕ := 100

def Proof.validateBasic (p : Proof) : Bool :=
  0 ≤ p.total && 0 ≤ p.index && p.leafHash.length == hashSize &&
    decide (p.aunts.length ≤ maxAunts) && p.aunts.all fun aunt => aunt.length == hashSize

def Proof.contentHash (p : Proof) : Bytes :=
  hashFromByteSlices sum
    [intToBytes 8 p.index, intToBytes 8 p.total, p.leafHash, hashFromByteSlices sum p.aunts]

end

/-! ## Splitting -/

theorem getSplitPoint_pos {n : ℕ} (h : 2 ≤ n) : 0 < getSplitPoint n := by
  unfold getSplitPoint
  have hpow : 0 < 2 ^ Nat.log2 n := Nat.two_pow_pos _
  split_ifs with heq
  · omega
  · exact hpow

theorem getSplitPoint_lt {n : ℕ} (h : 2 ≤ n) : getSplitPoint n < n := by
  unfold getSplitPoint
  have hle : 2 ^ Nat.log2 n ≤ n := Nat.log2_self_le (by omega)
  split_ifs with heq <;> omega

/-- Induction on the halves: the rule for all functions above. -/
@[elab_as_elim]
theorem split_induction {P : ℕ → List Bytes → Prop} (nil : ∀ fuel, P fuel [])
    (single : ∀ fuel item, P fuel [item])
    (split : ∀ fuel items, 2 ≤ items.length →
      (items.take (getSplitPoint items.length)).length ≤ fuel + 1 →
      (items.drop (getSplitPoint items.length)).length ≤ fuel + 1 →
      P fuel (items.take (getSplitPoint items.length)) →
      P fuel (items.drop (getSplitPoint items.length)) → P (fuel + 1) items)
    (fuel : ℕ) (items : List Bytes) (hfuel : items.length ≤ fuel + 1) : P fuel items := by
  induction fuel generalizing items with
  | zero =>
    match items, hfuel with
    | [], _ => exact nil 0
    | [item], _ => exact single 0 item
  | succ fuel ih =>
    match items, hfuel with
    | [], _ => exact nil _
    | [item], _ => exact single _ item
    | a :: b :: items, hfuel =>
      have hlen : 2 ≤ (a :: b :: items).length := by simp
      have hpos := getSplitPoint_pos hlen
      have hlt := getSplitPoint_lt hlen
      have hl : ((a :: b :: items).take (getSplitPoint (a :: b :: items).length)).length ≤
          fuel + 1 := by
        rw [List.length_take]
        omega
      have hr : ((a :: b :: items).drop (getSplitPoint (a :: b :: items).length)).length ≤
          fuel + 1 := by
        rw [List.length_drop]
        omega
      exact split fuel _ hlen hl hr (ih _ hl) (ih _ hr)

/-- The strings that `hashAux` hashes. -/
def hashedAux (sum : Bytes → Bytes) : ℕ → List Bytes → List Bytes
  | _, [] => [[]]
  | _, [item] => [0 :: item]
  | 0, _ => []
  | fuel + 1, items =>
    let left := items.take (getSplitPoint items.length)
    let right := items.drop (getSplitPoint items.length)
    (1 :: (hashAux sum fuel left ++ hashAux sum fuel right)) ::
      (hashedAux sum fuel left ++ hashedAux sum fuel right)

/-- The strings that are hashed for the root of a list. -/
def hashed (sum : Bytes → Bytes) (items : List Bytes) : List Bytes := hashedAux sum items.length items

/-- The strings hashed while a root is computed from a leaf. -/
def innerInputs (sum : Bytes → Bytes) : ℕ → ℕ → Bytes → List Bytes → List Bytes
  | _, _, _, [] => []
  | index, total, leaf, aunt :: aunts =>
    if index < getSplitPoint total then
      (1 :: ((computeAux sum index (getSplitPoint total) leaf aunts).getD [] ++ aunt)) ::
        innerInputs sum index (getSplitPoint total) leaf aunts
    else
      (1 :: (aunt ++ (computeAux sum (index - getSplitPoint total) (total - getSplitPoint total) leaf
        aunts).getD [])) ::
        innerInputs sum (index - getSplitPoint total) (total - getSplitPoint total) leaf aunts

/-! ## Completeness -/

variable {sum : Bytes → Bytes} {items aunts : List Bytes} {leaf root : Bytes}
  {size fuel i index total : ℕ} {S : Set Bytes} {p : Proof}

theorem hashAux_split (fuel : ℕ) (h : 2 ≤ items.length) :
    hashAux sum (fuel + 1) items =
      innerHash sum (hashAux sum fuel (items.take (getSplitPoint items.length)))
        (hashAux sum fuel (items.drop (getSplitPoint items.length))) := by
  match items, h with
  | _ :: _ :: _, _ => rfl

theorem trailsAux_split (fuel : ℕ) (h : 2 ≤ items.length) :
    trailsAux sum (fuel + 1) items =
      let lefts := trailsAux sum fuel (items.take (getSplitPoint items.length))
      let rights := trailsAux sum fuel (items.drop (getSplitPoint items.length))
      (lefts.1.map (fun t => (t.1, t.2 ++ [rights.2])) ++
        rights.1.map (fun t => (t.1, t.2 ++ [lefts.2])), innerHash sum lefts.2 rights.2) := by
  match items, h with
  | _ :: _ :: _, _ => rfl

theorem hashedAux_split (fuel : ℕ) (h : 2 ≤ items.length) :
    hashedAux sum (fuel + 1) items =
      (1 :: (hashAux sum fuel (items.take (getSplitPoint items.length)) ++
        hashAux sum fuel (items.drop (getSplitPoint items.length)))) ::
      (hashedAux sum fuel (items.take (getSplitPoint items.length)) ++
        hashedAux sum fuel (items.drop (getSplitPoint items.length))) := by
  match items, h with
  | _ :: _ :: _, _ => rfl

/-- The proofs are made over the same tree, one for every item. -/
theorem trailsAux_spec (fuel : ℕ) (items : List Bytes) (hfuel : items.length ≤ fuel + 1) :
    (trailsAux sum fuel items).2 = hashAux sum fuel items ∧
      (trailsAux sum fuel items).1.length = items.length := by
  refine split_induction ?_ ?_ ?_ fuel items hfuel
  · intro fuel
    cases fuel <;> exact ⟨rfl, rfl⟩
  · intro fuel item
    cases fuel <;> exact ⟨rfl, rfl⟩
  · intro fuel items hlen _ _ ihl ihr
    rw [trailsAux_split fuel hlen, hashAux_split fuel hlen, ← ihl.1, ← ihr.1]
    refine ⟨rfl, ?_⟩
    simp only [List.length_append, List.length_map, ihl.2, ihr.2]
    rw [← List.length_append, List.take_append_drop]

/-- Completeness for trails: a leaf with its aunts computes the root, and what is hashed on the way
is hashed for the root of the list. -/
theorem trail_spec (fuel : ℕ) (items : List Bytes) (hfuel : items.length ≤ fuel + 1) :
    ∀ (i : ℕ) (t : Bytes × List Bytes), (trailsAux sum fuel items).1[i]? = some t →
      (items[i]?).map (leafHash sum) = some t.1 ∧
        computeAux sum i items.length t.1 t.2.reverse = some (hashAux sum fuel items) ∧
        ∀ x ∈ innerInputs sum i items.length t.1 t.2.reverse, x ∈ hashedAux sum fuel items := by
  refine split_induction ?_ ?_ ?_ fuel items hfuel
  · intro fuel i t ht
    cases fuel <;> cases ht
  · intro fuel item i t ht
    have ht' : [(leafHash sum item, ([] : List Bytes))][i]? = some t := by cases fuel <;> exact ht
    obtain ⟨hi, rfl⟩ := List.getElem?_eq_some_iff.mp ht'
    obtain rfl : i = 0 := by simpa using hi
    exact ⟨rfl, by cases fuel <;> rfl, fun x hx => by cases hx⟩
  · intro fuel items hlen hl hr ihl ihr i t ht
    have hlt := getSplitPoint_lt hlen
    obtain ⟨hlroot, hll⟩ := @trailsAux_spec sum fuel _ hl
    rw [List.length_take, Nat.min_eq_left hlt.le] at hll
    simp only [trailsAux_split fuel hlen, hlroot, (trailsAux_spec fuel _ hr).1] at ht
    rw [hashAux_split fuel hlen, hashedAux_split fuel hlen]
    by_cases hi : i < getSplitPoint items.length
    · -- the leaf is in the left half
      rw [List.getElem?_append_left (by simpa [hll] using hi), List.getElem?_map,
        Option.map_eq_some_iff] at ht
      obtain ⟨t', ht', rfl⟩ := ht
      obtain ⟨hleaf, hroot, hin⟩ := ihl i t' ht'
      rw [List.length_take, Nat.min_eq_left hlt.le] at hroot hin
      rw [List.getElem?_take_of_lt hi] at hleaf
      rw [List.reverse_append, List.reverse_singleton, List.singleton_append, computeAux,
        if_neg (by omega), if_pos hi, innerInputs, if_pos hi, hroot]
      refine ⟨hleaf, rfl, fun x hx => ?_⟩
      rcases List.mem_cons.mp hx with rfl | hx
      · exact List.mem_cons_self
      · exact List.mem_cons_of_mem _ (List.mem_append_left _ (hin x hx))
    · rw [List.getElem?_append_right (by simpa [hll] using Nat.not_lt.mp hi), List.getElem?_map,
        Option.map_eq_some_iff, List.length_map, hll] at ht
      obtain ⟨t', ht', rfl⟩ := ht
      obtain ⟨hleaf, hroot, hin⟩ := ihr _ t' ht'
      rw [List.length_drop] at hroot hin
      rw [List.getElem?_drop, Nat.add_sub_cancel' (Nat.not_lt.mp hi)] at hleaf
      rw [List.reverse_append, List.reverse_singleton, List.singleton_append, computeAux,
        if_neg (by omega), if_neg hi, innerInputs, if_neg hi, hroot]
      refine ⟨hleaf, rfl, fun x hx => ?_⟩
      rcases List.mem_cons.mp hx with rfl | hx
      · exact List.mem_cons_self
      · exact List.mem_cons_of_mem _ (List.mem_append_right _ (hin x hx))

theorem length_proofs (items : List Bytes) :
    (proofsFromByteSlices sum items).2.length = items.length := by
  simp only [proofsFromByteSlices, List.length_mapIdx]
  exact (trailsAux_spec _ items (Nat.le_succ _)).2

theorem root_proofs (items : List Bytes) :
    (proofsFromByteSlices sum items).1 = hashFromByteSlices sum items :=
  (trailsAux_spec _ items (Nat.le_succ _)).1

variable (h : (proofsFromByteSlices sum items).2[i]? = some p)

include h in
theorem computeRootHash_proofs :
    p.total = items.length ∧ p.index = i ∧ (items[i]?).map (leafHash sum) = some p.leafHash ∧
      p.computeRootHash sum = some (hashFromByteSlices sum items) := by
  have hi : i < items.length := by
    have hi := (List.getElem?_eq_some_iff.mp h).1
    rwa [length_proofs] at hi
  rw [proofsFromByteSlices, List.getElem?_mapIdx, Option.map_eq_some_iff] at h
  obtain ⟨t, ht, rfl⟩ := h
  obtain ⟨hleaf, hroot, -⟩ := trail_spec _ items (Nat.le_succ _) i t ht
  refine ⟨rfl, rfl, hleaf, ?_⟩
  unfold Proof.computeRootHash
  rw [if_neg (by simp only; omega)]
  simp only [Int.toNat_natCast, hroot, hashFromByteSlices]

include h in
/-- **Completeness.** The proof made for an item of a list verifies against the root of the list. -/
theorem verify_proofs {item : Bytes} (hitem : items[i]? = some item) : p.verify sum (hashFromByteSlices sum items) item = true := by
  obtain ⟨htotal, hindex, hleaf, hroot⟩ := computeRootHash_proofs h
  rw [hitem, Option.map_some, Option.some.injEq] at hleaf
  simp [Proof.verify, htotal, hindex, ← hleaf, hroot]

theorem length_hashFromByteSlices (hsum : ∀ x, (sum x).length = size) (items : List Bytes) :
    (hashFromByteSlices sum items).length = size := by
  match items with
  | [] => exact hsum _
  | [_] => exact hsum _
  | _ :: _ :: _ => exact hsum _

/-! ## Injectivity of the root -/

/-- A root is the hash of one string, whose first byte tells the kind of the node. -/
theorem hashAux_cases (sum : Bytes → Bytes) (hfuel : items.length ≤ fuel + 1) :
    (items = [] ∧ hashAux sum fuel items = sum [] ∧ [] ∈ hashedAux sum fuel items) ∨
    (∃ item, items = [item] ∧ hashAux sum fuel items = sum (0 :: item) ∧
      0 :: item ∈ hashedAux sum fuel items) ∨
    (2 ≤ items.length ∧ ∃ k left right, fuel = k + 1 ∧
      left = hashAux sum k (items.take (getSplitPoint items.length)) ∧
      right = hashAux sum k (items.drop (getSplitPoint items.length)) ∧
      hashAux sum fuel items = sum (1 :: (left ++ right)) ∧
      1 :: (left ++ right) ∈ hashedAux sum fuel items) := by
  match fuel, items, hfuel with
  | 0, [], _ => exact .inl ⟨rfl, rfl, List.mem_singleton_self _⟩
  | 0, [item], _ => exact .inr (.inl ⟨item, rfl, rfl, List.mem_singleton_self _⟩)
  | fuel + 1, [], _ => exact .inl ⟨rfl, rfl, List.mem_singleton_self _⟩
  | fuel + 1, [item], _ => exact .inr (.inl ⟨item, rfl, rfl, List.mem_singleton_self _⟩)
  | fuel + 1, _ :: _ :: _, _ =>
    exact .inr (.inr ⟨by simp, fuel, _, _, rfl, rfl, rfl, rfl, List.mem_cons_self⟩)

theorem length_hashAux (hsum : ∀ x, (sum x).length = size) (hfuel : items.length ≤ fuel + 1) :
    (hashAux sum fuel items).length = size := by
  rcases hashAux_cases sum hfuel with ⟨-, h, -⟩ | ⟨item, -, h, -⟩ | ⟨-, k, l, r, -, -, -, h, -⟩
  all_goals
    rw [h]
    exact hsum _

/-- What an inner node says about its halves: they need less fuel, and what is hashed for them is
in `S`. -/
structure Halves (sum : Bytes → Bytes) (S : Set Bytes) (fuel : ℕ) (items : List Bytes) : Prop where
  take : (items.take (getSplitPoint items.length)).length ≤ fuel + 1
  drop : (items.drop (getSplitPoint items.length)).length ≤ fuel + 1
  left : ∀ x ∈ hashedAux sum fuel (items.take (getSplitPoint items.length)), x ∈ S
  right : ∀ x ∈ hashedAux sum fuel (items.drop (getSplitPoint items.length)), x ∈ S

theorem halves (hlen : 2 ≤ items.length) (hfuel : items.length ≤ fuel + 1 + 1)
    (hin : ∀ x ∈ hashedAux sum (fuel + 1) items, x ∈ S) : Halves sum S fuel items := by
  have hpos := getSplitPoint_pos hlen
  have hlt := getSplitPoint_lt hlen
  rw [hashedAux_split fuel hlen] at hin
  constructor
  · rw [List.length_take]
    omega
  · rw [List.length_drop]
    omega
  · exact fun x hx => hin x (List.mem_cons_of_mem _ (List.mem_append_left _ hx))
  · exact fun x hx => hin x (List.mem_cons_of_mem _ (List.mem_append_right _ hx))

section

variable (hsum : ∀ x, (sum x).length = size)

include hsum

theorem hashAux_inj (hS : S.InjOn sum) {fuel' : ℕ}
    {items' : List Bytes} (hfuel : items.length ≤ fuel + 1) (hfuel' : items'.length ≤ fuel' + 1)
    (hin : ∀ x ∈ hashedAux sum fuel items, x ∈ S) (hin' : ∀ x ∈ hashedAux sum fuel' items', x ∈ S)
    (h : hashAux sum fuel items = hashAux sum fuel' items') : items = items' := by
  induction fuel using Nat.strong_induction_on generalizing items fuel' items' with
  | _ fuel ih =>
  -- the strings under the two roots are equal, and they tell the kinds of the nodes
  rcases hashAux_cases sum hfuel with ⟨rfl, hx, hmem⟩ | ⟨item, rfl, hx, hmem⟩ |
      ⟨hlen, k, left, right, rfl, hl, hr, hx, hmem⟩ <;>
    rcases hashAux_cases sum hfuel' with ⟨rfl, hy, hmem'⟩ | ⟨item', rfl, hy, hmem'⟩ |
      ⟨hlen', k', left', right', rfl, hl', hr', hy, hmem'⟩ <;>
    have heq := hS (hin _ hmem) (hin' _ hmem') (hx.symm.trans (h.trans hy))
  case inl.inl => rfl
  case inr.inl.inr.inl => rw [(List.cons.inj heq).2]
  case inr.inr.inr.inr =>
    have hh := halves hlen hfuel hin
    have hh' := halves hlen' hfuel' hin'
    have hleft : left.length = left'.length := by
      rw [hl, hl', length_hashAux hsum hh.take, length_hashAux hsum hh'.take]
    obtain ⟨hleft, hright⟩ := List.append_inj (List.cons.inj heq).2 hleft
    rw [← List.take_append_drop (getSplitPoint items.length) items,
      ← List.take_append_drop (getSplitPoint items'.length) items']
    congr 1
    · exact ih k (Nat.lt_succ_self k) hh.take hh'.take hh.left hh'.left
        (hl.symm.trans (hleft.trans hl'))
    · exact ih k (Nat.lt_succ_self k) hh.drop hh'.drop hh.right hh'.right
        (hr.symm.trans (hright.trans hr'))
  all_goals cases heq

/-- **A root determines the list**, as long as the hashed strings do not collide. -/
theorem hashFromByteSlices_inj (hS : S.InjOn sum)
    {items' : List Bytes} (hin : ∀ x ∈ hashed sum items, x ∈ S)
    (hin' : ∀ x ∈ hashed sum items', x ∈ S)
    (h : hashFromByteSlices sum items = hashFromByteSlices sum items') : items = items' :=
  hashAux_inj hsum hS (Nat.le_succ _) (Nat.le_succ _) hin hin' h

/-- A tree over the hashes of values determines the values. -/
theorem hashFromByteSlices_map_inj (hS : S.InjOn sum) {α : Type}
    {f : α → Bytes} {l l' : List α} (hin : ∀ x ∈ hashed sum (l.map f), x ∈ S)
    (hin' : ∀ x ∈ hashed sum (l'.map f), x ∈ S) (hinj : ∀ a ∈ l, ∀ a' ∈ l', f a = f a' → a = a')
    (h : hashFromByteSlices sum (l.map f) = hashFromByteSlices sum (l'.map f)) : l = l' :=
  eq_of_map_eq_map hinj (hashFromByteSlices_inj hsum hS hin hin' h)

end

/-! ## Binding -/

/-- The strings hashed while a proof for `leaf` is verified. -/
def Proof.inputs (sum : Bytes → Bytes) (p : Proof) (leaf : Bytes) : List Bytes :=
  (0 :: leaf) :: innerInputs sum p.index.toNat p.total.toNat p.leafHash p.aunts.reverse

/-- The last step of a computation: the half that the leaf is in, and the string hashed for both. -/
theorem computeAux_cons {aunt : Bytes}
    (h : computeAux sum index total leaf (aunt :: aunts) = some root) :
    1 < total ∧
      ((index < getSplitPoint total ∧ ∃ l,
          computeAux sum index (getSplitPoint total) leaf aunts = some l ∧
          sum (1 :: (l ++ aunt)) = root ∧
          innerInputs sum index total leaf (aunt :: aunts) =
            (1 :: (l ++ aunt)) :: innerInputs sum index (getSplitPoint total) leaf aunts) ∨
        getSplitPoint total ≤ index ∧ ∃ r,
          computeAux sum (index - getSplitPoint total) (total - getSplitPoint total) leaf aunts =
            some r ∧
          sum (1 :: (aunt ++ r)) = root ∧
          innerInputs sum index total leaf (aunt :: aunts) = (1 :: (aunt ++ r)) ::
            innerInputs sum (index - getSplitPoint total) (total - getSplitPoint total) leaf
              aunts) := by
  rw [computeAux] at h
  split_ifs at h with htotal hleft
  · obtain ⟨l, hl, hroot⟩ := Option.map_eq_some_iff.mp h
    refine ⟨not_le.mp htotal, .inl ⟨hleft, l, hl, hroot, ?_⟩⟩
    rw [innerInputs, if_pos hleft, hl, Option.getD_some]
  · obtain ⟨r, hr, hroot⟩ := Option.map_eq_some_iff.mp h
    refine ⟨not_le.mp htotal, .inr ⟨not_lt.mp hleft, r, hr, hroot, ?_⟩⟩
    rw [innerInputs, if_neg hleft, hr, Option.getD_some]

theorem length_computeAux (hsum : ∀ x, (sum x).length = size) {r : Bytes}
    (hleaf : leaf.length = size) (h : computeAux sum index total leaf aunts = some r) :
    r.length = size := by
  cases aunts with
  | nil =>
    rw [computeAux, Option.ite_none_right_eq_some] at h
    rw [← Option.some.inj h.2]
    exact hleaf
  | cons aunt aunts =>
    rcases (computeAux_cons h).2 with ⟨-, l, -, rfl, -⟩ | ⟨-, r, -, rfl, -⟩
    · exact hsum _
    · exact hsum _

theorem leaf_unique (hsum : ∀ x, (sum x).length = size) (hS : S.InjOn sum) {leaf' r : Bytes}
    {aunts' : List Bytes} (hleaf : leaf.length = size) (hleaf' : leaf'.length = size)
    (hin : ∀ x ∈ innerInputs sum index total leaf aunts, x ∈ S)
    (hin' : ∀ x ∈ innerInputs sum index total leaf' aunts', x ∈ S)
    (h : computeAux sum index total leaf aunts = some r)
    (h' : computeAux sum index total leaf' aunts' = some r) : leaf = leaf' := by
  induction aunts generalizing index total aunts' r with
  | nil =>
    rw [computeAux, Option.ite_none_right_eq_some] at h
    cases aunts' with
    | nil =>
      rw [computeAux, if_pos h.1] at h'
      exact Option.some.inj (h.2.trans h'.symm)
    | cons aunt' aunts' =>
      have htotal := (computeAux_cons h').1
      omega
  | cons aunt aunts ih =>
    obtain ⟨htotal, hlast⟩ := computeAux_cons h
    cases aunts' with
    | nil =>
      rw [computeAux, Option.ite_none_right_eq_some] at h'
      omega
    | cons aunt' aunts' =>
      rcases hlast with ⟨hlt, l, hl, hroot, hins⟩ | ⟨hge, l, hl, hroot, hins⟩ <;>
        rcases (computeAux_cons h').2 with
          ⟨hlt', l', hl', hroot', hins'⟩ | ⟨hge', l', hl', hroot', hins'⟩
      case inl.inr | inr.inl => omega
      all_goals
        rw [hins] at hin
        rw [hins'] at hin'
        have heq := hS (hin _ List.mem_cons_self) (hin' _ List.mem_cons_self)
          (hroot.trans hroot'.symm)
        have hlen := (length_computeAux hsum hleaf hl).trans
          (length_computeAux hsum hleaf' hl').symm
      · obtain ⟨rfl, -⟩ := List.append_inj (List.cons.inj heq).2 hlen
        exact ih (fun x hx => hin x (List.mem_cons_of_mem _ hx))
          (fun x hx => hin' x (List.mem_cons_of_mem _ hx)) hl hl'
      · obtain ⟨-, rfl⟩ := List.append_inj_right' (List.cons.inj heq).2 hlen
        exact ih (fun x hx => hin x (List.mem_cons_of_mem _ hx))
          (fun x hx => hin' x (List.mem_cons_of_mem _ hx)) hl hl'

theorem verify_eq_true (hroot : root ≠ []) (h : p.verify sum root leaf = true) :
    p.leafHash = leafHash sum leaf ∧ 0 ≤ p.index ∧ p.index < p.total ∧
      computeAux sum p.index.toNat p.total.toNat p.leafHash p.aunts.reverse = some root := by
  simp only [Proof.verify, Bool.and_eq_true, decide_eq_true_eq, beq_iff_eq] at h
  obtain ⟨⟨⟨-, hindex⟩, hleaf⟩, hcomp⟩ := h
  unfold Proof.computeRootHash at hcomp
  split_ifs at hcomp with hout
  · exact absurd hcomp.symm hroot
  · refine ⟨hleaf, hindex, by omega, ?_⟩
    cases hc : computeAux sum p.index.toNat p.total.toNat p.leafHash p.aunts.reverse with
    | none =>
      rw [hc] at hcomp
      exact absurd hcomp.symm hroot
    | some r =>
      rw [hc] at hcomp
      exact congrArg some hcomp

/-- **Binding.** Two proofs for the same position that verify against the same root are proofs of
the same item, as long as the hashed strings do not collide. -/
theorem verify_unique (hsum : ∀ x, (sum x).length = size) (hS : S.InjOn sum) {p' : Proof}
    {leaf' : Bytes} (hroot : root ≠ []) (hindex : p.index = p'.index) (htotal : p.total = p'.total)
    (hin : ∀ x ∈ p.inputs sum leaf, x ∈ S) (hin' : ∀ x ∈ p'.inputs sum leaf', x ∈ S)
    (h : p.verify sum root leaf = true) (h' : p'.verify sum root leaf' = true) : leaf = leaf' := by
  obtain ⟨hleaf, -, -, hcomp⟩ := verify_eq_true hroot h
  obtain ⟨hleaf', -, -, hcomp'⟩ := verify_eq_true hroot h'
  rw [← hindex, ← htotal] at hcomp'
  have hin₂ : ∀ x ∈ innerInputs sum p.index.toNat p.total.toNat p'.leafHash p'.aunts.reverse,
      x ∈ S := by
    rw [hindex, htotal]
    exact fun x hx => hin' x (List.mem_cons_of_mem _ hx)
  have heq : p.leafHash = p'.leafHash :=
    leaf_unique hsum hS (by rw [hleaf]; exact hsum _) (by rw [hleaf']; exact hsum _)
      (fun x hx => hin x (List.mem_cons_of_mem _ hx)) hin₂ hcomp hcomp'
  rw [hleaf, hleaf'] at heq
  exact (List.cons.inj (hS (hin _ List.mem_cons_self) (hin' _ List.mem_cons_self) heq)).2

/-! ## What a proof can show -/

/-- The strings hashed while a proof for `leaf` is verified. A computation that ends without a root
has hashed nothing on the way. -/
def Proof.verifyInputs (sum : Bytes → Bytes) (p : Proof) (leaf : Bytes) : List Bytes :=
  (0 :: leaf) ::
    if (p.computeRootHash sum).isSome then
      innerInputs sum p.index.toNat p.total.toNat p.leafHash p.aunts.reverse
    else []

theorem computeRootHash_of_verify (hroot : root ≠ []) (h : p.verify sum root leaf = true) :
    p.computeRootHash sum = some root := by
  obtain ⟨-, h0, hlt, hcomp⟩ := verify_eq_true hroot h
  rw [Proof.computeRootHash, if_neg (by omega), hcomp]

theorem verifyInputs_of_verify (hroot : root ≠ []) (h : p.verify sum root leaf = true) :
    p.verifyInputs sum leaf = p.inputs sum leaf := by
  rw [Proof.verifyInputs, computeRootHash_of_verify hroot h, Option.isSome_some, if_pos rfl]
  rfl

/-- The string under an inner node is that of a list with two halves. -/
theorem halves_of_inner (hS : S.InjOn sum) {bz : Bytes} (hfuel : items.length ≤ fuel + 1)
    (hin : ∀ x ∈ hashedAux sum fuel items, x ∈ S) (hbz : 1 :: bz ∈ S)
    (h : sum (1 :: bz) = hashAux sum fuel items) :
    ∃ k, Halves sum S k items ∧ bz = hashAux sum k (items.take (getSplitPoint items.length)) ++
      hashAux sum k (items.drop (getSplitPoint items.length)) := by
  rcases hashAux_cases sum hfuel with ⟨-, hx, hmem⟩ | ⟨item, -, hx, hmem⟩ |
    ⟨hlen, k, left, right, rfl, rfl, rfl, hx, hmem⟩
  · cases hS hbz (hin _ hmem) (h.trans hx)
  · cases hS hbz (hin _ hmem) (h.trans hx)
  · have heq := hS hbz (hin _ hmem) (h.trans hx)
    exact ⟨k, halves hlen hfuel hin, (List.cons.inj heq).2⟩

/-- A computation that starts from a leaf and ends at the root of a list has met an item. The walk
is compared with the tree from the top down: the strings under a node are equal on both sides, and
they tell leaves from inner nodes. -/
theorem mem_of_computeAux (hsum : ∀ x, (sum x).length = size) (hS : S.InjOn sum)
    (hfuel : items.length ≤ fuel + 1) (hin : ∀ x ∈ hashedAux sum fuel items, x ∈ S)
    (hleaf : 0 :: leaf ∈ S)
    (hin' : ∀ x ∈ innerInputs sum index total (leafHash sum leaf) aunts, x ∈ S)
    (h : computeAux sum index total (leafHash sum leaf) aunts = some (hashAux sum fuel items)) :
    leaf ∈ items := by
  induction aunts generalizing index total fuel items with
  | nil =>
    rw [computeAux, Option.ite_none_right_eq_some] at h
    have hroot : sum (0 :: leaf) = hashAux sum fuel items := Option.some.inj h.2
    rcases hashAux_cases sum hfuel with ⟨-, hx, hmem⟩ | ⟨item, rfl, hx, hmem⟩ |
      ⟨-, k, left, right, -, -, -, hx, hmem⟩
    · cases hS hleaf (hin _ hmem) (hroot.trans hx)
    · obtain ⟨-, rfl⟩ := List.cons.inj (hS hleaf (hin _ hmem) (hroot.trans hx))
      exact List.mem_singleton_self leaf
    · cases hS hleaf (hin _ hmem) (hroot.trans hx)
  | cons aunt aunts ih =>
    rcases (computeAux_cons h).2 with ⟨-, l, hwalk, hroot, hins⟩ | ⟨-, r, hwalk, hroot, hins⟩
    all_goals
      rw [hins] at hin'
      obtain ⟨k, hh, heq⟩ := halves_of_inner hS hfuel hin (hin' _ List.mem_cons_self) hroot
    · obtain ⟨rfl, -⟩ := List.append_inj heq (by
        rw [length_computeAux hsum (hsum _) hwalk, length_hashAux hsum hh.take])
      exact List.mem_of_mem_take
        (ih hh.take hh.left (fun y hy => hin' y (List.mem_cons_of_mem _ hy)) hwalk)
    · obtain ⟨-, rfl⟩ := List.append_inj' heq (by
        rw [length_computeAux hsum (hsum _) hwalk, length_hashAux hsum hh.drop])
      exact List.mem_of_mem_drop
        (ih hh.drop hh.right (fun y hy => hin' y (List.mem_cons_of_mem _ hy)) hwalk)

theorem mem_hashedAux_of_mem (fuel : ℕ) (items : List Bytes) (hfuel : items.length ≤ fuel + 1) :
    ∀ item ∈ items, 0 :: item ∈ hashedAux sum fuel items := by
  refine split_induction ?_ ?_ ?_ fuel items hfuel
  · intro fuel item hitem
    cases hitem
  · intro fuel item item' hitem
    obtain rfl := List.mem_singleton.mp hitem
    cases fuel <;> exact List.mem_singleton_self _
  · intro fuel items hlen _ _ ihl ihr item hitem
    rw [hashedAux_split fuel hlen]
    rw [← List.take_append_drop (getSplitPoint items.length) items] at hitem
    rcases List.mem_append.mp hitem with hitem | hitem
    · exact List.mem_cons_of_mem _ (List.mem_append_left _ (ihl item hitem))
    · exact List.mem_cons_of_mem _ (List.mem_append_right _ (ihr item hitem))

include h in
theorem verifyInputs_proofs {item : Bytes} (hitem : items[i]? = some item) : ∀ x ∈ p.verifyInputs sum item, x ∈ hashed sum items := by
  obtain ⟨htotal, hindex, -, hroot⟩ := computeRootHash_proofs h
  have hinner : ∀ x ∈ innerInputs sum p.index.toNat p.total.toNat p.leafHash p.aunts.reverse,
      x ∈ hashed sum items := by
    rw [htotal, hindex, Int.toNat_natCast, Int.toNat_natCast]
    rw [proofsFromByteSlices, List.getElem?_mapIdx, Option.map_eq_some_iff] at h
    obtain ⟨t, ht, rfl⟩ := h
    exact (trail_spec _ items (Nat.le_succ _) i t ht).2.2
  intro x hx
  rw [Proof.verifyInputs, hroot, Option.isSome_some, if_pos rfl] at hx
  rcases List.mem_cons.mp hx with rfl | hx
  · exact mem_hashedAux_of_mem _ items (Nat.le_succ _) item (List.mem_of_getElem? hitem)
  · exact hinner x hx

/-- Some proof shows `leaf` against `root`, hashing only strings of `S`. -/
def Opens (sum : Bytes → Bytes) (S : Set Bytes) (root leaf : Bytes) : Prop :=
  ∃ p : Proof, (∀ x ∈ p.verifyInputs sum leaf, x ∈ S) ∧ p.verify sum root leaf = true

theorem Opens.mem (h : Opens sum S root leaf) : 0 :: leaf ∈ S :=
  h.elim fun _ hp => hp.1 _ List.mem_cons_self

section

variable {size : ℕ} {S : Set Bytes} (hsum : ∀ x, (sum x).length = size)

include hsum

theorem root_ne_nil (hsize : 0 < size) (items : List Bytes) :
    hashFromByteSlices sum items ≠ [] := by
  intro h
  have hlen := length_hashFromByteSlices hsum items
  rw [h] at hlen
  exact hsize.ne hlen

/-- Only roots of the right length can be opened, and the empty one. -/
theorem Opens.length_root (h : Opens sum S root leaf) :
    root = [] ∨ root.length = size := by
  obtain ⟨p, -, hverify⟩ := h
  by_cases hroot : root = []
  · exact .inl hroot
  · obtain ⟨hleaf, -, -, hcomp⟩ := verify_eq_true hroot hverify
    exact .inr (length_computeAux hsum (by rw [hleaf]; exact hsum _) hcomp)

/-- **Soundness.** What can be shown against the root of a list is what is in the list. -/
theorem opens_root_iff (hsize : 0 < size) (hS : S.InjOn sum)
    (hin : ∀ x ∈ hashed sum items, x ∈ S) :
    Opens sum S (hashFromByteSlices sum items) leaf ↔ leaf ∈ items := by
  constructor
  · rintro ⟨p, hp, hverify⟩
    have hne := root_ne_nil hsum hsize items
    obtain ⟨hleaf, -, -, hcomp⟩ := verify_eq_true hne hverify
    rw [verifyInputs_of_verify hne hverify, Proof.inputs, hleaf] at hp
    rw [hleaf] at hcomp
    exact mem_of_computeAux hsum hS (Nat.le_succ _) hin (hp _ List.mem_cons_self)
      (fun x hx => hp x (List.mem_cons_of_mem _ hx)) hcomp
  · intro hmem
    obtain ⟨i, hi⟩ := List.mem_iff_getElem?.mp hmem
    have hlen : i < (proofsFromByteSlices sum items).2.length := by
      rw [length_proofs]
      exact (List.getElem?_eq_some_iff.mp hi).1
    have hp := List.getElem?_eq_getElem hlen
    exact ⟨_, fun x hx => hin x (verifyInputs_proofs hp hi x hx), verify_proofs hp hi⟩

/-- A proof for a position in a list shows the item there. -/
theorem getElem?_of_verify (hsize : 0 < size) (hS : S.InjOn sum)
    (hin : ∀ x ∈ hashed sum items, x ∈ S) (hindex : p.index = i) (htotal : p.total = items.length)
    (hp : ∀ x ∈ p.verifyInputs sum leaf, x ∈ S)
    (h : p.verify sum (hashFromByteSlices sum items) leaf = true) : items[i]? = some leaf := by
  have hne := root_ne_nil hsum hsize items
  obtain ⟨-, -, hlt, -⟩ := verify_eq_true hne h
  have hi : i < items.length := by omega
  have hlen : i < (proofsFromByteSlices sum items).2.length := by rwa [length_proofs]
  -- the proof from the list is for the same position
  have hp' := List.getElem?_eq_getElem hlen
  have hitem := List.getElem?_eq_getElem hi
  have h' := verify_proofs hp' hitem
  obtain ⟨htotal', hindex', -⟩ := computeRootHash_proofs hp'
  have hin' := verifyInputs_proofs hp' hitem
  rw [verifyInputs_of_verify hne h] at hp
  rw [verifyInputs_of_verify hne h'] at hin'
  rw [hitem, verify_unique hsum hS hne (hindex.trans hindex'.symm) (htotal.trans htotal'.symm) hp
    (fun x hx => hin x (hin' x hx)) h h']

end

/-- Against the empty root a proof without a root shows anything. -/
theorem opens_nil {S : Set Bytes} (h : 0 :: leaf ∈ S) : Opens sum S [] leaf := by
  refine ⟨{ total := 0, index := 0, leafHash := leafHash sum leaf, aunts := [] }, ?_, ?_⟩
  · simpa [Proof.verifyInputs, Proof.computeRootHash] using h
  · simp [Proof.verify, Proof.computeRootHash]

end Emulator.Merkle
