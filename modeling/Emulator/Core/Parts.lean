import Emulator.Crypto.Merkle

/-!
# The parts of a block

A proposer splits the bytes of a block into parts and sends each with its Merkle proof; the
receivers collect the parts that verify against the header of the proposal and reassemble the block.
Pyramid and Urd nodes have the same code for this, over their own blocks: the type of blocks is a
parameter. What is a height here is the view of an Urd block.

* `PartSet.Sound` — what a part set holds; `PartSet.Sound.addPart` keeps it.
* `Assembles` — a block that parts verifying against a header decode to.
* `Assembles.unique` — a header determines the block, as long as the hashed strings do not collide.
* `assembles_partSetFromBlock` — the parts of an honest proposer decode to its block.
* `PartSet.Filled.genBlock` — a receiver who has got all of them generates the block.
-/

namespace Emulator

open Merkle

/-! ## Parts and part sets -/

structure Part where
  chainID : Str
  height : ℤ
  round : ℤ
  bytes : Bytes
  proof : Merkle.Proof
  deriving DecidableEq, Repr

structure PartSetHeader where
  height : ℤ
  round : ℤ
  total : ℤ
  root : Bytes
  chainID : Str
  deriving DecidableEq, Repr

/-- What parts need of a block type: the hash function, `ProtoBytes` and `NewBlockFromBytes`,
`Block.Hash`, the fields that `GenBlock` compares, and `Block.ValidateBasic` (`none` when it
panics). -/
structure BlockLib (Block : Type) where
  sum : Bytes → Bytes
  codec : Codec Block
  blockHash : Block → Bytes
  blockChainID : Block → Str
  blockHeight : Block → ℤ
  validateBasic : Block → Option Bool

variable {Block : Type}

def Part.verify (lib : BlockLib Block) (p : Part) (root : Bytes) (total : ℤ) (chainID : Str) : Bool :=
  total == p.proof.total && chainID == p.chainID && p.proof.verify lib.sum root p.bytes

def Part.validateBasic (p : Part) : Bool :=
  0 ≤ p.height && 0 ≤ p.round && !p.bytes.isEmpty && !p.chainID.isEmpty && p.proof.validateBasic

def PartSetHeader.validateBasic (h : PartSetHeader) : Bool :=
  0 ≤ h.height && 0 ≤ h.round && 0 ≤ h.total && !h.chainID.isEmpty && h.root.length == hashSize

structure PartSet where
  header : PartSetHeader
  parts : List (Option Part)
  count : ℕ
  blockHeaderHash : Bytes

def newPartSet (header : PartSetHeader) (headerHash : Bytes) : PartSet :=
  { header, parts := List.replicate header.total.toNat none, count := 0, blockHeaderHash := headerHash }

/-- `utils.SplitByteArray`, with fuel for the loop. -/
def splitAux : ℕ → ℕ → Bytes → List Bytes
  | _, _, [] => []
  | 0, _, _ => []
  | fuel + 1, size, data => data.take size :: splitAux fuel size (data.drop size)

def splitByteArray (data : Bytes) (size : ℕ) : List Bytes := splitAux data.length size data

def partsOf (lib : BlockLib Block) (b : Block) (maxPartSize : ℕ) (round : ℤ) : List Part :=
  let bzList := splitByteArray (lib.codec.marshal b) maxPartSize
  List.zipWith (fun bz proof =>
    { chainID := lib.blockChainID b, height := lib.blockHeight b, round, bytes := bz, proof })
    bzList (proofsFromByteSlices lib.sum bzList).2

def partSetFromBlock (lib : BlockLib Block) (b : Block) (maxPartSize : ℕ) (round : ℤ) : PartSet :=
  let bzList := splitByteArray (lib.codec.marshal b) maxPartSize
  { header :=
      { height := lib.blockHeight b, round, total := bzList.length
        root := (proofsFromByteSlices lib.sum bzList).1, chainID := lib.blockChainID b }
    parts := (partsOf lib b maxPartSize round).map some
    count := bzList.length
    blockHeaderHash := lib.blockHash b }

/-- The ways `PartSet.AddPart` refuses a part. -/
inductive PartError
  /-- a slice index out of range -/
  | panic
  | duplicated
  | height
  | round
  | merkle
  deriving DecidableEq, Repr

/-- The ways `GenBlock` fails. -/
inductive GenBlockError
  /-- a part that is `nil`, or a panic of `ValidateBasic` -/
  | panic
  | serialization
  | chainID
  | height
  | invalid
  | hash
  deriving DecidableEq, Repr

namespace PartSet

def addPart (lib : BlockLib Block) (ps : PartSet) (p : Part) : Except PartError PartSet :=
  if p.proof.index < 0 then .error .panic
  else if p.proof.index < ps.header.total ∧ (ps.parts[p.proof.index.toNat]?).join.isSome then
    .error .duplicated
  else if ps.header.height ≠ p.height then .error .height
  else if ps.header.round ≠ p.round then .error .round
  else if !p.verify lib ps.header.root ps.header.total ps.header.chainID then .error .merkle
  else .ok { ps with parts := ps.parts.set p.proof.index.toNat (some p), count := ps.count + 1 }

def isComplete (ps : PartSet) : Bool := ps.header.total == ps.count

/-- `GenBlock` on a complete set. -/
def genBlock (lib : BlockLib Block) (ps : PartSet) : Except GenBlockError Block :=
  match ps.parts.mapM id with
  | none => .error .panic
  | some parts =>
    match lib.codec.unmarshal (parts.flatMap Part.bytes) with
    | none => .error .serialization
    | some block =>
      if lib.blockChainID block ≠ ps.header.chainID then .error .chainID
      else if lib.blockHeight block ≠ ps.header.height then .error .height
      else
        match lib.validateBasic block with
        | none => .error .panic
        | some false => .error .invalid
        | some true =>
          if lib.blockHash block ≠ ps.blockHeaderHash then .error .hash else .ok block

end PartSet

/-! ## Splitting and joining -/

variable {ps ps' : PartSet} {p : Part} {b : Block} {size i maxPartSize : ℕ} {header : PartSetHeader}
  {round : ℤ}

theorem flatten_splitAux (hsize : 0 < size) (fuel : ℕ) (data : Bytes) (hfuel : data.length ≤ fuel) :
    (splitAux fuel size data).flatten = data := by
  induction fuel generalizing data with
  | zero =>
    obtain rfl := List.length_eq_zero_iff.mp (Nat.le_zero.mp hfuel)
    rfl
  | succ fuel ih =>
    cases data with
    | nil => rfl
    | cons b data =>
      rw [splitAux, List.flatten_cons, ih, List.take_append_drop]
      · rw [List.length_drop]
        simp only [List.length_cons] at hfuel ⊢
        omega
      · simp

theorem flatten_splitByteArray (hsize : 0 < size) (data : Bytes) :
    (splitByteArray data size).flatten = data :=
  flatten_splitAux hsize _ data le_rfl

/-! ## The block a header stands for -/

section

variable {lib : BlockLib Block} {S : Set Bytes}

/-- The part belongs to the header, and what is hashed to verify it is among the strings `S`. -/
structure PartOf (lib : BlockLib Block) (S : Set Bytes) (header : PartSetHeader) (i : ℕ) (p : Part) :
    Prop where
  index : p.proof.index = i
  verify : p.verify lib header.root header.total header.chainID = true
  inputs : ∀ x ∈ p.proof.inputs lib.sum p.bytes, x ∈ S

/-- The block decodes from parts that belong to the header. -/
def Assembles (lib : BlockLib Block) (S : Set Bytes) (header : PartSetHeader) (b : Block) : Prop :=
  ∃ parts : List Part, (parts.length : ℤ) = header.total ∧
    (∀ i p, parts[i]? = some p → PartOf lib S header i p) ∧
      lib.codec.unmarshal (parts.flatMap Part.bytes) = some b

theorem PartOf.bytes_unique (hsum : ∀ x, (lib.sum x).length = size) (hS : S.InjOn lib.sum)
    (hroot : header.root ≠ []) {p' : Part} (h : PartOf lib S header i p)
    (h' : PartOf lib S header i p') : p.bytes = p'.bytes := by
  have hv := h.verify
  have hv' := h'.verify
  simp only [Part.verify, Bool.and_eq_true, beq_iff_eq] at hv hv'
  exact verify_unique hsum hS hroot (h.index.trans h'.index.symm) (hv.1.1.symm.trans hv'.1.1)
    h.inputs h'.inputs hv.2 hv'.2

/-- **A header determines the block.** -/
theorem Assembles.unique (hsum : ∀ x, (lib.sum x).length = size) (hS : S.InjOn lib.sum)
    (hroot : header.root ≠ []) {b' : Block} (h : Assembles lib S header b)
    (h' : Assembles lib S header b') : b = b' := by
  obtain ⟨parts, hlen, hparts, hb⟩ := h
  obtain ⟨parts', hlen', hparts', hb'⟩ := h'
  have hbytes : parts.map Part.bytes = parts'.map Part.bytes := by
    refine List.ext_getElem (by simp only [List.length_map]; omega) fun i hi hi' => ?_
    rw [List.length_map] at hi hi'
    rw [List.getElem_map, List.getElem_map]
    exact (hparts i _ (List.getElem?_eq_getElem hi)).bytes_unique hsum hS hroot
      (hparts' i _ (List.getElem?_eq_getElem hi'))
  rw [List.flatMap_def, hbytes, ← List.flatMap_def, hb'] at hb
  exact (Option.some.inj hb).symm

/-! ## Collecting parts -/

/-- What a part set holds: a slot for each part, filled with parts that belong to the header. -/
structure PartSet.Sound (lib : BlockLib Block) (S : Set Bytes) (ps : PartSet) : Prop where
  length : (ps.parts.length : ℤ) = ps.header.total
  parts : ∀ i p, ps.parts[i]? = some (some p) → PartOf lib S ps.header i p

theorem PartSet.sound_newPartSet (headerHash : Bytes) (h : 0 ≤ header.total) :
    (newPartSet header headerHash).Sound lib S := by
  refine ⟨?_, fun i p hp => ?_⟩
  · show ((List.replicate header.total.toNat none).length : ℤ) = header.total
    rw [List.length_replicate]
    omega
  · have hmem := List.eq_of_mem_replicate (List.mem_of_getElem? hp)
    cases hmem

theorem PartSet.addPart_eq_ok (h : ps.addPart lib p = .ok ps') :
    0 ≤ p.proof.index ∧ p.verify lib ps.header.root ps.header.total ps.header.chainID = true ∧
      ps' = { ps with
        parts := ps.parts.set p.proof.index.toNat (some p)
        count := ps.count + 1 } := by
  unfold PartSet.addPart at h
  split_ifs at h with h₁ h₂ h₃ h₄ h₅
  injection h with h
  exact ⟨by omega, by simpa using h₅, h.symm⟩

theorem PartSet.Sound.addPart (hs : ps.Sound lib S)
    (hin : ∀ x ∈ p.proof.inputs lib.sum p.bytes, x ∈ S) (h : ps.addPart lib p = .ok ps') :
    ps'.Sound lib S := by
  obtain ⟨hindex, hverify, rfl⟩ := PartSet.addPart_eq_ok h
  refine ⟨by simpa using hs.length, fun i q hq => ?_⟩
  by_cases hi : p.proof.index.toNat = i
  · subst hi
    rw [List.getElem?_set_self'] at hq
    obtain ⟨_, -, hq⟩ := Option.map_eq_some_iff.mp hq
    obtain rfl := Option.some.inj hq
    exact ⟨by omega, hverify, hin⟩
  · rw [List.getElem?_set_ne hi] at hq
    exact hs.parts i q hq

theorem mapM_id_eq_some_iff {α : Type} {os : List (Option α)} {l : List α} :
    os.mapM id = some l ↔ os = l.map some := by
  rw [mapM_eq_some_iff]
  constructor
  · intro h
    rw [← List.forall₂_eq_eq_eq, List.forall₂_map_right_iff]
    exact h
  · rintro rfl
    rw [List.forall₂_map_left_iff, List.forall₂_same]
    exact fun a _ => rfl

/-- What `GenBlock` has checked when it returns a block. -/
theorem PartSet.genBlock_eq_ok :
    ps.genBlock lib = .ok b ↔ ∃ parts : List Part, ps.parts = parts.map some ∧
      lib.codec.unmarshal (parts.flatMap Part.bytes) = some b ∧
      lib.blockChainID b = ps.header.chainID ∧ lib.blockHeight b = ps.header.height ∧
      lib.validateBasic b = some true ∧ lib.blockHash b = ps.blockHeaderHash := by
  unfold PartSet.genBlock
  constructor
  · intro h
    split at h
    · cases h
    · next parts hparts =>
      split at h
      · cases h
      · next block hblock =>
        split_ifs at h with hc hh hhash
        · split at h <;> cases h
        · split at h
          · cases h
          · cases h
          · next hv =>
            obtain rfl := Except.ok.inj h
            exact ⟨parts, mapM_id_eq_some_iff.mp hparts, hblock, not_not.mp hc, not_not.mp hh, hv,
              not_not.mp hhash⟩
  · rintro ⟨parts, hparts, hblock, hc, hh, hv, hhash⟩
    rw [mapM_id_eq_some_iff.mpr hparts]
    simp only
    rw [hblock]
    simp only
    rw [if_neg (not_not.mpr hc), if_neg (not_not.mpr hh), hv]
    simp only
    rw [if_neg (not_not.mpr hhash)]

/-- A block that a sound part set generates has the announced hash and belongs to the header. -/
theorem PartSet.Sound.genBlock (hs : ps.Sound lib S) (h : ps.genBlock lib = .ok b) :
    lib.blockHash b = ps.blockHeaderHash ∧ Assembles lib S ps.header b := by
  obtain ⟨parts, hparts, hblock, -, -, -, hhash⟩ := PartSet.genBlock_eq_ok.mp h
  refine ⟨hhash, parts, ?_, fun i p hp => ?_, hblock⟩
  · rw [← hs.length, hparts, List.length_map]
  · refine hs.parts i p ?_
    rw [hparts, List.getElem?_map, hp]
    rfl

/-! ## An honest proposer's parts -/

/-- The strings hashed for the parts of a block are among `S`. -/
def PartsIn (lib : BlockLib Block) (S : Set Bytes) (b : Block) (maxPartSize : ℕ) (round : ℤ) : Prop :=
  ∀ p ∈ partsOf lib b maxPartSize round, ∀ x ∈ p.proof.inputs lib.sum p.bytes, x ∈ S

theorem map_bytes_partsOf (b : Block) (maxPartSize : ℕ) (round : ℤ) :
    (partsOf lib b maxPartSize round).map Part.bytes =
      splitByteArray (lib.codec.marshal b) maxPartSize := by
  simp only [partsOf, List.map_zipWith]
  rw [← List.map_uncurry_zip_eq_zipWith]
  exact List.map_fst_zip (Nat.le_of_eq (length_proofs _).symm)

theorem length_partsOf (b : Block) (maxPartSize : ℕ) (round : ℤ) :
    ((partsOf lib b maxPartSize round).length : ℤ) =
      (partSetFromBlock lib b maxPartSize round).header.total := by
  rw [← List.length_map (f := Part.bytes), map_bytes_partsOf]
  rfl

theorem partOf_partsOf (hin : PartsIn lib S b maxPartSize round)
    (hp : (partsOf lib b maxPartSize round)[i]? = some p) :
    PartOf lib S (partSetFromBlock lib b maxPartSize round).header i p := by
  have hmem := hin p (List.mem_of_getElem? hp)
  simp only [partsOf, List.getElem?_zipWith_eq_some] at hp
  obtain ⟨bz, proof, hbzi, hproof, rfl⟩ := hp
  obtain ⟨htotal, hindex, -, -⟩ := computeRootHash_proofs hproof
  refine ⟨hindex, ?_, hmem⟩
  have hv := verify_proofs hproof hbzi
  rw [← root_proofs] at hv
  show (_ == _ && _ == _ && _) = true
  simp [partSetFromBlock, htotal, hv]

theorem sound_partSetFromBlock (hin : PartsIn lib S b maxPartSize round) :
    (partSetFromBlock lib b maxPartSize round).Sound lib S := by
  refine ⟨?_, fun i p hp => ?_⟩
  · show (((partsOf lib b maxPartSize round).map some).length : ℤ) = _
    rw [List.length_map]
    exact length_partsOf b maxPartSize round
  · obtain ⟨q, hq, hqp⟩ := Option.map_eq_some_iff.mp ((List.getElem?_map ..).symm.trans hp)
    obtain rfl := Option.some.inj hqp
    exact partOf_partsOf hin hq

/-- **An honest proposer's parts** decode to its block. -/
theorem assembles_partSetFromBlock (hsize : 0 < maxPartSize)
    (hround : lib.codec.unmarshal (lib.codec.marshal b) = some b)
    (hin : PartsIn lib S b maxPartSize round) :
    Assembles lib S (partSetFromBlock lib b maxPartSize round).header b := by
  refine ⟨partsOf lib b maxPartSize round, length_partsOf b maxPartSize round,
    fun i p hp => partOf_partsOf hin hp, ?_⟩
  rw [List.flatMap_def, map_bytes_partsOf, flatten_splitByteArray hsize, hround]

theorem root_partSetFromBlock (hsize : 0 < size) (hsum : ∀ x, (lib.sum x).length = size) (b : Block)
    (maxPartSize : ℕ) (round : ℤ) :
    (partSetFromBlock lib b maxPartSize round).header.root ≠ [] := by
  show (proofsFromByteSlices lib.sum _).1 ≠ []
  rw [root_proofs]
  intro h
  have hlen := length_hashFromByteSlices hsum (splitByteArray (lib.codec.marshal b) maxPartSize)
  rw [h, List.length_nil] at hlen
  omega

end

/-! ## Reassembling an honest proposer's block -/

section

variable {lib : BlockLib Block} {b : Block} {maxPartSize : ℕ} {round : ℤ}

/-- A part set for the header of an honest proposer, filled with some of the proposer's parts. -/
structure PartSet.Filled (lib : BlockLib Block) (b : Block) (maxPartSize : ℕ) (round : ℤ)
    (ps : PartSet) : Prop where
  header : ps.header = (partSetFromBlock lib b maxPartSize round).header
  hash : ps.blockHeaderHash = lib.blockHash b
  length : ps.parts.length = (partsOf lib b maxPartSize round).length
  parts : ∀ (i : ℕ) p, ps.parts[i]? = some (some p) →
    (partsOf lib b maxPartSize round)[i]? = some p
  count : ps.count = ps.parts.countP Option.isSome

theorem total_partSetFromBlock :
    (partSetFromBlock lib b maxPartSize round).header.total =
      (partsOf lib b maxPartSize round).length := (length_partsOf b maxPartSize round).symm

theorem PartSet.filled_newPartSet {headerHash : Bytes}
    (hheader : header = (partSetFromBlock lib b maxPartSize round).header)
    (hhash : headerHash = lib.blockHash b) :
    (newPartSet header headerHash).Filled lib b maxPartSize round where
  header := hheader
  hash := hhash
  length := by
    show (List.replicate header.total.toNat none).length = _
    rw [List.length_replicate, hheader, total_partSetFromBlock, Int.toNat_natCast]
  parts i p hp := by
    have hmem := List.eq_of_mem_replicate (List.mem_of_getElem? hp)
    cases hmem
  count := by
    show 0 = (List.replicate header.total.toNat none).countP Option.isSome
    rw [List.countP_replicate]
    rfl

theorem index_partsOf (hp : (partsOf lib b maxPartSize round)[i]? = some p) : p.proof.index = i :=
  (partOf_partsOf (S := Set.univ) (fun _ _ _ _ => Set.mem_univ _) hp).index

theorem PartSet.Filled.total (hps : ps.Filled lib b maxPartSize round) :
    (ps.parts.length : ℤ) = ps.header.total := by
  rw [hps.header, total_partSetFromBlock, hps.length]

theorem PartSet.addPart_free (h : ps.addPart lib p = .ok ps')
    (hlt : p.proof.index < ps.header.total) : (ps.parts[p.proof.index.toNat]?).join = none := by
  unfold PartSet.addPart at h
  split_ifs at h with h₁ h₂
  exact Option.not_isSome_iff_eq_none.mp fun hsome => h₂ ⟨hlt, hsome⟩

theorem PartSet.count_addPart (hlen : (ps.parts.length : ℤ) = ps.header.total)
    (hcount : ps.count = ps.parts.countP Option.isSome) (h : ps.addPart lib p = .ok ps')
    (hlt : p.proof.index < ps.header.total) : ps'.count = ps'.parts.countP Option.isSome := by
  have hfree := PartSet.addPart_free h hlt
  obtain ⟨hindex, -, rfl⟩ := PartSet.addPart_eq_ok h
  have hslot : p.proof.index.toNat < ps.parts.length := by omega
  have hnone : (ps.parts.get ⟨_, hslot⟩).isSome = false := by
    rw [List.getElem?_eq_getElem hslot, Option.join_some] at hfree
    rw [List.get_eq_getElem, hfree]
    rfl
  show ps.count + 1 = (ps.parts.set _ (some p)).countP Option.isSome
  rw [List.get_eq_getElem] at hnone
  rw [List.countP_set hslot, hnone, hcount]
  rfl

theorem PartSet.isComplete_iff (hlen : (ps.parts.length : ℤ) = ps.header.total)
    (hcount : ps.count = ps.parts.countP Option.isSome) :
    ps.isComplete = true ↔ ∀ slot ∈ ps.parts, slot.isSome = true := by
  rw [PartSet.isComplete, beq_iff_eq, ← hlen, hcount, ← List.countP_eq_length, eq_comm]
  norm_cast

section

variable (hps : ps.Filled lib b maxPartSize round)

include hps

theorem PartSet.Filled.addPart (hp : p ∈ partsOf lib b maxPartSize round) (h : ps.addPart lib p = .ok ps') :
    ps'.Filled lib b maxPartSize round := by
  obtain ⟨i, hi⟩ := List.mem_iff_getElem?.mp hp
  have hlt : i < ps.parts.length := hps.length ▸ (List.getElem?_eq_some_iff.mp hi).1
  have hindex := index_partsOf hi
  have hcount := PartSet.count_addPart hps.total hps.count h (by rw [← hps.total]; omega)
  obtain ⟨-, -, rfl⟩ := PartSet.addPart_eq_ok h
  rw [hindex, Int.toNat_natCast] at hcount ⊢
  exact
    { header := hps.header
      hash := hps.hash
      length := (List.length_set ..).trans hps.length
      parts := fun k q hq => by
        by_cases hk : i = k
        · subst hk
          rw [List.getElem?_set_self hlt] at hq
          obtain rfl := Option.some.inj (Option.some.inj hq)
          exact hi
        · rw [List.getElem?_set_ne hk] at hq
          exact hps.parts k q hq
      count := hcount }

theorem PartSet.Filled.parts_eq (hcomplete : ps.isComplete = true) : ps.parts = (partsOf lib b maxPartSize round).map some := by
  have hsome := (PartSet.isComplete_iff hps.total hps.count).mp hcomplete
  refine List.ext_getElem (by rw [List.length_map, hps.length]) fun i hi hi' => ?_
  obtain ⟨p, hp⟩ := Option.isSome_iff_exists.mp (hsome _ (List.getElem_mem hi))
  have hpart := hps.parts i p (by rw [List.getElem?_eq_getElem hi, hp])
  rw [List.getElem_map, hp, (List.getElem?_eq_some_iff.mp hpart).2]

/-- **A block is reassembled** from its parts as it comes back from the wire. -/
theorem PartSet.Filled.genBlock (hcomplete : ps.isComplete = true) (hsize : 0 < maxPartSize) {b' : Block}
    (hwire : lib.codec.unmarshal (lib.codec.marshal b) = some b')
    (hchain : lib.blockChainID b' = lib.blockChainID b)
    (hheight : lib.blockHeight b' = lib.blockHeight b) (hvalid : lib.validateBasic b' = some true)
    (hhash : lib.blockHash b' = lib.blockHash b) : ps.genBlock lib = .ok b' := by
  refine PartSet.genBlock_eq_ok.mpr ⟨_, hps.parts_eq hcomplete, ?_, ?_, ?_, hvalid, ?_⟩
  · rw [List.flatMap_def, map_bytes_partsOf, flatten_splitByteArray hsize, hwire]
  · rw [hps.header, hchain]
    rfl
  · rw [hps.header, hheight]
    rfl
  · rw [hps.hash, hhash]

end

end

end Emulator
