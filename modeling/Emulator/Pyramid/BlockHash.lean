import Emulator.Crypto.Merkle
import Emulator.Pyramid.Types
import Emulator.Urd.Codecs

/-!
# What the hash of a Pyramid block stands for

`Block.Hash` fills in the roots that are missing in the header and hashes the header. The header of
a new block comes with the state root and the receipt root of the block before it.

`fillHeader` tests for a missing `RelationRoot` and then assigns to `ReceiptRoot`. The relation
still gets into the hash, in the place of the receipts; the receipt root that the creator has
supplied is lost, and `RelationRoot` stays empty.

* `Coherent` — the hash of a block does not depend on when it is computed or sent: a block and what
  is decoded from its bytes fill in the same header.
* `Block.sameHashed_of_hash_eq` — what equal hashes of new blocks say about them: equal contents,
  and equal headers once they are filled in.
* `hash_stable_complete` — the hash is stable and complete exactly when the creator has put the root
  of the relation into the header.
-/

namespace Emulator.Pyramid

open Merkle

/-! ## Protobuf messages -/

/-- The message `pyramid.types.Header`. -/
structure PbHeader where
  blockType : ℤ
  hashPointer : Bytes
  chainID : Str
  height : ℤ
  time : Bytes
  bodyRoot : Bytes
  crossShardBodyRoot : Bytes
  stateRoot : Bytes
  receiptRoot : Bytes
  relationRoot : Bytes
  deriving DecidableEq, Repr

/-- The message `pyramid.types.CrossShardBody`. -/
structure PbCrossShardBody where
  txs : List Bytes
  crossShardDatas : List Bytes
  deriving DecidableEq, Repr

/-- The message `pyramid.types.Block`; `Body` has only its transactions, and `Relation` is the same
as in memory. -/
structure PbBlock where
  header : Option PbHeader
  body : Option (List Bytes)
  crossShardBody : Option PbCrossShardBody
  relation : Option Relation
  deriving DecidableEq, Repr

/-- SHA-256 and the protobuf runtime. -/
structure HashLib where
  sum : Bytes → Bytes
  block : Codec PbBlock

/-- The value of a block type constant. -/
def BlockType.code : BlockType → ℤ
  | .none => 0
  | .i => 1
  | .b => 2
  | .innerShard => 3
  | .crossShard => 4
  | .bCommitBlock => 5
  | .iCommitBlock => 6
  | .iAcceptBlock => 7

/-- The block type with a given constant; no shard processes a block of another. -/
def BlockType.ofCode : ℤ → BlockType
  | 1 => .i
  | 2 => .b
  | 3 => .innerShard
  | 4 => .crossShard
  | 5 => .bCommitBlock
  | 6 => .iCommitBlock
  | 7 => .iAcceptBlock
  | _ => .none

@[simp] theorem BlockType.ofCode_code (t : BlockType) : BlockType.ofCode (t.code % 256) = t := by
  cases t <;> rfl

theorem BlockType.code_inj {t t' : BlockType} (h : intToBytes 1 t.code = intToBytes 1 t'.code) :
    t = t' := by
  cases t <;> cases t' <;> first | rfl | (revert h; decide)

def Block.toProto (b : Block) : PbBlock where
  header := some
    { blockType := b.blockType.code, hashPointer := b.hashPointer, chainID := b.chainID
      height := b.height, time := b.time, bodyRoot := b.bodyRoot
      crossShardBodyRoot := b.crossShardBodyRoot, stateRoot := b.stateRoot
      receiptRoot := b.receiptRoot, relationRoot := b.relationRoot }
  body := some b.bodyTxs
  crossShardBody := some { txs := b.crossShardTxs, crossShardDatas := b.crossShardDatas }
  relation := some b.relation

/-- `NewBlockFromProto`, with the conversion to `int8`; a missing part is a nil pointer that is
dereferenced. -/
def newBlockFromProto (p : PbBlock) : Option Block := do
  let header ← p.header
  let body ← p.body
  let crossShardBody ← p.crossShardBody
  let relation ← p.relation
  pure
    { blockType := .ofCode (header.blockType % 256), hashPointer := header.hashPointer
      chainID := header.chainID, height := header.height, time := header.time
      bodyRoot := header.bodyRoot, crossShardBodyRoot := header.crossShardBodyRoot
      stateRoot := header.stateRoot, receiptRoot := header.receiptRoot
      relationRoot := header.relationRoot, bodyTxs := body, crossShardTxs := crossShardBody.txs
      crossShardDatas := crossShardBody.crossShardDatas, relation := relation }

theorem newBlockFromProto_toProto (b : Block) : newBlockFromProto b.toProto = some b := by
  simp [newBlockFromProto, Block.toProto]

/-! ## Hashes -/

section

variable (sum : Bytes → Bytes)

/-- `Txs.Hash`: a tree over the hashes of the transactions. -/
def txsHash (txs : List Bytes) : Bytes := hashFromByteSlices sum (txs.map sum)

/-- The leaves of `Relation.Hash`. -/
def Relation.items (r : Relation) : List Bytes :=
  [hashFromByteSlices sum r.relatedCommitStatus, hashFromByteSlices sum r.relatedHash,
    r.myCommitStatus]

def Relation.hash (r : Relation) : Bytes := hashFromByteSlices sum (r.items sum)

/-- The leaves of `Header.Hash`. -/
def Header.items (h : Header) : List Bytes :=
  [intToBytes 1 h.blockType.code, h.hashPointer, h.chainID, intToBytes 8 h.height, h.time,
    h.bodyRoot, h.crossShardBodyRoot, h.stateRoot, h.receiptRoot, h.relationRoot]

def Header.hash (h : Header) : Bytes := hashFromByteSlices sum h.items

namespace Block

variable (b : Block)

/-- The leaves of `CrossShardBody.Hash`. -/
def crossShardItems : List Bytes :=
  [txsHash sum b.crossShardTxs, hashFromByteSlices sum b.crossShardDatas]

def crossShardBodyHash : Bytes := hashFromByteSlices sum (b.crossShardItems sum)

/-- `fillHeader`. A missing `RelationRoot` overwrites `ReceiptRoot`. -/
def fillHeader : Block :=
  { b with
    bodyRoot := if b.bodyRoot.length ≠ hashSize then txsHash sum b.bodyTxs else b.bodyRoot
    receiptRoot :=
      if b.relationRoot.length ≠ hashSize then b.relation.hash sum else b.receiptRoot
    crossShardBodyRoot :=
      if b.crossShardBodyRoot.length ≠ hashSize then b.crossShardBodyHash sum
      else b.crossShardBodyRoot }

def freshHash : Bytes := (b.fillHeader sum).toHeader.hash sum

end Block

end

/-- `Block`, with its field `blockhash`. -/
structure CachedBlock where
  block : Block
  blockhash : Bytes
  deriving DecidableEq, Repr

def newCachedBlock (b : Block) : CachedBlock := ⟨b, []⟩

namespace CachedBlock

/-- `Block.Hash`: the hash, and the block with its header filled in. -/
def hash (sum : Bytes → Bytes) (c : CachedBlock) : Bytes × CachedBlock :=
  let block := c.block.fillHeader sum
  let blockhash := if c.blockhash.length ≠ hashSize then block.toHeader.hash sum else c.blockhash
  (blockhash, ⟨block, blockhash⟩)

def hashTimes (sum : Bytes → Bytes) : ℕ → CachedBlock → CachedBlock
  | 0, c => c
  | n + 1, c => hashTimes sum n (c.hash sum).2

/-- `ProtoBytes`, which fills in nothing. -/
def protoBytes (lib : HashLib) (c : CachedBlock) : Bytes := lib.block.marshal c.block.toProto

end CachedBlock

/-- What `NewBlockFromBytes` returns other than a block: `nil`, or nothing at all. -/
inductive DecodeError
  | unmarshal
  | panic
  deriving DecidableEq, Repr

def newBlockFromBytes (lib : HashLib) (bz : Bytes) : Except DecodeError CachedBlock :=
  match lib.block.unmarshal bz with
  | none => .error .unmarshal
  | some p => (newBlockFromProto p).elim (.error .panic) fun b => .ok (newCachedBlock b)

/-! ## A hash that does not depend on when it is computed -/

section

variable {sum : Bytes → Bytes} (hsum : ∀ x, (sum x).length = hashSize) {b : Block} {c : CachedBlock}

/-- The block in memory stands for `b`: it fills in the same header, and a hash it has is the one
of `b`. -/
structure Coherent (sum : Bytes → Bytes) (b : Block) (c : CachedBlock) : Prop where
  block : c.block.fillHeader sum = b.fillHeader sum
  blockhash : c.blockhash = [] ∨ c.blockhash = b.freshHash sum

theorem coherent_newCachedBlock {draft : Block} (h : draft.fillHeader sum = b.fillHeader sum) :
    Coherent sum b (newCachedBlock draft) :=
  ⟨h, .inl rfl⟩

include hsum

theorem Block.fillHeader_fillHeader (b : Block) :
    (b.fillHeader sum).fillHeader sum = b.fillHeader sum := by
  have hroot : ∀ items, (hashFromByteSlices sum items).length = hashSize :=
    length_hashFromByteSlices hsum
  unfold Block.fillHeader
  congr 2
  · split_ifs with h h' <;> simp_all [txsHash]
  · split_ifs with h h' <;> simp_all [crossShardBodyHash]
  · split_ifs <;> rfl

theorem Coherent.hash (h : Coherent sum b c) :
    (c.hash sum).1 = b.freshHash sum ∧ Coherent sum b (c.hash sum).2 := by
  have hlen : (b.freshHash sum).length = hashSize := length_hashFromByteSlices hsum _
  have hvalue : (c.hash sum).1 = b.freshHash sum := by
    unfold CachedBlock.hash
    rcases h.blockhash with hempty | hcached
    · have hnone : c.blockhash.length ≠ hashSize := by
        rw [hempty]
        decide
      simp only [if_pos hnone, h.block]
      rfl
    · simp only [hcached, hlen, ne_eq, not_true_eq_false, if_false]
  exact ⟨hvalue, (Block.fillHeader_fillHeader hsum c.block).trans h.block, .inr hvalue⟩

theorem Coherent.hashTimes (h : Coherent sum b c) (n : ℕ) : Coherent sum b (c.hashTimes sum n) := by
  induction n generalizing c with
  | zero => exact h
  | succ n ih => exact ih (h.hash hsum).2

end

theorem newBlockFromBytes_protoBytes {lib : HashLib} (hblock : lib.block.RoundTrips id)
    (c : CachedBlock) : newBlockFromBytes lib (c.protoBytes lib) = .ok (newCachedBlock c.block) := by
  unfold newBlockFromBytes CachedBlock.protoBytes
  rw [hblock, id]
  show (newBlockFromProto c.block.toProto).elim _ _ = _
  rw [newBlockFromProto_toProto]
  rfl

/-- Sent before its first `Hash` or after any number of them, a block has the same hash at the
receiver. -/
theorem hash_of_protoBytes {lib : HashLib} (hsum : ∀ x, (lib.sum x).length = hashSize)
    (hblock : lib.block.RoundTrips id) (b : Block) (n : ℕ) :
    ∃ c, newBlockFromBytes lib (((newCachedBlock b).hashTimes lib.sum n).protoBytes lib) = .ok c ∧
      (c.hash lib.sum).1 = ((newCachedBlock b).hash lib.sum).1 := by
  have hb : Coherent lib.sum b (newCachedBlock b) := coherent_newCachedBlock rfl
  have hsent := (hb.hashTimes hsum n).block
  refine ⟨_, newBlockFromBytes_protoBytes hblock _, ?_⟩
  rw [((coherent_newCachedBlock hsent).hash hsum).1, (hb.hash hsum).1]

/-! ## What Hash does to the header -/

/-- A block whose header has the roots of neither body. -/
structure Block.Draft (b : Block) : Prop where
  bodyRoot : b.bodyRoot = []
  crossShardBodyRoot : b.crossShardBodyRoot = []

/-- `Hash` leaves the roots of the creator and sets those of the contents. -/
structure Block.Stable (sum : Bytes → Bytes) (b : Block) : Prop where
  stateRoot : ((newCachedBlock b).hash sum).2.block.stateRoot = b.stateRoot
  receiptRoot : ((newCachedBlock b).hash sum).2.block.receiptRoot = b.receiptRoot
  bodyRoot : ((newCachedBlock b).hash sum).2.block.bodyRoot = txsHash sum b.bodyTxs
  crossShardBodyRoot :
    ((newCachedBlock b).hash sum).2.block.crossShardBodyRoot = b.crossShardBodyHash sum
  relationRoot : ((newCachedBlock b).hash sum).2.block.relationRoot = b.relation.hash sum

section

variable {sum : Bytes → Bytes} {b b' : Block}

theorem Block.Draft.bodyRoot_fillHeader (hb : b.Draft) :
    (b.fillHeader sum).bodyRoot = txsHash sum b.bodyTxs := by
  simp [Block.fillHeader, hb.bodyRoot, hashSize]

theorem Block.Draft.crossShardBodyRoot_fillHeader (hb : b.Draft) :
    (b.fillHeader sum).crossShardBodyRoot = b.crossShardBodyHash sum := by
  simp [Block.fillHeader, hb.crossShardBodyRoot, hashSize]

theorem Block.receiptRoot_fillHeader (hsum : ∀ x, (sum x).length = hashSize)
    (h : b.relationRoot = b.relation.hash sum) : (b.fillHeader sum).receiptRoot = b.receiptRoot := by
  have hlen : b.relationRoot.length = hashSize := by
    rw [h]
    exact length_hashFromByteSlices hsum _
  simp [Block.fillHeader, hlen]

theorem Block.receiptRoot_fillHeader_nil (h : b.relationRoot = []) :
    (b.fillHeader sum).receiptRoot = b.relation.hash sum := by
  simp [Block.fillHeader, h, hashSize]

/-- The header is stable exactly if the creator has supplied the root of the relation. -/
theorem Block.Draft.stable_iff (hsum : ∀ x, (sum x).length = hashSize) (hb : b.Draft) :
    b.Stable sum ↔ b.relationRoot = b.relation.hash sum := by
  constructor
  · exact fun h => h.relationRoot
  · exact fun h => ⟨rfl, Block.receiptRoot_fillHeader hsum h, hb.bodyRoot_fillHeader,
      hb.crossShardBodyRoot_fillHeader, h⟩

/-! ## What the hash determines -/

def Block.HeightFits (b : Block) : Prop := -256 ^ 8 ≤ 2 * b.height ∧ 2 * b.height < 256 ^ 8

/-- All strings that are hashed for the hash of a draft are in `S`. -/
structure Block.HashedIn (sum : Bytes → Bytes) (S : Set Bytes) (b : Block) : Prop where
  header : ∀ x ∈ hashed sum (b.fillHeader sum).items, x ∈ S
  body : ∀ x ∈ b.bodyTxs ++ hashed sum (b.bodyTxs.map sum), x ∈ S
  crossShardBody : ∀ x ∈ hashed sum (b.crossShardItems sum), x ∈ S
  crossShardTxs : ∀ x ∈ b.crossShardTxs ++ hashed sum (b.crossShardTxs.map sum), x ∈ S
  crossShardDatas : ∀ x ∈ hashed sum b.crossShardDatas, x ∈ S
  relation : ∀ x ∈ hashed sum (b.relation.items sum), x ∈ S
  relatedCommitStatus : ∀ x ∈ hashed sum b.relation.relatedCommitStatus, x ∈ S
  relatedHash : ∀ x ∈ hashed sum b.relation.relatedHash, x ∈ S

/-- What the hash of a draft determines. -/
structure Block.SameHashed (sum : Bytes → Bytes) (b b' : Block) : Prop where
  blockType : b.blockType = b'.blockType
  hashPointer : b.hashPointer = b'.hashPointer
  chainID : b.chainID = b'.chainID
  height : b.height = b'.height
  time : b.time = b'.time
  bodyTxs : b.bodyTxs = b'.bodyTxs
  crossShardTxs : b.crossShardTxs = b'.crossShardTxs
  crossShardDatas : b.crossShardDatas = b'.crossShardDatas
  stateRoot : b.stateRoot = b'.stateRoot
  receiptRoot : (b.fillHeader sum).receiptRoot = (b'.fillHeader sum).receiptRoot
  relationRoot : b.relationRoot = b'.relationRoot

end

section

variable {sum : Bytes → Bytes} {S : Set Bytes} (hsum : ∀ x, (sum x).length = hashSize)
  (hS : S.InjOn sum)

include hsum hS

theorem txsHash_inj {txs txs' : List Bytes} (hin : ∀ x ∈ txs ++ hashed sum (txs.map sum), x ∈ S)
    (hin' : ∀ x ∈ txs' ++ hashed sum (txs'.map sum), x ∈ S)
    (h : txsHash sum txs = txsHash sum txs') : txs = txs' := by
  obtain ⟨htxs, htree⟩ := List.forall_mem_append.mp hin
  obtain ⟨htxs', htree'⟩ := List.forall_mem_append.mp hin'
  exact hashFromByteSlices_map_inj hsum hS htree htree'
    (fun x hx y hy => hS (htxs x hx) (htxs' y hy)) h

namespace Block

variable {b b' : Block} (hin : b.HashedIn sum S) (hin' : b'.HashedIn sum S)

include hin hin'

theorem crossShardBody_inj (h : b.crossShardBodyHash sum = b'.crossShardBodyHash sum) :
    b.crossShardTxs = b'.crossShardTxs ∧ b.crossShardDatas = b'.crossShardDatas := by
  have hitems := hashFromByteSlices_inj hsum hS hin.crossShardBody hin'.crossShardBody h
  simp only [crossShardItems, List.cons.injEq, and_true] at hitems
  exact ⟨txsHash_inj hsum hS hin.crossShardTxs hin'.crossShardTxs hitems.1,
    hashFromByteSlices_inj hsum hS hin.crossShardDatas hin'.crossShardDatas hitems.2⟩

theorem relation_inj (h : b.relation.hash sum = b'.relation.hash sum) :
    b.relation = b'.relation := by
  have hitems := hashFromByteSlices_inj hsum hS hin.relation hin'.relation h
  simp only [Relation.items, List.cons.injEq, and_true] at hitems
  obtain ⟨hstatus, hhash, hmine⟩ := hitems
  have hstatus :=
    hashFromByteSlices_inj hsum hS hin.relatedCommitStatus hin'.relatedCommitStatus hstatus
  have hhash := hashFromByteSlices_inj hsum hS hin.relatedHash hin'.relatedHash hhash
  cases hr : b.relation
  cases hr' : b'.relation
  simp_all

/-- The header of the hash, leaf by leaf. -/
theorem sameHashed_of_hash_eq (hb : b.Draft) (hb' : b'.Draft) (hfits : b.HeightFits)
    (hfits' : b'.HeightFits) (h : b.freshHash sum = b'.freshHash sum) : b.SameHashed sum b' := by
  have hitems := hashFromByteSlices_inj hsum hS hin.header hin'.header h
  simp only [Header.items, List.cons.injEq, and_true] at hitems
  obtain ⟨htype, hpointer, hchain, hheight, htime, hbody, hcross, hstate, hreceipt, hrelation⟩ :=
    hitems
  rw [hb.bodyRoot_fillHeader, hb'.bodyRoot_fillHeader] at hbody
  rw [hb.crossShardBodyRoot_fillHeader, hb'.crossShardBodyRoot_fillHeader] at hcross
  obtain ⟨htxs, hdatas⟩ := crossShardBody_inj hsum hS hin hin' hcross
  exact
    { blockType := BlockType.code_inj htype
      hashPointer := hpointer
      chainID := hchain
      height := intToBytes_inj hfits hfits' hheight
      time := htime
      bodyTxs := txsHash_inj hsum hS hin.body hin'.body hbody
      crossShardTxs := htxs
      crossShardDatas := hdatas
      stateRoot := hstate
      receiptRoot := hreceipt
      relationRoot := hrelation }

omit hsum hS hin hin' in
theorem eq_of_sameHashed (hb : b.Draft) (hb' : b'.Draft) (hsame : b.SameHashed sum b')
    (hreceipt : b.receiptRoot = b'.receiptRoot) (hrelation : b.relation = b'.relation) : b = b' := by
  have hbody := hb.bodyRoot.trans hb'.bodyRoot.symm
  have hcross := hb.crossShardBodyRoot.trans hb'.crossShardBodyRoot.symm
  obtain ⟨htype, hpointer, hchain, hheight, htime, htxs, hctxs, hdatas, hstate, -, hroot⟩ := hsame
  cases b with
  | mk header bodyTxs crossShardTxs crossShardDatas relation =>
    cases b' with
    | mk header' bodyTxs' crossShardTxs' crossShardDatas' relation' =>
      cases header
      cases header'
      simp_all

/-- If the creators have put the roots of the relations into the headers, equal hashes mean equal
blocks. -/
theorem eq_of_hash_eq (hb : b.Draft) (hb' : b'.Draft) (hfits : b.HeightFits)
    (hfits' : b'.HeightFits) (hroot : b.relationRoot = b.relation.hash sum)
    (hroot' : b'.relationRoot = b'.relation.hash sum) (h : b.freshHash sum = b'.freshHash sum) :
    b = b' := by
  have hsame := sameHashed_of_hash_eq hsum hS hin hin' hb hb' hfits hfits' h
  have hreceipt := hsame.receiptRoot
  rw [receiptRoot_fillHeader hsum hroot, receiptRoot_fillHeader hsum hroot'] at hreceipt
  have hrelation := hsame.relationRoot
  rw [hroot, hroot'] at hrelation
  exact eq_of_sameHashed hb hb' hsame hreceipt (relation_inj hsum hS hin hin' hrelation)

/-- If they have left them out, the blocks can still differ in their receipt roots. -/
theorem eq_iff_of_hash_eq (hb : b.Draft) (hb' : b'.Draft) (hfits : b.HeightFits)
    (hfits' : b'.HeightFits) (hroot : b.relationRoot = []) (hroot' : b'.relationRoot = [])
    (h : b.freshHash sum = b'.freshHash sum) : b = b' ↔ b.receiptRoot = b'.receiptRoot := by
  have hsame := sameHashed_of_hash_eq hsum hS hin hin' hb hb' hfits hfits' h
  have hrelation := hsame.receiptRoot
  rw [receiptRoot_fillHeader_nil hroot, receiptRoot_fillHeader_nil hroot'] at hrelation
  refine ⟨fun heq => by rw [heq], fun hreceipt => ?_⟩
  exact eq_of_sameHashed hb hb' hsame hreceipt (relation_inj hsum hS hin hin' hrelation)

end Block

end

/-! ## New blocks -/

/-- The block that `createBlockAndBroadcast` makes of the contents from `createBBlockTxs` or
`createIBlockTxs`: a new header, with the state root and the receipt root of the block before. -/
def createBlock (body : Block) (lastBlockHash : Bytes) (chainID : Str) (height : ℤ)
    (time lastStateRoot lastReceiptRoot : Bytes) : Block where
  blockType := body.blockType
  hashPointer := lastBlockHash
  chainID := chainID
  height := height
  time := time
  bodyRoot := []
  crossShardBodyRoot := []
  stateRoot := lastStateRoot
  receiptRoot := lastReceiptRoot
  relationRoot := []
  bodyTxs := body.bodyTxs
  crossShardTxs := body.crossShardTxs
  crossShardDatas := body.crossShardDatas
  relation := body.relation

theorem draft_createBlock (body : Block) (lastBlockHash : Bytes) (chainID : Str) (height : ℤ)
    (time lastStateRoot lastReceiptRoot : Bytes) :
    (createBlock body lastBlockHash chainID height time lastStateRoot lastReceiptRoot).Draft :=
  ⟨rfl, rfl⟩

/-- **When the hash is stable and complete.** Take blocks whose header has the roots of neither
body, like the ones that `createBlockAndBroadcast` makes. `Hash` leaves the roots of the creator and
sets those of the contents exactly if `RelationRoot` was already the root of the relation. The hash
is the same for the receiver, however often it was computed before the block was sent. Two blocks
with the same hash are equal if both have the root of their relation; if both have none, they are
equal exactly if their receipt roots are. -/
theorem hash_stable_complete (lib : HashLib) (hsum : ∀ x, (lib.sum x).length = hashSize)
    (hblock : lib.block.RoundTrips id) (S : Set Bytes) (hS : S.InjOn lib.sum) :
    (∀ b : Block, b.Draft → (b.Stable lib.sum ↔ b.relationRoot = b.relation.hash lib.sum)) ∧
    (∀ (b : Block) (n : ℕ), ∃ c,
      newBlockFromBytes lib (((newCachedBlock b).hashTimes lib.sum n).protoBytes lib) = .ok c ∧
        (c.hash lib.sum).1 = ((newCachedBlock b).hash lib.sum).1) ∧
    ∀ b b' : Block, b.Draft → b'.Draft → b.HeightFits → b'.HeightFits →
      b.HashedIn lib.sum S → b'.HashedIn lib.sum S →
      ((newCachedBlock b).hash lib.sum).1 = ((newCachedBlock b').hash lib.sum).1 →
      (b.relationRoot = b.relation.hash lib.sum → b'.relationRoot = b'.relation.hash lib.sum →
        b = b') ∧
      (b.relationRoot = [] → b'.relationRoot = [] → (b = b' ↔ b.receiptRoot = b'.receiptRoot)) := by
  refine ⟨fun b hb => hb.stable_iff hsum, hash_of_protoBytes hsum hblock, ?_⟩
  intro b b' hb hb' hfits hfits' hin hin' h
  have hfresh : b.freshHash lib.sum = b'.freshHash lib.sum := h
  exact ⟨fun hroot hroot' =>
      Block.eq_of_hash_eq hsum hS hin hin' hb hb' hfits hfits' hroot hroot' hfresh,
    fun hroot hroot' =>
      Block.eq_iff_of_hash_eq hsum hS hin hin' hb hb' hfits hfits' hroot hroot' hfresh⟩

section

open Coder

def relationCoder : Coder Relation :=
  (bytes.list.pair (bytes.list.pair bytes)).map
    (fun r => (r.relatedCommitStatus, r.relatedHash, r.myCommitStatus))
    (fun x => ⟨x.1, x.2.1, x.2.2⟩) fun _ => rfl

def pbHeaderCoder : Coder PbHeader :=
  (int.pair (bytes.pair (bytes.pair (int.pair (bytes.pair (bytes.pair (bytes.pair (bytes.pair
    (bytes.pair bytes))))))))).map
    (fun h => (h.blockType, h.hashPointer, h.chainID, h.height, h.time, h.bodyRoot,
      h.crossShardBodyRoot, h.stateRoot, h.receiptRoot, h.relationRoot))
    (fun ⟨blockType, hashPointer, chainID, height, time, bodyRoot, crossShardBodyRoot, stateRoot,
        receiptRoot, relationRoot⟩ =>
      { blockType, hashPointer, chainID, height, time, bodyRoot, crossShardBodyRoot, stateRoot
        receiptRoot, relationRoot }) fun _ => rfl

def crossShardBodyCoder : Coder PbCrossShardBody :=
  (bytes.list.pair bytes.list).map (fun b => (b.txs, b.crossShardDatas)) (fun x => ⟨x.1, x.2⟩)
    fun _ => rfl

def pbBlockCoder : Coder PbBlock :=
  (pbHeaderCoder.option.pair (bytes.list.option.pair (crossShardBodyCoder.option.pair
    relationCoder.option))).map (fun p => (p.header, p.body, p.crossShardBody, p.relation))
    (fun x => ⟨x.1, x.2.1, x.2.2.1, x.2.2.2⟩) fun _ => rfl

end

/-- A hash function and a codec that can be computed. -/
def polyHashLib : HashLib := ⟨Urd.polySum, pbBlockCoder.codec⟩

/-- A new block with two transactions. -/
def createdWith (lastReceiptRoot : Bytes) : Block :=
  createBlock { emptyBlock .innerShard [] 0 with bodyTxs := [[1], [2]] } [9] [65] 4 [8, 1] [5]
    lastReceiptRoot

/-- The same with the root of its relation. -/
def rootedWith (lastReceiptRoot : Bytes) : Block :=
  { createdWith lastReceiptRoot with
    relationRoot := (createdWith lastReceiptRoot).relation.hash Urd.polySum }

/-- What is hashed for a draft. -/
def Block.strings (sum : Bytes → Bytes) (b : Block) : List Bytes :=
  hashed sum (b.fillHeader sum).items ++ (b.bodyTxs ++ hashed sum (b.bodyTxs.map sum)) ++
    hashed sum (b.crossShardItems sum) ++
    (b.crossShardTxs ++ hashed sum (b.crossShardTxs.map sum)) ++ hashed sum b.crossShardDatas ++
    hashed sum (b.relation.items sum) ++ hashed sum b.relation.relatedCommitStatus ++
    hashed sum b.relation.relatedHash

theorem Block.hashedIn_of_strings {sum : Bytes → Bytes} {S : Set Bytes} {b : Block}
    (h : ∀ x ∈ b.strings sum, x ∈ S) : b.HashedIn sum S := by
  simp only [Block.strings, List.forall_mem_append] at h
  obtain ⟨⟨⟨⟨⟨⟨⟨h₁, h₂⟩, h₃⟩, h₄⟩, h₅⟩, h₆⟩, h₇⟩, h₈⟩ := h
  exact ⟨h₁, List.forall_mem_append.mpr h₂, h₃, List.forall_mem_append.mpr h₄, h₅, h₆, h₇, h₈⟩

/-- The strings of two rooted blocks. -/
def rootedStrings : List Bytes :=
  ((rootedWith [7]).strings Urd.polySum ++ (rootedWith [6]).strings Urd.polySum).dedup

/-- With the roots of their relations, the headers are stable, and blocks that differ only in the
receipt root have different hashes. -/
theorem hash_stable_complete_rootedWith :
    (rootedWith [7]).Stable Urd.polySum ∧
    (∃ c, newBlockFromBytes polyHashLib
        (((newCachedBlock (rootedWith [7])).hashTimes Urd.polySum 1).protoBytes polyHashLib) = .ok c ∧
      (c.hash Urd.polySum).1 = ((newCachedBlock (rootedWith [7])).hash Urd.polySum).1) ∧
    ((newCachedBlock (rootedWith [7])).hash Urd.polySum).1 ≠
      ((newCachedBlock (rootedWith [6])).hash Urd.polySum).1 := by
  have hinj : Set.InjOn polyHashLib.sum {x | x ∈ rootedStrings} :=
    List.inj_on_of_nodup_map (by decide +kernel)
  have hin : ∀ x ∈ (rootedWith [7]).strings Urd.polySum, x ∈ {x | x ∈ rootedStrings} :=
    fun x hx => List.mem_dedup.mpr (List.mem_append_left _ hx)
  have hin' : ∀ x ∈ (rootedWith [6]).strings Urd.polySum, x ∈ {x | x ∈ rootedStrings} :=
    fun x hx => List.mem_dedup.mpr (List.mem_append_right _ hx)
  obtain ⟨hstable, hwire, hcomplete⟩ := hash_stable_complete polyHashLib Urd.length_polySum
    pbBlockCoder.roundTrips_codec _ hinj
  have hfits : ∀ root, (rootedWith root).HeightFits := by
    intro root
    show -256 ^ 8 ≤ 2 * (4 : ℤ) ∧ 2 * (4 : ℤ) < 256 ^ 8
    decide
  refine ⟨(hstable _ ⟨rfl, rfl⟩).mpr rfl, hwire _ 1, fun h => ?_⟩
  have heq := (hcomplete _ _ ⟨rfl, rfl⟩ ⟨rfl, rfl⟩ (hfits _) (hfits _)
    (Block.hashedIn_of_strings hin) (Block.hashedIn_of_strings hin') h).1 rfl rfl
  revert heq
  decide +kernel

/-- As they are created, the two blocks have the same hash, whatever the hash function; the receipt
root of the creator is overwritten and the relation root is not set. -/
theorem not_hash_stable_complete_createdWith :
    (createdWith [7]).Draft ∧ (createdWith [6]).Draft ∧ createdWith [7] ≠ createdWith [6] ∧
    (∀ sum, ((newCachedBlock (createdWith [7])).hash sum).1 =
      ((newCachedBlock (createdWith [6])).hash sum).1) ∧
    ((newCachedBlock (createdWith [7])).hash Urd.polySum).2.block.receiptRoot =
      (createdWith [7]).relation.hash Urd.polySum ∧
    ((newCachedBlock (createdWith [7])).hash Urd.polySum).2.block.relationRoot = [] ∧
    ¬(createdWith [7]).Stable Urd.polySum := by
  refine ⟨draft_createBlock .., draft_createBlock .., by decide, fun _ => rfl,
    Block.receiptRoot_fillHeader_nil rfl, rfl, fun h => ?_⟩
  have hroot := h.receiptRoot
  revert hroot
  decide +kernel

end Emulator.Pyramid
