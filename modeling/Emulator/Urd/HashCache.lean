import Emulator.Urd.BlockHash
import Emulator.Urd.Decode
import Emulator.Urd.Methods

/-!
# Hashes that are computed once

A block in memory fills in the roots of its header when it is hashed or sent, and it keeps its hash
and the proofs of its roots once they are computed. What a call returns could therefore depend on
the calls before it. `Coherent` says that it does not: the roots are filled in as those of `b`, or
will be, and what is cached belongs to `b`. All calls keep it, on the leader's block and on the
block that a validator gets from its bytes.

* `Coherent.call` — a call returns what `b` determines.
* `makeBlock_agrees` — leader and validators have the same hash and the same proofs.
-/

namespace Emulator.Urd

open Merkle

/-- `Block`, with the fields `hash` and `mkproof` of its header. -/
structure CachedBlock where
  block : Block
  hash : Bytes
  mkproof : List Merkle.Proof

/-- A block that has just been built. -/
def newCachedBlock (b : Block) : CachedBlock := ⟨b, [], []⟩

/-- The methods of a block that change it. -/
inductive BlockCall
  | hash
  | proofOfIndex (i : ℤ)
  | protoBytes
  deriving DecidableEq, Repr

/-- What such a method returns. -/
inductive BlockAnswer
  | bytes (bz : Bytes)
  | proof (p : Option Merkle.Proof)
  deriving DecidableEq, Repr

namespace CachedBlock

variable (lib : Lib)

def calBlockHashAndProof (c : CachedBlock) : CachedBlock :=
  let block := c.block.fillInHeader lib
  let hp := proofsFromByteSlices lib.sum (block.leaves lib)
  { block, hash := hp.1, mkproof := hp.2 }

/-- `Hash`, `ProofOfIndex` and `ProtoBytes`. -/
def call (c : CachedBlock) : BlockCall → BlockAnswer × CachedBlock
  | .hash =>
    let c := if c.hash.isEmpty then c.calBlockHashAndProof lib else c
    (.bytes c.hash, c)
  | .proofOfIndex i =>
    let c := if c.mkproof.isEmpty then c.calBlockHashAndProof lib else c
    (.proof (if 0 ≤ i ∧ i < c.mkproof.length then c.mkproof[i.toNat]? else none), c)
  | .protoBytes =>
    let c := { c with block := c.block.fillInHeader lib }
    (.bytes (lib.block.marshal (c.block.toProto lib)), c)

def calls (c : CachedBlock) (l : List BlockCall) : CachedBlock :=
  l.foldl (fun c m => (c.call lib m).2) c

end CachedBlock

variable {lib : Lib}

/-- What a call should return for a block: its hash, its proof for a root, its bytes. -/
def answerOf (lib : Lib) (b : Block) : BlockCall → BlockAnswer
  | .hash => .bytes (b.hash lib)
  | .proofOfIndex i => .proof (if 0 ≤ i then b.proofOfIndex lib i.toNat else none)
  | .protoBytes => .bytes (lib.block.marshal (b.toProto lib))

/-- The block in memory stands for `b`, and what it has cached is right. -/
structure Coherent (lib : Lib) (b : Block) (c : CachedBlock) : Prop where
  block : c.block.fillInHeader lib = b.fillInHeader lib
  hash : c.hash = [] ∨ c.hash = b.hash lib
  mkproof : c.mkproof = [] ∨ c.mkproof = (b.calBlockHashAndProof lib).2

theorem coherent_newCachedBlock {b draft : Block}
    (h : draft.fillInHeader lib = b.fillInHeader lib) : Coherent lib b (newCachedBlock draft) :=
  ⟨h, .inl rfl, .inl rfl⟩

namespace Coherent

variable {b : Block} {c : CachedBlock}

theorem calBlockHashAndProof (h : Coherent lib b c) :
    c.calBlockHashAndProof lib =
      ⟨b.fillInHeader lib, b.hash lib, (b.calBlockHashAndProof lib).2⟩ := by
  unfold CachedBlock.calBlockHashAndProof
  rw [h.block]
  rfl

theorem toProto (h : Coherent lib b c) : c.block.toProto lib = b.toProto lib := by
  unfold Block.toProto
  rw [h.block]

theorem fillInHeader (h : Coherent lib b c) :
    Coherent lib b { c with block := c.block.fillInHeader lib } :=
  ⟨(Block.fillInHeader_fillInHeader lib c.block).trans h.block, h.hash, h.mkproof⟩

/-- After `calBlockHashAndProof` both caches are right, whether they were before or not. -/
theorem filled (b : Block) :
    Coherent lib b ⟨b.fillInHeader lib, b.hash lib, (b.calBlockHashAndProof lib).2⟩ :=
  ⟨Block.fillInHeader_fillInHeader lib b, .inr rfl, .inr rfl⟩

theorem call (h : Coherent lib b c) (m : BlockCall) :
    (c.call lib m).1 = answerOf lib b m ∧ Coherent lib b (c.call lib m).2 := by
  cases m with
  | hash =>
    simp only [CachedBlock.call, answerOf, List.isEmpty_iff]
    by_cases hempty : c.hash = []
    · rw [if_pos hempty, h.calBlockHashAndProof]
      exact ⟨rfl, filled b⟩
    · rw [if_neg hempty, h.hash.resolve_left hempty]
      exact ⟨rfl, h⟩
  | proofOfIndex i =>
    have hproof : ∀ proofs, proofs = (b.calBlockHashAndProof lib).2 →
        (if 0 ≤ i ∧ i < proofs.length then proofs[i.toNat]? else none) =
          if 0 ≤ i then b.proofOfIndex lib i.toNat else none := by
      rintro proofs rfl
      rw [ite_and]
      refine if_congr Iff.rfl ?_ rfl
      split_ifs with hlt
      · rfl
      · exact (List.getElem?_eq_none (by omega)).symm
    simp only [CachedBlock.call, answerOf, List.isEmpty_iff]
    by_cases hempty : c.mkproof = []
    · rw [if_pos hempty, h.calBlockHashAndProof]
      exact ⟨congrArg _ (hproof _ rfl), filled b⟩
    · rw [if_neg hempty]
      exact ⟨congrArg _ (hproof _ (h.mkproof.resolve_left hempty)), h⟩
  | protoBytes => exact ⟨congrArg _ (congrArg _ h.fillInHeader.toProto), h.fillInHeader⟩

theorem calls (h : Coherent lib b c) (l : List BlockCall) : Coherent lib b (c.calls lib l) := by
  induction l generalizing c with
  | nil => exact h
  | cons m l ih => exact ih (h.call m).2

end Coherent

/-! ## The blocks of a leader -/

theorem calBlockHashAndProof_onWire (lib : Lib) (b : Block) :
    (b.onWire lib).calBlockHashAndProof lib = b.calBlockHashAndProof lib := by
  rw [Block.calBlockHashAndProof, Block.leaves_onWire, Block.calBlockHashAndProof]

theorem answerOf_onWire (lib : Lib) (b : Block) {m : BlockCall} (hm : m ≠ .protoBytes) :
    answerOf lib (b.onWire lib) m = answerOf lib b m := by
  cases m with
  | hash => simp only [answerOf, Block.hash_onWire]
  | proofOfIndex i => simp only [answerOf, Block.proofOfIndex, calBlockHashAndProof_onWire]
  | protoBytes => exact absurd rfl hm

section

variable {α : Type} {P : Network α} {me : Str} {s : State α} {inp : Input} {opTxs : List Txs}
  {b : Block}

/-- The votes in the messages that `make_block` reads name their signers by well-formed bit
vectors. -/
def VotesWellFormed (s : State α) : Prop :=
  ∀ shard m, s.blockData.j1finished shard = some m → m.aggVote.signerIndexer.WellFormed

/-- Only the messages of the listed shards, and of the own one, get into a block. -/
theorem wellFormed_of_makeBlock
    (hvotes : ∀ j, j = me ∨ j ∈ P.shardIDList → ∀ m, s.blockData.j1finished j = some m →
      m.aggVote.signerIndexer.WellFormed)
    (h : makeBlock P me s inp opTxs = some b) : b.WellFormed := by
  have hasm := assembled_of_makeBlock h
  refine ⟨fun v hv => ?_, fun ci hci v hv => ?_⟩
  · by_cases hpool : 1 ≤ s.blockPool.length
    · obtain ⟨m, hm, hvote⟩ := hasm.vote hpool
      obtain rfl := Option.some.inj (hvote.symm.trans hv)
      exact hvotes me (.inl rfl) m hm
    · rw [hasm.noVote (by omega)] at hv
      cases hv
  · by_cases hpool : 2 ≤ s.blockPool.length
    · obtain ⟨csms, hcsms, hci', -⟩ := hasm.intention hpool
      obtain rfl := Option.some.inj (hci'.symm.trans hci)
      obtain ⟨m, hm, rfl⟩ := List.mem_map.mp hv
      obtain ⟨shard, hmem, hshard⟩ := exists_of_mem_mapM hcsms hm
      exact hvotes shard (.inr hmem) m hshard
    · rw [hasm.noIntention (by omega)] at hci
      cases hci

theorem newBlockFromBytes_toProto (hblock : lib.block.RoundTrips id) {b : Block}
    (hwf : b.WellFormed) :
    newBlockFromBytes lib (lib.block.marshal (b.toProto lib)) = .ok (b.onWire lib) := by
  unfold newBlockFromBytes unmarshalled
  rw [hblock, Option.elim_some, id, newBlockFromProto_toProto hwf]
  rfl

/-- **Leader and validators have the same hash.** For a block of `make_block`, with its roots filled
in or not yet, let any methods be called on it before it is sent. Then its bytes are those of the
block, they decode, and whatever is called on the two blocks, both return the same hash and the same
proof for every index. -/
theorem makeBlock_agrees (hblock : P.lib.block.RoundTrips id) (hvotes : VotesWellFormed s)
    (hmake : makeBlock P me s inp opTxs = some b) {draft : Block}
    (hdraft : draft.fillInHeader P.lib = b) (before : List BlockCall) :
    ∃ bz received,
      (((newCachedBlock draft).calls P.lib before).call P.lib .protoBytes).1 = .bytes bz ∧
      newBlockFromBytes P.lib bz = .ok received ∧
      ∀ sent got m, m ≠ .protoBytes →
        (((newCachedBlock draft).calls P.lib sent).call P.lib m).1 = answerOf P.lib b m ∧
        (((newCachedBlock received).calls P.lib got).call P.lib m).1 = answerOf P.lib b m := by
  have hfill : draft.fillInHeader P.lib = b.fillInHeader P.lib := by
    rw [← hdraft, Block.fillInHeader_fillInHeader]
  have hsent := coherent_newCachedBlock hfill
  refine ⟨_, b.onWire P.lib, ((hsent.calls before).call .protoBytes).1,
    newBlockFromBytes_toProto hblock (wellFormed_of_makeBlock (fun j _ => hvotes j) hmake),
    fun sent got m hm => ⟨((hsent.calls sent).call m).1, ?_⟩⟩
  have hgot : Coherent P.lib (b.onWire P.lib) (newCachedBlock (b.onWire P.lib)) :=
    coherent_newCachedBlock rfl
  rw [((hgot.calls got).call m).1]
  exact answerOf_onWire P.lib b hm

/-- A leader with enough blocks in its pool for every part of a new one, and with a message from
each shard. -/
def furnishedState : State ℕ :=
  { newState 0 with
    view := 6
    blockPool := List.replicate 4 (exampleBlock none)
    blockData := { newBlockData 6 0 with
      j1finished := fun shard => some
        { sourceChain := shard, aggVote := exampleVote [6], intentionBrief := [[1]]
          proofOfIntention := some ⟨exampleProof, [2]⟩, oPTXs := [[1], [6]]
          outputTxsProof := some ⟨exampleProof, exampleProof⟩ } } }

/-- The block of that leader, with empty lists of transactions. -/
def furnishedBlock : Option Block :=
  makeBlock pairNetwork [65] furnishedState ⟨⟨1700000000, 5⟩, [], [], []⟩ [[[7]], []]

/-- The block with no root filled in. -/
def Block.unrooted (b : Block) : Block :=
  { b with
    prepareRoot := [], crossShardRoot := [], outputTxsRoot := [], lastAggSigRoot := []
    commitIntentionRoot := [], commitCertificateRoot := [], commitTxsListRoot := [] }

/-- Sent before it is hashed or after a proof was asked for, the block has the same hash. -/
theorem makeBlock_agrees_furnishedBlock :
    ∃ b, furnishedBlock = some b ∧ VotesWellFormed furnishedState ∧
      b.unrooted.fillInHeader polyLib = b ∧ b.ptxs = some [] ∧
      ∃ bz received,
        ((newCachedBlock b.unrooted).call polyLib .protoBytes).1 = .bytes bz ∧
        newBlockFromBytes polyLib bz = .ok received ∧
        (((newCachedBlock b.unrooted).calls polyLib [.proofOfIndex 3]).call polyLib .hash).1 =
          ((newCachedBlock received).call polyLib .hash).1 := by
  have hvotes : VotesWellFormed furnishedState := by
    intro shard m hm
    obtain rfl := Option.some.inj hm
    exact (readable_exampleVote [6]).wellFormed
  obtain ⟨b, hb⟩ : ∃ b, furnishedBlock = some b := Option.isSome_iff_exists.mp (by decide +kernel)
  have hfill : furnishedBlock.all fun b => decide (b.unrooted.fillInHeader polyLib = b) &&
      decide (b.ptxs = some []) := by decide +kernel
  rw [hb, Option.all_some, Bool.and_eq_true, decide_eq_true_eq, decide_eq_true_eq] at hfill
  obtain ⟨bz, received, hbz, hreceived, hagree⟩ :=
    makeBlock_agrees (P := pairNetwork) blockCoder.roundTrips_codec hvotes hb hfill.1 []
  refine ⟨b, hb, hvotes, hfill.1, hfill.2, bz, received, hbz, hreceived, ?_⟩
  have hhash := hagree [.proofOfIndex 3] [] .hash nofun
  exact hhash.1.trans hhash.2.symm

end

end Emulator.Urd
