import Emulator.Lib.Coder
import Emulator.Urd.Consensus

/-!
# Concrete codecs and a concrete hash

Stand-ins for the protobuf runtime and for SHA-256, with which blocks, messages and whole runs can
be computed: every message of the Urd shards has a coder, and `polySum` gives 32 bytes.
-/

namespace Emulator.Urd

open HotStuff Coder

def timestampCoder : Coder Timestamp :=
  (int.pair int).map (fun t => (t.seconds, t.nanos)) (fun x => ⟨x.1, x.2⟩) fun _ => rfl

def voteCoder : Coder PbVote :=
  (int.pair (int.pair (int.pair (bytes.pair (bytes.list.pair (bytes.pair int)))))).map
    (fun v => (v.code, v.view, v.round, v.forHash, v.forNecessaryData, v.sign, v.validatorIndex))
    (fun ⟨code, view, round, forHash, forNecessaryData, sign, validatorIndex⟩ =>
      { code, view, round, forHash, forNecessaryData, sign, validatorIndex }) fun _ => rfl

def aggVoteCoder : Coder PbAggregatedVote :=
  (int.pair (int.pair (int.pair (bytes.pair (bytes.list.pair (bytes.pair bytes)))))).map
    (fun v => (v.code, v.view, v.round, v.forHash, v.forNecessaryData, v.sign, v.signerIndex))
    (fun ⟨code, view, round, forHash, forNecessaryData, sign, signerIndex⟩ =>
      { code, view, round, forHash, forNecessaryData, sign, signerIndex }) fun _ => rfl

def proofCoder : Coder Merkle.Proof :=
  (int.pair (int.pair (bytes.pair bytes.list))).map
    (fun p => (p.total, p.index, p.leafHash, p.aunts))
    (fun ⟨total, index, leafHash, aunts⟩ => { total, index, leafHash, aunts }) fun _ => rfl

def partSetHeaderCoder : Coder PartSetHeader :=
  (int.pair (int.pair (int.pair (bytes.pair bytes)))).map
    (fun h => (h.height, h.round, h.total, h.root, h.chainID))
    (fun ⟨height, round, total, root, chainID⟩ => { height, round, total, root, chainID })
    fun _ => rfl

def proposalCoder : Coder Proposal :=
  (partSetHeaderCoder.pair (int.pair (bytes.pair bytes))).map
    (fun p => (p.header, p.proposerIndex, p.blockHeaderHash, p.signature))
    (fun ⟨header, proposerIndex, blockHeaderHash, signature⟩ =>
      { header, proposerIndex, blockHeaderHash, signature }) fun _ => rfl

def headerCoder : Coder PbHeader :=
  (bytes.pair (bytes.pair (int.pair (int.pair (timestampCoder.pair (bytes.pair (bytes.pair
    (bytes.pair (bytes.pair (bytes.pair (bytes.pair bytes))))))))))).map
    (fun h => (h.hashPointer, h.chainID, h.view, h.round, h.time, h.prepareRoot, h.outputTxsRoot,
      h.lastAggSigRoot, h.commitIntentionRoot, h.commitCertificateRoot, h.commitTxsRoot,
      h.stateRoot))
    (fun ⟨hashPointer, chainID, view, round, time, prepareRoot, outputTxsRoot, lastAggSigRoot,
        commitIntentionRoot, commitCertificateRoot, commitTxsRoot, stateRoot⟩ =>
      { hashPointer, chainID, view, round, time, prepareRoot, outputTxsRoot, lastAggSigRoot
        commitIntentionRoot, commitCertificateRoot, commitTxsRoot, stateRoot }) fun _ => rfl

def commitIntentionCoder : Coder PbCommitIntention :=
  (bytes.list.pair aggVoteCoder.list).map (fun ci => (ci.intentionHash, ci.aggregatedSignatures))
    (fun x => ⟨x.1, x.2⟩) fun _ => rfl

def proofOfIntentionCoder : Coder PbProofOfIntention :=
  (proofCoder.option.pair bytes).map (fun p => (p.intentionHashProof, p.rightHash))
    (fun x => ⟨x.1, x.2⟩) fun _ => rfl

def certificateCoreCoder : Coder PbCommitCertificateCore :=
  (bytes.pair (proofOfIntentionCoder.option.pair bytes.list)).map
    (fun core => (core.hash, core.mKProof, core.intentionBrief))
    (fun x => ⟨x.1, x.2.1, x.2.2⟩) fun _ => rfl

def outputTxsProofCoder : Coder PbOutputTxsProof :=
  (proofCoder.option.pair proofCoder.option).map (fun p => (p.blockProof, p.oPTProof))
    (fun x => ⟨x.1, x.2⟩) fun _ => rfl

def blockCoder : Coder PbBlock :=
  (headerCoder.option.pair (bytes.list.option.pair (bytes.list.option.pair (bytes.list.pair
    (aggVoteCoder.option.pair (commitIntentionCoder.option.pair (certificateCoreCoder.list.option.pair
      (bytes.list.list.pair outputTxsProofCoder.list)))))))).map
    (fun b => (b.header, b.prepareTxs, b.crossShardTxs, b.opt, b.aggSigVote, b.ci, b.cc, b.ctxs,
      b.ctxsProof))
    (fun ⟨header, prepareTxs, crossShardTxs, opt, aggSigVote, ci, cc, ctxs, ctxsProof⟩ =>
      { header, prepareTxs, crossShardTxs, opt, aggSigVote, ci, cc, ctxs, ctxsProof }) fun _ => rfl

def csmCoder : Coder PbCrossShardMessage :=
  (bytes.pair (aggVoteCoder.option.pair (bytes.list.pair (proofOfIntentionCoder.option.pair
    (bytes.list.option.pair outputTxsProofCoder.option))))).map
    (fun m => (m.sourceChain, m.aggVote, m.intentionBrief, m.proofOfIntention, m.oPTTxs,
      m.outputTxsProof))
    (fun ⟨sourceChain, aggVote, intentionBrief, proofOfIntention, oPTTxs, outputTxsProof⟩ =>
      { sourceChain, aggVote, intentionBrief, proofOfIntention, oPTTxs, outputTxsProof })
    fun _ => rfl

/-- A polynomial in the bytes of the string, in 32 bytes. -/
def polySum (bz : Bytes) : Bytes :=
  intToBytes 32 (bz.foldl (fun acc b => acc * 257 + b.toNat + 1) 1 : ℕ)

theorem length_polySum (bz : Bytes) : (polySum bz).length = Merkle.hashSize := by
  simp [polySum, intToBytes, Merkle.hashSize]

/-- The concrete library. -/
def polyLib : Lib where
  sum := polySum
  vote := voteCoder.codec
  aggVote := aggVoteCoder.codec
  timestamp := timestampCoder.codec
  proposal := proposalCoder.codec
  block := blockCoder.codec
  csm := csmCoder.codec

/-- A signature is the index of the validator followed by the message. -/
def indexSign (index : ℕ) (msg : Bytes) : Str := UInt8.ofNat index :: msg

/-- Two shards of four equal validators each. The application relays the cross-shard transactions of
a block to both shards and counts the executions. -/
def pairNetwork : Network ℕ where
  lib := polyLib
  bls := HotStuff.concatBls
  shardIDList := [[65], [66]]
  shards _ := { peerList := [0, 1, 2, 3].map fun i => { pubkey := [i], vote := 1 }, leaderIndex := 0 }
  sign _ := indexSign
  execution _ app _ crossShardTxs _ := ([crossShardTxs, crossShardTxs], app + 1)
  enablePipelineFlag _ := true

end Emulator.Urd
