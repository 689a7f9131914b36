import Emulator.Urd.Codecs

/-!
# Messages as they come from the wire

`Receive` unmarshals the bytes, converts the protobuf message and calls `ValidateBasic`, all before
it takes the lock. In a protobuf message every field that is a message can be absent, and the
converters differ in what they make of that: `NewAggregatedVoteFromProto`,
`NewProofOfIntentionFromProto`, `NewOutputTxsProofFromProto`, `NewCommitIntentionFromProto` and
`NewTxsFromProto` pass `nil` on, while `NewProofFromProto`, `NewHeaderFromProto`,
`NewPartSetHeaderFromProto` and `NewCommitCertificateFromProto` dereference it. Elements of repeated
fields are always there.

Each converter is `none` where it panics, and has one lemma that says when that is; `Complete` puts
these conditions together along the messages.

* `decode_total_iff` — the decoders return exactly if the bytes unmarshal to nothing or to a message
  with all the parts that are dereferenced and with bit vectors that can be read.
-/

namespace Emulator.Urd

open HotStuff

/-! ## Protobuf messages -/

/-- The message `urd.types.Part`. -/
structure PbPart where
  view : ℤ
  round : ℤ
  bytes : Bytes
  proof : Option Merkle.Proof
  chainID : Str
  deriving DecidableEq, Repr

/-- The message `urd.types.Proposal`, up to the vote type, which nothing reads. -/
structure PbProposal where
  header : Option PartSetHeader
  proposerIndex : ℤ
  blockHeaderHash : Bytes
  signature : Str
  deriving DecidableEq, Repr

/-- The protobuf runtime of `Receive`. -/
structure ReceiveLib extends Lib where
  part : Codec PbPart
  pbProposal : Codec PbProposal

/-! ## Converters -/

/-- `NewPartFromProto`; `NewProofFromProto` dereferences the proof. -/
def newPartFromProto (pp : PbPart) : Option Part :=
  pp.proof.map fun proof =>
    { chainID := pp.chainID, height := pp.view, round := pp.round, bytes := pp.bytes, proof }

/-- `NewProposalFromProto`; `NewPartSetHeaderFromProto` dereferences the header. -/
def newProposalFromProto (p : PbProposal) : Option Proposal :=
  p.header.map fun header =>
    { header, proposerIndex := p.proposerIndex, blockHeaderHash := p.blockHeaderHash
      signature := p.signature }

def newVoteFromProto (p : PbVote) : Vote :=
  { code := Int8.ofInt p.code, view := p.view, round := p.round, forHash := p.forHash
    forNecessaryData := p.forNecessaryData, sign := p.sign, validatorIndex := p.validatorIndex }

/-- A `CrossShardMessage` whose `AggVote` may be `nil`. -/
structure DecodedMessage where
  sourceChain : Str
  aggVote : Option AggregatedVote
  intentionBrief : IntentionBrief
  proofOfIntention : Option ProofOfIntention
  oPTXs : Txs
  outputTxsProof : Option OutputTxsProof
  deriving DecidableEq, Repr

def DecodedMessage.withVote (m : DecodedMessage) (aggVote : AggregatedVote) : CrossShardMessage :=
  { sourceChain := m.sourceChain, aggVote, intentionBrief := m.intentionBrief
    proofOfIntention := m.proofOfIntention, oPTXs := m.oPTXs, outputTxsProof := m.outputTxsProof }

/-- `NewCrossShardMessageFromProto`. -/
def decodedFromProto (pb : PbCrossShardMessage) : Option DecodedMessage := do
  let aggVote ← pb.aggVote.mapM newAggregatedVoteFromProto
  let proofOfIntention ← pb.proofOfIntention.mapM newProofOfIntentionFromProto
  let outputTxsProof ← pb.outputTxsProof.mapM newOutputTxsProofFromProto
  pure
    { sourceChain := pb.sourceChain, aggVote, intentionBrief := pb.intentionBrief, proofOfIntention
      oPTXs := (newTxsFromProto pb.oPTTxs).getD [], outputTxsProof }

/-! ## Decoders -/

/-- What `Receive` does with a message that has been converted: `ValidateBasic`. -/
def validated (lib : Lib) (msg : Message) : Except Fault Message :=
  if msg.validateBasic lib then .ok msg else .error .invalid

/-- A converted message, where `none` is a panic. -/
def converted {β γ : Type} (o : Option β) (f : β → Except Fault γ) : Except Fault γ :=
  o.elim (.error .panic) f

/-- `proto.Unmarshal`, then a converter. -/
def unmarshalled {β γ : Type} (c : Codec β) (bz : Bytes) (f : β → Except Fault γ) : Except Fault γ :=
  (c.unmarshal bz).elim (.error .decode) f

inductive MessageType
  | part
  | crossShardMessage
  | proposal
  | vote
  /-- a type that `Receive` does not know -/
  | other
  deriving DecidableEq, Repr

/-- `Receive` up to the lock. -/
def decodeMessage (lib : ReceiveLib) : MessageType → Bytes → Except Fault Message
  | .part, bz => unmarshalled lib.part bz fun pp =>
      converted (newPartFromProto pp) fun p => validated lib.toLib (.part p)
  | .crossShardMessage, bz => unmarshalled lib.csm bz fun pb =>
      converted (decodedFromProto pb) fun m =>
        -- the arguments of the first `Verify` already need the last hash of the vote
        converted m.aggVote fun aggVote =>
          validated lib.toLib (.crossShardMessage (m.withVote aggVote))
  | .proposal, bz => unmarshalled lib.pbProposal bz fun pp =>
      converted (newProposalFromProto pp) fun p => validated lib.toLib (.proposal p)
  | .vote, bz => unmarshalled lib.vote bz fun p => validated lib.toLib (.vote (newVoteFromProto p))
  | .other, _ => .error .decode

def newBlockFromBytes (lib : Lib) (bz : Bytes) : Except Fault Block :=
  unmarshalled lib.block bz fun p => converted (newBlockFromProto p) .ok

/-! ## What the converters dereference -/

/-- The vote names its signers by a bit vector that can be read. -/
def SignersReadable (p : PbAggregatedVote) : Prop := BitVector.Readable p.signerIndex

def PbProofOfIntention.Complete (p : PbProofOfIntention) : Prop := p.intentionHashProof.isSome

def PbOutputTxsProof.Complete (p : PbOutputTxsProof) : Prop :=
  p.blockProof.isSome ∧ p.oPTProof.isSome

def PbCommitCertificateCore.Complete (p : PbCommitCertificateCore) : Prop :=
  ∃ proof ∈ p.mKProof, proof.Complete

def PbCommitIntention.Complete (p : PbCommitIntention) : Prop :=
  ∀ v ∈ p.aggregatedSignatures, SignersReadable v

structure PbCrossShardMessage.Complete (pb : PbCrossShardMessage) : Prop where
  aggVote : ∃ v ∈ pb.aggVote, SignersReadable v
  proofOfIntention : ∀ p ∈ pb.proofOfIntention, p.Complete
  outputTxsProof : ∀ p ∈ pb.outputTxsProof, p.Complete

structure PbBlock.Complete (p : PbBlock) : Prop where
  header : p.header.isSome
  aggSigVote : ∀ v ∈ p.aggSigVote, SignersReadable v
  ci : ∀ ci ∈ p.ci, ci.Complete
  cc : ∃ cores ∈ p.cc, ∀ core ∈ cores, core.Complete
  ctxsProof : ∀ proof ∈ p.ctxsProof, proof.Complete

section

variable {β γ : Type} {f : β → Option γ} {o : Option β}

theorem isSome_mapM_list {l : List β} :
    (l.mapM f).isSome ↔ ∀ b ∈ l, (f b).isSome := by
  simp only [Option.isSome_iff_exists]
  constructor
  · rintro ⟨l', h⟩ b hb
    obtain ⟨c, -, hc⟩ := exists_mem_of_mapM h hb
    exact ⟨c, hc⟩
  · exact exists_mapM

theorem isSome_mapM_option :
    (o.mapM f).isSome ↔ ∀ b ∈ o, (f b).isSome := by
  cases o with
  | none => exact iff_of_true rfl nofun
  | some b => simp

theorem isSome_bind_iff :
    (o.bind f).isSome ↔ ∃ b ∈ o, (f b).isSome := by
  cases o with
  | none => exact iff_of_false nofun nofun
  | some b => simp

theorem isSome_bind_and {q : Prop}
    (h : ∀ b, (f b).isSome ↔ q) : (o >>= f).isSome ↔ o.isSome ∧ q := by
  cases o with
  | none => exact iff_of_false nofun fun hq => Bool.noConfusion hq.1
  | some b => simpa using h b

theorem isSome_bind_pure {f : β → γ} : (o >>= fun b => pure (f b)).isSome ↔ o.isSome := by
  cases o <;> exact Iff.rfl

end

theorem isSome_newAggregatedVoteFromProto (p : PbAggregatedVote) :
    (newAggregatedVoteFromProto p).isSome ↔ SignersReadable p := by
  rw [newAggregatedVoteFromProto, Option.isSome_map]
  exact BitVector.isSome_readBitArray_iff p.signerIndex

theorem isSome_newProofOfIntentionFromProto (p : PbProofOfIntention) :
    (newProofOfIntentionFromProto p).isSome ↔ p.Complete := isSome_bind_pure

theorem isSome_newOutputTxsProofFromProto (p : PbOutputTxsProof) :
    (newOutputTxsProofFromProto p).isSome ↔ p.Complete :=
  isSome_bind_and fun _ => isSome_bind_pure

theorem isSome_newCommitCertificateCoreFromProto (p : PbCommitCertificateCore) :
    (newCommitCertificateCoreFromProto p).isSome ↔ p.Complete := by
  refine isSome_bind_pure.trans ?_
  rw [isSome_bind_iff]
  simp only [isSome_newProofOfIntentionFromProto]
  rfl

theorem isSome_newCommitIntentionFromProto (p : PbCommitIntention) :
    (newCommitIntentionFromProto p).isSome ↔ p.Complete := by
  rw [newCommitIntentionFromProto, Option.isSome_map, isSome_mapM_list]
  simp only [isSome_newAggregatedVoteFromProto]
  rfl

theorem isSome_newCrossShardMessageFromProto (pb : PbCrossShardMessage) :
    (newCrossShardMessageFromProto pb).isSome ↔ pb.Complete := by
  refine (isSome_bind_and fun _ => isSome_bind_and fun _ => isSome_bind_pure).trans ?_
  rw [isSome_bind_iff, isSome_mapM_option, isSome_mapM_option]
  simp only [isSome_newAggregatedVoteFromProto, isSome_newProofOfIntentionFromProto,
    isSome_newOutputTxsProofFromProto]
  exact ⟨fun ⟨hvote, hintention, hout⟩ => ⟨hvote, hintention, hout⟩,
    fun h => ⟨h.aggVote, h.proofOfIntention, h.outputTxsProof⟩⟩

theorem isSome_newBlockFromProto (p : PbBlock) : (newBlockFromProto p).isSome ↔ p.Complete := by
  refine (isSome_bind_and fun _ => isSome_bind_and fun _ => isSome_bind_and fun _ =>
    isSome_bind_and fun _ => isSome_bind_pure).trans ?_
  rw [isSome_mapM_option, isSome_mapM_option, isSome_bind_iff, isSome_mapM_list]
  simp only [isSome_mapM_list, isSome_newAggregatedVoteFromProto, isSome_newCommitIntentionFromProto,
    isSome_newCommitCertificateCoreFromProto, isSome_newOutputTxsProofFromProto]
  exact ⟨fun ⟨hheader, hvote, hci, hcc, hproofs⟩ => ⟨hheader, hvote, hci, hcc, hproofs⟩,
    fun h => ⟨h.header, h.aggSigVote, h.ci, h.cc, h.ctxsProof⟩⟩

/-! ## When the decoders return -/

section

variable {β γ : Type}

theorem unmarshalled_returns_iff {c : Codec β} {bz : Bytes} {f : β → Except Fault γ} {C : β → Prop}
    (h : ∀ p, f p ≠ .error .panic ↔ C p) :
    unmarshalled c bz f ≠ .error .panic ↔ ∀ p, c.unmarshal bz = some p → C p := by
  unfold unmarshalled
  cases c.unmarshal bz with
  | none => exact iff_of_true nofun nofun
  | some p =>
    refine (h p).trans ⟨fun hp q hq => ?_, fun hall => hall p rfl⟩
    obtain rfl := Option.some.inj hq
    exact hp

theorem converted_returns_iff {o : Option β} {f : β → Except Fault γ}
    (h : ∀ b, f b ≠ .error .panic) : converted o f ≠ .error .panic ↔ o.isSome := by
  cases o with
  | none => exact iff_of_false (fun hne => hne rfl) nofun
  | some b => exact iff_of_true (h b) rfl

end

theorem validated_returns (lib : Lib) (msg : Message) : validated lib msg ≠ .error .panic := by
  unfold validated
  split_ifs <;> exact nofun

/-- A message without a vote is lost at the conversion or in `ValidateBasic`. -/
theorem decodeMessage_crossShardMessage (lib : ReceiveLib) (bz : Bytes) :
    decodeMessage lib .crossShardMessage bz = unmarshalled lib.csm bz fun pb =>
      converted (newCrossShardMessageFromProto pb) fun m =>
        validated lib.toLib (.crossShardMessage m) := by
  refine congrArg (unmarshalled lib.csm bz) (funext fun pb => ?_)
  unfold newCrossShardMessageFromProto decodedFromProto
  generalize pb.proofOfIntention.mapM newProofOfIntentionFromProto = proofOfIntention
  generalize pb.outputTxsProof.mapM newOutputTxsProofFromProto = outputTxsProof
  cases pb.aggVote with
  | none => cases proofOfIntention <;> cases outputTxsProof <;> rfl
  | some vote =>
    rw [Option.mapM_some, Option.bind_some]
    cases newAggregatedVoteFromProto vote with
    | none => rfl
    | some aggVote => cases proofOfIntention <;> cases outputTxsProof <;> rfl

/-- The bytes are not those of a message of the given type that lacks something. -/
def ReceiveLib.Complete (lib : ReceiveLib) (bz : Bytes) : MessageType → Prop
  | .part => ∀ pp, lib.part.unmarshal bz = some pp → pp.proof.isSome
  | .crossShardMessage => ∀ pb, lib.csm.unmarshal bz = some pb → pb.Complete
  | .proposal => ∀ pp, lib.pbProposal.unmarshal bz = some pp → pp.header.isSome
  | .vote => True
  | .other => True

/-- **When the decoders return.** `Receive` gets to the lock or returns an error exactly if the
bytes lack nothing that is dereferenced, and the same holds for `NewBlockFromBytes`. -/
theorem decode_total_iff (lib : ReceiveLib) (bz : Bytes) :
    (∀ t, decodeMessage lib t bz ≠ .error .panic ↔ lib.Complete bz t) ∧
    (newBlockFromBytes lib.toLib bz ≠ .error .panic ↔
      ∀ p, lib.block.unmarshal bz = some p → p.Complete) := by
  refine ⟨fun t => ?_, ?_⟩
  · cases t with
    | part =>
      refine unmarshalled_returns_iff fun pp =>
        (converted_returns_iff fun p => validated_returns _ _).trans ?_
      rw [newPartFromProto, Option.isSome_map]
    | crossShardMessage =>
      rw [decodeMessage_crossShardMessage]
      exact unmarshalled_returns_iff fun pb =>
        (converted_returns_iff fun m => validated_returns _ _).trans
          (isSome_newCrossShardMessageFromProto pb)
    | proposal =>
      refine unmarshalled_returns_iff fun pp =>
        (converted_returns_iff fun p => validated_returns _ _).trans ?_
      rw [newProposalFromProto, Option.isSome_map]
    | vote =>
      refine iff_of_true ?_ trivial
      exact (unmarshalled_returns_iff (C := fun _ => True)
        fun p => iff_of_true (validated_returns _ _) trivial).mpr fun _ _ => trivial
    | other => exact iff_of_true nofun trivial
  · exact unmarshalled_returns_iff fun p =>
      (converted_returns_iff (f := .ok) fun b => nofun).trans (isSome_newBlockFromProto p)

/-! ## Messages that lack something -/

def partCoder : Coder PbPart :=
  (Coder.int.pair (Coder.int.pair (Coder.bytes.pair (proofCoder.option.pair Coder.bytes)))).map
    (fun p => (p.view, p.round, p.bytes, p.proof, p.chainID))
    (fun ⟨view, round, bytes, proof, chainID⟩ => { view, round, bytes, proof, chainID }) fun _ => rfl

def pbProposalCoder : Coder PbProposal :=
  (partSetHeaderCoder.option.pair (Coder.int.pair (Coder.bytes.pair Coder.bytes))).map
    (fun p => (p.header, p.proposerIndex, p.blockHeaderHash, p.signature))
    (fun ⟨header, proposerIndex, blockHeaderHash, signature⟩ =>
      { header, proposerIndex, blockHeaderHash, signature }) fun _ => rfl

/-- The concrete library, with which messages can be decoded. -/
def polyReceive : ReceiveLib where
  toLib := polyLib
  part := partCoder.codec
  pbProposal := pbProposalCoder.codec

/-- A message without a vote. -/
def bareMessage : PbCrossShardMessage :=
  { sourceChain := [66], aggVote := none, intentionBrief := [], proofOfIntention := none
    oPTTxs := none, outputTxsProof := none }

/-- A vote whose bit vector claims eight unused bits in its only byte. -/
def overfullVote : PbAggregatedVote :=
  { code := 0, view := 1, round := 0, forHash := [], forNecessaryData := [], sign := []
    signerIndex := [8, 0] }

/-- A block without any part. -/
def bareBlock : PbBlock :=
  { header := none, prepareTxs := none, crossShardTxs := none, opt := [], aggSigVote := none
    ci := none, cc := none, ctxs := [], ctxsProof := [] }

/-- A part without its proof, a proposal without its header, messages without or with an unreadable
vote and a block without a header panic. -/
theorem decode_panics_bare :
    decodeMessage polyReceive .part (polyReceive.part.marshal ⟨1, 0, [1], none, [65]⟩) =
      .error .panic ∧
    decodeMessage polyReceive .proposal (polyReceive.pbProposal.marshal ⟨none, 0, [], []⟩) =
      .error .panic ∧
    decodeMessage polyReceive .crossShardMessage (polyReceive.csm.marshal bareMessage) =
      .error .panic ∧
    decodeMessage polyReceive .crossShardMessage
      (polyReceive.csm.marshal { bareMessage with aggVote := some overfullVote }) = .error .panic ∧
    newBlockFromBytes polyReceive.toLib (polyReceive.block.marshal bareBlock) = .error .panic := by
  decide +kernel

end Emulator.Urd
