import Emulator.Core.HotStuff
import Emulator.Core.Parts

/-!
# Blocks and messages of the Urd shards

A block commits, through the roots in its header, to what it carries: its transactions, the hashes
of the relay lists its shard has computed (`opt`), the vote on the block before it, the hashes of
the other shards' blocks it intends to commit (`ci`), the certificates that all shards intended the
same (`cc`) and the relay lists that are committed with them (`ctxs`).

A cross-shard message carries a shard's vote on a block together with proofs, against the hash of
the block before it, of that block's commit intention and of one of its relay lists.

* `hash_onWire` — a block has the same hash after it went over the wire.
* `verify_getOutputTxsProofOf`, `verify_proofOfIntention` — the proofs a shard makes for its block
  verify against the hash of the block.
-/

namespace Emulator.Urd

open HotStuff Merkle

/-! ## Data -/

/-- `google.protobuf.Timestamp`, which is what of a `time.Time` is hashed and sent. -/
structure Timestamp where
  seconds : ℤ
  nanos : ℤ
  deriving DecidableEq, Repr

abbrev Txs := List Bytes

structure OutputTxsProof where
  blockProof : Merkle.Proof
  oPTProof : Merkle.Proof
  deriving DecidableEq, Repr

abbrev IntentionBrief := List Bytes

structure CommitIntention where
  intentionHash : IntentionBrief
  aggregatedSignatures : List AggregatedVote
  deriving DecidableEq, Repr

structure ProofOfIntention where
  intentionHashProof : Merkle.Proof
  rightHash : Bytes
  deriving DecidableEq, Repr

structure CommitCertificateCore where
  hash : Bytes
  mKProof : ProofOfIntention
  intentionBrief : IntentionBrief
  deriving DecidableEq, Repr

structure Header where
  hashPointer : Bytes := []
  chainID : Str
  view : ℤ
  round : ℤ
  time : Timestamp
  prepareRoot : Bytes := []
  crossShardRoot : Bytes := []
  outputTxsRoot : Bytes := []
  lastAggSigRoot : Bytes := []
  commitIntentionRoot : Bytes := []
  commitCertificateRoot : Bytes := []
  commitTxsListRoot : Bytes := []
  stateRoot : Bytes := []
  deriving DecidableEq, Repr

/-- `Block`. Whether the two transaction lists are `nil` matters for the header. -/
structure Block extends Header where
  ptxs : Option Txs := none
  crossShardTxs : Option Txs := none
  opt : List Bytes := []
  aggSigVote : Option AggregatedVote := none
  ci : Option CommitIntention := none
  cc : List CommitCertificateCore := []
  ctxs : List Txs := []
  ctxsProof : List OutputTxsProof := []
  deriving DecidableEq, Repr

structure CrossShardMessage where
  sourceChain : Str
  aggVote : AggregatedVote
  intentionBrief : IntentionBrief := []
  proofOfIntention : Option ProofOfIntention := none
  oPTXs : Txs := []
  outputTxsProof : Option OutputTxsProof := none
  deriving DecidableEq, Repr

/-! ## Protobuf messages -/

/-- The message `urd.types.Header`, which has no cross-shard root. -/
structure PbHeader where
  hashPointer : Bytes
  chainID : Str
  view : ℤ
  round : ℤ
  time : Timestamp
  prepareRoot : Bytes
  outputTxsRoot : Bytes
  lastAggSigRoot : Bytes
  commitIntentionRoot : Bytes
  commitCertificateRoot : Bytes
  commitTxsRoot : Bytes
  stateRoot : Bytes
  deriving DecidableEq, Repr

/-- The message `urd.types.CommitIntention`. -/
structure PbCommitIntention where
  intentionHash : List Bytes
  aggregatedSignatures : List PbAggregatedVote
  deriving DecidableEq, Repr

/-- The message `urd.types.ProofOfIntention`. A field that is a message can be absent. -/
structure PbProofOfIntention where
  intentionHashProof : Option Merkle.Proof
  rightHash : Bytes
  deriving DecidableEq, Repr

/-- The message `urd.types.CommitCertificateCore`. -/
structure PbCommitCertificateCore where
  hash : Bytes
  mKProof : Option PbProofOfIntention
  intentionBrief : List Bytes
  deriving DecidableEq, Repr

/-- The message `urd.types.OutputTxsProof`. -/
structure PbOutputTxsProof where
  blockProof : Option Merkle.Proof
  oPTProof : Option Merkle.Proof
  deriving DecidableEq, Repr

/-- The message `urd.types.Block`. -/
structure PbBlock where
  header : Option PbHeader
  prepareTxs : Option (List Bytes)
  crossShardTxs : Option (List Bytes)
  opt : List Bytes
  aggSigVote : Option PbAggregatedVote
  ci : Option PbCommitIntention
  cc : Option (List PbCommitCertificateCore)
  ctxs : List (List Bytes)
  ctxsProof : List PbOutputTxsProof
  deriving DecidableEq, Repr

/-- The message `urd.types.CrossShardMessage`. -/
structure PbCrossShardMessage where
  sourceChain : Str
  aggVote : Option PbAggregatedVote
  intentionBrief : List Bytes
  proofOfIntention : Option PbProofOfIntention
  oPTTxs : Option (List Bytes)
  outputTxsProof : Option PbOutputTxsProof
  deriving DecidableEq, Repr

/-- `constypes.Proposal`, which has the fields of its message. -/
structure Proposal where
  header : PartSetHeader
  proposerIndex : ℤ
  blockHeaderHash : Bytes
  signature : Str
  deriving DecidableEq, Repr

/-- SHA-256 and the protobuf runtime. -/
structure Lib where
  sum : Bytes → Bytes
  vote : Codec PbVote
  aggVote : Codec PbAggregatedVote
  timestamp : Codec Timestamp
  proposal : Codec Proposal
  block : Codec PbBlock
  csm : Codec PbCrossShardMessage

/-! ## Hashes -/

section

variable (lib : Lib)

def txsHash (txs : Txs) : Bytes := hashFromByteSlices lib.sum txs

def briefHash (ib : IntentionBrief) : Bytes := hashFromByteSlices lib.sum ib

def OutputTxsProof.hash (p : OutputTxsProof) : Bytes :=
  hashFromByteSlices lib.sum [p.blockProof.contentHash lib.sum, p.oPTProof.contentHash lib.sum]

def ProofOfIntention.hash (p : ProofOfIntention) : Bytes :=
  hashFromByteSlices lib.sum [p.intentionHashProof.contentHash lib.sum, p.rightHash]

namespace CommitIntention

variable (ci : CommitIntention)

def leftHash : Bytes := briefHash lib ci.intentionHash

def rrightHash : Bytes :=
  hashFromByteSlices lib.sum (ci.aggregatedSignatures.map (·.hash lib.sum lib.aggVote))

def hash : Bytes := hashFromByteSlices lib.sum [ci.leftHash lib, ci.rrightHash lib]

def getBrief : IntentionBrief := ci.intentionHash

end CommitIntention

def certificateHash (cc : List CommitCertificateCore) : Bytes :=
  hashFromByteSlices lib.sum (cc.map fun core =>
    hashFromByteSlices lib.sum [core.hash, briefHash lib core.intentionBrief, core.mKProof.hash lib])

/-- What `fillInHeader` does to a root: one that is there stays. -/
def fillIn (root new : Bytes) : Bytes := if root.isEmpty then new else root

namespace Block

variable (b : Block)

/-- The value of `CommitTxsListRoot`. -/
def commitTxsListHash : Bytes :=
  hashFromByteSlices lib.sum
    [hashFromByteSlices lib.sum (b.ctxs.map (txsHash lib)),
      hashFromByteSlices lib.sum (b.ctxsProof.map (·.hash lib))]

def fillInHeader : Block :=
  { b with
    prepareRoot := fillIn b.prepareRoot ((b.ptxs.map (txsHash lib)).getD [])
    crossShardRoot := fillIn b.crossShardRoot ((b.crossShardTxs.map (txsHash lib)).getD [])
    outputTxsRoot := fillIn b.outputTxsRoot (hashFromByteSlices lib.sum b.opt)
    lastAggSigRoot :=
      fillIn b.lastAggSigRoot ((b.aggSigVote.map (·.hash lib.sum lib.aggVote)).getD [])
    commitIntentionRoot := fillIn b.commitIntentionRoot ((b.ci.map (·.hash lib)).getD [])
    commitCertificateRoot := fillIn b.commitCertificateRoot (certificateHash lib b.cc)
    commitTxsListRoot := fillIn b.commitTxsListRoot (b.commitTxsListHash lib) }

/-- The hash over the fields of a filled header that need no proof. -/
def packageHash : Bytes :=
  hashFromByteSlices lib.sum
    [b.chainID, intToBytes 8 b.view, intToBytes 4 b.round, lib.timestamp.marshal b.time,
      b.lastAggSigRoot, b.commitCertificateRoot]

/-- The leaves of the block's hash, for a filled header. -/
def leaves : List Bytes :=
  [b.packageHash lib, b.hashPointer, b.prepareRoot, b.outputTxsRoot, b.commitIntentionRoot,
    b.commitTxsListRoot, b.stateRoot]

def calBlockHashAndProof : Bytes × List Merkle.Proof :=
  proofsFromByteSlices lib.sum ((b.fillInHeader lib).leaves lib)

def hash : Bytes := (b.calBlockHashAndProof lib).1

/-- `ProofOfIndex`; `none` is `nil`. -/
def proofOfIndex (i : ℕ) : Option Merkle.Proof := (b.calBlockHashAndProof lib).2[i]?

def getOutputTxsProof : Option Merkle.Proof := b.proofOfIndex lib 3
def getCommitIntentionProof : Option Merkle.Proof := b.proofOfIndex lib 4

/-- `GetOutputTxsProofOf`, which panics (`none`) on an index past the relay lists. -/
def getOutputTxsProofOf (index : ℕ) : Option OutputTxsProof := do
  let blockProof ← b.getOutputTxsProof lib
  let oPTProof ← (proofsFromByteSlices lib.sum b.opt).2[index]?
  pure { blockProof, oPTProof }

end Block

/-- `Hash` of a block that may be `nil`. -/
def hashOf (b : Option Block) : Bytes := (b.map (·.hash lib)).getD []

/-! ## Verification -/

def OutputTxsProof.verify (p : OutputTxsProof) (root : Bytes) (outputTxs : Txs) : Bool :=
  let optRoot := (p.oPTProof.computeRootHash lib.sum).getD []
  p.oPTProof.verify lib.sum optRoot (txsHash lib outputTxs) && p.blockProof.verify lib.sum root optRoot

def ProofOfIntention.verify (p : ProofOfIntention) (root leftHash : Bytes) : Bool :=
  p.intentionHashProof.verify lib.sum root (hashFromByteSlices lib.sum [leftHash, p.rightHash])

def CommitCertificateCore.verify (core : CommitCertificateCore) : Bool :=
  core.mKProof.verify lib core.hash (briefHash lib core.intentionBrief)

end

/-! ## Parts of messages on the wire -/

def OutputTxsProof.toProto (p : OutputTxsProof) : PbOutputTxsProof :=
  { blockProof := some p.blockProof, oPTProof := some p.oPTProof }

/-- `NewOutputTxsProofFromProto`; a proof that is absent panics (`none`). -/
def newOutputTxsProofFromProto (p : PbOutputTxsProof) : Option OutputTxsProof := do
  pure { blockProof := ← p.blockProof, oPTProof := ← p.oPTProof }

def ProofOfIntention.toProto (p : ProofOfIntention) : PbProofOfIntention :=
  { intentionHashProof := some p.intentionHashProof, rightHash := p.rightHash }

/-- `NewProofOfIntentionFromProto`; a proof that is absent panics (`none`). -/
def newProofOfIntentionFromProto (p : PbProofOfIntention) : Option ProofOfIntention := do
  pure { intentionHashProof := ← p.intentionHashProof, rightHash := p.rightHash }

def CommitCertificateCore.toProto (core : CommitCertificateCore) : PbCommitCertificateCore :=
  { hash := core.hash, mKProof := some core.mKProof.toProto, intentionBrief := core.intentionBrief }

/-- `NewCommitCertificateCoreFromProto`; a proof that is absent panics (`none`). -/
def newCommitCertificateCoreFromProto (p : PbCommitCertificateCore) :
    Option CommitCertificateCore := do
  let mKProof ← p.mKProof.bind newProofOfIntentionFromProto
  pure { hash := p.hash, mKProof, intentionBrief := p.intentionBrief }

def CommitIntention.toProto (ci : CommitIntention) : PbCommitIntention :=
  { intentionHash := ci.intentionHash
    aggregatedSignatures := ci.aggregatedSignatures.map (·.toProto) }

def newCommitIntentionFromProto (pci : PbCommitIntention) : Option CommitIntention :=
  (pci.aggregatedSignatures.mapM newAggregatedVoteFromProto).map fun votes =>
    { intentionHash := pci.intentionHash, aggregatedSignatures := votes }

/-- `NewTxsFromProto`: an absent message is an empty list, and an empty repeated field is `nil`. -/
def newTxsFromProto : Option (List Bytes) → Option Txs
  | none => some []
  | some txs => if txs.isEmpty then none else some txs

/-! ## Certificates and messages -/

/-- One brief of `CommitCertificate.Result`: a slot takes the first hash it sees, and a different
one marks it as an error. A brief longer than the certificate panics (`none`). -/
def mergeBrief : List (Bytes × Bool) → IntentionBrief → Option (List (Bytes × Bool))
  | slots, [] => some slots
  | [], _ :: _ => none
  | (result, err) :: slots, bz :: brief =>
    let slot :=
      if result = bz ∨ bz = [] then (result, err)
      else if result ≠ [] then (result, true)
      else (bz, err)
    (mergeBrief slots brief).map (slot :: ·)

/-- `CommitCertificate.Result`. -/
def certificateResult (cc : List CommitCertificateCore) : Option (List (Bytes × Bool)) :=
  cc.foldlM (fun slots core => mergeBrief slots core.intentionBrief)
    (List.replicate cc.length ([], false))

def getLastHashOfAggVote (v : AggregatedVote) : Bytes := v.forNecessaryData.headD []

def setLastHashOfVote (v : Vote) (hash : Bytes) : Vote :=
  { v with forNecessaryData := hash :: v.forNecessaryData.tail }

namespace CrossShardMessage

variable (lib : Lib) (csm : CrossShardMessage)

def getLastHash : Bytes := getLastHashOfAggVote csm.aggVote

/-- `CrossShardMessage.ValidateBasic`; a proof that is `nil` passes. -/
def validateBasic : Bool :=
  (csm.proofOfIntention.all fun p =>
    p.verify lib csm.getLastHash (briefHash lib csm.intentionBrief)) &&
  csm.outputTxsProof.all fun p => p.verify lib csm.getLastHash csm.oPTXs

def toProto : PbCrossShardMessage :=
  { sourceChain := csm.sourceChain, aggVote := some csm.aggVote.toProto,
    intentionBrief := csm.intentionBrief,
    proofOfIntention := csm.proofOfIntention.map ProofOfIntention.toProto,
    oPTTxs := some csm.oPTXs, outputTxsProof := csm.outputTxsProof.map OutputTxsProof.toProto }

def protoBytes : Bytes := lib.csm.marshal csm.toProto

end CrossShardMessage

/-- `NewCrossShardMessageFromProto`. A message without a vote is refused here; in the source
`ValidateBasic`, which is always called next, panics on it. -/
def newCrossShardMessageFromProto (pb : PbCrossShardMessage) : Option CrossShardMessage := do
  let aggVote ← pb.aggVote.bind newAggregatedVoteFromProto
  let proofOfIntention ← pb.proofOfIntention.mapM newProofOfIntentionFromProto
  let outputTxsProof ← pb.outputTxsProof.mapM newOutputTxsProofFromProto
  pure
    { sourceChain := pb.sourceChain, aggVote, intentionBrief := pb.intentionBrief, proofOfIntention
      oPTXs := (newTxsFromProto pb.oPTTxs).getD [], outputTxsProof }

def newCrossShardMessageFromBytes (lib : Lib) (bz : Bytes) : Option CrossShardMessage :=
  (lib.csm.unmarshal bz).bind newCrossShardMessageFromProto

/-! ## Checking a block -/

/-- The ways `Block.ValidateBasic` refuses a block. -/
inductive BlockError
  /-- a `nil` commit intention or an index out of range -/
  | panic
  /-- "block contains %d Intention Hash but %d AggregatedSignatures" -/
  | intentionCount
  /-- "commit intention of block(view=%d,round=%d) is inconsistent with its vote" -/
  | intentionHash
  /-- "block contains %d Commitment Certificate but %d Intention Hash" -/
  | certificateCount
  /-- "commit certificate of block(view=%d,round=%d) is inconsistent with its vote" -/
  | certificateHash
  /-- "error when verify CC(index=%d): %v" -/
  | certificate
  /-- "block contains not enough CTXsProof" -/
  | ctxsCount
  /-- an error of `OutputTxsProof.Verify` -/
  | ctxsProof
  deriving DecidableEq, Repr

namespace Block

variable (lib : Lib) (b : Block)

/-- The checks of `ValidateBasic` that start after view 5. -/
def validateCommitment : Except BlockError Unit :=
  match b.ci with
  | none => .error .panic
  | some ci =>
    if ci.intentionHash.length ≠ ci.aggregatedSignatures.length then .error .intentionCount
    else if ci.intentionHash ≠ ci.aggregatedSignatures.map getLastHashOfAggVote then
      .error .intentionHash
    else if b.cc.length ≠ ci.intentionHash.length then .error .certificateCount
    else if b.cc.map CommitCertificateCore.hash ≠
        ci.aggregatedSignatures.map getLastHashOfAggVote then .error .certificateHash
    else if !b.cc.all (·.verify lib) then .error .certificate
    else .ok ()

/-- The check of one entry of `CTXSProof`. -/
def validateCTXS (i : ℕ) : Except BlockError Unit :=
  match b.ci.bind (·.aggregatedSignatures[i]?), b.ctxsProof[i]?, b.ctxs[i]? with
  | some vote, some proof, some txs =>
    if proof.verify lib (getLastHashOfAggVote vote) txs then .ok () else .error .ctxsProof
  | _, _, _ => .error .panic

def validateBasic : Except BlockError Unit := do
  if b.view > 5 then b.validateCommitment lib
  if b.ctxs.length ≠ b.ctxsProof.length ∨ b.ctxs.length ≠ b.cc.length then .error .ctxsCount
  match certificateResult b.cc with
  | none => .error .panic
  | some slots =>
    -- a slot with an error is skipped
    (slots.zipIdx.filter fun slot => !slot.1.2).forM fun slot => b.validateCTXS lib slot.2

/-! ## Blocks on the wire -/

def toProto : PbBlock :=
  let b := b.fillInHeader lib
  { header := some
      { hashPointer := b.hashPointer, chainID := b.chainID, view := b.view, round := b.round
        time := b.time, prepareRoot := b.prepareRoot, outputTxsRoot := b.outputTxsRoot
        lastAggSigRoot := b.lastAggSigRoot, commitIntentionRoot := b.commitIntentionRoot
        commitCertificateRoot := b.commitCertificateRoot, commitTxsRoot := b.commitTxsListRoot
        stateRoot := b.stateRoot }
    prepareTxs := some (b.ptxs.getD []), crossShardTxs := some (b.crossShardTxs.getD [])
    opt := b.opt, aggSigVote := b.aggSigVote.map (·.toProto), ci := b.ci.map (·.toProto)
    cc := some (b.cc.map (·.toProto)), ctxs := b.ctxs, ctxsProof := b.ctxsProof.map (·.toProto) }

end Block

/-- `NewBlockFromProto`; a header, certificate or proof that is absent panics (`none`). -/
def newBlockFromProto (p : PbBlock) : Option Block := do
  let header ← p.header
  let aggSigVote ← p.aggSigVote.mapM newAggregatedVoteFromProto
  let ci ← p.ci.mapM newCommitIntentionFromProto
  let cc ← p.cc.bind fun cores => cores.mapM newCommitCertificateCoreFromProto
  let ctxsProof ← p.ctxsProof.mapM newOutputTxsProofFromProto
  pure
    { hashPointer := header.hashPointer, chainID := header.chainID, view := header.view
      round := header.round, time := header.time, prepareRoot := header.prepareRoot
      outputTxsRoot := header.outputTxsRoot, lastAggSigRoot := header.lastAggSigRoot
      commitIntentionRoot := header.commitIntentionRoot
      commitCertificateRoot := header.commitCertificateRoot
      commitTxsListRoot := header.commitTxsRoot, stateRoot := header.stateRoot
      ptxs := newTxsFromProto p.prepareTxs, crossShardTxs := newTxsFromProto p.crossShardTxs
      opt := p.opt, aggSigVote, ci, cc, ctxs := p.ctxs, ctxsProof }

/-- Urd blocks for the code that splits and reassembles them. Bytes on which `NewBlockFromProto`
panics count as bytes that do not decode. -/
def blockLib (lib : Lib) : BlockLib Block where
  sum := lib.sum
  codec :=
    { marshal := fun b => lib.block.marshal (b.toProto lib)
      unmarshal := fun bz => (lib.block.unmarshal bz).bind newBlockFromProto }
  blockHash := Block.hash lib
  blockChainID b := b.chainID
  blockHeight b := b.view
  validateBasic b :=
    match b.validateBasic lib with
    | .ok () => some true
    | .error .panic => none
    | .error _ => some false

/-! ## Filled headers -/

@[simp] theorem fillIn_nil (new : Bytes) : fillIn [] new = new := rfl

@[simp] theorem fillIn_to_nil (root : Bytes) : fillIn root [] = root := by
  cases root <;> rfl

@[simp] theorem fillIn_fillIn (root new : Bytes) : fillIn (fillIn root new) new = fillIn root new := by
  cases root with
  | nil => cases new <;> rfl
  | cons a root => rfl

section

variable {lib : Lib} {b : Block}

theorem Block.fillInHeader_fillInHeader (lib : Lib) (b : Block) :
    (b.fillInHeader lib).fillInHeader lib = b.fillInHeader lib := by
  simp only [Block.fillInHeader, Block.commitTxsListHash, fillIn_fillIn]

theorem Block.hash_eq (lib : Lib) (b : Block) :
    b.hash lib = hashFromByteSlices lib.sum ((b.fillInHeader lib).leaves lib) := root_proofs _

/-- The votes in a block name their signers by a well-formed bit vector. -/
structure Block.WellFormed (b : Block) : Prop where
  aggSigVote : ∀ v ∈ b.aggSigVote, v.signerIndexer.WellFormed
  ci : ∀ ci ∈ b.ci, ∀ v ∈ ci.aggregatedSignatures, v.signerIndexer.WellFormed

/-- What is left of a block after `ToProto` and `NewBlockFromProto`: its header is filled in, the
cross-shard root is gone, and empty transaction lists are `nil`. -/
def Block.onWire (lib : Lib) (b : Block) : Block :=
  { b.fillInHeader lib with
    crossShardRoot := []
    ptxs := newTxsFromProto (some (b.ptxs.getD []))
    crossShardTxs := newTxsFromProto (some (b.crossShardTxs.getD [])) }

/-- Reading back a list of parts that each read back. -/
theorem mapM_map_eq_some {α β : Type} {f : α → β} {g : β → Option α} {l : List α}
    (h : ∀ a ∈ l, g (f a) = some a) : (l.map f).mapM g = some l := by
  rw [mapM_eq_some_iff, List.forall₂_map_left_iff, List.forall₂_same]
  exact h

theorem mapM_option_map_eq_some {α β : Type} {f : α → β} {g : β → Option α} {o : Option α}
    (h : ∀ a ∈ o, g (f a) = some a) : (o.map f).mapM g = some o := by
  cases o with
  | none => rfl
  | some a => simp [h a rfl]

theorem newOutputTxsProofFromProto_toProto (p : OutputTxsProof) :
    newOutputTxsProofFromProto p.toProto = some p := rfl

theorem newProofOfIntentionFromProto_toProto (p : ProofOfIntention) :
    newProofOfIntentionFromProto p.toProto = some p := rfl

theorem newCommitIntentionFromProto_toProto {ci : CommitIntention}
    (h : ∀ v ∈ ci.aggregatedSignatures, v.signerIndexer.WellFormed) :
    newCommitIntentionFromProto ci.toProto = some ci := by
  unfold newCommitIntentionFromProto CommitIntention.toProto
  rw [mapM_map_eq_some fun v hv => newAggregatedVoteFromProto_toProto (h v hv)]
  rfl

theorem getD_newTxsFromProto (txs : Txs) : (newTxsFromProto (some txs)).getD [] = txs := by
  cases txs with
  | nil => rfl
  | cons tx txs => rfl

theorem newCrossShardMessageFromBytes_protoBytes (hcsm : lib.csm.RoundTrips id)
    {csm : CrossShardMessage} (h : csm.aggVote.signerIndexer.WellFormed) :
    newCrossShardMessageFromBytes lib (csm.protoBytes lib) = some csm := by
  unfold newCrossShardMessageFromBytes CrossShardMessage.protoBytes newCrossShardMessageFromProto
  rw [hcsm, Option.bind_some]
  simp only [id, CrossShardMessage.toProto, Option.bind_some, newAggregatedVoteFromProto_toProto h,
    mapM_option_map_eq_some fun p _ => newProofOfIntentionFromProto_toProto p,
    mapM_option_map_eq_some fun p _ => newOutputTxsProofFromProto_toProto p,
    getD_newTxsFromProto]
  rfl

theorem newBlockFromProto_toProto (h : b.WellFormed) :
    newBlockFromProto (b.toProto lib) = some (b.onWire lib) := by
  have hvote := mapM_option_map_eq_some fun v hv =>
    newAggregatedVoteFromProto_toProto (h.aggSigVote v hv)
  have hci := mapM_option_map_eq_some fun ci hci => newCommitIntentionFromProto_toProto (h.ci ci hci)
  have hcc : (b.cc.map (·.toProto)).mapM newCommitCertificateCoreFromProto = some b.cc :=
    mapM_map_eq_some fun core _ => rfl
  have hproofs : (b.ctxsProof.map (·.toProto)).mapM newOutputTxsProofFromProto =
      some b.ctxsProof := mapM_map_eq_some fun p _ => newOutputTxsProofFromProto_toProto p
  unfold newBlockFromProto
  simp only [Block.toProto, Block.fillInHeader, Option.bind_eq_bind, Option.bind_some, hvote, hci,
    hcc, hproofs]
  rfl

theorem fillIn_ptxs (lib : Lib) (root : Bytes) (txs : Option Txs) :
    fillIn (fillIn root ((txs.map (txsHash lib)).getD []))
      (((newTxsFromProto (some (txs.getD []))).map (txsHash lib)).getD []) =
        fillIn root ((txs.map (txsHash lib)).getD []) := by
  match txs with
  | none => exact fillIn_to_nil _
  | some [] => exact fillIn_to_nil _
  | some (_ :: _) => exact fillIn_fillIn _ _

theorem Block.leaves_onWire (lib : Lib) (b : Block) :
    ((b.onWire lib).fillInHeader lib).leaves lib = (b.fillInHeader lib).leaves lib := by
  simp only [Block.leaves, Block.packageHash, Block.onWire, Block.fillInHeader,
    Block.commitTxsListHash, fillIn_fillIn, fillIn_ptxs]

theorem Block.hash_onWire (lib : Lib) (b : Block) : (b.onWire lib).hash lib = b.hash lib := by
  rw [Block.hash_eq, Block.hash_eq, Block.leaves_onWire]

/-! ## Proofs from a block -/

theorem Block.exists_proofOfIndex (lib : Lib) (b : Block) {i : ℕ} (hi : i < 7) :
    ∃ p, b.proofOfIndex lib i = some p := by
  have hlen : i < (b.calBlockHashAndProof lib).2.length := by
    rw [Block.calBlockHashAndProof, length_proofs]
    exact hi
  exact ⟨_, List.getElem?_eq_getElem hlen⟩

theorem Block.verify_proofOfIndex {i : ℕ} {p : Merkle.Proof} {item : Bytes}
    (hp : b.proofOfIndex lib i = some p)
    (hitem : ((b.fillInHeader lib).leaves lib)[i]? = some item) :
    p.verify lib.sum (b.hash lib) item = true := by
  rw [Block.hash_eq]
  exact verify_proofs hp hitem

theorem Block.exists_getOutputTxsProofOf (lib : Lib) (b : Block) {index : ℕ}
    (h : index < b.opt.length) : ∃ p, b.getOutputTxsProofOf lib index = some p := by
  obtain ⟨p, hp⟩ := b.exists_proofOfIndex lib (i := 3) (by decide)
  have hlen : index < (proofsFromByteSlices lib.sum b.opt).2.length := by rwa [length_proofs]
  refine ⟨{ blockProof := p, oPTProof := (proofsFromByteSlices lib.sum b.opt).2[index] }, ?_⟩
  unfold Block.getOutputTxsProofOf Block.getOutputTxsProof
  rw [hp, List.getElem?_eq_getElem hlen]
  rfl

/-- The proof a block gives for one of its relay lists verifies against the hash of the block. -/
theorem Block.verify_getOutputTxsProofOf {index : ℕ} {p : OutputTxsProof} {txs : Txs}
    (hroot : (b.fillInHeader lib).outputTxsRoot = hashFromByteSlices lib.sum b.opt)
    (hp : b.getOutputTxsProofOf lib index = some p) (htxs : b.opt[index]? = some (txsHash lib txs)) :
    p.verify lib (b.hash lib) txs = true := by
  obtain ⟨blockProof, hblock, h₁⟩ := Option.bind_eq_some_iff.mp hp
  obtain ⟨oPTProof, hopt, h₂⟩ := Option.bind_eq_some_iff.mp h₁
  obtain rfl := Option.some.inj h₂
  have hcomp := (computeRootHash_proofs hopt).2.2.2
  unfold OutputTxsProof.verify
  rw [hcomp, Option.getD_some, Bool.and_eq_true]
  refine ⟨verify_proofs hopt htxs, Block.verify_proofOfIndex hblock ?_⟩
  rw [← hroot]
  rfl

/-- The proof a block gives for its commit intention verifies against the hash of the block. -/
theorem Block.verify_proofOfIntention {ci : CommitIntention} {p : Merkle.Proof}
    (hroot : (b.fillInHeader lib).commitIntentionRoot = ci.hash lib)
    (hp : b.getCommitIntentionProof lib = some p) :
    ProofOfIntention.verify lib { intentionHashProof := p, rightHash := ci.rrightHash lib }
      (b.hash lib) (briefHash lib ci.getBrief) = true := by
  refine Block.verify_proofOfIndex hp ?_
  show some (b.fillInHeader lib).commitIntentionRoot = _
  rw [hroot]
  rfl

end

end Emulator.Urd
