import Emulator.Core.Parts
import Emulator.Pyramid.Types
import Emulator.Pyramid.VoteSet

/-!
# The consensus of one Pyramid shard

Each height has one round. Its proposer sends a signed proposal and the parts of its block;
everyone prevotes for the block they have reassembled, precommits for the hash that reached a
two-thirds majority of prevotes, and executes their block once some hash has reached a two-thirds
majority of precommits.

What the application and the other shards do enters in three places. `Shard.judge` is the check of
`doPropose`: the vote it gives, or the panic on a malformed block. The contents of a new block are
part of the event in which its proposer enters the height. And `Event.commit` is the moment at
which the other shards let a node leave the commit step.
-/

namespace Emulator.Pyramid

/-- The constants of `round-step.go`. -/
inductive RoundStep
  | newHeight
  | newRound
  | propose
  | prevote
  | precommit
  | commit
  deriving DecidableEq, Repr

def RoundStep.rank : RoundStep → ℕ
  | .newHeight => 1
  | .newRound => 2
  | .propose => 3
  | .prevote => 4
  | .precommit => 5
  | .commit => 6

/-! ## Messages -/

/-- What validators sign, the `SignBytes` of the three kinds of message. -/
inductive Signable
  | proposal (header : PartSetHeader) (proposerIndex : ℤ) (blockHeaderHash : Bytes)
  | prevote (code : Int8) (height round : ℤ) (blockHeaderHash : Bytes)
  | precommit (code : Int8) (height round : ℤ) (blockHeaderHash : Bytes)
  deriving DecidableEq, Repr

structure Proposal where
  header : PartSetHeader
  proposerIndex : ℤ
  blockHeaderHash : Bytes
  signature : Str
  deriving DecidableEq, Repr

def Proposal.signBytes (p : Proposal) : Signable :=
  .proposal p.header p.proposerIndex p.blockHeaderHash

/-- `Prevote.SignBytes`. -/
def Vote.prevoteBytes (v : Vote) : Signable := .prevote v.code v.height v.round v.blockHeaderHash

/-- `Precommit.SignBytes`. -/
def Vote.precommitBytes (v : Vote) : Signable :=
  .precommit v.code v.height v.round v.blockHeaderHash

/-- The messages within a shard. -/
inductive Message
  | part (p : Part)
  | proposal (p : Proposal)
  | prevote (v : Vote)
  | precommit (v : Vote)
  deriving DecidableEq, Repr

def Message.height : Message → ℤ
  | .part p => p.height
  | .proposal p => p.header.height
  | .prevote v => v.height
  | .precommit v => v.height

def Message.round : Message → ℤ
  | .part p => p.round
  | .proposal p => p.header.round
  | .prevote v => v.round
  | .precommit v => v.round

/-- The `ValidateBasic` of the messages. -/
def Message.validateBasic : Message → Bool
  | .part p => p.validateBasic
  | .proposal p =>
    0 ≤ p.proposerIndex && p.blockHeaderHash.length == Merkle.hashSize && p.header.validateBasic
  | .prevote v => v.blockHeaderHash.length == Merkle.hashSize
  | .precommit v => v.blockHeaderHash.length == Merkle.hashSize

/-! ## The shard -/

/-- A shard: its validators' weights, their signatures, and what the code takes from outside. -/
structure Shard where
  sum : Bytes → Bytes
  /-- `Block.ProtoBytes` and `NewBlockFromBytes` -/
  codec : Codec Block
  blockHash : Block → Bytes
  chainID : Str
  /-- `PeerList[chainID][i].Vote` -/
  peerVotes : List ℤ
  /-- `Verifier.Verify` with the key of a validator -/
  verify : Str → Signable → ℕ → Bool
  /-- `Signer.SignType` of a validator -/
  sign : ℕ → Signable → Str
  /-- the check of `doPropose` at a validator and height: `none` is the panic, otherwise `pvote` -/
  judge : ℕ → ℤ → Block → Option Bool
  maxPartSize : ℕ

namespace Shard

variable (P : Shard)

/-- The blocks of the shard for the code that splits and reassembles them;
`Block.ValidateBasic` accepts everything. -/
def toBlockLib : BlockLib Block where
  sum := P.sum
  codec := P.codec
  blockHash := P.blockHash
  blockChainID b := b.chainID
  blockHeight b := b.height
  validateBasic _ := some true

def size : ℕ := P.peerVotes.length

def peerVote (i : ℕ) : ℤ := (P.peerVotes[i]?).getD 0

/-- `ShardVotes` as `int32`. -/
def totalVotes : ℤ := int32 P.peerVotes.sum

def calculateProposer (height round : ℤ) : ℕ := ((height + round) % P.size).toNat

end Shard

/-! ## `HeightDataPackage` -/

/-- `HeightDataPackage`. -/
structure HeightData where
  height : ℤ
  round : ℤ
  passStep : RoundStep
  proposal : Option Proposal
  prevotes : VoteSet
  precommits : VoteSet
  partSet : Option PartSet
  block : Option Block
  randomHeaderBuffer : List Part

def newHeightData (P : Shard) : HeightData :=
  { height := 0, round := 0, passStep := .newHeight, proposal := none
    prevotes := newVoteSet P.totalVotes, precommits := newVoteSet P.totalVotes
    partSet := none, block := none, randomHeaderBuffer := [] }

namespace HeightData

variable (P : Shard)

/-- `NextHeight`. The buffer of early parts is kept. -/
def nextHeight (h : HeightData) : HeightData :=
  { newHeightData P with height := h.height + 1, randomHeaderBuffer := h.randomHeaderBuffer }

def finishProposal (h : HeightData) : Bool × HeightData :=
  if RoundStep.propose.rank ≤ h.passStep.rank then (true, h)
  else if h.proposal.isNone then (false, h)
  else if h.block.isNone || !h.partSet.any PartSet.isComplete then (false, h)
  else (true, { h with passStep := .propose })

def finishPrevote (h : HeightData) : Bool × HeightData :=
  if RoundStep.prevote.rank ≤ h.passStep.rank then (true, h)
  else if !h.finishProposal.1 then (false, h.finishProposal.2)
  else if !h.finishProposal.2.prevotes.hasMaj23 then (false, h.finishProposal.2)
  else (true, { h.finishProposal.2 with passStep := .prevote })

def finishPrecommit (h : HeightData) : Bool × HeightData :=
  if RoundStep.precommit.rank ≤ h.passStep.rank then (true, h)
  else if !h.finishPrevote.1 then (false, h.finishPrevote.2)
  else if !h.finishPrevote.2.precommits.hasMaj23 then (false, h.finishPrevote.2)
  else (true, { h.finishPrevote.2 with passStep := .precommit })

/-- `AddPart`, and whether it returns no error. -/
def addPart (h : HeightData) (p : Part) : HeightData × Bool :=
  if h.height ≠ p.height ∨ h.round ≠ p.round then (h, false)
  else if p.chainID ≠ P.chainID then (h, false)
  else
    match h.partSet with
    | none => ({ h with randomHeaderBuffer := h.randomHeaderBuffer ++ [p] }, false)
    | some ps =>
      match ps.addPart P.toBlockLib p with
      | .error _ => (h, false)
      | .ok ps' =>
        if ps'.isComplete then
          match ps'.genBlock P.toBlockLib with
          | .error _ => ({ h with partSet := some ps' }, false)
          | .ok block => ({ h with partSet := some ps', block := some block }, true)
        else ({ h with partSet := some ps' }, true)

def addProposal (h : HeightData) (p : Proposal) (index : ℕ) : HeightData × Bool :=
  if h.proposal.isSome then (h, false)
  else if h.height ≠ p.header.height ∨ h.round ≠ p.header.round then (h, false)
  else if p.proposerIndex ≠ index then (h, false)
  else if p.header.chainID ≠ P.chainID then (h, false)
  else if !P.verify p.signature p.signBytes index then (h, false)
  else
    (h.randomHeaderBuffer.foldl (fun h part => (h.addPart P part).1)
      { h with proposal := some p, partSet := some (newPartSet p.header p.blockHeaderHash) }, true)

/-- The checks that `AddPrevote` and `AddPrecommit` share, and the set with the vote. -/
def addVote (h : HeightData) (vs : VoteSet) (v : Vote) (signBytes : Signable) : Option VoteSet :=
  if h.height ≠ v.height ∨ h.round ≠ v.round then none
  else if v.validatorIndex < 0 ∨ (P.size : ℤ) ≤ v.validatorIndex then none
  else if !P.verify v.signature signBytes v.validatorIndex.toNat then none
  else vs.addVote v (P.peerVote v.validatorIndex.toNat)

def addPrevote (h : HeightData) (v : Vote) : HeightData × Bool :=
  match h.addVote P h.prevotes v v.prevoteBytes with
  | none => (h, false)
  | some vs => ({ h with prevotes := vs }, true)

def addPrecommit (h : HeightData) (v : Vote) : HeightData × Bool :=
  match h.addVote P h.precommits v v.precommitBytes with
  | none => (h, false)
  | some vs => ({ h with precommits := vs }, true)

end HeightData

/-! ## A node -/

/-- One run of `doPrecommit`: the block it executed, and the majority of its precommits. -/
structure Execution where
  height : ℤ
  block : Block
  maj23 : Option (Bytes × Bool)
  deriving DecidableEq, Repr

/-- `ConsensusState`, as far as the shard's own messages reach. `replaying` has the messages kept
for the height at hand that `enterNewRound` still has to handle; `signed` and `executed` record what
the node has signed and executed. -/
structure Node where
  signerIndex : ℕ
  height : ℤ
  round : ℤ
  step : RoundStep
  heightDatas : HeightData
  relayMessageChannel : List Message
  replaying : List Message
  lastBlockHash : Bytes
  signed : List Signable
  executed : List Execution
  panicked : Bool

/-- `NewConsensusState`. -/
def newNode (P : Shard) (signerIndex : ℕ) : Node :=
  { signerIndex, height := 0, round := 0, step := .newHeight, heightDatas := newHeightData P
    relayMessageChannel := [], replaying := [], lastBlockHash := [], signed := [], executed := []
    panicked := false }

namespace Node

variable (P : Shard)

/-- `doPropose`: prevote for the hash of the reassembled block. -/
def doPropose (n : Node) : Node :=
  match n.heightDatas.block with
  | none => { n with panicked := true }
  | some block =>
    match P.judge n.signerIndex n.height block with
    | none => { n with panicked := true }
    | some pvote =>
      let vote := (newVote n.height n.round (P.blockHash block) n.signerIndex).setOK pvote
      let vote := { vote with signature := P.sign n.signerIndex vote.prevoteBytes }
      { n with
        heightDatas := (n.heightDatas.addPrevote P vote).1
        signed := n.signed ++ [vote.prevoteBytes]
        step := .prevote }

/-- `doPrevote`: precommit for the hash with the majority of prevotes. -/
def doPrevote (n : Node) : Node :=
  let maj := n.heightDatas.prevotes.getMaj23
  let vote := (newVote n.height n.round maj.1 n.signerIndex).setOK maj.2
  let vote := { vote with signature := P.sign n.signerIndex vote.precommitBytes }
  { n with
    heightDatas := (n.heightDatas.addPrecommit P vote).1
    signed := n.signed ++ [vote.precommitBytes]
    step := .precommit }

/-- `doPrecommit`: execute the reassembled block. -/
def doPrecommit (n : Node) : Node :=
  match n.heightDatas.block with
  | none => { n with panicked := true }
  | some block =>
    { n with
      executed := n.executed ++
        [{ height := n.height, block, maj23 := n.heightDatas.precommits.maj23 }]
      lastBlockHash := P.blockHash block
      step := .commit }

/-- One turn of `handleStateTransition`, and whether there is another. -/
def transition (n : Node) : Node × Bool :=
  if n.panicked then (n, false)
  else
    match n.step with
    | .propose =>
      let hd := n.heightDatas.finishProposal
      if hd.1 then (doPropose P { n with heightDatas := hd.2 }, true)
      else ({ n with heightDatas := hd.2 }, false)
    | .prevote =>
      let hd := n.heightDatas.finishPrevote
      if hd.1 then (doPrevote P { n with heightDatas := hd.2 }, true)
      else ({ n with heightDatas := hd.2 }, false)
    | .precommit =>
      let hd := n.heightDatas.finishPrecommit
      if hd.1 then (doPrecommit P { n with heightDatas := hd.2 }, true)
      else ({ n with heightDatas := hd.2 }, false)
    | _ => (n, false)

/-- `handleStateTransition` with fuel. -/
def handle : ℕ → Node → Node
  | 0, n => n
  | fuel + 1, n => if (n.transition P).2 then handle fuel (n.transition P).1 else (n.transition P).1

/-- `handleStateTransition`, up to the commit step: three turns lead from the first step to it, and
a fourth finds the node blocked. -/
def handleStateTransition (n : Node) : Node := handle P 4 n

/-- `addRelayMessageIfOverTime`. The first message for a height is kept, but not reported as
such. -/
def addRelayMessageIfOverTime (n : Node) (m : Message) : Node × Bool :=
  if n.height < m.height ∨ n.height = m.height ∧ n.round < m.round then
    ({ n with relayMessageChannel := n.relayMessageChannel ++ [m] },
      n.relayMessageChannel.any fun m' => m'.height = m.height)
  else (n, false)

/-- The part of `doMessage` that depends on the kind of message. -/
def addMessage (n : Node) : Message → HeightData × Bool
  | .part p => n.heightDatas.addPart P p
  | .proposal p => n.heightDatas.addProposal P p (P.calculateProposer n.height n.round)
  | .prevote v => n.heightDatas.addPrevote P v
  | .precommit v => n.heightDatas.addPrecommit P v

def doMessage (n : Node) (m : Message) : Node :=
  let relayed := n.addRelayMessageIfOverTime m
  if relayed.2 then relayed.1
  else
    let added := relayed.1.addMessage P m
    let n' := { relayed.1 with heightDatas := added.1 }
    if added.2 then n'.handleStateTransition P else n'

def isProposer (n : Node) : Bool := P.calculateProposer n.height n.round == n.signerIndex

/-- The block that `createBlockAndBroadcast` makes of the contents `body`. -/
def createBlock (n : Node) (body : Block) : Block :=
  { body with chainID := P.chainID, height := n.height, hashPointer := n.lastBlockHash }

def createBlockAndBroadcast (n : Node) (body : Block) : Node :=
  let block := n.createBlock P body
  let partSet := partSetFromBlock P.toBlockLib block P.maxPartSize n.round
  let proposal : Proposal :=
    { header := partSet.header, proposerIndex := n.signerIndex
      blockHeaderHash := partSet.blockHeaderHash, signature := [] }
  { n with
    heightDatas :=
      { n.heightDatas with
        block := some block
        partSet := some partSet
        proposal := some { proposal with signature := P.sign n.signerIndex proposal.signBytes } }
    signed := n.signed ++ [proposal.signBytes] }

/-- `enterNewHeight` up to the new round. -/
def nextHeight (n : Node) : Node :=
  { n with
    relayMessageChannel := n.relayMessageChannel.filter fun m => m.height ≠ n.height
    height := n.height + 1
    round := 0
    step := .propose
    heightDatas := n.heightDatas.nextHeight P }

/-- `enterNewHeight`, where a proposer makes a block of the contents `body`. -/
def enterNewHeight (n : Node) (body : Block) : Node :=
  let n := n.nextHeight P
  let n := if n.isProposer P then n.createBlockAndBroadcast P body else n
  { n with
    replaying := n.relayMessageChannel.filter fun m => m.height = n.height ∧ m.round = n.round }

end Node

/-! ## The shard's nodes -/

inductive NodeEvent
  /-- `Start` -/
  | start (i : ℕ) (body : Block)
  /-- `Receive` -/
  | receive (i : ℕ) (m : Message)
  /-- the next kept message in `enterNewRound` -/
  | replay (i : ℕ)
  /-- `doCommit` -/
  | commit (i : ℕ) (body : Block)

/-- One event at the nodes; `none` if it cannot happen. -/
def nodeStep (P : Shard) (s : ℕ → Node) : NodeEvent → Option (ℕ → Node)
  | .start i body =>
    if (s i).height = 0 then some (Function.update s i ((s i).enterNewHeight P body)) else none
  | .receive i m =>
    if (s i).panicked then none
    else if m.validateBasic then some (Function.update s i ((s i).doMessage P m))
    else some s
  | .replay i =>
    match (s i).replaying with
    | [] => none
    | m :: ms =>
      if (s i).panicked then none
      else some (Function.update s i (Node.doMessage P { s i with replaying := ms } m))
  | .commit i body =>
    if (s i).step = .commit ∧ (s i).panicked = false then
      some (Function.update s i ((s i).enterNewHeight P body))
    else none

def newNodes (P : Shard) : ℕ → Node := newNode P

/-! ## The loop ends -/

section

variable {h : HeightData} {k : ℕ}

theorem rank_finishProposal (hk : RoundStep.propose.rank < k) (hlt : h.passStep.rank < k) :
    h.finishProposal.2.passStep.rank < k := by
  unfold HeightData.finishProposal
  split_ifs <;> assumption

theorem rank_finishPrevote (hk : RoundStep.prevote.rank < k) (hlt : h.passStep.rank < k) :
    h.finishPrevote.2.passStep.rank < k := by
  have hprop := rank_finishProposal (lt_trans (by decide) hk) hlt
  unfold HeightData.finishPrevote
  split_ifs <;> assumption

variable (h)

theorem finishProposal_again : h.finishProposal.2.finishProposal = h.finishProposal := by
  unfold HeightData.finishProposal
  split_ifs <;> simp_all

theorem finishPrevote_again : h.finishPrevote.2.finishPrevote = h.finishPrevote := by
  have hagain := finishProposal_again h
  have hrank := @rank_finishProposal h _ (show _ < RoundStep.prevote.rank by decide)
  unfold HeightData.finishPrevote
  split_ifs <;> simp_all <;> omega

theorem finishPrecommit_again : h.finishPrecommit.2.finishPrecommit = h.finishPrecommit := by
  have hagain := finishPrevote_again h
  have hrank := @rank_finishPrevote h _ (show _ < RoundStep.precommit.rank by decide)
  unfold HeightData.finishPrecommit
  split_ifs <;> simp_all <;> omega

end

variable {P : Shard}

/-- A turn that finds the node blocked leaves what the next one would leave. -/
theorem Node.transition_again {n : Node} (h : (n.transition P).2 = false) :
    (n.transition P).1.transition P = ((n.transition P).1, false) := by
  have h₁ := finishProposal_again n.heightDatas
  have h₂ := finishPrevote_again n.heightDatas
  have h₃ := finishPrecommit_again n.heightDatas
  unfold Node.transition at h ⊢
  cases hs : n.step <;> simp only [hs] at h ⊢ <;> split_ifs at h ⊢ <;> simp_all

/-- The turns of the loop that are left. -/
def RoundStep.turns : RoundStep → ℕ
  | .propose => 3
  | .prevote => 2
  | .precommit => 1
  | _ => 0

def Node.turns (n : Node) : ℕ := if n.panicked then 0 else n.step.turns

theorem Node.turns_le (n : Node) : n.turns ≤ n.step.turns := by
  unfold turns
  split_ifs
  · exact Nat.zero_le _
  · exact le_rfl

theorem Node.turns_doPropose (n : Node) : (n.doPropose P).turns ≤ 2 := by
  unfold Node.doPropose
  split
  · exact Nat.zero_le 2
  · split
    · exact Nat.zero_le 2
    · exact turns_le _

theorem Node.turns_doPrecommit (n : Node) : (n.doPrecommit P).turns ≤ 0 := by
  unfold Node.doPrecommit
  split
  · exact le_rfl
  · exact turns_le _

theorem Node.turns_transition {n : Node} (h : (n.transition P).2 = true) :
    (n.transition P).1.turns < n.turns := by
  unfold Node.transition at h ⊢
  split_ifs at h ⊢ with hpanic
  rw [turns.eq_1 n, if_neg hpanic]
  cases hs : n.step with
  | propose =>
    simp only [hs] at h ⊢
    split_ifs at h ⊢
    exact Nat.lt_succ_of_le (turns_doPropose _)
  | prevote =>
    simp only [hs] at h ⊢
    split_ifs at h ⊢
    exact Nat.lt_succ_of_le (turns_le _)
  | precommit =>
    simp only [hs] at h ⊢
    split_ifs at h ⊢
    exact Nat.lt_succ_of_le (turns_doPrecommit _)
  | newHeight | newRound | commit =>
    simp only [hs] at h
    cases h

theorem Node.handle_settles {fuel : ℕ} {n : Node} (h : n.turns < fuel) :
    (n.handle P fuel).transition P = (n.handle P fuel, false) := by
  induction fuel generalizing n with
  | zero => omega
  | succ fuel ih =>
    rw [Node.handle]
    split_ifs with hgo
    · have hlt := turns_transition hgo
      exact ih (by omega)
    · exact transition_again (by simpa using hgo)

/-- **A settled node.** The fuel is enough, and `handleStateTransition` ends with the node blocked: a
further turn would change nothing. -/
theorem Node.handleStateTransition_settles (n : Node) :
    (n.handleStateTransition P).transition P = (n.handleStateTransition P, false) :=
  handle_settles (n.turns_le.trans_lt (by cases n.step <;> decide))

end Emulator.Pyramid
