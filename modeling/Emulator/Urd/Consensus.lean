import Emulator.Lib.Action
import Emulator.Urd.Types

/-!
# The consensus state of an Urd node

The leader of a shard proposes a block for every view. Once its validators have voted for it, the
leader sends the vote, with proofs about the block before, to the leaders of the other shards, and
it enters the next view when it has the message for the current view from every shard. A validator
reassembles the block of its view from the parts, checks it, votes and enters the next view.

`handle_state_transition` calls itself until it has nothing to do. Here it is one round, and the
result says whether the call goes on. The clock, the transactions the mempools give out and the
order in which `redo_CrossShardMessage` goes through a map are an `Input` of every call. Writing to
the store, signing, sleeping and the mempools' bookkeeping do not fail, and logging and byte
counters are left out.
-/

namespace Emulator.Urd

open Emulator.Action HotStuff

/-- Why a method of a node returns early. -/
inductive Fault
  /-- a panic, which ends the process -/
  | panic
  /-- "ChainID mismatch: expected %s, got %s" -/
  | chainIDMismatch
  /-- "Invalid signature for proposal from validator %d" -/
  | invalidSignature
  /-- an error of `ValidateBasic` -/
  | invalid
  /-- "PartSet is old", "PartSetHeader is old" or "Part is old" -/
  | old
  /-- "PartSet already exists for view %d and round %d" -/
  | partSetExists
  /-- "PartSet not exists for view %d and round %d" -/
  | partSetMissing
  | part (e : PartError)
  | genBlock (e : GenBlockError)
  | vote (e : VoteError)
  /-- "shard does not exists" -/
  | shardMissing
  /-- "duplicated CrossShardMessage" -/
  | duplicatedMessage
  /-- a message that does not unmarshal -/
  | decode
  /-- an error of `GetMaj23` -/
  | noMaj23
  deriving DecidableEq, Repr

/-- Run an action whose errors are only printed; a panic is not an error. -/
def ignoring {σ : Type} (x : Action Fault σ Unit) : Action Fault σ Unit := do
  match ← attempt x with
  | .error .panic => throw .panic
  | _ => pure ()

/-! ## `BlockData` -/

/-- `BlockData`. The maps from chain ids have the shards as keys. -/
structure BlockData where
  retainView : ℤ
  retainRound : ℤ
  blocks : ℤ → ℤ → Option PartSet
  retainBlockParts : ℤ → ℤ → List Part
  lastHash : Str → Bytes
  finished : Str → Option CrossShardMessage
  j1finished : Str → Option CrossShardMessage
  jCrossShardTxs : List Txs
  j1CrossShardTxs : List Txs
  j2CrossShardTxs : List Txs

/-- `NewBlockData`, with the empty maps `NewState` gives it. -/
def newBlockData (view round : ℤ) : BlockData where
  retainView := view
  retainRound := round
  blocks _ _ := none
  retainBlockParts _ _ := []
  lastHash _ := []
  finished _ := none
  j1finished _ := none
  jCrossShardTxs := []
  j1CrossShardTxs := []
  j2CrossShardTxs := []

namespace BlockData

def old (bd : BlockData) (v r : ℤ) : Bool :=
  v < bd.retainView || (v == bd.retainView && r < bd.retainRound)

/-- `bd.blocks[v][r] = ps`. -/
def setPartSet (bd : BlockData) (v r : ℤ) (ps : PartSet) : BlockData :=
  { bd with blocks := Function.update bd.blocks v (Function.update (bd.blocks v) r (some ps)) }

def appendPart (bd : BlockData) (p : Part) : BlockData :=
  if bd.old p.height p.round then bd
  else
    { bd with
      retainBlockParts := Function.update bd.retainBlockParts p.height
        (Function.update (bd.retainBlockParts p.height) p.round
          (bd.retainBlockParts p.height p.round ++ [p])) }

def addPart (lib : Lib) (p : Part) : Action Fault BlockData Unit := do
  let bd ← get
  require (!bd.old p.height p.round) .old
  match bd.blocks p.height p.round with
  | none =>
    modify (·.appendPart p)
    throw .partSetMissing
  | some ps =>
    match ps.addPart (blockLib lib) p with
    | .error .panic => throw .panic
    | .error e => throw (.part e)
    | .ok ps => modify (·.setPartSet p.height p.round ps)

def addPartSetHeader (lib : Lib) (header : PartSetHeader) (headerHash : Bytes) :
    Action Fault BlockData Unit := do
  let bd ← get
  require (!bd.old header.height header.round) .old
  require (bd.blocks header.height header.round).isNone .partSetExists
  modify (·.setPartSet header.height header.round (newPartSet header headerHash))
  -- the parts that arrived in advance
  forEach (fun p => ignoring (addPart lib p)) (bd.retainBlockParts header.height header.round)

def addPartSet (parts : PartSet) : Action Fault BlockData Unit := do
  let bd ← get
  require (!bd.old parts.header.height parts.header.round) .old
  require (bd.blocks parts.header.height parts.header.round).isNone .partSetExists
  modify (·.setPartSet parts.header.height parts.header.round parts)

def addBlock (lib : Lib) (block : Block) (size : ℕ) (round : ℤ) : Action Fault BlockData Unit :=
  addPartSet (partSetFromBlock (blockLib lib) block size round)

/-- `isCrossShardMessageComplete`: as both maps have shards as keys, they have the same length when
every shard has an entry. -/
def isCrossShardMessageComplete (shardIDList : List Str) (bd : BlockData) : Bool :=
  shardIDList.all fun id => (bd.finished id).isSome

def isComplete (bd : BlockData) (view round : ℤ) : Bool := (bd.blocks view round).any (·.isComplete)

def getBlock (lib : Lib) (bd : BlockData) (view round : ℤ) : Except Fault Block :=
  match (bd.blocks view round).filter (·.isComplete) with
  | none => .error .partSetMissing
  | some ps =>
    match ps.genBlock (blockLib lib) with
    | .error .panic => .error .panic
    | .error e => .error (.genBlock e)
    | .ok block => .ok block

/-- `next`, with the `prune` it starts with. -/
def next (bd : BlockData) (view round : ℤ) : BlockData :=
  let keep (v r : ℤ) : Bool := view < v || (v == view && round ≤ r)
  { bd with
    blocks := fun v r => if keep v r then bd.blocks v r else none
    retainBlockParts := fun v r => if keep v r then bd.retainBlockParts v r else []
    j1finished := bd.finished
    finished := fun _ => none
    j2CrossShardTxs := bd.j1CrossShardTxs
    j1CrossShardTxs := bd.jCrossShardTxs
    jCrossShardTxs := []
    retainView := view
    retainRound := round }

def extendHash (bd : BlockData) (msg : CrossShardMessage) : BlockData :=
  { bd with
    finished := Function.update bd.finished msg.sourceChain (some msg)
    lastHash := Function.update bd.lastHash msg.sourceChain msg.aggVote.forHash }

end BlockData

/-! ## Nodes -/

/-- The constants `STEP_*`; `init` is the empty string of a node that has not started. -/
inductive Step
  | init
  | validatorWait
  | leaderVote
  | leaderWait
  deriving DecidableEq, Repr

structure Shard where
  peerList : List Peer
  leaderIndex : ℕ
  deriving DecidableEq, Repr

/-- The shards, and what their nodes take from outside. `α` is the state of the application. -/
structure Network (α : Type) where
  lib : Lib
  bls : Bls
  shardIDList : List Str
  shards : Str → Shard
  /-- `Signer.SignType` of a validator of a shard -/
  sign : Str → ℕ → Bytes → Str
  /-- `ABCIConn.Execution` of a shard: the relay lists `OPTxs` -/
  execution : Str → α → Txs → Txs → List Txs → List Txs × α
  enablePipelineFlag : Str → Bool

/-- The index of the leader of a shard. -/
def leaderOf {α : Type} (P : Network α) (i : Str) : ℕ := (P.shards i).leaderIndex

/-- An execution, as `commit_and_execution_j_2` does it for a new block: the block that is
executed, the application before and the relay lists. -/
structure Executed (α : Type) where
  executed : Option Block
  app : α
  opTxs : List Txs

/-- A block that a leader has made, with the execution before it. -/
structure Made (α : Type) extends Executed α where
  block : Block

/-- What a node has done so far: the blocks it proposed, the messages it sent to each shard, the
votes it signed, the blocks it appended to its pool and those it had executed. -/
structure Log (α : Type) where
  made : List (Made α)
  talks : List (List CrossShardMessage)
  votes : List Vote
  appended : List Block
  executed : List Block

def newLog {α : Type} : Log α := ⟨[], [], [], [], []⟩

/-- `State`, with the `hotstuff.State` in it. -/
structure State (α : Type) where
  view : ℕ
  round : ℤ
  heightDatas : Option HeightDataPackage
  step : Step
  blockData : BlockData
  blockPool : List Block
  store : Bytes → Option Bytes
  app : α
  /-- a call of `handle_state_transition` goes on, under the lock of the state -/
  handling : Bool
  log : Log α

def newState {α : Type} (app : α) : State α where
  view := 0
  round := 0
  heightDatas := none
  step := .init
  blockData := newBlockData 0 0
  blockPool := []
  store _ := none
  app := app
  handling := false
  log := newLog

/-- What a call finds outside the node. -/
structure Input where
  now : Timestamp
  txs : Txs
  crossShardTxs : Txs
  order : List Str
  deriving DecidableEq, Repr

/-- The messages between nodes. -/
inductive Message
  | part (p : Part)
  | proposal (p : Proposal)
  | crossShardMessage (m : CrossShardMessage)
  | vote (v : Vote)
  deriving DecidableEq, Repr

/-- The `ValidateBasic` methods. -/
def Message.validateBasic (lib : Lib) : Message → Bool
  | .part p => p.validateBasic
  | .proposal p =>
    0 ≤ p.proposerIndex && p.blockHeaderHash.length == Merkle.hashSize && p.header.validateBasic
  | .crossShardMessage m => m.validateBasic lib
  | .vote v =>
    (v.code == codeTypeOK || v.code == codeTypeReject) && 0 ≤ v.validatorIndex && 0 ≤ v.round &&
      0 ≤ v.view

/-- The key of a stored message, `fmt.Sprintf("%s:%s", shard, hash)`. -/
def storeKey (shard : Str) (hash : Bytes) : Bytes := shard ++ 58 :: hash

namespace State

variable {α : Type} (s : State α)

/-- `fetch_block`; `none` is `nil`. -/
def fetchBlock (preIndex : ℕ) : Option Block :=
  if preIndex > s.blockPool.length then none else s.blockPool[s.blockPool.length - preIndex]?

def appendBlock (block : Block) : State α :=
  { s with
    blockPool :=
      if s.blockPool.length = 7 then s.blockPool.drop 1 ++ [block] else s.blockPool ++ [block]
    log := { s.log with appended := s.log.appended ++ [block] } }

end State

/-- What `verify_block` returns. -/
inductive VerifyError
  /-- a `nil` vote or commit intention -/
  | panic
  /-- "error: hash of j-2 block header does not comsistent" -/
  | j2Hash
  /-- "error: hash of j-1 block header does not comsistent" -/
  | j1Hash
  /-- "error: not enough intention hash" -/
  | intentionHash
  /-- "error: not enough commitment certificate core" -/
  | certificate
  deriving DecidableEq, Repr

section

variable {α : Type} (P : Network α) (me : Str)

def verifier : Verifier := newVerifier (P.shards me).peerList

def verifyBlock (s : State α) (block : Block) : Except VerifyError Unit :=
  if block.view < 5 then .ok ()
  else
    match block.aggSigVote with
    | none => .error .panic
    | some aggSig =>
      if hashOf P.lib (s.fetchBlock 2) ≠ getLastHashOfAggVote aggSig then .error .j2Hash
      else if hashOf P.lib (s.fetchBlock 1) ≠ aggSig.forHash then .error .j1Hash
      else
        match block.ci with
        | none => .error .panic
        | some ci =>
          if ci.intentionHash.length ≠ P.shardIDList.length then .error .intentionHash
          else if block.cc.length ≠ P.shardIDList.length then .error .certificate
          else .ok ()

def generateVoteForBlock (index : ℕ) (block : Block) (lastHash : Bytes) (ok : Bool) : Vote :=
  let vote := newVote block.view block.round (block.hash P.lib) [] index
  let vote := if ok then vote.setOK else vote.setReject
  let vote := setLastHashOfVote vote lastHash
  { vote with sign := P.sign me index (vote.signBytes P.lib.vote) }

/-- The entry of the certificate for one message, which dereferences its proof. -/
def certificateCore (csm : CrossShardMessage) : Option CommitCertificateCore :=
  csm.proofOfIntention.map fun proof =>
    { hash := csm.getLastHash, mKProof := proof, intentionBrief := csm.intentionBrief }

/-- A part of a new block that is there once the pool has `n` blocks. -/
def fromPool {β : Type} (s : State α) (n : ℕ) (part : Option β) (empty : β) : Option β :=
  if n ≤ s.blockPool.length then part else some empty

/-- `make_block`, after the view has been entered. A missing message and a missing proof panic
(`none`): the first when it is read, the second when the block is hashed. -/
def makeBlock (s : State α) (inp : Input) (opTxs : List Txs) : Option Block := do
  let reaps := P.enablePipelineFlag me || s.view % 6 == 0
  let aggSigVote ← fromPool s 1 ((s.blockData.j1finished me).map fun csm => some csm.aggVote) none
  let csms ← fromPool s 2 (P.shardIDList.mapM s.blockData.j1finished) []
  let ci ← fromPool s 2 (some (some
    { intentionHash := csms.map CrossShardMessage.getLastHash
      aggregatedSignatures := csms.map CrossShardMessage.aggVote })) none
  let cc ← fromPool s 4 (csms.mapM certificateCore) []
  let ctxs ← fromPool s 4 (some (csms.map CrossShardMessage.oPTXs)) []
  let ctxsProof ← fromPool s 4 (csms.mapM CrossShardMessage.outputTxsProof) []
  let block : Block :=
    { hashPointer := hashOf P.lib (s.fetchBlock 1), chainID := me, view := s.view, round := s.round
      time := inp.now, ptxs := if reaps then some inp.txs else none
      crossShardTxs := if reaps then some inp.crossShardTxs else none
      opt := opTxs.map (txsHash P.lib), aggSigVote, ci, cc, ctxs, ctxsProof }
  pure (block.fillInHeader P.lib)

/-- The message of `CrossShardCommunicate` to the shard with the given index. -/
def messageFor (s : State α) (sig : AggregatedVote) (index : ℕ) : Option CrossShardMessage :=
  if 4 ≤ s.blockPool.length then do
    let blockJ2 ← s.fetchBlock 2
    let ci ← blockJ2.ci
    let intentionHashProof ← blockJ2.getCommitIntentionProof P.lib
    let txs ← s.blockData.j2CrossShardTxs[index]?
    let proof ← blockJ2.getOutputTxsProofOf P.lib index
    pure
      { sourceChain := me, aggVote := sig, intentionBrief := ci.getBrief
        proofOfIntention := some { intentionHashProof, rightHash := ci.rrightHash P.lib }
        oPTXs := txs, outputTxsProof := some proof }
  else some { sourceChain := me, aggVote := sig }

end

/-! ## Methods of a node -/

abbrev Act (α : Type) := Action Fault (State α)

/-- A method of the node's `BlockData`. -/
def onBlockData {α β : Type} (x : Action Fault BlockData β) : Act α β := fun s =>
  ((x s.blockData).1, { s with blockData := (x s.blockData).2 })

section

variable {α : Type} (P : Network α) (me : Str) (index : ℕ)

def isProposer : Bool := leaderOf P me == index

/-- `HotStuffState.IsQuorum`, on a package that may be `nil`. -/
def checkQuorum : Act α Bool := do
  let s ← get
  let hdp ← orThrow s.heightDatas .panic
  pure (isQuorum hdp)

/-- `HotStuffState.AddVote`. -/
def countVote (vote : Vote) : Act α Unit := do
  let s ← get
  let hdp ← orThrow s.heightDatas .panic
  match addVote P.bls P.lib.vote hdp vote with
  | .error .indexPanic => throw .panic
  | .error e => throw (.vote e)
  | .ok hdp => modify fun s => { s with heightDatas := some hdp }

/-- `HotStuffState.GetMaj23`. -/
def aggregateVotes : Act α AggregatedVote := do
  let s ← get
  let hdp ← orThrow s.heightDatas .panic
  match getMaj23 P.bls hdp with
  | none => throw .noMaj23
  | some (vote, hdp) =>
    modify fun s => { s with heightDatas := some hdp }
    pure vote

def setHash (hash : Bytes) : Act α Unit :=
  modify fun s =>
    let peers := (P.shards me).peerList
    let hdp := s.heightDatas.getD
      (newHeightDataPackage (newVerifier peers) (perVotes peers) s.view s.round)
    { s with heightDatas := some { hdp with proposalHash := hash } }

def enterNextView : Act α Unit :=
  modify fun s =>
    let peers := (P.shards me).peerList
    { s with
      blockData := s.blockData.next (s.view + 1) 0
      view := s.view + 1
      round := 0
      heightDatas := some
        (newHeightDataPackage (newVerifier peers) (perVotes peers) (s.view + 1) 0) }

def commitAndExecutionJ2 : Act α (Executed α) := fun s =>
  match s.fetchBlock 2 with
  | none => (.ok { executed := none, app := s.app, opTxs := [] }, s)
  | some block =>
    let r := P.execution me s.app (block.ptxs.getD []) (block.crossShardTxs.getD []) block.ctxs
    (.ok { executed := some block, app := s.app, opTxs := r.1 },
      { s with app := r.2, log := { s.log with executed := s.log.executed ++ [block] } })

/-- The vote of the node, which it has signed. -/
def logVote (vote : Vote) : Act α Unit :=
  modify fun s => { s with log := { s.log with votes := s.log.votes ++ [vote] } }

/-- `doPropose`. The proposal and the parts of the block go to the shard's validators. -/
def doPropose (inp : Input) : Act α Unit := do
  let ex ← commitAndExecutionJ2 P me
  enterNextView P me
  let s ← get
  let block ← orThrow (makeBlock P me s inp ex.opTxs) .panic
  modify fun s => { s with blockData := { s.blockData with j1CrossShardTxs := ex.opTxs } }
  onBlockData (BlockData.addBlock P.lib block 40960 s.round)
  setHash P me (block.hash P.lib)
  modify fun s => { s with log := { s.log with made := s.log.made ++ [{ ex with block }] } }
  let vote := generateVoteForBlock P me index block block.hashPointer true
  logVote vote
  countVote P vote
  modify (·.appendBlock block)

def extendHash (msg : CrossShardMessage) : Act α Unit :=
  modify fun s => { s with blockData := s.blockData.extendHash msg }

/-- One turn of the loop of `redo_CrossShardMessage`. -/
def redoShard (shard : Str) : Act α Unit := do
  let s ← get
  if shard = me then pure ()
  else
    match (s.store (storeKey shard (s.blockData.lastHash shard))).getD [] with
    | [] => pure ()
    | bz => do
      let csm ← orThrow (newCrossShardMessageFromBytes P.lib bz) .decode
      extendHash csm

def redoCrossShardMessage (order : List Str) : Act α Unit := forEach (redoShard P me) order

/-- `CrossShardCommunicate`. The message to the own shard is not sent but finished at once. -/
def crossShardCommunicate (inp : Input) : Act α Unit := do
  redoCrossShardMessage P me inp.order
  let sig ← aggregateVotes P
  let s ← get
  let csms ← orThrow ((List.range P.shardIDList.length).mapM (messageFor P me s sig)) .panic
  let own ← orThrow csms[P.shardIDList.idxOf me]? .panic
  extendHash own
  modify fun s => { s with log := { s.log with talks := s.log.talks ++ [csms] } }

def doValidate (block : Block) : Act α Unit := do
  let s ← get
  let blockErr := verifyBlock P s block
  require (blockErr ≠ .error .panic) .panic
  let vote := generateVoteForBlock P me index block (hashOf P.lib (s.fetchBlock 1)) blockErr.isOk
  logVote vote
  if vote.isOK then
    let _ ← commitAndExecutionJ2 P me
    enterNextView P me
    modify (·.appendBlock block)

def nextStep : Act α Step := do
  if !isProposer P me index then pure .validatorWait
  else if ← checkQuorum then pure .leaderWait
  else pure .leaderVote

/-- What a round of `handle_state_transition` does at its step; `false` when there is nothing to
do. -/
def takeStep (inp : Input) : Act α Bool := do
  let s ← get
  match s.step with
  | .init => pure true
  | .validatorWait =>
    if s.blockData.isComplete s.view s.round then
      match s.blockData.getBlock P.lib s.view s.round with
      | .error e => throw e
      | .ok block => do
        doValidate P me index block
        pure true
    else pure false
  | .leaderWait =>
    if s.blockData.isCrossShardMessageComplete P.shardIDList then
      doPropose P me index inp
      pure true
    else pure false
  | .leaderVote =>
    if ← checkQuorum then
      crossShardCommunicate P me inp
      pure true
    else pure false

/-- The view after which a leader stops. -/
def lastView : ℕ := if P.enablePipelineFlag me then 100 else 600

/-- One round of `handle_state_transition`; `true` when it calls itself. -/
def handleStateTransition (inp : Input) : Act α Bool := do
  if ← takeStep P me index inp then
    let step ← nextStep P me index
    modify fun s => { s with step }
    let s ← get
    require (!(isProposer P me index && s.view > lastView P me)) .panic
    pure true
  else pure false

/-- `doMessage` for a cross-shard message. -/
def addCrossShardMessage (msg : CrossShardMessage) : Act α Unit := do
  let s ← get
  let key := storeKey msg.sourceChain msg.getLastHash
  require (P.shardIDList.contains msg.sourceChain) .shardMissing
  require (s.store key).isNone .duplicatedMessage
  modify fun s => { s with store := Function.update s.store key (some (msg.protoBytes P.lib)) }
  if (s.blockData.finished msg.sourceChain).isNone ∧
      s.blockData.lastHash msg.sourceChain = msg.getLastHash then
    extendHash msg

/-- `doMessage` for a proposal. -/
def addProposal (p : Proposal) : Act α Unit := do
  require (p.header.chainID == me) .chainIDMismatch
  let ok ← orThrow ((verifier P me).verify P.bls p.signature
    (P.lib.proposal.marshal { p with signature := [] }) p.proposerIndex) .panic
  require ok .invalidSignature
  onBlockData (BlockData.addPartSetHeader P.lib p.header p.blockHeaderHash)

/-- The cases of `doMessage`. -/
def addMessage : Message → Act α Unit
  | .part p => do
    require (p.chainID == me) .chainIDMismatch
    onBlockData (BlockData.addPart P.lib p)
  | .proposal p => addProposal P me p
  | .crossShardMessage m => addCrossShardMessage P m
  | .vote v => countVote P v

/-- `Receive` and `doMessage` on a message that has been unmarshalled, up to the call of
`handle_state_transition`. -/
def takeMessage (msg : Message) : Act α Unit := do
  require (msg.validateBasic P.lib) .invalid
  addMessage P me msg

/-- `Receive`, on a message that has been unmarshalled. -/
def receive (msg : Message) (inp : Input) : Act α Bool := do
  takeMessage P me msg
  handleStateTransition P me index inp

/-- `takeMessage` for the bytes of a cross-shard message. -/
def takeBytes (bz : Bytes) : Act α Unit := do
  let m ← orThrow (newCrossShardMessageFromBytes P.lib bz) .decode
  takeMessage P me (.crossShardMessage m)

/-- `Start`. An error of the first proposal panics. -/
def start (inp : Input) : Act α Bool := do
  let s ← get
  if s.view = 0 then
    if isProposer P me index then
      match ← attempt (doPropose P me index inp) with
      | .error _ => throw .panic
      | .ok () => do
        modify fun s => { s with step := .leaderVote }
        pure false
    else
      enterNextView P me
      modify fun s => { s with step := .validatorWait }
      pure false
  else handleStateTransition P me index inp

end

/-- The node after a call: it goes on, it has returned, or its process has ended (`none`). -/
def settle {α : Type} (r : Except Fault Bool × State α) : Option (State α) :=
  match r.1 with
  | .error .panic => none
  | .error _ => some { r.2 with handling := false }
  | .ok again => some { r.2 with handling := again }

end Emulator.Urd
