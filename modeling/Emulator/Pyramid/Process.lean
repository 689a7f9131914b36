import Emulator.Pyramid.Blocks

/-!
# Processing blocks at the I shards and at the B shard

An I shard executes its own blocks; a B shard executes its own and, to keep a replica of the I
shards it is related to, theirs. Blocks of an I shard that reach the B shard are stored by height
and processed in the order of their heights.

* `deliver_next` — a block that arrives in order is processed at once, and no other.
* `catchUp_done` — the catch-up loop has fuel enough to process every block that is there.
-/

namespace Emulator.Pyramid

open Emulator.Action Emulator.Pyramid.Minibank

/-- A B shard and the I shards it is related to, with the key range of each shard. -/
structure Network where
  bShard : Str
  iShards : List Str
  range : Str → Str → Bool
  codecs : Codecs
  /-- `Block.Hash` -/
  blockHash : Block → Bytes
  /-- `NewCrossShardBlockFromBytes`: the block of the message -/
  crossShardBlock : Bytes → Option Block
  /-- `NewMessageCommitFromBytes`: the hash and `CollectiveSignatures.IsOK()` -/
  messageCommit : Bytes → Option (Bytes × Bool)
  bShard_not_mem : bShard ∉ iShards
  disjoint : ∀ p ∈ bShard :: iShards, ∀ q ∈ bShard :: iShards, ∀ key,
    range p key = true → range q key = true → p = q

namespace Network

variable (n : Network)

/-- The application of a shard, with the key ranges of `createKeyRangeTree`. -/
def app (shard : Str) : Application where
  keyRangeTree := n.range
  allShardRangeTree key :=
    if shard = n.bShard then (n.bShard :: n.iShards).any fun p => n.range p key
    else n.range shard key
  isI := decide (shard ≠ n.bShard)
  myChainID := shard
  codecs := n.codecs
  blockHash := n.blockHash

/-- What `processIBlock` has the application of `shard` do for a block of the I shard `chainID`;
`isok` is the certificate's flag. -/
def processIBlock (shard : Str) (block : Block) (chainID : Str) (isok : Bool) :
    Act (List Receipt) :=
  match block.blockType with
  | .innerShard => executionInnerShard (n.app shard) block
  | .iAcceptBlock =>
    match block.bodyTxs.head?.bind n.crossShardBlock with
    | none => throw .panic
    | some b => acceptCrossShard (n.app shard) b chainID isok
  | .iCommitBlock =>
    match block.bodyTxs.mapM n.messageCommit with
    | none => throw .panic
    | some entries => acceptCommitShard (n.app shard) entries chainID
  | _ => throw .panic

/-- What `processBBlock` has the application do: only blocks within the shard are executed. -/
def processBBlock (block : Block) : Act (List Receipt) :=
  match block.blockType with
  | .innerShard => executionInnerShard (n.app n.bShard) block
  | .crossShard => pure [{ code := codeTypeOK, log := [] }]
  | .bCommitBlock => pure [{ code := codeTypeOK, log := [] }]
  | _ => throw .panic

/-- `doPrecommit` of an I shard: process the block and store it. -/
def precommitI (shard : Str) (block : Block) (isok : Bool) : Act (List Receipt) := do
  let receipts ← n.processIBlock shard block shard isok
  modify fun s => s.setBlock (n.blockHash block) block
  pure receipts

/-! ## The B shard's replica -/

/-- The B shard: its application, the hashes stored by height and shard, latest first, and the
height up to which the blocks of each I shard were processed. (What the application stores by
height is the entry of the block at hand, or one of a B shard.) -/
structure BNode where
  app : AppState
  heights : List ((ℤ × Str) × Bytes)
  shardHeight : Str → ℤ

def BNode.getBlockByHeight (b : BNode) (height : ℤ) (chainID : Str) : Option Block :=
  (b.heights.lookup (height, chainID)).bind b.app.blocks

def BNode.setBlockByHeight (b : BNode) (height : ℤ) (chainID : Str) (hash : Bytes) (block : Block) :
    BNode :=
  { b with
    app := b.app.setBlock hash block
    heights := ((height, chainID), hash) :: b.heights }

def BNode.nextBlock (b : BNode) (chainID : Str) : Option Block :=
  b.getBlockByHeight (b.shardHeight chainID + 1) chainID

/-- The node after the next block of a shard was processed. -/
def BNode.advance (b : BNode) (chainID : Str) (app : AppState) : BNode :=
  { b with
    app
    shardHeight := Function.update b.shardHeight chainID (b.shardHeight chainID + 1) }

/-- The loop over consecutive heights; `none` is a panic. -/
def catchUp (chainID : Str) (isok : Bool) : ℕ → BNode → Option BNode
  | 0, b => some b
  | fuel + 1, b =>
    match b.nextBlock chainID with
    | none => some b
    | some iblock =>
      match n.processIBlock n.bShard iblock chainID isok b.app with
      | (.ok _, app) => catchUp chainID isok fuel (b.advance chainID app)
      | (.error _, _) => none

/-- `doMessage` for a `CrossShardBlock` with a valid certificate. Every block is processed with the
flag of the message at hand. -/
def deliver (block : Block) (height : ℤ) (chainID : Str) (isok : Bool) (b : BNode) : Option BNode :=
  if chainID ∉ n.iShards then some b
  else if (b.app.blocks (n.blockHash block)).isSome then some b
  else
    let b' := b.setBlockByHeight height chainID (n.blockHash block) block
    n.catchUp chainID isok b'.heights.length b'

def precommitB (block : Block) (b : BNode) : Option BNode :=
  match n.processBBlock block b.app with
  | (.ok _, app) => some
    (BNode.setBlockByHeight { b with app } block.height block.chainID (n.blockHash block) block)
  | (.error _, _) => none

variable {n} {b : BNode} {chainID : Str} {block : Block}

/-! ## The loop -/

/-- The stored heights of a shard that were not processed yet. -/
def BNode.ahead (b : BNode) (chainID : Str) : List ((ℤ × Str) × Bytes) :=
  b.heights.filter fun e => decide (e.1.2 = chainID ∧ b.shardHeight chainID < e.1.1)

theorem mem_ahead_of_nextBlock (h : b.nextBlock chainID = some block) :
    ∃ hash, ((b.shardHeight chainID + 1, chainID), hash) ∈ b.ahead chainID := by
  obtain ⟨hash, hl, -⟩ := Option.bind_eq_some_iff.mp h
  obtain ⟨l₁, l₂, hl, -⟩ := List.lookup_eq_some_iff.mp hl
  exact ⟨hash, List.mem_filter.mpr ⟨by simp [hl], by simp⟩⟩

theorem ahead_lt (app : AppState) (h : b.nextBlock chainID = some block) :
    ((b.advance chainID app).ahead chainID).length < (b.ahead chainID).length := by
  obtain ⟨hash, hmem⟩ := mem_ahead_of_nextBlock h
  have hheight : (b.advance chainID app).shardHeight chainID = b.shardHeight chainID + 1 :=
    Function.update_self ..
  have hahead : (b.advance chainID app).ahead chainID =
      (b.ahead chainID).filter fun e => decide (e.1.1 ≠ b.shardHeight chainID + 1) := by
    unfold BNode.ahead
    rw [List.filter_filter, hheight]
    refine List.filter_congr fun e _ => ?_
    rw [← Bool.decide_and, decide_eq_decide]
    constructor
    · rintro ⟨he, hlt⟩
      exact ⟨by omega, he, by omega⟩
    · rintro ⟨hne, he, hlt⟩
      exact ⟨he, by omega⟩
  rw [hahead, List.length_filter_lt_length_iff_exists]
  exact ⟨_, hmem, by simp⟩

/-- With as much fuel as there are heights ahead, the loop ends where no next block is stored. -/
theorem catchUp_done {isok : Bool} {fuel : ℕ} {b' : BNode} (hfuel : (b.ahead chainID).length ≤ fuel)
    (h : n.catchUp chainID isok fuel b = some b') : b'.nextBlock chainID = none := by
  induction fuel generalizing b with
  | zero =>
    obtain rfl := Option.some.inj h
    cases hn : b.nextBlock chainID with
    | none => rfl
    | some block =>
      obtain ⟨hash, hmem⟩ := mem_ahead_of_nextBlock hn
      rw [List.length_eq_zero_iff.mp (Nat.le_zero.mp hfuel)] at hmem
      cases hmem
  | succ fuel ih =>
    rw [catchUp] at h
    cases hn : b.nextBlock chainID with
    | none =>
      rw [hn] at h
      obtain rfl := Option.some.inj h
      exact hn
    | some block =>
      simp only [hn] at h
      split at h
      · next rs app _ => exact ih (Nat.le_of_lt_succ ((ahead_lt app hn).trans_le hfuel)) h
      · cases h

/-- A block that arrives in order is processed, and nothing else is. -/
theorem deliver_next {isok : Bool} (hc : chainID ∈ n.iShards)
    (hnew : b.app.blocks (n.blockHash block) = none)
    (hnext : b.heights.lookup (b.shardHeight chainID + 1 + 1, chainID) = none) :
    n.deliver block (b.shardHeight chainID + 1) chainID isok b =
      match n.processIBlock n.bShard block chainID isok
        (b.app.setBlock (n.blockHash block) block) with
      | (.ok _, app) => some ((b.setBlockByHeight (b.shardHeight chainID + 1) chainID
        (n.blockHash block) block).advance chainID app)
      | (.error _, _) => none := by
  have hfirst : (b.setBlockByHeight (b.shardHeight chainID + 1) chainID (n.blockHash block)
      block).nextBlock chainID = some block := by
    simp [BNode.nextBlock, BNode.getBlockByHeight, BNode.setBlockByHeight, AppState.setBlock]
  rw [deliver, if_neg (not_not_intro hc), if_neg (by simp [hnew])]
  show catchUp n chainID isok (b.heights.length + 1) _ = _
  rw [catchUp, hfirst]
  show (match n.processIBlock n.bShard block chainID isok (b.app.setBlock (n.blockHash block) block)
    with | (.ok _, app) => _ | (.error _, _) => _) = _
  split
  · next rs app _ =>
    cases b.heights.length with
    | zero => rfl
    | succ k =>
      have hne : ((b.shardHeight chainID + 1 + 1, chainID) == (b.shardHeight chainID + 1, chainID)) =
          false := beq_false_of_ne (by simp)
      have hstop : ((b.setBlockByHeight (b.shardHeight chainID + 1) chainID (n.blockHash block)
          block).advance chainID app).nextBlock chainID = none := by
        simp [BNode.nextBlock, BNode.getBlockByHeight, BNode.advance, BNode.setBlockByHeight,
          List.lookup_cons, hne, hnext]
      rw [catchUp, hstop]
  · rfl

end Network

end Emulator.Pyramid
