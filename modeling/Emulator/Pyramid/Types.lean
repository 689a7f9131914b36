import Emulator.Base

/-!
# Pyramid's blocks

The block of one shard. `BlockType` tells the five kinds of block apart: transactions within the
shard, a block of cross-shard transactions, and the three steps that accept and commit one.
-/

namespace Emulator.Pyramid

inductive BlockType
  | none
  | i
  | b
  | innerShard
  | crossShard
  | bCommitBlock
  | iCommitBlock
  | iAcceptBlock
  deriving DecidableEq, Repr

/-- `Header`; `time` is the marshalled timestamp. -/
structure Header where
  blockType : BlockType
  hashPointer : Bytes
  chainID : Str
  height : ℤ
  time : Bytes
  bodyRoot : Bytes
  crossShardBodyRoot : Bytes
  stateRoot : Bytes
  receiptRoot : Bytes
  relationRoot : Bytes
  deriving DecidableEq, Repr

structure Relation where
  relatedCommitStatus : List Bytes
  relatedHash : List Bytes
  myCommitStatus : Bytes
  deriving DecidableEq, Repr

/-- `Block`: the header, `Body`, `CrossShardBody` and the relation. -/
structure Block extends Header where
  bodyTxs : List Bytes
  crossShardTxs : List Bytes
  crossShardDatas : List Bytes
  relation : Relation
  deriving DecidableEq, Repr

def emptyBlock (blockType : BlockType) (chainID : Str) (height : ℤ) : Block where
  blockType := blockType
  hashPointer := []
  chainID := chainID
  height := height
  time := []
  bodyRoot := []
  crossShardBodyRoot := []
  stateRoot := []
  receiptRoot := []
  relationRoot := []
  bodyTxs := []
  crossShardTxs := []
  crossShardDatas := []
  relation := { relatedCommitStatus := [], relatedHash := [], myCommitStatus := [] }

end Emulator.Pyramid
