import Emulator.Base
import Emulator.Lib.Action
import Emulator.Lib.Ledger
import Emulator.Lib.Quorum
import Emulator.Lib.Wire
import Emulator.Utils.BitVector
import Emulator.Core.HotStuff
import Emulator.Core.Aggregate
import Emulator.Minibank.Transfer
import Emulator.Urd.Minibank
import Emulator.Urd.Transfer
import Emulator.Urd.Prepare
import Emulator.Pyramid.Types
import Emulator.Pyramid.Minibank
import Emulator.Pyramid.Transfer
import Emulator.Minibank.Wire
import Emulator.Minibank.Conservation
import Emulator.Urd.Unlock
import Emulator.Urd.Atomicity
import Emulator.Lib.Run
import Emulator.Pyramid.Blocks
import Emulator.Pyramid.Locks
import Emulator.Pyramid.Process
import Emulator.Pyramid.Replica
import Emulator.Pyramid.Fill
import Emulator.Pyramid.Commit
import Emulator.Crypto.Merkle
import Emulator.Pyramid.VoteSet
import Emulator.Core.Parts
import Emulator.Pyramid.Agreement
import Emulator.Pyramid.Consensus
import Emulator.Urd.Types
import Emulator.Lib.Lockstep
import Emulator.Urd.Consensus
import Emulator.Urd.Leaders
import Emulator.Lib.Boundaries
import Emulator.Utils.RangeList
import Emulator.Pyramid.Certificates
import Emulator.Urd.BlockHash
import Emulator.Lib.Coder
import Emulator.Urd.Codecs
import Emulator.Urd.Node
import Emulator.Urd.Rounds
import Emulator.Urd.Lockstep
import Emulator.Urd.Acceptance
import Emulator.Utils.RangeTree
import Emulator.Urd.Proofs
import Emulator.Urd.Transitions
import Emulator.Urd.BeforeStart
import Emulator.Lib.Arrivals
import Emulator.Pyramid.Sync
import Emulator.Urd.Decode
import Emulator.Pyramid.Barrier
import Emulator.Pyramid.Answers
import Emulator.Pyramid.Fresh
import Emulator.Pyramid.Shipped
import Emulator.Urd.Completion
import Emulator.Urd.Batch
import Emulator.Urd.Steps
import Emulator.Urd.Execute
import Emulator.Urd.Isolation
import Emulator.Urd.Crash
import Emulator.Urd.Certificates
import Emulator.Urd.Ownership
import Emulator.Urd.Reassembly
import Emulator.Urd.Arrival
import Emulator.Urd.HashCache
import Emulator.Urd.Signers
import Emulator.Urd.Completeness
import Emulator.Urd.Production
import Emulator.Urd.Proposing
import Emulator.Urd.Agreement
import Emulator.Urd.Waiting
import Emulator.Core.Tally
import Emulator.Pyramid.Counting
import Emulator.Pyramid.Precommits
import Emulator.Pyramid.Sequential
import Emulator.Pyramid.Overdraft
import Emulator.Pyramid.Unknown
import Emulator.Pyramid.BlockHash
import Emulator.Urd.Receipts
import Emulator.Utils.BitAlgebra
import Emulator.Utils.RangeText
import Emulator.Utils.RangeNodes
import Emulator.Libs.CList
import Emulator.Urd.Mempool
import Emulator.Utils.Receiver
