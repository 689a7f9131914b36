import Emulator.Minibank.Transfer
import Emulator.Pyramid.Types
import Mathlib.Data.List.Sort

/-!
# Pyramid's minibank application

The account store of a node. An I shard owns one key range; a B shard owns one too and keeps a
replica of the ranges of the I shards it is related to, with one table `LockedKeys` for all of them.

A block of cross-shard transactions is filled with the balances its transactions read
(`fillData`), accepted (`acceptCrossShard` executes it and locks the accounts it writes, with the
values they will get) and committed or aborted (`acceptCommitShard` applies or drops the locks).
-/

namespace Emulator.Pyramid.Minibank

open Emulator.Action Emulator.Minibank

/-- A Go map from keys to amounts. -/
abbrev Amounts := Str → Option UInt32

/-! ## Messages and errors -/

/-- The message `BankData`. -/
structure BankData where
  keys : List Str
  oK : Bool
  values : List UInt32
  deriving DecidableEq, Repr

/-- The protobuf codecs of the messages; a `TransferTx` has no further field that is read. -/
structure Codecs where
  transferTx : Codec Transfer
  bankData : Codec BankData

/-- The transaction type `definition.TxTransfer`. -/
def txTransfer : UInt32 := 12

/-- The errors the application returns. -/
inductive BankError
  /-- a run-time panic, or one the source raises -/
  | panic
  | unmarshal
  | tooShort
  | notTransfer
  | undefinedType
  | lengths
  | empty
  | sums
  | keyLocked
  | balanceNotEnough
  | outOfRange
  | notProvided (key : Str)
  deriving DecidableEq, Repr

/-- The texts of the errors; the one of a failed `Unmarshal` is the runtime's. -/
def BankError.text : BankError → Str
  | .panic => str "runtime error"
  | .unmarshal => str "proto: cannot parse invalid wire-format data"
  | .tooShort => str "Given tx length less than 4, invalid format"
  | .notTransfer => str "Given tx is not a transfer transaction"
  | .undefinedType => str "ABCI Tx does not define a type"
  | .lengths => str "From/FromMoney and To/ToMoney have different lengths"
  | .empty => str "From/To is empty"
  | .sums => str "The sum of FromMoney and ToMoney is not equal"
  | .keyLocked => str "Locked primary key accessed"
  | .balanceNotEnough => str "Balance is not Enough"
  | .outOfRange => str "Out of shard range"
  | .notProvided key =>
    str "During the transaction, key=" ++ key ++ str "is read, but the cross-shard block is not provided"

def codeTypeOK : Int8 := 1
def codeTypeEncodingError : Int8 := 2
def codeTypeAbort : Int8 := 3
def codeTypeUnknownError : Int8 := 4

/-- `ABCIExecutionReceipt`, as far as it is filled. -/
structure Receipt where
  code : Int8
  log : Str
  deriving DecidableEq, Repr

def Receipt.isOK (r : Receipt) : Bool := r.code = codeTypeOK

/-! ## The buffers over the store -/

/-- `MemoryDB`. The read buffer is a list, since its keys are shipped. -/
structure MemoryDB where
  db : Amounts
  memDB : Amounts
  writeBuffer : Amounts
  readBuffer : List (Str × UInt32)

def newMemoryDB (db : Amounts) : MemoryDB :=
  { db, memDB := fun _ => none, writeBuffer := fun _ => none, readBuffer := [] }

abbrev Mem := Action BankError MemoryDB

/-- `m.readBuffer[key] = value`, for a key that is not there yet. -/
def MemoryDB.cacheRead (m : MemoryDB) (key : Str) (value : UInt32) : MemoryDB :=
  { m with readBuffer := m.readBuffer ++ [(key, value)] }

def MemoryDB.get (key : Str) : Mem UInt32 := fun m =>
  match m.writeBuffer key with
  | some out => (.ok out, m)
  | none =>
    match m.readBuffer.lookup key with
    | some out => (.ok out, m)
    | none =>
      match m.memDB key with
      | some out => (.ok out, m.cacheRead key out)
      | none =>
        match m.db key with
        | none => (.ok initBalance, m.cacheRead key initBalance)
        | some amount =>
          (.ok amount,
            { m with memDB := Function.update m.memDB key (some amount) }.cacheRead key amount)

def MemoryDB.set (key : Str) (value : UInt32) : Mem Unit :=
  modify fun m => { m with writeBuffer := Function.update m.writeBuffer key (some value) }

def MemoryDB.commitWrite (m : MemoryDB) (commit : Bool) : MemoryDB :=
  { m with
    memDB := if commit then fun key => (m.writeBuffer key).or (m.memDB key) else m.memDB
    writeBuffer := fun _ => none
    readBuffer := [] }

structure GetSetMemDB where
  get : Str → Mem UInt32
  set : Str → UInt32 → Mem Unit

/-- `RangeDB`: reads and writes only keys the range contains. -/
def rangeDB (search : Str → Bool) : GetSetMemDB where
  get key := do
    require (search key) .outOfRange
    MemoryDB.get key
  set key value := do
    require (search key) .outOfRange
    MemoryDB.set key value

/-- `RangeDB.Write`: the new contents of the store. -/
def MemoryDB.write (search : Str → Bool) (m : MemoryDB) : Amounts := fun key =>
  if search key then (m.memDB key).or (m.db key) else m.db key

/-- `CrossShardDB`: reads the data shipped with the block. -/
def crossShardDB (crossShardData : Amounts) : GetSetMemDB where
  get key := fun m =>
    match m.writeBuffer key with
    | some out => (.ok out, m)
    | none =>
      match crossShardData key with
      | none => (.error (.notProvided key), m)
      | some v => (.ok v, m)
  set := MemoryDB.set

/-! ## Transfers -/

/-- `Application`, apart from its state. A key range is its `Search` function. -/
structure Application where
  keyRangeTree : Str → Str → Bool
  allShardRangeTree : Str → Bool
  isI : Bool
  myChainID : Str
  codecs : Codecs
  /-- `Block.Hash` -/
  blockHash : Block → Bytes

variable (app : Application)

def validateTransferTx {σ : Type} (tx : Transfer) : Action BankError σ Unit :=
  validateTransfer .lengths .empty .sums tx

/-- Reading a debited account. A failed `Get` counts as the initial balance, unchecked. -/
def readFrom (locked : Amounts) (db : GetSetMemDB) (d : Str × UInt32) : Mem UInt32 := do
  require (locked d.1).isNone .keyLocked
  match ← attempt (db.get d.1) with
  | .error _ => pure (initBalance - d.2)
  | .ok balance => do
    require (d.2 ≤ balance) .balanceNotEnough
    pure (balance - d.2)

def readTo (locked : Amounts) (db : GetSetMemDB) (c : Str × UInt32) : Mem UInt32 := do
  require (locked c.1).isNone .keyLocked
  match ← attempt (db.get c.1) with
  | .error _ => pure (initBalance + c.2)
  | .ok balance => pure (balance + c.2)

def writeBalance (locked : Amounts) (db : GetSetMemDB) (w : Str × UInt32) : Mem Unit := do
  require (locked w.1).isNone .keyLocked
  db.set w.1 w.2

def doTransfer (locked : Amounts) (db : GetSetMemDB) (tx : Transfer) : Mem Unit := do
  validateTransferTx tx
  let fromBalance ← mapEach (readFrom locked db) tx.debits
  let toBalance ← mapEach (readTo locked db) tx.credits
  forEach (writeBalance locked db) (tx.froms.zip fromBalance)
  forEach (writeBalance locked db) (tx.tos.zip toBalance)

def execute (locked : Amounts) (db : GetSetMemDB) (txBytes : Bytes) : Mem Unit := do
  let txType ← orThrow (bytesToUint32 txBytes) .tooShort
  require (txType = txTransfer) .undefinedType
  let tx ← orThrow (app.codecs.transferTx.unmarshal (txBytes.drop 4)) .unmarshal
  doTransfer locked db tx

def unmarshalTransferTx (tx : Bytes) : Except BankError Transfer :=
  match bytesToUint32 tx with
  | none => .error .tooShort
  | some txType =>
    if txType ≠ txTransfer then .error .notTransfer
    else (app.codecs.transferTx.unmarshal (tx.drop 4)).elim (.error .unmarshal) .ok

/-- `appendRWSet` over the transactions that unmarshal: the keys they write. -/
def writeSet (txs : List Bytes) : List Str :=
  txs.flatMap fun tx => ((unmarshalTransferTx app tx).toOption.map Transfer.keys).getD []

/-! ## Cross-shard data -/

/-- `CrossShardDataBytes`: the keys sorted, with their values. -/
def crossShardDataBytes (data : List (Str × UInt32)) (ok : Bool) : Bytes :=
  let keyList := (data.map Prod.fst).insertionSort (· ≤ ·)
  app.codecs.bankData.marshal
    { keys := keyList, values := keyList.map fun key => (data.lookup key).getD 0, oK := ok }

/-- `NewCrossShardDataFromBytes`; too few values panic. -/
def newCrossShardDataFromBytes (bz : Bytes) : Except BankError (Amounts × Bool) :=
  match app.codecs.bankData.unmarshal bz with
  | none => .error .unmarshal
  | some bd =>
    if bd.values.length < bd.keys.length then .error .panic
    else .ok (Ledger.last? (bd.keys.zip bd.values), bd.oK)

/-- Execute `tx` and keep or drop what it wrote. -/
def executeAndCommit (locked : Amounts) (db : GetSetMemDB) (tx : Bytes) :
    Mem (Except BankError Unit) := do
  let res ← attempt (execute app locked db tx)
  modify fun m => m.commitWrite res.toBool
  pure res

/-! ## The state of the application -/

/-- What the calls below change: the account store, the lock table, and of the block store the
blocks by hash and the marks that `SetState(hash, "ok")` leaves. -/
@[ext] structure AppState where
  store : Amounts
  lockedKeys : Amounts
  blocks : Bytes → Option Block
  accepted : Bytes → Bool

abbrev Act := Action BankError AppState

/-- Run an action on a fresh `MemoryDB` over the store. -/
def onMemory {α : Type} (x : Mem α) : Act (α × MemoryDB) := fun s =>
  match x (newMemoryDB s.store) with
  | (.ok a, m) => (.ok (a, m), s)
  | (.error e, _) => (.error e, s)

/-- `SetBlockByHeight`, as far as the block is found by its hash. -/
def AppState.setBlock (s : AppState) (hash : Bytes) (block : Block) : AppState :=
  { s with blocks := Function.update s.blocks hash (some block) }

/-- `setLock`: a locked key keeps its value. -/
def AppState.setLock (s : AppState) (key : Str) (value : UInt32) : AppState :=
  if (s.lockedKeys key).isSome then s
  else { s with lockedKeys := Function.update s.lockedKeys key (some value) }

def AppState.undoLock (s : AppState) (key : Str) : AppState :=
  { s with lockedKeys := Function.update s.lockedKeys key none }

/-! ## Accepting a cross-shard block -/

/-- One transaction of an accepted block. -/
def acceptTx (locked : Amounts) (tx data : Bytes) : Mem Receipt :=
  match newCrossShardDataFromBytes app data with
  | .error .panic => throw .panic
  | .error e => pure { code := codeTypeEncodingError, log := e.text }
  | .ok (_, false) => pure { code := codeTypeEncodingError, log := [] }
  | .ok (csd, true) => do
    match ← executeAndCommit app locked (crossShardDB csd) tx with
    | .error e => pure { code := codeTypeUnknownError, log := e.text }
    | .ok _ => pure { code := codeTypeOK, log := [] }

/-- The execution loop of `AcceptCrossShard`; a missing `CrossShardDatas[i]` panics. -/
def acceptTxs (locked : Amounts) : List Bytes → List Bytes → Mem (List Receipt)
  | [], _ => pure []
  | _ :: _, [] => throw .panic
  | tx :: txs, data :: datas => do
    let r ← acceptTx app locked tx data
    let rs ← acceptTxs locked txs datas
    pure (r :: rs)

/-- The keys to lock: those of the transactions with an OK receipt, in the range of the shard. -/
def lockSet (chainID : Str) (txs : List Bytes) (receipts : List Receipt) : List Str :=
  (writeSet app ((txs.zip receipts).filterMap fun p => if p.2.isOK then some p.1 else none)).filter
    (app.keyRangeTree chainID)

/-- Lock a key with the value the executed block leaves. -/
def lockKey (m : MemoryDB) (key : Str) : Act Unit := fun s =>
  match MemoryDB.get key m with
  | (.ok u, _) => (.ok (), s.setLock key u)
  | (.error _, _) => (.error .panic, s)

/-- The body of `AcceptCrossShard` for a block that is to be committed. -/
def lockBlock (block : Block) (chainID : Str) : Act (List Receipt) := do
  let s ← Action.get
  let (receipts, m) ← onMemory (acceptTxs app s.lockedKeys block.crossShardTxs block.crossShardDatas)
  forEach (lockKey m) (lockSet app chainID block.crossShardTxs receipts)
  pure receipts

/-- The branch on `ifcommit` of `AcceptCrossShard`. -/
def lockIf (block : Block) (chainID : Str) (ifcommit : Bool) : Act (List Receipt) :=
  if ifcommit then lockBlock app block chainID else pure []

/-- `AcceptCrossShard`. The block is stored and marked whether or not it is to be committed. -/
def acceptCrossShard (block : Block) (chainID : Str) (ifcommit : Bool) : Act (List Receipt) :=
  if block.blockType ≠ .crossShard then throw .panic
  else
    andFinally (do
      let receipts ← lockIf app block chainID ifcommit
      modify fun s => { s with accepted := Function.update s.accepted (app.blockHash block) true }
      pure receipts) fun s => s.setBlock (app.blockHash block) block

/-! ## Committing or aborting cross-shard blocks -/

/-- The state of the loop of `AcceptCommitShard`: the application and the batch of writes. -/
structure Committing where
  app : AppState
  batch : List (Str × UInt32)

def Committing.releaseLock (s : Committing) (key : Str) : Committing :=
  match s.app.lockedKeys key with
  | none => s
  | some value => { app := s.app.undoLock key, batch := s.batch ++ [(key, value)] }

/-- The keys the commit or abort of a block touches: those of *all* its transactions, in the range
of the shard. -/
def commitSet (chainID : Str) (block : Block) : List Str :=
  (writeSet app block.crossShardTxs).filter (app.keyRangeTree chainID)

/-- One turn of the loop of `AcceptCommitShard`. A block that is not stored decodes from nothing
into a message without header, which panics. -/
def commitOne (chainID : Str) (hash : Bytes) (commit : Bool) :
    Action BankError Committing Receipt := fun s =>
  match s.app.blocks hash with
  | none => (.error .panic, s)
  | some block =>
    if s.app.accepted hash then
      let keys := commitSet app chainID block
      if commit then
        (.ok { code := codeTypeOK, log := [] }, keys.foldl Committing.releaseLock s)
      else
        (.ok { code := codeTypeAbort, log := [] },
          { s with app := keys.foldl AppState.undoLock s.app })
    else (.ok { code := codeTypeAbort, log := [] }, s)

def Committing.writeSync (s : Committing) : AppState :=
  { s.app with store := Ledger.writeAll s.app.store (s.batch.map fun w => (w.1, some w.2)) }

/-- `AcceptCommitShard`, for the hashes and their commit flags. -/
def acceptCommitShard (entries : List (Bytes × Bool)) (chainID : Str) : Act (List Receipt) :=
  fun s =>
    match mapEach (fun e => commitOne app chainID e.1 e.2) entries { app := s, batch := [] } with
    | (.ok receipts, s') => (.ok receipts, s'.writeSync)
    | (.error e, s') => (.error e, s'.app)

/-! ## Blocks within a shard -/

/-- One transaction of an intra-shard block. -/
def innerTx (locked : Amounts) (db : GetSetMemDB) (tx : Bytes) : Mem Receipt := do
  match ← executeAndCommit app locked db tx with
  | .error e => pure { code := codeTypeAbort, log := e.text }
  | .ok _ => pure { code := codeTypeOK, log := [] }

def executionInnerShard (block : Block) : Act (List Receipt) := do
  require (block.blockType = .innerShard) .panic
  let s ← Action.get
  let range := app.keyRangeTree block.chainID
  let (receipts, m) ← onMemory (mapEach (innerTx app s.lockedKeys (rangeDB range)) block.bodyTxs)
  modify fun s => { s with store := m.write range }.setBlock (app.blockHash block) block
  pure receipts

/-! ## Filling and checking a cross-shard block -/

/-- One transaction of `FillData`: its read set if it succeeds. -/
def fillTx (locked : Amounts) (tx : Bytes) : Mem Bytes := do
  let db := rangeDB app.allShardRangeTree
  let res ← attempt (execute app locked db tx)
  let m ← Action.get
  modify fun m => m.commitWrite res.toBool
  pure (crossShardDataBytes app (if res.toBool then m.readBuffer else []) res.toBool)

/-- `FillData`. It panics on an I shard. -/
def fillData (block : Block) : Act Block := do
  require (!app.isI) .panic
  let s ← Action.get
  let (csd, _) ← onMemory (mapEach (fillTx app s.lockedKeys) block.crossShardTxs)
  pure { block with crossShardDatas := csd }

/-- The freshness loop of `PreExecutionI`. It walks over `BodyTxs`, which a cross-shard block does
not have. -/
def checkFresh (locked : Amounts) : List Bytes → List Bytes → Mem Bool
  | [], _ => pure true
  | _ :: _, [] => throw .panic
  | tx :: txs, data :: datas =>
    match app.codecs.bankData.unmarshal data, newCrossShardDataFromBytes app data with
    | some bd, .ok (csd, ok) => do
      let fresh ← mapEach (fun key => do
        let v ← MemoryDB.get key
        pure (decide (some v = csd key))) (bd.keys.filter app.allShardRangeTree)
      if fresh.all id then do
        if ok then do
          let _ ← executeAndCommit app locked (crossShardDB csd) tx
          checkFresh locked txs datas
        else checkFresh locked txs datas
      else pure false
    | _, .error .panic => throw .panic
    | _, _ => pure false

/-- `PreExecutionI`: whether the response is OK. -/
def preExecutionI (block : Block) : Act Bool := do
  require (block.blockType = .crossShard && app.isI) .panic
  let s ← Action.get
  if block.crossShardTxs.all fun tx => (unmarshalTransferTx app tx).toBool then
    if (writeSet app block.crossShardTxs).all fun key => (s.lockedKeys key).isNone then do
      let (fresh, _) ← onMemory (checkFresh app s.lockedKeys block.bodyTxs block.crossShardDatas)
      pure fresh
    else pure false
  else pure false

end Emulator.Pyramid.Minibank
