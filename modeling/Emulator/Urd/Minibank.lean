import Emulator.Minibank.Transfer
import Mathlib.Data.List.Sort

/-!
# Urd's minibank application

The account store of one shard and the transactions on it. A transfer within the shard is executed
by `execute`. A transfer across shards is prepared by `preExecution`, which locks the shard's own
accounts and emits a *relay* with their balances for every shard involved; relays received from the
shards of a transfer are executed by `executeRelay`.

A Go method on a pointer is an `Action`: writes made before an error stay. A run-time panic is the
error `BankError.panic`.
-/

namespace Emulator.Urd.Minibank

open Emulator.Action Emulator.Minibank

/-! ## Messages -/

/-- The message `TransferTx`; its random buffer and its time are read by no function here. -/
structure TransferTx extends Transfer where
  shards : List Str
  deriving DecidableEq, Repr

/-- The message `BankData`: the shipped balances. -/
structure BankData where
  keys : List Str
  values : List UInt32
  deriving DecidableEq, Repr

/-- The message `RelayTransferTx`. -/
structure RelayTransferTx where
  datas : Option BankData
  txHash : Bytes
  deriving DecidableEq, Repr

/-- The message `RelayTransferTxSet`: a prepared transfer and the data received for it so far. -/
structure RelayTransferTxSet where
  shards : List Str
  datas : List (Option BankData)
  rawTx : Bytes
  deriving DecidableEq, Repr

/-- The entries of the map in `RelayTransferTxList`. -/
abbrev RelayTransferTxList := List (Str × Option BankData)

/-- `m[key] = data`. -/
def RelayTransferTxList.insert (m : RelayTransferTxList) (key : Str) (data : Option BankData) :
    RelayTransferTxList :=
  (key, data) :: m.filter fun e => e.1 ≠ key

/-- The protobuf codecs of the messages. -/
structure Codecs where
  transferTx : Codec TransferTx
  relayTx : Codec RelayTransferTx
  relayTxSet : Codec RelayTransferTxSet
  relayTxList : Codec RelayTransferTxList

/-- The transaction type `definition.TxTransfer`. -/
def txTransfer : UInt32 := 6

/-! ## Errors -/

inductive BankError
  /-- a run-time panic -/
  | panic
  | unmarshal
  | invalidTransactionType
  | unknownType
  | invalidShards
  | notThisShard
  | notIncluded
  | alreadyCommitted
  | lengths
  | empty
  | sums
  | keyNotExist (key : Str)
  | keyDoesNotExists
  | keyDoesNotExist
  | lockConflict
  | keyLocked
  | balanceNotEnough
  | invalidCrossShardFields (shards related : List Str)
  deriving DecidableEq, Repr

/-- A list of strings as the verb `%v` prints it. -/
def showList (l : List Str) : Str := str "[" ++ (l.intersperse (str " ")).flatten ++ str "]"

/-- The texts of the errors; the one of a failed `Unmarshal` is the runtime's. -/
def BankError.text : BankError → Str
  | .panic => str "runtime error"
  | .unmarshal => str "proto: cannot parse invalid wire-format data"
  | .invalidTransactionType => str "Invalid Transaction Type"
  | .unknownType => str "ABCI Tx unknown type"
  | .invalidShards => str "tx for invalid shards"
  | .notThisShard => str "tx does not belong to this shard"
  | .notIncluded => str "tx is not included in related shards"
  | .alreadyCommitted => str "tx already committed"
  | .lengths => str "From/FromMoney and To/ToMoney is not the same length"
  | .empty => str "From/To is empty"
  | .sums => str "FromMoney and ToMoney are not equal"
  | .keyNotExist key => str "key " ++ key ++ str " not exist"
  | .keyDoesNotExists => str "key does not exists"
  | .keyDoesNotExist => str "key does not exist"
  | .lockConflict => str "Abort due to lock conflict"
  | .keyLocked => str "one of its keys is locked"
  | .balanceNotEnough => str "Balance is not Enough"
  | .invalidCrossShardFields shards related =>
    str "invalid cross shard fields: " ++ showList shards ++ str " != " ++ showList related

/-! ## The store -/

def rLockedIdentifier : UInt8 := 48
def wLockedIdentifier : UInt8 := 49
def freeIdentifier : UInt8 := 50

/-- An account entry: `MarshalValue` writes the lock byte and then the money. -/
structure Value where
  money : UInt32
  locked : UInt8
  deriving DecidableEq, Repr

def isFree (locked : UInt8) : Bool := locked = freeIdentifier

/-- The two key spaces of `store.PrefixStore` the application uses. -/
structure PrefixStore where
  data : Str → Option Value
  special : Bytes → Option Bytes

/-- `GetSpecial`; the empty value stands for an absent key. -/
def PrefixStore.getSpecial (st : PrefixStore) (key : Bytes) : Bytes := (st.special key).getD []

/-- `AppDB`: the store, and the balances of other shards loaded for one transfer. -/
structure AppDB where
  db : PrefixStore
  retainData : Str → Option UInt32

/-- `Application`. A key range is its `Search` function. -/
structure Application where
  keyRangeTrees : List (Str × (Str → Bool))
  chainId : Str
  shardIDList : List Str
  codecs : Codecs
  txHash : Bytes → Bytes

/-- `app.shards_to_index[shard]`, which is 0 for an unknown shard. -/
def Application.shardsToIndex (app : Application) (shard : Str) : ℕ :=
  (app.shardIDList.idxOf? shard).getD 0

def Application.searchKeyShard (app : Application) (key : Str) : Option Str :=
  (app.keyRangeTrees.find? fun e => e.2 key).map Prod.fst

def Application.searchKeyIntraShard (app : Application) (key : Str) : Bool :=
  ((app.keyRangeTrees.lookup app.chainId).map fun search => search key).getD false

abbrev Act := Action BankError AppDB

/-- Write an entry, whatever range its key is in. -/
def AppDB.put (s : AppDB) (key : Str) (v : Value) : AppDB :=
  { s with db := { s.db with data := Function.update s.db.data key (some v) } }

def AppDB.setSpecial (s : AppDB) (key value : Bytes) : AppDB :=
  { s with db := { s.db with special := Function.update s.db.special key (some value) } }

def AppDB.loadData (s : AppDB) (key : Str) (value : UInt32) : AppDB :=
  { s with retainData := Function.update s.retainData key (some value) }

def AppDB.clear (s : AppDB) : AppDB := { s with retainData := fun _ => none }

variable (app : Application)

def set (key : Str) (money : UInt32) (locked : UInt8) : Act Unit :=
  modify fun s => if app.searchKeyIntraShard key then s.put key ⟨money, locked⟩ else s

def get (key : Str) : Act (UInt32 × UInt8) := do
  let s ← Action.get
  if app.searchKeyIntraShard key then
    match s.db.data key with
    | none => do
      set app key initBalance freeIdentifier
      pure (initBalance, freeIdentifier)
    | some v => pure (v.money, v.locked)
  else
    match s.retainData key with
    | some v => pure (v, freeIdentifier)
    | none => throw .keyDoesNotExists

/-- The common body of `WLock` and `WUnlock`: rewrite the lock byte of a stored entry. -/
def setLockByte (locked : UInt8) (key : Str) : Act Unit := do
  let s ← Action.get
  match s.db.data key with
  | none => throw .keyDoesNotExist
  | some v => modify fun s => s.put key { v with locked }

def wLock (key : Str) : Act Unit := setLockByte wLockedIdentifier key

def wUnlock (key : Str) : Act Unit := setLockByte freeIdentifier key

/-! ## Transfers -/

/-- `NewTransferTxFromBytes`, which slices off the four type bytes. -/
def newTransferTxFromBytes {σ : Type} (txBytes : Bytes) : Action BankError σ TransferTx :=
  if txBytes.length < 4 then throw .panic
  else orThrow (app.codecs.transferTx.unmarshal (txBytes.drop 4)) .unmarshal

def validateTransferTx {σ : Type} (tx : Transfer) : Action BankError σ Unit :=
  validateTransfer .lengths .empty .sums tx

/-- Reading a debited account: its balance less the amount. -/
def readFrom (d : Str × UInt32) : Act UInt32 := do
  let (balance, locked) ← get app d.1
  require (isFree locked) .keyLocked
  require (d.2 ≤ balance) .balanceNotEnough
  pure (balance - d.2)

/-- Reading a credited account: its balance plus the amount. -/
def readTo (c : Str × UInt32) : Act UInt32 := do
  let (balance, locked) ← get app c.1
  require (isFree locked) .keyLocked
  pure (balance + c.2)

def writeBalance (w : Str × UInt32) : Act Unit := set app w.1 w.2 freeIdentifier

def doTransfer (tx : TransferTx) : Act Unit := do
  require (tx.shards.contains app.chainId) .notIncluded
  validateTransferTx tx.toTransfer
  let fromBalance ← mapEach (readFrom app) tx.debits
  let toBalance ← mapEach (readTo app) tx.credits
  forEach (writeBalance app) (tx.froms.zip fromBalance)
  forEach (writeBalance app) (tx.tos.zip toBalance)

/-- `execute`: a transaction of the shard itself. -/
def execute (txBytes : Bytes) : Act Unit := do
  let txType ← orThrow (bytesToUint32 txBytes) .invalidTransactionType
  require (txType = txTransfer) .unknownType
  let tx ← newTransferTxFromBytes app txBytes
  match tx.shards with
  | [shard] => do
    require (shard = app.chainId) .notThisShard
    doTransfer app tx
  | _ => throw .invalidShards

/-! ## Relays -/

/-- `toRelayKey`: the key `undo<hash>` of the relays that came before their transfer was locked. -/
def toRelayKey (hash : Bytes) : Bytes := [117, 110, 100, 111] ++ hash

/-- The loop of `insertBankDataToRelayTxSet`; an index past the end of `Datas` panics. -/
def insertDatas (data : Option BankData) (chain : Str) :
    List Str → List (Option BankData) → Option (List (Option BankData))
  | [], ds => some ds
  | s :: ss, d :: ds => (insertDatas data chain ss ds).map ((if s = chain then data else d) :: ·)
  | s :: ss, [] => if s = chain then none else insertDatas data chain ss []

def insertBankDataToRelayTxSet {σ : Type} (data : Option BankData) (chain : Str)
    (relayTxSet : RelayTransferTxSet) : Action BankError σ RelayTransferTxSet := do
  let datas ← orThrow (insertDatas data chain relayTxSet.shards relayTxSet.datas) .panic
  pure { relayTxSet with datas }

def isRelayTransferTxSetFinish (tx : RelayTransferTxSet) : Bool := tx.datas.all Option.isSome

/-- `LoadData` for the keys and values of one shard; missing values panic. -/
def loadKeys : List Str → List UInt32 → Act Unit
  | [], _ => pure ()
  | k :: ks, v :: vs => do
    modify fun s => s.loadData k v
    loadKeys ks vs
  | _ :: _, [] => throw .panic

/-- Unlock the keys if they are the shard's own. -/
def unlockOwn (shard : Str) (keys : List Str) : Act Unit :=
  if shard = app.chainId then forEach wUnlock keys else pure ()

/-- The loop of `unlockTransfer` over the set: unlock the shard's own keys, load every value. -/
def loadDatas : List Str → List (Option BankData) → Act Unit
  | _, [] => pure ()
  | [], _ :: _ => throw .panic
  | shard :: shards, d :: ds => do
    let data ← orThrow d .panic
    unlockOwn app shard data.keys
    loadKeys data.keys data.values
    loadDatas shards ds

/-- The relays stored under `undo<hash>`. -/
def undoRelays (hash : Bytes) : Act RelayTransferTxList := do
  let s ← Action.get
  match s.db.getSpecial (toRelayKey hash) with
  | [] => pure []
  | bz => orThrow (app.codecs.relayTxList.unmarshal bz) .unmarshal

/-- `unlockTransfer`. A stored map without entries comes back as nil, and writing to it panics. -/
def unlockTransfer (tx : RelayTransferTx) (chain : Str) : Act Unit := do
  let s ← Action.get
  match s.db.getSpecial tx.txHash with
  | [] => do
    let bankdatas ← undoRelays app tx.txHash
    require ((s.db.getSpecial (toRelayKey tx.txHash)).isEmpty || !bankdatas.isEmpty) .panic
    let rbz := app.codecs.relayTxList.marshal (bankdatas.insert chain tx.datas)
    modify fun s => s.setSpecial (toRelayKey tx.txHash) rbz
  | bz => do
    let stored ← orThrow (app.codecs.relayTxSet.unmarshal bz) .unmarshal
    let relayTxSet ← insertBankDataToRelayTxSet tx.datas chain stored
    if isRelayTransferTxSetFinish relayTxSet then
      andFinally (do
        loadDatas app relayTxSet.shards relayTxSet.datas
        let rawTx ← newTransferTxFromBytes app relayTxSet.rawTx
        doTransfer app rawTx) AppDB.clear
    else pure ()

def executeRelay (txBytes : Bytes) (chain : Str) : Act Unit := do
  let tx ← orThrow (app.codecs.relayTx.unmarshal txBytes) .unmarshal
  unlockTransfer app tx chain

/-! ## Preparing a transfer across shards -/

/-- The insertion of the early relays in `lockTransfer`. -/
def insertAll {σ : Type} : RelayTransferTxList → RelayTransferTxSet →
    Action BankError σ RelayTransferTxSet
  | [], relayTxSet => pure relayTxSet
  | (shard, data) :: datas, relayTxSet => do
    let relayTxSet ← insertBankDataToRelayTxSet data shard relayTxSet
    insertAll datas relayTxSet

/-- `lockTransfer`. The result of `WLock` is ignored. -/
def lockTransfer (tx : TransferTx) (rawTx : Bytes) : Act Unit := do
  let hash := app.txHash rawTx
  let datas ← undoRelays app hash
  let relayTxSet ← insertAll datas
    { shards := tx.shards, datas := List.replicate tx.shards.length none, rawTx }
  modify fun s => s.setSpecial hash (app.codecs.relayTxSet.marshal relayTxSet)
  forEach (fun key => do
    let _ ← attempt (wLock key)
    pure ()) (tx.keys.filter app.searchKeyIntraShard)

def executeCrossShard (txBytes : Bytes) : Act Unit := do
  let txType ← orThrow (bytesToUint32 txBytes) .invalidTransactionType
  require (txType = txTransfer) .unknownType
  let tx ← newTransferTxFromBytes app txBytes
  require (1 < tx.shards.length) .invalidShards
  lockTransfer app tx txBytes

/-- What the loop of `preExecution` changes: the store, and the lock maps of the batch. -/
structure Batch where
  db : AppDB
  wlocks : List Str
  rlocks : List Str

/-- An action on the store, within a batch. -/
def onDB {α : Type} (x : Act α) : Action BankError Batch α := fun s =>
  ((x s.db).1, { s with db := (x s.db).2 })

/-- One turn of the key loop of `pre_doTransfer`: the shard of the key, and its balance if that is
this shard. The key stays in `wlocks` when a later key makes the transfer fail. -/
def scanKey (key : Str) : Action BankError Batch (Str × Option (Str × UInt32)) := do
  let shard ← orThrow (app.searchKeyShard key) (.keyNotExist key)
  if shard ≠ app.chainId then pure (shard, none)
  else do
    let (money, locked) ← onDB (get app key)
    let s ← Action.get
    require (isFree locked && !s.wlocks.contains key && !s.rlocks.contains key) .lockConflict
    modify fun s => { s with wlocks := key :: s.wlocks }
    pure (shard, some (key, money))

/-- `related_shards`: the shards of the keys, sorted. -/
def relatedShards (scanned : List (Str × Option (Str × UInt32))) : List Str :=
  (scanned.map Prod.fst).dedup.insertionSort (· ≤ ·)

/-- The `BankData` of the relay: the shard's own keys with their balances. -/
def ownData (scanned : List (Str × Option (Str × UInt32))) : BankData :=
  { keys := (scanned.filterMap Prod.snd).map Prod.fst
    values := (scanned.filterMap Prod.snd).map Prod.snd }

/-- `pre_doTransfer`: the relay bytes and the shards they go to. -/
def preDoTransfer (tx : TransferTx) (rawTx : Bytes) :
    Action BankError Batch (Bytes × List Str) := do
  require (tx.shards.contains app.chainId) .notIncluded
  let hash := app.txHash rawTx
  let s ← Action.get
  require (s.db.db.special hash).isNone .alreadyCommitted
  validateTransferTx tx.toTransfer
  let scanned ← mapEach (scanKey app) tx.keys
  let relay := app.codecs.relayTx.marshal { datas := some (ownData scanned), txHash := hash }
  let related := relatedShards scanned
  require (tx.shards == related) (.invalidCrossShardFields tx.shards related)
  pure (relay, related)

/-- `append(relayTxs[index], relay)`; an index past the end panics. -/
def appendAt (relayTxs : List (List Bytes)) (index : ℕ) (relay : Bytes) : Option (List (List Bytes)) :=
  if index < relayTxs.length then some (relayTxs.modify index (· ++ [relay])) else none

/-- The loop of `preExecution` over the shards a relay goes to. -/
def appendRelay (relay : Bytes) (dstShards : List Str) (relayTxs : List (List Bytes)) :
    Option (List (List Bytes)) :=
  dstShards.foldlM (fun txs shard => appendAt txs (app.shardsToIndex shard) relay) relayTxs

/-- Go on after an error; a panic is not an error. -/
def ignoreError {σ : Type} (x : Action BankError σ Unit) : Action BankError σ Unit := do
  match ← attempt x with
  | .error .panic => throw .panic
  | _ => pure ()

/-- One transaction of `preExecution`: prepare it, and lock it if that succeeds. -/
def prepare (txBytes : Bytes) : Action BankError Batch (Option (Bytes × List Str)) := do
  match ← attempt (newTransferTxFromBytes app txBytes) with
  | .error .panic => throw .panic
  | .error _ => pure none
  | .ok tx =>
    if tx.shards.length ≤ 1 then pure none
    else
      match ← attempt (preDoTransfer app tx txBytes) with
      | .error .panic => throw .panic
      | .error _ => pure none
      | .ok accepted => do
        ignoreError (onDB (executeCrossShard app txBytes))
        pure (some accepted)

/-- The loop of `preExecution`. -/
def prepareAll : List Bytes → List (List Bytes) → Action BankError Batch (List (List Bytes))
  | [], relayTxs => pure relayTxs
  | txBytes :: input, relayTxs => do
    match ← prepare app txBytes with
    | none => prepareAll input relayTxs
    | some (relay, dstShards) => do
      let relayTxs ← orThrow (appendRelay app relay dstShards relayTxs) .panic
      prepareAll input relayTxs

def newDB (st : PrefixStore) : AppDB := { db := st, retainData := fun _ => none }

def preExecution (input : List Bytes) : Action BankError PrefixStore (List (List Bytes)) := fun st =>
  let r := prepareAll app input (List.replicate app.shardIDList.length [])
    { db := newDB st, wlocks := [], rlocks := [] }
  (r.1, r.2.db.db)

/-! ## Executing a block -/

def codeTypeOK : Int8 := 1
def codeTypeAbort : Int8 := 3

/-- `ABCIExecutionReceipt`, as `Execution` fills it. -/
structure Receipt where
  code : Int8
  info : Str
  rawTx : Bytes
  deriving DecidableEq, Repr

structure ABCIExecutionResponse where
  responses : List Receipt
  oPTxs : List (List Bytes)
  deriving DecidableEq, Repr

/-- The relay lists of a block, list `i` from the `i`-th shard. -/
def executeCTXS : List Str → List (List Bytes) → Act Unit
  | _, [] => pure ()
  | [], _ :: _ => throw .panic
  | chain :: chains, ctxs :: rest => do
    forEach (fun opt => ignoreError (executeRelay app opt chain)) ctxs
    executeCTXS chains rest

/-- One transaction of the block, with its receipt. -/
def executeTx (tx : Bytes) : Act Receipt := do
  match ← attempt (execute app tx) with
  | .error .panic => throw .panic
  | .error e => pure { code := codeTypeAbort, info := e.text, rawTx := tx }
  | .ok _ => pure { code := codeTypeOK, info := [], rawTx := tx }

def execution (txs crossShardTxs : List Bytes) (ctxs : List (List Bytes)) :
    Action BankError PrefixStore ABCIExecutionResponse := do
  let responses ← fun st =>
    let r := (do
      executeCTXS app app.shardIDList ctxs
      mapEach (executeTx app) txs) (newDB st)
    (r.1, r.2.db)
  let oPTxs ← preExecution app crossShardTxs
  pure { responses, oPTxs }

end Emulator.Urd.Minibank
