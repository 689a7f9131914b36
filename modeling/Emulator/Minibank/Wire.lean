import Emulator.Lib.Wire
import Emulator.Pyramid.Minibank
import Emulator.Urd.Minibank

/-!
# The minibank messages on the wire

What the two applications rely on the protobuf runtime for, and codecs that meet it.

* `Urd.Minibank.Codecs.Lawful` — messages survive the store, except that an absent element of
  `Datas` comes back as a present, empty one.
* `Urd.Minibank.lawful_wireCodecs`, `Pyramid.Minibank.lawful_wireCodecs` — the wire format does.
-/

namespace Emulator

open Wire

/-- The amounts of field `k`. -/
def amountsField (k : ℕ) (fs : List Field) : Option (List UInt32) :=
  (packedNumbers k fs).map fun ns => ns.map UInt32.ofNat

theorem amountsField_of_flatten {k : ℕ} {fs : List Field} {money : List UInt32}
    (h : (payloads k fs).flatten = packVarints (money.map UInt32.toNat)) :
    amountsField k fs = some money := by
  rw [amountsField, packedNumbers_of_flatten h, Option.map_some, List.map_map]
  congr 1
  have hid : UInt32.ofNat ∘ UInt32.toNat = id := funext fun m => UInt32.ofNat_toNat
  rw [hid, List.map_id]

/-! ## Transfers -/

namespace Minibank

def Transfer.toFields (tx : Transfer) : List Field :=
  repeated 1 tx.froms ++ repeated 2 tx.tos ++ packed 3 (tx.fromMoney.map UInt32.toNat) ++
    packed 4 (tx.toMoney.map UInt32.toNat)

def Transfer.ofFields (fs : List Field) : Option Transfer := do
  let fromMoney ← amountsField 3 fs
  let toMoney ← amountsField 4 fs
  pure { froms := payloads 1 fs, tos := payloads 2 fs, fromMoney, toMoney }

end Minibank

/-! ## Urd -/

namespace Urd.Minibank

/-- `BankData` with no entries, the meaning of an empty message. -/
def BankData.none : BankData := { keys := [], values := [] }

/-- What a set is after it was stored: a missing element of `Datas` is there, and empty. -/
def RelayTransferTxSet.onWire (s : RelayTransferTxSet) : RelayTransferTxSet :=
  { s with datas := s.datas.map fun d => some (d.getD BankData.none) }

/-- What a map of relays is after it was stored. -/
def RelayTransferTxList.onWire (m : RelayTransferTxList) : RelayTransferTxList :=
  m.map fun e => (e.1, some (e.2.getD BankData.none))

/-- What the application relies on: relays and sets survive the store, maps do up to the order of
their entries, and only empty messages have no bytes. -/
structure Codecs.Lawful (c : Codecs) : Prop where
  relayTx : c.relayTx.RoundTrips id
  relayTxSet : c.relayTxSet.RoundTrips RelayTransferTxSet.onWire
  relayTxSet_ne_nil : ∀ s, s.shards ≠ [] → c.relayTxSet.marshal s ≠ []
  relayTxList : ∀ m, (m.map Prod.fst).Nodup → ∃ m', c.relayTxList.unmarshal
    (c.relayTxList.marshal m) = some m' ∧ m'.Perm (RelayTransferTxList.onWire m)
  relayTxList_ne_nil : ∀ m, m ≠ [] → c.relayTxList.marshal m ≠ []

def BankData.toFields (d : BankData) : List Field :=
  repeated 1 d.keys ++ packed 3 (d.values.map UInt32.toNat)

def BankData.ofFields (fs : List Field) : Option BankData :=
  (amountsField 3 fs).map fun values => { keys := payloads 1 fs, values }

def BankData.toBytes (d : BankData) : Bytes := encode d.toFields
def BankData.ofBytes (bz : Bytes) : Option BankData := (decode bz).bind BankData.ofFields

theorem BankData.ofBytes_toBytes (d : BankData) : BankData.ofBytes d.toBytes = some d := by
  have hvalues : amountsField 3 d.toFields = some d.values := by
    refine amountsField_of_flatten ?_
    simp [toFields, packed, payloads_repeated_ne]
  have hkeys : payloads 1 d.toFields = d.keys := by
    simp [toFields, packed, payloads_bytesField_ne]
  rw [ofBytes, toBytes, decode_encode, Option.bind_some, ofFields, hvalues, hkeys]
  rfl

def RelayTransferTx.toFields (tx : RelayTransferTx) : List Field :=
  repeated 1 (tx.datas.toList.map BankData.toBytes) ++ bytesField 2 tx.txHash

def RelayTransferTx.ofFields (fs : List Field) : Option RelayTransferTx :=
  let txHash := (payloads 2 fs).flatten
  match (payloads 1 fs).getLast? with
  | .none => some { datas := .none, txHash }
  | some bz => (BankData.ofBytes bz).map fun d => { datas := some d, txHash }

theorem RelayTransferTx.ofFields_toFields (tx : RelayTransferTx) :
    RelayTransferTx.ofFields tx.toFields = some tx := by
  have h1 : payloads 1 tx.toFields = tx.datas.toList.map BankData.toBytes := by
    simp [toFields, payloads_bytesField_ne]
  have h2 : (payloads 2 tx.toFields).flatten = tx.txHash := by
    simp [toFields, payloads_repeated_ne]
  obtain ⟨datas, txHash⟩ := tx
  cases datas with
  | none => simp [ofFields, h1, h2]
  | some d => simp [ofFields, h1, h2, BankData.ofBytes_toBytes]

/-- The bytes of an element of `Datas`: a missing one is written as an empty message. -/
def elementBytes (d : Option BankData) : Bytes := (d.map BankData.toBytes).getD []

theorem ofBytes_elementBytes (d : Option BankData) :
    BankData.ofBytes (elementBytes d) = some (d.getD BankData.none) := by
  cases d with
  | none => exact BankData.ofBytes_toBytes BankData.none
  | some d => exact BankData.ofBytes_toBytes d

def RelayTransferTxSet.toFields (s : RelayTransferTxSet) : List Field :=
  repeated 1 s.shards ++ repeated 2 (s.datas.map elementBytes) ++ bytesField 3 s.rawTx

def RelayTransferTxSet.ofFields (fs : List Field) : Option RelayTransferTxSet :=
  ((payloads 2 fs).mapM BankData.ofBytes).map fun datas =>
    { shards := payloads 1 fs, datas := datas.map some, rawTx := (payloads 3 fs).flatten }

theorem mapM_ofBytes_elementBytes (ds : List (Option BankData)) :
    (ds.map elementBytes).mapM BankData.ofBytes = some (ds.map fun d => d.getD BankData.none) := by
  induction ds with
  | nil => rfl
  | cons d ds ih => simp [List.mapM_cons, ofBytes_elementBytes, ih]

theorem RelayTransferTxSet.ofFields_toFields (s : RelayTransferTxSet) :
    RelayTransferTxSet.ofFields s.toFields = some s.onWire := by
  have h1 : payloads 1 s.toFields = s.shards := by
    simp [toFields, payloads_repeated_ne, payloads_bytesField_ne]
  have h2 : payloads 2 s.toFields = s.datas.map elementBytes := by
    simp [toFields, payloads_repeated_ne, payloads_bytesField_ne]
  have h3 : (payloads 3 s.toFields).flatten = s.rawTx := by
    simp [toFields, payloads_repeated_ne]
  rw [ofFields, h1, h2, h3, mapM_ofBytes_elementBytes, Option.map_some, List.map_map]
  rfl

def entryBytes (e : Str × Option BankData) : Bytes :=
  encode [.len 1 e.1, .len 2 (elementBytes e.2)]

def entryOfBytes (bz : Bytes) : Option (Str × Option BankData) :=
  (decode bz).bind fun fs =>
    (BankData.ofBytes (payloads 2 fs).flatten).map fun d => ((payloads 1 fs).flatten, some d)

theorem entryOfBytes_entryBytes (e : Str × Option BankData) :
    entryOfBytes (entryBytes e) = some (e.1, some (e.2.getD BankData.none)) := by
  simp [entryOfBytes, entryBytes, decode_encode, payloads, ofBytes_elementBytes]

theorem mapM_entryOfBytes (m : RelayTransferTxList) :
    (m.map entryBytes).mapM entryOfBytes = some (RelayTransferTxList.onWire m) := by
  induction m with
  | nil => rfl
  | cons e m ih => simp [List.mapM_cons, entryOfBytes_entryBytes, ih, RelayTransferTxList.onWire]

def wireCodecs : Codecs where
  transferTx :=
    { marshal tx := encode (tx.toTransfer.toFields ++ repeated 7 tx.shards)
      unmarshal bz := (decode bz).bind fun fs =>
        (Emulator.Minibank.Transfer.ofFields fs).map fun t => { t with shards := payloads 7 fs } }
  relayTx :=
    { marshal tx := encode tx.toFields
      unmarshal bz := (decode bz).bind RelayTransferTx.ofFields }
  relayTxSet :=
    { marshal s := encode s.toFields
      unmarshal bz := (decode bz).bind RelayTransferTxSet.ofFields }
  relayTxList :=
    { marshal m := encode (repeated 1 (m.map entryBytes))
      unmarshal bz := (decode bz).bind fun fs => (payloads 1 fs).mapM entryOfBytes }

theorem lawful_wireCodecs : wireCodecs.Lawful where
  relayTx tx := by
    simp only [wireCodecs, decode_encode, Option.bind_some, id_eq]
    exact RelayTransferTx.ofFields_toFields tx
  relayTxSet s := by
    simp only [wireCodecs, decode_encode, Option.bind_some]
    exact RelayTransferTxSet.ofFields_toFields s
  relayTxSet_ne_nil s hs := by
    intro h
    have hfields : s.toFields = [] := encode_eq_nil.mp h
    simp [RelayTransferTxSet.toFields, repeated, hs] at hfields
  relayTxList m _ := by
    refine ⟨RelayTransferTxList.onWire m, ?_, List.Perm.refl _⟩
    simp only [wireCodecs, decode_encode, Option.bind_some, payloads_repeated_self]
    exact mapM_entryOfBytes m
  relayTxList_ne_nil m hm := by
    intro h
    have hfields := encode_eq_nil.mp h
    simp [repeated, hm] at hfields

end Urd.Minibank

/-! ## Pyramid -/

namespace Pyramid.Minibank

/-- What the application relies on. -/
structure Codecs.Lawful (c : Codecs) : Prop where
  bankData : c.bankData.RoundTrips id

def BankData.toFields (d : BankData) : List Field :=
  repeated 1 d.keys ++ numField 2 d.oK.toNat ++ packed 3 (d.values.map UInt32.toNat)

def BankData.ofFields (fs : List Field) : Option BankData :=
  (amountsField 3 fs).map fun values =>
    { keys := payloads 1 fs, oK := number 2 fs != 0, values }

theorem BankData.ofFields_toFields (d : BankData) : BankData.ofFields d.toFields = some d := by
  have hvalues : amountsField 3 d.toFields = some d.values := by
    refine amountsField_of_flatten ?_
    simp [toFields, packed, payloads_repeated_ne, payloads_numField]
  have hkeys : payloads 1 d.toFields = d.keys := by
    simp [toFields, packed, payloads_bytesField_ne, payloads_numField]
  have hok : (number 2 d.toFields != 0) = d.oK := by
    have hnum : numbers 2 d.toFields = if d.oK.toNat = 0 then [] else [d.oK.toNat] := by
      simp [toFields, packed, numbers_numField_self]
    rw [number, hnum]
    cases d.oK <;> rfl
  rw [ofFields, hvalues, hkeys, hok]
  rfl

def wireCodecs : Codecs where
  transferTx :=
    { marshal tx := encode tx.toFields
      unmarshal bz := (decode bz).bind Emulator.Minibank.Transfer.ofFields }
  bankData :=
    { marshal d := encode d.toFields
      unmarshal bz := (decode bz).bind BankData.ofFields }

theorem lawful_wireCodecs : wireCodecs.Lawful where
  bankData d := by
    simp only [wireCodecs, decode_encode, Option.bind_some, id_eq]
    exact BankData.ofFields_toFields d

def transferBytes (t : Emulator.Minibank.Transfer) : Bytes :=
  uint32ToBytes txTransfer ++ wireCodecs.transferTx.marshal t

end Pyramid.Minibank

end Emulator
