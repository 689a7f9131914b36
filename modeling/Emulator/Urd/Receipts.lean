import Emulator.Urd.Minibank
import Mathlib.Data.List.Sort

/-!
# Receipts on the wire

A receipt carries a map of options, which is sent as a list of keys and a list of values. `ToProto`
sorts the keys and then appends the values to the list of the *keys*, so the list of values stays
empty, and `NewABCIReceiptFromProto` indexes past its end.

* `isSome_readOptions` — the options are read exactly when there is a value for every key.
* `receipt_roundTrips_iff` — a receipt comes back exactly when it has no options.
* `newABCIReceiptFromProto_execution` — every receipt of `Execution` has one.
-/

namespace Emulator.Urd

/-! ## Options -/

/-- A Go map from strings to strings: its entries in some order, no key twice. -/
structure StrMap where
  entries : List (Str × Str)
  nodup : (entries.map Prod.fst).Nodup

namespace StrMap

def empty : StrMap := ⟨[], List.nodup_nil⟩

def get (m : StrMap) (key : Str) : Option Str := m.entries.lookup key

theorem nodup_insert (m : StrMap) (key value : Str) :
    (((key, value) :: m.entries.filter fun e => e.1 ≠ key).map Prod.fst).Nodup := by
  rw [List.map_cons, List.nodup_cons]
  constructor
  · intro h
    obtain ⟨e, he, hkey⟩ := List.mem_map.mp h
    exact of_decide_eq_true (List.mem_filter.mp he).2 hkey
  · exact m.nodup.sublist (List.filter_sublist.map Prod.fst)

/-- `m[key] = value`. -/
def insert (m : StrMap) (key value : Str) : StrMap :=
  ⟨(key, value) :: m.entries.filter fun e => e.1 ≠ key, m.nodup_insert key value⟩

theorem lookup_filter_ne {l : List (Str × Str)} {key k : Str} (h : k ≠ key) :
    (l.filter fun e => e.1 ≠ key).lookup k = l.lookup k := by
  induction l with
  | nil => rfl
  | cons e l ih =>
    by_cases hkey : e.1 = key
    · have hk : (k == e.1) = false := beq_false_of_ne (hkey ▸ h)
      rw [List.filter_cons_of_neg (by simp [hkey]), ih, List.lookup_cons, hk]
    · rw [List.filter_cons_of_pos (by simp [hkey]), List.lookup_cons, List.lookup_cons, ih]

theorem get_insert (m : StrMap) (key value k : Str) :
    (m.insert key value).get k = if k = key then some value else m.get k := by
  unfold get insert
  by_cases h : k = key
  · subst h
    simp
  · have hk : (k == key) = false := beq_false_of_ne h
    rw [if_neg h, List.lookup_cons, hk]
    exact lookup_filter_ne h

end StrMap

/-! ## Receipts -/

structure ABCIExecutionReceipt where
  code : Int8
  log : Str
  info : Str
  options : StrMap

/-- The message `urd.types.ABCIExecutionReceipt`. -/
structure PbABCIExecutionReceipt where
  code : ℤ
  log : Str
  info : Str
  optionKey : List Str
  optionValue : List Str
  deriving DecidableEq, Repr

namespace ABCIExecutionReceipt

def setRawTx (r : ABCIExecutionReceipt) (tx : Bytes) : ABCIExecutionReceipt :=
  { r with options := r.options.insert (str "rawTx") tx }

def getRawTx (r : ABCIExecutionReceipt) : Bytes := (r.options.get (str "rawTx")).getD []

theorem getRawTx_setRawTx (r : ABCIExecutionReceipt) (tx : Bytes) : (r.setRawTx tx).getRawTx = tx := by
  simp [getRawTx, setRawTx, StrMap.get_insert]

/-- `ToProto`. The loop over the sorted keys appends to `opKeyList`. -/
def toProto (r : ABCIExecutionReceipt) : PbABCIExecutionReceipt :=
  let opKeyList := (r.options.entries.map Prod.fst).insertionSort (· ≤ ·)
  { code := r.code.toInt
    log := r.log
    info := r.info
    optionKey := opKeyList ++ opKeyList.map fun key => (r.options.get key).getD []
    optionValue := [] }

/-- The two receipts have the same code, texts and options. -/
structure Same (r r' : ABCIExecutionReceipt) : Prop where
  code : r'.code = r.code
  log : r'.log = r.log
  info : r'.info = r.info
  options : ∀ key, r'.options.get key = r.options.get key

end ABCIExecutionReceipt

/-- The loop over `OptionKey`; an index past the end of `OptionValue` panics. -/
def readOptions : List Str → List Str → StrMap → Option StrMap
  | [], _, m => some m
  | _ :: _, [], _ => none
  | key :: keys, value :: values, m => readOptions keys values (m.insert key value)

def newABCIReceiptFromProto (p : PbABCIExecutionReceipt) : Option ABCIExecutionReceipt :=
  (readOptions p.optionKey p.optionValue .empty).map fun options =>
    { code := Int8.ofInt p.code, log := p.log, info := p.info, options }

theorem isSome_readOptions {keys values : List Str} {m : StrMap} :
    (readOptions keys values m).isSome = true ↔ keys.length ≤ values.length := by
  induction keys generalizing values m with
  | nil => simp [readOptions]
  | cons key keys ih =>
    cases values with
    | nil => simp [readOptions]
    | cons value values => simp [readOptions, ih]

/-- What `ToProto` writes has a value for every key only if there are none. -/
theorem isSome_newABCIReceiptFromProto_toProto {r : ABCIExecutionReceipt} :
    (newABCIReceiptFromProto r.toProto).isSome = true ↔ r.options.entries = [] := by
  rw [newABCIReceiptFromProto, Option.isSome_map, isSome_readOptions]
  simp [ABCIExecutionReceipt.toProto]

/-- **A receipt comes back exactly when it has no options.** -/
theorem receipt_roundTrips_iff (r : ABCIExecutionReceipt) :
    (∃ r', newABCIReceiptFromProto r.toProto = some r' ∧ r.Same r') ↔ r.options.entries = [] := by
  constructor
  · intro h
    obtain ⟨r', hread, -⟩ := h
    exact isSome_newABCIReceiptFromProto_toProto.mp (by rw [hread]; rfl)
  · intro h
    refine ⟨{ r with options := .empty }, ?_, rfl, rfl, rfl, fun key => ?_⟩
    · simp [newABCIReceiptFromProto, ABCIExecutionReceipt.toProto, h, readOptions]
    · rw [StrMap.get, StrMap.get, h]
      rfl

/-! ## The receipts of an execution -/

/-- A receipt of `Execution`, which has the transaction among its options. -/
def Minibank.Receipt.toABCI (r : Minibank.Receipt) : ABCIExecutionReceipt :=
  ABCIExecutionReceipt.setRawTx ⟨r.code, [], r.info, .empty⟩ r.rawTx

/-- No receipt of `Execution` can be read back. -/
theorem newABCIReceiptFromProto_execution (r : Minibank.Receipt) :
    newABCIReceiptFromProto r.toABCI.toProto = none := by
  rw [← Option.not_isSome_iff_eq_none, isSome_newABCIReceiptFromProto_toProto]
  exact List.cons_ne_nil _ _

/-- The receipt of a transaction that was executed: its message has two keys and no value, and the
receiver panics. -/
theorem not_roundTrips_rawTx :
    (Minibank.Receipt.toABCI ⟨Minibank.codeTypeOK, [], [7]⟩).getRawTx = [7] ∧
    (Minibank.Receipt.toABCI ⟨Minibank.codeTypeOK, [], [7]⟩).toProto =
      { code := 1, log := [], info := [], optionKey := [str "rawTx", [7]], optionValue := [] } ∧
    newABCIReceiptFromProto (Minibank.Receipt.toABCI ⟨Minibank.codeTypeOK, [], [7]⟩).toProto = none := by
  refine ⟨ABCIExecutionReceipt.getRawTx_setRawTx _ _, by decide +kernel, ?_⟩
  exact newABCIReceiptFromProto_execution _

end Emulator.Urd
