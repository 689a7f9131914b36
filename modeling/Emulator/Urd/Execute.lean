import Emulator.Minibank.Conservation
import Emulator.Urd.Steps

/-!
# Transfers within the shard

`execute` runs a transaction of the block on the database that the block's relays were executed on
before. Nothing a relay loaded is left by then.

* `exact_iff` — a transfer between distinct accounts of the shard moves exactly its amounts, unless
  a credit or the sum of the amounts does not fit in 32 bits.
* `execute_isolated` — a transaction that fails changes no account; one that succeeds changes only
  its own, which were and stay free.
-/

namespace Emulator.Urd.Minibank

open Emulator.Action Emulator.Minibank

/-! ## The effect of a transfer -/

/-- From `s` to `s'` the transfer moved its amounts, as natural numbers, and nothing else
changed. -/
structure Exact (tx : Transfer) (s s' : AppDB) : Prop where
  debits : ∀ d ∈ tx.debits, (s'.balance d.1).toNat + d.2.toNat = (s.balance d.1).toNat
  credits : ∀ c ∈ tx.credits, (s'.balance c.1).toNat = (s.balance c.1).toNat + c.2.toNat
  totals : (tx.froms.map fun key => ((s.balance key).toNat : ℤ) - (s'.balance key).toNat).sum =
    (tx.tos.map fun key => ((s'.balance key).toNat : ℤ) - (s.balance key).toNat).sum
  others : ∀ key, key ∉ tx.keys → s'.view key = s.view key

theorem sum_map_of_zip {keys : List Str} {money : List UInt32} (hlen : keys.length = money.length)
    {f : Str → ℤ} (hf : ∀ e ∈ keys.zip money, f e.1 = e.2.toNat) :
    (keys.map f).sum = ((money.map UInt32.toNat).sum : ℕ) := by
  induction keys generalizing money with
  | nil =>
    obtain rfl := List.eq_nil_of_length_eq_zero hlen.symm
    rfl
  | cons key keys ih =>
    cases money with
    | nil => cases hlen
    | cons m money =>
      rw [List.zip_cons_cons, List.forall_mem_cons] at hf
      have hrest := ih (Nat.succ.inj hlen) hf.2
      simp [hf.1, hrest]

section

variable {app : Application} {tx : TransferTx} {s s' : AppDB}

theorem toNat_debit (hnd : tx.keys.Nodup) (hin : ∀ key ∈ tx.keys, app.searchKeyIntraShard key = true)
    (hrun : doTransfer app tx s = (.ok (), s')) {d : Str × UInt32} (hd : d ∈ tx.debits) :
    (s'.balance d.1).toNat + d.2.toNat = (s.balance d.1).toNat := by
  obtain ⟨hr, -⟩ := ready_of_doTransfer hrun
  have hle := urd_funds hin hr d hd
  rw [urd_balance hin hrun, Ledger.transfer_debit (Transfer.nodup_accounts hr.valid hnd) hd,
    UInt32.toNat_sub_of_le _ _ hle]
  have := UInt32.le_iff_toNat_le.mp hle
  omega

theorem toNat_credit (hnd : tx.keys.Nodup) (hin : ∀ key ∈ tx.keys, app.searchKeyIntraShard key = true)
    (hrun : doTransfer app tx s = (.ok (), s')) {c : Str × UInt32} (hc : c ∈ tx.credits) :
    (s'.balance c.1).toNat = ((s.balance c.1).toNat + c.2.toNat) % 2 ^ 32 := by
  obtain ⟨hr, -⟩ := ready_of_doTransfer hrun
  rw [urd_balance hin hrun, Ledger.transfer_credit (Transfer.nodup_accounts hr.valid hnd) hc,
    UInt32.toNat_add]

end

/-- **The effect of a transfer.** For every state and every transfer between pairwise distinct
accounts of the shard that succeeds: it is exact if and only if every credit fits into the
recipient's balance, and the amounts have the same sum on both sides. -/
theorem exact_iff (app : Application) (tx : TransferTx) (s s' : AppDB) (hnd : tx.keys.Nodup)
    (hin : ∀ key ∈ tx.keys, app.searchKeyIntraShard key = true)
    (hrun : doTransfer app tx s = (.ok (), s')) :
    Exact tx.toTransfer s s' ↔
      (∀ c ∈ tx.credits, (s.balance c.1).toNat + c.2.toNat < 2 ^ 32) ∧
        (tx.fromMoney.map UInt32.toNat).sum = (tx.toMoney.map UInt32.toNat).sum := by
  obtain ⟨hr, hdone⟩ := ready_of_doTransfer hrun
  have hcredit := fun c hc => @toNat_credit app tx s s' hnd hin hrun c hc
  have hlost : (tx.froms.map fun key => ((s.balance key).toNat : ℤ) - (s'.balance key).toNat).sum =
      ((tx.fromMoney.map UInt32.toNat).sum : ℕ) := by
    refine sum_map_of_zip hr.valid.from_length fun d hd => ?_
    have := toNat_debit hnd hin hrun hd
    omega
  have hgained (hexact : ∀ c ∈ tx.credits,
      (s'.balance c.1).toNat = (s.balance c.1).toNat + c.2.toNat) :
      (tx.tos.map fun key => ((s'.balance key).toNat : ℤ) - (s.balance key).toNat).sum =
        ((tx.toMoney.map UInt32.toNat).sum : ℕ) := by
    refine sum_map_of_zip hr.valid.to_length fun c hc => ?_
    have := hexact c hc
    omega
  constructor
  · intro h
    refine ⟨fun c hc => ?_, ?_⟩
    · rw [← h.credits c hc]
      exact (s'.balance c.1).toNat_lt
    · have := h.totals
      rw [hlost, hgained h.credits] at this
      exact_mod_cast this
  · intro h
    have hexact : ∀ c ∈ tx.credits,
        (s'.balance c.1).toNat = (s.balance c.1).toNat + c.2.toNat := fun c hc => by
      rw [hcredit c hc, Nat.mod_eq_of_lt (h.1 c hc)]
    refine ⟨fun d hd => toNat_debit hnd hin hrun hd, hexact, ?_, fun key hk =>
      hdone.view_of_not_mem hr.valid hk⟩
    rw [hlost, hgained hexact, h.2]

/-- The payment of 5 from `1` to `2` on an untouched store is exact. -/
theorem exact_payment :
    Exact (localPayment [1] [2]).toTransfer emptyDB (urdAfter [1] [2]) :=
  (exact_iff wholeShard (localPayment [1] [2]) emptyDB (urdAfter [1] [2]) (by decide) (by decide)
    (Prod.ext (by decide) rfl)).mpr (by decide)

/-- Every account has the largest balance there is. -/
def fullDB : AppDB := newDB ⟨fun _ => some ⟨4294967295, freeIdentifier⟩, fun _ => none⟩

/-- Accounts `1` and `3` pay `2 ^ 31` each, and account `2` gets nothing. -/
def vanishing : TransferTx :=
  { froms := [[1], [3]], tos := [[2]], fromMoney := [2147483648, 2147483648], toMoney := [0]
    shards := [[65]] }

/-- A payment to a full account leaves 4 in it, and a payment of `2 ^ 32` to nobody is accepted. -/
theorem not_exact :
    (localPayment [1] [2]).keys.Nodup ∧
    (doTransfer wholeShard (localPayment [1] [2]) fullDB).1 = .ok () ∧
    (fullDB.balance [2]).toNat = 4294967295 ∧
    ((doTransfer wholeShard (localPayment [1] [2]) fullDB).2.balance [2]).toNat = 4 ∧
    vanishing.keys.Nodup ∧
    (doTransfer wholeShard vanishing fullDB).1 = .ok () ∧
    ((doTransfer wholeShard vanishing fullDB).2.balance [1]).toNat + 2147483648 =
      (fullDB.balance [1]).toNat ∧
    (doTransfer wholeShard vanishing fullDB).2.balance [2] = fullDB.balance [2] := by
  decide

/-! ## Transactions of a block -/

section

variable {app : Application}

/-- If nothing was loaded before, nothing is loaded after. -/
def StaysUnloaded (s s' : AppDB) : Prop :=
  (s.retainData = fun _ => none) → s'.retainData = fun _ => none

theorem StaysUnloaded.refl (s : AppDB) : StaysUnloaded s s := fun h => h

theorem StaysUnloaded.trans (a b c : AppDB) (h : StaysUnloaded a b) (h' : StaysUnloaded b c) :
    StaysUnloaded a c := fun ha => h' (h ha)

theorem staysUnloaded_executeCTXS (chains : List Str) (ctxs : List (List Bytes)) :
    Keeps StaysUnloaded (executeCTXS app chains ctxs) := by
  induction ctxs generalizing chains with
  | nil => cases chains <;> exact StaysUnloaded.refl
  | cons opts ctxs ih =>
    cases chains with
    | nil => exact StaysUnloaded.refl
    | cons chain chains =>
      refine Keeps.bind StaysUnloaded.trans ?_ fun _ => ih chains
      refine Keeps.forEach StaysUnloaded.refl StaysUnloaded.trans fun opt _ s hs => ?_
      rw [state_ignoreError]
      exact retainData_executeRelay hs

theorem staysUnloaded_executeTx (raw : Bytes) : Keeps StaysUnloaded (executeTx app raw) := by
  intro s hs
  rw [state_executeTx, retainData_execute, hs]

end

/-- **Transactions of a block are atomic and isolated.** For every store, after any relays and any
transactions `pre` of the block: nothing is loaded when `raw` is executed. If it fails, no account
changes; if it succeeds, it is a transfer that changes its own accounts only, and these are in the
shard's range, were free and end up free. -/
theorem execute_isolated (app : Application) (st : PrefixStore) (ctxs : List (List Bytes))
    (pre : List Bytes) (raw : Bytes) (receipts : List Receipt) (s : AppDB)
    (hrun : (do
      executeCTXS app app.shardIDList ctxs
      mapEach (executeTx app) pre) (newDB st) = (.ok receipts, s)) :
    (s.retainData = fun _ => none) ∧
      ((∃ e s', e ≠ .panic ∧ execute app raw s = (.error e, s') ∧ s'.view = s.view) ∨
        ∃ tx s', decodeTx app raw = some tx ∧ execute app raw s = (.ok (), s') ∧
          (∀ key, key ∉ tx.keys → s'.view key = s.view key) ∧
          ∀ key ∈ tx.keys, app.searchKeyIntraShard key = true ∧ (s.view key).locked = freeIdentifier ∧
            (s'.view key).locked = freeIdentifier) := by
  have hnone : s.retainData = fun _ => none := by
    have hkeeps : Keeps StaysUnloaded (do
        executeCTXS app app.shardIDList ctxs
        mapEach (executeTx app) pre) :=
      Keeps.bind StaysUnloaded.trans (staysUnloaded_executeCTXS _ _) fun _ =>
        Keeps.mapEach StaysUnloaded.refl StaysUnloaded.trans staysUnloaded_executeTx pre
    have := hkeeps (newDB st) rfl
    rwa [hrun] at this
  refine ⟨hnone, ?_⟩
  rcases @execute_cases app raw s with ⟨e, s', hne, hrun, htouched⟩ | ⟨tx, s', hdec, hrun, hr, hdone⟩
  · exact .inl ⟨e, s', hne, hrun, htouched.view⟩
  · refine .inr ⟨tx, s', hdec, hrun, fun key hk => hdone.view_of_not_mem hr.valid hk, fun key hk => ?_⟩
    have husable := hr.usable_of_mem hk
    -- a key out of range could only be usable by what was loaded
    have hin : app.searchKeyIntraShard key = true := by
      by_contra hout
      simp [usable, look, hout, hnone] at husable
    refine ⟨hin, ?_, by rw [hdone.locked key hin, if_pos hk]⟩
    simpa [usable, look, hin, isFree] using husable

/-- The payment of 5 from `1` to `2`, as a transaction. -/
def localRaw : Bytes := uint32ToBytes txTransfer ++ wireCodecs.transferTx.marshal (localPayment [1] [2])

/-- The database of `wholeShard` after it executed the payment once. -/
def paidOnce : AppDB :=
  ((do
    executeCTXS wholeShard wholeShard.shardIDList [[]]
    mapEach (executeTx wholeShard) [localRaw]) emptyDB).2

/-- The same payment once more succeeds, and does not touch account `3`. -/
theorem execute_isolated_payment :
    (paidOnce.retainData = fun _ => none) ∧
      ∃ s', execute wholeShard localRaw paidOnce = (.ok (), s') ∧ s'.view [3] = paidOnce.view [3] := by
  obtain ⟨hnone, hcases⟩ := execute_isolated wholeShard emptyStore [[]] [localRaw] localRaw
    [{ code := codeTypeOK, info := [], rawTx := localRaw }] paidOnce (Prod.ext (by decide +kernel) rfl)
  refine ⟨hnone, ?_⟩
  rcases hcases with ⟨e, s', -, hrun, -⟩ | ⟨tx, s', hdec, hrun, hother, -⟩
  · have hok : (execute wholeShard localRaw paidOnce).1 = .ok () := by decide +kernel
    rw [hrun] at hok
    cases hok
  · have htx : decodeTx wholeShard localRaw = some (localPayment [1] [2]) := by decide +kernel
    obtain rfl := Option.some.inj (htx.symm.trans hdec)
    exact ⟨s', hrun, hother [3] (by decide)⟩

end Emulator.Urd.Minibank
