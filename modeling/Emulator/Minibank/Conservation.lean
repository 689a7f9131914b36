import Emulator.Minibank.Wire
import Emulator.Pyramid.Blocks
import Emulator.Urd.Transfer

/-!
# Is money conserved?

Both minibanks compute every new balance of a transfer from the balances before it, and write them
one after another. An account that occurs twice therefore only keeps its last write, and an account
on both sides keeps its credit and loses its debit; amounts are added in `uint32` and wrap.

* `conserved_iff` — for a successful transfer within the shard the total is kept exactly when the
  transfer is `Ledger.Balanced`.
-/

namespace Emulator.Minibank

/-! ## Urd -/

theorem urd_balance {app : Urd.Minibank.Application} {tx : Urd.Minibank.TransferTx}
    {s s' : Urd.Minibank.AppDB} (hin : ∀ key ∈ tx.keys, app.searchKeyIntraShard key = true)
    (hrun : Urd.Minibank.doTransfer app tx s = (.ok (), s')) :
    s'.balance = Ledger.transfer s.balance tx.debits tx.credits := by
  obtain ⟨hr, hdone⟩ := Urd.Minibank.ready_of_doTransfer hrun
  funext key
  cases hk : app.searchKeyIntraShard key with
  | true =>
    show (s'.view key).money = _
    rw [hdone.money key hk]
    refine Ledger.transfer_congr tx.debits tx.credits ?_
    simp [Urd.Minibank.ledger, Urd.Minibank.look, hk, Urd.Minibank.AppDB.balance]
  | false =>
    have hno : key ∉ tx.keys := fun hmem => by
      rw [hin key hmem] at hk
      cases hk
    rw [transfer_of_not_mem hr.valid _ hno]
    simp only [Urd.Minibank.AppDB.balance, Urd.Minibank.AppDB.view, hdone.other key hk]

theorem urd_funds {app : Urd.Minibank.Application} {tx : Urd.Minibank.TransferTx}
    {s : Urd.Minibank.AppDB} (hin : ∀ key ∈ tx.keys, app.searchKeyIntraShard key = true)
    (hr : Urd.Minibank.Ready app tx s) : ∀ d ∈ tx.debits, d.2 ≤ s.balance d.1 := by
  intro d hd
  have hkey : app.searchKeyIntraShard d.1 = true :=
    hin _ (Transfer.mem_keys_of_debit hd)
  have hcan := List.all_eq_true.mp hr.debits d hd
  have hledger : Urd.Minibank.ledger app s d.1 = s.balance d.1 := by
    simp [Urd.Minibank.ledger, Urd.Minibank.look, hkey, Urd.Minibank.AppDB.balance]
  rw [Urd.Minibank.canDebit, Bool.and_eq_true_iff, hledger] at hcan
  exact of_decide_eq_true hcan.2

/-! ## Pyramid -/

open Pyramid.Minibank in
theorem pyramid_ready {locked : Amounts} {search : Str → Bool} {m m' : MemoryDB} {tx : Transfer}
    (hm : Clean m) (hrun : doTransfer locked (rangeDB search) tx m = (.ok (), m')) :
    ready locked (inRange search m.current) search tx = true ∧
      (m'.commitWrite true).current =
        overlay m.current (tx.writes (ledger (inRange search m.current))) := by
  obtain ⟨m₁, hc, h⟩ := run_doTransfer locked (serves_rangeDB search) m tx
  rw [answer_rangeDB hm] at h
  split at h
  · next hr =>
    rw [h] at hrun
    obtain rfl : List.foldl MemoryDB.buffer m₁ _ = m' := congrArg Prod.snd hrun
    refine ⟨hr, ?_⟩
    rw [current_commitWrite_buffer m₁ (fun key => ?_), hc.current]
    rw [hc.writeBuffer]
    exact hm.writeBuffer key
  · obtain ⟨e, b, he⟩ := h
    rw [he] at hrun
    cases hrun

/-! ## The total -/

/-- **When a transfer within a shard conserves money.** In both applications: for every state and
every transfer that succeeds with all its accounts in the shard's range, the total over any set of
accounts that contains them is kept exactly when the transfer is balanced. -/
theorem conserved_iff (S : Finset Str) :
    (∀ (app : Urd.Minibank.Application) (tx : Urd.Minibank.TransferTx)
        (s s' : Urd.Minibank.AppDB),
      (∀ key ∈ tx.keys, app.searchKeyIntraShard key = true) →
      Urd.Minibank.doTransfer app tx s = (.ok (), s') → (∀ key ∈ tx.keys, key ∈ S) →
        (∑ key ∈ S, (s'.balance key).toNat = ∑ key ∈ S, (s.balance key).toNat ↔
          Ledger.Balanced s.balance tx.debits tx.credits)) ∧
    (∀ (locked : Pyramid.Minibank.Amounts) (search : Str → Bool) (tx : Transfer)
        (m m' : Pyramid.Minibank.MemoryDB),
      Pyramid.Minibank.Clean m → (∀ key ∈ tx.keys, search key = true) →
      Pyramid.Minibank.doTransfer locked (Pyramid.Minibank.rangeDB search) tx m = (.ok (), m') →
      (∀ key ∈ tx.keys, key ∈ S) →
        (∑ key ∈ S, (Pyramid.Minibank.balanceOf (m'.commitWrite true).current key).toNat =
            ∑ key ∈ S, (Pyramid.Minibank.balanceOf m.current key).toNat ↔
          Ledger.Balanced (Pyramid.Minibank.balanceOf m.current) tx.debits tx.credits)) := by
  refine ⟨fun app tx s s' hin hrun hS => ?_, fun locked search tx m m' hm hin hrun hS => ?_⟩
  · obtain ⟨hr, -⟩ := Urd.Minibank.ready_of_doTransfer hrun
    obtain ⟨hd, hc⟩ := accounts_subset hr.valid hS
    rw [urd_balance hin hrun]
    exact Ledger.sum_transfer_eq_iff (urd_funds hin hr) hd hc
  · obtain ⟨hr, hcur⟩ := pyramid_ready hm hrun
    obtain ⟨hv, -, hfunds⟩ := Pyramid.Minibank.ready_inRange_iff.mp hr
    obtain ⟨hd, hc⟩ := accounts_subset hv hS
    rw [hcur, Pyramid.Minibank.balanceOf_overlay_writes hin]
    exact Ledger.sum_transfer_eq_iff hfunds hd hc

/-! ## A balanced transfer and one that is not -/

/-- An Urd shard that owns every account. -/
def wholeShard : Urd.Minibank.Application where
  keyRangeTrees := [([65], fun _ => true)]
  chainId := [65]
  shardIDList := [[65]]
  codecs := Urd.Minibank.wireCodecs
  txHash := id

/-- A store nothing was written to yet. -/
def emptyDB : Urd.Minibank.AppDB := Urd.Minibank.newDB ⟨fun _ => none, fun _ => none⟩

/-- The payment as a transaction of the shard. -/
def localPayment (a b : Str) : Urd.Minibank.TransferTx := { payment a b with shards := [[65]] }

/-- The states after the payment from an untouched account. -/
def urdAfter (a b : Str) : Urd.Minibank.AppDB :=
  (Urd.Minibank.doTransfer wholeShard (localPayment a b) emptyDB).2

def pyramidAfter (a b : Str) : Pyramid.Minibank.MemoryDB :=
  (Pyramid.Minibank.doTransfer (fun _ => none) (Pyramid.Minibank.rangeDB fun _ => true) (payment a b)
    (Pyramid.Minibank.newMemoryDB fun _ => none)).2

/-- A payment between two accounts keeps their total. -/
theorem conserved_payment :
    (∑ key ∈ {[1], [2]}, ((urdAfter [1] [2]).balance key).toNat =
        ∑ key ∈ {[1], [2]}, (emptyDB.balance key).toNat ↔
      Ledger.Balanced emptyDB.balance (payment [1] [2]).debits (payment [1] [2]).credits) ∧
    (∑ key ∈ {[1], [2]},
        (Pyramid.Minibank.balanceOf ((pyramidAfter [1] [2]).commitWrite true).current key).toNat =
        ∑ key ∈ {[1], [2]}, (Pyramid.Minibank.balanceOf
          (Pyramid.Minibank.newMemoryDB fun _ => none).current key).toNat ↔
      Ledger.Balanced (Pyramid.Minibank.balanceOf
        (Pyramid.Minibank.newMemoryDB fun _ => none).current)
        (payment [1] [2]).debits (payment [1] [2]).credits) ∧
    Ledger.Balanced emptyDB.balance (payment [1] [2]).debits (payment [1] [2]).credits :=
  ⟨(conserved_iff {[1], [2]}).1 wholeShard (localPayment [1] [2]) emptyDB (urdAfter [1] [2])
      (by decide) (Prod.ext (by decide) rfl) (by decide),
    (conserved_iff {[1], [2]}).2 (fun _ => none) (fun _ => true) (payment [1] [2])
      (Pyramid.Minibank.newMemoryDB fun _ => none) (pyramidAfter [1] [2])
      (Pyramid.Minibank.clean_newMemoryDB _) (by decide) (Prod.ext (by decide) rfl) (by decide),
    by decide⟩

/-- A payment of an account to itself creates money in both applications. -/
theorem not_conserved_self_payment :
    (Urd.Minibank.doTransfer wholeShard (localPayment [1] [1]) emptyDB).1 = .ok () ∧
    (emptyDB.balance [1]).toNat = 1000000 ∧ ((urdAfter [1] [1]).balance [1]).toNat = 1000005 ∧
    (Pyramid.Minibank.doTransfer (fun _ => none) (Pyramid.Minibank.rangeDB fun _ => true)
      (payment [1] [1]) (Pyramid.Minibank.newMemoryDB fun _ => none)).1 = .ok () ∧
    (Pyramid.Minibank.balanceOf
      ((pyramidAfter [1] [1]).commitWrite true).current [1]).toNat = 1000005 := by
  decide

end Emulator.Minibank
