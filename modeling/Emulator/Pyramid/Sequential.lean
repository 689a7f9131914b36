import Emulator.Pyramid.Locks

/-!
# Blocks within a shard as sequential transfers

`ExecutionInnerShard` runs the transactions of a block on buffers over the store. What a reader
expects is a plain ledger: a transaction that is a valid transfer between free accounts of the
shard, with sources that have enough, posts all its debits and credits, and any other does nothing.

**Theorem (`executionInnerShard_refines_iff`).** Whatever the store, the locks and the key range,
the blocks over a set of transactions leave the balances and receipts of the plain ledger exactly
when every valid transfer of the set is `Ledger.Complete`.

Between transactions only the balances count (`exists_innerTxs`), so a block is compared with the
ledger transaction by transaction. There the two differ in how they read an account that occurs more
than once: `doTransfer` checks every debit on its own and keeps the last write.

* `applyTxs` — the plain ledger.
* `applyTx_eq`, `applyTxs_eq` — a complete transfer and a block of them do on the store what they do
  on the ledger.
* `complete_of_distinct` — a transfer between distinct accounts is complete.
-/

namespace Emulator.Pyramid.Minibank

open Emulator.Action Emulator.Minibank

/-! ## The plain ledger -/

section

variable (app : Application) (locked : Amounts) (range : Str → Bool)

/-- A valid transfer that touches only free keys of the range, with sources that have enough. -/
structure TakesEffect (bal : Str → UInt32) (t : Transfer) : Prop where
  valid : t.Valid
  free : ∀ key ∈ t.keys, locked key = none ∧ range key = true
  covered : Ledger.Covered bal t.debits

instance (bal : Str → UInt32) (t : Transfer) : Decidable (TakesEffect locked range bal t) :=
  decidable_of_iff (t.Valid ∧ (∀ key ∈ t.keys, locked key = none ∧ range key = true) ∧
    Ledger.Covered bal t.debits)
    ⟨fun h => ⟨h.1, h.2.1, h.2.2⟩, fun h => ⟨h.valid, h.free, h.covered⟩⟩

/-- One transaction: the new balances, and whether it took effect. -/
def applyTx (bal : Str → UInt32) (tx : Bytes) : (Str → UInt32) × Bool :=
  match unmarshalTransferTx app tx with
  | .error _ => (bal, false)
  | .ok t =>
    if TakesEffect locked range bal t then (Ledger.post bal t.debits t.credits, true)
    else (bal, false)

def applyTxs : (Str → UInt32) → List Bytes → (Str → UInt32) × List Bool
  | bal, [] => (bal, [])
  | bal, tx :: txs =>
    let one := applyTx app locked range bal tx
    let rest := applyTxs one.1 txs
    (rest.1, one.2 :: rest.2)

/-- What a call of `ExecutionInnerShard` for `block` should leave: the balances and receipts of the
plain ledger, and nothing changed outside the range, at locked keys and in the lock table. -/
structure Refines (block : Block) (s : AppState) (rs : List Receipt) (s' : AppState) : Prop where
  balances : balanceOf s'.store = (applyTxs app s.lockedKeys (app.keyRangeTree block.chainID)
    (balanceOf s.store) block.bodyTxs).1
  receipts : rs.map Receipt.isOK = (applyTxs app s.lockedKeys (app.keyRangeTree block.chainID)
    (balanceOf s.store) block.bodyTxs).2
  outside : ∀ key, app.keyRangeTree block.chainID key = false → s'.store key = s.store key
  locked : ∀ key, (s.lockedKeys key).isSome = true → s'.store key = s.store key
  lockedKeys : s'.lockedKeys = s.lockedKeys

end

/-! ## One transaction -/

variable {app : Application} {locked : Amounts} {range : Str → Bool} {amounts : Amounts}

/-- **One transaction.** If it is complete or no valid transfer, it does on the store what it does
on the plain ledger. -/
theorem applyTx_eq {tx : Bytes}
    (hcomplete : ∀ t, unmarshalTransferTx app tx = .ok t → t.Valid →
      Ledger.Complete t.debits t.credits) :
    applyTx app locked range (balanceOf amounts) tx =
      (balanceOf (innerEffect app locked range amounts tx),
        (effect locked (inRange range amounts) range app tx).isSome) := by
  unfold applyTx innerEffect effect
  cases hdec : unmarshalTransferTx app tx with
  | error e => rfl
  | ok t =>
    by_cases hr : ready locked (inRange range amounts) range t = true
    · obtain ⟨hv, hfree, hfunds⟩ := ready_inRange_iff.mp hr
      have hc := hcomplete t hdec hv
      have htakes : TakesEffect locked range (balanceOf amounts) t :=
        ⟨hv, hfree, (Ledger.covered_iff hc.single).mp hfunds⟩
      simp only [if_pos hr, if_pos htakes, Option.getD_some, Option.isSome_some,
        balanceOf_overlay_writes fun key hk => (hfree key hk).2, Ledger.transfer_eq_post hc.last]
    · have hno : ¬TakesEffect locked range (balanceOf amounts) t := by
        intro h
        have hfunds := (Ledger.covered_iff (hcomplete t hdec h.valid).single).mpr h.covered
        exact hr (ready_inRange_iff.mpr ⟨h.valid, h.free, hfunds⟩)
      simp only [if_neg hr, if_neg hno, Option.getD_none, Option.isSome_none, overlay_nil]

/-! ## Whole blocks -/

theorem applyTxs_eq {txs : List Bytes}
    (hcomplete : ∀ tx ∈ txs, ∀ t, unmarshalTransferTx app tx = .ok t → t.Valid →
      Ledger.Complete t.debits t.credits) :
    applyTxs app locked range (balanceOf amounts) txs =
      (balanceOf (txs.foldl (innerEffect app locked range) amounts),
        innerOKs app locked range amounts txs) := by
  induction txs generalizing amounts with
  | nil => rfl
  | cons tx txs ih =>
    rw [applyTxs, applyTx_eq (hcomplete tx List.mem_cons_self),
      ih fun tx' h => hcomplete tx' (List.mem_cons_of_mem tx h)]
    rfl

theorem refines_of_complete {block : Block} (htype : block.blockType = .innerShard) (s : AppState)
    (hcomplete : ∀ tx ∈ block.bodyTxs, ∀ t, unmarshalTransferTx app tx = .ok t → t.Valid →
      Ledger.Complete t.debits t.credits) :
    ∃ rs s', executionInnerShard app block s = (.ok rs, s') ∧ Refines app block s rs s' := by
  obtain ⟨rs, s', hrun, hoks⟩ := exists_executionInnerShard app htype s
  have hs' := executionInnerShard_ok hrun
  refine ⟨rs, s', hrun, ?_⟩
  subst hs'
  constructor
  case balances => rw [applyTxs_eq hcomplete]
  case receipts => rw [applyTxs_eq hcomplete, hoks]
  case outside => exact fun key hk => foldl_innerEffect_of_not_range hk
  case locked =>
    intro key hk
    refine foldl_innerEffect_of_frozen fun h => ?_
    rw [h.1] at hk
    cases hk
  case lockedKeys => rfl

/-- A transfer between distinct accounts posts all it should. -/
theorem complete_of_distinct {t : Transfer} (hv : t.Valid) (hnd : t.keys.Nodup) :
    Ledger.Complete t.debits t.credits :=
  Ledger.complete_of_nodup (Transfer.nodup_accounts hv hnd)

example : Ledger.Complete (payment [1] [2]).debits (payment [1] [2]).credits :=
  complete_of_distinct (by decide) (by decide)

/-! ## The other way round -/

/-- A valid transfer that does the same on both, whatever the balances, is complete. -/
theorem complete_of_applyTx_eq {tx : Bytes} {t : Transfer} (hdec : unmarshalTransferTx app tx = .ok t)
    (hv : t.Valid)
    (h : ∀ bal : Str → UInt32, applyTx app (fun _ => none) (fun _ => true) bal tx =
      (balanceOf (innerEffect app (fun _ => none) (fun _ => true) (fun key => some (bal key)) tx),
        (effect (fun _ => none) (inRange (fun _ => true) fun key => some (bal key)) (fun _ => true)
          app tx).isSome)) :
    Ledger.Complete t.debits t.credits := by
  refine Ledger.complete_iff.mpr fun bal => ?_
  have hfree : ∀ key ∈ t.keys, (none : Option UInt32) = none ∧ true = true := fun _ _ => ⟨rfl, rfl⟩
  have hready : ready (fun _ => none) (inRange (fun _ => true) fun key => some (bal key))
      (fun _ => true) t = true ↔ ∀ d ∈ t.debits, d.2 ≤ bal d.1 :=
    ready_inRange_iff.trans ⟨fun h => h.2.2, fun h => ⟨hv, hfree, h⟩⟩
  have htakes : TakesEffect (fun _ => none) (fun _ => true) bal t ↔ Ledger.Covered bal t.debits :=
    ⟨fun h => h.covered, fun h => ⟨hv, hfree, h⟩⟩
  have hbal := h bal
  simp only [applyTx, innerEffect, effect, hdec, hready, htakes] at hbal
  by_cases hfunds : ∀ d ∈ t.debits, d.2 ≤ bal d.1
  · by_cases hcov : Ledger.Covered bal t.debits
    · rw [if_pos hfunds, if_pos hcov, Option.getD_some,
        balanceOf_overlay_writes fun _ _ => rfl] at hbal
      exact ⟨iff_of_true hfunds hcov, fun _ => (congrArg Prod.fst hbal).symm⟩
    · rw [if_pos hfunds, if_neg hcov] at hbal
      cases congrArg Prod.snd hbal
  · by_cases hcov : Ledger.Covered bal t.debits
    · rw [if_neg hfunds, if_pos hcov] at hbal
      cases congrArg Prod.snd hbal
    · exact ⟨iff_of_false hfunds hcov, fun h => absurd h hcov⟩

def oneTxBlock (tx : Bytes) : Block := { emptyBlock .innerShard [] 0 with bodyTxs := [tx] }

/-- Nothing is locked, and every account has the balance that `bal` gives it. -/
def stateWith (bal : Str → UInt32) : AppState where
  store key := some (bal key)
  lockedKeys _ := none
  blocks _ := none
  accepted _ := false

/-- **Blocks refine sequential transfers** exactly if they are made of complete ones. For every set
of transactions: whatever the key ranges, the store and the lock table, each intra-shard block with
transactions of the set is executed and leaves what the plain ledger leaves, if and only if every
valid transfer in the set is complete. -/
theorem executionInnerShard_refines_iff (app : Application) (S : Set Bytes) :
    (∀ (range : Str → Str → Bool) (block : Block) (s : AppState), block.blockType = .innerShard →
      (∀ tx ∈ block.bodyTxs, tx ∈ S) →
        ∃ rs s', executionInnerShard { app with keyRangeTree := range } block s = (.ok rs, s') ∧
          Refines { app with keyRangeTree := range } block s rs s') ↔
    ∀ tx ∈ S, ∀ t, unmarshalTransferTx app tx = .ok t → t.Valid →
      Ledger.Complete t.debits t.credits := by
  constructor
  · intro h tx htx t hdec hv
    refine complete_of_applyTx_eq hdec hv fun bal => ?_
    obtain ⟨rs, s', hrun, href⟩ := h (fun _ _ => true) (oneTxBlock tx) (stateWith bal) rfl
      fun tx' hmem => List.mem_singleton.mp hmem ▸ htx
    have htype : (oneTxBlock tx).blockType = .innerShard := rfl
    obtain ⟨rs', s₁, hrun', hoks⟩ := exists_executionInnerShard
      { app with keyRangeTree := fun _ _ => true } htype (stateWith bal)
    obtain ⟨hrs, -⟩ := Prod.ext_iff.mp (hrun'.symm.trans hrun)
    obtain rfl := Except.ok.inj hrs
    have hbalances := href.balances
    rw [executionInnerShard_ok hrun] at hbalances
    have hreceipts := href.receipts.symm.trans hoks
    exact Prod.ext hbalances.symm (List.cons.inj hreceipts).1
  · intro h range block s htype hS
    exact refines_of_complete htype s fun tx hmem t => h tx (hS tx hmem) t

/-- Account 1 is charged twice for a payment to account 2. -/
def chargedTwice : Transfer :=
  { froms := [[1], [1]], tos := [[2]], fromMoney := [600000, 600000], toMoney := [1200000] }

/-- The shard executes the block of that transfer on untouched accounts. -/
def chargedTwiceRun : Except BankError (List Receipt) × AppState :=
  executionInnerShard oneShard (oneTxBlock (transferBytes chargedTwice))
    (stateWith fun _ => initBalance)

/-- The plain ledger refuses the transfer, since account 1 does not have both amounts. The shard
executes it, and charges account 1 once. -/
theorem not_refines_chargedTwice :
    chargedTwiceRun.1 = .ok [{ code := codeTypeOK, log := [] }] ∧
    balanceOf chargedTwiceRun.2.store [1] = 400000 ∧
    balanceOf chargedTwiceRun.2.store [2] = 2200000 ∧
    (applyTxs oneShard (fun _ => none) (fun _ => true) (fun _ => initBalance)
      [transferBytes chargedTwice]).2 = [false] ∧
    ¬∃ rs, chargedTwiceRun.1 = .ok rs ∧ Refines oneShard (oneTxBlock (transferBytes chargedTwice))
      (stateWith fun _ => initBalance) rs chargedTwiceRun.2 := by
  have hrun : chargedTwiceRun.1 = .ok [{ code := codeTypeOK, log := [] }] := by decide +kernel
  have hledger : (applyTxs oneShard (fun _ => none) (fun _ => true) (fun _ => initBalance)
      [transferBytes chargedTwice]).2 = [false] := by decide +kernel
  refine ⟨hrun, by decide +kernel, by decide +kernel, hledger, fun h => ?_⟩
  obtain ⟨rs, hrs, href⟩ := h
  obtain rfl := Except.ok.inj (hrun.symm.trans hrs)
  have hreceipts := href.receipts.trans hledger
  revert hreceipts
  decide

end Emulator.Pyramid.Minibank
