import Emulator.Pyramid.Locks

/-!
# Overdrafts on shipped balances

`AcceptCrossShard` executes a transaction on the balances that were shipped with it. An account with
no entry there cannot be read, and `doTransfer` then goes on with the initial balance, without the
check that the account has enough. The subtraction is one of `uint32` and wraps.

* `acceptTxs_getElem?` — the transaction behind a receipt, and the memory it was executed on.
* `noOverdraft_iff` — of a transaction that was executed, no source is overdrawn exactly when the
  sources with no entry pay at most the initial balance.
-/

namespace Emulator.Pyramid.Minibank

open Emulator.Action Emulator.Minibank

variable {app : Application} {locked csd : Amounts} {t : Transfer}

/-! ## Debits on shipped balances -/

/-- The new balances of the sources that `doTransfer` computes on the shipped balances. -/
def fromBalance (locked csd : Amounts) (t : Transfer) (m : MemoryDB) :
    Except BankError (List UInt32) :=
  (mapEach (readFrom locked (crossShardDB csd)) t.debits m).1

/-- Every source has enough, and its new balance is what it had less what it pays. -/
structure NoOverdraft (locked csd : Amounts) (t : Transfer) (m : MemoryDB) : Prop where
  enough : ∀ d ∈ t.debits, d.2 ≤ ledger csd d.1
  difference : ∃ balances, fromBalance locked csd t m = .ok balances ∧
    List.Forall₂ (fun d balance => balance.toNat + d.2.toNat = (ledger csd d.1).toNat) t.debits
      balances

/-- The new balances, when nothing of the transaction is written yet. -/
theorem fromBalance_eq {m : MemoryDB} (hm : Clean m)
    (hd : t.debits.all (canDebit locked csd) = true) :
    fromBalance locked csd t m = .ok (t.debits.map fun d => ledger csd d.1 - d.2) := by
  have hpeek : (fun key => (m.writeBuffer key).or (csd key)) = csd := by
    funext key
    simp [hm.writeBuffer key]
  obtain ⟨m', hrun, -⟩ := (reads_debits (serves_crossShardDB csd) t.debits).run_ok
    (if_pos (by rw [hpeek]; exact hd))
  rw [hpeek] at hrun
  exact congrArg Prod.fst hrun

/-- A source with an entry was checked, one without was not. -/
theorem le_ledger_iff {d : Str × UInt32} (hd : canDebit locked csd d = true) :
    d.2 ≤ ledger csd d.1 ↔ (csd d.1 = none → d.2 ≤ initBalance) := by
  cases hc : csd d.1 with
  | none => simp [ledger, hc]
  | some balance =>
    have hle : d.2 ≤ balance := by
      simp only [canDebit, hc, Option.all_some, Bool.and_eq_true, decide_eq_true_eq] at hd
      exact hd.2
    simp [ledger, hc, hle]

theorem noOverdraft_iff_of_canDebit {m : MemoryDB} (hm : Clean m)
    (hd : t.debits.all (canDebit locked csd) = true) :
    NoOverdraft locked csd t m ↔ ∀ d ∈ t.debits, csd d.1 = none → d.2 ≤ initBalance := by
  have hcan := List.all_eq_true.mp hd
  constructor
  · intro h d hmem
    exact (le_ledger_iff (hcan d hmem)).mp (h.enough d hmem)
  · intro h
    have henough : ∀ d ∈ t.debits, d.2 ≤ ledger csd d.1 := fun d hmem =>
      (le_ledger_iff (hcan d hmem)).mpr (h d hmem)
    refine ⟨henough, _, fromBalance_eq hm hd, ?_⟩
    rw [List.forall₂_map_right_iff, List.forall₂_same]
    intro d hmem
    have hle := henough d hmem
    have hle' : d.2.toNat ≤ (ledger csd d.1).toNat := UInt32.le_iff_toNat_le.mp hle
    rw [UInt32.toNat_sub_of_le _ _ hle]
    omega

/-! ## The transaction behind a receipt -/

/-- The execution loop reaches transaction `i` with empty buffers, and its receipt is the one that
the transaction gets on the memory the earlier ones have left. -/
theorem acceptTxs_getElem? {txs datas : List Bytes} {m m' : MemoryDB} {rs : List Receipt}
    (hm : Clean m) (h : acceptTxs app locked txs datas m = (.ok rs, m')) {i : ℕ} {r : Receipt}
    (hr : rs[i]? = some r) :
    ∃ tx data m₁ m₂, txs[i]? = some tx ∧ datas[i]? = some data ∧ Clean m₁ ∧
      (acceptTxs app locked (txs.take i) (datas.take i) m).2 = m₁ ∧
      acceptTx app locked tx data m₁ = (.ok r, m₂) := by
  induction txs generalizing datas m rs i with
  | nil =>
    obtain ⟨rfl, -⟩ : [] = rs ∧ m = m' := by simpa [acceptTxs] using h
    cases hr
  | cons tx txs ih =>
    cases datas with
    | nil => cases h
    | cons data datas =>
      obtain ⟨r₀, m₀, hone, h⟩ := bind_eq_ok.mp h
      obtain ⟨rs', m₂, hrest, h⟩ := bind_eq_ok.mp h
      obtain ⟨rfl, rfl⟩ : r₀ :: rs' = rs ∧ m₂ = m' := by simpa using h
      cases i with
      | zero =>
        obtain rfl := Option.some.inj hr
        exact ⟨tx, data, m, m₀, rfl, rfl, hm, rfl, hone⟩
      | succ i =>
        obtain ⟨-, hclean, -, -⟩ := run_acceptTx hm hone
        obtain ⟨tx', data', m₁, m₃, htx, hdata, hm₁, hprefix, hrun⟩ := ih hclean hrest hr
        refine ⟨tx', data', m₁, m₃, htx, hdata, hm₁, ?_, hrun⟩
        rw [List.take_succ_cons, List.take_succ_cons, acceptTxs, run_bind_ok hone, ← hprefix,
          run_bind]
        cases acceptTxs app locked (txs.take i) (datas.take i) m₀ with
        | mk res m₄ => cases res <;> rfl

/-- A transaction with an OK receipt: its data is marked, it is a transfer, and every source
passed. -/
theorem canDebit_of_acceptTx {tx data : Bytes} {m m' : MemoryDB} {r : Receipt} (hm : Clean m)
    (h : acceptTx app locked tx data m = (.ok r, m')) (hok : r.isOK = true) :
    ∃ csd t, newCrossShardDataFromBytes app data = .ok (csd, true) ∧
      unmarshalTransferTx app tx = .ok t ∧ t.debits.all (canDebit locked csd) = true := by
  obtain ⟨hsome, -⟩ := run_acceptTx hm h
  rw [hok] at hsome
  obtain ⟨ws, hws⟩ := Option.isSome_iff_exists.mp hsome.symm
  unfold txEffect at hws
  split at hws
  · next csd hdata =>
    unfold effect at hws
    split at hws
    · cases hws
    · next t hdec =>
      simp only [Option.ite_none_right_eq_some] at hws
      obtain ⟨-, hd, -⟩ := ready_iff.mp hws.1
      exact ⟨csd, t, hdata, hdec, hd⟩
  · cases hws

/-- The memory on which `AcceptCrossShard` executes transaction `i` of the block. -/
def acceptMemory (app : Application) (block : Block) (s : AppState) (i : ℕ) : MemoryDB :=
  (acceptTxs app s.lockedKeys (block.crossShardTxs.take i) (block.crossShardDatas.take i)
    (newMemoryDB s.store)).2

theorem acceptTxs_of_acceptCrossShard {block : Block} {chainID : Str} {ifcommit : Bool}
    {s s' : AppState} {rs : List Receipt}
    (h : acceptCrossShard app block chainID ifcommit s = (.ok rs, s')) (hne : rs ≠ []) :
    ∃ m, acceptTxs app s.lockedKeys block.crossShardTxs block.crossShardDatas
      (newMemoryDB s.store) = (.ok rs, m) := by
  obtain ⟨-, s₁, hlock, -⟩ := acceptCrossShard_eq_ok h
  unfold lockIf at hlock
  cases ifcommit with
  | true =>
    obtain ⟨m, hrun, -⟩ := lockBlock_eq_ok hlock
    exact ⟨m, hrun⟩
  | false =>
    obtain ⟨rfl, -⟩ : [] = rs ∧ s = s₁ := by simpa using hlock
    exact absurd rfl hne

/-- **When a source is overdrawn.** For every transaction to which `AcceptCrossShard` gives an OK
receipt: all its sources have enough and end with the exact difference, if and only if those with no
entry in the shipped balances pay at most the initial balance. -/
theorem noOverdraft_iff {block : Block} {chainID : Str} {ifcommit : Bool} {s s' : AppState}
    {rs : List Receipt} (h : acceptCrossShard app block chainID ifcommit s = (.ok rs, s')) {i : ℕ}
    {r : Receipt} (hr : rs[i]? = some r) (hok : r.isOK = true) :
    ∃ tx data csd t, block.crossShardTxs[i]? = some tx ∧ block.crossShardDatas[i]? = some data ∧
      newCrossShardDataFromBytes app data = .ok (csd, true) ∧ unmarshalTransferTx app tx = .ok t ∧
      (NoOverdraft s.lockedKeys csd t (acceptMemory app block s i) ↔
        ∀ d ∈ t.debits, csd d.1 = none → d.2 ≤ initBalance) := by
  have hne : rs ≠ [] := by
    rintro rfl
    cases hr
  obtain ⟨m, hrun⟩ := acceptTxs_of_acceptCrossShard h hne
  obtain ⟨tx, data, m₁, m₂, htx, hdata, hm₁, hprefix, hone⟩ :=
    acceptTxs_getElem? (clean_newMemoryDB s.store) hrun hr
  obtain ⟨csd, t, hcsd, hdec, hd⟩ := canDebit_of_acceptTx hm₁ hone hok
  refine ⟨tx, data, csd, t, htx, hdata, hcsd, hdec, ?_⟩
  rw [acceptMemory, hprefix]
  exact noOverdraft_iff_of_canDebit hm₁ hd

/-- A cross-shard block with one transfer, and the balances that were shipped with it. -/
def shippedBlock (t : Transfer) (data : BankData) : Block :=
  { emptyBlock .crossShard [66] 1 with
    crossShardTxs := [transferBytes t]
    crossShardDatas := [wireCodecs.bankData.marshal data] }

/-- The shard accepts the block with nothing stored or locked before. -/
def acceptShipped (t : Transfer) (data : BankData) : Except BankError (List Receipt) × AppState :=
  acceptCrossShard oneShard (shippedBlock t data) [73] true
    ⟨fun _ => none, fun _ => none, fun _ => none, fun _ => false⟩

/-- Account 1 pays two million to account 2. -/
def largePayment : Transfer :=
  { froms := [[1]], tos := [[2]], fromMoney := [2000000], toMoney := [2000000] }

/-- Three million are shipped for account 1. -/
def largeData : BankData := { keys := [[1], [2]], oK := true, values := [3000000, 0] }

/-- The payment is executed, and one million is left. -/
theorem noOverdraft_largePayment :
    (acceptShipped largePayment largeData).1 = .ok [{ code := codeTypeOK, log := [] }] ∧
    (acceptShipped largePayment largeData).2.lockedKeys [1] = some 1000000 ∧
    ∃ csd, NoOverdraft (fun _ => none) csd largePayment
      (acceptMemory oneShard (shippedBlock largePayment largeData)
        ⟨fun _ => none, fun _ => none, fun _ => none, fun _ => false⟩ 0) := by
  have hrun : (acceptShipped largePayment largeData).1 =
      .ok [{ code := codeTypeOK, log := [] }] := by decide +kernel
  refine ⟨hrun, by decide +kernel, ?_⟩
  obtain ⟨tx, data, csd, t, htx, hdata, hcsd, hdec, hiff⟩ :=
    noOverdraft_iff (i := 0) (Prod.ext hrun rfl) rfl rfl
  obtain rfl := Option.some.inj htx
  obtain rfl := Option.some.inj hdata
  have ht : unmarshalTransferTx oneShard (transferBytes largePayment) = .ok largePayment := by
    decide +kernel
  obtain rfl := Except.ok.inj (ht.symm.trans hdec)
  have hentry : csd [1] = some 3000000 := by
    have hshipped : ((newCrossShardDataFromBytes oneShard
        (wireCodecs.bankData.marshal largeData)).toOption.bind fun d => d.1 [1]) =
        some 3000000 := by decide +kernel
    rw [hcsd] at hshipped
    exact hshipped
  refine ⟨csd, hiff.mpr fun d hd hnone => ?_⟩
  obtain rfl := List.mem_singleton.mp hd
  rw [hentry] at hnone
  cases hnone

/-- Nothing shipped for account 1. -/
def missingData : BankData := { keys := [[2]], oK := true, values := [0] }

/-- With no entry for account 1 the payment of two million is executed from the initial balance of
one million, and the account is locked with what the subtraction wraps to. -/
theorem not_noOverdraft_missing :
    (acceptShipped largePayment missingData).1 = .ok [{ code := codeTypeOK, log := [] }] ∧
    (acceptShipped largePayment missingData).2.lockedKeys [1] = some 4293967296 ∧
    ∃ csd, newCrossShardDataFromBytes oneShard (wireCodecs.bankData.marshal missingData) =
        .ok (csd, true) ∧ csd [1] = none ∧
      ¬NoOverdraft (fun _ => none) csd largePayment
        (acceptMemory oneShard (shippedBlock largePayment missingData)
          ⟨fun _ => none, fun _ => none, fun _ => none, fun _ => false⟩ 0) := by
  refine ⟨by decide +kernel, by decide +kernel, Ledger.last? [([2], 0)], rfl, rfl, fun h => ?_⟩
  have henough := h.enough ([1], 2000000) List.mem_cons_self
  revert henough
  decide

end Emulator.Pyramid.Minibank
