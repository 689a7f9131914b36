import Emulator.Pyramid.Fill
import Emulator.Pyramid.Replica

/-!
# Re-executing a cross-shard block from the shipped balances

The leader of a B shard executes the transactions of a cross-shard block one after another on its
replica and ships with each the balances it has read, and a mark if it succeeded. An I shard has
only its own accounts, and executes the marked transactions on the shipped balances.

* `executed_fillData` — what the leader's execution leaves.
* `exists_acceptTxs` — the I shard can decode what was shipped.
* `acceptCrossShard_fillData` — an I shard that has locked none of the keys gives an OK receipt to
  exactly the marked transactions, and locks its accounts with the leader's final balances.
-/

namespace Emulator.Pyramid.Minibank

open Emulator.Action Emulator.Minibank

variable {app appI : Application} {locked : Amounts} {m : MemoryDB} {datas txs : List Bytes}

/-! ## The leader's execution -/

/-- The mark that comes with the shipped balances. -/
def marked (app : Application) (data : Bytes) : Bool :=
  match newCrossShardDataFromBytes app data with
  | .ok (_, ok) => ok
  | .error _ => false

/-- The memory in which `FillData` has executed the block. -/
def fillMemory (app : Application) (block : Block) (s : AppState) : MemoryDB :=
  (mapEach (fillTx app s.lockedKeys) block.crossShardTxs (newMemoryDB s.store)).2

theorem executed_fillData (hc : app.codecs.Lawful) (hB : app.isI = false) (block : Block)
    (s : AppState) :
    ∃ datas, fillData app block s = (.ok { block with crossShardDatas := datas }, s) ∧
      Executed app s.lockedKeys s.store block.crossShardTxs datas (fillMemory app block s) := by
  obtain ⟨datas, m, hrun, hexec⟩ :=
    executed_fillTxs hc s.lockedKeys block.crossShardTxs (clean_newMemoryDB s.store)
  have hmemory : fillMemory app block s = m := congrArg Prod.snd hrun
  have hon : onMemory (mapEach (fillTx app s.lockedKeys) block.crossShardTxs) s =
      (.ok (datas, m), s) := by
    unfold onMemory
    rw [hrun]
  refine ⟨datas, ?_, hmemory ▸ hexec⟩
  unfold fillData
  rw [run_bind_ok (require_eq_ok.mpr ⟨by rw [hB]; rfl, rfl⟩), run_bind_ok (run_get s),
    run_bind_ok hon]
  rfl

theorem Executed.map_marked {amounts : Amounts} (h : Executed app locked amounts txs datas m) :
    datas.map (marked app) = (fillEffects app locked amounts txs).map Option.isSome := by
  have hsnd : (txs.zip datas).map Prod.snd = datas := List.map_snd_zip (Nat.le_of_eq h.length)
  rw [← hsnd, List.map_map]
  refine List.forall₂_eq_eq_eq ▸ List.forall₂_map_left_iff.mpr
    (List.forall₂_map_right_iff.mpr (h.marks.imp fun p eff hp => ?_))
  obtain ⟨csd, hcsd⟩ := hp.1
  simp [marked, hcsd]

/-- What a marked transaction writes is among the writes of the block. -/
theorem Executed.mem_fillWrites {amounts : Amounts} (h : Executed app locked amounts txs datas m)
    {p : Bytes × Bytes} (hp : p ∈ txs.zip datas) (hmark : marked app p.2 = true) {key : Str}
    (hk : key ∈ writeSet app [p.1]) : key ∈ (fillWrites app locked amounts txs).map Prod.fst := by
  obtain ⟨eff, heff, hmarks⟩ := exists_mem_of_forall₂ h.marks.flip hp
  obtain ⟨⟨csd, hcsd⟩, hkeys⟩ := hmarks
  have hsome : eff.isSome = true := by
    rw [marked, hcsd] at hmark
    exact hmark
  obtain ⟨ws, rfl⟩ := Option.isSome_iff_exists.mp hsome
  obtain ⟨w, hw, rfl⟩ := List.mem_map.mp (hkeys ws rfl key hk)
  exact List.mem_map_of_mem (List.mem_flatMap.mpr ⟨some ws, heff, hw⟩)

/-! ## The execution at an I shard -/

theorem exists_acceptTx (hm : Clean m) {tx data : Bytes} {d : Amounts × Bool}
    (h : newCrossShardDataFromBytes app data = .ok d) :
    ∃ r m', acceptTx app locked tx data m = (.ok r, m') ∧ Clean m' := by
  unfold acceptTx
  rw [h]
  obtain ⟨csd, ok⟩ := d
  cases ok with
  | false => exact ⟨_, m, rfl, hm⟩
  | true =>
    obtain ⟨res, m', hrun, hm', -⟩ := executeAndCommit_eq app locked (serves_crossShardDB csd) hm tx
    simp only [run_bind_ok hrun]
    cases res <;> exact ⟨_, m', rfl, hm'⟩

theorem exists_acceptTxs (hm : Clean m) (hlen : datas.length = txs.length)
    (h : ∀ p ∈ txs.zip datas, ∃ d, newCrossShardDataFromBytes app p.2 = .ok d) :
    ∃ rs m', acceptTxs app locked txs datas m = (.ok rs, m') := by
  induction txs generalizing datas m with
  | nil => exact ⟨[], m, rfl⟩
  | cons tx txs ih =>
    cases datas with
    | nil => cases hlen
    | cons data datas =>
      obtain ⟨d, hd⟩ := h (tx, data) List.mem_cons_self
      obtain ⟨r, m₁, hrun, hm₁⟩ := exists_acceptTx hm hd
      obtain ⟨rs, m', hruns⟩ := ih hm₁ (by simpa using hlen)
        fun p hp => h p (List.mem_cons_of_mem _ hp)
      refine ⟨r :: rs, m', ?_⟩
      rw [acceptTxs, run_bind_ok hrun, run_bind_ok hruns]
      rfl

section

variable (hcodecs : appI.codecs = app.codecs)

include hcodecs

theorem newCrossShardDataFromBytes_codecs (data : Bytes) :
    newCrossShardDataFromBytes appI data = newCrossShardDataFromBytes app data := by
  simp only [newCrossShardDataFromBytes, hcodecs]

theorem txEffect_codecs (locked : Amounts) (tx data : Bytes) :
    txEffect appI locked tx data = txEffect app locked tx data := by
  have htx : unmarshalTransferTx appI tx = unmarshalTransferTx app tx := by
    simp only [unmarshalTransferTx, hcodecs]
  simp only [txEffect, effect, htx, newCrossShardDataFromBytes_codecs hcodecs]

end

/-- The receipts of a block whose effects are `effs`, and the locks it leaves. -/
theorem acceptCrossShard_of_effects {H : Block} {chainID : Str} {s : AppState}
    {effs : List (Option (List (Str × UInt32)))} (htype : H.blockType = .crossShard)
    (heffs : List.zipWith (txEffect app s.lockedKeys) H.crossShardTxs H.crossShardDatas = effs)
    {rs : List Receipt}
    (hrun : acceptTxs app s.lockedKeys H.crossShardTxs H.crossShardDatas (newMemoryDB s.store) =
      (.ok rs, m)) :
    ∃ s', acceptCrossShard app H chainID true s = (.ok rs, s') ∧
      rs.map Receipt.isOK = effs.map Option.isSome ∧
      s'.lockedKeys = lockWrites (app.keyRangeTree chainID) s.lockedKeys
        (effs.flatMap fun o => o.getD []) := by
  obtain ⟨hok, -, hm, -, -⟩ := run_acceptTxs (clean_newMemoryDB s.store) hrun
  have hon : onMemory (acceptTxs app s.lockedKeys H.crossShardTxs H.crossShardDatas) s =
      (.ok (rs, m), s) := by
    unfold onMemory
    rw [hrun]
  obtain ⟨s₁, hlock⟩ : ∃ s₁, lockBlock app H chainID s = (.ok rs, s₁) :=
    ⟨_, (run_bind_ok (run_get s)).trans ((run_bind_ok hon).trans (run_bind_ok (run_lockKeys hm _ s)))⟩
  obtain ⟨s', hacc⟩ : ∃ s', acceptCrossShard app H chainID true s = (.ok rs, s') := by
    unfold acceptCrossShard lockIf
    rw [if_neg (not_not_intro htype), if_pos rfl, run_andFinally, run_bind_ok hlock]
    exact ⟨_, rfl⟩
  refine ⟨s', hacc, heffs ▸ hok, ?_⟩
  rw [acceptCrossShard_ok hacc, if_pos rfl, blockWrites, blockEffects, heffs]

/-- **The shipped balances reproduce the leader's execution.** Whatever the states and the
transactions, `FillData` of a B shard succeeds. An I shard with the same codecs that has locked no
key of the block gives an OK receipt to exactly the transactions that were marked, and locks every
key of its range that one of them writes with the value it has after the leader's execution. -/
theorem acceptCrossShard_fillData (app : Application) (hc : app.codecs.Lawful)
    (hB : app.isI = false) (block : Block) (htype : block.blockType = .crossShard) (s : AppState) :
    ∃ H, fillData app block s = (.ok H, s) ∧ H.crossShardTxs = block.crossShardTxs ∧
      H.crossShardDatas.length = H.crossShardTxs.length ∧
      ∀ (appI : Application) (chainID : Str) (sI : AppState), appI.codecs = app.codecs →
        (∀ key ∈ writeSet app H.crossShardTxs, sI.lockedKeys key = none) →
        ∃ rs sI', acceptCrossShard appI H chainID true sI = (.ok rs, sI') ∧
          rs.map Receipt.isOK = H.crossShardDatas.map (marked app) ∧
          ∀ p ∈ H.crossShardTxs.zip H.crossShardDatas, marked app p.2 = true →
            ∀ key ∈ writeSet app [p.1], appI.keyRangeTree chainID key = true →
              sI'.lockedKeys key = some ((fillMemory app block s).view key) := by
  obtain ⟨datas, hfill, hexec⟩ := executed_fillData hc hB block s
  refine ⟨{ block with crossShardDatas := datas }, hfill, rfl, hexec.length,
    fun appI chainID sI hcodecs hfree => ?_⟩
  have hdecode : ∀ p ∈ block.crossShardTxs.zip datas, ∃ d,
      newCrossShardDataFromBytes appI p.2 = .ok d := by
    intro p hp
    obtain ⟨eff, -, ⟨csd, hcsd⟩, -⟩ := exists_mem_of_forall₂ hexec.marks.flip hp
    exact ⟨_, (newCrossShardDataFromBytes_codecs hcodecs p.2).trans hcsd⟩
  have heffs : List.zipWith (txEffect appI sI.lockedKeys) block.crossShardTxs datas =
      fillEffects app s.lockedKeys s.store block.crossShardTxs := by
    have hsame : txEffect appI sI.lockedKeys = txEffect app sI.lockedKeys := by
      funext tx data
      exact txEffect_codecs hcodecs sI.lockedKeys tx data
    rw [hsame]
    exact hexec.effects sI.lockedKeys hfree
  obtain ⟨rs, m, hrun⟩ := exists_acceptTxs (clean_newMemoryDB sI.store) hexec.length hdecode
  obtain ⟨sI', hacc, hok, hlocks⟩ := acceptCrossShard_of_effects
    (H := { block with crossShardDatas := datas }) htype heffs hrun
  refine ⟨rs, sI', hacc, hok.trans hexec.map_marked.symm, fun p hp hmark key hk hrange => ?_⟩
  have hmem := hexec.mem_fillWrites hp hmark hk
  obtain ⟨v, hv⟩ := Option.ne_none_iff_exists'.mp (mt Ledger.last?_eq_none.mp (not_not_intro hmem))
  rw [hlocks, lockWrites, if_pos hrange, hexec.clean.view, hexec.current, balanceOf, overlay]
  show (Ledger.last? (fillWrites app s.lockedKeys s.store block.crossShardTxs) key).or _ = _
  rw [hv]
  rfl

/-- The payment from shard 1 to shard 2, filled by the B shard and accepted by shard 1. -/
theorem acceptCrossShard_paymentBlock :
    ∃ H rs s', fillData (twoIShards.app [66]) paymentBlock freshShards.b.app =
        (.ok H, freshShards.b.app) ∧
      acceptCrossShard (twoIShards.app [1]) H [1] true freshShards.b.app = (.ok rs, s') ∧
      rs.map Receipt.isOK = H.crossShardDatas.map (marked (twoIShards.app [66])) := by
  obtain ⟨H, hfill, -, -, haccept⟩ := acceptCrossShard_fillData (twoIShards.app [66])
    lawful_wireCodecs (by decide) paymentBlock rfl freshShards.b.app
  obtain ⟨rs, s', hacc, hok, -⟩ := haccept (twoIShards.app [1]) [1] freshShards.b.app rfl
    fun _ _ => rfl
  exact ⟨H, rs, s', hfill, hacc, hok⟩

/-- Shard 1 has locked the account that pays with what it will have. -/
example : (acceptCrossShard (twoIShards.app [1])
    ((fillData (twoIShards.app [66]) paymentBlock freshShards.b.app).1.toOption.getD paymentBlock) [1]
      true freshShards.b.app).2.lockedKeys [1, 0] = some 999995 := by
  decide +kernel

end Emulator.Pyramid.Minibank
