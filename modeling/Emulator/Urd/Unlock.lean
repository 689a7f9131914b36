import Emulator.Urd.Prepare

/-!
# Executing a relay of a locked transfer

`unlockTransfer` reads the stored set, fills in the relay at hand in memory only, and takes the set
for complete, because what was missing has come back from the store as empty data. It then unlocks
the shard's own keys if their data is there, loads what data there is and tries the transfer.

* `loadDatas_eq` — the state in which the transfer is tried.
* `unlockTransfer_late` — a relay after the lock runs `doTransfer` in that state.
-/

namespace Emulator.Urd.Minibank

open Emulator.Action Emulator.Minibank

variable {app : Application}

/-! ## Loading -/

/-- The keys and values of one shard's data. -/
def BankData.entries (d : BankData) : List (Str × UInt32) := d.keys.zip d.values

/-- Load several values. -/
def AppDB.loadAll (s : AppDB) (es : List (Str × UInt32)) : AppDB :=
  { s with retainData := fun key => (Ledger.last? es key).or (s.retainData key) }

theorem run_loadKeys {keys : List Str} {values : List UInt32} (hlen : keys.length = values.length)
    (s : AppDB) : loadKeys keys values s = (.ok (), s.loadAll (keys.zip values)) := by
  induction keys generalizing values s with
  | nil => rfl
  | cons k keys ih =>
    cases values with
    | nil => cases hlen
    | cons v values =>
      have hlen' : keys.length = values.length := by simpa using hlen
      rw [loadKeys, run_bind_ok (run_modify _ s), ih hlen']
      unfold AppDB.loadAll AppDB.loadData
      congr 2
      funext key
      rw [List.zip_cons_cons, Ledger.last?]
      cases Ledger.last? (keys.zip values) key with
      | some v' => rfl
      | none =>
        by_cases hk : k = key
        · subst hk
          simp
        · simp [hk, Function.update_of_ne (Ne.symm hk)]

/-- The state after a set with the data `data` was loaded into `s`. -/
structure Loaded (app : Application) (shards : List Str) (data : Str → BankData)
    (s s' : AppDB) : Prop where
  view : ∀ key, s'.view key =
    if app.chainId ∈ shards ∧ key ∈ (data app.chainId).keys then
      { s.view key with locked := freeIdentifier } else s.view key
  isSome : ∀ key, (s'.db.data key).isSome = (s.db.data key).isSome
  special : s'.db.special = s.db.special
  retainData : ∀ key, s'.retainData key =
    (Ledger.last? (shards.flatMap fun p => (data p).entries) key).or (s.retainData key)

theorem loaded_cons {shard : Str} {shards : List Str} {data : Str → BankData} {s s' : AppDB}
    (hs : shard = app.chainId → ∀ key ∈ (data shard).keys, (s.db.data key).isSome = true)
    (h : Loaded app shards data ((if shard = app.chainId then
      s.setLocks freeIdentifier (data shard).keys else s).loadAll (data shard).entries) s') :
    Loaded app (shard :: shards) data s s' := by
  by_cases hown : shard = app.chainId
  · subst hown
    rw [if_pos rfl] at h
    obtain ⟨hsp, hret⟩ := setLocks_frame freeIdentifier s (data app.chainId).keys
    have hview : ∀ key, ((s.setLocks freeIdentifier (data app.chainId).keys).loadAll
        (data app.chainId).entries).view key =
          if key ∈ (data app.chainId).keys then { s.view key with locked := freeIdentifier }
          else s.view key := fun key => view_setLocks (hs rfl) key
    refine ⟨fun key => ?_, fun key => ?_, h.special.trans hsp, fun key => ?_⟩
    · rw [h.view, hview]
      by_cases hk : key ∈ (data app.chainId).keys <;> simp [hk]
    · exact (h.isSome key).trans (isSome_setLocks freeIdentifier s _ key)
    · rw [h.retainData, List.flatMap_cons, Ledger.last?_append, Option.or_assoc]
      simp only [AppDB.loadAll, hret]
  · rw [if_neg hown] at h
    refine ⟨fun key => ?_, h.isSome, h.special, fun key => ?_⟩
    · rw [h.view]
      simp only [List.mem_cons, Ne.symm hown, false_or]
      rfl
    · rw [h.retainData, List.flatMap_cons, Ledger.last?_append, Option.or_assoc]
      rfl

/-- Loading a set of which every shard's keys have values succeeds. -/
theorem loadDatas_eq (shards : List Str) {data : Str → BankData} {s : AppDB}
    (hlen : ∀ p, (data p).keys.length = (data p).values.length)
    (hs : ∀ key ∈ (data app.chainId).keys, (s.db.data key).isSome = true) :
    ∃ s', loadDatas app shards (shards.map fun p => some (data p)) s = (.ok (), s') ∧
      Loaded app shards data s s' := by
  induction shards generalizing s with
  | nil =>
    refine ⟨s, rfl, ⟨fun key => by simp, fun _ => rfl, rfl, fun key => ?_⟩⟩
    rfl
  | cons shard shards ih =>
    -- the entries are the same after the unlocking, so the induction hypothesis applies
    have hsome : ∀ key, (((if shard = app.chainId then
        s.setLocks freeIdentifier (data shard).keys else s).loadAll
          (data shard).entries).db.data key).isSome = (s.db.data key).isSome := by
      intro key
      split
      · exact isSome_setLocks freeIdentifier s _ key
      · rfl
    obtain ⟨s', hrun, hloaded⟩ := ih fun key hk => (hsome key).trans (hs key hk)
    refine ⟨s', ?_, loaded_cons (fun hown key hk => hs key (hown ▸ hk)) hloaded⟩
    have hunlock : unlockOwn app shard (data shard).keys s = (.ok (), if shard = app.chainId then
        s.setLocks freeIdentifier (data shard).keys else s) := by
      unfold unlockOwn
      split
      · next hown => exact run_wUnlocks fun key hk => hs key (hown ▸ hk)
      · rfl
    rw [List.map_cons, loadDatas, run_bind_ok (run_orThrow_some _ _ _), run_bind_ok hunlock,
      run_bind_ok (run_loadKeys (hlen shard) _)]
    exact hrun

/-! ## A relay after the lock -/

/-- The data of the shards `got`, and empty data for the others. -/
def present (datas : Str → BankData) (got : List Str) (p : Str) : BankData :=
  if p ∈ got then datas p else BankData.none

theorem insert_onWire (tx : TransferTx) (rawTx : Bytes) (datas : Str → BankData)
    (early : List Str) (p : Str) {σ : Type} (s : σ) :
    insertBankDataToRelayTxSet (some (datas p)) p (relaySet tx rawTx datas early).onWire s =
      (.ok { shards := tx.shards
             datas := tx.shards.map fun q => some (present datas (p :: early) q)
             rawTx }, s) := by
  have hwire : (relaySet tx rawTx datas early).onWire.datas =
      tx.shards.map fun q => some (present datas early q) := by
    simp only [RelayTransferTxSet.onWire, relaySet, List.map_map]
    refine List.map_congr_left fun q _ => ?_
    by_cases hq : q ∈ early <;> simp [present, hq]
  unfold insertBankDataToRelayTxSet
  rw [hwire, show (relaySet tx rawTx datas early).onWire.shards = tx.shards from rfl, insertDatas_map,
    run_bind_ok (run_orThrow_some _ _ _), run_pure]
  congr 3
  refine List.map_congr_left fun q _ => ?_
  by_cases hq : q = p
  · simp [hq, present]
  · simp [hq, present]

/-- **A relay after the lock.** The set counts as complete, and the transfer is tried with the data
of this relay and of those that came before the lock. -/
theorem unlockTransfer_late {tx : TransferTx} {rawTx : Bytes} {datas : Str → BankData}
    {early : List Str} {s : AppDB} (hc : app.codecs.Lawful) (hshards : tx.shards ≠ [])
    (hdec : app.codecs.transferTx.unmarshal (rawTx.drop 4) = some tx) (hraw : 4 ≤ rawTx.length)
    (hset : s.db.special (app.txHash rawTx) =
      some (app.codecs.relayTxSet.marshal (relaySet tx rawTx datas early)))
    (hlen : ∀ p, (datas p).keys.length = (datas p).values.length)
    (hs : ∀ key ∈ (datas app.chainId).keys, (s.db.data key).isSome = true) (p : Str) :
    ∃ s₁, Loaded app tx.shards (present datas (p :: early)) s s₁ ∧
      unlockTransfer app { datas := some (datas p), txHash := app.txHash rawTx } p s =
        ((doTransfer app tx s₁).1, (doTransfer app tx s₁).2.clear) := by
  have hlen' : ∀ q, (present datas (p :: early) q).keys.length =
      (present datas (p :: early) q).values.length := by
    intro q
    unfold present
    split
    · exact hlen q
    · rfl
  have hs' : ∀ key ∈ (present datas (p :: early) app.chainId).keys,
      (s.db.data key).isSome = true := by
    unfold present
    split
    · exact hs
    · simp [BankData.none]
  obtain ⟨s₁, hload, hloaded⟩ := loadDatas_eq tx.shards hlen' hs'
  refine ⟨s₁, hloaded, ?_⟩
  obtain ⟨x, xs, hx⟩ := List.exists_cons_of_ne_nil
    (hc.relayTxSet_ne_nil (relaySet tx rawTx datas early) hshards)
  have hunm : app.codecs.relayTxSet.unmarshal (x :: xs) = some (relaySet tx rawTx datas early).onWire :=
    hx ▸ hc.relayTxSet (relaySet tx rawTx datas early)
  have hnew : newTransferTxFromBytes app rawTx s₁ = (.ok tx, s₁) := by
    rw [newTransferTxFromBytes, if_neg (by omega), hdec]
    rfl
  have hget : s.db.getSpecial (app.txHash rawTx) = x :: xs := by
    rw [PrefixStore.getSpecial, hset, hx]
    rfl
  unfold unlockTransfer
  rw [run_bind_ok (run_get s)]
  simp only [hget]
  rw [run_bind_ok (orThrow_eq_ok.mpr ⟨hunm, rfl⟩), run_bind_ok (insert_onWire tx rawTx datas early p s),
    if_pos (by simp [isRelayTransferTxSetFinish]), run_andFinally, run_bind_ok hload,
    run_bind_ok hnew]

end Emulator.Urd.Minibank
