import Emulator.Minibank.Wire
import Emulator.Pyramid.Blocks

/-!
# Filling a cross-shard block

`FillData` executes the transactions of a block at the B shard and ships with each the balances it
read. A transaction that succeeded has read all its keys, so it computes the same values from the
shipped data, wherever its keys are not locked.

* `fillEffects` — what the transactions write at the B shard.
* `Executed` — what the execution at the B shard leaves: the memory, and for every transaction data
  with a mark that says whether it took effect.
* `fillData_ok` — from the filled block every shard computes the same writes.
-/

namespace Emulator.Pyramid.Minibank

open Emulator.Action Emulator.Minibank

variable {app : Application} {locked : Amounts} {search : Str → Bool}

/-! ## A successful transfer has read all its keys -/

/-- From `m` to `m'` only reads were cached, that of `key` among them. -/
def ReadsKey (key : Str) (m m' : MemoryDB) : Prop :=
  Cached m m' ∧ key ∈ m'.readBuffer.map Prod.fst

variable {m m' : MemoryDB} {key : Str} {tx : Bytes} {amounts : Amounts} {ws : List (Str × UInt32)}

theorem readsKey_get (hw : ∀ k, m.writeBuffer k = none) (hin : search key = true) :
    ∃ m', (rangeDB search).get key m = (.ok (m.view key), m') ∧ ReadsKey key m m' := by
  obtain ⟨m', hget, hc, hmem⟩ := get_eq m key
  exact ⟨m', by simp [rangeDB, hin, run_bind, hget], hc, hmem (hw key)⟩

theorem readsKey_readFrom {d : Str × UInt32} {v : UInt32} (hin : search d.1 = true)
    (hw : ∀ k, m.writeBuffer k = none) (h : readFrom locked (rangeDB search) d m = (.ok v, m')) :
    ReadsKey d.1 m m' := by
  obtain ⟨u, m₀, hreq, h₁⟩ := bind_eq_ok.mp h
  obtain ⟨-, rfl⟩ := require_eq_ok.mp hreq
  obtain ⟨m₁, hget, hkey⟩ := readsKey_get hw hin
  have hatt : attempt ((rangeDB search).get d.1) m = (.ok (.ok (m.view d.1)), m₁) := by
    rw [run_attempt, hget]
  rw [run_bind_ok hatt] at h₁
  obtain ⟨u', m₂, hreq', h₂⟩ := bind_eq_ok.mp h₁
  obtain ⟨-, rfl⟩ := require_eq_ok.mp hreq'
  obtain ⟨-, rfl⟩ : _ ∧ m₁ = m' := by simpa using h₂
  exact hkey

theorem readsKey_readTo {c : Str × UInt32} {v : UInt32} (hin : search c.1 = true)
    (hw : ∀ k, m.writeBuffer k = none) (h : readTo locked (rangeDB search) c m = (.ok v, m')) :
    ReadsKey c.1 m m' := by
  obtain ⟨u, m₀, hreq, h₁⟩ := bind_eq_ok.mp h
  obtain ⟨-, rfl⟩ := require_eq_ok.mp hreq
  obtain ⟨m₁, hget, hkey⟩ := readsKey_get hw hin
  have hatt : attempt ((rangeDB search).get c.1) m = (.ok (.ok (m.view c.1)), m₁) := by
    rw [run_attempt, hget]
  rw [run_bind_ok hatt] at h₁
  obtain ⟨-, rfl⟩ : _ ∧ m₁ = m' := by simpa using h₁
  exact hkey

theorem readsKey_mapEach {f : Str × UInt32 → Mem UInt32} {l : List (Str × UInt32)}
    {vs : List UInt32}
    (hf : ∀ e ∈ l, ∀ m v m', (∀ k, m.writeBuffer k = none) → f e m = (.ok v, m') →
      ReadsKey e.1 m m') (hw : ∀ k, m.writeBuffer k = none) (h : mapEach f l m = (.ok vs, m')) :
    Cached m m' ∧ ∀ e ∈ l, e.1 ∈ m'.readBuffer.map Prod.fst := by
  induction l generalizing m vs with
  | nil =>
    obtain ⟨-, rfl⟩ : [] = vs ∧ m = m' := by simpa [mapEach] using h
    exact ⟨Cached.refl m, by simp⟩
  | cons e l ih =>
    obtain ⟨v, m₁, hv, h₁⟩ := bind_eq_ok.mp h
    obtain ⟨vs', m₂, hvs, h₂⟩ := bind_eq_ok.mp h₁
    obtain ⟨-, rfl⟩ : v :: vs' = vs ∧ m₂ = m' := by simpa using h₂
    obtain ⟨hc, hkey⟩ := hf e List.mem_cons_self m v m₁ hw hv
    have hw₁ : ∀ k, m₁.writeBuffer k = none := fun k => by rw [hc.writeBuffer]; exact hw k
    obtain ⟨hc', hkeys⟩ := ih (fun e' he' => hf e' (List.mem_cons_of_mem e he')) hw₁ hvs
    refine ⟨Cached.trans _ _ _ hc hc', fun e' he' => ?_⟩
    rcases List.mem_cons.mp he' with rfl | he'
    · exact hc'.keeps _ hkey
    · exact hkeys e' he'

theorem readBuffer_writes (h : forEach (writeBalance locked (rangeDB search)) ws m = (.ok (), m')) :
    m'.readBuffer = m.readBuffer := by
  have hrun := run_writeBalances locked (serves_rangeDB search) ws m
  split at hrun
  · rw [h] at hrun
    obtain rfl : m' = ws.foldl MemoryDB.buffer m := congrArg Prod.snd hrun
    rw [foldl_buffer]
    rfl
  · obtain ⟨e, b, he⟩ := hrun
    rw [he] at h
    cases h

theorem readBuffer_doTransfer {t : Transfer} (hw : ∀ k, m.writeBuffer k = none)
    (hin : ∀ key ∈ t.keys, search key = true)
    (h : doTransfer locked (rangeDB search) t m = (.ok (), m')) :
    ∀ key ∈ t.keys, key ∈ m'.readBuffer.map Prod.fst := by
  obtain ⟨u, m₀, hval, h₁⟩ := bind_eq_ok.mp h
  obtain ⟨hstate, hvalid⟩ := run_validateTransfer BankError.lengths .empty .sums t m
  have hv : t.Valid := hvalid.mp (congrArg Prod.fst hval)
  obtain rfl : m = m₀ := hstate.symm.trans (congrArg Prod.snd hval)
  obtain ⟨vs, m₁, hfrom, h₂⟩ := bind_eq_ok.mp h₁
  obtain ⟨vs', m₂, hto, h₃⟩ := bind_eq_ok.mp h₂
  obtain ⟨u', m₃, hwrite, hwrite'⟩ := bind_eq_ok.mp h₃
  obtain ⟨hc₁, hfroms⟩ := readsKey_mapEach (fun d hd m v m' hw h => readsKey_readFrom
    (hin d.1 (Transfer.mem_keys_of_debit hd)) hw h) hw hfrom
  have hw₁ : ∀ k, m₁.writeBuffer k = none := fun k => by rw [hc₁.writeBuffer]; exact hw k
  obtain ⟨hc₂, htos⟩ := readsKey_mapEach (fun c hc m v m' hw h => readsKey_readTo
    (hin c.1 (Transfer.mem_keys_of_credit hc)) hw h) hw₁ hto
  intro key hk
  rw [readBuffer_writes hwrite', readBuffer_writes hwrite]
  rcases Transfer.exists_of_mem_keys hv hk with ⟨d, hd, rfl⟩ | ⟨c, hc, rfl⟩
  · exact hc₂.keeps _ (hfroms d hd)
  · exact htos c hc

/-! ## The shipped data -/

theorem mem_map_fst_iff_lookup {data : List (Str × UInt32)} :
    key ∈ data.map Prod.fst ↔ (data.lookup key).isSome = true := by
  induction data with
  | nil => simp
  | cons e data ih =>
    rw [List.map_cons, List.mem_cons, ih, List.lookup_cons]
    by_cases h : key = e.1
    · simp [h]
    · simp [h, beq_false_of_ne h]

theorem newCrossShardDataFromBytes_crossShardDataBytes (hc : app.codecs.Lawful)
    (data : List (Str × UInt32)) (ok : Bool) :
    newCrossShardDataFromBytes app (crossShardDataBytes app data ok) =
      .ok (fun key => data.lookup key, ok) := by
  have hdec := hc.bankData
    { keys := (data.map Prod.fst).insertionSort (· ≤ ·)
      values := ((data.map Prod.fst).insertionSort (· ≤ ·)).map fun key => (data.lookup key).getD 0
      oK := ok }
  unfold newCrossShardDataFromBytes crossShardDataBytes
  simp only [hdec, id_eq, List.length_map, lt_self_iff_false, if_false]
  congr 2
  funext key
  rw [List.zip_map_right]
  have hzip : ((data.map Prod.fst).insertionSort (· ≤ ·)).zip
      ((data.map Prod.fst).insertionSort (· ≤ ·)) =
        ((data.map Prod.fst).insertionSort (· ≤ ·)).map fun key => (key, key) := by
    simp [List.zip_eq_zipWith, List.zipWith_self]
  rw [hzip, List.map_map, Ledger.last?_eq_ite (v := (data.lookup key).getD 0)]
  · simp only [List.map_map, Function.comp_def, Prod.map, id_eq, List.map_id', List.mem_insertionSort,
      mem_map_fst_iff_lookup]
    cases data.lookup key <;> rfl
  · rintro w hw rfl
    obtain ⟨k, -, rfl⟩ := List.mem_map.mp hw
    rfl

/-! ## What the transactions write -/

/-- The effects of transactions executed one after another at the B shard. -/
def fillEffects (app : Application) (locked : Amounts) :
    Amounts → List Bytes → List (Option (List (Str × UInt32)))
  | _, [] => []
  | amounts, tx :: txs =>
    effect locked (inRange app.allShardRangeTree amounts) app.allShardRangeTree app tx ::
      fillEffects app locked (innerEffect app locked app.allShardRangeTree amounts tx) txs

/-- All writes of the transactions, in order. -/
def fillWrites (app : Application) (locked amounts : Amounts) (txs : List Bytes) :
    List (Str × UInt32) :=
  (fillEffects app locked amounts txs).flatMap fun o => o.getD []

/-- A shard that has only the shipped data, and no lock on the keys, computes the effect `eff`. -/
def Ships (app : Application) (tx data : Bytes) (eff : Option (List (Str × UInt32))) : Prop :=
  ∀ locked : Amounts, (∀ key ∈ writeSet app [tx], locked key = none) →
    txEffect app locked tx data = eff

theorem mem_writeSet_cons {txs : List Bytes} :
    key ∈ writeSet app (tx :: txs) ↔ key ∈ writeSet app [tx] ∨ key ∈ writeSet app txs := by
  simp [writeSet]

theorem mem_writeSet_singleton {t : Transfer} (h : unmarshalTransferTx app tx = .ok t) :
    key ∈ writeSet app [tx] ↔ key ∈ t.keys := by
  simp [writeSet, h, Except.toOption]

/-- A transaction that succeeded ships all it read. -/
theorem ships_of_effect (hc : app.codecs.Lawful) {data : List (Str × UInt32)}
    (heff : effect locked (inRange search amounts) search app tx = some ws)
    (hdata : ∀ key ∈ ws.map Prod.fst, data.lookup key = some (balanceOf amounts key)) :
    Ships app tx (crossShardDataBytes app data true) (some ws) := by
  intro locked' hfree
  obtain ⟨t, ht, hkeys, hopen⟩ := effect_eq_some heff
  rw [txEffect, newCrossShardDataFromBytes_crossShardDataBytes hc, ← heff]
  refine effect_congr fun t' ht' key hk => ?_
  obtain rfl : t = t' := by
    rw [ht] at ht'
    injection ht'
  obtain ⟨hl, hin⟩ := hopen key hk
  refine ⟨?_, ?_, hin.symm⟩
  · rw [hl, hfree key ((mem_writeSet_singleton ht).mpr hk)]
  · rw [hdata key (hkeys ▸ hk), inRange, if_pos hin]

theorem ships_none (hc : app.codecs.Lawful) (tx : Bytes) (data : List (Str × UInt32)) :
    Ships app tx (crossShardDataBytes app data false) none := by
  intro locked' _
  rw [txEffect, newCrossShardDataFromBytes_crossShardDataBytes hc]

/-- A transaction that took effect has the balances of all its keys in the read buffer. -/
theorem lookup_readBuffer_of_effect {m₁ : MemoryDB} (hm : Clean m) (hcached : Cached m m₁)
    (heff : effect locked (inRange search amounts) search app tx = some ws)
    (hrun : execute app locked (rangeDB search) tx m = (.ok (), ws.foldl MemoryDB.buffer m₁))
    (hk : key ∈ ws.map Prod.fst) :
    (ws.foldl MemoryDB.buffer m₁).readBuffer.lookup key = some (balanceOf m.current key) := by
  obtain ⟨t, ht, hkeys, hin⟩ := effect_eq_some heff
  rw [run_execute_ok ht] at hrun
  rw [hkeys] at hk
  have hmem := readBuffer_doTransfer hm.writeBuffer (fun k hk => (hin k hk).2) hrun key hk
  rw [mem_map_fst_iff_lookup, foldl_buffer] at hmem
  rw [foldl_buffer]
  change (m₁.readBuffer.lookup key).isSome = true at hmem
  show m₁.readBuffer.lookup key = _
  -- the buffer was empty before, so what is there was read
  rcases hcached.readBuffer key with h | ⟨-, h⟩
  · rw [h, hm.readBuffer] at hmem
    cases hmem
  · exact h

theorem run_fillTx (hc : app.codecs.Lawful) (locked : Amounts) (hm : Clean m) (tx : Bytes) :
    ∃ data m', fillTx app locked tx m = (.ok data, m') ∧ Clean m' ∧
      m'.current = innerEffect app locked app.allShardRangeTree m.current tx ∧
      (∃ csd, newCrossShardDataFromBytes app data = .ok (csd,
        (effect locked (inRange app.allShardRangeTree m.current) app.allShardRangeTree app
          tx).isSome)) ∧
      Ships app tx data
        (effect locked (inRange app.allShardRangeTree m.current) app.allShardRangeTree app tx) := by
  obtain ⟨m₁, hcached, hrun⟩ :=
    run_execute app locked (serves_rangeDB app.allShardRangeTree) m tx
  have hpeek : (fun key => if app.allShardRangeTree key then some (m.view key) else none) =
      inRange app.allShardRangeTree m.current := by
    funext key
    simp only [inRange, hm.view]
  simp only [hpeek] at hrun
  unfold fillTx innerEffect
  cases heff : effect locked (inRange app.allShardRangeTree m.current) app.allShardRangeTree app
    tx with
  | none =>
    rw [heff] at hrun
    obtain ⟨e, b, he⟩ := hrun
    refine ⟨_, _, by rw [run_bind_ok (run_attempt _ _), he]; rfl, clean_commitWrite _ _, ?_,
      ⟨_, newCrossShardDataFromBytes_crossShardDataBytes hc _ _⟩, ships_none hc tx []⟩
    show ((m₁.withBuffer b).commitWrite false).current = _
    rw [current_commitWrite_false, hcached.current]
    rfl
  | some ws =>
    rw [heff] at hrun
    have hw : ∀ key, m₁.writeBuffer key = none := fun key => by
      rw [hcached.writeBuffer]
      exact hm.writeBuffer key
    refine ⟨_, _, by rw [run_bind_ok (run_attempt _ _), hrun]; rfl, clean_commitWrite _ _, ?_,
      ⟨_, newCrossShardDataFromBytes_crossShardDataBytes hc _ _⟩,
      ships_of_effect hc heff fun key hk => lookup_readBuffer_of_effect hm hcached heff hrun hk⟩
    show ((ws.foldl MemoryDB.buffer m₁).commitWrite true).current = _
    rw [current_commitWrite_buffer m₁ hw, hcached.current]
    rfl

/-- A transaction with its data: the data can be decoded, with a mark if the transaction has the
effect `eff`, which writes all its keys. -/
def Marks (app : Application) (p : Bytes × Bytes) (eff : Option (List (Str × UInt32))) : Prop :=
  (∃ csd, newCrossShardDataFromBytes app p.2 = .ok (csd, eff.isSome)) ∧
    ∀ ws, eff = some ws → ∀ key ∈ writeSet app [p.1], key ∈ ws.map Prod.fst

/-- The transactions `txs` have been executed from `amounts`, with the data `datas`; the memory is
now `m`. -/
structure Executed (app : Application) (locked amounts : Amounts) (txs datas : List Bytes)
    (m : MemoryDB) : Prop where
  clean : Clean m
  current : m.current = overlay amounts (fillWrites app locked amounts txs)
  length : datas.length = txs.length
  effects : ∀ locked' : Amounts, (∀ key ∈ writeSet app txs, locked' key = none) →
    List.zipWith (txEffect app locked') txs datas = fillEffects app locked amounts txs
  marks : List.Forall₂ (Marks app) (txs.zip datas) (fillEffects app locked amounts txs)

theorem marks_effect {data : Bytes} {search : Str → Bool} {csd : Amounts}
    (hdata : newCrossShardDataFromBytes app data =
      .ok (csd, (effect locked (inRange search amounts) search app tx).isSome)) :
    Marks app (tx, data) (effect locked (inRange search amounts) search app tx) := by
  refine ⟨⟨csd, hdata⟩, fun ws heff key hk => ?_⟩
  obtain ⟨t, ht, hkeys, -⟩ := effect_eq_some heff
  rw [hkeys]
  exact (mem_writeSet_singleton ht).mp hk

theorem executed_fillTxs (hc : app.codecs.Lawful) (locked : Amounts) (txs : List Bytes)
    (hm : Clean m) :
    ∃ datas m', mapEach (fillTx app locked) txs m = (.ok datas, m') ∧
      Executed app locked m.current txs datas m' := by
  induction txs generalizing m with
  | nil => exact ⟨[], m, rfl, hm, rfl, rfl, fun _ _ => rfl, .nil⟩
  | cons tx txs ih =>
    obtain ⟨data, m₁, hrun, hm₁, hcur, ⟨csd, hdata⟩, hships⟩ := run_fillTx hc locked hm tx
    obtain ⟨datas, m', hruns, hrest⟩ := ih hm₁
    refine ⟨data :: datas, m', ?_, hrest.clean, ?_, by simp [hrest.length], fun locked' hfree => ?_,
      ?_⟩
    · rw [mapEach, run_bind_ok hrun, run_bind_ok hruns]
      rfl
    · rw [hrest.current, hcur, innerEffect, overlay_append]
      rfl
    · rw [List.zipWith_cons_cons, fillEffects, ← hcur,
        hships locked' fun key hk => hfree key (mem_writeSet_cons.mpr (.inl hk)),
        hrest.effects locked' fun key hk => hfree key (mem_writeSet_cons.mpr (.inr hk))]
    · rw [List.zip_cons_cons, fillEffects, ← hcur]
      exact .cons (marks_effect hdata) hrest.marks

end Emulator.Pyramid.Minibank
