import Emulator.Urd.Transfer
import Emulator.Minibank.Wire

/-!
# Preparing a cross-shard transfer

What `pre_doTransfer` and `lockTransfer` do at one shard, for shards whose key ranges are disjoint.

* `Accepted` and `accepted_of_preDoTransfer` — what it means that a shard accepted a transfer.
* `preDoTransfer_frame` — the relays a shard has already received do not matter to it.
* `lockTransfer_eq` — the stored set and the locked keys.
-/

namespace Emulator.Urd.Minibank

open Emulator.Action Emulator.Minibank

/-! ## Owners of keys -/

/-- The names of the shards are distinct and their key ranges are disjoint. -/
structure Application.Disjoint (app : Application) : Prop where
  names : (app.keyRangeTrees.map Prod.fst).Nodup
  ranges : ∀ e ∈ app.keyRangeTrees, ∀ e' ∈ app.keyRangeTrees, ∀ key,
    e.2 key = true → e'.2 key = true → e.1 = e'.1

theorem lookup_of_mem {α : Type} {l : List (Str × α)} (hnd : (l.map Prod.fst).Nodup)
    {e : Str × α} (he : e ∈ l) : l.lookup e.1 = some e.2 := by
  induction l with
  | nil => cases he
  | cons a l ih =>
    rw [List.map_cons, List.nodup_cons] at hnd
    rcases List.mem_cons.mp he with rfl | hmem
    · obtain ⟨k, v⟩ := e
      simp
    · have hne : e.1 ≠ a.1 := fun h => hnd.1 (h ▸ List.mem_map_of_mem hmem)
      rw [List.lookup_cons, beq_false_of_ne hne]
      exact ih hnd.2 hmem

theorem mem_of_lookup {α : Type} {l : List (Str × α)} {key : Str} {a : α}
    (h : l.lookup key = some a) : (key, a) ∈ l := by
  obtain ⟨l₁, l₂, hl, -⟩ := List.lookup_eq_some_iff.mp h
  simp [hl]

/-- A key is in the shard's own range exactly when the search over all ranges finds this shard. -/
theorem searchKeyIntraShard_iff {app : Application} (hd : app.Disjoint) (key : Str) :
    app.searchKeyIntraShard key = true ↔ app.searchKeyShard key = some app.chainId := by
  unfold Application.searchKeyIntraShard Application.searchKeyShard
  constructor
  · intro h
    cases hl : app.keyRangeTrees.lookup app.chainId with
    | none => simp [hl] at h
    | some search =>
      have hkey : search key = true := by simpa [hl] using h
      have hmem := mem_of_lookup hl
      cases hf : app.keyRangeTrees.find? fun e => e.2 key with
      | none =>
        have := List.find?_eq_none.mp hf _ hmem
        exact absurd hkey (by simpa using this)
      | some e =>
        have he : e.2 key = true := by simpa using List.find?_some hf
        have hname := hd.ranges _ (List.mem_of_find?_eq_some hf) _ hmem key he hkey
        simpa using hname
  · intro h
    cases hf : app.keyRangeTrees.find? fun e => e.2 key with
    | none => simp [hf] at h
    | some e =>
      have hname : e.1 = app.chainId := by simpa [hf] using h
      have he : e.2 key = true := by simpa using List.find?_some hf
      rw [← hname, lookup_of_mem hd.names (List.mem_of_find?_eq_some hf)]
      simpa using he

/-! ## Scanning the keys -/

/-- The shard's own keys of a transfer, in order. -/
def ownKeys (app : Application) (tx : Transfer) : List Str :=
  tx.keys.filter app.searchKeyIntraShard

/-- The balances a shard ships for a transfer. -/
def shipped (app : Application) (tx : Transfer) (s : AppDB) : BankData :=
  { keys := ownKeys app tx, values := (ownKeys app tx).map s.balance }

/-- What the scan of `key` returns. -/
def scanned (app : Application) (s : AppDB) (key : Str) : Str × Option (Str × UInt32) :=
  ((app.searchKeyShard key).getD [],
    if app.searchKeyIntraShard key then some (key, s.balance key) else none)

variable {app : Application} {s : AppDB} {key shard : Str} {early keys : List Str}
  {datas : Str → BankData} {b b' : Batch} {tx : TransferTx} {rawTx : Bytes}
  {m : RelayTransferTxList}

theorem scanKey_missing (hkey : app.searchKeyShard key = none) (b : Batch) :
    scanKey app key b = (.error (.keyNotExist key), b) := by
  unfold scanKey
  rw [hkey]
  rfl

theorem scanKey_other (hkey : app.searchKeyShard key = some shard) (hne : shard ≠ app.chainId)
    (b : Batch) : scanKey app key b = (.ok (shard, none), b) := by
  unfold scanKey
  rw [hkey, run_bind_ok (run_orThrow_some _ _ _), if_pos hne]
  rfl

/-- An account of the shard can be locked in a batch: it is free and in neither lock map. -/
def Batch.lockable (b : Batch) (key : Str) : Bool :=
  isFree (b.db.view key).locked && !b.wlocks.contains key && !b.rlocks.contains key

/-- The scan of a key of the shard reads it, and puts it into `wlocks` if it can be locked. -/
theorem scanKey_own (hd : app.Disjoint) (hin : app.searchKeyIntraShard key = true) (b : Batch) :
    scanKey app key b =
      if b.lockable key then
        (.ok (app.chainId, some (key, b.db.balance key)),
          { b with db := b.db.touch key, wlocks := key :: b.wlocks })
      else (.error .lockConflict, { b with db := b.db.touch key }) := by
  have hkey : app.searchKeyShard key = some app.chainId := (searchKeyIntraShard_iff hd key).mp hin
  have hget : onDB (get app key) b = (.ok ((b.db.view key).money, (b.db.view key).locked),
      { b with db := b.db.touch key }) := by
    unfold onDB
    rw [run_get_own hin]
  unfold scanKey
  rw [hkey, run_bind_ok (run_orThrow_some _ _ _), if_neg (not_not_intro rfl), run_bind_ok hget]
  show (do
    require (b.lockable key) .lockConflict
    _ : Action BankError Batch (Str × Option (Str × UInt32))) _ = _
  cases b.lockable key <;> rfl

theorem searchKeyShard_ne (hd : app.Disjoint) (hkey : app.searchKeyShard key = some shard)
    (hin : ¬ app.searchKeyIntraShard key = true) : shard ≠ app.chainId := by
  rintro rfl
  exact hin ((searchKeyIntraShard_iff hd key).mpr hkey)

/-- A successful scan of a key: it has an owner; if that is this shard, the key is free and in
neither lock map, and it has an entry and is in `wlocks` afterwards. -/
theorem scanKey_eq_ok (hd : app.Disjoint) {r : Str × Option (Str × UInt32)}
    (h : scanKey app key b = (.ok r, b')) :
    (app.searchKeyShard key).isSome = true ∧ r = scanned app b.db key ∧
      Touched app b.db b'.db ∧
      if app.searchKeyIntraShard key then
        isFree (b.db.view key).locked = true ∧ key ∉ b.wlocks ∧ b'.wlocks = key :: b.wlocks ∧
          (b'.db.db.data key).isSome = true
      else b' = b := by
  by_cases hin : app.searchKeyIntraShard key = true
  · have hkey : app.searchKeyShard key = some app.chainId := (searchKeyIntraShard_iff hd key).mp hin
    rw [scanKey_own hd hin] at h
    cases hl : b.lockable key with
    | false =>
      rw [hl] at h
      cases h
    | true =>
      rw [hl] at h
      obtain ⟨rfl, rfl⟩ : _ = r ∧ _ = b' := by simpa using h
      simp only [Batch.lockable, Bool.and_eq_true, Bool.not_eq_true', List.contains_eq_mem,
        decide_eq_false_iff_not] at hl
      refine ⟨by rw [hkey]; rfl, by simp [scanned, hkey, hin], touched_touch hin b.db, ?_⟩
      rw [if_pos hin]
      exact ⟨hl.1.1, hl.1.2, rfl, isSome_touch b.db key⟩
  · cases hkey : app.searchKeyShard key with
    | none =>
      rw [scanKey_missing hkey] at h
      cases h
    | some shard =>
      rw [scanKey_other hkey (searchKeyShard_ne hd hkey hin)] at h
      obtain ⟨rfl, rfl⟩ : (shard, none) = r ∧ b = b' := by simpa using h
      exact ⟨rfl, by simp [scanned, hkey, hin], Touched.refl _, by rw [if_neg hin]⟩

theorem Touched.scanned {s' : AppDB} (h : Touched app s s') (key : Str) :
    scanned app s' key = scanned app s key := by
  simp only [Minibank.scanned, AppDB.balance, h.view]

/-- What a successful scan of `keys` leaves: all have an owner; the shard's own ones were free and
pairwise distinct, and have entries and are in `wlocks` now. -/
structure KeysScanned (app : Application) (keys : List Str) (b b' : Batch) : Prop where
  db : Touched app b.db b'.db
  owned : ∀ key ∈ keys, (app.searchKeyShard key).isSome = true
  free : ∀ key ∈ keys.filter app.searchKeyIntraShard, isFree (b.db.view key).locked = true
  fresh : ∀ key ∈ keys.filter app.searchKeyIntraShard, key ∉ b.wlocks
  locks : ∀ key ∈ keys.filter app.searchKeyIntraShard, key ∈ b'.wlocks
  isSome : ∀ key ∈ keys.filter app.searchKeyIntraShard, (b'.db.db.data key).isSome = true
  mono : ∀ key ∈ b.wlocks, key ∈ b'.wlocks
  nodup : (keys.filter app.searchKeyIntraShard).Nodup

namespace KeysScanned

variable {key : Str} {keys : List Str} {b b₁ b' : Batch}

theorem nil (b : Batch) : KeysScanned app [] b b :=
  ⟨Touched.refl _, by simp, by simp, by simp, by simp, by simp, fun _ h => h, by simp⟩

theorem cons_other (howner : (app.searchKeyShard key).isSome = true)
    (hin : ¬ app.searchKeyIntraShard key = true) (h : KeysScanned app keys b b') :
    KeysScanned app (key :: keys) b b' := by
  have hfilter : (key :: keys).filter app.searchKeyIntraShard =
      keys.filter app.searchKeyIntraShard := List.filter_cons_of_neg hin
  refine ⟨h.db, List.forall_mem_cons.mpr ⟨howner, h.owned⟩, ?_, ?_, ?_, ?_, h.mono, ?_⟩ <;>
    rw [hfilter]
  exacts [h.free, h.fresh, h.locks, h.isSome, h.nodup]

/-- The first key only adds itself to `wlocks`, so the later ones are not the same. -/
theorem cons_own (howner : (app.searchKeyShard key).isSome = true)
    (hin : app.searchKeyIntraShard key = true) (hdb : Touched app b.db b₁.db)
    (hfree : isFree (b.db.view key).locked = true) (hfresh : key ∉ b.wlocks)
    (hlocks : b₁.wlocks = key :: b.wlocks) (hsome : (b₁.db.db.data key).isSome = true)
    (h : KeysScanned app keys b₁ b') : KeysScanned app (key :: keys) b b' := by
  have hfilter : (key :: keys).filter app.searchKeyIntraShard =
      key :: keys.filter app.searchKeyIntraShard := List.filter_cons_of_pos hin
  have hmem : ∀ k, k ∈ b₁.wlocks ↔ k = key ∨ k ∈ b.wlocks := by simp [hlocks]
  have hlater : ∀ k ∈ keys.filter app.searchKeyIntraShard, k ≠ key ∧ k ∉ b.wlocks := fun k hk =>
    not_or.mp (mt (hmem k).mpr (h.fresh k hk))
  refine ⟨Touched.trans _ _ _ hdb h.db, List.forall_mem_cons.mpr ⟨howner, h.owned⟩, ?_, ?_, ?_, ?_,
    fun k hk => h.mono k ((hmem k).mpr (.inr hk)), ?_⟩ <;> rw [hfilter]
  · exact List.forall_mem_cons.mpr ⟨hfree, fun k hk => hdb.view ▸ h.free k hk⟩
  · exact List.forall_mem_cons.mpr ⟨hfresh, fun k hk => (hlater k hk).2⟩
  · exact List.forall_mem_cons.mpr ⟨h.mono key ((hmem key).mpr (.inl rfl)), h.locks⟩
  · exact List.forall_mem_cons.mpr ⟨h.db.isSome hsome, h.isSome⟩
  · exact List.nodup_cons.mpr ⟨fun hk => (hlater key hk).1 rfl, h.nodup⟩

end KeysScanned

theorem scanKeys_eq_ok (hd : app.Disjoint) {r : List (Str × Option (Str × UInt32))}
    (h : mapEach (scanKey app) keys b = (.ok r, b')) :
    r = keys.map (scanned app b.db) ∧ KeysScanned app keys b b' := by
  induction keys generalizing b r with
  | nil =>
    obtain ⟨rfl, rfl⟩ : [] = r ∧ b = b' := by simpa [mapEach] using h
    exact ⟨rfl, KeysScanned.nil b⟩
  | cons key keys ih =>
    obtain ⟨x, b₁, hx, h⟩ := bind_eq_ok.mp h
    obtain ⟨xs, b₂, hxs, h⟩ := bind_eq_ok.mp h
    obtain ⟨rfl, rfl⟩ : x :: xs = r ∧ b₂ = b' := by simpa using h
    obtain ⟨howner, rfl, ht, hown⟩ := scanKey_eq_ok hd hx
    obtain ⟨rfl, hrest⟩ := ih hxs
    have hscan : keys.map (scanned app b₁.db) = keys.map (scanned app b.db) :=
      List.map_congr_left fun k _ => ht.scanned k
    refine ⟨by rw [hscan, List.map_cons], ?_⟩
    by_cases hin : app.searchKeyIntraShard key = true
    · rw [if_pos hin] at hown
      obtain ⟨hfree, hfresh, hlocks, hsome⟩ := hown
      exact hrest.cons_own howner hin ht hfree hfresh hlocks hsome
    · rw [if_neg hin] at hown
      subst hown
      exact hrest.cons_other howner hin

theorem filterMap_scanned (s : AppDB) (keys : List Str) :
    (keys.map (scanned app s)).filterMap Prod.snd =
      (keys.filter app.searchKeyIntraShard).map fun key => (key, s.balance key) := by
  induction keys with
  | nil => rfl
  | cons key keys ih =>
    rw [List.map_cons]
    by_cases hin : app.searchKeyIntraShard key = true
    · rw [List.filter_cons_of_pos hin, List.map_cons, List.filterMap_cons_some (b := (key, s.balance key))
        (by simp [scanned, hin]), ih]
    · rw [List.filter_cons_of_neg hin, List.filterMap_cons_none (by simp [scanned, hin]), ih]

theorem ownData_scanned (tx : Transfer) (s : AppDB) :
    ownData (tx.keys.map (scanned app s)) = shipped app tx s := by
  rw [ownData, filterMap_scanned, List.map_map, List.map_map, shipped, ownKeys]
  congr 1
  exact List.map_id _

theorem mem_relatedShards (howners : ∀ key ∈ keys, (app.searchKeyShard key).isSome = true) :
    shard ∈ relatedShards (keys.map (scanned app s)) ↔
      ∃ key ∈ keys, app.searchKeyShard key = some shard := by
  simp only [relatedShards, List.mem_insertionSort, List.mem_dedup, List.mem_map, scanned]
  constructor
  · rintro ⟨-, ⟨key, hkey, rfl⟩, rfl⟩
    obtain ⟨p, hp⟩ := Option.isSome_iff_exists.mp (howners key hkey)
    exact ⟨key, hkey, by simp [hp]⟩
  · rintro ⟨key, hkey, hp⟩
    exact ⟨_, ⟨key, hkey, rfl⟩, by simp [hp]⟩

/-- What it means that a shard accepted a transfer in state `s`. -/
structure Accepted (app : Application) (tx : TransferTx) (rawTx : Bytes) (s : AppDB) : Prop where
  included : app.chainId ∈ tx.shards
  fresh : s.db.special (app.txHash rawTx) = none
  valid : tx.Valid
  owned : ∀ key ∈ tx.keys, (app.searchKeyShard key).isSome = true
  free : ∀ key ∈ ownKeys app tx.toTransfer, isFree (s.view key).locked = true
  nodup : (ownKeys app tx.toTransfer).Nodup
  shards_nodup : tx.shards.Nodup
  mem_shards : ∀ shard, shard ∈ tx.shards ↔ ∃ key ∈ tx.keys, app.searchKeyShard key = some shard

/-- The relay of a shard for a transfer it accepts in state `s`. -/
def relayOf (app : Application) (tx : TransferTx) (rawTx : Bytes) (s : AppDB) : Bytes :=
  app.codecs.relayTx.marshal
    { datas := some (shipped app tx.toTransfer s), txHash := app.txHash rawTx }

theorem accepted_of_preDoTransfer (hd : app.Disjoint) {r : Bytes × List Str}
    (h : preDoTransfer app tx rawTx b = (.ok r, b')) :
    Accepted app tx rawTx b.db ∧ r = (relayOf app tx rawTx b.db, tx.shards) ∧
      Touched app b.db b'.db ∧
      ∀ key ∈ ownKeys app tx.toTransfer,
        key ∉ b.wlocks ∧ key ∈ b'.wlocks ∧ (b'.db.db.data key).isSome = true := by
  unfold preDoTransfer at h
  obtain ⟨u₁, b₁, h₁, h⟩ := bind_eq_ok.mp h
  obtain ⟨hin, rfl⟩ := require_eq_ok.mp h₁
  obtain ⟨s, b₂, h₂, h⟩ := bind_eq_ok.mp h
  obtain ⟨rfl, rfl⟩ : b = s ∧ b = b₂ := by simpa using h₂
  obtain ⟨u₃, b₃, h₃, h⟩ := bind_eq_ok.mp h
  obtain ⟨hfresh, rfl⟩ := require_eq_ok.mp h₃
  obtain ⟨u₄, b₄, h₄, h⟩ := bind_eq_ok.mp h
  obtain ⟨hstate, hvalid⟩ := run_validateTransfer BankError.lengths .empty .sums tx.toTransfer b
  have hv : tx.Valid := hvalid.mp (congrArg Prod.fst h₄)
  obtain rfl : b = b₄ := hstate.symm.trans (congrArg Prod.snd h₄)
  obtain ⟨xs, b₅, h₅, h⟩ := bind_eq_ok.mp h
  obtain ⟨rfl, hscan⟩ := scanKeys_eq_ok hd h₅
  obtain ⟨u₆, b₆, h₆, h⟩ := bind_eq_ok.mp h
  obtain ⟨hshards, rfl⟩ := require_eq_ok.mp h₆
  have heq : tx.shards = relatedShards (tx.keys.map (scanned app b.db)) := by simpa using hshards
  obtain ⟨rfl, rfl⟩ : (_, _) = r ∧ b₅ = b' := by simpa using h
  refine ⟨⟨by simpa using hin, by simpa using hfresh, hv, hscan.owned, hscan.free, hscan.nodup, ?_,
    fun shard => ?_⟩, ?_, hscan.db, fun key hk => ⟨hscan.fresh key hk, hscan.locks key hk,
      hscan.isSome key hk⟩⟩
  · rw [heq, relatedShards, (List.perm_insertionSort _ _).nodup_iff]
    exact List.nodup_dedup _
  · rw [heq]
    exact mem_relatedShards hscan.owned
  · rw [ownData_scanned, ← heq]
    rfl

/-! ## Preparing does not look at the relays received -/

/-- The state with other contents of the special keys. -/
def AppDB.withSpecial (special : Bytes → Option Bytes) (s : AppDB) : AppDB :=
  { s with db := { s.db with special } }

/-- The same for a batch. -/
def Batch.withSpecial (special : Bytes → Option Bytes) (b : Batch) : Batch :=
  { b with db := b.db.withSpecial special }

theorem frames_get (special : Bytes → Option Bytes) (key : Str) :
    Frames (AppDB.withSpecial special) (get app key) := by
  intro s
  by_cases hin : app.searchKeyIntraShard key = true
  · cases hd : s.db.data key <;> simp [get, set, run_bind, hin, hd, AppDB.withSpecial, AppDB.put]
  · cases hr : s.retainData key <;> simp [get, run_bind, hin, hr, AppDB.withSpecial]

theorem frames_scanKey (special : Bytes → Option Bytes) (key : Str) :
    Frames (Batch.withSpecial special) (scanKey app key) := by
  refine Frames.bind (fun b => by cases app.searchKeyShard key <;> rfl) fun shard => ?_
  by_cases hown : shard = app.chainId
  · rw [if_neg (not_not_intro hown)]
    refine Frames.bind (fun b => ?_) fun v => fun b => ?_
    · simp only [onDB, Batch.withSpecial, frames_get special key b.db]
    · cases hc : isFree v.2 && !b.wlocks.contains key && !b.rlocks.contains key <;>
        simp only [run_bind, run_get, run_require, Batch.withSpecial, hc] <;> rfl
  · rw [if_pos hown]
    exact fun _ => rfl

theorem preDoTransfer_frame {special : Bytes → Option Bytes}
    (hs : special (app.txHash rawTx) = b.db.db.special (app.txHash rawTx)) :
    preDoTransfer app tx rawTx (b.withSpecial special) =
      ((preDoTransfer app tx rawTx b).1,
        (preDoTransfer app tx rawTx b).2.withSpecial special) := by
  have hframe : Frames (Batch.withSpecial special) (do
      require (b.db.db.special (app.txHash rawTx)).isNone .alreadyCommitted
      validateTransferTx tx.toTransfer
      let scanned ← mapEach (scanKey app) tx.keys
      let relay := app.codecs.relayTx.marshal
        { datas := some (ownData scanned), txHash := app.txHash rawTx }
      let related := relatedShards scanned
      require (tx.shards == related) (.invalidCrossShardFields tx.shards related)
      pure (relay, related)) := by
    exact Frames.bind (fun _ => rfl) fun _ =>
      Frames.bind (frames_validateTransfer _ _ _ _ _) fun _ =>
        Frames.bind (Frames.mapEach (frames_scanKey special) tx.keys) fun xs =>
          Frames.bind (fun _ => rfl) fun _ => fun _ => rfl
  unfold preDoTransfer
  cases hin : tx.shards.contains app.chainId with
  | false => rfl
  | true =>
    rw [run_bind_ok (run_require_true _ _), run_bind_ok (run_require_true _ _),
      run_bind_ok (run_get _), run_bind_ok (run_get _)]
    show (do
      require (special (app.txHash rawTx)).isNone .alreadyCommitted
      _ : Action BankError Batch (Bytes × List Str)) (b.withSpecial special) = _
    rw [hs]
    exact hframe b

/-! ## Lock bytes -/

/-- Rewrite the lock byte of an entry, if there is one. -/
def AppDB.setLock (locked : UInt8) (s : AppDB) (key : Str) : AppDB :=
  match s.db.data key with
  | none => s
  | some v => s.put key { v with locked }

theorem run_setLockByte {locked : UInt8} (hs : (s.db.data key).isSome = true) :
    setLockByte locked key s = (.ok (), s.setLock locked key) := by
  obtain ⟨v, hv⟩ := Option.isSome_iff_exists.mp hs
  simp [setLockByte, run_bind, AppDB.setLock, hv]

variable (locked : UInt8)

theorem run_attempt_setLockByte (key : Str) (s : AppDB) :
    (setLockByte locked key s).2 = s.setLock locked key := by
  cases hv : s.db.data key <;> simp [setLockByte, run_bind, AppDB.setLock, hv]

theorem data_setLock (s : AppDB) (key k : Str) :
    (s.setLock locked key).db.data k =
      if k = key then (s.db.data k).map fun v => { v with locked } else s.db.data k := by
  unfold AppDB.setLock
  by_cases hk : k = key
  · subst hk
    cases hv : s.db.data k <;> simp [AppDB.put, hv]
  · split <;> simp [AppDB.put, hk]

/-- The lock bytes of several entries. -/
def AppDB.setLocks (locked : UInt8) (s : AppDB) (keys : List Str) : AppDB :=
  keys.foldl (AppDB.setLock locked) s

theorem data_setLocks (s : AppDB) (keys : List Str) (k : Str) :
    (s.setLocks locked keys).db.data k =
      if k ∈ keys then (s.db.data k).map fun v => { v with locked } else s.db.data k := by
  induction keys generalizing s with
  | nil => rfl
  | cons key keys ih =>
    refine (ih (s.setLock locked key)).trans ?_
    rw [data_setLock]
    by_cases hk : k = key <;> by_cases hks : k ∈ keys <;> simp [hk, hks, Function.comp_def]

theorem isSome_setLocks (s : AppDB) (keys : List Str) (k : Str) :
    ((s.setLocks locked keys).db.data k).isSome = (s.db.data k).isSome := by
  rw [data_setLocks]
  split <;> simp

theorem view_setLocks {locked : UInt8} (hs : ∀ key ∈ keys, (s.db.data key).isSome = true)
    (k : Str) :
    (s.setLocks locked keys).view k =
      if k ∈ keys then { s.view k with locked } else s.view k := by
  rw [AppDB.view, data_setLocks]
  split
  · next hk =>
    obtain ⟨v, hv⟩ := Option.isSome_iff_exists.mp (hs k hk)
    simp [AppDB.view, hv]
  · rfl

theorem setLocks_frame (s : AppDB) (keys : List Str) :
    (s.setLocks locked keys).db.special = s.db.special ∧
      (s.setLocks locked keys).retainData = s.retainData := by
  induction keys generalizing s with
  | nil => exact ⟨rfl, rfl⟩
  | cons key keys ih =>
    obtain ⟨h₁, h₂⟩ := ih (s.setLock locked key)
    refine ⟨h₁.trans ?_, h₂.trans ?_⟩ <;>
    · unfold AppDB.setLock
      split <;> rfl

theorem run_wUnlocks (hs : ∀ key ∈ keys, (s.db.data key).isSome = true) :
    forEach wUnlock keys s = (.ok (), s.setLocks freeIdentifier keys) := by
  induction keys generalizing s with
  | nil => rfl
  | cons key keys ih =>
    have hsome : ∀ k ∈ keys, ((s.setLock freeIdentifier key).db.data k).isSome = true := by
      intro k hk
      rw [data_setLock]
      split <;> simp [hs k (List.mem_cons_of_mem key hk)]
    rw [forEach, wUnlock, run_bind_ok (run_setLockByte (hs key List.mem_cons_self)), ih hsome]
    rfl

/-! ## Relays that came early -/

/-- The relays of the shards `early` are stored for the transfer `hash`, and no others; shard `p`
sent `datas p`. -/
def EarlyRelays (app : Application) (hash : Bytes) (datas : Str → BankData) (early : List Str)
    (s : AppDB) : Prop :=
  (early = [] ∧ s.db.special (toRelayKey hash) = none) ∨
    ∃ m : RelayTransferTxList,
      s.db.special (toRelayKey hash) = some (app.codecs.relayTxList.marshal m) ∧ m ≠ [] ∧
        (m.map Prod.fst).Nodup ∧ ∀ e, e ∈ m ↔ e.1 ∈ early ∧ e.2 = some (datas e.1)

theorem onWire_of_datas (hm : ∀ e, e ∈ m ↔ e.1 ∈ early ∧ e.2 = some (datas e.1)) :
    RelayTransferTxList.onWire m = m := by
  refine (List.map_congr_left fun e he => ?_).trans (List.map_id m)
  obtain ⟨-, hd⟩ := (hm e).mp he
  obtain ⟨p, d⟩ := e
  simp only at hd
  simp [hd]

theorem undoRelays_eq {hash : Bytes} (hc : app.codecs.Lawful)
    (h : EarlyRelays app hash datas early s) :
    ∃ m, undoRelays app hash s = (.ok m, s) ∧
      (s.db.getSpecial (toRelayKey hash) = [] ∨ m ≠ []) ∧ (m.map Prod.fst).Nodup ∧
      ∀ e, e ∈ m ↔ e.1 ∈ early ∧ e.2 = some (datas e.1) := by
  rcases h with ⟨rfl, hnone⟩ | ⟨m, hsome, hne, hnd, hm⟩
  · refine ⟨[], ?_, .inl (by simp [PrefixStore.getSpecial, hnone]), List.nodup_nil, by simp⟩
    simp [undoRelays, run_bind, PrefixStore.getSpecial, hnone]
  · obtain ⟨m', hdec, hperm⟩ := hc.relayTxList m hnd
    rw [onWire_of_datas hm] at hperm
    refine ⟨m', ?_, .inr fun h => hne (h ▸ hperm).nil_eq.symm,
      (hperm.map Prod.fst).nodup_iff.mpr hnd, fun e => hperm.mem_iff.trans (hm e)⟩
    obtain ⟨x, xs, hx⟩ := List.exists_cons_of_ne_nil (hc.relayTxList_ne_nil m hne)
    rw [hx] at hdec
    simp [undoRelays, run_bind, PrefixStore.getSpecial, hsome, hx, hdec]

theorem nodup_insert (hnd : (m.map Prod.fst).Nodup) (p : Str) (d : Option BankData) :
    ((m.insert p d).map Prod.fst).Nodup := by
  unfold RelayTransferTxList.insert
  rw [List.map_cons, List.nodup_cons]
  refine ⟨by simp, ?_⟩
  exact hnd.sublist (List.filter_sublist.map Prod.fst)

theorem toRelayKey_ne (hash : Bytes) : hash ≠ toRelayKey hash := by
  intro h
  have hlen := congrArg List.length h
  simp only [toRelayKey, List.length_append, List.length_cons, List.length_nil] at hlen
  omega

/-- A relay that arrives before the transfer is locked is stored. -/
theorem unlockTransfer_early {hash : Bytes} (hc : app.codecs.Lawful)
    (h : EarlyRelays app hash datas early s) (hfresh : s.db.special hash = none) (p : Str) :
    ∃ bz, unlockTransfer app { datas := some (datas p), txHash := hash } p s =
        (.ok (), s.setSpecial (toRelayKey hash) bz) ∧
      EarlyRelays app hash datas (p :: early) (s.setSpecial (toRelayKey hash) bz) := by
  obtain ⟨m, hundo, hwritable, hnd, hm⟩ := undoRelays_eq hc h
  have hreq : (s.db.getSpecial (toRelayKey hash)).isEmpty || !m.isEmpty := by
    rcases hwritable with h | h <;> simp [h]
  refine ⟨app.codecs.relayTxList.marshal (m.insert p (some (datas p))), ?_, .inr
    ⟨m.insert p (some (datas p)), by simp [AppDB.setSpecial], ?_, nodup_insert hnd _ _, ?_⟩⟩
  · have hget : s.db.getSpecial hash = [] := by simp [PrefixStore.getSpecial, hfresh]
    simp [unlockTransfer, run_bind, hget, hundo, hreq]
  · exact List.cons_ne_nil _ _
  · rintro ⟨q, d⟩
    simp only [RelayTransferTxList.insert, List.mem_cons, List.mem_filter, hm, decide_eq_true_eq,
      Prod.mk.injEq]
    by_cases hq : q = p
    · subst hq
      simp
    · simp [hq]

/-! ## Locking -/

theorem insertDatas_map (d : Option BankData) (chain : Str) (shards : List Str)
    (f : Str → Option BankData) :
    insertDatas d chain shards (shards.map f) =
      some (shards.map fun shard => if shard = chain then d else f shard) := by
  induction shards with
  | nil => rfl
  | cons shard shards ih => simp [insertDatas, ih]

theorem insertAll_map {σ : Type} (m : RelayTransferTxList) (shards : List Str)
    (f : Str → Option BankData) (rawTx : Bytes) (s : σ) :
    insertAll m { shards, datas := shards.map f, rawTx } s =
      (.ok { shards, datas := shards.map fun p => (Ledger.last? m p).getD (f p), rawTx }, s) := by
  induction m generalizing f with
  | nil => rfl
  | cons e m ih =>
    have hins : insertBankDataToRelayTxSet e.2 e.1 { shards, datas := shards.map f, rawTx } s =
        (.ok { shards, datas := shards.map fun p => if p = e.1 then e.2 else f p, rawTx }, s) := by
      simp [insertBankDataToRelayTxSet, run_bind, insertDatas_map]
    rw [insertAll, run_bind_ok hins, ih]
    congr 3
    refine List.map_congr_left fun p _ => ?_
    rw [Ledger.last?]
    cases Ledger.last? m p with
    | some d => rfl
    | none =>
      by_cases hp : e.1 = p
      · simp [hp]
      · simp [hp, Ne.symm hp]

/-- The set of a transfer in which the relays of the shards `got` are filled in. -/
def relaySet (tx : TransferTx) (rawTx : Bytes) (datas : Str → BankData) (got : List Str) :
    RelayTransferTxSet :=
  { shards := tx.shards
    datas := tx.shards.map fun p => if p ∈ got then some (datas p) else none
    rawTx }

theorem last?_of_datas (hnd : (m.map Prod.fst).Nodup)
    (hm : ∀ e, e ∈ m ↔ e.1 ∈ early ∧ e.2 = some (datas e.1)) (p : Str) :
    (Ledger.last? m p).getD none = if p ∈ early then some (datas p) else none := by
  by_cases hp : p ∈ early
  · have hmem : (p, some (datas p)) ∈ m := (hm _).mpr ⟨hp, rfl⟩
    rw [Ledger.last?_of_mem hnd hmem, if_pos hp]
    rfl
  · have hno : Ledger.last? m p = none := by
      rw [Ledger.last?_eq_none]
      rintro hmem
      obtain ⟨e, he, rfl⟩ := List.mem_map.mp hmem
      exact hp ((hm e).mp he).1
    rw [hno, if_neg hp]
    rfl

/-- The set of a transfer with the relays `m` that came early. -/
def earlySet (tx : TransferTx) (rawTx : Bytes) (m : RelayTransferTxList) : RelayTransferTxSet :=
  { shards := tx.shards
    datas := tx.shards.map fun p => (Ledger.last? m p).getD none
    rawTx }

/-- **Locking.** The set is stored with the relays `m` that came early, and the shard's own keys are
locked. -/
theorem lockTransfer_of_undoRelays (h : undoRelays app (app.txHash rawTx) s = (.ok m, s)) :
    lockTransfer app tx rawTx s =
      (.ok (), (s.setSpecial (app.txHash rawTx) (app.codecs.relayTxSet.marshal
        (earlySet tx rawTx m))).setLocks wLockedIdentifier (ownKeys app tx.toTransfer)) := by
  have hrep : List.replicate tx.shards.length none = tx.shards.map fun _ => (none : Option BankData) :=
    by simp
  unfold lockTransfer
  rw [run_bind_ok h, hrep, run_bind_ok (insertAll_map m tx.shards _ rawTx s),
    run_bind_ok (run_modify _ _)]
  have hloop := fun s => run_forEach_of_ok (g := AppDB.setLock wLockedIdentifier)
    (f := fun key => do
      let _ ← attempt (wLock key)
      pure ()) (l := tx.keys.filter app.searchKeyIntraShard) (fun key _ s => by
        rw [run_bind_ok (run_attempt _ _)]
        exact congrArg _ (run_attempt_setLockByte wLockedIdentifier key s)) s
  exact hloop _

theorem lockTransfer_eq (hc : app.codecs.Lawful)
    (h : EarlyRelays app (app.txHash rawTx) datas early s) :
    lockTransfer app tx rawTx s =
      (.ok (), (s.setSpecial (app.txHash rawTx)
        (app.codecs.relayTxSet.marshal (relaySet tx rawTx datas early))).setLocks
          wLockedIdentifier (ownKeys app tx.toTransfer)) := by
  obtain ⟨m, hundo, -, hnd, hm⟩ := undoRelays_eq hc h
  rw [lockTransfer_of_undoRelays hundo]
  simp only [earlySet, last?_of_datas hnd hm]
  rfl

end Emulator.Urd.Minibank
