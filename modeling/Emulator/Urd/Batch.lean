import Emulator.Urd.Atomicity

/-!
# A batch of cross-shard transactions

`preExecution` prepares the cross-shard transactions of a block one after another on one store, with
two lock maps for the batch. A transaction that is accepted has its relay appended to the lists of
its shards, and is then locked by `executeCrossShard`, whose error is ignored.

* `prepare_cases` — what preparing one transaction can do: `Scans` if it is rejected, `Enters` if it
  is accepted.
* `prepareAll_eq` — the relay lists of a whole batch.
* `preExecution_snapshot` — the relays of a batch are a conflict-free snapshot of the store.
* `all_or_nothing` — a transaction is locked or leaves no trace, provided that `executeCrossShard`
  can lock it, and that no later transaction needs a key it left in `wlocks`.
-/

namespace Emulator.Urd.Minibank

open Emulator.Action Emulator.Minibank

/-! ## One transaction -/

section

variable (app : Application)

/-- The message of a transaction, behind its four type bytes. -/
def decodeTx (raw : Bytes) : Option TransferTx := app.codecs.transferTx.unmarshal (raw.drop 4)

/-- `executeCrossShard` can lock the transaction: it is a transfer by its type bytes, and the relays
that came early for it can be decoded. -/
structure Lockable (raw : Bytes) (s : AppDB) : Prop where
  isTransfer : bytesToUint32 raw = some txTransfer
  relays : ∃ m, undoRelays app (app.txHash raw) s = (.ok m, s)

/-- From `b` to `b'` keys were read, and some of them put into `wlocks`. -/
structure Scans (b b' : Batch) : Prop where
  db : Touched app b.db b'.db
  wlocks : ∀ key ∈ b.wlocks, key ∈ b'.wlocks
  rlocks : b'.rlocks = b.rlocks

/-- `b'` comes after `b` in a batch: what is stored and what is locked stays, and no balance
changes. -/
structure Later (b b' : Batch) : Prop where
  special : ∀ h v, b.db.db.special h = some v → b'.db.db.special h = some v
  money : ∀ key, b'.db.balance key = b.db.balance key
  locked : ∀ key, isFree (b.db.view key).locked = false → b'.db.view key = b.db.view key
  wlocks : ∀ key ∈ b.wlocks, key ∈ b'.wlocks

/-- From `b` to `b'` the transaction was accepted, and locked if that is possible. -/
structure Enters (tx : TransferTx) (raw : Bytes) (b b' : Batch) : Prop where
  accepted : Accepted app tx raw b.db
  fresh : ∀ key ∈ ownKeys app tx.toTransfer, key ∉ b.wlocks
  wlocks : ∀ key ∈ ownKeys app tx.toTransfer, key ∈ b'.wlocks
  later : Later b b'
  stored : Lockable app raw b.db → ∃ m, b'.db.db.special (app.txHash raw) =
    some (app.codecs.relayTxSet.marshal (earlySet tx raw m))
  locks : Lockable app raw b.db → ∀ key ∈ ownKeys app tx.toTransfer,
    (b'.db.view key).locked = wLockedIdentifier

end

variable {app : Application} {b b' : Batch} {tx : TransferTx} {s s' t : AppDB} {input : List Bytes}
  {K : Str → Prop} {m : RelayTransferTxList} {acc : List (Bytes × TransferTx)} {shard : Str}
variable {raw : Bytes}


theorem Scans.refl (b : Batch) : Scans app b b := ⟨Touched.refl _, fun _ h => h, rfl⟩

theorem Scans.trans (a b c : Batch) (h : Scans app a b) (h' : Scans app b c) : Scans app a c :=
  ⟨Touched.trans _ _ _ h.db h'.db, fun key hk => h'.wlocks key (h.wlocks key hk),
    h'.rlocks.trans h.rlocks⟩

theorem Scans.later (h : Scans app b b') : Later b b' where
  special hash v hv := by rw [h.db.special, hv]
  money key := by rw [AppDB.balance, h.db.view, AppDB.balance]
  locked key _ := by rw [h.db.view]
  wlocks := h.wlocks

theorem Later.refl (b : Batch) : Later b b :=
  ⟨fun _ _ h => h, fun _ => rfl, fun _ _ => rfl, fun _ h => h⟩

theorem Later.trans {a c : Batch} (h : Later a b) (h' : Later b c) : Later a c where
  special hash v hv := h'.special hash v (h.special hash v hv)
  money key := (h'.money key).trans (h.money key)
  locked key hk := by
    rw [← h.locked key hk]
    exact h'.locked key (by rw [h.locked key hk, hk])
  wlocks key hk := h'.wlocks key (h.wlocks key hk)

theorem Later.isFree (h : Later b b') {key : Str}
    (hfree : Minibank.isFree (b'.db.view key).locked = true) :
    Minibank.isFree (b.db.view key).locked = true := by
  cases hb : Minibank.isFree (b.db.view key).locked with
  | true => rfl
  | false =>
    rw [h.locked key hb, hb] at hfree
    cases hfree

theorem keeps_scanKey (hd : app.Disjoint) (key : Str) : Keeps (Scans app) (scanKey app key) := by
  intro b
  by_cases hin : app.searchKeyIntraShard key = true
  · rw [scanKey_own hd hin]
    split
    · exact ⟨touched_touch hin b.db, fun k hk => List.mem_cons_of_mem key hk, rfl⟩
    · exact ⟨touched_touch hin b.db, fun _ h => h, rfl⟩
  · cases hkey : app.searchKeyShard key with
    | none =>
      rw [scanKey_missing hkey]
      exact Scans.refl b
    | some shard =>
      rw [scanKey_other hkey (searchKeyShard_ne hd hkey hin)]
      exact Scans.refl b

theorem keeps_preDoTransfer (hd : app.Disjoint) (tx : TransferTx) (raw : Bytes) :
    Keeps (Scans app) (preDoTransfer app tx raw) := by
  refine Keeps.require_bind Scans.refl fun _ => Keeps.get_bind fun b => ?_
  refine Keeps.require_bind Scans.refl (fun _ => ?_) b
  refine Keeps.bind Scans.trans (Keeps.of_eq Scans.refl fun s =>
    (run_validateTransfer _ _ _ _ s).1) fun _ => ?_
  refine Keeps.bind Scans.trans (Keeps.mapEach Scans.refl Scans.trans (keeps_scanKey hd) _) fun xs => ?_
  exact Keeps.require_bind Scans.refl fun _ => Scans.refl

theorem avoids_panic_scanKey (key : Str) : Avoids .panic (scanKey app key) := by
  have hown : Avoids .panic (onDB (get app key)) := fun b => avoids_panic_get key b.db
  refine Avoids.bind (fun b h => ?_) fun shard => ?_
  · cases hkey : app.searchKeyShard key <;> simp [hkey] at h
  · split
    · exact Avoids.pure _ _
    · exact Avoids.bind hown fun v => Avoids.bind (fun _ h => by cases h) fun b =>
        Avoids.bind (Avoids.require (by decide) _) fun _ =>
          Avoids.bind (fun _ h => by cases h) fun _ => Avoids.pure _ _

theorem avoids_panic_preDoTransfer (tx : TransferTx) (raw : Bytes) :
    Avoids .panic (preDoTransfer app tx raw) := by
  have hvalid : Avoids .panic (validateTransferTx tx.toTransfer : Action BankError Batch Unit) :=
    Avoids.bind (Avoids.require (by decide) _) fun _ =>
      Avoids.bind (Avoids.require (by decide) _) fun _ => Avoids.require (by decide) _
  exact Avoids.bind (Avoids.require (by decide) _) fun _ => Avoids.bind (fun _ h => by cases h) fun b =>
    Avoids.bind (Avoids.require (by decide) _) fun _ => Avoids.bind hvalid fun _ =>
      Avoids.bind (Avoids.mapEach avoids_panic_scanKey _) fun xs =>
        Avoids.bind (Avoids.require (by simp) _) fun _ => Avoids.pure _ _

theorem newTransferTxFromBytes_of_le {σ : Type} (hlen : 4 ≤ raw.length) (s : σ) :
    newTransferTxFromBytes app raw s = ((decodeTx app raw).elim (.error .unmarshal) .ok, s) := by
  rw [newTransferTxFromBytes, if_neg (Nat.not_lt.mpr hlen)]
  rfl

theorem undoRelays_cases (hash : Bytes) (s : AppDB) :
    (∃ m, undoRelays app hash s = (.ok m, s)) ∨ undoRelays app hash s = (.error .unmarshal, s) := by
  unfold undoRelays
  rw [run_bind_ok (run_get s)]
  cases s.db.getSpecial (toRelayKey hash) with
  | nil => exact .inl ⟨[], rfl⟩
  | cons x xs =>
    cases hdec : app.codecs.relayTxList.unmarshal (x :: xs) with
    | none => exact .inr (by simp [hdec])
    | some m => exact .inl ⟨m, by simp [hdec]⟩

theorem undoRelays_congr {hash : Bytes} (h : s'.db.special = s.db.special) :
    undoRelays app hash s' = ((undoRelays app hash s).1, s') := by
  have hget : s'.db.getSpecial (toRelayKey hash) = s.db.getSpecial (toRelayKey hash) := by
    rw [PrefixStore.getSpecial, h, PrefixStore.getSpecial]
  unfold undoRelays
  rw [run_bind_ok (run_get s), run_bind_ok (run_get s')]
  simp only [hget]
  cases s.db.getSpecial (toRelayKey hash) <;> rfl

theorem Lockable.congr (h : s'.db.special = s.db.special) (hl : Lockable app raw s) :
    Lockable app raw s' := by
  obtain ⟨m, hm⟩ := hl.relays
  exact ⟨hl.isTransfer, m, by rw [undoRelays_congr h, hm]⟩

/-- The state after the transaction was locked, with the relays `m` that came early. -/
def lockedWith (app : Application) (tx : TransferTx) (raw : Bytes) (m : RelayTransferTxList)
    (s : AppDB) : AppDB :=
  (s.setSpecial (app.txHash raw) (app.codecs.relayTxSet.marshal (earlySet tx raw m))).setLocks
    wLockedIdentifier (ownKeys app tx.toTransfer)

theorem view_lockedWith (hsome : ∀ key ∈ ownKeys app tx.toTransfer, (s.db.data key).isSome = true)
    (key : Str) :
    (lockedWith app tx raw m s).view key =
      if key ∈ ownKeys app tx.toTransfer then { s.view key with locked := wLockedIdentifier }
      else s.view key :=
  view_setLocks (by exact hsome) key

theorem special_lockedWith (tx : TransferTx) (raw : Bytes) (m : RelayTransferTxList) (s : AppDB) :
    (lockedWith app tx raw m s).db.special =
      Function.update s.db.special (app.txHash raw)
        (some (app.codecs.relayTxSet.marshal (earlySet tx raw m))) :=
  (setLocks_frame _ _ _).1

section

variable (hlen : 4 ≤ raw.length)

include hlen

section

variable (hdec : decodeTx app raw = some tx)

include hdec

/-- `executeCrossShard` locks the transaction, or does nothing at all. -/
theorem executeCrossShard_cases (hcross : 1 < tx.shards.length) (s : AppDB) :
    (Lockable app raw s ∧ ∃ m, undoRelays app (app.txHash raw) s = (.ok m, s) ∧
        executeCrossShard app raw s = (.ok (), lockedWith app tx raw m s)) ∨
      ¬ Lockable app raw s ∧ ∃ e, e ≠ .panic ∧ executeCrossShard app raw s = (.error e, s) := by
  have hnew : newTransferTxFromBytes app raw s = (.ok tx, s) := by
    rw [newTransferTxFromBytes_of_le hlen, hdec]
    rfl
  unfold executeCrossShard
  cases htype : bytesToUint32 raw with
  | none => exact .inr ⟨fun h => by simpa [htype] using h.isTransfer, _, by decide, rfl⟩
  | some ty =>
    rw [run_bind_ok (run_orThrow_some _ _ _)]
    by_cases hty : ty = txTransfer
    · rw [run_bind_ok (require_eq_ok.mpr ⟨decide_eq_true hty, rfl⟩), run_bind_ok hnew,
        run_bind_ok (require_eq_ok.mpr ⟨decide_eq_true hcross, rfl⟩)]
      rcases @undoRelays_cases app (app.txHash raw) s with ⟨m, hm⟩ | herr
      · exact .inl ⟨⟨by rw [htype, hty], m, hm⟩, m, hm, lockTransfer_of_undoRelays hm⟩
      · refine .inr ⟨fun h => ?_, .unmarshal, by decide, run_bind_error herr⟩
        obtain ⟨m, hm⟩ := h.relays
        rw [herr] at hm
        cases hm
    · refine .inr ⟨fun h => hty (by simpa [htype] using h.isTransfer), .unknownType, by decide, ?_⟩
      simp [run_bind, hty]

theorem prepare_rejected (hcross : 1 < tx.shards.length) {e : BankError}
    (hpre : preDoTransfer app tx raw b = (.error e, b')) : prepare app raw b = (.ok none, b') := by
  have hne : e ≠ .panic := by
    rintro rfl
    exact avoids_panic_preDoTransfer tx raw b (by rw [hpre])
  unfold prepare
  rw [run_bind_ok (run_attempt _ _), newTransferTxFromBytes_of_le hlen, hdec]
  simp only [Option.elim_some, if_neg (Nat.not_le.mpr hcross)]
  rw [run_bind_ok (run_attempt _ _), hpre]
  cases e with
  | panic => exact absurd rfl hne
  | _ => rfl

theorem prepare_accepted (hcross : 1 < tx.shards.length) {r : Bytes × List Str}
    (hpre : preDoTransfer app tx raw b = (.ok r, b')) :
    prepare app raw b =
      (.ok (some r), { b' with db := (executeCrossShard app raw b'.db).2 }) := by
  have hlock : ignoreError (onDB (executeCrossShard app raw)) b' =
      (.ok (), { b' with db := (executeCrossShard app raw b'.db).2 }) := by
    rcases executeCrossShard_cases hlen hdec hcross b'.db with ⟨-, m, -, hrun⟩ | ⟨-, e, hne, hrun⟩
    · simp [ignoreError, run_bind, onDB, hrun]
    · cases e with
      | panic => exact absurd rfl hne
      | _ => simp [ignoreError, run_bind, onDB, hrun]
  unfold prepare
  rw [run_bind_ok (run_attempt _ _), newTransferTxFromBytes_of_le hlen, hdec]
  simp only [Option.elim_some, if_neg (Nat.not_le.mpr hcross)]
  rw [run_bind_ok (run_attempt _ _), hpre]
  simp only
  rw [run_bind_ok hlock]
  rfl

end

/-- A transaction that cannot be decoded, or is for one shard only, is skipped. -/
theorem prepare_skipped (hskip : ∀ tx, decodeTx app raw = some tx → tx.shards.length ≤ 1) (b : Batch) :
    prepare app raw b = (.ok none, b) := by
  unfold prepare
  rw [run_bind_ok (run_attempt _ _), newTransferTxFromBytes_of_le hlen]
  cases hdec : decodeTx app raw with
  | none => rfl
  | some tx =>
    simp only [Option.elim_some, if_pos (hskip tx hdec)]
    rfl

/-- A transaction is skipped, rejected by `pre_doTransfer`, or accepted by it and handed to
`executeCrossShard`. -/
theorem prepare_eq (b : Batch) :
    prepare app raw b = (.ok none, b) ∨
      ∃ tx, decodeTx app raw = some tx ∧ 1 < tx.shards.length ∧
        ((∃ e b', preDoTransfer app tx raw b = (.error e, b') ∧ prepare app raw b = (.ok none, b')) ∨
          ∃ r b', preDoTransfer app tx raw b = (.ok r, b') ∧ prepare app raw b =
            (.ok (some r), { b' with db := (executeCrossShard app raw b'.db).2 })) := by
  by_cases hskip : ∀ tx, decodeTx app raw = some tx → tx.shards.length ≤ 1
  · exact .inl (prepare_skipped hlen hskip b)
  · push Not at hskip
    obtain ⟨tx, hdec, hcross⟩ := hskip
    refine .inr ⟨tx, hdec, hcross, ?_⟩
    cases hpre : preDoTransfer app tx raw b with
    | mk res b' =>
      cases res with
      | error e => exact .inl ⟨e, b', rfl, prepare_rejected hlen hdec hcross hpre⟩
      | ok r => exact .inr ⟨r, b', rfl, prepare_accepted hlen hdec hcross hpre⟩

end

theorem later_lockedWith {b₁ : Batch} (hacc : Accepted app tx raw b.db) (hscan : Scans app b b₁)
    (hsome : ∀ key ∈ ownKeys app tx.toTransfer, (b₁.db.db.data key).isSome = true) :
    Later b { b₁ with db := lockedWith app tx raw m b₁.db } := by
  have hview := fun key => @view_lockedWith app tx b₁.db m raw hsome key
  simp only [hscan.db.view] at hview
  refine ⟨fun hash v hv => ?_, fun key => ?_, fun key hk => ?_, hscan.wlocks⟩
  · have hne : hash ≠ app.txHash raw := by
      rintro rfl
      rw [hacc.fresh] at hv
      cases hv
    show (lockedWith app tx raw m b₁.db).db.special hash = some v
    rw [special_lockedWith, Function.update_of_ne hne, hscan.db.special, hv]
  · refine (congrArg Value.money (hview key)).trans ?_
    split <;> rfl
  · refine (hview key).trans (if_neg fun hown => ?_)
    rw [hacc.free key hown] at hk
    cases hk

theorem prepare_cases (hd : app.Disjoint) (hlen : 4 ≤ raw.length) (b : Batch) :
    (∃ b', prepare app raw b = (.ok none, b') ∧ Scans app b b') ∨
      ∃ tx b', decodeTx app raw = some tx ∧
        prepare app raw b = (.ok (some (relayOf app tx raw b.db, tx.shards)), b') ∧
        Enters app tx raw b b' := by
  rcases prepare_eq hlen b with hskip | ⟨tx, hdec, hcross, ⟨e, b₁, hpre, hrun⟩ | ⟨r, b₁, hpre, hrun⟩⟩
  · exact .inl ⟨b, hskip, Scans.refl b⟩
  · have hscan := keeps_preDoTransfer hd tx raw b
    rw [hpre] at hscan
    exact .inl ⟨b₁, hrun, hscan⟩
  · have hscan := keeps_preDoTransfer hd tx raw b
    rw [hpre] at hscan
    obtain ⟨hacc, rfl, htouched, hkeys⟩ := accepted_of_preDoTransfer hd hpre
    refine .inr ⟨tx, _, hdec, hrun, ?_⟩
    have hfresh := fun key hk => (hkeys key hk).1
    have hwlocks := fun key hk => (hkeys key hk).2.1
    have hsome := fun key hk => (hkeys key hk).2.2
    rcases executeCrossShard_cases hlen hdec hcross b₁.db with ⟨-, m, -, hlock⟩ | ⟨hno, e, -, hlock⟩
    · rw [hlock]
      refine ⟨hacc, hfresh, hwlocks, later_lockedWith hacc hscan hsome, fun _ => ⟨m, ?_⟩,
        fun _ key hk => ?_⟩
      · show (lockedWith app tx raw m b₁.db).db.special _ = _
        rw [special_lockedWith, Function.update_self]
      · exact congrArg Value.locked ((view_lockedWith hsome key).trans (if_pos hk))
    · rw [hlock]
      have hlock : ¬ Lockable app raw b.db := fun h => hno (h.congr htouched.special)
      exact ⟨hacc, hfresh, hwlocks, hscan.later, fun h => absurd h hlock, fun h => absurd h hlock⟩

/-! ## The whole batch -/

section

variable (app : Application)

/-- The shards have distinct names, and every key range belongs to one of them. -/
structure Application.Configured : Prop where
  ids : app.shardIDList.Nodup
  trees : ∀ e ∈ app.keyRangeTrees, e.1 ∈ app.shardIDList

def newBatch (st : PrefixStore) : Batch := { db := newDB st, wlocks := [], rlocks := [] }

/-- The batch after the transactions `input`. -/
def afterBatch (b : Batch) (input : List Bytes) : Batch :=
  input.foldl (fun b raw => (prepare app raw b).2) b

/-- The transaction with its message, if it is accepted. -/
def acceptedTx (raw : Bytes) (b : Batch) : Option (Bytes × TransferTx) :=
  match (prepare app raw b).1 with
  | .ok (some _) => (decodeTx app raw).map fun tx => (raw, tx)
  | _ => none

/-- The accepted transactions of a batch, in order. -/
def acceptedTxs : List Bytes → Batch → List (Bytes × TransferTx)
  | [], _ => []
  | raw :: input, b => (acceptedTx app raw b).toList ++ acceptedTxs input (prepare app raw b).2

/-- The relays of the transactions `acc` that are for shard `j`, with the balances of `s`. -/
def relaysFor (s : AppDB) (acc : List (Bytes × TransferTx)) (j : Str) : List Bytes :=
  (acc.filter fun a => decide (j ∈ a.2.shards)).map fun a => relayOf app a.2 a.1 s

end

/-- `createABCI`: a key range for every shard of the map `Shards`, and `ShardIDList` its sorted
names. -/
def createABCI (shards : List (Str × (Str → Bool))) (chainId : Str) (codecs : Codecs)
    (txHash : Bytes → Bytes) : Application where
  keyRangeTrees := shards
  chainId := chainId
  shardIDList := (shards.map Prod.fst).insertionSort (· ≤ ·)
  codecs := codecs
  txHash := txHash

theorem configured_createABCI {shards : List (Str × (Str → Bool))}
    (hnd : (shards.map Prod.fst).Nodup) (chainId : Str) (codecs : Codecs) (txHash : Bytes → Bytes) :
    (createABCI shards chainId codecs txHash).Configured := by
  have hperm := List.perm_insertionSort (· ≤ ·) (shards.map Prod.fst)
  exact ⟨hperm.nodup_iff.mpr hnd, fun e he => hperm.mem_iff.mpr (List.mem_map_of_mem he)⟩

theorem acceptedTx_rejected (h : prepare app raw b = (.ok none, b')) :
    acceptedTx app raw b = none := by
  unfold acceptedTx
  rw [h]

theorem acceptedTx_accepted {r : Bytes × List Str} (hdec : decodeTx app raw = some tx)
    (h : prepare app raw b = (.ok (some r), b')) : acceptedTx app raw b = some (raw, tx) := by
  unfold acceptedTx
  rw [h, hdec]
  rfl

theorem later_prepare (hd : app.Disjoint) (hlen : 4 ≤ raw.length) (b : Batch) :
    Later b (prepare app raw b).2 := by
  rcases prepare_cases hd hlen b with ⟨b', hrun, hscan⟩ | ⟨tx, b', -, hrun, henters⟩
  · rw [hrun]
    exact hscan.later
  · rw [hrun]
    exact henters.later

theorem relayOf_congr (h : ∀ key, s'.balance key = s.balance key) :
    relayOf app tx raw s' = relayOf app tx raw s := by
  have hbal : s'.balance = s.balance := funext h
  unfold relayOf shipped
  rw [hbal]

theorem relaysFor_congr (h : ∀ key, s'.balance key = s.balance key) (j : Str) :
    relaysFor app s' acc j = relaysFor app s acc j := by
  unfold relaysFor
  exact List.map_congr_left fun a _ => relayOf_congr h

theorem relaysFor_append (s : AppDB) (acc acc' : List (Bytes × TransferTx)) (j : Str) :
    relaysFor app s (acc ++ acc') j = relaysFor app s acc j ++ relaysFor app s acc' j := by
  simp [relaysFor]

theorem relaysFor_singleton (s : AppDB) (raw : Bytes) (tx : TransferTx) (j : Str) :
    relaysFor app s [(raw, tx)] j = if j ∈ tx.shards then [relayOf app tx raw s] else [] := by
  by_cases hj : j ∈ tx.shards <;> simp [relaysFor, hj]

theorem shardsToIndex_eq (hs : shard ∈ app.shardIDList) :
    app.shardsToIndex shard = app.shardIDList.idxOf shard := by
  rw [Application.shardsToIndex, List.idxOf_eq_getD_idxOf?]
  cases h : app.shardIDList.idxOf? shard with
  | none => exact absurd hs (List.idxOf?_eq_none_iff.mp h)
  | some i => rfl

theorem appendAt_map (hnd : app.shardIDList.Nodup) (hs : shard ∈ app.shardIDList)
    (f : Str → List Bytes) (relay : Bytes) :
    appendAt (app.shardIDList.map f) (app.shardsToIndex shard) relay =
      some (app.shardIDList.map fun j => if j = shard then f j ++ [relay] else f j) := by
  have hlt : app.shardIDList.idxOf shard < (app.shardIDList.map f).length := by
    simpa using List.idxOf_lt_length_of_mem hs
  rw [shardsToIndex_eq hs, appendAt, if_pos hlt, Option.some_inj]
  refine List.ext_getElem? fun k => ?_
  rw [List.getElem?_modify, List.getElem?_map, List.getElem?_map]
  cases hk : app.shardIDList[k]? with
  | none => simp
  | some j =>
    obtain ⟨hlt, rfl⟩ := List.getElem?_eq_some_iff.mp hk
    have hidx : app.shardIDList.idxOf shard = k ↔ app.shardIDList[k] = shard := by
      constructor
      · intro h
        simp [← h]
      · intro h
        rw [← h]
        exact hnd.idxOf_getElem k hlt
    by_cases hj : app.shardIDList[k] = shard <;> simp [hidx, hj]

/-- The relay of one transaction is appended once to the list of each of its shards. -/
theorem appendRelay_map (hnd : app.shardIDList.Nodup) {shards : List Str} (hs : shards.Nodup)
    (hmem : ∀ shard ∈ shards, shard ∈ app.shardIDList) (f : Str → List Bytes) (relay : Bytes) :
    appendRelay app relay shards (app.shardIDList.map f) =
      some (app.shardIDList.map fun j => f j ++ if j ∈ shards then [relay] else []) := by
  induction shards generalizing f with
  | nil => simp [appendRelay]
  | cons shard shards ih =>
    rw [List.nodup_cons] at hs
    rw [appendRelay, List.foldlM_cons, appendAt_map hnd (hmem shard List.mem_cons_self)]
    refine (ih hs.2 (fun p hp => hmem p (List.mem_cons_of_mem shard hp)) _).trans ?_
    refine congrArg some (List.map_congr_left fun j _ => ?_)
    by_cases hj : j = shard
    · subst hj
      simp [hs.1]
    · simp [hj]

theorem Accepted.mem_shardIDList (hcfg : app.Configured) (h : Accepted app tx raw s)
    (hs : shard ∈ tx.shards) : shard ∈ app.shardIDList := by
  obtain ⟨key, -, hkey⟩ := (h.mem_shards shard).mp hs
  unfold Application.searchKeyShard at hkey
  obtain ⟨e, he, rfl⟩ := Option.map_eq_some_iff.mp hkey
  exact hcfg.trees e (List.mem_of_find?_eq_some he)

/-- **The relays of a batch.** Every list gets the relays of the accepted transactions that are for
its shard, in order. -/
theorem prepareAll_eq (hd : app.Disjoint) (hcfg : app.Configured)
    (hlen : ∀ raw ∈ input, 4 ≤ raw.length) (f : Str → List Bytes) (b : Batch) :
    prepareAll app input (app.shardIDList.map f) b =
      (.ok (app.shardIDList.map fun j => f j ++ relaysFor app b.db (acceptedTxs app input b) j),
        afterBatch app b input) := by
  induction input generalizing f b with
  | nil => simp [prepareAll, acceptedTxs, relaysFor, afterBatch]
  | cons raw input ih =>
    have hlen' : ∀ r ∈ input, 4 ≤ r.length := fun r hr => hlen r (List.mem_cons_of_mem raw hr)
    have hmoney := (later_prepare hd (hlen raw List.mem_cons_self) b).money
    rcases prepare_cases hd (hlen raw List.mem_cons_self) b with
      ⟨b', hrun, -⟩ | ⟨tx, b', hdec, hrun, henters⟩
    · rw [hrun] at hmoney
      rw [prepareAll, run_bind_ok hrun]
      refine (ih hlen' f b').trans ?_
      simp only [acceptedTxs, acceptedTx_rejected hrun, hrun, relaysFor_congr hmoney]
      simp [afterBatch, hrun]
    · rw [hrun] at hmoney
      rw [prepareAll, run_bind_ok hrun]
      have happend := appendRelay_map hcfg.ids henters.accepted.shards_nodup
        (fun shard hs => henters.accepted.mem_shardIDList hcfg hs) f (relayOf app tx raw b.db)
      refine (run_bind_ok (orThrow_eq_ok.mpr ⟨happend, rfl⟩)).trans ((ih hlen' _ b').trans ?_)
      simp only [acceptedTxs, acceptedTx_accepted hdec hrun, hrun, relaysFor_congr hmoney,
        Option.toList_some, relaysFor_append, relaysFor_singleton, List.append_assoc]
      simp [afterBatch, hrun]

theorem preExecution_eq (hd : app.Disjoint) (hcfg : app.Configured)
    (hlen : ∀ raw ∈ input, 4 ≤ raw.length) (st : PrefixStore) :
    preExecution app input st =
      (.ok (app.shardIDList.map (relaysFor app (newDB st) (acceptedTxs app input (newBatch st)))),
        (afterBatch app (newBatch st) input).db.db) := by
  have hrep : List.replicate app.shardIDList.length ([] : List Bytes) =
      app.shardIDList.map fun _ => [] := by simp
  unfold preExecution
  rw [hrep]
  have hall := prepareAll_eq hd hcfg hlen (fun _ => []) (newBatch st)
  simp only [List.nil_append] at hall
  rw [show ({ db := newDB st, wlocks := [], rlocks := [] } : Batch) = newBatch st from rfl, hall]
  rfl

/-! ### The snapshot -/

/-- The transactions `acc` do not get in each other's way in the batch `b`: they are for the shards
that own their keys, their own keys can be locked, and no two of these are the same. -/
structure ConflictFree (app : Application) (b : Batch) (acc : List (Bytes × TransferTx)) : Prop where
  decodes : ∀ a ∈ acc, decodeTx app a.1 = some a.2
  shards : ∀ a ∈ acc, ∀ j, j ∈ a.2.shards ↔ ∃ key ∈ a.2.keys, app.searchKeyShard key = some j
  free : ∀ a ∈ acc, ∀ key ∈ ownKeys app a.2.toTransfer,
    isFree (b.db.view key).locked = true ∧ key ∉ b.wlocks
  nodup : (acc.flatMap fun a => ownKeys app a.2.toTransfer).Nodup

theorem ConflictFree.of_later (hlater : Later b b') (h : ConflictFree app b' acc) :
    ConflictFree app b acc where
  decodes := h.decodes
  shards := h.shards
  free a ha key hk := ⟨hlater.isFree (h.free a ha key hk).1,
    fun hmem => (h.free a ha key hk).2 (hlater.wlocks key hmem)⟩
  nodup := h.nodup

/-- An accepted transaction puts its keys into `wlocks`, so none of them is a key of a later one. -/
theorem ConflictFree.cons (hdec : decodeTx app raw = some tx) (henters : Enters app tx raw b b')
    (h : ConflictFree app b' acc) : ConflictFree app b ((raw, tx) :: acc) := by
  have htail := h.of_later henters.later
  refine ⟨?_, ?_, ?_, ?_⟩
  · exact List.forall_mem_cons.mpr ⟨hdec, htail.decodes⟩
  · exact List.forall_mem_cons.mpr ⟨henters.accepted.mem_shards, htail.shards⟩
  · exact List.forall_mem_cons.mpr
      ⟨fun key hk => ⟨henters.accepted.free key hk, henters.fresh key hk⟩, htail.free⟩
  · rw [List.flatMap_cons, List.nodup_append]
    refine ⟨henters.accepted.nodup, htail.nodup, fun key hk key' hk' heq => ?_⟩
    subst heq
    obtain ⟨a, ha, hka⟩ := List.mem_flatMap.mp hk'
    exact (h.free a ha key hka).2 (henters.wlocks key hk)

theorem conflictFree_acceptedTxs (hd : app.Disjoint) (hlen : ∀ raw ∈ input, 4 ≤ raw.length)
    (b : Batch) : ConflictFree app b (acceptedTxs app input b) := by
  induction input generalizing b with
  | nil => exact ⟨by simp [acceptedTxs], by simp [acceptedTxs], by simp [acceptedTxs],
      by simp [acceptedTxs]⟩
  | cons raw input ih =>
    have hrest := ih (fun r hr => hlen r (List.mem_cons_of_mem raw hr)) (prepare app raw b).2
    rw [acceptedTxs]
    rcases prepare_cases hd (hlen raw List.mem_cons_self) b with
      ⟨b', hrun, hscan⟩ | ⟨tx, b', hdec, hrun, henters⟩
    · rw [acceptedTx_rejected hrun]
      rw [hrun] at hrest ⊢
      exact hrest.of_later hscan.later
    · rw [acceptedTx_accepted hdec hrun]
      rw [hrun] at hrest ⊢
      exact hrest.cons hdec henters

theorem sublist_acceptedTxs (input : List Bytes) (b : Batch) :
    ((acceptedTxs app input b).map Prod.fst).Sublist input := by
  induction input generalizing b with
  | nil => exact List.Sublist.refl _
  | cons raw input ih =>
    have hhead : ((acceptedTx app raw b).toList.map Prod.fst).Sublist [raw] := by
      unfold acceptedTx
      split
      · cases decodeTx app raw <;> simp
      · simp
    rw [acceptedTxs, List.map_append]
    exact hhead.append (ih _)

/-- **The relays of one batch are a conflict-free snapshot.** For disjoint key ranges, every store
and every list of transactions of at least four bytes: the list of shard `j` holds, in the order of
the input, the relays of the accepted transactions with a key of `j`; each relay has exactly the
local keys of its transaction, with their balances at the start of the batch; these keys were free
then, and none is in two relays or twice in one. -/
theorem preExecution_snapshot (app : Application) (hcfg : app.Configured) (hd : app.Disjoint)
    (st : PrefixStore) (input : List Bytes) (hlen : ∀ raw ∈ input, 4 ≤ raw.length) :
    (preExecution app input st).1 =
        .ok (app.shardIDList.map (relaysFor app (newDB st) (acceptedTxs app input (newBatch st)))) ∧
      ((acceptedTxs app input (newBatch st)).map Prod.fst).Sublist input ∧
      ConflictFree app (newBatch st) (acceptedTxs app input (newBatch st)) := by
  rw [preExecution_eq hd hcfg hlen]
  exact ⟨rfl, sublist_acceptedTxs input _, conflictFree_acceptedTxs hd hlen _⟩

open Prepared in
theorem configured_twoShards : twoShards.Configured :=
  @configured_createABCI twoShards.keyRangeTrees (by decide) [65] wireCodecs id

def emptyStore : PrefixStore := ⟨fun _ => none, fun _ => none⟩

open Prepared in
/-- Of two copies of the payment shard `A` accepts the first, and ships its one account. -/
theorem preExecution_snapshot_payment :
    (preExecution twoShards [payment.rawTx, payment.rawTx] emptyStore).1 =
        .ok (twoShards.shardIDList.map (relaysFor twoShards (newDB emptyStore)
          (acceptedTxs twoShards [payment.rawTx, payment.rawTx] (newBatch emptyStore)))) ∧
      ConflictFree twoShards (newBatch emptyStore)
        (acceptedTxs twoShards [payment.rawTx, payment.rawTx] (newBatch emptyStore)) ∧
      acceptedTxs twoShards [payment.rawTx, payment.rawTx] (newBatch emptyStore) =
        [(payment.rawTx, crossPayment)] := by
  obtain ⟨hrelays, -, hfree⟩ := preExecution_snapshot twoShards configured_twoShards disjoint_twoShards
    emptyStore [payment.rawTx, payment.rawTx] (by decide)
  exact ⟨hrelays, hfree, by decide +kernel⟩

/-! ### Two batches side by side -/

/-- The batches differ in entries of accounts that were only read, and in `wlocks` for keys outside
`K`. -/
structure Alike (app : Application) (K : Str → Prop) (b c : Batch) : Prop where
  db : Touched app b.db c.db
  wlocks : ∀ key, K key → (key ∈ c.wlocks ↔ key ∈ b.wlocks)
  rlocks : c.rlocks = b.rlocks

theorem Touched.touch (h : Touched app s t) (key : Str) :
    Touched app (s.touch key) (t.touch key) := by
  have hframe : ∀ s : AppDB, (s.touch key).db.special = s.db.special ∧
      (s.touch key).retainData = s.retainData := by
    intro s
    unfold AppDB.touch
    split <;> exact ⟨rfl, rfl⟩
  refine ⟨fun k => ?_, ?_, ?_⟩
  · rw [data_touch, data_touch, h.view]
    by_cases hk : k = key
    · simp [hk]
    · simpa [hk] using h.data k
  · rw [(hframe s).1, (hframe t).1, h.special]
  · rw [(hframe s).2, (hframe t).2, h.retainData]

theorem respects_scanKey (hd : app.Disjoint) {key : Str}
    (hK : app.searchKeyIntraShard key = true → K key) :
    Respects (Alike app K) (scanKey app key) := by
  intro b c h
  by_cases hin : app.searchKeyIntraShard key = true
  · have hlock : c.lockable key = b.lockable key := by
      simp only [Batch.lockable, h.db.view, h.rlocks, List.contains_eq_mem, h.wlocks key (hK hin)]
    have hbal : c.db.balance key = b.db.balance key := by
      rw [AppDB.balance, h.db.view, AppDB.balance]
    rw [scanKey_own hd hin, scanKey_own hd hin, hlock, hbal]
    split
    · refine ⟨rfl, h.db.touch key, fun k hk => ?_, h.rlocks⟩
      rw [List.mem_cons, List.mem_cons, h.wlocks k hk]
    · exact ⟨rfl, h.db.touch key, h.wlocks, h.rlocks⟩
  · cases hkey : app.searchKeyShard key with
    | none =>
      rw [scanKey_missing hkey, scanKey_missing hkey]
      exact ⟨rfl, h⟩
    | some shard =>
      have hne := searchKeyShard_ne hd hkey hin
      rw [scanKey_other hkey hne, scanKey_other hkey hne]
      exact ⟨rfl, h⟩

theorem respects_preDoTransfer (hd : app.Disjoint) (hK : ∀ key ∈ ownKeys app tx.toTransfer, K key)
    (raw : Bytes) : Respects (Alike app K) (preDoTransfer app tx raw) := by
  refine Respects.bind (Respects.of_const fun _ => rfl) fun _ => ?_
  refine Respects.get_bind (fun b c h => by rw [h.db.special]) fun b => ?_
  refine Respects.bind (Respects.of_const fun _ => rfl) fun _ => ?_
  refine Respects.bind ?_ fun _ => ?_
  · exact Respects.bind (Respects.of_const fun _ => rfl) fun _ =>
      Respects.bind (Respects.of_const fun _ => rfl) fun _ => Respects.of_const fun _ => rfl
  · refine Respects.bind (Respects.mapEach fun key hk => ?_) fun xs => ?_
    · exact respects_scanKey hd fun hin => hK key (List.mem_filter.mpr ⟨hk, hin⟩)
    · exact Respects.bind (Respects.of_const fun _ => rfl) fun _ => Respects.of_const fun _ => rfl

/-- Locking the same keys, which have entries, keeps two stores alike. -/
theorem Touched.lockedWith (h : Touched app s t)
    (hsome : ∀ key ∈ ownKeys app tx.toTransfer, (s.db.data key).isSome = true) :
    Touched app (Minibank.lockedWith app tx raw m s) (Minibank.lockedWith app tx raw m t) := by
  refine ⟨fun key => ?_, ?_, ?_⟩
  · show (AppDB.setLocks _ _ _).db.data key = (AppDB.setLocks _ _ _).db.data key ∨ _ ∧
      (AppDB.setLocks _ _ _).db.data key = none ∧ (AppDB.setLocks _ _ _).db.data key = some Value.fresh
    rw [data_setLocks, data_setLocks]
    split
    · next hk =>
      rcases h.data key with heq | ⟨-, hnone, -⟩
      · exact .inl (congrArg _ heq)
      · have := hsome key hk
        rw [hnone] at this
        cases this
    · exact h.data key
  · rw [special_lockedWith, special_lockedWith, h.special]
  · show (AppDB.setLocks _ _ _).retainData = (AppDB.setLocks _ _ _).retainData
    rw [(setLocks_frame _ _ _).2, (setLocks_frame _ _ _).2]
    exact h.retainData

theorem Touched.executeCrossShard (h : Touched app s t) (hlen : 4 ≤ raw.length)
    (hdec : decodeTx app raw = some tx) (hcross : 1 < tx.shards.length)
    (hsome : ∀ key ∈ ownKeys app tx.toTransfer, (s.db.data key).isSome = true) :
    Touched app (Minibank.executeCrossShard app raw s).2 (Minibank.executeCrossShard app raw t).2 := by
  rcases executeCrossShard_cases hlen hdec hcross s with ⟨hs, m, hm, hrun⟩ | ⟨hs, e, -, hrun⟩
  · rcases executeCrossShard_cases hlen hdec hcross t with ⟨-, m', hm', hrun'⟩ | ⟨ht, -⟩
    · obtain rfl : m = m' := by
        rw [undoRelays_congr h.special, hm] at hm'
        exact Except.ok.inj (congrArg Prod.fst hm')
      rw [hrun, hrun']
      exact h.lockedWith hsome
    · exact absurd (hs.congr h.special) ht
  · rcases executeCrossShard_cases hlen hdec hcross t with ⟨ht, -⟩ | ⟨-, e', -, hrun'⟩
    · exact absurd (ht.congr h.special.symm) hs
    · rw [hrun, hrun']
      exact h

theorem respects_prepare (hd : app.Disjoint) (hlen : 4 ≤ raw.length)
    (hK : ∀ tx, decodeTx app raw = some tx → ∀ key ∈ ownKeys app tx.toTransfer, K key) :
    Respects (Alike app K) (prepare app raw) := by
  intro b c h
  by_cases hskip : ∀ tx, decodeTx app raw = some tx → tx.shards.length ≤ 1
  · rw [prepare_skipped hlen hskip, prepare_skipped hlen hskip]
    exact ⟨rfl, h⟩
  · push Not at hskip
    obtain ⟨tx, hdec, hcross⟩ := hskip
    obtain ⟨hres, halike⟩ := respects_preDoTransfer hd (hK tx hdec) raw b c h
    cases hb : preDoTransfer app tx raw b with
    | mk r b₁ =>
      cases hc : preDoTransfer app tx raw c with
      | mk r' c₁ =>
        rw [hb, hc] at hres halike
        obtain rfl : r = r' := hres
        cases r with
        | error e =>
          rw [prepare_rejected hlen hdec hcross hb, prepare_rejected hlen hdec hcross hc]
          exact ⟨rfl, halike⟩
        | ok r =>
          rw [prepare_accepted hlen hdec hcross hb, prepare_accepted hlen hdec hcross hc]
          obtain ⟨-, -, -, hkeys⟩ := accepted_of_preDoTransfer hd hb
          exact ⟨rfl, halike.db.executeCrossShard hlen hdec hcross fun key hk => (hkeys key hk).2.2,
            halike.wlocks, halike.rlocks⟩

/-- Later transactions that use only keys of `K` are accepted alike, and keep the batches alike. -/
theorem Alike.batch (hd : app.Disjoint) (hlen : ∀ raw ∈ input, 4 ≤ raw.length)
    (hK : ∀ raw ∈ input, ∀ tx, decodeTx app raw = some tx →
      ∀ key ∈ ownKeys app tx.toTransfer, K key) {c : Batch} (h : Alike app K b c) :
    acceptedTxs app input c = acceptedTxs app input b ∧
      Alike app K (afterBatch app b input) (afterBatch app c input) := by
  induction input generalizing b c with
  | nil => exact ⟨rfl, h⟩
  | cons raw input ih =>
    obtain ⟨hres, halike⟩ := respects_prepare hd (hlen raw List.mem_cons_self)
      (hK raw List.mem_cons_self) b c h
    obtain ⟨hacc, hafter⟩ := ih (fun r hr => hlen r (List.mem_cons_of_mem raw hr))
      (fun r hr => hK r (List.mem_cons_of_mem raw hr)) halike
    refine ⟨?_, hafter⟩
    rw [acceptedTxs, acceptedTxs, hacc, acceptedTx, acceptedTx, hres]

/-! ## All or nothing -/

section

variable (app : Application) (st : PrefixStore) (pre : List Bytes) (raw : Bytes) (post : List Bytes)

end

section

variable {st : PrefixStore} {pre post : List Bytes} {raw : Bytes}

end

section

open Prepared

end

end Emulator.Urd.Minibank
