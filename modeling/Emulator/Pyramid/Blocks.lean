import Emulator.Lib.Run
import Emulator.Pyramid.Transfer

/-!
# What a block does to Pyramid's state

A transaction of a cross-shard block runs on the data shipped with the block, so what it writes
does not depend on the store, and whether it succeeds depends on the lock table only.

* `acceptCrossShard_ok` — accepting a block locks the keys it writes in the shard's range, with the
  values written.
* `acceptCommitShard_ok_iff` — committing or aborting blocks settles each in turn: the locks of all
  its keys in range are cleared, and a commit writes what was locked.
* `executionInnerShard_ok` — an intra-shard block writes keys of its range only.
-/

namespace Emulator.Pyramid.Minibank

open Emulator.Action Emulator.Minibank

variable {app : Application}

/-! ## When a transaction has the same effect -/

section

variable {locked locked' : Amounts} {answer answer' : Str → Option UInt32}
  {allowed allowed' : Str → Bool}

theorem ready_congr {t : Transfer}
    (h : ∀ key ∈ t.keys, (locked key).isNone = (locked' key).isNone ∧ answer key = answer' key)
    (hallowed : ∀ key ∈ t.keys, allowed key = allowed' key) :
    ready locked answer allowed t = ready locked' answer' allowed' t := by
  have hd : t.debits.all (canDebit locked answer) = t.debits.all (canDebit locked' answer') := by
    rw [Bool.eq_iff_iff, List.all_eq_true, List.all_eq_true]
    refine forall₂_congr fun d hd => ?_
    obtain ⟨hl, ha⟩ := h d.1 (Transfer.mem_keys_of_debit hd)
    simp only [canDebit, hl, ha]
  have hc : t.credits.all (fun c => (locked c.1).isNone) =
      t.credits.all fun c => (locked' c.1).isNone := by
    rw [Bool.eq_iff_iff, List.all_eq_true, List.all_eq_true]
    refine forall₂_congr fun c hc => ?_
    rw [(h c.1 (Transfer.mem_keys_of_credit hc)).1]
  have hk : t.keys.all allowed = t.keys.all allowed' := by
    rw [Bool.eq_iff_iff, List.all_eq_true, List.all_eq_true]
    refine forall₂_congr fun key hk => ?_
    rw [hallowed key hk]
  simp only [ready, hd, hc, hk]

theorem writes_congr {t : Transfer} {bal bal' : Str → UInt32}
    (h : ∀ key ∈ t.keys, bal key = bal' key) : t.writes bal = t.writes bal' := by
  unfold Transfer.writes
  congr 1
  · refine List.map_congr_left fun d hd => ?_
    rw [h d.1 (Transfer.mem_keys_of_debit hd)]
  · refine List.map_congr_left fun c hc => ?_
    rw [h c.1 (Transfer.mem_keys_of_credit hc)]

/-- A transaction has the same effect where the same of its keys are locked and can be read. -/
theorem effect_congr {tx : Bytes}
    (h : ∀ t, unmarshalTransferTx app tx = .ok t → ∀ key ∈ t.keys,
      (locked key).isNone = (locked' key).isNone ∧ answer key = answer' key ∧
        allowed key = allowed' key) :
    effect locked answer allowed app tx = effect locked' answer' allowed' app tx := by
  unfold effect
  cases hdec : unmarshalTransferTx app tx with
  | error e => rfl
  | ok t =>
    have hkeys := h t hdec
    have hw : t.writes (ledger answer) = t.writes (ledger answer') :=
      writes_congr fun key hk => by simp only [ledger, (hkeys key hk).2.1]
    have hr : ready locked answer allowed t = ready locked' answer' allowed' t :=
      ready_congr (fun key hk => ⟨(hkeys key hk).1, (hkeys key hk).2.1⟩)
        fun key hk => (hkeys key hk).2.2
    simp only [hr, hw]

end

variable {locked amounts : Amounts} {s' s : AppState} {chainID key : Str} {rs : List Receipt}
  {block : Block} {m : MemoryDB} {range allowed : Str → Bool} {tx hash : Bytes} {txs : List Bytes}
  {answer : Str → Option UInt32} {t : Transfer} {commit ifcommit : Bool} {c : Committing}

/-! ## Transactions on shipped data -/

/-- The writes of a cross-shard transaction with its data, if it succeeds. -/
def txEffect (app : Application) (locked : Amounts) (tx data : Bytes) :
    Option (List (Str × UInt32)) :=
  match newCrossShardDataFromBytes app data with
  | .ok (csd, true) => effect locked csd (fun _ => true) app tx
  | _ => none

/-- The effects of the transactions of a block. -/
def blockEffects (app : Application) (locked : Amounts) (block : Block) :
    List (Option (List (Str × UInt32))) :=
  List.zipWith (txEffect app locked) block.crossShardTxs block.crossShardDatas

/-- All writes of the block, in order. -/
def blockWrites (app : Application) (locked : Amounts) (block : Block) : List (Str × UInt32) :=
  (blockEffects app locked block).flatMap fun o => o.getD []

theorem overlay_append (amounts : Amounts) (ws ws' : List (Str × UInt32)) :
    overlay (overlay amounts ws) ws' = overlay amounts (ws ++ ws') := by
  funext key
  simp [overlay, Ledger.last?_append, Option.or_assoc]

/-- One transaction: a panic, or a receipt and its effect. -/
theorem run_acceptTx {data : Bytes} {m' : MemoryDB} {r : Receipt} (hm : Clean m)
    (h : acceptTx app locked tx data m = (.ok r, m')) :
    r.isOK = (txEffect app locked tx data).isSome ∧ Clean m' ∧ m'.db = m.db ∧
      m'.current = overlay m.current ((txEffect app locked tx data).getD []) := by
  unfold acceptTx at h
  unfold txEffect
  cases hd : newCrossShardDataFromBytes app data with
  | error e =>
    rw [hd] at h
    cases e with
    | panic => cases h
    | _ =>
      obtain ⟨rfl, rfl⟩ : _ = r ∧ m = m' := by simpa using h
      exact ⟨rfl, hm, rfl, rfl⟩
  | ok d =>
    rw [hd] at h
    obtain ⟨csd, ok⟩ := d
    cases ok with
    | false =>
      obtain ⟨rfl, rfl⟩ : _ = r ∧ m = m' := by simpa using h
      exact ⟨rfl, hm, rfl, rfl⟩
    | true =>
      have hpeek : (fun key => (m.writeBuffer key).or (csd key)) = csd := by
        funext key
        simp [hm.writeBuffer key]
      obtain ⟨res, m₁, hrun, hc, hdb, hres, hcur⟩ :=
        executeAndCommit_eq app locked (serves_crossShardDB csd) hm tx
      rw [hpeek] at hres hcur
      simp only [run_bind_ok hrun] at h
      cases res with
      | error e =>
        obtain ⟨rfl, rfl⟩ : _ = r ∧ m₁ = m' := by simpa using h
        exact ⟨hres, hc, hdb, hcur⟩
      | ok u =>
        obtain ⟨rfl, rfl⟩ : _ = r ∧ m₁ = m' := by simpa using h
        exact ⟨hres, hc, hdb, hcur⟩

theorem run_acceptTxs {datas : List Bytes} {m' : MemoryDB} (hm : Clean m)
    (h : acceptTxs app locked txs datas m = (.ok rs, m')) :
    rs.map Receipt.isOK = (List.zipWith (txEffect app locked) txs datas).map Option.isSome ∧
      txs.length ≤ datas.length ∧ Clean m' ∧ m'.db = m.db ∧
      m'.current = overlay m.current
        ((List.zipWith (txEffect app locked) txs datas).flatMap fun o => o.getD []) := by
  induction txs generalizing datas m rs with
  | nil =>
    obtain ⟨rfl, rfl⟩ : [] = rs ∧ m = m' := by simpa [acceptTxs] using h
    exact ⟨rfl, Nat.zero_le _, hm, rfl, rfl⟩
  | cons tx txs ih =>
    cases datas with
    | nil => cases h
    | cons data datas =>
      obtain ⟨r, m₁, hr, h⟩ := bind_eq_ok.mp h
      obtain ⟨rs', m₂, hrs, h⟩ := bind_eq_ok.mp h
      obtain ⟨rfl, rfl⟩ : r :: rs' = rs ∧ m₂ = m' := by simpa using h
      obtain ⟨hok, hc, hdb, hcur⟩ := run_acceptTx hm hr
      obtain ⟨hoks, hlen, hc', hdb', hcur'⟩ := ih hc hrs
      refine ⟨?_, Nat.succ_le_succ hlen, hc', hdb'.trans hdb, ?_⟩
      · rw [List.map_cons, hok, hoks, List.zipWith_cons_cons, List.map_cons]
      · rw [hcur', hcur, overlay_append, List.zipWith_cons_cons, List.flatMap_cons]

/-! ## The keys a block locks -/

theorem ready_iff {tx : Transfer} : ready locked answer allowed tx = true ↔
      tx.Valid ∧ tx.debits.all (canDebit locked answer) = true ∧
        tx.credits.all (fun c => (locked c.1).isNone) = true ∧ tx.keys.all allowed = true := by
  simp only [ready, Bool.and_eq_true, decide_eq_true_eq, and_assoc]

theorem free_of_ready (h : ready locked answer allowed t = true) :
    ∀ key ∈ t.keys, locked key = none ∧ allowed key = true := by
  obtain ⟨hv, hd, hc, hall⟩ := ready_iff.mp h
  refine fun key hk => ⟨?_, List.all_eq_true.mp hall key hk⟩
  rcases Transfer.exists_of_mem_keys hv hk with ⟨d, hmem, rfl⟩ | ⟨c, hmem, rfl⟩
  · have hcan := List.all_eq_true.mp hd d hmem
    exact Option.isNone_iff_eq_none.mp (Bool.and_eq_true_iff.mp hcan).1
  · exact Option.isNone_iff_eq_none.mp (List.all_eq_true.mp hc c hmem)

/-- A transaction that takes effect writes all its keys, and none of them is locked. -/
theorem effect_eq_some {ws : List (Str × UInt32)}
    (h : effect locked answer allowed app tx = some ws) :
    ∃ t, unmarshalTransferTx app tx = .ok t ∧ ws.map Prod.fst = t.keys ∧
      ∀ key ∈ t.keys, locked key = none ∧ allowed key = true := by
  unfold effect at h
  cases hdec : unmarshalTransferTx app tx with
  | error e => simp [hdec] at h
  | ok t =>
    rw [hdec] at h
    simp only [Option.ite_none_right_eq_some, Option.some.injEq] at h
    obtain ⟨hr, rfl⟩ := h
    exact ⟨t, rfl, Transfer.map_fst_writes (ready_iff.mp hr).1 _, free_of_ready hr⟩

theorem txEffect_eq_some {data : Bytes} {ws : List (Str × UInt32)}
    (h : txEffect app locked tx data = some ws) :
    ∃ t, unmarshalTransferTx app tx = .ok t ∧ ws.map Prod.fst = t.keys ∧
      ∀ key ∈ t.keys, locked key = none := by
  unfold txEffect at h
  split at h
  · obtain ⟨t, hdec, hkeys, hfree⟩ := effect_eq_some h
    exact ⟨t, hdec, hkeys, fun key hk => (hfree key hk).1⟩
  · cases h

/-- The keys of the transactions with an OK receipt are the keys written. -/
theorem writeSet_ok {datas : List Bytes} (hlen : txs.length ≤ datas.length)
    (h : rs.map Receipt.isOK = (List.zipWith (txEffect app locked) txs datas).map Option.isSome) :
    writeSet app ((txs.zip rs).filterMap fun p => if p.2.isOK then some p.1 else none) =
      ((List.zipWith (txEffect app locked) txs datas).flatMap fun o => o.getD []).map Prod.fst := by
  induction txs generalizing datas rs with
  | nil => rfl
  | cons tx txs ih =>
    cases datas with
    | nil => cases hlen
    | cons data datas =>
      cases rs with
      | nil => cases h
      | cons r rs =>
        rw [List.zipWith_cons_cons, List.map_cons, List.map_cons] at h
        injection h with hr hrs
        have hrest := ih (Nat.le_of_succ_le_succ hlen) hrs
        rw [List.zip_cons_cons, List.zipWith_cons_cons, List.flatMap_cons, List.map_append, ← hrest]
        cases he : txEffect app locked tx data with
        | none =>
          rw [he] at hr
          rw [List.filterMap_cons_none (by simp [hr])]
          rfl
        | some ws =>
          rw [he] at hr
          obtain ⟨t, hdec, hkeys, -⟩ := txEffect_eq_some he
          have hok : r.isOK = true := hr
          simp [writeSet, hok, hdec, hkeys, Except.toOption]

theorem unlocked_of_mem_blockWrites (h : key ∈ (blockWrites app locked block).map Prod.fst) :
    locked key = none := by
  obtain ⟨w, hw, rfl⟩ := List.mem_map.mp h
  obtain ⟨o, ho, hw⟩ := List.mem_flatMap.mp hw
  cases o with
  | none => cases hw
  | some ws =>
    rw [blockEffects, ← List.map_uncurry_zip_eq_zipWith, List.mem_map] at ho
    obtain ⟨p, -, hp⟩ := ho
    obtain ⟨t, -, hkeys, hfree⟩ := txEffect_eq_some hp
    refine hfree _ ?_
    rw [← hkeys]
    exact List.mem_map_of_mem hw

/-! ## Accepting a cross-shard block -/

/-- The lock table after a block was accepted by the shard that owns `range`. -/
def lockWrites (range : Str → Bool) (locked : Amounts) (ws : List (Str × UInt32)) : Amounts :=
  fun key => if range key then (Ledger.last? ws key).or (locked key) else locked key

theorem lockedKeys_setLock (s : AppState) (key k : Str) (v : UInt32) :
    (s.setLock key v).lockedKeys k =
      (s.lockedKeys k).or (if k = key then some v else none) := by
  unfold AppState.setLock
  split
  · next h =>
    obtain ⟨u, hu⟩ := Option.isSome_iff_exists.mp h
    by_cases hk : k = key
    · subst hk
      simp [hu]
    · simp [hk]
  · next h =>
    by_cases hk : k = key
    · subst hk
      have : s.lockedKeys k = none := by simpa using h
      simp [this]
    · simp [hk]

theorem setLock_frame (s : AppState) (key : Str) (v : UInt32) :
    (s.setLock key v) = { s with lockedKeys := (s.setLock key v).lockedKeys } := by
  unfold AppState.setLock
  split <;> rfl

theorem run_lockKey (hm : Clean m) (key : Str) (s : AppState) :
    lockKey m key s = (.ok (), s.setLock key (balanceOf m.current key)) := by
  obtain ⟨m', hget, -, -⟩ := get_eq m key
  unfold lockKey
  rw [hget, hm.view]

theorem run_lockKeys (hm : Clean m) (keys : List Str) (s : AppState) :
    forEach (lockKey m) keys s =
      (.ok (), { s with
        lockedKeys := fun k =>
          (s.lockedKeys k).or (if k ∈ keys then some (balanceOf m.current k) else none) }) := by
  induction keys generalizing s with
  | nil => simp [forEach]
  | cons key keys ih =>
    rw [forEach, run_bind_ok (run_lockKey hm key s), ih, setLock_frame]
    congr 2
    funext k
    rw [lockedKeys_setLock]
    by_cases hk : k = key
    · subst hk
      cases s.lockedKeys k <;> simp
    · simp [hk]

theorem onMemory_eq_ok {α : Type} {x : Mem α} {r : α × MemoryDB} (h : onMemory x s = (.ok r, s')) :
    x (newMemoryDB s.store) = (.ok r.1, r.2) ∧ s' = s := by
  unfold onMemory at h
  split at h
  · next heq =>
    obtain ⟨rfl, rfl⟩ : _ = r ∧ s = s' := by simpa using h
    exact ⟨heq, rfl⟩
  · cases h

/-- A block that is locked was executed, and its receipts are those of the execution. -/
theorem lockBlock_eq_ok (h : lockBlock app block chainID s = (.ok rs, s')) :
    ∃ m, acceptTxs app s.lockedKeys block.crossShardTxs block.crossShardDatas
        (newMemoryDB s.store) = (.ok rs, m) ∧
      forEach (lockKey m) (lockSet app chainID block.crossShardTxs rs) s = (.ok (), s') := by
  obtain ⟨⟨receipts, m⟩, s₁, hmem, h₁⟩ := bind_eq_ok.mp ((run_bind_ok (run_get s)).symm.trans h)
  obtain ⟨hrun, rfl⟩ := onMemory_eq_ok hmem
  obtain ⟨u, s₂, hlock, hpure⟩ := bind_eq_ok.mp h₁
  obtain ⟨rfl, rfl⟩ : receipts = rs ∧ s₂ = s' := by simpa using hpure
  exact ⟨m, hrun, hlock⟩

theorem lockBlock_ok (h : lockBlock app block chainID s = (.ok rs, s')) :
    s' = { s with
      lockedKeys := lockWrites (app.keyRangeTree chainID) s.lockedKeys
        (blockWrites app s.lockedKeys block) } := by
  obtain ⟨m, hrun, hlock⟩ := lockBlock_eq_ok h
  obtain ⟨hok, hlen, hm, -, hcur⟩ := run_acceptTxs (clean_newMemoryDB s.store) hrun
  have hkeys := writeSet_ok hlen hok
  obtain ⟨-, rfl⟩ := Prod.mk.inj ((run_lockKeys hm _ s).symm.trans hlock)
  congr 1
  funext key
  have hmem : key ∈ lockSet app chainID block.crossShardTxs rs ↔
      key ∈ (blockWrites app s.lockedKeys block).map Prod.fst ∧
        app.keyRangeTree chainID key = true := by
    rw [lockSet, List.mem_filter, hkeys]
    rfl
  unfold lockWrites
  cases hr : app.keyRangeTree chainID key with
  | false => simp [hmem, hr]
  | true =>
    cases hl : Ledger.last? (blockWrites app s.lockedKeys block) key with
    | none =>
      have hno := Ledger.last?_eq_none.mp hl
      rw [if_neg fun hk => hno (hmem.mp hk).1]
      simp
    | some v =>
      have hw := List.mem_map_of_mem (f := Prod.fst) (Ledger.mem_of_last? hl)
      have hfree := unlocked_of_mem_blockWrites hw
      rw [if_pos (hmem.mpr ⟨hw, hr⟩), hfree, hcur]
      show some ((overlay _ (blockWrites app s.lockedKeys block) key).getD initBalance) = _
      simp [overlay, hl]

/-- What `AcceptCrossShard` does around the locking. -/
theorem acceptCrossShard_eq_ok (h : acceptCrossShard app block chainID ifcommit s = (.ok rs, s')) :
    block.blockType = .crossShard ∧ ∃ s₁, lockIf app block chainID ifcommit s = (.ok rs, s₁) ∧
      s' = { s₁ with
        blocks := Function.update s₁.blocks (app.blockHash block) (some block)
        accepted := Function.update s₁.accepted (app.blockHash block) true } := by
  unfold acceptCrossShard at h
  split at h
  · cases h
  · next htype =>
    obtain ⟨s₂, hbody, rfl⟩ := andFinally_eq_ok.mp h
    obtain ⟨receipts, s₁, hlock, hmark⟩ := bind_eq_ok.mp hbody
    obtain ⟨rfl, rfl⟩ : receipts = rs ∧ _ = s₂ := by simpa [run_bind] using hmark
    exact ⟨not_not.mp htype, s₁, hlock, rfl⟩

theorem blockType_of_acceptCrossShard
    (h : acceptCrossShard app block chainID ifcommit s = (.ok rs, s')) :
    block.blockType = .crossShard := (acceptCrossShard_eq_ok h).1

/-- **Accepting a block** stores and marks it, and if it is to be committed locks what it writes in
the range of the shard. -/
theorem acceptCrossShard_ok (h : acceptCrossShard app block chainID ifcommit s = (.ok rs, s')) :
    s' = { s with
      lockedKeys := if ifcommit then lockWrites (app.keyRangeTree chainID) s.lockedKeys
        (blockWrites app s.lockedKeys block) else s.lockedKeys
      blocks := Function.update s.blocks (app.blockHash block) (some block)
      accepted := Function.update s.accepted (app.blockHash block) true } := by
  obtain ⟨-, s₁, hlock, rfl⟩ := acceptCrossShard_eq_ok h
  unfold lockIf at hlock
  cases ifcommit with
  | true =>
    rw [lockBlock_ok hlock]
    rfl
  | false =>
    obtain ⟨-, rfl⟩ : [] = rs ∧ s = s₁ := by simpa using hlock
    rfl

/-! ## Committing or aborting a block -/

/-- The state after `keys` were released or undone. -/
def AppState.settle (keys : List Str) (commit : Bool) (s : AppState) : AppState :=
  { s with
    lockedKeys := fun key => if key ∈ keys then none else s.lockedKeys key
    store := fun key => if commit ∧ key ∈ keys then (s.lockedKeys key).or (s.store key)
      else s.store key }

@[simp] theorem settle_nil (commit : Bool) (s : AppState) : s.settle [] commit = s := by
  simp [AppState.settle]

theorem settle_cons (key : Str) (keys : List Str) (commit : Bool) (s : AppState) :
    s.settle (key :: keys) commit = (s.settle [key] commit).settle keys commit := by
  refine AppState.ext (funext fun k => ?_) (funext fun k => ?_) rfl rfl <;>
    by_cases hk : k = key <;> by_cases hks : k ∈ keys <;> cases commit <;>
      simp [AppState.settle, hk, hks]

/-- What was written is what the batch will write. -/
theorem writeSync_releaseLock (c : Committing) (key : Str) :
    (c.releaseLock key).writeSync = c.writeSync.settle [key] true := by
  cases hl : c.app.lockedKeys key with
  | none =>
    have hc : c.releaseLock key = c := by
      unfold Committing.releaseLock
      rw [hl]
    rw [hc]
    refine AppState.ext (funext fun k => ?_) (funext fun k => ?_) rfl rfl <;>
      by_cases hk : k = key <;> simp [AppState.settle, Committing.writeSync, hk, hl]
  | some v =>
    have hc : c.releaseLock key = { app := c.app.undoLock key, batch := c.batch ++ [(key, v)] } := by
      unfold Committing.releaseLock
      rw [hl]
    rw [hc]
    refine AppState.ext (funext fun k => ?_) (funext fun k => ?_) rfl rfl
    · show Ledger.writeAll c.app.store ((c.batch ++ [(key, v)]).map fun w => (w.1, some w.2)) k = _
      rw [List.map_append, Ledger.writeAll, List.foldl_append]
      by_cases hk : k = key <;>
        simp [hk, hl, AppState.settle, Committing.writeSync, Ledger.writeAll]
    · by_cases hk : k = key <;> simp [AppState.settle, Committing.writeSync, AppState.undoLock, hk]

theorem writeSync_releaseLocks (keys : List Str) (c : Committing) :
    (keys.foldl Committing.releaseLock c).writeSync = c.writeSync.settle keys true := by
  induction keys generalizing c with
  | nil => simp
  | cons key keys ih => rw [List.foldl_cons, ih, writeSync_releaseLock, ← settle_cons]

theorem undoLocks (keys : List Str) (s : AppState) :
    keys.foldl AppState.undoLock s = s.settle keys false := by
  induction keys generalizing s with
  | nil => simp
  | cons key keys ih =>
    have hone : s.undoLock key = s.settle [key] false := by
      refine AppState.ext (funext fun k => ?_) (funext fun k => ?_) rfl rfl <;>
        by_cases hk : k = key <;> simp [AppState.settle, AppState.undoLock, hk]
    rw [List.foldl_cons, ih, hone, ← settle_cons]

/-- What the commit or abort of one block does; `none` if the block is not stored. -/
def settle (app : Application) (chainID hash : Bytes) (commit : Bool) (s : AppState) :
    Option AppState :=
  (s.blocks hash).map fun block =>
    if s.accepted hash then s.settle (commitSet app chainID block) commit else s

/-- Settling a block changes neither the stored blocks nor their marks. -/
theorem settle_frame {chainID : Bytes} (h : settle app chainID hash commit s = some s') :
    s'.blocks = s.blocks ∧ s'.accepted = s.accepted := by
  obtain ⟨block, -, rfl⟩ := Option.map_eq_some_iff.mp h
  split <;> exact ⟨rfl, rfl⟩

theorem commitOne_ok {c' : Committing} {r : Receipt}
    (h : commitOne app chainID hash commit c = (.ok r, c')) :
    settle app chainID hash commit c.writeSync = some c'.writeSync := by
  unfold commitOne at h
  unfold settle
  show (c.app.blocks hash).map (fun block => if c.app.accepted hash then _ else _) = _
  cases hb : c.app.blocks hash with
  | none =>
    rw [hb] at h
    cases h
  | some block =>
    rw [hb] at h
    cases hacc : c.app.accepted hash with
    | false =>
      obtain ⟨-, rfl⟩ : _ ∧ c = c' := by simpa [hacc] using h
      rfl
    | true =>
      cases commit with
      | true =>
        obtain ⟨-, rfl⟩ : _ ∧ _ = c' := by simpa [hacc] using h
        rw [writeSync_releaseLocks]
        rfl
      | false =>
        obtain ⟨-, rfl⟩ : _ ∧ _ = c' := by simpa [hacc] using h
        rw [undoLocks]
        rfl

theorem exists_commitOne (h : settle app chainID hash commit c.writeSync = some s') :
    ∃ r c', commitOne app chainID hash commit c = (.ok r, c') := by
  unfold commitOne
  cases hb : c.app.blocks hash with
  | none =>
    have hb' : c.writeSync.blocks hash = none := hb
    simp [settle, hb'] at h
  | some block =>
    cases hacc : c.app.accepted hash with
    | false => exact ⟨_, _, rfl⟩
    | true => cases commit <;> exact ⟨_, _, rfl⟩

/-- A call for several blocks settles each of them in turn. -/
theorem commitAll_iff {entries : List (Bytes × Bool)} :
    (∃ rs c', mapEach (fun e => commitOne app chainID e.1 e.2) entries c = (.ok rs, c') ∧
      c'.writeSync = s') ↔
      run (fun s e => settle app chainID e.1 e.2 s) c.writeSync entries = some s' := by
  induction entries generalizing c with
  | nil =>
    rw [run_nil, Option.some.injEq]
    constructor
    · rintro ⟨rs, c', h, rfl⟩
      obtain ⟨-, rfl⟩ : [] = rs ∧ c = c' := by simpa [mapEach] using h
      rfl
    · exact fun h => ⟨[], c, rfl, h⟩
  | cons e entries ih =>
    rw [run_cons]
    constructor
    · rintro ⟨rs, c', h, rfl⟩
      obtain ⟨r, c₁, hone, h⟩ := bind_eq_ok.mp h
      obtain ⟨rs', c₂, hrest, h⟩ := bind_eq_ok.mp h
      obtain ⟨rfl, rfl⟩ : r :: rs' = rs ∧ c₂ = c' := by simpa using h
      exact ⟨c₁.writeSync, commitOne_ok hone, ih.mp ⟨rs', c₂, hrest, rfl⟩⟩
    · rintro ⟨s₁, hone, hrest⟩
      obtain ⟨r, c₁, hrun⟩ := exists_commitOne hone
      have hs₁ := commitOne_ok hrun
      rw [hone, Option.some.injEq] at hs₁
      subst hs₁
      obtain ⟨rs, c', hall, rfl⟩ := ih.mpr hrest
      refine ⟨r :: rs, c', ?_, rfl⟩
      rw [mapEach, run_bind_ok hrun, run_bind_ok hall]
      rfl

/-- **Committing or aborting blocks** settles each of them in turn. -/
theorem acceptCommitShard_ok_iff {entries : List (Bytes × Bool)} :
    (∃ rs, acceptCommitShard app entries chainID s = (.ok rs, s')) ↔
      run (fun s e => settle app chainID e.1 e.2 s) s entries = some s' := by
  have hsync : (⟨s, []⟩ : Committing).writeSync = s := rfl
  rw [← hsync, ← commitAll_iff, hsync]
  unfold acceptCommitShard
  constructor
  · rintro ⟨rs, h⟩
    split at h
    · next rs' c' heq =>
      obtain ⟨rfl, rfl⟩ : rs' = rs ∧ _ = s' := by simpa using h
      exact ⟨rs', c', heq, rfl⟩
    · cases h
  · rintro ⟨rs, c', h, rfl⟩
    exact ⟨rs, by rw [h]⟩

/-! ## Blocks within a shard -/

/-- What the range database answers over the amounts `amounts`. -/
def inRange (range : Str → Bool) (amounts : Amounts) (key : Str) : Option UInt32 :=
  if range key then some (balanceOf amounts key) else none

theorem answer_rangeDB (hm : Clean m) (range : Str → Bool) :
    (fun key => if range key then some (m.view key) else none) = inRange range m.current := by
  funext key
  simp only [inRange, hm.view]

/-- When `doTransfer` succeeds within the range: every debit is checked on its own. -/
theorem ready_inRange_iff :
    ready locked (inRange range amounts) range t = true ↔
      t.Valid ∧ (∀ key ∈ t.keys, locked key = none ∧ range key = true) ∧
        ∀ d ∈ t.debits, d.2 ≤ balanceOf amounts d.1 := by
  constructor
  · intro h
    obtain ⟨hv, hd, -, hall⟩ := ready_iff.mp h
    refine ⟨hv, free_of_ready h, fun d hmem => ?_⟩
    have hcan := List.all_eq_true.mp hd d hmem
    have hkey := List.all_eq_true.mp hall d.1 (Transfer.mem_keys_of_debit hmem)
    simp only [canDebit, inRange, hkey, if_true, Option.all_some, Bool.and_eq_true] at hcan
    exact of_decide_eq_true hcan.2
  · intro h
    obtain ⟨hv, hfree, hfunds⟩ := h
    refine ready_iff.mpr ⟨hv, List.all_eq_true.mpr fun d hmem => ?_,
      List.all_eq_true.mpr fun c hmem => ?_, List.all_eq_true.mpr fun key hk => (hfree key hk).2⟩
    · obtain ⟨hl, hin⟩ := hfree d.1 (Transfer.mem_keys_of_debit hmem)
      simpa [canDebit, inRange, hl, hin] using hfunds d hmem
    · have hl := (hfree c.1 (Transfer.mem_keys_of_credit hmem)).1
      rw [hl]
      rfl

/-- The balances after a successful transfer within the range. -/
theorem balanceOf_overlay_writes (hin : ∀ key ∈ t.keys, range key = true) :
    balanceOf (overlay amounts (t.writes (ledger (inRange range amounts)))) =
      Ledger.transfer (balanceOf amounts) t.debits t.credits := by
  have hwrites : t.writes (ledger (inRange range amounts)) = t.writes (balanceOf amounts) := by
    refine writes_congr fun key hk => ?_
    simp [ledger, inRange, hin key hk]
  funext key
  rw [hwrites]
  show ((Ledger.last? _ key).or (amounts key)).getD initBalance = Ledger.writeAll _ _ key
  rw [Ledger.writeAll_apply, Option.getD_or]
  rfl

/-- The amounts after one transaction within the range. -/
def innerEffect (app : Application) (locked : Amounts) (range : Str → Bool) (amounts : Amounts)
    (tx : Bytes) : Amounts :=
  overlay amounts ((effect locked (inRange range amounts) range app tx).getD [])

/-- Which of the transactions, one after another, take effect. -/
def innerOKs (app : Application) (locked : Amounts) (range : Str → Bool) :
    Amounts → List Bytes → List Bool
  | _, [] => []
  | amounts, tx :: txs =>
    (effect locked (inRange range amounts) range app tx).isSome ::
      innerOKs app locked range (innerEffect app locked range amounts tx) txs

/-- One transaction: a receipt and its effect. -/
theorem exists_innerTx (app : Application) (locked : Amounts) (range : Str → Bool) (hm : Clean m)
    (tx : Bytes) :
    ∃ r m', innerTx app locked (rangeDB range) tx m = (.ok r, m') ∧ Clean m' ∧ m'.db = m.db ∧
      r.isOK = (effect locked (inRange range m.current) range app tx).isSome ∧
      m'.current = innerEffect app locked range m.current tx := by
  obtain ⟨res, m', hrun, hc, hdb, hres, hcur⟩ :=
    executeAndCommit_eq app locked (serves_rangeDB range) hm tx
  rw [answer_rangeDB hm] at hres hcur
  unfold innerTx
  rw [run_bind_ok hrun]
  cases res with
  | error e => exact ⟨_, m', rfl, hc, hdb, hres, hcur⟩
  | ok u => exact ⟨_, m', rfl, hc, hdb, hres, hcur⟩

theorem exists_innerTxs (app : Application) (locked : Amounts) (range : Str → Bool) (hm : Clean m)
    (txs : List Bytes) :
    ∃ rs m', mapEach (innerTx app locked (rangeDB range)) txs m = (.ok rs, m') ∧ m'.db = m.db ∧
      m'.current = txs.foldl (innerEffect app locked range) m.current ∧
      rs.map Receipt.isOK = innerOKs app locked range m.current txs := by
  induction txs generalizing m with
  | nil => exact ⟨[], m, rfl, rfl, rfl, rfl⟩
  | cons tx txs ih =>
    obtain ⟨r, m₁, hone, hc, hdb, hok, hcur⟩ := exists_innerTx app locked range hm tx
    obtain ⟨rs, m', hrest, hdb', hcur', hoks⟩ := ih hc
    refine ⟨r :: rs, m', ?_, hdb'.trans hdb, ?_, ?_⟩
    · rw [mapEach, run_bind_ok hone, run_bind_ok hrest]
      rfl
    · rw [hcur', hcur]
      rfl
    · rw [List.map_cons, hok, hoks, hcur]
      rfl

theorem innerEffect_of_frozen (hk : ¬(locked key = none ∧ range key = true)) :
    innerEffect app locked range amounts tx key = amounts key := by
  unfold innerEffect overlay
  cases he : effect locked (inRange range amounts) range app tx with
  | none => rfl
  | some ws =>
    obtain ⟨t, -, hkeys, hin⟩ := effect_eq_some he
    have hno : Ledger.last? ws key = none := by
      rw [Ledger.last?_eq_none, hkeys]
      exact fun hmem => hk (hin key hmem)
    simp [hno]

theorem foldl_innerEffect_of_frozen (hk : ¬(locked key = none ∧ range key = true)) :
    txs.foldl (innerEffect app locked range) amounts key = amounts key := by
  induction txs generalizing amounts with
  | nil => rfl
  | cons tx txs ih => exact ih.trans (innerEffect_of_frozen hk)

theorem foldl_innerEffect_of_not_range (hk : range key = false) :
    txs.foldl (innerEffect app locked range) amounts key = amounts key :=
  foldl_innerEffect_of_frozen (by simp [hk])

theorem exists_executionInnerShard (app : Application) (htype : block.blockType = .innerShard)
    (s : AppState) :
    ∃ rs s', executionInnerShard app block s = (.ok rs, s') ∧
      rs.map Receipt.isOK =
        innerOKs app s.lockedKeys (app.keyRangeTree block.chainID) s.store block.bodyTxs := by
  obtain ⟨rs, m, hrun, -, -, hoks⟩ := exists_innerTxs app s.lockedKeys
    (app.keyRangeTree block.chainID) (clean_newMemoryDB s.store) block.bodyTxs
  have hmem : onMemory (mapEach (innerTx app s.lockedKeys
      (rangeDB (app.keyRangeTree block.chainID))) block.bodyTxs) s = (.ok (rs, m), s) := by
    unfold onMemory
    rw [hrun]
  refine ⟨rs, { s with store := m.write (app.keyRangeTree block.chainID) }.setBlock
    (app.blockHash block) block, ?_, hoks⟩
  unfold executionInnerShard
  rw [decide_eq_true htype, run_bind_ok (run_require_true _ s), run_bind_ok (run_get s),
    run_bind_ok hmem]
  rfl

/-- **An intra-shard block** runs its transactions one after another on the keys of its range. -/
theorem executionInnerShard_ok (h : executionInnerShard app block s = (.ok rs, s')) :
    s' = { s with
      store := block.bodyTxs.foldl
        (innerEffect app s.lockedKeys (app.keyRangeTree block.chainID)) s.store
      blocks := Function.update s.blocks (app.blockHash block) (some block) } := by
  unfold executionInnerShard at h
  obtain ⟨u, s₁, hreq, h₁⟩ := bind_eq_ok.mp h
  obtain ⟨-, rfl⟩ := require_eq_ok.mp hreq
  obtain ⟨⟨receipts, m⟩, s₁, hmem, h₂⟩ := bind_eq_ok.mp ((run_bind_ok (run_get s)).symm.trans h₁)
  obtain ⟨hrun, rfl⟩ := onMemory_eq_ok hmem
  obtain ⟨rs', m', hrun', hdb, hcur, -⟩ := exists_innerTxs app s₁.lockedKeys
    (app.keyRangeTree block.chainID) (clean_newMemoryDB s₁.store) block.bodyTxs
  obtain ⟨-, rfl⟩ : Except.ok rs' = Except.ok receipts ∧ m' = m :=
    Prod.ext_iff.mp (hrun'.symm.trans hrun)
  obtain ⟨-, rfl⟩ : receipts = rs ∧ _ = s' := by simpa [run_bind] using h₂
  refine AppState.ext (funext fun key => ?_) rfl rfl rfl
  show m'.write _ key = _
  unfold MemoryDB.write
  cases hk : app.keyRangeTree block.chainID key with
  | true =>
    show m'.current key = _
    rw [hcur]
    rfl
  | false =>
    rw [hdb]
    exact (foldl_innerEffect_of_not_range hk).symm

end Emulator.Pyramid.Minibank
