import Emulator.Urd.Isolation

/-!
# A shard writes only its own accounts

Account entries are written in four ways. `Set` looks at the key range, and so does `Get` before it
inserts the initial balance. `WLock` and `WUnlock` do not, although the keys they get come from
relays; but they rewrite an entry that is there and never make one. So no entry outside the range
comes into a store that has none.

* `StaysOwned` — the invariant, kept by the operations of the store and so by every call.
* `owned_executions` — no run of `Execution` calls on an empty store writes an account of another
  shard.
-/

namespace Emulator.Urd.Minibank

open Emulator.Action Emulator.Minibank

/-- Every account in the store is in the key range of the shard. -/
def PrefixStore.Owned (app : Application) (st : PrefixStore) : Prop :=
  ∀ key, (st.data key).isSome → app.searchKeyIntraShard key = true

/-- Moving from one state to another keeps to the shard's own accounts. -/
def StaysOwned (app : Application) (s s' : AppDB) : Prop := s.db.Owned app → s'.db.Owned app

/-- The same within a batch. -/
def BatchStaysOwned (app : Application) (b b' : Batch) : Prop := StaysOwned app b.db b'.db

variable {app : Application}

theorem StaysOwned.refl (s : AppDB) : StaysOwned app s s := id

theorem StaysOwned.trans (a b c : AppDB) (h : StaysOwned app a b) (h' : StaysOwned app b c) :
    StaysOwned app a c := fun ha => h' (h ha)

theorem BatchStaysOwned.refl (b : Batch) : BatchStaysOwned app b b := id

theorem BatchStaysOwned.trans (a b c : Batch) (h : BatchStaysOwned app a b)
    (h' : BatchStaysOwned app b c) : BatchStaysOwned app a c := fun ha => h' (h ha)

/-! ## The operations of the store -/

theorem staysOwned_put {s : AppDB} {key : Str} (v : Value)
    (hk : s.db.Owned app → app.searchKeyIntraShard key = true) :
    StaysOwned app s (s.put key v) := by
  intro hs key' hsome
  by_cases h : key' = key
  · rw [h]
    exact hk hs
  · apply hs key'
    simpa [AppDB.put, Function.update_of_ne h] using hsome

theorem staysOwned_set (key : Str) (money : UInt32) (locked : UInt8) :
    Keeps (StaysOwned app) (set app key money locked) := by
  apply Keeps.modify
  intro s
  split
  · next hin => exact staysOwned_put _ fun _ => hin
  · exact StaysOwned.refl s

theorem staysOwned_get (key : Str) : Keeps (StaysOwned app) (get app key) := by
  refine Keeps.get_bind fun s => ?_
  split
  · cases s.db.data key with
    | none => exact staysOwned_set key initBalance freeIdentifier s
    | some v => exact StaysOwned.refl s
  · cases s.retainData key with
    | none => exact StaysOwned.refl s
    | some v => exact StaysOwned.refl s

/-- `WLock` and `WUnlock` do not look at the range, but the entry is there. -/
theorem staysOwned_setLockByte (locked : UInt8) (key : Str) :
    Keeps (StaysOwned app) (setLockByte locked key) := by
  refine Keeps.get_bind fun s => ?_
  cases hv : s.db.data key with
  | none => exact StaysOwned.refl s
  | some v =>
    refine staysOwned_put _ fun hs => hs key ?_
    rw [hv]
    rfl

/-! ## Transfers and relays -/

theorem staysOwned_doTransfer (tx : TransferTx) : Keeps (StaysOwned app) (doTransfer app tx) := by
  have hfrom : ∀ d, Keeps (StaysOwned app) (readFrom app d) := fun d =>
    Keeps.bind StaysOwned.trans (staysOwned_get d.1) fun _ =>
      Keeps.require_bind StaysOwned.refl fun _ => Keeps.require_bind StaysOwned.refl fun _ =>
        StaysOwned.refl
  have hto : ∀ c, Keeps (StaysOwned app) (readTo app c) := fun c =>
    Keeps.bind StaysOwned.trans (staysOwned_get c.1) fun _ =>
      Keeps.require_bind StaysOwned.refl fun _ => StaysOwned.refl
  have hwrite : ∀ l, Keeps (StaysOwned app) (forEach (writeBalance app) l) := fun l =>
    Keeps.forEach StaysOwned.refl StaysOwned.trans fun w _ => staysOwned_set w.1 w.2 freeIdentifier
  refine Keeps.require_bind StaysOwned.refl fun _ => ?_
  refine Keeps.bind StaysOwned.trans (Keeps.of_eq StaysOwned.refl fun s =>
    (run_validateTransfer _ _ _ _ s).1) fun _ => ?_
  refine Keeps.bind StaysOwned.trans (Keeps.mapEach StaysOwned.refl StaysOwned.trans hfrom _)
    fun fromBalance => ?_
  refine Keeps.bind StaysOwned.trans (Keeps.mapEach StaysOwned.refl StaysOwned.trans hto _)
    fun toBalance => ?_
  exact Keeps.bind StaysOwned.trans (hwrite _) fun _ => hwrite _

theorem staysOwned_loadKeys (keys : List Str) (values : List UInt32) :
    Keeps (StaysOwned app) (loadKeys keys values) := by
  induction keys generalizing values with
  | nil => exact StaysOwned.refl
  | cons k keys ih =>
    cases values with
    | nil => exact StaysOwned.refl
    | cons v values =>
    exact Keeps.bind StaysOwned.trans (Keeps.modify fun _ => id) fun _ => ih values

theorem staysOwned_loadDatas (shards : List Str) (datas : List (Option BankData)) :
    Keeps (StaysOwned app) (loadDatas app shards datas) := by
  induction datas generalizing shards with
  | nil => cases shards <;> exact StaysOwned.refl
  | cons d datas ih =>
    cases shards with
    | nil => exact StaysOwned.refl
    | cons shard shards =>
      refine Keeps.orThrow_bind StaysOwned.refl fun data _ => ?_
      refine Keeps.bind StaysOwned.trans ?_ fun _ =>
        Keeps.bind StaysOwned.trans (staysOwned_loadKeys _ _) fun _ => ih shards
      unfold unlockOwn
      split
      · exact Keeps.forEach StaysOwned.refl StaysOwned.trans fun key _ =>
          staysOwned_setLockByte freeIdentifier key
      · exact StaysOwned.refl

theorem staysOwned_complete (relayTxSet : RelayTransferTxSet) :
    Keeps (StaysOwned app) (complete app relayTxSet) := by
  have hbody : Keeps (StaysOwned app) (do
      loadDatas app relayTxSet.shards relayTxSet.datas
      let rawTx ← newTransferTxFromBytes app relayTxSet.rawTx
      doTransfer app rawTx) :=
    Keeps.bind StaysOwned.trans (staysOwned_loadDatas _ _) fun _ =>
      Keeps.bind StaysOwned.trans (keeps_newTransferTxFromBytes StaysOwned.refl _)
        staysOwned_doTransfer
  exact fun s hs => hbody s hs

theorem staysOwned_executeRelay (opt : Bytes) (chain : Str) :
    Keeps (StaysOwned app) (executeRelay app opt chain) := by
  intro s
  rcases @state_executeRelay app opt chain s with h | ⟨_, _, h⟩ | ⟨tx, relayTxSet, -, -, h⟩
  · rw [h]
    exact StaysOwned.refl s
  · rw [h]
    exact id
  · rw [h]
    exact staysOwned_complete relayTxSet s

theorem staysOwned_execute (raw : Bytes) : Keeps (StaysOwned app) (execute app raw) := by
  intro s
  rcases @execute_eq app raw s with ⟨e, -, h⟩ | ⟨tx, -, -, h⟩
  · rw [h]
    exact StaysOwned.refl s
  · rw [h]
    exact staysOwned_doTransfer tx s

/-! ## Preparing -/

theorem staysOwned_lockTransfer (tx : TransferTx) (raw : Bytes) :
    Keeps (StaysOwned app) (lockTransfer app tx raw) := by
  have hundo : Keeps (StaysOwned app) (undoRelays app (app.txHash raw)) := by
    refine Keeps.of_eq StaysOwned.refl fun s => ?_
    rcases @undoRelays_cases app (app.txHash raw) s with ⟨m, h⟩ | h <;> rw [h]
  have hinsert : ∀ datas relayTxSet, Keeps (StaysOwned app) (insertAll datas relayTxSet) := by
    intro datas
    induction datas with
    | nil => exact fun _ => StaysOwned.refl
    | cons e datas ih =>
      intro relayTxSet
      exact Keeps.bind StaysOwned.trans (Keeps.orThrow_bind StaysOwned.refl fun _ _ =>
        StaysOwned.refl) fun _ => ih _
  refine Keeps.bind StaysOwned.trans hundo fun datas =>
    Keeps.bind StaysOwned.trans (hinsert datas _) fun relayTxSet =>
      Keeps.bind StaysOwned.trans (Keeps.modify fun _ => id) fun _ => ?_
  refine Keeps.forEach StaysOwned.refl StaysOwned.trans fun key _ => ?_
  exact Keeps.bind StaysOwned.trans
    (fun s hs => staysOwned_setLockByte wLockedIdentifier key s hs) fun _ => StaysOwned.refl

theorem staysOwned_executeCrossShard (raw : Bytes) :
    Keeps (StaysOwned app) (executeCrossShard app raw) := by
  refine Keeps.orThrow_bind StaysOwned.refl fun _ _ =>
    Keeps.require_bind StaysOwned.refl fun _ => ?_
  refine Keeps.bind StaysOwned.trans (keeps_newTransferTxFromBytes StaysOwned.refl _) fun tx => ?_
  exact Keeps.require_bind StaysOwned.refl fun _ => staysOwned_lockTransfer tx raw

theorem batchStaysOwned_onDB {β : Type} {x : Act β} (hx : Keeps (StaysOwned app) x) :
    Keeps (BatchStaysOwned app) (onDB x) := fun b => hx b.db

theorem batchStaysOwned_scanKey (key : Str) : Keeps (BatchStaysOwned app) (scanKey app key) := by
  refine Keeps.orThrow_bind BatchStaysOwned.refl fun shard _ => ?_
  split
  · exact BatchStaysOwned.refl
  · refine Keeps.bind BatchStaysOwned.trans (batchStaysOwned_onDB (staysOwned_get key)) fun _ =>
      Keeps.get_bind fun b => Keeps.require_bind BatchStaysOwned.refl (fun _ => ?_) b
    exact Keeps.bind BatchStaysOwned.trans (Keeps.modify fun _ => id) fun _ => BatchStaysOwned.refl

theorem batchStaysOwned_preDoTransfer (tx : TransferTx) (raw : Bytes) :
    Keeps (BatchStaysOwned app) (preDoTransfer app tx raw) := by
  refine Keeps.require_bind BatchStaysOwned.refl fun _ => Keeps.get_bind fun b => ?_
  refine Keeps.require_bind BatchStaysOwned.refl (fun _ => ?_) b
  refine Keeps.bind BatchStaysOwned.trans (Keeps.of_eq BatchStaysOwned.refl fun s =>
    (run_validateTransfer _ _ _ _ s).1) fun _ => ?_
  refine Keeps.bind BatchStaysOwned.trans (Keeps.mapEach BatchStaysOwned.refl BatchStaysOwned.trans
    batchStaysOwned_scanKey _) fun scanned => ?_
  exact Keeps.require_bind BatchStaysOwned.refl fun _ => BatchStaysOwned.refl

theorem batchStaysOwned_prepare (raw : Bytes) : Keeps (BatchStaysOwned app) (prepare app raw) := by
  have hnew : Keeps (BatchStaysOwned app)
      (attempt (newTransferTxFromBytes app raw) : Action BankError Batch _) := by
    refine Keeps.of_eq BatchStaysOwned.refl fun b => ?_
    unfold attempt newTransferTxFromBytes
    split <;> rfl
  refine Keeps.bind BatchStaysOwned.trans hnew fun r => ?_
  rcases r with e | tx
  · cases e <;> exact BatchStaysOwned.refl
  · simp only
    split
    · exact BatchStaysOwned.refl
    · refine Keeps.bind BatchStaysOwned.trans
        (fun b => batchStaysOwned_preDoTransfer tx raw b) fun r => ?_
      rcases r with e | accepted
      · cases e <;> exact BatchStaysOwned.refl
      · refine Keeps.bind BatchStaysOwned.trans (fun b => ?_) fun _ => BatchStaysOwned.refl
        rw [state_ignoreError]
        exact staysOwned_executeCrossShard raw b.db

/-! ## Blocks -/

theorem batchStaysOwned_prepareAll (input : List Bytes) (relayTxs : List (List Bytes)) :
    Keeps (BatchStaysOwned app) (prepareAll app input relayTxs) := by
  induction input generalizing relayTxs with
  | nil => exact BatchStaysOwned.refl
  | cons raw input ih =>
    refine Keeps.bind BatchStaysOwned.trans (batchStaysOwned_prepare raw) fun r => ?_
    cases r with
    | none => exact ih relayTxs
    | some r => exact Keeps.orThrow_bind BatchStaysOwned.refl fun relayTxs' _ => ih relayTxs'

theorem staysOwned_executeCTXS (chains : List Str) (ctxs : List (List Bytes)) :
    Keeps (StaysOwned app) (executeCTXS app chains ctxs) := by
  induction ctxs generalizing chains with
  | nil => cases chains <;> exact StaysOwned.refl
  | cons opts ctxs ih =>
    cases chains with
    | nil => exact StaysOwned.refl
    | cons chain chains =>
      refine Keeps.bind StaysOwned.trans ?_ fun _ => ih chains
      refine Keeps.forEach StaysOwned.refl StaysOwned.trans fun opt _ s => ?_
      rw [state_ignoreError]
      exact staysOwned_executeRelay opt chain s

/-- **A call of `Execution`** keeps to the shard's accounts, even if it panics. -/
theorem owned_execution {st : PrefixStore} (hst : st.Owned app) (txs crossShardTxs : List Bytes)
    (ctxs : List (List Bytes)) : (execution app txs crossShardTxs ctxs st).2.Owned app := by
  have hfirst : Keeps (StaysOwned app) (do
      executeCTXS app app.shardIDList ctxs
      mapEach (executeTx app) txs) := by
    refine Keeps.bind StaysOwned.trans (staysOwned_executeCTXS _ _) fun _ =>
      Keeps.mapEach StaysOwned.refl StaysOwned.trans (fun raw s => ?_) txs
    rw [state_executeTx]
    exact staysOwned_execute raw s
  have hstores : Keeps (fun st st' : PrefixStore => st.Owned app → st'.Owned app)
      (execution app txs crossShardTxs ctxs) := by
    refine Keeps.bind (fun _ _ _ h h' hs => h' (h hs)) (fun st hst => hfirst (newDB st) hst)
      fun responses => ?_
    refine Keeps.bind (fun _ _ _ h h' hs => h' (h hs)) (fun st hst => ?_) fun _ _ => id
    exact batchStaysOwned_prepareAll crossShardTxs _ (newBatch st) hst
  exact hstores st hst

theorem owned_of_executions {st : PrefixStore} (hst : st.Owned app) (bodies : List Body) :
    (executions app bodies st).2.Owned app := by
  have hstores : Keeps (fun st st' : PrefixStore => st.Owned app → st'.Owned app)
      (executions app bodies) := by
    refine Keeps.forEach (fun _ => id) (fun _ _ _ h h' hs => h' (h hs)) fun body _ => ?_
    refine Keeps.bind (fun _ _ _ h h' hs => h' (h hs)) (fun st hst => ?_) fun _ _ => id
    exact owned_execution hst body.txs body.crossShardTxs body.ctxs
  exact hstores st hst

theorem owned_opStep {b b' : Batch} {op : Op} (hb : b.db.db.Owned app)
    (h : opStep app b op = some b') : b'.db.db.Owned app := by
  cases op with
  | start =>
    obtain rfl := Option.some.inj h
    exact hb
  | relay chain opt =>
    obtain ⟨-, rfl⟩ := opStep_relay.mp h
    exact staysOwned_executeRelay opt chain b.db hb
  | tx raw =>
    rw [opStep_tx] at h
    obtain rfl := Option.some.inj h
    exact staysOwned_execute raw b.db hb
  | prepare raw =>
    obtain ⟨-, rfl⟩ := opStep_prepare.mp h
    exact batchStaysOwned_prepare raw b hb

theorem PrefixStore.Owned.data_eq_none {st : PrefixStore} (h : st.Owned app) {key : Str}
    (hk : app.searchKeyIntraShard key = false) : st.data key = none := by
  cases hv : st.data key with
  | none => rfl
  | some v =>
    have hin := h key (by rw [hv]; rfl)
    rw [hk] at hin
    cases hin

/-- A store without accounts. -/
def noAccounts (special : Bytes → Option Bytes) : PrefixStore := ⟨fun _ => none, special⟩

theorem owned_noAccounts (special : Bytes → Option Bytes) : (noAccounts special).Owned app :=
  fun _ h => by cases h

/-- **A shard writes only its own accounts.** After any `Execution` calls on a store without
accounts every entry is for a key of the shard's range. Between any steps of such calls, no relay,
transaction, lock request or cross-shard transfer touches an entry for another key, whether it
succeeds or not. -/
theorem owned_executions (app : Application) (special : Bytes → Option Bytes) :
    (∀ bodies key, ((executions app bodies (noAccounts special)).2.data key).isSome →
      app.searchKeyIntraShard key = true) ∧
    ∀ es b, run (opStep app) (newBatch (noAccounts special)) es = some b →
      ∀ key, app.searchKeyIntraShard key = false →
        b.db.db.data key = none ∧
        (∀ opt chain, (executeRelay app opt chain b.db).2.db.data key = b.db.db.data key) ∧
        (∀ raw, (execute app raw b.db).2.db.data key = b.db.db.data key) ∧
        (∀ raw, (executeCrossShard app raw b.db).2.db.data key = b.db.db.data key) ∧
        ∀ raw, (prepare app raw b).2.db.db.data key = b.db.db.data key := by
  refine ⟨fun bodies => owned_of_executions (owned_noAccounts special) bodies,
    fun es b hrun key hk => ?_⟩
  have hb : b.db.db.Owned app := run_invariant (I := fun b : Batch => b.db.db.Owned app)
    (fun _ _ _ hb h => owned_opStep hb h) (owned_noAccounts special) hrun
  have hnone := hb.data_eq_none hk
  rw [hnone]
  refine ⟨rfl, fun opt chain => ?_, fun raw => ?_, fun raw => ?_, fun raw => ?_⟩
  · exact (staysOwned_executeRelay opt chain b.db hb).data_eq_none hk
  · exact (staysOwned_execute raw b.db hb).data_eq_none hk
  · exact (staysOwned_executeCrossShard raw b.db hb).data_eq_none hk
  · exact (batchStaysOwned_prepare raw b hb).data_eq_none hk

section

open Prepared

/-- Shard `A` prepares the payment to account `B` and executes relays for it. Account `A` is in its
store, and account `B` is not, also after a relay that brings the balance of `B`. -/
theorem owned_payment :
    ((executions twoShards [preparing, relaying [[paymentRelay [65]], []]]
        (noAccounts fun _ => none)).2.data [65]).isSome = true ∧
      twoShards.searchKeyIntraShard [65] = true ∧ twoShards.searchKeyIntraShard [66] = false ∧
      ∃ b, run (opStep twoShards) (newBatch (noAccounts fun _ => none)) (ops twoShards preparing) =
          some b ∧
        b.db.db.data [66] = none ∧
        (executeRelay twoShards (paymentRelay [66]) [66] b.db).2.db.data [66] =
          b.db.db.data [66] := by
  have hthere : ((executions twoShards [preparing, relaying [[paymentRelay [65]], []]]
      (noAccounts fun _ => none)).2.data [65]).isSome = true := by decide +kernel
  have hother : twoShards.searchKeyIntraShard [66] = false := by decide
  obtain ⟨b, hb⟩ := Option.isSome_iff_exists.mp
    (show (run (opStep twoShards) (newBatch (noAccounts fun _ => none))
      (ops twoShards preparing)).isSome = true by decide +kernel)
  obtain ⟨hown, hframe⟩ := owned_executions twoShards fun _ => none
  obtain ⟨hnone, hrelay, -⟩ := hframe _ b hb [66] hother
  exact ⟨hthere, hown _ _ hthere, hother, b, hb, hnone, hrelay _ _⟩

end

end Emulator.Urd.Minibank
