import Emulator.Urd.Batch

/-!
# Executing a block step by step

`Execution` runs the relays of a block, then its transactions, then prepares its cross-shard
transactions. Here the three loops are one run of small steps, of which each is one relay or one
transaction; a step that panics has no result.

* `execution_eq_ok` — `Execution` returns exactly if the run of its steps does, with the same store.
* `unlockTransfer_cases`, `execute_cases` — what a relay and a transaction can do, whatever their
  bytes and the store are.
* `spares_complete` — a relay that completes a set does not touch locked accounts, except those
  whose names are in the set's data of this shard.
* `opStep_relay`, `opStep_tx`, `opStep_prepare` — when a step returns, and with which state.
-/

namespace Emulator.Urd.Minibank

open Emulator.Action Emulator.Minibank

/-! ## The steps -/

/-- What `Execution` gets of a block. -/
structure Body where
  txs : List Bytes
  crossShardTxs : List Bytes
  ctxs : List (List Bytes)
  deriving DecidableEq, Repr

inductive Op
  /-- a new database over the store, and empty lock maps -/
  | start
  | relay (chain : Str) (opt : Bytes)
  | tx (raw : Bytes)
  | prepare (raw : Bytes)
  deriving DecidableEq, Repr

section

variable (app : Application)

def opStep (b : Batch) : Op → Option Batch
  | .start => some (newBatch b.db.db)
  | .relay chain opt => after (onDB (ignoreError (executeRelay app opt chain))) b
  | .tx raw => after (onDB (executeTx app raw)) b
  | .prepare raw => after (prepare app raw) b

/-- The relays of a block, list `i` from the `i`-th shard. -/
def relayOps : List Str → List (List Bytes) → List Op
  | chain :: chains, ctxs :: rest => ctxs.map (.relay chain) ++ relayOps chains rest
  | _, _ => []

def ops (body : Body) : List Op :=
  .start :: (relayOps app.shardIDList body.ctxs ++ body.txs.map .tx) ++
    .start :: body.crossShardTxs.map .prepare

def executions (bodies : List Body) : Action BankError PrefixStore Unit :=
  forEach (fun body => do
    let _ ← execution app body.txs body.crossShardTxs body.ctxs
    pure ()) bodies

end

variable {app : Application} {b b' : Batch} {s' s : AppDB} {key chain : Str} {st' : PrefixStore}
  {keys : List Str} {opt : Bytes}

theorem after_ignoreError {σ : Type} {x : Action BankError σ Unit} {s s' : σ} :
    after (ignoreError x) s = some s' ↔ (x s).1 ≠ .error .panic ∧ (x s).2 = s' := by
  unfold after ignoreError
  rw [run_bind_ok (run_attempt x s)]
  cases (x s).1 with
  | ok u => simp
  | error e => cases e <;> simp

theorem state_ignoreError {σ : Type} (x : Action BankError σ Unit) (s : σ) :
    (ignoreError x s).2 = (x s).2 := by
  unfold ignoreError
  rw [run_bind_ok (run_attempt x s)]
  cases (x s).1 with
  | ok u => rfl
  | error e => cases e <;> rfl

variable (raw : Bytes)

theorem state_executeTx (s : AppDB) : (executeTx app raw s).2 = (execute app raw s).2 := by
  unfold executeTx
  rw [run_bind_ok (run_attempt _ s)]
  cases (execute app raw s).1 with
  | ok u => rfl
  | error e => cases e <;> rfl

theorem after_onDB {α : Type} (x : Act α) (b : Batch) :
    after (onDB x) b = (after x b.db).map fun s => { b with db := s } := by
  unfold after onDB
  cases h : x b.db with
  | mk r s => cases r <;> rfl

theorem exists_run_onDB {α β : Type} {f : α → Act β} {l : List α} :
    (∃ b', run (fun b a => after (onDB (f a)) b) b l = some b' ∧ b'.db = s') ↔
      run (fun s a => after (f a) s) b.db l = some s' := by
  induction l generalizing b with
  | nil => simp
  | cons a l ih =>
    have hstep := after_onDB (f a) b
    cases h : after (f a) b.db with
    | none =>
      rw [h] at hstep
      simp [run, h, hstep]
    | some s =>
      rw [h] at hstep
      simp only [run, h, hstep, Option.bind_some, Option.map_some]
      exact ih

theorem run_relays {opts : List Bytes} :
    (∃ b', run (opStep app) b (opts.map (.relay chain)) = some b' ∧ b'.db = s') ↔
      forEach (fun opt => ignoreError (executeRelay app opt chain)) opts b.db = (.ok (), s') := by
  rw [run_map, forEach_eq_ok]
  exact exists_run_onDB

theorem run_txs {txs : List Bytes} :
    (∃ b', run (opStep app) b (txs.map .tx) = some b' ∧ b'.db = s') ↔
      ∃ receipts, mapEach (executeTx app) txs b.db = (.ok receipts, s') := by
  rw [run_map, exists_mapEach_eq_ok]
  exact exists_run_onDB

theorem executeCTXS_eq_ok {chains : List Str} {ctxs : List (List Bytes)} :
    executeCTXS app chains ctxs b.db = (.ok (), s') ↔
      ctxs.length ≤ chains.length ∧
        ∃ b', run (opStep app) b (relayOps chains ctxs) = some b' ∧ b'.db = s' := by
  induction ctxs generalizing chains b with
  | nil => cases chains <;> simp [executeCTXS, relayOps]
  | cons opts ctxs ih =>
    cases chains with
    | nil => simp [executeCTXS]
    | cons chain chains =>
      rw [executeCTXS, bind_eq_ok, relayOps, List.length_cons, List.length_cons,
        Nat.succ_le_succ_iff]
      simp only [run_append]
      constructor
      · rintro ⟨u, s₁, hopts, hrest⟩
        obtain ⟨b₁, hrun₁, rfl⟩ := run_relays.mpr hopts
        obtain ⟨hlen, b', hrun, hb'⟩ := ih.mp hrest
        exact ⟨hlen, b', ⟨b₁, hrun₁, hrun⟩, hb'⟩
      · rintro ⟨hlen, b', ⟨b₁, hrun₁, hrun⟩, hb'⟩
        exact ⟨(), b₁.db, run_relays.mp ⟨b₁, hrun₁, rfl⟩, ih.mpr ⟨hlen, b', hrun, hb'⟩⟩

theorem exists_appendRelay (hid : app.chainId ∈ app.shardIDList) (relay : Bytes) (shards : List Str)
    {relayTxs : List (List Bytes)} (hlen : relayTxs.length = app.shardIDList.length) :
    ∃ relayTxs', appendRelay app relay shards relayTxs = some relayTxs' ∧
      relayTxs'.length = app.shardIDList.length := by
  induction shards generalizing relayTxs with
  | nil => exact ⟨relayTxs, rfl, hlen⟩
  | cons shard shards ih =>
    -- an unknown shard has index 0, so there must be a list at all
    have hlt : app.shardsToIndex shard < relayTxs.length := by
      rw [hlen, Application.shardsToIndex]
      cases h : app.shardIDList.idxOf? shard with
      | none => exact List.length_pos_of_mem hid
      | some i =>
        obtain ⟨hi, -⟩ := List.idxOf?_eq_some_iff.mp h
        exact hi
    have hmodify : (relayTxs.modify (app.shardsToIndex shard) (· ++ [relay])).length =
        app.shardIDList.length := by rw [List.length_modify, hlen]
    obtain ⟨relayTxs', hrest, hlen'⟩ := ih hmodify
    refine ⟨relayTxs', ?_, hlen'⟩
    rw [appendRelay, List.foldlM_cons, appendAt, if_pos hlt]
    exact hrest

theorem prepareAll_eq_ok (hid : app.chainId ∈ app.shardIDList) {input : List Bytes}
    {relayTxs : List (List Bytes)} (hlen : relayTxs.length = app.shardIDList.length) :
    (∃ r, prepareAll app input relayTxs b = (.ok r, b')) ↔
      run (opStep app) b (input.map .prepare) = some b' := by
  induction input generalizing relayTxs b with
  | nil => simp [prepareAll]
  | cons raw input ih =>
    rw [prepareAll, exists_bind_eq_ok, List.map_cons, run_cons]
    show _ ↔ ∃ b₁, after (prepare app raw) b = some b₁ ∧ _
    simp only [after_eq_some]
    constructor
    · rintro ⟨o, b₁, hprep, hrest⟩
      refine ⟨b₁, ⟨o, hprep⟩, ?_⟩
      cases o with
      | none => exact (ih hlen).mp hrest
      | some r =>
        obtain ⟨relayTxs', happend, hlen'⟩ := exists_appendRelay hid r.1 r.2 hlen
        obtain ⟨x, b₂, hx, hrest⟩ := exists_bind_eq_ok.mp hrest
        obtain ⟨hx', rfl⟩ := orThrow_eq_ok.mp hx
        obtain rfl := Option.some.inj (happend.symm.trans hx')
        exact (ih hlen').mp hrest
    · rintro ⟨b₁, ⟨o, hprep⟩, hrest⟩
      refine ⟨o, b₁, hprep, ?_⟩
      cases o with
      | none => exact (ih hlen).mpr hrest
      | some r =>
        obtain ⟨relayTxs', happend, hlen'⟩ := exists_appendRelay hid r.1 r.2 hlen
        exact exists_bind_eq_ok.mpr
          ⟨relayTxs', b₁, orThrow_eq_ok.mpr ⟨happend, rfl⟩, (ih hlen').mpr hrest⟩

/-- `Execution` is its relays and transactions on one database, and the batch on another. -/
theorem execution_eq_ok_iff {txs crossShardTxs : List Bytes} {ctxs : List (List Bytes)}
    {st : PrefixStore} {resp : ABCIExecutionResponse} :
    execution app txs crossShardTxs ctxs st = (.ok resp, st') ↔
      ∃ s₀ s, executeCTXS app app.shardIDList ctxs (newDB st) = (.ok (), s₀) ∧
        mapEach (executeTx app) txs s₀ = (.ok resp.responses, s) ∧
        preExecution app crossShardTxs s.db = (.ok resp.oPTxs, st') := by
  refine Iff.trans (show execution app txs crossShardTxs ctxs st = _ ↔ _ from bind_eq_ok) ?_
  constructor
  · rintro ⟨responses, st₁, hfirst, h⟩
    obtain ⟨oPTxs, st₂, hpre, h⟩ := bind_eq_ok.mp h
    obtain ⟨rfl, rfl⟩ : { responses, oPTxs } = resp ∧ st₂ = st' := by simpa using h
    obtain ⟨hres, rfl⟩ := Prod.mk.inj hfirst
    obtain ⟨u, s₀, hctxs, htxs⟩ := bind_eq_ok.mp (Prod.ext hres rfl)
    exact ⟨s₀, _, hctxs, htxs, hpre⟩
  · rintro ⟨s₀, s, hctxs, htxs, hpre⟩
    have hfirst := bind_eq_ok (f := fun _ => mapEach (executeTx app) txs).mpr ⟨(), s₀, hctxs, htxs⟩
    refine ⟨resp.responses, s.db, ?_, bind_eq_ok.mpr ⟨resp.oPTxs, st', hpre, rfl⟩⟩
    show (_, _) = _
    rw [hfirst]

section

variable (hid : app.chainId ∈ app.shardIDList)

include hid

theorem preExecution_eq_ok {input : List Bytes}
    {st : PrefixStore} :
    (∃ oPTxs, preExecution app input st = (.ok oPTxs, st')) ↔
      ∃ b', run (opStep app) (newBatch st) (input.map .prepare) = some b' ∧ b'.db.db = st' := by
  simp only [← prepareAll_eq_ok hid (List.length_replicate (n := app.shardIDList.length) (a := []))]
  constructor
  · rintro ⟨oPTxs, h⟩
    obtain ⟨hres, hst⟩ := Prod.mk.inj h
    exact ⟨_, ⟨oPTxs, Prod.ext hres rfl⟩, hst⟩
  · rintro ⟨b', ⟨oPTxs, h⟩, rfl⟩
    refine ⟨oPTxs, ?_⟩
    show (_, _) = _
    rw [show ({ db := newDB st, wlocks := [], rlocks := [] } : Batch) = newBatch st from rfl, h]

/-- **`Execution` as a run of its steps.** -/
theorem execution_eq_ok {body : Body} :
    (∃ resp, execution app body.txs body.crossShardTxs body.ctxs b.db.db = (.ok resp, st')) ↔
      body.ctxs.length ≤ app.shardIDList.length ∧
        ∃ b', run (opStep app) b (ops app body) = some b' ∧ b'.db.db = st' := by
  have hstart : ∀ (b : Batch) (es : List Op),
      run (opStep app) b (.start :: es) = run (opStep app) (newBatch b.db.db) es := fun _ _ => rfl
  rw [ops, List.cons_append, hstart]
  simp only [execution_eq_ok_iff, run_append]
  constructor
  · rintro ⟨resp, s₀, s, hctxs, htxs, hpre⟩
    obtain ⟨hlen, b₁, hrun₁, rfl⟩ := (executeCTXS_eq_ok (b := newBatch b.db.db)).mp hctxs
    obtain ⟨b₂, hrun₂, rfl⟩ := run_txs.mpr ⟨resp.responses, htxs⟩
    obtain ⟨b', hrun', hst'⟩ := (preExecution_eq_ok hid).mp ⟨resp.oPTxs, hpre⟩
    exact ⟨hlen, b', ⟨b₂, ⟨b₁, hrun₁, hrun₂⟩, hrun'⟩, hst'⟩
  · rintro ⟨hlen, b', ⟨b₂, ⟨b₁, hrun₁, hrun₂⟩, hrun'⟩, hst'⟩
    have hctxs := (executeCTXS_eq_ok (b := newBatch b.db.db)).mpr ⟨hlen, b₁, hrun₁, rfl⟩
    obtain ⟨receipts, htxs⟩ := run_txs.mp ⟨b₂, hrun₂, rfl⟩
    obtain ⟨oPTxs, hpre⟩ := (preExecution_eq_ok hid).mpr ⟨b', hrun', hst'⟩
    exact ⟨⟨receipts, oPTxs⟩, b₁.db, b₂.db, hctxs, htxs, hpre⟩

theorem executions_eq_ok {bodies : List Body} :
    executions app bodies b.db.db = (.ok (), st') ↔
      (∀ body ∈ bodies, body.ctxs.length ≤ app.shardIDList.length) ∧
        ∃ b', run (opStep app) b (bodies.flatMap (ops app)) = some b' ∧ b'.db.db = st' := by
  induction bodies generalizing b with
  | nil => simp [executions, forEach]
  | cons body bodies ih =>
    rw [executions, forEach, bind_eq_ok, List.forall_mem_cons, List.flatMap_cons]
    simp only [run_append]
    constructor
    · rintro ⟨u, st₁, hone, hrest⟩
      obtain ⟨resp, st₂, hexec, hpure⟩ := bind_eq_ok.mp hone
      obtain rfl : st₂ = st₁ := by simpa using hpure
      obtain ⟨hlen, b₁, hrun₁, rfl⟩ := (execution_eq_ok hid).mp ⟨resp, hexec⟩
      obtain ⟨hlens, b', hrun', hst'⟩ := ih.mp hrest
      exact ⟨⟨hlen, hlens⟩, b', ⟨b₁, hrun₁, hrun'⟩, hst'⟩
    · rintro ⟨⟨hlen, hlens⟩, b', ⟨b₁, hrun₁, hrun'⟩, hst'⟩
      obtain ⟨resp, hexec⟩ := (execution_eq_ok hid).mpr ⟨hlen, b₁, hrun₁, rfl⟩
      exact ⟨(), b₁.db.db, bind_eq_ok.mpr ⟨resp, b₁.db.db, hexec, rfl⟩, ih.mpr ⟨hlens, b', hrun', hst'⟩⟩

end

/-! ## What a relay can do -/

section

variable (app : Application)

/-- The set a relay completes: the one stored under its hash with its data filled in, if no element
of `Datas` is missing then. -/
def completedSet (tx : RelayTransferTx) (chain : Str) (s : AppDB) : Option RelayTransferTxSet :=
  match s.db.getSpecial tx.txHash with
  | [] => none
  | bz => do
    let stored ← app.codecs.relayTxSet.unmarshal bz
    let datas ← insertDatas tx.datas chain stored.shards stored.datas
    if isRelayTransferTxSetFinish { stored with datas } then some { stored with datas } else none

/-- The store panics on the relay: the stored set has no room in `Datas` for it, or the stored map
of early relays is nil. -/
def Misfit (tx : RelayTransferTx) (chain : Str) (s : AppDB) : Prop :=
  (s.db.getSpecial tx.txHash ≠ [] ∧
      ∃ stored, app.codecs.relayTxSet.unmarshal (s.db.getSpecial tx.txHash) = some stored ∧
        insertDatas tx.datas chain stored.shards stored.datas = none) ∨
    s.db.getSpecial (toRelayKey tx.txHash) ≠ [] ∧ undoRelays app tx.txHash s = (.ok [], s)

/-- What `unlockTransfer` does with a complete set. -/
def complete (relayTxSet : RelayTransferTxSet) : Act Unit :=
  andFinally (do
    loadDatas app relayTxSet.shards relayTxSet.datas
    let rawTx ← newTransferTxFromBytes app relayTxSet.rawTx
    doTransfer app rawTx) AppDB.clear

/-- The keys that the loop over a set unlocks. -/
def unlockedKeys (shards : List Str) (datas : List (Option BankData)) : List Str :=
  (shards.zip datas).flatMap fun e =>
    if e.1 = app.chainId then (e.2.map BankData.keys).getD [] else []

/-- The keys a relay unlocks. -/
def releases (opt : Bytes) (chain : Str) (s : AppDB) : List Str :=
  match (app.codecs.relayTx.unmarshal opt).bind fun tx => completedSet app tx chain s with
  | none => []
  | some relayTxSet => unlockedKeys app relayTxSet.shards relayTxSet.datas

end

/-- **What a relay can do**: be filed for later, be refused, panic, wait for others, or complete the
set. -/
theorem unlockTransfer_cases (tx : RelayTransferTx) (chain : Str) (s : AppDB) :
    (s.db.getSpecial tx.txHash = [] ∧ ∃ m, undoRelays app tx.txHash s = (.ok m, s) ∧
        unlockTransfer app tx chain s = (.ok (), s.setSpecial (toRelayKey tx.txHash)
          (app.codecs.relayTxList.marshal (m.insert chain tx.datas)))) ∨
      unlockTransfer app tx chain s = (.error .unmarshal, s) ∨
      (Misfit app tx chain s ∧ unlockTransfer app tx chain s = (.error .panic, s)) ∨
      unlockTransfer app tx chain s = (.ok (), s) ∨
      ∃ relayTxSet, completedSet app tx chain s = some relayTxSet ∧
        unlockTransfer app tx chain s = complete app relayTxSet s := by
  unfold unlockTransfer completedSet
  rw [run_bind_ok (run_get s)]
  cases hget : s.db.getSpecial tx.txHash with
  | nil =>
    -- not locked yet: the relay joins those that came early
    rcases @undoRelays_cases app tx.txHash s with ⟨m, hm⟩ | herr
    · simp only
      rw [run_bind_ok hm]
      cases hreq : (s.db.getSpecial (toRelayKey tx.txHash)).isEmpty || !m.isEmpty with
      | true => exact .inl ⟨trivial, m, hm, rfl⟩
      | false =>
        simp only [Bool.or_eq_false_iff, Bool.not_eq_false', List.isEmpty_iff] at hreq
        refine .inr (.inr (.inl ⟨.inr ⟨fun h => ?_, hreq.2 ▸ hm⟩, rfl⟩))
        simp [h] at hreq
    · exact .inr (.inl (run_bind_error herr))
  | cons x xs =>
    -- locked: the relay is filled into the stored set, in memory only
    simp only
    cases hstored : app.codecs.relayTxSet.unmarshal (x :: xs) with
    | none => exact .inr (.inl rfl)
    | some stored =>
      rw [run_bind_ok (run_orThrow_some _ _ _)]
      cases hins : insertDatas tx.datas chain stored.shards stored.datas with
      | none =>
        refine .inr (.inr (.inl ⟨.inl ⟨?_, stored, ?_, hins⟩, ?_⟩))
        · simp [hget]
        · rw [hget, hstored]
        · exact run_bind_error (run_bind_error (by rw [hins]; rfl))
      | some datas =>
        have hset : insertBankDataToRelayTxSet tx.datas chain stored s =
            (.ok { stored with datas }, s) := by
          unfold insertBankDataToRelayTxSet
          rw [hins]
          rfl
        rw [run_bind_ok hset]
        cases hfin : isRelayTransferTxSetFinish { stored with datas } with
        | false => exact .inr (.inr (.inr (.inl rfl)))
        | true => exact .inr (.inr (.inr (.inr ⟨_, by simp [hins, hfin], rfl⟩)))

/-! ### Unlocking -/

/-- From `s` to `s'` some of the accounts `keys` were unlocked, and nothing else was written. -/
structure Frees (keys : List Str) (s s' : AppDB) : Prop where
  data : ∀ key, s'.db.data key = s.db.data key ∨
    key ∈ keys ∧ s'.db.data key = (s.db.data key).map fun v => { v with locked := freeIdentifier }
  special : s'.db.special = s.db.special

theorem Frees.refl (keys : List Str) (s : AppDB) : Frees keys s s := ⟨fun _ => .inl rfl, rfl⟩

theorem Frees.trans (a b c : AppDB) (h : Frees keys a b) (h' : Frees keys b c) :
    Frees keys a c := by
  refine ⟨fun key => ?_, h'.special.trans h.special⟩
  rcases h'.data key with hc | ⟨hk, hc⟩
  · rw [hc]
    exact h.data key
  · refine .inr ⟨hk, ?_⟩
    rcases h.data key with hb | ⟨-, hb⟩
    · rw [hc, hb]
    · rw [hc, hb, Option.map_map]
      rfl

theorem Frees.mono {keys' : List Str} (hsub : ∀ key ∈ keys, key ∈ keys') (h : Frees keys s s') :
    Frees keys' s s' :=
  ⟨fun key => (h.data key).imp_right fun hk => ⟨hsub key hk.1, hk.2⟩, h.special⟩

theorem Frees.view_of_not_mem (h : Frees keys s s') (hk : key ∉ keys) :
    s'.view key = s.view key := by
  rcases h.data key with hd | ⟨hmem, -⟩
  · rw [AppDB.view, hd, AppDB.view]
  · exact absurd hmem hk

theorem frees_wUnlock (hk : key ∈ keys) : Keeps (Frees keys) (wUnlock key) := by
  intro s
  rw [wUnlock, run_attempt_setLockByte]
  refine ⟨fun k => ?_, ?_⟩
  · rw [data_setLock]
    by_cases h : k = key
    · exact .inr ⟨h ▸ hk, by rw [if_pos h]⟩
    · exact .inl (if_neg h)
  · exact (setLocks_frame freeIdentifier s [key]).1

theorem frees_loadKeys (keys : List Str) (ks : List Str) (vs : List UInt32) :
    Keeps (Frees keys) (loadKeys ks vs) := by
  induction ks generalizing vs with
  | nil => exact Frees.refl keys
  | cons k ks ih =>
    cases vs with
    | nil => exact Frees.refl keys
    | cons v vs =>
      exact Keeps.bind Frees.trans (Keeps.modify fun s => ⟨fun _ => .inl rfl, rfl⟩) fun _ => ih vs

theorem frees_loadDatas (shards : List Str) (datas : List (Option BankData)) :
    Keeps (Frees (unlockedKeys app shards datas)) (loadDatas app shards datas) := by
  induction datas generalizing shards with
  | nil => cases shards <;> exact Frees.refl _
  | cons d datas ih =>
    cases shards with
    | nil => exact Frees.refl _
    | cons shard shards =>
      refine Keeps.orThrow_bind (Frees.refl _) fun data hdata => ?_
      have hkeys : unlockedKeys app (shard :: shards) (d :: datas) =
          (if shard = app.chainId then data.keys else []) ++ unlockedKeys app shards datas := by
        simp [unlockedKeys, hdata]
      rw [hkeys]
      refine Keeps.bind Frees.trans ?_ fun _ => Keeps.bind Frees.trans (frees_loadKeys _ _ _)
        fun _ s => (ih shards s).mono fun key hk => List.mem_append_right _ hk
      unfold unlockOwn
      split
      · exact Keeps.forEach (Frees.refl _) Frees.trans fun key hk =>
          frees_wUnlock (List.mem_append_left _ hk)
      · exact Frees.refl _

theorem keeps_newTransferTxFromBytes {R : AppDB → AppDB → Prop} (hrefl : ∀ s, R s s) (raw : Bytes) :
    Keeps R (newTransferTxFromBytes app raw : Act TransferTx) := by
  refine Keeps.of_eq hrefl fun s => ?_
  unfold newTransferTxFromBytes
  split <;> rfl

/-- The account `key` was not touched if it was locked. -/
def Spares (key : Str) (s s' : AppDB) : Prop :=
  isFree (s.view key).locked = false → s'.view key = s.view key

theorem Spares.refl (key : Str) (s : AppDB) : Spares key s s := fun _ => rfl

theorem Spares.trans (a b c : AppDB) (h : Spares key a b) (h' : Spares key b c) :
    Spares key a c := by
  intro ha
  have hb := h ha
  rw [← hb] at ha ⊢
  exact h' ha

/-- Completing a set does not touch a locked account that the set does not unlock. -/
theorem spares_complete {relayTxSet : RelayTransferTxSet}
    (hk : key ∉ unlockedKeys app relayTxSet.shards relayTxSet.datas) :
    Keeps (Spares key) (complete app relayTxSet) := by
  have hbody : Keeps (Spares key) (do
      loadDatas app relayTxSet.shards relayTxSet.datas
      let rawTx ← newTransferTxFromBytes app relayTxSet.rawTx
      doTransfer app rawTx) := by
    refine Keeps.bind Spares.trans (fun s _ => (frees_loadDatas _ _ s).view_of_not_mem hk) fun _ => ?_
    -- what is still locked then makes `doTransfer` fail, or is not an account of the transfer
    refine Keeps.bind Spares.trans (keeps_newTransferTxFromBytes (Spares.refl key) _) fun tx => ?_
    exact fun s h => view_doTransfer_of_locked h
  exact fun s h => hbody s h

/-- The state after a relay: nothing changed, it was filed for later, or a set was completed. -/
theorem state_executeRelay (opt : Bytes) (chain : Str) (s : AppDB) :
    (executeRelay app opt chain s).2 = s ∨
      (∃ key value, (executeRelay app opt chain s).2 = s.setSpecial key value) ∨
      ∃ tx relayTxSet, app.codecs.relayTx.unmarshal opt = some tx ∧
        completedSet app tx chain s = some relayTxSet ∧
        (executeRelay app opt chain s).2 = (complete app relayTxSet s).2 := by
  unfold executeRelay
  cases hdec : app.codecs.relayTx.unmarshal opt with
  | none => exact .inl rfl
  | some tx =>
    rw [run_bind_ok (run_orThrow_some _ _ _)]
    rcases @unlockTransfer_cases app tx chain s with
      ⟨-, m, -, hrun⟩ | hrun | ⟨-, hrun⟩ | hrun | ⟨relayTxSet, hset, hrun⟩
    · exact .inr (.inl ⟨_, _, by rw [hrun]⟩)
    · exact .inl (by rw [hrun])
    · exact .inl (by rw [hrun])
    · exact .inl (by rw [hrun])
    · exact .inr (.inr ⟨tx, relayTxSet, rfl, hset, by rw [hrun]⟩)

theorem spares_executeRelay (hk : key ∉ releases app opt chain s) :
    Spares key s (executeRelay app opt chain s).2 := by
  rcases @state_executeRelay app opt chain s with h | ⟨_, _, h⟩ | ⟨tx, relayTxSet, hdec, hset, h⟩
  · rw [h]
    exact Spares.refl key s
  · rw [h]
    exact fun _ => rfl
  · rw [h]
    refine spares_complete ?_ s
    simpa [releases, hdec, hset] using hk

theorem retainData_executeRelay (hs : s.retainData = fun _ => none) :
    (executeRelay app opt chain s).2.retainData = fun _ => none := by
  rcases @state_executeRelay app opt chain s with h | ⟨_, _, h⟩ | ⟨tx, relayTxSet, -, -, h⟩
  · rw [h, hs]
  · rw [h]
    exact hs
  · rw [h]
    rfl

/-! ## What a transaction can do -/

theorem length_of_bytesToUint32 {raw : Bytes} {n : UInt32} (h : bytesToUint32 raw = some n) :
    4 ≤ raw.length := by
  unfold bytesToUint32 at h
  split at h
  · simp
  · cases h

/-- `execute` refuses the bytes, or runs `doTransfer` on a transfer that is for this shard alone. -/
theorem execute_eq (s : AppDB) :
    (∃ e, e ≠ .panic ∧ execute app raw s = (.error e, s)) ∨
      ∃ tx, decodeTx app raw = some tx ∧ tx.shards = [app.chainId] ∧
        execute app raw s = doTransfer app tx s := by
  unfold execute
  cases htype : bytesToUint32 raw with
  | none => exact .inl ⟨.invalidTransactionType, by decide, rfl⟩
  | some ty =>
    have hnew : newTransferTxFromBytes app raw s =
        ((decodeTx app raw).elim (.error .unmarshal) .ok, s) :=
      newTransferTxFromBytes_of_le (length_of_bytesToUint32 htype) s
    rw [run_bind_ok (run_orThrow_some _ _ _)]
    by_cases hty : ty = txTransfer
    · rw [run_bind_ok (require_eq_ok.mpr ⟨decide_eq_true hty, rfl⟩)]
      cases hdec : decodeTx app raw with
      | none =>
        rw [hdec] at hnew
        exact .inl ⟨.unmarshal, by decide, run_bind_error hnew⟩
      | some tx =>
        rw [hdec] at hnew
        rw [run_bind_ok hnew]
        rcases hshards : tx.shards with _ | ⟨shard, _ | ⟨_, _⟩⟩
        · exact .inl ⟨.invalidShards, by decide, rfl⟩
        · by_cases hown : shard = app.chainId
          · refine .inr ⟨tx, rfl, by rw [hshards, hown], ?_⟩
            exact run_bind_ok (require_eq_ok.mpr ⟨decide_eq_true hown, rfl⟩)
          · exact .inl ⟨.notThisShard, by decide, by simp [run_bind, hown]⟩
        · exact .inl ⟨.invalidShards, by decide, rfl⟩
    · exact .inl ⟨.unknownType, by decide, by simp [run_bind, hty]⟩

/-- **What a transaction can do**: fail and leave the view as it was, or be a transfer that is ready
and is carried out. -/
theorem execute_cases (s : AppDB) :
    (∃ e s', e ≠ .panic ∧ execute app raw s = (.error e, s') ∧ Touched app s s') ∨
      ∃ tx s', decodeTx app raw = some tx ∧ execute app raw s = (.ok (), s') ∧ Ready app tx s ∧
        Done app tx s s' := by
  rcases @execute_eq app raw s with ⟨e, hne, hrun⟩ | ⟨tx, hdec, -, hrun⟩
  · exact .inl ⟨e, s, hne, hrun, Touched.refl s⟩
  · rw [hrun]
    rcases @doTransfer_cases app tx s with hfail | ⟨s', hok, hr, hdone⟩
    · exact .inl hfail
    · exact .inr ⟨tx, s', hdec, hok, hr, hdone⟩

theorem spares_execute (key : Str) (s : AppDB) :
    Spares key s (execute app raw s).2 := by
  rcases @execute_eq app raw s with ⟨e, -, hrun⟩ | ⟨tx, -, -, hrun⟩
  · rw [hrun]
    exact Spares.refl key s
  · rw [hrun]
    exact fun h => view_doTransfer_of_locked h

theorem retainData_execute (s : AppDB) :
    (execute app raw s).2.retainData = s.retainData := by
  rcases @execute_cases app raw s with ⟨e, s', -, hrun, htouched⟩ | ⟨tx, s', -, hrun, -, hdone⟩
  · rw [hrun]
    exact htouched.retainData
  · rw [hrun]
    exact hdone.retainData

/-! ## What a step can do -/

theorem opStep_relay :
    opStep app b (.relay chain opt) = some b' ↔
      (executeRelay app opt chain b.db).1 ≠ .error .panic ∧
        b' = { b with db := (executeRelay app opt chain b.db).2 } := by
  show after (onDB (ignoreError _)) b = some b' ↔ _
  simp only [after_onDB, Option.map_eq_some_iff, after_ignoreError]
  constructor
  · rintro ⟨s', ⟨hne, rfl⟩, rfl⟩
    exact ⟨hne, rfl⟩
  · rintro ⟨hne, rfl⟩
    exact ⟨_, ⟨hne, rfl⟩, rfl⟩

theorem opStep_tx (b : Batch) :
    opStep app b (.tx raw) = some { b with db := (execute app raw b.db).2 } := by
  have hstep : after (executeTx app raw) b.db = some (execute app raw b.db).2 := by
    unfold after executeTx
    rw [run_bind_ok (run_attempt _ _)]
    rcases @execute_cases app raw b.db with ⟨e, s', hne, hrun, -⟩ | ⟨tx, s', -, hrun, -, -⟩
    · rw [hrun]
      cases e with
      | panic => exact absurd rfl hne
      | _ => rfl
    · rw [hrun]
      rfl
  show after (onDB _) b = _
  rw [after_onDB, hstep]
  rfl

/-- Preparing panics exactly on transactions that are too short for the type bytes. -/
theorem opStep_prepare {raw : Bytes} :
    opStep app b (.prepare raw) = some b' ↔ 4 ≤ raw.length ∧ b' = (prepare app raw b).2 := by
  show after (prepare app raw) b = some b' ↔ _
  rw [after_eq_some]
  constructor
  · rintro ⟨r, hrun⟩
    refine ⟨Nat.not_lt.mp fun hlt => ?_, by rw [hrun]⟩
    unfold prepare newTransferTxFromBytes at hrun
    rw [if_pos hlt] at hrun
    cases hrun
  · rintro ⟨hlen, rfl⟩
    rcases prepare_eq hlen b with hrun | ⟨tx, -, -, ⟨e, b₁, -, hrun⟩ | ⟨r, b₁, -, hrun⟩⟩
    · exact ⟨none, by rw [hrun]⟩
    · exact ⟨none, by rw [hrun]⟩
    · exact ⟨some r, by rw [hrun]⟩

end Emulator.Urd.Minibank
