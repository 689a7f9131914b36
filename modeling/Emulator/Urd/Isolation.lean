import Emulator.Urd.Steps

/-!
# Are the keys of a prepared transfer isolated?

Between the lock of a cross-shard transfer and its completion, its keys should stay locked, with the
balances that were shipped. Local transactions, other transfers and relays that are filed for later
respect a lock. A relay that completes a set does too, but for the keys in this shard's data of the
set, which it unlocks first.

* `spares_opStep` — the only step that touches a locked key is a relay that unlocks it.
* `LockedRun.isolated` — the keys are isolated as long as no such relay is executed.

A set that came back from the store always looks complete, so the shard's own relay unlocks the keys
whether or not the relays of the other shards are there: `not_isolated`.
-/

namespace Emulator.Urd.Minibank

open Emulator.Action Emulator.Minibank

section

variable (app : Application)

/-- The keys that a step unlocks. -/
def opReleases (b : Batch) : Op → List Str
  | .relay chain opt => releases app opt chain b.db
  | _ => []

/-- A run of `Execution` calls in which the shard prepared and locked the transaction `raw`, and the
steps `since` then. -/
structure LockedRun where
  st : PrefixStore
  bodies : List Body
  before : List Op
  raw : Bytes
  since : List Op
  rest : List Op
  tx : TransferTx
  relay : Bytes
  /-- the batches before and after the transaction was prepared -/
  fresh : Batch
  locked : Batch
  returns : (executions app bodies st).1 = .ok ()
  steps : bodies.flatMap (ops app) = before ++ .prepare raw :: (since ++ rest)
  reaches : run (opStep app) (newBatch st) before = some fresh
  decodes : decodeTx app raw = some tx
  accepts : prepare app raw fresh = (.ok (some (relay, tx.shards)), locked)
  lockable : Lockable app raw fresh.db

end

variable {app : Application}

/-- **What a step does to a locked key**: nothing, unless it is a relay that unlocks it. -/
theorem spares_opStep (hd : app.Disjoint) {key : Str} {b b' : Batch} {op : Op}
    (hk : key ∉ opReleases app b op) (h : opStep app b op = some b') : Spares key b.db b'.db := by
  cases op with
  | start =>
    obtain rfl := Option.some.inj h
    exact fun _ => rfl
  | relay chain opt =>
    obtain ⟨-, rfl⟩ := opStep_relay.mp h
    exact spares_executeRelay hk
  | tx raw =>
    rw [opStep_tx] at h
    obtain rfl := Option.some.inj h
    exact spares_execute raw key b.db
  | prepare raw =>
    obtain ⟨hlen, rfl⟩ := opStep_prepare.mp h
    exact (later_prepare hd hlen b).locked key

/-- A locked key keeps its entry through a run that does not unlock it. -/
theorem view_of_run (hd : app.Disjoint) {key : Str} {b b' : Batch} {since : List Op}
    (hlocked : isFree (b.db.view key).locked = false)
    (hrel : Along (opStep app) (fun c op => key ∉ opReleases app c op) b since)
    (hrun : run (opStep app) b since = some b') : b'.db.view key = b.db.view key := by
  -- the invariant is the entry itself: as long as it is locked, a step cannot change it
  refine run_invariant_along (I := fun c => c.db.view key = b.db.view key)
    (fun c op c' hc hk hstep => ?_) rfl hrel hrun
  have hspares := spares_opStep hd hk hstep
  rw [← hc] at hlocked
  exact (hspares hlocked).trans hc

namespace LockedRun

variable (r : LockedRun app)

/-- What the shard shipped for the transaction. -/
def data : BankData := shipped app r.tx.toTransfer r.fresh.db

/-- The keys of the transaction that the shard owns are locked, with the balances shipped. -/
def Isolated (b : Batch) : Prop :=
  ∀ e ∈ r.data.keys.zip r.data.values, b.db.view e.1 = ⟨e.2, wLockedIdentifier⟩

theorem exists_run (hid : app.chainId ∈ app.shardIDList) :
    4 ≤ r.raw.length ∧ ∃ b, run (opStep app) r.locked r.since = some b := by
  have hexec : executions app r.bodies (newBatch r.st).db.db =
      (.ok (), (executions app r.bodies r.st).2) := Prod.ext r.returns rfl
  obtain ⟨-, b', hrun, -⟩ := (executions_eq_ok hid).mp hexec
  rw [r.steps, run_append] at hrun
  obtain ⟨b, hb, hrun⟩ := hrun
  obtain rfl := Option.some.inj (r.reaches.symm.trans hb)
  obtain ⟨b₁, hprep, hrun⟩ := run_cons.mp hrun
  obtain ⟨hlen, rfl⟩ := opStep_prepare.mp hprep
  obtain ⟨b₂, hsince, -⟩ := run_append.mp hrun
  rw [r.accepts] at hsince
  exact ⟨hlen, b₂, hsince⟩

theorem enters (hd : app.Disjoint) (hlen : 4 ≤ r.raw.length) :
    r.relay = relayOf app r.tx r.raw r.fresh.db ∧ Enters app r.tx r.raw r.fresh r.locked := by
  rcases prepare_cases hd hlen r.fresh with ⟨b', hrun, -⟩ | ⟨tx, b', hdec, hrun, henters⟩
  · have := r.accepts.symm.trans hrun
    cases this
  · obtain rfl := Option.some.inj (r.decodes.symm.trans hdec)
    obtain ⟨hres, rfl⟩ := Prod.mk.inj (r.accepts.symm.trans hrun)
    have hrelay : (r.relay, r.tx.shards) = _ := Option.some.inj (Except.ok.inj hres)
    exact ⟨congrArg Prod.fst hrelay, henters⟩

theorem isolated_locked {b : Batch} (henters : Enters app r.tx r.raw r.fresh b) : r.Isolated b := by
  intro e he
  -- the values shipped are the balances of the keys
  have hzip : r.data.keys.zip r.data.values =
      (ownKeys app r.tx.toTransfer).map fun key => (key, r.fresh.db.balance key) := by
    simp [data, shipped, List.zip_map_right, List.map_zip_eq_zipWith]
  rw [hzip] at he
  obtain ⟨key, hk, rfl⟩ := List.mem_map.mp he
  have hmoney : (b.db.view key).money = r.fresh.db.balance key := henters.later.money key
  have hlocked := henters.locks r.lockable key hk
  show Value.mk (b.db.view key).money (b.db.view key).locked = _
  rw [hmoney, hlocked]

end LockedRun

/-- **Isolation of locked keys.** For disjoint key ranges, every run of `Execution` calls, every
transaction that was prepared and locked in it, and any steps since then of which none unlocks a key
of the transaction: the shard's own keys are still locked, with the balances in its relay. -/
theorem LockedRun.isolated (app : Application) (hd : app.Disjoint)
    (hid : app.chainId ∈ app.shardIDList) (r : LockedRun app)
    (hrel : ∀ key ∈ r.data.keys,
      Along (opStep app) (fun b op => key ∉ opReleases app b op) r.locked r.since) :
    r.relay = app.codecs.relayTx.marshal { datas := some r.data, txHash := app.txHash r.raw } ∧
      r.data.keys = ownKeys app r.tx.toTransfer ∧
      ∃ b, run (opStep app) r.locked r.since = some b ∧ r.Isolated b := by
  obtain ⟨hlen, b, hrun⟩ := r.exists_run hid
  obtain ⟨hrelay, henters⟩ := r.enters hd hlen
  refine ⟨hrelay, rfl, b, hrun, fun e he => ?_⟩
  have hlocked := r.isolated_locked henters e he
  have hbusy : isFree (r.locked.db.view e.1).locked = false := by
    rw [hlocked]
    rfl
  rw [view_of_run hd hbusy (hrel e.1 (List.of_mem_zip he).1) hrun, hlocked]

/-! ## A lock that holds, and one that does not -/

section

open Prepared

/-- Shard `A` prepares the payment. -/
def preparing : Body := { txs := [], crossShardTxs := [payment.rawTx], ctxs := [] }

/-- The relay of the payment from a shard. -/
def paymentRelay (shard : Str) : Bytes :=
  relayOf { twoShards with chainId := shard } crossPayment payment.rawTx (newDB emptyStore)

/-- Account `A` pays 5 to another account of its shard. -/
def spending : Bytes := uint32ToBytes txTransfer ++ wireCodecs.transferTx.marshal
  { Emulator.Minibank.payment [65] [65, 1] with shards := [[65]] }

/-- A block with one relay for the payment, and the local transaction. -/
def relaying (ctxs : List (List Bytes)) : Body := { txs := [spending], crossShardTxs := [], ctxs }

theorem prepare_payment :
    prepare twoShards payment.rawTx (newBatch emptyStore) =
      (.ok (some (paymentRelay [65], crossPayment.shards)),
        (prepare twoShards payment.rawTx (newBatch emptyStore)).2) :=
  Prod.ext (by decide +kernel) rfl

theorem lockable_payment : Lockable twoShards payment.rawTx (newDB emptyStore) :=
  ⟨payment.isTransfer, [], rfl⟩

theorem ops_preparing (ctxs : List (List Bytes)) :
    [preparing, relaying ctxs].flatMap (ops twoShards) =
      [.start, .start] ++ .prepare payment.rawTx :: (ops twoShards (relaying ctxs) ++ []) := by
  simp [ops, preparing, relayOps, twoShards]

/-- Shard `A` prepares the payment, and then executes a block with relays. -/
def paymentRun (ctxs : List (List Bytes))
    (hreturns : (executions twoShards [preparing, relaying ctxs] emptyStore).1 = .ok ()) :
    LockedRun twoShards where
  st := emptyStore
  bodies := [preparing, relaying ctxs]
  before := [.start, .start]
  raw := payment.rawTx
  since := ops twoShards (relaying ctxs)
  rest := []
  tx := crossPayment
  relay := paymentRelay [65]
  fresh := newBatch emptyStore
  locked := (prepare twoShards payment.rawTx (newBatch emptyStore)).2
  returns := hreturns
  steps := ops_preparing ctxs
  reaches := rfl
  decodes := payment.decodes
  accepts := prepare_payment
  lockable := lockable_payment

theorem returns_relay_B :
    (executions twoShards [preparing, relaying [[], [paymentRelay [66]]]] emptyStore).1 = .ok () := by
  decide +kernel

/-- The relay of `B` alone does not unlock account `A`, and the local transaction is refused. -/
theorem isolated_relay_B :
    ∃ b, run (opStep twoShards) (prepare twoShards payment.rawTx (newBatch emptyStore)).2
        (ops twoShards (relaying [[], [paymentRelay [66]]])) = some b ∧
      b.db.view [65] = ⟨1000000, wLockedIdentifier⟩ := by
  obtain ⟨-, -, b, hrun, hisolated⟩ := LockedRun.isolated twoShards disjoint_twoShards (by decide)
    (paymentRun [[], [paymentRelay [66]]] returns_relay_B) (by decide +kernel)
  exact ⟨b, hrun, hisolated ([65], 1000000) (by decide +kernel)⟩

/-- The shard's own relay alone unlocks account `A`, whose balance is then spent, though no relay of
`B` has been executed. -/
theorem not_isolated :
    crossPayment.shards = [[65], [66]] ∧
    ((newDB (executions twoShards [preparing] emptyStore).2).view [65]) =
      ⟨1000000, wLockedIdentifier⟩ ∧
    (executions twoShards [preparing, relaying [[paymentRelay [65]], []]] emptyStore).1 = .ok () ∧
    ((newDB (executions twoShards [preparing, relaying [[paymentRelay [65]], []]] emptyStore).2).view
      [65]) = ⟨999995, freeIdentifier⟩ := by
  decide +kernel

end

end Emulator.Urd.Minibank
