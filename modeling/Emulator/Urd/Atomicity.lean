import Emulator.Urd.Unlock

/-!
# Is a cross-shard transfer atomic?

Every participant of a cross-shard transfer prepares and locks it once and executes the relay of
every participant once, in an order of its own.

Because a set that came back from the store always looks complete, each relay after the lock tries
the transfer, and only the data of that relay and of the relays before the lock is at hand. Whether
a participant applies the transfer is decided by its order alone: `completes`.

* `locked_run` — the state of a participant after any valid order.
* `atomic_iff` — all or no participants apply the transfer exactly when the funds are missing, or
  the orders of all participants complete, or those of none do (participants on whose accounts the
  transfer has no effect apart).
* `money_run` — what all participants together lose or gain.
-/

namespace Emulator.Urd.Minibank

open Emulator.Action Emulator.Minibank

/-- What a participant does about the transfer: prepare and lock it, or execute a relay. -/
inductive Event
  | lock
  | relay (shard : Str)
  deriving DecidableEq, Repr

def before (order : List Event) (a b : Event) : Bool := order.idxOf a < order.idxOf b

/-- Whether the order of events at `shard` lets it apply the transfer: of the other participants'
relays at most one may come after the lock; if one does, the shard's own relay must come before
it, and if none does, the own relay must come after the lock. -/
def completes (shards : List Str) (shard : Str) (order : List Event) : Bool :=
  match shards.filter fun p => decide (p ≠ shard) && before order .lock (.relay p) with
  | [] => before order .lock (.relay shard)
  | [p] => before order (.relay shard) (.relay p)
  | _ => false

/-- A cross-shard transfer that every participant can prepare: each runs the same application on a
store of its own, with disjoint key ranges. -/
structure Prepared where
  /-- the application, apart from the identity of the shard -/
  base : Application
  tx : TransferTx
  rawTx : Bytes
  /-- the store of each shard, and the lock maps of the batch in which it prepares the transfer -/
  db : Str → PrefixStore
  wlocks : Str → List Str
  rlocks : Str → List Str
  disjoint : base.Disjoint
  codecs : base.codecs.Lawful
  isTransfer : bytesToUint32 rawTx = some txTransfer
  decodes : base.codecs.transferTx.unmarshal (rawTx.drop 4) = some tx
  isCross : 1 < tx.shards.length
  noRelays : ∀ shard ∈ tx.shards, (db shard).special (toRelayKey (base.txHash rawTx)) = none
  accepted : ∀ shard ∈ tx.shards, ∃ r,
    (preDoTransfer { base with chainId := shard } tx rawTx
      ⟨newDB (db shard), wlocks shard, rlocks shard⟩).1 = .ok r

namespace Prepared

variable (t : Prepared)

def app (shard : Str) : Application := { t.base with chainId := shard }

def hash : Bytes := t.base.txHash t.rawTx

/-- The relay that `pre_doTransfer` returns at a shard. -/
def relay (shard : Str) : Bytes :=
  match (preDoTransfer (t.app shard) t.tx t.rawTx
    ⟨newDB (t.db shard), t.wlocks shard, t.rlocks shard⟩).1 with
  | .ok r => r.1
  | .error _ => []

/-- One event at a shard. Preparing works on a database of its own over the same store. -/
def step (shard : Str) : Event → Act Unit
  | .lock => fun s =>
    let r := prepare (t.app shard) t.rawTx ⟨newDB s.db, t.wlocks shard, t.rlocks shard⟩
    (r.1.map fun _ => (), { s with db := r.2.db.db })
  | .relay p => ignoreError (executeRelay (t.app shard) (t.relay p) p)

def run (shard : Str) (order : List Event) : Except BankError Unit × AppDB :=
  forEach (t.step shard) order (newDB (t.db shard))

/-- Each participant locks the transfer once and executes every participant's relay once. -/
def ValidOrder (order : List Event) : Prop := order.Perm (.lock :: t.tx.shards.map .relay)

def balance (key : Str) : UInt32 :=
  ((t.base.searchKeyShard key).map fun p => (newDB (t.db p)).balance key).getD 0

/-- The balances the transfer should lead to. -/
def expected (key : Str) : UInt32 := Ledger.transfer t.balance t.tx.debits t.tx.credits key

def Funds : Prop := ∀ d ∈ t.tx.debits, d.2 ≤ t.balance d.1

instance : Decidable t.Funds := inferInstanceAs (Decidable (∀ d ∈ t.tx.debits, d.2 ≤ t.balance d.1))

/-- The accounts of the transfer at a shard. -/
def keysOf (shard : Str) : List Str := ownKeys (t.app shard) t.tx.toTransfer

/-- The shard has applied the transfer to its accounts. -/
def Applied (shard : Str) (s : AppDB) : Prop := ∀ key ∈ t.keysOf shard, s.balance key = t.expected key

/-- The shard's accounts are as they were. -/
def Untouched (shard : Str) (s : AppDB) : Prop :=
  ∀ key ∈ t.keysOf shard, s.balance key = t.balance key

/-- The transfer moves nothing at the shard: all its amounts there are zero. -/
def Idle (shard : Str) : Prop :=
  ∀ e ∈ t.tx.debits ++ t.tx.credits, e.1 ∈ t.keysOf shard → e.2 = 0

/-- All participants have applied the transfer, or none has. -/
def Atomic (order : Str → List Event) : Prop :=
  (∀ shard ∈ t.tx.shards, t.Applied shard (t.run shard (order shard)).2) ∨
    ∀ shard ∈ t.tx.shards, t.Untouched shard (t.run shard (order shard)).2

/-! ## What the shards agree on -/

variable {t} {shard p key q : Str} {early got late : List Str} {s s₁ : AppDB} {seen done : Bool}

theorem disjoint_app (shard : Str) : (t.app shard).Disjoint := ⟨t.disjoint.names, t.disjoint.ranges⟩

theorem lawful_app (shard : Str) : (t.app shard).codecs.Lawful := t.codecs

variable (hs : shard ∈ t.tx.shards)

include hs in
theorem preDoTransfer_eq :
    ∃ b', preDoTransfer (t.app shard) t.tx t.rawTx
        ⟨newDB (t.db shard), t.wlocks shard, t.rlocks shard⟩ =
          (.ok (t.relay shard, t.tx.shards), b') ∧
      Accepted (t.app shard) t.tx t.rawTx (newDB (t.db shard)) ∧
      t.relay shard = relayOf (t.app shard) t.tx t.rawTx (newDB (t.db shard)) ∧
      Touched (t.app shard) (newDB (t.db shard)) b'.db ∧
      ∀ key ∈ t.keysOf shard, (b'.db.db.data key).isSome = true := by
  obtain ⟨r, hr⟩ := t.accepted shard hs
  have hrun : preDoTransfer (t.app shard) t.tx t.rawTx
      ⟨newDB (t.db shard), t.wlocks shard, t.rlocks shard⟩ = (.ok r, _) := Prod.ext hr rfl
  obtain ⟨hacc, rfl, ht, hsome⟩ := accepted_of_preDoTransfer (disjoint_app shard) hrun
  have hrelay : t.relay shard = relayOf (t.app shard) t.tx t.rawTx (newDB (t.db shard)) := by
    unfold relay
    rw [hrun]
  exact ⟨_, by rw [hrelay]; exact hrun, hacc, hrelay, ht, fun key hk => (hsome key hk).2.2⟩

include hs in
theorem accepted_app :
    Accepted (t.app shard) t.tx t.rawTx (newDB (t.db shard)) :=
  (preDoTransfer_eq hs).choose_spec.2.1

theorem exists_shard : ∃ shard, shard ∈ t.tx.shards :=
  List.exists_mem_of_length_pos (Nat.lt_trans Nat.zero_lt_one t.isCross)

theorem shards_ne_nil : t.tx.shards ≠ [] :=
  List.ne_nil_of_length_pos (Nat.lt_trans Nat.zero_lt_one t.isCross)

theorem valid_tx : t.tx.Valid := (accepted_app t.exists_shard.choose_spec).valid

theorem mem_keysOf :
    key ∈ t.keysOf shard ↔ key ∈ t.tx.keys ∧ t.base.searchKeyShard key = some shard := by
  unfold keysOf ownKeys
  rw [List.mem_filter, searchKeyIntraShard_iff (disjoint_app shard)]
  rfl

/-- Every account of the transfer is at exactly one participant. -/
theorem exists_owner (hk : key ∈ t.tx.keys) : ∃ shard ∈ t.tx.shards, key ∈ t.keysOf shard := by
  have hacc := accepted_app t.exists_shard.choose_spec
  obtain ⟨p, hp⟩ := Option.isSome_iff_exists.mp (hacc.owned key hk)
  exact ⟨p, (hacc.mem_shards p).mpr ⟨key, hk, hp⟩, mem_keysOf.mpr ⟨hk, hp⟩⟩

include hs in
theorem keysOf_nonempty : ∃ key, key ∈ t.keysOf shard := by
  obtain ⟨key, hk, hp⟩ := ((accepted_app hs).mem_shards shard).mp hs
  exact ⟨key, mem_keysOf.mpr ⟨hk, hp⟩⟩

theorem balance_keysOf (hk : key ∈ t.keysOf shard) :
    t.balance key = (newDB (t.db shard)).balance key := by
  simp [balance, (mem_keysOf.mp hk).2]

theorem not_mem_keysOf (hne : p ≠ q) (hk : key ∈ t.keysOf p) : key ∉ t.keysOf q := by
  intro hq
  have := (mem_keysOf.mp hk).2.symm.trans (mem_keysOf.mp hq).2
  exact hne (by simpa using this)

/-- What shard `p` ships. -/
def datas (t : Prepared) (p : Str) : BankData := shipped (t.app p) t.tx.toTransfer (newDB (t.db p))

theorem length_datas (p : Str) : (t.datas p).keys.length = (t.datas p).values.length := by
  simp [datas, shipped]

theorem keys_datas (p : Str) : (t.datas p).keys = t.keysOf p := rfl

theorem entries_datas (p : Str) :
    (t.datas p).entries = (t.keysOf p).map fun key => (key, t.balance key) := by
  have hmap : (t.keysOf p).map (newDB (t.db p)).balance = (t.keysOf p).map t.balance :=
    List.map_congr_left fun key hk => (balance_keysOf hk).symm
  show (t.keysOf p).zip ((t.keysOf p).map (newDB (t.db p)).balance) = _
  rw [hmap, List.zip_map_right]
  simp [List.zip_eq_zipWith, List.zipWith_self]

theorem executeRelay_eq (shard : Str) (hp : p ∈ t.tx.shards) (s : AppDB) :
    executeRelay (t.app shard) (t.relay p) p s =
      unlockTransfer (t.app shard) { datas := some (t.datas p), txHash := t.hash } p s := by
  obtain ⟨-, -, -, hrelay, -, -⟩ := preDoTransfer_eq hp
  have hdec : (t.app shard).codecs.relayTx.unmarshal (t.relay p) =
      some { datas := some (t.datas p), txHash := t.hash } := by
    rw [hrelay]
    exact t.codecs.relayTx _
  unfold executeRelay
  rw [run_bind_ok (orThrow_eq_ok.mpr ⟨hdec, rfl⟩)]

/-! ## Before the lock -/

/-- The shard has not locked the transfer, and the relays of `early` have come. -/
structure Waiting (t : Prepared) (shard : Str) (early : List Str) (s : AppDB) : Prop where
  data : s.db.data = (t.db shard).data
  fresh : s.db.special t.hash = none
  relays : EarlyRelays (t.app shard) t.hash t.datas early s
  retainData : s.retainData = fun _ => none

include hs in
theorem waiting_newDB : t.Waiting shard [] (newDB (t.db shard)) :=
  ⟨rfl, (accepted_app hs).fresh, .inl ⟨rfl, t.noRelays shard hs⟩, rfl⟩

theorem run_ignoreError_ok {σ : Type} {x : Action BankError σ Unit} {s s' : σ} (h : x s = (.ok (), s')) :
    ignoreError x s = (.ok (), s') := by
  unfold ignoreError
  rw [run_bind_ok (run_attempt x s), h]
  rfl

theorem run_ignoreError {σ : Type} {x : Action BankError σ Unit} {s : σ} (h : (x s).1 ≠ .error .panic) :
    ignoreError x s = (.ok (), (x s).2) := by
  unfold ignoreError
  rw [run_bind_ok (run_attempt x s)]
  cases hr : (x s).1 with
  | ok u => rfl
  | error e =>
    cases e with
    | panic => exact absurd hr h
    | _ => rfl

theorem step_early (hp : p ∈ t.tx.shards) (h : t.Waiting shard early s) :
    ∃ s', t.step shard (.relay p) s = (.ok (), s') ∧ t.Waiting shard (p :: early) s' := by
  obtain ⟨bz, hrun, hearly⟩ := unlockTransfer_early (lawful_app shard) h.relays h.fresh p
  refine ⟨_, run_ignoreError_ok ((executeRelay_eq shard hp s).trans hrun), h.data, ?_, hearly,
    h.retainData⟩
  exact (Function.update_of_ne (toRelayKey_ne t.hash) _ _).trans h.fresh

/-! ## After the lock -/

/-- The shard has locked the transfer when the relays of `early` had come. Its accounts are free
again if `seen`, and have their new balances if `done`. -/
structure Locked (t : Prepared) (shard : Str) (early : List Str) (seen done : Bool)
    (s : AppDB) : Prop where
  set : s.db.special t.hash =
    some (t.base.codecs.relayTxSet.marshal (relaySet t.tx t.rawTx t.datas early))
  isSome : ∀ key ∈ t.keysOf shard, (s.db.data key).isSome = true
  money : ∀ key ∈ t.keysOf shard,
    (s.view key).money = if done then t.expected key else t.balance key
  locked : ∀ key ∈ t.keysOf shard,
    (s.view key).locked = if seen then freeIdentifier else wLockedIdentifier
  retainData : s.retainData = fun _ => none

theorem four_le_length : 4 ≤ t.rawTx.length := by
  have h := t.isTransfer
  unfold bytesToUint32 at h
  split at h
  · next heq => simp [heq]
  · cases h

theorem newTransferTxFromBytes_eq (shard : Str) {σ : Type} (s : σ) :
    newTransferTxFromBytes (t.app shard) t.rawTx s = (.ok t.tx, s) := by
  rw [newTransferTxFromBytes, if_neg (Nat.not_lt.mpr four_le_length)]
  exact orThrow_eq_ok.mpr ⟨t.decodes, rfl⟩

/-- The state after `lockTransfer`. -/
def lockedDB (t : Prepared) (shard : Str) (early : List Str) (s : AppDB) : AppDB :=
  (s.setSpecial t.hash (t.base.codecs.relayTxSet.marshal
    (relaySet t.tx t.rawTx t.datas early))).setLocks wLockedIdentifier (t.keysOf shard)

theorem view_lockedDB (hsome : ∀ key ∈ t.keysOf shard, (s.db.data key).isSome = true)
    (hk : key ∈ t.keysOf shard) :
    (t.lockedDB shard early s).view key = { s.view key with locked := wLockedIdentifier } := by
  unfold lockedDB
  rw [view_setLocks (by exact hsome), if_pos hk]
  rfl

theorem special_lockedDB (shard : Str) (early : List Str) (s : AppDB) :
    (t.lockedDB shard early s).db.special t.hash = some (t.base.codecs.relayTxSet.marshal
      (relaySet t.tx t.rawTx t.datas early)) := by
  unfold lockedDB
  rw [(setLocks_frame _ _ _).1]
  exact Function.update_self ..

theorem executeCrossShard_eq (h : EarlyRelays (t.app shard) t.hash t.datas early s) :
    executeCrossShard (t.app shard) t.rawTx s = (.ok (), t.lockedDB shard early s) := by
  unfold executeCrossShard
  rw [run_bind_ok (orThrow_eq_ok.mpr ⟨t.isTransfer, rfl⟩),
    run_bind_ok (require_eq_ok.mpr ⟨by simp, rfl⟩), run_bind_ok (newTransferTxFromBytes_eq shard s),
    run_bind_ok (require_eq_ok.mpr ⟨decide_eq_true t.isCross, rfl⟩)]
  exact lockTransfer_eq (lawful_app shard) h

/-- Preparing succeeds whatever relays have come, and locks the transfer. -/
theorem prepare_eq {b b' : Batch} {r : Bytes × List Str}
    (hpre : preDoTransfer (t.app shard) t.tx t.rawTx b = (.ok r, b'))
    (h : EarlyRelays (t.app shard) t.hash t.datas early b'.db) :
    prepare (t.app shard) t.rawTx b =
      (.ok (some r), { b' with db := t.lockedDB shard early b'.db }) := by
  have hlock : onDB (executeCrossShard (t.app shard) t.rawTx) b' =
      (.ok (), { b' with db := t.lockedDB shard early b'.db }) := by
    unfold onDB
    rw [executeCrossShard_eq h]
  unfold prepare
  rw [run_bind_ok (run_attempt _ _), newTransferTxFromBytes_eq]
  simp only [if_neg (Nat.not_le.mpr t.isCross)]
  rw [run_bind_ok (run_attempt _ _), hpre]
  simp only
  rw [run_bind_ok (run_ignoreError_ok hlock)]
  rfl

include hs in
theorem step_lock (h : t.Waiting shard early s) :
    ∃ s', t.step shard .lock s = (.ok (), s') ∧ t.Locked shard early false false s' := by
  obtain ⟨b', hpre, hacc, -, htouch, hsome⟩ := preDoTransfer_eq hs
  have hfresh : s.db.special ((t.app shard).txHash t.rawTx) =
      (newDB (t.db shard)).db.special ((t.app shard).txHash t.rawTx) :=
    h.fresh.trans hacc.fresh.symm
  have hdb : (⟨newDB s.db, t.wlocks shard, t.rlocks shard⟩ : Batch) =
      Batch.withSpecial s.db.special ⟨newDB (t.db shard), t.wlocks shard, t.rlocks shard⟩ := by
    simp only [Batch.withSpecial, AppDB.withSpecial, newDB, ← h.data]
  have hframe : preDoTransfer (t.app shard) t.tx t.rawTx
      ⟨newDB s.db, t.wlocks shard, t.rlocks shard⟩ =
        (.ok (t.relay shard, t.tx.shards), b'.withSpecial s.db.special) := by
    rw [hdb]
    exact (preDoTransfer_frame hfresh).trans (by rw [hpre])
  refine ⟨{ s with db := (t.lockedDB shard early (b'.withSpecial s.db.special).db).db }, ?_, ?_⟩
  · show ((prepare (t.app shard) t.rawTx ⟨newDB s.db, t.wlocks shard, t.rlocks shard⟩).1.map
      fun _ => (), _) = _
    rw [prepare_eq hframe h.relays]
    rfl
  · have hview key := @view_lockedDB t shard key early (b'.withSpecial s.db.special).db hsome
    refine ⟨special_lockedDB shard early _, fun key hk => ?_, fun key hk => ?_, fun key hk => ?_,
      h.retainData⟩
    · exact (isSome_setLocks _ _ _ key).trans (hsome key hk)
    · refine (congrArg Value.money (hview key hk)).trans ?_
      show (b'.db.view key).money = _
      rw [htouch.view]
      exact (balance_keysOf hk).symm
    · exact congrArg Value.locked (hview key hk)

/-! ## A relay after the lock -/

/-- The data of every other participant is among that of `got`. -/
def Covers (t : Prepared) (shard : Str) (got : List Str) : Prop :=
  ∀ q ∈ t.tx.shards, q ≠ shard → q ∈ got

instance (shard : Str) (got : List Str) : Decidable (t.Covers shard got) :=
  inferInstanceAs (Decidable (∀ q ∈ t.tx.shards, q ≠ shard → q ∈ got))

theorem keys_present : key ∈ (present t.datas got p).keys ↔ p ∈ got ∧ key ∈ t.keysOf p := by
  unfold present
  split
  · next hp => simp [hp, keys_datas]
  · next hp => simp [hp, BankData.none]

theorem mem_loaded {w : Str × UInt32} :
    (w ∈ t.tx.shards.flatMap fun p => (present t.datas got p).entries) ↔
      ∃ p ∈ t.tx.shards, p ∈ got ∧ w.1 ∈ t.keysOf p ∧ w.2 = t.balance w.1 := by
  rw [List.mem_flatMap]
  refine exists_congr fun p => and_congr_right fun _ => ?_
  unfold present
  split
  · next hp =>
    rw [entries_datas, List.mem_map]
    constructor
    · rintro ⟨key, hk, rfl⟩
      exact ⟨hp, hk, rfl⟩
    · rintro ⟨-, hk, hw⟩
      exact ⟨w.1, hk, by rw [← hw]⟩
  · next hp => simp [hp, BankData.none, BankData.entries]

section

variable (hs : shard ∈ t.tx.shards)
  (hl : Loaded (t.app shard) t.tx.shards (present t.datas got) s s₁)

include hs hl

/-- What is found for an account after the data of `got` was loaded. -/
theorem look_loaded (hret : s.retainData = fun _ => none) (hq : q ∈ t.tx.shards) (hk : key ∈ t.keysOf q) :
    look (t.app shard) s₁ key =
      if q = shard then
        some (if shard ∈ got then { s.view key with locked := freeIdentifier } else s.view key)
      else if q ∈ got then some ⟨t.balance key, freeIdentifier⟩ else none := by
  unfold look
  by_cases hown : q = shard
  · subst hown
    have hin : (t.app q).searchKeyIntraShard key = true := (List.mem_filter.mp hk).2
    have hc : ((t.app q).chainId ∈ t.tx.shards ∧ key ∈ (present t.datas got (t.app q).chainId).keys) ↔
        q ∈ got := by
      rw [keys_present]
      exact ⟨fun h => h.2.1, fun h => ⟨hq, h, hk⟩⟩
    rw [if_pos hin, if_pos rfl, hl.view]
    simp only [hc]
  · have hin : ¬ (t.app shard).searchKeyIntraShard key = true := by
      intro hin
      rw [searchKeyIntraShard_iff (disjoint_app shard)] at hin
      have := (mem_keysOf.mp hk).2.symm.trans hin
      exact hown (by simpa [app] using this)
    have hmem : key ∈ (t.tx.shards.flatMap fun p => (present t.datas got p).entries).map Prod.fst ↔
        q ∈ got := by
      rw [List.mem_map]
      constructor
      · rintro ⟨w, hw, rfl⟩
        obtain ⟨p, hp, hpg, hkp, -⟩ := mem_loaded.mp hw
        by_cases hpq : p = q
        · exact hpq ▸ hpg
        · exact absurd hk (not_mem_keysOf hpq hkp)
      · intro hqg
        exact ⟨(key, t.balance key), mem_loaded.mpr ⟨q, hq, hqg, hk, rfl⟩, rfl⟩
    have hval : ∀ w ∈ t.tx.shards.flatMap fun p => (present t.datas got p).entries,
        w.1 = key → w.2 = t.balance key := by
      rintro w hw rfl
      obtain ⟨-, -, -, -, hv⟩ := mem_loaded.mp hw
      exact hv
    rw [if_neg hin, if_neg hown, hl.retainData, hret, Ledger.last?_eq_ite hval]
    by_cases hqg : q ∈ got <;> simp only [hmem, hqg, if_true, if_false] <;> rfl

theorem usable_loaded (h : t.Locked shard early seen done s)
    (hq : q ∈ t.tx.shards) (hk : key ∈ t.keysOf q) :
    usable (t.app shard) s₁ key = true ↔
      if q = shard then seen = true ∨ shard ∈ got else q ∈ got := by
  unfold usable
  rw [look_loaded hs hl h.retainData hq hk]
  by_cases hown : q = shard
  · subst hown
    have hlock := h.locked key hk
    rw [if_pos rfl, if_pos rfl]
    by_cases hg : q ∈ got
    · simp [hg, isFree]
    · cases seen
      · simp [hg, isFree, hlock]
        decide
      · simp [hg, isFree, hlock]
  · rw [if_neg hown, if_neg hown]
    by_cases hg : q ∈ got <;> simp [hg, isFree]

theorem ledger_loaded (h : t.Locked shard early seen false s)
    (hq : q ∈ t.tx.shards) (hk : key ∈ t.keysOf q) (hgot : q ≠ shard → q ∈ got) :
    ledger (t.app shard) s₁ key = t.balance key := by
  unfold ledger
  rw [look_loaded hs hl h.retainData hq hk]
  by_cases hown : q = shard
  · subst hown
    have hm : (s.view key).money = t.balance key := h.money key hk
    by_cases hg : q ∈ got <;> simp [hg, hm]
  · simp [hown, hgot hown]

theorem covers_of_ready (h : t.Locked shard early seen done s)
    (hr : Ready (t.app shard) t.tx s₁) : (seen = true ∨ shard ∈ got) ∧ t.Covers shard got := by
  have huse : ∀ q ∈ t.tx.shards, if q = shard then seen = true ∨ shard ∈ got else q ∈ got := by
    intro q hq
    obtain ⟨key, hk⟩ := keysOf_nonempty hq
    exact (usable_loaded hs hl h hq hk).mp (hr.usable_of_mem (mem_keysOf.mp hk).1)
  refine ⟨by simpa using huse shard hs, fun q hq hne => ?_⟩
  simpa [hne] using huse q hq

/-- Before the transfer is applied, it is ready exactly when the shard's accounts are free, the
data of all other participants is there, and the funds suffice. -/
theorem ready_iff (h : t.Locked shard early seen false s) :
    Ready (t.app shard) t.tx s₁ ↔ (seen = true ∨ shard ∈ got) ∧ t.Covers shard got ∧ t.Funds := by
  constructor
  · intro hr
    obtain ⟨hseen, hcov⟩ := covers_of_ready hs hl h hr
    refine ⟨hseen, hcov, fun d hd => ?_⟩
    obtain ⟨q, hq, hk⟩ := exists_owner (Transfer.mem_keys_of_debit hd)
    have := (Bool.and_eq_true_iff.mp (List.all_eq_true.mp hr.debits d hd)).2
    rw [ledger_loaded hs hl h hq hk (hcov q hq)] at this
    exact of_decide_eq_true this
  · rintro ⟨hseen, hcov, hfunds⟩
    have huse : ∀ key ∈ t.tx.keys, usable (t.app shard) s₁ key = true := by
      intro key hkey
      obtain ⟨q, hq, hk⟩ := exists_owner hkey
      rw [usable_loaded hs hl h hq hk]
      split
      · exact hseen
      · next hne => exact hcov q hq hne
    refine ⟨hs, valid_tx, List.all_eq_true.mpr fun d hd => ?_, List.all_eq_true.mpr fun c hc => ?_⟩
    · obtain ⟨q, hq, hk⟩ := exists_owner (Transfer.mem_keys_of_debit hd)
      refine Bool.and_eq_true_iff.mpr ⟨huse d.1 (Transfer.mem_keys_of_debit hd), ?_⟩
      rw [ledger_loaded hs hl h hq hk (hcov q hq)]
      exact decide_eq_true (hfunds d hd)
    · exact huse c.1 (Transfer.mem_keys_of_credit hc)

theorem locked_loaded (h : t.Locked shard early seen done s) :
    t.Locked shard early (seen || decide (shard ∈ got)) done s₁.clear := by
  have hview : ∀ key ∈ t.keysOf shard, s₁.view key =
      if shard ∈ got then { s.view key with locked := freeIdentifier } else s.view key := by
    intro key hk
    have hlook := look_loaded hs hl h.retainData hs hk
    have hin : (t.app shard).searchKeyIntraShard key = true := (List.mem_filter.mp hk).2
    rw [look, if_pos hin, if_pos rfl] at hlook
    exact Option.some.inj hlook
  refine ⟨(congrFun hl.special t.hash).trans h.set, fun key hk => (hl.isSome key).trans (h.isSome key hk),
    fun key hk => ?_, fun key hk => ?_, rfl⟩
  · rw [← h.money key hk]
    refine (congrArg Value.money (hview key hk)).trans ?_
    split <;> rfl
  · refine (congrArg Value.locked (hview key hk)).trans ?_
    by_cases hg : shard ∈ got <;> simp [hg, h.locked key hk]

end

theorem Locked.touched {s' : AppDB} (h : t.Locked shard early seen done s.clear)
    (ht : Touched (t.app shard) s s') : t.Locked shard early seen done s'.clear := by
  have hview : s'.clear.view = s.clear.view := ht.view
  refine ⟨(congrFun ht.special t.hash).trans h.set, fun key hk => ht.isSome (h.isSome key hk), ?_, ?_, rfl⟩
  · rw [hview]
    exact h.money
  · rw [hview]
    exact h.locked

theorem Locked.applied {s' : AppDB} (h : t.Locked shard early true false s.clear)
    (hd : Done (t.app shard) t.tx s s') : t.Locked shard early true true s'.clear := by
  refine ⟨(congrFun hd.special t.hash).trans h.set, fun key hk => hd.isSome key (h.isSome key hk),
    fun key hk => ?_, fun key hk => ?_, rfl⟩
  · have hin : (t.app shard).searchKeyIntraShard key = true := (List.mem_filter.mp hk).2
    refine (hd.money key hin).trans (Ledger.transfer_congr _ _ ?_)
    have hm : (s.view key).money = t.balance key := h.money key hk
    simp [ledger, look, hin, hm]
  · have hin : (t.app shard).searchKeyIntraShard key = true := (List.mem_filter.mp hk).2
    exact (hd.locked key hin).trans (if_pos (mem_keysOf.mp hk).1)

include hs in
/-- A relay after the lock applies the transfer if it is ready, and otherwise does no more than
free the shard's accounts. -/
theorem step_late (hp : p ∈ t.tx.shards)
    (h : t.Locked shard early seen done s) (hdone : done = true → ¬ t.Covers shard (p :: early)) :
    ∃ s', t.step shard (.relay p) s = (.ok (), s') ∧
      t.Locked shard early (seen || decide (shard ∈ p :: early))
        (done || ((seen || decide (shard ∈ p :: early)) && decide (t.Covers shard (p :: early)) &&
          decide t.Funds)) s' := by
  obtain ⟨s₁, hl, hrun⟩ := unlockTransfer_late (lawful_app shard) shards_ne_nil t.decodes
    four_le_length h.set length_datas h.isSome p
  have hstep : t.step shard (.relay p) s = (.ok (), (doTransfer (t.app shard) t.tx s₁).2.clear) := by
    have hrelay := (executeRelay_eq shard hp s).trans hrun
    refine (run_ignoreError ?_).trans (by rw [hrelay])
    rw [hrelay]
    exact avoids_panic_doTransfer t.tx s₁
  refine ⟨_, hstep, ?_⟩
  have hloaded := locked_loaded hs hl h
  by_cases hr : Ready (t.app shard) t.tx s₁
  · obtain ⟨hseen, hcov⟩ := covers_of_ready hs hl h hr
    cases done with
    | true => exact absurd hcov (hdone rfl)
    | false =>
      obtain ⟨-, -, hfunds⟩ := (ready_iff hs hl h).mp hr
      have hsb : (seen || decide (shard ∈ p :: early)) = true := by simpa using hseen
      obtain ⟨s₂, hok, hd⟩ := doTransfer_ok hr
      rw [hsb] at hloaded ⊢
      simp only [hok, hcov, hfunds, decide_true, Bool.and_self, Bool.or_true]
      exact hloaded.applied hd
  · obtain ⟨e, s₂, herr, ht⟩ := doTransfer_error hr
    rw [herr]
    have hno : (done || ((seen || decide (shard ∈ p :: early)) &&
        decide (t.Covers shard (p :: early)) && decide t.Funds)) = done := by
      cases done with
      | true => rfl
      | false =>
        rw [ready_iff hs hl h] at hr
        simpa [and_assoc] using hr
    rw [hno]
    exact hloaded.touched ht

/-! ## A whole run -/

/-- Whether one of the relays `late` after the lock applies the transfer, if the funds suffice. -/
def appliesLate (t : Prepared) (shard : Str) (early : List Str) : Bool → List Str → Bool
  | _, [] => false
  | seen, p :: late =>
    let seen' := seen || decide (shard ∈ p :: early)
    (seen' && decide (t.Covers shard (p :: early))) || appliesLate t shard early seen' late

/-- Whether one of the relays `late` frees the shard's accounts: the shard's own data is that of the
relay, or had come before the lock. -/
def freesLate (shard : Str) (early late : List Str) : Bool :=
  late.any fun p => decide (shard ∈ p :: early)

theorem freesLate_cons (shard p : Str) (early late : List Str) :
    freesLate shard early (p :: late) =
      (decide (shard ∈ p :: early) || freesLate shard early late) := List.any_cons

/-- If the shard's own relay is executed at all, the accounts are freed by some relay after the
lock, provided there is one. -/
theorem freesLate_eq (hs : shard ∈ early ++ late) : freesLate shard early late = !late.isEmpty := by
  rw [Bool.eq_iff_iff, freesLate, List.any_eq_true, Bool.not_eq_true', List.isEmpty_eq_false_iff]
  constructor
  · intro h hnil
    obtain ⟨p, hp, -⟩ := h
    rw [hnil] at hp
    cases hp
  · intro hne
    rcases List.mem_append.mp hs with he | hl
    · obtain ⟨p, hp⟩ := List.exists_mem_of_ne_nil late hne
      exact ⟨p, hp, by simp [he]⟩
    · exact ⟨shard, hl, by simp⟩

include hs in
/-- Once applied, the transfer is not applied again: of the relays that come later none completes
the data. -/
theorem run_applied (hmem : ∀ p ∈ late, p ∈ t.tx.shards)
    (hcov : ∀ p ∈ late, ¬ t.Covers shard (p :: early)) (h : t.Locked shard early seen true s) :
    ∃ s', forEach (t.step shard) (late.map .relay) s = (.ok (), s') ∧
      t.Locked shard early (seen || freesLate shard early late) true s' := by
  induction late generalizing seen s with
  | nil => exact ⟨s, rfl, by simpa [freesLate] using h⟩
  | cons p late ih =>
    obtain ⟨s₁, hrun, h₁⟩ := step_late hs (hmem p List.mem_cons_self) h
      fun _ => hcov p List.mem_cons_self
    obtain ⟨s', hrest, h'⟩ := ih (fun q hq => hmem q (List.mem_cons_of_mem p hq))
      (fun q hq => hcov q (List.mem_cons_of_mem p hq)) h₁
    refine ⟨s', ?_, ?_⟩
    · rw [List.map_cons, forEach, run_bind_ok hrun, hrest]
    · rw [freesLate_cons, ← Bool.or_assoc]
      exact h'

/-- A relay that completes the data is the last one that can: a later one would lack its data, or
bring data that was complete without it. -/
theorem not_covers_later (hnd : (early ++ p :: late).Nodup)
    (hmem : ∀ r ∈ p :: late, r ∈ t.tx.shards) (hcov : t.Covers shard (p :: early)) (hq : q ∈ late) :
    ¬ t.Covers shard (q :: early) := by
  intro hcov'
  obtain ⟨-, hpl, hdisj⟩ := List.nodup_append.mp hnd
  have hqp : q ≠ p := fun h => (List.nodup_cons.mp hpl).1 (h ▸ hq)
  have hp : p ∉ early := fun h => hdisj p h p List.mem_cons_self rfl
  have hqe : q ∉ early := fun h => hdisj q h q (List.mem_cons_of_mem p hq) rfl
  by_cases hown : p = shard
  · have hqs : q ≠ shard := fun h => hqp (h.trans hown.symm)
    rcases List.mem_cons.mp (hcov q (hmem q (List.mem_cons_of_mem p hq)) hqs) with h | h
    · exact hqp h
    · exact hqe h
  · rcases List.mem_cons.mp (hcov' p (hmem p List.mem_cons_self) hown) with h | h
    · exact hqp h.symm
    · exact hp h

include hs in
theorem run_late (hmem : ∀ p ∈ late, p ∈ t.tx.shards)
    (hnd : (early ++ late).Nodup) (h : t.Locked shard early seen false s) :
    ∃ s', forEach (t.step shard) (late.map .relay) s = (.ok (), s') ∧
      t.Locked shard early (seen || freesLate shard early late)
        (t.appliesLate shard early seen late && decide t.Funds) s' := by
  induction late generalizing seen s with
  | nil => exact ⟨s, rfl, by simpa [freesLate, appliesLate] using h⟩
  | cons p late ih =>
    obtain ⟨s₁, hrun, h₁⟩ := step_late hs (hmem p List.mem_cons_self) h fun hd => by cases hd
    have hmem' : ∀ q ∈ late, q ∈ t.tx.shards := fun q hq => hmem q (List.mem_cons_of_mem p hq)
    rw [Bool.false_or] at h₁
    rw [List.map_cons, forEach, run_bind_ok hrun, appliesLate, freesLate_cons, ← Bool.or_assoc]
    cases hf : (seen || decide (shard ∈ p :: early)) && decide (t.Covers shard (p :: early)) &&
        decide t.Funds with
    | true =>
      -- applied by this relay, and by no later one
      rw [hf] at h₁
      simp only [Bool.and_eq_true, decide_eq_true_eq] at hf
      obtain ⟨⟨hseen, hcov⟩, hfunds⟩ := hf
      obtain ⟨s', hrest, h'⟩ := run_applied hs hmem'
        (fun q hq => not_covers_later hnd hmem hcov hq) h₁
      refine ⟨s', hrest, ?_⟩
      simp only [hseen, hcov, hfunds, decide_true, Bool.and_self, Bool.true_or] at h' ⊢
      exact h'
    | false =>
      rw [hf] at h₁
      have hnd' : (early ++ late).Nodup :=
        hnd.sublist ((List.sublist_cons_self p late).append_left early)
      obtain ⟨s', hrest, h'⟩ := ih hmem' hnd' h₁
      refine ⟨s', hrest, ?_⟩
      rw [Bool.and_or_distrib_right, hf, Bool.false_or]
      exact h'

theorem run_early {rest : List Str} (hmem : ∀ p ∈ rest, p ∈ t.tx.shards)
    (h : t.Waiting shard early s) :
    ∃ s', forEach (t.step shard) (rest.map .relay) s = (.ok (), s') ∧
      t.Waiting shard (rest.reverse ++ early) s' := by
  induction rest generalizing early s with
  | nil => exact ⟨s, rfl, h⟩
  | cons p rest ih =>
    obtain ⟨s₁, hrun, h₁⟩ := step_early (hmem p List.mem_cons_self) h
    obtain ⟨s', hrest, h'⟩ := ih (fun q hq => hmem q (List.mem_cons_of_mem p hq)) h₁
    refine ⟨s', ?_, by simpa using h'⟩
    rw [List.map_cons, forEach, run_bind_ok hrun, hrest]

/-! ## Orders -/

/-- The relays of `early`, the lock, and the relays of `late`. -/
def orderOf (early late : List Str) : List Event :=
  early.map Event.relay ++ Event.lock :: late.map Event.relay

/-- A valid order is some relays, the lock, and the remaining relays. -/
theorem ValidOrder.split {order : List Event} (h : t.ValidOrder order) :
    ∃ early late : List Str, order = orderOf early late ∧
      (early ++ late).Perm t.tx.shards := by
  have hlock : Event.lock ∈ order := h.mem_iff.mpr List.mem_cons_self
  obtain ⟨as, bs, rfl⟩ := List.append_of_mem hlock
  have hperm : (as ++ bs).Perm (t.tx.shards.map .relay) :=
    ((List.perm_middle.symm.trans h).cons_inv)
  have hrelay : ∀ e ∈ as ++ bs, ∃ p, Event.relay p = e := fun e he => by
    obtain ⟨p, -, hp⟩ := List.mem_map.mp (hperm.mem_iff.mp he)
    exact ⟨p, hp⟩
  have hmap : ∀ es, (∀ e ∈ es, e ∈ as ++ bs) → ∃ ps : List Str, ps.map Event.relay = es := by
    intro es hes
    rw [← Set.mem_range, Set.range_list_map]
    exact fun e he => hrelay e (hes e he)
  obtain ⟨early, rfl⟩ := hmap as fun e he => List.mem_append_left _ he
  obtain ⟨late, rfl⟩ := hmap bs fun e he => List.mem_append_right _ he
  refine ⟨early, late, rfl, ?_⟩
  rw [← List.map_append] at hperm
  exact (List.map_perm_map_iff fun p q h => by injection h).mp hperm

theorem idxOf_relay (ps : List Str) (p : Str) : (ps.map Event.relay).idxOf (.relay p) = ps.idxOf p := by
  induction ps with
  | nil => rfl
  | cons q ps ih =>
    by_cases h : q = p
    · simp [h]
    · rw [List.map_cons, List.idxOf_cons_ne _ (fun h' => h (by injection h')), ih,
        List.idxOf_cons_ne _ h]

section

variable {early late : List Str}

theorem idxOf_lock : (orderOf early late).idxOf .lock = early.length := by
  rw [orderOf, List.idxOf_append_of_notMem (by simp), List.idxOf_cons_self, List.length_map, Nat.add_zero]

theorem idxOf_early (hp : p ∈ early) : (orderOf early late).idxOf (.relay p) = early.idxOf p := by
  rw [orderOf, List.idxOf_append_of_mem (List.mem_map_of_mem hp), idxOf_relay]

theorem idxOf_late (hp : p ∉ early) :
    (orderOf early late).idxOf (.relay p) =
      early.length + (late.idxOf p + 1) := by
  rw [orderOf, List.idxOf_append_of_notMem (by simpa using hp), List.idxOf_cons_ne _ (by simp), idxOf_relay,
    List.length_map]

theorem before_lock : before (orderOf early late) .lock (.relay p) = true ↔ p ∉ early := by
  rw [before, decide_eq_true_iff, idxOf_lock]
  by_cases hp : p ∈ early
  · have := List.idxOf_lt_length_of_mem hp
    rw [idxOf_early hp]
    simp only [hp, not_true_eq_false, iff_false]
    omega
  · rw [idxOf_late hp]
    simp only [hp, not_false_eq_true, iff_true]
    omega

theorem before_relay {a b : List Str} (hp : p ∉ early) (ha : p ∉ a) :
    before (orderOf early (a ++ p :: b)) (.relay shard) (.relay p) = true ↔
      shard ∈ early ∨ shard ∈ a := by
  have hidx : (a ++ p :: b).idxOf p = a.length := by
    rw [List.idxOf_append_of_notMem ha, List.idxOf_cons_self, Nat.add_zero]
  rw [before, decide_eq_true_iff, idxOf_late hp, hidx]
  by_cases hs : shard ∈ early
  · have := List.idxOf_lt_length_of_mem hs
    rw [idxOf_early hs]
    simp only [hs, true_or, iff_true]
    omega
  · rw [idxOf_late hs]
    by_cases hsa : shard ∈ a
    · have := List.idxOf_lt_length_of_mem hsa
      rw [List.idxOf_append_of_mem hsa]
      simp only [hsa, or_true, iff_true]
      omega
    · rw [List.idxOf_append_of_notMem hsa]
      simp only [hs, hsa, or_self, iff_false]
      omega

end

/-- One of the relays after the lock applies the transfer: its own is there, and it completes the
data. -/
theorem appliesLate_iff :
    t.appliesLate shard early seen late = true ↔ ∃ a p b, late = a ++ p :: b ∧
      (seen = true ∨ shard ∈ early ∨ shard ∈ a ∨ p = shard) ∧ t.Covers shard (p :: early) := by
  induction late generalizing seen with
  | nil => simp [appliesLate]
  | cons q late ih =>
    rw [appliesLate, Bool.or_eq_true, ih, Bool.and_eq_true, decide_eq_true_iff, Bool.or_eq_true,
      decide_eq_true_iff, List.mem_cons]
    constructor
    · rintro (⟨hseen, hcov⟩ | ⟨a, p, b, rfl, hseen, hcov⟩)
      · exact ⟨[], q, late, rfl, by tauto, hcov⟩
      · refine ⟨q :: a, p, b, rfl, ?_, hcov⟩
        rw [List.mem_cons]
        tauto
    · rintro ⟨a, p, b, heq, hseen, hcov⟩
      rcases List.cons_eq_append_iff.mp heq with ⟨rfl, h⟩ | ⟨a', rfl, rfl⟩
      · obtain ⟨rfl, rfl⟩ : p = q ∧ b = late := by simpa using h
        refine .inl ⟨?_, hcov⟩
        rw [List.mem_nil_iff] at hseen
        tauto
      · refine .inr ⟨a', p, b, rfl, ?_, hcov⟩
        rw [List.mem_cons] at hseen
        tauto

include hs in
/-- The order alone decides whether a relay after the lock applies the transfer. -/
theorem appliesLate_eq_completes (hperm : (early ++ late).Perm t.tx.shards) (hnd : t.tx.shards.Nodup) :
    t.appliesLate shard early.reverse false late =
      completes t.tx.shards shard (orderOf early late) := by
  have hmem : ∀ q, q ∈ t.tx.shards ↔ q ∈ early ∨ q ∈ late := fun q =>
    hperm.mem_iff.symm.trans List.mem_append
  obtain ⟨-, hndl, hdisj⟩ := List.nodup_append.mp (hperm.nodup_iff.mpr hnd)
  have hlate : ∀ q ∈ late, q ∉ early := fun q hq he => hdisj q he q hq rfl
  unfold completes
  generalize hL : (t.tx.shards.filter fun p => decide (p ≠ shard) &&
    before (orderOf early late) .lock (.relay p)) = L
  -- the other participants whose relays come after the lock
  have hmemL : ∀ q, q ∈ L ↔ q ∈ t.tx.shards ∧ q ≠ shard ∧ q ∉ early := by
    intro q
    rw [← hL, List.mem_filter, Bool.and_eq_true, before_lock, decide_eq_true_iff]
  have hndL : L.Nodup := hL ▸ hnd.filter _
  have hcovers : ∀ p, t.Covers shard (p :: early.reverse) ↔ ∀ q ∈ L, q = p := by
    intro p
    constructor
    · intro h q hq
      obtain ⟨hqs, hne, hqe⟩ := (hmemL q).mp hq
      have := h q hqs hne
      simpa [hqe] using this
    · intro h q hqs hne
      by_cases hqe : q ∈ early
      · simp [hqe]
      · simp [h q ((hmemL q).mpr ⟨hqs, hne, hqe⟩)]
  rw [Bool.eq_iff_iff, appliesLate_iff]
  simp only [Bool.false_eq_true, false_or, List.mem_reverse, hcovers]
  match L, hmemL, hndL with
  | [], hmemL, _ =>
    rw [before_lock]
    constructor
    · rintro ⟨a, p, b, rfl, hseen, -⟩
      have hp : p ∈ a ++ p :: b := by simp
      by_cases hps : p = shard
      · exact hps ▸ hlate p hp
      · exact absurd ((hmemL p).mpr ⟨(hmem p).mpr (.inr hp), hps, hlate p hp⟩) List.not_mem_nil
    · intro hse
      obtain ⟨a, b, rfl⟩ := List.append_of_mem (((hmem shard).mp hs).resolve_left hse)
      exact ⟨a, shard, b, rfl, by simp, by simp⟩
  | [p], hmemL, _ =>
    obtain ⟨hps, hne, hpe⟩ := (hmemL p).mp List.mem_cons_self
    obtain ⟨a, b, rfl⟩ := List.append_of_mem (((hmem p).mp hps).resolve_left hpe)
    have hpa : ∀ {a b : List Str}, (a ++ p :: b).Nodup → p ∉ a := fun h hpa =>
      (List.nodup_append.mp h).2.2 p hpa p List.mem_cons_self rfl
    constructor
    · rintro ⟨a', p', b', heq, hseen, hcov⟩
      obtain rfl : p = p' := hcov p List.mem_cons_self
      rw [heq] at hndl ⊢
      rw [before_relay hpe (hpa hndl)]
      tauto
    · intro hb
      rw [before_relay hpe (hpa hndl)] at hb
      exact ⟨a, p, b, rfl, by tauto, by simp⟩
  | p :: q :: L, hmemL, hndL =>
    refine iff_of_false ?_ (by simp)
    rintro ⟨a, r, b, -, -, hcov⟩
    have hp := hcov p List.mem_cons_self
    have hq := hcov q (by simp)
    rw [hp, hq] at hndL
    simp at hndL

theorem nodup_shards : t.tx.shards.Nodup := (accepted_app t.exists_shard.choose_spec).shards_nodup

/-- The lock is the last event. -/
def lockLast (order : List Event) : Bool := order.getLast? == some .lock

theorem lockLast_orderOf (early late : List Str) : lockLast (orderOf early late) = late.isEmpty := by
  cases late with
  | nil => simp [lockLast, orderOf]
  | cons p late =>
    have hlast : (orderOf early (p :: late)).getLast? = some (.relay ((p :: late).getLast (by simp))) := by
      rw [orderOf, List.getLast?_append, List.getLast?_cons, List.getLast?_map,
        List.getLast?_eq_some_getLast (List.cons_ne_nil p late)]
      rfl
    rw [lockLast, hlast]
    rfl

/-- **The state of a participant after any valid order.** Its accounts are free unless it locked the
transfer last. -/
theorem locked_run {order : List Event} (hs : shard ∈ t.tx.shards) (ho : t.ValidOrder order) :
    ∃ early s', t.run shard order = (.ok (), s') ∧
      t.Locked shard early (!lockLast order)
        (completes t.tx.shards shard order && decide t.Funds) s' := by
  obtain ⟨early, late, rfl, hperm⟩ := ho.split
  have hmem : ∀ p ∈ early ++ late, p ∈ t.tx.shards := fun p hp => hperm.mem_iff.mp hp
  obtain ⟨s₁, hrun₁, h₁⟩ := run_early (fun p hp => hmem p (List.mem_append_left _ hp))
    (waiting_newDB hs)
  obtain ⟨s₂, hrun₂, h₂⟩ := step_lock hs h₁
  rw [List.append_nil] at h₂
  have hnd : (early.reverse ++ late).Nodup :=
    (((List.reverse_perm early).append_right late).nodup_iff).mpr (hperm.nodup_iff.mpr nodup_shards)
  obtain ⟨s₃, hrun₃, h₃⟩ := run_late hs (fun p hp => hmem p (List.mem_append_right _ hp)) hnd h₂
  have hown : shard ∈ early.reverse ++ late := by
    rw [List.mem_append, List.mem_reverse, ← List.mem_append]
    exact hperm.mem_iff.mpr hs
  rw [appliesLate_eq_completes hs hperm nodup_shards, freesLate_eq hown, Bool.false_or,
    ← lockLast_orderOf early late] at h₃
  refine ⟨early.reverse, s₃, ?_, h₃⟩
  unfold run orderOf
  rw [run_forEach_append, run_bind_ok hrun₁, forEach, run_bind_ok hrun₂, hrun₃]

/-! ## All or nothing -/

theorem nodup_keys : t.tx.keys.Nodup := by
  rw [List.nodup_iff_count_le_one]
  intro key
  by_cases hk : key ∈ t.tx.keys
  · obtain ⟨p, hp, hkp⟩ := exists_owner hk
    rw [← List.count_filter (List.mem_filter.mp hkp).2]
    exact List.nodup_iff_count_le_one.mp (accepted_app hp).nodup key
  · rw [List.count_eq_zero_of_not_mem hk]
    exact Nat.zero_le 1

theorem idle_iff : t.Idle shard ↔ ∀ key ∈ t.keysOf shard, t.expected key = t.balance key := by
  simp only [expected, Ledger.transfer_eq_self_iff (Transfer.nodup_accounts valid_tx nodup_keys)]
  constructor
  · rintro h key hk e he rfl
    exact h e he hk
  · intro h e he hk
    exact h e.1 hk e he rfl

theorem applied_iff (h : t.Locked shard early seen done s) :
    t.Applied shard s ↔ done = true ∨ t.Idle shard := by
  cases done with
  | true => exact iff_of_true (fun key hk => h.money key hk) (.inl rfl)
  | false =>
    rw [idle_iff]
    simp only [Bool.false_eq_true, false_or]
    refine forall₂_congr fun key hk => ?_
    have hm : s.balance key = t.balance key := h.money key hk
    rw [hm, eq_comm]

theorem untouched_iff (h : t.Locked shard early seen done s) :
    t.Untouched shard s ↔ done = false ∨ t.Idle shard := by
  cases done with
  | false => exact iff_of_true (fun key hk => h.money key hk) (.inl rfl)
  | true =>
    rw [idle_iff]
    simp only [Bool.true_eq_false, false_or]
    refine forall₂_congr fun key hk => ?_
    have hm : s.balance key = t.expected key := h.money key hk
    rw [hm]

/-- **Atomicity.** No participant's run panics. All participants apply the transfer or none does
exactly when the funds are missing, or every order completes, or none does; participants at which
the transfer moves nothing do not count. -/
theorem atomic_iff (t : Prepared) (order : Str → List Event)
    (ho : ∀ shard ∈ t.tx.shards, t.ValidOrder (order shard)) :
    (∀ shard ∈ t.tx.shards, (t.run shard (order shard)).1 = .ok ()) ∧
      (t.Atomic order ↔ (t.Funds →
        (∀ shard ∈ t.tx.shards,
          completes t.tx.shards shard (order shard) = true ∨ t.Idle shard) ∨
        ∀ shard ∈ t.tx.shards,
          completes t.tx.shards shard (order shard) = false ∨ t.Idle shard)) := by
  have hrun := fun shard hs => locked_run hs (ho shard hs)
  refine ⟨fun shard hs => ?_, ?_⟩
  · obtain ⟨early, s', h, -⟩ := hrun shard hs
    rw [h]
  · have hdone : ∀ shard ∈ t.tx.shards,
        (t.Applied shard (t.run shard (order shard)).2 ↔
          (completes t.tx.shards shard (order shard) && decide t.Funds) = true ∨ t.Idle shard) ∧
        (t.Untouched shard (t.run shard (order shard)).2 ↔
          (completes t.tx.shards shard (order shard) && decide t.Funds) = false ∨ t.Idle shard) := by
      intro shard hs
      obtain ⟨early, s', h, hlocked⟩ := hrun shard hs
      rw [h]
      exact ⟨applied_iff hlocked, untouched_iff hlocked⟩
    unfold Atomic
    rw [forall₂_congr fun shard hs => (hdone shard hs).1,
      forall₂_congr fun shard hs => (hdone shard hs).2]
    by_cases hf : t.Funds <;> simp [hf]

/-! ## The money of all participants -/

/-- The shard that owns the account applies the transfer. -/
def moves (t : Prepared) (order : Str → List Event) (key : Str) : Bool :=
  decide t.Funds &&
    (t.base.searchKeyShard key).any fun p => completes t.tx.shards p (order p)

/-- What the accounts of the transfer hold together, each at the shard that owns it. -/
def money (t : Prepared) (s : Str → AppDB) : ℕ :=
  ∑ key ∈ t.tx.keys.toFinset,
    (((t.base.searchKeyShard key).map fun p => (s p).balance key).getD 0).toNat

/-- The amounts at the shards that apply the transfer. -/
def moved (t : Prepared) (order : Str → List Event) (entries : List (Str × UInt32)) : ℕ :=
  ((entries.filter fun e => t.moves order e.1).map fun e => e.2.toNat).sum

/-- All participants together carry out the part of the transfer at the shards that apply it. -/
theorem balance_run {order : Str → List Event}
    (ho : ∀ shard ∈ t.tx.shards, t.ValidOrder (order shard)) (hk : key ∈ t.tx.keys) :
    ((t.base.searchKeyShard key).map fun p => (t.run p (order p)).2.balance key).getD 0 =
      Ledger.transfer t.balance (t.tx.debits.filter fun d => t.moves order d.1)
        (t.tx.credits.filter fun c => t.moves order c.1) key := by
  obtain ⟨p, hp, hkp⟩ := exists_owner hk
  obtain ⟨early, s', hrun, hlocked⟩ := locked_run hp (ho p hp)
  have hmoves : t.moves order key = (completes t.tx.shards p (order p) && decide t.Funds) := by
    rw [moves, (mem_keysOf.mp hkp).2, Option.any_some, Bool.and_comm]
  rw [(mem_keysOf.mp hkp).2, Option.map_some, Option.getD_some, hrun, Ledger.transfer_filter,
    hmoves]
  exact hlocked.money key hkp

/-- **The money of all participants** after any valid orders. What the shards that apply the
transfer debit is gone, and what they credit is there, whatever the other shards do. -/
theorem money_run (t : Prepared) (order : Str → List Event)
    (ho : ∀ shard ∈ t.tx.shards, t.ValidOrder (order shard))
    (hfit : ∀ c ∈ t.tx.credits, (t.balance c.1).toNat + c.2.toNat < 2 ^ 32) :
    t.money (fun p => (t.run p (order p)).2) + t.moved order t.tx.debits =
      t.money (fun p => newDB (t.db p)) + t.moved order t.tx.credits := by
  have hafter : t.money (fun p => (t.run p (order p)).2) = ∑ key ∈ t.tx.keys.toFinset,
      (Ledger.transfer t.balance (t.tx.debits.filter fun d => t.moves order d.1)
        (t.tx.credits.filter fun c => t.moves order c.1) key).toNat :=
    Finset.sum_congr rfl fun key hk => by rw [balance_run ho (List.mem_toFinset.mp hk)]
  have hsub := accounts_subset valid_tx (S := t.tx.keys.toFinset) fun _ => List.mem_toFinset.mpr
  have hkeep (l : List (Str × UInt32)) : Ledger.accounts (l.filter fun e => t.moves order e.1) ⊆
      Ledger.accounts l := fun key hk => List.mem_toFinset.mpr
    ((List.filter_sublist.map _).subset (List.mem_toFinset.mp hk))
  rw [hafter]
  refine Ledger.sum_transfer_of_nodup ?_ (fun d hd => ?_)
    (fun c hc => hfit c (List.mem_of_mem_filter hc)) ((hkeep _).trans hsub.1)
    ((hkeep _).trans hsub.2)
  · exact (Transfer.nodup_accounts valid_tx nodup_keys).sublist
      ((List.filter_sublist.map _).append (List.filter_sublist.map _))
  · obtain ⟨hd, hmoves⟩ := List.mem_filter.mp hd
    exact of_decide_eq_true (Bool.and_eq_true_iff.mp hmoves).1 d hd

/-! ## A payment between two shards -/

/-- Two shards, named `A` and `B`, that own the accounts whose names start with their letter. -/
def twoShards : Application where
  keyRangeTrees := [([65], fun key => key.head? == some 65), ([66], fun key => key.head? == some 66)]
  chainId := [65]
  shardIDList := [[65], [66]]
  codecs := wireCodecs
  txHash := id

theorem disjoint_twoShards : twoShards.Disjoint := by
  refine ⟨by decide, fun e he e' he' key h h' => ?_⟩
  simp only [twoShards, List.mem_cons, List.not_mem_nil, or_false] at he he'
  rcases he with rfl | rfl <;> rcases he' with rfl | rfl <;> simp_all

/-- Account `A` pays 5 to account `B`. -/
def crossPayment : TransferTx :=
  { froms := [[65]], tos := [[66]], fromMoney := [5], toMoney := [5], shards := [[65], [66]] }

/-- The payment, as both shards prepare it on an empty store. -/
def payment : Prepared where
  base := twoShards
  tx := crossPayment
  rawTx := uint32ToBytes txTransfer ++ wireCodecs.transferTx.marshal crossPayment
  db := fun _ => ⟨fun _ => none, fun _ => none⟩
  wlocks := fun _ => []
  rlocks := fun _ => []
  disjoint := disjoint_twoShards
  codecs := lawful_wireCodecs
  isTransfer := by decide
  decodes := by decide
  isCross := by decide
  noRelays := fun _ _ => rfl
  accepted := fun shard hs => by
    have hs : shard = [65] ∨ shard = [66] := by simpa [crossPayment] using hs
    rcases hs with rfl | rfl
    · exact ⟨_, rfl⟩
    · exact ⟨_, rfl⟩

/-- If each shard executes its own relay first, both orders complete, and both shards apply the
payment. -/
theorem atomic_payment_own_first :
    payment.Atomic fun shard => orderOf [] (if shard = [65] then [[65], [66]] else [[66], [65]]) := by
  refine (atomic_iff payment _ fun shard hs => ?_).2.mpr fun _ => .inl fun shard hs => .inl ?_
  · have hs : shard = [65] ∨ shard = [66] := by simpa [payment, crossPayment] using hs
    rcases hs with rfl | rfl <;> unfold ValidOrder <;> decide
  · have hs : shard = [65] ∨ shard = [66] := by simpa [payment, crossPayment] using hs
    rcases hs with rfl | rfl <;> decide

/-- If both shards execute the relays in the order of the shards, `A` applies the payment and `B`
does not: 5 are lost. -/
theorem not_atomic_payment :
    (∀ shard ∈ payment.tx.shards, payment.ValidOrder (orderOf [] [[65], [66]])) ∧
    (∀ shard ∈ payment.tx.shards, (payment.run shard (orderOf [] [[65], [66]])).1 = .ok ()) ∧
    (payment.run [65] (orderOf [] [[65], [66]])).2.balance [65] = 999995 ∧
    (payment.run [66] (orderOf [] [[65], [66]])).2.balance [66] = 1000000 ∧
    payment.expected [65] = 999995 ∧ payment.expected [66] = 1000005 ∧
    ¬ payment.Atomic fun _ => orderOf [] [[65], [66]] := by
  refine ⟨fun _ _ => by unfold ValidOrder; decide, by decide, by decide, by decide, by decide,
    by decide, ?_⟩
  rintro (h | h)
  · have := h [66] (by decide) [66] (by decide)
    revert this
    decide
  · have := h [65] (by decide) [65] (by decide)
    revert this
    decide

/-- With these orders the two accounts hold 5 less than before. -/
theorem money_payment :
    payment.money (fun p => (payment.run p (orderOf [] [[65], [66]])).2) + 5 =
      payment.money fun p => newDB (payment.db p) := by
  have h := money_run payment (fun _ => orderOf [] [[65], [66]])
    (fun _ _ => by unfold ValidOrder; decide) (by decide)
  have hd : payment.moved (fun _ => orderOf [] [[65], [66]]) payment.tx.debits = 5 := by decide
  have hc : payment.moved (fun _ => orderOf [] [[65], [66]]) payment.tx.credits = 0 := by decide
  rwa [hd, hc] at h

end Prepared

end Emulator.Urd.Minibank
