import Emulator.Pyramid.Minibank

/-!
# What one transaction does to Pyramid's buffers

A `MemoryDB` answers from its write buffer, its read buffer, the committed writes and the store, in
that order, and fills the read buffer on the way. Between transactions both buffers are empty
(`Clean`), and then only `current` counts: the committed writes over the store.

* `Serves` — what `doTransfer` needs to know of the database it runs on; `serves_rangeDB` and
  `serves_crossShardDB` give it for the two databases of the application.
* `executeAndCommit_eq` — a transaction takes effect on `current` completely or not at all.
-/

namespace Emulator.Pyramid.Minibank

open Emulator.Action Emulator.Minibank

/-! ## Reading -/

/-- The committed writes over the store. -/
def MemoryDB.current (m : MemoryDB) : Amounts := fun key => (m.memDB key).or (m.db key)

/-- The balance of an account, an absent one counting as `initBalance`. -/
def balanceOf (amounts : Amounts) (key : Str) : UInt32 := (amounts key).getD initBalance

/-- What `MemoryDB.Get` returns. -/
def MemoryDB.view (m : MemoryDB) (key : Str) : UInt32 :=
  ((m.writeBuffer key).or (m.readBuffer.lookup key)).getD (balanceOf m.current key)

/-- From `m` to `m'` only values read were cached. -/
structure Cached (m m' : MemoryDB) : Prop where
  db : m'.db = m.db
  writeBuffer : m'.writeBuffer = m.writeBuffer
  current : m'.current = m.current
  readBuffer : ∀ key, m'.readBuffer.lookup key = m.readBuffer.lookup key ∨
    m.readBuffer.lookup key = none ∧
      m'.readBuffer.lookup key = some (balanceOf m.current key)
  keeps : ∀ key, key ∈ m.readBuffer.map Prod.fst → key ∈ m'.readBuffer.map Prod.fst

variable {m : MemoryDB}

theorem Cached.refl (m : MemoryDB) : Cached m m :=
  ⟨rfl, rfl, rfl, fun _ => .inl rfl, fun _ h => h⟩

theorem Cached.trans (a b c : MemoryDB) (h : Cached a b) (h' : Cached b c) : Cached a c where
  db := h'.db.trans h.db
  writeBuffer := h'.writeBuffer.trans h.writeBuffer
  current := h'.current.trans h.current
  readBuffer key := by
    rcases h'.readBuffer key with hc | ⟨hb, hc⟩
    · rw [hc]
      exact h.readBuffer key
    · rw [h.current] at hc
      rcases h.readBuffer key with ha | ⟨-, ha⟩
      · exact .inr ⟨ha ▸ hb, hc⟩
      · rw [ha] at hb
        cases hb
  keeps key hk := h'.keeps key (h.keeps key hk)

theorem Cached.view {m' : MemoryDB} (h : Cached m m') : m'.view = m.view := by
  funext key
  unfold MemoryDB.view
  rw [h.writeBuffer, h.current]
  rcases h.readBuffer key with hr | ⟨hnone, hr⟩
  · rw [hr]
  · rw [hr, hnone]
    cases m.writeBuffer key <;> rfl

theorem lookup_append_singleton (l : List (Str × UInt32)) (key k : Str) (v : UInt32) :
    (l ++ [(key, v)]).lookup k = (l.lookup k).or (if k = key then some v else none) := by
  induction l with
  | nil =>
    by_cases h : k = key
    · subst h
      simp
    · have hb : (k == key) = false := beq_false_of_ne h
      rw [List.nil_append, List.lookup_cons, hb, if_neg h, List.lookup_nil]
      rfl
  | cons e l ih =>
    rw [List.cons_append, List.lookup_cons, List.lookup_cons, ih]
    cases k == e.1 <;> rfl

theorem cached_cacheRead {key : Str} (hread : m.readBuffer.lookup key = none) {memDB : Amounts}
    (hcur : (fun k => (memDB k).or (m.db k)) = m.current) :
    Cached m ({ m with memDB }.cacheRead key (balanceOf m.current key)) := by
  refine ⟨rfl, rfl, hcur, fun k => ?_, fun k hk => ?_⟩
  · show (m.readBuffer ++ [(key, balanceOf m.current key)]).lookup k = _ ∨ _ ∧
      (m.readBuffer ++ [(key, balanceOf m.current key)]).lookup k = _
    rw [lookup_append_singleton]
    by_cases h : k = key
    · subst h
      rw [hread]
      exact .inr ⟨rfl, by simp⟩
    · rw [if_neg h, Option.or_none]
      exact .inl rfl
  · show k ∈ (m.readBuffer ++ _).map Prod.fst
    rw [List.map_append]
    exact List.mem_append_left _ hk

theorem get_eq (m : MemoryDB) (key : Str) :
    ∃ m', MemoryDB.get key m = (.ok (m.view key), m') ∧ Cached m m' ∧
      (m.writeBuffer key = none → key ∈ m'.readBuffer.map Prod.fst) := by
  unfold MemoryDB.get
  cases hw : m.writeBuffer key with
  | some out => exact ⟨m, by simp [MemoryDB.view, hw], Cached.refl m, fun h => by cases h⟩
  | none =>
    cases hr : m.readBuffer.lookup key with
    | some out =>
      refine ⟨m, by simp [MemoryDB.view, hw, hr], Cached.refl m, fun _ => ?_⟩
      obtain ⟨l₁, l₂, hl, -⟩ := List.lookup_eq_some_iff.mp hr
      simp [hl]
    | none =>
      have hcached : ∀ memDB : Amounts, (fun k => (memDB k).or (m.db k)) = m.current →
          Cached m ({ m with memDB }.cacheRead key (balanceOf m.current key)) :=
        fun _ => cached_cacheRead hr
      have hmem : ∀ m₁ : MemoryDB, ∀ v, key ∈ (m₁.cacheRead key v).readBuffer.map Prod.fst := by
        intro m₁ v
        simp [MemoryDB.cacheRead]
      have hview : m.view key = balanceOf m.current key := by simp [MemoryDB.view, hw, hr]
      rw [hview]
      cases hm : m.memDB key with
      | some out =>
        have hbal : balanceOf m.current key = out := by simp [balanceOf, MemoryDB.current, hm]
        refine ⟨_, ?_, hcached m.memDB rfl, fun _ => hmem _ _⟩
        rw [hbal]
      | none =>
        cases hd : m.db key with
        | none =>
          have hbal : balanceOf m.current key = initBalance := by
            simp [balanceOf, MemoryDB.current, hm, hd]
          refine ⟨_, ?_, hcached m.memDB rfl, fun _ => hmem _ _⟩
          rw [hbal]
        | some amount =>
          have hbal : balanceOf m.current key = amount := by
            simp [balanceOf, MemoryDB.current, hm, hd]
          refine ⟨_, ?_, hcached (Function.update m.memDB key (some amount)) ?_,
            fun _ => hmem _ _⟩
          · rw [hbal]
          · -- the cached value is the one the store has
            funext k
            by_cases hk : k = key
            · subst hk
              simp [MemoryDB.current, hm, hd]
            · simp [MemoryDB.current, Function.update_of_ne hk]

/-! ## Databases a transfer can run on -/

/-- A write into the buffer. -/
def MemoryDB.buffer (m : MemoryDB) (w : Str × UInt32) : MemoryDB :=
  { m with writeBuffer := Function.update m.writeBuffer w.1 (some w.2) }

/-- `db` answers a read with `peek` and takes writes to the keys of `allowed`. -/
structure Serves (db : GetSetMemDB) (peek : MemoryDB → Str → Option UInt32)
    (allowed : Str → Bool) : Prop where
  get : ∀ key, Reads Cached (db.get key) fun m => peek m key
  blind : ∀ key, Blind Cached fun m => peek m key
  set_ok : ∀ key value m, allowed key = true → db.set key value m = (.ok (), m.buffer (key, value))
  set_error : ∀ key value m, allowed key = false → ∃ e, db.set key value m = (.error e, m)

theorem serves_rangeDB (search : Str → Bool) :
    Serves (rangeDB search) (fun m key => if search key then some (m.view key) else none)
      search where
  get key := by
    intro m
    cases hin : search key with
    | true =>
      obtain ⟨m', hget, hc, -⟩ := get_eq m key
      have hrun : (rangeDB search).get key m = (.ok (m.view key), m') := by
        simp [rangeDB, hin, run_bind, hget]
      rw [hrun]
      exact ⟨hc, rfl⟩
    | false =>
      have hrun : (rangeDB search).get key m = (.error .outOfRange, m) := by
        simp [rangeDB, hin, run_bind]
      rw [hrun]
      exact ⟨Cached.refl m, rfl⟩
  blind key := by
    intro m m' h
    simp only [h.view]
  set_ok key value m hin := by
    simp [rangeDB, hin, run_bind, MemoryDB.set, MemoryDB.buffer]
  set_error key value m hin := ⟨.outOfRange, by simp [rangeDB, hin, run_bind]⟩

theorem serves_crossShardDB (csd : Amounts) :
    Serves (crossShardDB csd) (fun m key => (m.writeBuffer key).or (csd key)) fun _ => true where
  get key := by
    intro m
    simp only [crossShardDB]
    cases m.writeBuffer key with
    | some out => exact ⟨Cached.refl m, rfl⟩
    | none => cases csd key <;> exact ⟨Cached.refl m, rfl⟩
  blind key := by
    intro m m' h
    simp only [h.writeBuffer]
  set_ok key value m _ := rfl
  set_error key value m h := by cases h

section

variable (locked : Amounts) (answer : Str → Option UInt32) (allowed : Str → Bool)

/-- The balances a transfer computes with: an account that cannot be read has `initBalance`. -/
def ledger (key : Str) : UInt32 := (answer key).getD initBalance

/-- The debit can be made; an account that cannot be read is not checked. -/
def canDebit (d : Str × UInt32) : Bool :=
  (locked d.1).isNone && (answer d.1).all fun balance => d.2 ≤ balance

/-- The transfer will succeed on a database that answers reads with `answer`. -/
def ready (tx : Transfer) : Bool :=
  decide tx.Valid && tx.debits.all (canDebit locked answer) &&
    tx.credits.all (fun c => (locked c.1).isNone) && tx.keys.all allowed

/-- The writes of a transaction, if it succeeds. -/
def effect (app : Application) (tx : Bytes) : Option (List (Str × UInt32)) :=
  match unmarshalTransferTx app tx with
  | .error _ => none
  | .ok t => if ready locked answer allowed t then some (t.writes (ledger answer)) else none

end

variable {locked : Amounts} {db : GetSetMemDB} {peek : MemoryDB → Str → Option UInt32}
  {allowed : Str → Bool}

section

variable (hs : Serves db peek allowed)

include hs

theorem reads_readFrom (d : Str × UInt32) :
    Reads Cached (readFrom locked db d) fun m =>
      if canDebit locked (peek m) d then some (ledger (peek m) d.1 - d.2) else none := by
  unfold readFrom
  refine (Reads.bind Cached.trans (Reads.require Cached.refl _ _) (fun _ =>
    Reads.attempt_bind (w := fun o _ =>
      if o.all (fun balance => d.2 ≤ balance) then some (o.getD initBalance - d.2) else none)
      Cached.trans (hs.get d.1) (fun r m => ?_) fun _ _ _ _ => rfl) fun _ m m' h => ?_).congr
    fun m => ?_
  · cases r with
    | error e => exact ⟨Cached.refl m, rfl⟩
    | ok balance => by_cases hle : d.2 ≤ balance <;>
        simp [run_bind, hle, Cached.refl, Except.toOption]
  · have hp : peek m d.1 = peek m' d.1 := hs.blind d.1 m m' h
    simp only [hp]
  · cases hl : (locked d.1).isNone <;> simp [canDebit, ledger, hl]

theorem reads_readTo (c : Str × UInt32) :
    Reads Cached (readTo locked db c) fun m =>
      if (locked c.1).isNone then some (ledger (peek m) c.1 + c.2) else none := by
  unfold readTo
  refine (Reads.bind Cached.trans (Reads.require Cached.refl _ _) (fun _ =>
    Reads.attempt_bind (w := fun o _ => some (o.getD initBalance + c.2))
      Cached.trans (hs.get c.1) (fun r m => ?_) fun _ _ _ _ => rfl) fun _ m m' h => ?_).congr
    fun m => ?_
  · cases r <;> exact ⟨Cached.refl m, rfl⟩
  · have hp : peek m c.1 = peek m' c.1 := hs.blind c.1 m m' h
    simp only [hp]
  · cases (locked c.1).isNone <;> simp [ledger]

theorem reads_debits (l : List (Str × UInt32)) :
    Reads Cached (mapEach (readFrom locked db) l) fun m =>
      if l.all (canDebit locked (peek m)) then some (l.map fun d => ledger (peek m) d.1 - d.2)
      else none := by
  refine (Reads.mapEach Cached.refl Cached.trans (reads_readFrom hs) (fun d m m' h => ?_) l).congr
    fun m => mapM_guard (canDebit locked (peek m)) (fun d => ledger (peek m) d.1 - d.2) l
  have hp : peek m d.1 = peek m' d.1 := hs.blind d.1 m m' h
  have hc : canDebit locked (peek m) d = canDebit locked (peek m') d := by simp only [canDebit, hp]
  simp only [hc, ledger, hp]

theorem reads_credits (l : List (Str × UInt32)) :
    Reads Cached (mapEach (readTo locked db) l) fun m =>
      if l.all (fun c => (locked c.1).isNone) then some (l.map fun c => ledger (peek m) c.1 + c.2)
      else none := by
  refine (Reads.mapEach Cached.refl Cached.trans (reads_readTo hs) (fun c m m' h => ?_) l).congr
    fun m => mapM_guard (fun c => (locked c.1).isNone) (fun c => ledger (peek m) c.1 + c.2) l
  have hp : peek m c.1 = peek m' c.1 := hs.blind c.1 m m' h
  simp only [ledger, hp]

end

/-! ## Writing -/

/-- The state with another write buffer. -/
def MemoryDB.withBuffer (m : MemoryDB) (writeBuffer : Amounts) : MemoryDB :=
  { m with writeBuffer }

theorem foldl_buffer (ws : List (Str × UInt32)) (m : MemoryDB) :
    ws.foldl MemoryDB.buffer m =
      m.withBuffer fun key => (Ledger.last? ws key).or (m.writeBuffer key) := by
  induction ws generalizing m with
  | nil => rfl
  | cons w ws ih =>
    rw [List.foldl_cons, ih]
    unfold MemoryDB.withBuffer MemoryDB.buffer
    congr 1
    funext key
    rw [Ledger.last?]
    cases Ledger.last? ws key with
    | some v => rfl
    | none =>
      by_cases hk : w.1 = key
      · subst hk
        simp
      · simp [hk, Function.update_of_ne (Ne.symm hk)]

theorem run_writeBalance (locked : Amounts) (hs : Serves db peek allowed) (m : MemoryDB)
    (w : Str × UInt32) :
    if allowed w.1 && (locked w.1).isNone then
      writeBalance locked db w m = (.ok (), m.buffer w)
    else ∃ e, writeBalance locked db w m = (.error e, m) := by
  unfold writeBalance
  cases hl : (locked w.1).isNone with
  | false =>
    rw [Bool.and_false, if_neg Bool.false_ne_true, run_bind_error (run_require_false _ m)]
    exact ⟨_, rfl⟩
  | true =>
    rw [run_bind_ok (run_require_true _ m)]
    cases ha : allowed w.1 with
    | true => exact hs.set_ok w.1 w.2 m ha
    | false => exact hs.set_error w.1 w.2 m ha

/-- The write loop writes everything, or fails with only the write buffer changed. -/
theorem run_writeBalances (locked : Amounts) (hs : Serves db peek allowed)
    (ws : List (Str × UInt32)) (m : MemoryDB) :
    if ws.all (fun w => allowed w.1 && (locked w.1).isNone) then
      forEach (writeBalance locked db) ws m = (.ok (), ws.foldl MemoryDB.buffer m)
    else ∃ e b, forEach (writeBalance locked db) ws m = (.error e, m.withBuffer b) := by
  induction ws generalizing m with
  | nil => rfl
  | cons w ws ih =>
    have hw := run_writeBalance locked hs m w
    rw [List.all_cons]
    cases hc : allowed w.1 && (locked w.1).isNone with
    | false =>
      rw [hc] at hw
      obtain ⟨e, he⟩ := hw
      rw [Bool.false_and, if_neg Bool.false_ne_true]
      exact ⟨e, m.writeBuffer, run_bind_error he⟩
    | true =>
      rw [hc] at hw
      have hstep : forEach (writeBalance locked db) (w :: ws) m =
          forEach (writeBalance locked db) ws (m.buffer w) := run_bind_ok hw
      have hrest := ih (m.buffer w)
      rw [Bool.true_and, hstep]
      split at hrest
      · next hall =>
        rw [if_pos hall]
        exact hrest
      · next hall =>
        rw [if_neg hall]
        obtain ⟨e, b, he⟩ := hrest
        exact ⟨e, b, he⟩

/-! ## The whole transfer -/

theorem all_writes {tx : Transfer} (hv : tx.Valid)
    (hd : tx.debits.all (canDebit locked (peek m)) = true)
    (hc : tx.credits.all (fun c => (locked c.1).isNone) = true) :
    (tx.writes (ledger (peek m))).all (fun w => allowed w.1 && (locked w.1).isNone) =
      tx.keys.all allowed := by
  rw [← Transfer.map_fst_writes hv (ledger (peek m)), List.all_map, Bool.eq_iff_iff,
    List.all_eq_true, List.all_eq_true]
  refine forall₂_congr fun w hw => ?_
  have hfree : (locked w.1).isNone = true := by
    rcases List.mem_append.mp hw with h | h
    · obtain ⟨d, hmem, rfl⟩ := List.mem_map.mp h
      have := List.all_eq_true.mp hd d hmem
      exact (Bool.and_eq_true_iff.mp this).1
    · obtain ⟨c, hmem, rfl⟩ := List.mem_map.mp h
      exact List.all_eq_true.mp hc c hmem
  simp [hfree]

/-- `doTransfer` succeeds exactly when it is ready, and then has buffered its writes. -/
theorem run_doTransfer (locked : Amounts) (hs : Serves db peek allowed) (m : MemoryDB)
    (tx : Transfer) :
    ∃ m₁, Cached m m₁ ∧
      if ready locked (peek m) allowed tx then
        doTransfer locked db tx m =
          (.ok (), (tx.writes (ledger (peek m))).foldl MemoryDB.buffer m₁)
      else ∃ e b, doTransfer locked db tx m = (.error e, m₁.withBuffer b) := by
  unfold doTransfer
  obtain ⟨hstate, hvalid⟩ := run_validateTransfer BankError.lengths .empty .sums tx m
  by_cases hv : tx.Valid
  swap
  · refine ⟨m, Cached.refl m, ?_⟩
    rw [if_neg (by simp [ready, hv])]
    cases hres : (validateTransferTx tx m).1 with
    | ok u => exact absurd (hvalid.mp hres) hv
    | error e => exact ⟨e, m.writeBuffer, run_bind_error (Prod.ext hres hstate)⟩
  have hval : validateTransferTx tx m = (.ok (), m) := Prod.ext (hvalid.mpr hv) hstate
  rw [run_bind_ok hval]
  by_cases hd : tx.debits.all (canDebit locked (peek m)) = true
  swap
  · obtain ⟨e, m₁, hfrom, hc₁⟩ := (reads_debits hs tx.debits).run_error (if_neg hd)
    refine ⟨m₁, hc₁, ?_⟩
    rw [if_neg (by simp [ready, hd])]
    exact ⟨e, m₁.writeBuffer, run_bind_error hfrom⟩
  obtain ⟨m₁, hfrom, hc₁⟩ := (reads_debits hs tx.debits).run_ok (if_pos hd)
  rw [run_bind_ok hfrom]
  by_cases hcr : tx.credits.all (fun c => (locked c.1).isNone) = true
  swap
  · obtain ⟨e, m₂, hto, hc₂⟩ := (reads_credits hs tx.credits).run_error (if_neg hcr)
    refine ⟨m₂, Cached.trans _ _ _ hc₁ hc₂, ?_⟩
    rw [if_neg (by simp [ready, hcr])]
    exact ⟨e, m₂.writeBuffer, run_bind_error hto⟩
  obtain ⟨m₂, hto, hc₂⟩ := (reads_credits hs tx.credits).run_ok (if_pos hcr)
  have hledger : ledger (peek m₁) = ledger (peek m) := by
    funext key
    have hp : peek m key = peek m₁ key := hs.blind key m m₁ hc₁
    simp only [ledger, hp]
  rw [run_bind_ok hto, hledger, ← run_forEach_append, Transfer.debits, Transfer.credits, zip_map_zip,
    zip_map_zip]
  refine ⟨m₂, Cached.trans _ _ _ hc₁ hc₂, ?_⟩
  have hwrite := run_writeBalances locked hs (tx.writes (ledger (peek m))) m₂
  rw [all_writes hv hd hcr] at hwrite
  rw [show ready locked (peek m) allowed tx = tx.keys.all allowed by simp [ready, hv, hd, hcr]]
  exact hwrite

/-! ## Whole transactions -/

structure Clean (m : MemoryDB) : Prop where
  writeBuffer : ∀ key, m.writeBuffer key = none
  readBuffer : m.readBuffer = []

theorem clean_newMemoryDB (store : Amounts) : Clean (newMemoryDB store) := ⟨fun _ => rfl, rfl⟩

theorem clean_commitWrite (m : MemoryDB) (commit : Bool) : Clean (m.commitWrite commit) :=
  ⟨fun _ => rfl, rfl⟩

theorem Clean.view (h : Clean m) (key : Str) : m.view key = balanceOf m.current key := by
  simp [MemoryDB.view, h.writeBuffer, h.readBuffer]

/-- The amounts with the writes of a transaction over them. -/
def overlay (amounts : Amounts) (ws : List (Str × UInt32)) : Amounts :=
  fun key => (Ledger.last? ws key).or (amounts key)

@[simp] theorem overlay_nil (amounts : Amounts) : overlay amounts [] = amounts := rfl

variable {app : Application}

theorem run_execute_ok {tx : Bytes} {t : Transfer} (h : unmarshalTransferTx app tx = .ok t)
    (m : MemoryDB) : execute app locked db tx m = doTransfer locked db t m := by
  unfold unmarshalTransferTx at h
  unfold execute
  cases hty : bytesToUint32 tx with
  | none =>
    rw [hty] at h
    cases h
  | some txType =>
    rw [hty] at h
    by_cases htr : txType = txTransfer
    · cases hdec : app.codecs.transferTx.unmarshal (tx.drop 4) with
      | none => simp [htr, hdec] at h
      | some t' =>
        have htt : t' = t := by simpa [htr, hdec] using h
        simp [run_bind, htr, htt]
    · simp [htr] at h

theorem run_execute_error (locked : Amounts) (db : GetSetMemDB) {tx : Bytes} {e : BankError}
    (h : unmarshalTransferTx app tx = .error e)
    (m : MemoryDB) : ∃ e', execute app locked db tx m = (.error e', m) := by
  unfold unmarshalTransferTx at h
  unfold execute
  cases hty : bytesToUint32 tx with
  | none => exact ⟨_, rfl⟩
  | some txType =>
    rw [hty] at h
    by_cases htr : txType = txTransfer
    · cases hdec : app.codecs.transferTx.unmarshal (tx.drop 4) with
      | none => exact ⟨.unmarshal, by simp [run_bind, htr]⟩
      | some t' => simp [htr, hdec] at h
    · exact ⟨.undefinedType, by simp [run_bind, htr]⟩

/-- `execute` fails with at most the write buffer changed, or has buffered its effect. -/
theorem run_execute (app : Application) (locked : Amounts) (hs : Serves db peek allowed)
    (m : MemoryDB) (tx : Bytes) :
    ∃ m₁, Cached m m₁ ∧
      match effect locked (peek m) allowed app tx with
      | some ws => execute app locked db tx m = (.ok (), ws.foldl MemoryDB.buffer m₁)
      | none => ∃ e b, execute app locked db tx m = (.error e, m₁.withBuffer b) := by
  unfold effect
  cases hdec : unmarshalTransferTx app tx with
  | error e =>
    obtain ⟨e', he⟩ := run_execute_error locked db hdec m
    exact ⟨m, Cached.refl m, e', m.writeBuffer, he⟩
  | ok t =>
    rw [run_execute_ok hdec]
    obtain ⟨m₁, hc, hrun⟩ := run_doTransfer locked hs m t
    refine ⟨m₁, hc, ?_⟩
    cases hr : ready locked (peek m) allowed t with
    | true => simpa [hr] using hrun
    | false => simpa [hr] using hrun

theorem current_commitWrite_buffer (m : MemoryDB) (hw : ∀ key, m.writeBuffer key = none)
    (ws : List (Str × UInt32)) :
    ((ws.foldl MemoryDB.buffer m).commitWrite true).current = overlay m.current ws := by
  rw [foldl_buffer]
  funext key
  simp [MemoryDB.current, MemoryDB.commitWrite, MemoryDB.withBuffer, overlay, hw, Option.or_assoc]

theorem current_commitWrite_false (m : MemoryDB) (b : Amounts) :
    ((m.withBuffer b).commitWrite false).current = m.current := rfl

/-- With an empty write buffer, a transaction lays its effect over the current amounts if it
succeeds and changes nothing if it fails. -/
theorem executeAndCommit_of_writeBuffer (app : Application) (locked : Amounts)
    (hs : Serves db peek allowed) (hm : ∀ key, m.writeBuffer key = none) (tx : Bytes) :
    ∃ res m', executeAndCommit app locked db tx m = (.ok res, m') ∧ Clean m' ∧ m'.db = m.db ∧
      res.toBool = (effect locked (peek m) allowed app tx).isSome ∧
      m'.current = overlay m.current ((effect locked (peek m) allowed app tx).getD []) := by
  obtain ⟨m₁, hc, hrun⟩ := run_execute app locked hs m tx
  have hw : ∀ key, m₁.writeBuffer key = none := fun key => by
    rw [hc.writeBuffer]
    exact hm key
  cases heff : effect locked (peek m) allowed app tx with
  | some ws =>
    rw [heff] at hrun
    refine ⟨.ok (), (ws.foldl MemoryDB.buffer m₁).commitWrite true, ?_, clean_commitWrite _ _, ?_,
      rfl, ?_⟩
    · unfold executeAndCommit
      rw [run_bind_ok (run_attempt _ _), hrun]
      rfl
    · rw [foldl_buffer]
      exact hc.db
    · rw [current_commitWrite_buffer m₁ hw, hc.current]
      rfl
  | none =>
    rw [heff] at hrun
    obtain ⟨e, b, he⟩ := hrun
    refine ⟨.error e, (m₁.withBuffer b).commitWrite false, ?_, clean_commitWrite _ _, hc.db,
      rfl, ?_⟩
    · unfold executeAndCommit
      rw [run_bind_ok (run_attempt _ _), he]
      rfl
    · rw [current_commitWrite_false, hc.current]
      rfl

/-- **A transaction is atomic.** Between transactions the buffers are empty, and a transaction
lays its effect over the current amounts if it succeeds and changes nothing if it fails. -/
theorem executeAndCommit_eq (app : Application) (locked : Amounts) (hs : Serves db peek allowed)
    (hm : Clean m) (tx : Bytes) :
    ∃ res m', executeAndCommit app locked db tx m = (.ok res, m') ∧ Clean m' ∧ m'.db = m.db ∧
      res.toBool = (effect locked (peek m) allowed app tx).isSome ∧
      m'.current = overlay m.current ((effect locked (peek m) allowed app tx).getD []) :=
  executeAndCommit_of_writeBuffer app locked hs hm.writeBuffer tx

end Emulator.Pyramid.Minibank
