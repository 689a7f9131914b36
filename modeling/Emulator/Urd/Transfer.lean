import Emulator.Urd.Minibank

/-!
# What one transfer does to Urd's store

An account that was never written reads as `initBalance` and free, and reading it writes that entry
into the store. The `view` of a store hides the difference, and `Touched` says that nothing but
such entries changed.

* `doTransfer_ok` — a transfer that is `Ready` succeeds; the new balances of the shard's own
  accounts are those of `Ledger.transfer`.
* `doTransfer_error` — one that is not fails and leaves the view as it was.
* `doTransfer_cases` — both, with the state in which each ends.
-/

namespace Emulator.Urd.Minibank

open Emulator.Action Emulator.Minibank

/-- The entry of an account that was never written. -/
def Value.fresh : Value := ⟨initBalance, freeIdentifier⟩

/-- The entry of an account, present or not. -/
def AppDB.view (s : AppDB) (key : Str) : Value := (s.db.data key).getD Value.fresh

/-- The balance of an account, an absent one counting as `initBalance`. -/
def AppDB.balance (s : AppDB) (key : Str) : UInt32 := (s.view key).money

section

variable (app : Application)

/-- What `Get` finds: an account of the shard, or loaded data of another one. -/
def look (s : AppDB) (key : Str) : Option Value :=
  if app.searchKeyIntraShard key then some (s.view key)
  else (s.retainData key).map fun v => ⟨v, freeIdentifier⟩

def usable (s : AppDB) (key : Str) : Bool := (look app s key).any fun v => isFree v.locked

/-- The balances a transfer computes with. -/
def ledger (s : AppDB) (key : Str) : UInt32 := ((look app s key).map Value.money).getD 0

/-- From `s` to `s'` only entries for absent accounts of the shard were added. -/
structure Touched (s s' : AppDB) : Prop where
  data : ∀ key, s'.db.data key = s.db.data key ∨
    app.searchKeyIntraShard key = true ∧ s.db.data key = none ∧ s'.db.data key = some Value.fresh
  special : s'.db.special = s.db.special
  retainData : s'.retainData = s.retainData

end

variable {app : Application} {s s' : AppDB} {key : Str} {tx : TransferTx}

theorem Touched.refl (s : AppDB) : Touched app s s := ⟨fun _ => .inl rfl, rfl, rfl⟩

theorem Touched.trans (a b c : AppDB) (h : Touched app a b) (h' : Touched app b c) :
    Touched app a c := by
  refine ⟨fun key => ?_, h'.special.trans h.special, h'.retainData.trans h.retainData⟩
  rcases h'.data key with hc | ⟨hin, hb, hc⟩
  · rw [hc]
    exact h.data key
  · rcases h.data key with ha | ⟨-, -, ha⟩
    · exact .inr ⟨hin, ha ▸ hb, hc⟩
    · rw [ha] at hb
      cases hb

theorem Touched.view (h : Touched app s s') : s'.view = s.view := by
  funext key
  rcases h.data key with hk | ⟨-, hnone, hk⟩
  · rw [AppDB.view, hk, AppDB.view]
  · rw [AppDB.view, hk, AppDB.view, hnone]
    rfl

theorem Touched.isSome (h : Touched app s s') (hs : (s.db.data key).isSome = true) :
    (s'.db.data key).isSome = true := by
  rcases h.data key with hk | ⟨-, -, hk⟩
  · rwa [hk]
  · rw [hk]
    rfl

theorem blind_look (key : Str) : Blind (Touched app) fun s => look app s key := by
  intro s s' h
  simp only [look, h.view, h.retainData]

theorem blind_ledger (key : Str) : Blind (Touched app) fun s => ledger app s key := by
  intro s s' h
  have hlook : look app s key = look app s' key := blind_look key s s' h
  simp only [ledger, hlook]

theorem blind_usable (key : Str) : Blind (Touched app) fun s => usable app s key := by
  intro s s' h
  have hlook : look app s key = look app s' key := blind_look key s s' h
  simp only [usable, hlook]

/-! ## Reading -/

theorem touched_put_fresh (hin : app.searchKeyIntraShard key = true)
    (hnone : s.db.data key = none) : Touched app s (s.put key Value.fresh) := by
  refine ⟨fun k => ?_, rfl, rfl⟩
  by_cases hk : k = key
  · subst hk
    exact .inr ⟨hin, hnone, Function.update_self ..⟩
  · exact .inl (Function.update_of_ne hk ..)

/-- The state after `Get` of an account of the shard: an absent account now has an entry. -/
def AppDB.touch (s : AppDB) (key : Str) : AppDB :=
  if (s.db.data key).isSome then s else s.put key Value.fresh

theorem touched_touch (hin : app.searchKeyIntraShard key = true) (s : AppDB) :
    Touched app s (s.touch key) := by
  unfold AppDB.touch
  split
  · exact Touched.refl s
  · next hnone => exact touched_put_fresh hin (by simpa using hnone)

theorem data_touch (s : AppDB) (key k : Str) :
    (s.touch key).db.data k = if k = key then some (s.view key) else s.db.data k := by
  unfold AppDB.touch
  by_cases hk : k = key
  · subst hk
    cases hd : s.db.data k <;> simp [AppDB.put, AppDB.view, hd]
  · split <;> simp [AppDB.put, hk]

theorem isSome_touch (s : AppDB) (key : Str) : ((s.touch key).db.data key).isSome = true := by
  simp [data_touch]

theorem run_get_own (hin : app.searchKeyIntraShard key = true) (s : AppDB) :
    get app key s = (.ok ((s.view key).money, (s.view key).locked), s.touch key) := by
  cases hd : s.db.data key with
  | none => simp [get, set, run_bind, hin, hd, AppDB.view, AppDB.touch, Value.fresh]
  | some v => simp [get, run_bind, hin, hd, AppDB.view, AppDB.touch]

theorem reads_get (key : Str) :
    Reads (Touched app) (get app key) fun s => (look app s key).map fun v => (v.money, v.locked) := by
  intro s
  by_cases hin : app.searchKeyIntraShard key = true
  · rw [run_get_own hin]
    exact ⟨touched_touch hin s, by simp [look, hin, Except.toOption]⟩
  · cases hr : s.retainData key with
    | none =>
      have hrun : get app key s = (.error .keyDoesNotExists, s) := by
        simp [get, run_bind, hin, hr]
      rw [hrun]
      exact ⟨Touched.refl s, by simp [look, hin, hr, Except.toOption]⟩
    | some v =>
      have hrun : get app key s = (.ok (v, freeIdentifier), s) := by
        simp [get, run_bind, hin, hr]
      rw [hrun]
      exact ⟨Touched.refl s, by simp [look, hin, hr, Except.toOption]⟩

def canDebit (app : Application) (s : AppDB) (d : Str × UInt32) : Bool :=
  usable app s d.1 && d.2 ≤ ledger app s d.1

theorem blind_canDebit (d : Str × UInt32) : Blind (Touched app) fun s => canDebit app s d := by
  intro s s' h
  have hu : usable app s d.1 = usable app s' d.1 := blind_usable d.1 s s' h
  have hl : ledger app s d.1 = ledger app s' d.1 := blind_ledger d.1 s s' h
  simp only [canDebit, hu, hl]

theorem reads_readFrom (d : Str × UInt32) :
    Reads (Touched app) (readFrom app d) fun s =>
      if canDebit app s d then some (ledger app s d.1 - d.2) else none := by
  have hbody : ∀ v : UInt32 × UInt8, Reads (Touched app)
      (do
        require (isFree v.2) BankError.keyLocked
        require (d.2 ≤ v.1) BankError.balanceNotEnough
        pure (v.1 - d.2))
      fun _ => if isFree v.2 && d.2 ≤ v.1 then some (v.1 - d.2) else none := by
    intro v s
    cases hf : isFree v.2 <;> by_cases hle : d.2 ≤ v.1 <;>
      simp [run_bind, hle, Touched.refl, Except.toOption]
  refine (Reads.bind Touched.trans (reads_get d.1) hbody fun _ _ _ _ => rfl).congr fun s => ?_
  cases h : look app s d.1 with
  | none => simp [canDebit, usable, h]
  | some v => simp [canDebit, usable, ledger, h]

theorem reads_readTo (c : Str × UInt32) :
    Reads (Touched app) (readTo app c) fun s =>
      if usable app s c.1 then some (ledger app s c.1 + c.2) else none := by
  have hbody : ∀ v : UInt32 × UInt8, Reads (Touched app)
      (do
        require (isFree v.2) BankError.keyLocked
        pure (v.1 + c.2))
      fun _ => if isFree v.2 then some (v.1 + c.2) else none := by
    intro v s
    cases hf : isFree v.2 <;> simp [run_bind, Touched.refl, Except.toOption]
  refine (Reads.bind Touched.trans (reads_get c.1) hbody fun _ _ _ _ => rfl).congr fun s => ?_
  cases h : look app s c.1 with
  | none => simp [usable, h]
  | some v => simp [usable, ledger, h]

/-! ## Writing -/

/-- Write a balance if the account is the shard's own. -/
def AppDB.putOwn (app : Application) (s : AppDB) (w : Str × UInt32) : AppDB :=
  if app.searchKeyIntraShard w.1 then s.put w.1 ⟨w.2, freeIdentifier⟩ else s

variable (ws : List (Str × UInt32))

theorem run_writeBalances (s : AppDB) :
    forEach (writeBalance app) ws s = (.ok (), ws.foldl (AppDB.putOwn app) s) :=
  run_forEach_of_ok (fun _ _ _ => rfl) s

theorem foldl_putOwn_special (s : AppDB) :
    (ws.foldl (AppDB.putOwn app) s).db.special = s.db.special ∧
      (ws.foldl (AppDB.putOwn app) s).retainData = s.retainData := by
  induction ws generalizing s with
  | nil => exact ⟨rfl, rfl⟩
  | cons w ws ih =>
    rw [List.foldl_cons, (ih _).1, (ih _).2, AppDB.putOwn]
    split <;> exact ⟨rfl, rfl⟩

theorem view_putOwn (s : AppDB) (w : Str × UInt32) (key : Str) :
    (s.putOwn app w).view key =
      if app.searchKeyIntraShard key = true ∧ w.1 = key then ⟨w.2, freeIdentifier⟩
      else s.view key := by
  unfold AppDB.putOwn
  by_cases hk : w.1 = key
  · subst hk
    by_cases hin : app.searchKeyIntraShard w.1 = true <;> simp [hin, AppDB.view, AppDB.put]
  · have hne : key ≠ w.1 := Ne.symm hk
    split <;> simp [hk, AppDB.view, AppDB.put, hne]

/-- Of several writes to an account the last one counts. -/
theorem view_foldl_putOwn (s : AppDB)
    (hin : app.searchKeyIntraShard key = true) :
    (ws.foldl (AppDB.putOwn app) s).view key =
      ((Ledger.last? ws key).map fun m => ⟨m, freeIdentifier⟩).getD (s.view key) := by
  induction ws generalizing s with
  | nil => rfl
  | cons w ws ih =>
    rw [List.foldl_cons, ih, view_putOwn, Ledger.last?]
    cases Ledger.last? ws key with
    | some m => rfl
    | none => by_cases hk : w.1 = key <;> simp [hk, hin]

theorem data_foldl_putOwn (s : AppDB)
    (hin : app.searchKeyIntraShard key = false) :
    (ws.foldl (AppDB.putOwn app) s).db.data key = s.db.data key := by
  induction ws generalizing s with
  | nil => rfl
  | cons w ws ih =>
    rw [List.foldl_cons, ih, AppDB.putOwn]
    by_cases hk : w.1 = key
    · subst hk
      rw [if_neg (by simp [hin])]
    · split
      · exact Function.update_of_ne (Ne.symm hk) ..
      · rfl

theorem isSome_foldl_putOwn (s : AppDB)
    (hs : (s.db.data key).isSome = true) :
    ((ws.foldl (AppDB.putOwn app) s).db.data key).isSome = true := by
  induction ws generalizing s with
  | nil => exact hs
  | cons w ws ih =>
    refine ih _ ?_
    unfold AppDB.putOwn
    split
    · by_cases hk : key = w.1
      · simp [AppDB.put, hk]
      · simpa [AppDB.put, Function.update_of_ne hk] using hs
    · exact hs

/-! ## The whole transfer -/

/-- The transfer will succeed: it is valid and names this shard, every account can be read and is
free, and every debit is covered. -/
structure Ready (app : Application) (tx : TransferTx) (s : AppDB) : Prop where
  included : app.chainId ∈ tx.shards
  valid : tx.Valid
  debits : tx.debits.all (canDebit app s) = true
  credits : tx.credits.all (fun c => usable app s c.1) = true

/-- The state after a successful transfer. -/
structure Done (app : Application) (tx : TransferTx) (s s' : AppDB) : Prop where
  money : ∀ key, app.searchKeyIntraShard key = true →
    (s'.view key).money = Ledger.transfer (ledger app s) tx.debits tx.credits key
  locked : ∀ key, app.searchKeyIntraShard key = true →
    (s'.view key).locked = if key ∈ tx.keys then freeIdentifier else (s.view key).locked
  other : ∀ key, app.searchKeyIntraShard key = false → s'.db.data key = s.db.data key
  isSome : ∀ key, (s.db.data key).isSome = true → (s'.db.data key).isSome = true
  special : s'.db.special = s.db.special
  retainData : s'.retainData = s.retainData

theorem Ready.usable_of_mem (hr : Ready app tx s) (hk : key ∈ tx.keys) :
    usable app s key = true := by
  rcases Transfer.exists_of_mem_keys hr.valid hk with ⟨d, hd, rfl⟩ | ⟨c, hc, rfl⟩
  · exact (Bool.and_eq_true_iff.mp (List.all_eq_true.mp hr.debits d hd)).1
  · exact List.all_eq_true.mp hr.credits c hc

theorem Done.view_of_not_mem (h : Done app tx s s') (hv : tx.Valid) (hk : key ∉ tx.keys) :
    s'.view key = s.view key := by
  cases hin : app.searchKeyIntraShard key with
  | false => rw [AppDB.view, h.other key hin, AppDB.view]
  | true =>
    have hmoney : (s'.view key).money = (s.view key).money := by
      rw [h.money key hin, transfer_of_not_mem hv _ hk]
      simp [ledger, look, hin]
    have hlocked : (s'.view key).locked = (s.view key).locked := by
      rw [h.locked key hin, if_neg hk]
    show Value.mk (s'.view key).money (s'.view key).locked = _
    rw [hmoney, hlocked]

theorem reads_debits (l : List (Str × UInt32)) :
    Reads (Touched app) (mapEach (readFrom app) l) fun s =>
      if l.all (canDebit app s) then some (l.map fun d => ledger app s d.1 - d.2) else none := by
  refine (Reads.mapEach Touched.refl Touched.trans reads_readFrom (fun d s s' h => ?_) l).congr
    fun s => mapM_guard (canDebit app s) (fun d => ledger app s d.1 - d.2) l
  have hc : canDebit app s d = canDebit app s' d := blind_canDebit d s s' h
  have hl : ledger app s d.1 = ledger app s' d.1 := blind_ledger d.1 s s' h
  simp only [hc, hl]

theorem reads_credits (l : List (Str × UInt32)) :
    Reads (Touched app) (mapEach (readTo app) l) fun s =>
      if l.all (fun c => usable app s c.1) then some (l.map fun c => ledger app s c.1 + c.2)
      else none := by
  refine (Reads.mapEach Touched.refl Touched.trans reads_readTo (fun c s s' h => ?_) l).congr
    fun s => mapM_guard (fun c => usable app s c.1) (fun c => ledger app s c.1 + c.2) l
  have hu : usable app s c.1 = usable app s' c.1 := blind_usable c.1 s s' h
  have hl : ledger app s c.1 = ledger app s' c.1 := blind_ledger c.1 s s' h
  simp only [hu, hl]

theorem Ready.touched (h : Touched app s s') (hr : Ready app tx s) : Ready app tx s' := by
  have hu : ∀ key, usable app s key = usable app s' key := fun key => blind_usable key s s' h
  have hc : canDebit app s = canDebit app s' := funext fun d => blind_canDebit d s s' h
  refine ⟨hr.included, hr.valid, hc ▸ hr.debits, ?_⟩
  simpa only [hu] using hr.credits

theorem done_writes (hv : tx.Valid) (ht : Touched app s s') :
    Done app tx s ((tx.writes (ledger app s)).foldl (AppDB.putOwn app) s') := by
  obtain ⟨hspecial, hretain⟩ := @foldl_putOwn_special app (tx.writes (ledger app s)) s'
  refine ⟨fun key hin => ?_, fun key hin => ?_, fun key hin => ?_, fun key hs => ?_, ?_, ?_⟩
  · have hledger : ledger app s key = (s.view key).money := by simp [ledger, look, hin]
    rw [view_foldl_putOwn _ _ hin, ht.view, Ledger.transfer, Ledger.writeAll_apply, hledger]
    show _ = (Ledger.last? (tx.writes (ledger app s)) key).getD (s.view key).money
    cases Ledger.last? (tx.writes (ledger app s)) key <;> rfl
  · have hkeys := Transfer.map_fst_writes hv (ledger app s)
    rw [view_foldl_putOwn _ _ hin, ht.view]
    cases hw : Ledger.last? (tx.writes (ledger app s)) key with
    | none =>
      rw [Ledger.last?_eq_none, hkeys] at hw
      simp [hw]
    | some m =>
      have hmem := List.mem_map_of_mem (f := Prod.fst) (Ledger.mem_of_last? hw)
      rw [hkeys] at hmem
      simp [hmem]
  · rw [data_foldl_putOwn _ _ hin]
    rcases ht.data key with h | ⟨h, -, -⟩
    · exact h
    · rw [hin] at h
      cases h
  · exact isSome_foldl_putOwn _ _ (ht.isSome hs)
  · rw [hspecial, ht.special]
  · rw [hretain, ht.retainData]

theorem doTransfer_ok (hr : Ready app tx s) :
    ∃ s', doTransfer app tx s = (.ok (), s') ∧ Done app tx s s' := by
  obtain ⟨hstate, hvalid⟩ := run_validateTransfer BankError.lengths .empty .sums tx.toTransfer s
  have hval : validateTransferTx tx.toTransfer s = (.ok (), s) :=
    Prod.ext (hvalid.mpr hr.valid) hstate
  obtain ⟨s₁, hfrom, ht₁⟩ := (reads_debits tx.debits).run_ok (if_pos hr.debits)
  obtain ⟨s₂, hto, ht₂⟩ := (reads_credits tx.credits).run_ok (if_pos (hr.touched ht₁).credits)
  have hledger : ∀ key, ledger app s₁ key = ledger app s key := fun key =>
    (blind_ledger key s s₁ ht₁).symm
  refine ⟨(tx.writes (ledger app s)).foldl (AppDB.putOwn app) s₂, ?_,
    done_writes hr.valid (Touched.trans _ _ _ ht₁ ht₂)⟩
  unfold doTransfer
  rw [run_bind_ok (require_eq_ok.mpr ⟨by simpa using hr.included, rfl⟩), run_bind_ok hval,
    run_bind_ok hfrom, run_bind_ok hto, run_bind_ok (run_writeBalances _ _), run_writeBalances,
    Transfer.writes, List.foldl_append]
  simp only [hledger, Transfer.debits, Transfer.credits, zip_map_zip]

/-- One that is not ready fails, and the view stays as it was. -/
theorem doTransfer_error (hr : ¬ Ready app tx s) :
    ∃ e s', doTransfer app tx s = (.error e, s') ∧ Touched app s s' := by
  unfold doTransfer
  by_cases hin : app.chainId ∈ tx.shards
  · rw [run_bind_ok (require_eq_ok.mpr ⟨by simpa using hin, rfl⟩)]
    obtain ⟨hstate, hvalid⟩ := run_validateTransfer BankError.lengths .empty .sums tx.toTransfer s
    by_cases hv : tx.Valid
    · have hval : validateTransferTx tx.toTransfer s = (.ok (), s) :=
        Prod.ext (hvalid.mpr hv) hstate
      rw [run_bind_ok hval]
      by_cases hd : tx.debits.all (canDebit app s) = true
      · obtain ⟨s₁, hfrom, ht₁⟩ := (reads_debits tx.debits).run_ok (if_pos hd)
        rw [run_bind_ok hfrom]
        have hc : ¬ (tx.credits.all (fun c => usable app s₁ c.1) = true) := by
          intro hc
          have hu : ∀ key, usable app s key = usable app s₁ key := fun key =>
            blind_usable key s s₁ ht₁
          refine hr ⟨hin, hv, hd, ?_⟩
          simpa only [hu] using hc
        obtain ⟨e, s₂, hto, ht₂⟩ := (reads_credits tx.credits).run_error (if_neg hc)
        exact ⟨e, s₂, run_bind_error hto, Touched.trans _ _ _ ht₁ ht₂⟩
      · obtain ⟨e, s₁, hfrom, ht₁⟩ := (reads_debits tx.debits).run_error (if_neg hd)
        exact ⟨e, s₁, run_bind_error hfrom, ht₁⟩
    · cases hres : (validateTransferTx tx.toTransfer s).1 with
      | ok u => exact absurd (hvalid.mp hres) hv
      | error e => exact ⟨e, s, run_bind_error (Prod.ext hres hstate), Touched.refl s⟩
  · have hno : tx.shards.contains app.chainId = false := by simpa using hin
    rw [hno]
    exact ⟨.notIncluded, s, rfl, Touched.refl s⟩

theorem avoids_panic_get (key : Str) : Avoids .panic (get app key) := by
  intro s h
  by_cases hin : app.searchKeyIntraShard key = true
  · cases hd : s.db.data key <;> simp [get, set, run_bind, hin, hd] at h
  · cases hr : s.retainData key <;> simp [get, run_bind, hin, hr] at h

theorem avoids_panic_doTransfer (tx : TransferTx) : Avoids .panic (doTransfer app tx) := by
  have hwrite : ∀ w, Avoids .panic (writeBalance app w) := by
    intro w s h
    cases h
  have hfrom : ∀ d, Avoids .panic (readFrom app d) := fun d =>
    Avoids.bind (avoids_panic_get d.1) fun v => Avoids.bind (Avoids.require (by decide) _) fun _ =>
      Avoids.bind (Avoids.require (by decide) _) fun _ => Avoids.pure _ _
  have hto : ∀ c, Avoids .panic (readTo app c) := fun c =>
    Avoids.bind (avoids_panic_get c.1) fun v => Avoids.bind (Avoids.require (by decide) _) fun _ =>
      Avoids.pure _ _
  have hvalid : Avoids .panic (validateTransferTx tx.toTransfer : Act Unit) :=
    Avoids.bind (Avoids.require (by decide) _) fun _ =>
      Avoids.bind (Avoids.require (by decide) _) fun _ => Avoids.require (by decide) _
  exact Avoids.bind (Avoids.require (by decide) _) fun _ => Avoids.bind hvalid fun _ =>
    Avoids.bind (Avoids.mapEach hfrom _) fun _ => Avoids.bind (Avoids.mapEach hto _) fun _ =>
      Avoids.bind (Avoids.forEach hwrite _) fun _ => Avoids.forEach hwrite _

/-- **What a transfer can do**: fail and leave the view as it was, or be ready and be carried
out. -/
theorem doTransfer_cases (tx : TransferTx) (s : AppDB) :
    (∃ e s', e ≠ .panic ∧ doTransfer app tx s = (.error e, s') ∧ Touched app s s') ∨
      ∃ s', doTransfer app tx s = (.ok (), s') ∧ Ready app tx s ∧ Done app tx s s' := by
  by_cases hr : Ready app tx s
  · obtain ⟨s', hrun, hdone⟩ := doTransfer_ok hr
    exact .inr ⟨s', hrun, hr, hdone⟩
  · obtain ⟨e, s', hrun, htouched⟩ := doTransfer_error hr
    refine .inl ⟨e, s', fun he => ?_, hrun, htouched⟩
    exact avoids_panic_doTransfer tx s (by rw [hrun, he])

theorem ready_of_doTransfer (h : doTransfer app tx s = (.ok (), s')) :
    Ready app tx s ∧ Done app tx s s' := by
  rcases @doTransfer_cases app tx s with ⟨e, s₁, -, hrun, -⟩ | ⟨s₁, hrun, hr, hdone⟩
  · rw [hrun] at h
    cases h
  · obtain rfl : s₁ = s' := congrArg Prod.snd (hrun.symm.trans h)
    exact ⟨hr, hdone⟩

/-- Whether it succeeds or fails, a transfer does not touch a locked account. -/
theorem view_doTransfer_of_locked (hlocked : isFree (s.view key).locked = false) :
    (doTransfer app tx s).2.view key = s.view key := by
  rcases @doTransfer_cases app tx s with ⟨e, s', -, hrun, htouched⟩ | ⟨s', hrun, hr, hdone⟩
  · rw [hrun]
    exact congrFun htouched.view key
  · rw [hrun]
    cases hin : app.searchKeyIntraShard key with
    | false =>
      show s'.view key = s.view key
      rw [AppDB.view, hdone.other key hin, AppDB.view]
    | true =>
      refine hdone.view_of_not_mem hr.valid fun hk => ?_
      have husable := hr.usable_of_mem hk
      simp [usable, look, hin, hlocked] at husable

end Emulator.Urd.Minibank
