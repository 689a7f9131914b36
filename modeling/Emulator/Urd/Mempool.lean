import Emulator.Lib.Run
import Emulator.Libs.CList

/-!
# The mempool of Urd

Transactions wait in a `CList`, and a map finds the element of a transaction by its key. A panic is
`none`; what `ValidateTx` answers may change from call to call.

* `Serves` — the list consists of the given transactions, and the map leads to their elements.
* `serves_run` — after any calls in which no transaction is accepted twice, the mempool serves the
  accepted transactions that were not removed, in the order in which they came. The one panic is
  that of `PushBack` on a list of maximal length.
-/

namespace Emulator.Urd

/-- A hexadecimal digit. -/
def hexDigit (n : UInt8) : UInt8 := if n < 10 then 48 + n else 87 + n

/-- `TxKey`: the hash in hexadecimal digits. -/
def txKey (txHash : Bytes → Bytes) (tx : Bytes) : Str :=
  (txHash tx).flatMap fun b => [hexDigit (b / 16), hexDigit (b % 16)]

structure Mempool where
  txs : CList Bytes
  txsMap : Str → Option ℕ
  isCrossShardMempool : Bool

def newMempool (isCrossShardMempool : Bool) : Mempool := ⟨.new, fun _ => none, isCrossShardMempool⟩

namespace Mempool

variable (txHash : Bytes → Bytes)

/-- `AddTx`, with the error that it returns. -/
def addTx (m : Mempool) (validateTx : Bytes → Bool → Bool) (tx : Bytes) :
    Option (Mempool × Option String) :=
  if !validateTx tx m.isCrossShardMempool then some (m, some "An invalid transaction")
  else do
    let (txs, e) ← m.txs.pushBack tx
    some ({ m with txs := txs, txsMap := Function.update m.txsMap (txKey txHash tx) (some e) }, none)

def removeTx (m : Mempool) (tx : Bytes) : Option Mempool :=
  match m.txsMap (txKey txHash tx) with
  | none => some m
  | some e => do
    let (txs, _) ← m.txs.remove e
    some { m with txs := txs, txsMap := Function.update m.txsMap (txKey txHash tx) none }

def update (m : Mempool) (txs : List Bytes) : Option Mempool :=
  if txs.length = 0 then some m else run (removeTx txHash) m txs

/-- The loop of `ReapTx` from an element on; `none` when `fuel` turns are not enough. -/
def reapFrom (l : CList Bytes) (maxTxsBz : ℤ) : ℕ → Option ℕ → ℤ → List Bytes → Option (List Bytes)
  | _, none, _, txs => some txs
  | 0, some _, _, _ => none
  | fuel + 1, some e, current, txs => do
    let x ← l.elements e
    let current := current + x.value.length
    if current ≥ maxTxsBz then some txs
    else reapFrom l maxTxsBz fuel x.next current (txs ++ [x.value])

/-- `ReapTx`, which only reads. -/
def reapTx (m : Mempool) (maxTxsBz : ℤ) : Option (List Bytes × ℕ) :=
  (reapFrom m.txs maxTxsBz m.txs.len.toNat m.txs.front 0 []).map fun txs => (txs, txs.length)

/-! ## Calls -/

/-- A call, with the answers of `ValidateTx` at that time. -/
inductive Call
  | addTx (validateTx : Bytes → Bool → Bool) (tx : Bytes)
  | removeTx (tx : Bytes)
  | update (txs : List Bytes) (commitStatus : Bytes)

def apply (m : Mempool) : Call → Option Mempool
  | .addTx validateTx tx => (m.addTx txHash validateTx tx).map Prod.fst
  | .removeTx tx => m.removeTx txHash tx
  | .update txs _ => m.update txHash txs

/-- The transactions that a call names. -/
def Call.named : Call → List Bytes
  | .addTx _ tx => [tx]
  | .removeTx tx => [tx]
  | .update txs _ => txs

/-- The transactions that a call adds to a mempool for cross-shard transactions, or for others. -/
def Call.accepted (cross : Bool) : Call → List Bytes
  | .addTx validateTx tx => if validateTx tx cross then [tx] else []
  | .removeTx _ => []
  | .update _ _ => []

/-- The transactions that a call removes. -/
def Call.removed : Call → List Bytes
  | .addTx _ _ => []
  | .removeTx tx => [tx]
  | .update txs _ => txs

/-- The pending transactions after a call. -/
def Call.on (cross : Bool) (txs : List Bytes) (c : Call) : List Bytes :=
  txs.filter (· ∉ c.removed) ++ c.accepted cross

/-- The transactions that were accepted and not removed since, in the order in which they came. -/
def pending (cross : Bool) (calls : List Call) : List Bytes := calls.foldl (Call.on cross) []

/-- The mempool serves `txs`: they are the values of the elements `items` of its list, and the map
finds these elements by the keys. -/
structure Serves (m : Mempool) (cross : Bool) (txs : List Bytes) (items : List (ℕ × Bytes)) : Prop where
  holds : m.txs.Holds items
  values : items.map Prod.snd = txs
  txsMap : ∀ k e, m.txsMap k = some e ↔ ∃ tx, (e, tx) ∈ items ∧ txKey txHash tx = k
  maxLen : m.txs.maxLen = CList.maxLength
  isCrossShardMempool : m.isCrossShardMempool = cross

variable {txHash} {m : Mempool} {cross : Bool} {txs : List Bytes} {items : List (ℕ × Bytes)}
  {tx : Bytes}

theorem serves_newMempool (txHash : Bytes → Bytes) (cross : Bool) :
    Serves txHash (newMempool cross) cross [] [] where
  holds := CList.holds_newWithMax _
  values := rfl
  txsMap k e := by simp [newMempool]
  maxLen := rfl
  isCrossShardMempool := rfl

section

variable (h : Serves txHash m cross txs items)

include h

/-- **`AddTx`** of an accepted transaction puts it at the end, if the list may grow. -/
theorem Serves.addTx {validateTx : Bytes → Bool → Bool}
    (hvalid : validateTx tx cross = true) (hnew : ∀ tx' ∈ txs, txKey txHash tx' ≠ txKey txHash tx)
    (hlen : (txs.length : ℤ) < CList.maxLength) :
    ∃ m' items', m.addTx txHash validateTx tx = some (m', none) ∧
      Serves txHash m' cross (txs ++ [tx]) items' := by
  have hpush := CList.pushBack_eq h.holds tx
  have hvalues : txs.length = items.length := by rw [← h.values, List.length_map]
  rw [if_neg (by rw [h.maxLen, h.holds.len, ← hvalues]; omega)] at hpush
  obtain ⟨l, hpush, hholds, hmax⟩ := hpush
  refine ⟨{ m with
    txs := l, txsMap := Function.update m.txsMap (txKey txHash tx) (some m.txs.made) },
    items ++ [(m.txs.made, tx)], ?_, hholds, ?_, fun k e => ?_, hmax.trans h.maxLen,
    h.isCrossShardMempool⟩
  · rw [Mempool.addTx, h.isCrossShardMempool, hvalid, hpush]
    rfl
  · rw [List.map_append, h.values]
    rfl
  · have hkeys : ∀ tx', (e, tx') ∈ items → txKey txHash tx' ≠ txKey txHash tx := fun tx' hmem =>
      hnew tx' (h.values ▸ List.mem_map_of_mem hmem)
    by_cases hk : k = txKey txHash tx
    · subst hk
      simp only [Function.update_self, Option.some.injEq, List.mem_append, List.mem_singleton,
        Prod.mk.injEq]
      grind
    · simp only [Function.update_of_ne hk, h.txsMap, List.mem_append, List.mem_singleton,
        Prod.mk.injEq]
      grind

/-- **`RemoveTx`** takes the transaction out of the list and the map, and does not panic. -/
theorem Serves.removeTx (hnodup : txs.Nodup)
    (hinj : ∀ tx' ∈ txs, txKey txHash tx' = txKey txHash tx → tx' = tx) :
    ∃ m' items', m.removeTx txHash tx = some m' ∧
      Serves txHash m' cross (txs.filter (· ≠ tx)) items' := by
  cases he : m.txsMap (txKey txHash tx) with
  | none =>
    have hnot : tx ∉ txs := by
      intro hmem
      rw [← h.values] at hmem
      obtain ⟨⟨e, _⟩, hi, rfl⟩ := List.mem_map.mp hmem
      rw [(h.txsMap _ e).mpr ⟨_, hi, rfl⟩] at he
      cases he
    refine ⟨m, items, by rw [Mempool.removeTx, he], ?_⟩
    rwa [List.filter_eq_self.mpr fun tx' hmem => decide_eq_true (ne_of_mem_of_not_mem hmem hnot)]
  | some e =>
    obtain ⟨tx', hmem, hkey⟩ := (h.txsMap _ e).mp he
    obtain rfl := hinj tx' (h.values ▸ List.mem_map_of_mem hmem) hkey
    obtain ⟨xs, ys, rfl⟩ := List.append_of_mem hmem
    obtain ⟨l, hremove, hholds, hmax⟩ := CList.remove_eq h.holds
    obtain rfl := h.values
    rw [List.map_append, List.map_cons] at hnodup hinj ⊢
    obtain ⟨hnot, -⟩ := List.nodup_cons.mp (List.nodup_middle.mp hnodup)
    rw [← List.map_append] at hnot
    refine ⟨{ m with txs := l, txsMap := Function.update m.txsMap (txKey txHash tx') none },
      xs ++ ys, ?_, hholds, ?_, fun k e' => ?_, hmax.trans h.maxLen, h.isCrossShardMempool⟩
    · simp only [Mempool.removeTx, he, hremove]
      rfl
    · rw [List.filter_append, List.filter_cons_of_neg (by simp), ← List.filter_append,
        ← List.map_append, List.filter_eq_self.mpr fun tx₂ hmem₂ =>
          decide_eq_true (ne_of_mem_of_not_mem hmem₂ hnot)]
    · have hother : ∀ tx₂, (e', tx₂) ∈ xs ++ ys → txKey txHash tx₂ ≠ txKey txHash tx' := by
        intro tx₂ hmem₂ hkey₂
        have hmap := List.mem_map_of_mem (f := Prod.snd) hmem₂
        refine ne_of_mem_of_not_mem hmap hnot (hinj tx₂ ?_ hkey₂)
        rw [List.map_append, List.mem_append] at hmap
        simp only [List.mem_append, List.mem_cons]
        tauto
      by_cases hk : k = txKey txHash tx'
      · subst hk
        simp only [Function.update_self, reduceCtorEq, false_iff]
        grind
      · simp only [Function.update_of_ne hk, h.txsMap, List.mem_append, List.mem_cons, Prod.mk.injEq]
        grind

theorem Serves.removeTxs (hnodup : txs.Nodup) {gone : List Bytes}
    (hinj : ∀ tx' ∈ txs, ∀ tx ∈ gone, txKey txHash tx' = txKey txHash tx → tx' = tx) :
    ∃ m' items', run (Mempool.removeTx txHash) m gone = some m' ∧
      Serves txHash m' cross (txs.filter (· ∉ gone)) items' := by
  induction gone generalizing m txs items with
  | nil =>
    refine ⟨m, items, rfl, ?_⟩
    simpa using h
  | cons tx gone ih =>
    obtain ⟨m₁, items₁, hstep, h₁⟩ := h.removeTx hnodup fun tx' hmem =>
      hinj tx' hmem tx List.mem_cons_self
    obtain ⟨m₂, items₂, hrun, h₂⟩ := ih h₁ (hnodup.filter _) fun tx' hmem tx₂ hmem₂ =>
      hinj tx' (List.mem_of_mem_filter hmem) tx₂ (List.mem_cons_of_mem _ hmem₂)
    refine ⟨m₂, items₂, run_cons.mpr ⟨m₁, hstep, hrun⟩, ?_⟩
    have hfilter : txs.filter (· ∉ tx :: gone) = (txs.filter (· ≠ tx)).filter (· ∉ gone) := by
      rw [List.filter_filter]
      exact List.filter_congr fun tx' _ => by simp [Bool.and_comm]
    rwa [hfilter]

end

theorem Call.accepted_subset (cross : Bool) (c : Call) : c.accepted cross ⊆ c.named := by
  cases c with
  | addTx validateTx tx =>
    rw [accepted]
    split_ifs
    · exact List.Subset.refl _
    · exact List.nil_subset _
  | removeTx tx => exact List.nil_subset _
  | update txs _ => exact List.nil_subset _

/-- **One call**: it panics only if it accepts a transaction into a list of maximal length. -/
theorem Serves.apply (h : Serves txHash m cross txs items) (c : Call)
    (hnodup : (txs ++ c.accepted cross).Nodup)
    (hinj : ∀ a ∈ txs, ∀ b ∈ c.named, txKey txHash a = txKey txHash b → a = b) :
    (∃ m' items', m.apply txHash c = some m' ∧ Serves txHash m' cross (c.on cross txs) items') ∨
      c.accepted cross ≠ [] ∧ CList.maxLength ≤ txs.length := by
  cases c with
  | addTx validateTx tx =>
    cases hvalid : validateTx tx cross with
    | false =>
      refine .inl ⟨m, items, ?_, ?_⟩
      · simp [Mempool.apply, Mempool.addTx, h.isCrossShardMempool, hvalid]
      · simpa [Call.on, Call.removed, Call.accepted, hvalid] using h
    | true =>
      simp only [Call.accepted, hvalid, if_true] at hnodup ⊢
      by_cases hlen : (txs.length : ℤ) < CList.maxLength
      · have hnot : tx ∉ txs := fun hmem =>
          (List.nodup_append.mp hnodup).2.2 tx hmem tx (List.mem_singleton_self tx) rfl
        obtain ⟨m', items', hrun, h'⟩ := h.addTx hvalid
          (fun tx' hmem hkey => hnot (hinj tx' hmem tx (List.mem_singleton_self tx) hkey ▸ hmem)) hlen
        refine .inl ⟨m', items', by rw [Mempool.apply, hrun, Option.map_some], ?_⟩
        simpa [Call.on, Call.removed, Call.accepted, hvalid] using h'
      · exact .inr ⟨List.cons_ne_nil tx [], not_lt.mp hlen⟩
  | removeTx tx =>
    obtain ⟨m', items', hrun, h'⟩ := h.removeTx (hnodup.sublist (List.sublist_append_left ..))
      fun a ha => hinj a ha tx (List.mem_singleton_self tx)
    refine .inl ⟨m', items', hrun, ?_⟩
    simpa [Call.on, Call.removed, Call.accepted] using h'
  | update gone commitStatus =>
    obtain ⟨m', items', hrun, h'⟩ := h.removeTxs (hnodup.sublist (List.sublist_append_left ..)) hinj
    refine .inl ⟨m', items', ?_, ?_⟩
    · cases gone with
      | nil => exact hrun
      | cons tx gone => exact hrun
    · rw [Call.on, Call.accepted, List.append_nil]
      exact h'

/-- A call that accepts a transaction when `MaxLength` others are pending, on which `PushBack`
panics. -/
def Overfull (cross : Bool) (txs : List Bytes) (calls : List Call) : Prop :=
  ∃ pre c post, calls = pre ++ c :: post ∧ c.accepted cross ≠ [] ∧
    CList.maxLength ≤ (pre.foldl (Call.on cross) txs).length

theorem Serves.run (h : Serves txHash m cross txs items) (calls : List Call)
    (hnodup : (txs ++ calls.flatMap (Call.accepted cross)).Nodup)
    (hinj : ∀ a ∈ txs ++ calls.flatMap Call.named, ∀ b ∈ calls.flatMap Call.named,
      txKey txHash a = txKey txHash b → a = b) :
    (∃ m' items', Emulator.run (Mempool.apply txHash) m calls = some m' ∧
      Serves txHash m' cross (calls.foldl (Call.on cross) txs) items') ∨ Overfull cross txs calls := by
  induction calls generalizing m txs items with
  | nil => exact .inl ⟨m, items, rfl, h⟩
  | cons c calls ih =>
    rw [List.flatMap_cons, ← List.append_assoc] at hnodup
    simp only [List.flatMap_cons, List.mem_append] at hinj
    have hstep := h.apply c (hnodup.sublist (List.sublist_append_left ..)) fun a ha b hb =>
      hinj a (.inl ha) b (.inl hb)
    rcases hstep with ⟨m₁, items₁, hstep, h₁⟩ | hfull
    · have hon : (c.on cross txs).Sublist (txs ++ c.accepted cross) :=
        List.Sublist.append_right List.filter_sublist _
      have hnext := ih h₁ (hnodup.sublist (hon.append_right _)) fun a ha b hb => hinj a ?_ b (.inr hb)
      · rcases hnext with ⟨m₂, items₂, hrun, h₂⟩ | ⟨pre, c', post, rfl, hfull⟩
        · exact .inl ⟨m₂, items₂, run_cons.mpr ⟨m₁, hstep, hrun⟩, h₂⟩
        · exact .inr ⟨c :: pre, c', post, rfl, hfull⟩
      · rcases List.mem_append.mp ha with ha | ha
        · rcases List.mem_append.mp (hon.subset ha) with ha | ha
          · exact .inl ha
          · exact .inr (.inl (c.accepted_subset cross ha))
        · exact .inr (.inr ha)
    · exact .inr ⟨[], c, calls, rfl, hfull⟩

/-! ## `ReapTx` -/

/-- The longest prefix of `all` with fewer than `maxTxsBz` bytes; for a bound that is not positive,
which no prefix meets, the empty one. -/
structure Longest (maxTxsBz : ℤ) (all txs : List Bytes) : Prop where
  isPrefix : txs <+: all
  fits : 0 < maxTxsBz → (txs.flatten.length : ℤ) < maxTxsBz
  longest : ∀ pre, pre <+: all → (pre.flatten.length : ℤ) < maxTxsBz → pre <+: txs
  empty : maxTxsBz ≤ 0 → txs = []

theorem longest_nil {maxTxsBz : ℤ} {all : List Bytes}
    (h : ∀ tx ∈ all.head?, maxTxsBz ≤ tx.length) : Longest maxTxsBz all [] where
  isPrefix := List.nil_prefix
  fits hpos := by simpa using hpos
  longest pre hpre hlt := by
    cases pre with
    | nil => exact List.nil_prefix
    | cons tx pre =>
      obtain ⟨rest, rfl⟩ := hpre
      have := h tx rfl
      simp only [List.flatten_cons, List.length_append] at hlt
      omega
  empty _ := rfl

theorem Longest.cons {maxTxsBz : ℤ} {all txs : List Bytes}
    (h : Longest (maxTxsBz - tx.length) all txs) (hlt : tx.length < maxTxsBz) :
    Longest maxTxsBz (tx :: all) (tx :: txs) where
  isPrefix := List.cons_prefix_cons.mpr ⟨rfl, h.isPrefix⟩
  fits _ := by
    have := h.fits (by omega)
    simp only [List.flatten_cons, List.length_append]
    omega
  longest pre hpre hfits := by
    cases pre with
    | nil => exact List.nil_prefix
    | cons tx' pre =>
      obtain ⟨rfl, hrest⟩ := List.cons_prefix_cons.mp hpre
      simp only [List.flatten_cons, List.length_append] at hfits
      exact List.cons_prefix_cons.mpr ⟨rfl, h.longest pre hrest (by omega)⟩
  empty hle := by omega

/-- The loop, from a segment of the list on. -/
theorem reapFrom_eq {l : CList Bytes} {p : Option ℕ} (h : CList.Linked l.elements p items none)
    (maxTxsBz current : ℤ) (acc : List Bytes) :
    ∃ txs, reapFrom l maxTxsBz items.length (CList.first items none) current acc =
      some (acc ++ txs) ∧ Longest (maxTxsBz - current) (items.map Prod.snd) txs := by
  induction items generalizing p current acc with
  | nil =>
    refine ⟨[], ?_, longest_nil fun tx htx => by cases htx⟩
    rw [List.append_nil]
    rfl
  | cons x items ih =>
    obtain ⟨a, tx⟩ := x
    obtain ⟨ha, h⟩ := h
    have hturn : reapFrom l maxTxsBz (items.length + 1) (some a) current acc =
        if current + tx.length ≥ maxTxsBz then some acc
        else reapFrom l maxTxsBz items.length (CList.first items none) (current + tx.length)
          (acc ++ [tx]) := by
      rw [reapFrom, ha]
      rfl
    rw [List.length_cons, CList.first, hturn]
    split_ifs with hstop
    · refine ⟨[], by rw [List.append_nil], longest_nil fun tx' htx' => ?_⟩
      obtain rfl : tx = tx' := Option.some.inj htx'
      omega
    · obtain ⟨txs, hrun, hlong⟩ := ih h (current + tx.length) (acc ++ [tx])
      refine ⟨tx :: txs, by rw [hrun, List.append_assoc]; rfl, ?_⟩
      rw [← sub_sub] at hlong
      exact hlong.cons (by omega)

/-- **`ReapTx`** ends and returns the longest prefix that is small enough. -/
theorem Serves.reapTx (h : Serves txHash m cross txs items) (maxTxsBz : ℤ) :
    ∃ reaped, m.reapTx maxTxsBz = some (reaped, reaped.length) ∧ Longest maxTxsBz txs reaped := by
  obtain ⟨reaped, hrun, hlong⟩ := reapFrom_eq h.holds.linked maxTxsBz 0 []
  rw [sub_zero, h.values] at hlong
  refine ⟨reaped, ?_, hlong⟩
  rw [Mempool.reapTx, CList.front, h.holds.head, h.holds.len, Int.toNat_natCast, hrun]
  rfl

/-- **The mempool.** After any calls that name transactions with distinct keys and accept none
twice, the list holds the accepted transactions that were not removed, in the order in which they
came, the map finds exactly their elements, any of them can be removed, and `ReapTx` returns the
longest prefix below the bound. The calls go through unless `PushBack` finds `MaxLength`
elements. -/
theorem serves_run (txHash : Bytes → Bytes) (cross : Bool) (calls : List Call)
    (hnodup : (calls.flatMap (Call.accepted cross)).Nodup)
    (hinj : ∀ a ∈ calls.flatMap Call.named, ∀ b ∈ calls.flatMap Call.named,
      txKey txHash a = txKey txHash b → a = b) :
    (∃ m items, run (apply txHash) (newMempool cross) calls = some m ∧ m.txs.Holds items ∧
      items.map Prod.snd = pending cross calls ∧
      (∀ k e, m.txsMap k = some e ↔ ∃ tx, (e, tx) ∈ items ∧ txKey txHash tx = k) ∧
      (∀ i ∈ items, ∃ l, m.txs.remove i.1 = some (l, i.2)) ∧
      ∀ maxTxsBz, ∃ txs, m.reapTx maxTxsBz = some (txs, txs.length) ∧
        Longest maxTxsBz (pending cross calls) txs) ∨ Overfull cross [] calls := by
  refine ((serves_newMempool txHash cross).run calls hnodup hinj).imp_left ?_
  rintro ⟨m, items, hrun, h⟩
  refine ⟨m, items, hrun, h.holds, h.values, h.txsMap, fun i hi => ?_, h.reapTx⟩
  obtain ⟨xs, ys, rfl⟩ := List.append_of_mem hi
  obtain ⟨l, hremove, -⟩ := CList.remove_eq h.holds
  exact ⟨l, hremove⟩

/-- Three transactions come, and the second is removed. -/
theorem serves_run_three :
    (∃ m items, run (apply id) (newMempool false) [.addTx (fun _ _ => true) [1],
        .addTx (fun _ _ => true) [2, 2], .addTx (fun _ _ => true) [3], .removeTx [2, 2]] = some m ∧
      m.txs.Holds items ∧ items.map Prod.snd = [[1], [3]] ∧
      (∀ k e, m.txsMap k = some e ↔ ∃ tx, (e, tx) ∈ items ∧ txKey id tx = k) ∧
      (∀ i ∈ items, ∃ l, m.txs.remove i.1 = some (l, i.2)) ∧
      ∀ maxTxsBz, ∃ txs, m.reapTx maxTxsBz = some (txs, txs.length) ∧
        Longest maxTxsBz [[1], [3]] txs) ∨
      Overfull false [] [.addTx (fun _ _ => true) [1], .addTx (fun _ _ => true) [2, 2],
        .addTx (fun _ _ => true) [3], .removeTx [2, 2]] :=
  serves_run id false _ (by decide) (by decide)

end Mempool

end Emulator.Urd
