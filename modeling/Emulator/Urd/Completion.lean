import Emulator.Urd.Atomicity

/-!
# Does one participant complete a cross-shard transfer?

A participant should end with its accounts free, and with the balances the transfer leads to on the
balances all participants have relayed, whatever the order of its lock and of the relays.

* `snapshot` and `outcome` — the relayed balances, and `doTransfer` on them.
* `completed_iff` — a participant gets there exactly if the lock is not its last event and, the
  funds being there, its order `completes` or the transfer moves nothing at it.
-/

namespace Emulator.Urd.Minibank.Prepared

open Emulator.Action Emulator.Minibank

/-- The relayed snapshot at a shard: its own accounts as it shipped them, and the balances of all
relays loaded. -/
def snapshot (t : Prepared) (shard : Str) : AppDB :=
  (newDB (t.db shard)).loadAll (t.tx.shards.flatMap fun p => (t.datas p).entries)

/-- `doTransfer` on the relayed snapshot. -/
def outcome (t : Prepared) (shard : Str) : AppDB :=
  (doTransfer (t.app shard) t.tx (t.snapshot shard)).2

/-- The shard's accounts are free, with the balances of the outcome. -/
def Completed (t : Prepared) (shard : Str) (s : AppDB) : Prop :=
  ∀ key ∈ t.keysOf shard, s.view key = ⟨(t.outcome shard).balance key, freeIdentifier⟩

variable {t : Prepared} {shard : Str}

/-! ## The outcome -/

section

variable (hs : shard ∈ t.tx.shards)

include hs

/-- Nothing is locked when the shard prepares the transfer, so loading the set would unlock
nothing. -/
theorem loaded_snapshot :
    Loaded (t.app shard) t.tx.shards (present t.datas t.tx.shards) (newDB (t.db shard))
      (t.snapshot shard) := by
  refine ⟨fun key => ?_, fun _ => rfl, rfl, fun key => ?_⟩
  · split
    · next hk =>
      have hfree := (accepted_app hs).free key (keys_present.mp hk.2).2
      have hlocked : ((newDB (t.db shard)).view key).locked = freeIdentifier := of_decide_eq_true hfree
      rw [← hlocked]
      rfl
    · rfl
  · have hdatas : (t.tx.shards.flatMap fun p => (present t.datas t.tx.shards p).entries) =
        t.tx.shards.flatMap fun p => (t.datas p).entries := by
      refine List.flatMap_congr fun p hp => ?_
      rw [present, if_pos hp]
    rw [hdatas]
    rfl

/-- In the snapshot every account of the transfer is there and free. -/
theorem look_snapshot {key : Str} (hk : key ∈ t.tx.keys) :
    look (t.app shard) (t.snapshot shard) key = some ⟨t.balance key, freeIdentifier⟩ := by
  obtain ⟨q, hq, hkq⟩ := exists_owner hk
  rw [look_loaded hs (loaded_snapshot hs) rfl hq hkq]
  by_cases hown : q = shard
  · subst hown
    rw [if_pos rfl, if_pos hs, balance_keysOf hkq]
    rfl
  · rw [if_neg hown, if_pos hq]

theorem ready_snapshot :
    Ready (t.app shard) t.tx (t.snapshot shard) ↔ t.Funds := by
  have husable : ∀ key ∈ t.tx.keys, usable (t.app shard) (t.snapshot shard) key = true := by
    intro key hk
    simp [usable, look_snapshot hs hk, isFree]
  have hledger : ∀ key ∈ t.tx.keys, ledger (t.app shard) (t.snapshot shard) key = t.balance key := by
    intro key hk
    simp [ledger, look_snapshot hs hk]
  constructor
  · intro hr d hd
    have hcan := List.all_eq_true.mp hr.debits d hd
    rw [canDebit, Bool.and_eq_true_iff, hledger _ (Transfer.mem_keys_of_debit hd)] at hcan
    exact of_decide_eq_true hcan.2
  · intro hfunds
    refine ⟨hs, valid_tx, List.all_eq_true.mpr fun d hd => ?_, List.all_eq_true.mpr fun c hc => ?_⟩
    · rw [canDebit, Bool.and_eq_true_iff, hledger _ (Transfer.mem_keys_of_debit hd)]
      exact ⟨husable _ (Transfer.mem_keys_of_debit hd), decide_eq_true (hfunds d hd)⟩
    · exact husable _ (Transfer.mem_keys_of_credit hc)

/-- The outcome at the shard's accounts: the expected balances, or the old ones if the funds are
missing. -/
theorem balance_outcome {key : Str} (hk : key ∈ t.keysOf shard) :
    (t.outcome shard).balance key = if t.Funds then t.expected key else t.balance key := by
  have hin : (t.app shard).searchKeyIntraShard key = true := (List.mem_filter.mp hk).2
  have hledger : ledger (t.app shard) (t.snapshot shard) key = t.balance key := by
    simp [ledger, look_snapshot hs (mem_keysOf.mp hk).1]
  split
  · next hfunds =>
    obtain ⟨s', hrun, hdone⟩ := doTransfer_ok ((ready_snapshot hs).mpr hfunds)
    rw [outcome, hrun]
    exact (hdone.money key hin).trans (Ledger.transfer_congr _ _ hledger)
  · next hfunds =>
    obtain ⟨e, s', hrun, htouched⟩ := doTransfer_error (mt (ready_snapshot hs).mp hfunds)
    rw [outcome, hrun, AppDB.balance, htouched.view]
    exact (balance_keysOf hk).symm

end

/-! ## The end of a run -/

theorem completed_of_locked {early : List Str} {seen done : Bool} {s : AppDB}
    (hs : shard ∈ t.tx.shards) (h : t.Locked shard early seen done s) :
    t.Completed shard s ↔
      seen = true ∧ ∀ key ∈ t.keysOf shard,
        (if done then t.expected key else t.balance key) =
          if t.Funds then t.expected key else t.balance key := by
  have hview : ∀ key ∈ t.keysOf shard,
      (s.view key = ⟨(t.outcome shard).balance key, freeIdentifier⟩ ↔ seen = true ∧
        (if done then t.expected key else t.balance key) =
          if t.Funds then t.expected key else t.balance key) := by
    intro key hk
    have hview : s.view key = ⟨if done then t.expected key else t.balance key,
        if seen then freeIdentifier else wLockedIdentifier⟩ := by
      rw [← h.money key hk, ← h.locked key hk]
    rw [hview, balance_outcome hs hk, Value.mk.injEq, and_comm]
    cases seen <;> simp [freeIdentifier, wLockedIdentifier]
  obtain ⟨key, hk⟩ := keysOf_nonempty hs
  constructor
  · intro hc
    exact ⟨((hview key hk).mp (hc key hk)).1, fun key hk => ((hview key hk).mp (hc key hk)).2⟩
  · intro hseen key hk
    exact (hview key hk).mpr ⟨hseen.1, hseen.2 key hk⟩

/-- **Completion at one participant.** Whatever the order, no event panics. The participant ends
with free accounts and the balances of the outcome exactly if it does not lock the transfer last
and, the funds being there, its order completes or the transfer moves nothing at it. -/
theorem completed_iff (t : Prepared) (shard : Str) (hs : shard ∈ t.tx.shards) (order : List Event)
    (ho : t.ValidOrder order) :
    (t.run shard order).1 = .ok () ∧
    (t.Completed shard (t.run shard order).2 ↔
      lockLast order = false ∧
        (t.Funds → completes t.tx.shards shard order = true ∨ t.Idle shard)) := by
  obtain ⟨early, s', hrun, hlocked⟩ := locked_run hs ho
  rw [hrun]
  refine ⟨rfl, (completed_of_locked hs hlocked).trans ?_⟩
  rw [Bool.not_eq_true', idle_iff]
  refine and_congr_right fun _ => ?_
  by_cases hf : t.Funds
  · cases hc : completes t.tx.shards shard order <;> simp [hf, eq_comm]
  · simp [hf]

/-- If shard `B` executes its own relay first, it completes the payment. -/
theorem completed_payment_own_first :
    payment.Completed [66] (payment.run [66] (orderOf [] [[66], [65]])).2 :=
  (completed_iff payment [66] (by decide) (orderOf [] [[66], [65]])
    (by unfold ValidOrder; decide)).2.mpr ⟨by decide, fun _ => .inl (by decide)⟩

/-- Three orders at shard `B`, three end states: with its own relay last the payment is not applied,
and with the lock last the account also stays locked. -/
theorem not_completed_payment :
    (∀ order ∈ [orderOf [] [[66], [65]], orderOf [] [[65], [66]], orderOf [[65], [66]] []],
      payment.ValidOrder order ∧ (payment.run [66] order).1 = .ok ()) ∧
    (payment.outcome [66]).balance [66] = 1000005 ∧
    (payment.run [66] (orderOf [] [[66], [65]])).2.view [66] = ⟨1000005, freeIdentifier⟩ ∧
    (payment.run [66] (orderOf [] [[65], [66]])).2.view [66] = ⟨1000000, freeIdentifier⟩ ∧
    (payment.run [66] (orderOf [[65], [66]] [])).2.view [66] = ⟨1000000, wLockedIdentifier⟩ := by
  refine ⟨fun order ho => ?_, by decide, by decide +kernel, by decide +kernel, by decide +kernel⟩
  have hvalid : payment.ValidOrder order := by
    simp only [List.mem_cons, List.not_mem_nil, or_false] at ho
    unfold ValidOrder
    rcases ho with rfl | rfl | rfl <;> decide
  obtain ⟨-, s', hrun, -⟩ := @locked_run payment [66] order (by decide) hvalid
  exact ⟨hvalid, by rw [hrun]⟩

end Emulator.Urd.Minibank.Prepared
