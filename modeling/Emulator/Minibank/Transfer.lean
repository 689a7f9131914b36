import Emulator.Base
import Emulator.Lib.Action
import Emulator.Lib.Ledger

/-!
# Transfers, as both minibanks know them

The Urd and the Pyramid application share the shape of a transfer: accounts and amounts on two
sides, checked by `ValidateTransferTx` before anything is read.

* `run_validateTransfer` — the check succeeds exactly on `Valid` transfers, and changes nothing.
-/

namespace Emulator.Minibank

open Emulator.Action

/-- The balance of an account that was never written. -/
def initBalance : UInt32 := 1000000

/-- The two sides of a `TransferTx`. -/
structure Transfer where
  froms : List Str
  tos : List Str
  fromMoney : List UInt32
  toMoney : List UInt32
  deriving DecidableEq, Repr

/-- The accounts of the transfer, in the order `append(tx.From, tx.To...)`. -/
def Transfer.keys (tx : Transfer) : List Str := tx.froms ++ tx.tos

def Transfer.debits (tx : Transfer) : List (Str × UInt32) := tx.froms.zip tx.fromMoney
def Transfer.credits (tx : Transfer) : List (Str × UInt32) := tx.tos.zip tx.toMoney

/-- The sum loop of `ValidateTransferTx`, in `uint32`. -/
def moneySum (money : List UInt32) : UInt32 := money.foldl (· + ·) 0

/-- What `ValidateTransferTx` asks of a transfer. -/
structure Transfer.Valid (tx : Transfer) : Prop where
  from_length : tx.froms.length = tx.fromMoney.length
  to_length : tx.tos.length = tx.toMoney.length
  from_nonempty : tx.froms ≠ []
  to_nonempty : tx.tos ≠ []
  sums : moneySum tx.fromMoney = moneySum tx.toMoney

instance (tx : Transfer) : Decidable tx.Valid :=
  decidable_of_iff (tx.froms.length = tx.fromMoney.length ∧ tx.tos.length = tx.toMoney.length ∧
    tx.froms ≠ [] ∧ tx.tos ≠ [] ∧ moneySum tx.fromMoney = moneySum tx.toMoney)
    ⟨fun ⟨h₁, h₂, h₃, h₄, h₅⟩ => ⟨h₁, h₂, h₃, h₄, h₅⟩,
      fun h => ⟨h.from_length, h.to_length, h.from_nonempty, h.to_nonempty, h.sums⟩⟩

/-- The writes of a transfer over the balances `bal`, debits first. -/
def Transfer.writes (bal : Str → UInt32) (tx : Transfer) : List (Str × UInt32) :=
  tx.debits.map (fun d => (d.1, bal d.1 - d.2)) ++ tx.credits.map (fun c => (c.1, bal c.1 + c.2))

variable {tx : Transfer} {key : Str}

theorem Transfer.map_fst_writes (h : tx.Valid) (bal : Str → UInt32) :
    (tx.writes bal).map Prod.fst = tx.keys := by
  simp only [writes, List.map_append, List.map_map, Function.comp_def, keys]
  congr 1
  · exact List.map_fst_zip (Nat.le_of_eq h.from_length)
  · exact List.map_fst_zip (Nat.le_of_eq h.to_length)

theorem Transfer.exists_of_mem_keys (h : tx.Valid) (hk : key ∈ tx.keys) :
    (∃ d ∈ tx.debits, d.1 = key) ∨ ∃ c ∈ tx.credits, c.1 = key := by
  rw [← map_fst_writes h fun _ => 0, writes, List.map_append, List.mem_append] at hk
  simpa using hk

theorem Transfer.mem_keys_of_debit {d : Str × UInt32} (hd : d ∈ tx.debits) : d.1 ∈ tx.keys :=
  List.mem_append_left _ (List.of_mem_zip hd).1

theorem Transfer.mem_keys_of_credit {c : Str × UInt32} (hc : c ∈ tx.credits) : c.1 ∈ tx.keys :=
  List.mem_append_right _ (List.of_mem_zip hc).1

theorem Transfer.nodup_accounts (h : tx.Valid) (hnd : tx.keys.Nodup) :
    (tx.debits.map Prod.fst ++ tx.credits.map Prod.fst).Nodup := by
  rw [debits, credits, List.map_fst_zip (Nat.le_of_eq h.from_length),
    List.map_fst_zip (Nat.le_of_eq h.to_length)]
  exact hnd

theorem last?_writes_of_not_mem (hv : tx.Valid) (bal : Str → UInt32) (hk : key ∉ tx.keys) :
    Ledger.last? (tx.writes bal) key = none := by
  rw [Ledger.last?_eq_none, Transfer.map_fst_writes hv]
  exact hk

theorem transfer_of_not_mem (hv : tx.Valid) (bal : Str → UInt32) (hk : key ∉ tx.keys) :
    Ledger.transfer bal tx.debits tx.credits key = bal key := by
  show Ledger.writeAll bal (tx.writes bal) key = bal key
  rw [Ledger.writeAll_apply, last?_writes_of_not_mem hv bal hk]
  rfl

theorem zip_map_zip (keys : List Str) (money : List UInt32) (g : Str × UInt32 → UInt32) :
    keys.zip ((keys.zip money).map g) = (keys.zip money).map fun d => (d.1, g d) := by
  induction keys generalizing money with
  | nil => rfl
  | cons k keys ih =>
    cases money with
    | nil => rfl
    | cons m money => exact congrArg _ (ih money)

/-- Account `a` pays 5 to account `b`. -/
def payment (a b : Str) : Transfer := { froms := [a], tos := [b], fromMoney := [5], toMoney := [5] }

variable {ε σ : Type}

/-- `ValidateTransferTx`, with the error for each of its three checks. -/
def validateTransfer (lengths empty sums : ε) (tx : Transfer) : Action ε σ Unit := do
  require (tx.froms.length == tx.fromMoney.length && tx.tos.length == tx.toMoney.length) lengths
  require (!tx.froms.isEmpty && !tx.tos.isEmpty) empty
  require (moneySum tx.fromMoney == moneySum tx.toMoney) sums

theorem run_validateTransfer (lengths empty sums : ε) (tx : Transfer) (s : σ) :
    (validateTransfer lengths empty sums tx s).2 = s ∧
      ((validateTransfer lengths empty sums tx s).1 = .ok () ↔ tx.Valid) := by
  unfold validateTransfer
  cases hlen : tx.froms.length == tx.fromMoney.length && tx.tos.length == tx.toMoney.length with
  | false =>
    rw [run_bind_error (run_require_false _ s)]
    refine ⟨rfl, iff_of_false (by simp) fun h => ?_⟩
    simp [h.from_length, h.to_length] at hlen
  | true =>
    rw [run_bind_ok (run_require_true _ s)]
    cases hne : !tx.froms.isEmpty && !tx.tos.isEmpty with
    | false =>
      rw [run_bind_error (run_require_false _ s)]
      refine ⟨rfl, iff_of_false (by simp) fun h => ?_⟩
      simp [h.from_nonempty, h.to_nonempty] at hne
    | true =>
      rw [run_bind_ok (run_require_true _ s)]
      simp only [Bool.and_eq_true, beq_iff_eq, Bool.not_eq_true', List.isEmpty_eq_false_iff]
        at hlen hne
      cases hsum : moneySum tx.fromMoney == moneySum tx.toMoney with
      | false =>
        refine ⟨rfl, iff_of_false (by simp) fun h => ?_⟩
        simp [h.sums] at hsum
      | true =>
        exact ⟨rfl, iff_of_true rfl ⟨hlen.1, hlen.2, hne.1, hne.2, by simpa using hsum⟩⟩

theorem frames_validateTransfer (lengths empty sums : ε) (tx : Transfer) (f : σ → σ) :
    Frames f (validateTransfer lengths empty sums tx) :=
  Frames.bind (fun _ => rfl) fun _ => Frames.bind (fun _ => rfl) fun _ => fun _ => rfl

theorem Transfer.accounts_debits (h : tx.Valid) :
    Ledger.accounts tx.debits = tx.froms.toFinset := by
  rw [Ledger.accounts, debits, List.map_fst_zip (Nat.le_of_eq h.from_length)]

theorem Transfer.accounts_credits (h : tx.Valid) :
    Ledger.accounts tx.credits = tx.tos.toFinset := by
  rw [Ledger.accounts, credits, List.map_fst_zip (Nat.le_of_eq h.to_length)]

theorem accounts_subset (hv : tx.Valid) {S : Finset Str} (hS : ∀ key ∈ tx.keys, key ∈ S) :
    Ledger.accounts tx.debits ⊆ S ∧ Ledger.accounts tx.credits ⊆ S := by
  rw [Transfer.accounts_debits hv, Transfer.accounts_credits hv]
  refine ⟨fun key hk => hS key ?_, fun key hk => hS key ?_⟩
  · exact List.mem_append_left _ (List.mem_toFinset.mp hk)
  · exact List.mem_append_right _ (List.mem_toFinset.mp hk)

end Emulator.Minibank
