import Emulator.Minibank.Wire
import Emulator.Pyramid.Blocks

/-!
# Who owns a lock?

`LockedKeys` does not record for which block a key was locked, a block is marked "ok" even if it was
rejected, and committing or aborting a block goes through the keys of *all* its transactions. So a
block can take away the locks of another one.

The runs here carry, next to the state, the block each lock was made for.

* `lockOwnership` — in every reachable state, settling a block touches only its own locks exactly
  when no key of its transactions is locked for another block; and along runs that meet this, a
  lock keeps its value until its block is settled.
-/

namespace Emulator.Pyramid.Minibank

open Emulator.Action Emulator.Minibank

variable (app : Application)

/-- The calls that change the state of the application. A call of `AcceptCommitShard` for several
blocks is a sequence of calls for one block each (`acceptCommitShard_ok_iff`). -/
inductive Call
  | inner (block : Block)
  | accept (block : Block) (chainID : Str) (ifcommit : Bool)
  | settle (hash : Bytes) (commit : Bool) (chainID : Str)

/-- What a call runs. -/
def Call.perform : Call → Act (List Receipt)
  | .inner block => executionInnerShard app block
  | .accept block chainID ifcommit => acceptCrossShard app block chainID ifcommit
  | .settle hash commit chainID => acceptCommitShard app [(hash, commit)] chainID

def Call.hash : Call → Bytes
  | .inner block => app.blockHash block
  | .accept block _ _ => app.blockHash block
  | .settle hash _ _ => hash

/-- The state of the application, and for every locked key the hash of the block it was locked
for. -/
structure Tracked where
  state : AppState
  owner : Str → Option Bytes

/-- One call. A lock that was not there before belongs to the block of the call. -/
def trackedStep (t : Tracked) (c : Call) : Option Tracked :=
  match c.perform app t.state with
  | (.ok _, s') => some
    { state := s'
      owner := fun key =>
        if (s'.lockedKeys key).isNone then none
        else if (t.state.lockedKeys key).isNone then some (c.hash app)
        else t.owner key }
  | (.error _, _) => none

/-- From `t` to `t'` only locks made for the block `hash` were removed, and what was written is
what these locks held. -/
def OnlyOwn (hash : Bytes) (t t' : Tracked) : Prop :=
  ∀ key,
    (t'.state.lockedKeys key = t.state.lockedKeys key ∨
      t.owner key = some hash ∧ t'.state.lockedKeys key = none) ∧
    (t'.state.store key = t.state.store key ∨
      t.owner key = some hash ∧ t'.state.store key = t.state.lockedKeys key)

/-- A block is settled only while no key that occurs in its transactions, within the range of the
shard, is locked for another block. -/
def Separate (t : Tracked) : Call → Prop
  | .settle hash _ chainID => t.state.accepted hash = true →
    ∀ block, t.state.blocks hash = some block →
      ∀ key ∈ commitSet app chainID block, ∀ h, t.owner key = some h → h = hash
  | _ => True

/-- Exactly the locked keys have owners. -/
def Owned (t : Tracked) : Prop := ∀ key, (t.owner key).isSome = (t.state.lockedKeys key).isSome

variable {app}

/-! ## Steps -/

variable {t t' : Tracked} {hash : Bytes} {c : Call}

theorem trackedStep_eq_some (h : trackedStep app t c = some t') :
    (∃ rs, c.perform app t.state = (.ok rs, t'.state)) ∧
      ∀ key, t'.owner key =
        if (t'.state.lockedKeys key).isNone then none
        else if (t.state.lockedKeys key).isNone then some (c.hash app)
        else t.owner key := by
  unfold trackedStep at h
  split at h
  · next rs s' heq =>
    obtain rfl := Option.some.inj h
    exact ⟨⟨rs, heq⟩, fun _ => rfl⟩
  · cases h

theorem owned_step (ht : Owned t) (h : trackedStep app t c = some t') : Owned t' := by
  intro key
  rw [(trackedStep_eq_some h).2 key]
  cases hl' : t'.state.lockedKeys key with
  | none => rfl
  | some v' =>
    cases hl : t.state.lockedKeys key with
    | none => rfl
    | some v =>
      have := ht key
      rw [hl] at this
      exact this

/-- Settling a block, in terms of its stored contents. -/
theorem settle_step {commit : Bool} {chainID : Str}
    (h : trackedStep app t (.settle hash commit chainID) = some t') :
    ∃ block, t.state.blocks hash = some block ∧ t'.state =
      if t.state.accepted hash then t.state.settle (commitSet app chainID block) commit
      else t.state := by
  obtain ⟨⟨rs, hrun⟩, -⟩ := trackedStep_eq_some h
  obtain ⟨s₁, hone, hnil⟩ := run_cons.mp (acceptCommitShard_ok_iff.mp ⟨rs, hrun⟩)
  obtain rfl : s₁ = t'.state := by simpa using hnil
  obtain ⟨block, hb, hs⟩ := Option.map_eq_some_iff.mp hone
  exact ⟨block, hb, hs.symm⟩

/-- A lock stays as it is, unless its own block is settled: other settlements do not concern it if
they are `Separate`, and accepting a block never overwrites a lock. -/
theorem lock_step {key : Str} (ht : Owned t) (hsep : Separate app t c)
    (hc : ∀ commit chainID, c ≠ .settle hash commit chainID) (hk : t.owner key = some hash)
    (h : trackedStep app t c = some t') :
    t'.owner key = some hash ∧ t'.state.lockedKeys key = t.state.lockedKeys key := by
  have hsome : (t.state.lockedKeys key).isSome = true := by
    rw [← ht key, hk]
    rfl
  obtain ⟨v, hv⟩ := Option.isSome_iff_exists.mp hsome
  obtain ⟨⟨rs, hrun⟩, howner⟩ := trackedStep_eq_some h
  have hlock : t'.state.lockedKeys key = t.state.lockedKeys key := by
    cases c with
    | inner block => rw [executionInnerShard_ok hrun]
    | accept block chainID ifcommit =>
      rw [acceptCrossShard_ok hrun]
      cases ifcommit with
      | false => rfl
      | true =>
        show lockWrites _ t.state.lockedKeys _ key = _
        have hno : Ledger.last? (blockWrites app t.state.lockedKeys block) key = none := by
          rw [Ledger.last?_eq_none]
          intro hmem
          rw [unlocked_of_mem_blockWrites hmem] at hv
          cases hv
        simp [lockWrites, hno]
    | settle hash' commit chainID =>
      obtain ⟨block, hb, hs'⟩ := settle_step h
      cases hacc : t.state.accepted hash' with
      | false => simp [hs', hacc]
      | true =>
        have hmem : key ∉ commitSet app chainID block := fun hmem =>
          hc commit chainID (by rw [hsep hacc block hb key hmem hash hk])
        simp [hs', hacc, AppState.settle, hmem]
  refine ⟨?_, hlock⟩
  rw [howner key, hlock, hv, ← hk]
  rfl

/-- One settlement touches only the block's own locks exactly when it is `Separate`. -/
theorem onlyOwn_iff {commit : Bool} {chainID : Str} (ht : Owned t)
    (h : trackedStep app t (.settle hash commit chainID) = some t') :
    OnlyOwn hash t t' ↔ Separate app t (.settle hash commit chainID) := by
  obtain ⟨block, hb, hs'⟩ := settle_step h
  constructor
  · intro hown hacc block' hb' key hmem h' hk
    obtain rfl : block = block' := Option.some.inj (hb.symm.trans hb')
    have hnone : t'.state.lockedKeys key = none := by simp [hs', hacc, AppState.settle, hmem]
    rcases (hown key).1 with heq | ⟨hk', -⟩
    · -- the key was locked, so its lock has gone
      have hsome := ht key
      rw [hk, ← heq, hnone] at hsome
      cases hsome
    · exact Option.some.inj (hk.symm.trans hk')
  · intro hsep key
    cases hacc : t.state.accepted hash with
    | false => simp [hs', hacc]
    | true =>
      by_cases hmem : key ∈ commitSet app chainID block
      · have hkey := ht key
        cases hk : t.owner key with
        | none =>
          have hnone : t.state.lockedKeys key = none := by simpa [hk] using hkey.symm
          simp [hs', hacc, AppState.settle, hnone]
        | some h' =>
          obtain rfl := hsep hacc block hb key hmem h' hk
          have hsome : (t.state.lockedKeys key).isSome = true := by
            rw [← hkey, hk]
            rfl
          obtain ⟨v, hv⟩ := Option.isSome_iff_exists.mp hsome
          cases commit <;> simp [hs', hacc, AppState.settle, hmem, hv]
      · simp [hs', hacc, AppState.settle, hmem]

/-! ## Runs -/

/-- The state of a new application over a store and a block store: nothing is locked. -/
def Tracked.init (store : Amounts) (blocks : Bytes → Option Block) (accepted : Bytes → Bool) :
    Tracked :=
  { state := { store, lockedKeys := fun _ => none, blocks, accepted }, owner := fun _ => none }

theorem owned_run {store : Amounts} {blocks : Bytes → Option Block} {accepted : Bytes → Bool}
    {calls : List Call}
    (h : run (trackedStep app) (Tracked.init store blocks accepted) calls = some t) : Owned t :=
  run_invariant (fun _ _ _ ht hstep => owned_step ht hstep) (fun _ => rfl) h

theorem lock_run {calls : List Call} {key : Str} (ht : Owned t)
    (hsep : Along (trackedStep app) (Separate app) t calls)
    (hc : ∀ commit chainID, Call.settle hash commit chainID ∉ calls) (hk : t.owner key = some hash)
    (h : run (trackedStep app) t calls = some t') :
    t'.owner key = some hash ∧ t'.state.lockedKeys key = t.state.lockedKeys key := by
  induction calls generalizing t with
  | nil =>
    obtain rfl : t = t' := by simpa using h
    exact ⟨hk, rfl⟩
  | cons c calls ih =>
    obtain ⟨t₁, hstep, hrest⟩ := run_cons.mp h
    have hne : ∀ commit chainID, c ≠ .settle hash commit chainID := fun commit chainID heq =>
      hc commit chainID (heq ▸ List.mem_cons_self)
    obtain ⟨hk₁, hl₁⟩ := lock_step ht hsep.1 hne hk hstep
    obtain ⟨hk', hl'⟩ := ih (owned_step ht hstep) (hsep.2 t₁ hstep)
      (fun commit chainID hmem => hc commit chainID (List.mem_cons_of_mem c hmem)) hk₁ hrest
    exact ⟨hk', hl'.trans hl₁⟩

/-- **Lock ownership.** In every state that any calls reach: settling a block removes or applies
only the locks made for it exactly when no key that occurs in its transactions, within the range of
the shard, is locked for another block. Along every further run whose settlements meet this, a lock
stays with its value until the block it was made for is settled. -/
theorem lockOwnership (app : Application) (store : Amounts) (blocks : Bytes → Option Block)
    (accepted : Bytes → Bool) (calls : List Call) (t : Tracked)
    (hrun : run (trackedStep app) (Tracked.init store blocks accepted) calls = some t) :
    (∀ hash commit chainID t', trackedStep app t (.settle hash commit chainID) = some t' →
      (OnlyOwn hash t t' ↔ Separate app t (.settle hash commit chainID))) ∧
    ∀ calls' t', run (trackedStep app) t calls' = some t' →
      Along (trackedStep app) (Separate app) t calls' →
      ∀ hash, (∀ commit chainID, Call.settle hash commit chainID ∉ calls') →
        ∀ key, t.owner key = some hash →
          t'.owner key = some hash ∧ t'.state.lockedKeys key = t.state.lockedKeys key := by
  have ht := owned_run hrun
  refine ⟨fun hash commit chainID t' h => onlyOwn_iff ht h, ?_⟩
  intro calls' t' h hsep hash hc key hk
  exact lock_run ht hsep hc hk h

/-! ## Two blocks with the same keys -/

/-- An I shard that owns every account. -/
def oneShard : Application where
  keyRangeTree := fun _ _ => true
  allShardRangeTree := fun _ => true
  isI := true
  myChainID := [73]
  codecs := wireCodecs
  blockHash block := block.chainID ++ [UInt8.ofNat block.height.toNat]

/-- A cross-shard block of a B shard in which account 1 pays 5 to account 2. -/
def crossPayment (height : ℤ) : Block where
  blockType := .crossShard
  hashPointer := []
  chainID := [66]
  height := height
  time := []
  bodyRoot := []
  crossShardBodyRoot := []
  stateRoot := []
  receiptRoot := []
  relationRoot := []
  bodyTxs := []
  crossShardTxs := [uint32ToBytes txTransfer ++ wireCodecs.transferTx.marshal (payment [1] [2])]
  crossShardDatas := [wireCodecs.bankData.marshal
    { keys := [[1], [2]], oK := true, values := [1000000, 1000000] }]
  relation := { relatedCommitStatus := [], relatedHash := [], myCommitStatus := [] }

def afterCalls (calls : List Call) : Tracked :=
  (run (trackedStep oneShard) (Tracked.init (fun _ => none) (fun _ => none) fun _ => false)
    calls).getD (Tracked.init (fun _ => none) (fun _ => none) fun _ => false)

theorem run_afterCalls (calls : List Call)
    (h : (run (trackedStep oneShard) (Tracked.init (fun _ => none) (fun _ => none) fun _ => false)
      calls).isSome = true) :
    run (trackedStep oneShard) (Tracked.init (fun _ => none) (fun _ => none) fun _ => false) calls =
      some (afterCalls calls) := by
  obtain ⟨t, ht⟩ := Option.isSome_iff_exists.mp h
  rw [afterCalls, ht]
  rfl

/-- A block that was accepted alone and is then committed touches only its own locks. -/
theorem lockOwnership_single :
    OnlyOwn [66, 1] (afterCalls [.accept (crossPayment 1) [73] true])
      (afterCalls [.accept (crossPayment 1) [73] true, .settle [66, 1] true [73]]) := by
  have hrun := run_afterCalls [.accept (crossPayment 1) [73] true] (by decide)
  have hrun' := run_afterCalls [.accept (crossPayment 1) [73] true, .settle [66, 1] true [73]]
    (by decide)
  rw [← List.singleton_append] at hrun'
  obtain ⟨t, ht, hone⟩ := run_append.mp hrun'
  obtain rfl := Option.some.inj (hrun.symm.trans ht)
  obtain ⟨t', hstep, hnil⟩ := run_cons.mp hone
  obtain rfl := Option.some.inj hnil
  refine ((lockOwnership oneShard _ _ _ _ _ hrun).1 _ _ _ _ hstep).mpr fun _ block hb key hk h ho => ?_
  obtain rfl : crossPayment 1 = block := by
    have : (afterCalls [.accept (crossPayment 1) [73] true]).state.blocks [66, 1] =
        some (crossPayment 1) := by decide
    exact Option.some.inj (this.symm.trans hb)
  have hkeys : commitSet oneShard [73] (crossPayment 1) = [[1], [2]] := by decide
  rw [hkeys] at hk
  have howner : (afterCalls [.accept (crossPayment 1) [73] true]).owner key = some [66, 1] := by
    rcases List.mem_cons.mp hk with rfl | hk
    · decide
    · obtain rfl := List.mem_singleton.mp hk
      decide
  exact (Option.some.inj (howner.symm.trans ho)).symm

/-- Block 1 is accepted, block 2 with the same keys is rejected. The abort of block 2 removes the
locks of block 1, which is still pending. -/
theorem not_lockOwnership_overlap :
    (run (trackedStep oneShard) (Tracked.init (fun _ => none) (fun _ => none) fun _ => false)
      [.accept (crossPayment 1) [73] true, .accept (crossPayment 2) [73] false,
        .settle [66, 2] false [73]]).isSome = true ∧
    (afterCalls [.accept (crossPayment 1) [73] true, .accept (crossPayment 2) [73] false]).owner [1] =
      some [66, 1] ∧
    (afterCalls [.accept (crossPayment 1) [73] true,
      .accept (crossPayment 2) [73] false]).state.lockedKeys [1] = some 999995 ∧
    (afterCalls [.accept (crossPayment 1) [73] true, .accept (crossPayment 2) [73] false,
      .settle [66, 2] false [73]]).state.lockedKeys [1] = none ∧
    ¬ OnlyOwn [66, 2]
      (afterCalls [.accept (crossPayment 1) [73] true, .accept (crossPayment 2) [73] false])
      (afterCalls [.accept (crossPayment 1) [73] true, .accept (crossPayment 2) [73] false,
        .settle [66, 2] false [73]]) := by
  refine ⟨by decide, by decide, by decide, by decide, fun h => ?_⟩
  have := (h [1]).1
  revert this
  decide

end Emulator.Pyramid.Minibank
