import Emulator.Minibank.Wire
import Emulator.Pyramid.Process

/-!
# The B shard's replica of the I shards

The same blocks run at an I shard, where only the keys of its own range are ever locked, and at the
B shard, where one lock table serves the ranges of all I shards. A cross-shard transaction accepted
for one I shard finds, at the B shard, the locks that its own block set for another I shard, and
fails there.

* `Mirrors` — the B shard agrees with an I shard on the range of that shard, locks included.
* `mirrors_process` — processing one block at both keeps this, if no transaction that the I shard
  locks for meets a lock at the B shard.
* `replica` — the balances agree after every run of such steps.
-/

namespace Emulator.Pyramid

open Emulator.Action Emulator.Minibank Emulator.Pyramid.Minibank

/-! ## When transactions have the same effect -/

section

variable {app : Application} {locked locked' : Amounts}

/-- A transaction within a range has the same effect on the range where locks and amounts agree on
the range. -/
theorem innerEffect_congr {range : Str → Bool} {amounts amounts' : Amounts} {tx : Bytes}
    (h : ∀ key, range key = true → locked key = locked' key ∧ amounts key = amounts' key) {key : Str}
    (hk : range key = true) :
    innerEffect app locked range amounts tx key = innerEffect app locked' range amounts' tx key := by
  have heff : effect locked (inRange range amounts) range app tx =
      effect locked' (inRange range amounts') range app tx := by
    unfold effect
    cases hdec : unmarshalTransferTx app tx with
    | error e => rfl
    | ok t =>
      by_cases hall : t.keys.all range = true
      · have hkeys : ∀ k ∈ t.keys, (locked k).isNone = (locked' k).isNone ∧
            inRange range amounts k = inRange range amounts' k := by
          intro k hkt
          obtain ⟨hl, ha⟩ := h k (List.all_eq_true.mp hall k hkt)
          simp only [hl, inRange, balanceOf, ha, and_self]
        have hw : t.writes (ledger (inRange range amounts)) =
            t.writes (ledger (inRange range amounts')) :=
          writes_congr fun k hkt => by simp only [ledger, (hkeys k hkt).2]
        simp only [ready_congr hkeys fun _ _ => rfl, hw]
      · simp [ready, hall]
  unfold innerEffect overlay
  rw [heff, (h key hk).2]

theorem foldl_innerEffect_congr (app : Application) {range : Str → Bool} {txs : List Bytes}
    {amounts amounts' : Amounts}
    (h : ∀ key, range key = true → locked key = locked' key ∧ amounts key = amounts' key) {key : Str}
    (hk : range key = true) :
    txs.foldl (innerEffect app locked range) amounts key =
      txs.foldl (innerEffect app locked' range) amounts' key := by
  induction txs generalizing amounts amounts' with
  | nil => exact (h key hk).2
  | cons tx txs ih => exact ih fun k hkr => ⟨(h k hkr).1, innerEffect_congr h hkr⟩

end

/-! ## Cross-shard transactions at both shards -/

/-- No transaction of the block that succeeds under the locks `lockedI` and touches the range meets
a lock of `lockedB`. -/
def Unobstructed (app : Application) (range : Str → Bool) (lockedI lockedB : Amounts)
    (block : Block) : Prop :=
  ∀ p ∈ block.crossShardTxs.zip block.crossShardDatas, ∀ ws, txEffect app lockedI p.1 p.2 = some ws →
    (∃ w ∈ ws, range w.1 = true) → ∀ w ∈ ws, lockedB w.1 = none

section

variable {app : Application} {range : Str → Bool} {lockedI lockedB : Amounts}

theorem txEffect_congr {tx data : Bytes}
    (h : ∀ t, unmarshalTransferTx app tx = .ok t → ∀ key ∈ t.keys,
      (lockedI key).isNone = (lockedB key).isNone) :
    txEffect app lockedI tx data = txEffect app lockedB tx data := by
  unfold txEffect
  split
  · exact effect_congr fun t ht key hk => ⟨h t ht key hk, rfl, rfl⟩
  · rfl

/-- What one transaction writes in the range is the same at both shards. -/
theorem last?_txEffect {tx data : Bytes} (hagree : ∀ key, range key = true → lockedB key = lockedI key)
    (hsupp : ∀ key, range key = false → lockedI key = none)
    (hobs : ∀ ws, txEffect app lockedI tx data = some ws → (∃ w ∈ ws, range w.1 = true) →
      ∀ w ∈ ws, lockedB w.1 = none) {key : Str} (hk : range key = true) :
    Ledger.last? ((txEffect app lockedB tx data).getD []) key =
      Ledger.last? ((txEffect app lockedI tx data).getD []) key := by
  cases hI : txEffect app lockedI tx data with
  | some ws =>
    obtain ⟨t, ht, hkeys, hfree⟩ := txEffect_eq_some hI
    by_cases hin : ∃ w ∈ ws, range w.1 = true
    · -- it touches the range, so it meets no lock at the B shard either
      have hfreeB : ∀ k ∈ t.keys, lockedB k = none := by
        intro k hkt
        rw [← hkeys] at hkt
        obtain ⟨w, hw, rfl⟩ := List.mem_map.mp hkt
        exact hobs ws hI hin w hw
      have hB : txEffect app lockedI tx data = txEffect app lockedB tx data := by
        refine txEffect_congr fun t' ht' k hkt => ?_
        obtain rfl : t = t' := by
          rw [ht] at ht'
          injection ht'
        rw [hfree k hkt, hfreeB k hkt]
      rw [← hB, hI]
    · have hno : ∀ ws', txEffect app lockedB tx data = some ws' → key ∉ ws'.map Prod.fst := by
        intro ws' hB hmem
        obtain ⟨t', ht', hkeys', -⟩ := txEffect_eq_some hB
        obtain rfl : t = t' := by
          rw [ht] at ht'
          injection ht'
        rw [hkeys', ← hkeys] at hmem
        obtain ⟨w, hw, rfl⟩ := List.mem_map.mp hmem
        exact hin ⟨w, hw, hk⟩
      have hnoI : Ledger.last? ws key = none := by
        rw [Ledger.last?_eq_none]
        intro hmem
        obtain ⟨w, hw, rfl⟩ := List.mem_map.mp hmem
        exact hin ⟨w, hw, hk⟩
      rw [Option.getD_some, hnoI]
      cases hB : txEffect app lockedB tx data with
      | none => rfl
      | some ws' => exact Ledger.last?_eq_none.mpr (hno ws' hB)
  | none =>
    -- what fails at the I shard fails at the B shard, which has all its locks
    have hB : txEffect app lockedB tx data = none := by
      by_contra hne
      obtain ⟨ws, hws⟩ := Option.ne_none_iff_exists'.mp hne
      obtain ⟨t, ht, -, hfree⟩ := txEffect_eq_some hws
      have : txEffect app lockedI tx data = txEffect app lockedB tx data := by
        refine txEffect_congr fun t' ht' k hkt => ?_
        obtain rfl : t = t' := by
          rw [ht] at ht'
          injection ht'
        rw [hfree k hkt]
        cases hr : range k with
        | true => rw [← hagree k hr, hfree k hkt]
        | false => rw [hsupp k hr]
      rw [hI, hws] at this
      cases this
    rw [hB]

theorem last?_blockWrites (app : Application) {block : Block}
    (hagree : ∀ key, range key = true → lockedB key = lockedI key)
    (hsupp : ∀ key, range key = false → lockedI key = none)
    (hobs : Unobstructed app range lockedI lockedB block) {key : Str} (hk : range key = true) :
    Ledger.last? (blockWrites app lockedB block) key =
      Ledger.last? (blockWrites app lockedI block) key := by
  unfold blockWrites blockEffects
  unfold Unobstructed at hobs
  rw [← List.map_uncurry_zip_eq_zipWith, ← List.map_uncurry_zip_eq_zipWith]
  generalize block.crossShardTxs.zip block.crossShardDatas = ps at hobs ⊢
  induction ps with
  | nil => rfl
  | cons p ps ih =>
    rw [List.map_cons, List.map_cons, List.flatMap_cons, List.flatMap_cons, Ledger.last?_append,
      Ledger.last?_append, ih fun q hq => hobs q (List.mem_cons_of_mem p hq)]
    congr 1
    exact last?_txEffect hagree hsupp (hobs p List.mem_cons_self) hk

end

/-! ## The replica -/

/-- All blocks of a run belong to `S`, and no two of them have the same hash. -/
structure Known (n : Network) (S : Set Block) (s : AppState) : Prop where
  blocks : ∀ hash block, s.blocks hash = some block → block ∈ S ∧ n.blockHash block = hash
  accepted : ∀ hash, s.accepted hash = true →
    ∃ block ∈ S, n.blockHash block = hash ∧ block.blockType = .crossShard

/-- The state `b` of the B shard agrees with the state `i` of an I shard on its range. -/
structure Mirrors (n : Network) (S : Set Block) (shard : Str) (b i : AppState) : Prop where
  store : ∀ key, n.range shard key = true → b.store key = i.store key
  lockedKeys : ∀ key, n.range shard key = true → b.lockedKeys key = i.lockedKeys key
  support : ∀ key, n.range shard key = false → i.lockedKeys key = none
  accepted : ∀ hash, i.accepted hash = true → b.accepted hash = true
  stored : ∀ hash block, i.blocks hash = some block → (b.blocks hash).isSome = true
  marked : ∀ hash block, i.blocks hash = some block → block.blockType = .crossShard →
    i.accepted hash = true

/-- From `b` to `b'` only the range of one shard changed, and blocks and marks were only added. -/
structure Within (n : Network) (shard : Str) (b b' : AppState) : Prop where
  store : ∀ key, n.range shard key = false → b'.store key = b.store key
  lockedKeys : ∀ key, n.range shard key = false → b'.lockedKeys key = b.lockedKeys key
  accepted : ∀ hash, b.accepted hash = true → b'.accepted hash = true
  stored : ∀ hash, (b.blocks hash).isSome = true → (b'.blocks hash).isSome = true

variable {n : Network} {S : Set Block} {shard p : Str} {block : Block} {b i s b' i' s' : AppState}
  {isok : Bool} {rs rs' : List Receipt} {hash : Bytes}

theorem Within.trans {a c : AppState} (h : Within n shard a b) (h' : Within n shard b c) :
    Within n shard a c where
  store key hk := (h'.store key hk).trans (h.store key hk)
  lockedKeys key hk := (h'.lockedKeys key hk).trans (h.lockedKeys key hk)
  accepted hash hh := h'.accepted hash (h.accepted hash hh)
  stored hash hh := h'.stored hash (h.stored hash hh)

theorem within_refl (shard : Str) (s : AppState) : Within n shard s s :=
  ⟨fun _ _ => rfl, fun _ _ => rfl, fun _ h => h, fun _ h => h⟩

theorem blocks_setBlock {hash' : Bytes} {blk : Block}
    (h : (s.setBlock hash' block).blocks hash = some blk) :
    s.blocks hash = some blk ∨ hash = hash' ∧ blk = block := by
  by_cases hh : hash = hash'
  · subst hh
    obtain rfl : block = blk := by simpa [AppState.setBlock] using h
    exact .inr ⟨rfl, rfl⟩
  · exact .inl ((Function.update_of_ne hh ..).symm.trans h)

theorem isSome_setBlock (hs : (s.blocks hash).isSome = true) (hash' : Bytes) (block : Block) :
    ((s.setBlock hash' block).blocks hash).isSome = true := by
  by_cases hh : hash = hash'
  · simp [AppState.setBlock, hh]
  · simpa [AppState.setBlock, Function.update_of_ne hh] using hs

theorem within_setBlock (shard : Str) (s : AppState) (hash : Bytes) (block : Block) :
    Within n shard s (s.setBlock hash block) :=
  ⟨fun _ _ => rfl, fun _ _ => rfl, fun _ h => h, fun _ hs => isSome_setBlock hs hash block⟩

/-- What happens in the range of one shard does not concern another. -/
theorem Mirrors.within {q : Str} (hp : p ∈ n.bShard :: n.iShards) (hq : q ∈ n.bShard :: n.iShards)
    (hne : p ≠ q) (h : Mirrors n S q b i) (hw : Within n p b b') : Mirrors n S q b' i := by
  have hout : ∀ key, n.range q key = true → n.range p key = false := by
    intro key hk
    rw [Bool.eq_false_iff]
    exact fun hpk => hne (n.disjoint p hp q hq key hpk hk)
  refine ⟨fun key hk => ?_, fun key hk => ?_, h.support, fun hash hh => ?_, fun hash blk hb => ?_,
    h.marked⟩
  · rw [hw.store key (hout key hk)]
    exact h.store key hk
  · rw [hw.lockedKeys key (hout key hk)]
    exact h.lockedKeys key hk
  · exact hw.accepted hash (h.accepted hash hh)
  · exact hw.stored hash (h.stored hash blk hb)

theorem Known.setBlock (h : Known n S s) (hb : block ∈ S) :
    Known n S (s.setBlock (n.blockHash block) block) := by
  refine ⟨fun hash blk hblk => ?_, h.accepted⟩
  rcases blocks_setBlock hblk with hblk | ⟨rfl, rfl⟩
  · exact h.blocks hash blk hblk
  · exact ⟨hb, rfl⟩

theorem Mirrors.setBlockB (h : Mirrors n S shard b i) (hash : Bytes) (block : Block) :
    Mirrors n S shard (b.setBlock hash block) i :=
  { h with stored := fun hash' blk hblk => isSome_setBlock (h.stored hash' blk hblk) hash block }

/-- Storing at the I shard a block that is no cross-shard block and that the B shard has. -/
theorem Mirrors.setBlockI (h : Mirrors n S shard b i) (hb : (b.blocks hash).isSome = true)
    (ht : block.blockType ≠ .crossShard) : Mirrors n S shard b (i.setBlock hash block) := by
  refine { h with stored := fun hash' blk hblk => ?_, marked := fun hash' blk hblk hty => ?_ }
  · rcases blocks_setBlock hblk with hblk | ⟨rfl, -⟩
    · exact h.stored hash' blk hblk
    · exact hb
  · rcases blocks_setBlock hblk with hblk | ⟨-, rfl⟩
    · exact h.marked hash' blk hblk hty
    · exact absurd hty ht

/-! ## One call at both shards -/

theorem keyRangeTree_app (p shard : Str) : (n.app p).keyRangeTree shard = n.range shard := rfl

theorem mirrors_settle {hash : Str} {commit : Bool} (hS : S.InjOn n.blockHash)
    (hm : Mirrors n S shard b i) (hb : Known n S b) (hi : Known n S i)
    (h : settle (n.app shard) shard hash commit i = some i') :
    ∃ b', settle (n.app n.bShard) shard hash commit b = some b' ∧ Mirrors n S shard b' i' ∧
      Known n S b' ∧ Known n S i' := by
  obtain ⟨block, hblk, rfl⟩ := Option.map_eq_some_iff.mp h
  obtain ⟨blockB, hblkB⟩ := Option.isSome_iff_exists.mp (hm.stored hash block hblk)
  obtain ⟨hmem, hhash⟩ := hi.blocks hash block hblk
  obtain ⟨hmemB, hhashB⟩ := hb.blocks hash blockB hblkB
  obtain rfl : blockB = block := hS hmemB hmem (hhashB.trans hhash.symm)
  refine ⟨_, Option.map_eq_some_iff.mpr ⟨blockB, hblkB, rfl⟩, ?_⟩
  cases hacc : i.accepted hash with
  | false =>
    -- an unmarked block is no cross-shard block, so no shard has marked it
    have haccB : b.accepted hash = false := by
      rw [Bool.eq_false_iff]
      intro haccB
      obtain ⟨blk, hmem', hhash', hty⟩ := hb.accepted hash haccB
      obtain rfl : blk = blockB := hS hmem' hmem (hhash'.trans hhash.symm)
      rw [hm.marked hash blk hblk hty] at hacc
      cases hacc
    simp only [haccB, if_false, Bool.false_eq_true]
    exact ⟨hm, hb, hi⟩
  | true =>
    have haccB := hm.accepted hash hacc
    simp only [haccB, if_true]
    have hkeys : ∀ p, commitSet (n.app p) shard blockB = commitSet (n.app shard) shard blockB :=
      fun _ => rfl
    rw [hkeys]
    refine ⟨⟨fun key hk => ?_, fun key hk => ?_, fun key hk => ?_, hm.accepted, hm.stored, hm.marked⟩,
      ⟨hb.blocks, hb.accepted⟩, ⟨hi.blocks, hi.accepted⟩⟩
    · simp only [AppState.settle, hm.store key hk, hm.lockedKeys key hk]
    · simp only [AppState.settle, hm.lockedKeys key hk]
    · simp only [AppState.settle, hm.support key hk, ite_self]

theorem mirrors_settles {entries : List (Bytes × Bool)} (hS : S.InjOn n.blockHash)
    (hm : Mirrors n S shard b i) (hb : Known n S b) (hi : Known n S i)
    (h : run (fun s e => settle (n.app shard) shard e.1 e.2 s) i entries = some i')
    (h' : run (fun s e => settle (n.app n.bShard) shard e.1 e.2 s) b entries = some b') :
    Mirrors n S shard b' i' ∧ Known n S b' ∧ Known n S i' := by
  induction entries generalizing b i with
  | nil =>
    obtain rfl := Option.some.inj h
    obtain rfl := Option.some.inj h'
    exact ⟨hm, hb, hi⟩
  | cons e entries ih =>
    obtain ⟨i₁, hi₁, hrest⟩ := run_cons.mp h
    obtain ⟨b₁, hb₁, hrest'⟩ := run_cons.mp h'
    obtain ⟨b₂, hb₂, hm₁, hkb, hki⟩ := mirrors_settle hS hm hb hi hi₁
    obtain rfl : b₂ = b₁ := Option.some.inj (hb₂.symm.trans hb₁)
    exact ih hm₁ hkb hki hrest hrest'

/-- Accepting a block locks the same keys of the range at both shards, if it meets no lock at the B
shard that the I shard does not have. -/
theorem mirrors_accept (hm : Mirrors n S shard b i) (hb : Known n S b) (hi : Known n S i)
    (hblock : block ∈ S) (hobs : isok = true →
      Unobstructed (n.app shard) (n.range shard) i.lockedKeys b.lockedKeys block)
    (h : acceptCrossShard (n.app shard) block shard isok i = (.ok rs, i'))
    (h' : acceptCrossShard (n.app n.bShard) block shard isok b = (.ok rs', b')) :
    Mirrors n S shard b' i' ∧ Known n S b' ∧ Known n S i' := by
  have hty := blockType_of_acceptCrossShard h
  obtain rfl := acceptCrossShard_ok h
  obtain rfl := acceptCrossShard_ok h'
  have hknown : ∀ s l, Known n S s → Known n S
      { s with
        lockedKeys := l
        blocks := Function.update s.blocks (n.blockHash block) (some block)
        accepted := Function.update s.accepted (n.blockHash block) true } := by
    intro s l hs
    refine ⟨(hs.setBlock hblock).blocks, fun hash hacc => ?_⟩
    by_cases hh : hash = n.blockHash block
    · exact ⟨block, hblock, hh.symm, hty⟩
    · exact hs.accepted hash (by simpa [Function.update_of_ne hh] using hacc)
  refine ⟨⟨hm.store, fun key hk => ?_, fun key hk => ?_, fun hash hacc => ?_, fun hash blk hblk => ?_,
    fun hash blk hblk hty' => ?_⟩, hknown b _ hb, hknown i _ hi⟩
  · cases isok with
    | false => exact hm.lockedKeys key hk
    | true =>
      have hw := last?_blockWrites (n.app shard) hm.lockedKeys hm.support (hobs rfl) hk
      show lockWrites (n.range shard) b.lockedKeys (blockWrites (n.app shard) b.lockedKeys block) key =
        lockWrites (n.range shard) i.lockedKeys (blockWrites (n.app shard) i.lockedKeys block) key
      simp only [lockWrites, hk, if_true, hw, hm.lockedKeys key hk]
  · cases isok with
    | false => exact hm.support key hk
    | true =>
      show lockWrites (n.range shard) i.lockedKeys _ key = none
      simp only [lockWrites, hk, Bool.false_eq_true, if_false]
      exact hm.support key hk
  · by_cases hh : hash = n.blockHash block
    · simp [hh, Network.app]
    · simp only [Network.app, Function.update_of_ne hh] at hacc ⊢
      exact hm.accepted hash hacc
  · by_cases hh : hash = n.blockHash block
    · simp [hh, Network.app]
    · simp only [Network.app, Function.update_of_ne hh] at hblk ⊢
      exact hm.stored hash blk hblk
  · by_cases hh : hash = n.blockHash block
    · simp [hh, Network.app]
    · simp only [Network.app, Function.update_of_ne hh] at hblk ⊢
      exact hm.marked hash blk hblk hty'

theorem mirrors_inner (hm : Mirrors n S shard b i) (hb : Known n S b) (hi : Known n S i)
    (hblock : block ∈ S) (hchain : block.chainID = shard)
    (h : executionInnerShard (n.app shard) block i = (.ok rs, i'))
    (h' : executionInnerShard (n.app n.bShard) block b = (.ok rs', b')) :
    Mirrors n S shard b' i' ∧ Known n S b' ∧ Known n S i' := by
  subst hchain
  have hty : block.blockType = .innerShard := by
    obtain ⟨u, s₁, hreq, -⟩ := bind_eq_ok.mp h
    simpa using (require_eq_ok.mp hreq).1
  obtain rfl := executionInnerShard_ok h
  obtain rfl := executionInnerShard_ok h'
  have hstored : ((b.setBlock (n.blockHash block) block).blocks (n.blockHash block)).isSome = true := by
    simp [AppState.setBlock]
  have hne : block.blockType ≠ .crossShard := by simp [hty]
  have hset := (hm.setBlockB (n.blockHash block) block).setBlockI hstored hne
  have hagree : ∀ key, n.range block.chainID key = true →
      b.lockedKeys key = i.lockedKeys key ∧ b.store key = i.store key := fun key hk =>
    ⟨hm.lockedKeys key hk, hm.store key hk⟩
  refine ⟨{ hset with store := fun key hk => ?_ }, ⟨(hb.setBlock hblock).blocks, hb.accepted⟩,
    ⟨(hi.setBlock hblock).blocks, hi.accepted⟩⟩
  exact foldl_innerEffect_congr (n.app n.bShard) hagree hk

/-! ## One block at both shards -/

/-- A block of an I shard as its certificate vouches for it: it names the shard, and it and the
block it may carry are among the blocks `S` of the run. -/
structure Certified (n : Network) (S : Set Block) (shard : Str) (block : Block) : Prop where
  mem : block ∈ S
  chainID : block.chainID = shard
  carried : ∀ H, block.bodyTxs.head?.bind n.crossShardBlock = some H → H ∈ S

/-- If the block accepts a cross-shard block with an OK certificate, none of its transactions that
the I shard locks for meets a lock at the B shard. -/
def Clear (n : Network) (shard : Str) (block : Block) (isok : Bool) (b i : AppState) : Prop :=
  ∀ H, block.blockType = .iAcceptBlock → isok = true →
    block.bodyTxs.head?.bind n.crossShardBlock = some H →
      Unobstructed (n.app shard) (n.range shard) i.lockedKeys b.lockedKeys H

/-- The blocks of an I shard that can be processed, with the call that they stand for at any
shard. -/
inductive Processes (n : Network) (block : Block) (shard : Str) (isok : Bool) : Prop
  | inner (hty : block.blockType = .innerShard)
    (hcall : ∀ q, n.processIBlock q block shard isok = executionInnerShard (n.app q) block)
  | accept {H : Block} (hty : block.blockType = .iAcceptBlock)
    (hH : block.bodyTxs.head?.bind n.crossShardBlock = some H)
    (hcall : ∀ q, n.processIBlock q block shard isok = acceptCrossShard (n.app q) H shard isok)
  | commit {entries : List (Bytes × Bool)} (hty : block.blockType = .iCommitBlock)
    (hE : block.bodyTxs.mapM n.messageCommit = some entries)
    (hcall : ∀ q, n.processIBlock q block shard isok = acceptCommitShard (n.app q) entries shard)

variable (h : n.processIBlock p block shard isok s = (.ok rs, s'))

include h in
theorem processes_of_ok :
    Processes n block shard isok := by
  unfold Network.processIBlock at h
  cases hty : block.blockType with
  | innerShard => exact .inner hty fun q => by simp only [Network.processIBlock, hty]
  | iAcceptBlock =>
    cases hH : block.bodyTxs.head?.bind n.crossShardBlock with
    | none =>
      simp only [hty, hH] at h
      cases h
    | some H => exact .accept hty hH fun q => by simp only [Network.processIBlock, hty, hH]
  | iCommitBlock =>
    cases hE : block.bodyTxs.mapM n.messageCommit with
    | none =>
      simp only [hty, hE] at h
      cases h
    | some entries => exact .commit hty hE fun q => by simp only [Network.processIBlock, hty, hE]
  | none | i | b | crossShard | bCommitBlock =>
    rw [hty] at h
    cases h

include h in
theorem blockType_of_processIBlock :
    block.blockType ≠ .crossShard := by
  cases processes_of_ok h <;> simp [*]

theorem within_settle {commit : Bool} (h : settle (n.app p) shard hash commit s = some s') :
    Within n shard s s' := by
  obtain ⟨block, -, rfl⟩ := Option.map_eq_some_iff.mp h
  have hout : ∀ key, n.range shard key = false → key ∉ commitSet (n.app p) shard block := by
    intro key hk hmem
    have := (List.mem_filter.mp hmem).2
    rw [keyRangeTree_app, hk] at this
    cases this
  split
  · refine ⟨fun key hk => ?_, fun key hk => ?_, fun _ h => h, fun _ h => h⟩
    · simp only [AppState.settle, hout key hk, and_false, if_false]
    · simp only [AppState.settle, hout key hk, if_false]
  · exact within_refl shard s

/-- A block of an I shard concerns the range of that shard only, wherever it is processed. -/
theorem within_processIBlock (hchain : block.chainID = shard)
    (h : n.processIBlock p block shard isok s = (.ok rs, s')) : Within n shard s s' := by
  cases processes_of_ok h with
  | inner hty hcall =>
    rw [hcall] at h
    subst hchain
    rw [executionInnerShard_ok h]
    exact ⟨fun key hk => foldl_innerEffect_of_not_range hk, fun _ _ => rfl, fun _ h => h,
      fun _ hs => isSome_setBlock hs (n.blockHash block) block⟩
  | @accept H hty hH hcall =>
    rw [hcall] at h
    rw [acceptCrossShard_ok h]
    refine ⟨fun _ _ => rfl, fun key hk => ?_, fun hash hacc => ?_,
      fun _ hs => isSome_setBlock hs (n.blockHash H) H⟩
    · cases isok with
      | false => rfl
      | true =>
        show lockWrites (n.range shard) s.lockedKeys _ key = _
        simp only [lockWrites, hk, Bool.false_eq_true, if_false]
    · by_cases hh : hash = n.blockHash H
      · simp [hh, Network.app]
      · simpa only [Network.app, Function.update_of_ne hh] using hacc
  | commit hty hE hcall =>
    rw [hcall] at h
    exact run_invariant (I := Within n shard s) (fun _ _ _ hw hstep => hw.trans (within_settle hstep))
      (within_refl shard s) (acceptCommitShard_ok_iff.mp ⟨rs, h⟩)

theorem mirrors_process (hS : S.InjOn n.blockHash) (hm : Mirrors n S shard b i) (hb : Known n S b)
    (hi : Known n S i) (hcert : Certified n S shard block) (hclear : Clear n shard block isok b i)
    (h : n.processIBlock shard block shard isok i = (.ok rs, i'))
    (h' : n.processIBlock n.bShard block shard isok b = (.ok rs', b')) :
    Mirrors n S shard b' i' ∧ Known n S b' ∧ Known n S i' := by
  cases processes_of_ok h with
  | inner hty hcall =>
    rw [hcall] at h h'
    exact mirrors_inner hm hb hi hcert.mem hcert.chainID h h'
  | @accept H hty hH hcall =>
    rw [hcall] at h h'
    exact mirrors_accept hm hb hi (hcert.carried H hH) (fun hok => hclear H hty hok hH) h h'
  | commit hty hE hcall =>
    rw [hcall] at h h'
    exact mirrors_settles hS hm hb hi (acceptCommitShard_ok_iff.mp ⟨rs, h⟩)
      (acceptCommitShard_ok_iff.mp ⟨rs', h'⟩)

/-! ## Runs of the B shard and its I shards -/

/-- The B shard, and every I shard after the blocks of it that the B shard has processed. -/
structure Shards where
  b : Network.BNode
  i : Str → AppState

/-- An I shard executes its next block, which is then delivered to the B shard; or the B shard
executes a block of its own. -/
inductive Event
  | iBlock (shard : Str) (block : Block) (isok : Bool)
  | bBlock (block : Block)

/-- One event; `none` if a shard panics. -/
def shardsStep (n : Network) (s : Shards) : Event → Option Shards
  | .iBlock shard block isok =>
    match n.precommitI shard block isok (s.i shard),
      n.deliver block block.height shard isok s.b with
    | (.ok _, i'), some b' => some { b := b', i := Function.update s.i shard i' }
    | _, _ => none
  | .bBlock block => (n.precommitB block s.b).map fun b' => { s with b := b' }

/-- The blocks of each I shard come certified and in the order of their heights. -/
def InOrder (n : Network) (S : Set Block) (s : Shards) : Event → Prop
  | .iBlock shard block _ => shard ∈ n.iShards ∧ Certified n S shard block ∧
    block.height = s.b.shardHeight shard + 1
  | .bBlock block => block ∈ S ∧ block.chainID = n.bShard

/-- The step is clear of foreign locks. -/
def Event.Clear (n : Network) (s : Shards) : Event → Prop
  | .iBlock shard block isok => Pyramid.Clear n shard block isok s.b.app (s.i shard)
  | .bBlock _ => True

/-- What every run keeps. -/
structure Replicated (n : Network) (S : Set Block) (s : Shards) : Prop where
  known : Known n S s.b.app
  knownI : ∀ p ∈ n.iShards, Known n S (s.i p)
  mirrors : ∀ p ∈ n.iShards, Mirrors n S p s.b.app (s.i p)
  heights : ∀ p ∈ n.iShards, ∀ h, s.b.shardHeight p < h → s.b.heights.lookup (h, p) = none
  processed : ∀ hash block, s.b.app.blocks hash = some block → block.blockType = .crossShard ∨
    block.chainID ∉ n.iShards ∨ block.height ≤ s.b.shardHeight block.chainID

include h in
/-- Processing a block stores nothing but cross-shard blocks and the block itself. -/
theorem blocks_processIBlock {blk : Block}
    (hblk : s'.blocks hash = some blk) :
    s.blocks hash = some blk ∨ blk.blockType = .crossShard ∨ blk = block := by
  cases processes_of_ok h with
  | inner hty hcall =>
    rw [hcall] at h
    rw [executionInnerShard_ok h] at hblk
    rcases blocks_setBlock hblk with hblk | ⟨-, rfl⟩
    · exact .inl hblk
    · exact .inr (.inr rfl)
  | accept hty hH hcall =>
    rw [hcall] at h
    have hcross := blockType_of_acceptCrossShard h
    rw [acceptCrossShard_ok h] at hblk
    rcases blocks_setBlock hblk with hblk | ⟨-, rfl⟩
    · exact .inl hblk
    · exact .inr (.inl hcross)
  | commit hty hE hcall =>
    rw [hcall] at h
    left
    have hkeep := run_invariant (I := fun s₁ => s₁.blocks = s.blocks)
      (fun s₁ e s₂ hs₁ hstep => (settle_frame hstep).1.trans hs₁) rfl
      (acceptCommitShard_ok_iff.mp ⟨rs, h⟩)
    rw [← hkeep]
    exact hblk

theorem precommitI_eq_ok (h : n.precommitI shard block isok s = (.ok rs, s')) :
    ∃ s₁, n.processIBlock shard block shard isok s = (.ok rs, s₁) ∧
      s' = s₁.setBlock (n.blockHash block) block := by
  obtain ⟨rs₁, s₁, hrun, hrest⟩ := bind_eq_ok.mp h
  obtain ⟨rfl, rfl⟩ : rs₁ = rs ∧ _ = s' := by simpa [run_bind] using hrest
  exact ⟨s₁, hrun, rfl⟩

theorem Replicated.fresh {s : Shards} (hS : S.InjOn n.blockHash) (hs : Replicated n S s)
    (hshard : shard ∈ n.iShards) (hcert : Certified n S shard block)
    (hheight : block.height = s.b.shardHeight shard + 1) (hty : block.blockType ≠ .crossShard) :
    s.b.app.blocks (n.blockHash block) = none := by
  cases hblk : s.b.app.blocks (n.blockHash block) with
  | none => rfl
  | some blk =>
    obtain ⟨hmem, hhash⟩ := hs.known.blocks _ _ hblk
    obtain rfl : blk = block := hS hmem hcert.mem hhash
    rcases hs.processed _ _ hblk with h | h | h
    · exact absurd h hty
    · exact absurd (hcert.chainID ▸ hshard) h
    · rw [hcert.chainID] at h
      omega

theorem shardsStep_iBlock {s s' : Shards}
    (h : shardsStep n s (.iBlock shard block isok) = some s') :
    ∃ rs i' b', n.precommitI shard block isok (s.i shard) = (.ok rs, i') ∧
      n.deliver block block.height shard isok s.b = some b' ∧
      s' = { b := b', i := Function.update s.i shard i' } := by
  simp only [shardsStep] at h
  split at h
  · next rs i' b' hI hB => exact ⟨rs, i', b', hI, hB, (Option.some.inj h).symm⟩
  · cases h

/-- After the next block of a shard was stored, there is none yet above the new height. -/
theorem lookup_heights_next {heights : List ((ℤ × Str) × Bytes)} {shardHeight : Str → ℤ}
    (hp : ∀ k, shardHeight p < k → heights.lookup (k, p) = none) (shard : Str) (hash : Bytes)
    {k : ℤ} (hk : Function.update shardHeight shard (shardHeight shard + 1) p < k) :
    List.lookup (k, p) (((shardHeight shard + 1, shard), hash) :: heights) = none := by
  by_cases hps : p = shard
  · subst hps
    rw [Function.update_self] at hk
    have hne : ((k, p) == (shardHeight p + 1, p)) = false :=
      beq_false_of_ne fun heq => by
        have := congrArg Prod.fst heq
        omega
    rw [List.lookup_cons, hne]
    exact hp k (by omega)
  · rw [Function.update_of_ne hps] at hk
    have hne : ((k, p) == (shardHeight shard + 1, shard)) = false :=
      beq_false_of_ne fun heq => hps (congrArg Prod.snd heq)
    rw [List.lookup_cons, hne]
    exact hp k hk

theorem replicated_iBlock {s s' : Shards} (hS : S.InjOn n.blockHash) (hs : Replicated n S s)
    (hshard : shard ∈ n.iShards) (hcert : Certified n S shard block)
    (hheight : block.height = s.b.shardHeight shard + 1)
    (hclear : Clear n shard block isok s.b.app (s.i shard))
    (h : shardsStep n s (.iBlock shard block isok) = some s') : Replicated n S s' := by
  obtain ⟨rs, i', b', hI, hB, rfl⟩ := shardsStep_iBlock h
  obtain ⟨i₁, hi₁, rfl⟩ := precommitI_eq_ok hI
  have hty := blockType_of_processIBlock hi₁
  have hnew := hs.fresh hS hshard hcert hheight hty
  have hnext : s.b.heights.lookup (s.b.shardHeight shard + 1 + 1, shard) = none :=
    hs.heights shard hshard _ (by omega)
  rw [hheight, Network.deliver_next hshard hnew hnext] at hB
  split at hB
  swap
  · cases hB
  next rs' b₁ hb₁ =>
  obtain rfl := Option.some.inj hB
  -- the B shard stores the block first, the I shard last
  have hw₁ := within_processIBlock hcert.chainID hb₁
  obtain ⟨hm₁, hkb₁, hki₁⟩ := mirrors_process hS
    ((hs.mirrors shard hshard).setBlockB (n.blockHash block) block) (hs.known.setBlock hcert.mem)
    (hs.knownI shard hshard) hcert hclear hi₁ hb₁
  have hw : Within n shard s.b.app b₁ := (within_setBlock shard _ _ _).trans hw₁
  have hstored : (b₁.blocks (n.blockHash block)).isSome = true :=
    hw₁.stored _ (by simp [AppState.setBlock])
  refine ⟨hkb₁, fun p hp => ?_, fun p hp => ?_, fun p hp k hk => ?_, fun hash blk hblk => ?_⟩
  · by_cases hps : p = shard
    · subst hps
      simp only [Function.update_self]
      exact hki₁.setBlock hcert.mem
    · simp only [Function.update_of_ne hps]
      exact hs.knownI p hp
  · by_cases hps : p = shard
    · subst hps
      simp only [Function.update_self]
      exact hm₁.setBlockI hstored hty
    · simp only [Function.update_of_ne hps]
      exact (hs.mirrors p hp).within (List.mem_cons_of_mem _ hshard) (List.mem_cons_of_mem _ hp)
        (Ne.symm hps) hw
  · exact lookup_heights_next (hs.heights p hp) shard (n.blockHash block) hk
  · show _ ∨ _ ∨ blk.height ≤ Function.update s.b.shardHeight shard (s.b.shardHeight shard + 1) blk.chainID
    have hgrow : s.b.shardHeight blk.chainID ≤
        Function.update s.b.shardHeight shard (s.b.shardHeight shard + 1) blk.chainID := by
      by_cases hc : blk.chainID = shard
      · rw [hc, Function.update_self]
        omega
      · rw [Function.update_of_ne hc]
    rcases blocks_processIBlock hb₁ hblk with hold | hold | rfl
    · by_cases hh : hash = n.blockHash block
      · obtain rfl : block = blk := by simpa [AppState.setBlock, hh] using hold
        right; right
        rw [hcert.chainID, Function.update_self, hheight]
      · have hold' : s.b.app.blocks hash = some blk := by
          simpa [AppState.setBlock, Function.update_of_ne hh] using hold
        rcases hs.processed hash blk hold' with h₁ | h₁ | h₁
        · exact .inl h₁
        · exact .inr (.inl h₁)
        · exact .inr (.inr (h₁.trans hgrow))
    · exact .inl hold
    · right; right
      rw [hcert.chainID, Function.update_self, hheight]

/-- Processing a block of the B shard stores nothing but the block itself, and changes only what is
the B shard's own. -/
theorem within_processBBlock {a a' : AppState} (hknown : Known n S a) (hblock : block ∈ S)
    (hchain : block.chainID = n.bShard) (h : n.processBBlock block a = (.ok rs, a')) :
    Within n n.bShard a a' ∧ Known n S a' ∧
      ∀ hash blk, a'.blocks hash = some blk → a.blocks hash = some blk ∨ blk = block := by
  unfold Network.processBBlock at h
  cases hty : block.blockType with
  | innerShard =>
    simp only [hty] at h
    rw [executionInnerShard_ok h]
    refine ⟨⟨fun key hk => foldl_innerEffect_of_not_range (by rw [hchain]; exact hk),
      fun _ _ => rfl, fun _ h => h, fun _ hs => isSome_setBlock hs (n.blockHash block) block⟩,
      ⟨(hknown.setBlock hblock).blocks, hknown.accepted⟩, fun hash blk hblk => ?_⟩
    exact (blocks_setBlock hblk).imp_right And.right
  | crossShard | bCommitBlock =>
    rw [hty] at h
    obtain ⟨-, rfl⟩ : _ ∧ a = a' := by simpa using h
    exact ⟨within_refl _ _, hknown, fun _ _ h => .inl h⟩
  | none | i | b | iCommitBlock | iAcceptBlock =>
    rw [hty] at h
    cases h

theorem replicated_bBlock {s s' : Shards} (hs : Replicated n S s) (hblock : block ∈ S)
    (hchain : block.chainID = n.bShard) (h : shardsStep n s (.bBlock block) = some s') :
    Replicated n S s' := by
  obtain ⟨b', hb', rfl⟩ := Option.map_eq_some_iff.mp h
  unfold Network.precommitB at hb'
  split at hb'
  swap
  · cases hb'
  next rs app happ =>
  obtain rfl := Option.some.inj hb'
  obtain ⟨hw, hknown, hblocks⟩ := within_processBBlock hs.known hblock hchain happ
  refine ⟨hknown.setBlock hblock, hs.knownI, fun p hp => ?_, fun p hp k hk => ?_,
    fun hash blk hblk => ?_⟩
  · refine (Mirrors.within List.mem_cons_self (List.mem_cons_of_mem _ hp) ?_ (hs.mirrors p hp)
      hw).setBlockB _ _
    exact fun heq => n.bShard_not_mem (heq ▸ hp)
  · have hne : ((k, p) == (block.height, block.chainID)) = false :=
      beq_false_of_ne fun heq => by
        have hp' : p = n.bShard := (congrArg Prod.snd heq).trans hchain
        exact n.bShard_not_mem (hp' ▸ hp)
    show List.lookup (k, p) (((block.height, block.chainID), n.blockHash block) :: s.b.heights) = none
    rw [List.lookup_cons, hne]
    exact hs.heights p hp k hk
  · have hown : blk = block → blk.chainID ∉ n.iShards := fun heq => by
      rw [heq, hchain]
      exact n.bShard_not_mem
    by_cases hh : hash = n.blockHash block
    · refine .inr (.inl (hown ?_))
      have : some block = some blk := by
        simpa [Network.BNode.setBlockByHeight, AppState.setBlock, hh] using hblk
      exact (Option.some.inj this).symm
    · have hblk' : app.blocks hash = some blk := by
        simpa [Network.BNode.setBlockByHeight, AppState.setBlock, Function.update_of_ne hh] using hblk
      rcases hblocks hash blk hblk' with hold | rfl
      · exact hs.processed hash blk hold
      · exact .inr (.inl (hown rfl))

/-- Nothing was processed yet, and the B shard's stored balances are those of the I shards. -/
structure Shards.Fresh (n : Network) (s : Shards) : Prop where
  heights : s.b.heights = []
  shardHeight : ∀ p, s.b.shardHeight p = 0
  store : ∀ p ∈ n.iShards, ∀ key, n.range p key = true → s.b.app.store key = (s.i p).store key
  lockedKeys : ∀ key, s.b.app.lockedKeys key = none
  blocks : ∀ hash, s.b.app.blocks hash = none
  accepted : ∀ hash, s.b.app.accepted hash = false
  lockedI : ∀ p key, (s.i p).lockedKeys key = none
  blocksI : ∀ p hash, (s.i p).blocks hash = none
  acceptedI : ∀ p hash, (s.i p).accepted hash = false

theorem Shards.Fresh.replicated {s : Shards} (h : s.Fresh n) (S : Set Block) :
    Replicated n S s where
  known := ⟨fun hash _ hb => by simp [h.blocks hash] at hb,
    fun hash ha => by simp [h.accepted hash] at ha⟩
  knownI p _ := ⟨fun hash _ hb => by simp [h.blocksI p hash] at hb,
    fun hash ha => by simp [h.acceptedI p hash] at ha⟩
  mirrors p hp := ⟨h.store p hp, fun key _ => by rw [h.lockedKeys, h.lockedI],
    fun key _ => h.lockedI p key, fun hash ha => by simp [h.acceptedI p hash] at ha,
    fun hash _ hb => by simp [h.blocksI p hash] at hb,
    fun hash _ hb => by simp [h.blocksI p hash] at hb⟩
  heights p _ k _ := by rw [h.heights]; rfl
  processed hash _ hb := by simp [h.blocks hash] at hb

/-- **The replica.** Whatever blocks the I shards execute and in whatever interleaving they reach
the B shard, each I shard's in order: as long as no transaction that an I shard locks for meets a
lock at the B shard, the balances the B shard stores for each I shard are those the I shard
stores. -/
theorem replica (n : Network) (S : Set Block) (hS : S.InjOn n.blockHash) (s₀ s : Shards)
    (h₀ : s₀.Fresh n) (events : List Event) (hrun : run (shardsStep n) s₀ events = some s)
    (hsteps : Along (shardsStep n) (fun s e => InOrder n S s e ∧ e.Clear n s) s₀ events) :
    ∀ p ∈ n.iShards, ∀ key, n.range p key = true → s.b.app.store key = (s.i p).store key := by
  have hrep : Replicated n S s := by
    refine run_invariant_along (fun s e s' hs hstep h => ?_) (h₀.replicated S) hsteps hrun
    cases e with
    | iBlock shard block isok =>
      obtain ⟨⟨hshard, hcert, hheight⟩, hclear⟩ := hstep
      exact replicated_iBlock hS hs hshard hcert hheight hclear h
    | bBlock block => exact replicated_bBlock hs hstep.1.1 hstep.1.2 h
  intro p hp
  exact (hrep.mirrors p hp).store

/-! ## A payment between two I shards -/

/-- The cross-shard block of the B shard: an account of I shard 1 pays 5 to one of I shard 2. -/
def paymentBlock : Block :=
  { emptyBlock .crossShard [66] 1 with
    crossShardTxs := [uint32ToBytes txTransfer ++ wireCodecs.transferTx.marshal (payment [1, 0] [2, 0])]
    crossShardDatas := [wireCodecs.bankData.marshal
      { keys := [[1, 0], [2, 0]], oK := true, values := [1000000, 1000000] }] }

/-- The blocks with which the I shards accept and commit it. -/
def acceptBlock (shard : Str) : Block := { emptyBlock .iAcceptBlock shard 1 with bodyTxs := [[1]] }
def commitBlock (shard : Str) : Block := { emptyBlock .iCommitBlock shard 2 with bodyTxs := [[2]] }

/-- A B shard with two I shards; a shard owns the accounts whose names start with its letter. -/
def twoIShards : Network where
  bShard := [66]
  iShards := [[1], [2]]
  range p key := key.head? == p.head?
  codecs := wireCodecs
  blockHash block := block.chainID ++ [UInt8.ofNat block.height.toNat]
  crossShardBlock bz := if bz = [1] then some paymentBlock else none
  messageCommit bz := if bz = [2] then some ([66, 1], true) else none
  bShard_not_mem := by decide
  disjoint p hp q hq key hpk hqk := by
    have hhead : p.head? = q.head? := (beq_iff_eq.mp hpk).symm.trans (beq_iff_eq.mp hqk)
    simp only [List.mem_cons, List.not_mem_nil, or_false] at hp hq
    rcases hp with rfl | rfl | rfl <;> rcases hq with rfl | rfl | rfl <;> simp_all

def freshShards : Shards where
  b := { app := ⟨fun _ => none, fun _ => none, fun _ => none, fun _ => false⟩
         heights := []
         shardHeight := fun _ => 0 }
  i _ := ⟨fun _ => none, fun _ => none, fun _ => none, fun _ => false⟩

theorem fresh_freshShards : freshShards.Fresh twoIShards :=
  ⟨rfl, fun _ => rfl, fun _ _ _ _ => rfl, fun _ => rfl, fun _ => rfl, fun _ => rfl, fun _ _ => rfl,
    fun _ _ => rfl, fun _ _ => rfl⟩

def paymentBlocks : Set Block :=
  {paymentBlock, acceptBlock [1], acceptBlock [2], commitBlock [1]}

theorem injOn_paymentBlocks : paymentBlocks.InjOn twoIShards.blockHash := by
  rintro b (rfl | rfl | rfl | rfl) b' (rfl | rfl | rfl | rfl) h <;> first | rfl | exact absurd h (by decide)

theorem certified_block (hmem : block ∈ paymentBlocks) (hchain : block.chainID = shard) :
    Certified twoIShards paymentBlocks shard block := by
  refine ⟨hmem, hchain, fun H hH => ?_⟩
  obtain ⟨bz, -, hbz⟩ := Option.bind_eq_some_iff.mp hH
  obtain rfl : paymentBlock = H := by
    simp only [twoIShards] at hbz
    split at hbz
    · exact Option.some.inj hbz
    · cases hbz
  exact Set.mem_insert _ _

/-- The shards after an event. -/
def afterEvent (s : Shards) (e : Event) : Shards := (shardsStep twoIShards s e).getD s

theorem step_afterEvent {s : Shards} {e : Event} (h : (shardsStep twoIShards s e).isSome = true) :
    shardsStep twoIShards s e = some (afterEvent s e) := by
  obtain ⟨s', hs'⟩ := Option.isSome_iff_exists.mp h
  rw [afterEvent, hs']
  rfl

/-- Only shard 1 has accepted the payment when it commits: the B shard follows. -/
theorem replica_one_accept :
    (afterEvent (afterEvent freshShards (.iBlock [1] (acceptBlock [1]) true))
      (.iBlock [1] (commitBlock [1]) true)).b.app.store [1, 0] =
    ((afterEvent (afterEvent freshShards (.iBlock [1] (acceptBlock [1]) true))
      (.iBlock [1] (commitBlock [1]) true)).i [1]).store [1, 0] := by
  have h₁ := step_afterEvent (s := freshShards) (e := .iBlock [1] (acceptBlock [1]) true) (by decide)
  have h₂ := step_afterEvent (s := afterEvent freshShards (.iBlock [1] (acceptBlock [1]) true))
    (e := .iBlock [1] (commitBlock [1]) true) (by decide)
  refine replica twoIShards paymentBlocks injOn_paymentBlocks freshShards _ fresh_freshShards
    [.iBlock [1] (acceptBlock [1]) true, .iBlock [1] (commitBlock [1]) true]
    (run_cons.mpr ⟨_, h₁, run_cons.mpr ⟨_, h₂, rfl⟩⟩) ?_ [1] (by decide) [1, 0] (by decide)
  refine .cons ⟨⟨by decide, certified_block (by simp [paymentBlocks]) rfl, by decide⟩, ?_⟩ h₁ <|
    .cons ⟨⟨by decide, certified_block (by simp [paymentBlocks]) rfl, by decide⟩, ?_⟩ h₂ trivial
  · exact fun H _ _ _ p _ ws _ _ w _ => rfl
  · exact fun H hty => absurd hty (by decide)

/-- Both I shards have accepted the payment, shard 2 first. Its lock at the B shard makes the
payment fail there for shard 1, so the commit of shard 1 changes nothing at the B shard. -/
theorem not_replica_two_accepts :
    Along (shardsStep twoIShards) (InOrder twoIShards paymentBlocks) freshShards
      [.iBlock [2] (acceptBlock [2]) true, .iBlock [1] (acceptBlock [1]) true,
        .iBlock [1] (commitBlock [1]) true] ∧
    ∃ s, run (shardsStep twoIShards) freshShards
        [.iBlock [2] (acceptBlock [2]) true, .iBlock [1] (acceptBlock [1]) true,
          .iBlock [1] (commitBlock [1]) true] = some s ∧
      s.b.app.store [1, 0] = none ∧ (s.i [1]).store [1, 0] = some 999995 := by
  have h₁ := step_afterEvent (s := freshShards) (e := .iBlock [2] (acceptBlock [2]) true) (by decide)
  have h₂ := step_afterEvent (s := afterEvent freshShards (.iBlock [2] (acceptBlock [2]) true))
    (e := .iBlock [1] (acceptBlock [1]) true) (by decide)
  have h₃ := step_afterEvent (s := afterEvent (afterEvent freshShards
    (.iBlock [2] (acceptBlock [2]) true)) (.iBlock [1] (acceptBlock [1]) true))
    (e := .iBlock [1] (commitBlock [1]) true) (by decide)
  constructor
  · exact .cons ⟨by decide, certified_block (by simp [paymentBlocks]) rfl, by decide⟩ h₁ <|
      .cons ⟨by decide, certified_block (by simp [paymentBlocks]) rfl, by decide⟩ h₂ <|
        .cons ⟨by decide, certified_block (by simp [paymentBlocks]) rfl, by decide⟩ h₃ trivial
  · exact ⟨_, run_cons.mpr ⟨_, h₁, run_cons.mpr ⟨_, h₂, run_cons.mpr ⟨_, h₃, rfl⟩⟩⟩, by decide,
      by decide⟩

end Emulator.Pyramid
