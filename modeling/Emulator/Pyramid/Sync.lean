import Emulator.Lib.Arrivals
import Emulator.Pyramid.Replica

/-!
# Blocks that reach the B shard out of order

The blocks of an I shard can overtake each other. The B shard stores each under its height, and the
one that closes a gap has all blocks up to the next gap processed: with its own code, not with
theirs. The code decides what becomes of a block that accepts a cross-shard block and of no other.

The blocks that are stored but not processed do not disturb the processing of the others
(`processIBlock_stores`), so that at every moment the node is where the delivery in the order of the
heights would have brought it, as long as every such block got its own code (`Tracks`).

* `synchronised_iff` — every block is processed with the code of its own certificate exactly if that
  is also the code of the message that came last among those up to its height; the node then ends
  as if the blocks had come in order.
-/

namespace Emulator.Pyramid

open Emulator.Action Emulator.Minibank Emulator.Pyramid.Minibank
open Network (BNode)

variable {n : Network}

/-! ## Processing with more blocks in the store -/

/-- The application with another block store. -/
def withBlocks (blocks : Bytes → Option Block) (s : AppState) : AppState := { s with blocks }

variable {i p j : ℕ} {tₙ t : BNode} {isok : Bool} {block : Block} {s s' : AppState}
  {app : Application} {rs : List Receipt} (blocks : Bytes → Option Block)

theorem frames_onMemory {α : Type} (x : Mem α) :
    Frames (withBlocks blocks) (onMemory x) := by
  intro s
  have hstore : (withBlocks blocks s).store = s.store := rfl
  unfold onMemory
  rw [hstore]
  rcases x (newMemoryDB s.store) with ⟨r, m⟩
  cases r <;> rfl

theorem frames_lockKey (m : MemoryDB) (key : Str) :
    Frames (withBlocks blocks) (lockKey m key) := by
  intro s
  have hlock (u : UInt32) :
      (withBlocks blocks s).setLock key u = withBlocks blocks (s.setLock key u) := by
    have hkeys : (withBlocks blocks s).lockedKeys = s.lockedKeys := rfl
    unfold AppState.setLock
    rw [hkeys]
    split_ifs <;> rfl
  unfold lockKey
  rcases MemoryDB.get key m with ⟨r, m'⟩
  cases r with
  | error e => rfl
  | ok u => exact congrArg (Prod.mk (Except.ok ())) (hlock u)

theorem frames_lockIf (app : Application) (block : Block)
    (chainID : Str) (ifcommit : Bool) :
    Frames (withBlocks blocks) (lockIf app block chainID ifcommit) := by
  cases ifcommit with
  | false => exact fun _ => rfl
  | true =>
    refine Frames.get_bind (fun _ => rfl) fun s => Frames.bind (frames_onMemory blocks _) fun p => ?_
    exact Frames.bind (Frames.forEach (frames_lockKey blocks p.2) _) fun _ _ => rfl

theorem acceptCrossShard_withBlocks {chainID : Str} {ifcommit : Bool}
    (h : acceptCrossShard app block chainID ifcommit s = (.ok rs, s')) :
    acceptCrossShard app block chainID ifcommit (withBlocks blocks s) =
      (.ok rs, withBlocks (Function.update blocks (app.blockHash block) (some block)) s') := by
  unfold acceptCrossShard at h ⊢
  split at h
  · cases h
  · next hty =>
    rw [if_neg hty]
    obtain ⟨s₁, hbody, rfl⟩ := andFinally_eq_ok.mp h
    have hframe := Frames.bind (frames_lockIf blocks app block chainID ifcommit)
      (g := fun receipts => do
        modify fun s => { s with accepted := Function.update s.accepted (app.blockHash block) true }
        pure receipts) (fun _ _ => rfl) s
    rw [hbody] at hframe
    exact andFinally_eq_ok.mpr ⟨_, hframe, rfl⟩

theorem executionInnerShard_withBlocks (h : executionInnerShard app block s = (.ok rs, s')) :
    executionInnerShard app block (withBlocks blocks s) =
      (.ok rs, withBlocks (Function.update blocks (app.blockHash block) (some block)) s') := by
  unfold executionInnerShard at h ⊢
  obtain ⟨u, s₁, hreq, h₁⟩ := bind_eq_ok.mp h
  obtain ⟨hty, rfl⟩ := require_eq_ok.mp hreq
  obtain ⟨⟨receipts, m⟩, s₂, hmem, h₂⟩ := bind_eq_ok.mp ((run_bind_ok (run_get _)).symm.trans h₁)
  obtain ⟨hrun, rfl⟩ := onMemory_eq_ok hmem
  obtain ⟨rfl, rfl⟩ : receipts = rs ∧ _ = s' := by simpa [run_bind] using h₂
  have hmem' := frames_onMemory blocks
    (mapEach (innerTx app s₂.lockedKeys (rangeDB (app.keyRangeTree block.chainID))) block.bodyTxs) s₂
  rw [hmem] at hmem'
  refine bind_eq_ok.mpr ⟨u, _, require_eq_ok.mpr ⟨hty, rfl⟩, ?_⟩
  rw [run_bind_ok (run_get _)]
  exact bind_eq_ok.mpr ⟨_, _, hmem', rfl⟩

/-- A store that has all the blocks of another. -/
def Covers (blocks blocks' : Bytes → Option Block) : Prop :=
  ∀ hash block, blocks hash = some block → blocks' hash = some block

/-- Commits look at the blocks they settle only. -/
theorem run_settle_withBlocks {chainID : Str} {entries : List (Bytes × Bool)}
    {blocks : Bytes → Option Block} (hcovers : Covers s.blocks blocks)
    (h : run (fun s e => settle app chainID e.1 e.2 s) s entries = some s') :
    s'.blocks = s.blocks ∧ run (fun s e => settle app chainID e.1 e.2 s) (withBlocks blocks s) entries =
      some (withBlocks blocks s') := by
  induction entries generalizing s with
  | nil =>
    obtain rfl := Option.some.inj h
    exact ⟨rfl, rfl⟩
  | cons e entries ih =>
    obtain ⟨s₁, hsettle, hrest⟩ := run_cons.mp h
    obtain ⟨block, hblock, hs₁⟩ := Option.map_eq_some_iff.mp hsettle
    have hblocks : s₁.blocks = s.blocks := (settle_frame hsettle).1
    have hsettle' : settle app chainID e.1 e.2 (withBlocks blocks s) = some (withBlocks blocks s₁) := by
      refine Option.map_eq_some_iff.mpr ⟨block, hcovers _ _ hblock, ?_⟩
      have haccepted : (withBlocks blocks s).accepted e.1 = s.accepted e.1 := rfl
      rw [haccepted, ← hs₁]
      split_ifs <;> rfl
    obtain ⟨hkeep, hrun⟩ := ih (hblocks ▸ hcovers) hrest
    exact ⟨hkeep.trans hblocks, run_cons.mpr ⟨_, hsettle', hrun⟩⟩

/-- The store with at most one more block. -/
def Network.storeNew (n : Network) (new : Option Block) (blocks : Bytes → Option Block) :
    Bytes → Option Block :=
  new.elim blocks fun block => Function.update blocks (n.blockHash block) (some block)

theorem Covers.storeNew {blocks blocks' : Bytes → Option Block} (h : Covers blocks blocks')
    (new : Option Block) : Covers (n.storeNew new blocks) (n.storeNew new blocks') := by
  cases new with
  | none => exact h
  | some X =>
    intro hash block hblock
    simp only [Network.storeNew, Option.elim_some] at hblock ⊢
    by_cases heq : hash = n.blockHash X
    · rw [heq, Function.update_self] at hblock ⊢
      exact hblock
    · rw [Function.update_of_ne heq] at hblock ⊢
      exact h hash block hblock

/-- **What processing does to the block store**, whatever else is in it: the block itself or the one
it accepts can be new. -/
theorem processIBlock_stores {p shard : Str}
    (h : n.processIBlock p block shard isok s = (.ok rs, s')) :
    ∃ new : Option Block,
      (∀ X ∈ new, X = block ∨
        X.blockType = .crossShard ∧ block.bodyTxs.head?.bind n.crossShardBlock = some X) ∧
      s'.blocks = n.storeNew new s.blocks ∧
      ∀ blocks, Covers s.blocks blocks → ∃ rs', n.processIBlock p block shard isok
        (withBlocks blocks s) = (.ok rs', withBlocks (n.storeNew new blocks) s') := by
  cases processes_of_ok h with
  | inner hty hcall =>
    rw [hcall] at h ⊢
    refine ⟨some block, fun X hX => .inl (Option.some.inj hX).symm, ?_, fun blocks _ => ⟨rs, ?_⟩⟩
    · rw [executionInnerShard_ok h]
      rfl
    · exact executionInnerShard_withBlocks blocks h
  | @accept H hty hH hcall =>
    rw [hcall] at h ⊢
    refine ⟨some H, fun X hX => ?_, ?_, fun blocks _ => ⟨rs, ?_⟩⟩
    · obtain rfl := Option.some.inj hX
      exact .inr ⟨blockType_of_acceptCrossShard h, hH⟩
    · rw [acceptCrossShard_ok h]
      rfl
    · exact acceptCrossShard_withBlocks blocks h
  | commit hty hE hcall =>
    rw [hcall] at h ⊢
    have hrun := acceptCommitShard_ok_iff.mp ⟨rs, h⟩
    refine ⟨none, fun X hX => (by cases hX), (run_settle_withBlocks (fun _ _ => id) hrun).1,
      fun blocks hcovers => ?_⟩
    exact acceptCommitShard_ok_iff.mpr (run_settle_withBlocks hcovers hrun).2

/-- The code matters for an accepted block only. -/
theorem processIBlock_congr_code {p shard : Str} {isok' : Bool}
    (h : block.blockType = .iAcceptBlock → isok = isok') :
    n.processIBlock p block shard isok = n.processIBlock p block shard isok' := by
  unfold Network.processIBlock
  cases hty : block.blockType with
  | iAcceptBlock => rw [h hty]
  | _ => rfl

/-! ## The calls of a delivery -/

namespace Network

/-- The calls of `processIBlock` that the loop makes. -/
def catchUpCalls (n : Network) (chainID : Str) (isok : Bool) : ℕ → BNode → List (Block × Bool)
  | 0, _ => []
  | fuel + 1, b =>
    match b.nextBlock chainID with
    | none => []
    | some iblock => (iblock, isok) ::
      match n.processIBlock n.bShard iblock chainID isok b.app with
      | (.ok _, app) => n.catchUpCalls chainID isok fuel (b.advance chainID app)
      | (.error _, _) => []

/-- The calls of `processIBlock` for one message. -/
def deliverCalls (n : Network) (block : Block) (height : ℤ) (chainID : Str) (isok : Bool)
    (b : BNode) : List (Block × Bool) :=
  if chainID ∉ n.iShards then []
  else if (b.app.blocks (n.blockHash block)).isSome then []
  else
    let b' := b.setBlockByHeight height chainID (n.blockHash block) block
    n.catchUpCalls chainID isok b'.heights.length b'

end Network

/-! ## A segment of the chain of an I shard -/

/-- Blocks of consecutive heights, with the codes of their certificates. -/
structure Segment where
  length : ℕ
  block : ℕ → Block
  code : ℕ → Bool

namespace Segment

variable {S : Set Block} {chain : Str} {seg : Segment} {b₀ : BNode}

/-- The `CrossShardBlock` message of a block arrives. -/
def arrive (n : Network) (chain : Str) (seg : Segment) (b : BNode) (i : ℕ) : Option BNode :=
  n.deliver (seg.block i) (seg.block i).height chain (seg.code i) b

def calls (n : Network) (chain : Str) (seg : Segment) (b : BNode) (i : ℕ) : List (Block × Bool) :=
  n.deliverCalls (seg.block i) (seg.block i).height chain (seg.code i) b

/-- The segment follows what the node has of the shard, and its blocks are certified. No two blocks
in question have the same hash. -/
structure Follows (n : Network) (S : Set Block) (chain : Str) (seg : Segment) (b₀ : BNode) :
    Prop where
  shard : chain ∈ n.iShards
  injOn : S.InjOn n.blockHash
  certified : ∀ i < seg.length, Certified n S chain (seg.block i)
  blockType : ∀ i < seg.length, (seg.block i).blockType ≠ .crossShard
  height : ∀ i < seg.length, (seg.block i).height = b₀.shardHeight chain + 1 + i
  fresh : ∀ i < seg.length, b₀.app.blocks (n.blockHash (seg.block i)) = none
  ahead : ∀ h, b₀.shardHeight chain < h → b₀.heights.lookup (h, chain) = none

theorem Follows.eq_of_hash (h : seg.Follows n S chain b₀) (hi : i < seg.length)
    (hj : j < seg.length) (heq : n.blockHash (seg.block i) = n.blockHash (seg.block j)) :
    i = j := by
  have hblock := h.injOn (h.certified i hi).mem (h.certified j hj).mem heq
  have hheight := (h.height i hi).symm.trans ((congrArg (·.height) hblock).trans (h.height j hj))
  omega

/-- What processing stores is the block itself or no block of the segment. -/
theorem Follows.storeNew (h : seg.Follows n S chain b₀) (hp : p < seg.length) (hi : i < seg.length)
    {new : Option Block} (hnew : ∀ X ∈ new, X = seg.block p ∨
      X.blockType = .crossShard ∧ (seg.block p).bodyTxs.head?.bind n.crossShardBlock = some X)
    (blocks : Bytes → Option Block) :
    n.storeNew new blocks (n.blockHash (seg.block i)) = blocks (n.blockHash (seg.block i)) ∨
      i = p ∧ n.storeNew new blocks (n.blockHash (seg.block i)) = some (seg.block p) := by
  cases new with
  | none => exact .inl rfl
  | some X =>
    by_cases heq : n.blockHash (seg.block i) = n.blockHash X
    · rcases hnew X rfl with rfl | ⟨hcross, hcarried⟩
      · exact .inr ⟨h.eq_of_hash hi hp heq, (congrArg _ heq).trans (Function.update_self ..)⟩
      · -- an accepted block is no block of an I shard
        have hX := h.injOn (h.certified i hi).mem ((h.certified p hp).carried X hcarried) heq
        exact absurd (hX ▸ hcross) (h.blockType i hi)
    · exact .inl (Function.update_of_ne heq _ _)

theorem lookup_cons_height {k k' : ℤ} (hne : k ≠ k') (hash : Bytes)
    (heights : List ((ℤ × Str) × Bytes)) :
    List.lookup (k, chain) (((k', chain), hash) :: heights) = heights.lookup (k, chain) := by
  rw [List.lookup_cons, beq_false_of_ne fun heq => hne (congrArg Prod.fst heq)]

/-! ## In order -/

/-- The node after the first `p` blocks have come in order. -/
structure Reached (n : Network) (chain : Str) (seg : Segment) (b₀ : BNode) (p : ℕ) (t : BNode) :
    Prop where
  shardHeight : t.shardHeight = Function.update b₀.shardHeight chain (b₀.shardHeight chain + p)
  ahead : ∀ h, b₀.shardHeight chain + p < h → t.heights.lookup (h, chain) = none
  fresh : ∀ i, p ≤ i → i < seg.length → t.app.blocks (n.blockHash (seg.block i)) = none

theorem Reached.succ (h : seg.Follows n S chain b₀) {t' : BNode} (ht : seg.Reached n chain b₀ p t)
    (hp : p < seg.length) (harrive : seg.arrive n chain t p = some t') :
    seg.Reached n chain b₀ (p + 1) t' ∧
      t'.shardHeight = Function.update t.shardHeight chain (t.shardHeight chain + 1) ∧
      ∃ rs, n.processIBlock n.bShard (seg.block p) chain (seg.code p)
        (t.app.setBlock (n.blockHash (seg.block p)) (seg.block p)) = (.ok rs, t'.app) := by
  have hheight : t.shardHeight chain = b₀.shardHeight chain + p := by
    rw [ht.shardHeight, Function.update_self]
  have hnext : (seg.block p).height = t.shardHeight chain + 1 := by
    rw [h.height p hp, hheight]
    omega
  unfold arrive at harrive
  rw [hnext, Network.deliver_next h.shard (ht.fresh p le_rfl hp) (ht.ahead _ (by omega))] at harrive
  split at harrive
  swap
  · cases harrive
  · next rs app hproc =>
    obtain rfl := Option.some.inj harrive
    refine ⟨⟨?_, fun k hk => ?_, fun i hi hlen => ?_⟩, rfl, rs, hproc⟩
    · show Function.update t.shardHeight chain (t.shardHeight chain + 1) = _
      rw [ht.shardHeight, Function.update_self, Function.update_idem]
      congr 1
      push_cast
      omega
    · push_cast at hk
      show List.lookup (k, chain) (((t.shardHeight chain + 1, chain), _) :: t.heights) = none
      rw [lookup_cons_height (by omega)]
      exact ht.ahead k (by omega)
    · obtain ⟨new, hnew, hblocks, -⟩ := processIBlock_stores hproc
      show app.blocks _ = none
      rw [hblocks]
      rcases h.storeNew hp hlen hnew _ with hsame | ⟨hip, -⟩
      · have hne : n.blockHash (seg.block i) ≠ n.blockHash (seg.block p) := by
          intro heq
          have := h.eq_of_hash hlen hp heq
          omega
        rw [hsame]
        exact (Function.update_of_ne hne _ _).trans (ht.fresh i (by omega) hlen)
      · omega

theorem run_range_succ :
    run (seg.arrive n chain) b₀ (List.range (p + 1)) = some t ↔
      ∃ t', run (seg.arrive n chain) b₀ (List.range p) = some t' ∧ seg.arrive n chain t' p = some t := by
  rw [List.range_succ, run_append]
  refine exists_congr fun t' => and_congr_right fun _ => ?_
  rw [run, Option.bind_eq_some_iff]
  simp

theorem reached_of_run (h : seg.Follows n S chain b₀) (hp : p ≤ seg.length)
    (ht : run (seg.arrive n chain) b₀ (List.range p) = some t) : seg.Reached n chain b₀ p t := by
  induction p generalizing t with
  | zero =>
    obtain rfl := Option.some.inj ht
    refine ⟨?_, fun k hk => h.ahead k (by simpa using hk), fun i _ hi => h.fresh i hi⟩
    simp
  | succ p ih =>
    obtain ⟨t', ht', harrive⟩ := run_range_succ.mp ht
    exact ((ih (by omega) ht').succ h (by omega) harrive).1

/-- If all blocks can come in order, then the next one can. -/
theorem exists_next (hin : run (seg.arrive n chain) b₀ (List.range seg.length) = some tₙ)
    (ht : run (seg.arrive n chain) b₀ (List.range p) = some t) (hp : p < seg.length) :
    ∃ t', run (seg.arrive n chain) b₀ (List.range (p + 1)) = some t' ∧
      seg.arrive n chain t p = some t' := by
  obtain ⟨k, hk⟩ := Nat.exists_eq_add_of_le hp
  rw [hk, List.range_add] at hin
  obtain ⟨t', ht', -⟩ := run_append.mp hin
  obtain ⟨t₁, ht₁, hstep⟩ := run_range_succ.mp ht'
  obtain rfl := Option.some.inj (ht.symm.trans ht₁)
  exact ⟨t', ht', hstep⟩

/-! ## Out of order -/

/-- The node `b` has the blocks `R` and has processed the first `p`; apart from the blocks in its
store it is where the node `t` is, which has had those in order. -/
structure Tracks (n : Network) (chain : Str) (seg : Segment) (b₀ : BNode) (R : List ℕ) (p : ℕ)
    (t b : BNode) : Prop where
  processed : ∀ j < p, j ∈ R
  bound : ∀ i ∈ R, i < seg.length
  shardHeight : b.shardHeight = t.shardHeight
  lookup : ∀ i : ℕ, b.heights.lookup (b₀.shardHeight chain + 1 + i, chain) =
    if i ∈ R then some (n.blockHash (seg.block i)) else none
  app : withBlocks b.app.blocks t.app = b.app
  covers : Covers t.app.blocks b.app.blocks
  stored : ∀ i ∈ R, b.app.blocks (n.blockHash (seg.block i)) = some (seg.block i)
  fresh : ∀ i < seg.length, i ∉ R → b.app.blocks (n.blockHash (seg.block i)) = none

section

variable {R : List ℕ} {p : ℕ} {t b : BNode} (h : seg.Follows n S chain b₀)
  (hin : run (seg.arrive n chain) b₀ (List.range seg.length) = some tₙ)

section

variable (hb : seg.Tracks n chain b₀ R p t b)

include hb

theorem Tracks.le_length : p ≤ seg.length := by
  by_contra hlt
  have := hb.bound _ (hb.processed seg.length (by omega))
  omega

theorem Tracks.nextBlock (ht : seg.Reached n chain b₀ p t) :
    b.nextBlock chain = if p ∈ R then some (seg.block p) else none := by
  have hheight : b.shardHeight chain + 1 = b₀.shardHeight chain + 1 + p := by
    rw [hb.shardHeight, ht.shardHeight, Function.update_self]
    omega
  unfold Network.BNode.nextBlock Network.BNode.getBlockByHeight
  rw [hheight, hb.lookup]
  split_ifs with hp
  · exact hb.stored p hp
  · rfl

include h in
/-- One turn of the loop, with a code that is right if it matters. -/
theorem Tracks.advance (ht : seg.Reached n chain b₀ p t) (hp : p ∈ R) {t' : BNode}
    (hstep : seg.arrive n chain t p = some t')
    (hcode : (seg.block p).blockType = .iAcceptBlock → isok = seg.code p) :
    ∃ rs app, n.processIBlock n.bShard (seg.block p) chain isok b.app = (.ok rs, app) ∧
      seg.Tracks n chain b₀ R (p + 1) t' (b.advance chain app) := by
  have hlt := hb.bound p hp
  obtain ⟨-, hheight, rs, hproc⟩ := ht.succ h hlt hstep
  rw [← processIBlock_congr_code hcode] at hproc
  obtain ⟨new, hnew, hblocks, hmore⟩ := processIBlock_stores hproc
  have hcovers : Covers (t.app.setBlock (n.blockHash (seg.block p)) (seg.block p)).blocks
      b.app.blocks := by
    intro hash block hblock
    rcases blocks_setBlock hblock with hold | ⟨rfl, rfl⟩
    · exact hb.covers _ _ hold
    · exact hb.stored p hp
  obtain ⟨rs', hproc'⟩ := hmore b.app.blocks hcovers
  have happ : withBlocks b.app.blocks (t.app.setBlock (n.blockHash (seg.block p)) (seg.block p)) =
      b.app := hb.app
  rw [happ] at hproc'
  refine ⟨rs', _, hproc', fun j hj => ?_, hb.bound, ?_, hb.lookup, rfl, ?_, fun i hi => ?_,
    fun i hi hiR => ?_⟩
  · rcases Nat.lt_succ_iff_lt_or_eq.mp hj with hj | rfl
    · exact hb.processed j hj
    · exact hp
  · rw [hheight, ← hb.shardHeight]
    rfl
  · show Covers t'.app.blocks (n.storeNew new b.app.blocks)
    rw [hblocks]
    exact hcovers.storeNew new
  · show n.storeNew new b.app.blocks _ = _
    rcases h.storeNew hlt (hb.bound i hi) hnew b.app.blocks with hsame | ⟨rfl, hown⟩
    · rw [hsame, hb.stored i hi]
    · exact hown
  · show n.storeNew new b.app.blocks _ = _
    rcases h.storeNew hlt hi hnew b.app.blocks with hsame | ⟨rfl, -⟩
    · rw [hsame, hb.fresh i hi hiR]
    · exact absurd hp hiR

end

/-- The blocks from `p` to `j` are there. -/
def Ready (R : List ℕ) (p j : ℕ) : Prop := p ≤ j ∧ ∀ i, p ≤ i → i ≤ j → i ∈ R

theorem Ready.refl (hp : p ∈ R) : Ready R p p :=
  ⟨le_rfl, fun _ hi hip => le_antisymm hip hi ▸ hp⟩

theorem Ready.tail (h : Ready R (p + 1) j) (hp : p ∈ R) : Ready R p j := by
  refine ⟨by have := h.1; omega, fun i hi hij => ?_⟩
  rcases Nat.eq_or_lt_of_le hi with rfl | hlt
  · exact hp
  · exact h.2 i hlt hij

include h hin in
/-- **The loop**, if the code is right for all blocks that are ready. -/
theorem Tracks.catchUp (fuel : ℕ)
    (hb : seg.Tracks n chain b₀ R p t b) (ht : run (seg.arrive n chain) b₀ (List.range p) = some t)
    (hcode : ∀ j, Ready R p j → (seg.block j).blockType = .iAcceptBlock → isok = seg.code j) :
    ∃ p' t' b', n.catchUp chain isok fuel b = some b' ∧ p ≤ p' ∧
      run (seg.arrive n chain) b₀ (List.range p') = some t' ∧ seg.Tracks n chain b₀ R p' t' b' ∧
      ∀ c ∈ n.catchUpCalls chain isok fuel b, ∃ j, Ready R p j ∧ c = (seg.block j, isok) := by
  induction fuel generalizing p t b with
  | zero => exact ⟨p, t, b, rfl, le_rfl, ht, hb, fun c hc => absurd hc List.not_mem_nil⟩
  | succ fuel ih =>
    have hnext := hb.nextBlock (reached_of_run h hb.le_length ht)
    rw [Network.catchUp, Network.catchUpCalls, hnext]
    by_cases hp : p ∈ R
    · obtain ⟨t', ht', hstep⟩ := exists_next hin ht (hb.bound p hp)
      obtain ⟨rs, app, hproc, htracks⟩ :=
        hb.advance h (reached_of_run h hb.le_length ht) hp hstep (hcode p (.refl hp))
      obtain ⟨p', t'', b', hcatch, hle, hrun, htracks', hcalls⟩ := ih htracks ht' fun j hj =>
        hcode j (hj.tail hp)
      rw [if_pos hp]
      simp only [hproc]
      refine ⟨p', t'', b', hcatch, by omega, hrun, htracks', fun c hc => ?_⟩
      rcases List.mem_cons.mp hc with rfl | hc
      · exact ⟨p, .refl hp, rfl⟩
      · obtain ⟨j, hj, rfl⟩ := hcalls c hc
        exact ⟨j, hj.tail hp, rfl⟩
    · rw [if_neg hp]
      exact ⟨p, t, b, rfl, le_rfl, ht, hb, fun c hc => absurd hc List.not_mem_nil⟩

include h hin in
/-- Up to the first wrong code the loop makes a call for every block that is ready. -/
theorem Tracks.mem_catchUpCalls {fuel : ℕ}
    (hfuel : (b.ahead chain).length ≤ fuel) (hb : seg.Tracks n chain b₀ R p t b)
    (ht : run (seg.arrive n chain) b₀ (List.range p) = some t) (hj : Ready R p j)
    (hcode : ∀ i < j, Ready R p i → (seg.block i).blockType = .iAcceptBlock → isok = seg.code i) :
    (seg.block j, isok) ∈ n.catchUpCalls chain isok fuel b := by
  have hp : p ∈ R := hj.2 p le_rfl hj.1
  have hnext := hb.nextBlock (reached_of_run h hb.le_length ht)
  rw [if_pos hp] at hnext
  induction fuel generalizing p t b with
  | zero =>
    obtain ⟨hash, hmem⟩ := Network.mem_ahead_of_nextBlock hnext
    rw [List.length_eq_zero_iff.mp (Nat.le_zero.mp hfuel)] at hmem
    cases hmem
  | succ fuel ih =>
    rw [Network.catchUpCalls, hnext]
    rcases Nat.eq_or_lt_of_le hj.1 with rfl | hlt
    · exact List.mem_cons_self
    · obtain ⟨t', ht', hstep⟩ := exists_next hin ht (hb.bound p hp)
      obtain ⟨rs, app, hproc, htracks⟩ :=
        hb.advance h (reached_of_run h hb.le_length ht) hp hstep (hcode p hlt (.refl hp))
      have hj' : Ready R (p + 1) j := ⟨hlt, fun i hi hij => hj.2 i (by omega) hij⟩
      have hp' : p + 1 ∈ R := hj'.2 _ le_rfl hlt
      have hnext' := htracks.nextBlock (reached_of_run h (htracks.le_length) ht')
      rw [if_pos hp'] at hnext'
      simp only [hproc]
      have hfuel' := Nat.le_of_lt_succ ((Network.ahead_lt app hnext).trans_le hfuel)
      exact List.mem_cons_of_mem _
        (ih hfuel' htracks ht' hj' (fun i hi hr => hcode i hi (hr.tail hp)) hp' hnext')

/-! ## Every order of arrival -/

/-- Each accepting block is processed with the code of its certificate. -/
def Own (seg : Segment) (calls : List (Block × Bool)) : Prop :=
  ∀ c ∈ calls, c.1.blockType = .iAcceptBlock → ∀ j < seg.length, c.1 = seg.block j → c.2 = seg.code j

theorem own_of_calls (h : seg.calls n chain b i = []) : seg.Own (seg.calls n chain b i) := by
  rw [h]
  exact nofun

theorem along_own_cons {b' : BNode} {order : List ℕ} (hown : seg.Own (seg.calls n chain b i))
    (h : seg.arrive n chain b i = some b') :
    Along (seg.arrive n chain) (fun b i => seg.Own (seg.calls n chain b i)) b (i :: order) ↔
      Along (seg.arrive n chain) (fun b i => seg.Own (seg.calls n chain b i)) b' order :=
  along_cons_iff (P := fun b i => seg.Own (seg.calls n chain b i)) hown h

/-- From block `p` on, the code of each accepting block is that of the message which came last among
those up to its height. -/
def LastCode (seg : Segment) (p : ℕ) (R : List ℕ) : Prop :=
  ∀ j, p ≤ j → (∀ i ≤ j, i ∈ R) → (seg.block j).blockType = .iAcceptBlock →
    ∀ i, R.find? (fun i => decide (i ≤ j)) = some i → seg.code i = seg.code j

include h in
theorem Tracks.repeated (hb : seg.Tracks n chain b₀ R p t b)
    (hi : i ∈ R) : seg.arrive n chain b i = some b ∧ seg.calls n chain b i = [] := by
  have hstored : (b.app.blocks (n.blockHash (seg.block i))).isSome = true := by
    rw [hb.stored i hi]
    rfl
  unfold arrive calls Network.deliver Network.deliverCalls
  rw [if_neg (not_not_intro h.shard), if_neg (not_not_intro h.shard), if_pos hstored, if_pos hstored]
  exact ⟨rfl, rfl⟩

/-- The node with the block of a message that has not come before. -/
def received (n : Network) (chain : Str) (seg : Segment) (b : BNode) (i : ℕ) : BNode :=
  b.setBlockByHeight (seg.block i).height chain (n.blockHash (seg.block i)) (seg.block i)

include h in
theorem Tracks.received (hb : seg.Tracks n chain b₀ R p t b)
    (hi : i < seg.length) (hiR : i ∉ R) :
    seg.Tracks n chain b₀ (i :: R) p t (seg.received n chain b i) ∧
      seg.arrive n chain b i =
        n.catchUp chain (seg.code i) (seg.received n chain b i).heights.length
          (seg.received n chain b i) ∧
      seg.calls n chain b i =
        n.catchUpCalls chain (seg.code i) (seg.received n chain b i).heights.length
          (seg.received n chain b i) := by
  have hfresh := hb.fresh i hi hiR
  have hnone : ¬(b.app.blocks (n.blockHash (seg.block i))).isSome = true := by
    rw [hfresh]
    exact nofun
  refine ⟨⟨fun j hj => List.mem_cons_of_mem i (hb.processed j hj), fun j hj => ?_, hb.shardHeight,
    fun j => ?_, ?_, fun hash block hblock => ?_, fun j hj => ?_, fun j hj hjR => ?_⟩, ?_, ?_⟩
  · rcases List.mem_cons.mp hj with rfl | hj
    · exact hi
    · exact hb.bound j hj
  · show List.lookup _ ((((seg.block i).height, chain), _) :: b.heights) = _
    rw [h.height i hi]
    by_cases heq : j = i
    · subst heq
      simp
    · rw [lookup_cons_height (by omega), hb.lookup]
      simp [heq]
  · have happ := congrArg (withBlocks (seg.received n chain b i).app.blocks) hb.app
    exact happ
  · have hne : hash ≠ n.blockHash (seg.block i) := by
      rintro rfl
      rw [hb.covers _ _ hblock] at hfresh
      cases hfresh
    exact (Function.update_of_ne hne _ _).trans (hb.covers _ _ hblock)
  · show Function.update b.app.blocks _ _ _ = _
    by_cases heq : n.blockHash (seg.block j) = n.blockHash (seg.block i)
    · rcases List.mem_cons.mp hj with rfl | hj
      · exact Function.update_self ..
      · exact absurd (h.eq_of_hash (hb.bound j hj) hi heq ▸ hj) hiR
    · rw [Function.update_of_ne heq]
      rcases List.mem_cons.mp hj with rfl | hj
      · exact absurd rfl heq
      · exact hb.stored j hj
  · have hne : n.blockHash (seg.block j) ≠ n.blockHash (seg.block i) := fun heq =>
      hjR (h.eq_of_hash hj hi heq ▸ List.mem_cons_self)
    exact (Function.update_of_ne hne _ _).trans
      (hb.fresh j hj fun hmem => hjR (List.mem_cons_of_mem i hmem))
  · unfold arrive Network.deliver
    rw [if_neg (not_not_intro h.shard), if_neg hnone]
    rfl
  · unfold calls Network.deliverCalls
    rw [if_neg (not_not_intro h.shard), if_neg hnone]
    rfl

/-- Until the gap at `p` is closed nothing is processed. -/
theorem Tracks.gap (hb : seg.Tracks n chain b₀ R p t b)
    (ht : seg.Reached n chain b₀ p t) (hp : p ∉ R) (isok : Bool) (fuel : ℕ) :
    n.catchUp chain isok fuel b = some b ∧ n.catchUpCalls chain isok fuel b = [] := by
  cases fuel with
  | zero => exact ⟨rfl, rfl⟩
  | succ fuel =>
    rw [Network.catchUp, Network.catchUpCalls, hb.nextBlock ht, if_neg hp]
    exact ⟨rfl, rfl⟩

/-- The last message up to block `j` is the one that closes the gap. -/
theorem find?_closing (hj : p ≤ j) (hall : ∀ i ≤ j, i ∈ p :: R) (order : List ℕ) :
    (arrivals (p :: R) order).find? (fun i => decide (i ≤ j)) = some p := by
  rw [find?_arrivals fun i hi => hall i (of_decide_eq_true hi)]
  exact List.find?_cons_of_pos (decide_eq_true hj)

include h hin in
/-- The message of block `p` arrives and its code is right for all that are ready. -/
theorem Tracks.close (hb : seg.Tracks n chain b₀ R p t b)
    (ht : run (seg.arrive n chain) b₀ (List.range p) = some t)
    (hp : p ∉ R) (hlt : p < seg.length)
    (hcode : ∀ j, Ready (p :: R) p j → (seg.block j).blockType = .iAcceptBlock →
      seg.code p = seg.code j) :
    ∃ p' t' b', seg.arrive n chain b p = some b' ∧ seg.Own (seg.calls n chain b p) ∧ p ≤ p' ∧
      run (seg.arrive n chain) b₀ (List.range p') = some t' ∧
      seg.Tracks n chain b₀ (p :: R) p' t' b' ∧ p' ∉ p :: R := by
  obtain ⟨hb₁, harrive, hcalls⟩ := hb.received h hlt hp
  obtain ⟨p', t', b', hcatch, hle, ht', hb', hready⟩ := hb₁.catchUp h hin _ ht hcode
  have hnone := Network.catchUp_done (List.length_filter_le ..) hcatch
  rw [hb'.nextBlock (reached_of_run h hb'.le_length ht')] at hnone
  refine ⟨p', t', b', harrive.trans hcatch, ?_, hle, ht', hb', fun hmem => ?_⟩
  · rw [hcalls]
    intro c hc hty j hj heq
    obtain ⟨k, hk, rfl⟩ := hready c hc
    have hkj : k = j := h.eq_of_hash (hb₁.bound k (hk.2 k hk.1 le_rfl)) hj (congrArg n.blockHash heq)
    exact hkj ▸ hcode k hk hty
  · rw [if_pos hmem] at hnone
    cases hnone

include h hin in
/-- The message of block `p` arrives and its code is wrong for a block that is ready. -/
theorem Tracks.not_own (hb : seg.Tracks n chain b₀ R p t b)
    (ht : run (seg.arrive n chain) b₀ (List.range p) = some t)
    (hp : p ∉ R) (hlt : p < seg.length)
    (hcode : ∃ j, Ready (p :: R) p j ∧ (seg.block j).blockType = .iAcceptBlock ∧
      seg.code p ≠ seg.code j) : ¬seg.Own (seg.calls n chain b p) := by
  classical
  obtain ⟨hb₁, -, hcalls⟩ := hb.received h hlt hp
  -- the first such block
  obtain ⟨hready, hty, hne⟩ := Nat.find_spec hcode
  have hmem := hb₁.mem_catchUpCalls h hin (List.length_filter_le ..) ht hready fun i hi hri htyi =>
    not_not.mp fun hnei => Nat.find_min hcode hi ⟨hri, htyi, hnei⟩
  rw [← hcalls] at hmem
  exact fun hown => hne (hown _ hmem hty _ (hb₁.bound _ (hready.2 _ hready.1 le_rfl)) rfl)

include h hin in
/-- The run that goes on with more messages: which codes are used, and where it ends if they are the
right ones. -/
theorem Tracks.run_iff {order : List ℕ}
    (horder : ∀ i ∈ order, i < seg.length) (hb : seg.Tracks n chain b₀ R p t b)
    (ht : run (seg.arrive n chain) b₀ (List.range p) = some t) (hp : p ∉ R) :
    (Along (seg.arrive n chain) (fun b i => seg.Own (seg.calls n chain b i)) b order ↔
      seg.LastCode p (arrivals R order)) ∧
    (seg.LastCode p (arrivals R order) → ∃ p' t' b', run (seg.arrive n chain) b order = some b' ∧
      run (seg.arrive n chain) b₀ (List.range p') = some t' ∧
      seg.Tracks n chain b₀ (arrivals R order) p' t' b' ∧ p' ∉ arrivals R order) := by
  induction order generalizing R p t b with
  | nil =>
    refine ⟨iff_of_true trivial fun j hpj hall => ?_, fun _ => ⟨p, t, b, rfl, ht, hb, hp⟩⟩
    exact absurd (hall p hpj) hp
  | cons i order ih =>
    have hi := horder i List.mem_cons_self
    have hrest : ∀ j ∈ order, j < seg.length := fun j hj => horder j (List.mem_cons_of_mem i hj)
    have hreached := reached_of_run h hb.le_length ht
    by_cases hiR : i ∈ R
    · -- the message is a repetition
      obtain ⟨harrive, hcalls⟩ := hb.repeated h hiR
      rw [arrivals_cons_of_mem hiR, along_own_cons (own_of_calls hcalls) harrive,
        run_cons_of_step harrive]
      exact ih hrest hb ht hp
    · obtain ⟨hb₁, harrive, hcalls⟩ := hb.received h hi hiR
      rw [arrivals_cons_of_notMem hiR]
      by_cases hip : i = p
      swap
      · -- the gap stays
        have hp₁ : p ∉ i :: R := by
          rw [List.mem_cons, not_or]
          exact ⟨Ne.symm hip, hp⟩
        obtain ⟨hcatch, hnone⟩ := hb₁.gap hreached hp₁ (seg.code i)
          (seg.received n chain b i).heights.length
        rw [hcatch] at harrive
        rw [hnone] at hcalls
        rw [along_own_cons (own_of_calls hcalls) harrive, run_cons_of_step harrive]
        exact ih hrest hb₁ ht hp₁
      · -- the message closes the gap
        subst hip
        have hall {j : ℕ} (hj : Ready (i :: R) i j) : ∀ k ≤ j, k ∈ i :: R := fun k hk =>
          (Nat.lt_or_ge k i).elim (hb₁.processed k) fun hge => hj.2 k hge hk
        by_cases hcode : ∀ j, Ready (i :: R) i j → (seg.block j).blockType = .iAcceptBlock →
            seg.code i = seg.code j
        · obtain ⟨p', t', b', harrive, hown, hle, ht', hb', hp'⟩ := hb.close h hin ht hp hi hcode
          have hlast : seg.LastCode i (arrivals (i :: R) order) ↔
              seg.LastCode p' (arrivals (i :: R) order) := by
            refine ⟨fun hl j hj => hl j (hle.trans hj), fun hl j hj hmem hty k hk => ?_⟩
            rcases Nat.lt_or_ge j p' with hlt | hge
            · have hready : Ready (i :: R) i j := ⟨hj, fun k _ hkj => hb'.processed k (by omega)⟩
              rw [find?_closing hj (hall hready)] at hk
              exact Option.some.inj hk ▸ hcode j hready hty
            · exact hl j hge hmem hty k hk
          rw [hlast, along_own_cons hown harrive, run_cons_of_step harrive]
          exact ih hrest hb' ht' hp'
        · push Not at hcode
          have hnot : ¬seg.LastCode i (arrivals (i :: R) order) := by
            obtain ⟨j, hready, hty, hne⟩ := hcode
            exact fun hl => hne (hl j hready.1 (fun k hk => mem_arrivals.mpr (.inl (hall hready k hk)))
              hty i (find?_closing hready.1 (hall hready) order))
          exact ⟨iff_of_false (fun hal => hb.not_own h hin ht hp hi hcode hal.1) hnot,
            fun hl => absurd hl hnot⟩

end

end Segment

/-- **Blocks that come out of order.** Let the blocks of a segment be such that the node can process
them in the order of their heights. In any order of arrival, with repetitions, each block that
accepts a cross-shard block is processed with the code of its own certificate exactly if the message
that comes last among those up to its height has the same code. Then the node ends with the same
heights, balances and locks as in order. -/
theorem synchronised_iff {S : Set Block} {chain : Str} {seg : Segment} {b₀ t : BNode}
    (hseg : seg.Follows n S chain b₀)
    (hin : run (seg.arrive n chain) b₀ (List.range seg.length) = some t) {order : List ℕ}
    (horder : ∀ i, i ∈ order ↔ i < seg.length) :
    (Along (seg.arrive n chain) (fun b i => seg.Own (seg.calls n chain b i)) b₀ order ↔
      ∀ j < seg.length, (seg.block j).blockType = .iAcceptBlock →
        ∀ i, (arrivals [] order).find? (fun i => decide (i ≤ j)) = some i → seg.code i = seg.code j) ∧
    ((∀ j < seg.length, (seg.block j).blockType = .iAcceptBlock →
        ∀ i, (arrivals [] order).find? (fun i => decide (i ≤ j)) = some i → seg.code i = seg.code j) →
      ∃ b, run (seg.arrive n chain) b₀ order = some b ∧ b.shardHeight = t.shardHeight ∧
        b.app.store = t.app.store ∧ b.app.lockedKeys = t.app.lockedKeys) := by
  have hmem : ∀ i, i ∈ arrivals [] order ↔ i < seg.length := by
    intro i
    rw [mem_arrivals, horder]
    simp
  have hlast : (∀ j < seg.length, (seg.block j).blockType = .iAcceptBlock →
      ∀ i, (arrivals [] order).find? (fun i => decide (i ≤ j)) = some i → seg.code i = seg.code j) ↔
      seg.LastCode 0 (arrivals [] order) := by
    constructor
    · exact fun hall j _ hj hty => hall j ((hmem j).mp (hj j le_rfl)) hty
    · exact fun hall j hj hty => hall j (Nat.zero_le j) (fun i hi => (hmem i).mpr (by omega)) hty
  have hstart : seg.Tracks n chain b₀ [] 0 b₀ b₀ := by
    refine ⟨nofun, nofun, rfl, fun i => ?_, rfl, fun _ _ => id, nofun, fun i hi _ => hseg.fresh i hi⟩
    rw [if_neg List.not_mem_nil]
    exact hseg.ahead _ (by omega)
  obtain ⟨hiff, hend⟩ := hstart.run_iff hseg hin (fun i hi => (horder i).mp hi) (run_nil b₀)
    List.not_mem_nil
  rw [hlast]
  refine ⟨hiff, fun hl => ?_⟩
  obtain ⟨p, t', b, hrun, ht', hb, hp⟩ := hend hl
  -- all blocks are there, so all have been processed
  obtain rfl : p = seg.length := by
    have hle := hb.le_length
    rw [hmem] at hp
    omega
  obtain rfl := Option.some.inj (ht'.symm.trans hin)
  exact ⟨b, hrun, hb.shardHeight, hb.app ▸ rfl, hb.app ▸ rfl⟩

/-! ## A rejected block -/

/-- An intra-shard block, and a block that accepts the payment or rejects it. -/
def acceptAfterInner (code : Bool) : Segment where
  length := 2
  block i := if i = 0 then emptyBlock .innerShard [1] 1 else { acceptBlock [1] with height := 2 }
  code i := if i = 0 then true else code

def acceptBlocks : Set Block :=
  {emptyBlock .innerShard [1] 1, { acceptBlock [1] with height := 2 }, paymentBlock}

theorem follows_acceptAfterInner (code : Bool) :
    (acceptAfterInner code).Follows twoIShards acceptBlocks [1] freshShards.b where
  shard := by decide
  injOn := by
    rintro b (rfl | rfl | rfl) b' (rfl | rfl | rfl) h <;> first | rfl | exact absurd h (by decide)
  certified i _ := by
    have hblock : (acceptAfterInner code).block i ∈ acceptBlocks ∧
        ((acceptAfterInner code).block i).chainID = [1] := by
      simp only [acceptAfterInner]
      split_ifs
      · exact ⟨.inl rfl, rfl⟩
      · exact ⟨.inr (.inl rfl), rfl⟩
    refine ⟨hblock.1, hblock.2, fun H hH => ?_⟩
    obtain ⟨bz, -, hbz⟩ := Option.bind_eq_some_iff.mp hH
    simp only [twoIShards] at hbz
    split at hbz
    · exact .inr (.inr (Option.some.inj hbz).symm)
    · cases hbz
  blockType i _ := by
    simp only [acceptAfterInner]
    split_ifs <;> decide
  height i hi := by
    have hlt : i < 2 := hi
    obtain rfl | rfl : i = 0 ∨ i = 1 := by omega
    · rfl
    · rfl
  fresh _ _ := rfl
  ahead _ _ := rfl

/-- With an OK certificate on both blocks the order does not matter. -/
theorem synchronised_ok : ∃ t b, run ((acceptAfterInner true).arrive twoIShards [1]) freshShards.b
      (List.range 2) = some t ∧
    run ((acceptAfterInner true).arrive twoIShards [1]) freshShards.b [1, 1, 0] = some b ∧
    b.shardHeight = t.shardHeight ∧ b.app.store = t.app.store ∧ b.app.lockedKeys = t.app.lockedKeys ∧
    b.app.lockedKeys [1, 0] = some 999995 := by
  obtain ⟨t, hin, hlocked⟩ := Option.map_eq_some_iff.mp
    (show (run ((acceptAfterInner true).arrive twoIShards [1]) freshShards.b (List.range 2)).map
      (fun t => t.app.lockedKeys [1, 0]) = some (some 999995) by decide)
  have hcode : ∀ i j, (acceptAfterInner true).code i = (acceptAfterInner true).code j := by
    intro i j
    simp [acceptAfterInner]
  have horder : ∀ i, i ∈ [1, 1, 0] ↔ i < (acceptAfterInner true).length := by
    intro i
    simp only [acceptAfterInner, List.mem_cons, List.not_mem_nil, or_false]
    omega
  obtain ⟨b, hrun, hheight, hstore, hlocks⟩ := (synchronised_iff (follows_acceptAfterInner true) hin
    horder).2 fun j _ _ i _ => hcode i j
  exact ⟨t, b, hin, hrun, hheight, hstore, hlocks, hlocks ▸ hlocked⟩

/-- The I shard has rejected the payment. If the intra-shard block before comes late, the B shard
processes the rejection with the code of that block and locks the account. -/
theorem not_synchronised_reject :
    ∃ t b, run ((acceptAfterInner false).arrive twoIShards [1]) freshShards.b (List.range 2) = some t ∧
      run ((acceptAfterInner false).arrive twoIShards [1]) freshShards.b [1, 0] = some b ∧
      t.shardHeight [1] = 2 ∧ b.shardHeight [1] = 2 ∧
      t.app.lockedKeys [1, 0] = none ∧ b.app.lockedKeys [1, 0] = some 999995 := by
  obtain ⟨t, hin, ht⟩ := Option.map_eq_some_iff.mp
    (show (run ((acceptAfterInner false).arrive twoIShards [1]) freshShards.b (List.range 2)).map
      (fun t => (t.shardHeight [1], t.app.lockedKeys [1, 0])) = some (2, none) by decide)
  obtain ⟨b, hrun, hb⟩ := Option.map_eq_some_iff.mp
    (show (run ((acceptAfterInner false).arrive twoIShards [1]) freshShards.b [1, 0]).map
      (fun b => (b.shardHeight [1], b.app.lockedKeys [1, 0])) = some (2, some 999995) by decide)
  exact ⟨t, b, hin, hrun, congrArg Prod.fst ht, congrArg Prod.fst hb, congrArg Prod.snd ht,
    congrArg Prod.snd hb⟩

end Emulator.Pyramid
