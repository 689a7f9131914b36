import Emulator.Lib.Run
import Emulator.Pyramid.Certificates

/-!
# Counting the answers to a cross-shard block

A B shard that has decided a cross-shard block waits for a `MessageAccept` of every related shard
before it proposes the commit. `maPool` keeps the answers by the shard that their certificate names,
and `maCount` counts down from the number of related shards. While no block is pending the pool is a
nil map and the counter is -1.

The handler compares the hash of an answer with the pending one and verifies its certificate. It
does not look the shard up in `RelatedShards`, and the empty hash passes for the `nil` of no pending
block.

* `Counted` — the pending hash, the counter and the pool belong together.
* `counted_bNodeStep` — every event keeps them so, an answer if it is `Due`.
* `answers_along_iff` — they belong together, a commit is proposed only when all have answered, and
  nothing is written to the nil map, exactly in the runs whose answers are all due.
-/

namespace Emulator.Pyramid

/-! ## The code -/

/-- What `createBBlockTxs` puts into a block. A commit has the answers of the pool. -/
inductive BBlockTxs
  | crossShard (txs : List Bytes)
  | commit (accepts : Str → Option MessageAccept) (blockHash : Option Bytes)
  | inner (txs : List Bytes)

/-- `createBBlockTxs`, where the mempools have `crossTxs` and `txs`. -/
def CrossState.createBBlockTxs (s : CrossState) (crossTxs txs : List Bytes) : BBlockTxs :=
  if s.maCount = -1 ∧ crossTxs ≠ [] then .crossShard crossTxs
  else if s.maCount = 0 then
    .commit (s.maPool.getD fun _ => none) s.pendingCrossShardBlockHash
  else .inner txs

/-- The state after `doMessage`; `none` is a panic. -/
def Reply.next (s : CrossState) : Reply → Option CrossState
  | .refused => some s
  | .ignored => some s
  | .panic => none
  | .accepted s' => some s'

/-- What happens at a node of a B shard. -/
inductive BEvent
  /-- `doPrecommit` -/
  | process (block : Block)
  /-- `doMessage` for a `MessageAccept` -/
  | answer (m : MessageAccept)
  /-- `doMessage` for a `CrossShardBlock` -/
  | sync (m : CrossShardBlock)

namespace Surroundings

variable (cfg : Surroundings)

/-- `updateBState`; `none` is a panic. A committed block that is not stored decodes from nothing
into a message without header, which panics. -/
def updateBState (s : CrossState) (block : Block) (crossShardBlockHash : Option Bytes)
    (ifcommit : Bool) : Option CrossState :=
  match block.blockType with
  | .crossShard => some { s with
      maCount := cfg.relatedShards.length
      maPool := some fun _ => none
      pendingCrossShardBlockHash := crossShardBlockHash }
  | .bCommitBlock =>
    if ifcommit && (s.replica.app.blocks (crossShardBlockHash.getD [])).isNone then none
    else some { s with maCount := -1, maPool := none, pendingCrossShardBlockHash := none }
  | _ => some s

/-- What `processBBlock` does beside the calls of the application. -/
def processBBlock (s : CrossState) (block : Block) : Option CrossState :=
  match block.blockType with
  | .bCommitBlock => cfg.updateBState s block s.pendingCrossShardBlockHash true
  | _ => cfg.updateBState s block (some (cfg.net.blockHash block)) false

def doPrecommit (s : CrossState) (block : Block) : Option CrossState := do
  let s ← cfg.processBBlock s block
  let replica ← cfg.network.precommitB block s.replica
  pure { s with replica }

/-- One event at a node; `none` is a panic. -/
def bNodeStep (s : CrossState) : BEvent → Option CrossState
  | .process block => cfg.doPrecommit s block
  | .answer m => (cfg.onMessageAccept s m).next s
  | .sync m => (cfg.onCrossShardBlock s m).next s

/-! ## The invariant -/

/-- The pending hash, the counter and the pool belong together: if nothing is pending the counter is
-1 and there is no pool, and otherwise the counter is the number of related shards whose answers are
missing in the pool. -/
structure Counted (s : CrossState) : Prop where
  idle : s.pendingCrossShardBlockHash = none → s.maCount = -1 ∧ s.maPool = none
  waiting : s.pendingCrossShardBlockHash ≠ none → ∃ (pool : Str → Option MessageAccept)
    (answered : Finset Str), s.maPool = some pool ∧ (∀ c, c ∈ answered ↔ (pool c).isSome = true) ∧
      answered ⊆ cfg.relatedShards.toFinset ∧
      s.maCount = cfg.relatedShards.length - answered.card ∧ 0 ≤ s.maCount

/-- A commit is proposed only if a block is pending and exactly the related shards have answered. -/
def Complete (s : CrossState) : Prop :=
  ∀ crossTxs txs accepts hash, s.createBBlockTxs crossTxs txs = .commit accepts hash →
    s.pendingCrossShardBlockHash ≠ none ∧ hash = s.pendingCrossShardBlockHash ∧
      ∀ c, (accepts c).isSome = true ↔ c ∈ cfg.relatedShards

/-- The answer passes the checks of the handler. -/
def Passes (s : CrossState) (m : MessageAccept) : Prop :=
  m.bBlockHash = s.pendingCrossShardBlockHash.getD [] ∧ cfg.verifies m.collectiveSignatures = true

/-- An answer that passes the checks is due: a block is pending, and the shard is related. -/
def Due (s : CrossState) : BEvent → Prop
  | .answer m => cfg.Passes s m → s.pendingCrossShardBlockHash ≠ none ∧
      m.collectiveSignatures.header.chainID ∈ cfg.relatedShards
  | _ => True

instance (s : CrossState) (m : MessageAccept) : Decidable (cfg.Passes s m) :=
  inferInstanceAs (Decidable (_ ∧ _))

instance (s : CrossState) (e : BEvent) : Decidable (cfg.Due s e) :=
  match e with
  | .answer m => inferInstanceAs (Decidable (cfg.Passes s m → _ ≠ none ∧ _ ∈ cfg.relatedShards))
  | .process _ => isTrue trivial
  | .sync _ => isTrue trivial

variable {cfg} {s s' : CrossState} {m : MessageAccept} {e : BEvent}

theorem counted_newCrossState : cfg.Counted newCrossState :=
  ⟨fun _ => ⟨rfl, rfl⟩, fun h => absurd rfl h⟩

section

variable (h : cfg.Counted s)

include h

/-- The counter is at zero exactly when all related shards have answered. -/
theorem Counted.complete (hnd : cfg.relatedShards.Nodup) : cfg.Complete s := by
  intro crossTxs txs accepts hash hcommit
  unfold CrossState.createBBlockTxs at hcommit
  split_ifs at hcommit with hcross hzero
  obtain ⟨rfl, rfl⟩ : _ = accepts ∧ _ = hash := by simpa using hcommit
  have hpending : s.pendingCrossShardBlockHash ≠ none := by
    intro hnone
    rw [(h.idle hnone).1] at hzero
    cases hzero
  obtain ⟨pool, answered, hpool, hmem, hsub, hcount, -⟩ := h.waiting hpending
  have hcard : cfg.relatedShards.toFinset.card = cfg.relatedShards.length :=
    List.toFinset_card_of_nodup hnd
  have hall : answered = cfg.relatedShards.toFinset :=
    Finset.eq_of_subset_of_card_le hsub (by omega)
  refine ⟨hpending, rfl, fun c => ?_⟩
  rw [hpool, Option.getD_some, ← hmem, hall, List.mem_toFinset]

/-! ## What the events keep -/

theorem counted_of_eq (hpending : s'.pendingCrossShardBlockHash = s.pendingCrossShardBlockHash)
    (hcount : s'.maCount = s.maCount) (hpool : s'.maPool = s.maPool) : cfg.Counted s' := by
  refine ⟨?_, ?_⟩
  · rw [hpending, hcount, hpool]
    exact h.idle
  · rw [hpending, hcount, hpool]
    exact h.waiting

/-- A block opens a new count, closes the count, or has nothing to do with it. -/
theorem counted_processBBlock {block : Block} (hs' : cfg.processBBlock s block = some s') : cfg.Counted s' := by
  unfold processBBlock updateBState at hs'
  cases htype : block.blockType with
  | crossShard =>
    simp only [htype, Option.some.injEq] at hs'
    subst hs'
    refine ⟨fun hnone => (by cases hnone), fun _ => ⟨fun _ => none, ∅, rfl, by simp, by simp, ?_, ?_⟩⟩
    · simp
    · exact Int.natCast_nonneg _
  | bCommitBlock =>
    simp only [htype] at hs'
    split_ifs at hs' with hstored
    obtain rfl := Option.some.inj hs'
    exact ⟨fun _ => ⟨rfl, rfl⟩, fun hne => absurd rfl hne⟩
  | _ =>
    simp only [htype, Option.some.injEq] at hs'
    subst hs'
    exact h

theorem counted_doPrecommit {block : Block} (hs' : cfg.doPrecommit s block = some s') : cfg.Counted s' := by
  obtain ⟨s₁, hs₁, hrest⟩ := Option.bind_eq_some_iff.mp hs'
  obtain ⟨replica, -, hlast⟩ := Option.bind_eq_some_iff.mp hrest
  obtain rfl := Option.some.inj hlast
  exact counted_of_eq (counted_processBBlock h hs₁) rfl rfl rfl

/-- A block of an I shard changes the replica, or the pool of an I shard. -/
theorem counted_onCrossShardBlock {m : CrossShardBlock} (hs' : (cfg.onCrossShardBlock s m).next s = some s') : cfg.Counted s' := by
  unfold onCrossShardBlock at hs'
  dsimp only at hs'
  split_ifs at hs' with hrel hstored hver hI
  · obtain rfl := Option.some.inj hs'
    exact h
  · obtain rfl := Option.some.inj hs'
    exact h
  · obtain rfl := Option.some.inj hs'
    exact counted_of_eq h rfl rfl rfl
  · split at hs'
    · cases hs'
    · obtain rfl := Option.some.inj hs'
      exact counted_of_eq h rfl rfl rfl
  · obtain rfl := Option.some.inj hs'
    exact h

end

/-- What the handler does with an answer that it does not count. -/
theorem onMessageAccept_of_not_passes (hm : ¬cfg.Passes s m) :
    cfg.onMessageAccept s m = .refused ∨ cfg.onMessageAccept s m = .ignored := by
  unfold onMessageAccept
  by_cases hI : cfg.isIShard = true
  · simp [hI]
  · by_cases hhash : m.bBlockHash = s.pendingCrossShardBlockHash.getD []
    · have hver : cfg.verifies m.collectiveSignatures = false := by
        rw [Bool.eq_false_iff]
        exact fun hver => hm ⟨hhash, hver⟩
      simp [hI, hhash, hver]
    · simp [hI, hhash]

/-- What it does with one that passes its checks. -/
theorem onMessageAccept_of_passes (hB : cfg.isIShard = false) (hm : cfg.Passes s m) :
    (s.maPool = none ∧ cfg.onMessageAccept s m = .panic) ∨ ∃ pool, s.maPool = some pool ∧
      (((pool m.collectiveSignatures.header.chainID).isSome = true ∧
          cfg.onMessageAccept s m = .ignored) ∨
        (pool m.collectiveSignatures.header.chainID = none ∧
          cfg.onMessageAccept s m = .accepted { s with
            maCount := s.maCount - 1
            maPool := some (Function.update pool m.collectiveSignatures.header.chainID
              (some m)) })) := by
  unfold onMessageAccept
  simp only [hB, hm.1, hm.2, ne_eq, not_true_eq_false, if_false, Bool.false_eq_true, Bool.not_true]
  cases hpool : s.maPool with
  | none => exact .inl ⟨rfl, rfl⟩
  | some pool =>
    refine .inr ⟨pool, rfl, ?_⟩
    cases hold : pool m.collectiveSignatures.header.chainID with
    | none => exact .inr ⟨rfl, by simp [hold]⟩
    | some m' => exact .inl ⟨rfl, by simp [hold]⟩

theorem counted_onMessageAccept (hB : cfg.isIShard = false) (hnd : cfg.relatedShards.Nodup)
    (h : cfg.Counted s) (hdue : cfg.Due s (.answer m)) :
    ∃ s', (cfg.onMessageAccept s m).next s = some s' ∧ cfg.Counted s' := by
  by_cases hm : cfg.Passes s m
  swap
  · rcases onMessageAccept_of_not_passes hm with hreply | hreply <;>
      exact ⟨s, by rw [hreply]; rfl, h⟩
  obtain ⟨hpending, hrel⟩ := hdue hm
  obtain ⟨pool, answered, hpool, hmem, hsub, hcount, hnonneg⟩ := h.waiting hpending
  rcases onMessageAccept_of_passes hB hm with ⟨hnone, -⟩ | ⟨pool', hpool', hcases⟩
  · rw [hpool] at hnone
    cases hnone
  obtain rfl := Option.some.inj (hpool.symm.trans hpool')
  rcases hcases with ⟨-, hreply⟩ | ⟨hnew, hreply⟩
  · exact ⟨s, by rw [hreply]; rfl, h⟩
  refine ⟨{ s with maCount := s.maCount - 1, maPool := some (Function.update pool
      m.collectiveSignatures.header.chainID (some m)) }, by rw [hreply]; rfl,
    fun hnone => absurd hnone hpending, fun _ => ?_⟩
  have hnot : m.collectiveSignatures.header.chainID ∉ answered := by
    rw [hmem, hnew]
    simp
  have hsub' : insert m.collectiveSignatures.header.chainID answered ⊆
      cfg.relatedShards.toFinset :=
    Finset.insert_subset (List.mem_toFinset.mpr hrel) hsub
  have hcard := Finset.card_insert_of_notMem hnot
  have hle := Finset.card_le_card hsub'
  rw [List.toFinset_card_of_nodup hnd] at hle
  refine ⟨_, insert m.collectiveSignatures.header.chainID answered, rfl, fun c => ?_, hsub', ?_, ?_⟩
  · by_cases hc : c = m.collectiveSignatures.header.chainID
    · simp [hc]
    · simp [hc, hmem]
  · show s.maCount - 1 = _
    omega
  · show 0 ≤ s.maCount - 1
    omega

theorem counted_bNodeStep (hB : cfg.isIShard = false) (hnd : cfg.relatedShards.Nodup)
    (h : cfg.Counted s) (hdue : cfg.Due s e) (hs' : cfg.bNodeStep s e = some s') :
    cfg.Counted s' := by
  cases e with
  | process block => exact counted_doPrecommit h hs'
  | sync m => exact counted_onCrossShardBlock h hs'
  | answer m =>
    obtain ⟨s'', hs'', hc⟩ := counted_onMessageAccept hB hnd h hdue
    obtain rfl := Option.some.inj (hs''.symm.trans hs')
    exact hc

/-! ## Whole runs -/

/-- What a B shard relies on at an event: the invariant before and after it, commits proposed only
when they are complete, and no answer that writes to the nil map. -/
structure Orderly (cfg : Surroundings) (s : CrossState) (e : BEvent) : Prop where
  counted : cfg.Counted s
  complete : cfg.Complete s
  noPanic : ∀ m, e = .answer m → cfg.onMessageAccept s m ≠ .panic
  after : ∀ s', cfg.bNodeStep s e = some s' → cfg.Counted s' ∧ cfg.Complete s'

theorem orderly_of_due (hB : cfg.isIShard = false) (hnd : cfg.relatedShards.Nodup)
    (h : cfg.Counted s) (hdue : cfg.Due s e) : cfg.Orderly s e := by
  refine ⟨h, h.complete hnd, ?_, fun s' hs' => ?_⟩
  · rintro m rfl hpanic
    obtain ⟨s', hs', -⟩ := counted_onMessageAccept hB hnd h hdue
    rw [hpanic] at hs'
    cases hs'
  · have hc := counted_bNodeStep hB hnd h hdue hs'
    exact ⟨hc, hc.complete hnd⟩

/-- An answer that is not due writes to the nil map, or puts a stranger into the pool. -/
theorem due_of_orderly (hB : cfg.isIShard = false) (h : cfg.Orderly s e) : cfg.Due s e := by
  cases e with
  | process block => trivial
  | sync m => trivial
  | answer m =>
    intro hm
    rcases onMessageAccept_of_passes hB hm with ⟨-, hpanic⟩ | ⟨pool, hpool, hcases⟩
    · exact absurd hpanic (h.noPanic m rfl)
    have hpending : s.pendingCrossShardBlockHash ≠ none := by
      intro hnone
      rw [(h.counted.idle hnone).2] at hpool
      cases hpool
    refine ⟨hpending, ?_⟩
    rcases hcases with ⟨hold, -⟩ | ⟨-, hreply⟩
    · -- it is in the pool already, where only related shards are
      obtain ⟨pool', answered, hpool', hmem, hsub, -, -⟩ := h.counted.waiting hpending
      obtain rfl := Option.some.inj (hpool.symm.trans hpool')
      exact List.mem_toFinset.mp (hsub ((hmem _).mpr hold))
    · have hstep : cfg.bNodeStep s (.answer m) = some _ := congrArg (Reply.next s) hreply
      obtain ⟨pool', answered, hpool', hmem, hsub, -, -⟩ := (h.after _ hstep).1.waiting hpending
      obtain rfl := Option.some.inj hpool'
      exact List.mem_toFinset.mp (hsub ((hmem _).mpr (by simp)))

theorem due_along (hB : cfg.isIShard = false) {es : List BEvent}
    (h : Along cfg.bNodeStep cfg.Orderly s es) : Along cfg.bNodeStep cfg.Due s es :=
  h.imp (I := fun _ => True) (fun _ _ _ _ _ _ => trivial) (fun _ _ _ h => due_of_orderly hB h) trivial

/-- **The answers to cross-shard blocks.** Along a run of a B shard the counter is right, a commit
is proposed only when exactly the related shards have answered, and no answer writes to the nil map,
if and only if every answer that passes the checks names a related shard while a block is
pending. -/
theorem answers_along_iff (cfg : Surroundings) (hB : cfg.isIShard = false)
    (hnd : cfg.relatedShards.Nodup) (es : List BEvent) :
    Along cfg.bNodeStep cfg.Orderly newCrossState es ↔
      Along cfg.bNodeStep cfg.Due newCrossState es := by
  constructor
  · exact due_along hB
  · intro h
    exact h.imp (I := cfg.Counted) (fun _ _ _ hc hdue hs' => counted_bNodeStep hB hnd hc hdue hs')
      (fun _ _ hc hdue => orderly_of_due hB hnd hc hdue) counted_newCrossState

/-! ## Answers that are due, and answers that are not -/

/-- A certificate that names `chainID`. (The name is not part of what is signed.) -/
def certificateOf (chainID : Str) : PrecommitAggregated :=
  { certificateBy [0, 1, 2] innerHash with header := ⟨2, 0, 1, List.replicate 32 0, chainID⟩ }

/-- The answer of a shard to `paymentBlock`. -/
def answerOf (chainID : Str) : BEvent := .answer ⟨[66, 1], certificateOf chainID⟩

/-- Both I shards answer, the first one twice. -/
theorem orderly_payment :
    Along (wireNode [66]).bNodeStep (wireNode [66]).Orderly newCrossState
      [.process paymentBlock, answerOf [1], answerOf [1], answerOf [2]] :=
  (answers_along_iff (wireNode [66]) (by decide) (by decide) _).mpr (by decide +kernel)

/-- An answer to nothing brings the node down: its hash is empty, as the pending one is. While the
block is pending, a certificate of the B shard itself is counted as an answer, so that the answer of
one I shard and this one make it propose the commit; and when the third shard has answered, the
counter is at -1 with the block still pending. -/
theorem not_orderly_answers :
    ((wireNode [66]).bNodeStep newCrossState (.answer ⟨[], certificateOf [1]⟩)).isNone = true ∧
    ((run (wireNode [66]).bNodeStep newCrossState
      [.process paymentBlock, answerOf [66], answerOf [1]]).map fun s =>
        (s.maCount, s.pendingCrossShardBlockHash, s.maPool.map fun pool => (pool [2]).isSome)) =
      some (0, some [66, 1], some false) ∧
    ((run (wireNode [66]).bNodeStep newCrossState
      [.process paymentBlock, answerOf [66], answerOf [1], answerOf [2]]).map fun s =>
        (s.maCount, s.pendingCrossShardBlockHash)) = some (-1, some [66, 1]) ∧
    ¬Along (wireNode [66]).bNodeStep (wireNode [66]).Orderly newCrossState
      [.answer ⟨[], certificateOf [1]⟩] ∧
    ¬Along (wireNode [66]).bNodeStep (wireNode [66]).Orderly newCrossState
      [.process paymentBlock, answerOf [66]] :=
  ⟨by decide +kernel, by decide +kernel, by decide +kernel,
    fun h => absurd (due_along (by decide) h) (by decide +kernel),
    fun h => absurd (due_along (by decide) h) (by decide +kernel)⟩

end Surroundings

end Emulator.Pyramid
