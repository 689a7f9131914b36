import Emulator.Urd.Node

/-!
# Proposals that fail

`doPropose` executes a block, rotates the buffers of the views and enters the next view before it
does anything that can fail. Two errors are left: the slot of the next view already has a part set,
since any validator can open it with a proposal of its own, or the leader's own vote is refused.
Neither is undone.

* `doPropose_returns_error_iff` — when `doPropose` returns an error.
* `Leader.unchanged_iff` — an error leaves a leader unchanged exactly in the states in which there
  is none.
* `Leader.propose_failed` — what a failed proposal leaves behind.
-/

namespace Emulator.Urd

open Emulator.Action HotStuff

variable {α μ : Type}

/-! ## A leader and its mempools -/

/-- `MempoolConn`, as far as `doPropose` uses it: `ReapTx`, which leaves the mempool as it is and
returns no error, and `Update`. -/
structure MempoolConn (μ : Type) where
  reapTx : μ → ℤ → Txs
  update : μ → Txs → μ

/-- The state of a leader with what it takes the transactions from. -/
structure Leader (α μ : Type) where
  state : State α
  mempool : μ
  crossShardMempool : μ
  maxBytes : ℤ
  maxCrossShardBytes : ℤ

namespace Leader

/-- What `make_block` finds outside the state. -/
def input (conn : MempoolConn μ) (l : Leader α μ) (now : Timestamp) (order : List Str) : Input where
  now := now
  txs := conn.reapTx l.mempool l.maxBytes
  crossShardTxs := conn.reapTx l.crossShardMempool l.maxCrossShardBytes
  order := order

/-- The end of `doPropose`: the transactions of the new block are removed from the mempools. -/
def updateMempools (conn : MempoolConn μ) (l : Leader α μ) (b : Option Block) : Leader α μ :=
  { l with
    mempool := conn.update l.mempool ((b.bind (·.ptxs)).getD [])
    crossShardMempool := conn.update l.crossShardMempool ((b.bind (·.crossShardTxs)).getD []) }

/-- `doPropose`, with the mempools. -/
def propose (conn : MempoolConn μ) (P : Network α) (me : Str) (index : ℕ) (now : Timestamp)
    (order : List Str) (l : Leader α μ) : Except Fault Unit × Leader α μ :=
  let r := doPropose P me index (l.input conn now order) l.state
  (r.1, if r.1 = .ok () then updateMempools conn { l with state := r.2 } (r.2.fetchBlock 1)
    else { l with state := r.2 })

/-- What a failed proposal should not change. -/
structure Unchanged (l l' : Leader α μ) : Prop where
  view : l'.state.view = l.state.view
  blockPool : l'.state.blockPool = l.state.blockPool
  blockData : l'.state.blockData = l.state.blockData
  mempool : l'.mempool = l.mempool
  crossShardMempool : l'.crossShardMempool = l.crossShardMempool
  app : l'.state.app = l.state.app

end Leader

/-! ## Errors of `doPropose` -/

section

variable {P : Network α} {me : Str} {index : ℕ} {inp : Input} {s : State α}

/-- **When `doPropose` returns an error.** A block could be made, but its slot is taken or the
leader's vote for it does not verify. -/
theorem doPropose_returns_error_iff :
    (∃ e, e ≠ .panic ∧ (doPropose P me index inp s).1 = .error e) ↔
      ∃ b, newBlock P me inp s = some b ∧
        ¬ (s.blockData.blocks (s.view + 1) 0 = none ∧ OwnVoteVerifies P me index b) := by
  have hrun := proposes P me index inp s
  generalize doPropose P me index inp s = r at hrun
  constructor
  · intro ⟨e, hpanic, he⟩
    cases hrun with
    | noBlock hb =>
      obtain rfl := Except.error.inj he
      exact absurd rfl hpanic
    | slotTaken hb hslot => exact ⟨_, hb, fun h => hslot h.1⟩
    | @voteRefused b hb hslot e' hvote =>
      refine ⟨b, hb, fun h => ?_⟩
      rcases countOwnVote_cases P me index b with ⟨-, hdp, hok⟩ | ⟨hnot, -⟩
      · cases hvote.symm.trans hok
      · exact hnot h.2
    | done hb hslot hvote => cases he
  · intro ⟨b, hb, hnot⟩
    cases hrun with
    | noBlock hb' => cases hb'.symm.trans hb
    | slotTaken hb' hslot => exact ⟨.partSetExists, nofun, rfl⟩
    | @voteRefused b' hb' hslot e hvote =>
      rcases countOwnVote_cases P me index b' with ⟨-, hdp, hok⟩ | ⟨-, herror⟩
      · cases hvote.symm.trans hok
      · obtain rfl := Except.error.inj (hvote.symm.trans herror)
        exact ⟨.vote .invalidSign, nofun, rfl⟩
    | @done b' hb' hslot hdp hvote =>
      obtain rfl := Option.some.inj (hb'.symm.trans hb)
      refine absurd ⟨hslot, ?_⟩ hnot
      rcases countOwnVote_cases P me index b' with ⟨hverifies, -⟩ | ⟨-, herror⟩
      · exact hverifies
      · cases hvote.symm.trans herror

/-- The state after a proposal that returned an error: the next view is entered, with all buffers
rotated and the block two views back executed, but no block is appended. -/
theorem doPropose_failed {e : Fault} (hpanic : e ≠ .panic)
    (he : (doPropose P me index inp s).1 = .error e) :
    (doPropose P me index inp s).2.view = s.view + 1 ∧
      (doPropose P me index inp s).2.step = s.step ∧
      (doPropose P me index inp s).2.app = executedApp P me s ∧
      (doPropose P me index inp s).2.blockPool = s.blockPool ∧
      (doPropose P me index inp s).2.blockData.lastHash = s.blockData.lastHash ∧
      (doPropose P me index inp s).2.blockData.j1finished = s.blockData.finished ∧
      (∀ j, (doPropose P me index inp s).2.blockData.finished j = none) ∧
      (doPropose P me index inp s).2.blockData.j1CrossShardTxs = (executionJ2 P me s).opTxs ∧
      (doPropose P me index inp s).2.blockData.j2CrossShardTxs = s.blockData.j1CrossShardTxs := by
  have hrun := proposes P me index inp s
  generalize doPropose P me index inp s = r at hrun he
  cases hrun with
  | noBlock hb =>
    obtain rfl := Except.error.inj he
    exact absurd rfl hpanic
  | slotTaken _ _ | voteRefused _ _ _ =>
    exact ⟨rfl, rfl, rfl, rfl, rfl, rfl, fun _ => rfl, rfl, rfl⟩
  | done _ _ _ => cases he

end

/-! ## Leaders after an error -/

namespace Leader

variable {conn : MempoolConn μ} {P : Network α} {me : Str} {index : ℕ} {now : Timestamp}
  {order : List Str} {l : Leader α μ}

theorem propose_of_error {e : Fault} (h : (l.propose conn P me index now order).1 = .error e) :
    (l.propose conn P me index now order).2 =
      { l with state := (doPropose P me index (l.input conn now order) l.state).2 } := by
  have hne : (doPropose P me index (l.input conn now order) l.state).1 ≠ .ok () := by
    intro hok
    cases hok.symm.trans h
  simp only [propose, if_neg hne]

/-- **A failed proposal and the leader.** Whatever the state, the mempools and the part sets that
others have opened: errors of `doPropose` leave the leader unchanged if and only if it returns none,
for a block that it can make has a free slot and a vote that verifies. -/
theorem unchanged_iff (conn : MempoolConn μ) (P : Network α) (me : Str) (index : ℕ)
    (now : Timestamp) (order : List Str) (l : Leader α μ) :
    (∀ e, e ≠ .panic → (l.propose conn P me index now order).1 = .error e →
        l.Unchanged (l.propose conn P me index now order).2) ↔
      ∀ b, newBlock P me (l.input conn now order) l.state = some b →
        l.state.blockData.blocks (l.state.view + 1) 0 = none ∧ OwnVoteVerifies P me index b := by
  constructor
  · intro hunchanged b hb
    by_contra hnot
    obtain ⟨e, hpanic, he⟩ := doPropose_returns_error_iff.mpr ⟨b, hb, hnot⟩
    have hview := (hunchanged e hpanic he).view
    rw [propose_of_error he, (doPropose_failed hpanic he).1] at hview
    omega
  · intro hfree e hpanic he
    obtain ⟨b, hb, hnot⟩ := doPropose_returns_error_iff.mp ⟨e, hpanic, he⟩
    exact absurd (hfree b hb) hnot

/-- **What is left of a failed proposal.** The mempools and the block pool keep what they had, so no
transaction is lost; the view, the messages and the application do not. -/
theorem propose_failed {e : Fault} (hpanic : e ≠ .panic)
    (he : (l.propose conn P me index now order).1 = .error e) :
    (l.propose conn P me index now order).2.mempool = l.mempool ∧
      (l.propose conn P me index now order).2.crossShardMempool = l.crossShardMempool ∧
      (l.propose conn P me index now order).2.state.blockPool = l.state.blockPool ∧
      (l.propose conn P me index now order).2.state.view = l.state.view + 1 ∧
      (l.propose conn P me index now order).2.state.app = executedApp P me l.state ∧
      ∀ j, (l.propose conn P me index now order).2.state.blockData.finished j = none := by
  obtain ⟨hview, -, happ, hpool, -, -, hfinished, -, -⟩ := doPropose_failed hpanic he
  rw [propose_of_error he]
  exact ⟨rfl, rfl, hpool, hview, happ, hfinished⟩

end Leader

/-! ## A slot that another validator has taken -/

/-- A network of one shard with validators of the given weights; the first one leads. -/
def soloNetwork (weights : List ℕ) : Network ℕ :=
  { pairNetwork with
    shardIDList := [[65]]
    shards := fun _ =>
      { peerList := List.zipWith (fun i w => { pubkey := [i], vote := w }) [0, 1, 2, 3] weights
        leaderIndex := 0 }
    execution := fun _ app _ crossShardTxs _ => ([crossShardTxs], app + 1) }

def soloInput : Input := ⟨⟨0, 0⟩, [], [], [[65]]⟩

/-- The block that the leader proposes first. -/
def firstBlock (weights : List ℕ) : Block :=
  (newBlock (soloNetwork weights) [65] soloInput (newState 0)).getD (plainBlock 1 [])

/-- The vote of a validator for that block. -/
def voteForFirst (weights : List ℕ) (index : ℕ) : Vote :=
  generateVoteForBlock (soloNetwork weights) [65] index (firstBlock weights) [] true

/-- While the leader waits for votes, another validator proposes a block for the next view. A vote
later the leader has talked and is about to propose. -/
def takenRun : List NodeEvent :=
  [.start soloInput, .receive (.proposal (proposalBy 2 (plainBlock 2 [7]))) soloInput,
    .receive (.vote (voteForFirst [1, 1, 1, 1] 1)) soloInput]

/-- The leader's proposal fails then, whatever its mempools have, and does not leave it as it
was. -/
theorem not_unchanged_takenRun :
    ∃ n, run (nodeStep (soloNetwork [1, 1, 1, 1]) [65] 0) (newNode 0) takenRun = some n ∧
      n.ended = false ∧ n.state.step = .leaderWait ∧
      n.state.blockData.isCrossShardMessageComplete [[65]] = true ∧
      ∀ (μ : Type) (conn : MempoolConn μ) (now : Timestamp) (l : Leader ℕ μ), l.state = n.state →
        (l.propose conn (soloNetwork [1, 1, 1, 1]) [65] 0 now [[65]]).1 = .error .partSetExists ∧
        ¬ l.Unchanged (l.propose conn (soloNetwork [1, 1, 1, 1]) [65] 0 now [[65]]).2 := by
  obtain ⟨n, hrun, hn⟩ := Option.map_eq_some_iff.mp
    (show (run (nodeStep (soloNetwork [1, 1, 1, 1]) [65] 0) (newNode 0) takenRun).map
        (fun n => (n.ended, n.state.step, n.state.blockData.isCrossShardMessageComplete [[65]],
          n.state.view, n.state.blockPool.length, (n.state.blockData.blocks 2 0).isSome)) =
        some (false, .leaderWait, true, 1, 1, true) by decide +kernel)
  simp only [Prod.mk.injEq] at hn
  obtain ⟨hended, hstep, hcomplete, hview, hpool, hslot⟩ := hn
  refine ⟨n, hrun, hended, hstep, hcomplete, ?_⟩
  intro μ conn now l hl
  have hmessage := List.all_eq_true.mp hcomplete [65] List.mem_cons_self
  obtain ⟨m, hm⟩ := Option.isSome_iff_exists.mp hmessage
  have hexists : ∃ b, newBlock (soloNetwork [1, 1, 1, 1]) [65] (l.input conn now [[65]]) l.state =
      some b := by
    refine exists_makeBlock (by decide) _ _ fun _ j hj => ?_
    obtain rfl := List.mem_singleton.mp hj
    refine ⟨m, by rw [← hm, ← hl]; rfl, fun hfour => ?_⟩
    have hlen : 4 ≤ l.state.blockPool.length := hfour
    rw [hl, hpool] at hlen
    omega
  obtain ⟨b, hb⟩ := hexists
  have htaken : l.state.blockData.blocks (l.state.view + 1) 0 ≠ none := by
    rw [hl, hview]
    exact Option.isSome_iff_ne_none.mp hslot
  have herror : (l.propose conn (soloNetwork [1, 1, 1, 1]) [65] 0 now [[65]]).1 =
      .error .partSetExists := by
    have hpropose := proposes (soloNetwork [1, 1, 1, 1]) [65] 0 (l.input conn now [[65]]) l.state
    show (doPropose (soloNetwork [1, 1, 1, 1]) [65] 0 (l.input conn now [[65]]) l.state).1 = _
    generalize doPropose (soloNetwork [1, 1, 1, 1]) [65] 0 (l.input conn now [[65]]) l.state = r
      at hpropose
    cases hpropose with
    | noBlock hnone => cases hnone.symm.trans hb
    | slotTaken _ _ => rfl
    | voteRefused _ hfree _ | done _ hfree _ => exact absurd hfree htaken
  refine ⟨herror, fun hunchanged => ?_⟩
  have hview' := (Leader.propose_failed (e := .partSetExists) nofun herror).2.2.2.1
  rw [hunchanged.view] at hview'
  omega

end Emulator.Urd
