import Emulator.Lib.Lockstep
import Emulator.Lib.Run
import Emulator.Urd.Methods

/-!
# The leaders of all shards

The leaders run asynchronously. A message that a leader has sent can reach its receiver at any later
time, any number of times or never, and so can the votes of a shard's validators for the blocks of
their leader. A call that goes on holds the lock of its node, but other leaders can act between its
rounds. A panic ends the process of a leader for good.

The logs record what the leaders have done: the block that shard `j` made for view `v`, and the
messages it sent about that block.
-/

namespace Emulator.Urd

open Emulator.Action HotStuff

variable {α : Type} {P : Network α} {i : Str} {inp : Input} {st : State α}

/-! ## What has been done -/

namespace Log

def block? (l : Log α) : ℕ → Option Block
  | 0 => none
  | v + 1 => (l.made[v]?).map (·.block)

def hashAt (lib : Lib) (l : Log α) (v : ℕ) : Bytes := hashOf lib (l.block? v)

/-- The relay lists that the execution returned when the block for view `v` was made. -/
def opTxsAt (l : Log α) : ℕ → List Txs
  | 0 => []
  | v + 1 => ((l.made[v]?).map (·.opTxs)).getD []

end Log

/-- The message that shard `j` sent to shard `i` in view `u`. -/
def sent (P : Network α) (logs : Str → Log α) (j : Str) (u : ℕ) (i : Str) :
    Option CrossShardMessage :=
  match u with
  | 0 => none
  | u + 1 => ((logs j).talks[u]?).bind (·[P.shardIDList.idxOf i]?)

/-! ## Runs -/

/-- The leaders, `none` for a process that has ended, and what they have done. -/
structure System (α : Type) where
  leaders : Str → Option (State α)
  logs : Str → Log α

def newSystem (apps : Str → α) : System α where
  leaders i := some (newState (apps i))
  logs _ := newLog

inductive Event
  /-- the process of leader `i` calls `Start` -/
  | start (i : Str) (inp : Input)
  /-- the call of `handle_state_transition` at leader `i` goes on -/
  | resume (i : Str) (inp : Input)
  /-- the message of shard `j` for view `u` arrives at leader `i` -/
  | deliver (i j : Str) (u : ℕ) (inp : Input)
  /-- the vote of a validator for block `u` of its shard arrives at leader `i` -/
  | vote (i : Str) (u index : ℕ) (ok : Bool) (inp : Input)
  deriving DecidableEq, Repr

namespace System

def call (s : System α) (i : Str) (x : Act α Bool) : Option (System α) :=
  (s.leaders i).map fun st =>
    { leaders := Function.update s.leaders i (settle (x st))
      logs := Function.update s.logs i (x st).2.log }

def handling (s : System α) (i : Str) : Bool := (s.leaders i).any (·.handling)

end System

namespace Event

def leader : Event → Str
  | .start i _ => i
  | .resume i _ => i
  | .deliver i _ _ _ => i
  | .vote i _ _ _ _ => i

def input : Event → Input
  | .start _ inp => inp
  | .resume _ inp => inp
  | .deliver _ _ _ inp => inp
  | .vote _ _ _ _ inp => inp

/-- The event goes on with a call that holds the lock. -/
def resumes : Event → Bool
  | .resume _ _ => true
  | _ => false

/-- What the leader does before it enters `handle_state_transition`; `none` when there is no such
message. -/
def entry (P : Network α) (s : System α) : Event → Option (Act α Unit)
  | .start _ _ => some (pure ())
  | .resume _ _ => some (pure ())
  | .deliver i j u _ =>
    if j ∈ P.shardIDList ∧ j ≠ i then
      (sent P s.logs j u i).map fun m => takeBytes P i (m.protoBytes P.lib)
    else none
  | .vote i u index ok _ => ((s.logs i).block? u).map fun b =>
      takeMessage P i (.vote (generateVoteForBlock P i index b ((s.logs i).hashAt P.lib (u - 1)) ok))

theorem entry_deliver_eq_some {s : System α} {j : Str} {u : ℕ} {x : Act α Unit} :
    (deliver i j u inp).entry P s = some x ↔ (j ∈ P.shardIDList ∧ j ≠ i) ∧
      ∃ m, sent P s.logs j u i = some m ∧ takeBytes P i (m.protoBytes P.lib) = x := by
  simp only [entry, Option.ite_none_right_eq_some, Option.map_eq_some_iff]

/-- What the leader does. -/
def act (P : Network α) (s : System α) (e : Event) : Option (Act α Bool) :=
  match e with
  | .start i inp => some (Urd.start P i (leaderOf P i) inp)
  | e => (e.entry P s).map fun x => do
    x
    handleStateTransition P e.leader (leaderOf P e.leader) e.input

end Event

/-- One event. A map is gone through in any order of its keys. -/
def systemStep (P : Network α) (s : System α) (e : Event) : Option (System α) :=
  if e.leader ∈ P.shardIDList ∧ e.input.order.Perm P.shardIDList ∧
      s.handling e.leader = e.resumes then
    (e.act P s).bind fun x => s.call e.leader x
  else none

/-- `fetch_block` counts back from the last block made. -/
theorem State.fetchBlock_made {log : Log α} (h : st.blockPool = lastSeven (log.made.map (·.block)))
    {k : ℕ} (hk : k < 7) : st.fetchBlock (k + 1) = log.block? (log.made.length - k) := by
  rw [State.fetchBlock_eq h hk]
  rcases Nat.lt_or_ge k log.made.length with hlt | hge
  · obtain ⟨v, hv⟩ : ∃ v, log.made.length - k = v + 1 := ⟨log.made.length - k - 1, by omega⟩
    rw [hv, Log.block?, List.getElem?_reverse (by rwa [List.length_map]), List.getElem?_map,
      List.length_map, show log.made.length - 1 - k = v by omega]
  · rw [show log.made.length - k = 0 by omega, List.getElem?_eq_none]
    · rfl
    · rwa [List.length_reverse, List.length_map]

/-! ## Proposing -/

/-- What is taken for granted about a network: the shards have different ids without the separator
of the store keys, SHA-256 gives 32 bytes, protobuf messages can be read back, the leaders'
signatures verify and the application returns a relay list for every shard. -/
structure Setting (P : Network α) : Prop where
  nodup : P.shardIDList.Nodup
  colon : ∀ id ∈ P.shardIDList, 58 ∉ id
  sum_length : ∀ x, (P.lib.sum x).length = Merkle.hashSize
  csm : P.lib.csm.RoundTrips id
  leader : ∀ i ∈ P.shardIDList, leaderOf P i < (P.shards i).peerList.length
  verify : ∀ i ∈ P.shardIDList, ∀ msg, (verifier P i).verify P.bls (P.sign i (leaderOf P i) msg) msg
    (leaderOf P i) = some true
  execution : ∀ i app txs crossShardTxs ctxs,
    (P.execution i app txs crossShardTxs ctxs).1.length = P.shardIDList.length

/-- The state in which a leader has proposed the block `mk` after the state `st`. -/
structure Proposed (P : Network α) (st st' : State α) (mk : Made α) : Prop where
  view : st'.view = st.view + 1
  round : st'.round = 0
  votes : ∃ hdp, st'.heightDatas = some hdp ∧
    VotesFor hdp (st.view + 1) (mk.block.hash P.lib) [mk.block.hashPointer]
  blockPool : st'.blockPool = (st.appendBlock mk.block).blockPool
  store : st'.store = st.store
  made : st'.log.made = st.log.made ++ [mk]
  talks : st'.log.talks = st.log.talks
  lastHash : st'.blockData.lastHash = st.blockData.lastHash
  finished : ∀ j, st'.blockData.finished j = none
  jTxs : st'.blockData.jCrossShardTxs = []
  j1Txs : st'.blockData.j1CrossShardTxs = mk.opTxs
  j2Txs : st'.blockData.j2CrossShardTxs = st.blockData.j1CrossShardTxs
  blocks : ∀ w r, (st.view : ℤ) + 1 < w → st.blockData.blocks w r = none →
    st'.blockData.blocks w r = none

theorem exists_ownVote (hs : Setting P) (hi : i ∈ P.shardIDList) (b : Block) :
    ∃ hdp, countOwnVote P i (leaderOf P i) b = .ok hdp := by
  rcases countOwnVote_cases P i (leaderOf P i) b with ⟨-, hok⟩ | ⟨hnot, -⟩
  · exact hok
  · exact absurd (hs.verify i hi _) hnot

/-- What is left when the block is appended and the leader's vote is counted. -/
theorem proposed_of_done {index : ℕ} {b : Block} (hb : newBlock P i inp st = some b)
    {hdp : HeightDataPackage} (hvote : countOwnVote P i index b = .ok hdp) :
    Proposed P st (({ blockStored P i index st b with heightDatas := some hdp }).appendBlock b)
      { executionJ2 P i st with block := b } where
  view := rfl
  round := rfl
  votes := by
    refine ⟨hdp, rfl, ?_⟩
    rw [← (newBlock_slot hb).1]
    exact votesFor_startPackage hvote
  blockPool := rfl
  store := rfl
  made := rfl
  talks := rfl
  lastHash := rfl
  finished _ := rfl
  jTxs := rfl
  j1Txs := rfl
  j2Txs := rfl
  blocks w r hw hwr := by
    show Function.update (relaysKept P i st).blockData.blocks b.view _ w r = none
    rw [Function.update_of_ne (by rw [(newBlock_slot hb).1]; omega)]
    show (if _ then st.blockData.blocks w r else none) = none
    rw [hwr, ite_self]

/-- **Proposing** succeeds when the block can be made, and leaves the leader with its own vote. -/
theorem run_doPropose (hs : Setting P) (hi : i ∈ P.shardIDList)
    (hblocks : st.blockData.blocks (st.view + 1) 0 = none) {b : Block}
    (hb : newBlock P i inp st = some b) :
    ∃ st', doPropose P i (leaderOf P i) inp st = (.ok (), st') ∧ st'.step = st.step ∧
      Proposed P st st' { executionJ2 P i st with block := b } := by
  have hrun := proposes P i (leaderOf P i) inp st
  generalize doPropose P i (leaderOf P i) inp st = r at hrun
  cases hrun with
  | noBlock hnone => cases hnone.symm.trans hb
  | slotTaken _ hslot => exact absurd hblocks hslot
  | @voteRefused b' _ _ e hvote =>
    obtain ⟨hdp, hok⟩ := exists_ownVote hs hi b'
    cases hvote.symm.trans hok
  | done hb' _ hvote =>
    obtain rfl := Option.some.inj (hb.symm.trans hb')
    exact ⟨_, rfl, rfl, proposed_of_done hb hvote⟩

end Emulator.Urd
