import Emulator.Lib.Run
import Emulator.Urd.Codecs
import Emulator.Urd.Methods

/-!
# Runs of one Urd node

A node runs for itself here, and what it receives is arbitrary. Each call of `Start` or `Receive`
and each further round of `handle_state_transition` is one event, so that a run shows the node at
every point at which it signs, appends or executes.

`Progress` is what a node is for, without the messages it collects: the view, the votes it signed,
the blocks it appended and those it had executed. `Progress.Moves` says how these can change in one
event, and `NodeInv.step` that every event of a node is such a move. The results are invariants of
the moves.

* `okVotes_increase` — a node signs OK votes for increasing views.
* `executed_eq_take` — a validator executes every block once and in order, two blocks behind.
* `hashChain_iff` — the hash pointers of the pool are those of the proposer, which are not checked.
* `stored_of_fromLeader` — a proposal is checked against the key that it names itself.
-/

namespace Emulator.Urd

open Emulator.Action HotStuff

variable {α : Type}

/-! ## Events -/

/-- A node, and whether a panic has ended its process. -/
structure Node (α : Type) where
  state : State α
  ended : Bool

def newNode (app : α) : Node α := ⟨newState app, false⟩

inductive NodeEvent
  /-- a call of `Start` -/
  | start (inp : Input)
  /-- the next round of `handle_state_transition` -/
  | resume (inp : Input)
  /-- a call of `Receive` -/
  | receive (msg : Message) (inp : Input)
  deriving DecidableEq, Repr

/-- The event goes on with a call that holds the lock. -/
def NodeEvent.resumes : NodeEvent → Bool
  | .resume _ => true
  | _ => false

section

variable (P : Network α) (me : Str) (index : ℕ)

def NodeEvent.act : NodeEvent → Act α Bool
  | .start inp => Urd.start P me index inp
  | .resume inp => handleStateTransition P me index inp
  | .receive msg inp => Urd.receive P me index msg inp

def nodeStep (n : Node α) (e : NodeEvent) : Option (Node α) :=
  if n.ended = false ∧ n.state.handling = e.resumes then
    let r := e.act P me index n.state
    some ⟨{ r.2 with handling := decide (r.1 = .ok true) }, decide (r.1 = .error .panic)⟩
  else none

end

variable {n n' : Node α} {e : NodeEvent} {b : Block} {r v : ℤ}

theorem nodeStep_eq_some {P : Network α} {me : Str} {index : ℕ} :
    nodeStep P me index n e = some n' ↔ (n.ended = false ∧ n.state.handling = e.resumes) ∧
      n' = ⟨{ (e.act P me index n.state).2 with
        handling := decide ((e.act P me index n.state).1 = .ok true) },
        decide ((e.act P me index n.state).1 = .error .panic)⟩ := by
  unfold nodeStep
  rw [Option.ite_none_right_eq_some, Option.some_inj, eq_comm (b := n')]

/-! ## Progress -/

/-- What a node has reached and done. -/
structure Progress where
  view : ℕ
  votes : List Vote
  appended : List Block
  executed : List Block

namespace Progress

variable {p p' : Progress} {proposer : Bool}

def new : Progress := ⟨0, [], [], []⟩

/-- The view after, with the execution of the block before the last. -/
def advance (p : Progress) : Progress :=
  { p with view := p.view + 1, executed := p.executed ++ (p.appended.reverse[1]?).toList }

def vote (p : Progress) (v : Vote) : Progress := { p with votes := p.votes ++ [v] }

def append (p : Progress) (b : Block) : Progress := { p with appended := p.appended ++ [b] }

/-- What one event does. -/
inductive Moves (proposer : Bool) (p : Progress) : Progress → Prop
  | stay : Moves proposer p p
  /-- a validator starts -/
  | enter (hp : proposer = false) (hview : p.view = 0) : Moves proposer p { p with view := 1 }
  /-- a validator votes against a block -/
  | reject {v : Vote} (hv : v.isOK = false) : Moves proposer p (p.vote v)
  /-- a validator votes for a block -/
  | accept {b : Block} {v : Vote} (hp : proposer = false) (hb : b.view = p.view)
      (hv : v.view = p.view) : Moves proposer p ((p.vote v).advance.append b)
  /-- a proposer fails to store its block -/
  | skip (hp : proposer = true) : Moves proposer p p.advance
  /-- a proposer cannot count its vote -/
  | spoil {v : Vote} (hp : proposer = true) (hv : v.view = p.view + 1) :
      Moves proposer p (p.advance.vote v)
  /-- a proposer makes a block -/
  | propose {b : Block} {v : Vote} (hp : proposer = true) (hb : b.view = p.view + 1)
      (hv : v.view = p.view + 1) : Moves proposer p ((p.advance.vote v).append b)

/-- The first view that the node can still vote for. -/
def nextVote (proposer : Bool) (p : Progress) : ℕ := if proposer then p.view + 1 else p.view

/-- The OK votes have increasing views, all before the next. -/
structure VotesIncrease (proposer : Bool) (p : Progress) : Prop where
  sorted : (p.votes.filter Vote.isOK).Pairwise fun v w => v.view < w.view
  bound : ∀ v ∈ p.votes, v.isOK = true → v.view < p.nextVote proposer

theorem VotesIncrease.of_votes_eq (h : p.VotesIncrease proposer) (hvotes : p'.votes = p.votes)
    (hview : p.view ≤ p'.view) : p'.VotesIncrease proposer := by
  refine ⟨hvotes ▸ h.sorted, fun v hv hok => ?_⟩
  rw [hvotes] at hv
  have hlt := h.bound v hv hok
  unfold nextVote at hlt ⊢
  split_ifs at hlt ⊢ <;> omega

theorem VotesIncrease.concat (h : p.VotesIncrease proposer) {v : Vote}
    (hv : v.view = p.nextVote proposer) (hvotes : p'.votes = p.votes ++ [v])
    (hview : p'.view = p.view + 1) : p'.VotesIncrease proposer := by
  refine ⟨?_, fun w hw hok => ?_⟩
  · rw [hvotes, List.filter_append, List.pairwise_append]
    refine ⟨h.sorted, List.Pairwise.filter _ (List.pairwise_singleton _ v), fun u hu w hw => ?_⟩
    obtain ⟨hu, hok⟩ := List.mem_filter.mp hu
    obtain rfl := List.mem_singleton.mp (List.mem_filter.mp hw).1
    rw [hv]
    exact h.bound u hu hok
  · have hlt : w.view ≤ p.nextVote proposer := by
      rcases List.mem_append.mp (hvotes ▸ hw) with hw | hw
      · exact (h.bound w hw hok).le
      · rw [List.mem_singleton.mp hw, hv]
    unfold nextVote at hlt ⊢
    split_ifs at hlt ⊢ <;> omega

theorem VotesIncrease.move (hmove : p.Moves proposer p') (h : p.VotesIncrease proposer) :
    p'.VotesIncrease proposer := by
  cases hmove with
  | stay => exact h
  | enter hp hview => exact h.of_votes_eq rfl (by simp [hview])
  | @reject v hv =>
    refine ⟨?_, fun w hw hok => ?_⟩
    · show ((p.votes ++ [v]).filter Vote.isOK).Pairwise _
      rw [List.filter_append, List.filter_cons_of_neg (by simp [hv]), List.filter_nil,
        List.append_nil]
      exact h.sorted
    · rcases List.mem_append.mp hw with hw | hw
      · exact h.bound w hw hok
      · rw [List.mem_singleton.mp hw, hv] at hok
        cases hok
  | accept hp hb hv => exact h.concat (by rw [hv, nextVote, hp]; rfl) rfl rfl
  | skip hp => exact h.of_votes_eq rfl (Nat.le_succ _)
  | spoil hp hv => exact h.concat (by rw [hv, nextVote, hp]; rfl) rfl rfl
  | propose hp hb hv => exact h.concat (by rw [hv, nextVote, hp]; rfl) rfl rfl

/-- The blocks up to the last but two have been executed. -/
def ExecutedBehind (p : Progress) : Prop := p.executed = p.appended.take (p.appended.length - 2)

theorem ExecutedBehind.accept (h : p.ExecutedBehind) (v : Vote) (b : Block) :
    ((p.vote v).advance.append b).ExecutedBehind := by
  show p.executed ++ (p.appended.reverse[1]?).toList =
    (p.appended ++ [b]).take ((p.appended ++ [b]).length - 2)
  rw [h, List.length_append, List.length_singleton, List.take_append_of_le_length (by omega)]
  rcases Nat.lt_or_ge 1 p.appended.length with hlen | hlen
  · rw [List.getElem?_reverse hlen,
      show p.appended.length + 1 - 2 = p.appended.length - 1 - 1 + 1 by omega, List.take_add_one,
      Nat.sub_sub]
  · rw [List.getElem?_eq_none (by rwa [List.length_reverse]),
      show p.appended.length - 2 = p.appended.length + 1 - 2 by omega]
    exact List.append_nil _

theorem ExecutedBehind.move (hmove : p.Moves false p') (h : p.ExecutedBehind) :
    p'.ExecutedBehind := by
  cases hmove with
  | stay => exact h
  | enter => exact h
  | reject => exact h
  | accept => exact h.accept _ _
  | skip hp => cases hp
  | spoil hp => cases hp
  | propose hp => cases hp

/-- The blocks have consecutive views, up to the one before the current view. -/
structure Consecutive (p : Progress) : Prop where
  views : p.appended.IsChain fun b b' => b'.view = b.view + 1
  last : ∀ b ∈ p.appended.getLast?, b.view = p.view - 1
  fresh : p.view = 0 → p.appended = []

theorem Consecutive.move (hmove : p.Moves false p') (h : p.Consecutive) : p'.Consecutive := by
  cases hmove with
  | stay => exact h
  | enter hp hview =>
    have hnil := h.fresh hview
    refine ⟨h.views, fun b hb => ?_, fun h' => absurd h' one_ne_zero⟩
    rw [hnil] at hb
    cases hb
  | reject => exact ⟨h.views, h.last, h.fresh⟩
  | @accept b v hp hb hv =>
    refine ⟨?_, fun b' hb' => ?_, fun h' => absurd h' (Nat.succ_ne_zero _)⟩
    · refine h.views.append (List.isChain_singleton b) fun last hlast b' hb' => ?_
      obtain rfl := Option.some.inj hb'
      rw [hb, h.last last hlast]
      omega
    · have hlast : (p.appended ++ [b]).getLast? = some b := List.getLast?_concat
      obtain rfl := Option.some.inj (hlast.symm.trans hb')
      rw [hb]
      show (p.view : ℤ) = ((p.view + 1 : ℕ) : ℤ) - 1
      omega
  | skip hp => cases hp
  | spoil hp => cases hp
  | propose hp => cases hp

end Progress

def State.progress (s : State α) : Progress := ⟨s.view, s.log.votes, s.log.appended, s.log.executed⟩

/-! ## The part sets of a node -/

/-- Every part set stands in the slot of its header, and `Q` holds for header and block hash. -/
def Keyed (Q : PartSetHeader → Bytes → Prop) (bd : BlockData) : Prop :=
  ∀ v r ps, bd.blocks v r = some ps →
    ps.header.height = v ∧ ps.header.round = r ∧ Q ps.header ps.blockHeaderHash

namespace Keyed

variable {Q : PartSetHeader → Bytes → Prop} {bd : BlockData}

theorem mono {Q' : PartSetHeader → Bytes → Prop} (h : Keyed Q bd)
    (hQ : ∀ header hash, Q header hash → Q' header hash) : Keyed Q' bd := by
  intro v r ps hps
  obtain ⟨hv, hr, hq⟩ := h v r ps hps
  exact ⟨hv, hr, hQ _ _ hq⟩

theorem setPartSet (h : Keyed Q bd) {ps : PartSet} (hv : ps.header.height = v)
    (hr : ps.header.round = r) (hq : Q ps.header ps.blockHeaderHash) :
    Keyed Q (bd.setPartSet v r ps) := by
  intro w t ps' hps'
  rw [blocks_setPartSet] at hps'
  split_ifs at hps' with hwt
  · obtain ⟨rfl, rfl⟩ := hwt
    obtain rfl := Option.some.inj hps'
    exact ⟨hv, hr, hq⟩
  · exact h w t ps' hps'

theorem next (h : Keyed Q bd) (view round : ℤ) : Keyed Q (bd.next view round) := by
  intro v r ps hps
  simp only [BlockData.next] at hps
  split_ifs at hps
  exact h v r ps hps

/-- Moving from one `BlockData` to another keeps what is known about the part sets. -/
abbrev Kept (Q : PartSetHeader → Bytes → Prop) (bd bd' : BlockData) : Prop :=
  Keyed Q bd → Keyed Q bd'

theorem kept_trans (a b c : BlockData) (h : Kept Q a b) (h' : Kept Q b c) : Kept Q a c :=
  fun hk => h' (h hk)

theorem addPart (lib : Lib) (p : Part) : Keeps (Kept Q) (BlockData.addPart lib p) := by
  intro bd hk
  rcases addPart_cases lib p bd with h | h | ⟨ps, ps', hps, hadd, h⟩
  · rwa [h]
  · rw [h, BlockData.appendPart]
    split_ifs <;> exact hk
  · obtain ⟨hv, hr, hq⟩ := hk _ _ ps hps
    obtain ⟨-, -, rfl⟩ := PartSet.addPart_eq_ok hadd
    rw [h]
    exact hk.setPartSet hv hr hq

theorem addPartSetHeader (lib : Lib) {header : PartSetHeader} {headerHash : Bytes}
    (hq : Q header headerHash) :
    Keeps (Kept Q) (BlockData.addPartSetHeader lib header headerHash) := by
  intro bd hk
  rcases addPartSetHeader_cases lib header headerHash bd with h | h
  · rwa [h]
  · rw [h]
    refine Keeps.forEach (R := Kept Q) (fun _ => id) kept_trans (fun p _ bd => ?_) _
      (hk.setPartSet rfl rfl hq)
    rw [snd_ignoring]
    exact addPart lib p bd

end Keyed

/-- The part set stands for a block that the node has made. -/
def Own (lib : Lib) (made : List (Made α)) (header : PartSetHeader) (hash : Bytes) : Prop :=
  ∃ mk ∈ made, header = (partSetFromBlock (blockLib lib) mk.block 40960 mk.block.round).header ∧
    hash = mk.block.hash lib

theorem getBlock_eq_ok {lib : Lib} {bd : BlockData} (h : bd.getBlock lib v r = .ok b) :
    ∃ ps, bd.blocks v r = some ps ∧ ps.genBlock (blockLib lib) = .ok b ∧
      b.view = ps.header.height := by
  unfold BlockData.getBlock at h
  split at h
  · cases h
  · next ps hps =>
    refine ⟨ps, (Option.filter_eq_some_iff.mp hps).1, ?_⟩
    split at h
    · cases h
    · cases h
    · next block hblock =>
      obtain rfl := Except.ok.inj h
      obtain ⟨-, -, -, -, hview, -⟩ := PartSet.genBlock_eq_ok.mp hblock
      exact ⟨hblock, hview⟩

theorem isComplete_of_getBlock {lib : Lib} {bd : BlockData} (h : bd.getBlock lib v r = .ok b) :
    bd.isComplete v r = true := by
  unfold BlockData.getBlock at h
  split at h
  · cases h
  · next ps hps =>
    obtain ⟨hps, hcomplete⟩ := Option.filter_eq_some_iff.mp hps
    rw [BlockData.isComplete, hps]
    exact hcomplete

/-! ## Messages -/

/-- Nothing but the collected messages has changed. -/
structure Quiet (Q : PartSetHeader → Bytes → Prop) (s s' : State α) : Prop where
  progress : s'.progress = s.progress
  blockPool : s'.blockPool = s.blockPool
  step : s'.step = s.step
  made : s'.log.made = s.log.made
  slots : Keyed.Kept Q s.blockData s'.blockData

/-- The signature of the proposal is one of the validator with the given index. -/
def Proposal.verifiesAs (P : Network α) (me : Str) (p : Proposal) (index : ℤ) : Prop :=
  (verifier P me).verify P.bls p.signature (P.lib.proposal.marshal { p with signature := [] })
    index = some true

namespace Quiet

variable {Q : PartSetHeader → Bytes → Prop} {P : Network α} {me : Str}

theorem refl (s : State α) : Quiet Q s s := ⟨rfl, rfl, rfl, rfl, id⟩

theorem onBlockData {β : Type} {x : Action Fault BlockData β} (hx : Keeps (Keyed.Kept Q) x) :
    Keeps (Quiet Q : State α → State α → Prop) (Urd.onBlockData x) :=
  fun s => ⟨rfl, rfl, rfl, rfl, hx s.blockData⟩

theorem countVote (vote : Vote) : Keeps (Quiet Q) (Urd.countVote P vote) := by
  intro s
  obtain ⟨hdps, h⟩ := exists_snd_countVote P vote s
  rw [h]
  exact ⟨rfl, rfl, rfl, rfl, id⟩

theorem crossShardCommunicate (inp : Input) :
    Keeps (Quiet Q) (Urd.crossShardCommunicate P me inp) := by
  intro s
  have hrun := talks P me inp s
  generalize Urd.crossShardCommunicate P me inp s = r at hrun
  cases hrun with
  | failed | stuck | talked => exact ⟨rfl, rfl, rfl, rfl, id⟩

theorem addCrossShardMessage (msg : CrossShardMessage) :
    Keeps (Quiet Q) (Urd.addCrossShardMessage P msg) := by
  intro s
  obtain ⟨store, finished, lastHash, h⟩ := exists_snd_addCrossShardMessage P msg s
  rw [h]
  exact ⟨rfl, rfl, rfl, rfl, id⟩

/-- A message can open a slot only as a proposal that verifies under the index it names. -/
theorem takeMessage {msg : Message} (hq : ∀ p, msg = .proposal p → p.header.chainID = me →
      p.verifiesAs P me p.proposerIndex → Q p.header p.blockHeaderHash) :
    Keeps (Quiet Q) (Urd.takeMessage P me msg) := by
  apply keeps_takeMessage refl
  · exact fun p _ => onBlockData (Keyed.addPart P.lib p)
  · exact fun p hp hchain hok => onBlockData (Keyed.addPartSetHeader P.lib (hq p hp hchain hok))
  · exact fun m _ => addCrossShardMessage m
  · exact fun v _ => countVote v

end Quiet

/-! ## Rounds -/

section

variable {P : Network α} {me : Str} {index : ℕ} {T : PartSetHeader → Bytes → Prop} {s : State α}

/-- The part sets come from the node's own blocks or are those of `T`. -/
def Origin (lib : Lib) (T : PartSetHeader → Bytes → Prop) (made : List (Made α))
    (header : PartSetHeader) (hash : Bytes) : Prop := Own lib made header hash ∨ T header hash

/-- What holds between the events of a node. -/
structure NodeInv (P : Network α) (me : Str) (index : ℕ) (T : PartSetHeader → Bytes → Prop)
    (s : State α) : Prop where
  blockPool : s.blockPool = lastSeven s.log.appended
  slots : Keyed (Origin P.lib T s.log.made) s.blockData
  validator : s.step = .validatorWait → isProposer P me index = false
  leader : s.step = .leaderWait → isProposer P me index = true

/-- A move from a state to one in which the invariant holds. -/
structure Advances (P : Network α) (me : Str) (index : ℕ) (T : PartSetHeader → Bytes → Prop)
    (s s' : State α) : Prop where
  inv : NodeInv P me index T s'
  moves : s.progress.Moves (isProposer P me index) s'.progress

section

variable (h : NodeInv P me index T s)

include h

theorem NodeInv.of_quiet {s' : State α}
    (hs : Quiet (Origin P.lib T s.log.made) s s') : NodeInv P me index T s' where
  blockPool := by
    have happended : s'.log.appended = s.log.appended := congrArg Progress.appended hs.progress
    rw [hs.blockPool, h.blockPool, happended]
  slots := by
    rw [hs.made]
    exact hs.slots h.slots
  validator hstep := h.validator (hs.step ▸ hstep)
  leader hstep := h.leader (hs.step ▸ hstep)

theorem NodeInv.advances_of_quiet {s' : State α}
    (hs : Quiet (Origin P.lib T s.log.made) s s') : Advances P me index T s s' :=
  ⟨h.of_quiet hs, hs.progress ▸ .stay⟩

theorem NodeInv.progress_entered :
    (entered P me s).progress = s.progress.advance := by
  have hfetch : s.fetchBlock 2 = s.log.appended.reverse[1]? :=
    State.fetchBlock_eq h.blockPool (by decide)
  unfold entered
  rw [hfetch]
  rfl

theorem NodeInv.doValidate (hp : isProposer P me index = false)
    (hb : b.view = s.view) : Advances P me index T s (doValidate P me index b s).2 := by
  have hvoted (ok : Bool) : NodeInv P me index T (voted P me index s b ok) :=
    { h with }
  have hrun := validates P me index s b
  generalize Urd.doValidate P me index b s = r at hrun
  cases hrun with
  | panicked _ => exact ⟨h, .stay⟩
  | refused _ _ => exact ⟨hvoted false, .reject rfl⟩
  | accepted _ =>
    refine ⟨{ h with
      blockPool := State.blockPool_appendBlock h.blockPool b, slots := h.slots.next _ _ }, ?_⟩
    show Progress.Moves _ _ ((entered P me (voted P me index s b true)).progress.append b)
    rw [(hvoted true).progress_entered]
    exact .accept hp hb hb

theorem NodeInv.blockStored {inp : Input}
    (hb : newBlock P me inp s = some b) : NodeInv P me index T (blockStored P me index s b) := by
  let made : List (Made α) := s.log.made ++ [{ executionJ2 P me s with block := b }]
  have hkeyed : Keyed (Origin P.lib T made) (relaysKept P me s).blockData :=
    (h.slots.next _ _).mono fun header hash =>
      Or.imp_left fun ⟨m, hm, hown⟩ => ⟨m, List.mem_append_left _ hm, hown⟩
  refine { h with slots := hkeyed.setPartSet rfl rfl (.inl ?_) }
  refine ⟨_, List.mem_append_right _ (List.mem_singleton_self _), ?_, rfl⟩
  rw [(newBlock_slot hb).2]

theorem NodeInv.doPropose (hp : isProposer P me index = true)
    (inp : Input) : Advances P me index T s (doPropose P me index inp s).2 := by
  have hprogress := h.progress_entered
  have hrun := proposes P me index inp s
  generalize Urd.doPropose P me index inp s = r at hrun
  cases hrun with
  | noBlock _ | slotTaken _ _ =>
    exact ⟨{ h with slots := h.slots.next (s.view + 1) 0 }, hprogress ▸ .skip hp⟩
  | @voteRefused b hb _ e _ =>
    refine ⟨h.blockStored hb, ?_⟩
    show Progress.Moves _ _ ((entered P me s).progress.vote (ownVote P me index b))
    rw [hprogress]
    exact .spoil hp (newBlock_slot hb).1
  | @done b hb _ hdp _ =>
    have hinv := h.blockStored hb
    refine ⟨{ hinv with blockPool := State.blockPool_appendBlock hinv.blockPool b }, ?_⟩
    show Progress.Moves _ _ (((entered P me s).progress.vote (ownVote P me index b)).append b)
    rw [hprogress]
    exact .propose hp (newBlock_slot hb).1 (newBlock_slot hb).1

theorem NodeInv.handleStateTransition (inp : Input) :
    Advances P me index T s (handleStateTransition P me index inp s).2 := by
  have htake : Advances P me index T s (takeStep P me index inp s).2 := by
    refine takeStep_elim ⟨h, .stay⟩ (fun b hstep hblock => ?_) (fun hstep => ?_) fun _ => ?_
    · obtain ⟨ps, hps, -, hview⟩ := getBlock_eq_ok hblock
      exact h.doValidate (h.validator hstep) (hview.trans (h.slots _ _ ps hps).1)
    · exact h.doPropose (h.leader hstep) inp
    · exact h.advances_of_quiet (Quiet.crossShardCommunicate inp s)
  obtain ⟨step, hsnd, hstep⟩ := exists_snd_handleStateTransition P me index inp s
  rw [hsnd]
  refine ⟨{ htake.inv with validator := fun hv => ?_, leader := fun hl => ?_ }, htake.moves⟩
  · exact hstep.elim (fun heq => htake.inv.validator (heq ▸ hv)) fun hrole => hrole.mp hv
  · refine hstep.elim (fun heq => htake.inv.leader (heq ▸ hl)) fun hrole => ?_
    exact Bool.of_not_eq_false fun hp => by cases (hrole.mpr hp).symm.trans hl

theorem NodeInv.start (inp : Input) :
    Advances P me index T s (start P me index inp s).2 := by
  refine start_elim (fun _ hp step hstep => ?_) (fun hview hp => ?_)
    fun _ => h.handleStateTransition inp
  · have hadv := h.doPropose hp inp
    refine ⟨{ hadv.inv with validator := fun hv => ?_, leader := fun _ => hp }, hadv.moves⟩
    rcases hstep with rfl | rfl
    · exact h.validator hv
    · cases hv
  · refine ⟨⟨h.blockPool, h.slots.next _ _, fun _ => hp, nofun⟩, ?_⟩
    have hmove : s.progress.Moves (isProposer P me index) { s.progress with view := 1 } :=
      .enter hp hview
    show Progress.Moves _ _ { s.progress with view := s.view + 1 }
    rwa [hview]

theorem NodeInv.receive {msg : Message} (inp : Input)
    (hT : ∀ p, msg = .proposal p → p.header.chainID = me → p.verifiesAs P me p.proposerIndex →
      T p.header p.blockHeaderHash) : Advances P me index T s (receive P me index msg inp s).2 := by
  have hquiet : Quiet (Origin P.lib T s.log.made) s (takeMessage P me msg s).2 :=
    Quiet.takeMessage (fun p hp hchain hverify => .inr (hT p hp hchain hverify)) s
  rcases receive_cases P me index msg inp s with ⟨e, heq⟩ | ⟨-, heq⟩ <;> rw [heq]
  · exact h.advances_of_quiet hquiet
  · have hadv := (h.of_quiet hquiet).handleStateTransition inp
    exact ⟨hadv.inv, hquiet.progress ▸ hadv.moves⟩

end

/-- **Every event of a node is a move.** -/
theorem NodeInv.step (h : NodeInv P me index T n.state)
    (hT : ∀ p inp, e = .receive (.proposal p) inp → p.header.chainID = me →
      p.verifiesAs P me p.proposerIndex → T p.header p.blockHeaderHash)
    (hn : nodeStep P me index n e = some n') : Advances P me index T n.state n'.state := by
  have hadv : Advances P me index T n.state (e.act P me index n.state).2 := by
    cases e with
    | start inp => exact h.start inp
    | resume inp => exact h.handleStateTransition inp
    | receive msg inp => exact h.receive inp fun p hp => hT p inp (hp ▸ rfl)
  obtain ⟨-, rfl⟩ := nodeStep_eq_some.mp hn
  exact ⟨{ hadv.inv with }, hadv.moves⟩

theorem nodeInv_newNode (P : Network α) (me : Str) (index : ℕ) (T : PartSetHeader → Bytes → Prop)
    (app : α) : NodeInv P me index T (newNode app).state where
  blockPool := rfl
  slots _ _ _ h := by cases h
  validator h := by cases h
  leader h := by cases h

/-- What every move keeps holds after every run. -/
theorem run_progress {J : Progress → Prop}
    (hmove : ∀ p p', p.Moves (isProposer P me index) p' → J p → J p') (hnew : J .new) {app : α}
    {es : List NodeEvent} (hrun : run (nodeStep P me index) (newNode app) es = some n) :
    J n.state.progress := by
  have hinv := run_invariant
    (I := fun n : Node α => NodeInv P me index (fun _ _ => True) n.state ∧ J n.state.progress)
    (fun n e n' hn hstep => by
      have hadv := hn.1.step (fun _ _ _ _ _ => trivial) hstep
      exact ⟨hadv.inv, hmove _ _ hadv.moves hn.2⟩)
    ⟨nodeInv_newNode P me index _ app, hnew⟩ hrun
  exact hinv.2

end

/-! ## Voting and executing -/

def noInput : Input := ⟨⟨0, 0⟩, [], [], []⟩

def plainBlock (view : ℤ) (hashPointer : Bytes) : Block where
  hashPointer := hashPointer
  chainID := [65]
  view := view
  round := 0
  time := ⟨0, 0⟩

/-- A proposal that the given validator has signed. -/
def proposalBy (index : ℕ) (b : Block) : Proposal :=
  let ps := partSetFromBlock (blockLib polyLib) b 40960 0
  let p : Proposal := ⟨ps.header, index, ps.blockHeaderHash, []⟩
  { p with signature := indexSign index (polyLib.proposal.marshal p) }

/-- The leader's proposal and the parts of the block arrive. -/
def delivery (b : Block) : List NodeEvent :=
  let parts := partsOf (blockLib polyLib) b 40960 0
  NodeEvent.receive (.proposal (proposalBy 0 b)) noInput ::
    parts.map (fun p => NodeEvent.receive (.part p) noInput) ++ [NodeEvent.resume noInput]

/-- The blocks of three views, each pointing to the one before. -/
def threeBlocks : List NodeEvent :=
  let b₁ := plainBlock 1 []
  let b₂ := plainBlock 2 (b₁.hash polyLib)
  .start noInput :: delivery b₁ ++ delivery b₂ ++ delivery (plainBlock 3 (b₂.hash polyLib))

/-- **A node does not equivocate.** The OK votes it has signed have increasing views, so no two are
for one view and round and different blocks. -/
theorem okVotes_increase {P : Network α} {me : Str} {index : ℕ} {app : α} {es : List NodeEvent}
    {n : Node α} (hrun : run (nodeStep P me index) (newNode app) es = some n) :
    ((n.state.log.votes.filter Vote.isOK).Pairwise fun v w => v.view < w.view) ∧
      ∀ v ∈ n.state.log.votes, ∀ w ∈ n.state.log.votes, v.isOK = true → w.isOK = true →
        v.view = w.view → v.round = w.round → v.forHash = w.forHash := by
  have h := run_progress (J := (·.VotesIncrease (isProposer P me index)))
    (fun _ _ => Progress.VotesIncrease.move) ⟨List.Pairwise.nil, nofun⟩ hrun
  refine ⟨h.sorted, fun v hv w hw hvok hwok hview _ => ?_⟩
  have hnodup : ((n.state.log.votes.filter Vote.isOK).map Vote.view).Nodup :=
    List.pairwise_map.mpr (h.sorted.imp ne_of_lt)
  rw [List.inj_on_of_nodup_map hnodup (List.mem_filter.mpr ⟨hv, hvok⟩)
    (List.mem_filter.mpr ⟨hw, hwok⟩) hview]

/-- The validator votes for three blocks. -/
theorem okVotes_threeBlocks :
    ∃ n, run (nodeStep pairNetwork [65] 1) (newNode 0) threeBlocks = some n ∧
      (n.state.log.votes.map fun v => (v.isOK, v.view)) = [(true, 1), (true, 2), (true, 3)] ∧
      ((n.state.log.votes.filter Vote.isOK).Pairwise fun v w => v.view < w.view) := by
  obtain ⟨n, hrun, hvotes⟩ := Option.map_eq_some_iff.mp
    (show (run (nodeStep pairNetwork [65] 1) (newNode 0) threeBlocks).map
      (fun n => n.state.log.votes.map fun v => (v.isOK, v.view)) =
        some [(true, 1), (true, 2), (true, 3)] by decide +kernel)
  exact ⟨n, hrun, hvotes, (okVotes_increase hrun).1⟩

/-- **A validator executes in order.** Of the blocks it has appended, those before the last two have
been executed, once each. -/
theorem executed_eq_take {P : Network α} {me : Str} {index : ℕ}
    (hnode : isProposer P me index = false) {app : α} {es : List NodeEvent} {n : Node α}
    (hrun : run (nodeStep P me index) (newNode app) es = some n) :
    n.state.log.executed = n.state.log.appended.take (n.state.log.appended.length - 2) :=
  run_progress (J := Progress.ExecutedBehind) (fun _ _ => hnode ▸ Progress.ExecutedBehind.move) rfl
    hrun

/-- The first of three blocks has been executed. -/
theorem executed_threeBlocks : isProposer pairNetwork [65] 1 = false ∧
    ∃ n, run (nodeStep pairNetwork [65] 1) (newNode 0) threeBlocks = some n ∧
      n.state.log.appended.map (·.view) = [1, 2, 3] ∧ n.state.log.executed.map (·.view) = [1] ∧
      n.state.log.executed = n.state.log.appended.take (n.state.log.appended.length - 2) := by
  have hnode : isProposer pairNetwork [65] 1 = false := by decide
  obtain ⟨n, hrun, hviews⟩ := Option.map_eq_some_iff.mp
    (show (run (nodeStep pairNetwork [65] 1) (newNode 0) threeBlocks).map
      (fun n => (n.state.log.appended.map (·.view), n.state.log.executed.map (·.view))) =
        some ([1, 2, 3], [1]) by decide +kernel)
  obtain ⟨happended, hexecuted⟩ := Prod.mk.inj hviews
  exact ⟨hnode, n, hrun, happended, hexecuted, executed_eq_take hnode hrun⟩

/-! ## The chain of the block pool -/

section

variable {P : Network α} {me : Str} {index : ℕ}

/-- The block pool is a chain that ends before the current view. -/
structure HashChain (lib : Lib) (s : State α) : Prop where
  length : s.blockPool.length ≤ 7
  views : s.blockPool.IsChain fun b b' => b'.view = b.view + 1
  last : ∀ b ∈ s.blockPool.getLast?, b.view = s.view - 1
  hashes : s.blockPool.IsChain fun b b' => b'.hashPointer = b.hash lib

/-- A block that the node appends points to the last block of the pool. -/
def Linked (P : Network α) (me : Str) (index : ℕ) (n : Node α) (e : NodeEvent) : Prop :=
  ∀ n' ∈ nodeStep P me index n e, ∀ b ∈ n'.state.log.appended.drop n.state.log.appended.length,
    ∀ last ∈ n.state.blockPool.getLast?, b.hashPointer = last.hash P.lib

instance (P : Network α) (me : Str) (index : ℕ) (n : Node α) (e : NodeEvent) :
    Decidable (Linked P me index n e) :=
  inferInstanceAs (Decidable (∀ n' ∈ nodeStep P me index n e, ∀ b ∈ _, ∀ last ∈ _, _ = _))

theorem Progress.Moves.appended {proposer : Bool} {p p' : Progress} (h : p.Moves proposer p') :
    p'.appended = p.appended ∨ ∃ b, p'.appended = p.appended ++ [b] := by
  cases h with
  | stay => exact .inl rfl
  | enter => exact .inl rfl
  | reject => exact .inl rfl
  | @accept b => exact .inr ⟨b, rfl⟩
  | skip => exact .inl rfl
  | spoil => exact .inl rfl
  | @propose b => exact .inr ⟨b, rfl⟩

/-- The parts of the invariant of a validator that do not depend on its proposer. -/
structure ValidatorInv (P : Network α) (me : Str) (index : ℕ) (n : Node α) : Prop where
  node : NodeInv P me index (fun _ _ => True) n.state
  consecutive : n.state.progress.Consecutive

theorem ValidatorInv.step (hnode : isProposer P me index = false) (h : ValidatorInv P me index n)
    (hstep : nodeStep P me index n e = some n') : ValidatorInv P me index n' := by
  have hadv := h.node.step (fun _ _ _ _ _ => trivial) hstep
  exact ⟨hadv.inv, h.consecutive.move (hnode ▸ hadv.moves)⟩

theorem validatorInv_newNode (P : Network α) (me : Str) (index : ℕ) (app : α) :
    ValidatorInv P me index (newNode app) :=
  ⟨nodeInv_newNode P me index _ app, .nil, fun b hb => absurd hb (Option.not_mem_none b),
    fun _ => rfl⟩

/-- Only the hash pointers of the pool depend on the proposer. -/
theorem ValidatorInv.hashChain (h : ValidatorInv P me index n)
    (hhash : n.state.log.appended.IsChain fun b b' => b'.hashPointer = b.hash P.lib) :
    HashChain P.lib n.state := by
  refine ⟨?_, ?_, ?_, ?_⟩
  · rw [h.node.blockPool, length_lastSeven]
    omega
  · rw [h.node.blockPool]
    exact h.consecutive.views.drop _
  · rw [h.node.blockPool, getLast?_lastSeven]
    exact h.consecutive.last
  · rw [h.node.blockPool]
    exact hhash.drop _

theorem linked_of_hashChain (hnode : isProposer P me index = false) (h : ValidatorInv P me index n)
    (hchain : ∀ n', nodeStep P me index n e = some n' → HashChain P.lib n'.state) :
    Linked P me index n e := by
  intro n' hstep b hb last hlast
  have hpool := (h.step hnode hstep).node.blockPool
  have hhashes := (hchain n' hstep).hashes
  obtain ⟨b', happ⟩ : ∃ b', n'.state.log.appended = n.state.log.appended ++ [b'] := by
    rcases (h.node.step (fun _ _ _ _ _ => trivial) hstep).moves.appended with happ | happ
    · have happ' : n'.state.log.appended = n.state.log.appended := happ
      rw [happ', List.drop_length] at hb
      cases hb
    · exact happ
  rw [happ, List.drop_left, List.mem_singleton] at hb
  subst hb
  rw [hpool, happ, lastSeven_concat, List.isChain_append] at hhashes
  refine hhashes.2.2 last ?_ b rfl
  rw [h.node.blockPool, getLast?_lastSeven] at hlast
  rw [List.getLast?_drop, if_neg, hlast]
  · rfl
  · have hne : n.state.log.appended ≠ [] := by
      rintro hnil
      rw [hnil] at hlast
      cases hlast
    have hpos := List.length_pos_iff.mpr hne
    omega

/-- **The hash pointers are not checked.** The pool of a validator is a chain in every state of a
run exactly when every block that the run appends points to the block before it. -/
theorem hashChain_iff (hnode : isProposer P me index = false) (app : α) (es : List NodeEvent) :
    Along (nodeStep P me index)
        (fun n e => ∀ n', nodeStep P me index n e = some n' → HashChain P.lib n'.state)
        (newNode app) es ↔
      Along (nodeStep P me index) (Linked P me index) (newNode app) es := by
  constructor
  · exact Along.imp (fun n e n' h _ hstep => h.step hnode hstep)
      (fun n e h hchain => linked_of_hashChain hnode h hchain) (validatorInv_newNode P me index app)
  · have hlink : ∀ n e n', (ValidatorInv P me index n ∧
        n.state.log.appended.IsChain fun b b' => b'.hashPointer = b.hash P.lib) →
        Linked P me index n e → nodeStep P me index n e = some n' →
        ValidatorInv P me index n' ∧
          n'.state.log.appended.IsChain fun b b' => b'.hashPointer = b.hash P.lib := by
      rintro n e n' ⟨h, hhash⟩ hlinked hstep
      refine ⟨h.step hnode hstep, ?_⟩
      have hadv := h.node.step (fun _ _ _ _ _ => trivial) hstep
      rcases hadv.moves.appended with happ | ⟨b, happ⟩
      · exact (congrArg _ happ).mpr hhash
      · have happ' : n'.state.log.appended = n.state.log.appended ++ [b] := happ
        rw [happ']
        refine hhash.append (List.isChain_singleton b) fun last hlast b' hb' => ?_
        obtain rfl := Option.some.inj hb'
        refine hlinked n' hstep _ ?_ last ?_
        · rw [happ', List.drop_left]
          exact List.mem_singleton_self _
        · rwa [h.node.blockPool, getLast?_lastSeven]
    refine Along.imp hlink (fun n e h hlinked n' hstep => ?_)
      ⟨validatorInv_newNode P me index app, .nil⟩
    obtain ⟨hinv, hhash⟩ := hlink n e n' h hlinked hstep
    exact hinv.hashChain hhash

/-- The pointers of the three blocks are right. -/
theorem hashChain_threeBlocks : isProposer pairNetwork [65] 1 = false ∧
    Along (nodeStep pairNetwork [65] 1)
      (fun n e => ∀ n', nodeStep pairNetwork [65] 1 n e = some n' →
        HashChain pairNetwork.lib n'.state) (newNode 0) threeBlocks := by
  have hnode : isProposer pairNetwork [65] 1 = false := by decide
  have hlinked : Along (nodeStep pairNetwork [65] 1) (Linked pairNetwork [65] 1) (newNode 0)
      threeBlocks := by decide +kernel
  exact ⟨hnode, (hashChain_iff hnode 0 threeBlocks).mpr hlinked⟩

/-- A second block that does not point to the first is appended. -/
theorem not_hashChain_plainBlock :
    ∃ n, run (nodeStep pairNetwork [65] 1) (newNode 0)
        (.start noInput :: delivery (plainBlock 1 []) ++ delivery (plainBlock 2 [])) = some n ∧
      (n.state.blockPool.map fun b => (b.view, b.hashPointer)) = [(1, []), (2, [])] ∧
      ¬HashChain polyLib n.state := by
  obtain ⟨n, hrun, hpool⟩ := Option.map_eq_some_iff.mp
    (show (run (nodeStep pairNetwork [65] 1) (newNode 0)
        (.start noInput :: delivery (plainBlock 1 []) ++ delivery (plainBlock 2 []))).map
        (fun n => (n.state.blockPool.map fun b => (b.view, b.hashPointer),
          decide (n.state.blockPool.IsChain fun b b' => b'.hashPointer = b.hash polyLib))) =
        some ([(1, []), (2, [])], false) by decide +kernel)
  obtain ⟨hpool, hchain⟩ := Prod.mk.inj hpool
  exact ⟨n, hrun, hpool, fun h => of_decide_eq_false hchain h.hashes⟩

end

/-! ## Who can propose -/

section

variable {P : Network α} {me : Str} {index : ℕ}

/-- A proposal that the node would take is one of the leader. -/
def FromLeader (P : Network α) (me : Str) : NodeEvent → Prop
  | .receive (.proposal p) _ =>
    p.header.chainID = me → p.verifiesAs P me p.proposerIndex → p.proposerIndex = leaderOf P me
  | _ => True

/-- The header and the hash are those of a proposal among the events that the leader has signed. -/
def LeaderSigned (P : Network α) (me : Str) (es : List NodeEvent) (header : PartSetHeader)
    (hash : Bytes) : Prop :=
  ∃ p inp, .receive (.proposal p) inp ∈ es ∧ p.verifiesAs P me (leaderOf P me) ∧
    header = p.header ∧ hash = p.blockHeaderHash

/-- **The proposer is not checked.** A part set is the node's own or signed by the leader, as long
as no proposals arrive that other validators have signed. -/
theorem stored_of_fromLeader {app : α} {es : List NodeEvent} (hes : ∀ e ∈ es, FromLeader P me e)
    {n : Node α} (hrun : run (nodeStep P me index) (newNode app) es = some n) (v r : ℤ)
    (ps : PartSet) (hps : n.state.blockData.blocks v r = some ps) :
    Own P.lib n.state.log.made ps.header ps.blockHeaderHash ∨
      LeaderSigned P me es ps.header ps.blockHeaderHash := by
  have hinv := run_invariant_along (P := fun _ e => e ∈ es)
    (I := fun n : Node α => NodeInv P me index (LeaderSigned P me es) n.state)
    (fun n e n' hn he hstep => (hn.step (fun p inp heq hchain hverify => by
      subst heq
      have hleader := hes _ he hchain hverify
      exact ⟨p, inp, he, hleader ▸ hverify, rfl, rfl⟩) hstep).inv)
    (nodeInv_newNode P me index _ app) (along_of_mem fun e he _ => he) hrun
  exact (hinv.slots v r ps hps).2.2

/-- The leader's proposal opens the slot of its view. -/
theorem stored_proposalBy_leader :
    ∃ n ps, run (nodeStep pairNetwork [65] 1) (newNode 0)
        [.start noInput, .receive (.proposal (proposalBy 0 (plainBlock 1 []))) noInput] = some n ∧
      n.state.blockData.blocks 1 0 = some ps ∧
      (Own polyLib n.state.log.made ps.header ps.blockHeaderHash ∨
        LeaderSigned pairNetwork [65]
          [.start noInput, .receive (.proposal (proposalBy 0 (plainBlock 1 []))) noInput]
          ps.header ps.blockHeaderHash) := by
  obtain ⟨n, hrun, hslot⟩ := Option.map_eq_some_iff.mp
    (show (run (nodeStep pairNetwork [65] 1) (newNode 0)
        [.start noInput, .receive (.proposal (proposalBy 0 (plainBlock 1 []))) noInput]).map
        (fun n => (n.state.blockData.blocks 1 0).isSome) = some true by decide +kernel)
  obtain ⟨ps, hps⟩ := Option.isSome_iff_exists.mp hslot
  refine ⟨n, ps, hrun, hps, stored_of_fromLeader ?_ hrun 1 0 ps hps⟩
  rintro e (_ | ⟨_, _ | ⟨_, ⟨⟩⟩⟩)
  · trivial
  · exact fun _ _ => rfl

/-- The proposal of another validator takes the slot, and the leader's comes too late. -/
def slotTaken : List NodeEvent :=
  [.start noInput, .receive (.proposal (proposalBy 2 (plainBlock 1 [7]))) noInput,
    .receive (.proposal (proposalBy 0 (plainBlock 1 []))) noInput]

theorem not_stored_slotTaken :
    ∃ n ps, run (nodeStep pairNetwork [65] 1) (newNode 0) slotTaken = some n ∧
      n.state.blockData.blocks 1 0 = some ps ∧
      ¬(Own polyLib n.state.log.made ps.header ps.blockHeaderHash ∨
        LeaderSigned pairNetwork [65] slotTaken ps.header ps.blockHeaderHash) := by
  obtain ⟨n, hrun, hslot⟩ := Option.map_eq_some_iff.mp
    (show (run (nodeStep pairNetwork [65] 1) (newNode 0) slotTaken).map
        (fun n => ((n.state.blockData.blocks 1 0).map (·.header), n.state.log.made.length)) =
        some (some (proposalBy 2 (plainBlock 1 [7])).header, 0) by decide +kernel)
  obtain ⟨hslot, hmade⟩ := Prod.mk.inj hslot
  obtain ⟨ps, hps, hheader⟩ := Option.map_eq_some_iff.mp hslot
  refine ⟨n, ps, hrun, hps, ?_⟩
  rintro (⟨m, hm, -⟩ | ⟨p, inp, hp, hverify, hpheader, -⟩)
  · rw [List.length_eq_zero_iff.mp hmade] at hm
    cases hm
  · -- the one does not verify, the other has a different header
    rw [hheader] at hpheader
    rcases hp with _ | ⟨_, _ | ⟨_, _ | ⟨_, ⟨⟩⟩⟩⟩
    · exact absurd hverify (by unfold Proposal.verifiesAs; decide +kernel)
    · exact absurd hpheader (by decide +kernel)

end

end Emulator.Urd
