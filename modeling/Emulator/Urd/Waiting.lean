import Emulator.Urd.Proposing
import Emulator.Urd.Transitions

/-!
# Leaders that wait

In every view a leader proposes, collects votes, talks to the other shards and then waits for their
messages. `next_step` reads off the votes alone whether it waits. So a leader whose own vote is a
quorum goes from proposing to waiting at once, and one whose proposal has failed keeps waiting, in a
view in which it has no block to talk about.

* `communicated_iff` — as long as its own vote is not a quorum, a leader that waits has talked for
  its current block, exactly if it has one.

The invariant is that the votes of a view are about its block, so that `CrossShardCommunicate`
finishes the own message with the hash of that block. Later messages leave a finished one alone.
-/

namespace Emulator.Urd

open Emulator.Action HotStuff

variable {α : Type}

/-! ## The current block -/

/-- The last block of the pool is that of the current view. -/
def State.CurrentBlock (s : State α) (b : Block) : Prop := s.fetchBlock 1 = some b ∧ b.view = s.view

variable {s s' : State α} {b : Block} {P : Network α} {inp : Input} {hdp : HeightDataPackage}
  {me : Str}

theorem State.mem_of_fetchBlock {n : ℕ} (h : s.fetchBlock n = some b) : b ∈ s.blockPool := by
  unfold State.fetchBlock at h
  split_ifs at h
  exact List.mem_of_getElem? h

theorem State.fetchBlock_appendBlock (s : State α) (b : Block) :
    (s.appendBlock b).fetchBlock 1 = some b := by
  unfold State.fetchBlock State.appendBlock
  split_ifs <;> simp_all

theorem State.mem_appendBlock {b' : Block} (h : b' ∈ (s.appendBlock b).blockPool) :
    b' ∈ s.blockPool ∨ b' = b := by
  unfold State.appendBlock at h
  dsimp only at h
  split_ifs at h
  · rcases List.mem_append.mp h with h | h
    · exact .inl (List.mem_of_mem_drop h)
    · exact .inr (List.mem_singleton.mp h)
  · rcases List.mem_append.mp h with h | h
    · exact .inl h
    · exact .inr (List.mem_singleton.mp h)

theorem State.CurrentBlock.of_eq (h : s'.CurrentBlock b) (hpool : s'.blockPool = s.blockPool)
    (hview : s'.view = s.view) : s.CurrentBlock b := by
  unfold State.CurrentBlock State.fetchBlock at h ⊢
  rwa [hpool, hview] at h

/-- `CrossShardCommunicate` has been executed for the current view: the own message is finished,
with the hash of the current block. -/
structure Communicated (P : Network α) (me : Str) (s : State α) : Prop where
  finished : (s.blockData.finished me).isSome
  lastHash : ∃ b, s.CurrentBlock b ∧ s.blockData.lastHash me = b.hash P.lib

/-! ## The votes of a view -/

/-- The votes are about the block with the given hash. -/
def VotesOn (hash : Bytes) (s : State α) : Prop :=
  ∃ hdp, s.heightDatas = some hdp ∧ hdp.proposalHash = hash ∧
    ∀ a, hdp.aggVote = some a → a.forHash = hash

/-- They stay about it. -/
def KeepsVotes (s s' : State α) : Prop := ∀ hash, VotesOn hash s → VotesOn hash s'

namespace KeepsVotes

variable {P : Network α} {me : Str}

theorem of_eq (h : s'.heightDatas = s.heightDatas) : KeepsVotes s s' := by
  intro hash hvotes
  unfold VotesOn
  rw [h]
  exact hvotes

theorem refl (s : State α) : KeepsVotes s s := of_eq rfl

theorem countVote (vote : Vote) : Keeps KeepsVotes (Urd.countVote P vote) := by
  intro s hash ⟨hdp₀, hhdp₀, hproposal, hagg⟩
  rcases countVote_cases P vote s with ⟨e, herror⟩ | ⟨hdp, hdp', hhdp, hadd, hok⟩
  · rw [herror]
    exact ⟨hdp₀, hhdp₀, hproposal, hagg⟩
  · rw [hok]
    obtain rfl := Option.some.inj (hhdp₀.symm.trans hhdp)
    obtain ⟨i, w, -, -, -, -, -, -, -, rfl⟩ := addVote_eq_ok hadd
    exact ⟨_, rfl, hproposal, hagg⟩

theorem takeMessage (msg : Message) : Keeps KeepsVotes (Urd.takeMessage P me msg) := by
  apply keeps_takeMessage refl
  · exact fun p _ s => of_eq rfl
  · exact fun p _ _ _ s => of_eq rfl
  · intro m _ s
    obtain ⟨store, finished, lastHash, h⟩ := exists_snd_addCrossShardMessage P m s
    rw [h]
    exact of_eq rfl
  · exact fun v _ => countVote v

end KeepsVotes

theorem VotesOn.getMaj23 {hash : Bytes} {sig : AggregatedVote} {hdp hdp' : HeightDataPackage}
    (hvotes : VotesOn hash s) (hhdp : s.heightDatas = some hdp)
    (hmaj : getMaj23 P.bls hdp = some (sig, hdp')) :
    sig.forHash = hash ∧ ∀ s' : State α, s'.heightDatas = some hdp' → VotesOn hash s' := by
  obtain ⟨hdp₁, hhdp₁, hproposal, hagg⟩ := hvotes
  obtain rfl := Option.some.inj (hhdp.symm.trans hhdp₁)
  obtain ⟨rfl, hcases⟩ := getMaj23_cases hmaj
  have hsig : sig.forHash = hash := by
    rcases hcases with hsome | ⟨-, hof⟩
    · exact hagg sig hsome
    · exact hof.forHash.trans hproposal
  refine ⟨hsig, fun s' h => ⟨_, h, hproposal, fun a ha => ?_⟩⟩
  obtain rfl := Option.some.inj ha
  exact hsig

theorem KeepsVotes.crossShardCommunicate (inp : Input) :
    Keeps KeepsVotes (Urd.crossShardCommunicate P me inp) := by
  intro s
  have hrun := talks P me inp s
  generalize Urd.crossShardCommunicate P me inp s = r at hrun
  cases hrun with
  | failed => exact of_eq rfl
  | stuck hhdp hmaj | talked hhdp hmaj =>
    exact fun hash hvotes => (hvotes.getMaj23 hhdp hmaj).2 _ rfl

/-- **Talking** finishes the own message with the hash that the votes are about. -/
theorem VotesOn.crossShardCommunicate {hash : Bytes} (hvotes : VotesOn hash s)
    (h : Urd.crossShardCommunicate P me inp s = (.ok (), s')) :
    (s'.blockData.finished me).isSome ∧ s'.blockData.lastHash me = hash := by
  have hrun := talks P me inp s
  rw [h] at hrun
  cases hrun with
  | talked hhdp hmaj _ _ hsource hvote _ =>
    simp only [BlockData.extendHash, hsource, hvote, Function.update_self]
    exact ⟨rfl, (hvotes.getMaj23 hhdp hmaj).1⟩

/-! ## The own message -/

/-- A finished message of the own shard is left alone, with its hash. -/
def KeepsOwn (me : Str) (s s' : State α) : Prop :=
  (s.blockData.finished me).isSome →
    s'.blockData.finished me = s.blockData.finished me ∧
      s'.blockData.lastHash me = s.blockData.lastHash me

namespace KeepsOwn

variable {P : Network α} {me : Str}

theorem refl (s : State α) : KeepsOwn me s s := fun _ => ⟨rfl, rfl⟩

theorem onBlockData {β : Type} {x : Action Fault BlockData β} (hx : Keeps SameMessages x) :
    Keeps (KeepsOwn me : State α → State α → Prop) (Urd.onBlockData x) := by
  intro s _
  have hsame := hx s.blockData
  exact ⟨congrFun hsame.finished me, congrFun hsame.lastHash me⟩

theorem addCrossShardMessage (m : CrossShardMessage) :
    Keeps (KeepsOwn me) (Urd.addCrossShardMessage P m) := by
  intro s hfinished
  unfold Urd.addCrossShardMessage
  rw [run_bind_ok (run_get s), run_require_bind, run_require_bind]
  split_ifs with hshard hkey hlinks
  · -- the message is of a shard that had none
    have hne : me ≠ m.sourceChain := by
      intro heq
      rw [← heq, Option.isNone_iff_eq_none] at hlinks
      rw [hlinks.1] at hfinished
      cases hfinished
    rw [run_bind_ok (run_modify _ s)]
    exact ⟨Function.update_of_ne hne _ _, Function.update_of_ne hne _ _⟩
  · exact ⟨rfl, rfl⟩
  · exact ⟨rfl, rfl⟩
  · exact ⟨rfl, rfl⟩

theorem takeMessage (msg : Message) : Keeps (KeepsOwn me) (Urd.takeMessage P me msg) := by
  apply keeps_takeMessage refl
  · exact fun p _ => onBlockData (SameMessages.addPart P.lib p)
  · exact fun p _ _ _ => onBlockData (SameMessages.addPartSetHeader P.lib _ _)
  · exact fun m _ => addCrossShardMessage m
  · intro v _ s
    obtain ⟨hdps, h⟩ := exists_snd_countVote P v s
    rw [h]
    exact refl s

end KeepsOwn

/-! ## The invariant of a leader -/

/-- The own vote of the leader is not a quorum. -/
def OwnVoteShort (P : Network α) (me : Str) (index : ℕ) : Prop :=
  weightAt (P.shards me).peerList index < 2 * totalWeight (P.shards me).peerList / 3

instance (P : Network α) (me : Str) (index : ℕ) : Decidable (OwnVoteShort P me index) :=
  inferInstanceAs (Decidable (_ < _))

/-- What holds of a leader between its calls. -/
structure LeaderInv (P : Network α) (me : Str) (s : State α) : Prop where
  role : s.step ≠ .validatorWait
  unstarted : s.step = .init → s.blockPool = []
  views : ∀ b ∈ s.blockPool, b.view ≤ s.view
  votes : ∀ b, s.CurrentBlock b → VotesOn (b.hash P.lib) s
  waits : s.step = .leaderWait → ∀ b, s.CurrentBlock b →
    (s.blockData.finished me).isSome ∧ s.blockData.lastHash me = b.hash P.lib

section

variable {P : Network α} {me : Str} {index : ℕ} {s : State α}

theorem leaderInv_newState (app : α) : LeaderInv P me (newState app) where
  role := nofun
  unstarted _ := rfl
  views b hb := by cases hb
  votes b hb := by cases hb.1
  waits h := by cases h

/-- With nothing but its own vote, the leader has no quorum. -/
theorem isQuorum_countOwnVote (hshort : OwnVoteShort P me index)
    (h : countOwnVote P me index b = .ok hdp) : isQuorum hdp = false := by
  obtain ⟨i, w, hi, -, -, -, -, -, hw, rfl⟩ := addVote_eq_ok h
  obtain rfl : index = i := Int.ofNat.inj hi
  have hweight : w = weightAt (P.shards me).peerList index := by
    have hw' : (perVotes (P.shards me).peerList)[index]? = some w := hw
    rw [weightAt, List.getD_eq_getElem?_getD, hw', Option.getD_some]
  have hneeded := (tally_startPackage (P.shards me).peerList b.view b.round (b.hash P.lib)).needed
  rw [Bool.eq_false_iff]
  intro hq
  obtain ⟨ok, hside⟩ := isQuorum_iff.mp hq
  have hle : sideTotal (record (startPackage (P.shards me).peerList b.view b.round (b.hash P.lib))
      (ownVote P me index b) index w) ok ≤ w := by
    simp only [sideTotal, record, startPackage, newHeightDataPackage]
    split_ifs <;> omega
  have hside' : 2 * totalWeight (P.shards me).peerList / 3 ≤ w := by
    rw [← hneeded]
    exact hside.trans hle
  unfold OwnVoteShort at hshort
  omega

theorem votesOn_countOwnVote (h : countOwnVote P me index b = .ok hdp)
    (hs : s.heightDatas = some hdp) : VotesOn (b.hash P.lib) s := by
  obtain ⟨i, w, -, -, -, -, -, -, -, rfl⟩ := addVote_eq_ok h
  exact ⟨_, hs, rfl, nofun⟩

namespace LeaderInv

section

variable (h : LeaderInv P me s)

include h

/-- While the pool and the view stay, only waiting needs a reason. -/
theorem of_kept (hpool : s'.blockPool = s.blockPool)
    (hview : s'.view = s.view) (hvotes : KeepsVotes s s') (hrole : s'.step ≠ .validatorWait)
    (hunstarted : s'.step = .init → s.step = .init)
    (hwaits : s'.step = .leaderWait → ∀ b, s.CurrentBlock b →
      (s'.blockData.finished me).isSome ∧ s'.blockData.lastHash me = b.hash P.lib) :
    LeaderInv P me s' := by
  refine ⟨hrole, ?_, ?_, ?_, ?_⟩
  · intro hinit
    rw [hpool]
    exact h.unstarted (hunstarted hinit)
  · rw [hpool, hview]
    exact h.views
  · intro b hb
    exact hvotes _ (h.votes b (hb.of_eq hpool hview))
  · intro hstep b hb
    exact hwaits hstep b (hb.of_eq hpool hview)

theorem takeMessage (msg : Message) :
    LeaderInv P me (Urd.takeMessage P me msg s).2 := by
  have hquiet : Quiet (fun _ _ => True) s (Urd.takeMessage P me msg s).2 :=
    Quiet.takeMessage (fun _ _ _ _ => trivial) s
  have hown : KeepsOwn me s (Urd.takeMessage P me msg s).2 := KeepsOwn.takeMessage msg s
  refine h.of_kept hquiet.blockPool (congrArg Progress.view hquiet.progress)
    (KeepsVotes.takeMessage msg s) (hquiet.step ▸ h.role) (fun hinit => hquiet.step ▸ hinit) ?_
  intro hstep b hb
  obtain ⟨hfinished, hlast⟩ := h.waits (hquiet.step ▸ hstep) b hb
  obtain ⟨hfinished', hlast'⟩ := hown hfinished
  rw [hfinished', hlast']
  exact ⟨hfinished, hlast⟩

/-- In a view that has been entered without a block, there is nothing to talk about. -/
theorem entered (hstep : s'.step = s.step)
    (hpool : s'.blockPool = s.blockPool) (hview : s'.view = s.view + 1) : LeaderInv P me s' := by
  have hnone (b : Block) : ¬ s'.CurrentBlock b := by
    intro hb
    have hle := h.views b (hpool ▸ State.mem_of_fetchBlock hb.1)
    have hcurrent := hb.2
    rw [hview] at hcurrent
    push_cast at hcurrent
    omega
  refine ⟨hstep ▸ h.role, ?_, ?_, fun b hb => absurd hb (hnone b),
    fun _ b hb => absurd hb (hnone b)⟩
  · rw [hstep, hpool]
    exact h.unstarted
  · intro b hb
    have hle := h.views b (hpool ▸ hb)
    rw [hview]
    push_cast
    omega

theorem proposed (hb : newBlock P me inp s = some b)
    (hvote : countOwnVote P me index b = .ok hdp) :
    LeaderInv P me
      { ({ blockStored P me index s b with heightDatas := some hdp }).appendBlock b with
        step := .leaderVote } := by
  have hview := (newBlock_slot hb).1
  refine ⟨nofun, nofun, ?_, ?_, nofun⟩
  · intro b' hb'
    show b'.view ≤ ((s.view + 1 : ℕ) : ℤ)
    rcases State.mem_appendBlock hb' with hold | rfl
    · have hle := h.views b' hold
      push_cast
      omega
    · rw [hview]
      push_cast
      omega
  · intro b' hb'
    obtain rfl : b = b' := Option.some.inj ((State.fetchBlock_appendBlock _ b).symm.trans hb'.1)
    exact votesOn_countOwnVote hvote rfl

end

/-- A leader that has collected votes waits only if it has talked. -/
theorem talk (hp : isProposer P me index = true) (h : LeaderInv P me s)
    (hstep : s.step = .leaderVote) (hhdp : s.heightDatas = some hdp) (hq : isQuorum hdp = true)
    (htake : takeStep P me index inp s =
      (crossShardCommunicate P me inp >>= fun _ => pure true : Act α Bool) s) :
    LeaderInv P me (Urd.handleStateTransition P me index inp s).2 := by
  have hquiet : Quiet (fun _ _ => True) s (crossShardCommunicate P me inp s).2 :=
    Quiet.crossShardCommunicate inp s
  have hvotes : KeepsVotes s (crossShardCommunicate P me inp s).2 :=
    KeepsVotes.crossShardCommunicate inp s
  have hkept : QuorumKept s (crossShardCommunicate P me inp s).2 :=
    QuorumKept.crossShardCommunicate inp s
  have hview := congrArg Progress.view hquiet.progress
  cases hrun : crossShardCommunicate P me inp s with
  | mk r s₁ =>
    rw [hrun] at hquiet hvotes hkept hview
    rcases r with e | u
    · -- the leader goes on collecting votes
      rw [run_bind_error hrun] at htake
      rw [handleStateTransition_idle (by rw [htake]; exact nofun), htake]
      have hvote : s₁.step = .leaderVote := hquiet.step.trans hstep
      refine h.of_kept hquiet.blockPool hview hvotes ?_ ?_ ?_
      all_goals
        rw [hvote]
        exact nofun
    · rw [run_bind_ok hrun] at htake
      obtain ⟨hdp', hhdp', hq'⟩ := hkept hdp hhdp hq
      obtain ⟨r, hround, -⟩ := handleStateTransition_taken hp htake hhdp'
      rw [hround, hq']
      refine h.of_kept hquiet.blockPool hview hvotes nofun nofun fun _ b hb => ?_
      have hdone := (h.votes b hb).crossShardCommunicate hrun
      exact hdone

/-- A leader that has proposed collects votes: its own is not enough to wait. -/
theorem propose (hp : isProposer P me index = true) (hshort : OwnVoteShort P me index)
    (h : LeaderInv P me s) (htake : takeStep P me index inp s =
      (doPropose P me index inp >>= fun _ => pure true : Act α Bool) s) :
    LeaderInv P me (Urd.handleStateTransition P me index inp s).2 := by
  have houtcome := proposes P me index inp s
  cases hrun : doPropose P me index inp s with
  | mk r s₁ =>
    rw [hrun] at houtcome
    cases houtcome with
    | noBlock _ | slotTaken _ _ | voteRefused _ _ _ =>
      rw [run_bind_error hrun] at htake
      rw [handleStateTransition_idle (by rw [htake]; exact nofun), htake]
      exact h.entered rfl rfl rfl
    | done hb _ hvote =>
      rw [run_bind_ok hrun] at htake
      obtain ⟨r, hround, -⟩ := handleStateTransition_taken hp htake rfl
      rw [hround, isQuorum_countOwnVote hshort hvote]
      exact h.proposed hb hvote

/-- Before the start there is no block, and so none to talk about. -/
theorem begin (h : LeaderInv P me s) (hstep : s.step = .init) {step : Step}
    (hrole : step ≠ .validatorWait) : LeaderInv P me { s with step } := by
  have hnil := h.unstarted hstep
  have hnone (b : Block) : ¬ ({ s with step } : State α).CurrentBlock b := by
    intro hb
    have hmem : b ∈ s.blockPool := State.mem_of_fetchBlock hb.1
    rw [hnil] at hmem
    cases hmem
  exact ⟨hrole, fun _ => hnil, h.views, fun b hb => absurd hb (hnone b),
    fun _ b hb => absurd hb (hnone b)⟩

section

variable (hp : isProposer P me index = true) (hshort : OwnVoteShort P me index)

include hp hshort

/-- **A round.** The leader waits after it has talked, or because its proposal has failed. -/
theorem handleStateTransition (h : LeaderInv P me s) (inp : Input) :
    LeaderInv P me (Urd.handleStateTransition P me index inp s).2 := by
  cases hstep : s.step with
  | validatorWait => exact absurd hstep h.role
  | init =>
    cases hhdp : s.heightDatas with
    | none =>
      rw [handleStateTransition_unset hp hstep hhdp]
      exact h
    | some hdp =>
      obtain ⟨r, hround, -⟩ := handleStateTransition_taken hp (takeStep_init hstep inp) hhdp
      rw [hround]
      refine h.begin hstep ?_
      split_ifs <;> exact nofun
  | leaderVote =>
    cases hhdp : s.heightDatas with
    | none =>
      have htake := takeStep_leaderVote_none P me index hstep inp hhdp
      rw [handleStateTransition_idle (by rw [htake]; exact nofun), htake]
      exact h
    | some hdp =>
      have htake := takeStep_leaderVote P me index hstep inp hhdp
      split_ifs at htake with hq
      · exact h.talk hp hstep hhdp hq htake
      · rw [handleStateTransition_idle (by rw [htake]; exact nofun), htake]
        exact h
  | leaderWait =>
    have htake := takeStep_leaderWait P me index hstep inp
    split_ifs at htake with hcomplete
    · exact h.propose hp hshort htake
    · rw [handleStateTransition_idle (by rw [htake]; exact nofun), htake]
      exact h

theorem start (h : LeaderInv P me s) (inp : Input) : LeaderInv P me (Urd.start P me index inp s).2 := by
  unfold Urd.start
  rw [run_bind_ok (run_get s)]
  split_ifs with hview
  · have houtcome := proposes P me index inp s
    cases hrun : doPropose P me index inp s with
    | mk r s₁ =>
      rw [hrun] at houtcome
      cases houtcome with
      | noBlock _ | slotTaken _ _ | voteRefused _ _ _ =>
        rw [run_bind_ok (run_attempt _ s), hrun]
        exact h.entered rfl rfl rfl
      | done hb _ hvote =>
        rw [run_bind_ok (run_attempt _ s), hrun]
        exact h.proposed hb hvote
  · exact h.handleStateTransition hp hshort inp

theorem act (h : LeaderInv P me s) (e : NodeEvent) : LeaderInv P me (e.act P me index s).2 := by
  cases e with
  | start inp => exact h.start hp hshort inp
  | resume inp => exact h.handleStateTransition hp hshort inp
  | receive msg inp =>
    rcases receive_cases P me index msg inp s with ⟨e, he⟩ | ⟨-, hok⟩
    · show LeaderInv P me (receive P me index msg inp s).2
      rw [he]
      exact h.takeMessage msg
    · show LeaderInv P me (receive P me index msg inp s).2
      rw [hok]
      exact (h.takeMessage msg).handleStateTransition hp hshort inp

/-- **A run.** The invariant holds of a leader whatever it is sent, and in whatever order. -/
theorem run {app : α}
    {es : List NodeEvent} {n : Node α}
    (hrun : Emulator.run (nodeStep P me index) (newNode app) es = some n) :
    LeaderInv P me n.state := by
  refine run_invariant (I := fun n => LeaderInv P me n.state) (fun n e n' h hstep => ?_)
    (leaderInv_newState app) hrun
  obtain ⟨-, rfl⟩ := nodeStep_eq_some.mp hstep
  exact { h.act hp hshort e with }

end

end LeaderInv

end

/-! ## Waiting and talking -/

/-- **Leaders that wait.** Whatever a leader is sent, and in whatever order: as long as its own vote
is not a quorum, it waits after `CrossShardCommunicate` for the current view if and only if it has
appended a block in that view. -/
theorem communicated_iff (P : Network α) (me : Str) (index : ℕ) (app : α) (es : List NodeEvent)
    (n : Node α) (hp : isProposer P me index = true) (hshort : OwnVoteShort P me index)
    (hrun : run (nodeStep P me index) (newNode app) es = some n)
    (hstep : n.state.step = .leaderWait) :
    Communicated P me n.state ↔ ∃ b, n.state.CurrentBlock b := by
  constructor
  · intro hdone
    obtain ⟨b, hb, -⟩ := hdone.lastHash
    exact ⟨b, hb⟩
  · intro ⟨b, hb⟩
    obtain ⟨hfinished, hlast⟩ := (LeaderInv.run hp hshort hrun).waits hstep b hb
    exact ⟨hfinished, b, hb, hlast⟩

/-- The leader proposes its first block and takes the vote of another validator for it. -/
def votedRun (weights : List ℕ) : List NodeEvent :=
  [.start soloInput, .receive (.vote (voteForFirst weights 1)) soloInput]

/-- Two validators of four make a quorum: the leader talks, and waits for the other shards. -/
theorem communicated_votedRun :
    ∃ n, run (nodeStep (soloNetwork [1, 1, 1, 1]) [65] 0) (newNode 0) (votedRun [1, 1, 1, 1]) =
        some n ∧
      n.state.step = .leaderWait ∧ Communicated (soloNetwork [1, 1, 1, 1]) [65] n.state := by
  obtain ⟨n, hrun, hn⟩ := Option.map_eq_some_iff.mp
    (show (run (nodeStep (soloNetwork [1, 1, 1, 1]) [65] 0) (newNode 0)
          (votedRun [1, 1, 1, 1])).map
        (fun n => (n.state.step, n.state.view, (n.state.fetchBlock 1).map fun b => b.view)) =
        some (.leaderWait, 1, some 1) by decide +kernel)
  simp only [Prod.mk.injEq] at hn
  obtain ⟨hstep, hview, hfetch⟩ := hn
  obtain ⟨b, hb, hbview⟩ := Option.map_eq_some_iff.mp hfetch
  have hcurrent : n.state.CurrentBlock b := by
    refine ⟨hb, ?_⟩
    rw [hbview, hview]
    rfl
  exact ⟨n, hrun, hstep, (communicated_iff _ _ _ _ _ n (by decide) (by decide) hrun hstep).mpr
    ⟨b, hcurrent⟩⟩

theorem not_communicated_of_finished (h : s.blockData.finished me = none) :
    ¬ Communicated P me s := by
  intro hdone
  have hfinished := hdone.finished
  rw [h] at hfinished
  cases hfinished

/-- Leaders that wait in view 2 and have not talked in it. The first has a block there, and four of
seven votes of its own; the second has one vote of four, and no block, since another validator has
taken the slot. -/
theorem not_communicated_resumed :
    (∃ n, run (nodeStep (soloNetwork [4, 1, 1, 1]) [65] 0) (newNode 0)
          (votedRun [4, 1, 1, 1] ++ [.resume soloInput]) = some n ∧
        n.ended = false ∧ n.state.step = .leaderWait ∧ (∃ b, n.state.CurrentBlock b) ∧
        ¬ Communicated (soloNetwork [4, 1, 1, 1]) [65] n.state) ∧
      ∃ n, run (nodeStep (soloNetwork [1, 1, 1, 1]) [65] 0) (newNode 0)
          (takenRun ++ [.resume soloInput]) = some n ∧
        n.ended = false ∧ n.state.step = .leaderWait ∧
        OwnVoteShort (soloNetwork [1, 1, 1, 1]) [65] 0 ∧
        ¬ Communicated (soloNetwork [1, 1, 1, 1]) [65] n.state := by
  constructor
  · obtain ⟨n, hrun, hn⟩ := Option.map_eq_some_iff.mp
      (show (run (nodeStep (soloNetwork [4, 1, 1, 1]) [65] 0) (newNode 0)
            (votedRun [4, 1, 1, 1] ++ [.resume soloInput])).map
          (fun n => (n.ended, n.state.step, n.state.view,
            (n.state.fetchBlock 1).map fun b => b.view,
            (n.state.blockData.finished [65]).isNone)) =
          some (false, .leaderWait, 2, some 2, true) by decide +kernel)
    simp only [Prod.mk.injEq, Option.isNone_iff_eq_none] at hn
    obtain ⟨hended, hstep, hview, hfetch, hfinished⟩ := hn
    obtain ⟨b, hb, hbview⟩ := Option.map_eq_some_iff.mp hfetch
    refine ⟨n, hrun, hended, hstep, ⟨b, hb, ?_⟩, not_communicated_of_finished hfinished⟩
    rw [hbview, hview]
    rfl
  · obtain ⟨n, hrun, hn⟩ := Option.map_eq_some_iff.mp
      (show (run (nodeStep (soloNetwork [1, 1, 1, 1]) [65] 0) (newNode 0)
            (takenRun ++ [.resume soloInput])).map
          (fun n => (n.ended, n.state.step, (n.state.blockData.finished [65]).isNone)) =
          some (false, .leaderWait, true) by decide +kernel)
    simp only [Prod.mk.injEq, Option.isNone_iff_eq_none] at hn
    obtain ⟨hended, hstep, hfinished⟩ := hn
    exact ⟨n, hrun, hended, hstep, by decide,
      not_communicated_of_finished hfinished⟩

end Emulator.Urd
