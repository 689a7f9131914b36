import Emulator.Urd.BlockHash
import Emulator.Urd.Node

/-!
# The calls of `handle_state_transition`

A message that is taken triggers a call, which calls itself after every step it could take. A leader
gets to a later view, or from waiting for votes to waiting for messages; it stops after `lastView`.
A validator gets to the next view with every block it accepts, and it has only finitely many parts.
But a block that `verify_block` refuses changes nothing, and the same call follows.

* `terminates_iff` — the calls come to an end exactly if no block is refused on the way.
-/

namespace Emulator.Urd

open Emulator.Action HotStuff

variable {α : Type} {s s' : State α}

/-! ## Rounds of a validator -/

section

variable {P : Network α} {me : Str} {index : ℕ} {s : State α}

/-- The block of the view is there, and `verify_block` refuses it. -/
def Rejects (P : Network α) (s : State α) : Prop :=
  s.step = .validatorWait ∧ ∃ b e, s.blockData.getBlock P.lib s.view s.round = .ok b ∧
    verifyBlock P s b = .error e ∧ e ≠ .panic

/-- What a round of a validator returns. -/
def validatorResult (P : Network α) (s : State α) : Except Fault Bool :=
  if s.step = .init then .ok true
  else if s.blockData.isComplete s.view s.round then
    (s.blockData.getBlock P.lib s.view s.round).bind fun b =>
      if verifyBlock P s b = .error .panic then .error .panic else .ok true
  else .ok false

/-- What a round of a validator does. -/
inductive ValidatorRound (P : Network α) (s : State α) : State α → Prop
  /-- the step of a node that has not started -/
  | begin (hstep : s.step = .init) : ValidatorRound P s { s with step := .validatorWait }
  /-- it returns -/
  | stay (hstep : s.step = .validatorWait) (hresult : validatorResult P s ≠ .ok true) :
      ValidatorRound P s s
  | reject (h : Rejects P s) (vote : Vote) :
      ValidatorRound P s { s with log := { s.log with votes := s.log.votes ++ [vote] } }
  | accept (hstep : s.step = .validatorWait) {b : Block} {s' : State α}
      (hblock : s.blockData.getBlock P.lib s.view s.round = .ok b) (hview : s'.view = s.view + 1)
      (hstep' : s'.step = .validatorWait) (hdatas : s'.heightDatas.isSome)
      (hbd : s'.blockData = s.blockData.next (s.view + 1) 0) : ValidatorRound P s s'

/-- After a step that has been taken a validator waits for the next block. -/
theorem handleStateTransition_of_takeStep (hp : isProposer P me index = false) {inp : Input}
    (h : takeStep P me index inp s = (.ok true, s')) :
    handleStateTransition P me index inp s = (.ok true, { s' with step := .validatorWait }) := by
  have hnext : nextStep P me index s' = (.ok .validatorWait, s') := by
    rw [nextStep, hp]
    rfl
  unfold handleStateTransition
  rw [run_bind_ok h]
  simp only [if_true]
  rw [run_bind_ok hnext, run_bind_ok (run_modify _ s'), run_bind_ok (run_get _), hp]
  rfl

theorem step_eta {step : Step} (h : s.step = step) : { s with step } = s := by
  subst h
  rfl

theorem takeStep_validator (P : Network α) (me : Str) (index : ℕ) (hstep : s.step = .validatorWait)
    (inp : Input) {b : Block} (hblock : s.blockData.getBlock P.lib s.view s.round = .ok b) :
    takeStep P me index inp s = (do
      doValidate P me index b
      pure true) s := by
  unfold takeStep
  rw [run_bind_ok (run_get s), hstep]
  simp only [isComplete_of_getBlock hblock, if_true, hblock]

theorem takeStep_noBlock (P : Network α) (me : Str) (index : ℕ) (hstep : s.step = .validatorWait)
    (inp : Input) {e : Fault} (hblock : s.blockData.getBlock P.lib s.view s.round = .error e) :
    takeStep P me index inp s = (validatorResult P s, s) ∧ validatorResult P s ≠ .ok true := by
  have hinit : ¬s.step = .init := by simp [hstep]
  unfold takeStep
  rw [run_bind_ok (run_get s), validatorResult, if_neg hinit, hblock, hstep]
  cases s.blockData.isComplete s.view s.round with
  | true => exact ⟨rfl, nofun⟩
  | false => exact ⟨rfl, nofun⟩

theorem validatorResult_of_block (hstep : s.step = .validatorWait) {b : Block}
    (hblock : s.blockData.getBlock P.lib s.view s.round = .ok b) :
    validatorResult P s =
      if verifyBlock P s b = .error .panic then .error .panic else .ok true := by
  rw [validatorResult, if_neg (by simp [hstep]), if_pos (isComplete_of_getBlock hblock), hblock]
  rfl

theorem validatorRound (hp : isProposer P me index = false)
    (hstep : s.step = .init ∨ s.step = .validatorWait) (inp : Input) :
    (handleStateTransition P me index inp s).1 = validatorResult P s ∧
      ValidatorRound P s (handleStateTransition P me index inp s).2 := by
  rcases hstep with hstep | hstep
  · rw [handleStateTransition_of_takeStep hp (takeStep_init hstep inp), validatorResult, if_pos hstep]
    exact ⟨rfl, .begin hstep⟩
  cases hblock : s.blockData.getBlock P.lib s.view s.round with
  | ok b =>
    have hresult := validatorResult_of_block hstep hblock
    have htake := takeStep_validator P me index hstep inp hblock
    have hrun := validates P me index s b
    cases hval : doValidate P me index b s with
    | mk r s₁ =>
      rw [hval] at hrun
      cases hrun with
      | panicked hverify =>
        rw [run_bind_error hval] at htake
        rw [hverify, if_pos rfl] at hresult
        rw [handleStateTransition_idle (by rw [htake]; exact nofun), htake, hresult]
        exact ⟨rfl, .stay hstep (by rw [hresult]; exact nofun)⟩
      | @refused e hverify he =>
        rw [run_bind_ok hval] at htake
        rw [hverify, if_neg (by simpa using he)] at hresult
        rw [handleStateTransition_of_takeStep hp htake, hresult,
          step_eta (s := voted P me index s b false) hstep]
        exact ⟨rfl, .reject ⟨hstep, b, e, hblock, hverify, he⟩ _⟩
      | accepted hverify =>
        rw [run_bind_ok hval] at htake
        rw [hverify, if_neg nofun] at hresult
        rw [handleStateTransition_of_takeStep hp htake, hresult]
        exact ⟨rfl, .accept hstep hblock rfl rfl rfl rfl⟩
  | error e =>
    obtain ⟨htake, hne⟩ := takeStep_noBlock P me index hstep inp hblock
    rw [handleStateTransition_idle (by rw [htake]; exact hne), htake]
    exact ⟨rfl, .stay hstep hne⟩

end

/-! ## Rounds of a leader -/

/-- View and step have not changed, and vote data that is there stays. -/
structure Steady (s s' : State α) : Prop where
  view : s'.view = s.view
  step : s'.step = s.step
  heightDatas : s.heightDatas.isSome → s'.heightDatas.isSome

namespace Steady

variable {P : Network α} {me : Str} {index : ℕ}

theorem refl (s : State α) : Steady s s := ⟨rfl, rfl, id⟩

theorem countVote (vote : Vote) : Keeps Steady (Urd.countVote P vote) := by
  refine Keeps.get_bind fun s => Keeps.orThrow_bind refl (fun hdp _ => ?_) s
  cases addVote P.bls P.lib.vote hdp vote with
  | ok hdp' => exact Keeps.modify fun _ => ⟨rfl, rfl, fun _ => rfl⟩
  | error e => cases e <;> exact Keeps.of_eq refl fun _ => rfl

theorem onBlockData {β : Type} (x : Action Fault BlockData β) :
    Keeps (Steady : State α → State α → Prop) (Urd.onBlockData x) := fun _ => ⟨rfl, rfl, id⟩

end Steady

/-- A quorum of votes stays one. -/
def QuorumKept (s s' : State α) : Prop :=
  ∀ hdp, s.heightDatas = some hdp → isQuorum hdp = true →
    ∃ hdp', s'.heightDatas = some hdp' ∧ isQuorum hdp' = true

namespace QuorumKept

variable {P : Network α} {me : Str}

theorem of_eq (h : s'.heightDatas = s.heightDatas) : QuorumKept s s' :=
  fun hdp hs hq => ⟨hdp, h.trans hs, hq⟩

/-- Only the aggregated vote is new. -/
theorem of_getMaj23 {hdp hdp' : HeightDataPackage} {sig : AggregatedVote}
    (hhdp : s.heightDatas = some hdp) (hmaj : getMaj23 P.bls hdp = some (sig, hdp'))
    (h : s'.heightDatas = some hdp') : QuorumKept s s' := by
  intro hdp₀ hs₀ hq
  obtain rfl := Option.some.inj (hhdp.symm.trans hs₀)
  obtain ⟨rfl, -⟩ := getMaj23_cases hmaj
  exact ⟨_, h, hq⟩

theorem crossShardCommunicate (inp : Input) :
    Keeps QuorumKept (Urd.crossShardCommunicate P me inp) := by
  intro s
  have hrun := talks P me inp s
  generalize Urd.crossShardCommunicate P me inp s = r at hrun
  cases hrun with
  | failed => exact of_eq rfl
  | stuck hhdp hmaj | talked hhdp hmaj => exact of_getMaj23 hhdp hmaj rfl

end QuorumKept

section

variable {P : Network α} {me : Str} {index : ℕ} {s : State α}

/-- A later view, or from waiting for votes to waiting for messages. -/
def Progresses (s s' : State α) : Prop :=
  s.view < s'.view ∨ s.step = .leaderVote ∧ s'.step = .leaderWait

def Step.leads : Step → Bool
  | .leaderVote => true
  | .leaderWait => true
  | _ => false

theorem Step.ne_of_leads {step : Step} (h : step.leads = true) :
    step ≠ .init ∧ step ≠ .validatorWait := by
  cases step with
  | init | validatorWait => cases h
  | leaderVote | leaderWait => exact ⟨nofun, nofun⟩

/-- What the step of a round leaves of the vote data of a leader. -/
theorem takeStep_leader (P : Network α) (me : Str) (index : ℕ) (hstep : s.step.leads = true)
    (hsome : s.heightDatas.isSome) (inp : Input) :
    (takeStep P me index inp s).2.step = s.step ∧
      s.view ≤ (takeStep P me index inp s).2.view ∧
      ∃ hdp, (takeStep P me index inp s).2.heightDatas = some hdp ∧
        ((takeStep P me index inp s).1 = .ok true →
          s.view < (takeStep P me index inp s).2.view ∨ s.step = .leaderVote ∧ isQuorum hdp = true) := by
  obtain ⟨hdp, hhdp⟩ := Option.isSome_iff_exists.mp hsome
  obtain ⟨hinit, hwait⟩ := Step.ne_of_leads hstep
  cases hs : s.step with
  | init => exact absurd hs hinit
  | validatorWait => exact absurd hs hwait
  | leaderWait =>
    rw [takeStep_leaderWait P me index hs inp]
    split_ifs with hcomplete
    · obtain ⟨hview, hstep', hsome'⟩ := doPropose_snd P me index inp s
      obtain ⟨hdp', hhdp'⟩ := Option.isSome_iff_exists.mp hsome'
      rw [snd_bind_pure]
      exact ⟨hstep'.trans hs, by omega, hdp', hhdp', fun _ => .inl (by omega)⟩
    · exact ⟨hs, le_rfl, hdp, hhdp, nofun⟩
  | leaderVote =>
    rw [takeStep_leaderVote P me index hs inp hhdp]
    split_ifs with hq
    · rw [snd_bind_pure]
      have hquiet : Quiet (fun _ _ => True) s (crossShardCommunicate P me inp s).2 :=
        Quiet.crossShardCommunicate inp s
      have hkept : QuorumKept s (crossShardCommunicate P me inp s).2 :=
        QuorumKept.crossShardCommunicate inp s
      obtain ⟨hdp', hhdp', hq'⟩ := hkept hdp hhdp hq
      have hview : (crossShardCommunicate P me inp s).2.view = s.view :=
        congrArg Progress.view hquiet.progress
      exact ⟨hquiet.step.trans hs, hview.ge, hdp', hhdp', fun _ => .inr ⟨rfl, hq'⟩⟩
    · exact ⟨hs, le_rfl, hdp, hhdp, nofun⟩

theorem leaderRound (hp : isProposer P me index = true) (hstep : s.step.leads = true)
    (hsome : s.heightDatas.isSome) (inp : Input) :
    (handleStateTransition P me index inp s).2.step.leads = true ∧
      (handleStateTransition P me index inp s).2.heightDatas.isSome ∧
      ((handleStateTransition P me index inp s).1 = .ok true →
        s.view ≤ (handleStateTransition P me index inp s).2.view ∧
        Progresses s (handleStateTransition P me index inp s).2 ∧
        (handleStateTransition P me index inp s).2.view ≤ lastView P me) := by
  obtain ⟨hstep₁, hle, hdp, hhdp, hok⟩ := takeStep_leader P me index hstep hsome inp
  by_cases htrue : (takeStep P me index inp s).1 = .ok true
  · obtain ⟨r, hround, hlast⟩ := handleStateTransition_taken hp (Prod.ext htrue rfl) hhdp
    rw [hround]
    refine ⟨?_, Option.isSome_iff_exists.mpr ⟨hdp, hhdp⟩, fun hr => ⟨hle, ?_, hlast hr⟩⟩
    · show (if isQuorum hdp then Step.leaderWait else .leaderVote).leads = true
      split_ifs <;> rfl
    · rcases hok htrue with hlt | ⟨hvote, hq⟩
      · exact .inl hlt
      · exact .inr ⟨hvote, if_pos hq⟩
  · rw [handleStateTransition_idle htrue]
    exact ⟨by rw [hstep₁, hstep], Option.isSome_iff_exists.mpr ⟨hdp, hhdp⟩,
      fun h => absurd h htrue⟩

end

/-! ## Between the calls -/

section

variable {P : Network α} {me : Str} {index : ℕ} {s : State α} {N : ℕ} {s' : State α} {n : Node α}
  {inp : Input}

/-- The step suits the role of the node, and it has vote data once it has entered a view. -/
structure InRole (P : Network α) (me : Str) (index : ℕ) (s : State α) : Prop where
  validator : s.step = .validatorWait → isProposer P me index = false
  leader : s.step.leads = true → isProposer P me index = true ∧ s.heightDatas.isSome
  unset : s.step = .init → s.heightDatas = none
  view : s.heightDatas = none → s.view = 0

theorem InRole.step_validator (h : InRole P me index s) (hp : isProposer P me index = false) :
    s.step = .init ∨ s.step = .validatorWait := by
  cases hs : s.step with
  | init => exact .inl rfl
  | validatorWait => exact .inr rfl
  | leaderVote => exact absurd (h.leader (by rw [hs]; rfl)).1 (by simp [hp])
  | leaderWait => exact absurd (h.leader (by rw [hs]; rfl)).1 (by simp [hp])

theorem InRole.step_leader (h : InRole P me index s) (hp : isProposer P me index = true) :
    s.step = .init ∨ s.step.leads = true := by
  cases hs : s.step with
  | init => exact .inl rfl
  | validatorWait => exact absurd (h.validator hs) (by simp [hp])
  | leaderVote => exact .inr rfl
  | leaderWait => exact .inr rfl

/-- A round that does not panic leaves the first step behind. -/
theorem InRole.handleStateTransition (h : InRole P me index s) (inp : Input)
    (hne : (handleStateTransition P me index inp s).1 ≠ .error .panic) :
    InRole P me index (handleStateTransition P me index inp s).2 ∧
      (Urd.handleStateTransition P me index inp s).2.step ≠ .init := by
  cases hp : isProposer P me index with
  | true =>
    rcases h.step_leader hp with hs | hs
    · rw [handleStateTransition_unset hp hs (h.unset hs)] at hne
      exact absurd rfl hne
    · obtain ⟨hleads, hsome, -⟩ := leaderRound hp hs (h.leader hs).2 inp
      generalize (Urd.handleStateTransition P me index inp s).2 = s' at hleads hsome
      obtain ⟨hinit, hwait⟩ := Step.ne_of_leads hleads
      refine ⟨⟨fun hs' => absurd hs' hwait, fun _ => ⟨hp, hsome⟩, fun hs' => absurd hs' hinit,
        fun hnone => ?_⟩, hinit⟩
      rw [hnone] at hsome
      cases hsome
  | false =>
    have hround := (validatorRound hp (h.step_validator hp) inp).2
    have hwait {s' : State α} (hs' : s'.step = .validatorWait)
        (hview : s'.heightDatas = none → s'.view = 0) :
        InRole P me index s' ∧ s'.step ≠ .init := by
      have hinit : s'.step ≠ .init := by simp [hs']
      exact ⟨⟨fun _ => hp, fun hleads => absurd hs' (Step.ne_of_leads hleads).2,
        fun h => absurd h hinit, hview⟩, hinit⟩
    generalize (Urd.handleStateTransition P me index inp s).2 = s' at hround
    cases hround with
    | begin _ => exact hwait rfl h.view
    | stay hstep _ => exact hwait hstep h.view
    | reject hreject _ => exact hwait hreject.1 h.view
    | accept _ _ _ hstep' hdatas _ =>
      refine hwait hstep' fun hnone => ?_
      rw [hnone] at hdatas
      cases hdatas

theorem steady_takeMessage (msg : Message) : Keeps Steady (takeMessage P me msg) := by
  apply keeps_takeMessage Steady.refl
  · exact fun p _ => Steady.onBlockData _
  · exact fun p _ _ _ => Steady.onBlockData _
  · intro m _ s
    obtain ⟨store, finished, lastHash, h⟩ := exists_snd_addCrossShardMessage P m s
    rw [h]
    exact ⟨rfl, rfl, id⟩
  · exact fun v _ => Steady.countVote v

theorem unset_takeMessage (P : Network α) (me : Str) (msg : Message) :
    Keeps (fun s s' => s.heightDatas = none → s'.heightDatas = none) (takeMessage P me msg) := by
  refine keeps_takeMessage (fun _ => id) ?_ ?_ ?_ ?_
  · exact fun p _ s => id
  · exact fun p _ _ _ s => id
  · intro m _ s hs
    obtain ⟨store, finished, lastHash, h⟩ := exists_snd_addCrossShardMessage P m s
    rw [h]
    exact hs
  · intro v _ s hs
    rw [countVote, run_bind_ok (run_get s), hs]
    exact hs

theorem InRole.takeMessage (h : InRole P me index s) (msg : Message) :
    InRole P me index (takeMessage P me msg s).2 := by
  have hsteady : Steady s (Urd.takeMessage P me msg s).2 := steady_takeMessage msg s
  have hunset := unset_takeMessage P me msg s
  refine ⟨fun hs => h.validator (hsteady.step ▸ hs), fun hs => ?_, fun hs => ?_, fun hnone => ?_⟩
  · obtain ⟨hp, hsome⟩ := h.leader (hsteady.step ▸ hs)
    exact ⟨hp, hsteady.heightDatas hsome⟩
  · exact hunset (h.unset (hsteady.step ▸ hs))
  · rw [hsteady.view]
    refine h.view (Option.not_isSome_iff_eq_none.mp fun hsome => ?_)
    have hsome' := hsteady.heightDatas hsome
    rw [hnone] at hsome'
    cases hsome'

/-- What holds between the events as long as the process runs. -/
def NodeInRole (P : Network α) (me : Str) (index : ℕ) (n : Node α) : Prop :=
  n.ended = false → InRole P me index n.state ∧ (n.state.step = .init → n.state.handling = false)

theorem InRole.act (h : InRole P me index s) (e : NodeEvent)
    (hne : (e.act P me index s).1 ≠ .error .panic) :
    InRole P me index (e.act P me index s).2 ∧
      ((e.act P me index s).2.step = .init → (e.act P me index s).1 ≠ .ok true) := by
  have hround {inp : Input} {s' : State α} (h' : InRole P me index s')
      (hne' : (Urd.handleStateTransition P me index inp s').1 ≠ .error .panic) :
      InRole P me index (Urd.handleStateTransition P me index inp s').2 ∧
        ((Urd.handleStateTransition P me index inp s').2.step = .init →
          (Urd.handleStateTransition P me index inp s').1 ≠ .ok true) := by
    obtain ⟨hrole, hstep⟩ := h'.handleStateTransition inp hne'
    exact ⟨hrole, fun hinit => absurd hinit hstep⟩
  cases e with
  | resume inp => exact hround h hne
  | receive msg inp =>
    have hmsg := h.takeMessage msg
    simp only [NodeEvent.act] at hne ⊢
    rcases receive_cases P me index msg inp s with ⟨e, heq⟩ | ⟨-, heq⟩ <;> rw [heq] at hne ⊢
    · exact ⟨hmsg, fun _ => nofun⟩
    · exact hround hmsg hne
  | start inp =>
    simp only [NodeEvent.act, Urd.start] at hne ⊢
    rw [run_bind_ok (run_get s)] at hne ⊢
    split_ifs at hne ⊢ with hview hp
    · obtain ⟨-, -, hsome⟩ := doPropose_snd P me index inp s
      rw [run_bind_ok (run_attempt _ s)] at hne ⊢
      cases hres : (Urd.doPropose P me index inp s).1 with
      | error e =>
        rw [hres] at hne
        exact absurd rfl hne
      | ok u =>
        refine ⟨⟨nofun, fun _ => ⟨hp, hsome⟩, nofun, fun hnone => ?_⟩, nofun⟩
        have hnone' : (Urd.doPropose P me index inp s).2.heightDatas = none := hnone
        rw [hnone'] at hsome
        cases hsome
    · exact ⟨⟨fun _ => by simpa using hp, nofun, nofun, nofun⟩, nofun⟩
    · exact hround h hne

theorem NodeInRole.step {n' : Node α} {e : NodeEvent} (h : NodeInRole P me index n)
    (hn : nodeStep P me index n e = some n') : NodeInRole P me index n' := by
  obtain ⟨hcond, rfl⟩ := nodeStep_eq_some.mp hn
  intro hended
  have hne : (e.act P me index n.state).1 ≠ .error .panic := of_decide_eq_false hended
  obtain ⟨hrole, hinit⟩ := (h hcond.1).1.act e hne
  exact ⟨⟨hrole.validator, hrole.leader, hrole.unset, hrole.view⟩,
    fun hs => decide_eq_false (hinit hs)⟩

theorem nodeInRole_run {app : α} {es : List NodeEvent}
    (hrun : run (nodeStep P me index) (newNode app) es = some n) : NodeInRole P me index n :=
  run_invariant (fun _ _ _ h hstep => NodeInRole.step h hstep)
    (fun _ => ⟨⟨fun h => (by cases h), fun h => (by cases h), fun _ => rfl, fun _ => rfl⟩,
      fun _ => rfl⟩) hrun

/-! ## The chain of calls -/

/-- A call of `handle_state_transition` that goes on with the next one, in the state it has
reached. -/
def recurs (P : Network α) (me : Str) (index : ℕ) (s : State α) (inp : Input) : Option (State α) :=
  if (handleStateTransition P me index inp s).1 = .ok true then
    some (handleStateTransition P me index inp s).2
  else none

theorem recurs_eq_some :
    recurs P me index s inp = some s' ↔ handleStateTransition P me index inp s = (.ok true, s') := by
  unfold recurs
  rw [Option.ite_none_right_eq_some, Option.some_inj, Prod.ext_iff]

/-- No part set is for a later view than `N`. -/
def Buffered (N : ℕ) (bd : BlockData) : Prop := ∀ v r : ℤ, N < v → bd.blocks v r = none

theorem Buffered.next {bd : BlockData} (h : Buffered N bd) (view round : ℤ) :
    Buffered N (bd.next view round) := by
  intro v r hv
  simp only [BlockData.next]
  rw [h v r hv, ite_self]

/-- What the calls of a chain find. -/
structure Chained (P : Network α) (me : Str) (index : ℕ) (N : ℕ) (s : State α) : Prop where
  inRole : InRole P me index s
  buffered : isProposer P me index = false → Buffered N s.blockData

theorem Chained.recurs (h : Chained P me index N s) (hrec : recurs P me index s inp = some s') :
    Chained P me index N s' := by
  have heq := recurs_eq_some.mp hrec
  have hrole := (h.inRole.handleStateTransition inp (by rw [heq]; exact nofun)).1
  rw [heq] at hrole
  refine ⟨hrole, fun hp => ?_⟩
  have hround := (validatorRound hp (h.inRole.step_validator hp) inp).2
  rw [heq] at hround
  change ValidatorRound P s s' at hround
  cases hround with
  | begin => exact h.buffered hp
  | stay => exact h.buffered hp
  | reject => exact h.buffered hp
  | accept _ _ _ _ _ hbd =>
    rw [hbd]
    exact (h.buffered hp).next _ _

/-- What is left to do: the views that can be reached, and the step before the first. -/
def callsLeft (P : Network α) (me : Str) (N : ℕ) (s : State α) : ℕ :=
  2 * (N + 1 + lastView P me - s.view) + if s.step = .init ∨ s.step = .leaderVote then 1 else 0

/-- **A call gets on** unless it refuses a block: a validator has begun, or it has reached another
view, or a leader has its votes. -/
theorem Chained.progress (h : Chained P me index N s) (hreject : ¬Rejects P s)
    (hrec : Urd.recurs P me index s inp = some s') :
    callsLeft P me N s' < callsLeft P me N s ∧
      (Progresses s s' ∨ s.step = .init ∧ isProposer P me index = false) := by
  have heq := recurs_eq_some.mp hrec
  unfold callsLeft
  cases hp : isProposer P me index with
  | true =>
    rcases h.inRole.step_leader hp with hs | hs
    · rw [handleStateTransition_unset hp hs (h.inRole.unset hs)] at heq
      cases heq
    · obtain ⟨-, -, hok⟩ := leaderRound hp hs (h.inRole.leader hs).2 inp
      rw [heq] at hok
      obtain ⟨(hle : s.view ≤ s'.view), hprogress, (hlast : s'.view ≤ lastView P me)⟩ := hok rfl
      refine ⟨?_, .inl hprogress⟩
      rcases hprogress with (hlt : s.view < s'.view) | ⟨hvote, (hwait : s'.step = .leaderWait)⟩
      · split_ifs <;> omega
      · rw [if_neg (by simp [hwait]), if_pos (.inr hvote)]
        omega
  | false =>
    obtain ⟨hresult, hround⟩ := validatorRound hp (h.inRole.step_validator hp) inp
    rw [heq] at hresult hround
    change ValidatorRound P s s' at hround
    cases hround with
    | begin hstep =>
      refine ⟨?_, .inr ⟨hstep, rfl⟩⟩
      rw [if_neg (by simp), if_pos (.inl hstep)]
      exact Nat.lt_succ_self _
    | stay _ hne => exact absurd hresult.symm hne
    | reject hrej _ => exact absurd hrej hreject
    | accept hstep hblock hview hstep' _ _ =>
      obtain ⟨ps, hps, -⟩ := getBlock_eq_ok hblock
      have hle : s.view ≤ N := by
        by_contra hlt
        have hnone := h.buffered hp s.view s.round (by omega)
        rw [hnone] at hps
        cases hps
      refine ⟨?_, .inl (.inl (by omega))⟩
      rw [if_neg (by simp [hstep']), if_neg (by simp [hstep])]
      omega

theorem validatorResult_of_rejects (h : Rejects P s) : validatorResult P s = .ok true := by
  obtain ⟨hstep, b, e, hblock, hverify, he⟩ := h
  rw [validatorResult, if_neg (by simp [hstep]), if_pos (isComplete_of_getBlock hblock), hblock]
  show (if verifyBlock P s b = .error .panic then _ else _) = _
  rw [hverify, if_neg (by simpa using he)]

/-- A call that refuses a block is followed by one that refuses it again. -/
theorem recurs_of_rejects (hp : isProposer P me index = false) (h : Rejects P s) (inp : Input) :
    ∃ s', recurs P me index s inp = some s' ∧ Rejects P s' ∧ s'.view = s.view := by
  obtain ⟨hstep, b, e, hblock, hverify, he⟩ := h
  have htake := takeStep_validator P me index hstep inp hblock
  rw [run_bind_ok (run_doValidate_error index hverify he)] at htake
  exact ⟨_, recurs_eq_some.mpr (handleStateTransition_of_takeStep hp htake),
    ⟨rfl, b, e, hblock, hverify, he⟩, rfl⟩

/-- There are chains of every length once a block is refused. -/
theorem exists_run_of_rejects (hp : isProposer P me index = false) {inps : List Input}
    (hrun : run (recurs P me index) s inps = some s') (h : Rejects P s') (k : ℕ) :
    ∃ inps' : List Input, inps'.length = k ∧ run (recurs P me index) s inps' ≠ none := by
  refine exists_run_of_loop (I := Rejects P) (e := noInput) (fun t ht => ?_) hrun h k
  obtain ⟨t', hrec, hrej, -⟩ := recurs_of_rejects hp ht noInput
  exact ⟨t', hrec, hrej⟩

theorem Chained.run {inps : List Input} (h : Chained P me index N s)
    (hrun : Emulator.run (Urd.recurs P me index) s inps = some s') : Chained P me index N s' :=
  run_invariant (fun _ _ _ => Chained.recurs) h hrun

theorem Chained.finite_iff (h : Chained P me index N s) :
    (∃ k, ∀ inps : List Input, inps.length = k →
        Emulator.run (Urd.recurs P me index) s inps = none) ↔
      ∀ inps s', Emulator.run (Urd.recurs P me index) s inps = some s' → ¬Rejects P s' := by
  constructor
  · rintro ⟨k, hk⟩ inps s' hrun hrej
    have hp := (h.run hrun).inRole.validator hrej.1
    obtain ⟨inps', hlen, hne⟩ := exists_run_of_rejects hp hrun hrej k
    exact hne (hk inps' hlen)
  · intro hall
    refine ⟨callsLeft P me N s + 1, fun inps hlen => run_eq_none_of_measure (callsLeft P me N)
      (I := fun t => Chained P me index N t ∧ ∀ inps s',
        Emulator.run (Urd.recurs P me index) t inps = some s' → ¬Rejects P s') ?_ ⟨h, hall⟩
      (by omega)⟩
    rintro t inp t' ⟨ht, hnone⟩ hrec
    exact ⟨⟨ht.recurs hrec, fun inps s' hrun => hnone (inp :: inps) s' (run_cons.mpr ⟨t', hrec, hrun⟩)⟩,
      (ht.progress (hnone [] t rfl) hrec).1⟩

theorem Chained.progresses_iff (h : Chained P me index N s) :
    (∀ inps inp s' s'', Emulator.run (Urd.recurs P me index) s inps = some s' →
        Urd.recurs P me index s' inp = some s'' → Progresses s' s'') ↔
      ∀ inps s', Emulator.run (Urd.recurs P me index) s inps = some s' →
        ¬Rejects P s' ∧ (s'.step = .init → isProposer P me index = true) := by
  constructor
  · intro hall inps s' hrun
    have hrole := (h.run hrun).inRole
    refine ⟨fun hrej => ?_, fun hinit => ?_⟩
    · obtain ⟨s'', hrec, hrej', hview⟩ :=
        recurs_of_rejects (hrole.validator hrej.1) hrej noInput
      rcases hall inps noInput s' s'' hrun hrec with hlt | ⟨hvote, -⟩
      · omega
      · rw [hrej.1] at hvote
        cases hvote
    · by_contra hp
      have hrec : Urd.recurs P me index s' noInput = some { s' with step := .validatorWait } :=
        recurs_eq_some.mpr
          (handleStateTransition_of_takeStep (by simpa using hp) (takeStep_init hinit noInput))
      rcases hall inps noInput s' _ hrun hrec with hlt | ⟨hvote, -⟩
      · exact lt_irrefl _ hlt
      · rw [hinit] at hvote
        cases hvote
  · intro hall inps inp s' s'' hrun hrec
    obtain ⟨hrej, hinit⟩ := hall inps s' hrun
    rcases ((h.run hrun).progress hrej hrec).2 with hprogress | ⟨hs, hp⟩
    · exact hprogress
    · exact absurd (hinit hs) (by simp [hp])

/-- The height of a proposal that the node receives. -/
def NodeEvent.height : NodeEvent → ℕ
  | .receive (.proposal p) _ => p.header.height.toNat
  | _ => 0

/-- The part sets of a node are for heights that were proposed, by itself or to it. -/
theorem exists_buffered {app : α} {es : List NodeEvent}
    (hrun : run (nodeStep P me index) (newNode app) es = some n) (msg : Message) :
    ∃ N, Buffered N (takeMessage P me msg n.state).2.blockData := by
  let es' := es ++ [NodeEvent.receive msg noInput]
  let T : PartSetHeader → Bytes → Prop := fun header _ => ∃ e ∈ es', header.height ≤ e.height
  have hT {e : NodeEvent} {p : Proposal} (inp : Input) (he : e ∈ es')
      (heq : e = .receive (.proposal p) inp) : T p.header p.blockHeaderHash :=
    ⟨e, he, heq ▸ Int.self_le_toNat _⟩
  have hinv := run_invariant_along (P := fun _ e => e ∈ es)
    (I := fun n : Node α => NodeInv P me index T n.state)
    (fun n e n' hn he hstep =>
      (hn.step (fun p inp heq _ _ => hT inp (List.mem_append_left _ he) heq) hstep).inv)
    (nodeInv_newNode P me index _ app) (along_of_mem fun e he _ => he) hrun
  have hquiet : Quiet (Origin P.lib T n.state.log.made) n.state (takeMessage P me msg n.state).2 := by
    refine Quiet.takeMessage (fun p heq _ _ => .inr ?_) _
    exact hT noInput (List.mem_append_right _ List.mem_cons_self) (by rw [heq])
  have hslots := (hinv.of_quiet hquiet).slots
  rw [hquiet.made] at hslots
  refine ⟨(es'.map NodeEvent.height).sum + (n.state.log.made.map fun mk => mk.block.view.toNat).sum,
    fun v r hv => ?_⟩
  by_contra hne
  obtain ⟨ps, hps⟩ := Option.ne_none_iff_exists'.mp hne
  obtain ⟨hheight, -, ⟨mk, hmk, hheader, -⟩ | ⟨e, he, hle⟩⟩ := hslots v r ps hps
  · have hview : v = mk.block.view := by
      rw [← hheight, hheader]
      rfl
    have hle := List.le_sum_of_mem (List.mem_map_of_mem (f := fun mk => mk.block.view.toNat) hmk)
    have hself := Int.self_le_toNat mk.block.view
    omega
  · have hle' := List.le_sum_of_mem (List.mem_map_of_mem (f := NodeEvent.height) he)
    omega

/-- **When the calls come to an end.** After any run and any message that is taken, the chain of
calls is finite exactly when no call of it finds a block that `verify_block` refuses; and every call
is preceded by a later view or by the step of a leader from votes to messages exactly when,
moreover, no call is one of a validator that has not started. -/
theorem terminates_iff {app : α} {es : List NodeEvent} {n : Node α}
    (hrun : run (nodeStep P me index) (newNode app) es = some n) (hended : n.ended = false)
    {msg : Message} (hmsg : takeMessage P me msg n.state = (.ok (), s)) :
    ((∃ k, ∀ inps : List Input, inps.length = k → run (recurs P me index) s inps = none) ↔
      ∀ inps s', run (recurs P me index) s inps = some s' → ¬Rejects P s') ∧
    ((∀ inps inp s' s'', run (recurs P me index) s inps = some s' →
        recurs P me index s' inp = some s'' → Progresses s' s'') ↔
      ∀ inps s', run (recurs P me index) s inps = some s' →
        ¬Rejects P s' ∧ (s'.step = .init → isProposer P me index = true)) := by
  obtain ⟨N, hN⟩ := exists_buffered hrun msg
  have hrole := (nodeInRole_run hrun hended).1.takeMessage msg
  rw [hmsg] at hN hrole
  have hchained : Chained P me index N s := ⟨hrole, fun _ => hN⟩
  exact ⟨hchained.finite_iff, hchained.progresses_iff⟩

end

/-- A validator that has started takes the proposal of the first block and waits for its parts. -/
theorem terminates_proposal :
    ∃ n s, run (nodeStep pairNetwork [65] 1) (newNode 0) [.start noInput] = some n ∧
      takeMessage pairNetwork [65] (.proposal (proposalBy 0 (plainBlock 1 []))) n.state = (.ok (), s) ∧
      ∃ k, ∀ inps : List Input, inps.length = k → run (recurs pairNetwork [65] 1) s inps = none := by
  obtain ⟨n, hrun, hobs⟩ := Option.map_eq_some_iff.mp
    (show (run (nodeStep pairNetwork [65] 1) (newNode 0) [.start noInput]).map (fun n =>
      (n.ended, (takeMessage pairNetwork [65] (.proposal (proposalBy 0 (plainBlock 1 []))) n.state).1,
        (takeMessage pairNetwork [65] (.proposal (proposalBy 0 (plainBlock 1 []))) n.state).2.step,
        validatorResult pairNetwork
          (takeMessage pairNetwork [65] (.proposal (proposalBy 0 (plainBlock 1 []))) n.state).2)) =
      some (false, .ok (), .validatorWait, .ok false) by decide +kernel)
  cases hmsg : takeMessage pairNetwork [65] (.proposal (proposalBy 0 (plainBlock 1 []))) n.state with
  | mk r s =>
    rw [hmsg] at hobs
    simp only [Prod.mk.injEq] at hobs
    obtain ⟨hended, rfl, hstep, hresult⟩ := hobs
    refine ⟨n, s, hrun, hmsg, (terminates_iff hrun hended hmsg).1.mpr fun inps s' hchain hrej => ?_⟩
    cases inps with
    | nil =>
      obtain rfl := Option.some.inj hchain
      rw [validatorResult_of_rejects hrej] at hresult
      cases hresult
    | cons inp inps =>
      obtain ⟨s₁, hrec, -⟩ := run_cons.mp hchain
      have hround : (handleStateTransition pairNetwork [65] 1 inp s).1 = validatorResult pairNetwork s :=
        (validatorRound (by decide) (.inr hstep) inp).1
      rw [recurs_eq_some.mp hrec, hresult] at hround
      cases hround

/-- A block of view 5 with a vote on other blocks than the last two. -/
def refusedBlock : Block := { plainBlock 5 [] with aggSigVote := some (exampleVote [9]) }

/-- A validator gets four blocks and the proposal of the fifth. -/
def refusedRun : List NodeEvent :=
  .start noInput :: [1, 2, 3, 4].flatMap (fun view => delivery (plainBlock view [])) ++
    [.receive (.proposal (proposalBy 0 refusedBlock)) noInput]

/-- The last part of a block that is refused. -/
def refusedPart : Message :=
  .part ((partsOf (blockLib polyLib) refusedBlock 40960 0).headD ⟨[], 0, 0, [], exampleProof⟩)

/-- The part that completes the fifth block triggers calls without end. -/
theorem not_terminates_refusedBlock :
    ∃ n s, run (nodeStep pairNetwork [65] 1) (newNode 0) refusedRun = some n ∧ n.ended = false ∧
      takeMessage pairNetwork [65] refusedPart n.state = (.ok (), s) ∧ s.view = 5 ∧
      Rejects pairNetwork s ∧
      ∀ k, ∃ inps : List Input, inps.length = k ∧ run (recurs pairNetwork [65] 1) s inps ≠ none := by
  obtain ⟨n, hrun, hobs⟩ := Option.map_eq_some_iff.mp
    (show (run (nodeStep pairNetwork [65] 1) (newNode 0) refusedRun).map (fun n =>
      (n.ended, (takeMessage pairNetwork [65] refusedPart n.state).1,
        decide ((takeMessage pairNetwork [65] refusedPart n.state).2.step = .validatorWait ∧
          (takeMessage pairNetwork [65] refusedPart n.state).2.view = 5),
        ((takeMessage pairNetwork [65] refusedPart n.state).2.blockData.getBlock polyLib
          (takeMessage pairNetwork [65] refusedPart n.state).2.view
          (takeMessage pairNetwork [65] refusedPart n.state).2.round).toOption.map
            (verifyBlock pairNetwork (takeMessage pairNetwork [65] refusedPart n.state).2))) =
      some (false, .ok (), true, some (.error .j2Hash)) by decide +kernel)
  cases hmsg : takeMessage pairNetwork [65] refusedPart n.state with
  | mk r s =>
    rw [hmsg] at hobs
    simp only [Prod.mk.injEq] at hobs
    obtain ⟨hended, rfl, hat, hverify⟩ := hobs
    obtain ⟨hstep, hview⟩ := of_decide_eq_true hat
    obtain ⟨b, hblock, hverify⟩ := Option.map_eq_some_iff.mp hverify
    have hrej : Rejects pairNetwork s := by
      refine ⟨hstep, b, .j2Hash, ?_, hverify, nofun⟩
      show s.blockData.getBlock polyLib s.view s.round = .ok b
      cases hget : s.blockData.getBlock polyLib s.view s.round with
      | error e =>
        rw [hget] at hblock
        cases hblock
      | ok b' =>
        rw [hget] at hblock
        exact congrArg Except.ok (Option.some.inj hblock)
    exact ⟨n, s, hrun, hended, hmsg, hview, hrej, exists_run_of_rejects (by decide) (run_nil s) hrej⟩

end Emulator.Urd
