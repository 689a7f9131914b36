import Emulator.Urd.Transitions

/-!
# Messages before `Start`

A node receives as soon as it is connected. Until it enters a view its `heightDatas` is `nil`, and
three methods dereference it: `AddVote`, `IsQuorum` and `GetMaj23`. A validator counts a vote
whenever it gets one but otherwise never looks at the votes. A leader that takes a message falls
through the switch of `handle_state_transition` at its empty step, and `next_step` asks for a
quorum.

That a panic comes from the missing package is said by putting one in its place: `DerefsNil`. All
methods but those three do the same with and without it (`Frames`).

* `nilFree_iff` — the missing package is not dereferenced exactly if before `Start` no vote is taken
  and the leader takes no message; `Start` brings every node to view 1.
-/

namespace Emulator.Urd

open Emulator.Action HotStuff

variable {α : Type} {e : NodeEvent} {n : Node α}

/-! ## Steps that do not look at the votes -/

/-- The state with other vote data. -/
def State.withVotes (votes : Option HeightDataPackage) (s : State α) : State α :=
  { s with heightDatas := votes }

section

variable {P : Network α} {me : Str} {index : ℕ} {s : State α} (votes : Option HeightDataPackage)

theorem frames_onBlockData {β : Type} (x : Action Fault BlockData β) : Frames (State.withVotes votes) (onBlockData x : Act α β) :=
  fun _ => rfl

theorem frames_addCrossShardMessage (m : CrossShardMessage) :
    Frames (State.withVotes votes) (addCrossShardMessage P m) := by
  refine Frames.get_bind (fun _ => rfl) fun s => Frames.bind (fun _ => rfl) fun _ =>
    Frames.bind (fun _ => rfl) fun _ => Frames.bind (fun _ => rfl) fun _ => ?_
  split_ifs <;> exact fun _ => rfl

/-- Only a vote is looked at together with the others. -/
theorem frames_takeMessage (P : Network α) (me : Str) (votes : Option HeightDataPackage)
    {msg : Message} (hvote : ∀ v, msg ≠ .vote v) :
    Frames (State.withVotes votes) (takeMessage P me msg) := by
  refine Frames.bind (fun _ => rfl) fun _ => ?_
  cases msg with
  | part p => exact Frames.bind (fun _ => rfl) fun _ => frames_onBlockData votes _
  | proposal p =>
    exact Frames.bind (fun _ => rfl) fun _ => Frames.bind (fun _ => rfl) fun _ =>
      Frames.bind (fun _ => rfl) fun _ => frames_onBlockData votes _
  | crossShardMessage m => exact frames_addCrossShardMessage votes m
  | vote v => exact absurd rfl (hvote v)

/-- `doPropose` enters a view before it looks at the votes. -/
theorem doPropose_withVotes (inp : Input) :
    doPropose P me index inp (s.withVotes votes) = doPropose P me index inp s := by
  unfold doPropose
  rw [run_bind_ok (commitAndExecutionJ2_eq P me s), run_bind_ok (commitAndExecutionJ2_eq P me _)]
  rfl

theorem fst_handleStateTransition_withVotes (hp : isProposer P me index = false)
    (hrole : InRole P me index s) (votes : Option HeightDataPackage) (inp : Input) :
    (handleStateTransition P me index inp (s.withVotes votes)).1 =
      (handleStateTransition P me index inp s).1 := by
  have hstep := hrole.step_validator hp
  rw [(validatorRound hp hstep inp).1]
  exact (validatorRound (s := s.withVotes votes) hp hstep inp).1

/-! ## Messages that are taken too early -/

/-- After the message has been added, the node looks at the votes. -/
def NodeEvent.LooksAtVotes (P : Network α) (me : Str) (index : ℕ) (s : State α) (e : NodeEvent) :
    Prop :=
  ∃ msg inp, e = .receive msg inp ∧ msg.validateBasic P.lib = true ∧
    ((∃ v, msg = .vote v) ∨ isProposer P me index = true ∧ (addMessage P me msg s).1 = .ok ())

theorem takeMessage_of_validateBasic (me : Str) {msg : Message} (h : msg.validateBasic P.lib = true) :
    takeMessage P me msg s = addMessage P me msg s := by
  unfold takeMessage
  rw [h, run_bind_ok (run_require_true _ s)]

theorem InRole.step_eq_init (h : InRole P me index s) (hp : isProposer P me index = true)
    (hnone : s.heightDatas = none) : s.step = .init := by
  rcases h.step_leader hp with hs | hs
  · exact hs
  · have hsome := (h.leader hs).2
    rw [hnone] at hsome
    cases hsome

/-- All other events end in the same way whatever the vote data is. -/
theorem fst_act_withVotes (hrole : InRole P me index s) (hnone : s.heightDatas = none)
    (hresume : e.resumes = true → s.step ≠ .init) (he : ¬e.LooksAtVotes P me index s)
    (votes : Option HeightDataPackage) :
    (e.act P me index (s.withVotes votes)).1 = (e.act P me index s).1 := by
  cases e with
  | start inp =>
    have hview := hrole.view hnone
    simp only [NodeEvent.act, Urd.start]
    have hview' : (s.withVotes votes).view = 0 := hview
    rw [run_bind_ok (run_get s), run_bind_ok (run_get (s.withVotes votes)), if_pos hview, if_pos hview']
    split_ifs
    · rw [run_bind_ok (run_attempt _ s), run_bind_ok (run_attempt _ (s.withVotes votes)),
        doPropose_withVotes]
    · rfl
  | resume inp =>
    cases hp : isProposer P me index with
    | true => exact absurd (hrole.step_eq_init hp hnone) (hresume rfl)
    | false => exact fst_handleStateTransition_withVotes hp hrole votes inp
  | receive msg inp =>
    cases hbasic : msg.validateBasic P.lib with
    | false =>
      have hinvalid (t : State α) : takeMessage P me msg t = (.error .invalid, t) := by
        unfold takeMessage
        rw [hbasic, run_bind_error (run_require_false _ t)]
      simp only [NodeEvent.act, Urd.receive]
      rw [run_bind_error (hinvalid s), run_bind_error (hinvalid _)]
    | true =>
      have hvote : ∀ v, msg ≠ .vote v := fun v hv => he ⟨msg, inp, rfl, hbasic, .inl ⟨v, hv⟩⟩
      have hframe := frames_takeMessage P me votes hvote s
      have hmsg := hrole.takeMessage msg
      simp only [NodeEvent.act, Urd.receive]
      cases hrun : takeMessage P me msg s with
      | mk r s₁ =>
        rw [hrun] at hframe hmsg
        cases r with
        | error e => rw [run_bind_error hrun, run_bind_error hframe]
        | ok u =>
          rw [run_bind_ok hrun, run_bind_ok hframe]
          cases hp : isProposer P me index with
          | true =>
            rw [takeMessage_of_validateBasic me hbasic] at hrun
            exact absurd ⟨msg, inp, rfl, hbasic, .inr ⟨hp, congrArg Prod.fst hrun⟩⟩ he
          | false => exact fst_handleStateTransition_withVotes hp hmsg votes inp

theorem NodeEvent.LooksAtVotes.panics (h : e.LooksAtVotes P me index s)
    (hrole : InRole P me index s) (hnone : s.heightDatas = none) :
    (e.act P me index s).1 = .error .panic := by
  obtain ⟨msg, inp, rfl, hbasic, hlook⟩ := h
  simp only [NodeEvent.act, Urd.receive]
  by_cases hvote : ∃ v, msg = .vote v
  · obtain ⟨v, rfl⟩ := hvote
    have hrun : takeMessage P me (.vote v) s = (.error .panic, s) := by
      rw [takeMessage_of_validateBasic me hbasic]
      show countVote P v s = _
      rw [countVote, run_bind_ok (run_get s), hnone]
      rfl
    rw [run_bind_error hrun]
  · obtain ⟨hp, hok⟩ := hlook.resolve_left hvote
    rw [← takeMessage_of_validateBasic me hbasic] at hok
    have hmsg := hrole.takeMessage msg
    have hnone' := unset_takeMessage P me msg s hnone
    cases hrun : takeMessage P me msg s with
    | mk r s₁ =>
      rw [hrun] at hok hmsg hnone'
      obtain rfl : r = .ok () := hok
      rw [run_bind_ok hrun, handleStateTransition_unset hp (hmsg.step_eq_init hp hnone') hnone']

/-- With vote data a leader at its first step goes on with the next. -/
theorem fst_handleStateTransition_init (hp : isProposer P me index = true) (hstep : s.step = .init)
    {hdp : HeightDataPackage} (h : s.heightDatas = some hdp) (hview : s.view ≤ lastView P me)
    (inp : Input) : (handleStateTransition P me index inp s).1 = .ok true := by
  unfold handleStateTransition
  rw [run_bind_ok (takeStep_init hstep inp)]
  simp only [if_true]
  rw [run_bind_ok (nextStep_leader hp h), run_bind_ok (run_modify _ s), run_bind_ok (run_get _)]
  have hlast : (!(isProposer P me index && decide (s.view > lastView P me))) = true := by
    simp [hp, hview]
  rw [run_bind, run_require]
  simp only [hlast, if_true, run_pure]

def noVotes : HeightDataPackage := newHeightDataPackage ⟨[]⟩ [] 0 0

/-- With vote data, even an empty one, it does not. -/
theorem NodeEvent.LooksAtVotes.avoids_panic (h : e.LooksAtVotes P me index s)
    (hrole : InRole P me index s) (hnone : s.heightDatas = none) :
    (e.act P me index (s.withVotes (some noVotes))).1 ≠ .error .panic := by
  obtain ⟨msg, inp, rfl, hbasic, hlook⟩ := h
  simp only [NodeEvent.act, Urd.receive]
  by_cases hvote : ∃ v, msg = .vote v
  · obtain ⟨v, rfl⟩ := hvote
    have hindex : 0 ≤ v.validatorIndex := by
      simp only [Message.validateBasic, Bool.and_eq_true, decide_eq_true_eq] at hbasic
      exact hbasic.1.1.2
    have hadd : addVote P.bls P.lib.vote noVotes v = .error .invalidSign := by
      have hverify : noVotes.validatorSet.verify P.bls v.sign (v.signBytes P.lib.vote)
          v.validatorIndex = some false := if_pos hindex
      rw [addVote, hverify]
    have hvotes : (s.withVotes (some noVotes)).heightDatas = some noVotes := rfl
    have hrun : takeMessage P me (.vote v) (s.withVotes (some noVotes)) =
        (.error (.vote .invalidSign), s.withVotes (some noVotes)) := by
      rw [takeMessage_of_validateBasic me hbasic]
      show countVote P v (s.withVotes (some noVotes)) = _
      rw [countVote, run_bind_ok (run_get _), run_bind_ok (orThrow_eq_ok.mpr ⟨hvotes, rfl⟩), hadd]
      rfl
    rw [run_bind_error hrun]
    simp
  · obtain ⟨hp, hok⟩ := hlook.resolve_left hvote
    rw [← takeMessage_of_validateBasic me hbasic] at hok
    have hmsg := hrole.takeMessage msg
    have hnone' := unset_takeMessage P me msg s hnone
    have hframe := frames_takeMessage P me (some noVotes) (fun v hv => hvote ⟨v, hv⟩) s
    cases hrun : takeMessage P me msg s with
    | mk r s₁ =>
      rw [hrun] at hok hmsg hnone' hframe
      obtain rfl : r = .ok () := hok
      have hstep : (s₁.withVotes (some noVotes)).step = .init := hmsg.step_eq_init hp hnone'
      have hview : (s₁.withVotes (some noVotes)).view ≤ lastView P me := by
        rw [show (s₁.withVotes (some noVotes)).view = 0 from hmsg.view hnone']
        exact Nat.zero_le _
      rw [run_bind_ok hframe, fst_handleStateTransition_init hp hstep rfl hview inp]
      simp

/-! ## The missing package -/

/-- The step panics for want of vote data: with some package it would not have. -/
def DerefsNil (P : Network α) (me : Str) (index : ℕ) (n : Node α) (e : NodeEvent) : Prop :=
  n.state.heightDatas = none ∧ (∃ n', nodeStep P me index n e = some n' ∧ n'.ended = true) ∧
    ∃ hdp n', nodeStep P me index { n with state := n.state.withVotes (some hdp) } e = some n' ∧
      n'.ended = false

/-- A vote or, if it leads, any message that the node takes before it has vote data. -/
def TakenEarly (P : Network α) (me : Str) (index : ℕ) (n : Node α) (e : NodeEvent) : Prop :=
  n.state.heightDatas = none ∧ (∃ n', nodeStep P me index n e = some n') ∧
    e.LooksAtVotes P me index n.state

/-- `Start` brings the node to its first view, unless it has entered one. -/
def EntersView (P : Network α) (me : Str) (index : ℕ) (n : Node α) (e : NodeEvent) : Prop :=
  ∀ inp n', e = .start inp → nodeStep P me index n e = some n' →
    1 ≤ n'.state.view ∧ (n.state.view = 0 → n'.state.view = 1) ∧
      (n'.ended = false → n'.state.heightDatas.isSome)

theorem derefsNil_iff (h : NodeInRole P me index n) :
    DerefsNil P me index n e ↔ TakenEarly P me index n e := by
  constructor
  · rintro ⟨hnone, ⟨n', hn', hended⟩, hdp, n'', hn'', hended'⟩
    refine ⟨hnone, ⟨n', hn'⟩, ?_⟩
    obtain ⟨⟨hrunning, hhandling⟩, rfl⟩ := nodeStep_eq_some.mp hn'
    obtain ⟨-, rfl⟩ := nodeStep_eq_some.mp hn''
    obtain ⟨hrole, hinit⟩ := h hrunning
    by_contra he
    have hresume : e.resumes = true → n.state.step ≠ .init := by
      intro hr hs
      rw [hinit hs, hr] at hhandling
      cases hhandling
    have hsame := fst_act_withVotes hrole hnone hresume he (some hdp)
    exact of_decide_eq_false hended' (hsame.trans (of_decide_eq_true hended))
  · rintro ⟨hnone, ⟨n', hn'⟩, he⟩
    obtain ⟨hcond, rfl⟩ := nodeStep_eq_some.mp hn'
    obtain ⟨hrole, -⟩ := h hcond.1
    refine ⟨hnone, ⟨_, hn', decide_eq_true (he.panics hrole hnone)⟩, noVotes, _,
      nodeStep_eq_some.mpr ⟨hcond, rfl⟩, decide_eq_false (he.avoids_panic hrole hnone)⟩

end

theorem Progress.Moves.view_le {proposer : Bool} {p p' : Progress} (h : p.Moves proposer p') :
    p.view ≤ p'.view := by
  cases h with
  | stay => exact le_rfl
  | enter _ hview => exact hview ▸ Nat.zero_le _
  | reject => exact le_rfl
  | accept => exact Nat.le_succ _
  | skip => exact Nat.le_succ _
  | spoil => exact Nat.le_succ _
  | propose => exact Nat.le_succ _

section

variable {P : Network α} {me : Str} {index : ℕ}

/-- What every event of a node keeps. -/
structure NodeKept (P : Network α) (me : Str) (index : ℕ) (n : Node α) : Prop where
  inRole : NodeInRole P me index n
  inv : NodeInv P me index (fun _ _ => True) n.state

theorem NodeKept.step {n' : Node α} (h : NodeKept P me index n)
    (hn : nodeStep P me index n e = some n') : NodeKept P me index n' :=
  ⟨h.inRole.step hn, (h.inv.step (fun _ _ _ _ _ => trivial) hn).inv⟩

theorem nodeKept_newNode (P : Network α) (me : Str) (index : ℕ) (app : α) :
    NodeKept P me index (newNode app) :=
  ⟨nodeInRole_run (run_nil _), nodeInv_newNode P me index _ app⟩

theorem NodeKept.entersView (h : NodeKept P me index n) (e : NodeEvent) :
    EntersView P me index n e := by
  rintro inp n' rfl hn'
  have hfirst : n.state.view = 0 → n'.state.view = 1 := by
    intro hview
    obtain ⟨-, rfl⟩ := nodeStep_eq_some.mp hn'
    refine start_elim (Q := fun s' => s'.view = 1) (fun _ _ _ _ => ?_)
      (fun _ _ => congrArg (· + 1) hview) (absurd hview)
    rw [(doPropose_snd P me index inp n.state).1, hview]
  have hle := (h.inv.step (fun _ _ _ _ _ => trivial) hn').moves.view_le
  change n.state.view ≤ n'.state.view at hle
  have hpos : 1 ≤ n'.state.view := by
    rcases Nat.eq_zero_or_pos n.state.view with hview | hview
    · exact (hfirst hview).ge
    · omega
  refine ⟨hpos, hfirst, fun hended => ?_⟩
  by_contra hnone
  have hzero := ((h.step hn').inRole hended).1.view (Option.not_isSome_iff_eq_none.mp hnone)
  omega

/-- **Messages before `Start`.** In no step of a run the missing vote data is dereferenced exactly
if before there is any the node takes no vote and, if it leads, no message at all. In every run
`Start` brings the node to view 1, or finds it in a later one. -/
theorem nilFree_iff (P : Network α) (me : Str) (index : ℕ) (app : α) (es : List NodeEvent) :
    (Along (nodeStep P me index) (fun n e => ¬DerefsNil P me index n e) (newNode app) es ↔
      Along (nodeStep P me index) (fun n e => ¬TakenEarly P me index n e) (newNode app) es) ∧
    Along (nodeStep P me index) (EntersView P me index) (newNode app) es := by
  have hnew := nodeKept_newNode P me index app
  refine ⟨⟨fun h => ?_, fun h => ?_⟩, ?_⟩
  · exact Along.imp (fun _ _ _ hn _ => hn.step)
      (fun n e hn hnot hearly => hnot ((derefsNil_iff hn.inRole).mpr hearly)) hnew h
  · exact Along.imp (fun _ _ _ hn _ => hn.step)
      (fun n e hn hnot hderef => hnot ((derefsNil_iff hn.inRole).mp hderef)) hnew h
  · exact Along.imp (fun _ _ _ hn _ => hn.step) (fun n e hn _ => hn.entersView e) hnew
      (along_of_mem (P := fun _ _ => True) fun _ _ _ => trivial)

end

/-- The first message of the other shard. -/
def earlyMessage : Message := .crossShardMessage { sourceChain := [66], aggVote := exampleVote [9] }

/-- The vote of the leader for the first block. -/
def earlyVote : Message := .vote (generateVoteForBlock pairNetwork [65] 0 (plainBlock 1 []) [] true)

/-- The message of the other shard ends a leader that has not started, a vote ends a validator. -/
theorem not_nilFree_early :
    ¬Along (nodeStep pairNetwork [65] 0) (fun n e => ¬DerefsNil pairNetwork [65] 0 n e) (newNode 0)
      [.receive earlyMessage noInput, .start noInput] ∧
    ¬Along (nodeStep pairNetwork [65] 1) (fun n e => ¬DerefsNil pairNetwork [65] 1 n e) (newNode 0)
      [.receive earlyVote noInput, .start noInput] := by
  refine ⟨fun h => h.1 ⟨rfl, ⟨_, nodeStep_eq_some.mpr ⟨⟨rfl, rfl⟩, rfl⟩, ?_⟩, noVotes, _,
      nodeStep_eq_some.mpr ⟨⟨rfl, rfl⟩, rfl⟩, ?_⟩,
    fun h => h.1 ⟨rfl, ⟨_, nodeStep_eq_some.mpr ⟨⟨rfl, rfl⟩, rfl⟩, ?_⟩, noVotes, _,
      nodeStep_eq_some.mpr ⟨⟨rfl, rfl⟩, rfl⟩, ?_⟩⟩
  all_goals decide +kernel

end Emulator.Urd
