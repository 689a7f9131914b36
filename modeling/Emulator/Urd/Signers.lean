import Emulator.Urd.Proposing

/-!
# The signers that messages name

A vote names its signers by a bit vector, which goes over the wire as a header byte and the
elements and is read back only if the vector has as many elements as its bits need. The vectors
that a node has come from `GetMaj23`, which makes them itself, or from messages of other nodes,
which it has read from bytes. Both are well-formed, so that all votes a leader can put into a block
can be read again.

* `wellFormed_of_decoded` — reading never gives a vector that cannot be written and read again.
* `sealed_run` — the votes that a node keeps name their signers by well-formed vectors.
-/

namespace Emulator.Urd

open Emulator.Action HotStuff

variable {α : Type} {m : CrossShardMessage}

/-! ## Reading -/

theorem wellFormed_of_newAggregatedVoteFromProto {p : PbAggregatedVote} {v : AggregatedVote}
    (h : newAggregatedVoteFromProto p = some v) : v.signerIndexer.WellFormed := by
  obtain ⟨bv, hbv, rfl⟩ := Option.map_eq_some_iff.mp h
  cases bv with
  | none => exact BitVector.wellFormed_newBitVector 0
  | some bv => exact BitVector.wellFormed_of_readBitArray hbv

/-- The message has been read from the wire. -/
def CrossShardMessage.Decoded (m : CrossShardMessage) : Prop :=
  ∃ pb, newCrossShardMessageFromProto pb = some m

theorem wellFormed_of_decoded (h : m.Decoded) : m.aggVote.signerIndexer.WellFormed := by
  obtain ⟨pb, h⟩ := h
  obtain ⟨vote, hvote, h⟩ := Option.bind_eq_some_iff.mp h
  obtain ⟨intention, -, h⟩ := Option.bind_eq_some_iff.mp h
  obtain ⟨output, -, h⟩ := Option.bind_eq_some_iff.mp h
  obtain rfl := Option.some.inj h
  obtain ⟨p, -, hp⟩ := Option.bind_eq_some_iff.mp hvote
  exact wellFormed_of_newAggregatedVoteFromProto hp

theorem decoded_of_newCrossShardMessageFromBytes {lib : Lib} {bz : Bytes}
    (h : newCrossShardMessageFromBytes lib bz = some m) : m.Decoded := by
  obtain ⟨pb, -, hpb⟩ := Option.bind_eq_some_iff.mp h
  exact ⟨pb, hpb⟩

/-! ## What a node keeps -/

/-- All votes of the node name their signers by well-formed bit vectors: those of the messages of
the current view and of the view before, and the vote that the leader has aggregated. -/
structure Sealed (s : State α) : Prop where
  finished : ∀ shard m, s.blockData.finished shard = some m → m.aggVote.signerIndexer.WellFormed
  j1finished : ∀ shard m, s.blockData.j1finished shard = some m →
    m.aggVote.signerIndexer.WellFormed
  aggVote : ∀ hdp, s.heightDatas = some hdp → ∀ a, hdp.aggVote = some a →
    a.signerIndexer.WellFormed

theorem sealed_newState (app : α) : Sealed (newState app) where
  finished shard m h := by cases h
  j1finished shard m h := by cases h
  aggVote hdp h := by cases h

theorem getMaj23_wellFormed {B : Bls} {hdp hdp' : HeightDataPackage} {a : AggregatedVote}
    (hwf : ∀ a, hdp.aggVote = some a → a.signerIndexer.WellFormed)
    (h : getMaj23 B hdp = some (a, hdp')) :
    hdp'.aggVote = some a ∧ a.signerIndexer.WellFormed := by
  obtain ⟨rfl, hcases⟩ := getMaj23_cases h
  refine ⟨rfl, ?_⟩
  rcases hcases with hagg | ⟨-, hof⟩
  · exact hwf a hagg
  · exact hof.wellFormed

/-- Moving from one state to another keeps them so. -/
def StaysSealed (s s' : State α) : Prop := Sealed s → Sealed s'

namespace StaysSealed

variable {P : Network α} {me : Str} {index : ℕ}

theorem refl (s : State α) : StaysSealed s s := id

theorem trans (a b c : State α) (h : StaysSealed a b) (h' : StaysSealed b c) : StaysSealed a c :=
  fun ha => h' (h ha)

theorem of_eq {s s' : State α} (hf : s'.blockData.finished = s.blockData.finished)
    (hj : s'.blockData.j1finished = s.blockData.j1finished)
    (hh : s'.heightDatas = s.heightDatas) : StaysSealed s s' := by
  intro h
  exact ⟨by rw [hf]; exact h.finished, by rw [hj]; exact h.j1finished, by rw [hh]; exact h.aggVote⟩

theorem extendHash (hm : m.aggVote.signerIndexer.WellFormed) :
    Keeps StaysSealed (Urd.extendHash m : Act α Unit) := by
  refine Keeps.modify fun s hs => ⟨fun shard m' hm' => ?_, hs.j1finished, hs.aggVote⟩
  by_cases hshard : shard = m.sourceChain
  · subst hshard
    simp only [BlockData.extendHash, Function.update_self] at hm'
    obtain rfl := Option.some.inj hm'
    exact hm
  · simp only [BlockData.extendHash, Function.update_of_ne hshard] at hm'
    exact hs.finished shard m' hm'

theorem countVote (vote : Vote) : Keeps StaysSealed (Urd.countVote P vote) := by
  intro s hs
  rcases countVote_cases P vote s with ⟨e, herror⟩ | ⟨hdp, hdp', hhdp, hadd, hok⟩
  · rw [herror]
    exact hs
  · rw [hok]
    obtain ⟨i, w, -, -, -, -, -, -, -, rfl⟩ := addVote_eq_ok hadd
    refine ⟨hs.finished, hs.j1finished, fun hdp₁ h₁ a ha => ?_⟩
    obtain rfl := Option.some.inj h₁
    exact hs.aggVote hdp hhdp a ha

theorem aggregateVotes : Keeps StaysSealed (Urd.aggregateVotes P) := by
  intro s hs
  rcases aggregateVotes_cases P s with ⟨e, herror⟩ | ⟨sig, hdp, hdp', hhdp, hmaj, hok⟩
  · rw [herror]
    exact hs
  · rw [hok]
    refine ⟨hs.finished, hs.j1finished, fun hdp₁ h₁ a ha => ?_⟩
    obtain rfl := Option.some.inj h₁
    obtain ⟨hagg, hwf⟩ := getMaj23_wellFormed (hs.aggVote hdp hhdp) hmaj
    obtain rfl := Option.some.inj (hagg.symm.trans ha)
    exact hwf

theorem redoShard (shard : Str) : Keeps StaysSealed (Urd.redoShard P me shard) := by
  refine Keeps.get_bind fun s => ?_
  split_ifs
  · exact refl s
  · cases (s.store (storeKey shard (s.blockData.lastHash shard))).getD [] with
    | nil => exact refl s
    | cons b bz =>
      refine Keeps.orThrow_bind refl (fun m hm => ?_) s
      exact extendHash (wellFormed_of_decoded (decoded_of_newCrossShardMessageFromBytes hm))

theorem crossShardCommunicate (inp : Input) :
    Keeps StaysSealed (Urd.crossShardCommunicate P me inp) := by
  refine Keeps.bind trans (Keeps.forEach refl trans fun shard _ => redoShard shard) fun _ s hs => ?_
  have hs' := aggregateVotes (P := P) s hs
  cases hagg : Urd.aggregateVotes P s with
  | mk r s₁ =>
    rw [hagg] at hs'
    cases r with
    | error e => rwa [run_bind_error hagg]
    | ok sig =>
      obtain ⟨hdp, hdp', hhdp, hmaj, -⟩ := aggregateVotes_eq_ok hagg
      have hsig := (getMaj23_wellFormed (hs.aggVote hdp hhdp) hmaj).2
      rw [run_bind_ok hagg, run_bind_ok (run_get s₁)]
      refine Keeps.orThrow_bind refl (fun csms hcsms => Keeps.orThrow_bind refl fun own hown => ?_)
        s₁ hs'
      obtain ⟨i, -, hi⟩ := exists_of_mem_mapM hcsms (List.mem_of_getElem? hown)
      refine Keeps.bind trans (extendHash ?_) fun _ => Keeps.modify fun _ => of_eq rfl rfl rfl
      rwa [(messageFor_eq_some hi).2]

/-- The messages of the view become those of the view before, and the votes are new. -/
theorem of_next {s s' : State α} (hf : ∀ j, s'.blockData.finished j = none)
    (hj : s'.blockData.j1finished = s.blockData.finished)
    (hh : ∀ hdp, s'.heightDatas = some hdp → hdp.aggVote = none) : StaysSealed s s' := by
  intro hs
  refine ⟨fun j m hm => ?_, fun j m hm => ?_, fun hdp hhdp a ha => ?_⟩
  · cases (hf j).symm.trans hm
  · rw [hj] at hm
    exact hs.finished j m hm
  · cases (hh hdp hhdp).symm.trans ha

theorem onBlockData {β : Type} {x : Action Fault BlockData β} (hx : Keeps SameMessages x) :
    Keeps (StaysSealed : State α → State α → Prop) (Urd.onBlockData x) :=
  fun s => of_eq (hx s.blockData).finished (hx s.blockData).j1finished rfl

theorem doPropose (inp : Input) : Keeps StaysSealed (Urd.doPropose P me index inp) := by
  intro s
  have hrun := proposes P me index inp s
  generalize Urd.doPropose P me index inp s = r at hrun
  cases hrun with
  | noBlock _ | slotTaken _ _ | voteRefused _ _ _ =>
    refine of_next (fun _ => rfl) rfl fun hdp hhdp => ?_
    obtain rfl := Option.some.inj hhdp
    rfl
  | done _ _ hvote =>
    refine of_next (fun _ => rfl) rfl fun hdp hhdp => ?_
    obtain rfl := Option.some.inj hhdp
    obtain ⟨i, w, -, -, -, -, -, -, -, rfl⟩ := addVote_eq_ok hvote
    rfl

theorem doValidate (b : Block) : Keeps StaysSealed (Urd.doValidate P me index b) := by
  intro s
  have hrun := validates P me index s b
  generalize Urd.doValidate P me index b s = r at hrun
  cases hrun with
  | panicked _ => exact refl s
  | refused _ _ => exact of_eq rfl rfl rfl
  | accepted _ =>
    refine of_next (fun _ => rfl) rfl fun hdp hhdp => ?_
    obtain rfl := Option.some.inj hhdp
    rfl

theorem handleStateTransition (inp : Input) :
    Keeps StaysSealed (Urd.handleStateTransition P me index inp) := by
  intro s
  have htake : StaysSealed s (takeStep P me index inp s).2 :=
    takeStep_elim (refl s) (fun b _ _ => doValidate b s) (fun _ => doPropose inp s)
      fun _ => crossShardCommunicate inp s
  obtain ⟨step, h, -⟩ := exists_snd_handleStateTransition P me index inp s
  rw [h]
  exact trans _ _ _ htake (of_eq rfl rfl rfl)

theorem start (inp : Input) : Keeps StaysSealed (Urd.start P me index inp) := by
  intro s
  refine start_elim (fun _ _ step _ => ?_) (fun _ _ => ?_) fun _ => handleStateTransition inp s
  · exact trans _ _ _ (doPropose inp s) (of_eq rfl rfl rfl)
  · refine of_next (fun _ => rfl) rfl fun hdp hhdp => ?_
    obtain rfl := Option.some.inj hhdp
    rfl

theorem addCrossShardMessage (hm : m.aggVote.signerIndexer.WellFormed) :
    Keeps StaysSealed (Urd.addCrossShardMessage P m) := by
  refine Keeps.get_bind fun s => Keeps.require_bind refl (fun _ => ?_) s
  refine Keeps.require_bind refl fun _ => Keeps.bind trans ?_ fun _ => ?_
  · exact Keeps.modify fun _ => of_eq rfl rfl rfl
  · split_ifs
    · exact extendHash hm
    · exact Keeps.of_eq refl fun _ => rfl

theorem takeMessage {msg : Message}
    (hmsg : ∀ m, msg = .crossShardMessage m → m.aggVote.signerIndexer.WellFormed) :
    Keeps StaysSealed (Urd.takeMessage P me msg) := by
  apply keeps_takeMessage refl
  · exact fun p _ => onBlockData (SameMessages.addPart P.lib p)
  · exact fun p _ _ _ => onBlockData (SameMessages.addPartSetHeader P.lib _ _)
  · exact fun m hm => addCrossShardMessage (hmsg m hm)
  · exact fun v _ => countVote v

end StaysSealed

/-! ## Runs -/

/-- The message of the event, if it is one of another shard, has been read from the wire. -/
def NodeEvent.FromWire : NodeEvent → Prop
  | .receive (.crossShardMessage m) _ => m.Decoded
  | _ => True

section

variable {P : Network α} {me : Str} {index : ℕ}

theorem sealed_nodeStep {n n' : Node α} {e : NodeEvent} (hn : Sealed n.state) (he : e.FromWire)
    (h : nodeStep P me index n e = some n') : Sealed n'.state := by
  obtain ⟨-, rfl⟩ := nodeStep_eq_some.mp h
  have hact : StaysSealed n.state (e.act P me index n.state).2 := by
    cases e with
    | start inp => exact StaysSealed.start inp n.state
    | resume inp => exact StaysSealed.handleStateTransition inp n.state
    | receive msg inp =>
      refine Keeps.bind StaysSealed.trans (StaysSealed.takeMessage fun m hm => ?_)
        (fun _ => StaysSealed.handleStateTransition inp) n.state
      subst hm
      exact wellFormed_of_decoded he
  exact { hact hn with }

/-- **The votes of a node** name their signers by well-formed bit vectors, whatever the other nodes
send. -/
theorem sealed_run {app : α} {es : List NodeEvent} {n : Node α}
    (hrun : run (nodeStep P me index) (newNode app) es = some n) (hes : ∀ e ∈ es, e.FromWire) :
    Sealed n.state := by
  exact run_invariant_along (I := fun n : Node α => Sealed n.state)
    (P := fun _ e => e.FromWire) (fun n e n' hn he h => sealed_nodeStep hn he h)
    (sealed_newState app) (along_of_mem fun e he _ => hes e he) hrun

end

/-- A leader has summed up two votes in its own message. -/
theorem sealed_takenRun :
    ∃ n m, run (nodeStep (soloNetwork [1, 1, 1, 1]) [65] 0) (newNode 0) takenRun = some n ∧
      n.state.blockData.finished [65] = some m ∧ m.aggVote.signerIndexer.WellFormed := by
  have hrun : (run (nodeStep (soloNetwork [1, 1, 1, 1]) [65] 0) (newNode 0) takenRun).any
      fun n => (n.state.blockData.finished [65]).isSome := by decide +kernel
  obtain ⟨n, hn, hsome⟩ := (Option.any_eq_true _ _).mp hrun
  obtain ⟨m, hm⟩ := Option.isSome_iff_exists.mp hsome
  refine ⟨n, m, hn, hm, (sealed_run hn fun e he => ?_).finished [65] m hm⟩
  simp only [takenRun, List.mem_cons, List.not_mem_nil, or_false] at he
  rcases he with rfl | rfl | rfl <;> trivial

end Emulator.Urd
