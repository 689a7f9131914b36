import Emulator.Urd.HashCache
import Emulator.Urd.Lockstep
import Emulator.Urd.Signers

/-!
# Messages of other shards in the next block

Once four blocks are in its pool, a leader puts the proofs of every shard's message into its next
block: it dereferences the proof of the intention when it copies it, and the proof of the relay list
when it hashes the block. `ValidateBasic` takes a proof that is `nil` for one that verifies, so a
message without proofs is linked like any other.

* `produces_iff` — the next block is made, and survives its protobuf message, exactly when every
  linked message has both proofs.
* `produces_run` — the same for every leader that has run, whatever it has been sent.
* `doPropose_panics` — if one proof is missing, the proposal ends the process.
-/

namespace Emulator.Urd

open Emulator.Action HotStuff

variable {α : Type}

/-! ## Linked messages -/

/-- Both proofs of the message are there. -/
def CrossShardMessage.Proven (m : CrossShardMessage) : Prop :=
  m.proofOfIntention.isSome ∧ m.outputTxsProof.isSome

instance (m : CrossShardMessage) : Decidable m.Proven :=
  inferInstanceAs (Decidable (m.proofOfIntention.isSome ∧ m.outputTxsProof.isSome))

/-- The message of the shard has been read from the wire, has passed `ValidateBasic` and stands in
`finished`. -/
structure LinkedMessage (P : Network α) (s : State α) (shard : Str) (m : CrossShardMessage) :
    Prop where
  decoded : m.Decoded
  valid : m.validateBasic P.lib = true
  finished : s.blockData.finished shard = some m

/-! ## The next block -/

/-- The block comes back from its message with its content and its hash. -/
def Block.Survives (lib : Lib) (b : Block) : Prop :=
  newBlockFromProto (b.toProto lib) = some (b.onWire lib) ∧ (b.onWire lib).hash lib = b.hash lib

/-- The leader makes a block for the view after that of `s`, and it survives. -/
def Produces (P : Network α) (me : Str) (s : State α) (inp : Input) (opTxs : List Txs) : Prop :=
  ∃ b, makeBlock P me (enterNextView P me s).2 inp opTxs = some b ∧ b.Survives P.lib

section

variable {P : Network α} {me : Str} {s : State α} {inp : Input} {opTxs : List Txs}

/-- A block that has been made dereferenced both proofs of each message. -/
theorem proven_of_makeBlock {b : Block} (hpool : 4 ≤ s.blockPool.length)
    (hmake : makeBlock P me s inp opTxs = some b) {j : Str} (hj : j ∈ P.shardIDList)
    {m : CrossShardMessage} (hm : s.blockData.j1finished j = some m) : m.Proven := by
  obtain ⟨csms, hcsms, -, hparts⟩ := (assembled_of_makeBlock hmake).intention (by omega)
  obtain ⟨hcores, -, hproofs⟩ := hparts hpool
  obtain ⟨m', hmem, hm'⟩ := exists_mem_of_mapM hcsms hj
  obtain rfl := Option.some.inj (hm'.symm.trans hm)
  obtain ⟨core, -, hcore⟩ := exists_mem_of_mapM hcores hmem
  obtain ⟨q, hq, -⟩ := Option.map_eq_some_iff.mp hcore
  obtain ⟨p, -, hp⟩ := exists_mem_of_mapM hproofs hmem
  exact ⟨Option.isSome_of_eq_some hq, Option.isSome_of_eq_some hp⟩

/-- With a message from each shard whose vote can be written, the proofs decide. -/
theorem produces_iff_of_wellFormed (hme : me ∈ P.shardIDList) (hpool : 4 ≤ s.blockPool.length)
    (hmsgs : ∀ j ∈ P.shardIDList, ∃ m, s.blockData.finished j = some m ∧
      m.aggVote.signerIndexer.WellFormed) :
    Produces P me s inp opTxs ↔
      ∀ j ∈ P.shardIDList, ∀ m, s.blockData.finished j = some m → m.Proven := by
  constructor
  · intro ⟨b, hmake, _⟩ j hj m hm
    exact proven_of_makeBlock (s := (enterNextView P me s).2) hpool hmake hj hm
  · intro hproven
    have hexists : ∃ b, makeBlock P me (enterNextView P me s).2 inp opTxs = some b := by
      refine exists_makeBlock hme inp opTxs fun _ j hj => ?_
      obtain ⟨m, hm, -⟩ := hmsgs j hj
      exact ⟨m, hm, fun _ => hproven j hj m hm⟩
    obtain ⟨b, hmake⟩ := hexists
    refine ⟨b, hmake, newBlockFromProto_toProto (wellFormed_of_makeBlock ?_ hmake),
      b.hash_onWire P.lib⟩
    intro j hj m hm
    have hmem : j ∈ P.shardIDList := hj.elim (fun h => h ▸ hme) id
    obtain ⟨m', hm', hwf⟩ := hmsgs j hmem
    obtain rfl := Option.some.inj (hm'.symm.trans hm)
    exact hwf

/-- **When messages break the production of blocks.** A leader with four blocks in its pool and one
linked message of each shard makes its next block, and one that survives its protobuf message,
exactly if all messages have both proofs. -/
theorem produces_iff (P : Network α) (me : Str) (s : State α) (inp : Input) (opTxs : List Txs)
    (csms : Str → CrossShardMessage) (hme : me ∈ P.shardIDList) (hpool : 4 ≤ s.blockPool.length)
    (hcsms : ∀ j ∈ P.shardIDList, LinkedMessage P s j (csms j)) :
    Produces P me s inp opTxs ↔ ∀ j ∈ P.shardIDList, (csms j).Proven := by
  rw [produces_iff_of_wellFormed hme hpool fun j hj =>
    ⟨csms j, (hcsms j hj).finished, wellFormed_of_decoded (hcsms j hj).decoded⟩]
  refine forall₂_congr fun j hj => ?_
  rw [(hcsms j hj).finished]
  simp

/-- **Leaders that have run.** The same holds in every state that a leader can reach. -/
theorem produces_run {index : ℕ} {app : α} {es : List NodeEvent} {n : Node α}
    (hrun : run (nodeStep P me index) (newNode app) es = some n) (hes : ∀ e ∈ es, e.FromWire)
    (hme : me ∈ P.shardIDList) (hpool : 4 ≤ n.state.blockPool.length)
    (hfull : n.state.blockData.isCrossShardMessageComplete P.shardIDList = true) :
    Produces P me n.state inp opTxs ↔
      ∀ j ∈ P.shardIDList, ∀ m, n.state.blockData.finished j = some m → m.Proven := by
  have hsealed := run_invariant_along (I := fun n : Node α => Sealed n.state)
    (P := fun _ e => e.FromWire) (fun n e n' hn he h => sealed_nodeStep hn he h)
    (sealed_newState app) (along_of_mem fun e he _ => hes e he) hrun
  refine produces_iff_of_wellFormed hme hpool fun j hj => ?_
  obtain ⟨m, hm⟩ := Option.isSome_iff_exists.mp (List.all_eq_true.mp hfull j hj)
  exact ⟨m, hm, hsealed.finished j m hm⟩

/-- A message without a proof ends the process of the leader when it proposes. -/
theorem doPropose_panics {index : ℕ} (hpool : 4 ≤ s.blockPool.length) {j : Str}
    (hj : j ∈ P.shardIDList) {m : CrossShardMessage} (hm : s.blockData.finished j = some m)
    (hnot : ¬ m.Proven) : (doPropose P me index inp s).1 = .error .panic := by
  have hmissing (b : Block) (hb : newBlock P me inp s = some b) : False :=
    hnot (proven_of_makeBlock (s := entered P me s) hpool hb hj hm)
  have hrun := proposes P me index inp s
  generalize doPropose P me index inp s = r at hrun
  cases hrun with
  | noBlock hb => rfl
  | slotTaken hb _ | voteRefused hb _ _ | done hb _ _ => exact (hmissing _ hb).elim

end

/-! ## A message without proofs -/

/-- Two leaders have gone through three views, and in the fourth one both have talked. -/
def talkedSystem : Option (System ℕ) :=
  run (systemStep pairNetwork) (newSystem fun _ => 0) (pairRun 3 ++ (viewEvents 4).take 4)

/-- The first leader after the bytes of a message. -/
def tookMessage (st : State ℕ) (m : CrossShardMessage) : State ℕ :=
  (takeBytes pairNetwork [65] (m.protoBytes polyLib) st).2

/-- A message of the second shard for the given last hash, without any proof. -/
def unprovenMessage (lastHash : Bytes) : CrossShardMessage where
  sourceChain := [66]
  aggVote := { exampleVote [] with forNecessaryData := [lastHash] }

def messageOf (st : State ℕ) (shard : Str) : CrossShardMessage :=
  (st.blockData.finished shard).getD (unprovenMessage [])

/-- The messages of both shards are there, can be read from the wire and are valid. -/
def linkedAll (st : State ℕ) : Bool :=
  pairNetwork.shardIDList.all fun j => (st.blockData.finished j).isSome &&
    newCrossShardMessageFromProto (messageOf st j).toProto == some (messageOf st j) &&
    (messageOf st j).validateBasic polyLib

theorem linked_of_linkedAll {st : State ℕ} (h : linkedAll st = true) :
    ∀ j ∈ pairNetwork.shardIDList, LinkedMessage pairNetwork st j (messageOf st j) := by
  intro j hj
  have hlinked := List.all_eq_true.mp h j hj
  rw [Bool.and_eq_true, Bool.and_eq_true, beq_iff_eq] at hlinked
  obtain ⟨⟨hsome, hread⟩, hvalid⟩ := hlinked
  obtain ⟨m, hm⟩ := Option.isSome_iff_exists.mp hsome
  refine ⟨⟨_, hread⟩, hvalid, ?_⟩
  rw [messageOf, hm, Option.getD_some]

/-- What the run gives, evaluated once for both messages. -/
theorem talkedSystem_checks :
    ∃ s st m, talkedSystem = some s ∧ s.leaders [65] = some st ∧
      sent pairNetwork s.logs [66] 4 [65] = some m ∧
      ((tookMessage st m).blockPool.length = 4 ∧ linkedAll (tookMessage st m) = true ∧
        ∀ j ∈ pairNetwork.shardIDList, (messageOf (tookMessage st m) j).Proven) ∧
      ∀ bad, bad = unprovenMessage (st.blockData.lastHash [66]) →
        (tookMessage st bad).blockPool.length = 4 ∧ linkedAll (tookMessage st bad) = true ∧
        (tookMessage st bad).blockData.finished [66] = some bad ∧
        (handleStateTransition pairNetwork [65] 0 roundInput (tookMessage st bad)).1 =
          .error .panic := by
  have hrun : talkedSystem.any fun s => (s.leaders [65]).any fun st =>
      (sent pairNetwork s.logs [66] 4 [65]).any fun m => decide
        (((tookMessage st m).blockPool.length = 4 ∧ linkedAll (tookMessage st m) = true ∧
          ∀ j ∈ pairNetwork.shardIDList, (messageOf (tookMessage st m) j).Proven) ∧
        ∀ bad ∈ [unprovenMessage (st.blockData.lastHash [66])],
          (tookMessage st bad).blockPool.length = 4 ∧ linkedAll (tookMessage st bad) = true ∧
          (tookMessage st bad).blockData.finished [66] = some bad ∧
          (handleStateTransition pairNetwork [65] 0 roundInput (tookMessage st bad)).1 =
            .error .panic) := by decide +kernel
  obtain ⟨s, hs, hrun⟩ := (Option.any_eq_true _ _).mp hrun
  obtain ⟨st, hst, hrun⟩ := (Option.any_eq_true _ _).mp hrun
  obtain ⟨m, hm, hrun⟩ := (Option.any_eq_true _ _).mp hrun
  obtain ⟨hgood, hbad⟩ := of_decide_eq_true hrun
  exact ⟨s, st, m, hs, hst, hm, hgood, fun bad hbad' => hbad bad (List.mem_singleton.mpr hbad')⟩

/-- With the message that the second leader has sent, the first one makes its block. -/
theorem produces_sent :
    ∃ s st m, talkedSystem = some s ∧ s.leaders [65] = some st ∧
      sent pairNetwork s.logs [66] 4 [65] = some m ∧ (tookMessage st m).blockPool.length = 4 ∧
      Produces pairNetwork [65] (tookMessage st m) roundInput [[], []] := by
  obtain ⟨s, st, m, hs, hst, hm, ⟨hpool, hlinked, hproven⟩, -⟩ := talkedSystem_checks
  refine ⟨s, st, m, hs, hst, hm, hpool, ?_⟩
  exact (produces_iff pairNetwork [65] (tookMessage st m) roundInput [[], []]
    (messageOf (tookMessage st m)) (by decide) hpool.ge (linked_of_linkedAll hlinked)).mpr hproven

/-- Anyone can send a message without proofs in its place. It is linked, and then no block can be
made: the process ends. -/
theorem not_produces_unprovenMessage :
    ∃ s st m, talkedSystem = some s ∧ s.leaders [65] = some st ∧
      m = unprovenMessage (st.blockData.lastHash [66]) ∧ (tookMessage st m).blockPool.length = 4 ∧
      (∀ j ∈ pairNetwork.shardIDList,
        LinkedMessage pairNetwork (tookMessage st m) j (messageOf (tookMessage st m) j)) ∧
      (∀ inp opTxs, ¬ Produces pairNetwork [65] (tookMessage st m) inp opTxs) ∧
      (handleStateTransition pairNetwork [65] 0 roundInput (tookMessage st m)).1 =
        .error .panic := by
  obtain ⟨s, st, -, hs, hst, -, -, hbad⟩ := talkedSystem_checks
  obtain ⟨m, hm⟩ : ∃ m, m = unprovenMessage (st.blockData.lastHash [66]) := ⟨_, rfl⟩
  obtain ⟨hpool, hlinked, hfinished, hpanic⟩ := hbad m hm
  refine ⟨s, st, m, hs, hst, hm, hpool, linked_of_linkedAll hlinked, ?_, hpanic⟩
  intro inp opTxs ⟨b, hmake, _⟩
  have hproven := proven_of_makeBlock (s := (enterNextView pairNetwork [65] _).2) hpool.ge hmake
    (j := [66]) (by decide) hfinished
  rw [hm] at hproven
  exact Bool.false_ne_true hproven.1

end Emulator.Urd
