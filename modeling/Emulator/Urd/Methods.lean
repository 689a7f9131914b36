import Emulator.Urd.Consensus

/-!
# What the methods of an Urd node do

* `State.fetchBlock_eq` — the block pool holds the last seven of the blocks that were appended.
* `assembled_of_makeBlock`, `exists_makeBlock` — what `make_block` puts into a block, and when it
  does not panic.
* `run_addBlock`, `run_countVote` — the calls in `doPropose`.
* `proposes`, `validates` — everything that `doPropose` and `doValidate` can do.
* `addPart_cases`, `addPartSetHeader_cases` — what becomes of a part and of a header.
* `exists_snd_countVote`, `exists_snd_addCrossShardMessage` — the fields that a method can change.
* `takeStep_elim`, `start_elim` — a rule for the states that a step can leave.
* `handleStateTransition_idle`, `handleStateTransition_taken` — what a round adds to its step.
* `keeps_takeMessage` — what every kind of message keeps.
-/

namespace Emulator.Urd

open Emulator.Action HotStuff

variable {α : Type} {P : Network α}

/-! ## The block pool -/

/-- The last seven entries, which is what `append_block` keeps. -/
def lastSeven {β : Type} (l : List β) : List β := l.drop (l.length - 7)

variable {st : State α} {β : Type} {b : Block} {bd : BlockData} {hdp : HeightDataPackage}

theorem length_lastSeven (l : List β) : (lastSeven l).length = min l.length 7 := by
  rw [lastSeven, List.length_drop]
  omega

theorem lastSeven_concat (l : List β) (b : β) :
    lastSeven (l ++ [b]) = l.drop (l.length + 1 - 7) ++ [b] := by
  rw [lastSeven, List.length_append, List.length_singleton,
    List.drop_append_of_le_length (by omega)]

theorem getLast?_lastSeven (l : List β) : (lastSeven l).getLast? = l.getLast? := by
  cases l with
  | nil => rfl
  | cons b l => rw [lastSeven, List.getLast?_drop, if_neg (by rw [List.length_cons]; omega)]

theorem State.blockPool_appendBlock {l : List Block} (h : st.blockPool = lastSeven l) (b : Block) :
    (st.appendBlock b).blockPool = lastSeven (l ++ [b]) := by
  have hlen := length_lastSeven l
  rw [lastSeven_concat]
  simp only [State.appendBlock, h]
  split_ifs with h7
  · rw [lastSeven, List.drop_drop, show l.length - 7 + 1 = l.length + 1 - 7 by omega]
  · rw [lastSeven, show l.length - 7 = l.length + 1 - 7 by omega]

/-- `fetch_block` counts back from the last block that was appended. -/
theorem State.fetchBlock_eq {l : List Block} (h : st.blockPool = lastSeven l) {k : ℕ} (hk : k < 7) :
    st.fetchBlock (k + 1) = l.reverse[k]? := by
  have hlen := length_lastSeven l
  unfold State.fetchBlock
  rw [h, hlen]
  split_ifs with hlt
  · rw [List.getElem?_eq_none]
    rw [List.length_reverse]
    omega
  · rw [List.getElem?_reverse (by omega), lastSeven, List.getElem?_drop,
      show l.length - 7 + (min l.length 7 - (k + 1)) = l.length - 1 - k by omega]

/-! ## Making a block -/

/-- What `make_block` puts into a block. The thresholds are on the size of the pool. -/
structure Assembled (P : Network α) (me : Str) (st : State α) (opTxs : List Txs) (b : Block) :
    Prop where
  chainID : b.chainID = me
  view : b.view = st.view
  round : b.round = st.round
  hashPointer : b.hashPointer = hashOf P.lib (st.fetchBlock 1)
  opt : b.opt = opTxs.map (txsHash P.lib)
  outputTxsRoot : b.outputTxsRoot = Merkle.hashFromByteSlices P.lib.sum b.opt
  commitIntentionRoot : ∀ ci ∈ b.ci, b.commitIntentionRoot = ci.hash P.lib
  noVote : st.blockPool.length < 1 → b.aggSigVote = none
  vote : 1 ≤ st.blockPool.length →
    ∃ csm, st.blockData.j1finished me = some csm ∧ b.aggSigVote = some csm.aggVote
  noIntention : st.blockPool.length < 2 → b.ci = none
  noCertificate : st.blockPool.length < 4 → b.cc = [] ∧ b.ctxs = [] ∧ b.ctxsProof = []
  intention : 2 ≤ st.blockPool.length →
    ∃ csms, P.shardIDList.mapM st.blockData.j1finished = some csms ∧
      b.ci = some ⟨csms.map CrossShardMessage.getLastHash, csms.map CrossShardMessage.aggVote⟩ ∧
      (4 ≤ st.blockPool.length → csms.mapM certificateCore = some b.cc ∧
        b.ctxs = csms.map CrossShardMessage.oPTXs ∧
        csms.mapM CrossShardMessage.outputTxsProof = some b.ctxsProof)

theorem fromPool_eq_some {s : State α} {n : ℕ} {p : Option β} {empty b : β} :
    fromPool s n p empty = some b ↔
      (n ≤ s.blockPool.length → p = some b) ∧ (s.blockPool.length < n → b = empty) := by
  unfold fromPool
  split_ifs with h
  · exact ⟨fun hp => ⟨fun _ => hp, fun hlt => absurd h (Nat.not_le.mpr hlt)⟩, fun hp => hp.1 h⟩
  · exact ⟨fun hp => ⟨fun hle => absurd hle h, fun _ => (Option.some.inj hp).symm⟩,
      fun hp => congrArg some (hp.2 (Nat.not_le.mp h)).symm⟩

theorem exists_fromPool {s : State α} {n : ℕ} {p : Option β} (empty : β)
    (h : n ≤ s.blockPool.length → ∃ b, p = some b) : ∃ b, fromPool s n p empty = some b := by
  unfold fromPool
  split_ifs with hle
  · exact h hle
  · exact ⟨empty, rfl⟩

theorem assembled_of_makeBlock {me : Str} {inp : Input} {opTxs : List Txs}
    (h : makeBlock P me st inp opTxs = some b) : Assembled P me st opTxs b := by
  obtain ⟨vote, hvote, h⟩ := Option.bind_eq_some_iff.mp h
  obtain ⟨csms, hcsms, h⟩ := Option.bind_eq_some_iff.mp h
  obtain ⟨ci, hci, h⟩ := Option.bind_eq_some_iff.mp h
  obtain ⟨cc, hcc, h⟩ := Option.bind_eq_some_iff.mp h
  obtain ⟨ctxs, hctxs, h⟩ := Option.bind_eq_some_iff.mp h
  obtain ⟨proofs, hproofs, h⟩ := Option.bind_eq_some_iff.mp h
  rw [fromPool_eq_some] at hvote hcsms hci hcc hctxs hproofs
  obtain rfl := Option.some.inj h
  exact
    { chainID := rfl
      view := rfl
      round := rfl
      hashPointer := rfl
      opt := rfl
      outputTxsRoot := rfl
      commitIntentionRoot := by
        intro ci' hci'
        obtain rfl : ci = some ci' := hci'
        rfl
      noVote := hvote.2
      vote := fun hle => by
        obtain ⟨csm, hcsm, rfl⟩ := Option.map_eq_some_iff.mp (hvote.1 hle)
        exact ⟨csm, hcsm, rfl⟩
      noIntention := hci.2
      noCertificate := fun hlt => ⟨hcc.2 hlt, hctxs.2 hlt, hproofs.2 hlt⟩
      intention := fun hle =>
        ⟨csms, hcsms.1 hle, (Option.some.inj (hci.1 hle)).symm, fun h4 =>
          ⟨hcc.1 h4, (Option.some.inj (hctxs.1 h4)).symm, hproofs.1 h4⟩⟩ }

/-- `make_block` does not panic when the messages it reads are there, with their proofs. -/
theorem exists_makeBlock {me : Str} (hme : me ∈ P.shardIDList) (inp : Input) (opTxs : List Txs)
    (hmsg : 1 ≤ st.blockPool.length → ∀ j ∈ P.shardIDList, ∃ m, st.blockData.j1finished j = some m ∧
      (4 ≤ st.blockPool.length → m.proofOfIntention.isSome ∧ m.outputTxsProof.isSome)) :
    ∃ b, makeBlock P me st inp opTxs = some b := by
  obtain ⟨vote, hvote⟩ := exists_fromPool (s := st) (n := 1)
    (p := (st.blockData.j1finished me).map fun csm => some csm.aggVote) none fun hle => by
      obtain ⟨m, hm, -⟩ := hmsg hle me hme
      exact ⟨some m.aggVote, by rw [hm]; rfl⟩
  obtain ⟨csms, hcsms⟩ := exists_fromPool (s := st) (n := 2)
    (p := P.shardIDList.mapM st.blockData.j1finished) [] fun hle =>
      exists_mapM fun j hj => (hmsg (by omega) j hj).imp fun m hm => hm.1
  have hproof : 4 ≤ st.blockPool.length → ∀ m ∈ csms,
      m.proofOfIntention.isSome ∧ m.outputTxsProof.isSome := by
    intro h4 m hm
    obtain ⟨j, hj, hjm⟩ := exists_of_mem_mapM ((fromPool_eq_some.mp hcsms).1 (by omega)) hm
    obtain ⟨m', hm', hp⟩ := hmsg (by omega) j hj
    obtain rfl := Option.some.inj (hm'.symm.trans hjm)
    exact hp h4
  obtain ⟨cc, hcc⟩ := exists_fromPool (s := st) (n := 4) (p := csms.mapM certificateCore) []
    fun h4 => exists_mapM fun m hm => by
      obtain ⟨p, hp⟩ := Option.isSome_iff_exists.mp (hproof h4 m hm).1
      exact ⟨_, by rw [certificateCore, hp]; rfl⟩
  obtain ⟨proofs, hproofs⟩ := exists_fromPool (s := st) (n := 4)
    (p := csms.mapM CrossShardMessage.outputTxsProof) [] fun h4 =>
      exists_mapM fun m hm => Option.isSome_iff_exists.mp (hproof h4 m hm).2
  obtain ⟨ci, hci⟩ := exists_fromPool (s := st) (n := 2)
    (p := some (some (CommitIntention.mk (csms.map CrossShardMessage.getLastHash)
      (csms.map CrossShardMessage.aggVote)))) none fun _ => ⟨_, rfl⟩
  obtain ⟨ctxs, hctxs⟩ := exists_fromPool (s := st) (n := 4)
    (p := some (csms.map CrossShardMessage.oPTXs)) [] fun _ => ⟨_, rfl⟩
  unfold makeBlock
  simp only [hvote, hcsms, hci, hcc, hctxs, hproofs, Option.bind_eq_bind, Option.bind_some]
  exact ⟨_, rfl⟩

/-! ## Executing -/

/-- The relay lists are what the application returned for the executed block. -/
def Executed.Returned (P : Network α) (i : Str) (ex : Executed α) : Prop :=
  match ex.executed with
  | none => ex.opTxs = []
  | some b =>
    ex.opTxs = (P.execution i ex.app (b.ptxs.getD []) (b.crossShardTxs.getD []) b.ctxs).1

section

variable (P : Network α) (me : Str) (s : State α)

/-- What `commit_and_execution_j_2` returns. -/
def executionJ2 : Executed α :=
  match s.fetchBlock 2 with
  | none => { executed := none, app := s.app, opTxs := [] }
  | some b =>
    { executed := some b, app := s.app
      opTxs := (P.execution me s.app (b.ptxs.getD []) (b.crossShardTxs.getD []) b.ctxs).1 }

/-- The application after it. -/
def executedApp : α :=
  match s.fetchBlock 2 with
  | none => s.app
  | some b => (P.execution me s.app (b.ptxs.getD []) (b.crossShardTxs.getD []) b.ctxs).2

theorem commitAndExecutionJ2_eq :
    commitAndExecutionJ2 P me s = (.ok (executionJ2 P me s),
      { s with
        app := executedApp P me s
        log := { s.log with executed := s.log.executed ++ (s.fetchBlock 2).toList } }) := by
  unfold commitAndExecutionJ2 executionJ2 executedApp
  cases s.fetchBlock 2 with
  | none => rw [Option.toList_none, List.append_nil]
  | some b => rfl

theorem executed_executionJ2 : (executionJ2 P me s).executed = s.fetchBlock 2 := by
  unfold executionJ2
  cases s.fetchBlock 2 with
  | none => rfl
  | some b => rfl

theorem returned_executionJ2 : (executionJ2 P me s).Returned P me := by
  unfold executionJ2
  cases s.fetchBlock 2 with
  | none => rfl
  | some b => rfl

end

/-! ## Collecting parts -/

theorem snd_ignoring {σ : Type} (x : Action Fault σ Unit) (s : σ) : (ignoring x s).2 = (x s).2 := by
  unfold ignoring
  rw [run_bind_ok (run_attempt x s)]
  cases (x s).1 with
  | ok u => rfl
  | error e => cases e <;> rfl

theorem blocks_setPartSet (bd : BlockData) (v r : ℤ) (ps : PartSet) (v' r' : ℤ) :
    (bd.setPartSet v r ps).blocks v' r' =
      if v' = v ∧ r' = r then some ps else bd.blocks v' r' := by
  by_cases hv : v' = v
  · subst hv
    by_cases hr : r' = r
    · subst hr
      simp [BlockData.setPartSet]
    · simp [BlockData.setPartSet, hr]
  · simp [BlockData.setPartSet, hv]

theorem retainBlockParts_appendPart {p : Part} (h : bd.old p.height p.round = false) (v r : ℤ) :
    (bd.appendPart p).retainBlockParts v r =
      if v = p.height ∧ r = p.round then bd.retainBlockParts v r ++ [p]
      else bd.retainBlockParts v r := by
  rw [BlockData.appendPart, h]
  by_cases hv : v = p.height
  · subst hv
    by_cases hr : r = p.round
    · subst hr
      simp
    · simp [hr]
  · simp [hv]

theorem blocks_appendPart (bd : BlockData) (p : Part) : (bd.appendPart p).blocks = bd.blocks := by
  unfold BlockData.appendPart
  split_ifs <;> rfl

/-- A part is refused, kept for later, or put into the part set of its view. -/
theorem addPart_cases (lib : Lib) (p : Part) (bd : BlockData) :
    (BlockData.addPart lib p bd).2 = bd ∨ (BlockData.addPart lib p bd).2 = bd.appendPart p ∨
      ∃ ps ps', bd.blocks p.height p.round = some ps ∧ ps.addPart (blockLib lib) p = .ok ps' ∧
        (BlockData.addPart lib p bd).2 = bd.setPartSet p.height p.round ps' := by
  unfold BlockData.addPart
  rw [run_bind_ok (run_get bd), run_bind, run_require]
  cases bd.old p.height p.round with
  | true => exact .inl rfl
  | false =>
    simp only [Bool.not_false, if_true]
    cases hps : bd.blocks p.height p.round with
    | none => exact .inr (.inl rfl)
    | some ps =>
      simp only
      cases hadd : ps.addPart (blockLib lib) p with
      | error e => cases e <;> exact .inl rfl
      | ok ps' => exact .inr (.inr ⟨ps, ps', rfl, hadd, rfl⟩)

/-- A header is refused, or it opens a part set for which the parts that are there are taken. -/
theorem addPartSetHeader_cases (lib : Lib) (header : PartSetHeader) (headerHash : Bytes)
    (bd : BlockData) :
    (BlockData.addPartSetHeader lib header headerHash bd).2 = bd ∨
      (BlockData.addPartSetHeader lib header headerHash bd).2 =
        (forEach (fun p => ignoring (BlockData.addPart lib p))
          (bd.retainBlockParts header.height header.round)
          (bd.setPartSet header.height header.round (newPartSet header headerHash))).2 := by
  unfold BlockData.addPartSetHeader
  rw [run_bind_ok (run_get bd), run_bind, run_require]
  cases bd.old header.height header.round with
  | true => exact .inl rfl
  | false =>
    simp only [Bool.not_false, if_true]
    rw [run_bind, run_require]
    cases (bd.blocks header.height header.round).isNone with
    | false => exact .inl rfl
    | true => exact .inr rfl

/-! ## Storing and counting -/

theorem run_addBlock {lib : Lib} {size : ℕ} {round : ℤ} (hold : bd.old b.view round = false)
    (hnone : bd.blocks b.view round = none) :
    BlockData.addBlock lib b size round bd =
      (.ok (), bd.setPartSet b.view round (partSetFromBlock (blockLib lib) b size round)) := by
  unfold BlockData.addBlock BlockData.addPartSet
  rw [run_bind_ok (run_get bd), run_bind_ok (require_eq_ok.mpr ⟨?_, rfl⟩),
    run_bind_ok (require_eq_ok.mpr ⟨?_, rfl⟩), run_modify]
  · rfl
  · show (bd.blocks b.view round).isNone = true
    rw [hnone]
    rfl
  · show (!bd.old b.view round) = true
    rw [hold]
    rfl

theorem run_addBlock_taken {lib : Lib} {size : ℕ} {round : ℤ} (hold : bd.old b.view round = false)
    (hsome : bd.blocks b.view round ≠ none) :
    BlockData.addBlock lib b size round bd = (.error .partSetExists, bd) := by
  have hold' : (!bd.old (partSetFromBlock (blockLib lib) b size round).header.height
      (partSetFromBlock (blockLib lib) b size round).header.round) = true := by
    show (!bd.old b.view round) = true
    rw [hold]
    rfl
  have htaken : (bd.blocks (partSetFromBlock (blockLib lib) b size round).header.height
      (partSetFromBlock (blockLib lib) b size round).header.round).isNone = false :=
    Option.isNone_eq_false_iff.mpr (Option.isSome_iff_ne_none.mpr hsome)
  unfold BlockData.addBlock BlockData.addPartSet
  rw [run_bind_ok (run_get bd), run_bind_ok (require_eq_ok.mpr ⟨hold', rfl⟩), htaken]
  rfl

theorem run_onBlockData {x : Action Fault BlockData β} {r : Except Fault β}
    (h : x st.blockData = (r, bd)) : onBlockData x st = (r, { st with blockData := bd }) := by
  rw [onBlockData, h]

theorem run_checkQuorum (h : st.heightDatas = some hdp) :
    checkQuorum st = (.ok (isQuorum hdp), st) := by
  rw [checkQuorum, run_bind_ok (run_get st), run_bind_ok (orThrow_eq_ok.mpr ⟨h, rfl⟩)]
  rfl

theorem run_checkQuorum_none (h : st.heightDatas = none) :
    checkQuorum st = (.error .panic, st) := by
  rw [checkQuorum, run_bind_ok (run_get st), h]
  rfl

theorem run_countVote {vote : Vote} {hdp' : HeightDataPackage} (hst : st.heightDatas = some hdp)
    (h : addVote P.bls P.lib.vote hdp vote = .ok hdp') :
    countVote P vote st = (.ok (), { st with heightDatas := some hdp' }) := by
  rw [countVote, run_bind_ok (run_get st), run_bind_ok (orThrow_eq_ok.mpr ⟨hst, rfl⟩), h]
  rfl

/-! ## Proposing -/

section

variable (P : Network α) (me : Str) (index : ℕ) (inp : Input) (s : State α)

/-- The state in which `doPropose` makes its block: the next view is entered. -/
def entered : State α :=
  { s with
    app := executedApp P me s
    log := { s.log with executed := s.log.executed ++ (s.fetchBlock 2).toList }
    blockData := s.blockData.next (s.view + 1) 0
    view := s.view + 1
    round := 0
    heightDatas := some (newHeightDataPackage (newVerifier (P.shards me).peerList)
      (perVotes (P.shards me).peerList) (s.view + 1) 0) }

/-- The block of `doPropose`. -/
def newBlock : Option Block := makeBlock P me (entered P me s) inp (executionJ2 P me s).opTxs

/-- The leader's vote for its own block. -/
def ownVote (b : Block) : Vote := generateVoteForBlock P me index b b.hashPointer true

/-- That vote is the first one to be counted in the package of its view. -/
def countOwnVote (b : Block) : Except VoteError HeightDataPackage :=
  addVote P.bls P.lib.vote
    (startPackage (P.shards me).peerList b.view b.round (b.hash P.lib)) (ownVote P me index b)

/-- The leader's signature under its own vote is valid. -/
def OwnVoteVerifies (b : Block) : Prop :=
  (verifier P me).verify P.bls (ownVote P me index b).sign
    ((ownVote P me index b).signBytes P.lib.vote) index = some true

/-- The relay lists are kept before the block is stored. -/
def relaysKept : State α :=
  { entered P me s with
    blockData := { (entered P me s).blockData with
      j1CrossShardTxs := (executionJ2 P me s).opTxs } }

/-- The block is stored and signed; the leader's vote is not counted yet. -/
def blockStored (b : Block) : State α :=
  { relaysKept P me s with
    blockData := (relaysKept P me s).blockData.setPartSet b.view 0
      (partSetFromBlock (blockLib P.lib) b 40960 0)
    heightDatas := some (startPackage (P.shards me).peerList b.view b.round (b.hash P.lib))
    log := { (entered P me s).log with
      made := s.log.made ++ [{ executionJ2 P me s with block := b }]
      votes := s.log.votes ++ [ownVote P me index b] } }

/-- The error of `AddVote`. -/
def voteFault : VoteError → Fault
  | .indexPanic => .panic
  | e => .vote e

/-- Everything `doPropose` can do. It can fail after it has entered the next view only. -/
inductive Proposes : Except Fault Unit × State α → Prop
  /-- a message or a proof that `make_block` reads is not there -/
  | noBlock (hb : newBlock P me inp s = none) : Proposes (.error .panic, entered P me s)
  /-- the slot of the next view has a part set -/
  | slotTaken {b : Block} (hb : newBlock P me inp s = some b)
      (hslot : s.blockData.blocks (s.view + 1) 0 ≠ none) :
      Proposes (.error .partSetExists, relaysKept P me s)
  | voteRefused {b : Block} (hb : newBlock P me inp s = some b)
      (hslot : s.blockData.blocks (s.view + 1) 0 = none) {e : VoteError}
      (hvote : countOwnVote P me index b = .error e) :
      Proposes (.error (voteFault e), blockStored P me index s b)
  | done {b : Block} (hb : newBlock P me inp s = some b)
      (hslot : s.blockData.blocks (s.view + 1) 0 = none) {hdp : HeightDataPackage}
      (hvote : countOwnVote P me index b = .ok hdp) :
      Proposes (.ok (), ({ blockStored P me index s b with heightDatas := some hdp }).appendBlock b)

/-- A validator has sent its vote for a block. -/
def voted (b : Block) (ok : Bool) : State α :=
  { s with
    log := { s.log with
      votes := s.log.votes ++
        [generateVoteForBlock P me index b (hashOf P.lib (s.fetchBlock 1)) ok] } }

/-- Everything `doValidate` can do. A block that is refused only costs a vote. -/
inductive Validates (b : Block) : Except Fault Unit × State α → Prop
  | panicked (hverify : verifyBlock P s b = .error .panic) : Validates b (.error .panic, s)
  | refused {e : VerifyError} (hverify : verifyBlock P s b = .error e) (he : e ≠ .panic) :
      Validates b (.ok (), voted P me index s b false)
  | accepted (hverify : verifyBlock P s b = .ok ()) :
      Validates b (.ok (), (entered P me (voted P me index s b true)).appendBlock b)

variable {P me s} {b : Block}

theorem run_doValidate_ok (hverify : verifyBlock P s b = .ok ()) :
    doValidate P me index b s = (.ok (), (entered P me (voted P me index s b true)).appendBlock b) := by
  unfold doValidate
  rw [run_bind_ok (run_get s), hverify]
  exact run_bind_ok (commitAndExecutionJ2_eq P me (voted P me index s b true))

theorem run_doValidate_error {e : VerifyError} (hverify : verifyBlock P s b = .error e)
    (he : e ≠ .panic) : doValidate P me index b s = (.ok (), voted P me index s b false) := by
  unfold doValidate
  rw [run_bind_ok (run_get s), hverify]
  cases e with
  | panic => exact absurd rfl he
  | _ => rfl

variable (P me s b) in
theorem validates : Validates P me index s b (doValidate P me index b s) := by
  cases hverify : verifyBlock P s b with
  | ok u =>
    rw [run_doValidate_ok index hverify]
    exact .accepted hverify
  | error e =>
    by_cases he : e = .panic
    · subst he
      unfold doValidate
      rw [run_bind_ok (run_get s), hverify]
      exact .panicked hverify
    · rw [run_doValidate_error index hverify he]
      exact .refused hverify he

end

section

variable {P : Network α} {me : Str} {index : ℕ} {inp : Input} {s : State α}

theorem run_countVote_error {vote : Vote} {e : VoteError} (hst : st.heightDatas = some hdp)
    (h : addVote P.bls P.lib.vote hdp vote = .error e) :
    countVote P vote st = (.error (voteFault e), st) := by
  rw [countVote, run_bind_ok (run_get st), run_bind_ok (orThrow_eq_ok.mpr ⟨hst, rfl⟩), h]
  cases e <;> rfl

section

variable (hb : newBlock P me inp s = some b)

include hb

theorem newBlock_slot : b.view = s.view + 1 ∧ b.round = 0 := by
  have hasm := assembled_of_makeBlock hb
  exact ⟨hasm.view, hasm.round⟩

/-- The slot of that view is not old, and what it has was there before. -/
theorem relaysKept_slot :
    (relaysKept P me s).blockData.old b.view 0 = false ∧
      (relaysKept P me s).blockData.blocks b.view 0 = s.blockData.blocks (s.view + 1) 0 := by
  rw [(newBlock_slot hb).1]
  simp [relaysKept, entered, BlockData.old, BlockData.next]

theorem setHash_relaysKept (bd : BlockData) :
    setHash P me (b.hash P.lib) { relaysKept P me s with blockData := bd } = (.ok (),
      { relaysKept P me s with
        blockData := bd
        heightDatas := some
          (startPackage (P.shards me).peerList b.view b.round (b.hash P.lib)) }) := by
  rw [(newBlock_slot hb).1, (newBlock_slot hb).2]
  rfl

end

theorem proposes (P : Network α) (me : Str) (index : ℕ) (inp : Input) (s : State α) :
    Proposes P me index inp s (doPropose P me index inp s) := by
  have henter : enterNextView P me
      { s with
        app := executedApp P me s
        log := { s.log with executed := s.log.executed ++ (s.fetchBlock 2).toList } } =
      (.ok (), entered P me s) := rfl
  unfold doPropose
  rw [run_bind_ok (commitAndExecutionJ2_eq P me s), run_bind_ok henter, run_bind_ok (run_get _)]
  cases hb : makeBlock P me (entered P me s) inp (executionJ2 P me s).opTxs with
  | none => exact .noBlock hb
  | some b =>
    obtain ⟨hold, hblocks⟩ := relaysKept_slot hb
    have hkeep : Action.modify (fun st : State α => { st with
        blockData := { st.blockData with j1CrossShardTxs := (executionJ2 P me s).opTxs } })
          (entered P me s) = ((.ok (), relaysKept P me s) : Except Fault Unit × State α) := rfl
    rw [run_bind_ok (run_orThrow_some b _ _), run_bind_ok hkeep]
    by_cases hslot : s.blockData.blocks (s.view + 1) 0 = none
    · have hadd : BlockData.addBlock P.lib b 40960 (entered P me s).round
          (relaysKept P me s).blockData = _ := run_addBlock hold (hblocks.trans hslot)
      rw [run_bind_ok (run_onBlockData hadd), run_bind_ok (setHash_relaysKept hb _),
        run_bind_ok (run_modify _ _)]
      have hopen : (blockStored P me index s b).heightDatas =
          some (startPackage (P.shards me).peerList b.view b.round (b.hash P.lib)) := rfl
      -- what is left is to count the vote
      show Proposes P me index inp s ((countVote P (ownVote P me index b) >>= fun _ =>
        Action.modify (·.appendBlock b)) (blockStored P me index s b))
      cases hvote : countOwnVote P me index b with
      | error e =>
        rw [run_bind_error (run_countVote_error hopen hvote)]
        exact .voteRefused hb hslot hvote
      | ok hdp =>
        rw [run_bind_ok (run_countVote hopen hvote)]
        exact .done hb hslot hvote
    · have hadd : BlockData.addBlock P.lib b 40960 (entered P me s).round
          (relaysKept P me s).blockData = _ := run_addBlock_taken hold (hblocks.trans_ne hslot)
      rw [run_bind_error (run_onBlockData hadd)]
      exact .slotTaken hb hslot

/-- `doPropose` enters the next view, whatever happens then. -/
theorem doPropose_snd (P : Network α) (me : Str) (index : ℕ) (inp : Input) (s : State α) :
    (doPropose P me index inp s).2.view = s.view + 1 ∧
      (doPropose P me index inp s).2.step = s.step ∧
      (doPropose P me index inp s).2.heightDatas.isSome := by
  have hrun := proposes P me index inp s
  generalize doPropose P me index inp s = r at hrun
  cases hrun with
  | noBlock _ | slotTaken _ _ | voteRefused _ _ _ | done _ _ _ => exact ⟨rfl, rfl, rfl⟩

/-- The leader's vote is refused only for its signature. -/
theorem countOwnVote_cases (P : Network α) (me : Str) (index : ℕ) (b : Block) :
    (OwnVoteVerifies P me index b ∧ ∃ hdp, countOwnVote P me index b = .ok hdp) ∨
      ¬ OwnVoteVerifies P me index b ∧ countOwnVote P me index b = .error .invalidSign := by
  have hindex : (ownVote P me index b).validatorIndex = index := rfl
  rcases addVote_startPackage P.bls P.lib.vote (P.shards me).peerList hindex with
    ⟨hverify, hok⟩ | ⟨hverify, herror⟩
  · exact .inl ⟨hverify, hok⟩
  · refine .inr ⟨fun htrue => ?_, herror⟩
    cases hverify.symm.trans htrue

end

/-! ## What the methods leave alone -/

variable {P : Network α} {me : Str} {index : ℕ} {inp : Input} {s : State α}
  {hdp : HeightDataPackage} {sig : AggregatedVote} {Q : State α → Prop}

/-- A vote that is refused changes nothing. -/
theorem countVote_cases (P : Network α) (vote : Vote) (s : State α) :
    (∃ e, countVote P vote s = (.error e, s)) ∨
      ∃ hdp hdp', s.heightDatas = some hdp ∧ addVote P.bls P.lib.vote hdp vote = .ok hdp' ∧
        countVote P vote s = (.ok (), { s with heightDatas := some hdp' }) := by
  cases hhdp : s.heightDatas with
  | none =>
    refine .inl ⟨.panic, ?_⟩
    rw [countVote, run_bind_ok (run_get s), hhdp]
    rfl
  | some hdp =>
    cases hadd : addVote P.bls P.lib.vote hdp vote with
    | error e => exact .inl ⟨_, run_countVote_error hhdp hadd⟩
    | ok hdp' => exact .inr ⟨hdp, hdp', rfl, hadd, run_countVote hhdp hadd⟩

theorem exists_snd_countVote (P : Network α) (vote : Vote) (s : State α) :
    ∃ heightDatas, (countVote P vote s).2 = { s with heightDatas } := by
  rcases countVote_cases P vote s with ⟨e, herror⟩ | ⟨hdp, hdp', -, -, hok⟩
  · exact ⟨s.heightDatas, by rw [herror]⟩
  · exact ⟨some hdp', by rw [hok]⟩

/-- What `GetMaj23` returns is what it keeps; an error changes nothing. -/
theorem aggregateVotes_cases (P : Network α) (s : State α) :
    (∃ e, aggregateVotes P s = (.error e, s)) ∨
      ∃ sig hdp hdp', s.heightDatas = some hdp ∧ getMaj23 P.bls hdp = some (sig, hdp') ∧
        aggregateVotes P s = (.ok sig, { s with heightDatas := some hdp' }) := by
  unfold aggregateVotes
  rw [run_bind_ok (run_get s)]
  cases hhdp : s.heightDatas with
  | none => exact .inl ⟨.panic, rfl⟩
  | some hdp =>
    rw [run_bind_ok (run_orThrow_some hdp _ s)]
    cases hmaj : getMaj23 P.bls hdp with
    | none => exact .inl ⟨.noMaj23, rfl⟩
    | some r => exact .inr ⟨r.1, hdp, r.2, rfl, hmaj, rfl⟩

theorem aggregateVotes_eq_ok {s' : State α} (h : aggregateVotes P s = (.ok sig, s')) :
    ∃ hdp hdp', s.heightDatas = some hdp ∧
      getMaj23 P.bls hdp = some (sig, hdp') ∧ s' = { s with heightDatas := some hdp' } := by
  rcases aggregateVotes_cases P s with ⟨e, herror⟩ | ⟨sig', hdp, hdp', hhdp, hmaj, hok⟩
  · cases herror.symm.trans h
  · obtain ⟨hsig, hs'⟩ := Prod.mk.inj (hok.symm.trans h)
    obtain rfl := Except.ok.inj hsig
    exact ⟨hdp, hdp', hhdp, hmaj, hs'.symm⟩

/-- A message comes from the shard and carries the aggregated vote. -/
theorem messageFor_eq_some {i : ℕ} {m : CrossShardMessage} (h : messageFor P me s sig i = some m) :
    m.sourceChain = me ∧ m.aggVote = sig := by
  unfold messageFor at h
  split_ifs at h
  · obtain ⟨b, -, h⟩ := Option.bind_eq_some_iff.mp h
    obtain ⟨ci, -, h⟩ := Option.bind_eq_some_iff.mp h
    obtain ⟨proof, -, h⟩ := Option.bind_eq_some_iff.mp h
    obtain ⟨txs, -, h⟩ := Option.bind_eq_some_iff.mp h
    obtain ⟨output, -, h⟩ := Option.bind_eq_some_iff.mp h
    obtain rfl := Option.some.inj h
    exact ⟨rfl, rfl⟩
  · obtain rfl := Option.some.inj h
    exact ⟨rfl, rfl⟩

theorem exists_snd_redoShard (P : Network α) (me shard : Str) (s : State α) :
    ∃ finished lastHash, (redoShard P me shard s).2 =
      { s with blockData := { s.blockData with finished, lastHash } } := by
  unfold redoShard
  rw [run_bind_ok (run_get s)]
  split_ifs
  · exact ⟨_, _, rfl⟩
  · cases (s.store (storeKey shard (s.blockData.lastHash shard))).getD [] with
    | nil => exact ⟨_, _, rfl⟩
    | cons b bz =>
      simp only
      cases newCrossShardMessageFromBytes P.lib (b :: bz) with
      | none => exact ⟨_, _, rfl⟩
      | some csm => exact ⟨_, _, rfl⟩

/-- What `CrossShardCommunicate` can do: nothing comes of it, the votes are aggregated but there is a
message that cannot be made, or the own message is finished and the others are sent. -/
inductive Talks (P : Network α) (me : Str) (s : State α) : Except Fault Unit × State α → Prop
  | failed (e : Fault) (finished : Str → Option CrossShardMessage) (lastHash : Str → Bytes) :
    Talks P me s (.error e, { s with blockData := { s.blockData with finished, lastHash } })
  | stuck {sig : AggregatedVote} {hdp hdp' : HeightDataPackage} (hhdp : s.heightDatas = some hdp)
    (hmaj : getMaj23 P.bls hdp = some (sig, hdp'))
    (finished : Str → Option CrossShardMessage) (lastHash : Str → Bytes) :
    Talks P me s (.error .panic, { s with
      heightDatas := some hdp', blockData := { s.blockData with finished, lastHash } })
  | talked {sig : AggregatedVote} {hdp hdp' : HeightDataPackage} (hhdp : s.heightDatas = some hdp)
    (hmaj : getMaj23 P.bls hdp = some (sig, hdp'))
    (finished : Str → Option CrossShardMessage) (lastHash : Str → Bytes)
    {own : CrossShardMessage} (hsource : own.sourceChain = me) (hvote : own.aggVote = sig)
    (csms : List CrossShardMessage) :
    Talks P me s (.ok (), { s with
      heightDatas := some hdp'
      blockData := BlockData.extendHash { s.blockData with finished, lastHash } own
      log := { s.log with talks := s.log.talks ++ [csms] } })

theorem talks (P : Network α) (me : Str) (inp : Input) (s : State α) :
    Talks P me s (crossShardCommunicate P me inp s) := by
  have hredo : ∃ finished lastHash, (redoCrossShardMessage P me inp.order s).2 =
      { s with blockData := { s.blockData with finished, lastHash } } := by
    refine Keeps.forEach (R := fun s s' : State α => ∃ finished lastHash,
      s' = { s with blockData := { s.blockData with finished, lastHash } })
      (fun s => ⟨_, _, rfl⟩) ?_ (fun shard _ => exists_snd_redoShard P me shard) s
    rintro a b c ⟨finished, lastHash, rfl⟩ ⟨finished', lastHash', rfl⟩
    exact ⟨_, _, rfl⟩
  obtain ⟨finished, lastHash, hredo⟩ := hredo
  unfold crossShardCommunicate
  cases hrun : redoCrossShardMessage P me inp.order s with
  | mk r s₁ =>
    rw [hrun] at hredo
    obtain rfl : s₁ = _ := hredo
    cases r with
    | error e =>
      rw [run_bind_error hrun]
      exact .failed e finished lastHash
    | ok u =>
      rw [run_bind_ok hrun]
      rcases aggregateVotes_cases P { s with blockData := { s.blockData with finished, lastHash } }
        with ⟨e, herror⟩ | ⟨sig, hdp, hdp', hhdp, hmaj, hok⟩
      · rw [run_bind_error herror]
        exact .failed e finished lastHash
      · have hhdp : s.heightDatas = some hdp := hhdp
        rw [run_bind_ok hok, run_bind_ok (run_get _)]
        cases hcsms : (List.range P.shardIDList.length).mapM (messageFor P me
            { s with
              heightDatas := some hdp', blockData := { s.blockData with finished, lastHash } }
            sig) with
        | none => exact .stuck hhdp hmaj finished lastHash
        | some csms =>
          rw [run_bind_ok (run_orThrow_some csms _ _)]
          cases hown : csms[P.shardIDList.idxOf me]? with
          | none => exact .stuck hhdp hmaj finished lastHash
          | some own =>
            obtain ⟨i, -, hi⟩ := exists_of_mem_mapM hcsms (List.mem_of_getElem? hown)
            obtain ⟨hsource, hvote⟩ := messageFor_eq_some hi
            exact .talked hhdp hmaj finished lastHash hsource hvote csms

/-- The messages of the shards are the same. -/
structure SameMessages (bd bd' : BlockData) : Prop where
  finished : bd'.finished = bd.finished
  j1finished : bd'.j1finished = bd.j1finished
  lastHash : bd'.lastHash = bd.lastHash

namespace SameMessages

theorem refl (bd : BlockData) : SameMessages bd bd := ⟨rfl, rfl, rfl⟩

theorem trans (a b c : BlockData) (h : SameMessages a b) (h' : SameMessages b c) :
    SameMessages a c :=
  ⟨h'.finished.trans h.finished, h'.j1finished.trans h.j1finished, h'.lastHash.trans h.lastHash⟩

theorem addPart (lib : Lib) (p : Part) : Keeps SameMessages (BlockData.addPart lib p) := by
  intro bd
  rcases addPart_cases lib p bd with h | h | ⟨ps, ps', -, -, h⟩
  · rw [h]
    exact refl bd
  · rw [h, BlockData.appendPart]
    split_ifs <;> exact ⟨rfl, rfl, rfl⟩
  · rw [h]
    exact ⟨rfl, rfl, rfl⟩

theorem addPartSetHeader (lib : Lib) (header : PartSetHeader) (headerHash : Bytes) :
    Keeps SameMessages (BlockData.addPartSetHeader lib header headerHash) := by
  intro bd
  rcases addPartSetHeader_cases lib header headerHash bd with h | h
  · rw [h]
    exact refl bd
  · rw [h]
    have hreplay : Keeps SameMessages (forEach (fun p => ignoring (BlockData.addPart lib p))
        (bd.retainBlockParts header.height header.round)) := by
      refine Keeps.forEach refl trans fun p _ bd => ?_
      rw [snd_ignoring]
      exact addPart lib p bd
    have hopen : SameMessages bd
        (bd.setPartSet header.height header.round (newPartSet header headerHash)) := ⟨rfl, rfl, rfl⟩
    exact trans _ _ _ hopen (hreplay _)

end SameMessages

theorem exists_snd_addCrossShardMessage (P : Network α) (msg : CrossShardMessage) (s : State α) :
    ∃ store finished lastHash, (addCrossShardMessage P msg s).2 =
      { s with store, blockData := { s.blockData with finished, lastHash } } := by
  unfold addCrossShardMessage
  rw [run_bind_ok (run_get s), run_bind, run_require]
  cases P.shardIDList.contains msg.sourceChain with
  | false => exact ⟨_, _, _, rfl⟩
  | true =>
    simp only [if_true]
    rw [run_bind, run_require]
    cases (s.store (storeKey msg.sourceChain msg.getLastHash)).isNone with
    | false => exact ⟨_, _, _, rfl⟩
    | true =>
      simp only [if_true]
      rw [run_bind_ok (run_modify _ s)]
      split_ifs <;> exact ⟨_, _, _, rfl⟩

/-! ## One round -/

theorem nextStep_leader (hp : isProposer P me index = true) (h : s.heightDatas = some hdp) :
    nextStep P me index s = (.ok (if isQuorum hdp then .leaderWait else .leaderVote), s) := by
  unfold nextStep
  simp only [hp, Bool.not_true, Bool.false_eq_true, if_false]
  rw [run_bind_ok (run_checkQuorum h)]
  cases isQuorum hdp <;> rfl

theorem nextStep_leader_none (hp : isProposer P me index = true) (h : s.heightDatas = none) :
    nextStep P me index s = (.error .panic, s) := by
  unfold nextStep
  simp only [hp, Bool.not_true, Bool.false_eq_true, if_false]
  exact run_bind_error (run_checkQuorum_none h)

/-- The next step of a node suits its role. -/
theorem nextStep_cases (P : Network α) (me : Str) (index : ℕ) (s : State α) :
    (∃ e, nextStep P me index s = (.error e, s)) ∨ ∃ step, nextStep P me index s = (.ok step, s) ∧
      (step = .validatorWait ↔ isProposer P me index = false) := by
  cases hp : isProposer P me index with
  | false =>
    unfold nextStep
    rw [hp]
    exact .inr ⟨_, rfl, iff_of_true rfl rfl⟩
  | true =>
    cases hh : s.heightDatas with
    | none => exact .inl ⟨.panic, nextStep_leader_none hp hh⟩
    | some hdp =>
      refine .inr ⟨_, nextStep_leader hp hh, iff_of_false ?_ nofun⟩
      split_ifs <;> exact nofun

theorem takeStep_init (hstep : s.step = .init) (inp : Input) :
    takeStep P me index inp s = (.ok true, s) := by
  unfold takeStep
  rw [run_bind_ok (run_get s), hstep]
  rfl

theorem takeStep_leaderVote (P : Network α) (me : Str) (index : ℕ) (hstep : s.step = .leaderVote)
    (inp : Input) (hhdp : s.heightDatas = some hdp) :
    takeStep P me index inp s = (if isQuorum hdp then do
        crossShardCommunicate P me inp
        pure true
      else pure false) s := by
  unfold takeStep
  rw [run_bind_ok (run_get s), hstep]
  exact run_bind_ok (run_checkQuorum hhdp)

theorem takeStep_leaderVote_none (P : Network α) (me : Str) (index : ℕ)
    (hstep : s.step = .leaderVote) (inp : Input) (hnone : s.heightDatas = none) :
    takeStep P me index inp s = (.error .panic, s) := by
  unfold takeStep
  rw [run_bind_ok (run_get s), hstep]
  exact run_bind_error (run_checkQuorum_none hnone)

theorem takeStep_leaderWait (P : Network α) (me : Str) (index : ℕ) (hstep : s.step = .leaderWait)
    (inp : Input) :
    takeStep P me index inp s =
      (if s.blockData.isCrossShardMessageComplete P.shardIDList then do
        doPropose P me index inp
        pure true
      else pure false) s := by
  unfold takeStep
  rw [run_bind_ok (run_get s), hstep]

/-- What the step of a round makes of the state. -/
theorem takeStep_elim (stays : Q s) (validates : ∀ b, s.step = .validatorWait →
      s.blockData.getBlock P.lib s.view s.round = .ok b → Q (doValidate P me index b s).2)
    (proposes : s.step = .leaderWait → Q (doPropose P me index inp s).2)
    (talks : s.step = .leaderVote → Q (crossShardCommunicate P me inp s).2) :
    Q (takeStep P me index inp s).2 := by
  cases hstep : s.step with
  | init =>
    rw [takeStep_init hstep]
    exact stays
  | validatorWait =>
    unfold takeStep
    rw [run_bind_ok (run_get s), hstep]
    simp only
    split_ifs
    · cases hblock : s.blockData.getBlock P.lib s.view s.round with
      | error e => exact stays
      | ok b =>
        simp only [snd_bind_pure]
        exact validates b hstep hblock
    · exact stays
  | leaderWait =>
    rw [takeStep_leaderWait P me index hstep]
    split_ifs
    · rw [snd_bind_pure]
      exact proposes hstep
    · exact stays
  | leaderVote =>
    cases hhdp : s.heightDatas with
    | none =>
      rw [takeStep_leaderVote_none P me index hstep inp hhdp]
      exact stays
    | some hdp =>
      rw [takeStep_leaderVote P me index hstep inp hhdp]
      split_ifs
      · rw [snd_bind_pure]
        exact talks hstep
      · exact stays

/-- Without a step there is nothing more to the round. -/
theorem handleStateTransition_idle (h : (takeStep P me index inp s).1 ≠ .ok true) :
    handleStateTransition P me index inp s = takeStep P me index inp s := by
  unfold handleStateTransition
  cases hrun : takeStep P me index inp s with
  | mk r s₁ =>
    rw [hrun] at h
    rcases r with e | again
    · exact run_bind_error hrun
    · cases again with
      | false => exact run_bind_ok hrun
      | true => exact absurd rfl h

/-- After a step that has been taken, the votes say what a leader does next. -/
theorem handleStateTransition_taken (hp : isProposer P me index = true) {s₁ : State α}
    (hrun : takeStep P me index inp s = (.ok true, s₁)) (hhdp : s₁.heightDatas = some hdp) :
    ∃ r, handleStateTransition P me index inp s =
        (r, { s₁ with step := if isQuorum hdp then .leaderWait else .leaderVote }) ∧
      (r = .ok true → s₁.view ≤ lastView P me) := by
  unfold handleStateTransition
  rw [run_bind_ok hrun]
  simp only [if_true]
  rw [run_bind_ok (nextStep_leader hp hhdp), run_bind_ok (run_modify _ s₁),
    run_bind_ok (run_get _)]
  refine ⟨_, Prod.ext rfl (snd_bind_pure _ _ _), fun htrue => ?_⟩
  obtain ⟨u, s₂, hreq, -⟩ := bind_eq_ok.mp (Prod.ext htrue rfl)
  simpa [hp] using (require_eq_ok.mp hreq).1

/-- A leader without vote data does not find its next step. -/
theorem handleStateTransition_unset (hp : isProposer P me index = true) (hstep : s.step = .init)
    (hnone : s.heightDatas = none) (inp : Input) :
    handleStateTransition P me index inp s = (.error .panic, s) := by
  unfold handleStateTransition
  rw [run_bind_ok (takeStep_init hstep inp)]
  simp only [if_true]
  exact run_bind_error (nextStep_leader_none hp hnone)

/-- After the step of a round only the step of the node changes, and a new one suits its role. -/
theorem exists_snd_handleStateTransition (P : Network α) (me : Str) (index : ℕ) (inp : Input)
    (s : State α) : ∃ step, (handleStateTransition P me index inp s).2 =
        { (takeStep P me index inp s).2 with step } ∧
      (step = (takeStep P me index inp s).2.step ∨
        (step = .validatorWait ↔ isProposer P me index = false)) := by
  by_cases htrue : (takeStep P me index inp s).1 = .ok true
  · unfold handleStateTransition
    rw [run_bind_ok (Prod.ext htrue rfl)]
    simp only [if_true]
    rcases nextStep_cases P me index (takeStep P me index inp s).2 with
      ⟨e, hnext⟩ | ⟨step, hnext, hrole⟩
    · rw [run_bind_error hnext]
      exact ⟨_, rfl, .inl rfl⟩
    · rw [run_bind_ok hnext, run_bind_ok (run_modify _ _), run_bind_ok (run_get _),
        snd_bind_pure]
      exact ⟨step, rfl, .inr hrole⟩
  · rw [handleStateTransition_idle htrue]
    exact ⟨_, rfl, .inl rfl⟩

/-- What the start of a node makes of its state. -/
theorem start_elim (proposes : s.view = 0 → isProposer P me index = true → ∀ step,
      step = s.step ∨ step = .leaderVote → Q { (doPropose P me index inp s).2 with step })
    (waits : s.view = 0 → isProposer P me index = false →
      Q { (enterNextView P me s).2 with step := .validatorWait })
    (goesOn : s.view ≠ 0 → Q (handleStateTransition P me index inp s).2) :
    Q (start P me index inp s).2 := by
  unfold start
  rw [run_bind_ok (run_get s)]
  split_ifs with hview hp
  · rw [run_bind_ok (run_attempt _ s)]
    cases (doPropose P me index inp s).1 with
    | error e => exact proposes hview hp _ (.inl (doPropose_snd P me index inp s).2.1)
    | ok u => exact proposes hview hp _ (.inr rfl)
  · exact waits hview (by simpa using hp)
  · exact goesOn hview

/-! ## Messages -/

/-- What every kind of message keeps, `takeMessage` keeps. -/
theorem keeps_takeMessage {R : State α → State α → Prop} (hrefl : ∀ s, R s s) {msg : Message}
    (hpart : ∀ p, msg = .part p → Keeps R (onBlockData (BlockData.addPart P.lib p)))
    (hproposal : ∀ p, msg = .proposal p → p.header.chainID = me →
      (verifier P me).verify P.bls p.signature (P.lib.proposal.marshal { p with signature := [] })
        p.proposerIndex = some true →
      Keeps R (onBlockData (BlockData.addPartSetHeader P.lib p.header p.blockHeaderHash)))
    (hmessage : ∀ m, msg = .crossShardMessage m → Keeps R (addCrossShardMessage P m))
    (hvote : ∀ v, msg = .vote v → Keeps R (countVote P v)) : Keeps R (takeMessage P me msg) := by
  refine Keeps.require_bind hrefl fun _ => ?_
  cases msg with
  | part p => exact Keeps.require_bind hrefl fun _ => hpart p rfl
  | proposal p =>
    refine Keeps.require_bind hrefl fun hchain => Keeps.orThrow_bind hrefl fun ok hok =>
      Keeps.require_bind hrefl fun htrue => hproposal p rfl (beq_iff_eq.mp hchain) ?_
    rw [htrue] at hok
    exact hok
  | crossShardMessage m => exact hmessage m rfl
  | vote v => exact hvote v rfl

/-- A message is refused, or handled in the state that has it. -/
theorem receive_cases (P : Network α) (me : Str) (index : ℕ) (msg : Message) (inp : Input)
    (s : State α) :
    (∃ e, receive P me index msg inp s = (.error e, (takeMessage P me msg s).2)) ∨
      (takeMessage P me msg s).1 = .ok () ∧ receive P me index msg inp s =
        handleStateTransition P me index inp (takeMessage P me msg s).2 := by
  unfold receive
  cases hrun : takeMessage P me msg s with
  | mk r s₁ =>
    cases r with
    | error e => exact .inl ⟨e, run_bind_error hrun⟩
    | ok u => exact .inr ⟨rfl, run_bind_ok hrun⟩

end Emulator.Urd
