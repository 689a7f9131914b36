import Emulator.Urd.Lockstep
import Emulator.Urd.Validation

/-!
# Honest blocks are accepted

A block of view `v` is made from the messages of view `v - 1`, which prove something about the
blocks of view `v - 2`; these carry what their leaders had of view `v - 4`. The checks of
`ValidateBasic` and `verify_block` start at views 5 and 6. Here every block that a leader makes
passes them, from the first view on, and a validator that gets nothing but proposals and parts of
its leader goes through the leader's blocks one by one.

* `MadeAt.validateBasic` — a block of the history passes `ValidateBasic`.
* `Following.event` — a validator follows its leader.
* `accepting_run` — it reassembles every block, accepts it and votes for it.
-/

namespace Emulator.Urd

open Emulator.Action HotStuff

variable {α : Type} {p : Part} {mk : Made α} {msg : Message}

/-! ## The blocks of a history -/

section

variable {P : Network α} {L : Str → Log α} {i j : Str} {v : ℕ} {mk : Made α} {m : CrossShardMessage}
  {k : ℕ}

theorem fillIn_self (root : Bytes) : fillIn root root = root := by
  cases root <;> rfl

/-- What the receiver of a message can check from view 4 on. -/
structure Proven (P : Network α) (m : CrossShardMessage) (proof : ProofOfIntention)
    (output : OutputTxsProof) : Prop where
  proofOfIntention : m.proofOfIntention = some proof
  outputTxsProof : m.outputTxsProof = some output
  intention : proof.verify P.lib m.getLastHash (briefHash P.lib m.intentionBrief) = true
  relay : output.verify P.lib m.getLastHash m.oPTXs = true
  brief : m.intentionBrief.length = P.shardIDList.length

/-- The proofs of a message are about the block before the one that is voted for. -/
theorem MessageAt.exists_proven (hH : History P L L) (hj : j ∈ P.shardIDList) {u : ℕ}
    (h : MessageAt P L j u k m) (hu : 4 ≤ u) : ∃ proof output, Proven P m proof output := by
  obtain ⟨mk, ci, p, q, hmk, hci, hp, hq, htxs, hbrief, hproof, houtput⟩ := h.relay hu
  have hat := hH.madeAt hj (v := u - 1) (by omega) (by rwa [show u - 1 - 1 = u - 2 by omega])
  have hhash : m.getLastHash = mk.block.hash P.lib := by
    rw [h.getLastHash, show u - 1 = u - 2 + 1 by omega, Log.hashAt_succ hmk]
  obtain ⟨csms, hcsms, hci', -⟩ := hat.intention (by omega)
  refine ⟨_, _, hproof, houtput, ?_, ?_, ?_⟩
  · rw [hhash, hbrief]
    refine Block.verify_proofOfIntention ?_ hp
    simp only [Block.fillInHeader, hci, hat.commitIntentionRoot ci hci, Option.map_some,
      Option.getD_some, fillIn_self]
  · rw [hhash]
    refine Block.verify_getOutputTxsProofOf ?_ hq ?_
    · simp only [Block.fillInHeader, hat.outputTxsRoot, fillIn_self]
    · rw [hat.opt, List.getElem?_map, htxs]
      rfl
  · rw [hci] at hci'
    obtain rfl := Option.some.inj hci'
    rw [hbrief, CommitIntention.getBrief, List.length_map, hcsms.length_eq]

theorem exists_proven_of_mem (hH : History P L L) (hv : 5 ≤ v) {csms : List CrossShardMessage}
    (hcsms : List.Forall₂ (fun j m => sent P L j (v - 1) i = some m) P.shardIDList csms)
    (hm : m ∈ csms) : ∃ proof output, Proven P m proof output := by
  obtain ⟨j, hj, hsent⟩ := exists_mem_of_forall₂ hcsms hm
  exact (hH.sent hj hsent).2.2.exists_proven hH hj (by omega)

theorem Proven.certificateCore {proof : ProofOfIntention} {output : OutputTxsProof}
    (h : Proven P m proof output) :
    Urd.certificateCore m =
      some { hash := m.getLastHash, mKProof := proof, intentionBrief := m.intentionBrief } := by
  rw [Urd.certificateCore, h.proofOfIntention]
  rfl

/-- The certificate of a block that is made from proven messages. -/
structure Certified (P : Network α) (csms : List CrossShardMessage) (b : Block) : Prop where
  ids : csms.length = P.shardIDList.length
  ci : b.ci = some ⟨csms.map CrossShardMessage.getLastHash, csms.map CrossShardMessage.aggVote⟩
  cc : csms.mapM Urd.certificateCore = some b.cc
  ctxs : b.ctxs = csms.map CrossShardMessage.oPTXs
  ctxsProof : csms.mapM CrossShardMessage.outputTxsProof = some b.ctxsProof
  proven : ∀ m ∈ csms, ∃ proof output, Proven P m proof output

theorem MadeAt.exists_certified (hH : History P L L) (h : MadeAt P L i v mk) (hv : 5 ≤ v) :
    ∃ csms, Certified P csms mk.block := by
  obtain ⟨csms, hcsms, hci, hcert⟩ := h.intention (by omega)
  obtain ⟨hcc, hctxs, hproofs⟩ := hcert hv
  exact ⟨csms, hcsms.length_eq.symm, hci, hcc, hctxs, hproofs,
    fun m hm => exists_proven_of_mem hH hv hcsms hm⟩

namespace Certified

variable {csms : List CrossShardMessage} {b : Block}

section

variable (h : Certified P csms b)

include h

theorem length_cc : b.cc.length = csms.length :=
  (mapM_eq_some_iff.mp h.cc).length_eq.symm

/-- Every entry of the certificate is that of a proven message. -/
theorem core {core : CommitCertificateCore} (hm : m ∈ csms)
    (hcore : Urd.certificateCore m = some core) :
    core.hash = m.getLastHash ∧ core.verify P.lib = true ∧
      core.intentionBrief.length = P.shardIDList.length := by
  obtain ⟨proof, output, hproven⟩ := h.proven m hm
  obtain rfl := Option.some.inj (hproven.certificateCore.symm.trans hcore)
  exact ⟨rfl, hproven.intention, hproven.brief⟩

theorem validateCommitment :
    b.validateCommitment P.lib = .ok () := by
  have hhashes : (csms.map CrossShardMessage.aggVote).map getLastHashOfAggVote =
      b.cc.map CommitCertificateCore.hash := by
    rw [List.map_map, ← List.forall₂_eq_eq_eq, List.forall₂_map_left_iff,
      List.forall₂_map_right_iff]
    have hmem := (List.forall₂_and_left _ _).mpr
      ⟨fun m (hm : m ∈ csms) => hm, mapM_eq_some_iff.mp h.cc⟩
    exact hmem.imp fun m core hcore => (h.core hcore.1 hcore.2).1.symm
  refine Block.validateCommitment_iff.mpr ⟨_, h.ci, ?_, hhashes.symm, fun core hcore => ?_⟩
  · rw [List.map_map]
    rfl
  · obtain ⟨m, hm, hcore⟩ := exists_of_mem_mapM h.cc hcore
    exact (h.core hm hcore).2.1

theorem exists_certificateResult :
    ∃ slots, certificateResult b.cc = some slots ∧ slots.length = csms.length := by
  have hbriefs : ∀ core ∈ b.cc, core.intentionBrief.length ≤ b.cc.length := by
    intro core hcore
    obtain ⟨m, hm, hcore⟩ := exists_of_mem_mapM h.cc hcore
    rw [(h.core hm hcore).2.2, h.length_cc, h.ids]
  obtain ⟨slots, hslots⟩ := Urd.exists_certificateResult hbriefs
  exact ⟨slots, hslots, (length_certificateResult hslots).trans h.length_cc⟩

theorem provenAt (hk : k < csms.length) : b.ProvenAt P.lib k := by
  have hm : csms[k]? = some csms[k] := List.getElem?_eq_getElem hk
  obtain ⟨proof, output, hproven⟩ := h.proven _ (List.getElem_mem hk)
  obtain ⟨output', houtput, hout⟩ := exists_getElem?_of_forall₂ (mapM_eq_some_iff.mp h.ctxsProof) hm
  obtain rfl := Option.some.inj (hproven.outputTxsProof.symm.trans hout)
  refine ⟨_, h.ci, csms[k].aggVote, ?_, output, houtput, csms[k].oPTXs, ?_, hproven.relay⟩
  · rw [Option.mem_def, List.getElem?_map, hm]
    rfl
  · rw [Option.mem_def, h.ctxs, List.getElem?_map, hm]
    rfl

end

end Certified

theorem MadeAt.validateBasic (hH : History P L L) (h : MadeAt P L i v mk) :
    mk.block.validateBasic P.lib = .ok () := by
  rcases Nat.lt_or_ge v 5 with hv | hv
  · -- there is no certificate yet
    obtain ⟨hcc, hctxs, hproofs⟩ := h.noCertificate hv
    have hresult : certificateResult mk.block.cc = some [] := by rw [hcc]; rfl
    exact Block.validateBasic_iff.mpr ⟨fun hview => absurd hview (by rw [h.view]; omega),
      by rw [hctxs, hproofs]; rfl, by rw [hctxs, hcc]; rfl, [], hresult, nofun⟩
  · obtain ⟨csms, hcert⟩ := h.exists_certified hH hv
    obtain ⟨slots, hslots, hlen⟩ := hcert.exists_certificateResult
    have hctxs : mk.block.ctxs.length = csms.length := by rw [hcert.ctxs, List.length_map]
    exact Block.validateBasic_iff.mpr ⟨fun _ => hcert.validateCommitment,
      hctxs.trans (mapM_eq_some_iff.mp hcert.ctxsProof).length_eq,
      hctxs.trans hcert.length_cc.symm, slots, hslots, fun k result hk =>
        hcert.provenAt (hlen ▸ (List.getElem?_eq_some_iff.mp hk).1)⟩

theorem MadeAt.wellFormed (hH : History P L L) (hi : i ∈ P.shardIDList) (h : MadeAt P L i v mk) :
    mk.block.WellFormed where
  aggSigVote vote hvote := by
    rcases Nat.lt_or_ge v 2 with hv | hv
    · rw [h.noVote hv] at hvote
      cases hvote
    · obtain ⟨m, hm, hvote'⟩ := h.vote hv
      obtain rfl := Option.some.inj (hvote'.symm.trans hvote)
      exact (hH.sent hi hm).2.2.aggVote.signerIndexer
  ci ci hci vote hvote := by
    rcases Nat.lt_or_ge v 3 with hv | hv
    · rw [h.noIntention hv] at hci
      cases hci
    · obtain ⟨csms, hcsms, hci', -⟩ := h.intention hv
      obtain rfl := Option.some.inj (hci'.symm.trans hci)
      obtain ⟨m, hm, rfl⟩ := List.mem_map.mp hvote
      obtain ⟨j, hj, hsent⟩ := exists_mem_of_forall₂ hcsms hm
      exact (hH.sent hj hsent).2.2.aggVote.signerIndexer

theorem MadeAt.genBlock (hblock : P.lib.block.RoundTrips id) (hH : History P L L)
    (hi : i ∈ P.shardIDList) (h : MadeAt P L i v mk) {ps : PartSet} {round : ℤ}
    (hps : ps.Filled (blockLib P.lib) mk.block 40960 round) (hcomplete : ps.isComplete = true) :
    ps.genBlock (blockLib P.lib) = .ok (mk.block.onWire P.lib) := by
  have hwire : (blockLib P.lib).codec.unmarshal ((blockLib P.lib).codec.marshal mk.block) =
      some (mk.block.onWire P.lib) := by
    show (P.lib.block.unmarshal (P.lib.block.marshal (mk.block.toProto P.lib))).bind _ = _
    rw [hblock]
    exact newBlockFromProto_toProto (h.wellFormed hH hi)
  have hvalid : (blockLib P.lib).validateBasic (mk.block.onWire P.lib) = some true := by
    have hbasic : (mk.block.onWire P.lib).validateBasic P.lib = .ok () := h.validateBasic hH
    simp only [blockLib, hbasic]
  exact hps.genBlock hcomplete (by decide) hwire rfl rfl hvalid (mk.block.hash_onWire P.lib)

/-! ## What a validator has appended -/

/-- The blocks of a leader as they come over the wire. -/
def Log.wire (lib : Lib) (l : Log α) : List Block := l.made.map fun mk => mk.block.onWire lib

/-- The last blocks of a validator that has appended the first `n` blocks of its leader. -/
theorem hashOf_fetchBlock {st : State α} {l : Log α} {n : ℕ}
    (hpool : st.blockPool = lastSeven ((l.wire P.lib).take n)) (hn : n ≤ l.made.length)
    (hk : k < 7) : hashOf P.lib (st.fetchBlock (k + 1)) = l.hashAt P.lib (n - k) := by
  rw [State.fetchBlock_eq hpool hk]
  have hlen : ((l.wire P.lib).take n).length = n := by
    rw [List.length_take, Log.wire, List.length_map]
    omega
  rcases Nat.lt_or_ge k n with hlt | hge
  · obtain ⟨w, hw⟩ : ∃ w, n - k = w + 1 := ⟨n - k - 1, by omega⟩
    obtain ⟨mk, hmk⟩ : ∃ mk, l.made[w]? = some mk :=
      ⟨_, List.getElem?_eq_getElem (show w < l.made.length by omega)⟩
    rw [List.getElem?_reverse (by rwa [hlen]), hlen, show n - 1 - k = w by omega,
      List.getElem?_take_of_lt (by omega), Log.wire, List.getElem?_map, hmk, hw,
      Log.hashAt_succ hmk]
    exact mk.block.hash_onWire P.lib
  · rw [List.getElem?_eq_none (by rwa [List.length_reverse, hlen]), show n - k = 0 by omega]
    rfl

/-- **A block of the history passes `verify_block`** after the blocks before it. -/
theorem MadeAt.verifyBlock (hH : History P L L) (hi : i ∈ P.shardIDList) (h : MadeAt P L i v mk)
    (hv : v ≤ (L i).made.length) {st : State α}
    (hpool : st.blockPool = lastSeven (((L i).wire P.lib).take (v - 1))) :
    Urd.verifyBlock P st (mk.block.onWire P.lib) = .ok () := by
  have hview : (mk.block.onWire P.lib).view = v := h.view
  unfold Urd.verifyBlock
  by_cases h5 : (mk.block.onWire P.lib).view < 5
  · rw [if_pos h5]
  · rw [if_neg h5]
    obtain ⟨m, hm, hvote⟩ := h.vote (by omega)
    obtain ⟨csms, hcert⟩ := h.exists_certified hH (by omega)
    obtain ⟨-, -, hmsg⟩ := hH.sent hi hm
    have hvote' : (mk.block.onWire P.lib).aggSigVote = some m.aggVote := hvote
    have hci : (mk.block.onWire P.lib).ci = _ := hcert.ci
    have hcc : (mk.block.onWire P.lib).cc.length = P.shardIDList.length :=
      hcert.length_cc.trans hcert.ids
    have hj2 : hashOf P.lib (st.fetchBlock 2) = getLastHashOfAggVote m.aggVote := by
      rw [hashOf_fetchBlock hpool (by omega) (by decide)]
      exact hmsg.getLastHash.symm
    have hj1 : hashOf P.lib (st.fetchBlock 1) = m.aggVote.forHash := by
      rw [hashOf_fetchBlock hpool (by omega) (by decide), hmsg.aggVote.forHash]
      rfl
    rw [hvote']
    simp only [hci]
    rw [if_neg (not_not.mpr hj2), if_neg (not_not.mpr hj1),
      if_neg (not_not.mpr ((List.length_map ..).trans hcert.ids)), if_neg (not_not.mpr hcc)]

end

/-! ## What a validator collects -/

section

variable {lib : Lib} {made : List (Made α)} {bd : BlockData}

/-- The part is one of a block that the leader has made. -/
def PartOfMade (lib : Lib) (made : List (Made α)) (p : Part) : Prop :=
  ∃ mk ∈ made, p ∈ partsOf (blockLib lib) mk.block 40960 mk.block.round

/-- Everything that has been collected is of the leader. -/
structure Collects (lib : Lib) (made : List (Made α)) (bd : BlockData) : Prop where
  blocks : ∀ v r ps, bd.blocks v r = some ps → ∃ mk ∈ made, mk.block.view = v ∧
    mk.block.round = r ∧ ps.Filled (blockLib lib) mk.block 40960 mk.block.round
  parts : ∀ v r, ∀ p ∈ bd.retainBlockParts v r, PartOfMade lib made p

/-- A leader makes one block for a view. -/
def OnePerView (made : List (Made α)) : Prop :=
  ∀ mk ∈ made, ∀ mk' ∈ made, mk.block.view = mk'.block.view → mk = mk'

theorem height_partsOf {b : Block} {round : ℤ} (hp : p ∈ partsOf (blockLib lib) b 40960 round) :
    p.height = b.view ∧ p.round = round := by
  obtain ⟨k, hk⟩ := List.mem_iff_getElem?.mp hp
  simp only [partsOf, List.getElem?_zipWith_eq_some] at hk
  obtain ⟨bz, proof, -, -, rfl⟩ := hk
  exact ⟨rfl, rfl⟩

namespace Collects

theorem setPartSet (h : Collects lib made bd) (hmk : mk ∈ made) {ps : PartSet}
    (hps : ps.Filled (blockLib lib) mk.block 40960 mk.block.round) :
    Collects lib made (bd.setPartSet mk.block.view mk.block.round ps) := by
  refine ⟨fun w t ps' hps' => ?_, h.parts⟩
  rw [blocks_setPartSet] at hps'
  split_ifs at hps' with hwt
  · obtain ⟨rfl, rfl⟩ := hwt
    obtain rfl := Option.some.inj hps'
    exact ⟨mk, hmk, rfl, rfl, hps⟩
  · exact h.blocks w t ps' hps'

theorem appendPart (h : Collects lib made bd) (hp : PartOfMade lib made p) :
    Collects lib made (bd.appendPart p) := by
  refine ⟨fun v r ps hps => ?_, fun v r q hq => ?_⟩
  · rw [blocks_appendPart] at hps
    exact h.blocks v r ps hps
  cases hold : bd.old p.height p.round with
  | true =>
    rw [BlockData.appendPart, if_pos hold] at hq
    exact h.parts v r q hq
  | false =>
    rw [retainBlockParts_appendPart hold] at hq
    split_ifs at hq
    · rcases List.mem_append.mp hq with hq | hq
      · exact h.parts v r q hq
      · rw [List.mem_singleton.mp hq]
        exact hp
    · exact h.parts v r q hq

theorem next (h : Collects lib made bd) (view round : ℤ) :
    Collects lib made (bd.next view round) := by
  refine ⟨fun v r ps hps => ?_, fun v r p hp => ?_⟩
  · simp only [BlockData.next] at hps
    split_ifs at hps
    exact h.blocks v r ps hps
  · simp only [BlockData.next] at hp
    split_ifs at hp
    · exact h.parts v r p hp
    · cases hp

theorem addPart (hone : OnePerView made) (hp : PartOfMade lib made p) :
    Keeps (fun bd bd' => Collects lib made bd → Collects lib made bd')
      (BlockData.addPart lib p) := by
  intro bd h
  rcases addPart_cases lib p bd with heq | heq | ⟨ps, ps', hps, hadd, heq⟩
  · rwa [heq]
  · rw [heq]
    exact h.appendPart hp
  · obtain ⟨mk, hmk, hmem⟩ := hp
    obtain ⟨hheight, hround⟩ := height_partsOf hmem
    obtain ⟨mk', hmk', hview, -, hfilled⟩ := h.blocks _ _ ps hps
    obtain rfl := hone mk' hmk' mk hmk (hview.trans hheight)
    rw [heq, hheight, hround]
    exact h.setPartSet hmk (hfilled.addPart hmem hadd)

theorem addPartSetHeader (hone : OnePerView made) {header : PartSetHeader} {headerHash : Bytes}
    (hown : Own lib made header headerHash) :
    Keeps (fun bd bd' => Collects lib made bd → Collects lib made bd')
      (BlockData.addPartSetHeader lib header headerHash) := by
  intro bd h
  rcases addPartSetHeader_cases lib header headerHash bd with heq | heq
  · rwa [heq]
  · rw [heq]
    obtain ⟨mk, hmk, hheader, hhash⟩ := hown
    have hset := h.setPartSet hmk (PartSet.filled_newPartSet hheader hhash)
    refine Keeps.forEach (R := fun bd bd' => Collects lib made bd → Collects lib made bd')
      (fun _ => id) (fun _ _ _ h h' hc => h' (h hc)) (fun p hp bd => ?_) _ (hheader ▸ hset)
    rw [snd_ignoring]
    exact addPart hone (h.parts _ _ p hp) bd

end Collects

end

/-! ## A validator that follows its leader -/

/-- A message that the leader can have sent to a validator; the other messages do not matter. -/
def SentBy (P : Network α) (log : Log α) : Message → Prop
  | .proposal p => Own P.lib log.made p.header p.blockHeaderHash
  | .part p => PartOfMade P.lib log.made p
  | _ => True

/-- A validator that has appended the first blocks of its leader. -/
structure Following (P : Network α) (log : Log α) (s : State α) : Prop where
  collects : Collects P.lib log.made s.blockData
  appended : s.log.appended <+: log.wire P.lib
  view : s.view = 0 ∧ s.log.appended = [] ∨ s.view = s.log.appended.length + 1
  blockPool : s.blockPool = lastSeven s.log.appended
  step : s.step = .init ∨ s.step = .validatorWait
  okVotes : ∀ vote ∈ s.log.votes, vote.isOK = true

/-- A validator accepts the next block of its leader. -/
structure Accepting (P : Network α) (log : Log α) (s : State α) : Prop where
  appended : s.log.appended <+: log.wire P.lib
  okVotes : ∀ vote ∈ s.log.votes, vote.isOK = true
  genBlock : ∀ v mk, s.log.appended.length = v → log.made[v]? = some mk → ∀ r,
    s.blockData.isComplete (v + 1) r = true →
      s.blockData.getBlock P.lib (v + 1) r = .ok (mk.block.onWire P.lib)
  verifyBlock : ∀ v mk, s.log.appended.length = v → log.made[v]? = some mk →
    Urd.verifyBlock P s (mk.block.onWire P.lib) = .ok ()

section

variable {P : Network α} {L : Str → Log α} {i : Str} {index : ℕ} {s : State α}

theorem Collects.takeMessage {log : Log α} (hone : OnePerView log.made) (hmsg : SentBy P log msg) :
    Keeps (fun s s' : State α => Collects P.lib log.made s.blockData →
      Collects P.lib log.made s'.blockData) (takeMessage P i msg) := by
  refine keeps_takeMessage (fun _ => id) ?_ ?_ ?_ ?_
  · rintro p rfl s hc
    exact addPart hone hmsg s.blockData hc
  · rintro p rfl _ _ s hc
    exact addPartSetHeader hone hmsg s.blockData hc
  · intro m _ s hc
    obtain ⟨store, finished, lastHash, h⟩ := exists_snd_addCrossShardMessage P m s
    rw [h]
    exact ⟨hc.blocks, hc.parts⟩
  · intro v _ s hc
    obtain ⟨hdps, h⟩ := exists_snd_countVote P v s
    rw [h]
    exact hc

theorem Following.takeMessage {log : Log α} (hone : OnePerView log.made) (h : Following P log s)
    (hmsg : SentBy P log msg) : Following P log (takeMessage P i msg s).2 := by
  have hquiet : Quiet (fun _ _ => True) s (Urd.takeMessage P i msg s).2 :=
    Quiet.takeMessage (fun _ _ _ _ => trivial) s
  have happended := congrArg Progress.appended hquiet.progress
  have hview := congrArg Progress.view hquiet.progress
  have hvotes := congrArg Progress.votes hquiet.progress
  simp only [State.progress] at happended hview hvotes
  exact
    { collects := Collects.takeMessage hone hmsg s h.collects
      appended := by rw [happended]; exact h.appended
      view := by rw [happended, hview]; exact h.view
      blockPool := by rw [happended, hquiet.blockPool]; exact h.blockPool
      step := by rw [hquiet.step]; exact h.step
      okVotes := by rw [hvotes]; exact h.okVotes }

theorem onePerView (hH : History P L L) (hi : i ∈ P.shardIDList) : OnePerView (L i).made := by
  intro mk hmk mk' hmk' hview
  obtain ⟨v, hv⟩ := List.mem_iff_getElem?.mp hmk
  obtain ⟨v', hv'⟩ := List.mem_iff_getElem?.mp hmk'
  rw [(hH.made i hi v mk hv).view, (hH.made i hi v' mk' hv').view] at hview
  obtain rfl : v = v' := by omega
  exact Option.some.inj (hv.symm.trans hv')

theorem Following.verifyBlock (hH : History P L L) (hi : i ∈ P.shardIDList)
    (h : Following P (L i) s) (hmk : (L i).made[s.log.appended.length]? = some mk) :
    Urd.verifyBlock P s (mk.block.onWire P.lib) = .ok () := by
  refine (hH.made i hi _ mk hmk).verifyBlock hH hi (List.getElem?_eq_some_iff.mp hmk).1 ?_
  rw [h.blockPool, Nat.add_sub_cancel]
  exact congrArg lastSeven (List.prefix_iff_eq_take.mp h.appended)

/-- A part set of the leader is that of one block, and when it is complete it gives this block. -/
theorem Following.getBlock (hblock : P.lib.block.RoundTrips id) (hH : History P L L)
    (hi : i ∈ P.shardIDList) (h : Following P (L i) s) {v r : ℤ}
    (hcomplete : s.blockData.isComplete v r = true) :
    ∃ (w : ℕ) (mk : Made α), v = w + 1 ∧ (L i).made[w]? = some mk ∧
      s.blockData.getBlock P.lib v r = .ok (mk.block.onWire P.lib) := by
  unfold BlockData.isComplete at hcomplete
  unfold BlockData.getBlock
  cases hps : s.blockData.blocks v r with
  | none =>
    rw [hps] at hcomplete
    cases hcomplete
  | some ps =>
    rw [hps, Option.any_some] at hcomplete
    obtain ⟨mk, hmem, hview, -, hfilled⟩ := h.collects.blocks v r ps hps
    obtain ⟨w, hmk⟩ := List.mem_iff_getElem?.mp hmem
    have hat := hH.made i hi w mk hmk
    have hgen := hat.genBlock hblock hH hi hfilled hcomplete
    refine ⟨w, mk, ?_, hmk, ?_⟩
    · rw [← hview, hat.view]
      rfl
    · rw [Option.filter_some_pos hcomplete]
      simp only [hgen]

theorem Following.accepting (hblock : P.lib.block.RoundTrips id) (hH : History P L L)
    (hi : i ∈ P.shardIDList) (h : Following P (L i) s) : Accepting P (L i) s where
  appended := h.appended
  okVotes := h.okVotes
  genBlock v mk hlen hmk r hcomplete := by
    obtain ⟨w, mk', hw, hmk', hget⟩ := h.getBlock hblock hH hi hcomplete
    obtain rfl : w = v := by omega
    obtain rfl := Option.some.inj (hmk'.symm.trans hmk)
    exact hget
  verifyBlock v mk hlen hmk := h.verifyBlock hH hi (hlen ▸ hmk)

theorem Following.doValidate (index : ℕ) (hH : History P L L) (hi : i ∈ P.shardIDList)
    (h : Following P (L i) s) (hmk : (L i).made[s.log.appended.length]? = some mk)
    (hview : s.view = s.log.appended.length + 1) :
    Following P (L i) (doValidate P i index (mk.block.onWire P.lib) s).2 := by
  rw [run_doValidate_ok index (h.verifyBlock hH hi hmk)]
  exact
    { collects := h.collects.next _ _
      appended := by
        have hwire : ((L i).wire P.lib)[s.log.appended.length]? = some (mk.block.onWire P.lib) := by
          rw [Log.wire, List.getElem?_map, hmk]
          rfl
        have htake : ((L i).wire P.lib).take (s.log.appended.length + 1) =
            s.log.appended ++ [mk.block.onWire P.lib] := by
          rw [List.take_add_one, hwire, ← List.prefix_iff_eq_take.mp h.appended]
          rfl
        show s.log.appended ++ [mk.block.onWire P.lib] <+: _
        rw [← htake]
        exact List.take_prefix _ _
      view := .inr (by
        show s.view + 1 = (s.log.appended ++ [mk.block.onWire P.lib]).length + 1
        rw [List.length_append, List.length_singleton, hview])
      blockPool := State.blockPool_appendBlock h.blockPool _
      step := h.step
      okVotes := fun v hv => by
        rcases List.mem_append.mp hv with hv | hv
        · exact h.okVotes v hv
        · rw [List.mem_singleton.mp hv]
          rfl }

section

variable (hblock : P.lib.block.RoundTrips id)

include hblock

theorem Following.handleStateTransition (hH : History P L L)
    (hi : i ∈ P.shardIDList) (hnode : isProposer P i index = false) (h : Following P (L i) s)
    (inp : Input) : Following P (L i) (handleStateTransition P i index inp s).2 := by
  have htake : Following P (L i) (takeStep P i index inp s).2 := by
    have hne {step : Step} (hinit : step ≠ .init) (hwait : step ≠ .validatorWait) : s.step ≠ step :=
      fun hs => h.step.elim (fun hi => hinit (hs ▸ hi)) fun hw => hwait (hs ▸ hw)
    refine takeStep_elim h (fun b _ hget => ?_) (fun hs => absurd hs (hne nofun nofun))
      fun hs => absurd hs (hne nofun nofun)
    obtain ⟨w, mk, hw, hmk, hget'⟩ := h.getBlock hblock hH hi (isComplete_of_getBlock hget)
    have hview : s.view = s.log.appended.length + 1 := by
      rcases h.view with ⟨hzero, -⟩ | hview
      · omega
      · exact hview
    obtain rfl : w = s.log.appended.length := by omega
    obtain rfl := Except.ok.inj (hget.symm.trans hget')
    exact h.doValidate index hH hi hmk hview
  obtain ⟨step, hsnd, hstep⟩ := exists_snd_handleStateTransition P i index inp s
  rw [hsnd]
  refine { htake with step := ?_ }
  rcases hstep with rfl | hrole
  · exact htake.step
  · exact .inr (hrole.mpr hnode)

theorem Following.start (hH : History P L L)
    (hi : i ∈ P.shardIDList) (hnode : isProposer P i index = false) (h : Following P (L i) s)
    (inp : Input) : Following P (L i) (start P i index inp s).2 := by
  refine start_elim (fun _ hp => ?_) (fun hview _ => ?_)
    fun _ => h.handleStateTransition hblock hH hi hnode inp
  · rw [hnode] at hp
    cases hp
  · have hnil : s.log.appended = [] := by
      rcases h.view with ⟨-, hnil⟩ | hview'
      · exact hnil
      · omega
    exact
      { h with
        collects := h.collects.next _ _
        view := .inr (by
          show s.view + 1 = s.log.appended.length + 1
          rw [hview, hnil]
          rfl)
        step := .inr rfl }

/-- **Every event keeps a validator following** its leader. -/
theorem Following.event (hH : History P L L)
    (hi : i ∈ P.shardIDList) (hnode : isProposer P i index = false) {n n' : Node α}
    (h : Following P (L i) n.state) {e : NodeEvent}
    (he : ∀ msg inp, e = .receive msg inp → SentBy P (L i) msg)
    (hstep : nodeStep P i index n e = some n') : Following P (L i) n'.state := by
  have hact : Following P (L i) (e.act P i index n.state).2 := by
    cases e with
    | start inp => exact h.start hblock hH hi hnode inp
    | resume inp => exact h.handleStateTransition hblock hH hi hnode inp
    | receive msg inp =>
      have h₁ := h.takeMessage (onePerView hH hi) (he msg inp rfl) (i := i)
      show Following P (L i) (receive P i index msg inp n.state).2
      rcases receive_cases P i index msg inp n.state with ⟨e, heq⟩ | ⟨-, heq⟩ <;> rw [heq]
      · exact h₁
      · exact h₁.handleStateTransition hblock hH hi hnode inp
  obtain ⟨-, rfl⟩ := nodeStep_eq_some.mp hstep
  exact { hact with }

end

theorem following_newNode (P : Network α) (log : Log α) (app : α) :
    Following P log (newNode app).state where
  collects := ⟨nofun, nofun⟩
  appended := List.nil_prefix
  view := .inl ⟨rfl, rfl⟩
  blockPool := rfl
  step := .inl rfl
  okVotes _ h := by cases h

/-- **Honest blocks are accepted.** A validator that gets the proposals and parts of its leader, in
any order and any number of times, goes through the leader's blocks: it reassembles the next one
without an error, and the block passes `verify_block`. -/
theorem accepting_run (hs : Setting P) (hblock : P.lib.block.RoundTrips id) {apps : Str → α}
    {es : List Event} {sys : System α}
    (hrun : run (systemStep P) (newSystem apps) es = some sys) (hd : DistinctHashes P sys.logs)
    (hi : i ∈ P.shardIDList) (hnode : isProposer P i index = false) {app : α}
    {es' : List NodeEvent} (hes : ∀ msg inp, .receive msg inp ∈ es' → SentBy P (sys.logs i) msg)
    {n : Node α} (hn : run (nodeStep P i index) (newNode app) es' = some n) :
    Accepting P (sys.logs i) n.state ∧
      ∀ msg, SentBy P (sys.logs i) msg →
        Accepting P (sys.logs i) (takeMessage P i msg n.state).2 := by
  have hH := (systemInv_run hs hrun hd).history
  have hfollow : Following P (sys.logs i) n.state :=
    run_invariant_along (P := fun _ e => e ∈ es')
      (I := fun n : Node α => Following P (sys.logs i) n.state)
      (fun n e n' h he hstep => h.event hblock hH hi hnode
        (fun msg inp heq => hes msg inp (heq ▸ he)) hstep)
      (following_newNode P _ app) (along_of_mem fun e he _ => he) hn
  exact ⟨hfollow.accepting hblock hH hi, fun msg hmsg =>
    (hfollow.takeMessage (onePerView hH hi) hmsg).accepting hblock hH hi⟩

/-- The validator starts, and the proposals and parts of the leader's blocks arrive. -/
def deliveries (made : List (Made ℕ)) : List NodeEvent :=
  .start noInput :: made.flatMap fun mk => delivery mk.block

theorem sentBy_of_mem_deliveries {log : Log ℕ} (h : ∀ mk ∈ log.made, mk.block.round = 0)
    {inp : Input} (hmem : .receive msg inp ∈ deliveries log.made) : SentBy pairNetwork log msg := by
  rcases List.mem_cons.mp hmem with hmem | hmem
  · cases hmem
  · obtain ⟨mk, hmk, hmem⟩ := List.mem_flatMap.mp hmem
    have hround := h mk hmk
    rcases List.mem_append.mp hmem with hmem | hmem
    · rcases List.mem_cons.mp hmem with hmem | hmem
      · obtain ⟨rfl, -⟩ := NodeEvent.receive.inj hmem
        exact ⟨mk, hmk, by rw [hround]; rfl, rfl⟩
      · obtain ⟨p, hp, hmem⟩ := List.mem_map.mp hmem
        obtain ⟨rfl, -⟩ := NodeEvent.receive.inj hmem
        exact ⟨mk, hmk, by rw [hround]; exact hp⟩
    · cases List.mem_singleton.mp hmem

/-- A validator of the first shard gets the first two blocks of its leader. -/
theorem accepting_pairRun : Setting pairNetwork ∧ pairNetwork.lib.block.RoundTrips id ∧
    [65] ∈ pairNetwork.shardIDList ∧ isProposer pairNetwork [65] 1 = false ∧
    ∃ sys n, run (systemStep pairNetwork) (newSystem fun _ => 0) (pairRun 1) = some sys ∧
      DistinctHashes pairNetwork sys.logs ∧
      (∀ msg inp, .receive msg inp ∈ deliveries (sys.logs [65]).made →
        SentBy pairNetwork (sys.logs [65]) msg) ∧
      run (nodeStep pairNetwork [65] 1) (newNode 0) (deliveries (sys.logs [65]).made) = some n ∧
      n.state.log.appended.length = 2 ∧ Accepting pairNetwork (sys.logs [65]) n.state := by
  have hblock : pairNetwork.lib.block.RoundTrips id := blockCoder.roundTrips_codec
  have hi : [65] ∈ pairNetwork.shardIDList := by decide
  have hnode : isProposer pairNetwork [65] 1 = false := by decide
  obtain ⟨sys, hrun, hsys⟩ := Option.bind_eq_some_iff.mp
    (show ((run (systemStep pairNetwork) (newSystem fun _ => 0) (pairRun 1)).bind fun sys =>
      (run (nodeStep pairNetwork [65] 1) (newNode 0) (deliveries (sys.logs [65]).made)).map fun n =>
        (decide (DistinctHashes pairNetwork sys.logs),
          decide (∀ mk ∈ (sys.logs [65]).made, mk.block.round = 0),
          n.state.log.appended.length)) = some (true, true, 2) by decide +kernel)
  obtain ⟨n, hn, hproj⟩ := Option.map_eq_some_iff.mp hsys
  obtain ⟨hd, hproj⟩ := Prod.mk.inj hproj
  obtain ⟨hround, hlen⟩ := Prod.mk.inj hproj
  have hes : ∀ msg inp, .receive msg inp ∈ deliveries (sys.logs [65]).made →
      SentBy pairNetwork (sys.logs [65]) msg :=
    fun _ _ => sentBy_of_mem_deliveries (of_decide_eq_true hround)
  exact ⟨setting_pairNetwork, hblock, hi, hnode, sys, n, hrun, of_decide_eq_true hd, hes, hn, hlen,
    (accepting_run setting_pairNetwork hblock hrun (of_decide_eq_true hd) hi hnode hes hn).1⟩

end

end Emulator.Urd
