import Emulator.Urd.BlockHash
import Emulator.Urd.Node

/-!
# What a block has passed when it is executed

`GenBlock` calls `ValidateBasic` on a block that it has put together, and a validator executes the
block two views later. `ValidateBasic` looks at the commit intention and at the certificate from
view 6 on, and it verifies the committed relay lists except those in slots for which the briefs of
the certificate name different blocks. The execution takes all lists.

* `Block.validateBasic_iff` — what `ValidateBasic` checks.
* `certified_iff` — certificates are verified in the blocks of exactly the views after 5.
* `executed_proven_iff` — the executed lists of a validator are proven exactly when those in slots
  with an error are.
-/

namespace Emulator.Urd

open Emulator.Action HotStuff

variable {α : Type}

/-! ## Certificates -/

/-- What one hash does to a slot. -/
def mergeSlot (slot : Bytes × Bool) (bz : Bytes) : Bytes × Bool :=
  if slot.1 = bz ∨ bz = [] then slot else if slot.1 ≠ [] then (slot.1, true) else (bz, slot.2)

/-- The hash of a brief for slot `i`, empty if the brief is too short. -/
def briefAt (i : ℕ) (core : CommitCertificateCore) : Bytes := core.intentionBrief.getD i []

theorem mapIdx_self {β : Type} (l : List β) : l.mapIdx (fun _ b => b) = l :=
  List.mapIdx_eq_iff.mpr fun i => by simp

theorem mergeBrief_eq (slots : List (Bytes × Bool)) (brief : IntentionBrief) :
    mergeBrief slots brief =
      if brief.length ≤ slots.length then
        some (slots.mapIdx fun i slot => mergeSlot slot (brief.getD i []))
      else none := by
  induction slots, brief using mergeBrief.induct with
  | case1 slots => simp [mergeBrief, mergeSlot, mapIdx_self]
  | case2 bz brief => rfl
  | case3 result err slots bz brief ih =>
    rw [mergeBrief, ih, List.length_cons, List.length_cons, List.mapIdx_cons]
    have hslot : (if result = bz ∨ bz = [] then (result, err)
        else if result ≠ [] then (result, true) else (bz, err)) = mergeSlot (result, err) bz := rfl
    by_cases hle : brief.length ≤ slots.length
    · simp only [if_pos hle, if_pos (Nat.succ_le_succ hle), hslot]
      rfl
    · rw [if_neg hle, if_neg (mt Nat.le_of_succ_le_succ hle)]
      rfl

variable {cc : List CommitCertificateCore} {slots : List (Bytes × Bool)}

/-- `Result` goes through the hashes of a slot in the order of the cores, and it is within its slots
exactly if no brief is longer than the certificate. -/
theorem certificateResult_eq (cc : List CommitCertificateCore) :
    certificateResult cc =
      if ∀ core ∈ cc, core.intentionBrief.length ≤ cc.length then
        some ((List.replicate cc.length ([], false)).mapIdx fun i slot =>
          (cc.map (briefAt i)).foldl mergeSlot slot)
      else none := by
  have hfold (cores : List CommitCertificateCore) (slots : List (Bytes × Bool)) :
      cores.foldlM (fun slots core => mergeBrief slots core.intentionBrief) slots =
        if ∀ core ∈ cores, core.intentionBrief.length ≤ slots.length then
          some (slots.mapIdx fun i slot => (cores.map (briefAt i)).foldl mergeSlot slot)
        else none := by
    induction cores generalizing slots with
    | nil => simp [mapIdx_self]
    | cons core cores ih =>
      rw [List.foldlM_cons, mergeBrief_eq]
      by_cases hle : core.intentionBrief.length ≤ slots.length
      · simp [hle, ih, briefAt, Function.comp_def]
      · simp [hle]
  rw [certificateResult, hfold, List.length_replicate]

theorem length_certificateResult (h : certificateResult cc = some slots) :
    slots.length = cc.length := by
  rw [certificateResult_eq] at h
  split_ifs at h
  obtain rfl := Option.some.inj h
  rw [List.length_mapIdx, List.length_replicate]

/-- Briefs that are not longer than the certificate do not panic. -/
theorem exists_certificateResult (h : ∀ core ∈ cc, core.intentionBrief.length ≤ cc.length) :
    ∃ slots, certificateResult cc = some slots :=
  ⟨_, (certificateResult_eq cc).trans (if_pos h)⟩

/-! ## The checks -/

theorem forM_eq_ok {β ε : Type} {f : β → Except ε Unit} {l : List β} :
    l.forM f = .ok () ↔ ∀ b ∈ l, f b = .ok () := by
  induction l with
  | nil => exact ⟨fun _ => nofun, fun _ => rfl⟩
  | cons b l ih =>
    have hcons : (b :: l).forM f = (f b).bind fun _ => l.forM f := rfl
    rw [hcons, List.forall_mem_cons]
    cases hb : f b with
    | error e => exact ⟨nofun, fun h => by cases h.1⟩
    | ok u => exact ih.trans ⟨fun h => ⟨rfl, h⟩, fun h => h.2⟩

section

variable {lib : Lib} {b : Block}

/-- The list in slot `i` is there with its proof, and the proof verifies. -/
def Block.ProvenAt (lib : Lib) (b : Block) (i : ℕ) : Prop :=
  ∃ ci ∈ b.ci, ∃ vote ∈ ci.aggregatedSignatures[i]?, ∃ proof ∈ b.ctxsProof[i]?,
    ∃ txs ∈ b.ctxs[i]?, proof.verify lib (getLastHashOfAggVote vote) txs = true

/-- The briefs of the certificate name different blocks for slot `i`. -/
def Block.Flagged (b : Block) (i : ℕ) : Prop :=
  ∃ slots result, certificateResult b.cc = some slots ∧ slots[i]? = some (result, true)

theorem Block.validateCTXS_iff {i : ℕ} : b.validateCTXS lib i = .ok () ↔ b.ProvenAt lib i := by
  unfold Block.validateCTXS Block.ProvenAt
  constructor
  · intro h
    split at h
    · next vote proof txs hvote hproof htxs =>
      split_ifs at h with hverify
      obtain ⟨ci, hci, hvote⟩ := Option.bind_eq_some_iff.mp hvote
      exact ⟨ci, hci, vote, hvote, proof, hproof, txs, htxs, hverify⟩
    · cases h
  · rintro ⟨ci, hci, vote, hvote, proof, hproof, txs, htxs, hverify⟩
    rw [Option.mem_def.mp hci, Option.bind_some, Option.mem_def.mp hvote, Option.mem_def.mp hproof,
      Option.mem_def.mp htxs]
    exact if_pos hverify

/-- The second half of `ValidateBasic`. -/
def Block.validateRelays (lib : Lib) (b : Block) : Except BlockError Unit :=
  if b.ctxs.length ≠ b.ctxsProof.length ∨ b.ctxs.length ≠ b.cc.length then .error .ctxsCount
  else (certificateResult b.cc).elim (.error .panic) fun slots =>
    (slots.zipIdx.filter fun slot => !slot.1.2).forM fun slot => b.validateCTXS lib slot.2

theorem Block.validateBasic_eq (lib : Lib) (b : Block) :
    b.validateBasic lib = (if 5 < b.view then b.validateCommitment lib else .ok ()).bind
      fun _ => b.validateRelays lib := by
  unfold Block.validateBasic Block.validateRelays
  by_cases hlen : b.ctxs.length ≠ b.ctxsProof.length ∨ b.ctxs.length ≠ b.cc.length
  · simp only [if_pos hlen]
    split_ifs <;> rfl
  · simp only [if_neg hlen]
    cases certificateResult b.cc <;> split_ifs <;> rfl

theorem Block.forM_validateCTXS_iff {slots : List (Bytes × Bool)} :
    (slots.zipIdx.filter fun slot => !slot.1.2).forM (fun slot => b.validateCTXS lib slot.2) = .ok () ↔
      ∀ i result, slots[i]? = some (result, false) → b.ProvenAt lib i := by
  rw [forM_eq_ok]
  constructor
  · intro h i result hi
    refine Block.validateCTXS_iff.mp (h ((result, false), i) (List.mem_filter.mpr ⟨?_, rfl⟩))
    exact List.mk_mem_zipIdx_iff_getElem?.mpr hi
  · rintro h ⟨⟨result, err⟩, i⟩ hslot
    obtain ⟨hmem, herr⟩ := List.mem_filter.mp hslot
    obtain rfl : err = false := by simpa using herr
    exact Block.validateCTXS_iff.mpr (h i result (List.mk_mem_zipIdx_iff_getElem?.mp hmem))

theorem Block.validateRelays_iff :
    b.validateRelays lib = .ok () ↔
      b.ctxs.length = b.ctxsProof.length ∧ b.ctxs.length = b.cc.length ∧
        ∃ slots, certificateResult b.cc = some slots ∧
          ∀ i result, slots[i]? = some (result, false) → b.ProvenAt lib i := by
  unfold Block.validateRelays
  split_ifs with hlen
  · exact ⟨nofun, fun h => absurd hlen (by omega)⟩
  · cases hresult : certificateResult b.cc with
    | none => exact ⟨nofun, fun ⟨_, _, slots, hslots, _⟩ => by cases hslots⟩
    | some slots =>
      refine Block.forM_validateCTXS_iff.trans ⟨fun h => ⟨by omega, by omega, slots, rfl, h⟩, ?_⟩
      rintro ⟨-, -, slots', hslots, h⟩
      obtain rfl := Option.some.inj hslots
      exact h

/-- **What `ValidateBasic` checks.** A list is proven unless its slot is flagged. -/
theorem Block.validateBasic_iff :
    b.validateBasic lib = .ok () ↔ (5 < b.view → b.validateCommitment lib = .ok ()) ∧
      b.ctxs.length = b.ctxsProof.length ∧ b.ctxs.length = b.cc.length ∧
      ∃ slots, certificateResult b.cc = some slots ∧
        ∀ i result, slots[i]? = some (result, false) → b.ProvenAt lib i := by
  rw [Block.validateBasic_eq, ← Block.validateRelays_iff]
  by_cases hview : 5 < b.view
  · rw [if_pos hview]
    cases b.validateCommitment lib with
    | error e => exact ⟨nofun, fun h => by cases h.1 hview⟩
    | ok u => exact ⟨fun h => ⟨fun _ => rfl, h⟩, fun h => h.2⟩
  · rw [if_neg hview]
    exact ⟨fun h => ⟨fun h5 => absurd h5 hview, h⟩, fun h => h.2⟩

theorem Block.validateCommitment_iff :
    b.validateCommitment lib = .ok () ↔ ∃ ci ∈ b.ci,
      ci.intentionHash = ci.aggregatedSignatures.map getLastHashOfAggVote ∧
      b.cc.map CommitCertificateCore.hash = ci.aggregatedSignatures.map getLastHashOfAggVote ∧
      ∀ core ∈ b.cc, core.verify lib = true := by
  unfold Block.validateCommitment
  cases b.ci with
  | none => exact ⟨nofun, fun ⟨ci, hci, _⟩ => by cases hci⟩
  | some ci =>
    simp only [Option.mem_def, Option.some.injEq, exists_eq_left']
    constructor
    · intro h
      split_ifs at h with hcount hhash hcc hcchash hverify
      refine ⟨not_not.mp hhash, not_not.mp hcchash, ?_⟩
      simpa using hverify
    · rintro ⟨hhash, hcchash, hverify⟩
      have hlen := congrArg List.length hhash
      have hcclen := congrArg List.length hcchash
      rw [List.length_map] at hlen
      rw [List.length_map, List.length_map, ← hlen] at hcclen
      rw [if_neg (not_not.mpr hlen), if_neg (not_not.mpr hhash), if_neg (not_not.mpr hcclen),
        if_neg (not_not.mpr hcchash), if_neg]
      simpa using hverify

/-! ## Certificates of generated blocks -/

/-- The certificate of the block is verified, and it is for the blocks that the votes on the commit
intention name. -/
structure Block.CertificateVerified (lib : Lib) (b : Block) : Prop where
  verify : ∀ core ∈ b.cc, core.verify lib = true
  intention : ∃ ci ∈ b.ci, b.cc.length = ci.intentionHash.length ∧
    b.cc.length = ci.aggregatedSignatures.length ∧
    ci.intentionHash = ci.aggregatedSignatures.map getLastHashOfAggVote ∧
    b.cc.map CommitCertificateCore.hash = ci.aggregatedSignatures.map getLastHashOfAggVote

theorem Block.certificateVerified_of_validateCommitment (h : b.validateCommitment lib = .ok ()) :
    b.CertificateVerified lib := by
  obtain ⟨ci, hci, hhash, hcchash, hverify⟩ := Block.validateCommitment_iff.mp h
  have hlen := congrArg List.length hhash
  have hcclen := congrArg List.length hcchash
  rw [List.length_map] at hlen hcclen
  rw [List.length_map] at hcclen
  exact ⟨hverify, ci, hci, hcclen.trans hlen.symm, hcclen, hhash, hcchash⟩

theorem validateBasic_of_genBlock {ps : PartSet} (h : ps.genBlock (blockLib lib) = .ok b) :
    b.validateBasic lib = .ok () := by
  obtain ⟨-, -, -, -, -, hvalid, -⟩ := PartSet.genBlock_eq_ok.mp h
  simp only [blockLib] at hvalid
  split at hvalid
  · assumption
  · cases hvalid
  · cases hvalid

/-- A block that comes back from the wire and passes `ValidateBasic` is generated from its parts. -/
theorem genBlock_partSetFromBlock (hblock : lib.block.RoundTrips id) (hwf : b.WellFormed)
    (hvalid : (b.onWire lib).validateBasic lib = .ok ()) :
    (partSetFromBlock (blockLib lib) b 40960 b.round).genBlock (blockLib lib) =
      .ok (b.onWire lib) := by
  refine PartSet.genBlock_eq_ok.mpr ⟨partsOf (blockLib lib) b 40960 b.round, rfl, ?_, rfl, rfl, ?_,
    b.hash_onWire lib⟩
  · rw [List.flatMap_def, map_bytes_partsOf, flatten_splitByteArray (by decide)]
    show (lib.block.unmarshal (lib.block.marshal (b.toProto lib))).bind _ = _
    rw [hblock]
    exact newBlockFromProto_toProto hwf
  · simp only [blockLib, hvalid]

/-- A block with a certificate of two entries that contradict each other in both slots, and with
relay lists that nothing proves. -/
def conflictBlock (view : ℤ) : Block where
  chainID := [65]
  view := view
  round := 0
  time := ⟨0, 0⟩
  cc :=
    [{ hash := [3], mKProof := ⟨exampleProof, []⟩, intentionBrief := [[1], [1]] },
      { hash := [4], mKProof := ⟨exampleProof, []⟩, intentionBrief := [[2], [2]] }]
  ctxs := [[[5]], [[6]]]
  ctxsProof := [⟨exampleProof, exampleProof⟩, ⟨exampleProof, exampleProof⟩]

theorem validateBasic_conflictBlock {view : ℤ} (hview : view ≤ 5) :
    ((conflictBlock view).onWire lib).validateBasic lib = .ok () := by
  refine Block.validateBasic_iff.mpr ⟨fun h => absurd h (not_lt.mpr hview), rfl, rfl,
    [([1], true), ([1], true)], ?_, fun i result h => ?_⟩
  · show certificateResult (conflictBlock 0).cc = _
    decide
  · have hmem := List.mem_of_getElem? h
    simp at hmem

/-- **Certificates are verified after view 5.** In the blocks that `GenBlock` returns for a view,
all certificates that are not empty are verified exactly when the view is after 5. -/
theorem certified_iff (hblock : lib.block.RoundTrips id) (view : ℤ) :
    (∀ (ps : PartSet) (b : Block), ps.genBlock (blockLib lib) = .ok b → b.view = view →
      b.cc ≠ [] → b.CertificateVerified lib) ↔ 5 < view := by
  constructor
  · intro h
    by_contra hview
    have hgen := genBlock_partSetFromBlock hblock (b := conflictBlock view) ⟨nofun, nofun⟩
      (validateBasic_conflictBlock (not_lt.mp hview))
    -- there is no commit intention in it
    obtain ⟨ci, hci, -⟩ := (h _ _ hgen rfl nofun).intention
    cases hci
  · rintro hview ps b hgen rfl -
    exact Block.certificateVerified_of_validateCommitment
      ((Block.validateBasic_iff.mp (validateBasic_of_genBlock hgen)).1 hview)

theorem certified_six :
    polyLib.block.RoundTrips id ∧
    ∀ (ps : PartSet) (b : Block), ps.genBlock (blockLib polyLib) = .ok b → b.view = 6 → b.cc ≠ [] →
      b.CertificateVerified polyLib :=
  ⟨blockCoder.roundTrips_codec, (certified_iff blockCoder.roundTrips_codec 6).mpr (by decide)⟩

/-- In view 5 a certificate that verifies nowhere is taken. -/
theorem not_certified_conflictBlock :
    (receivedSet (conflictBlock 5)).toBool = true ∧
    (receivedSetD (conflictBlock 5)).isComplete = true ∧
    (receivedSetD (conflictBlock 5)).genBlock (blockLib polyLib) =
      .ok ((conflictBlock 5).onWire polyLib) ∧
    ((conflictBlock 5).onWire polyLib).cc ≠ [] ∧
    (∀ core ∈ ((conflictBlock 5).onWire polyLib).cc, core.verify polyLib = false) ∧
    ¬((conflictBlock 5).onWire polyLib).CertificateVerified polyLib := by
  refine ⟨by decide +kernel, by decide +kernel, by decide +kernel, nofun, by decide +kernel,
    fun h => ?_⟩
  obtain ⟨ci, hci, -⟩ := h.intention
  cases hci

end

/-! ## Executed blocks -/

section

variable {P : Network α} {me : Str} {index : ℕ} {Q : Block → Prop}

/-- The blocks that are appended from one state to the next are those of `Q`. -/
def AppendsOnly (Q : Block → Prop) (s s' : State α) : Prop :=
  ∀ b ∈ s'.log.appended, b ∈ s.log.appended ∨ Q b

namespace AppendsOnly

theorem of_eq {s s' : State α} (h : s'.log.appended = s.log.appended) : AppendsOnly Q s s' :=
  fun _ hb => .inl (h ▸ hb)

theorem refl (s : State α) : AppendsOnly Q s s := of_eq rfl

theorem trans (a b c : State α) (h : AppendsOnly Q a b) (h' : AppendsOnly Q b c) :
    AppendsOnly Q a c :=
  fun block hblock => (h' block hblock).elim (h block) .inr

theorem of_quiet {T : PartSetHeader → Bytes → Prop} {s s' : State α} (h : Quiet T s s') :
    AppendsOnly Q s s' := of_eq (congrArg Progress.appended h.progress)

theorem doValidate {b : Block} (hb : Q b) : Keeps (AppendsOnly Q) (doValidate P me index b) := by
  intro s
  have hrun := validates P me index s b
  generalize Urd.doValidate P me index b s = r at hrun
  cases hrun with
  | panicked _ => exact refl s
  | refused _ _ => exact of_eq rfl
  | accepted _ =>
    intro b' hb'
    rcases List.mem_append.mp hb' with hb' | hb'
    · exact .inl hb'
    · exact .inr (List.mem_singleton.mp hb' ▸ hb)

/-- Only in the step of a leader that proposes are other blocks appended than `GenBlock` returns. -/
theorem handleStateTransition {s : State α} (hstep : s.step ≠ .leaderWait)
    (hQ : ∀ (ps : PartSet) b, ps.genBlock (blockLib P.lib) = .ok b → Q b) (inp : Input) :
    AppendsOnly Q s (handleStateTransition P me index inp s).2 := by
  have htake : AppendsOnly Q s (takeStep P me index inp s).2 := by
    refine takeStep_elim (refl s) (fun b _ hblock => ?_) (fun hs => absurd hs hstep) fun _ => ?_
    · obtain ⟨ps, -, hgen, -⟩ := getBlock_eq_ok hblock
      exact doValidate (hQ ps b hgen) s
    · exact of_quiet (Quiet.crossShardCommunicate (Q := fun _ _ => True) inp s)
  obtain ⟨step, hsnd, -⟩ := exists_snd_handleStateTransition P me index inp s
  rw [hsnd]
  exact htake

/-- **A validator appends what `GenBlock` returns.** -/
theorem nodeStep {n n' : Node α} {e : NodeEvent} (hnode : isProposer P me index = false)
    (hinv : NodeInv P me index (fun _ _ => True) n.state)
    (hQ : ∀ (ps : PartSet) b, ps.genBlock (blockLib P.lib) = .ok b → Q b)
    (hn : nodeStep P me index n e = some n') : AppendsOnly Q n.state n'.state := by
  have hstep {s : State α} (h : NodeInv P me index (fun _ _ => True) s) : s.step ≠ .leaderWait :=
    fun hs => absurd (h.leader hs) (by simp [hnode])
  have hact : AppendsOnly Q n.state (e.act P me index n.state).2 := by
    cases e with
    | start inp =>
      refine start_elim (fun _ hp => ?_) (fun _ _ => of_eq rfl)
        fun _ => handleStateTransition (hstep hinv) hQ inp
      exact absurd hp (by simp [hnode])
    | resume inp => exact handleStateTransition (hstep hinv) hQ inp
    | receive msg inp =>
      have hquiet : Quiet (Origin P.lib (fun _ _ => True) n.state.log.made) n.state
          (takeMessage P me msg n.state).2 :=
        Quiet.takeMessage (fun _ _ _ _ => .inr trivial) _
      show AppendsOnly Q n.state (Urd.receive P me index msg inp n.state).2
      rcases receive_cases P me index msg inp n.state with ⟨e, heq⟩ | ⟨-, heq⟩ <;> rw [heq]
      · exact of_quiet hquiet
      · exact trans _ _ _ (of_quiet hquiet)
          (handleStateTransition (hstep (hinv.of_quiet hquiet)) hQ inp)
  obtain ⟨-, rfl⟩ := nodeStep_eq_some.mp hn
  exact hact

end AppendsOnly

/-- The blocks that a validator has appended have passed `ValidateBasic`. -/
theorem validateBasic_appended (hnode : isProposer P me index = false) {app : α}
    {es : List NodeEvent} {n : Node α}
    (hrun : run (nodeStep P me index) (newNode app) es = some n) :
    ∀ b ∈ n.state.log.appended, b.validateBasic P.lib = .ok () := by
  have hinv := run_invariant
    (I := fun n : Node α => NodeInv P me index (fun _ _ => True) n.state ∧
      ∀ b ∈ n.state.log.appended, b.validateBasic P.lib = .ok ())
    (fun n e n' hn hstep => by
      have hadv := hn.1.step (fun _ _ _ _ _ => trivial) hstep
      have happ := AppendsOnly.nodeStep hnode hn.1
        (fun ps b (hgen : ps.genBlock (blockLib P.lib) = .ok b) => validateBasic_of_genBlock hgen) hstep
      exact ⟨hadv.inv, fun b hb => (happ b hb).elim (hn.2 b) id⟩)
    ⟨nodeInv_newNode P me index _ app, fun _ hb => absurd hb List.not_mem_nil⟩ hrun
  exact hinv.2

/-- All lists of the block that are executed are proven. -/
def Block.RelaysProven (lib : Lib) (b : Block) : Prop := ∀ i < b.ctxs.length, b.ProvenAt lib i

/-- `ValidateBasic` leaves open exactly the slots with an error. -/
theorem Block.relaysProven_iff {lib : Lib} {b : Block} (h : b.validateBasic lib = .ok ()) :
    b.RelaysProven lib ↔ ∀ i, b.Flagged i → b.ProvenAt lib i := by
  obtain ⟨-, -, hlen, slots, hslots, hproven⟩ := Block.validateBasic_iff.mp h
  have hslen := length_certificateResult hslots
  constructor
  · rintro hall i ⟨slots', result, hslots', hi⟩
    obtain rfl := Option.some.inj (hslots.symm.trans hslots')
    exact hall i (by rw [hlen, ← hslen]; exact (List.getElem?_eq_some_iff.mp hi).1)
  · intro hflagged i hi
    rw [hlen, ← hslen] at hi
    have hget := List.getElem?_eq_getElem hi
    obtain ⟨⟨result, err⟩, hslot⟩ : ∃ slot, slots[i] = slot := ⟨_, rfl⟩
    rw [hslot] at hget
    cases err with
    | false => exact hproven i result hget
    | true => exact hflagged i ⟨slots, result, hslots, hget⟩

/-- **Slots with an error are executed without proof.** All relay lists that a validator has
executed are proven exactly when those are that the certificates of their blocks contradict. -/
theorem executed_proven_iff (hnode : isProposer P me index = false) {app : α} {es : List NodeEvent}
    {n : Node α} (hrun : run (nodeStep P me index) (newNode app) es = some n) :
    (∀ b ∈ n.state.log.executed, b.RelaysProven P.lib) ↔
      ∀ b ∈ n.state.log.executed, ∀ i, b.Flagged i → b.ProvenAt P.lib i := by
  have hexecuted : n.state.log.executed = n.state.log.appended.take _ :=
    run_progress (J := Progress.ExecutedBehind) (fun _ _ => hnode ▸ Progress.ExecutedBehind.move) rfl
      hrun
  refine forall₂_congr fun b hb => Block.relaysProven_iff (validateBasic_appended hnode hrun b ?_)
  rw [hexecuted] at hb
  exact List.mem_of_mem_take hb

/-- Of three blocks the first one is executed, which carries no relay lists. -/
theorem executed_proven_threeBlocks : isProposer pairNetwork [65] 1 = false ∧
    ∃ n, run (nodeStep pairNetwork [65] 1) (newNode 0) threeBlocks = some n ∧
      n.state.log.executed.map (·.view) = [1] ∧
      ∀ b ∈ n.state.log.executed, b.RelaysProven polyLib := by
  have hnode : isProposer pairNetwork [65] 1 = false := by decide
  obtain ⟨n, hrun, hviews⟩ := Option.map_eq_some_iff.mp
    (show (run (nodeStep pairNetwork [65] 1) (newNode 0) threeBlocks).map
      (fun n => (n.state.log.executed.map (·.view),
        n.state.log.executed.all fun b => certificateResult b.cc == some [])) =
        some ([1], true) by decide +kernel)
  obtain ⟨hexecuted, hresult⟩ := Prod.mk.inj hviews
  refine ⟨hnode, n, hrun, hexecuted, (executed_proven_iff hnode hrun).mpr ?_⟩
  rintro b hb i ⟨slots, result, hslots, hi⟩
  rw [beq_iff_eq.mp (List.all_eq_true.mp hresult b hb)] at hslots
  obtain rfl := Option.some.inj hslots
  cases hi

/-- The block with the contradictory certificate and two blocks after it. -/
def conflictRun : List NodeEvent :=
  .start noInput :: delivery (conflictBlock 1) ++ delivery (plainBlock 2 []) ++
    delivery (plainBlock 3 [])

/-- Its relay lists are executed, although no proof verifies. -/
theorem not_executed_proven_conflictRun :
    ∃ n, run (nodeStep pairNetwork [65] 1) (newNode 0) conflictRun = some n ∧
      n.state.log.executed.map (·.ctxs) = [[[[5]], [[6]]]] ∧
      ∀ b ∈ n.state.log.executed, ¬b.RelaysProven polyLib := by
  obtain ⟨n, hrun, hviews⟩ := Option.map_eq_some_iff.mp
    (show (run (nodeStep pairNetwork [65] 1) (newNode 0) conflictRun).map
      (fun n => (n.state.log.executed.map (·.ctxs), n.state.log.executed.all (·.ci.isNone))) =
        some ([[[[5]], [[6]]]], true) by decide +kernel)
  obtain ⟨hexecuted, hnone⟩ := Prod.mk.inj hviews
  refine ⟨n, hrun, hexecuted, fun b hb hproven => ?_⟩
  have hctxs : b.ctxs ∈ [[[[5]], [[6]]]] := hexecuted ▸ List.mem_map_of_mem hb
  obtain ⟨ci, hci, -⟩ := hproven 0 (by rw [List.mem_singleton.mp hctxs]; decide)
  rw [Option.isNone_iff_eq_none.mp (List.all_eq_true.mp hnone b hb)] at hci
  cases hci

end

end Emulator.Urd
