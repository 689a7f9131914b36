import Emulator.Lib.Run
import Emulator.Lib.Wire
import Emulator.Pyramid.Consensus

/-!
# Agreement within a Pyramid shard

A node executes the block it has reassembled, without comparing it with the hash that its precommits
agree on. The two are the same as long as all correct nodes reassemble the same block, that is, as
long as no Byzantine proposer signs two proposals for one height.

The proof follows what correct nodes have signed. All of their prevotes of a height are for the one
proposal of that height (`Legit`), so a two-thirds majority of prevotes is for it too, since the
Byzantine validators alone are too few; and the same again for the precommits.

* `SignedInv`, `NodeInv` — what every run keeps.
* `agreement` — every executed block has the hash of the majority, and two correct nodes execute the
  same block at the same height.
-/

namespace Emulator.Pyramid

open Quorum

/-! ## The setting -/

def Shard.weightOf (P : Shard) (i : ℕ) : ℕ := (P.peerVote i).toNat

/-- Twice the total weight fits into 32 bits, the Byzantine validators have less than a third of it,
and among the strings `S` that are hashed in the run no two have the same hash. -/
structure Setting (P : Shard) (byz : Finset ℕ) (S : Set Bytes) : Prop where
  votes : ∀ v ∈ P.peerVotes, 0 ≤ v
  small : 2 * weight P.weightOf (Finset.range P.size) < 2 ^ 31
  minority : 3 * weight P.weightOf byz < weight P.weightOf (Finset.range P.size)
  sum_length : ∀ x, (P.sum x).length = Merkle.hashSize
  injOn : S.InjOn P.sum
  partSize : 0 < P.maxPartSize

variable {P : Shard} {byz : Finset ℕ} {S : Set Bytes} {prop : ℤ → PartSetHeader × Bytes}
  {sg sg' : ℕ → List Signable} {i : ℕ} {k : ℤ} {c : Signable} {v : Vote} {key : Bytes} {ok : Bool}
  {m : Message} {s : ℕ → Node}

theorem sum_eq_sum_range (l : List ℤ) : l.sum = ∑ i ∈ Finset.range l.length, (l[i]?).getD 0 := by
  induction l with
  | nil => rfl
  | cons a l ih =>
    rw [List.sum_cons, List.length_cons, Finset.sum_range_succ', ih, add_comm]
    simp

variable (hs : Setting P byz S)

include hs in
theorem Setting.weightOf_eq (i : ℕ) : (P.weightOf i : ℤ) = P.peerVote i := by
  have h : 0 ≤ P.peerVote i := by
    unfold Shard.peerVote
    cases hi : P.peerVotes[i]? with
    | none => exact le_rfl
    | some v => exact hs.votes v (List.mem_of_getElem? hi)
  exact Int.toNat_of_nonneg h

include hs in
theorem Setting.totalVotes :
    P.totalVotes = weight P.weightOf (Finset.range P.size) := by
  have hsum : P.peerVotes.sum = weight P.weightOf (Finset.range P.size) := by
    rw [sum_eq_sum_range, weight, Nat.cast_sum]
    exact Finset.sum_congr rfl fun i _ => (hs.weightOf_eq i).symm
  have hsmall := hs.small
  rw [Shard.totalVotes, hsum, int32_of_lt (by omega) (by omega)]

/-! ## The proposal of a height -/

/-- `x` is the proposal of height `h`: the one `prop` gives if the proposer is Byzantine, and
otherwise one that the proposer has signed. -/
def Legit (P : Shard) (byz : Finset ℕ) (prop : ℤ → PartSetHeader × Bytes)
    (sg : ℕ → List Signable) (h : ℤ) (x : PartSetHeader × Bytes) : Prop :=
  if P.calculateProposer h 0 ∈ byz then x = prop h
  else .proposal x.1 (P.calculateProposer h 0) x.2 ∈ sg (P.calculateProposer h 0) ∧ x.1.height = h

/-- Nothing signed is forgotten. -/
def Grows (sg sg' : ℕ → List Signable) : Prop := ∀ j, ∀ c ∈ sg j, c ∈ sg' j

theorem Legit.mono (hg : Grows sg sg') {x : PartSetHeader × Bytes} (hx : Legit P byz prop sg k x) :
    Legit P byz prop sg' k x := by
  unfold Legit at *
  split_ifs at * with hb
  · exact hx
  · exact ⟨hg _ _ hx.1, hx.2⟩

/-- What correct nodes have signed: votes for the proposal of the height only, and one proposal for
a height. -/
structure SignedInv (P : Shard) (byz : Finset ℕ) (prop : ℤ → PartSetHeader × Bytes)
    (sg : ℕ → List Signable) : Prop where
  prevote : ∀ j, j ∉ byz → ∀ c h r hash, .prevote c h r hash ∈ sg j →
    ∃ hdr, Legit P byz prop sg h (hdr, hash)
  precommit : ∀ j, j ∉ byz → ∀ c h r hash, .precommit c h r hash ∈ sg j →
    ∃ hdr, Legit P byz prop sg h (hdr, hash)
  unique : ∀ j, j ∉ byz → ∀ hdr idx hash hdr' idx' hash', .proposal hdr idx hash ∈ sg j →
    .proposal hdr' idx' hash' ∈ sg j → hdr.height = hdr'.height → hdr = hdr' ∧ hash = hash'

theorem SignedInv.legit_unique (hi : SignedInv P byz prop sg) {x y : PartSetHeader × Bytes}
    (hx : Legit P byz prop sg k x) (hy : Legit P byz prop sg k y) : x = y := by
  unfold Legit at hx hy
  split_ifs at hx hy with hb
  · exact hx.trans hy.symm
  · obtain ⟨h₁, h₂⟩ := hi.unique _ hb _ _ _ _ _ _ hx.1 hy.1 (hx.2.trans hy.2.symm)
    exact Prod.ext h₁ h₂

/-- What a correct node `i` may sign next. -/
def Fine (P : Shard) (byz : Finset ℕ) (prop : ℤ → PartSetHeader × Bytes) (sg : ℕ → List Signable)
    (i : ℕ) : Signable → Prop
  | .proposal hdr _ _ => ∀ hdr' idx' hash', .proposal hdr' idx' hash' ∈ sg i →
    hdr'.height < hdr.height
  | .prevote _ h _ hash => ∃ hdr, Legit P byz prop sg h (hdr, hash)
  | .precommit _ h _ hash => ∃ hdr, Legit P byz prop sg h (hdr, hash)

/-- What was signed, with one more entry of node `i`. -/
def signMore (sg : ℕ → List Signable) (i : ℕ) (c : Signable) : ℕ → List Signable :=
  Function.update sg i (sg i ++ [c])

theorem grows_signMore (sg : ℕ → List Signable) (i : ℕ) (c : Signable) : Grows sg (signMore sg i c) := by
  intro j d hd
  by_cases hj : j = i
  · subst hj
    simp [signMore, hd]
  · simpa [signMore, Function.update_of_ne hj] using hd

theorem mem_signMore {j : ℕ} {d : Signable} (h : d ∈ signMore sg i c j) :
    d ∈ sg j ∨ j = i ∧ d = c := by
  by_cases hj : j = i
  · subst hj
    simpa [signMore] using h
  · left
    simpa [signMore, Function.update_of_ne hj] using h

theorem SignedInv.sign (hi : SignedInv P byz prop sg) (hc : Fine P byz prop sg i c) :
    SignedInv P byz prop (signMore sg i c) := by
  have hg := grows_signMore sg i c
  refine ⟨fun j hj c' h r hash hmem => ?_, fun j hj c' h r hash hmem => ?_,
    fun j hj hdr idx hash hdr' idx' hash' hmem hmem' hheight => ?_⟩
  · rcases mem_signMore hmem with hold | ⟨rfl, rfl⟩
    · obtain ⟨hdr, hl⟩ := hi.prevote j hj c' h r hash hold
      exact ⟨hdr, hl.mono hg⟩
    · obtain ⟨hdr, hl⟩ := hc
      exact ⟨hdr, hl.mono hg⟩
  · rcases mem_signMore hmem with hold | ⟨rfl, rfl⟩
    · obtain ⟨hdr, hl⟩ := hi.precommit j hj c' h r hash hold
      exact ⟨hdr, hl.mono hg⟩
    · obtain ⟨hdr, hl⟩ := hc
      exact ⟨hdr, hl.mono hg⟩
  · rcases mem_signMore hmem with hold | ⟨rfl, rfl⟩
    · rcases mem_signMore hmem' with hold' | ⟨rfl, rfl⟩
      · exact hi.unique j hj _ _ _ _ _ _ hold hold' hheight
      · exact absurd hheight (hc _ _ _ hold).ne
    · rcases mem_signMore hmem' with hold' | ⟨-, heq⟩
      · exact absurd hheight (hc _ _ _ hold').ne'
      · injection heq with h₁ _ h₂
        exact ⟨h₁.symm, h₂.symm⟩

/-! ## Votes -/

/-- The counters are right, and the votes of correct validators are votes they have signed. -/
structure VoteInv (P : Shard) (byz : Finset ℕ) (sg : ℕ → List Signable) (signBytes : Vote → Signable)
    (height : ℤ) (vs : VoteSet) : Prop where
  tally : vs.Tally P.weightOf P.size
  votes : ∀ j v, vs.votes j = some v → v.height = height ∧ (j ∉ byz → signBytes v ∈ sg j)

variable {signBytes : Vote → Signable} {height : ℤ} {vs vs' : VoteSet}

theorem VoteInv.mono (hg : Grows sg sg') (h : VoteInv P byz sg signBytes height vs) :
    VoteInv P byz sg' signBytes height vs :=
  ⟨h.tally, fun j v hv => ⟨(h.votes j v hv).1, fun hj => hg j _ ((h.votes j v hv).2 hj)⟩⟩

include hs in
theorem voteInv_newVoteSet (sg : ℕ → List Signable)
    (signBytes : Vote → Signable) (height : ℤ) :
    VoteInv P byz sg signBytes height (newVoteSet P.totalVotes) := by
  rw [hs.totalVotes]
  exact ⟨VoteSet.tally_newVoteSet _ _, fun j v hv => by cases hv⟩

/-- The vote is signed by a Byzantine validator, or was signed by its validator. -/
def Unforged (P : Shard) (byz : Finset ℕ) (sg : ℕ → List Signable) (signBytes : Vote → Signable)
    (v : Vote) : Prop :=
  P.verify v.signature (signBytes v) v.validatorIndex.toNat = true →
    v.validatorIndex.toNat ∉ byz → signBytes v ∈ sg v.validatorIndex.toNat

section

variable (hs : Setting P byz S)

include hs

theorem VoteInv.addVote {hd : HeightData}
    (h : VoteInv P byz sg signBytes hd.height vs) (hv : Unforged P byz sg signBytes v)
    (hadd : hd.addVote P vs v (signBytes v) = some vs') :
    VoteInv P byz sg signBytes hd.height vs' := by
  unfold HeightData.addVote at hadd
  split_ifs at hadd with hheight hindex hverify
  have hlt : v.validatorIndex.toNat < P.size := by omega
  refine ⟨h.tally.addVote hs.small hlt (by rw [hs.weightOf_eq]; exact hadd), fun j u hu => ?_⟩
  rcases VoteSet.votes_of_addVote hadd hu with hold | ⟨rfl, rfl⟩
  · exact h.votes j u hold
  · push Not at hheight
    exact ⟨hheight.1.symm, hv (by simpa using hverify)⟩

/-- A majority is for something that a correct validator has signed. -/
theorem VoteInv.maj23 (h : VoteInv P byz sg signBytes height vs)
    (hm : vs.maj23 = some (key, ok)) :
    ∃ j v, j ∉ byz ∧ v.height = height ∧ v.blockHeaderHash = key ∧ signBytes v ∈ sg j := by
  obtain ⟨j, -, hj, v, hv, hkey, -⟩ := h.tally.exists_correct hs.minority hm
  obtain ⟨hheight, hsigned⟩ := h.votes j v hv
  exact ⟨j, v, hj, hheight, hkey, hsigned hj⟩

theorem VoteInv.legit_prevotes (hi : SignedInv P byz prop sg)
    (h : VoteInv P byz sg Vote.prevoteBytes height vs) (hm : vs.maj23 = some (key, ok)) :
    ∃ hdr, Legit P byz prop sg height (hdr, key) := by
  obtain ⟨j, v, hj, rfl, rfl, hsigned⟩ := h.maj23 hs hm
  exact hi.prevote j hj _ _ _ _ hsigned

theorem VoteInv.legit_precommits (hi : SignedInv P byz prop sg)
    (h : VoteInv P byz sg Vote.precommitBytes height vs) (hm : vs.maj23 = some (key, ok)) :
    ∃ hdr, Legit P byz prop sg height (hdr, key) := by
  obtain ⟨j, v, hj, rfl, rfl, hsigned⟩ := h.maj23 hs hm
  exact hi.precommit j hj _ _ _ _ hsigned

end

/-! ## The data of a height -/

/-- The block is the one of the proposal of the height. -/
def Proposed (P : Shard) (byz : Finset ℕ) (S : Set Bytes) (prop : ℤ → PartSetHeader × Bytes)
    (sg : ℕ → List Signable) (h : ℤ) (b : Block) : Prop :=
  ∃ hdr, Legit P byz prop sg h (hdr, P.blockHash b) ∧ hdr.root ≠ [] ∧
    Assembles P.toBlockLib S hdr b

theorem Proposed.mono (hg : Grows sg sg') {b : Block} (hb : Proposed P byz S prop sg k b) :
    Proposed P byz S prop sg' k b := by
  obtain ⟨hdr, hl, hroot, hasm⟩ := hb
  exact ⟨hdr, hl.mono hg, hroot, hasm⟩

include hs in
theorem Proposed.unique (hi : SignedInv P byz prop sg) {b b' : Block}
    (hb : Proposed P byz S prop sg k b) (hb' : Proposed P byz S prop sg k b') : b = b' := by
  obtain ⟨hdr, hl, hroot, hasm⟩ := hb
  obtain ⟨hdr', hl', -, hasm'⟩ := hb'
  obtain ⟨rfl, -⟩ := Prod.mk.inj (hi.legit_unique hl hl')
  exact hasm.unique hs.sum_length hs.injOn hroot hasm'

/-- What a node has collected for a height. -/
structure DataInv (P : Shard) (byz : Finset ℕ) (S : Set Bytes) (prop : ℤ → PartSetHeader × Bytes)
    (sg : ℕ → List Signable) (hd : HeightData) : Prop where
  round : hd.round = 0
  proposal : ∀ p, hd.proposal = some p →
    Legit P byz prop sg hd.height (p.header, p.blockHeaderHash) ∧ p.header.root ≠ []
  partSet : ∀ ps, hd.partSet = some ps → ps.Sound P.toBlockLib S ∧
    ∃ p, hd.proposal = some p ∧ ps.header = p.header ∧ ps.blockHeaderHash = p.blockHeaderHash
  block : ∀ b, hd.block = some b → Proposed P byz S prop sg hd.height b
  prevotes : VoteInv P byz sg Vote.prevoteBytes hd.height hd.prevotes
  precommits : VoteInv P byz sg Vote.precommitBytes hd.height hd.precommits
  buffer : ∀ p ∈ hd.randomHeaderBuffer, ∀ x ∈ p.proof.inputs P.sum p.bytes, x ∈ S
  passPropose : RoundStep.propose.rank ≤ hd.passStep.rank → hd.block.isSome = true
  passPrevote : RoundStep.prevote.rank ≤ hd.passStep.rank → hd.prevotes.maj23.isSome = true
  passPrecommit : RoundStep.precommit.rank ≤ hd.passStep.rank → hd.precommits.maj23.isSome = true

variable {hd : HeightData}

theorem DataInv.mono (hg : Grows sg sg') (h : DataInv P byz S prop sg hd) :
    DataInv P byz S prop sg' hd := { h with
  proposal p hp := ⟨(h.proposal p hp).1.mono hg, (h.proposal p hp).2⟩
  block b hb := (h.block b hb).mono hg
  prevotes := h.prevotes.mono hg
  precommits := h.precommits.mono hg }

include hs in
theorem dataInv_newHeightData (sg : ℕ → List Signable) {height : ℤ}
    {buffer : List Part} (hbuf : ∀ p ∈ buffer, ∀ x ∈ p.proof.inputs P.sum p.bytes, x ∈ S) :
    DataInv P byz S prop sg
      { newHeightData P with height := height, randomHeaderBuffer := buffer } where
  round := rfl
  proposal p hp := by cases hp
  partSet ps hps := by cases hps
  block b hb := by cases hb
  prevotes := voteInv_newVoteSet hs sg _ _
  precommits := voteInv_newVoteSet hs sg _ _
  buffer := hbuf
  passPropose h := absurd h (by show ¬ RoundStep.propose.rank ≤ RoundStep.newHeight.rank; decide)
  passPrevote h := absurd h (by show ¬ RoundStep.prevote.rank ≤ RoundStep.newHeight.rank; decide)
  passPrecommit h :=
    absurd h (by show ¬ RoundStep.precommit.rank ≤ RoundStep.newHeight.rank; decide)

/-- A new part set, and possibly a block generated from it. -/
theorem DataInv.setParts (h : DataInv P byz S prop sg hd) {ps ps' : PartSet}
    (hps : hd.partSet = some ps) (hsound : ps'.Sound P.toBlockLib S) (hheader : ps'.header = ps.header)
    (hhash : ps'.blockHeaderHash = ps.blockHeaderHash) {block : Option Block}
    (hblock : block = hd.block ∨ ∃ b, block = some b ∧ ps'.genBlock P.toBlockLib = .ok b) :
    DataInv P byz S prop sg { hd with partSet := some ps', block } := { h with
  partSet ps₁ hps₁ := by
    obtain rfl := Option.some.inj hps₁
    obtain ⟨-, p, hp, h₁, h₂⟩ := h.partSet ps hps
    exact ⟨hsound, p, hp, hheader.trans h₁, hhash.trans h₂⟩
  block b hb := by
    rcases hblock with rfl | ⟨b', rfl, hgen⟩
    · exact h.block b hb
    · obtain rfl := Option.some.inj hb
      obtain ⟨hbh, hasm⟩ := hsound.genBlock hgen
      obtain ⟨-, p, hp, h₁, h₂⟩ := h.partSet ps hps
      obtain ⟨hl, hroot⟩ := h.proposal p hp
      have hheader' : ps'.header = p.header := hheader.trans h₁
      refine ⟨ps'.header, ?_, by rw [hheader']; exact hroot, hasm⟩
      have hbh' : P.blockHash b' = ps'.blockHeaderHash := hbh
      rw [hbh', hheader', hhash, h₂]
      exact hl
  passPropose hp := by
    rcases hblock with rfl | ⟨b', rfl, -⟩
    · exact h.passPropose hp
    · rfl }

theorem DataInv.addPart (h : DataInv P byz S prop sg hd) {p : Part}
    (hin : ∀ x ∈ p.proof.inputs P.sum p.bytes, x ∈ S) : DataInv P byz S prop sg (hd.addPart P p).1 := by
  unfold HeightData.addPart
  split_ifs
  · exact h
  · exact h
  · cases hps : hd.partSet with
    | none =>
      refine { h with partSet := fun ps hps' => ?_, buffer := fun q hq => ?_ }
      · cases hps'
      · rcases List.mem_append.mp hq with hq | hq
        · exact h.buffer q hq
        · rw [List.mem_singleton.mp hq]
          exact hin
    | some ps =>
      simp only
      cases hadd : ps.addPart P.toBlockLib p with
      | error e => exact h
      | ok ps' =>
        have hsound := (h.partSet ps hps).1.addPart hin hadd
        obtain ⟨-, -, hps'⟩ := PartSet.addPart_eq_ok hadd
        have hheader : ps'.header = ps.header := by rw [hps']
        have hhash : ps'.blockHeaderHash = ps.blockHeaderHash := by rw [hps']
        simp only
        split_ifs
        · cases hgen : ps'.genBlock P.toBlockLib with
          | error e => exact h.setParts hps hsound hheader hhash (.inl rfl)
          | ok b => exact h.setParts hps hsound hheader hhash (.inr ⟨b, rfl, hgen⟩)
        · exact h.setParts hps hsound hheader hhash (.inl rfl)

theorem height_addPart (hd : HeightData) (p : Part) : (hd.addPart P p).1.height = hd.height := by
  unfold HeightData.addPart
  split_ifs
  · rfl
  · rfl
  · split
    · rfl
    · split
      · rfl
      · split_ifs
        · split <;> rfl
        · rfl

theorem DataInv.addParts (parts : List Part) (h : DataInv P byz S prop sg hd)
    (hin : ∀ p ∈ parts, ∀ x ∈ p.proof.inputs P.sum p.bytes, x ∈ S) :
    DataInv P byz S prop sg (parts.foldl (fun h part => (h.addPart P part).1) hd) ∧
      (parts.foldl (fun h part => (h.addPart P part).1) hd).height = hd.height := by
  induction parts generalizing hd with
  | nil => exact ⟨h, rfl⟩
  | cons p parts ih =>
    obtain ⟨h₁, h₂⟩ := ih (h.addPart (hin p List.mem_cons_self)) fun q hq =>
      hin q (List.mem_cons_of_mem p hq)
    exact ⟨h₁, h₂.trans (height_addPart hd p)⟩

/-- The proposal is the one of a Byzantine proposer, or was signed by its proposer. -/
def UnforgedProposal (P : Shard) (byz : Finset ℕ) (sg : ℕ → List Signable) (p : Proposal) : Prop :=
  P.verify p.signature p.signBytes p.proposerIndex.toNat = true → p.proposerIndex.toNat ∉ byz →
    p.signBytes ∈ sg p.proposerIndex.toNat

/-- A Byzantine proposer signs no proposal for a height but the one `prop` gives. -/
def Single (P : Shard) (byz : Finset ℕ) (prop : ℤ → PartSetHeader × Bytes) (p : Proposal) : Prop :=
  P.verify p.signature p.signBytes p.proposerIndex.toNat = true → p.proposerIndex.toNat ∈ byz →
    (p.header, p.blockHeaderHash) = prop p.header.height

theorem DataInv.addProposal (h : DataInv P byz S prop sg hd) {p : Proposal}
    (hvalid : (Message.proposal p).validateBasic = true) (hunf : UnforgedProposal P byz sg p)
    (hsingle : Single P byz prop p) :
    DataInv P byz S prop sg (hd.addProposal P p (P.calculateProposer hd.height 0)).1 ∧
      (hd.addProposal P p (P.calculateProposer hd.height 0)).1.height = hd.height := by
  unfold HeightData.addProposal
  split_ifs with hnone hheight hindex hchain hverify
  iterate 5 exact ⟨h, rfl⟩
  push Not at hheight hindex
  have hidx : p.proposerIndex.toNat = P.calculateProposer hd.height 0 := by omega
  rw [Bool.not_eq_true, Bool.not_eq_false'] at hverify
  rw [← hidx] at hverify
  simp only [Message.validateBasic, PartSetHeader.validateBasic, Bool.and_eq_true,
    decide_eq_true_eq, beq_iff_eq] at hvalid
  have hroot : p.header.root ≠ [] := fun hnil => by
    have := hvalid.2.2
    rw [hnil] at this
    cases this
  have hlegit : Legit P byz prop sg hd.height (p.header, p.blockHeaderHash) := by
    unfold Legit
    rw [← hidx]
    split_ifs with hb
    · rw [hsingle hverify hb, hheight.1]
    · refine ⟨?_, hheight.1.symm⟩
      have hsig := hunf hverify hb
      rwa [Proposal.signBytes, hindex, ← hidx] at hsig
  refine DataInv.addParts hd.randomHeaderBuffer
    { h with proposal := fun q hq => ?_, partSet := fun ps hps => ?_ } h.buffer
  · obtain rfl := Option.some.inj hq
    exact ⟨hlegit, hroot⟩
  · obtain rfl := Option.some.inj hps
    exact ⟨PartSet.sound_newPartSet _ hvalid.2.1.1.2, p, rfl, rfl, rfl⟩

theorem isSome_maj23_addVote (h : hd.addVote P vs v c = some vs') (hm : vs.maj23.isSome = true) :
    vs'.maj23.isSome = true := by
  obtain ⟨m, hm⟩ := Option.isSome_iff_exists.mp hm
  unfold HeightData.addVote at h
  split_ifs at h
  exact Option.isSome_iff_exists.mpr ⟨m, VoteSet.maj23_of_addVote hm h⟩

include hs in
theorem DataInv.addPrevote (h : DataInv P byz S prop sg hd)
    (hunf : Unforged P byz sg Vote.prevoteBytes v) :
    DataInv P byz S prop sg (hd.addPrevote P v).1 ∧ (hd.addPrevote P v).1.height = hd.height := by
  unfold HeightData.addPrevote
  split
  · exact ⟨h, rfl⟩
  · next vs' hadd =>
    exact ⟨{ h with
      prevotes := h.prevotes.addVote hs hunf hadd
      passPrevote := fun hp => isSome_maj23_addVote hadd (h.passPrevote hp) }, rfl⟩

include hs in
theorem DataInv.addPrecommit (h : DataInv P byz S prop sg hd)
    (hunf : Unforged P byz sg Vote.precommitBytes v) :
    DataInv P byz S prop sg (hd.addPrecommit P v).1 ∧ (hd.addPrecommit P v).1.height = hd.height := by
  unfold HeightData.addPrecommit
  split
  · exact ⟨h, rfl⟩
  · next vs' hadd =>
    exact ⟨{ h with
      precommits := h.precommits.addVote hs hunf hadd
      passPrecommit := fun hp => isSome_maj23_addVote hadd (h.passPrecommit hp) }, rfl⟩

/-! ## Finished steps -/

section

variable (h : DataInv P byz S prop sg hd)

include h

theorem DataInv.finishProposal :
    DataInv P byz S prop sg hd.finishProposal.2 ∧ hd.finishProposal.2.height = hd.height ∧
      (hd.finishProposal.1 = true → RoundStep.propose.rank ≤ hd.finishProposal.2.passStep.rank) := by
  unfold HeightData.finishProposal
  split_ifs with hpass hprop hblock
  · exact ⟨h, rfl, fun _ => hpass⟩
  · exact ⟨h, rfl, fun hf => by cases hf⟩
  · exact ⟨h, rfl, fun hf => by cases hf⟩
  · refine ⟨{ h with
      passPropose := fun _ => ?_
      passPrevote := fun hp => absurd (show RoundStep.prevote.rank ≤ RoundStep.propose.rank from hp)
        (by decide)
      passPrecommit := fun hp =>
        absurd (show RoundStep.precommit.rank ≤ RoundStep.propose.rank from hp) (by decide) },
      rfl, fun _ => le_rfl⟩
    simp only [Bool.or_eq_true, not_or] at hblock
    simpa [Option.isSome_iff_ne_none] using hblock.1

theorem DataInv.finishPrevote :
    DataInv P byz S prop sg hd.finishPrevote.2 ∧ hd.finishPrevote.2.height = hd.height ∧
      (hd.finishPrevote.1 = true → RoundStep.prevote.rank ≤ hd.finishPrevote.2.passStep.rank) := by
  obtain ⟨h₁, hheight, hdone⟩ := h.finishProposal
  unfold HeightData.finishPrevote
  split_ifs with hpass hprop hmaj
  · exact ⟨h, rfl, fun _ => hpass⟩
  · exact ⟨h₁, hheight, fun hf => by cases hf⟩
  · exact ⟨h₁, hheight, fun hf => by cases hf⟩
  · refine ⟨{ h₁ with
      passPropose := fun _ => h₁.passPropose (hdone (by simpa using hprop))
      passPrevote := fun _ => ?_
      passPrecommit := fun hp =>
        absurd (show RoundStep.precommit.rank ≤ RoundStep.prevote.rank from hp) (by decide) },
      hheight, fun _ => le_rfl⟩
    exact Option.isSome_iff_ne_none.mpr (by simpa [VoteSet.hasMaj23] using hmaj)

theorem DataInv.finishPrecommit :
    DataInv P byz S prop sg hd.finishPrecommit.2 ∧ hd.finishPrecommit.2.height = hd.height ∧
      (hd.finishPrecommit.1 = true →
        RoundStep.precommit.rank ≤ hd.finishPrecommit.2.passStep.rank) := by
  obtain ⟨h₁, hheight, hdone⟩ := h.finishPrevote
  unfold HeightData.finishPrecommit
  split_ifs with hpass hprev hmaj
  · exact ⟨h, rfl, fun _ => hpass⟩
  · exact ⟨h₁, hheight, fun hf => by cases hf⟩
  · exact ⟨h₁, hheight, fun hf => by cases hf⟩
  · have hdone' := hdone (by simpa using hprev)
    refine ⟨{ h₁ with
      passPropose := fun _ => h₁.passPropose (le_trans (by decide) hdone')
      passPrevote := fun _ => h₁.passPrevote hdone'
      passPrecommit := fun _ => ?_ }, hheight, fun _ => le_rfl⟩
    exact Option.isSome_iff_ne_none.mpr (by simpa [VoteSet.hasMaj23] using hmaj)

end

/-! ## A node -/

/-- What a correct node `i` keeps. -/
structure NodeInv (P : Shard) (byz : Finset ℕ) (S : Set Bytes) (prop : ℤ → PartSetHeader × Bytes)
    (sg : ℕ → List Signable) (i : ℕ) (n : Node) : Prop where
  signerIndex : n.signerIndex = i
  height : n.heightDatas.height = n.height
  round : n.round = 0
  data : DataInv P byz S prop sg n.heightDatas
  relay : ∀ m ∈ n.relayMessageChannel, m.validateBasic = true
  replaying : ∀ m ∈ n.replaying, m.validateBasic = true
  proposals : ∀ hdr idx hash, .proposal hdr idx hash ∈ n.signed → hdr.height ≤ n.height
  executed : ∀ x ∈ n.executed, Proposed P byz S prop sg x.height x.block ∧
    ∃ ok, x.maj23 = some (P.blockHash x.block, ok)

theorem NodeInv.mono (hg : Grows sg sg') {n : Node} (h : NodeInv P byz S prop sg i n) :
    NodeInv P byz S prop sg' i n :=
  { h with
    data := h.data.mono hg
    executed := fun x hx => ⟨(h.executed x hx).1.mono hg, (h.executed x hx).2⟩ }

/-- The correct node `i` is fine, and `sg` has what it has signed. -/
structure Good (P : Shard) (byz : Finset ℕ) (S : Set Bytes) (prop : ℤ → PartSetHeader × Bytes)
    (sg : ℕ → List Signable) (i : ℕ) (n : Node) : Prop where
  signed : SignedInv P byz prop sg
  node : NodeInv P byz S prop sg i n
  own : sg i = n.signed

/-- From `n` to `n'` the node has only signed more, and is still fine. -/
def Keeps (P : Shard) (byz : Finset ℕ) (S : Set Bytes) (prop : ℤ → PartSetHeader × Bytes)
    (i : ℕ) (sg sg' : ℕ → List Signable) (n' : Node) : Prop :=
  Good P byz S prop sg' i n' ∧ Grows sg sg' ∧ ∀ j, j ≠ i → sg' j = sg j

variable {n n' : Node}

theorem Good.keeps (h : Good P byz S prop sg i n') : Keeps P byz S prop i sg sg n' :=
  ⟨h, fun _ _ hc => hc, fun _ _ => rfl⟩

theorem Keeps.trans {sg'' : ℕ → List Signable} (h : Keeps P byz S prop i sg sg' n)
    (h' : Keeps P byz S prop i sg' sg'' n') : Keeps P byz S prop i sg sg'' n' :=
  ⟨h'.1, fun j c hc => h'.2.1 j c (h.2.1 j c hc), fun j hj => (h'.2.2 j hj).trans (h.2.2 j hj)⟩

section

variable (h : Good P byz S prop sg i n)

include h

theorem Good.setData (hdata : DataInv P byz S prop sg hd)
    (hheight : hd.height = n.heightDatas.height) :
    Good P byz S prop sg i { n with heightDatas := hd } :=
  { h with node := { h.node with height := hheight.trans h.node.height, data := hdata } }

theorem Good.sign (hc : Fine P byz prop sg i c)
    (hvote : ∀ hdr idx hash, c ≠ .proposal hdr idx hash) :
    Keeps P byz S prop i sg (signMore sg i c) { n with signed := n.signed ++ [c] } := by
  have hg := grows_signMore sg i c
  have hn := h.node.mono hg
  refine ⟨⟨h.signed.sign hc, { hn with proposals := fun hdr idx hash hmem => ?_ }, ?_⟩, hg,
    fun j hj => Function.update_of_ne hj _ _⟩
  · rcases List.mem_append.mp hmem with hold | hnew
    · exact h.node.proposals hdr idx hash hold
    · exact absurd (List.mem_singleton.mp hnew).symm (hvote hdr idx hash)
  · rw [signMore, Function.update_self, h.own]

theorem Good.panic :
    Good P byz S prop sg i { n with panicked := true } := { h with node := { h.node with } }

theorem Good.setStep (step : RoundStep) :
    Good P byz S prop sg i { n with step } := { h with node := { h.node with } }

end

/-! ## The three steps -/

section

variable (hs : Setting P byz S)

include hs

section

variable (h : Good P byz S prop sg i n)

include h

theorem Good.doPropose :
    ∃ sg', Keeps P byz S prop i sg sg' (n.doPropose P) := by
  unfold Node.doPropose
  split
  · exact ⟨sg, h.panic.keeps⟩
  next block hblock =>
  split
  · exact ⟨sg, h.panic.keeps⟩
  next pvote hjudge =>
  -- it signs a prevote for the hash of its block, which is the one of the proposal
  obtain ⟨hdr, hlegit, -, -⟩ := h.node.data.block block hblock
  rw [h.node.height] at hlegit
  simp only
  set vote := (newVote n.height n.round (P.blockHash block) n.signerIndex).setOK pvote with hvote
  have hsign := h.sign (c := vote.prevoteBytes) ⟨hdr, hlegit⟩ fun _ _ _ => Signable.noConfusion
  refine ⟨_, ?_, hsign.2⟩
  have hunf : Unforged P byz (signMore sg i vote.prevoteBytes) Vote.prevoteBytes
      { vote with signature := P.sign n.signerIndex vote.prevoteBytes } := by
    intro _ _
    have hidx : vote.validatorIndex.toNat = i := h.node.signerIndex
    show vote.prevoteBytes ∈ signMore sg i vote.prevoteBytes vote.validatorIndex.toNat
    rw [hidx]
    simp [signMore]
  obtain ⟨hdata, hheight⟩ := hsign.1.node.data.addPrevote hs hunf
  exact (hsign.1.setData hdata hheight).setStep .prevote

theorem Good.doPrevote (hpass : RoundStep.prevote.rank ≤ n.heightDatas.passStep.rank) :
    ∃ sg', Keeps P byz S prop i sg sg' (n.doPrevote P) := by
  unfold Node.doPrevote
  -- the majority of prevotes is for the proposal of the height
  obtain ⟨maj, hmaj⟩ := Option.isSome_iff_exists.mp (h.node.data.passPrevote hpass)
  obtain ⟨hdr, hlegit⟩ := h.node.data.prevotes.legit_prevotes hs h.signed hmaj
  rw [h.node.height] at hlegit
  have hget : n.heightDatas.prevotes.getMaj23 = maj := by rw [VoteSet.getMaj23, hmaj]; rfl
  simp only [hget]
  set vote := (newVote n.height n.round maj.1 n.signerIndex).setOK maj.2 with hvote
  have hsign := h.sign (c := vote.precommitBytes) ⟨hdr, hlegit⟩ fun _ _ _ => Signable.noConfusion
  refine ⟨_, ?_, hsign.2⟩
  have hunf : Unforged P byz (signMore sg i vote.precommitBytes) Vote.precommitBytes
      { vote with signature := P.sign n.signerIndex vote.precommitBytes } := by
    intro _ _
    have hidx : vote.validatorIndex.toNat = i := h.node.signerIndex
    show vote.precommitBytes ∈ signMore sg i vote.precommitBytes vote.validatorIndex.toNat
    rw [hidx]
    simp [signMore]
  obtain ⟨hdata, hheight⟩ := hsign.1.node.data.addPrecommit hs hunf
  exact (hsign.1.setData hdata hheight).setStep .precommit

theorem Good.doPrecommit (hpass : RoundStep.precommit.rank ≤ n.heightDatas.passStep.rank) :
    Good P byz S prop sg i (n.doPrecommit P) := by
  unfold Node.doPrecommit
  split
  · exact h.panic
  next block hblock =>
  have hprop := h.node.data.block block hblock
  obtain ⟨hdr, hlegit, -, -⟩ := hprop
  -- the majority of precommits is for the proposal of the height, and so is the block
  obtain ⟨⟨key, ok⟩, hmaj⟩ := Option.isSome_iff_exists.mp (h.node.data.passPrecommit hpass)
  obtain ⟨hdr', hlegit'⟩ := h.node.data.precommits.legit_precommits hs h.signed hmaj
  have hkey : P.blockHash block = key := (Prod.mk.inj (h.signed.legit_unique hlegit hlegit')).2
  refine { h with node := { h.node with executed := fun x hx => ?_ } }
  rcases List.mem_append.mp hx with hold | hnew
  · exact h.node.executed x hold
  · rw [List.mem_singleton.mp hnew]
    refine ⟨?_, ok, ?_⟩
    · rw [← h.node.height]
      exact h.node.data.block block hblock
    · rw [hmaj, hkey]

theorem Good.transition :
    ∃ sg', Keeps P byz S prop i sg sg' (n.transition P).1 := by
  unfold Node.transition
  split_ifs
  · exact ⟨sg, h.keeps⟩
  split
  · obtain ⟨hdata, hheight, -⟩ := h.node.data.finishProposal
    simp only
    split_ifs
    · exact (h.setData hdata hheight).doPropose hs
    · exact ⟨sg, (h.setData hdata hheight).keeps⟩
  · obtain ⟨hdata, hheight, hdone⟩ := h.node.data.finishPrevote
    simp only
    split_ifs with hgo
    · exact (h.setData hdata hheight).doPrevote hs (hdone hgo)
    · exact ⟨sg, (h.setData hdata hheight).keeps⟩
  · obtain ⟨hdata, hheight, hdone⟩ := h.node.data.finishPrecommit
    simp only
    split_ifs with hgo
    · exact ⟨sg, ((h.setData hdata hheight).doPrecommit hs (hdone hgo)).keeps⟩
    · exact ⟨sg, (h.setData hdata hheight).keeps⟩
  · exact ⟨sg, h.keeps⟩

end

theorem Good.handle (fuel : ℕ) (h : Good P byz S prop sg i n) :
    ∃ sg', Keeps P byz S prop i sg sg' (n.handle P fuel) := by
  induction fuel generalizing n sg with
  | zero => exact ⟨sg, h.keeps⟩
  | succ fuel ih =>
    obtain ⟨sg₁, h₁⟩ := h.transition hs
    rw [Node.handle]
    split_ifs
    · obtain ⟨sg₂, h₂⟩ := ih h₁.1
      exact ⟨sg₂, h₁.trans h₂⟩
    · exact ⟨sg₁, h₁⟩

end

/-! ## Messages -/

/-- What is assumed of a message: the strings hashed for a part are among `S`, and signatures of
correct validators are not forged. -/
def Allowed (P : Shard) (byz : Finset ℕ) (S : Set Bytes) (sg : ℕ → List Signable) : Message → Prop
  | .part p => ∀ x ∈ p.proof.inputs P.sum p.bytes, x ∈ S
  | .proposal p => UnforgedProposal P byz sg p
  | .prevote v => Unforged P byz sg Vote.prevoteBytes v
  | .precommit v => Unforged P byz sg Vote.precommitBytes v

/-- If the message is a proposal of a Byzantine proposer, it is the one of its height. -/
def SingleMessage (P : Shard) (byz : Finset ℕ) (prop : ℤ → PartSetHeader × Bytes) : Message → Prop
  | .proposal p => Single P byz prop p
  | _ => True

section

variable (h : Good P byz S prop sg i n)

include h

theorem Good.addRelay (hvalid : m.validateBasic = true) :
    Good P byz S prop sg i (n.addRelayMessageIfOverTime m).1 := by
  unfold Node.addRelayMessageIfOverTime
  split_ifs
  · refine { h with node := { h.node with relay := fun m' hm' => ?_ } }
    rcases List.mem_append.mp hm' with hold | hnew
    · exact h.node.relay m' hold
    · rw [List.mem_singleton.mp hnew]
      exact hvalid
  · exact h

include hs in
theorem Good.addMessage (hvalid : m.validateBasic = true) (hallow : Allowed P byz S sg m)
    (hsingle : SingleMessage P byz prop m) :
    Good P byz S prop sg i { n with heightDatas := (n.addMessage P m).1 } := by
  cases m with
  | part p => exact h.setData (h.node.data.addPart hallow) (height_addPart _ _)
  | proposal p =>
    obtain ⟨hdata, hheight⟩ := h.node.data.addProposal hvalid hallow hsingle
    rw [h.node.height] at hdata hheight
    refine h.setData ?_ ?_
    · rw [Node.addMessage, h.node.round]
      exact hdata
    · rw [Node.addMessage, h.node.round, h.node.height]
      exact hheight
  | prevote v =>
    obtain ⟨hdata, hheight⟩ := h.node.data.addPrevote hs hallow
    exact h.setData hdata hheight
  | precommit v =>
    obtain ⟨hdata, hheight⟩ := h.node.data.addPrecommit hs hallow
    exact h.setData hdata hheight

include hs in
theorem Good.doMessage (hvalid : m.validateBasic = true) (hallow : Allowed P byz S sg m)
    (hsingle : SingleMessage P byz prop m) :
    ∃ sg', Keeps P byz S prop i sg sg' (n.doMessage P m) := by
  have hrelay := h.addRelay hvalid
  unfold Node.doMessage
  simp only
  split_ifs
  · exact ⟨sg, hrelay.keeps⟩
  · exact (hrelay.addMessage hs hvalid hallow hsingle).handle hs 4
  · exact ⟨sg, (hrelay.addMessage hs hvalid hallow hsingle).keeps⟩

/-! ## A new height -/

include hs in
theorem Good.nextHeight :
    Good P byz S prop sg i (n.nextHeight P) ∧
      ∀ hdr idx hash, .proposal hdr idx hash ∈ n.signed → hdr.height < (n.nextHeight P).height := by
  have hlt : ∀ hdr idx hash, .proposal hdr idx hash ∈ n.signed → hdr.height < n.height + 1 :=
    fun hdr idx hash hmem => Int.lt_add_one_of_le (h.node.proposals hdr idx hash hmem)
  refine ⟨⟨h.signed, ⟨h.node.signerIndex, ?_, rfl, dataInv_newHeightData hs sg h.node.data.buffer,
    fun m hm => h.node.relay m (List.mem_filter.mp hm).1, h.node.replaying,
    fun hdr idx hash hmem => (hlt hdr idx hash hmem).le, h.node.executed⟩, h.own⟩, hlt⟩
  show n.heightDatas.height + 1 = n.height + 1
  rw [h.node.height]

end

/-- What is assumed of a block that a correct proposer makes: it survives the wire, and the strings
hashed for its parts are among `S`. -/
def Makes (P : Shard) (S : Set Bytes) (b : Block) : Prop :=
  P.codec.unmarshal (P.codec.marshal b) = some b ∧ PartsIn P.toBlockLib S b P.maxPartSize 0

include hs in
theorem Good.createBlock (h : Good P byz S prop sg i n) (hi : i ∉ byz)
    (hlt : ∀ hdr idx hash, .proposal hdr idx hash ∈ n.signed → hdr.height < n.height)
    (hproposer : n.isProposer P = true) {body : Block} (hmakes : Makes P S (n.createBlock P body)) :
    ∃ sg', Keeps P byz S prop i sg sg' (n.createBlockAndBroadcast P body) := by
  unfold Node.createBlockAndBroadcast
  simp only
  set block := n.createBlock P body with hblock
  set partSet := partSetFromBlock P.toBlockLib block P.maxPartSize n.round with hps
  set c : Signable := .proposal partSet.header n.signerIndex partSet.blockHeaderHash with hc
  have hround : n.round = 0 := h.node.round
  have hproposer' : P.calculateProposer n.height 0 = i := by
    rw [← hround, ← h.node.signerIndex]
    exact beq_iff_eq.mp hproposer
  have hg := grows_signMore sg i c
  have hn := h.node.mono hg
  have hlegit : Legit P byz prop (signMore sg i c) n.heightDatas.height
      (partSet.header, partSet.blockHeaderHash) := by
    unfold Legit
    rw [h.node.height, hproposer', if_neg hi]
    refine ⟨?_, rfl⟩
    rw [signMore, Function.update_self, ← h.node.signerIndex]
    exact List.mem_append_right _ (List.mem_singleton.mpr rfl)
  have hroot : partSet.header.root ≠ [] :=
    root_partSetFromBlock (by decide) hs.sum_length _ _ _
  have hin : PartsIn P.toBlockLib S block P.maxPartSize n.round := by
    rw [hround]
    exact hmakes.2
  have hprop : Proposed P byz S prop (signMore sg i c) n.heightDatas.height block :=
    ⟨partSet.header, hlegit, hroot, assembles_partSetFromBlock hs.partSize hmakes.1 hin⟩
  refine ⟨signMore sg i c, ⟨h.signed.sign fun hdr' idx' hash' hmem => ?_, { hn with
      data := { hn.data with
        proposal := fun p hp => ?_
        partSet := fun ps hps' => ?_
        block := fun b hb => ?_
        passPropose := fun _ => rfl }
      proposals := fun hdr idx hash hmem => ?_ }, ?_⟩, hg, fun j hj => Function.update_of_ne hj _ _⟩
  · rw [h.own] at hmem
    exact hlt hdr' idx' hash' hmem
  · obtain rfl := Option.some.inj hp
    exact ⟨hlegit, hroot⟩
  · obtain rfl := Option.some.inj hps'
    exact ⟨sound_partSetFromBlock hin, _, rfl, rfl, rfl⟩
  · obtain rfl := Option.some.inj hb
    exact hprop
  · rcases List.mem_append.mp hmem with hold | hnew
    · exact h.node.proposals hdr idx hash hold
    · injection List.mem_singleton.mp hnew with hhdr
      rw [hhdr]
      exact le_rfl
  · rw [signMore, Function.update_self, h.own]
    rfl

/-- What is assumed of the contents of a block when a node enters a height: as of `Makes`, if the
node is the proposer. -/
def MakesNext (P : Shard) (S : Set Bytes) (n : Node) (body : Block) : Prop :=
  (n.nextHeight P).isProposer P = true → Makes P S ((n.nextHeight P).createBlock P body)

include hs in
theorem Good.enterNewHeight (h : Good P byz S prop sg i n) (hi : i ∉ byz)
    {body : Block} (hmakes : MakesNext P S n body) :
    ∃ sg', Keeps P byz S prop i sg sg' (n.enterNewHeight P body) := by
  obtain ⟨hnext, hlt⟩ := h.nextHeight hs
  have hreplay : ∀ {sg₁ : ℕ → List Signable} {n₁ : Node}, Keeps P byz S prop i sg sg₁ n₁ →
      Keeps P byz S prop i sg sg₁ { n₁ with
        replaying := n₁.relayMessageChannel.filter fun m =>
          m.height = n₁.height ∧ m.round = n₁.round } := by
    intro sg₁ n₁ h₁
    have hn := h₁.1.node
    exact ⟨{ h₁.1 with
      node := { hn with replaying := fun m hm => hn.relay m (List.mem_filter.mp hm).1 } }, h₁.2⟩
  unfold Node.enterNewHeight
  simp only
  split_ifs with hprop
  · obtain ⟨sg₁, h₁⟩ := hnext.createBlock hs hi hlt hprop (hmakes hprop)
    exact ⟨sg₁, hreplay h₁⟩
  · exact ⟨sg, hreplay hnext.keeps⟩

/-! ## Runs -/

def signedOf (s : ℕ → Node) : ℕ → List Signable := fun j => (s j).signed

/-- What is assumed of every step: it is taken by a correct node, signatures of correct validators
are not forged, the hashed strings are among `S`, and blocks survive the wire. -/
def Admissible (P : Shard) (byz : Finset ℕ) (S : Set Bytes) (s : ℕ → Node) : NodeEvent → Prop
  | .start i body => i ∉ byz ∧ MakesNext P S (s i) body
  | .receive i m => i ∉ byz ∧ Allowed P byz S (signedOf s) m
  | .replay i => i ∉ byz ∧ ∀ m ∈ (s i).replaying.head?, Allowed P byz S (signedOf s) m
  | .commit i body => i ∉ byz ∧ MakesNext P S (s i) body

/-- A Byzantine proposer does not equivocate in this step. -/
def SingleEvent (P : Shard) (byz : Finset ℕ) (prop : ℤ → PartSetHeader × Bytes) (s : ℕ → Node) :
    NodeEvent → Prop
  | .receive _ m => SingleMessage P byz prop m
  | .replay i => ∀ m ∈ (s i).replaying.head?, SingleMessage P byz prop m
  | _ => True

/-- What every run keeps. -/
structure NodesInv (P : Shard) (byz : Finset ℕ) (S : Set Bytes) (prop : ℤ → PartSetHeader × Bytes)
    (s : ℕ → Node) : Prop where
  signed : SignedInv P byz prop (signedOf s)
  nodes : ∀ i, i ∉ byz → NodeInv P byz S prop (signedOf s) i (s i)

include hs in
theorem nodesInv_newNodes : NodesInv P byz S prop (newNodes P) := by
  have hnil : ∀ (c : Signable) (j : ℕ), c ∉ signedOf (newNodes P) j := fun _ _ => List.not_mem_nil
  refine ⟨⟨?_, ?_, ?_⟩, fun i _ => ⟨rfl, rfl, rfl, dataInv_newHeightData hs _ ?_, ?_, ?_, ?_, ?_⟩⟩
  · exact fun j _ c h r hash hmem => absurd hmem (hnil _ _)
  · exact fun j _ c h r hash hmem => absurd hmem (hnil _ _)
  · exact fun j _ hdr idx hash hdr' idx' hash' hmem => absurd hmem (hnil _ _)
  · exact fun p hp => absurd hp List.not_mem_nil
  · exact fun m hm => absurd hm List.not_mem_nil
  · exact fun m hm => absurd hm List.not_mem_nil
  · exact fun hdr idx hash hmem => absurd hmem List.not_mem_nil
  · exact fun x hx => absurd hx List.not_mem_nil

theorem NodesInv.good (h : NodesInv P byz S prop s) (hi : i ∉ byz) :
    Good P byz S prop (signedOf s) i (s i) :=
  ⟨h.signed, h.nodes i hi, rfl⟩

theorem NodesInv.update (h : NodesInv P byz S prop s) {n' : Node}
    (hkeeps : ∃ sg', Keeps P byz S prop i (signedOf s) sg' n') :
    NodesInv P byz S prop (Function.update s i n') := by
  obtain ⟨sg', hgood, hgrows, hother⟩ := hkeeps
  have hsg : signedOf (Function.update s i n') = sg' := by
    funext j
    by_cases hj : j = i
    · subst hj
      rw [signedOf, Function.update_self, hgood.own]
    · rw [signedOf, Function.update_of_ne hj, hother j hj]
      rfl
  refine ⟨by rw [hsg]; exact hgood.signed, fun j hj => ?_⟩
  rw [hsg]
  by_cases hji : j = i
  · subst hji
    rw [Function.update_self]
    exact hgood.node
  · rw [Function.update_of_ne hji]
    exact (h.nodes j hj).mono hgrows

include hs in
theorem NodesInv.step {s' : ℕ → Node} {e : NodeEvent}
    (h : NodesInv P byz S prop s) (hadm : Admissible P byz S s e)
    (hsingle : SingleEvent P byz prop s e) (hstep : nodeStep P s e = some s') :
    NodesInv P byz S prop s' := by
  cases e with
  | start i body =>
    simp only [nodeStep, Option.ite_none_right_eq_some] at hstep
    obtain ⟨-, hstep⟩ := hstep
    obtain rfl := Option.some.inj hstep
    exact h.update ((h.good hadm.1).enterNewHeight hs hadm.1 hadm.2)
  | receive i m =>
    simp only [nodeStep] at hstep
    split_ifs at hstep with hpanic hvalid
    · obtain rfl := Option.some.inj hstep
      exact h.update ((h.good hadm.1).doMessage hs hvalid hadm.2 hsingle)
    · obtain rfl := Option.some.inj hstep
      exact h
  | replay i =>
    simp only [nodeStep] at hstep
    cases hr : (s i).replaying with
    | nil =>
      rw [hr] at hstep
      cases hstep
    | cons m ms =>
      simp only [hr] at hstep
      split_ifs at hstep
      obtain rfl := Option.some.inj hstep
      have hnode := h.nodes i hadm.1
      have hgood : Good P byz S prop (signedOf s) i { s i with replaying := ms } :=
        ⟨h.signed, { hnode with
          replaying := fun m' hm' => hnode.replaying m' (by rw [hr]; exact List.mem_cons_of_mem m hm') },
          rfl⟩
      have hvalid : m.validateBasic = true := hnode.replaying m (by rw [hr]; exact List.mem_cons_self)
      exact h.update (hgood.doMessage hs hvalid (hadm.2 m (by rw [hr]; rfl))
        (hsingle m (by rw [hr]; rfl)))
  | commit i body =>
    simp only [nodeStep, Option.ite_none_right_eq_some] at hstep
    obtain ⟨-, hstep⟩ := hstep
    obtain rfl := Option.some.inj hstep
    exact h.update ((h.good hadm.1).enterNewHeight hs hadm.1 hadm.2)

/-- **Agreement.** In every run in which no Byzantine proposer signs two proposals for one height,
every block that a correct node executes has the hash its precommits agree on, and two correct nodes
execute the same block at the same height. -/
theorem agreement (P : Shard) (byz : Finset ℕ) (S : Set Bytes) (hs : Setting P byz S)
    (prop : ℤ → PartSetHeader × Bytes) (events : List NodeEvent) (s : ℕ → Node)
    (hrun : run (nodeStep P) (newNodes P) events = some s)
    (hsteps : Along (nodeStep P) (fun s e => Admissible P byz S s e ∧ SingleEvent P byz prop s e)
      (newNodes P) events) :
    (∀ i, i ∉ byz → ∀ x ∈ (s i).executed, ∃ ok, x.maj23 = some (P.blockHash x.block, ok)) ∧
      ∀ i, i ∉ byz → ∀ j, j ∉ byz → ∀ x ∈ (s i).executed, ∀ y ∈ (s j).executed,
        x.height = y.height → x.block = y.block := by
  have hinv : NodesInv P byz S prop s :=
    run_invariant_along (fun t e t' ht hP hstep => ht.step hs hP.1 hP.2 hstep) (nodesInv_newNodes hs)
      hsteps hrun
  refine ⟨fun i hi x hx => ((hinv.nodes i hi).executed x hx).2, fun i hi j hj x hx y hy hxy => ?_⟩
  have hpx := ((hinv.nodes i hi).executed x hx).1
  have hpy := ((hinv.nodes j hj).executed y hy).1
  rw [hxy] at hpx
  exact hpx.unique hs hinv.signed hpy

/-! ## A proposer that equivocates -/

section

variable (P : Shard) (byz : Finset ℕ) (S : Set Bytes) [DecidablePred (· ∈ S)]

instance (sg : ℕ → List Signable) (m : Message) : Decidable (Allowed P byz S sg m) :=
  match m with
  | .part p => inferInstanceAs (Decidable (∀ x ∈ p.proof.inputs P.sum p.bytes, x ∈ S))
  | .proposal p => inferInstanceAs (Decidable (P.verify p.signature p.signBytes p.proposerIndex.toNat =
      true → p.proposerIndex.toNat ∉ byz → p.signBytes ∈ sg p.proposerIndex.toNat))
  | .prevote v => inferInstanceAs (Decidable (P.verify v.signature v.prevoteBytes
      v.validatorIndex.toNat = true → v.validatorIndex.toNat ∉ byz →
        v.prevoteBytes ∈ sg v.validatorIndex.toNat))
  | .precommit v => inferInstanceAs (Decidable (P.verify v.signature v.precommitBytes
      v.validatorIndex.toNat = true → v.validatorIndex.toNat ∉ byz →
        v.precommitBytes ∈ sg v.validatorIndex.toNat))

instance (prop : ℤ → PartSetHeader × Bytes) (m : Message) : Decidable (SingleMessage P byz prop m) :=
  match m with
  | .proposal p => inferInstanceAs (Decidable (P.verify p.signature p.signBytes p.proposerIndex.toNat =
      true → p.proposerIndex.toNat ∈ byz → (p.header, p.blockHeaderHash) = prop p.header.height))
  | .part _ | .prevote _ | .precommit _ => isTrue trivial

instance (prop : ℤ → PartSetHeader × Bytes) (s : ℕ → Node) (e : NodeEvent) :
    Decidable (SingleEvent P byz prop s e) :=
  match e with
  | .receive _ m => inferInstanceAs (Decidable (SingleMessage P byz prop m))
  | .replay i => inferInstanceAs (Decidable (∀ m ∈ (s i).replaying.head?, SingleMessage P byz prop m))
  | .start _ _ | .commit _ _ => isTrue trivial

instance (n : Node) (body : Block) : Decidable (MakesNext P S n body) :=
  inferInstanceAs (Decidable ((n.nextHeight P).isProposer P = true →
    P.codec.unmarshal (P.codec.marshal ((n.nextHeight P).createBlock P body)) =
      some ((n.nextHeight P).createBlock P body) ∧
    ∀ p ∈ partsOf P.toBlockLib ((n.nextHeight P).createBlock P body) P.maxPartSize 0,
      ∀ x ∈ p.proof.inputs P.sum p.bytes, x ∈ S))

instance (s : ℕ → Node) (e : NodeEvent) : Decidable (Admissible P byz S s e) :=
  match e with
  | .start i body => inferInstanceAs (Decidable (i ∉ byz ∧ MakesNext P S (s i) body))
  | .receive i m => inferInstanceAs (Decidable (i ∉ byz ∧ Allowed P byz S (signedOf s) m))
  | .replay i => inferInstanceAs (Decidable (i ∉ byz ∧
      ∀ m ∈ (s i).replaying.head?, Allowed P byz S (signedOf s) m))
  | .commit i body => inferInstanceAs (Decidable (i ∉ byz ∧ MakesNext P S (s i) body))

end

/-- The block types in the order of their constants. -/
def blockTypes : List BlockType :=
  [.none, .i, .b, .innerShard, .crossShard, .bCommitBlock, .iCommitBlock, .iAcceptBlock]

def wireBlockCodec : Codec Block where
  marshal b := Wire.encode (Wire.numField 1 (blockTypes.idxOf b.blockType) ++
    Wire.bytesField 2 b.hashPointer ++ Wire.bytesField 3 b.chainID ++ Wire.intField 4 b.height ++
    Wire.bytesField 5 b.time ++ Wire.bytesField 6 b.bodyRoot ++
    Wire.bytesField 7 b.crossShardBodyRoot ++ Wire.bytesField 8 b.stateRoot ++
    Wire.bytesField 9 b.receiptRoot ++ Wire.bytesField 10 b.relationRoot ++
    Wire.repeated 11 b.bodyTxs ++ Wire.repeated 12 b.crossShardTxs ++
    Wire.repeated 13 b.crossShardDatas ++ Wire.repeated 14 b.relation.relatedCommitStatus ++
    Wire.repeated 15 b.relation.relatedHash ++ Wire.bytesField 16 b.relation.myCommitStatus)
  unmarshal bz := (Wire.decode bz).map fun fs =>
    { blockType := blockTypes.getD (Wire.number 1 fs) .none
      hashPointer := (Wire.payloads 2 fs).getLastD []
      chainID := (Wire.payloads 3 fs).getLastD []
      height := Wire.signed 4 fs
      time := (Wire.payloads 5 fs).getLastD []
      bodyRoot := (Wire.payloads 6 fs).getLastD []
      crossShardBodyRoot := (Wire.payloads 7 fs).getLastD []
      stateRoot := (Wire.payloads 8 fs).getLastD []
      receiptRoot := (Wire.payloads 9 fs).getLastD []
      relationRoot := (Wire.payloads 10 fs).getLastD []
      bodyTxs := Wire.payloads 11 fs
      crossShardTxs := Wire.payloads 12 fs
      crossShardDatas := Wire.payloads 13 fs
      relation :=
        { relatedCommitStatus := Wire.payloads 14 fs
          relatedHash := Wire.payloads 15 fs
          myCommitStatus := (Wire.payloads 16 fs).getLastD [] } }

/-- The last 32 bytes, which tells the few strings of the example apart. -/
def last32 (x : Bytes) : Bytes := (List.replicate 32 0 ++ x).drop x.length

theorem length_last32 (x : Bytes) : (last32 x).length = Merkle.hashSize := by
  rw [last32, List.length_drop, List.length_append, List.length_replicate, Nat.add_sub_cancel]
  rfl

/-- A signature that names the signer and what is signed. -/
def nameAndHash (i : ℕ) : Signable → Str
  | .proposal header _ hash => UInt8.ofNat i :: 1 :: (header.root ++ hash)
  | .prevote code _ _ hash => UInt8.ofNat i :: 2 :: code.toUInt8 :: hash
  | .precommit code _ _ hash => UInt8.ofNat i :: 3 :: code.toUInt8 :: hash

/-- Four validators of weight 1; every intra-shard block passes the check. -/
def fourValidators : Shard where
  sum := last32
  codec := wireBlockCodec
  blockHash b := last32 (wireBlockCodec.marshal b)
  chainID := [65]
  peerVotes := [1, 1, 1, 1]
  verify sig c i := sig == nameAndHash i c
  sign := nameAndHash
  judge _ _ b := if b.blockType = .innerShard then some true else none
  maxPartSize := 64

/-- A block of height 1 with one transaction. -/
def blockWith (tx : UInt8) : Block := { emptyBlock .innerShard [65] 1 with bodyTxs := [[tx]] }

/-- The proposal and the part of a block, signed by validator 1, whose turn it is. -/
def proposalOf (b : Block) : Message :=
  let ps := partSetFromBlock fourValidators.toBlockLib b 64 0
  .proposal
    { header := ps.header, proposerIndex := 1, blockHeaderHash := ps.blockHeaderHash
      signature := nameAndHash 1 (.proposal ps.header 1 ps.blockHeaderHash) }

def partOf (b : Block) : Message :=
  .part ((partsOf fourValidators.toBlockLib b 64 0).headD
    { chainID := [], height := 0, round := 0, bytes := [], proof := ⟨0, 0, [], []⟩ })

/-- The votes of a validator for a block. -/
def prevoteOf (i : ℕ) (b : Block) : Message :=
  let v := newVote 1 0 (fourValidators.blockHash b) i
  .prevote { v with signature := nameAndHash i v.prevoteBytes }

def precommitOf (i : ℕ) (b : Block) : Message :=
  let v := newVote 1 0 (fourValidators.blockHash b) i
  .precommit { v with signature := nameAndHash i v.precommitBytes }

/-- The strings hashed for the parts of the two blocks. -/
def partStrings : List Bytes :=
  [blockWith 7, blockWith 8].flatMap fun b =>
    (partsOf fourValidators.toBlockLib b 64 0).flatMap fun p => p.proof.inputs last32 p.bytes

def hashedStrings : Set Bytes := {x | x ∈ partStrings}

instance : DecidablePred (· ∈ hashedStrings) := fun x => decidable_of_iff (x ∈ partStrings) Iff.rfl

theorem injOn_hashedStrings : Set.InjOn last32 hashedStrings := by
  have hinj : ∀ x ∈ partStrings, ∀ y ∈ partStrings, last32 x = last32 y → x = y := by
    decide +kernel
  exact fun x hx y hy hxy => hinj x hx y hy hxy

theorem setting_fourValidators (i : ℕ) (hi : i = 1 ∨ i = 2) :
    Setting fourValidators {i} hashedStrings where
  votes := by decide
  small := by decide
  minority := by rcases hi with rfl | rfl <;> decide
  sum_length := length_last32
  injOn := injOn_hashedStrings
  partSize := by decide

def nodesAfter (events : List NodeEvent) : ℕ → Node :=
  (run (nodeStep fourValidators) (newNodes fourValidators) events).getD (newNodes fourValidators)

theorem run_nodesAfter {events : List NodeEvent}
    (h : (run (nodeStep fourValidators) (newNodes fourValidators) events).isSome = true) :
    run (nodeStep fourValidators) (newNodes fourValidators) events = some (nodesAfter events) := by
  obtain ⟨s, hs⟩ := Option.isSome_iff_exists.mp h
  rw [nodesAfter, hs]
  rfl

/-- Validator 1 is correct and proposes a block; 2 is Byzantine, and its votes count too. -/
def honestProposal : List NodeEvent :=
  [.start 0 (blockWith 7), .start 1 (blockWith 7),
    .receive 0 (proposalOf (blockWith 7)), .receive 0 (partOf (blockWith 7)),
    .receive 1 (prevoteOf 0 (blockWith 7)), .receive 1 (prevoteOf 2 (blockWith 7)),
    .receive 0 (prevoteOf 1 (blockWith 7)), .receive 0 (prevoteOf 2 (blockWith 7)),
    .receive 1 (precommitOf 0 (blockWith 7)), .receive 1 (precommitOf 2 (blockWith 7)),
    .receive 0 (precommitOf 1 (blockWith 7)), .receive 0 (precommitOf 2 (blockWith 7))]

/-- Both correct nodes execute the proposed block. -/
theorem agreement_honestProposal :
    (nodesAfter honestProposal 0).executed.map Execution.block = [blockWith 7] ∧
    (nodesAfter honestProposal 1).executed.map Execution.block = [blockWith 7] ∧
    (∀ x ∈ (nodesAfter honestProposal 0).executed,
      ∃ ok, x.maj23 = some (fourValidators.blockHash x.block, ok)) ∧
    ∀ x ∈ (nodesAfter honestProposal 0).executed, ∀ y ∈ (nodesAfter honestProposal 1).executed,
      x.height = y.height → x.block = y.block := by
  have h := agreement fourValidators {2} hashedStrings (setting_fourValidators 2 (.inr rfl))
    (fun _ => (⟨0, 0, 0, [], []⟩, [])) honestProposal (nodesAfter honestProposal)
    (run_nodesAfter (by decide +kernel)) (by decide +kernel)
  exact ⟨by decide +kernel, by decide +kernel, h.1 0 (by decide), h.2 0 (by decide) 1 (by decide)⟩

/-- Validator 1 is Byzantine and proposes one block to 0 and 2 and another to 3. -/
def equivocation : List NodeEvent :=
  [.start 0 (blockWith 7), .start 2 (blockWith 7), .start 3 (blockWith 7),
    .receive 0 (proposalOf (blockWith 7)), .receive 0 (partOf (blockWith 7)),
    .receive 2 (proposalOf (blockWith 7)), .receive 2 (partOf (blockWith 7)),
    .receive 3 (proposalOf (blockWith 8)), .receive 3 (partOf (blockWith 8)),
    .receive 0 (prevoteOf 1 (blockWith 7)), .receive 0 (prevoteOf 2 (blockWith 7)),
    .receive 2 (prevoteOf 0 (blockWith 7)), .receive 2 (prevoteOf 1 (blockWith 7)),
    .receive 3 (prevoteOf 0 (blockWith 7)), .receive 3 (prevoteOf 1 (blockWith 7)),
    .receive 3 (prevoteOf 2 (blockWith 7)),
    .receive 0 (precommitOf 1 (blockWith 7)), .receive 0 (precommitOf 2 (blockWith 7)),
    .receive 3 (precommitOf 0 (blockWith 7)), .receive 3 (precommitOf 1 (blockWith 7))]

/-- Node 3 executes the block that only it was sent, while its precommits agree on the hash of the
block that node 0 executes. -/
theorem not_agreement_equivocation :
    Setting fourValidators {1} hashedStrings ∧
    Along (nodeStep fourValidators) (Admissible fourValidators {1} hashedStrings)
      (newNodes fourValidators) equivocation ∧
    run (nodeStep fourValidators) (newNodes fourValidators) equivocation =
      some (nodesAfter equivocation) ∧
    (nodesAfter equivocation 0).executed =
      [⟨1, blockWith 7, some (fourValidators.blockHash (blockWith 7), true)⟩] ∧
    (nodesAfter equivocation 3).executed =
      [⟨1, blockWith 8, some (fourValidators.blockHash (blockWith 7), true)⟩] ∧
    fourValidators.blockHash (blockWith 7) ≠ fourValidators.blockHash (blockWith 8) :=
  ⟨setting_fourValidators 1 (.inl rfl), by decide +kernel, run_nodesAfter (by decide +kernel),
    by decide +kernel, by decide +kernel, by decide +kernel⟩

end Emulator.Pyramid
