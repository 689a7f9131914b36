import Emulator.Pyramid.Certificates
import Emulator.Pyramid.Consensus
import Emulator.Pyramid.Counting

/-!
# The certificate a node makes of its precommits

`AddPrecommit` takes a precommit whose signature verifies on its own bytes, with whatever code it
carries. The vote set tells only OK from not OK, and `GenerateAggregatePrecommitSignature` writes
the code of OK or of Abort into the certificate. `VerifySignatures` then rebuilds the signed bytes
from the certificate.

**Theorem (`verifySignatures_iff`).** The certificate verifies exactly when every precommit of the
majority carries the code of the certificate. With a majority for OK this is always so; with one
against, a single validator with another code than Abort makes a certificate that nobody accepts.

The proof is an induction over the messages of the height with the invariant `Precommitted`: what is
recorded was signed for this height, and a majority has a vote behind it.
-/

namespace Emulator.Pyramid

open HotStuff (AggregateBls Bls Peer Signed Verifier newVerifier)

/-! ## Making a certificate -/

/-- `Precommit.SignBytes`. -/
def Vote.precommitSignBytes (c : Codec PbPrecommit) (v : Vote) : Bytes :=
  c.marshal
    { code := v.code.toInt, voteType := voteTypePrecommit, height := v.height, round := v.round
      blockHeaderHash := v.blockHeaderHash, signature := [], validatorIndex := -1 }

/-- What the precommits for a hash at the height of a proposal have in common: all but the code. -/
def precommitMessage (header : PartSetHeader) (hash : Bytes) : PbPrecommit where
  code := 0
  voteType := voteTypePrecommit
  height := header.height
  round := header.round
  blockHeaderHash := hash
  signature := []
  validatorIndex := -1

/-- The code that `SetCode` writes. -/
def codeOf (ok : Bool) : Int8 := if ok then Minibank.codeTypeOK else Minibank.codeTypeAbort

namespace HeightData

/-- `GenerateAggregatePrecommitSignature`; `none` is a panic. -/
def generateAggregatePrecommitSignature (B : Bls) (n : ℕ) (h : HeightData) :
    Option PrecommitAggregated :=
  (h.precommits.getMaj23AggreSig B n).bind fun sig =>
    h.proposal.bind fun proposal =>
      match hbv : BitVector.readBitArray sig.2 with
      | some (some bv) => some (newPrecommitAggregated bv (BitVector.wellFormed_of_readBitArray hbv)
          proposal.header (codeOf h.precommits.getMaj23.2) h.precommits.getMaj23.1 sig.1)
      | _ => none

/-- What `doMessage` does with a message of the height. -/
def takeMessage (P : Shard) (h : HeightData) : Message → HeightData
  | .part p => (h.addPart P p).1
  | .proposal p => (h.addProposal P p (P.calculateProposer h.height h.round)).1
  | .prevote v => (h.addPrevote P v).1
  | .precommit v => (h.addPrecommit P v).1

/-- The messages of one height, in the order in which they arrive. -/
def takeMessages (P : Shard) (h : HeightData) (ms : List Message) : HeightData :=
  ms.foldl (takeMessage P) h

end HeightData

/-! ## What is recorded at a height -/

/-- What holds of the data of a height, however many messages have arrived. -/
structure Precommitted (P : Shard) (k : ℤ) (h : HeightData) : Prop where
  height : h.height = k
  round : h.round = 0
  proposal : ∀ p, h.proposal = some p → p.header.height = k ∧ p.header.round = 0
  recorded : ∀ i v, h.precommits.votes i = some v → i < P.size ∧ v.height = k ∧ v.round = 0 ∧
    P.verify v.signature v.precommitBytes i = true
  maj23 : ∀ m, h.precommits.maj23 = some m →
    ∃ i v, h.precommits.votes i = some v ∧ v.blockHeaderHash = m.1 ∧ v.isOK = m.2

variable {P : Shard} {k : ℤ} {h h' : HeightData} {v : Vote} {proposal : Proposal}

theorem precommitted_nextHeight (h : HeightData) :
    Precommitted P (h.height + 1) (h.nextHeight P) where
  height := rfl
  round := rfl
  proposal p hp := by cases hp
  recorded i v hv := by cases hv
  maj23 m hm := by cases hm

section

variable (hp : Precommitted P k h)

include hp

theorem Precommitted.of_eq (hheight : h'.height = h.height)
    (hround : h'.round = h.round) (hproposal : h'.proposal = h.proposal)
    (hprecommits : h'.precommits = h.precommits) : Precommitted P k h' where
  height := hheight.trans hp.height
  round := hround.trans hp.round
  proposal := by
    rw [hproposal]
    exact hp.proposal
  recorded := by
    rw [hprecommits]
    exact hp.recorded
  maj23 := by
    rw [hprecommits]
    exact hp.maj23

theorem Precommitted.addPart (p : Part) :
    Precommitted P k (h.addPart P p).1 := by
  refine hp.of_eq ?_ ?_ ?_ ?_ <;>
  · unfold HeightData.addPart
    split_ifs
    · rfl
    · rfl
    · split
      · rfl
      · split
        · rfl
        · split_ifs
          · split <;> rfl
          · rfl

theorem Precommitted.addProposal (p : Proposal) (index : ℕ) :
    Precommitted P k (h.addProposal P p index).1 := by
  unfold HeightData.addProposal
  split_ifs with hset hheight
  · exact hp
  · exact hp
  · exact hp
  · exact hp
  · exact hp
  · -- the parts that came early are added to the new part set
    push Not at hheight
    have hnew : Precommitted P k
        { h with proposal := some p, partSet := some (newPartSet p.header p.blockHeaderHash) } := by
      refine ⟨hp.height, hp.round, fun q hq => ?_, hp.recorded, hp.maj23⟩
      obtain rfl := Option.some.inj hq
      exact ⟨hheight.1.symm.trans hp.height, hheight.2.symm.trans hp.round⟩
    exact List.foldlRecOn (motive := fun h => Precommitted P k h) h.randomHeaderBuffer _ hnew
      fun h' hh' part _ => hh'.addPart part

theorem Precommitted.addPrevote (v : Vote) :
    Precommitted P k (h.addPrevote P v).1 := by
  unfold HeightData.addPrevote
  split
  · exact hp
  · exact hp.of_eq rfl rfl rfl rfl

end

/-- A vote that is added, and a majority with a vote behind it. -/
theorem VoteSet.maj23_voted {vs vs' : VoteSet} {valVote : ℤ}
    (hadd : vs.addVote v valVote = some vs') (hm : ∀ m, vs.maj23 = some m →
      ∃ i u, vs.votes i = some u ∧ u.blockHeaderHash = m.1 ∧ u.isOK = m.2) {m : Bytes × Bool}
    (hmaj : vs'.maj23 = some m) :
    ∃ i u, vs'.votes i = some u ∧ u.blockHeaderHash = m.1 ∧ u.isOK = m.2 := by
  cases VoteSet.adds_of_addVote hadd with
  | known => exact hm m hmaj
  | majority hnew _ _ =>
    obtain rfl := Option.some.inj hmaj
    exact ⟨v.validatorIndex.toNat, v, Function.update_self .., rfl, rfl⟩
  | counted hnew _ =>
    -- the votes from before are still there
    obtain ⟨i, u, hu, hvote⟩ := hm m hmaj
    refine ⟨i, u, ?_, hvote⟩
    have hne : i ≠ v.validatorIndex.toNat := by
      rintro rfl
      rw [hnew] at hu
      cases hu
    exact (Function.update_of_ne hne _ _).trans hu

theorem Precommitted.addPrecommit (hp : Precommitted P k h) (v : Vote) :
    Precommitted P k (h.addPrecommit P v).1 := by
  unfold HeightData.addPrecommit
  split
  · exact hp
  · next vs hvs =>
    unfold HeightData.addVote at hvs
    split_ifs at hvs with hheight hindex hverify
    push Not at hheight
    refine ⟨hp.height, hp.round, hp.proposal, fun i u hu => ?_, fun m hm => ?_⟩
    · rcases VoteSet.votes_of_addVote hvs hu with hold | ⟨rfl, rfl⟩
      · exact hp.recorded i u hold
      · exact ⟨by omega, hheight.1.symm.trans hp.height, hheight.2.symm.trans hp.round,
          by simpa using hverify⟩
    · exact VoteSet.maj23_voted hvs hp.maj23 hm

theorem Precommitted.takeMessages (hp : Precommitted P k h) (ms : List Message) :
    Precommitted P k (h.takeMessages P ms) := by
  induction ms generalizing h with
  | nil => exact hp
  | cons m ms ih =>
    refine ih ?_
    cases m with
    | part p => exact hp.addPart p
    | proposal p => exact hp.addProposal p _
    | prevote v => exact hp.addPrevote v
    | precommit v => exact hp.addPrecommit v

/-! ## Verifying it -/

/-- The validators of the shard verify with the keys of `verifier`. -/
structure Shard.UsesBls (P : Shard) (B : AggregateBls) (c : Codec PbPrecommit) (verifier : Verifier) :
    Prop where
  size : verifier.size = P.size
  verify : ∀ (v : Vote) (i : ℕ), P.verify v.signature v.precommitBytes i = true ↔
    verifier.verify B.toBls v.signature (v.precommitSignBytes c) i = some true

/-- Signatures that verify under one of the keys can be aggregated: they deserialise. -/
def Aggregates (B : AggregateBls) (keys : List Str) : Prop :=
  ∀ sigs : List Str, (∀ sig ∈ sigs, ∃ key ∈ keys, ∃ msg, B.verifyByte key sig msg = true) →
    ∃ agg, B.aggregate sigs = some agg

/-- The code can be read off the bytes of a precommit. -/
def ReadsCode (c : Codec PbPrecommit) : Prop :=
  ∀ (p : PbPrecommit) (code code' : Int8),
    c.marshal { p with code := code.toInt } = c.marshal { p with code := code'.toInt } → code = code'

theorem selected_eq (verifier : Verifier) (bitMap : BitVector) : verifier.selected bitMap =
    ((List.range verifier.size).filter bitMap.getIndex).filterMap (verifier.publicKeys[·]?) := by
  unfold Verifier.selected Verifier.size
  induction verifier.publicKeys using List.reverseRecOn with
  | nil => rfl
  | append_singleton keys key ih =>
    have hrest : ((List.range keys.length).filter bitMap.getIndex).filterMap
        (fun i => (keys ++ [key])[i]?) =
        ((List.range keys.length).filter bitMap.getIndex).filterMap (keys[·]?) := by
      refine List.filterMap_congr fun i hi => ?_
      have hlt := List.mem_range.mp (List.mem_of_mem_filter hi)
      exact List.getElem?_append_left hlt
    rw [List.zipIdx_append, List.filter_append, List.map_append, ih, List.length_append,
      List.length_singleton, List.range_succ, List.filter_append, List.filterMap_append, hrest]
    congr 1
    cases hbit : bitMap.getIndex keys.length <;> simp [hbit]

section Verifying

variable {B : AggregateBls} {c : Codec PbPrecommit} {verifier : Verifier}

/-- The signed precommit of validator `i`. -/
def signedPrecommit (c : Codec PbPrecommit) (verifier : Verifier) (vs : VoteSet) (i : ℕ) :
    Option Signed :=
  (vs.votes i).bind fun v => (verifier.publicKeys[i]?).map fun key =>
    { key, msg := v.precommitSignBytes c, sig := v.signature }

/-- The signed precommits of the majority. -/
def maj23Signed (c : Codec PbPrecommit) (verifier : Verifier) (vs : VoteSet) : List Signed :=
  ((List.range verifier.size).filter vs.votedMaj23).filterMap (signedPrecommit c verifier vs)

theorem mem_maj23Signed {vs : VoteSet} {x : Signed} : x ∈ maj23Signed c verifier vs ↔
    ∃ i v key, vs.votes i = some v ∧ vs.votedMaj23 i = true ∧ verifier.publicKeys[i]? = some key ∧
      x = { key, msg := v.precommitSignBytes c, sig := v.signature } := by
  unfold maj23Signed signedPrecommit
  simp only [List.mem_filterMap, List.mem_filter, List.mem_range, Option.bind_eq_some_iff,
    Option.map_eq_some_iff]
  constructor
  · rintro ⟨i, ⟨-, hvoted⟩, v, hv, key, hkey, rfl⟩
    exact ⟨i, v, key, hv, hvoted, hkey, rfl⟩
  · rintro ⟨i, v, key, hv, hvoted, hkey, rfl⟩
    exact ⟨i, ⟨(List.getElem?_eq_some_iff.mp hkey).1, hvoted⟩, v, hv, key, hkey, rfl⟩

theorem map_sig_maj23Signed (c : Codec PbPrecommit) (verifier : Verifier) (vs : VoteSet) :
    (maj23Signed c verifier vs).map Signed.sig =
      ((List.range verifier.size).filter vs.votedMaj23).filterMap vs.signOf := by
  unfold maj23Signed
  rw [List.map_filterMap]
  refine List.filterMap_congr fun i hi => ?_
  have hlt : i < verifier.publicKeys.length := List.mem_range.mp (List.mem_of_mem_filter hi)
  unfold signedPrecommit VoteSet.signOf
  rw [List.getElem?_eq_getElem hlt]
  cases vs.votes i <;> rfl

theorem map_key_maj23Signed (c : Codec PbPrecommit) (verifier : Verifier) (vs : VoteSet) :
    (maj23Signed c verifier vs).map Signed.key = verifier.selected (vs.maj23Bits verifier.size) := by
  have hfilter : (List.range verifier.size).filter (vs.maj23Bits verifier.size).getIndex =
      (List.range verifier.size).filter vs.votedMaj23 :=
    List.filter_congr fun i hi => VoteSet.getIndex_maj23Bits (List.mem_range.mp hi)
  rw [selected_eq, hfilter]
  unfold maj23Signed
  rw [List.map_filterMap]
  refine List.filterMap_congr fun i hi => ?_
  obtain ⟨v, hv, -⟩ := VoteSet.votedMaj23_iff.mp (List.of_mem_filter hi)
  unfold signedPrecommit
  rw [hv, Option.bind_some, Option.map_map]
  exact Option.map_id'

section

variable (hp : Precommitted P k h)

include hp

/-- The precommits of the majority are signed by the validators they name. -/
theorem Precommitted.verifies (hP : P.UsesBls B c verifier) {x : Signed}
    (hx : x ∈ maj23Signed c verifier h.precommits) :
    x.key ∈ verifier.publicKeys ∧ B.verifyByte x.key x.sig x.msg = true := by
  obtain ⟨i, v, key, hv, -, hkey, rfl⟩ := mem_maj23Signed.mp hx
  refine ⟨List.mem_of_getElem? hkey, ?_⟩
  have hver := (hP.verify v i).mp (hp.recorded i v hv).2.2.2
  rw [HotStuff.verify_natCast hkey] at hver
  exact Option.some.inj hver

/-- A recorded precommit for the hash and code of the majority is one of them. -/
theorem Precommitted.exists_mem_maj23Signed (hP : P.UsesBls B c verifier)
    {i : ℕ} (hv : h.precommits.votes i = some v)
    (hhash : v.blockHeaderHash = h.precommits.getMaj23.1) (hok : v.isOK = h.precommits.getMaj23.2) :
    ∃ x ∈ maj23Signed c verifier h.precommits, x.msg = v.precommitSignBytes c := by
  have hlt : i < verifier.publicKeys.length := by
    have hi := (hp.recorded i v hv).1
    rwa [← hP.size] at hi
  have hvoted := VoteSet.votedMaj23_iff.mpr ⟨v, hv, hhash, hok⟩
  exact ⟨_, mem_maj23Signed.mpr ⟨i, v, _, hv, hvoted, List.getElem?_eq_getElem hlt, rfl⟩, rfl⟩

theorem Precommitted.maj23Signed_ne_nil (hP : P.UsesBls B c verifier)
    (hmaj : h.precommits.hasMaj23 = true) : maj23Signed c verifier h.precommits ≠ [] := by
  obtain ⟨m, hm⟩ := Option.isSome_iff_exists.mp hmaj
  obtain ⟨i, v, hv, hhash, hok⟩ := hp.maj23 m hm
  have hget : h.precommits.getMaj23 = m := by
    rw [VoteSet.getMaj23, hm]
    rfl
  subst hget
  obtain ⟨x, hx, -⟩ := hp.exists_mem_maj23Signed hP hv hhash hok
  exact List.ne_nil_of_mem hx

/-- The recorded precommits for a hash are the same but for their code. -/
theorem Precommitted.precommitSignBytes_eq (c : Codec PbPrecommit)
    (hproposal : h.proposal = some proposal) {i : ℕ} (hv : h.precommits.votes i = some v) :
    v.precommitSignBytes c = c.marshal
      { precommitMessage proposal.header v.blockHeaderHash with code := v.code.toInt } := by
  obtain ⟨hheight, hround⟩ := hp.proposal proposal hproposal
  obtain ⟨-, hvheight, hvround, -⟩ := hp.recorded i v hv
  unfold Vote.precommitSignBytes precommitMessage
  rw [hvheight, hvround, hheight, hround]

end

theorem HeightData.generateAggregatePrecommitSignature_eq {B : Bls} {n : ℕ} {bv : BitVector}
    {aggSig : Str} (hbv : bv.WellFormed) (hproposal : h.proposal = some proposal)
    (hsig : h.precommits.getMaj23AggreSig B n = some (aggSig, bv.byte)) :
    h.generateAggregatePrecommitSignature B n = some (newPrecommitAggregated bv hbv proposal.header
      (codeOf h.precommits.getMaj23.2) h.precommits.getMaj23.1 aggSig) := by
  unfold generateAggregatePrecommitSignature
  rw [hsig, Option.bind_some, hproposal, Option.bind_some]
  have hread := BitVector.readBitArray_byte hbv
  split
  · next bv' hbv' =>
    obtain rfl := Option.some.inj (Option.some.inj (hread.symm.trans hbv'))
    rfl
  · next hnone => exact absurd hread (hnone bv)

/-- The signatures of the majority are aggregated, and the certificate is made of the result. -/
theorem Precommitted.exists_certificate (hp : Precommitted P k h) (hP : P.UsesBls B c verifier)
    (hagg : Aggregates B verifier.publicKeys) (hproposal : h.proposal = some proposal) :
    ∃ aggSig, B.aggregate ((maj23Signed c verifier h.precommits).map Signed.sig) = some aggSig ∧
      h.generateAggregatePrecommitSignature B.toBls P.size =
        some (newPrecommitAggregated (h.precommits.maj23Bits P.size)
          (VoteSet.wellFormed_maj23Bits P.size h.precommits) proposal.header
          (codeOf h.precommits.getMaj23.2) h.precommits.getMaj23.1 aggSig) := by
  obtain ⟨aggSig, haggSig⟩ := hagg ((maj23Signed c verifier h.precommits).map Signed.sig) (by
    intro sig hsig
    obtain ⟨x, hx, rfl⟩ := List.mem_map.mp hsig
    obtain ⟨hkey, hver⟩ := hp.verifies hP hx
    exact ⟨x.key, hkey, x.msg, hver⟩)
  refine ⟨aggSig, haggSig, HeightData.generateAggregatePrecommitSignature_eq _ hproposal ?_⟩
  rw [map_sig_maj23Signed, hP.size] at haggSig
  rw [VoteSet.getMaj23AggreSig, haggSig]
  rfl

/-- A certificate with a bit for every validator verifies if its signature does under the keys that
are selected. -/
theorem verifySignatures_newPrecommitAggregated {bv : BitVector} (hbv : bv.WellFormed)
    (hsize : verifier.size = bv.bits) (header : PartSetHeader) (code : Int8) (hash : Bytes)
    (sig : Str) :
    (newPrecommitAggregated bv hbv header code hash sig).verifySignatures B c (some verifier) = true ↔
      B.verifyByte (B.sumKeys (verifier.selected bv)) sig
        ((newPrecommitAggregated bv hbv header code hash sig).signBytes c) = true := by
  have hlen : ¬verifier.publicKeys.length ≠ bv.size := not_not.mpr hsize
  unfold PrecommitAggregated.verifySignatures Verifier.verifyAggregateSignature
  dsimp only
  rw [show (newPrecommitAggregated bv hbv header code hash sig).bits = bv from rfl,
    BitVector.newBitArrayFromByte_byte hbv, Option.map_some, if_neg hlen, beq_iff_eq,
    Option.some.injEq]
  rfl

/-- **When a certificate verifies.** Whatever messages have arrived at a height, once there is a
proposal and the precommits have a majority, the certificate is made, and it verifies exactly when
every precommit of the majority has the code that the certificate has. -/
theorem verifySignatures_iff (hP : P.UsesBls B c verifier) (hB : B.Exact verifier.publicKeys)
    (hagg : Aggregates B verifier.publicKeys) (hc : ReadsCode c) (h₀ : HeightData)
    (ms : List Message) {proposal : Proposal}
    (hproposal : ((h₀.nextHeight P).takeMessages P ms).proposal = some proposal)
    (hmaj : ((h₀.nextHeight P).takeMessages P ms).precommits.hasMaj23 = true) :
    let h := (h₀.nextHeight P).takeMessages P ms
    ∃ pa, h.generateAggregatePrecommitSignature B.toBls P.size = some pa ∧
      (pa.verifySignatures B c (some verifier) = true ↔
        ∀ i v, h.precommits.votes i = some v → v.blockHeaderHash = h.precommits.getMaj23.1 →
          v.isOK = h.precommits.getMaj23.2 → v.code = codeOf h.precommits.getMaj23.2) := by
  intro h
  have hp : Precommitted P (h₀.height + 1) h := (precommitted_nextHeight h₀).takeMessages ms
  obtain ⟨aggSig, haggSig, hmade⟩ := hp.exists_certificate hP hagg hproposal
  refine ⟨_, hmade, ?_⟩
  have hsize : verifier.size = (h.precommits.maj23Bits P.size).bits := by
    rw [VoteSet.bits_maj23Bits, hP.size]
  have hkeys := map_key_maj23Signed c verifier h.precommits
  rw [hP.size] at hkeys
  rw [verifySignatures_newPrecommitAggregated _ hsize,
    hB.verify_iff _ (hp.maj23Signed_ne_nil hP hmaj) (fun x hx => hp.verifies hP hx) _ haggSig _
      (fun key hkey => HotStuff.mem_of_mem_selected hkey), ← hkeys]
  -- what was signed differs from what is checked in the code only
  constructor
  · intro hsigned i v hv hhash hok
    obtain ⟨x, hx, hmsg⟩ := hp.exists_mem_maj23Signed hP hv hhash hok
    have hbytes := hp.precommitSignBytes_eq c hproposal hv
    rw [hhash] at hbytes
    exact hc (precommitMessage proposal.header _) _ _
      (hbytes.symm.trans (hmsg.symm.trans (hsigned.2 x hx)))
  · intro hcodes
    refine ⟨List.Perm.refl _, fun x hx => ?_⟩
    obtain ⟨i, v, key, hv, hvoted, -, rfl⟩ := mem_maj23Signed.mp hx
    obtain ⟨u, hu, hhash, hok⟩ := VoteSet.votedMaj23_iff.mp hvoted
    obtain rfl := Option.some.inj (hv.symm.trans hu)
    show v.precommitSignBytes c = _
    rw [hp.precommitSignBytes_eq c hproposal hv, hhash, hcodes i v hv hhash hok]
    rfl

end Verifying

/-! ## Three validators -/

theorem readsCode_precommitCodec : ReadsCode Surroundings.precommitCodec := by
  intro p code code' heq
  have hfields := List.append_cancel_left (Wire.encode_injective heq)
  have hlow : ∀ code : Int8, -2 ^ 31 ≤ code.toInt := fun code =>
    Int.le_trans (by decide) code.le_toInt
  have hhigh : ∀ code : Int8, code.toInt < 2 ^ 31 := fun code =>
    Int.lt_trans code.toInt_lt (by decide)
  exact Int8.toInt_inj.mp (Wire.intField_inj 7 (hlow code) (hhigh code) (hlow code') (hhigh code')
    hfields)

theorem aggregates_wireBls (ids : List UInt8) :
    Aggregates HotStuff.wireBls (ids.map HotStuff.wireKey) := by
  intro sigs hsigs
  refine ⟨sigs.flatten, if_pos (List.all_eq_true.mpr fun sig hsig => ?_)⟩
  obtain ⟨key, hkey, msg, hver⟩ := hsigs sig hsig
  obtain ⟨i, -, rfl⟩ := List.mem_map.mp hkey
  obtain ⟨-, fs, hfs, -⟩ := (HotStuff.verifyByte_wireBls (HotStuff.decode_wireKey i)).mp hver
  rw [hfs]
  rfl

/-- Three validators of weight 1 that verify precommits with the keys of `wirePeers`. -/
def threeValidators : Shard where
  sum := id
  codec := ⟨fun _ => [], fun _ => none⟩
  blockHash _ := []
  chainID := [65]
  peerVotes := [1, 1, 1]
  verify sig m i := match m with
    | .precommit code height round hash =>
      (newVerifier HotStuff.wirePeers).verify HotStuff.wireBls.toBls sig
        (Vote.precommitSignBytes Surroundings.precommitCodec
          { newVote height round hash 0 with code := code }) i == some true
    | _ => true
  sign _ _ := []
  judge _ _ _ := none
  maxPartSize := 64

theorem usesBls_threeValidators : threeValidators.UsesBls HotStuff.wireBls
    Surroundings.precommitCodec (newVerifier HotStuff.wirePeers) where
  size := rfl
  verify v i := by
    show (_ == some true) = true ↔ _
    rw [beq_iff_eq]
    rfl

/-- A proposal for height 1. -/
def firstProposal : Proposal :=
  { header := ⟨1, 0, 1, List.replicate 32 0, [65]⟩, proposerIndex := 1, blockHeaderHash := [7]
    signature := [] }

/-- A precommit with the given code, signed by its validator. -/
def precommitBy (i : UInt8) (code : Int8) : Message :=
  let v : Vote := { newVote 1 0 [7] i.toNat with code := code }
  .precommit { v with signature := HotStuff.wireSign i (v.precommitSignBytes Surroundings.precommitCodec) }

/-- The height at which the three precommits arrive. -/
def decidedHeight (codes : List Int8) : HeightData :=
  ((newHeightData threeValidators).nextHeight threeValidators).takeMessages threeValidators
    (.proposal firstProposal :: codes.zipIdx.map fun code => precommitBy (UInt8.ofNat code.2) code.1)

/-- With three precommits for OK the certificate is made and verifies. -/
theorem verifySignatures_allOK :
    (decidedHeight [1, 1, 1]).precommits.hasMaj23 = true ∧
    ∃ pa, (decidedHeight [1, 1, 1]).generateAggregatePrecommitSignature HotStuff.wireBls.toBls 3 =
      some pa ∧ pa.verifySignatures HotStuff.wireBls Surroundings.precommitCodec
        (some (newVerifier HotStuff.wirePeers)) = true := by
  have hmaj : (decidedHeight [1, 1, 1]).precommits.hasMaj23 = true := by decide +kernel
  have hproposal : (decidedHeight [1, 1, 1]).proposal = some firstProposal := by decide +kernel
  have hvotes : ∀ i < 3, ∀ v ∈ (decidedHeight [1, 1, 1]).precommits.votes i,
      v.code = codeOf (decidedHeight [1, 1, 1]).precommits.getMaj23.2 := by decide +kernel
  obtain ⟨pa, hpa, hverify⟩ := verifySignatures_iff usesBls_threeValidators
    (HotStuff.exact_wireBls [0, 1, 2]) (aggregates_wireBls [0, 1, 2]) readsCode_precommitCodec
    (newHeightData threeValidators) _ hproposal hmaj
  refine ⟨hmaj, pa, hpa, hverify.mpr fun i v hv _ _ => ?_⟩
  have hrecorded := ((precommitted_nextHeight (newHeightData threeValidators)).takeMessages _).recorded
    i v hv
  exact hvotes i hrecorded.1 v hv

/-- Two precommits with Abort and one with the code 5 are a majority against the block, and its
certificate does not verify. -/
theorem not_verifySignatures_otherCode :
    (decidedHeight [3, 3, 5]).proposal = some firstProposal ∧
    (decidedHeight [3, 3, 5]).precommits.hasMaj23 = true ∧
    (decidedHeight [3, 3, 5]).precommits.getMaj23 = ([7], false) ∧
    (List.range 3).map (fun i => ((decidedHeight [3, 3, 5]).precommits.votes i).map Vote.code) =
      [some 3, some 3, some 5] ∧
    ((decidedHeight [3, 3, 5]).generateAggregatePrecommitSignature HotStuff.wireBls.toBls 3).map
      (fun pa => pa.verifySignatures HotStuff.wireBls Surroundings.precommitCodec
        (some (newVerifier HotStuff.wirePeers))) = some false := by
  refine ⟨by decide +kernel, by decide +kernel, by decide +kernel, by decide +kernel, ?_⟩
  decide +kernel

end Emulator.Pyramid
