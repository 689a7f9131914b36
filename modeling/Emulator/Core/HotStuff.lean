import Emulator.Crypto.Merkle
import Emulator.Lib.Quorum
import Emulator.Lib.Slots
import Emulator.Lib.Wire
import Emulator.Utils.BitVector

/-!
# HotStuff votes and their tally

The vote-counting core shared by the Urd nodes: `Vote`, `AggregatedVote` and the per-view
`HeightDataPackage` with `addVote`, `isQuorum` and `getMaj23`.

A view is decided once `VotesTotal` or `RejectTotal` reaches `2*VotesNeeded/3`. That comparison is
`>=` against a rounded-down number, so it is passed by a side of *exactly* that weight, which is
at most two thirds.

* `Tally` — what the counters of a package mean; `tally_addVote`, `tally_addVotes` keep it.
* `quorumSafe_iff` — the quorum rule is safe for a weight list exactly when no set of validators
  weighs `2*W/3`.
-/

namespace Emulator.HotStuff

open Quorum

/-! ## Votes -/

def codeTypeOK : Int8 := 1
def codeTypeReject : Int8 := 2

structure Vote where
  code : Int8
  view : ℤ
  round : ℤ
  forHash : Bytes
  forNecessaryData : List Bytes
  sign : Str
  validatorIndex : ℤ
  deriving DecidableEq, Repr

structure AggregatedVote where
  code : Int8
  view : ℤ
  round : ℤ
  forHash : Bytes
  forNecessaryData : List Bytes
  sign : Str
  signerIndexer : BitVector
  deriving DecidableEq, Repr

/-- The protobuf message `core.hotstuff.Vote`. -/
structure PbVote where
  code : ℤ
  view : ℤ
  round : ℤ
  forHash : Bytes
  forNecessaryData : List Bytes
  sign : Str
  validatorIndex : ℤ
  deriving DecidableEq, Repr

/-- The wire form of `core.hotstuff.Vote`. -/
def PbVote.toFields (v : PbVote) : List Wire.Field :=
  Wire.intField 1 v.code ++ Wire.intField 2 v.view ++ Wire.intField 3 v.round ++
    Wire.bytesField 4 v.forHash ++ Wire.bytesField 5 v.sign ++
    Wire.intField 6 v.validatorIndex ++ Wire.repeated 7 v.forNecessaryData

def PbVote.ofFields (fs : List Wire.Field) : PbVote :=
  { code := Wire.signed 1 fs, view := Wire.signed 2 fs, round := Wire.signed 3 fs
    forHash := (Wire.payloads 4 fs).getLastD [], sign := (Wire.payloads 5 fs).getLastD []
    validatorIndex := Wire.signed 6 fs, forNecessaryData := Wire.payloads 7 fs }

def voteCodec : Codec PbVote where
  marshal v := Wire.encode v.toFields
  unmarshal bz := (Wire.decode bz).map PbVote.ofFields

def newVote (view round : ℤ) (hash : Bytes) (necessaryData : List Bytes) (index : ℤ) : Vote :=
  { code := codeTypeOK, view, round, forHash := hash, forNecessaryData := necessaryData,
    sign := [], validatorIndex := index }

def Vote.isOK (v : Vote) : Bool := v.code = codeTypeOK
def Vote.setOK (v : Vote) : Vote := { v with code := codeTypeOK }
def Vote.setReject (v : Vote) : Vote := { v with code := codeTypeReject }

/-- The message whose bytes a voter signs: no signature, and index `-1`. -/
def Vote.signProto (v : Vote) : PbVote :=
  { code := v.code.toInt, round := v.round, view := v.view, forHash := v.forHash,
    forNecessaryData := v.forNecessaryData, sign := [], validatorIndex := -1 }

def Vote.signBytes (c : Codec PbVote) (v : Vote) : Bytes := c.marshal v.signProto

def Vote.getAggregated (v : Vote) (bv : BitVector) : AggregatedVote :=
  { code := v.code, view := v.view, round := v.round, forHash := v.forHash,
    forNecessaryData := v.forNecessaryData, sign := v.sign, signerIndexer := bv }

def AggregatedVote.isOK (v : AggregatedVote) : Bool := v.code = codeTypeOK

/-- The protobuf message `core.hotstuff.AggregatedVote`. -/
structure PbAggregatedVote where
  code : ℤ
  view : ℤ
  round : ℤ
  forHash : Bytes
  forNecessaryData : List Bytes
  sign : Str
  signerIndex : Bytes
  deriving DecidableEq, Repr

def AggregatedVote.toProto (v : AggregatedVote) : PbAggregatedVote :=
  { code := v.code.toInt, view := v.view, round := v.round, forHash := v.forHash,
    forNecessaryData := v.forNecessaryData, sign := v.sign, signerIndex := v.signerIndexer.byte }

/-- `NewAggregatedVoteFromProto`; signer indices can panic (`none`). A `nil` bit vector is one
without bits, as which all its methods treat it. -/
def newAggregatedVoteFromProto (p : PbAggregatedVote) : Option AggregatedVote :=
  (BitVector.readBitArray p.signerIndex).map fun bv =>
    { code := Int8.ofInt p.code, view := p.view, round := p.round, forHash := p.forHash,
      forNecessaryData := p.forNecessaryData, sign := p.sign,
      signerIndexer := bv.getD (BitVector.newBitVector 0) }

def AggregatedVote.hash (sum : Bytes → Bytes) (c : Codec PbAggregatedVote) (v : AggregatedVote) :
    Bytes :=
  Merkle.hashFromByteSlices sum [c.marshal v.toProto]

theorem newAggregatedVoteFromProto_toProto {v : AggregatedVote} (h : v.signerIndexer.WellFormed) :
    newAggregatedVoteFromProto v.toProto = some v := by
  unfold newAggregatedVoteFromProto AggregatedVote.toProto
  rw [BitVector.readBitArray_byte h]
  simp only [Option.map_some, Option.getD_some, Int8.ofInt_toInt]

/-! ## Validators -/

/-- The BLS library: checking a serialised signature under a public key, and aggregation, which
fails on a string that does not deserialise. -/
structure Bls where
  verifyByte : Str → Str → Bytes → Bool
  aggregate : List Str → Option Str

/-- Every key can sign every message. -/
def Bls.CanSign (B : Bls) : Prop := ∀ key msg, ∃ sig, B.verifyByte key sig msg = true

/-- `signer.Verifier`: the public keys by validator index. -/
structure Verifier where
  publicKeys : List Str
  deriving DecidableEq, Repr

def Verifier.size (s : Verifier) : ℕ := s.publicKeys.length

/-- `Verifier.Verify`. An index past the end is refused; a negative one panics (`none`). -/
def Verifier.verify (B : Bls) (s : Verifier) (sig : Str) (msg : Bytes) (index : ℤ) :
    Option Bool :=
  if (s.publicKeys.length : ℤ) ≤ index then some false
  else if index < 0 then none
  else (s.publicKeys[index.toNat]?).map fun key => B.verifyByte key sig msg

/-- A validator of a shard, as far as vote counting reads it. -/
structure Peer where
  pubkey : Str
  vote : ℕ
  deriving DecidableEq, Repr

/-- The weights `NewState` reads off the peer list. -/
def perVotes (peers : List Peer) : List ℕ := peers.map Peer.vote

/-- The verifier `NewState` builds from the peer list. -/
def newVerifier (peers : List Peer) : Verifier := ⟨peers.map Peer.pubkey⟩

/-! ## The vote package of one view -/

structure HeightDataPackage where
  proposalHash : Bytes
  view : ℤ
  round : ℤ
  votes : List (Option Vote)
  votesBitVector : BitVector
  votesTotal : ℕ
  rejectTotal : ℕ
  votesNeeded : ℕ
  perVote : List ℕ
  validatorSet : Verifier
  aggVote : Option AggregatedVote
  deriving DecidableEq, Repr

def newHeightDataPackage (validatorSet : Verifier) (perVote : List ℕ) (view round : ℤ) :
    HeightDataPackage :=
  { proposalHash := [], view, round
    votes := List.replicate validatorSet.size none
    votesBitVector := BitVector.newBitVector validatorSet.size
    votesTotal := 0, rejectTotal := 0
    votesNeeded := perVote.foldl (· + ·) 0
    perVote, validatorSet, aggVote := none }

/-- The ways `addVote` returns early. -/
inductive VoteError
  | invalidSign
  | invalidVoteCode
  | duplicatedVote
  /-- a slice index out of range, which panics -/
  | indexPanic
  deriving DecidableEq, Repr

/-- `addVote`. A refused vote leaves the package as it was. -/
def addVote (B : Bls) (c : Codec PbVote) (hdp : HeightDataPackage) (vote : Vote) :
    Except VoteError HeightDataPackage :=
  match hdp.validatorSet.verify B vote.sign (vote.signBytes c) vote.validatorIndex with
  | none => .error .indexPanic
  | some false => .error .invalidSign
  | some true =>
    if hdp.view ≠ vote.view ∨ hdp.round ≠ vote.round ∨ hdp.proposalHash ≠ vote.forHash then
      .error .invalidVoteCode
    else
      let i := vote.validatorIndex.toNat
      match hdp.votes[i]?, hdp.perVote[i]? with
      | some none, some w =>
        let hdp := if vote.isOK then { hdp with votesTotal := hdp.votesTotal + w }
          else { hdp with rejectTotal := hdp.rejectTotal + w }
        .ok { hdp with
          votes := hdp.votes.set i (some vote)
          votesBitVector := hdp.votesBitVector.setIndex i true }
      | some (some _), _ => .error .duplicatedVote
      | _, _ => .error .indexPanic

def isQuorum (hdp : HeightDataPackage) : Bool :=
  hdp.votesTotal ≥ 2 * hdp.votesNeeded / 3 || hdp.rejectTotal ≥ 2 * hdp.votesNeeded / 3

/-- The loop of `getMaj23` over the recorded votes: the bit map of the winning side, every
signature, and the necessary data of the last vote seen. -/
def collectVotes (ok : Bool) (bv : BitVector) (sigs : List Str) (data : List Bytes) :
    ℕ → List (Option Vote) → BitVector × List Str × List Bytes
  | _, [] => (bv, sigs, data)
  | i, none :: vs => collectVotes ok bv sigs data (i + 1) vs
  | i, some v :: vs =>
    collectVotes ok (if v.isOK = ok then bv.setIndex i true else bv) (sigs ++ [v.sign])
      v.forNecessaryData (i + 1) vs

/-- `getMaj23`: the aggregated vote (kept in the package), or `none` for an error. -/
def getMaj23 (B : Bls) (hdp : HeightDataPackage) : Option (AggregatedVote × HeightDataPackage) :=
  match hdp.aggVote with
  | some a => some (a, hdp)
  | none =>
    let aggVote : Vote :=
      { code := 0, round := hdp.round, view := hdp.view, forHash := hdp.proposalHash,
        forNecessaryData := [], sign := [], validatorIndex := 0 }
    let decided :=
      if hdp.votesTotal ≥ 2 * hdp.votesNeeded / 3 then some aggVote.setOK
      else if hdp.rejectTotal ≥ 2 * hdp.votesNeeded / 3 then some aggVote.setReject
      else none
    decided.bind fun aggVote =>
      let (bv, sigs, data) := collectVotes aggVote.isOK
        (BitVector.newBitVector hdp.validatorSet.size) [] aggVote.forNecessaryData 0 hdp.votes
      (B.aggregate sigs).map fun aggSig =>
        let vote := ({ aggVote with sign := aggSig, forNecessaryData := data }).getAggregated bv
        (vote, { hdp with aggVote := some vote })

/-- A sequence of `addVote` calls; refused votes change nothing. -/
def addVotes (B : Bls) (c : Codec PbVote) (hdp : HeightDataPackage) (vs : List Vote) :
    HeightDataPackage :=
  vs.foldl (fun hdp v => match addVote B c hdp v with | .ok hdp' => hdp' | .error _ => hdp) hdp

/-- The package a view starts from: fresh, with the proposal's hash set. -/
def startPackage (peers : List Peer) (view round : ℤ) (hash : Bytes) : HeightDataPackage :=
  { newHeightDataPackage (newVerifier peers) (perVotes peers) view round with
    proposalHash := hash }

/-! ## What a call does -/

/-- The package after validator `i`'s vote of weight `w` is recorded. -/
def record (hdp : HeightDataPackage) (vote : Vote) (i w : ℕ) : HeightDataPackage :=
  { hdp with
    votesTotal := if vote.isOK then hdp.votesTotal + w else hdp.votesTotal
    rejectTotal := if vote.isOK then hdp.rejectTotal else hdp.rejectTotal + w
    votes := hdp.votes.set i (some vote)
    votesBitVector := hdp.votesBitVector.setIndex i true }

variable {hdp hdp' : HeightDataPackage} {B : Bls} {vote : Vote} {i w : ℕ} {peers : List Peer}
  {c : Codec PbVote} {sig : Str} {hash msg : Bytes} {view : ℤ} {data : List Bytes}
  {a : AggregatedVote}

theorem index_nonneg_of_verify {s : Verifier} {index : ℤ}
    (h : s.verify B sig msg index = some true) : 0 ≤ index := by
  by_contra hneg
  unfold Verifier.verify at h
  rw [if_neg (by omega), if_pos (by omega)] at h
  cases h

/-- Everything an accepted vote can do: it was signed by the validator it names, it is about the
package's view, round and proposal, its slot was empty, and it is recorded there. -/
theorem addVote_eq_ok (h : addVote B c hdp vote = .ok hdp') :
    ∃ i w : ℕ, vote.validatorIndex = i ∧
      hdp.validatorSet.verify B vote.sign (vote.signBytes c) i = some true ∧
      hdp.view = vote.view ∧ hdp.round = vote.round ∧ hdp.proposalHash = vote.forHash ∧
      hdp.votes[i]? = some none ∧ hdp.perVote[i]? = some w ∧ hdp' = record hdp vote i w := by
  unfold addVote at h
  split at h
  · cases h
  · cases h
  · rename_i hver
    have hidx : 0 ≤ vote.validatorIndex := index_nonneg_of_verify hver
    split at h
    · cases h
    · rename_i hsame
      simp only [not_or, not_not] at hsame
      dsimp only at h
      split at h
      · rename_i w hslot hw
        refine ⟨vote.validatorIndex.toNat, w, by omega, ?_, hsame.1, hsame.2.1, hsame.2.2,
          hslot, hw, ?_⟩
        · rwa [Int.toNat_of_nonneg hidx]
        · injection h with h
          rw [← h]
          unfold record
          split <;> rfl
      · cases h
      · cases h

/-- Conversely, a vote that meets these conditions is recorded. -/
theorem addVote_of_valid (hi : vote.validatorIndex = i)
    (hver : hdp.validatorSet.verify B vote.sign (vote.signBytes c) i = some true)
    (hview : hdp.view = vote.view) (hround : hdp.round = vote.round)
    (hhash : hdp.proposalHash = vote.forHash) (hslot : hdp.votes[i]? = some none)
    (hw : hdp.perVote[i]? = some w) : addVote B c hdp vote = .ok (record hdp vote i w) := by
  have hsame : ¬ (hdp.view ≠ vote.view ∨ hdp.round ≠ vote.round ∨
      hdp.proposalHash ≠ vote.forHash) := by
    simp [hview, hround, hhash]
  unfold addVote
  rw [hi, hver]
  dsimp only
  rw [if_neg hsame]
  simp only [Int.toNat_natCast, hslot, hw]
  unfold record
  split <;> rfl

/-- Against an index that is not negative, `Verify` only looks up the key. -/
theorem Verifier.verify_natCast (B : Bls) (v : Verifier) (sig : Str) (msg : Bytes) (i : ℕ) :
    v.verify B sig msg i = some ((v.publicKeys[i]?).any fun key => B.verifyByte key sig msg) := by
  unfold Verifier.verify
  rcases Nat.lt_or_ge i v.publicKeys.length with hi | hi
  · rw [if_neg (by omega), if_neg (by omega), Int.toNat_natCast, List.getElem?_eq_getElem hi]
    rfl
  · rw [if_pos (by omega), List.getElem?_eq_none hi]
    rfl

theorem lt_size_of_verify {v : Verifier} (h : v.verify B sig msg i = some true) : i < v.size := by
  rw [Verifier.verify_natCast] at h
  by_contra hlt
  rw [List.getElem?_eq_none (Nat.le_of_not_lt hlt)] at h
  cases h

/-- The first vote of a package is counted unless its signature is wrong. -/
theorem addVote_startPackage (B : Bls) (c : Codec PbVote) (peers : List Peer)
    (hi : vote.validatorIndex = i) :
    (newVerifier peers).verify B vote.sign (vote.signBytes c) i = some true ∧
        (∃ hdp, addVote B c (startPackage peers vote.view vote.round vote.forHash) vote = .ok hdp) ∨
      (newVerifier peers).verify B vote.sign (vote.signBytes c) i = some false ∧
        addVote B c (startPackage peers vote.view vote.round vote.forHash) vote =
          .error .invalidSign := by
  have hverify := (newVerifier peers).verify_natCast B vote.sign (vote.signBytes c) i
  cases hok : ((newVerifier peers).publicKeys[i]?).any fun key =>
      B.verifyByte key vote.sign (vote.signBytes c) with
  | false =>
    rw [hok] at hverify
    refine .inr ⟨hverify, ?_⟩
    have hpackage : (startPackage peers vote.view vote.round vote.forHash).validatorSet.verify B
        vote.sign (vote.signBytes c) vote.validatorIndex = some false := hi ▸ hverify
    unfold addVote
    rw [hpackage]
  | true =>
    rw [hok] at hverify
    refine .inl ⟨hverify, ?_⟩
    obtain ⟨key, hkey, -⟩ := (Option.any_eq_true _ _).mp hok
    have hlt : i < peers.length := by
      have hlt := (List.getElem?_eq_some_iff.mp hkey).1
      rwa [newVerifier, List.length_map] at hlt
    have hslot : (startPackage peers vote.view vote.round vote.forHash).votes[i]? = some none := by
      show (List.replicate (newVerifier peers).size none)[i]? = some none
      rw [List.getElem?_replicate, if_pos]
      rwa [Verifier.size, newVerifier, List.length_map]
    obtain ⟨w, hw⟩ : ∃ w, (perVotes peers)[i]? = some w := by
      rw [perVotes, List.getElem?_map, List.getElem?_eq_getElem hlt]
      exact ⟨_, rfl⟩
    exact ⟨_, addVote_of_valid hi hverify rfl rfl rfl hslot hw⟩

/-! ## Aggregating votes -/

/-- The aggregate of votes that all carry the necessary data `data` for the proposal `hash`. -/
structure Aggregates (a : AggregatedVote) (hash : Bytes) (data : List Bytes) : Prop where
  forHash : a.forHash = hash
  forNecessaryData : a.forNecessaryData = data
  signerIndexer : a.signerIndexer.WellFormed

/-- A package in which some vote is recorded and all recorded votes carry the same necessary
data. -/
structure VotesFor (hdp : HeightDataPackage) (view : ℤ) (hash : Bytes) (data : List Bytes) :
    Prop where
  view : hdp.view = view
  proposalHash : hdp.proposalHash = hash
  recorded : ∃ v, some v ∈ hdp.votes
  necessaryData : ∀ v, some v ∈ hdp.votes → v.forNecessaryData = data
  aggVote : ∀ a ∈ hdp.aggVote, Aggregates a hash data

theorem VotesFor.addVote (hv : VotesFor hdp view hash data) (h : addVote B c hdp vote = .ok hdp')
    (hdata : vote.view = view → vote.forNecessaryData = data) : VotesFor hdp' view hash data := by
  obtain ⟨i, w, -, -, hview, -, -, hslot, -, rfl⟩ := addVote_eq_ok h
  have hi : i < hdp.votes.length := (List.getElem?_eq_some_iff.mp hslot).1
  refine ⟨hv.view, hv.proposalHash, ⟨vote, List.mem_set hi _⟩, fun v hmem => ?_, hv.aggVote⟩
  rcases List.mem_or_eq_of_mem_set hmem with hmem | heq
  · exact hv.necessaryData v hmem
  · obtain rfl := Option.some.inj heq
    exact hdata (hview.symm.trans hv.view)

/-- The first vote recorded in the package of a view. -/
theorem votesFor_startPackage {round : ℤ}
    (h : addVote B c (startPackage peers view round hash) vote = .ok hdp') :
    VotesFor hdp' view hash vote.forNecessaryData := by
  obtain ⟨i, w, -, -, -, -, -, hslot, -, rfl⟩ := addVote_eq_ok h
  have hi := (List.getElem?_eq_some_iff.mp hslot).1
  refine ⟨rfl, rfl, ⟨vote, List.mem_set hi _⟩, fun v hmem => ?_, fun a ha => by cases ha⟩
  rcases List.mem_or_eq_of_mem_set hmem with hmem | heq
  · cases List.eq_of_mem_replicate hmem
  · rw [Option.some.inj heq]

theorem collectVotes_bits (ok : Bool) (bv : BitVector) (sigs : List Str) (data : List Bytes)
    (i : ℕ) (vs : List (Option Vote)) :
    (collectVotes ok bv sigs data i vs).1 =
      bv.setWhere (fun o => o.any fun v => v.isOK == ok) i vs := by
  induction vs generalizing bv sigs data i with
  | nil => rfl
  | cons v vs ih =>
    cases v with
    | none => exact ih bv sigs data (i + 1)
    | some v =>
      rw [collectVotes, ih, BitVector.setWhere]
      simp

theorem collectVotes_data (ok : Bool) (bv : BitVector) (sigs : List Str) (acc : List Bytes) (i : ℕ)
    {vs : List (Option Vote)} (h : ∀ v, some v ∈ vs → v.forNecessaryData = data)
    (hacc : acc = data ∨ ∃ v, some v ∈ vs) : (collectVotes ok bv sigs acc i vs).2.2 = data := by
  induction vs generalizing bv sigs acc i with
  | nil => simpa [collectVotes] using hacc
  | cons v vs ih =>
    have htail : ∀ v, some v ∈ vs → v.forNecessaryData = data := fun v' hv' =>
      h v' (List.mem_cons_of_mem v hv')
    cases v with
    | none => exact ih _ _ _ _ htail (by simpa using hacc)
    | some v => exact ih _ _ _ _ htail (.inl (h v List.mem_cons_self))

/-- What the loop of `getMaj23` makes of the recorded votes. -/
def collected (hdp : HeightDataPackage) (ok : Bool) : BitVector × List Str × List Bytes :=
  collectVotes ok (BitVector.newBitVector hdp.validatorSet.size) [] [] 0 hdp.votes

/-- The vote is the aggregate of those in the package. -/
structure AggregateOf (B : Bls) (hdp : HeightDataPackage) (a : AggregatedVote) : Prop where
  view : a.view = hdp.view
  round : a.round = hdp.round
  forHash : a.forHash = hdp.proposalHash
  signerIndexer : a.signerIndexer = (collected hdp a.isOK).1
  sign : B.aggregate (collected hdp a.isOK).2.1 = some a.sign
  forNecessaryData : a.forNecessaryData = (collected hdp a.isOK).2.2

theorem AggregateOf.wellFormed (h : AggregateOf B hdp a) : a.signerIndexer.WellFormed := by
  rw [h.signerIndexer, collected, collectVotes_bits]
  exact (BitVector.wellFormed_newBitVector _).setWhere _ _ _

/-- Everything `getMaj23` does: it returns the vote of the package, and the first time it makes
it. -/
theorem getMaj23_cases (h : getMaj23 B hdp = some (a, hdp')) :
    hdp' = { hdp with aggVote := some a } ∧
      (hdp.aggVote = some a ∨ hdp.aggVote = none ∧ AggregateOf B hdp a) := by
  unfold getMaj23 at h
  split at h
  · next a' ha' =>
    obtain ⟨rfl, rfl⟩ := Prod.mk.inj (Option.some.inj h)
    refine ⟨?_, .inl ha'⟩
    rw [← ha']
  · next hnone =>
    obtain ⟨decided, hdecided, h₁⟩ := Option.bind_eq_some_iff.mp h
    obtain ⟨aggSig, hsig, h₂⟩ := Option.map_eq_some_iff.mp h₁
    obtain ⟨rfl, rfl⟩ := Prod.mk.inj h₂
    refine ⟨rfl, .inr ⟨hnone, ?_⟩⟩
    split_ifs at hdecided <;> obtain rfl := Option.some.inj hdecided <;>
      exact ⟨rfl, rfl, rfl, rfl, hsig, rfl⟩

/-- What `getMaj23` makes of such a package; it changes nothing that is counted. -/
theorem VotesFor.getMaj23 (hv : VotesFor hdp view hash data) (h : getMaj23 B hdp = some (a, hdp')) :
    Aggregates a hash data ∧ VotesFor hdp' view hash data ∧ isQuorum hdp' = isQuorum hdp := by
  obtain ⟨rfl, hcases⟩ := getMaj23_cases h
  have ha : Aggregates a hash data := by
    rcases hcases with hagg | ⟨-, hof⟩
    · exact hv.aggVote a hagg
    · refine ⟨hof.forHash.trans hv.proposalHash, ?_, hof.wellFormed⟩
      rw [hof.forNecessaryData]
      exact collectVotes_data _ _ _ _ _ hv.necessaryData (.inr hv.recorded)
  refine ⟨ha, ⟨hv.view, hv.proposalHash, hv.recorded, hv.necessaryData, fun a' ha' => ?_⟩, rfl⟩
  obtain rfl := Option.some.inj ha'
  exact ha

/-! ## The tally invariant -/

def slot (hdp : HeightDataPackage) (i : ℕ) : Option Vote := (hdp.votes[i]?).join

/-- The validators whose recorded vote is an OK vote (`ok = true`), or is not one. -/
def sideSet (hdp : HeightDataPackage) (ok : Bool) : Finset ℕ :=
  (Finset.range hdp.votes.length).filter fun i => (slot hdp i).any (·.isOK == ok)

def sideTotal (hdp : HeightDataPackage) (ok : Bool) : ℕ :=
  if ok then hdp.votesTotal else hdp.rejectTotal

def weightAt (peers : List Peer) (i : ℕ) : ℕ := (perVotes peers).getD i 0

def validators (peers : List Peer) : Finset ℕ := Finset.range peers.length

/-- The total weight `W`. -/
def totalWeight (peers : List Peer) : ℕ := weight (weightAt peers) (validators peers)

/-- The counters of a package count the recorded votes of the peers. -/
structure Tally (peers : List Peer) (hdp : HeightDataPackage) : Prop where
  validatorSet : hdp.validatorSet = newVerifier peers
  perVote : hdp.perVote = perVotes peers
  length : hdp.votes.length = peers.length
  needed : hdp.votesNeeded = totalWeight peers
  side : ∀ ok, sideTotal hdp ok = weight (weightAt peers) (sideSet hdp ok)

theorem foldl_add_eq_sum (l : List ℕ) (n : ℕ) :
    l.foldl (· + ·) n = n + ∑ i ∈ Finset.range l.length, l.getD i 0 := by
  induction l generalizing n with
  | nil => simp
  | cons a l ih =>
    rw [List.foldl_cons, ih, List.length_cons, Finset.sum_range_succ']
    simp only [List.getD_cons_succ, List.getD_cons_zero]
    omega

theorem mem_sideSet {ok : Bool} : i ∈ sideSet hdp ok ↔ ∃ v, slot hdp i = some v ∧ v.isOK = ok := by
  simp only [← beq_iff_eq (b := ok)]
  exact Slots.mem_holding

theorem slot_startPackage (peers : List Peer) (view round : ℤ) (hash : Bytes) (i : ℕ) :
    slot (startPackage peers view round hash) i = none :=
  Slots.entry_replicate _ i

theorem tally_startPackage (peers : List Peer) (view round : ℤ) (hash : Bytes) :
    Tally peers (startPackage peers view round hash) where
  validatorSet := rfl
  perVote := rfl
  length := by simp [startPackage, newHeightDataPackage, newVerifier, Verifier.size]
  needed := by
    simp [startPackage, newHeightDataPackage, foldl_add_eq_sum, totalWeight, weight, weightAt,
      validators, perVotes]
  side ok := by
    have hempty : sideSet (startPackage peers view round hash) ok = ∅ :=
      Slots.holding_eq_empty (slot_startPackage peers view round hash) _
    rw [hempty]
    cases ok <;> rfl

theorem slot_record (hi : i < hdp.votes.length) (j : ℕ) :
    slot (record hdp vote i w) j = if j = i then some vote else slot hdp j :=
  Slots.entry_set hi vote j

theorem sideSet_record (ok : Bool) (hslot : hdp.votes[i]? = some none) :
    sideSet (record hdp vote i w) ok =
      if vote.isOK = ok then insert i (sideSet hdp ok) else sideSet hdp ok := by
  simp only [← beq_iff_eq (b := ok)]
  exact Slots.holding_set hslot vote (·.isOK == ok)

theorem tally_record (ht : Tally peers hdp) (hslot : hdp.votes[i]? = some none)
    (hw : hdp.perVote[i]? = some w) : Tally peers (record hdp vote i w) where
  validatorSet := ht.validatorSet
  perVote := ht.perVote
  length := by simpa [record] using ht.length
  needed := ht.needed
  side ok := by
    have hwi : weightAt peers i = w := by
      rw [ht.perVote] at hw
      simp [weightAt, hw]
    have hsum : weight (weightAt peers) (sideSet (record hdp vote i w) ok) =
        weight (weightAt peers) (sideSet hdp ok) + if vote.isOK == ok then weightAt peers i else 0 :=
      Slots.sum_holding_set hslot vote (·.isOK == ok) (weightAt peers)
    rw [hsum, hwi, ← ht.side ok]
    cases ok <;> cases hv : vote.isOK <;> simp [sideTotal, record, hv]

theorem addVotes_concat {vs : List Vote} {v : Vote}
    (h : addVote B c (addVotes B c hdp vs) v = .ok hdp') : addVotes B c hdp (vs ++ [v]) = hdp' := by
  unfold addVotes at h ⊢
  rw [List.foldl_append, List.foldl_cons, h]
  rfl

theorem tally_addVote (ht : Tally peers hdp) (h : addVote B c hdp vote = .ok hdp') :
    Tally peers hdp' := by
  obtain ⟨i, w, -, -, -, -, -, hslot, hw, rfl⟩ := addVote_eq_ok h
  exact tally_record ht hslot hw

theorem tally_addVotes (ht : Tally peers hdp) (vs : List Vote) :
    Tally peers (addVotes B c hdp vs) := by
  induction vs generalizing hdp with
  | nil => exact ht
  | cons v vs ih =>
    simp only [addVotes, List.foldl_cons]
    cases hv : addVote B c hdp v with
    | error e => exact ih ht
    | ok hdp' => exact ih (tally_addVote ht hv)

/-! ## Quorum safety -/

theorem sideSet_subset (ht : Tally peers hdp) (ok : Bool) : sideSet hdp ok ⊆ validators peers := by
  intro i hi
  have := (Finset.mem_filter.mp hi).1
  rwa [ht.length] at this

theorem disjoint_sideSet (hdp : HeightDataPackage) :
    Disjoint (sideSet hdp true) (sideSet hdp false) := by
  rw [Finset.disjoint_left]
  intro i ht hf
  obtain ⟨v, hv, hok⟩ := mem_sideSet.mp ht
  obtain ⟨v', hv', hno⟩ := mem_sideSet.mp hf
  rw [hv, Option.some.injEq] at hv'
  simp [← hv', hok] at hno

theorem isQuorum_iff : isQuorum hdp = true ↔ ∃ ok, 2 * hdp.votesNeeded / 3 ≤ sideTotal hdp ok := by
  simp [isQuorum, sideTotal, or_comm]

/-- What a quorum rule is for, over every sequence of votes: a side that lets `isQuorum` pass
holds more than two thirds of the weight, the two sides never both do, and any two packages of
one view that pass agree on more than a third of the weight. -/
structure QuorumSafe (B : Bls) (c : Codec PbVote) (peers : List Peer) : Prop where
  supermajority : ∀ (view round : ℤ) (hash : Bytes) (vs : List Vote) (ok : Bool),
    let hdp := addVotes B c (startPackage peers view round hash) vs
    isQuorum hdp = true → 2 * hdp.votesNeeded / 3 ≤ sideTotal hdp ok →
      2 * totalWeight peers < 3 * sideTotal hdp ok
  one_side : ∀ (view round : ℤ) (hash : Bytes) (vs : List Vote),
    let hdp := addVotes B c (startPackage peers view round hash) vs
    ¬ (2 * hdp.votesNeeded / 3 ≤ hdp.votesTotal ∧ 2 * hdp.votesNeeded / 3 ≤ hdp.rejectTotal)
  overlap : ∀ (view round₁ round₂ : ℤ) (hash₁ hash₂ : Bytes) (vs₁ vs₂ : List Vote)
      (ok₁ ok₂ : Bool),
    let hdp₁ := addVotes B c (startPackage peers view round₁ hash₁) vs₁
    let hdp₂ := addVotes B c (startPackage peers view round₂ hash₂) vs₂
    2 * hdp₁.votesNeeded / 3 ≤ sideTotal hdp₁ ok₁ →
    2 * hdp₂.votesNeeded / 3 ≤ sideTotal hdp₂ ok₂ →
      totalWeight peers < 3 * weight (weightAt peers) (sideSet hdp₁ ok₁ ∩ sideSet hdp₂ ok₂)

/-- No set of validators weighs exactly the rounded-down two thirds of the total. -/
def NoSetAtFloor (peers : List Peer) : Prop :=
  ∀ S ⊆ validators peers, weight (weightAt peers) S ≠ 2 * totalWeight peers / 3

theorem supermajority_of_noSetAtFloor (hno : NoSetAtFloor peers) (ht : Tally peers hdp) (ok : Bool)
    (hreach : 2 * hdp.votesNeeded / 3 ≤ sideTotal hdp ok) :
    Supermajority (weightAt peers) (totalWeight peers) (sideSet hdp ok) := by
  rw [ht.needed, ht.side] at hreach
  exact (floor_reached_iff hreach).mpr (hno _ (sideSet_subset ht ok))

theorem quorumSafe_of_noSetAtFloor (B : Bls) (c : Codec PbVote) (hno : NoSetAtFloor peers) :
    QuorumSafe B c peers where
  supermajority view round hash vs ok := by
    intro hdp _ hreach
    have ht : Tally peers hdp := tally_addVotes (tally_startPackage peers view round hash) vs
    have hs := supermajority_of_noSetAtFloor hno ht ok hreach
    rwa [Supermajority, ← ht.side] at hs
  one_side view round hash vs := by
    rintro hdp ⟨hok, hrej⟩
    have ht : Tally peers hdp := tally_addVotes (tally_startPackage peers view round hash) vs
    exact not_supermajority_of_disjoint (disjoint_sideSet hdp) (sideSet_subset ht true)
      (sideSet_subset ht false) (supermajority_of_noSetAtFloor hno ht true hok)
      (supermajority_of_noSetAtFloor hno ht false hrej)
  overlap view round₁ round₂ hash₁ hash₂ vs₁ vs₂ ok₁ ok₂ := by
    intro hdp₁ hdp₂ h₁ h₂
    have ht₁ : Tally peers hdp₁ := tally_addVotes (tally_startPackage peers view round₁ hash₁) vs₁
    have ht₂ : Tally peers hdp₂ := tally_addVotes (tally_startPackage peers view round₂ hash₂) vs₂
    exact (supermajority_of_noSetAtFloor hno ht₁ ok₁ h₁).inter
      (supermajority_of_noSetAtFloor hno ht₂ ok₂ h₂) (sideSet_subset ht₁ ok₁)
      (sideSet_subset ht₂ ok₂)

/-! ### Every set of validators can make up a side -/

theorem verify_natCast {s : Verifier} {key : Str} (hkey : s.publicKeys[i]? = some key) :
    s.verify B sig msg i = some (B.verifyByte key sig msg) := by
  have hi : i < s.publicKeys.length := (List.getElem?_eq_some_iff.mp hkey).1
  rw [Verifier.verify, if_neg (by omega), if_neg (by omega), Int.toNat_natCast, hkey]
  rfl

/-- Validator `i` can cast an OK vote for the package's own view, round and proposal. -/
theorem exists_okVote (hsign : B.CanSign) (c : Codec PbVote) (ht : Tally peers hdp)
    (hi : i < peers.length) (hempty : slot hdp i = none) :
    ∃ (v : Vote) (w : ℕ), v.isOK = true ∧ hdp.votes[i]? = some none ∧ hdp.perVote[i]? = some w ∧
      addVote B c hdp v = .ok (record hdp v i w) := by
  have hkey : hdp.validatorSet.publicKeys[i]? = some (peers[i]).pubkey := by
    simp [ht.validatorSet, newVerifier, hi]
  have hslot : hdp.votes[i]? = some none := by
    have hlen : i < hdp.votes.length := by rw [ht.length]; exact hi
    rw [List.getElem?_eq_getElem hlen, Option.some.injEq]
    simpa [slot, List.getElem?_eq_getElem hlen] using hempty
  have hw : hdp.perVote[i]? = some (peers[i]).vote := by
    simp [ht.perVote, perVotes, hi]
  -- the signature is on the vote's own `SignBytes`, which do not contain it
  obtain ⟨sig, hsig⟩ := hsign (peers[i]).pubkey
    ((newVote hdp.view hdp.round hdp.proposalHash [] i).signBytes c)
  refine ⟨{ newVote hdp.view hdp.round hdp.proposalHash [] i with sign := sig }, _, rfl, hslot,
    hw, addVote_of_valid rfl ?_ rfl rfl rfl hslot hw⟩
  rw [verify_natCast hkey]
  exact congrArg some hsig

/-- A sequence of votes that makes the OK side exactly `S`. -/
theorem exists_votes_of_subset (hsign : B.CanSign) (c : Codec PbVote) (view round : ℤ)
    (hash : Bytes) (S : Finset ℕ) (hS : S ⊆ validators peers) :
    ∃ vs, sideSet (addVotes B c (startPackage peers view round hash) vs) true = S ∧
      ∀ i, i ∉ S → slot (addVotes B c (startPackage peers view round hash) vs) i = none := by
  induction S using Finset.induction_on with
  | empty =>
    refine ⟨[], ?_, fun i _ => slot_startPackage peers view round hash i⟩
    ext i
    simp [mem_sideSet, addVotes, slot_startPackage]
  | @insert i S hi ih =>
    obtain ⟨vs, hside, hrest⟩ := ih fun j hj => hS (Finset.mem_insert_of_mem hj)
    have ht := tally_addVotes (B := B) (c := c) (tally_startPackage peers view round hash) vs
    have hlt : i < peers.length := Finset.mem_range.mp (hS (Finset.mem_insert_self i S))
    obtain ⟨v, w, hok, hslot, hw, hadd⟩ := exists_okVote hsign c ht hlt (hrest i hi)
    have hlast := addVotes_concat hadd
    refine ⟨vs ++ [v], ?_, fun j hj => ?_⟩
    · rw [hlast, sideSet_record true hslot, if_pos hok, hside]
    · rw [Finset.mem_insert, not_or] at hj
      rw [hlast, slot_record (List.getElem?_eq_some_iff.mp hslot).1, if_neg hj.1, hrest j hj.2]

/-- **When the quorum rule is safe.** `isQuorum` counts a side as soon as it reaches `2*W/3`
rounded down, so it is safe exactly for the weight lists in which no set of validators weighs
that much. -/
theorem quorumSafe_iff {B : Bls} (hsign : B.CanSign) (c : Codec PbVote) (peers : List Peer) :
    QuorumSafe B c peers ↔ NoSetAtFloor peers := by
  refine ⟨fun hsafe S hS hfloor => ?_, quorumSafe_of_noSetAtFloor B c⟩
  obtain ⟨vs, hside, -⟩ := exists_votes_of_subset hsign c 1 0 [] S hS
  have ht := tally_addVotes (B := B) (c := c) (tally_startPackage peers 1 0 []) vs
  have htotal : sideTotal (addVotes B c (startPackage peers 1 0 []) vs) true =
      2 * totalWeight peers / 3 := by
    rw [ht.side, hside, hfloor]
  have hreach : 2 * (addVotes B c (startPackage peers 1 0 []) vs).votesNeeded / 3 ≤
      sideTotal (addVotes B c (startPackage peers 1 0 []) vs) true := by
    rw [ht.needed, htotal]
  have hlt := hsafe.supermajority 1 0 [] vs true (isQuorum_iff.mpr ⟨true, hreach⟩) hreach
  rw [htotal] at hlt
  omega

/-- A stand-in for BLS in which the signature of a message is the key followed by the message. -/
def concatBls : Bls where
  verifyByte key sig msg := sig = key ++ msg
  aggregate sigs := some sigs.flatten

theorem concatBls_canSign : concatBls.CanSign := fun key msg => ⟨key ++ msg, by simp [concatBls]⟩

def peersOf (ws : List ℕ) : List Peer := ws.map fun w => ⟨[], w⟩

instance (peers : List Peer) : Decidable (NoSetAtFloor peers) :=
  decidable_of_iff (∀ S ∈ (validators peers).powerset,
    weight (weightAt peers) S ≠ 2 * totalWeight peers / 3) (by simp [NoSetAtFloor])

/-- With weights 5, 5 and 1 no set weighs 7, so the rule is safe there. -/
theorem quorumSafe_five_five_one : concatBls.CanSign ∧
    (QuorumSafe concatBls voteCodec (peersOf [5, 5, 1]) ↔ NoSetAtFloor (peersOf [5, 5, 1])) ∧
    NoSetAtFloor (peersOf [5, 5, 1]) :=
  ⟨concatBls_canSign, quorumSafe_iff concatBls_canSign voteCodec (peersOf [5, 5, 1]), by decide⟩

/-- The OK votes of the first two of three equal validators. -/
def twoOfThree : List Vote :=
  [0, 1].map fun i => { newVote 1 0 [7] [] i with
    sign := (newVote 1 0 [7] [] i).signBytes voteCodec }

/-- Two of three validators of weight 1 pass `isQuorum`, and two is not more than two thirds of
three. -/
theorem not_quorumSafe_three :
    isQuorum (addVotes concatBls voteCodec (startPackage (peersOf [1, 1, 1]) 1 0 [7])
      twoOfThree) = true ∧ ¬ QuorumSafe concatBls voteCodec (peersOf [1, 1, 1]) := by
  have hquorum : isQuorum (addVotes concatBls voteCodec
      (startPackage (peersOf [1, 1, 1]) 1 0 [7]) twoOfThree) = true := by decide
  refine ⟨hquorum, fun hsafe => ?_⟩
  have hlt := hsafe.supermajority 1 0 [7] twoOfThree true hquorum (by decide)
  exact absurd hlt (by decide)

end Emulator.HotStuff
