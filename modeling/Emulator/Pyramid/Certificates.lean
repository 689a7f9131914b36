import Emulator.Core.Aggregate
import Emulator.Core.Parts
import Emulator.Pyramid.Replica

/-!
# Certificates between shards

A shard shows another shard that it has decided a block by an aggregate of precommits. A
`CrossShardBlock` carries the block with the certificate, a `MessageAccept` and a `MessageCommit`
carry the hash of a cross-shard block with it. The handlers of `doMessage` and the checks of
`doPropose` verify the aggregated signature under the keys that the bit map selects, and nothing
else about the certificate.

* `supermajority_iff` — no weight is counted: the signers of every accepted certificate of a shard
  are a supermajority only if every single validator is one.
* `bound_iff` — the certificate is not compared with what it comes with: every accepted message is
  bound to its certificate only if no certificate is ever accepted.
-/

namespace Emulator.Pyramid

open HotStuff (AggregateBls Peer Verifier newVerifier weightAt validators totalWeight)

/-! ## Precommits and their aggregates -/

/-- The protobuf message `Precommit`. -/
structure PbPrecommit where
  voteType : ℕ
  validatorIndex : ℤ
  height : ℤ
  round : ℤ
  blockHeaderHash : Bytes
  signature : Str
  code : ℤ
  deriving DecidableEq, Repr

def voteTypePrecommit : ℕ := 3
def voteTypePrecommitAggregated : ℕ := 4

/-- `PrecommitAggregated`. A `nil` bit vector is `none`; every other one was made by `NewBitVector`
or `NewBitArrayFromByte`. -/
structure PrecommitAggregated where
  voteType : ℕ
  code : Int8
  validatorBitVector : Option BitVector
  header : PartSetHeader
  blockHeaderHash : Bytes
  aggregatedSignatures : Str
  wellFormed : ∀ bv ∈ validatorBitVector, bv.WellFormed

namespace PrecommitAggregated

variable (p : PrecommitAggregated)

/-- The bit vector, with the empty one for `nil`: its methods do the same on both. -/
def bits : BitVector := p.validatorBitVector.getD (BitVector.newBitVector 0)

theorem wellFormed_bits : p.bits.WellFormed := by
  unfold bits
  cases h : p.validatorBitVector with
  | none => exact BitVector.wellFormed_newBitVector 0
  | some bv => exact p.wellFormed bv h

def validateBasic : Bool :=
  p.voteType == voteTypePrecommitAggregated && p.validatorBitVector.isSome &&
    p.header.validateBasic && p.blockHeaderHash.length == Merkle.hashSize

def isOK : Bool := p.code = Minibank.codeTypeOK

/-- `p.Precommit().SignBytes()`: the bytes that the validators of `p` have signed. -/
def signBytes (c : Codec PbPrecommit) : Bytes :=
  c.marshal
    { code := p.code.toInt, voteType := voteTypePrecommit, height := p.header.height
      round := p.header.round, blockHeaderHash := p.blockHeaderHash, signature := []
      validatorIndex := -1 }

/-- `VerifySignatures` with the bytes of the bit vector. These are read back, so the panic of
`VerifyAggregateSignature` does not occur. -/
def verifySignatures (B : AggregateBls) (c : Codec PbPrecommit) (verifier : Option Verifier) : Bool :=
  match verifier with
  | none => false
  | some v => v.verifyAggregateSignature B p.aggregatedSignatures (p.signBytes c) p.bits.byte ==
      some true

end PrecommitAggregated

/-- `NewPrecommitAggregated`, with the code that `SetCode` puts in. -/
def newPrecommitAggregated (bv : BitVector) (hbv : bv.WellFormed) (header : PartSetHeader)
    (code : Int8) (hash : Bytes) (sig : Str) : PrecommitAggregated where
  voteType := voteTypePrecommitAggregated
  code := code
  validatorBitVector := some bv
  header := header
  blockHeaderHash := hash
  aggregatedSignatures := sig
  wellFormed := by simp [hbv]

structure CrossShardBlock where
  block : Block
  collectiveSignatures : PrecommitAggregated

structure MessageAccept where
  bBlockHash : Bytes
  collectiveSignatures : PrecommitAggregated

structure MessageAcceptSet where
  accepts : List MessageAccept
  blockHash : Bytes

structure MessageCommit where
  bBlockHash : Bytes
  collectiveSignatures : PrecommitAggregated

/-! ## The node -/

/-- What a node of `shard` knows: the shards around it, with their validators (`PeerList`) and the
ones that are related to it, and the libraries. -/
structure Surroundings where
  shard : Str
  net : Network
  peerList : Str → Option (List Peer)
  /-- the keys of the map `RelatedShards` -/
  relatedShards : List Str
  bls : AggregateBls
  precommit : Codec PbPrecommit
  /-- `NewCrossShardBlockFromBytes` -/
  crossShardBlock : Bytes → Option CrossShardBlock
  /-- `NewMessageAcceptSetFromBytes` -/
  messageAcceptSet : Bytes → Option MessageAcceptSet
  /-- `NewMessageCommitFromBytes` -/
  messageCommit : Bytes → Option MessageCommit

/-- The parts of the state of a node that these messages change. `replica` holds its block store and
the heights of the I shards. -/
structure CrossState where
  replica : Network.BNode
  crossShardBlockPool : Bytes → Option CrossShardBlock
  commitPool : Bytes → Option MessageCommit
  committed : Bytes → Bool
  /-- `none` is `nil` -/
  pendingCrossShardBlockHash : Option Bytes
  maCount : ℤ
  /-- `none` is `nil`: writing to it panics -/
  maPool : Option (Str → Option MessageAccept)

/-- `NewConsensusState`. -/
def newCrossState : CrossState where
  replica := { app := ⟨fun _ => none, fun _ => none, fun _ => none, fun _ => false⟩, heights := []
               shardHeight := fun _ => 0 }
  crossShardBlockPool := fun _ => none
  commitPool := fun _ => none
  committed := fun _ => false
  pendingCrossShardBlockHash := none
  maCount := -1
  maPool := none

/-- What `doMessage` makes of a message. -/
inductive Reply
  /-- it returns an error -/
  | refused
  /-- it returns without doing anything -/
  | ignored
  | panic
  /-- the message has taken effect, and `handleStateTransition` is called -/
  | accepted (s : CrossState)

/-- The state after a message that has taken effect. -/
def Reply.state? : Reply → Option CrossState
  | .accepted s => some s
  | _ => none

namespace Surroundings

variable (cfg : Surroundings)

def isIShard : Bool := cfg.shard != cfg.net.bShard

/-- The network, with the decoders of these messages. -/
def network : Network :=
  { cfg.net with
    crossShardBlock := fun bz => (cfg.crossShardBlock bz).map CrossShardBlock.block
    messageCommit := fun bz =>
      (cfg.messageCommit bz).map fun mc => (mc.bBlockHash, mc.collectiveSignatures.isOK) }

def allValidatorSet (chainID : Str) : Option Verifier := (cfg.peerList chainID).map newVerifier

/-- `VerifySignatures` with the verifier of the shard that the certificate names. -/
def verifies (p : PrecommitAggregated) : Bool :=
  p.verifySignatures cfg.bls cfg.precommit (cfg.allValidatorSet p.header.chainID)

def onCrossShardBlock (s : CrossState) (m : CrossShardBlock) : Reply :=
  let chainID := m.collectiveSignatures.header.chainID
  let hash := cfg.net.blockHash m.block
  if chainID ∉ cfg.relatedShards then .refused
  else if (s.replica.app.blocks hash).isSome then .ignored
  else if !cfg.verifies m.collectiveSignatures then .refused
  else if cfg.isIShard then
    .accepted { s with crossShardBlockPool := Function.update s.crossShardBlockPool hash (some m) }
  else
    let b := s.replica.setBlockByHeight m.collectiveSignatures.header.height chainID hash m.block
    match cfg.network.catchUp chainID m.collectiveSignatures.isOK b.heights.length b with
    | none => .panic
    | some b => .accepted { s with replica := b }

def onMessageAccept (s : CrossState) (m : MessageAccept) : Reply :=
  let chainID := m.collectiveSignatures.header.chainID
  if cfg.isIShard then .refused
  else if m.bBlockHash ≠ s.pendingCrossShardBlockHash.getD [] then .ignored
  else if !cfg.verifies m.collectiveSignatures then .refused
  else match s.maPool with
    | none => .panic
    | some maPool =>
      if (maPool chainID).isSome then .ignored
      else .accepted { s with
        maCount := s.maCount - 1
        maPool := some (Function.update maPool chainID (some m)) }

def onMessageCommit (s : CrossState) (m : MessageCommit) : Reply :=
  if !cfg.isIShard then .refused
  else if s.committed m.bBlockHash then .ignored
  else if !cfg.verifies m.collectiveSignatures then .refused
  else .accepted { s with commitPool := Function.update s.commitPool m.bBlockHash (some m) }

/-- A certificate inside a proposed block: it names a related shard and verifies. -/
def checks (p : PrecommitAggregated) : Bool :=
  cfg.relatedShards.contains p.header.chainID && cfg.verifies p

/-- The checks of `doPropose`, with the flag of the prevote. `none` is a panic, mostly
"Byzantine error". (`PreExecutionB` of the application returns OK on every block.) -/
def doPropose (s : CrossState) (block : Block) : Option Bool :=
  if !cfg.isIShard then
    match block.blockType with
    | .innerShard => some true
    | .crossShard => some true
    | .bCommitBlock =>
      match block.bodyTxs with
      | [tx] => do
        let ba ← cfg.messageAcceptSet tx
        if s.pendingCrossShardBlockHash.getD [] ≠ ba.blockHash then none
        else if ba.accepts.length ≠ cfg.relatedShards.length then none
        else if !ba.accepts.all fun ma => cfg.checks ma.collectiveSignatures then none
        else some (ba.accepts.all fun ma => ma.collectiveSignatures.isOK)
      | _ => none
    | _ => none
  else
    match block.blockType with
    | .innerShard => some true
    | .iAcceptBlock =>
      match block.bodyTxs with
      | [tx] => do
        let m ← cfg.crossShardBlock tx
        if !cfg.checks m.collectiveSignatures then none
        else match (Minibank.preExecutionI (cfg.network.app cfg.shard) m.block s.replica.app).1 with
          | .ok ok => some ok
          | .error _ => none
      | _ => none
    | .iCommitBlock => do
      let mcs ← block.bodyTxs.mapM cfg.messageCommit
      if !mcs.all fun mc => cfg.checks mc.collectiveSignatures then none
      else some true
    | _ => none

/-- The certificates that a node accepts in some state: with a message that takes effect, or inside
a block that `doPropose` goes on with. -/
inductive Accepts : PrecommitAggregated → Prop
  | crossShardBlock {s s' : CrossState} {m : CrossShardBlock}
      (h : (cfg.onCrossShardBlock s m).state? = some s') : Accepts m.collectiveSignatures
  | messageAccept {s s' : CrossState} {m : MessageAccept}
      (h : (cfg.onMessageAccept s m).state? = some s') : Accepts m.collectiveSignatures
  | messageCommit {s s' : CrossState} {m : MessageCommit}
      (h : (cfg.onMessageCommit s m).state? = some s') : Accepts m.collectiveSignatures
  | proposedAccepts {s : CrossState} {block : Block} {vote : Bool} {tx : Bytes}
      {ba : MessageAcceptSet} {ma : MessageAccept} (h : cfg.doPropose s block = some vote)
      (hB : cfg.isIShard = false) (htype : block.blockType = .bCommitBlock)
      (htx : tx ∈ block.bodyTxs) (hba : cfg.messageAcceptSet tx = some ba)
      (hma : ma ∈ ba.accepts) : Accepts ma.collectiveSignatures
  | proposedBlock {s : CrossState} {block : Block} {vote : Bool} {tx : Bytes}
      {m : CrossShardBlock} (h : cfg.doPropose s block = some vote) (hI : cfg.isIShard = true)
      (htype : block.blockType = .iAcceptBlock) (htx : tx ∈ block.bodyTxs)
      (hm : cfg.crossShardBlock tx = some m) : Accepts m.collectiveSignatures
  | proposedCommit {s : CrossState} {block : Block} {vote : Bool} {tx : Bytes}
      {mc : MessageCommit} (h : cfg.doPropose s block = some vote) (hI : cfg.isIShard = true)
      (htype : block.blockType = .iCommitBlock) (htx : tx ∈ block.bodyTxs)
      (hmc : cfg.messageCommit tx = some mc) : Accepts mc.collectiveSignatures

/-! ## What acceptance means -/

variable {cfg} {peers : List Peer} {s s' : CrossState} {i : ℕ} {chainID : Str}
  {p : PrecommitAggregated}

/-- The signature verifies under the sum of the keys that the bit vector selects. -/
theorem verifies_iff : cfg.verifies p = true ↔
    ∃ peers, cfg.peerList p.header.chainID = some peers ∧ peers.length = p.bits.size ∧
      cfg.bls.verifyByte (cfg.bls.sumKeys ((newVerifier peers).selected p.bits))
        p.aggregatedSignatures (p.signBytes cfg.precommit) = true := by
  unfold verifies allValidatorSet PrecommitAggregated.verifySignatures
  cases h : cfg.peerList p.header.chainID with
  | none => simp
  | some peers =>
    have hlen : (newVerifier peers).publicKeys.length = peers.length := List.length_map ..
    simp only [Option.map_some, Verifier.verifyAggregateSignature,
      BitVector.newBitArrayFromByte_byte p.wellFormed_bits, hlen, beq_iff_eq, Option.some.injEq,
      exists_eq_left']
    by_cases hsize : peers.length = p.bits.size <;> simp [hsize]

theorem verifies_of_checks (h : cfg.checks p = true) : cfg.verifies p = true :=
  (Bool.and_eq_true_iff.mp h).2

/-- A `CrossShardBlock` that takes effect names a related shard, and its certificate verifies. -/
theorem of_onCrossShardBlock {m : CrossShardBlock}
    (h : (cfg.onCrossShardBlock s m).state? = some s') :
    m.collectiveSignatures.header.chainID ∈ cfg.relatedShards ∧
      cfg.verifies m.collectiveSignatures = true := by
  unfold onCrossShardBlock at h
  dsimp only at h
  split_ifs at h with hrel hstored hver hI
  · cases h
  · cases h
  · exact ⟨hrel, by simpa using hver⟩
  · exact ⟨hrel, by simpa using hver⟩
  · cases h

theorem of_onMessageAccept {m : MessageAccept} (h : (cfg.onMessageAccept s m).state? = some s') :
    cfg.isIShard = false ∧ cfg.verifies m.collectiveSignatures = true := by
  unfold onMessageAccept at h
  split_ifs at h with hI hpending hver
  · cases h
  · cases h
  · cases h
  · exact ⟨by simpa using hI, by simpa using hver⟩

theorem of_onMessageCommit {m : MessageCommit} (h : (cfg.onMessageCommit s m).state? = some s') :
    cfg.isIShard = true ∧ cfg.verifies m.collectiveSignatures = true := by
  unfold onMessageCommit at h
  split_ifs at h with hI hcommitted hver
  · cases h
  · cases h
  · cases h
  · exact ⟨by simpa using hI, by simpa using hver⟩

/-- The only thing that every accepted certificate has passed. -/
theorem Accepts.verifies (h : cfg.Accepts p) : cfg.verifies p = true := by
  cases h with
  | crossShardBlock h => exact (of_onCrossShardBlock h).2
  | messageAccept h => exact (of_onMessageAccept h).2
  | messageCommit h => exact (of_onMessageCommit h).2
  | @proposedAccepts s block vote tx ba ma h hB htype htx hba hma =>
    unfold doPropose at h
    simp only [hB, htype, Bool.not_false, if_true] at h
    split at h
    · next tx' hbody =>
      rw [hbody, List.mem_singleton] at htx
      subst htx
      obtain ⟨ba', hba', h⟩ := Option.bind_eq_some_iff.mp h
      obtain rfl := Option.some.inj (hba.symm.trans hba')
      split_ifs at h with hpending hlen hall
      have hall' : ba.accepts.all (fun ma => cfg.checks ma.collectiveSignatures) = true := by
        simpa using hall
      exact verifies_of_checks (List.all_eq_true.mp hall' ma hma)
    · cases h
  | @proposedBlock s block vote tx m h hI htype htx hm =>
    unfold doPropose at h
    simp only [hI, htype, Bool.not_true, Bool.false_eq_true, if_false] at h
    split at h
    · next tx' hbody =>
      rw [hbody, List.mem_singleton] at htx
      subst htx
      obtain ⟨m', hm', h⟩ := Option.bind_eq_some_iff.mp h
      obtain rfl := Option.some.inj (hm.symm.trans hm')
      split_ifs at h with hcheck
      exact verifies_of_checks (by simpa using hcheck)
    · cases h
  | @proposedCommit s block vote tx mc h hI htype htx hmc =>
    unfold doPropose at h
    simp only [hI, htype, Bool.not_true, Bool.false_eq_true, if_false] at h
    obtain ⟨mcs, hmcs, h⟩ := Option.bind_eq_some_iff.mp h
    split_ifs at h with hall
    have hall' : mcs.all (fun mc => cfg.checks mc.collectiveSignatures) = true := by
      simpa using hall
    obtain ⟨mc', hmem, hdec⟩ := exists_mem_of_mapM hmcs htx
    obtain rfl := Option.some.inj (hmc.symm.trans hdec)
    exact verifies_of_checks (List.all_eq_true.mp hall' mc hmem)

/-! ## Certificates of a single validator -/

/-- The validators of the list can sign every message. -/
def CanSign (cfg : Surroundings) (peers : List Peer) : Prop :=
  ∀ peer ∈ peers, ∀ msg, ∃ sig, cfg.bls.verifyByte (cfg.bls.sumKeys [peer.pubkey]) sig msg = true

/-- No signature verifies on the bytes of a precommit under no key. -/
def NoKeyless (cfg : Surroundings) : Prop :=
  ∀ p : PrecommitAggregated,
    cfg.bls.verifyByte (cfg.bls.sumKeys []) p.aggregatedSignatures (p.signBytes cfg.precommit) = false

/-- The bit vector of validator `i` alone. -/
def single (n i : ℕ) : BitVector := (BitVector.newBitVector n).setIndex i true

theorem wellFormed_single (n i : ℕ) : (single n i).WellFormed :=
  (BitVector.wellFormed_newBitVector n).setIndex i true

theorem getIndex_single {n : ℕ} (hi : i < n) (j : ℕ) :
    (single n i).getIndex j = decide (i = j) := by
  unfold single
  rw [BitVector.getIndex_setIndex_true (BitVector.wellFormed_newBitVector n) hi,
    BitVector.getIndex_newBitVector, Bool.or_false]

theorem size_single (n i : ℕ) : (single n i).size = n := BitVector.bits_setIndex ..

theorem filter_zipIdx_eq {α : Type} (l : List α) (k i : ℕ) (hi : i < l.length) :
    (l.zipIdx k).filter (fun a => decide (k + i = a.2)) = [(l[i], k + i)] := by
  induction l generalizing k i with
  | nil => cases hi
  | cons a l ih =>
    rw [List.zipIdx_cons]
    cases i with
    | zero =>
      have hrest : (l.zipIdx (k + 1)).filter (fun a => decide (k + 0 = a.2)) = [] := by
        refine List.filter_eq_nil_iff.mpr fun x hx => ?_
        have := List.le_snd_of_mem_zipIdx hx
        simp only [decide_eq_true_eq]
        omega
      rw [List.filter_cons, if_pos (by simp), hrest]
      rfl
    | succ i =>
      rw [List.filter_cons, if_neg (by simp)]
      have h := ih (k + 1) i (Nat.lt_of_succ_lt_succ hi)
      rw [show k + (i + 1) = k + 1 + i by omega]
      exact h

theorem selected_single (hi : i < peers.length) :
    (newVerifier peers).selected (single peers.length i) = [peers[i].pubkey] := by
  have hkeys : i < (newVerifier peers).publicKeys.length := by
    rwa [newVerifier, List.length_map]
  have h := filter_zipIdx_eq (newVerifier peers).publicKeys 0 i hkeys
  simp only [Nat.zero_add] at h
  unfold Verifier.selected
  simp only [getIndex_single hi]
  rw [h]
  simp [newVerifier]

/-- Every validator can make a certificate that verifies, for every header, code and hash. -/
theorem exists_verifies_single (hsign : cfg.CanSign peers) (hi : i < peers.length)
    (header : PartSetHeader) (hknown : cfg.peerList header.chainID = some peers) (code : Int8)
    (hash : Bytes) :
    ∃ sig, cfg.verifies (newPrecommitAggregated (single peers.length i) (wellFormed_single _ _) header
      code hash sig) = true := by
  obtain ⟨sig, hsig⟩ := hsign peers[i] (List.getElem_mem hi)
    ((newPrecommitAggregated (single peers.length i) (wellFormed_single _ _) header code hash
      []).signBytes cfg.precommit)
  refine ⟨sig, verifies_iff.mpr ⟨peers, hknown, (size_single _ _).symm, ?_⟩⟩
  rw [← selected_single hi] at hsig
  exact hsig

/-- A certificate that no validator has signed. -/
def keyless (n : ℕ) (chainID : Str) (p : PrecommitAggregated) : PrecommitAggregated :=
  newPrecommitAggregated (BitVector.newBitVector n) (BitVector.wellFormed_newBitVector n)
    { p.header with chainID } p.code p.blockHeaderHash p.aggregatedSignatures

theorem verifies_keyless (hknown : cfg.peerList chainID = some peers)
    (h : cfg.bls.verifyByte (cfg.bls.sumKeys []) p.aggregatedSignatures
      (p.signBytes cfg.precommit) = true) :
    cfg.verifies (keyless peers.length chainID p) = true := by
  refine verifies_iff.mpr ⟨peers, hknown, rfl, ?_⟩
  rw [← HotStuff.selected_newBitVector (newVerifier peers) peers.length] at h
  exact h

/-- No certificate of a shard verifies exactly when it has no validators and nothing verifies under
no key. -/
theorem forall_not_verifies_iff (hknown : cfg.peerList chainID = some peers)
    (hsign : cfg.CanSign peers) :
    (∀ p, p.header.chainID = chainID → cfg.verifies p = false) ↔ peers = [] ∧ cfg.NoKeyless := by
  constructor
  · intro h
    constructor
    · by_contra hne
      obtain ⟨sig, hsig⟩ := exists_verifies_single hsign (List.length_pos_of_ne_nil hne)
        ⟨0, 0, 0, [], chainID⟩ hknown 0 []
      rw [h _ rfl] at hsig
      cases hsig
    · intro p
      by_contra hp
      have hver := verifies_keyless hknown (Bool.eq_true_of_not_eq_false hp)
      rw [h _ rfl] at hver
      cases hver
  · rintro ⟨rfl, hno⟩ p rfl
    by_contra hp
    obtain ⟨peers, hpeers, -, hver⟩ := verifies_iff.mp (Bool.eq_true_of_not_eq_false hp)
    obtain rfl := Option.some.inj (hknown.symm.trans hpeers)
    have hp := hno p
    rw [show (newVerifier []).selected p.bits = [] from rfl, hp] at hver
    cases hver

/-- With a certificate that verifies, an I shard takes every hash that is not committed, -/
theorem onMessageCommit_of_verifies {m : MessageCommit} (hI : cfg.isIShard = true)
    (hnew : s.committed m.bBlockHash = false) (h : cfg.verifies m.collectiveSignatures = true) :
    ∃ s', (cfg.onMessageCommit s m).state? = some s' := by
  unfold onMessageCommit
  rw [hI, hnew, h]
  exact ⟨_, rfl⟩

/-- and a B shard the hash it waits for. -/
theorem onMessageAccept_of_verifies {m : MessageAccept} (hB : cfg.isIShard = false)
    (h : cfg.verifies m.collectiveSignatures = true) :
    ∃ s', (cfg.onMessageAccept { newCrossState with
      pendingCrossShardBlockHash := some m.bBlockHash, maPool := some fun _ => none }
      m).state? = some s' := by
  unfold onMessageAccept
  rw [hB, h]
  exact ⟨_, by simp [Reply.state?]; rfl⟩

theorem accepts_of_verifies (h : cfg.verifies p = true) : cfg.Accepts p := by
  cases hI : cfg.isIShard with
  | true =>
    obtain ⟨s', hs'⟩ := onMessageCommit_of_verifies (s := newCrossState) (m := ⟨[], p⟩) hI rfl h
    exact .messageCommit hs'
  | false =>
    obtain ⟨s', hs'⟩ := onMessageAccept_of_verifies (m := ⟨[], p⟩) hI h
    exact .messageAccept hs'

/-! ## Weight -/

/-- The validators that the bit vector of a certificate names. -/
def signers (peers : List Peer) (p : PrecommitAggregated) : Finset ℕ :=
  (validators peers).filter fun i => p.bits.getIndex i = true

theorem exists_mem_signers (h : (newVerifier peers).selected p.bits ≠ []) :
    ∃ i ∈ validators peers, i ∈ signers peers p := by
  obtain ⟨key, hkey⟩ := List.exists_mem_of_ne_nil _ h
  obtain ⟨⟨key', i⟩, hmem, rfl⟩ := List.mem_map.mp hkey
  obtain ⟨hzip, hbit⟩ := List.mem_filter.mp hmem
  have hi : i < peers.length := by
    have := List.snd_lt_of_mem_zipIdx hzip
    simpa [newVerifier] using this
  have hv : i ∈ validators peers := Finset.mem_range.mpr hi
  exact ⟨i, hv, Finset.mem_filter.mpr ⟨hv, hbit⟩⟩

theorem signers_single (hi : i < peers.length) (header : PartSetHeader) (code : Int8) (hash : Bytes)
    (sig : Str) :
    signers peers (newPrecommitAggregated (single peers.length i) (wellFormed_single _ _) header code
      hash sig) = {i} := by
  ext j
  have hbit : (single peers.length i).getIndex j = true ↔ j = i := by
    rw [getIndex_single hi, decide_eq_true_eq, eq_comm]
  show j ∈ (validators peers).filter (fun i' => (single peers.length i).getIndex i' = true) ↔ _
  rw [Finset.mem_filter, hbit, Finset.mem_singleton]
  constructor
  · exact fun h => h.2
  · rintro rfl
    exact ⟨Finset.mem_range.mpr hi, rfl⟩

theorem signers_keyless (peers : List Peer) (n : ℕ) (chainID : Str) (p : PrecommitAggregated) :
    signers peers (keyless n chainID p) = ∅ := by
  refine Finset.filter_eq_empty_iff.mpr fun i _ => ?_
  show ¬(BitVector.newBitVector n).getIndex i = true
  rw [BitVector.getIndex_newBitVector]
  exact Bool.false_ne_true

theorem forall_weightAt_pos :
    (∀ i ∈ validators peers, 0 < weightAt peers i) ↔ ∀ peer ∈ peers, 0 < peer.vote := by
  have hget (i : ℕ) (hi : i < peers.length) : weightAt peers i = peers[i].vote := by
    simp [weightAt, HotStuff.perVotes, hi]
  constructor
  · intro h peer hpeer
    obtain ⟨i, hi, rfl⟩ := List.getElem_of_mem hpeer
    rw [← hget i hi]
    exact h i (Finset.mem_range.mpr hi)
  · intro h i hi
    have hi := Finset.mem_range.mp hi
    rw [hget i hi]
    exact h _ (List.getElem_mem hi)

/-- **No weight is counted.** The signers of every accepted certificate of a shard hold more than
two thirds of its weight exactly when the shard has at most one validator, which has weight, and
nothing verifies under no key. -/
theorem supermajority_iff {chainID : Str} {peers : List Peer}
    (hknown : cfg.peerList chainID = some peers) (hsign : cfg.CanSign peers) :
    (∀ p, cfg.Accepts p → p.header.chainID = chainID →
      Quorum.Supermajority (weightAt peers) (totalWeight peers) (signers peers p)) ↔
      peers.length ≤ 1 ∧ (∀ peer ∈ peers, 0 < peer.vote) ∧ cfg.NoKeyless := by
  have hsingle := Quorum.forall_supermajority_singleton_iff (w := weightAt peers)
    (u := validators peers)
  rw [show (validators peers).card = peers.length from Finset.card_range _, forall_weightAt_pos]
    at hsingle
  rw [← and_assoc, ← hsingle]
  constructor
  · intro h
    constructor
    · intro i hi
      have hi := Finset.mem_range.mp hi
      obtain ⟨sig, hsig⟩ := exists_verifies_single hsign hi ⟨0, 0, 0, [], chainID⟩ hknown 0 []
      have hheavy := h _ (accepts_of_verifies hsig) rfl
      rwa [signers_single hi] at hheavy
    · intro p
      by_contra hp
      have hver := verifies_keyless hknown (Bool.eq_true_of_not_eq_false hp)
      have hheavy := h _ (accepts_of_verifies hver) rfl
      rw [signers_keyless] at hheavy
      exact absurd hheavy (Nat.not_lt_zero _)
  · rintro ⟨hheavy, hno⟩ p hp rfl
    obtain ⟨peers', hpeers', -, hver⟩ := verifies_iff.mp hp.verifies
    obtain rfl := Option.some.inj (hknown.symm.trans hpeers')
    have hne : (newVerifier peers).selected p.bits ≠ [] := by
      intro hnil
      rw [hnil, hno p] at hver
      cases hver
    obtain ⟨i, hi, hmem⟩ := exists_mem_signers hne
    exact (hheavy i hi).mono (Finset.singleton_subset_iff.mpr hmem)

def precommitCodec : Codec PbPrecommit where
  marshal p := Wire.encode (Wire.numField 1 p.voteType ++ Wire.intField 2 p.validatorIndex ++
    Wire.intField 3 p.height ++ Wire.intField 4 p.round ++ Wire.bytesField 5 p.blockHeaderHash ++
    Wire.bytesField 6 p.signature ++ Wire.intField 7 p.code)
  unmarshal bz := (Wire.decode bz).map fun fs =>
    { voteType := Wire.number 1 fs, validatorIndex := Wire.signed 2 fs, height := Wire.signed 3 fs
      round := Wire.signed 4 fs, blockHeaderHash := (Wire.payloads 5 fs).getLastD []
      signature := (Wire.payloads 6 fs).getLastD [], code := Wire.signed 7 fs }

/-- A certificate of the B shard for the block with the given hash, signed by the validators `ids`
of the three it has. -/
def certificateBy (ids : List UInt8) (hash : Bytes) : PrecommitAggregated :=
  let unsigned := newPrecommitAggregated
    (ids.foldl (fun bv i => bv.setIndex i.toNat true) (BitVector.newBitVector 3))
    (ids.foldlRecOn (motive := BitVector.WellFormed) (fun bv i => bv.setIndex i.toNat true)
      (BitVector.wellFormed_newBitVector 3) fun _ h i _ => h.setIndex i.toNat true)
    ⟨2, 0, 1, List.replicate 32 0, [66]⟩ Minibank.codeTypeOK hash []
  { unsigned with
    aggregatedSignatures :=
      (ids.map fun i => HotStuff.wireSign i (unsigned.signBytes precommitCodec)).flatten }

/-- The block hash of a block within the B shard. -/
def innerHash : Bytes := List.replicate 32 7

/-- The nodes of two I shards and a B shard, each shard with three validators of weight 1. -/
def wireNode (shard : Str) : Surroundings where
  shard := shard
  net := twoIShards
  peerList chainID := if chainID ∈ [[66], [1], [2]] then some HotStuff.wirePeers else none
  relatedShards := if shard = [66] then [[1], [2]] else [[66]]
  bls := HotStuff.wireBls
  precommit := precommitCodec
  crossShardBlock _ := none
  messageAcceptSet _ := none
  messageCommit bz := if bz = [2] then some ⟨[66, 1], certificateBy [1] innerHash⟩ else none

theorem canSign_wireNode (shard : Str) : (wireNode shard).CanSign HotStuff.wirePeers := by
  intro peer hpeer msg
  obtain ⟨i, -, rfl⟩ := List.mem_map.mp hpeer
  exact ⟨HotStuff.wireSign i msg, HotStuff.verifyByte_wireSign i msg⟩

/-- Three validators are too many. -/
theorem not_supermajority_wireNode :
    ¬∀ p, (wireNode [1]).Accepts p → p.header.chainID = [66] →
      Quorum.Supermajority (weightAt HotStuff.wirePeers) (totalWeight HotStuff.wirePeers)
        (signers HotStuff.wirePeers p) := fun h =>
  have hknown : (wireNode [1]).peerList [66] = some HotStuff.wirePeers := rfl
  absurd ((supermajority_iff hknown (canSign_wireNode [1])).mp h).1 (by decide)

/-- One of three validators makes a certificate that an I shard takes, with a `MessageCommit` and in
a proposed block. -/
theorem oneSigner_accepted :
    (certificateBy [1] innerHash).validateBasic = true ∧
    ((wireNode [1]).onMessageCommit newCrossState
      ⟨[66, 1], certificateBy [1] innerHash⟩).state?.isSome = true ∧
    (wireNode [1]).doPropose newCrossState (commitBlock [1]) = some true ∧
    signers HotStuff.wirePeers (certificateBy [1] innerHash) = {1} ∧
    ¬Quorum.Supermajority (weightAt HotStuff.wirePeers) (totalWeight HotStuff.wirePeers) {1} := by
  refine ⟨by decide +kernel, by decide +kernel, by decide +kernel, by decide +kernel, ?_⟩
  unfold Quorum.Supermajority
  decide +kernel

/-! ## What a certificate is about -/

/-- The block of the message is the one that was certified. -/
def BlockBound (cfg : Surroundings) (m : CrossShardBlock) : Prop :=
  cfg.net.blockHash m.block = m.collectiveSignatures.blockHeaderHash ∧
    m.block.chainID = m.collectiveSignatures.header.chainID ∧
    m.block.height = m.collectiveSignatures.header.height

/-- The cross-shard block that an IAccept block accepts. -/
def acceptedHash (cfg : Surroundings) (b : Block) : Option Bytes :=
  if b.blockType = .iAcceptBlock then
    (b.bodyTxs.head?.bind cfg.crossShardBlock).map fun m => cfg.net.blockHash m.block
  else none

/-- The cross-shard block that a BCommit block commits. -/
def committedHash (cfg : Surroundings) (b : Block) : Option Bytes :=
  if b.blockType = .bCommitBlock then
    (b.bodyTxs.head?.bind cfg.messageAcceptSet).map MessageAcceptSet.blockHash
  else none

/-- The certificate is for one of the blocks `S`, and this block is about `hash`. -/
def Certifies (cfg : Surroundings) (S : Set Block) (about : Block → Option Bytes)
    (p : PrecommitAggregated) (hash : Bytes) : Prop :=
  ∃ b ∈ S, cfg.net.blockHash b = p.blockHeaderHash ∧ about b = some hash

/-- A shard from which no certificate can verify. -/
def Silent (cfg : Surroundings) (chainID : Str) : Prop :=
  ∀ peers, cfg.peerList chainID = some peers → peers = [] ∧ cfg.NoKeyless

theorem silent_iff (hsign : ∀ peers, cfg.peerList chainID = some peers → cfg.CanSign peers) :
    cfg.Silent chainID ↔ ∀ p, p.header.chainID = chainID → cfg.verifies p = false := by
  unfold Silent
  cases hknown : cfg.peerList chainID with
  | none =>
    refine iff_of_true (fun _ h => by cases h) fun p hp => ?_
    by_contra hver
    obtain ⟨peers, hpeers, -⟩ := verifies_iff.mp (Bool.eq_true_of_not_eq_false hver)
    rw [hp, hknown] at hpeers
    cases hpeers
  | some peers =>
    rw [forall_not_verifies_iff hknown (hsign peers hknown)]
    simp

theorem exists_not_certifies {S : Set Block} (hS : S.InjOn cfg.net.blockHash)
    (about : Block → Option Bytes) (p : PrecommitAggregated) :
    ∃ hash, ¬cfg.Certifies S about p hash := by
  by_cases h : cfg.Certifies S about p []
  · obtain ⟨b, hb, hhash, habout⟩ := h
    refine ⟨[0], ?_⟩
    rintro ⟨b', hb', hhash', habout'⟩
    obtain rfl := hS hb hb' (hhash.trans hhash'.symm)
    rw [habout] at habout'
    cases habout'
  · exact ⟨[], h⟩

/-- With a certificate that verifies, every block that is not stored is taken. -/
theorem onCrossShardBlock_of_verifies {m : CrossShardBlock}
    (hrel : m.collectiveSignatures.header.chainID ∈ cfg.relatedShards)
    (h : cfg.verifies m.collectiveSignatures = true) :
    ∃ s s', (cfg.onCrossShardBlock s m).state? = some s' := by
  -- an I shard collects it; a B shard that is at its height stores it and has nothing to process
  refine ⟨{ newCrossState with
    replica.shardHeight := fun _ => m.collectiveSignatures.header.height }, ?_⟩
  unfold onCrossShardBlock
  simp only [hrel, not_true_eq_false, if_false, newCrossState, Option.isSome_none,
    Bool.false_eq_true, h, Bool.not_true]
  split_ifs
  · exact ⟨_, rfl⟩
  · have hne : ((m.collectiveSignatures.header.height + 1, m.collectiveSignatures.header.chainID) ==
        (m.collectiveSignatures.header.height, m.collectiveSignatures.header.chainID)) = false :=
      beq_false_of_ne (by simp)
    simp only [Network.BNode.setBlockByHeight, List.length_singleton, Network.catchUp,
      Network.BNode.nextBlock, Network.BNode.getBlockByHeight, List.lookup_cons, hne,
      List.lookup_nil, Option.bind_none]
    exact ⟨_, rfl⟩

/-- **Certificates are not bound to what they come with.** Whatever the state, every accepted
message is about what its certificate certifies exactly when no certificate that could come with
such a message verifies. -/
theorem bound_iff {S : Set Block} (hS : S.InjOn cfg.net.blockHash)
    (hsign : ∀ chainID peers, cfg.peerList chainID = some peers → cfg.CanSign peers) :
    ((∀ s m s', (cfg.onCrossShardBlock s m).state? = some s' → cfg.BlockBound m) ↔
      ∀ chainID ∈ cfg.relatedShards, cfg.Silent chainID) ∧
    ((∀ s m s', (cfg.onMessageAccept s m).state? = some s' →
      cfg.Certifies S cfg.acceptedHash m.collectiveSignatures m.bBlockHash) ↔
      cfg.isIShard = true ∨ ∀ chainID, cfg.Silent chainID) ∧
    ((∀ s m s', (cfg.onMessageCommit s m).state? = some s' →
      cfg.Certifies S cfg.committedHash m.collectiveSignatures m.bBlockHash) ↔
      cfg.isIShard = false ∨ ∀ chainID, cfg.Silent chainID) := by
  have hsilent (chainID : Str) := silent_iff (hsign chainID)
  simp only [hsilent]
  refine ⟨⟨?_, ?_⟩, ⟨?_, ?_⟩, ⟨?_, ?_⟩⟩
  · rintro h chainID hrel p rfl
    by_contra hp
    have hver := Bool.eq_true_of_not_eq_false hp
    -- a block of another shard with the certificate
    obtain ⟨s, s', hs'⟩ := onCrossShardBlock_of_verifies
      (m := ⟨emptyBlock .crossShard (0 :: p.header.chainID) 0, p⟩) hrel hver
    exact List.cons_ne_self _ _ (h _ _ _ hs').2.1
  · intro h s m s' hs'
    obtain ⟨hrel, hver⟩ := of_onCrossShardBlock hs'
    rw [h _ hrel _ rfl] at hver
    cases hver
  · intro h
    rcases Bool.eq_false_or_eq_true cfg.isIShard with hI | hB
    · exact .inl hI
    · refine .inr ?_
      rintro chainID p rfl
      by_contra hp
      obtain ⟨hash, hhash⟩ := exists_not_certifies hS cfg.acceptedHash p
      obtain ⟨s', hs'⟩ := onMessageAccept_of_verifies (m := ⟨hash, p⟩) hB
        (Bool.eq_true_of_not_eq_false hp)
      exact hhash (h _ _ _ hs')
  · intro h s m s' hs'
    obtain ⟨hB, hver⟩ := of_onMessageAccept hs'
    rcases h with hI | h
    · rw [hB] at hI
      cases hI
    · rw [h _ _ rfl] at hver
      cases hver
  · intro h
    rcases Bool.eq_false_or_eq_true cfg.isIShard with hI | hB
    · refine .inr ?_
      rintro chainID p rfl
      by_contra hp
      obtain ⟨hash, hhash⟩ := exists_not_certifies hS cfg.committedHash p
      obtain ⟨s', hs'⟩ := onMessageCommit_of_verifies (s := newCrossState) (m := ⟨hash, p⟩) hI rfl
        (Bool.eq_true_of_not_eq_false hp)
      exact hhash (h _ _ _ hs')
    · exact .inl hB
  · intro h s m s' hs'
    obtain ⟨hI, hver⟩ := of_onMessageCommit hs'
    rcases h with hB | h
    · rw [hI] at hB
      cases hB
    · rw [h _ _ rfl] at hver
      cases hver

/-- The block within the B shard that `innerHash` is the hash of. -/
def innerBlock : Block := emptyBlock .innerShard [66] 2

/-- The block hash of the example, with the one of `innerBlock` as it is in the certificates. -/
def exampleHash (b : Block) : Bytes := if b = innerBlock then innerHash else twoIShards.blockHash b

/-- The nodes of the example, with this hash. -/
def hashNode (shard : Str) : Surroundings :=
  { wireNode shard with net := { twoIShards with blockHash := exampleHash } }

/-- The node takes no `MessageCommit` for another hash only if nobody could sign it. -/
theorem not_bound_wireNode :
    ¬∀ s m s', ((hashNode [1]).onMessageCommit s m).state? = some s' →
      (hashNode [1]).Certifies {innerBlock} (hashNode [1]).committedHash m.collectiveSignatures
        m.bBlockHash := by
  intro h
  have hS : Set.InjOn (hashNode [1]).net.blockHash {innerBlock} := Set.injOn_singleton _ _
  have hsign : ∀ chainID peers, (hashNode [1]).peerList chainID = some peers →
      (hashNode [1]).CanSign peers := by
    intro chainID peers hpeers
    have hpeers : (if chainID ∈ [[66], [1], [2]] then some HotStuff.wirePeers else none) =
        some peers := hpeers
    split_ifs at hpeers
    obtain rfl := Option.some.inj hpeers
    exact canSign_wireNode [1]
  rcases (bound_iff hS hsign).2.2.mp h with hB | hsilent
  · exact absurd hB (by decide)
  · exact absurd (hsilent [66] HotStuff.wirePeers rfl).1 (by decide)

/-- The certificate of a block within the B shard, signed by all its validators, is accepted with
another block, and with any hash as the commit of it; and a certificate like it as an accept. -/
theorem otherBlock_accepted :
    (certificateBy [0, 1, 2] innerHash).validateBasic = true ∧
    (hashNode [1]).net.blockHash innerBlock = (certificateBy [0, 1, 2] innerHash).blockHeaderHash ∧
    ((hashNode [1]).onCrossShardBlock newCrossState
      ⟨paymentBlock, certificateBy [0, 1, 2] innerHash⟩).state?.isSome = true ∧
    ¬(hashNode [1]).BlockBound ⟨paymentBlock, certificateBy [0, 1, 2] innerHash⟩ ∧
    ((hashNode [1]).onMessageCommit newCrossState
      ⟨[66, 1], certificateBy [0, 1, 2] innerHash⟩).state?.isSome = true ∧
    ¬(hashNode [1]).Certifies {innerBlock} (hashNode [1]).committedHash
      (certificateBy [0, 1, 2] innerHash) [66, 1] ∧
    ((hashNode [66]).onMessageAccept { newCrossState with
        pendingCrossShardBlockHash := some [66, 1], maCount := 2, maPool := some fun _ => none }
      ⟨[66, 1], certificateBy [0, 1, 2] innerHash⟩).state?.isSome = true ∧
    ¬(hashNode [66]).Certifies {innerBlock} (hashNode [66]).acceptedHash
      (certificateBy [0, 1, 2] innerHash) [66, 1] := by
  refine ⟨by decide +kernel, by decide +kernel, by decide +kernel, ?_, by decide +kernel, ?_,
    by decide +kernel, ?_⟩
  · rintro ⟨hhash, -⟩
    exact absurd hhash (by decide +kernel)
  · rintro ⟨b, rfl, -, habout⟩
    cases habout
  · rintro ⟨b, rfl, -, habout⟩
    cases habout

end Surroundings

end Emulator.Pyramid
