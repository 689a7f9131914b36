import Emulator.Urd.Codecs

/-!
# What the hash and the header of a block stand for

The hash of a block is the root of a tree over the roots in its header, each of which is the root of
a tree over one component of the block, often of trees again.

* `Block.same_iff_of_hash_eq` — two new blocks with the same hash agree in everything except the
  cross-shard transactions: their root is filled in but hashed nowhere.
* `genBlock_matches_iff` — a block that comes over the wire brings its roots along, and one that is
  there is never recomputed: the header matches the body exactly when the sender's roots do.
-/

namespace Emulator.Urd

open HotStuff Merkle

/-! ## The trees that are hashed -/

/-- All strings that are hashed for the roots of the trees are among `S`. -/
def HashedIn (sum : Bytes → Bytes) (S : Set Bytes) (trees : List (List Bytes)) : Prop :=
  ∀ items ∈ trees, ∀ x ∈ hashed sum items, x ∈ S

section

variable {sum : Bytes → Bytes} {S : Set Bytes}

@[simp] theorem hashedIn_append {t t' : List (List Bytes)} :
    HashedIn sum S (t ++ t') ↔ HashedIn sum S t ∧ HashedIn sum S t' := List.forall_mem_append

@[simp] theorem hashedIn_cons {items : List Bytes} {t : List (List Bytes)} :
    HashedIn sum S (items :: t) ↔ (∀ x ∈ hashed sum items, x ∈ S) ∧ HashedIn sum S t :=
  List.forall_mem_cons

@[simp] theorem hashedIn_nil : HashedIn sum S [] ↔ True := by simp [HashedIn]

theorem HashedIn.of_flatMap {α : Type} {f : α → List (List Bytes)} {l : List α}
    (h : HashedIn sum S (l.flatMap f)) {a : α} (ha : a ∈ l) : HashedIn sum S (f a) :=
  fun items hi => h items (List.mem_flatMap_of_mem ha hi)

end

/-- The integers of a proof fit their Go type. -/
def InRange (p : Merkle.Proof) : Prop :=
  (-256 ^ 8 ≤ 2 * p.index ∧ 2 * p.index < 256 ^ 8) ∧
    (-256 ^ 8 ≤ 2 * p.total ∧ 2 * p.total < 256 ^ 8)

section

variable (lib : Lib)

/-- The trees of `Proof.ContentHash`. -/
def contentTrees (p : Merkle.Proof) : List (List Bytes) :=
  [[intToBytes 8 p.index, intToBytes 8 p.total, p.leafHash, hashFromByteSlices lib.sum p.aunts],
    p.aunts]

def OutputTxsProof.trees (p : OutputTxsProof) : List (List Bytes) :=
  [p.blockProof.contentHash lib.sum, p.oPTProof.contentHash lib.sum] ::
    (contentTrees lib p.blockProof ++ contentTrees lib p.oPTProof)

def ProofOfIntention.trees (p : ProofOfIntention) : List (List Bytes) :=
  [p.intentionHashProof.contentHash lib.sum, p.rightHash] :: contentTrees lib p.intentionHashProof

/-- The tree of `AggregatedVote.Hash`. -/
def voteTrees (v : AggregatedVote) : List (List Bytes) := [[lib.aggVote.marshal v.toProto]]

def CommitIntention.trees (ci : CommitIntention) : List (List Bytes) :=
  [ci.leftHash lib, ci.rrightHash lib] :: ci.intentionHash ::
    ci.aggregatedSignatures.map (·.hash lib.sum lib.aggVote) ::
    ci.aggregatedSignatures.flatMap (voteTrees lib)

/-- The hash of one entry in `CommitCertificate.Hash`. -/
def coreHash (core : CommitCertificateCore) : Bytes :=
  hashFromByteSlices lib.sum [core.hash, briefHash lib core.intentionBrief, core.mKProof.hash lib]

def CommitCertificateCore.trees (core : CommitCertificateCore) : List (List Bytes) :=
  [core.hash, briefHash lib core.intentionBrief, core.mKProof.hash lib] :: core.intentionBrief ::
    core.mKProof.trees lib

namespace Block

variable (b : Block)

/-- The components that the roots of a filled header are computed from. -/
def bodyTrees : List (List Bytes) :=
  b.ptxs.toList ++ b.opt :: b.aggSigVote.toList.flatMap (voteTrees lib) ++
    b.ci.toList.flatMap (·.trees lib) ++ b.cc.map (coreHash lib) :: b.cc.flatMap (·.trees lib) ++
    [hashFromByteSlices lib.sum (b.ctxs.map (txsHash lib)),
      hashFromByteSlices lib.sum (b.ctxsProof.map (·.hash lib))] ::
    b.ctxs.map (txsHash lib) :: b.ctxsProof.map (·.hash lib) :: b.ctxs ++
    b.ctxsProof.flatMap (·.trees lib)

/-- What `packageHash` hashes, with the roots computed. -/
def packageItems : List Bytes :=
  [b.chainID, intToBytes 8 b.view, intToBytes 4 b.round, lib.timestamp.marshal b.time,
    (b.aggSigVote.map (·.hash lib.sum lib.aggVote)).getD [], certificateHash lib b.cc]

/-- The leaves of the block's hash, with the roots computed. -/
def headerItems : List Bytes :=
  [hashFromByteSlices lib.sum (b.packageItems lib), b.hashPointer,
    (b.ptxs.map (txsHash lib)).getD [], hashFromByteSlices lib.sum b.opt,
    (b.ci.map (·.hash lib)).getD [], b.commitTxsListHash lib, b.stateRoot]

/-- Everything that is hashed for the hash of a new block. -/
def trees : List (List Bytes) := b.headerItems lib :: b.packageItems lib :: b.bodyTrees lib

end Block

end

/-! ## Each hash determines what it is computed from -/

section

variable {lib : Lib} {S : Set Bytes} {size : ℕ}

/-- The vote can be read back from the bytes that are hashed. -/
structure Readable (lib : Lib) (v : AggregatedVote) : Prop where
  wellFormed : v.signerIndexer.WellFormed
  unmarshal : lib.aggVote.unmarshal (lib.aggVote.marshal v.toProto) = some v.toProto

section

variable (hsum : ∀ x, (lib.sum x).length = size) (hS : S.InjOn lib.sum)

include hsum hS

theorem contentHash_inj {p p' : Merkle.Proof} (hp : InRange p) (hp' : InRange p')
    (hin : HashedIn lib.sum S (contentTrees lib p)) (hin' : HashedIn lib.sum S (contentTrees lib p'))
    (h : p.contentHash lib.sum = p'.contentHash lib.sum) : p = p' := by
  simp only [contentTrees, hashedIn_cons, hashedIn_nil, and_true] at hin hin'
  have hitems := hashFromByteSlices_inj hsum hS hin.1 hin'.1 h
  simp only [List.cons.injEq, and_true] at hitems
  obtain ⟨hindex, htotal, hleaf, haunts⟩ := hitems
  have haunts := hashFromByteSlices_inj hsum hS hin.2 hin'.2 haunts
  have hindex := intToBytes_inj hp.1 hp'.1 hindex
  have htotal := intToBytes_inj hp.2 hp'.2 htotal
  cases p
  cases p'
  simp_all

theorem OutputTxsProof.hash_inj {p p' : OutputTxsProof}
    (hp : InRange p.blockProof ∧ InRange p.oPTProof)
    (hp' : InRange p'.blockProof ∧ InRange p'.oPTProof) (hin : HashedIn lib.sum S (p.trees lib))
    (hin' : HashedIn lib.sum S (p'.trees lib)) (h : p.hash lib = p'.hash lib) : p = p' := by
  simp only [OutputTxsProof.trees, hashedIn_cons, hashedIn_append] at hin hin'
  have hitems := hashFromByteSlices_inj hsum hS hin.1 hin'.1 h
  simp only [List.cons.injEq, and_true] at hitems
  have hblock := contentHash_inj hsum hS hp.1 hp'.1 hin.2.1 hin'.2.1 hitems.1
  have hopt := contentHash_inj hsum hS hp.2 hp'.2 hin.2.2 hin'.2.2 hitems.2
  cases p
  cases p'
  simp_all

theorem ProofOfIntention.hash_inj {p p' : ProofOfIntention} (hp : InRange p.intentionHashProof)
    (hp' : InRange p'.intentionHashProof) (hin : HashedIn lib.sum S (p.trees lib))
    (hin' : HashedIn lib.sum S (p'.trees lib)) (h : p.hash lib = p'.hash lib) : p = p' := by
  simp only [ProofOfIntention.trees, hashedIn_cons] at hin hin'
  have hitems := hashFromByteSlices_inj hsum hS hin.1 hin'.1 h
  simp only [List.cons.injEq, and_true] at hitems
  have hproof := contentHash_inj hsum hS hp hp' hin.2 hin'.2 hitems.1
  cases p
  cases p'
  simp_all

theorem voteHash_inj {v v' : AggregatedVote} (hv : Readable lib v) (hv' : Readable lib v')
    (hin : HashedIn lib.sum S (voteTrees lib v)) (hin' : HashedIn lib.sum S (voteTrees lib v'))
    (h : v.hash lib.sum lib.aggVote = v'.hash lib.sum lib.aggVote) : v = v' := by
  simp only [voteTrees, hashedIn_cons, hashedIn_nil, and_true] at hin hin'
  have hitems := hashFromByteSlices_inj hsum hS hin hin' h
  have hproto : v.toProto = v'.toProto := by
    have hbytes := (List.cons.inj hitems).1
    have hread := hv.unmarshal
    rw [hbytes, hv'.unmarshal] at hread
    exact (Option.some.inj hread).symm
  have hread := newAggregatedVoteFromProto_toProto hv.wellFormed
  rw [hproto, newAggregatedVoteFromProto_toProto hv'.wellFormed] at hread
  exact (Option.some.inj hread).symm

theorem CommitIntention.hash_inj {ci ci' : CommitIntention}
    (hci : ∀ v ∈ ci.aggregatedSignatures, Readable lib v)
    (hci' : ∀ v ∈ ci'.aggregatedSignatures, Readable lib v) (hin : HashedIn lib.sum S (ci.trees lib))
    (hin' : HashedIn lib.sum S (ci'.trees lib)) (h : ci.hash lib = ci'.hash lib) : ci = ci' := by
  simp only [CommitIntention.trees, hashedIn_cons] at hin hin'
  have hitems := hashFromByteSlices_inj hsum hS hin.1 hin'.1 h
  simp only [List.cons.injEq, and_true] at hitems
  have hbrief := hashFromByteSlices_inj hsum hS hin.2.1 hin'.2.1 hitems.1
  have hvotes := hashFromByteSlices_map_inj hsum hS hin.2.2.1 hin'.2.2.1 (fun v hv v' hv' =>
    voteHash_inj hsum hS (hci v hv) (hci' v' hv') (hin.2.2.2.of_flatMap hv)
      (hin'.2.2.2.of_flatMap hv')) hitems.2
  cases ci
  cases ci'
  simp_all

theorem coreHash_inj {core core' : CommitCertificateCore}
    (hcore : InRange core.mKProof.intentionHashProof)
    (hcore' : InRange core'.mKProof.intentionHashProof)
    (hin : HashedIn lib.sum S (core.trees lib)) (hin' : HashedIn lib.sum S (core'.trees lib))
    (h : coreHash lib core = coreHash lib core') : core = core' := by
  simp only [CommitCertificateCore.trees, hashedIn_cons] at hin hin'
  have hitems := hashFromByteSlices_inj hsum hS hin.1 hin'.1 h
  simp only [List.cons.injEq, and_true] at hitems
  have hbrief := hashFromByteSlices_inj hsum hS hin.2.1 hin'.2.1 hitems.2.1
  have hproof := ProofOfIntention.hash_inj hsum hS hcore hcore' hin.2.2 hin'.2.2 hitems.2.2
  cases core
  cases core'
  simp_all

end

/-- The root of a component that can be absent: no root is empty. -/
theorem eq_of_root_eq {α : Type} {f : α → Bytes} (hf : ∀ a, f a ≠ []) {o o' : Option α}
    (hinj : ∀ a ∈ o, ∀ a' ∈ o', f a = f a' → a = a')
    (h : (o.map f).getD [] = (o'.map f).getD []) : o = o' := by
  cases o with
  | none =>
    cases o' with
    | none => rfl
    | some a' => exact absurd h.symm (hf a')
  | some a =>
    cases o' with
    | none => exact absurd h (hf a)
    | some a' => rw [hinj a rfl a' rfl h]

/-! ## The hash of a new block -/

/-- A block as `make_block` creates it. -/
structure Block.Fresh (b : Block) : Prop where
  prepareRoot : b.prepareRoot = []
  crossShardRoot : b.crossShardRoot = []
  outputTxsRoot : b.outputTxsRoot = []
  lastAggSigRoot : b.lastAggSigRoot = []
  commitIntentionRoot : b.commitIntentionRoot = []
  commitCertificateRoot : b.commitCertificateRoot = []
  commitTxsListRoot : b.commitTxsListRoot = []

/-- The integers fit their Go types, and what is marshalled to be hashed can be read back. -/
structure Block.Representable (lib : Lib) (b : Block) : Prop where
  view : -256 ^ 8 ≤ 2 * b.view ∧ 2 * b.view < 256 ^ 8
  round : -256 ^ 4 ≤ 2 * b.round ∧ 2 * b.round < 256 ^ 4
  time : lib.timestamp.unmarshal (lib.timestamp.marshal b.time) = some b.time
  aggSigVote : ∀ v ∈ b.aggSigVote, Readable lib v
  ci : ∀ ci ∈ b.ci, ∀ v ∈ ci.aggregatedSignatures, Readable lib v
  cc : ∀ core ∈ b.cc, InRange core.mKProof.intentionHashProof
  ctxsProof : ∀ p ∈ b.ctxsProof, InRange p.blockProof ∧ InRange p.oPTProof

theorem Block.Fresh.hash_eq {b : Block} (hb : b.Fresh) :
    b.hash lib = hashFromByteSlices lib.sum (b.headerItems lib) := by
  rw [Block.hash_eq]
  simp only [Block.leaves, Block.packageHash, Block.headerItems, Block.packageItems,
    Block.fillInHeader, hb.prepareRoot, hb.outputTxsRoot, hb.lastAggSigRoot, hb.commitIntentionRoot,
    hb.commitCertificateRoot, hb.commitTxsListRoot, fillIn_nil]

/-- What the hash of a new block determines. -/
structure Block.SameHashed (b b' : Block) : Prop where
  chainID : b.chainID = b'.chainID
  view : b.view = b'.view
  round : b.round = b'.round
  time : b.time = b'.time
  hashPointer : b.hashPointer = b'.hashPointer
  ptxs : b.ptxs.getD [] = b'.ptxs.getD []
  opt : b.opt = b'.opt
  aggSigVote : b.aggSigVote = b'.aggSigVote
  ci : b.ci = b'.ci
  cc : b.cc = b'.cc
  ctxs : b.ctxs = b'.ctxs
  ctxsProof : b.ctxsProof = b'.ctxsProof

/-- The two blocks are the same in every component. -/
structure Block.Same (b b' : Block) : Prop extends b.SameHashed b' where
  crossShardTxs : b.crossShardTxs.getD [] = b'.crossShardTxs.getD []

section

variable (hsum : ∀ x, (lib.sum x).length = size) (hsize : 0 < size) (hS : S.InjOn lib.sum)

include hsum hsize hS

theorem Block.sameHashed_of_hash_eq {b b' : Block} (hb : b.Fresh) (hb' : b'.Fresh)
    (hr : b.Representable lib) (hr' : b'.Representable lib) (hin : HashedIn lib.sum S (b.trees lib))
    (hin' : HashedIn lib.sum S (b'.trees lib)) (h : b.hash lib = b'.hash lib) : b.SameHashed b' := by
  rw [hb.hash_eq, hb'.hash_eq] at h
  rw [Block.trees, hashedIn_cons, hashedIn_cons] at hin hin'
  obtain ⟨hleaves, hpackage, hbody⟩ := hin
  obtain ⟨hleaves', hpackage', hbody'⟩ := hin'
  have hitems := hashFromByteSlices_inj hsum hS hleaves hleaves' h
  simp only [Block.headerItems, List.cons.injEq, and_true] at hitems
  obtain ⟨hpack, hpointer, hprepare, hout, hintention, hlist, -⟩ := hitems
  have hpack := hashFromByteSlices_inj hsum hS hpackage hpackage' hpack
  simp only [Block.packageItems, List.cons.injEq, and_true] at hpack
  obtain ⟨hchain, hview, hround, htime, hvote, hcc⟩ := hpack
  simp only [Block.bodyTrees, hashedIn_append, hashedIn_cons] at hbody hbody'
  obtain ⟨⟨⟨⟨⟨iptxs, iopt, ivote⟩, ici⟩, icores, icc⟩, ilists, itxs, iproofs, ictxs⟩, iproof⟩ := hbody
  obtain ⟨⟨⟨⟨⟨iptxs', iopt', ivote'⟩, ici'⟩, icores', icc'⟩, ilists', itxs', iproofs', ictxs'⟩,
    iproof'⟩ := hbody'
  have hlist := hashFromByteSlices_inj hsum hS ilists ilists' hlist
  simp only [List.cons.injEq, and_true] at hlist
  have hne := root_ne_nil hsum hsize
  have hptxs : b.ptxs = b'.ptxs := eq_of_root_eq (fun t => hne t) (fun t ht t' ht' =>
    hashFromByteSlices_inj hsum hS (iptxs t (Option.mem_toList.mpr ht))
      (iptxs' t' (Option.mem_toList.mpr ht'))) hprepare
  exact
    { chainID := hchain
      view := intToBytes_inj hr.view hr'.view hview
      round := intToBytes_inj hr.round hr'.round hround
      time := by
        have hread := hr.time
        rw [htime, hr'.time] at hread
        exact (Option.some.inj hread).symm
      hashPointer := hpointer
      ptxs := congrArg (·.getD []) hptxs
      opt := hashFromByteSlices_inj hsum hS iopt iopt' hout
      aggSigVote := eq_of_root_eq (fun v => hne _) (fun v hv v' hv' =>
        voteHash_inj hsum hS (hr.aggSigVote v hv) (hr'.aggSigVote v' hv')
          (ivote.of_flatMap (Option.mem_toList.mpr hv))
          (ivote'.of_flatMap (Option.mem_toList.mpr hv'))) hvote
      ci := eq_of_root_eq (fun ci => hne _) (fun ci hci ci' hci' =>
        CommitIntention.hash_inj hsum hS (hr.ci ci hci) (hr'.ci ci' hci')
          (ici.of_flatMap (Option.mem_toList.mpr hci))
          (ici'.of_flatMap (Option.mem_toList.mpr hci'))) hintention
      cc := hashFromByteSlices_map_inj hsum hS icores icores' (fun core hcore core' hcore' =>
        coreHash_inj hsum hS (hr.cc core hcore) (hr'.cc core' hcore') (icc.of_flatMap hcore)
          (icc'.of_flatMap hcore')) hcc
      ctxs := hashFromByteSlices_map_inj hsum hS itxs itxs' (fun t ht t' ht' =>
        hashFromByteSlices_inj hsum hS (ictxs t ht) (ictxs' t' ht')) hlist.1
      ctxsProof := hashFromByteSlices_map_inj hsum hS iproofs iproofs' (fun p hp p' hp' =>
        OutputTxsProof.hash_inj hsum hS (hr.ctxsProof p hp) (hr'.ctxsProof p' hp')
          (iproof.of_flatMap hp) (iproof'.of_flatMap hp')) hlist.2 }

/-- **The hash leaves out the cross-shard transactions.** Two new blocks with the same hash are the
same in all components exactly when their cross-shard transactions are. -/
theorem Block.same_iff_of_hash_eq {b b' : Block} (hb : b.Fresh) (hb' : b'.Fresh)
    (hr : b.Representable lib) (hr' : b'.Representable lib) (hin : HashedIn lib.sum S (b.trees lib))
    (hin' : HashedIn lib.sum S (b'.trees lib)) (h : b.hash lib = b'.hash lib) :
    b.Same b' ↔ b.crossShardTxs.getD [] = b'.crossShardTxs.getD [] :=
  ⟨fun hsame => hsame.crossShardTxs,
    fun htxs => ⟨Block.sameHashed_of_hash_eq hsum hsize hS hb hb' hr hr' hin hin' h, htxs⟩⟩

end

/-- A vote of one of three validators. -/
def exampleVote (hash : Bytes) : AggregatedVote :=
  { newVote 1 0 hash [[3]] 0 with code := codeTypeOK }.getAggregated
    ((BitVector.newBitVector 3).setIndex 0 true)

def exampleProof : Merkle.Proof := { total := 2, index := 1, leafHash := [4], aunts := [[5]] }

/-- A new block with something of everything. -/
def exampleBlock (crossShardTxs : Option Txs) : Block where
  hashPointer := [9]
  chainID := [65]
  view := 4
  round := 0
  time := ⟨1700000000, 5⟩
  ptxs := some [[1], [2]]
  crossShardTxs := crossShardTxs
  opt := [[7], [8]]
  aggSigVote := some (exampleVote [9])
  ci := some { intentionHash := [[3]], aggregatedSignatures := [exampleVote [6]] }
  cc := [{ hash := [3], mKProof := ⟨exampleProof, [2]⟩, intentionBrief := [[1]] }]
  ctxs := [[[1], [6]]]
  ctxsProof := [⟨exampleProof, exampleProof⟩]

theorem readable_exampleVote (hash : Bytes) : Readable polyLib (exampleVote hash) where
  wellFormed := (BitVector.wellFormed_newBitVector 3).setIndex 0 true
  unmarshal := aggVoteCoder.roundTrips_codec _

theorem inRange_exampleProof : InRange exampleProof := by
  unfold InRange exampleProof
  decide

theorem representable_exampleBlock (txs : Option Txs) : (exampleBlock txs).Representable polyLib where
  view := by
    show -256 ^ 8 ≤ 2 * (4 : ℤ) ∧ 2 * (4 : ℤ) < 256 ^ 8
    decide
  round := by
    show -256 ^ 4 ≤ 2 * (0 : ℤ) ∧ 2 * (0 : ℤ) < 256 ^ 4
    decide
  time := timestampCoder.roundTrips_codec _
  aggSigVote v hv := by
    obtain rfl := Option.some.inj hv
    exact readable_exampleVote [9]
  ci ci hci v hv := by
    obtain rfl := Option.some.inj hci
    obtain rfl := List.mem_singleton.mp hv
    exact readable_exampleVote [6]
  cc core hcore := by
    obtain rfl := List.mem_singleton.mp hcore
    exact inRange_exampleProof
  ctxsProof p hp := by
    obtain rfl := List.mem_singleton.mp hp
    exact ⟨inRange_exampleProof, inRange_exampleProof⟩

theorem fresh_exampleBlock (txs : Option Txs) : (exampleBlock txs).Fresh :=
  ⟨rfl, rfl, rfl, rfl, rfl, rfl, rfl⟩

/-- The strings hashed for the block. -/
def exampleStrings : List Bytes :=
  ((exampleBlock none).trees polyLib).flatMap (hashed polySum) |>.dedup

/-- Cross-shard transactions that are `nil` and an empty list give the same block. -/
theorem same_exampleBlock : (exampleBlock none).Same (exampleBlock (some [])) := by
  have hinj : Set.InjOn polyLib.sum {x | x ∈ exampleStrings} :=
    List.inj_on_of_nodup_map (by decide +kernel)
  have hin (txs : Option Txs) :
      HashedIn polyLib.sum {x | x ∈ exampleStrings} ((exampleBlock txs).trees polyLib) :=
    fun items hitems x hx => List.mem_dedup.mpr (List.mem_flatMap.mpr ⟨items, hitems, hx⟩)
  have hhash : (exampleBlock none).hash polyLib = (exampleBlock (some [])).hash polyLib := rfl
  exact (Block.same_iff_of_hash_eq length_polySum (by decide) hinj (fresh_exampleBlock _)
    (fresh_exampleBlock _) (representable_exampleBlock _) (representable_exampleBlock _) (hin _)
    (hin _) hhash).mpr rfl

/-- Blocks with different cross-shard transactions have the same hash, whatever the hash
function. -/
theorem hash_exampleBlock_eq :
    (exampleBlock (some [[1]])).Fresh ∧ (exampleBlock (some [[2]])).Fresh ∧
      (∀ lib : Lib, (exampleBlock (some [[1]])).hash lib = (exampleBlock (some [[2]])).hash lib) ∧
      ¬(exampleBlock (some [[1]])).Same (exampleBlock (some [[2]])) :=
  ⟨fresh_exampleBlock _, fresh_exampleBlock _, fun _ => rfl,
    fun h => absurd h.crossShardTxs (by decide)⟩

/-! ## Headers from the wire -/

/-- The roots are those of the body; the root of absent transactions can be missing. -/
structure Block.Matches (lib : Lib) (b : Block) : Prop where
  prepareRoot : b.prepareRoot = txsHash lib (b.ptxs.getD []) ∨ b.ptxs = none ∧ b.prepareRoot = []
  outputTxsRoot : b.outputTxsRoot = hashFromByteSlices lib.sum b.opt
  lastAggSigRoot : b.lastAggSigRoot = (b.aggSigVote.map (·.hash lib.sum lib.aggVote)).getD []
  commitIntentionRoot : b.commitIntentionRoot = (b.ci.map (·.hash lib)).getD []
  commitCertificateRoot : b.commitCertificateRoot = certificateHash lib b.cc
  commitTxsListRoot : b.commitTxsListRoot = b.commitTxsListHash lib

/-- The roots that a sender puts into a header are missing or those of the body. -/
structure PbHeader.Honest (lib : Lib) (header : PbHeader) (b : Block) : Prop where
  prepareRoot : header.prepareRoot = [] ∨ header.prepareRoot = txsHash lib (b.ptxs.getD [])
  outputTxsRoot : header.outputTxsRoot = [] ∨
    header.outputTxsRoot = hashFromByteSlices lib.sum b.opt
  lastAggSigRoot : header.lastAggSigRoot = [] ∨
    header.lastAggSigRoot = (b.aggSigVote.map (·.hash lib.sum lib.aggVote)).getD []
  commitIntentionRoot : header.commitIntentionRoot = [] ∨
    header.commitIntentionRoot = (b.ci.map (·.hash lib)).getD []
  commitCertificateRoot : header.commitCertificateRoot = [] ∨
    header.commitCertificateRoot = certificateHash lib b.cc
  commitTxsListRoot : header.commitTxsRoot = [] ∨ header.commitTxsRoot = b.commitTxsListHash lib

theorem fillIn_eq_iff {root new : Bytes} : fillIn root new = new ↔ root = [] ∨ root = new := by
  unfold fillIn
  cases root <;> simp

theorem fillIn_txs_iff {root : Bytes} {txs : Option Txs} :
    (fillIn root ((txs.map (txsHash lib)).getD []) = txsHash lib (txs.getD []) ∨
      txs = none ∧ fillIn root ((txs.map (txsHash lib)).getD []) = []) ↔
      root = [] ∨ root = txsHash lib (txs.getD []) := by
  cases txs with
  | none =>
    simp only [Option.map_none, Option.getD_none, fillIn_to_nil, true_and]
    exact or_comm
  | some t => simp [fillIn_eq_iff]

/-- The roots of the decoded block are those on the wire. -/
theorem newBlockFromProto_eq_some {p : PbBlock} {b : Block} {header : PbHeader}
    (h : newBlockFromProto p = some b) (hheader : p.header = some header) :
    b.prepareRoot = header.prepareRoot ∧ b.outputTxsRoot = header.outputTxsRoot ∧
      b.lastAggSigRoot = header.lastAggSigRoot ∧
      b.commitIntentionRoot = header.commitIntentionRoot ∧
      b.commitCertificateRoot = header.commitCertificateRoot ∧
      b.commitTxsListRoot = header.commitTxsRoot := by
  obtain ⟨header', hheader', h⟩ := Option.bind_eq_some_iff.mp h
  obtain rfl := Option.some.inj (hheader.symm.trans hheader')
  obtain ⟨vote, -, h⟩ := Option.bind_eq_some_iff.mp h
  obtain ⟨ci, -, h⟩ := Option.bind_eq_some_iff.mp h
  obtain ⟨cc, -, h⟩ := Option.bind_eq_some_iff.mp h
  obtain ⟨proofs, -, h⟩ := Option.bind_eq_some_iff.mp h
  obtain rfl := Option.some.inj h
  exact ⟨rfl, rfl, rfl, rfl, rfl, rfl⟩

/-- **Roots from the wire are not checked.** A block that `GenBlock` returns, with the header that
`Hash` has filled in, matches its body exactly when the header that its parts decode to is
honest. -/
theorem genBlock_matches_iff {ps : PartSet} {b : Block} (h : ps.genBlock (blockLib lib) = .ok b)
    {parts : List Part} (hparts : ps.parts = parts.map some) {p : PbBlock}
    (hp : lib.block.unmarshal (parts.flatMap Part.bytes) = some p) {header : PbHeader}
    (hheader : p.header = some header) :
    (b.fillInHeader lib).Matches lib ↔ header.Honest lib b := by
  have hb : newBlockFromProto p = some b := by
    obtain ⟨parts', hparts', hdec, -⟩ := PartSet.genBlock_eq_ok.mp h
    obtain rfl := List.map_injective_iff.mpr (Option.some_injective _) (hparts.symm.trans hparts')
    obtain ⟨p', hp', hb⟩ := Option.bind_eq_some_iff.mp hdec
    obtain rfl := Option.some.inj (hp.symm.trans hp')
    exact hb
  obtain ⟨hprepare, hout, hvote, hci, hcc, hctxs⟩ := newBlockFromProto_eq_some hb hheader
  constructor
  · rintro ⟨h₁, h₂, h₃, h₄, h₅, h₆⟩
    exact ⟨hprepare ▸ fillIn_txs_iff.mp h₁, hout ▸ fillIn_eq_iff.mp h₂, hvote ▸ fillIn_eq_iff.mp h₃,
      hci ▸ fillIn_eq_iff.mp h₄, hcc ▸ fillIn_eq_iff.mp h₅, hctxs ▸ fillIn_eq_iff.mp h₆⟩
  · rintro ⟨h₁, h₂, h₃, h₄, h₅, h₆⟩
    exact ⟨fillIn_txs_iff.mpr (hprepare ▸ h₁), fillIn_eq_iff.mpr (hout ▸ h₂),
      fillIn_eq_iff.mpr (hvote ▸ h₃), fillIn_eq_iff.mpr (hci ▸ h₄), fillIn_eq_iff.mpr (hcc ▸ h₅),
      fillIn_eq_iff.mpr (hctxs ▸ h₆)⟩

/-- A block whose sender puts a root over its transactions into the header. -/
def rootedBlock (prepareRoot : Bytes) : Block where
  chainID := [65]
  view := 1
  round := 0
  time := ⟨0, 0⟩
  ptxs := some [[1], [2]]
  prepareRoot := prepareRoot

/-- The part set of a receiver that has taken the parts of the block. -/
def receivedSet (b : Block) : Except PartError PartSet :=
  (partsOf (blockLib polyLib) b 4096 0).foldlM (PartSet.addPart (blockLib polyLib))
    (newPartSet (partSetFromBlock (blockLib polyLib) b 4096 0).header (b.hash polyLib))

/-- The same, if no part was refused. -/
def receivedSetD (b : Block) : PartSet :=
  match receivedSet b with
  | .ok ps => ps
  | .error _ => newPartSet ⟨0, 0, 0, [], []⟩ []

/-- The right root is taken, like one that is left out. -/
theorem matches_rootedBlock :
    (receivedSetD (rootedBlock [])).genBlock (blockLib polyLib) =
      .ok ((rootedBlock []).onWire polyLib) ∧
    (((rootedBlock []).onWire polyLib).fillInHeader polyLib).Matches polyLib := by
  have hgen : (receivedSetD (rootedBlock [])).genBlock (blockLib polyLib) =
      .ok ((rootedBlock []).onWire polyLib) := by decide +kernel
  have hparts : (receivedSetD (rootedBlock [])).parts =
      (partsOf (blockLib polyLib) (rootedBlock []) 4096 0).map some := by decide +kernel
  have hdec : polyLib.block.unmarshal ((partsOf (blockLib polyLib) (rootedBlock []) 4096 0).flatMap
      Part.bytes) = some ((rootedBlock []).toProto polyLib) := by decide +kernel
  refine ⟨hgen, (genBlock_matches_iff hgen hparts hdec rfl).mpr ⟨?_, ?_, ?_, ?_, ?_, ?_⟩⟩
  all_goals decide +kernel

/-- A wrong root is taken as it is. -/
theorem not_matches_rootedBlock :
    (receivedSet (rootedBlock [1])).toBool = true ∧
    (receivedSetD (rootedBlock [1])).isComplete = true ∧
    (receivedSetD (rootedBlock [1])).genBlock (blockLib polyLib) =
      .ok ((rootedBlock [1]).onWire polyLib) ∧
    ¬(((rootedBlock [1]).onWire polyLib).fillInHeader polyLib).Matches polyLib := by
  refine ⟨by decide +kernel, by decide +kernel, by decide +kernel, fun h => ?_⟩
  exact absurd h.prepareRoot (by decide +kernel)

end

end Emulator.Urd
