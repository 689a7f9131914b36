import Emulator.Urd.BlockHash

/-!
# What a proof from another shard shows

A receiver of relay transactions has the hash of a block of the sender. It recomputes a root from
one proof and looks for it among the leaves of the block's hash with another; for the commit
intention it computes the leaf itself. Neither the position of the leaf nor that of the item is
looked at, so a proof shows everything that stands anywhere two levels below the hash.

* `Block.proofsSound_iff` — a proof shows only relay lists and only the commit intention of the
  block exactly when nothing under the other leaves, and nothing under the hash pointer and the
  state root, passes for a relay list or for an intention.

* `accepted_faithful_iff` — a message with both proofs for the right positions carries what its
  source committed to for the receiver, but messages with other proofs or with none are accepted as
  well.

A leaf that is empty is worse: a relay proof that computes no root matches it, whatever the list.
-/

namespace Emulator.Urd

open Emulator.Action HotStuff Merkle

/-! ## The leaves of a block -/

section

variable (lib : Lib)

/-- What `CommitTxsListRoot` is the root of. -/
def Block.commitTxsListItems (b : Block) : List Bytes :=
  [hashFromByteSlices lib.sum (b.ctxs.map (txsHash lib)),
    hashFromByteSlices lib.sum (b.ctxsProof.map (·.hash lib))]

/-- What `CommitIntentionRoot` is the root of. -/
def CommitIntention.items (ci : CommitIntention) : List Bytes := [ci.leftHash lib, ci.rrightHash lib]

/-- The lists whose roots are leaves of the block's hash, except the relay lists. -/
def Block.otherTrees (b : Block) : List (List Bytes) :=
  b.packageItems lib :: b.ptxs.getD [] :: b.commitTxsListItems lib ::
    b.ci.toList.map (CommitIntention.items lib)

/-- What is hashed for the hash of a block, down to the items that a proof shows. -/
def Block.proofTrees (b : Block) : List (List Bytes) :=
  (b.fillInHeader lib).leaves lib :: b.opt :: b.otherTrees lib ++
    b.ci.toList.map CommitIntention.intentionHash

end

variable {items : List Bytes} {ib : IntentionBrief}

section

variable {lib : Lib} {b : Block}

theorem Block.Fresh.matches (hb : b.Fresh) : (b.fillInHeader lib).Matches lib where
  prepareRoot := fillIn_txs_iff.mpr (.inl hb.prepareRoot)
  outputTxsRoot := fillIn_eq_iff.mpr (.inl hb.outputTxsRoot)
  lastAggSigRoot := fillIn_eq_iff.mpr (.inl hb.lastAggSigRoot)
  commitIntentionRoot := fillIn_eq_iff.mpr (.inl hb.commitIntentionRoot)
  commitCertificateRoot := fillIn_eq_iff.mpr (.inl hb.commitCertificateRoot)
  commitTxsListRoot := fillIn_eq_iff.mpr (.inl hb.commitTxsListRoot)

theorem CommitIntention.hash_eq (ci : CommitIntention) :
    ci.hash lib = hashFromByteSlices lib.sum (ci.items lib) := rfl

theorem Block.leaves_eq (hb : (b.fillInHeader lib).Matches lib) :
    (b.fillInHeader lib).leaves lib =
      [hashFromByteSlices lib.sum (b.packageItems lib), b.hashPointer,
        (b.fillInHeader lib).prepareRoot, hashFromByteSlices lib.sum b.opt,
        (b.ci.map (·.hash lib)).getD [], hashFromByteSlices lib.sum (b.commitTxsListItems lib),
        b.stateRoot] := by
  unfold Block.leaves Block.packageHash
  rw [hb.lastAggSigRoot, hb.commitCertificateRoot, hb.outputTxsRoot, hb.commitIntentionRoot,
    hb.commitTxsListRoot]
  rfl

theorem Block.leaves_mem_proofTrees (b : Block) :
    (b.fillInHeader lib).leaves lib ∈ b.proofTrees lib := List.mem_cons_self

theorem Block.opt_mem_proofTrees (b : Block) : b.opt ∈ b.proofTrees lib :=
  List.mem_cons_of_mem _ List.mem_cons_self

theorem Block.mem_proofTrees_of_other (h : items ∈ b.otherTrees lib) : items ∈ b.proofTrees lib :=
  List.mem_append_left _ (List.mem_cons_of_mem _ (List.mem_cons_of_mem _ h))

theorem Block.mem_otherTrees :
    items ∈ b.otherTrees lib ↔ items = b.packageItems lib ∨ items = b.ptxs.getD [] ∨
      items = b.commitTxsListItems lib ∨ ∃ ci ∈ b.ci, items = ci.items lib := by
  simp [Block.otherTrees, eq_comm]

/-- The leaf of the transactions is the root over them, or it is empty because there are none. -/
theorem Block.prepareRoot_eq (hb : (b.fillInHeader lib).Matches lib) :
    (b.fillInHeader lib).prepareRoot = hashFromByteSlices lib.sum (b.ptxs.getD []) ∨
      b.ptxs = none ∧ (b.fillInHeader lib).prepareRoot = [] := hb.prepareRoot

end

/-! ## What proofs show -/

section

variable (lib : Lib)

/-- The strings hashed while a proof for relay transactions is verified. -/
def OutputTxsProof.inputs (p : OutputTxsProof) (outputTxs : Txs) : List Bytes :=
  hashed lib.sum outputTxs ++ p.oPTProof.verifyInputs lib.sum (txsHash lib outputTxs) ++
    p.blockProof.verifyInputs lib.sum ((p.oPTProof.computeRootHash lib.sum).getD [])

/-- The strings hashed while a proof for an intention is verified. -/
def ProofOfIntention.inputs (p : ProofOfIntention) (ib : IntentionBrief) : List Bytes :=
  hashed lib.sum ib ++ hashed lib.sum [briefHash lib ib, p.rightHash] ++
    p.intentionHashProof.verifyInputs lib.sum
      (hashFromByteSlices lib.sum [briefHash lib ib, p.rightHash])

/-- **Soundness of the proofs against the hash of a block**, for everyone who can hash the strings
of `S`: they show relay lists and the commit intention of the block only. -/
structure Block.ProofsSound (S : Set Bytes) (b : Block) : Prop where
  relays : ∀ (p : OutputTxsProof) (x : Txs), (∀ s ∈ p.inputs lib x, s ∈ S) →
    p.verify lib (b.hash lib) x = true → txsHash lib x ∈ b.opt
  intentions : ∀ (q : ProofOfIntention) (ib : IntentionBrief), (∀ s ∈ q.inputs lib ib, s ∈ S) →
    q.verify lib (b.hash lib) (briefHash lib ib) = true → ∃ ci ∈ b.ci, ci.intentionHash = ib

/-- What a relay proof shows apart from the relay lists: the items under the other leaves, whatever
opens the hash pointer or the state root, and everything if a leaf is empty. -/
def Block.Exposed (S : Set Bytes) (b : Block) (y : Bytes) : Prop :=
  (∃ items ∈ b.otherTrees lib, y ∈ items) ∨ Opens lib.sum S b.hashPointer y ∨
    Opens lib.sum S b.stateRoot y ∨ [] ∈ (b.fillInHeader lib).leaves lib ∧ 0 :: y ∈ S

/-- What passes for the two items of a commit intention: any other two items with their root at a
leaf. -/
def Block.ExposedPair (b : Block) (pair : List Bytes) : Prop :=
  pair = b.ptxs.getD [] ∨ pair = b.opt ∨ pair = b.commitTxsListItems lib ∨
    hashFromByteSlices lib.sum pair = b.hashPointer ∨ hashFromByteSlices lib.sum pair = b.stateRoot

end

section

variable {lib : Lib} {S : Set Bytes} {size : ℕ}

/-- A relay proof goes through any leaf that a first proof shows. -/
theorem exists_verify_iff {root : Bytes} {x : Txs} :
    (∃ p : OutputTxsProof, (∀ s ∈ p.inputs lib x, s ∈ S) ∧ p.verify lib root x = true) ↔
      (∀ s ∈ hashed lib.sum x, s ∈ S) ∧
        ∃ leaf, Opens lib.sum S root leaf ∧ Opens lib.sum S leaf (txsHash lib x) := by
  constructor
  · rintro ⟨p, hin, hp⟩
    unfold OutputTxsProof.verify at hp
    unfold OutputTxsProof.inputs at hin
    rw [List.forall_mem_append, List.forall_mem_append] at hin
    rw [Bool.and_eq_true] at hp
    exact ⟨hin.1.1, _, ⟨p.blockProof, hin.2, hp.2⟩, ⟨p.oPTProof, hin.1.2, hp.1⟩⟩
  · rintro ⟨hx, leaf, ⟨blockProof, hblock, hleaf⟩, ⟨oPTProof, hopt, hitem⟩⟩
    have hroot : (oPTProof.computeRootHash lib.sum).getD [] = leaf := by
      simp only [Merkle.Proof.verify, Bool.and_eq_true, beq_iff_eq] at hitem
      exact hitem.2
    refine ⟨⟨blockProof, oPTProof⟩, ?_, ?_⟩
    · unfold OutputTxsProof.inputs
      rw [hroot, List.forall_mem_append, List.forall_mem_append]
      exact ⟨⟨hx, hopt⟩, hblock⟩
    · unfold OutputTxsProof.verify
      rw [hroot, Bool.and_eq_true]
      exact ⟨hitem, hleaf⟩

theorem exists_verifyIntention_iff {root : Bytes} :
    (∃ q : ProofOfIntention, (∀ s ∈ q.inputs lib ib, s ∈ S) ∧
        q.verify lib root (briefHash lib ib) = true) ↔
      (∀ s ∈ hashed lib.sum ib, s ∈ S) ∧ ∃ right,
        (∀ s ∈ hashed lib.sum [briefHash lib ib, right], s ∈ S) ∧
        Opens lib.sum S root (hashFromByteSlices lib.sum [briefHash lib ib, right]) := by
  constructor
  · rintro ⟨q, hin, hq⟩
    unfold ProofOfIntention.inputs at hin
    rw [List.forall_mem_append, List.forall_mem_append] at hin
    exact ⟨hin.1.1, q.rightHash, hin.1.2, q.intentionHashProof, hin.2, hq⟩
  · rintro ⟨hib, right, hpair, proof, hproof, hverify⟩
    refine ⟨⟨proof, right⟩, ?_, hverify⟩
    unfold ProofOfIntention.inputs
    rw [List.forall_mem_append, List.forall_mem_append]
    exact ⟨⟨hib, hpair⟩, hproof⟩

variable (hsum : ∀ x, (lib.sum x).length = size) (hsize : 0 < size) (hS : S.InjOn lib.sum) {b : Block}
  (hb : (b.fillInHeader lib).Matches lib) (hin : HashedIn lib.sum S (b.proofTrees lib))

include hsum hsize hS hin in
theorem Block.opens_hash_iff {leaf : Bytes} :
    Opens lib.sum S (b.hash lib) leaf ↔ leaf ∈ (b.fillInHeader lib).leaves lib := by
  rw [Block.hash_eq]
  exact opens_root_iff hsum hsize hS (hin _ b.leaves_mem_proofTrees)

include hsum hsize hS hb hin in
/-- Two levels below the hash stand the relay lists and what is exposed with them. -/
theorem Block.opens_leaf_iff {y : Bytes} :
    (∃ leaf ∈ (b.fillInHeader lib).leaves lib, Opens lib.sum S leaf y) ↔
      y ∈ b.opt ∨ b.Exposed lib S y := by
  have hother {items : List Bytes} (h : items ∈ b.otherTrees lib) :
      Opens lib.sum S (hashFromByteSlices lib.sum items) y ↔ y ∈ items :=
    opens_root_iff hsum hsize hS (hin _ (Block.mem_proofTrees_of_other h))
  have hopt : Opens lib.sum S (hashFromByteSlices lib.sum b.opt) y ↔ y ∈ b.opt :=
    opens_root_iff hsum hsize hS (hin _ b.opt_mem_proofTrees)
  have hpackage : b.packageItems lib ∈ b.otherTrees lib := Block.mem_otherTrees.mpr (.inl rfl)
  have hptxs : b.ptxs.getD [] ∈ b.otherTrees lib := Block.mem_otherTrees.mpr (.inr (.inl rfl))
  have hlist : b.commitTxsListItems lib ∈ b.otherTrees lib :=
    Block.mem_otherTrees.mpr (.inr (.inr (.inl rfl)))
  have hci {ci : CommitIntention} (h : ci ∈ b.ci) : ci.items lib ∈ b.otherTrees lib :=
    Block.mem_otherTrees.mpr (.inr (.inr (.inr ⟨ci, h, rfl⟩)))
  constructor
  · rintro ⟨leaf, hleaf, hopens⟩
    have hempty (h : leaf = []) : b.Exposed lib S y := .inr (.inr (.inr ⟨h ▸ hleaf, hopens.mem⟩))
    have hmem := hleaf
    rw [Block.leaves_eq hb] at hmem
    simp only [List.mem_cons, List.not_mem_nil, or_false] at hmem
    rcases hmem with rfl | rfl | hprepare | rfl | hroot | rfl | rfl
    · exact .inr (.inl ⟨_, hpackage, (hother hpackage).mp hopens⟩)
    · exact .inr (.inr (.inl hopens))
    · rcases Block.prepareRoot_eq hb with heq | ⟨-, hnil⟩
      · rw [hprepare, heq, hother hptxs] at hopens
        exact .inr (.inl ⟨_, hptxs, hopens⟩)
      · exact .inr (hempty (hprepare.trans hnil))
    · exact .inl (hopt.mp hopens)
    · cases hb' : b.ci with
      | none => exact .inr (hempty (by rw [hroot, hb']; rfl))
      | some ci =>
        rw [hroot, hb', Option.map_some, Option.getD_some, ci.hash_eq, hother (hci hb')] at hopens
        exact .inr (.inl ⟨_, hci hb', hopens⟩)
    · exact .inr (.inl ⟨_, hlist, (hother hlist).mp hopens⟩)
    · exact .inr (.inr (.inr (.inl hopens)))
  · have hleaves := Block.leaves_eq hb
    rintro (hmem | ⟨items, hitems, hmem⟩ | hopens | hopens | ⟨hnil, hy⟩)
    · exact ⟨_, by rw [hleaves]; simp, hopt.mpr hmem⟩
    · have hopens := (hother hitems).mpr hmem
      rcases Block.mem_otherTrees.mp hitems with rfl | rfl | rfl | ⟨ci, hbci, rfl⟩
      · exact ⟨_, by rw [hleaves]; simp, hopens⟩
      · rcases Block.prepareRoot_eq hb with heq | ⟨hnone, -⟩
        · exact ⟨_, by rw [hleaves, heq]; simp, hopens⟩
        · rw [hnone] at hmem
          cases hmem
      · exact ⟨_, by rw [hleaves]; simp, hopens⟩
      · refine ⟨_, ?_, hopens⟩
        rw [hleaves, Option.mem_def.mp hbci]
        simp [ci.hash_eq]
    · exact ⟨_, by rw [hleaves]; simp, hopens⟩
    · exact ⟨_, by rw [hleaves]; simp, hopens⟩
    · exact ⟨[], hnil, opens_nil hy⟩

include hsum hS hin in
theorem root_inj (hitems : items ∈ b.proofTrees lib) {pair : List Bytes}
    (hpair : ∀ s ∈ hashed lib.sum pair, s ∈ S) :
    hashFromByteSlices lib.sum pair = hashFromByteSlices lib.sum items ↔ pair = items :=
  ⟨hashFromByteSlices_inj hsum hS hpair (hin _ hitems), congrArg _⟩

include hsum hsize hS hb hin in
/-- The root over two items is a leaf when they are the two items of the intention or are
exposed. -/
theorem Block.pair_mem_leaves_iff {x y : Bytes} (hpair : ∀ s ∈ hashed lib.sum [x, y], s ∈ S) :
    hashFromByteSlices lib.sum [x, y] ∈ (b.fillInHeader lib).leaves lib ↔
      (∃ ci ∈ b.ci, [x, y] = ci.items lib) ∨ b.ExposedPair lib [x, y] := by
  have hne := root_ne_nil hsum hsize [x, y]
  have hinj {items : List Bytes} (h : items ∈ b.otherTrees lib) :=
    root_inj hsum hS hin (Block.mem_proofTrees_of_other h) hpair
  have hpackage : hashFromByteSlices lib.sum [x, y] = hashFromByteSlices lib.sum (b.packageItems lib) ↔
      False := by
    rw [hinj (Block.mem_otherTrees.mpr (.inl rfl))]
    simp [Block.packageItems]
  have hprepare : hashFromByteSlices lib.sum [x, y] = (b.fillInHeader lib).prepareRoot ↔
      [x, y] = b.ptxs.getD [] := by
    rcases Block.prepareRoot_eq hb with heq | ⟨hnone, hnil⟩
    · rw [heq]
      exact hinj (Block.mem_otherTrees.mpr (.inr (.inl rfl)))
    · rw [hnil, hnone]
      simp [hne]
  have hopt := root_inj hsum hS hin b.opt_mem_proofTrees hpair
  have hlist := hinj (Block.mem_otherTrees.mpr (.inr (.inr (.inl rfl))))
  have hintention : hashFromByteSlices lib.sum [x, y] = (b.ci.map (·.hash lib)).getD [] ↔
      ∃ ci ∈ b.ci, [x, y] = ci.items lib := by
    cases hci : b.ci with
    | none => simpa using hne
    | some ci =>
      have hmem : ci.items lib ∈ b.otherTrees lib :=
        Block.mem_otherTrees.mpr (.inr (.inr (.inr ⟨ci, hci, rfl⟩)))
      simpa [ci.hash_eq] using hinj hmem
  rw [Block.leaves_eq hb]
  simp only [List.mem_cons, List.not_mem_nil, or_false]
  rw [hpackage, hprepare, hopt, hlist, hintention]
  unfold Block.ExposedPair
  constructor
  · rintro (hfalse | h | h | h | h | h | h)
    · exact hfalse.elim
    · exact .inr (.inr (.inr (.inr (.inl h))))
    · exact .inr (.inl h)
    · exact .inr (.inr (.inl h))
    · exact .inl h
    · exact .inr (.inr (.inr (.inl h)))
    · exact .inr (.inr (.inr (.inr (.inr h))))
  · rintro (h | h | h | h | h | h)
    · exact .inr (.inr (.inr (.inr (.inl h))))
    · exact .inr (.inr (.inl h))
    · exact .inr (.inr (.inr (.inl h)))
    · exact .inr (.inr (.inr (.inr (.inr (.inl h)))))
    · exact .inr (.inl h)
    · exact .inr (.inr (.inr (.inr (.inr (.inr h)))))

include hsum hS hin in
theorem brief_inj {ci : CommitIntention} (hci : ci ∈ b.ci) (hib : ∀ s ∈ hashed lib.sum ib, s ∈ S)
    (h : briefHash lib ib = ci.leftHash lib) : ci.intentionHash = ib := by
  refine (hashFromByteSlices_inj hsum hS hib (hin _ ?_) h).symm
  exact List.mem_append_right _ (List.mem_map_of_mem (Option.mem_toList.mpr hci))

include hsum hsize hS hb hin in
/-- **When the proofs are sound.** A block is safe from proofs that go through the wrong leaf
exactly when no list with its hash among the exposed strings is foreign to the relay lists, and no
brief in an exposed pair is foreign to the commit intention. -/
theorem Block.proofsSound_iff :
    b.ProofsSound lib S ↔
      (∀ x : Txs, (∀ s ∈ hashed lib.sum x, s ∈ S) → b.Exposed lib S (txsHash lib x) →
        txsHash lib x ∈ b.opt) ∧
      ∀ (ib : IntentionBrief) (right : Bytes), (∀ s ∈ hashed lib.sum ib, s ∈ S) →
        (∀ s ∈ hashed lib.sum [briefHash lib ib, right], s ∈ S) →
        b.ExposedPair lib [briefHash lib ib, right] → ∃ ci ∈ b.ci, ci.intentionHash = ib := by
  constructor
  · rintro ⟨hrelays, hintentions⟩
    refine ⟨fun x hx hexposed => ?_, fun ib right hib hpair hexposed => ?_⟩
    · obtain ⟨leaf, hleaf, hopens⟩ := (Block.opens_leaf_iff hsum hsize hS hb hin).mpr (.inr hexposed)
      obtain ⟨p, hp, hverify⟩ := exists_verify_iff.mpr
        ⟨hx, leaf, (Block.opens_hash_iff hsum hsize hS hin).mpr hleaf, hopens⟩
      exact hrelays p x hp hverify
    · have hleaf := (Block.pair_mem_leaves_iff hsum hsize hS hb hin hpair).mpr (.inr hexposed)
      obtain ⟨q, hq, hverify⟩ := exists_verifyIntention_iff.mpr
        ⟨hib, right, hpair, (Block.opens_hash_iff hsum hsize hS hin).mpr hleaf⟩
      exact hintentions q ib hq hverify
  · rintro ⟨hrelays, hintentions⟩
    refine ⟨fun p x hp hverify => ?_, fun q ib hq hverify => ?_⟩
    · obtain ⟨hx, leaf, hleaf, hopens⟩ := exists_verify_iff.mp ⟨p, hp, hverify⟩
      rw [Block.opens_hash_iff hsum hsize hS hin] at hleaf
      rcases (Block.opens_leaf_iff hsum hsize hS hb hin).mp ⟨leaf, hleaf, hopens⟩ with hmem | hexposed
      · exact hmem
      · exact hrelays x hx hexposed
    · obtain ⟨hib, right, hpair, hopens⟩ := exists_verifyIntention_iff.mp ⟨q, hq, hverify⟩
      rw [Block.opens_hash_iff hsum hsize hS hin,
        Block.pair_mem_leaves_iff hsum hsize hS hb hin hpair] at hopens
      rcases hopens with ⟨ci, hci, hitems⟩ | hexposed
      · exact ⟨ci, hci, brief_inj hsum hS hin hci hib (List.cons.inj hitems).1⟩
      · exact hintentions ib right hib hpair hexposed

/-- A block that relays nothing and intends nothing, with roots of other lengths for its hash
pointer and its state. -/
def quietBlock : Block where
  hashPointer := [9]
  chainID := [65]
  view := 4
  round := 0
  time := ⟨1700000000, 5⟩
  ptxs := some [[1], [2]]
  opt := [txsHash polyLib [], txsHash polyLib []]
  ci := some { intentionHash := [], aggregatedSignatures := [] }
  stateRoot := [8]

/-- The strings hashed for the block. -/
def quietStrings : List Bytes := ((quietBlock.proofTrees polyLib).flatMap (hashed polySum)).dedup

/-- Everything that is exposed in it is the hash of the empty list, which is relayed. -/
theorem proofsSound_quietBlock : quietBlock.ProofsSound polyLib {x | x ∈ quietStrings} := by
  have hinj : Set.InjOn polyLib.sum {x | x ∈ quietStrings} :=
    List.inj_on_of_nodup_map (by decide +kernel)
  have hin : HashedIn polyLib.sum {x | x ∈ quietStrings} (quietBlock.proofTrees polyLib) :=
    fun items hitems x hx => List.mem_dedup.mpr (List.mem_flatMap.mpr ⟨items, hitems, hx⟩)
  have hfresh : quietBlock.Fresh := ⟨rfl, rfl, rfl, rfl, rfl, rfl, rfl⟩
  have hlen (items : List Bytes) : (hashFromByteSlices polyLib.sum items).length = 32 :=
    length_hashFromByteSlices length_polySum items
  refine (Block.proofsSound_iff length_polySum (by decide) hinj hfresh.matches hin).mpr
    ⟨fun x _ hexposed => ?_, fun ib right hib _ hexposed => ?_⟩
  · have hitems : ∀ items ∈ quietBlock.otherTrees polyLib, ∀ y ∈ items, y.length = 32 →
        y ∈ quietBlock.opt := by decide +kernel
    rcases hexposed with ⟨items, hmem, hx⟩ | hopens | hopens | ⟨hnil, -⟩
    · exact hitems items hmem _ hx (hlen x)
    · exact absurd (hopens.length_root length_polySum) (by decide)
    · exact absurd (hopens.length_root length_polySum) (by decide)
    · exact absurd hnil (by decide +kernel)
  · have hbrief : (briefHash polyLib ib).length = 32 := hlen ib
    have hpair := hlen [briefHash polyLib ib, right]
    refine ⟨_, rfl, ?_⟩
    rcases hexposed with heq | heq | heq | heq | heq
    · rw [(List.cons.inj heq).1] at hbrief
      exact absurd hbrief (by decide)
    · exact brief_inj length_polySum hinj hin rfl hib (List.cons.inj heq).1
    · exact brief_inj length_polySum hinj hin rfl hib (List.cons.inj heq).1
    · rw [heq] at hpair
      exact absurd hpair (by decide)
    · rw [heq] at hpair
      exact absurd hpair (by decide)

/-- The hashes of the lists a block commits, shown as a relay list through `CommitTxsListRoot`. -/
def wrongRelay (b : Block) : OutputTxsProof where
  blockProof := (b.proofOfIndex polyLib 5).getD exampleProof
  oPTProof := (proofsFromByteSlices polySum (b.commitTxsListItems polyLib)).2.headD exampleProof

/-- The same list, shown as a commit intention. -/
def wrongIntention (b : Block) : ProofOfIntention where
  intentionHashProof := (b.proofOfIndex polyLib 5).getD exampleProof
  rightHash := hashFromByteSlices polySum (b.ctxsProof.map (·.hash polyLib))

/-- The list of the hashes of the committed lists. -/
def wrongList (b : Block) : List Bytes := b.ctxs.map (txsHash polyLib)

/-- All strings hashed for the block and for the two proofs. -/
def wrongStrings (b : Block) : List Bytes :=
  ((b.trees polyLib).flatMap (hashed polySum) ++ (wrongRelay b).inputs polyLib (wrongList b) ++
    (wrongIntention b).inputs polyLib (wrongList b)).dedup

/-- Both proofs go through the leaf of the committed lists, and no two strings collide. -/
theorem not_proofsSound_exampleBlock :
    (exampleBlock none).Fresh ∧
      Set.InjOn polyLib.sum {x | x ∈ wrongStrings (exampleBlock none)} ∧
      HashedIn polyLib.sum {x | x ∈ wrongStrings (exampleBlock none)}
        ((exampleBlock none).trees polyLib) ∧
      ((wrongRelay (exampleBlock none)).verify polyLib ((exampleBlock none).hash polyLib)
          (wrongList (exampleBlock none)) = true ∧
        txsHash polyLib (wrongList (exampleBlock none)) ∉ (exampleBlock none).opt) ∧
      ((wrongIntention (exampleBlock none)).verify polyLib ((exampleBlock none).hash polyLib)
          (briefHash polyLib (wrongList (exampleBlock none))) = true ∧
        ∀ ci ∈ (exampleBlock none).ci, ci.intentionHash ≠ wrongList (exampleBlock none)) ∧
      ¬(exampleBlock none).ProofsSound polyLib {x | x ∈ wrongStrings (exampleBlock none)} := by
  have hrelay : (wrongRelay (exampleBlock none)).verify polyLib ((exampleBlock none).hash polyLib)
      (wrongList (exampleBlock none)) = true := by decide +kernel
  have hopt : txsHash polyLib (wrongList (exampleBlock none)) ∉ (exampleBlock none).opt := by
    decide +kernel
  refine ⟨fresh_exampleBlock none, List.inj_on_of_nodup_map (by decide +kernel),
    fun items hitems x hx => ?_, ⟨hrelay, hopt⟩, ⟨by decide +kernel, by decide +kernel⟩,
    fun hsound => hopt (hsound.relays _ _ (fun s hs => ?_) hrelay)⟩
  · exact List.mem_dedup.mpr (List.mem_append_left _
      (List.mem_append_left _ (List.mem_flatMap.mpr ⟨items, hitems, hx⟩)))
  · exact List.mem_dedup.mpr (List.mem_append_left _ (List.mem_append_right _ hs))

end

/-! ## Messages that a node accepts -/

/-- `Receive` takes the message at a node of the shard `me`. -/
def Accepts {α : Type} (P : Network α) (me : Str) (s : State α) (m : CrossShardMessage) : Prop :=
  (takeMessage P me (.crossShardMessage m) s).1 = .ok ()

/-- The message carries what the block commits to for the shard with index `r`. -/
structure Faithful (lib : Lib) (b : Block) (r : ℕ) (m : CrossShardMessage) : Prop where
  relays : b.opt[r]? = some (txsHash lib m.oPTXs)
  intention : ∃ ci ∈ b.ci, ci.intentionHash = m.intentionBrief

/-- Both proofs are there, and for the leaves and the relay list that are meant. -/
structure Placed (b : Block) (r : ℕ) (m : CrossShardMessage) : Prop where
  intention : ∃ q ∈ m.proofOfIntention,
    q.intentionHashProof.index = 4 ∧ q.intentionHashProof.total = 7
  relays : ∃ p ∈ m.outputTxsProof, p.blockProof.index = 3 ∧ p.blockProof.total = 7 ∧
    p.oPTProof.index = r ∧ p.oPTProof.total = b.opt.length

/-- The strings hashed while the proofs of a message are verified. -/
def CrossShardMessage.inputs (lib : Lib) (m : CrossShardMessage) : List Bytes :=
  m.proofOfIntention.toList.flatMap (·.inputs lib m.intentionBrief) ++
    m.outputTxsProof.toList.flatMap (·.inputs lib m.oPTXs)

section

variable {α : Type} {P : Network α} {me : Str} {s : State α} {m : CrossShardMessage}

theorem accepts_iff :
    Accepts P me s m ↔ m.validateBasic P.lib = true ∧ m.sourceChain ∈ P.shardIDList ∧
      s.store (storeKey m.sourceChain m.getLastHash) = none := by
  have hvalidate : (Message.crossShardMessage m).validateBasic P.lib = m.validateBasic P.lib := rfl
  unfold Accepts takeMessage addMessage addCrossShardMessage
  rw [hvalidate]
  cases m.validateBasic P.lib with
  | false => simp [run_bind]
  | true =>
    by_cases hshard : m.sourceChain ∈ P.shardIDList
    · cases hstore : s.store (storeKey m.sourceChain m.getLastHash) with
      | none =>
        simp only [List.contains_eq_mem, hshard, decide_true, Option.isNone_iff_eq_none, run_bind,
          run_require_true, run_get, hstore, Option.isNone_none, run_modify, and_self, iff_true]
        split_ifs <;> simp [extendHash]
      | some bz => simp [run_bind, hshard, hstore]
    · simp [run_bind, hshard]

variable {S : Set Bytes} {size : ℕ} {b : Block} (hsum : ∀ x, (P.lib.sum x).length = size)
  (hsize : 0 < size) (hS : S.InjOn P.lib.sum) (hb : (b.fillInHeader P.lib).Matches P.lib)
  (hin : HashedIn P.lib.sum S (b.proofTrees P.lib))

include hsum hsize hS hb hin

/-- A proof for the leaf of the relay lists and the receiver's position shows its list. -/
theorem relays_of_placed {p : OutputTxsProof} {x : Txs} {r : ℕ} (hblock : p.blockProof.index = 3)
    (htotal : p.blockProof.total = 7) (hindex : p.oPTProof.index = r)
    (hlen : p.oPTProof.total = b.opt.length) (hp : ∀ y ∈ p.inputs P.lib x, y ∈ S)
    (h : p.verify P.lib (b.hash P.lib) x = true) : b.opt[r]? = some (txsHash P.lib x) := by
  unfold OutputTxsProof.inputs at hp
  unfold OutputTxsProof.verify at h
  rw [List.forall_mem_append, List.forall_mem_append] at hp
  rw [Bool.and_eq_true, Block.hash_eq] at h
  have hleaf := getElem?_of_verify (i := 3) hsum hsize hS (hin _ b.leaves_mem_proofTrees) hblock
    htotal hp.2 h.2
  rw [Block.leaves_eq hb] at hleaf
  have hroot := Option.some.inj hleaf
  rw [← hroot] at h
  exact getElem?_of_verify hsum hsize hS (hin _ b.opt_mem_proofTrees) hindex hlen hp.1.2 h.1

/-- A proof for the leaf of the commit intention shows the intention of the block. -/
theorem intention_of_placed {q : ProofOfIntention} (hindex : q.intentionHashProof.index = 4)
    (htotal : q.intentionHashProof.total = 7) (hq : ∀ y ∈ q.inputs P.lib ib, y ∈ S)
    (h : q.verify P.lib (b.hash P.lib) (briefHash P.lib ib) = true) :
    ∃ ci ∈ b.ci, ci.intentionHash = ib := by
  unfold ProofOfIntention.inputs at hq
  unfold ProofOfIntention.verify at h
  rw [List.forall_mem_append, List.forall_mem_append] at hq
  rw [Block.hash_eq] at h
  have hleaf := getElem?_of_verify (i := 4) hsum hsize hS (hin _ b.leaves_mem_proofTrees) hindex
    htotal hq.2 h
  rw [Block.leaves_eq hb] at hleaf
  have hroot := Option.some.inj hleaf
  cases hci : b.ci with
  | none =>
    rw [hci] at hroot
    exact absurd hroot.symm (root_ne_nil hsum hsize _)
  | some ci =>
    have hmem : ci.items P.lib ∈ b.proofTrees P.lib :=
      Block.mem_proofTrees_of_other (Block.mem_otherTrees.mpr (.inr (.inr (.inr ⟨ci, hci, rfl⟩))))
    rw [hci, Option.map_some, Option.getD_some, ci.hash_eq] at hroot
    have hitems := (root_inj hsum hS hin hmem hq.1.2).mp hroot.symm
    exact ⟨ci, rfl, brief_inj hsum hS hin hci hq.1.1 (List.cons.inj hitems).1⟩

/-- **What an accepted message has passed.** A message with both proofs for the right positions is
faithful. But a message without proofs passes, too, so that for a block of the shard `i` all
accepted messages are faithful only where none is accepted: the shard is unknown, or the key of the
block is taken. -/
theorem accepted_faithful_iff (me i : Str) (s : State α) (r : ℕ) :
    (∀ m : CrossShardMessage, m.sourceChain = i → m.getLastHash = b.hash P.lib → Accepts P me s m →
      (∀ x ∈ m.inputs P.lib, x ∈ S) → Placed b r m → Faithful P.lib b r m) ∧
    ((∀ m : CrossShardMessage, m.sourceChain = i → m.getLastHash = b.hash P.lib → Accepts P me s m →
      (∀ x ∈ m.inputs P.lib, x ∈ S) → Faithful P.lib b r m) ↔
        i ∉ P.shardIDList ∨ s.store (storeKey i (b.hash P.lib)) ≠ none) := by
  refine ⟨?_, ?_, ?_⟩
  · rintro m - hlast haccepts hm ⟨⟨q, hq, hindex, htotal⟩, ⟨p, hp, hblock, hseven, hr, hlen⟩⟩
    have hvalid := (accepts_iff.mp haccepts).1
    unfold CrossShardMessage.validateBasic at hvalid
    unfold CrossShardMessage.inputs at hm
    rw [Option.mem_def.mp hq, Option.mem_def.mp hp] at hvalid hm
    rw [hlast, Bool.and_eq_true] at hvalid
    rw [List.forall_mem_append] at hm
    exact ⟨relays_of_placed hsum hsize hS hb hin hblock hseven hr hlen (by simpa using hm.2) hvalid.2,
      intention_of_placed hsum hsize hS hb hin hindex htotal (by simpa using hm.1) hvalid.1⟩
  · intro hall
    by_contra hnot
    rw [not_or, not_not, not_not] at hnot
    -- a brief that is longer than the intention of the block
    let bad : CrossShardMessage :=
      { sourceChain := i, aggVote := { (exampleVote []) with forNecessaryData := [b.hash P.lib] }
        intentionBrief := (b.ci.map CommitIntention.intentionHash).getD [] ++ [[]] }
    have haccepts : Accepts P me s bad := accepts_iff.mpr ⟨rfl, hnot.1, hnot.2⟩
    obtain ⟨ci, hci, hbrief⟩ := (hall bad rfl rfl haccepts (by simp [bad, CrossShardMessage.inputs])).2
    have hlen := congrArg List.length hbrief
    simp [bad, Option.mem_def.mp hci] at hlen
  · rintro hnone m rfl hlast haccepts
    obtain ⟨-, hshard, hstore⟩ := accepts_iff.mp haccepts
    rw [hlast] at hstore
    exact absurd hstore (hnone.resolve_left (not_not.mpr hshard))

end

/-- A block with a relay list for each of two shards. -/
def relayBlock : Block :=
  { exampleBlock none with opt := [txsHash polyLib [[7]], txsHash polyLib [[8]]] }

/-- The message that a leader makes about the block for the shard with the given index. -/
def relayMessage (index : ℕ) (txs : Txs) : CrossShardMessage where
  sourceChain := [66]
  aggVote := { (exampleVote [9]) with forNecessaryData := [relayBlock.hash polyLib] }
  intentionBrief := [[3]]
  proofOfIntention := (relayBlock.getCommitIntentionProof polyLib).map fun p =>
    { intentionHashProof := p
      rightHash := hashFromByteSlices polySum [(exampleVote [6]).hash polySum polyLib.aggVote] }
  oPTXs := txs
  outputTxsProof := relayBlock.getOutputTxsProofOf polyLib index

/-- The strings hashed for the block and for the message to the first shard. -/
def relayStrings : List Bytes :=
  ((relayBlock.proofTrees polyLib).flatMap (hashed polySum) ++
    (relayMessage 0 [[7]]).inputs polyLib).dedup

/-- The message for the first shard is accepted there and faithful. -/
theorem faithful_relayMessage :
    Accepts pairNetwork [65] (newState 0) (relayMessage 0 [[7]]) ∧
      Faithful polyLib relayBlock 0 (relayMessage 0 [[7]]) := by
  have hinj : Set.InjOn pairNetwork.lib.sum {x | x ∈ relayStrings} :=
    List.inj_on_of_nodup_map (by decide +kernel)
  have hin : HashedIn pairNetwork.lib.sum {x | x ∈ relayStrings}
      (relayBlock.proofTrees pairNetwork.lib) := fun items hitems x hx =>
    List.mem_dedup.mpr (List.mem_append_left _ (List.mem_flatMap.mpr ⟨items, hitems, hx⟩))
  have hfresh : relayBlock.Fresh := ⟨rfl, rfl, rfl, rfl, rfl, rfl, rfl⟩
  have haccepts : Accepts pairNetwork [65] (newState 0) (relayMessage 0 [[7]]) :=
    accepts_iff.mpr (by decide +kernel)
  refine ⟨haccepts, (accepted_faithful_iff length_polySum (by decide) hinj hfresh.matches hin [65] [66]
    (newState 0) 0).1 _ rfl rfl haccepts (fun x hx => ?_) ⟨?_, ?_⟩⟩
  · exact List.mem_dedup.mpr (List.mem_append_right _ hx)
  · decide +kernel
  · decide +kernel

/-- The first shard accepts the list for the second one with its proof, and any list without one. -/
theorem accepted_not_faithful :
    (relayMessage 1 [[8]]).getLastHash = relayBlock.hash polyLib ∧
    Accepts pairNetwork [65] (newState 0) (relayMessage 1 [[8]]) ∧
    ¬Faithful polyLib relayBlock 0 (relayMessage 1 [[8]]) ∧
    Accepts pairNetwork [65] (newState 0)
      { relayMessage 0 [[5]] with outputTxsProof := none, proofOfIntention := none } ∧
    ¬Faithful polyLib relayBlock 0
      { relayMessage 0 [[5]] with outputTxsProof := none, proofOfIntention := none } := by
  refine ⟨rfl, accepts_iff.mpr (by decide +kernel), fun h => ?_, accepts_iff.mpr (by decide +kernel),
    fun h => ?_⟩
  · exact absurd h.relays (by decide +kernel)
  · exact absurd h.relays (by decide +kernel)

end Emulator.Urd
