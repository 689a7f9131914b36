import Emulator.Lib.Action
import Emulator.Urd.Codecs

/-!
# Parts that anyone may have sent

A receiver knows the header of a proposal, that is, the number of parts and the root of their Merkle
tree. The parts come from the network: with forged bytes, forged proofs, wrong indices, and more
than once. `AddPart` tells them apart by the proof only, so what a slot holds rests on the hash
function: the strings hashed for the block and for the parts that arrived do not collide.

* `addPartInPlace` — `AddPart` with its writes in the order of the source.
* `Collected` — what holds of the set after every call.
* `addParts_integrity` — no sequence of calls puts other bytes into the set than those of the block.
-/

namespace Emulator

open Emulator.Action Merkle

variable {Block : Type} {lib : BlockLib Block} {ps : PartSet} {p : Part}

/-! ## Adding a part in place -/

/-- `PartSet.AddPart`, as a method on the set: the slot is read, the part is checked, and then the
slot and the counter are written. -/
def addPartInPlace (lib : BlockLib Block) (p : Part) : Action PartError PartSet Unit := do
  let ps ← get
  let slot ← orThrow (if p.proof.index < ps.header.total then
      if 0 ≤ p.proof.index then ps.parts[p.proof.index.toNat]? else none
    else some none) .panic
  require slot.isNone .duplicated
  require (ps.header.height = p.height) .height
  require (ps.header.round = p.round) .round
  require (p.verify lib ps.header.root ps.header.total ps.header.chainID) .merkle
  require (0 ≤ p.proof.index ∧ p.proof.index.toNat < ps.parts.length) .panic
  modify fun ps => { ps with parts := ps.parts.set p.proof.index.toNat (some p) }
  modify fun ps => { ps with count := ps.count + 1 }

/-- The calls of `AddPart` for a list of parts, in order. -/
def addParts (lib : BlockLib Block) (parts : List Part) (ps : PartSet) : PartSet :=
  parts.foldl (fun ps p => (addPartInPlace lib p ps).2) ps

theorem index_of_verify {root : Bytes} {total : ℤ} {chainID : Str} (hroot : root ≠ [])
    (h : p.verify lib root total chainID = true) : 0 ≤ p.proof.index ∧ p.proof.index < total := by
  simp only [Part.verify, Bool.and_eq_true, beq_iff_eq] at h
  obtain ⟨-, hindex, hlt, -⟩ := verify_eq_true hroot h.2
  rw [h.1.1]
  exact ⟨hindex, hlt⟩

/-- **Nothing is written before all checks have passed.** -/
theorem addPartInPlace_eq (hlen : (ps.parts.length : ℤ) = ps.header.total)
    (hroot : ps.header.root ≠ []) (hindex : 0 ≤ p.proof.index) :
    addPartInPlace lib p ps =
      ((ps.addPart lib p).map fun _ => (), (ps.addPart lib p).toOption.getD ps) := by
  -- the slot is there whenever it is read
  have hslot : (if p.proof.index < ps.header.total then
        if 0 ≤ p.proof.index then ps.parts[p.proof.index.toNat]? else none
      else some none) =
      some (if p.proof.index < ps.header.total then ps.parts[p.proof.index.toNat]?.join
        else none) := by
    split_ifs with hlt
    · have hin : p.proof.index.toNat < ps.parts.length := by omega
      rw [List.getElem?_eq_getElem hin, Option.join_some]
    · rfl
  have hwithin : p.verify lib ps.header.root ps.header.total ps.header.chainID = true →
      p.proof.index.toNat < ps.parts.length := by
    intro hverify
    have hlt := (index_of_verify hroot hverify).2
    omega
  rw [addPartInPlace, run_bind_ok (run_get ps), hslot, run_bind_ok (run_orThrow_some _ _ _)]
  simp only [run_require_bind]
  unfold PartSet.addPart
  rw [if_neg (not_lt.mpr hindex)]
  have hfree : (if p.proof.index < ps.header.total then ps.parts[p.proof.index.toNat]?.join
      else none).isNone = true ↔
      ¬(p.proof.index < ps.header.total ∧ (ps.parts[p.proof.index.toNat]?).join.isSome) := by
    split_ifs with hlt <;> simp [hlt]
  simp only [hfree, decide_eq_true_eq]
  by_cases hdup : p.proof.index < ps.header.total ∧ (ps.parts[p.proof.index.toNat]?).join.isSome
  · rw [if_neg (not_not.mpr hdup), if_pos hdup]
    rfl
  rw [if_pos hdup, if_neg hdup]
  by_cases hheight : ps.header.height = p.height
  swap
  · rw [if_neg hheight, if_pos hheight]
    rfl
  rw [if_pos hheight, if_neg (not_not.mpr hheight)]
  by_cases hround : ps.header.round = p.round
  swap
  · rw [if_neg hround, if_pos hround]
    rfl
  rw [if_pos hround, if_neg (not_not.mpr hround)]
  cases hverify : p.verify lib ps.header.root ps.header.total ps.header.chainID with
  | false => rfl
  | true =>
    rw [if_pos rfl, if_pos ⟨hindex, hwithin hverify⟩]
    rfl

/-! ## What the set holds -/

/-- A part as it comes to `AddPart`: it has passed `ValidateBasic`, and the strings hashed to verify
it are among `S`. -/
structure Delivered (lib : BlockLib Block) (S : Set Bytes) (p : Part) : Prop where
  valid : p.validateBasic = true
  hashed : ∀ x ∈ p.proof.verifyInputs lib.sum p.bytes, x ∈ S

theorem Delivered.index_nonneg {S : Set Bytes} (h : Delivered lib S p) : 0 ≤ p.proof.index := by
  have hvalid := h.valid
  simp only [Part.validateBasic, Proof.validateBasic, Bool.and_eq_true, decide_eq_true_eq] at hvalid
  exact hvalid.2.1.1.1.2

/-- A set for the header of the block, with the parts that it counts. -/
structure Collected (lib : BlockLib Block) (S : Set Bytes) (b : Block) (maxPartSize : ℕ) (round : ℤ)
    (ps : PartSet) : Prop where
  header : ps.header = (partSetFromBlock lib b maxPartSize round).header
  sound : ps.Sound lib S
  count : ps.count = ps.parts.countP Option.isSome

section

variable {S : Set Bytes} {b : Block} {maxPartSize : ℕ} {round : ℤ} {size : ℕ}

theorem collected_newPartSet (headerHash : Bytes) :
    Collected lib S b maxPartSize round
      (newPartSet (partSetFromBlock lib b maxPartSize round).header headerHash) where
  header := rfl
  sound := by
    apply PartSet.sound_newPartSet
    rw [total_partSetFromBlock]
    exact Int.natCast_nonneg _
  count := (PartSet.filled_newPartSet rfl rfl).count

/-- **One call.** The part is refused and the set is as it was, or it is taken into its slot, which
was free. -/
theorem Collected.addPart (hsize : 0 < size) (hsum : ∀ x, (lib.sum x).length = size)
    (hps : Collected lib S b maxPartSize round ps) (hp : Delivered lib S p) :
    (∃ e, e ≠ .panic ∧ addPartInPlace lib p ps = (.error e, ps)) ∨
    ∃ ps', addPartInPlace lib p ps = (.ok (), ps') ∧
      (ps.parts[p.proof.index.toNat]?).join = none ∧
      ps'.parts = ps.parts.set p.proof.index.toNat (some p) ∧
      ps'.parts[p.proof.index.toNat]? = some (some p) ∧
      Collected lib S b maxPartSize round ps' := by
  have hroot : ps.header.root ≠ [] := by
    rw [hps.header]
    exact root_partSetFromBlock hsize hsum b maxPartSize round
  have hindex := hp.index_nonneg
  rw [addPartInPlace_eq hps.sound.length hroot hindex]
  cases hadd : ps.addPart lib p with
  | error e =>
    refine .inl ⟨e, ?_, rfl⟩
    rintro rfl
    unfold PartSet.addPart at hadd
    rw [if_neg (not_lt.mpr hindex)] at hadd
    split_ifs at hadd
    all_goals cases hadd
  | ok ps' =>
    obtain ⟨-, hverify, heq⟩ := PartSet.addPart_eq_ok hadd
    have hlt := (index_of_verify hroot hverify).2
    have hhashed : ∀ x ∈ p.proof.inputs lib.sum p.bytes, x ∈ S := by
      have hproof := hverify
      simp only [Part.verify, Bool.and_eq_true] at hproof
      rw [← verifyInputs_of_verify hroot hproof.2]
      exact hp.hashed
    have hcount := PartSet.count_addPart hps.sound.length hps.count hadd hlt
    have hsound := hps.sound.addPart hhashed hadd
    have hfree := PartSet.addPart_free hadd hlt
    have hlen := hps.sound.length
    subst heq
    refine .inr ⟨_, rfl, hfree, rfl, ?_, hps.header, hsound, hcount⟩
    exact List.getElem?_set_self (by omega)

theorem Collected.addParts (hsize : 0 < size) (hsum : ∀ x, (lib.sum x).length = size)
    (hps : Collected lib S b maxPartSize round ps) {parts : List Part}
    (hparts : ∀ p ∈ parts, Delivered lib S p) :
    Collected lib S b maxPartSize round (addParts lib parts ps) := by
  induction parts generalizing ps with
  | nil => exact hps
  | cons p parts ih =>
    rw [List.forall_mem_cons] at hparts
    have hnext : Collected lib S b maxPartSize round (addPartInPlace lib p ps).2 := by
      rcases hps.addPart hsize hsum hparts.1 with ⟨e, -, hrun⟩ | ⟨ps', hrun, -, -, -, hps'⟩
      · rw [hrun]
        exact hps
      · rw [hrun]
        exact hps'
    exact ih hnext hparts.2

theorem Collected.bytes_eq (hsize : 0 < size) (hsum : ∀ x, (lib.sum x).length = size)
    (hS : S.InjOn lib.sum) (hown : PartsIn lib S b maxPartSize round)
    (hps : Collected lib S b maxPartSize round ps) {i : ℕ} (hi : ps.parts[i]? = some (some p)) :
    ∃ q, (partsOf lib b maxPartSize round)[i]? = some q ∧ p.bytes = q.bytes := by
  have hlt : i < (partsOf lib b maxPartSize round).length := by
    have hlt := (List.getElem?_eq_some_iff.mp hi).1
    have hlen := hps.sound.length
    rw [hps.header, total_partSetFromBlock] at hlen
    omega
  have hq := List.getElem?_eq_getElem hlt
  refine ⟨_, hq, ?_⟩
  have hpart := hps.sound.parts i p hi
  rw [hps.header] at hpart
  exact hpart.bytes_unique hsum hS (root_partSetFromBlock hsize hsum b maxPartSize round)
    (partOf_partsOf hown hq)

/-- All slots filled, the bytes of the parts are the bytes of the block. -/
theorem Collected.flatMap_bytes (hsize : 0 < size) (hsum : ∀ x, (lib.sum x).length = size)
    (hS : S.InjOn lib.sum) (hmax : 0 < maxPartSize) (hown : PartsIn lib S b maxPartSize round)
    (hps : Collected lib S b maxPartSize round ps) {parts : List Part}
    (hparts : ps.parts = parts.map some) : parts.flatMap Part.bytes = lib.codec.marshal b := by
  have hbytes : parts.map Part.bytes = (partsOf lib b maxPartSize round).map Part.bytes := by
    have hlen := hps.sound.length
    rw [hparts, hps.header, total_partSetFromBlock, List.length_map] at hlen
    refine List.ext_getElem (by simp only [List.length_map]; omega) fun i hi hi' => ?_
    rw [List.length_map] at hi hi'
    have hget : ps.parts[i]? = some (some parts[i]) := by
      rw [hparts, List.getElem?_map, List.getElem?_eq_getElem hi, Option.map_some]
    obtain ⟨q, hq, heq⟩ := hps.bytes_eq hsize hsum hS hown hget
    rw [List.getElem_map, List.getElem_map, heq, (List.getElem?_eq_some_iff.mp hq).2]
  rw [List.flatMap_def, hbytes, map_bytes_partsOf, flatten_splitByteArray hmax]

/-- What `AddPart` does with a part that was delivered to a set for the block `b`. -/
structure AddsOriginal (lib : BlockLib Block) (b : Block) (maxPartSize : ℕ) (round : ℤ)
    (ps : PartSet) (p : Part) : Prop where
  returns : (addPartInPlace lib p ps).1 ≠ .error .panic
  /-- a part that is taken has the bytes of the block's part with its index -/
  accepted : ∀ ps', addPartInPlace lib p ps = (.ok (), ps') →
    ps'.parts = ps.parts.set p.proof.index.toNat (some p) ∧
    ∃ q, (partsOf lib b maxPartSize round)[p.proof.index.toNat]? = some q ∧ p.bytes = q.bytes
  /-- a part that is refused leaves no trace -/
  refused : ∀ e ps', addPartInPlace lib p ps = (.error e, ps') → ps' = ps

/-- What a set for the block `b` holds. -/
structure HoldsOriginal (lib : BlockLib Block) (b : Block) (maxPartSize : ℕ) (round : ℤ)
    (ps : PartSet) : Prop where
  slots : ps.parts.length = (partsOf lib b maxPartSize round).length
  bytes : ∀ (i : ℕ) (p : Part), ps.parts[i]? = some (some p) →
    ∃ q, (partsOf lib b maxPartSize round)[i]? = some q ∧ p.bytes = q.bytes
  count : ps.count = ps.parts.countP Option.isSome
  complete : ps.isComplete = true ↔ ∀ slot ∈ ps.parts, slot.isSome = true
  /-- the bytes that `GenBlock` joins -/
  joined : ps.isComplete = true → ∃ parts : List Part, ps.parts = parts.map some ∧
    parts.flatMap Part.bytes = lib.codec.marshal b

theorem Collected.addsOriginal (hsize : 0 < size) (hsum : ∀ x, (lib.sum x).length = size)
    (hS : S.InjOn lib.sum) (hown : PartsIn lib S b maxPartSize round)
    (hps : Collected lib S b maxPartSize round ps) (hp : Delivered lib S p) :
    AddsOriginal lib b maxPartSize round ps p := by
  rcases hps.addPart hsize hsum hp with ⟨e, he, hrun⟩ | ⟨ps', hrun, -, hset, hslot, hps'⟩
  · refine ⟨?_, fun ps' h => ?_, fun e' ps' h => ?_⟩
    · rw [hrun]
      simpa using he
    · cases hrun.symm.trans h
    · cases hrun.symm.trans h
      rfl
  · refine ⟨?_, fun ps'' h => ?_, fun e' ps'' h => ?_⟩
    · rw [hrun]
      exact nofun
    · cases hrun.symm.trans h
      exact ⟨hset, hps'.bytes_eq hsize hsum hS hown hslot⟩
    · cases hrun.symm.trans h

theorem Collected.holdsOriginal (hsize : 0 < size) (hsum : ∀ x, (lib.sum x).length = size)
    (hS : S.InjOn lib.sum) (hmax : 0 < maxPartSize) (hown : PartsIn lib S b maxPartSize round)
    (hps : Collected lib S b maxPartSize round ps) : HoldsOriginal lib b maxPartSize round ps where
  slots := by
    have hlen := hps.sound.length
    rw [hps.header, total_partSetFromBlock] at hlen
    exact_mod_cast hlen
  bytes _ _ hi := hps.bytes_eq hsize hsum hS hown hi
  count := hps.count
  complete := PartSet.isComplete_iff hps.sound.length hps.count
  joined hcomplete := by
    have hsome := (PartSet.isComplete_iff hps.sound.length hps.count).mp hcomplete
    obtain ⟨parts, hparts⟩ : ∃ parts : List Part, ps.parts = parts.map some := by
      refine ⟨ps.parts.attach.map fun slot => slot.1.get (hsome slot.1 slot.2), ?_⟩
      simp [Function.comp_def]
    exact ⟨parts, hparts, hps.flatMap_bytes hsize hsum hS hmax hown hparts⟩

/-- **Integrity of reassembly.** A set for the header of a block, after any calls of `AddPart` with
parts that passed `ValidateBasic`, holds nothing but bytes of the block in their places; its counter
is the number of filled slots; when it is complete, the bytes join to those of the block. The next
part is refused without a trace, or it has the bytes of the block's part. -/
theorem addParts_integrity (hsize : 0 < size) (hsum : ∀ x, (lib.sum x).length = size)
    (hS : S.InjOn lib.sum) (hmax : 0 < maxPartSize) (hown : PartsIn lib S b maxPartSize round)
    (headerHash : Bytes) {parts : List Part} (hparts : ∀ p ∈ parts, Delivered lib S p) :
    HoldsOriginal lib b maxPartSize round (addParts lib parts
      (newPartSet (partSetFromBlock lib b maxPartSize round).header headerHash)) ∧
    ∀ p, Delivered lib S p → AddsOriginal lib b maxPartSize round (addParts lib parts
      (newPartSet (partSetFromBlock lib b maxPartSize round).header headerHash)) p := by
  have hnew : Collected lib S b maxPartSize round
      (newPartSet (partSetFromBlock lib b maxPartSize round).header headerHash) :=
    collected_newPartSet headerHash
  have hps := hnew.addParts hsize hsum hparts
  exact ⟨hps.holdsOriginal hsize hsum hS hmax hown,
    fun p hp => hps.addsOriginal hsize hsum hS hown hp⟩

end

namespace Urd

def smallBlock : Urd.Block where
  chainID := [65]
  view := 1
  round := 0
  time := ⟨0, 0⟩
  ptxs := some [[1, 2, 3], [4]]

/-- The parts of the block with other bytes, with other indices, in reverse, and once more. -/
def mixedParts : List Part :=
  let parts := partsOf (blockLib polyLib) smallBlock 100 0
  parts.map (fun p => { p with bytes := 0 :: p.bytes }) ++
    parts.map (fun p => { p with proof := { p.proof with index := p.proof.index + 1 } }) ++
    parts.reverse ++ parts

theorem validateBasic_mixedParts : ∀ p ∈ mixedParts, p.validateBasic = true := by decide +kernel

/-- The strings hashed for the block and for the parts that are delivered. -/
def mixedStrings : List Bytes :=
  let parts := partsOf (blockLib polyLib) smallBlock 100 0
  (parts.flatMap (fun p => p.proof.inputs polySum p.bytes) ++
    mixedParts.flatMap fun p => p.proof.verifyInputs polySum p.bytes).dedup

theorem addParts_integrity_mixedParts :
    Set.InjOn (blockLib polyLib).sum {x | x ∈ mixedStrings} ∧
    (∀ p ∈ mixedParts, Delivered (blockLib polyLib) {x | x ∈ mixedStrings} p) ∧
    (addParts (blockLib polyLib) mixedParts
      (newPartSet (partSetFromBlock (blockLib polyLib) smallBlock 100 0).header [])).isComplete =
        true ∧
    HoldsOriginal (blockLib polyLib) smallBlock 100 0 (addParts (blockLib polyLib) mixedParts
      (newPartSet (partSetFromBlock (blockLib polyLib) smallBlock 100 0).header [])) := by
  have hinj : Set.InjOn (blockLib polyLib).sum {x | x ∈ mixedStrings} :=
    List.inj_on_of_nodup_map (by decide +kernel)
  have hown : PartsIn (blockLib polyLib) {x | x ∈ mixedStrings} smallBlock 100 0 :=
    fun p hp x hx => List.mem_dedup.mpr (List.mem_append_left _ (List.mem_flatMap.mpr ⟨p, hp, hx⟩))
  have hparts : ∀ p ∈ mixedParts, Delivered (blockLib polyLib) {x | x ∈ mixedStrings} p :=
    fun p hp => ⟨validateBasic_mixedParts p hp, fun x hx =>
      List.mem_dedup.mpr (List.mem_append_right _ (List.mem_flatMap.mpr ⟨p, hp, hx⟩))⟩
  exact ⟨hinj, hparts, by decide +kernel,
    (addParts_integrity (by decide) length_polySum hinj (by decide) hown [] hparts).1⟩

end Urd

end Emulator
