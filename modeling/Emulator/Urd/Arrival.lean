import Emulator.Urd.Methods
import Emulator.Urd.Reassembly

/-!
# The order in which parts arrive

A validator may get the parts of a block before the header of its proposal. `BlockData` keeps such
parts by view and round, tries them when the header comes, and drops everything before the view that
it enters. Whatever the order, the part set of a header is the set that `AddPart` makes of all parts
that came for it, one after another: this is `Tracks`, and every delivery keeps it. So the set is
complete once every slot has seen a valid part, and the rest is about one part set.

* `Gathers` — what a part set holds after some parts.
* `Tracks` — the part set, or the parts that wait for it.
* `arrival_order` — the header and its valid parts complete the set in any order.
-/

namespace Emulator.Urd

open Emulator.Action

variable {lib : Lib}

/-! ## One part set -/

/-- The part set after a call of `AddPart`. -/
def take (lib : Lib) (ps : PartSet) (p : Part) : PartSet :=
  (ps.addPart (blockLib lib) p).toOption.getD ps

/-- The part set after calls of `AddPart`. -/
def fill (lib : Lib) (ps : PartSet) (parts : List Part) : PartSet := parts.foldl (take lib) ps

/-- The part is one of the header. -/
structure ValidPart (lib : Lib) (header : PartSetHeader) (p : Part) : Prop where
  height : p.height = header.height
  round : p.round = header.round
  verify : p.verify (blockLib lib) header.root header.total header.chainID = true

variable {p : Part} {ps : PartSet} {header : PartSetHeader} {r v : ℤ} {parts : List Part}
  {e : Delivery} {bd : BlockData} {es : List Delivery}

theorem ValidPart.index (h : ValidPart lib header p) (hroot : header.root ≠ []) :
    0 ≤ p.proof.index ∧ p.proof.index < header.total :=
  index_of_verify hroot h.verify

theorem addPart_eq_ok_iff {ps' : PartSet} (hroot : ps.header.root ≠ []) :
    ps.addPart (blockLib lib) p = .ok ps' ↔
      ValidPart lib ps.header p ∧ (ps.parts[p.proof.index.toNat]?).join = none ∧
        ps' = { ps with
          parts := ps.parts.set p.proof.index.toNat (some p)
          count := ps.count + 1 } := by
  constructor
  · intro h
    obtain ⟨-, hverify, heq⟩ := PartSet.addPart_eq_ok h
    have hvalid : ValidPart lib ps.header p := by
      refine ⟨?_, ?_, hverify⟩
      all_goals
        unfold PartSet.addPart at h
        split_ifs at h with h₁ h₂ h₃ h₄
      · exact (not_not.mp h₃).symm
      · exact (not_not.mp h₄).symm
    exact ⟨hvalid, PartSet.addPart_free h (hvalid.index hroot).2, heq⟩
  · rintro ⟨hvalid, hfree, rfl⟩
    unfold PartSet.addPart
    rw [if_neg (not_lt.mpr (hvalid.index hroot).1), if_neg (by simp [hfree]),
      if_neg (not_not.mpr hvalid.height.symm), if_neg (not_not.mpr hvalid.round.symm), if_neg]
    simp [hvalid.verify]

/-- What a set for the header holds after `parts`. -/
structure Gathers (lib : Lib) (header : PartSetHeader) (parts : List Part) (ps : PartSet) :
    Prop where
  header_eq : ps.header = header
  length : (ps.parts.length : ℤ) = header.total
  count : ps.count = ps.parts.countP Option.isSome
  held : ∀ (i : ℕ) (p : Part), ps.parts[i]? = some (some p) →
    p ∈ parts ∧ ValidPart lib header p ∧ p.proof.index = i
  taken : ∀ p ∈ parts, ValidPart lib header p →
    ∃ q, ps.parts[p.proof.index.toNat]? = some (some q)

theorem gathers_newPartSet (headerHash : Bytes) (h : 0 ≤ header.total) :
    Gathers lib header [] (newPartSet header headerHash) := by
  have hlen : ((newPartSet header headerHash).parts.length : ℤ) = header.total := by
    show ((List.replicate header.total.toNat none).length : ℤ) = header.total
    rw [List.length_replicate]
    omega
  refine ⟨rfl, hlen, ?_, fun i p hp => ?_, fun p hp => absurd hp List.not_mem_nil⟩
  · show 0 = (List.replicate header.total.toNat none).countP Option.isSome
    rw [List.countP_replicate]
    rfl
  · cases List.eq_of_mem_replicate (List.mem_of_getElem? hp)

section

variable (hps : Gathers lib header parts ps)

include hps

/-- A valid part is refused only because its slot is taken. -/
theorem Gathers.refused (hroot : header.root ≠ [])
    {e : PartError} (hadd : ps.addPart (blockLib lib) p = .error e) :
    Gathers lib header (parts ++ [p]) ps := by
  have hheader := hps.header_eq
  refine ⟨hheader, hps.length, hps.count, fun i q hq => ?_, fun q hq hvalid => ?_⟩
  · obtain ⟨hmem, hvalid, hindex⟩ := hps.held i q hq
    exact ⟨List.mem_append_left _ hmem, hvalid, hindex⟩
  · rcases List.mem_append.mp hq with hq | hq
    · exact hps.taken q hq hvalid
    · obtain rfl := List.mem_singleton.mp hq
      have hlt : q.proof.index.toNat < ps.parts.length := by
        have hindex := hvalid.index hroot
        have hlen := hps.length
        omega
      by_contra hfree
      have hok := (addPart_eq_ok_iff (hheader.symm ▸ hroot)).mpr ⟨hheader ▸ hvalid, ?_, rfl⟩
      · cases hok.symm.trans hadd
      · rw [List.getElem?_eq_getElem hlt, Option.join_some, Option.eq_none_iff_forall_ne_some]
        intro q' hq'
        exact hfree ⟨q', by rw [List.getElem?_eq_getElem hlt, hq']⟩

theorem Gathers.added {ps' : PartSet} (hroot : header.root ≠ [])
    (hadd : ps.addPart (blockLib lib) p = .ok ps') : Gathers lib header (parts ++ [p]) ps' := by
  have hheader := hps.header_eq
  have hroot' : ps.header.root ≠ [] := by rwa [hheader]
  obtain ⟨hvalid, -, heq⟩ := (addPart_eq_ok_iff hroot').mp hadd
  have hindex := hvalid.index hroot'
  have hlen : (ps.parts.length : ℤ) = ps.header.total := hheader ▸ hps.length
  have hlt : p.proof.index.toNat < ps.parts.length := by omega
  have hcount := PartSet.count_addPart hlen hps.count hadd hindex.2
  subst heq
  refine ⟨hheader, ?_, hcount, fun i q hq => ?_, fun q hq hq' => ?_⟩
  · simpa using hps.length
  · by_cases hi : p.proof.index.toNat = i
    · subst hi
      rw [List.getElem?_set_self hlt] at hq
      obtain rfl := Option.some.inj (Option.some.inj hq)
      exact ⟨List.mem_append_right _ (List.mem_singleton.mpr rfl), hheader ▸ hvalid, by omega⟩
    · rw [List.getElem?_set_ne hi] at hq
      obtain ⟨hmem, hvalid', hindex'⟩ := hps.held i q hq
      exact ⟨List.mem_append_left _ hmem, hvalid', hindex'⟩
  · by_cases hi : p.proof.index.toNat = q.proof.index.toNat
    · exact ⟨p, hi ▸ List.getElem?_set_self hlt⟩
    · rw [List.getElem?_set_ne hi]
      rcases List.mem_append.mp hq with hq | hq
      · exact hps.taken q hq hq'
      · exact absurd (congrArg (·.proof.index.toNat) (List.mem_singleton.mp hq).symm) hi

theorem Gathers.take (hroot : header.root ≠ []) (p : Part) :
    Gathers lib header (parts ++ [p]) (take lib ps p) := by
  unfold Urd.take
  cases hadd : ps.addPart (blockLib lib) p with
  | error e => exact hps.refused hroot hadd
  | ok ps' => exact hps.added hroot hadd

end

theorem fill_append (ps : PartSet) (parts parts' : List Part) :
    fill lib ps (parts ++ parts') = fill lib (fill lib ps parts) parts' :=
  List.foldl_append ..

theorem gathers_fill (headerHash : Bytes) (htotal : 0 ≤ header.total) (hroot : header.root ≠ [])
    (parts : List Part) :
    Gathers lib header parts (fill lib (newPartSet header headerHash) parts) := by
  induction parts using List.reverseRecOn with
  | nil => exact gathers_newPartSet headerHash htotal
  | append_singleton parts p ih =>
    rw [fill_append]
    exact ih.take hroot p

theorem Gathers.isComplete (hps : Gathers lib header parts ps)
    (hall : ∀ i : ℕ, i < header.total → ∃ p ∈ parts, ValidPart lib header p ∧ p.proof.index = i) :
    ps.isComplete = true := by
  have hlen : (ps.parts.length : ℤ) = ps.header.total := hps.header_eq ▸ hps.length
  refine (PartSet.isComplete_iff hlen hps.count).mpr fun slot hslot => ?_
  obtain ⟨i, hi⟩ := List.mem_iff_getElem?.mp hslot
  have hlt := (List.getElem?_eq_some_iff.mp hi).1
  obtain ⟨p, hp, hvalid, hindex⟩ := hall i (by rw [← hps.length]; omega)
  obtain ⟨q, hq⟩ := hps.taken p hp hvalid
  rw [hindex, Int.toNat_natCast, hi] at hq
  rw [Option.some.inj hq]
  rfl

/-! ## The methods of `BlockData` -/

theorem old_setPartSet (bd : BlockData) (v r : ℤ) (ps : PartSet) :
    (bd.setPartSet v r ps).old = bd.old := rfl

theorem setPartSet_eq_self (h : bd.blocks v r = some ps) : bd.setPartSet v r ps = bd := by
  rw [BlockData.setPartSet, ← h, Function.update_eq_self, Function.update_eq_self]

theorem setPartSet_setPartSet (bd : BlockData) (v r : ℤ) (ps ps' : PartSet) :
    (bd.setPartSet v r ps).setPartSet v r ps' = bd.setPartSet v r ps' := by
  simp [BlockData.setPartSet]

theorem old_appendPart (bd : BlockData) (p : Part) : (bd.appendPart p).old = bd.old := by
  unfold BlockData.appendPart
  split_ifs <;> rfl

/-- Entering a view drops exactly what is old from then on. -/
theorem old_next (bd : BlockData) (view round v r : ℤ) :
    (bd.next view round).old v r = !(decide (view < v) || (v == view && decide (round ≤ r))) := by
  rw [Bool.eq_iff_iff]
  simp only [BlockData.old, BlockData.next, Bool.or_eq_true, Bool.and_eq_true, decide_eq_true_eq,
    beq_iff_eq, Bool.not_eq_true', Bool.or_eq_false_iff, Bool.and_eq_false_imp,
    decide_eq_false_iff_not]
  omega

theorem blocks_next (bd : BlockData) (view round v r : ℤ) :
    (bd.next view round).blocks v r =
      if (bd.next view round).old v r then none else bd.blocks v r := by
  rw [old_next]
  simp only [BlockData.next, Bool.not_eq_true', ← Bool.not_eq_true, ite_not]

theorem retainBlockParts_next (bd : BlockData) (view round v r : ℤ) :
    (bd.next view round).retainBlockParts v r =
      if (bd.next view round).old v r then [] else bd.retainBlockParts v r := by
  rw [old_next]
  simp only [BlockData.next, Bool.not_eq_true', ← Bool.not_eq_true, ite_not]

theorem run_addPart (lib : Lib) (hnew : bd.old p.height p.round = false)
    (hps : bd.blocks p.height p.round = some ps) (hindex : 0 ≤ p.proof.index) :
    ∃ res, res ≠ .error .panic ∧
      BlockData.addPart lib p bd = (res, bd.setPartSet p.height p.round (take lib ps p)) := by
  have hpanic : ps.addPart (blockLib lib) p ≠ .error .panic := by
    unfold PartSet.addPart
    rw [if_neg (not_lt.mpr hindex)]
    split_ifs <;> simp
  unfold BlockData.addPart take
  rw [run_bind_ok (run_get bd), hnew, Bool.not_false, run_bind_ok (run_require_true _ _), hps]
  simp only
  cases hadd : ps.addPart (blockLib lib) p with
  | ok ps' => exact ⟨.ok (), nofun, rfl⟩
  | error e =>
    refine ⟨.error (.part e), by simp, ?_⟩
    rw [Except.toOption, Option.getD_none, setPartSet_eq_self hps]
    cases e with
    | panic => exact absurd hadd hpanic
    | _ => rfl

/-- The parts that were kept, tried in order. -/
theorem run_replay (hparts : ∀ p ∈ parts, p.height = v ∧ p.round = r ∧ 0 ≤ p.proof.index)
    (hnew : bd.old v r = false) (hps : bd.blocks v r = some ps) :
    forEach (fun p => ignoring (BlockData.addPart lib p)) parts bd =
      (.ok (), bd.setPartSet v r (fill lib ps parts)) := by
  induction parts generalizing bd ps with
  | nil =>
    rw [fill, List.foldl_nil, setPartSet_eq_self hps]
    rfl
  | cons p parts ih =>
    rw [List.forall_mem_cons] at hparts
    obtain ⟨⟨rfl, rfl, hindex⟩, hparts⟩ := hparts
    obtain ⟨res, hres, hrun⟩ := run_addPart lib hnew hps hindex
    have hignoring : ignoring (BlockData.addPart lib p) bd =
        (.ok (), bd.setPartSet p.height p.round (take lib ps p)) := by
      unfold ignoring
      rw [run_bind_ok (run_attempt _ bd), hrun]
      cases res with
      | ok u => rfl
      | error e =>
        cases e with
        | panic => exact absurd rfl hres
        | _ => rfl
    have hset : (bd.setPartSet p.height p.round (take lib ps p)).blocks p.height p.round =
        some (take lib ps p) := by
      rw [blocks_setPartSet, if_pos ⟨rfl, rfl⟩]
    have hnew' := hnew
    rw [← old_setPartSet bd p.height p.round (take lib ps p)] at hnew'
    rw [forEach, run_bind_ok hignoring, ih hparts hnew' hset, setPartSet_setPartSet]
    rfl

theorem run_addPartSetHeader (lib : Lib) (headerHash : Bytes)
    (hnew : bd.old header.height header.round = false)
    (hfree : bd.blocks header.height header.round = none)
    (hparts : ∀ p ∈ bd.retainBlockParts header.height header.round,
      p.height = header.height ∧ p.round = header.round ∧ 0 ≤ p.proof.index) :
    BlockData.addPartSetHeader lib header headerHash bd =
      (.ok (), bd.setPartSet header.height header.round
        (fill lib (newPartSet header headerHash)
          (bd.retainBlockParts header.height header.round))) := by
  have hset : (bd.setPartSet header.height header.round (newPartSet header headerHash)).blocks
      header.height header.round = some (newPartSet header headerHash) := by
    rw [blocks_setPartSet, if_pos ⟨rfl, rfl⟩]
  have hnew' : (bd.setPartSet header.height header.round (newPartSet header headerHash)).old
      header.height header.round = false := hnew
  unfold BlockData.addPartSetHeader
  rw [run_bind_ok (run_get bd), hnew, Bool.not_false, run_bind_ok (run_require_true _ _), hfree,
    Option.isNone_none, run_bind_ok (run_require_true _ _), run_bind_ok (run_modify _ _),
    run_replay hparts hnew' hset, setPartSet_setPartSet]

/-! ## Deliveries -/

/-- What a `BlockData` gets: the header of a proposal, a part, the part set of an own block, or the
next view. -/
inductive Delivery
  | header (header : PartSetHeader) (headerHash : Bytes)
  | part (p : Part)
  | partSet (ps : PartSet)
  | next (view round : ℤ)

/-- The state after a call, unless it panicked. -/
def returned : Except Fault Unit × BlockData → Option BlockData
  | (.error .panic, _) => none
  | (_, bd) => some bd

theorem returned_of_ne {res : Except Fault Unit} (h : res ≠ .error .panic) (bd : BlockData) :
    returned (res, bd) = some bd := by
  cases res with
  | ok u => rfl
  | error e =>
    cases e with
    | panic => exact absurd rfl h
    | _ => rfl

/-- The call for a delivery. -/
def deliver (lib : Lib) (bd : BlockData) : Delivery → Option BlockData
  | .header header headerHash => returned (BlockData.addPartSetHeader lib header headerHash bd)
  | .part p => returned (BlockData.addPart lib p bd)
  | .partSet ps => returned (BlockData.addPartSet ps bd)
  | .next view round => some (bd.next view round)

/-- Headers and parts have passed `ValidateBasic`. -/
def Delivery.Valid : Delivery → Prop
  | .header h _ => h.validateBasic = true
  | .part p => p.validateBasic = true
  | _ => True

theorem index_nonneg_of_validateBasic (h : p.validateBasic = true) : 0 ≤ p.proof.index := by
  simp only [Part.validateBasic, Merkle.Proof.validateBasic, Bool.and_eq_true,
    decide_eq_true_eq] at h
  exact h.2.1.1.1.2

/-- Nothing is kept for slots that are old, and the parts that wait are kept where they belong. -/
structure Orderly (bd : BlockData) : Prop where
  none_old : ∀ v r, bd.old v r = true → bd.blocks v r = none ∧ bd.retainBlockParts v r = []
  filed : ∀ v r, ∀ p ∈ bd.retainBlockParts v r, p.height = v ∧ p.round = r ∧ 0 ≤ p.proof.index

theorem orderly_newBlockData (view round : ℤ) : Orderly (newBlockData view round) :=
  ⟨fun _ _ _ => ⟨rfl, rfl⟩, fun _ _ _ hp => absurd hp List.not_mem_nil⟩

namespace Orderly

variable {bd : BlockData}

theorem setPartSet (h : Orderly bd) (hnew : bd.old v r = false) (ps : PartSet) :
    Orderly (bd.setPartSet v r ps) := by
  refine ⟨fun v' r' hold => ?_, h.filed⟩
  have hold' : bd.old v' r' = true := hold
  rw [blocks_setPartSet, if_neg]
  · exact h.none_old v' r' hold'
  · rintro ⟨rfl, rfl⟩
    cases hnew.symm.trans hold'

theorem appendPart (h : Orderly bd) (hnew : bd.old p.height p.round = false)
    (hindex : 0 ≤ p.proof.index) : Orderly (bd.appendPart p) := by
  refine ⟨fun v r hold => ?_, fun v r q hq => ?_⟩
  · rw [old_appendPart] at hold
    rw [blocks_appendPart, retainBlockParts_appendPart hnew, if_neg]
    · exact h.none_old v r hold
    · rintro ⟨rfl, rfl⟩
      cases hnew.symm.trans hold
  · rw [retainBlockParts_appendPart hnew] at hq
    split_ifs at hq with hslot
    · rcases List.mem_append.mp hq with hq | hq
      · exact h.filed v r q hq
      · obtain rfl := List.mem_singleton.mp hq
        exact ⟨hslot.1.symm, hslot.2.symm, hindex⟩
    · exact h.filed v r q hq

theorem next (h : Orderly bd) (view round : ℤ) : Orderly (bd.next view round) := by
  refine ⟨fun v r hold => ?_, fun v r p hp => ?_⟩
  · rw [blocks_next, retainBlockParts_next, hold]
    exact ⟨rfl, rfl⟩
  · rw [retainBlockParts_next] at hp
    split_ifs at hp
    · cases hp
    · exact h.filed v r p hp

end Orderly

/-! ## The calls -/

section

variable {bd : BlockData}

theorem deliver_part (lib : Lib) (hp : p.validateBasic = true) :
    deliver lib bd (.part p) = some (if bd.old p.height p.round then bd
      else (bd.blocks p.height p.round).elim (bd.appendPart p) fun ps =>
        bd.setPartSet p.height p.round (take lib ps p)) := by
  cases hnew : bd.old p.height p.round with
  | true =>
    have hrun : BlockData.addPart lib p bd = (.error .old, bd) := by
      unfold BlockData.addPart
      rw [run_bind_ok (run_get bd), hnew, Bool.not_true, run_bind_error (run_require_false _ _)]
    rw [deliver, hrun]
    rfl
  | false =>
    rw [deliver, if_neg nofun]
    cases hps : bd.blocks p.height p.round with
    | none =>
      have hrun : BlockData.addPart lib p bd = (.error .partSetMissing, bd.appendPart p) := by
        unfold BlockData.addPart
        rw [run_bind_ok (run_get bd), hnew, Bool.not_false, run_bind_ok (run_require_true _ _), hps]
        rfl
      rw [hrun]
      rfl
    | some ps =>
      obtain ⟨res, hres, hrun⟩ := run_addPart lib hnew hps (index_nonneg_of_validateBasic hp)
      rw [hrun, returned_of_ne hres]
      rfl

theorem deliver_header (hbd : Orderly bd) (header : PartSetHeader) (headerHash : Bytes) :
    deliver lib bd (.header header headerHash) =
      some (if bd.old header.height header.round ∨ (bd.blocks header.height header.round).isSome
        then bd
        else bd.setPartSet header.height header.round (fill lib (newPartSet header headerHash)
          (bd.retainBlockParts header.height header.round))) := by
  rw [deliver]
  cases hnew : bd.old header.height header.round with
  | true =>
    have hrun : BlockData.addPartSetHeader lib header headerHash bd = (.error .old, bd) := by
      unfold BlockData.addPartSetHeader
      rw [run_bind_ok (run_get bd), hnew, Bool.not_true, run_bind_error (run_require_false _ _)]
    rw [hrun, if_pos (.inl rfl)]
    rfl
  | false =>
    cases hps : bd.blocks header.height header.round with
    | none =>
      rw [run_addPartSetHeader lib headerHash hnew hps (hbd.filed _ _), if_neg (by simp)]
      rfl
    | some ps =>
      have hrun : BlockData.addPartSetHeader lib header headerHash bd =
          (.error .partSetExists, bd) := by
        unfold BlockData.addPartSetHeader
        rw [run_bind_ok (run_get bd), hnew, Bool.not_false, run_bind_ok (run_require_true _ _), hps,
          Option.isNone_some, run_bind_error (run_require_false _ _)]
      rw [hrun, if_pos (.inr rfl)]
      rfl

theorem deliver_partSet (lib : Lib) (ps : PartSet) :
    deliver lib bd (.partSet ps) =
      some (if bd.old ps.header.height ps.header.round ∨
          (bd.blocks ps.header.height ps.header.round).isSome then bd
        else bd.setPartSet ps.header.height ps.header.round ps) := by
  rw [deliver, BlockData.addPartSet, run_bind_ok (run_get bd)]
  cases bd.old ps.header.height ps.header.round with
  | true =>
    rw [Bool.not_true, run_bind_error (run_require_false _ _), if_pos (.inl rfl)]
    rfl
  | false =>
    rw [Bool.not_false, run_bind_ok (run_require_true _ _)]
    cases bd.blocks ps.header.height ps.header.round with
    | none =>
      rw [Option.isNone_none, run_bind_ok (run_require_true _ _), if_neg (by simp)]
      rfl
    | some ps' =>
      rw [Option.isNone_some, run_bind_error (run_require_false _ _), if_pos (.inr rfl)]
      rfl

/-- **A valid delivery** returns, and what is kept stays orderly. Only `next` makes slots old. -/
theorem Orderly.deliver (lib : Lib) (hbd : Orderly bd) (he : e.Valid) :
    ∃ bd', deliver lib bd e = some bd' ∧ Orderly bd' ∧
      ((∀ view round, e ≠ .next view round) → bd'.old = bd.old) := by
  cases e with
  | header header headerHash =>
    refine ⟨_, deliver_header hbd header headerHash, ?_, fun _ => ?_⟩
    · split_ifs with h
      · exact hbd
      · exact hbd.setPartSet (by simpa using (not_or.mp h).1) _
    · split_ifs <;> rfl
  | part p =>
    refine ⟨_, deliver_part lib he, ?_, fun _ => ?_⟩
    · split_ifs with h
      · exact hbd
      · have hnew : bd.old p.height p.round = false := by simpa using h
        cases bd.blocks p.height p.round with
        | none => exact hbd.appendPart hnew (index_nonneg_of_validateBasic he)
        | some ps => exact hbd.setPartSet hnew _
    · split_ifs
      · rfl
      · cases bd.blocks p.height p.round with
        | none => exact old_appendPart bd p
        | some ps => rfl
  | partSet ps =>
    refine ⟨_, deliver_partSet lib ps, ?_, fun _ => ?_⟩
    · split_ifs with h
      · exact hbd
      · exact hbd.setPartSet (by simpa using (not_or.mp h).1) _
    · split_ifs <;> rfl
  | next view round => exact ⟨_, rfl, hbd.next view round, fun h => absurd rfl (h view round)⟩

end

/-! ## One slot -/

section

variable {header : PartSetHeader} {bd bd' : BlockData} {parts : List Part}

/-- The part set of the header is the one that `parts` make, or `parts` wait for it. -/
def Tracks (lib : Lib) (header : PartSetHeader) (parts : List Part) (bd : BlockData) : Prop :=
  (bd.blocks header.height header.round = none ∧
    bd.retainBlockParts header.height header.round = parts) ∨
  ∃ headerHash, bd.blocks header.height header.round =
    some (fill lib (newPartSet header headerHash) parts)

/-- The parts of a delivery that are for the slot of the header. -/
def Delivery.partsFor (header : PartSetHeader) : Delivery → List Part
  | .part p => if header.height = p.height ∧ header.round = p.round then [p] else []
  | _ => []

/-- The delivery brings no other part set for the slot of the header. -/
def Delivery.OneHeader (header : PartSetHeader) : Delivery → Prop
  | .header h _ => h.height = header.height → h.round = header.round → h = header
  | .partSet ps => ¬(ps.header.height = header.height ∧ ps.header.round = header.round)
  | _ => True

theorem tracks_of_old (hbd : Orderly bd) (hold : bd.old header.height header.round = true) :
    Tracks lib header [] bd := .inl (hbd.none_old _ _ hold)

section

variable (h : Tracks lib header parts bd)

include h

theorem Tracks.setPartSet (hother : ¬(v = header.height ∧ r = header.round)) (ps : PartSet) :
    Tracks lib header parts (bd.setPartSet v r ps) := by
  unfold Tracks
  rw [blocks_setPartSet, if_neg fun heq => hother ⟨heq.1.symm, heq.2.symm⟩]
  exact h

theorem Tracks.next {view round : ℤ}
    (hnew : (bd.next view round).old header.height header.round = false) :
    Tracks lib header parts (bd.next view round) := by
  unfold Tracks
  rw [blocks_next, retainBlockParts_next, hnew]
  exact h

theorem Tracks.part_self (hheight : header.height = p.height)
    (hround : header.round = p.round) (hnew : bd.old p.height p.round = false) :
    Tracks lib header (parts ++ [p]) ((bd.blocks p.height p.round).elim (bd.appendPart p) fun ps =>
      bd.setPartSet p.height p.round (take lib ps p)) := by
  unfold Tracks at h ⊢
  rw [hheight, hround] at h ⊢
  rcases h with ⟨hnone, hparts⟩ | ⟨headerHash, hsome⟩
  · left
    rw [hnone, Option.elim_none, blocks_appendPart, retainBlockParts_appendPart hnew, hnone, hparts,
      if_pos ⟨rfl, rfl⟩]
    exact ⟨rfl, rfl⟩
  · right
    refine ⟨headerHash, ?_⟩
    rw [hsome, Option.elim_some, blocks_setPartSet, if_pos ⟨rfl, rfl⟩, fill_append]
    rfl

theorem Tracks.part_other (hother : ¬(header.height = p.height ∧ header.round = p.round))
    (hnew : bd.old p.height p.round = false) :
    Tracks lib header parts ((bd.blocks p.height p.round).elim (bd.appendPart p) fun ps =>
      bd.setPartSet p.height p.round (take lib ps p)) := by
  cases bd.blocks p.height p.round with
  | none =>
    unfold Tracks
    rw [Option.elim_none, blocks_appendPart, retainBlockParts_appendPart hnew, if_neg hother]
    exact h
  | some ps => exact h.setPartSet (fun heq => hother ⟨heq.1.symm, heq.2.symm⟩) _

theorem Tracks.header_self (headerHash : Bytes) :
    Tracks lib header parts (if (bd.blocks header.height header.round).isSome then bd
      else bd.setPartSet header.height header.round (fill lib (newPartSet header headerHash)
        (bd.retainBlockParts header.height header.round))) := by
  rcases h with ⟨hnone, hparts⟩ | ⟨headerHash', hsome⟩
  · right
    refine ⟨headerHash, ?_⟩
    rw [hnone, hparts, if_neg nofun, blocks_setPartSet, if_pos ⟨rfl, rfl⟩]
  · rw [hsome, if_pos Option.isSome_some]
    exact .inr ⟨headerHash', hsome⟩

/-- **One delivery** to a slot that is not old adds its part. -/
theorem Tracks.deliver (hbd : Orderly bd)
    (hnew : bd.old header.height header.round = false) (he : e.Valid) (hone : e.OneHeader header)
    (hdeliver : deliver lib bd e = some bd') (hnew' : bd'.old header.height header.round = false) :
    Tracks lib header (parts ++ e.partsFor header) bd' := by
  cases e with
  | header header' headerHash =>
    rw [deliver_header hbd] at hdeliver
    obtain rfl := Option.some.inj hdeliver
    simp only [Delivery.partsFor, List.append_nil]
    by_cases hslot : header'.height = header.height ∧ header'.round = header.round
    · obtain rfl := hone hslot.1 hslot.2
      simp only [hnew, Bool.false_eq_true, false_or]
      exact h.header_self headerHash
    · split_ifs
      · exact h
      · exact h.setPartSet hslot _
  | part p =>
    rw [deliver_part lib he] at hdeliver
    obtain rfl := Option.some.inj hdeliver
    rw [Delivery.partsFor]
    split_ifs with hslot hold hold
    · rw [← hslot.1, ← hslot.2, hnew] at hold
      cases hold
    · exact h.part_self hslot.1 hslot.2 (by simpa using hold)
    · rwa [List.append_nil]
    · rw [List.append_nil]
      exact h.part_other hslot (by simpa using hold)
  | partSet ps =>
    rw [deliver_partSet] at hdeliver
    obtain rfl := Option.some.inj hdeliver
    simp only [Delivery.partsFor, List.append_nil]
    split_ifs
    · exact h
    · exact h.setPartSet hone _
  | next view round =>
    obtain rfl := Option.some.inj hdeliver
    simp only [Delivery.partsFor, List.append_nil]
    exact h.next hnew'

end

theorem isSome_setPartSet {v' r' : ℤ} (ps : PartSet) (h : (bd.blocks v r).isSome = true) :
    ((bd.setPartSet v' r' ps).blocks v r).isSome = true := by
  rw [blocks_setPartSet]
  split_ifs
  · rfl
  · exact h

theorem isSome_deliver (hbd : Orderly bd) (he : e.Valid) (hdeliver : deliver lib bd e = some bd')
    (hnew' : bd'.old v r = false) (h : (bd.blocks v r).isSome = true) :
    (bd'.blocks v r).isSome = true := by
  cases e with
  | header header headerHash =>
    rw [deliver_header hbd] at hdeliver
    obtain rfl := Option.some.inj hdeliver
    split_ifs
    · exact h
    · exact isSome_setPartSet _ h
  | part p =>
    rw [deliver_part lib he] at hdeliver
    obtain rfl := Option.some.inj hdeliver
    split_ifs
    · exact h
    · cases bd.blocks p.height p.round with
      | none =>
        rw [Option.elim_none, blocks_appendPart]
        exact h
      | some ps => exact isSome_setPartSet _ h
  | partSet ps =>
    rw [deliver_partSet] at hdeliver
    obtain rfl := Option.some.inj hdeliver
    split_ifs
    · exact h
    · exact isSome_setPartSet _ h
  | next view round =>
    obtain rfl := Option.some.inj hdeliver
    rw [blocks_next, hnew']
    exact h

theorem isSome_deliver_header (hbd : Orderly bd)
    (hnew : bd.old header.height header.round = false) (headerHash : Bytes)
    (hdeliver : deliver lib bd (.header header headerHash) = some bd') :
    (bd'.blocks header.height header.round).isSome = true := by
  rw [deliver_header hbd] at hdeliver
  obtain rfl := Option.some.inj hdeliver
  split_ifs with h
  · simpa [hnew] using h
  · rw [blocks_setPartSet, if_pos ⟨rfl, rfl⟩]
    rfl

/-! ## Runs -/

/-- **Any valid deliveries** return, and what is kept stays orderly. -/
theorem Orderly.along (lib : Lib) (hbd : Orderly bd) (hes : ∀ e ∈ es, e.Valid) :
    ∃ bd', run (Urd.deliver lib) bd es = some bd' ∧ Orderly bd' := by
  induction es generalizing bd with
  | nil => exact ⟨bd, rfl, hbd⟩
  | cons e es ih =>
    rw [List.forall_mem_cons] at hes
    obtain ⟨bd₁, hdeliver, hbd₁, -⟩ := hbd.deliver lib hes.1
    obtain ⟨bd₂, hrun, hbd₂⟩ := ih hbd₁ hes.2
    exact ⟨bd₂, run_cons.mpr ⟨bd₁, hdeliver, hrun⟩, hbd₂⟩

theorem Delivery.mem_partsFor (h : p ∈ e.partsFor header) : e = .part p := by
  cases e with
  | part q =>
    simp only [Delivery.partsFor] at h
    split_ifs at h
    · rw [List.mem_singleton.mp h]
    · cases h
  | _ => cases h

theorem Delivery.mem_partsFor_of_valid (hp : ValidPart lib header p) :
    p ∈ (Delivery.part p).partsFor header := by
  rw [Delivery.partsFor, if_pos ⟨hp.height.symm, hp.round.symm⟩]
  exact List.mem_singleton.mpr rfl

/-- One delivery, whether the slot is old or not. -/
theorem Tracks.step (h : Tracks lib header parts bd) (hbd : Orderly bd) (he : e.Valid)
    (hone : e.OneHeader header) (hdeliver : Urd.deliver lib bd e = some bd') :
    Orderly bd' ∧
      ∃ parts', Tracks lib header parts' bd' ∧ ∀ p ∈ parts', p ∈ parts ∨ e = .part p := by
  obtain ⟨bd₁, hdeliver₁, hbd', hsame⟩ := hbd.deliver lib he
  obtain rfl := Option.some.inj (hdeliver₁.symm.trans hdeliver)
  refine ⟨hbd', ?_⟩
  cases hold' : bd₁.old header.height header.round with
  | true => exact ⟨[], tracks_of_old hbd' hold', fun p hp => absurd hp List.not_mem_nil⟩
  | false =>
    cases hold : bd.old header.height header.round with
    | false =>
      refine ⟨_, h.deliver hbd hold he hone hdeliver hold', fun p hp => ?_⟩
      exact (List.mem_append.mp hp).imp id Delivery.mem_partsFor
    | true =>
      -- only a view that is entered again makes a slot new
      cases e with
      | next view round =>
        obtain rfl := Option.some.inj hdeliver
        exact ⟨parts, h.next hold', fun p hp => .inl hp⟩
      | _ =>
        rw [hsame nofun, hold] at hold'
        cases hold'

theorem Tracks.along (hes : ∀ e ∈ es, e.Valid ∧ e.OneHeader header) (h : Tracks lib header parts bd)
    (hbd : Orderly bd) (hrun : run (Urd.deliver lib) bd es = some bd') :
    Orderly bd' ∧ ∃ parts', Tracks lib header parts' bd' ∧
      ∀ p ∈ parts', p ∈ parts ∨ .part p ∈ es := by
  induction es generalizing bd parts with
  | nil =>
    cases hrun
    exact ⟨hbd, parts, h, fun p hp => .inl hp⟩
  | cons e es ih =>
    rw [List.forall_mem_cons] at hes
    obtain ⟨bd₁, hdeliver, hrest⟩ := run_cons.mp hrun
    obtain ⟨hbd₁, parts₁, h₁, hmem₁⟩ := h.step hbd hes.1.1 hes.1.2 hdeliver
    obtain ⟨hbd', parts', h', hmem'⟩ := ih hes.2 h₁ hbd₁ hrest
    refine ⟨hbd', parts', h', fun p hp => ?_⟩
    rcases hmem' p hp with hp | hp
    · exact (hmem₁ p hp).imp id fun heq => List.mem_cons.mpr (.inl heq.symm)
    · exact .inr (List.mem_cons_of_mem e hp)

/-- The view that is entered does not make the slot of the header old. -/
def Delivery.Reaches (header : PartSetHeader) : Delivery → Prop
  | .next view round => view < header.height ∨ view = header.height ∧ round ≤ header.round
  | _ => True

/-- **Deliveries to a slot that never gets old.** All its parts are tracked. -/
theorem Tracks.along_new (hes : ∀ e ∈ es, e.Valid ∧ e.OneHeader header ∧ e.Reaches header)
    (h : Tracks lib header parts bd) (hbd : Orderly bd)
    (hnew : bd.old header.height header.round = false) :
    ∃ bd', run (Urd.deliver lib) bd es = some bd' ∧
      Tracks lib header (parts ++ es.flatMap (Delivery.partsFor header)) bd' ∧
      ((bd.blocks header.height header.round).isSome = true ∨
          (∃ headerHash, .header header headerHash ∈ es) →
        (bd'.blocks header.height header.round).isSome = true) := by
  induction es generalizing bd parts with
  | nil =>
    refine ⟨bd, rfl, by simpa using h, ?_⟩
    rintro (hsome | ⟨headerHash, hmem⟩)
    · exact hsome
    · cases hmem
  | cons e es ih =>
    rw [List.forall_mem_cons] at hes
    obtain ⟨⟨he, hone, hreaches⟩, hes⟩ := hes
    obtain ⟨bd₁, hdeliver, hbd₁, hsame⟩ := hbd.deliver lib he
    have hnew₁ : bd₁.old header.height header.round = false := by
      cases e with
      | next view round =>
        obtain rfl := Option.some.inj hdeliver
        rw [old_next]
        simp only [Delivery.Reaches] at hreaches
        simp only [Bool.not_eq_false', Bool.or_eq_true, Bool.and_eq_true, decide_eq_true_eq,
          beq_iff_eq]
        omega
      | _ => rw [hsame nofun, hnew]
    obtain ⟨bd', hrun, h', hsome'⟩ :=
      ih hes (h.deliver hbd hnew he hone hdeliver hnew₁) hbd₁ hnew₁
    refine ⟨bd', run_cons.mpr ⟨bd₁, hdeliver, hrun⟩, ?_, ?_⟩
    · rwa [List.flatMap_cons, ← List.append_assoc]
    · rintro (hsome | ⟨headerHash, hmem⟩)
      · exact hsome' (.inl (isSome_deliver hbd he hdeliver hnew₁ hsome))
      · rcases List.mem_cons.mp hmem with rfl | hmem
        · exact hsome' (.inl (isSome_deliver_header hbd hnew headerHash hdeliver))
        · exact hsome' (.inr ⟨headerHash, hmem⟩)

/-- The part set holds the valid parts among `es`: one in every slot, and each that is the only one
for its slot. -/
structure HoldsValid (lib : Lib) (header : PartSetHeader) (es : List Delivery) (ps : PartSet) :
    Prop where
  header_eq : ps.header = header
  slots : (ps.parts.length : ℤ) = header.total
  filled : ∀ slot ∈ ps.parts, slot.isSome = true
  held : ∀ (i : ℕ) (p : Part), ps.parts[i]? = some (some p) →
    .part p ∈ es ∧ ValidPart lib header p ∧ p.proof.index = i
  exact : ∀ p, .part p ∈ es → ValidPart lib header p →
    (∀ q, .part q ∈ es → ValidPart lib header q → q.proof.index = p.proof.index → q = p) →
    ps.parts[p.proof.index.toNat]? = some (some p)

theorem Gathers.holdsValid (hps : Gathers lib header parts ps) (hroot : header.root ≠ [])
    (hparts : ∀ p ∈ parts, .part p ∈ es) (hcomplete : ps.isComplete = true) :
    HoldsValid lib header es ps := by
  have hlen : (ps.parts.length : ℤ) = ps.header.total := hps.header_eq ▸ hps.length
  have hfilled := (PartSet.isComplete_iff hlen hps.count).mp hcomplete
  have hheld : ∀ (i : ℕ) (p : Part), ps.parts[i]? = some (some p) →
      .part p ∈ es ∧ ValidPart lib header p ∧ p.proof.index = i := by
    intro i p hi
    obtain ⟨hmem, hvalid, hindex⟩ := hps.held i p hi
    exact ⟨hparts p hmem, hvalid, hindex⟩
  refine ⟨hps.header_eq, hps.length, hfilled, hheld, fun p _ hvalid honly => ?_⟩
  have hindex := hvalid.index hroot
  have hlt : p.proof.index.toNat < ps.parts.length := by
    have := hps.length
    omega
  have hget := List.getElem?_eq_getElem hlt
  obtain ⟨q, hq⟩ := Option.isSome_iff_exists.mp (hfilled _ (List.getElem_mem hlt))
  rw [hq] at hget
  obtain ⟨hmem, hvalid', hindex'⟩ := hheld _ q hget
  rw [hget, honly q hmem hvalid' (by omega)]

theorem root_ne_nil_of_validateBasic (h : header.validateBasic = true) : header.root ≠ [] := by
  simp only [PartSetHeader.validateBasic, Bool.and_eq_true, beq_iff_eq] at h
  refine List.ne_nil_of_length_pos ?_
  rw [h.2]
  decide

/-- The part set of a slot has gathered the parts that are tracked. -/
theorem Tracks.gathers (h : Tracks lib header parts bd) (hvalid : header.validateBasic = true)
    (hps : bd.blocks header.height header.round = some ps) : Gathers lib header parts ps := by
  rcases h with ⟨hnone, -⟩ | ⟨headerHash, hfill⟩
  · cases hnone.symm.trans hps
  · have hroot := root_ne_nil_of_validateBasic hvalid
    simp only [PartSetHeader.validateBasic, Bool.and_eq_true, decide_eq_true_eq] at hvalid
    obtain rfl := Option.some.inj (hfill.symm.trans hps)
    exact gathers_fill headerHash hvalid.1.1.2 hroot parts

/-- **The order of arrival does not matter.** Take any deliveries to a new `BlockData`, and then any
others. If the slot of a header is not old, no other header comes for it, and no view after it is
entered, then the header and a valid part for each index complete the part set, which holds the
valid parts. Nothing is ever kept for a slot that is old. -/
theorem arrival_order (lib : Lib) (view round : ℤ) :
    (∀ es, (∀ e ∈ es, Delivery.Valid e) →
      ∃ bd, run (deliver lib) (newBlockData view round) es = some bd ∧
        ∀ v r, bd.old v r = true → bd.blocks v r = none ∧ bd.retainBlockParts v r = []) ∧
    ∀ (header : PartSetHeader) (before after : List Delivery) (bd : BlockData),
      (∀ e ∈ before ++ after, e.Valid ∧ e.OneHeader header) →
      run (deliver lib) (newBlockData view round) before = some bd →
      bd.old header.height header.round = false →
      (∀ e ∈ after, e.Reaches header) →
      (∃ headerHash, .header header headerHash ∈ after) →
      (∀ i : ℕ, i < header.total →
        ∃ p, .part p ∈ after ∧ ValidPart lib header p ∧ p.proof.index = i) →
      ∃ bd', run (deliver lib) bd after = some bd' ∧
        bd'.isComplete header.height header.round = true ∧
        ∃ ps, bd'.blocks header.height header.round = some ps ∧
          HoldsValid lib header (before ++ after) ps := by
  refine ⟨fun es hes => ?_, fun header before after bd hes hbefore hnew hreaches hheader hall => ?_⟩
  · obtain ⟨bd, hrun, hbd⟩ := (orderly_newBlockData view round).along lib hes
    exact ⟨bd, hrun, hbd.none_old⟩
  · have hstart : Tracks lib header [] (newBlockData view round) := .inl ⟨rfl, rfl⟩
    obtain ⟨hbd, parts, htracks, hparts⟩ :=
      hstart.along (fun e he => hes e (List.mem_append_left _ he)) (orderly_newBlockData view round)
        hbefore
    obtain ⟨bd', hrun, htracks', hsome⟩ := htracks.along_new
      (fun e he => ⟨(hes e (List.mem_append_right _ he)).1,
        (hes e (List.mem_append_right _ he)).2, hreaches e he⟩) hbd hnew
    obtain ⟨ps, hps⟩ := Option.isSome_iff_exists.mp (hsome (.inr hheader))
    obtain ⟨headerHash, hmem⟩ := hheader
    have hvalid : header.validateBasic = true := (hes _ (List.mem_append_right _ hmem)).1
    have hgathers := htracks'.gathers hvalid hps
    have hcomplete : ps.isComplete = true := by
      refine hgathers.isComplete fun i hi => ?_
      obtain ⟨p, hp, hvalid, hindex⟩ := hall i hi
      exact ⟨p, List.mem_append_right _ (List.mem_flatMap.mpr
        ⟨_, hp, Delivery.mem_partsFor_of_valid hvalid⟩), hvalid, hindex⟩
    refine ⟨bd', hrun, ?_, ps, hps, hgathers.holdsValid (root_ne_nil_of_validateBasic hvalid)
      (fun p hp => ?_) hcomplete⟩
    · rw [BlockData.isComplete, hps]
      exact hcomplete
    · rcases List.mem_append.mp hp with hp | hp
      · exact List.mem_append_left _ ((hparts p hp).resolve_left List.not_mem_nil)
      · obtain ⟨e, he, hpe⟩ := List.mem_flatMap.mp hp
        rw [← Delivery.mem_partsFor hpe]
        exact List.mem_append_right _ he

/-- The header of `smallBlock`. -/
def smallHeader : PartSetHeader := (partSetFromBlock (blockLib polyLib) smallBlock 100 0).header

/-- Parts of all kinds, then the view of the block, and its header at last. -/
def lateHeader : List Delivery := mixedParts.map .part ++ [.next 1 0, .header smallHeader []]

theorem arrival_order_lateHeader :
    ∃ bd', run (deliver polyLib) (newBlockData 0 0) lateHeader = some bd' ∧
      bd'.isComplete smallHeader.height smallHeader.round = true ∧
      ∃ ps, bd'.blocks smallHeader.height smallHeader.round = some ps ∧
        HoldsValid polyLib smallHeader lateHeader ps := by
  have hparts : ∀ p ∈ partsOf (blockLib polyLib) smallBlock 100 0,
      p ∈ mixedParts ∧ p.height = smallHeader.height ∧ p.round = smallHeader.round ∧
        p.verify (blockLib polyLib) smallHeader.root smallHeader.total smallHeader.chainID := by
    decide +kernel
  have hcase : ∀ e ∈ lateHeader,
      (∃ p ∈ mixedParts, e = .part p) ∨ e = .next 1 0 ∨ e = .header smallHeader [] := by
    intro e he
    rcases List.mem_append.mp he with he | he
    · obtain ⟨p, hp, rfl⟩ := List.mem_map.mp he
      exact .inl ⟨p, hp, rfl⟩
    · exact .inr (by simpa using he)
  have hvalid : ∀ e ∈ [] ++ lateHeader, e.Valid ∧ e.OneHeader smallHeader := by
    rw [List.nil_append]
    intro e he
    rcases hcase e he with ⟨p, hp, rfl⟩ | rfl | rfl
    · exact ⟨validateBasic_mixedParts p hp, trivial⟩
    · exact ⟨trivial, trivial⟩
    · refine ⟨?_, fun _ _ => rfl⟩
      show smallHeader.validateBasic = true
      decide +kernel
  have hreaches : ∀ e ∈ lateHeader, e.Reaches smallHeader := by
    intro e he
    rcases hcase e he with ⟨p, hp, rfl⟩ | rfl | rfl
    · trivial
    · exact .inr (by decide +kernel)
    · trivial
  have hheader : ∃ headerHash, Delivery.header smallHeader headerHash ∈ lateHeader :=
    ⟨[], List.mem_append_right _ (by simp)⟩
  have hall : ∀ i : ℕ, i < smallHeader.total →
      ∃ p, Delivery.part p ∈ lateHeader ∧ ValidPart polyLib smallHeader p ∧ p.proof.index = i := by
    intro i hi
    have hlt : i < (partsOf (blockLib polyLib) smallBlock 100 0).length := by
      have htotal : _ = smallHeader.total := length_partsOf smallBlock 100 0
      rw [← htotal] at hi
      exact_mod_cast hi
    obtain ⟨hmem, hheight, hround, hverify⟩ := hparts _ (List.getElem_mem hlt)
    exact ⟨_, List.mem_append_left _ (List.mem_map.mpr ⟨_, hmem, rfl⟩), ⟨hheight, hround, hverify⟩,
      index_partsOf (List.getElem?_eq_getElem hlt)⟩
  have horder := (arrival_order polyLib 0 0).2 smallHeader [] lateHeader (newBlockData 0 0) hvalid
    rfl
    (by decide +kernel) hreaches hheader hall
  rwa [List.nil_append] at horder

end

end Emulator.Urd
