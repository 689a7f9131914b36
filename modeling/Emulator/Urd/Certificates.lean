import Emulator.Urd.Validation

/-!
# What a commit certificate decides

A certificate has one core for every shard, and the brief of a core has one hash for every shard.
`Result` goes through the briefs in order: the first hash that is not empty decides a slot, and one
that differs from it marks the slot as an error. Slot by slot this is a fold of `mergeSlot` over the
hashes that the briefs have there, and `Decides` is what every prefix of them keeps.

`ValidateBasic` uses the slots as indices into the votes of the commit intention, which nobody has
checked up to view 5, and `Result` uses the positions in the briefs as indices into its slots, which
nobody checks at all.

* `certificateResult_spec` — what the slots say, whatever the order of the cores.
* `Block.validateBasic_returns_iff` — the blocks on which `ValidateBasic` does not panic.
-/

namespace Emulator.Urd

/-! ## One slot -/

/-- What a slot says about the hashes that went into it. -/
structure Decides (hashes : List Bytes) (slot : Bytes × Bool) : Prop where
  conflict : slot.2 = true ↔ ∃ h ∈ hashes, ∃ h' ∈ hashes, h ≠ [] ∧ h' ≠ [] ∧ h ≠ h'
  empty : slot.1 = [] ↔ ∀ h ∈ hashes, h = []
  mem : slot.1 ≠ [] → slot.1 ∈ hashes

variable {slot : Bytes × Bool} {slots slots' : List (Bytes × Bool)} {i : ℕ}
  {cc : List CommitCertificateCore} {hashes : List Bytes} {h : Bytes}

theorem decides_nil : Decides [] ([], false) :=
  ⟨by simp, by simp, fun h => absurd rfl h⟩

section

variable (hd : Decides hashes slot)

include hd

/-- A slot without an error has the only hash that is not empty. -/
theorem Decides.eq_of_mem (herr : slot.2 = false) (hmem : h ∈ hashes)
    (hne : h ≠ []) : h = slot.1 := by
  have hslot : slot.1 ≠ [] := fun hnil => hne (hd.empty.mp hnil h hmem)
  by_contra hdiff
  have htrue := hd.conflict.mpr ⟨h, hmem, slot.1, hd.mem hslot, hne, hslot, hdiff⟩
  rw [herr] at htrue
  cases htrue

theorem Decides.conflict_concat (bz : Bytes) :
    (∃ h ∈ hashes ++ [bz], ∃ h' ∈ hashes ++ [bz], h ≠ [] ∧ h' ≠ [] ∧ h ≠ h') ↔
      slot.2 = true ∨ ∃ h ∈ hashes, h ≠ [] ∧ bz ≠ [] ∧ h ≠ bz := by
  rw [hd.conflict]
  simp only [List.mem_append, List.mem_singleton]
  constructor
  · rintro ⟨h, hh | rfl, h', hh' | rfl, hne, hne', hdiff⟩
    · exact .inl ⟨h, hh, h', hh', hne, hne', hdiff⟩
    · exact .inr ⟨h, hh, hne, hne', hdiff⟩
    · exact .inr ⟨h', hh', hne', hne, hdiff.symm⟩
    · exact absurd rfl hdiff
  · rintro (⟨h, hh, h', hh', hne⟩ | ⟨h, hh, hne⟩)
    · exact ⟨h, .inl hh, h', .inl hh', hne⟩
    · exact ⟨h, .inl hh, bz, .inr rfl, hne⟩

theorem Decides.empty_concat (bz : Bytes) :
    (∀ h ∈ hashes ++ [bz], h = []) ↔ slot.1 = [] ∧ bz = [] := by
  rw [hd.empty]
  simp [or_imp, forall_and]

theorem Decides.concat (bz : Bytes) :
    Decides (hashes ++ [bz]) (mergeSlot slot bz) := by
  have hconflict := hd.conflict_concat bz
  have hempty := hd.empty_concat bz
  unfold mergeSlot
  split_ifs with hsame hslot
  · -- nothing new
    refine ⟨?_, ?_, fun hne => List.mem_append_left _ (hd.mem hne)⟩
    · rw [hconflict, iff_self_or]
      rintro ⟨h, hh, hne, hbz, hdiff⟩
      obtain rfl := hsame.resolve_right hbz
      exact hd.conflict.mpr ⟨h, hh, slot.1, hd.mem hbz, hne, hbz, hdiff⟩
    · rw [hempty]
      refine ⟨fun hnil => ⟨hnil, ?_⟩, fun h => h.1⟩
      rcases hsame with hsame | hsame
      · rw [← hsame, hnil]
      · exact hsame
  · -- a hash that differs from the first
    obtain ⟨hdiff, hbz⟩ := not_or.mp hsame
    refine ⟨?_, ?_, fun hne => List.mem_append_left _ (hd.mem hne)⟩
    · rw [hconflict]
      exact iff_of_true rfl (.inr ⟨slot.1, hd.mem hslot, hslot, hbz, hdiff⟩)
    · rw [hempty]
      exact iff_of_false hslot fun h => hslot h.1
  · -- the first hash
    obtain ⟨-, hbz⟩ := not_or.mp hsame
    have hnil : ∀ h ∈ hashes, h = [] := hd.empty.mp (not_not.mp hslot)
    refine ⟨?_, ?_, fun _ => by simp⟩
    · rw [hconflict, iff_self_or]
      rintro ⟨h, hh, hne, -⟩
      exact absurd (hnil h hh) hne
    · rw [hempty]
      exact iff_of_false hbz fun h => hbz h.2

end

theorem decides_foldl (hashes : List Bytes) :
    Decides hashes (hashes.foldl mergeSlot ([], false)) := by
  induction hashes using List.reverseRecOn with
  | nil => exact decides_nil
  | append_singleton hashes bz ih =>
    rw [List.foldl_append]
    exact ih.concat bz

/-! ## All slots -/

theorem decides_certificateResult (h : certificateResult cc = some slots)
    (hi : slots[i]? = some slot) : Decides (cc.map (briefAt i)) slot := by
  have hlt : i < cc.length := by
    rw [← length_certificateResult h]
    exact (List.getElem?_eq_some_iff.mp hi).1
  rw [certificateResult_eq] at h
  split_ifs at h
  obtain rfl := Option.some.inj h
  rw [List.getElem?_mapIdx, List.getElem?_replicate, if_pos hlt] at hi
  obtain rfl := Option.some.inj hi
  exact decides_foldl _

/-- A core of the certificate names the block with hash `h` for slot `i`. -/
def Names (cc : List CommitCertificateCore) (i : ℕ) (h : Bytes) : Prop :=
  h ≠ [] ∧ ∃ core ∈ cc, core.intentionBrief[i]? = some h

theorem names_iff : Names cc i h ↔ h ∈ cc.map (briefAt i) ∧ h ≠ [] := by
  rw [Names, and_comm, and_congr_left_iff]
  intro hne
  rw [List.mem_map]
  refine exists_congr fun core => and_congr_right fun _ => ?_
  rw [briefAt, List.getD_eq_getElem?_getD]
  cases core.intentionBrief[i]? with
  | none => simp [hne.symm]
  | some h' => simp

theorem Names.perm {cc' : List CommitCertificateCore} (hperm : cc'.Perm cc) :
    Names cc' i h ↔ Names cc i h := by
  simp only [Names, hperm.mem_iff]

/-- What `Result` says about a slot. -/
structure Resolves (cc : List CommitCertificateCore) (i : ℕ) (slot : Bytes × Bool) : Prop where
  error : slot.2 = true ↔ ∃ h h', Names cc i h ∧ Names cc i h' ∧ h ≠ h'
  empty : slot.1 = [] ↔ ∀ h, ¬Names cc i h
  unique : slot.2 = false → ∀ h, Names cc i h ↔ h = slot.1 ∧ h ≠ []

theorem resolves_of_certificateResult (h : certificateResult cc = some slots)
    (hi : slots[i]? = some slot) : Resolves cc i slot := by
  have hd := decides_certificateResult h hi
  refine ⟨hd.conflict.trans ?_, hd.empty.trans ?_, fun herr h' => ?_⟩
  · simp only [names_iff]
    constructor
    · rintro ⟨a, ha, b, hb, hane, hbne, hdiff⟩
      exact ⟨a, b, ⟨ha, hane⟩, ⟨hb, hbne⟩, hdiff⟩
    · rintro ⟨a, b, ⟨ha, hane⟩, ⟨hb, hbne⟩, hdiff⟩
      exact ⟨a, ha, b, hb, hane, hbne, hdiff⟩
  · simp only [names_iff, not_and, not_not]
  · rw [names_iff]
    constructor
    · rintro ⟨hmem, hne⟩
      exact ⟨hd.eq_of_mem herr hmem hne, hne⟩
    · rintro ⟨rfl, hne⟩
      exact ⟨hd.mem hne, hne⟩

/-- A slot is determined by what it resolves, up to the hash of one with an error. -/
theorem Resolves.agree {cc' : List CommitCertificateCore} {slot' : Bytes × Bool}
    (h : Resolves cc i slot) (h' : Resolves cc' i slot') (hperm : cc'.Perm cc) :
    slot'.2 = slot.2 ∧ (slot.2 = false → slot' = slot) := by
  have herr : slot'.2 = slot.2 := by
    rw [Bool.eq_iff_iff, h.error, h'.error]
    simp only [Names.perm hperm]
  refine ⟨herr, fun hfalse => Prod.ext ?_ herr⟩
  have hempty : slot'.1 = [] ↔ slot.1 = [] := by
    rw [h.empty, h'.empty]
    simp only [Names.perm hperm]
  by_cases hnil : slot.1 = []
  · rw [hnil, hempty.mpr hnil]
  · have hnames : Names cc' i slot.1 := (Names.perm hperm).mpr ((h.unique hfalse _).mpr ⟨rfl, hnil⟩)
    exact ((h'.unique (herr.trans hfalse) _).mp hnames).1.symm

/-- **What a certificate decides.** For briefs that are not longer than the certificate `Result`
returns a slot for every shard. A slot is an error exactly if two cores name different blocks for
it, it is empty exactly if none names a block, and otherwise it is the block named. Another order of
the cores gives the same errors, and the same results in the other slots. -/
theorem certificateResult_spec {cc : List CommitCertificateCore}
    (hbriefs : ∀ core ∈ cc, core.intentionBrief.length ≤ cc.length) :
    ∃ slots, certificateResult cc = some slots ∧ slots.length = cc.length ∧
      (∀ (i : ℕ) (slot : Bytes × Bool), slots[i]? = some slot → Resolves cc i slot) ∧
      ∀ cc' : List CommitCertificateCore, cc'.Perm cc →
        ∃ slots', certificateResult cc' = some slots' ∧ slots'.map Prod.snd = slots.map Prod.snd ∧
          ∀ (i : ℕ) (result : Bytes),
            slots[i]? = some (result, false) ↔ slots'[i]? = some (result, false) := by
  obtain ⟨slots, hslots⟩ := exists_certificateResult hbriefs
  have hlen := length_certificateResult hslots
  refine ⟨slots, hslots, hlen, fun i slot => resolves_of_certificateResult hslots,
    fun cc' hperm => ?_⟩
  have hbriefs' : ∀ core ∈ cc', core.intentionBrief.length ≤ cc'.length := by
    intro core hcore
    rw [hperm.length_eq]
    exact hbriefs core (hperm.mem_iff.mp hcore)
  obtain ⟨slots', hslots'⟩ := exists_certificateResult hbriefs'
  have hlen' : slots'.length = slots.length := by
    rw [length_certificateResult hslots', hperm.length_eq, hlen]
  have hagree : ∀ (i : ℕ) (slot slot' : Bytes × Bool), slots[i]? = some slot →
      slots'[i]? = some slot' → slot'.2 = slot.2 ∧ (slot.2 = false → slot' = slot) := by
    intro i slot slot' hi hi'
    have hresolves := resolves_of_certificateResult hslots hi
    exact hresolves.agree (resolves_of_certificateResult hslots' hi') hperm
  refine ⟨slots', hslots', ?_, fun i result => ?_⟩
  · refine List.ext_getElem (by simp [hlen']) fun i hi hi' => ?_
    rw [List.length_map] at hi hi'
    rw [List.getElem_map, List.getElem_map]
    exact (hagree i _ _ (List.getElem?_eq_getElem hi') (List.getElem?_eq_getElem hi)).1
  · constructor
    · intro hi
      have hlt : i < slots'.length := hlen' ▸ (List.getElem?_eq_some_iff.mp hi).1
      have hget := List.getElem?_eq_getElem hlt
      rw [hget, (hagree i _ _ hi hget).2 rfl]
    · intro hi
      have hlt : i < slots.length := hlen' ▸ (List.getElem?_eq_some_iff.mp hi).1
      have hget := List.getElem?_eq_getElem hlt
      have hboth := hagree i _ _ hget hi
      rw [hget, ← hboth.2 hboth.1.symm]

/-- Three cores; they agree on slot 0, nobody knows slot 1, and slot 2 is disputed. -/
def disputedCores : List CommitCertificateCore :=
  [[[1], [], [7]], [[1]], [[], [], [8]]].map fun brief =>
    { hash := [], mKProof := ⟨exampleProof, []⟩, intentionBrief := brief }

/-- Read from the back, the disputed slot has the other hash. -/
theorem certificateResult_disputedCores :
    (∀ core ∈ disputedCores, core.intentionBrief.length ≤ disputedCores.length) ∧
    certificateResult disputedCores = some [([1], false), ([], false), ([7], true)] ∧
    certificateResult disputedCores.reverse = some [([1], false), ([], false), ([8], true)] ∧
    Resolves disputedCores 2 ([7], true) := by
  have hbriefs : ∀ core ∈ disputedCores, core.intentionBrief.length ≤ disputedCores.length := by
    decide
  have hresult : certificateResult disputedCores =
      some [([1], false), ([], false), ([7], true)] := by decide
  obtain ⟨slots, hslots, -, hresolves, -⟩ := certificateResult_spec hbriefs
  obtain rfl := Option.some.inj (hresult.symm.trans hslots)
  exact ⟨hbriefs, hresult, by decide, hresolves 2 _ rfl⟩

/-! ## Blocks that cannot be checked -/

/-- `Result` is within its slots exactly if no brief is longer than the certificate. -/
theorem exists_certificateResult_iff :
    (∃ slots, certificateResult cc = some slots) ↔
      ∀ core ∈ cc, core.intentionBrief.length ≤ cc.length := by
  rw [certificateResult_eq]
  split_ifs with h
  · simpa using h
  · simpa using h

/-- A loop ends in the error `e` at the first item that does not pass, or not at all. -/
theorem forM_ne_error {β ε : Type} {f : β → Except ε Unit} {e : ε} {l : List β} :
    l.forM f ≠ .error e ↔ ∀ (i : ℕ) (b : β), l[i]? = some b →
      (∀ j < i, ∀ b', l[j]? = some b' → f b' = .ok ()) → f b ≠ .error e := by
  induction l with
  | nil => exact ⟨fun _ i b hi => by simp at hi, fun _ => nofun⟩
  | cons b l ih =>
    have hcons : (b :: l).forM f = (f b).bind fun _ => l.forM f := rfl
    rw [hcons]
    cases hb : f b with
    | error e' =>
      constructor
      · intro h i b' hi hbefore
        cases i with
        | zero =>
          obtain rfl := Option.some.inj hi
          rwa [hb]
        | succ i => cases hb.symm.trans (hbefore 0 (Nat.succ_pos i) b rfl)
      · intro h
        have hfirst := h 0 b rfl (by simp)
        rwa [hb] at hfirst
    | ok u =>
      refine ih.trans ⟨fun h i b' hi hbefore => ?_, fun h i b' hi hbefore => ?_⟩
      · cases i with
        | zero =>
          obtain rfl := Option.some.inj hi
          rw [hb]
          exact nofun
        | succ i => exact h i b' hi fun j hj => hbefore (j + 1) (Nat.succ_lt_succ hj)
      · refine h (i + 1) b' hi fun j hj b'' hj' => ?_
        cases j with
        | zero =>
          obtain rfl := Option.some.inj hj'
          exact hb
        | succ j => exact hbefore j (Nat.lt_of_succ_lt_succ hj) b'' hj'

theorem forM_filter {β ε : Type} {f : β → Except ε Unit} {p : β → Bool} {l : List β} :
    (l.filter p).forM f = l.forM fun b => if p b then f b else .ok () := by
  induction l with
  | nil => rfl
  | cons b l ih =>
    have hcons : ∀ (g : β → Except ε Unit) (l : List β),
        (b :: l).forM g = (g b).bind fun _ => l.forM g := fun _ _ => rfl
    rw [hcons, ← ih]
    cases hp : p b with
    | true => rw [List.filter_cons_of_pos hp, hcons, if_pos rfl]
    | false =>
      rw [List.filter_cons_of_neg (by simp [hp]), if_neg nofun]
      rfl

section

variable {lib : Lib} {b : Block}

/-- There is a vote for slot `i` in the commit intention. -/
def Block.VotedAt (b : Block) (i : ℕ) : Prop :=
  ∃ ci ∈ b.ci, i < ci.aggregatedSignatures.length

theorem Block.validateCTXS_ne_panic (hproof : i < b.ctxsProof.length) (hctxs : i < b.ctxs.length) :
    b.validateCTXS lib i ≠ .error .panic ↔ b.VotedAt i := by
  unfold Block.validateCTXS Block.VotedAt
  rw [List.getElem?_eq_getElem hproof, List.getElem?_eq_getElem hctxs]
  cases b.ci with
  | none => simp
  | some ci =>
    rw [Option.bind_some]
    cases hvote : ci.aggregatedSignatures[i]? with
    | none => simpa using hvote
    | some vote =>
      refine iff_of_true ?_ ⟨ci, rfl, (List.getElem?_eq_some_iff.mp hvote).1⟩
      simp only
      split_ifs
      · exact nofun
      · decide

theorem Block.flagged_iff (hslots : certificateResult b.cc = some slots)
    (hi : slots[i]? = some slot) : b.Flagged i ↔ slot.2 = true := by
  obtain ⟨result, err⟩ := slot
  constructor
  · rintro ⟨slots', result', hslots', hi'⟩
    obtain rfl := Option.some.inj (hslots.symm.trans hslots')
    rw [hi] at hi'
    exact (Prod.mk.inj (Option.some.inj hi')).2
  · rintro rfl
    exact ⟨slots, result, hslots, hi⟩

theorem Block.checkSlot_iff (lib : Lib) (hslots : certificateResult b.cc = some slots)
    (hproof : b.ctxs.length = b.ctxsProof.length) (hcc : b.ctxs.length = b.cc.length)
    (hi : slots[i]? = some slot) :
    ((if !slot.2 then b.validateCTXS lib i else .ok ()) = .ok () ↔
        (¬b.Flagged i → b.ProvenAt lib i)) ∧
      ((if !slot.2 then b.validateCTXS lib i else .ok ()) ≠ .error .panic ↔
        (¬b.Flagged i → b.VotedAt i)) := by
  have hlt : i < b.cc.length :=
    length_certificateResult hslots ▸ (List.getElem?_eq_some_iff.mp hi).1
  rw [Block.flagged_iff hslots hi]
  cases slot.2 with
  | true => simp
  | false =>
    have hvoted : b.validateCTXS lib i ≠ .error .panic ↔ b.VotedAt i :=
      Block.validateCTXS_ne_panic (by omega) (by omega)
    simpa using ⟨Block.validateCTXS_iff, hvoted⟩

/-- The loop over the slots without an error stops before it needs a vote that is not there. -/
theorem Block.forM_validateCTXS_ne_panic (hslots : certificateResult b.cc = some slots)
    (hproof : b.ctxs.length = b.ctxsProof.length) (hcc : b.ctxs.length = b.cc.length) :
    (slots.zipIdx.filter fun slot => !slot.1.2).forM (fun slot => b.validateCTXS lib slot.2) ≠
        .error .panic ↔
      ∀ i < b.cc.length, ¬b.Flagged i → (∀ j < i, ¬b.Flagged j → b.ProvenAt lib j) →
        b.VotedAt i := by
  have hlen := length_certificateResult hslots
  have hone {i : ℕ} {slot : Bytes × Bool} (hi : slots[i]? = some slot) :=
    Block.checkSlot_iff lib hslots hproof hcc hi
  rw [forM_filter, forM_ne_error]
  simp only [List.getElem?_zipIdx, Nat.zero_add]
  constructor
  · intro h i hi hfree hbefore
    have hget := List.getElem?_eq_getElem (hlen.symm ▸ hi : i < slots.length)
    refine ((hone hget).2.mp (h i (slots.get ⟨i, _⟩, i) (by rw [hget]; rfl) ?_)) hfree
    intro j hj slot hslot
    obtain ⟨slot', hget', rfl⟩ := Option.map_eq_some_iff.mp hslot
    exact (hone hget').1.mpr (hbefore j hj)
  · intro h i slot hslot hbefore
    obtain ⟨slot', hget, rfl⟩ := Option.map_eq_some_iff.mp hslot
    refine (hone hget).2.mpr fun hfree => ?_
    refine h i (hlen ▸ (List.getElem?_eq_some_iff.mp hget).1) hfree fun j hj => ?_
    have hlt : j < slots.length := by
      have := (List.getElem?_eq_some_iff.mp hget).1
      omega
    have hget' := List.getElem?_eq_getElem hlt
    exact (hone hget').1.mp (hbefore j hj (_, j) (by rw [hget']; rfl))

/-- The second half of `ValidateBasic` is reached, and it has as many relay lists, proofs and cores
as it expects. -/
def Block.RelaysReached (lib : Lib) (b : Block) : Prop :=
  (5 < b.view → b.validateCommitment lib = .ok ()) ∧
    b.ctxs.length = b.ctxsProof.length ∧ b.ctxs.length = b.cc.length

/-- The sizes that `ValidateBasic` relies on. -/
structure Block.Checkable (lib : Lib) (b : Block) : Prop where
  /-- after view 5 the commit intention is read without a look -/
  intention : 5 < b.view → b.ci.isSome
  /-- a brief has at most one hash for every core -/
  briefs : b.RelaysReached lib → ∀ core ∈ b.cc, core.intentionBrief.length ≤ b.cc.length
  /-- every slot that comes to its check has a vote -/
  votes : b.RelaysReached lib → ∀ i < b.cc.length, ¬b.Flagged i →
    (∀ j < i, ¬b.Flagged j → b.ProvenAt lib j) → b.VotedAt i

theorem Block.validateCommitment_ne_panic :
    b.validateCommitment lib ≠ .error .panic ↔ b.ci.isSome := by
  unfold Block.validateCommitment
  cases b.ci with
  | none => simp
  | some ci =>
    refine iff_of_true ?_ rfl
    simp only
    split_ifs <;> simp

theorem Block.validateRelays_ne_panic :
    b.validateRelays lib ≠ .error .panic ↔
      (b.ctxs.length = b.ctxsProof.length ∧ b.ctxs.length = b.cc.length →
        (∀ core ∈ b.cc, core.intentionBrief.length ≤ b.cc.length) ∧
        ∀ i < b.cc.length, ¬b.Flagged i → (∀ j < i, ¬b.Flagged j → b.ProvenAt lib j) →
          b.VotedAt i) := by
  unfold Block.validateRelays
  split_ifs with hlen
  · exact iff_of_true (by simp) fun h => absurd hlen (by omega)
  · have hcounts : b.ctxs.length = b.ctxsProof.length ∧ b.ctxs.length = b.cc.length := by omega
    rw [forall_prop_of_true hcounts, ← exists_certificateResult_iff]
    cases hslots : certificateResult b.cc with
    | none => simp
    | some slots =>
      refine (Block.forM_validateCTXS_ne_panic hslots hcounts.1 hcounts.2).trans ?_
      simp

/-- **Blocks on which `ValidateBasic` returns.** It panics exactly on a block that is not
checkable: the commit intention is missing after view 5; or a brief is longer than the certificate;
or a slot without an error has no vote, and up to it every list is proven. -/
theorem Block.validateBasic_returns_iff (lib : Lib) (b : Block) :
    b.validateBasic lib ≠ .error .panic ↔ b.Checkable lib := by
  have hsplit : b.validateBasic lib ≠ .error .panic ↔
      (5 < b.view → b.ci.isSome) ∧
        ((5 < b.view → b.validateCommitment lib = .ok ()) →
          b.validateRelays lib ≠ .error .panic) := by
    rw [Block.validateBasic_eq]
    by_cases hview : 5 < b.view
    · rw [if_pos hview, forall_prop_of_true hview, forall_prop_of_true hview,
        ← Block.validateCommitment_ne_panic]
      cases b.validateCommitment lib with
      | error e => simp [Except.bind]
      | ok u => simp [Except.bind]
    · rw [if_neg hview]
      simp [Except.bind, hview]
  rw [hsplit, Block.validateRelays_ne_panic]
  constructor
  · intro h
    exact ⟨h.1, fun hreached => (h.2 hreached.1 hreached.2).1,
      fun hreached => (h.2 hreached.1 hreached.2).2⟩
  · intro h
    exact ⟨h.intention, fun hcommit hcounts => ⟨h.briefs ⟨hcommit, hcounts⟩,
      h.votes ⟨hcommit, hcounts⟩⟩⟩

/-- A block with one core for every brief, and with the commit intention `ci`. -/
def briefedBlock (view : ℤ) (ci : Option CommitIntention) (briefs : List IntentionBrief) :
    Block where
  chainID := [65]
  view := view
  round := 0
  time := ⟨0, 0⟩
  ci := ci
  cc := briefs.map fun brief =>
    { hash := [], mKProof := ⟨exampleProof, []⟩, intentionBrief := brief }
  ctxs := briefs.map fun _ => [[5]]
  ctxsProof := briefs.map fun _ => ⟨exampleProof, exampleProof⟩

/-- A receiver decodes the block and panics while it validates it. -/
def PanicsOn (lib : Lib) (b : Block) : Prop :=
  newBlockFromProto (b.toProto lib) = some (b.onWire lib) ∧
    (b.onWire lib).validateBasic lib = .error .panic

/-- No commit intention in view 6; none in view 1, where only a slot needs it; one without votes;
and a brief with two hashes in a certificate with one core. -/
theorem panicsOn_briefedBlock :
    PanicsOn polyLib (briefedBlock 6 none []) ∧
    PanicsOn polyLib (briefedBlock 1 none [[]]) ∧
    PanicsOn polyLib (briefedBlock 1 (some ⟨[], []⟩) [[]]) ∧
    PanicsOn polyLib (briefedBlock 1 none [[[1], [2]]]) :=
  ⟨⟨by decide +kernel, by decide +kernel⟩, ⟨by decide +kernel, by decide +kernel⟩,
    ⟨by decide +kernel, by decide +kernel⟩, ⟨by decide +kernel, by decide +kernel⟩⟩

end

end Emulator.Urd
