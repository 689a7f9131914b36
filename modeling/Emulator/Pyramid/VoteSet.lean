import Emulator.Lib.Quorum
import Emulator.Pyramid.Minibank

/-!
# Counting votes in a Pyramid shard

A `VoteSet` counts the prevotes or the precommits of one height, separately for each hash and each
of the two codes, in 32-bit integers. The first hash and code with more than `2*totalVotes/3` are
kept as `maj23`.

* `VoteSet.Tally` — what the counters mean; `VoteSet.Tally.addVote` keeps it as long as twice the
  total weight fits into 32 bits.
* `VoteSet.Latched` — every hash and code with a majority is kept as `maj23`, so there is at most
  one.
* `VoteSet.Tally.exists_correct` — a `maj23` is backed by a validator outside every set that has
  less than a third of the weight.
-/

namespace Emulator.Pyramid

open Quorum

/-- `Prevote` and `Precommit`; the `VoteType` of a message is its kind. -/
structure Vote where
  code : Int8
  height : ℤ
  round : ℤ
  blockHeaderHash : Bytes
  signature : Str
  validatorIndex : ℤ
  deriving DecidableEq, Repr

def Vote.isOK (v : Vote) : Bool := v.code = Minibank.codeTypeOK

def Vote.setOK (v : Vote) (ok : Bool) : Vote :=
  { v with code := if ok then Minibank.codeTypeOK else Minibank.codeTypeAbort }

/-- `NewPrevote` and `NewPrecommit`. -/
def newVote (height round : ℤ) (blockHeaderHash : Bytes) (validatorIndex : ℤ) : Vote :=
  { code := Minibank.codeTypeOK, height, round, blockHeaderHash, signature := [], validatorIndex }

/-- The value of an `int32`. -/
def int32 (z : ℤ) : ℤ := (z + 2 ^ 31) % 2 ^ 32 - 2 ^ 31

theorem int32_of_lt {z : ℤ} (h₀ : 0 ≤ z) (h : z < 2 ^ 31) : int32 z = z := by
  unfold int32
  omega

/-- `VoteSet`. `votes` has the vote of each validator whose bit is set, `blockHeaderHashCnt` the two
counters of a hash, and `maj23` is `mj23_key` and `mj23_code` if `has_mj23`. -/
structure VoteSet where
  totalVotes : ℤ
  votes : ℕ → Option Vote
  blockHeaderHashCnt : Bytes → Bool → ℤ
  maj23 : Option (Bytes × Bool)

def newVoteSet (totalVotes : ℤ) : VoteSet :=
  { totalVotes, votes := fun _ => none, blockHeaderHashCnt := fun _ _ => 0, maj23 := none }

namespace VoteSet

/-- The set with one more vote counted. -/
def count (vs : VoteSet) (vote : Vote) (valVote : ℤ) : VoteSet :=
  { vs with
    votes := Function.update vs.votes vote.validatorIndex.toNat (some vote)
    blockHeaderHashCnt := Function.update vs.blockHeaderHashCnt vote.blockHeaderHash
      (Function.update (vs.blockHeaderHashCnt vote.blockHeaderHash) vote.isOK
        (int32 (vs.blockHeaderHashCnt vote.blockHeaderHash vote.isOK + valVote))) }

def threshold (vs : VoteSet) : ℤ := (int32 (2 * vs.totalVotes)).tdiv 3

/-- `AddVote`; `none` is the error for an ambiguous vote. -/
def addVote (vs : VoteSet) (vote : Vote) (valVote : ℤ) : Option VoteSet :=
  match vs.votes vote.validatorIndex.toNat with
  | some rawVote =>
    if vote.blockHeaderHash = rawVote.blockHeaderHash ∨ vote.isOK ≠ rawVote.isOK then none
    else some vs
  | none =>
    let vs' := vs.count vote valVote
    if vs.maj23.isSome then some vs'
    else if vs.threshold < vs'.blockHeaderHashCnt vote.blockHeaderHash vote.isOK then
      some { vs' with maj23 := some (vote.blockHeaderHash, vote.isOK) }
    else some vs'

def hasMaj23 (vs : VoteSet) : Bool := vs.maj23.isSome

def getMaj23 (vs : VoteSet) : Bytes × Bool := vs.maj23.getD ([], false)

/-! ## What the counters mean -/

/-- The validators that voted for a hash with a code. -/
def voters (vs : VoteSet) (n : ℕ) (key : Bytes) (ok : Bool) : Finset ℕ :=
  (Finset.range n).filter fun i =>
    ((vs.votes i).any fun v => v.blockHeaderHash == key && v.isOK == ok) = true

/-- The counters are the weights of the voters, and `maj23` has more than two thirds. -/
structure Tally (w : ℕ → ℕ) (n : ℕ) (vs : VoteSet) : Prop where
  total : vs.totalVotes = weight w (Finset.range n)
  cnt : ∀ key ok, vs.blockHeaderHashCnt key ok = weight w (vs.voters n key ok)
  maj23 : ∀ key ok, vs.maj23 = some (key, ok) →
    Supermajority w (weight w (Finset.range n)) (vs.voters n key ok)

variable {w : ℕ → ℕ} {n : ℕ} {vs vs' : VoteSet} {vote : Vote} {key : Bytes} {ok : Bool} {i : ℕ}
  {valVote : ℤ}

@[simp] theorem voters_newVoteSet (totalVotes : ℤ) (n : ℕ) (key : Bytes) (ok : Bool) :
    (newVoteSet totalVotes).voters n key ok = ∅ := by
  simp [voters, newVoteSet]

theorem tally_newVoteSet (w : ℕ → ℕ) (n : ℕ) : Tally w n (newVoteSet (weight w (Finset.range n))) := by
  refine ⟨rfl, fun key ok => ?_, fun key ok h => by cases h⟩
  rw [voters_newVoteSet, weight_empty]
  rfl

theorem mem_voters :
    i ∈ vs.voters n key ok ↔
      i < n ∧ ∃ v, vs.votes i = some v ∧ v.blockHeaderHash = key ∧ v.isOK = ok := by
  simp [voters, Option.any_eq_true]

theorem not_mem_voters (h : vs.votes i = none) (key : Bytes) (ok : Bool) :
    i ∉ vs.voters n key ok := by
  rw [mem_voters]
  rintro ⟨-, v, hv, -⟩
  rw [h] at hv
  cases hv

/-- A counted vote adds its validator to the voters of its hash and code. -/
theorem voters_count (valVote : ℤ) (hnew : vs.votes vote.validatorIndex.toNat = none)
    (hi : vote.validatorIndex.toNat < n) (key : Bytes) (ok : Bool) :
    (vs.count vote valVote).voters n key ok =
      if vote.blockHeaderHash = key ∧ vote.isOK = ok then
        insert vote.validatorIndex.toNat (vs.voters n key ok)
      else vs.voters n key ok := by
  ext i
  rw [mem_voters]
  by_cases heq : i = vote.validatorIndex.toNat
  · subst heq
    split_ifs with hvote
    · simp [count, hi, hvote]
    · simp [count, hvote, not_mem_voters hnew]
  · have hsame : (vs.count vote valVote).votes i = vs.votes i := Function.update_of_ne heq _ _
    rw [hsame, ← mem_voters]
    split_ifs
    · simp [heq]
    · rfl

/-- The counters after a vote, as long as they fit into 32 bits. -/
theorem Tally.cnt_count (h : Tally w n vs) (hsmall : 2 * weight w (Finset.range n) < 2 ^ 31)
    (hnew : vs.votes vote.validatorIndex.toNat = none) (hi : vote.validatorIndex.toNat < n)
    (key : Bytes) (ok : Bool) :
    (vs.count vote (w vote.validatorIndex.toNat)).blockHeaderHashCnt key ok =
      weight w ((vs.count vote (w vote.validatorIndex.toNat)).voters n key ok) := by
  have hle : weight w ((vs.count vote (w vote.validatorIndex.toNat)).voters n key ok) ≤
      weight w (Finset.range n) := weight_mono w (Finset.filter_subset _ _)
  rw [voters_count _ hnew hi] at hle ⊢
  by_cases hkey : vote.blockHeaderHash = key
  · subst hkey
    by_cases hok : vote.isOK = ok
    · subst hok
      rw [if_pos ⟨rfl, rfl⟩, weight_insert w (not_mem_voters hnew _ _)] at hle ⊢
      simp only [count, Function.update_self, h.cnt]
      rw [int32_of_lt (by omega) (by omega)]
      omega
    · rw [if_neg fun hc => hok hc.2]
      simp only [count, Function.update_self, Function.update_of_ne (Ne.symm hok), h.cnt]
  · rw [if_neg fun hc => hkey hc.1]
    simp only [count, Function.update_of_ne (Ne.symm hkey), h.cnt]

theorem threshold_eq (h : Tally w n vs) (hsmall : 2 * weight w (Finset.range n) < 2 ^ 31) :
    vs.threshold = (2 * weight w (Finset.range n) / 3 : ℕ) := by
  rw [threshold, h.total, int32_of_lt (by omega) (by omega)]
  rw [Int.tdiv_eq_ediv_of_nonneg (by omega)]
  omega

theorem voters_subset_count (valVote : ℤ) (hnew : vs.votes vote.validatorIndex.toNat = none)
    (hi : vote.validatorIndex.toNat < n) (key : Bytes) (ok : Bool) :
    vs.voters n key ok ⊆ (vs.count vote valVote).voters n key ok := by
  rw [voters_count valVote hnew hi]
  split_ifs
  · exact Finset.subset_insert _ _
  · exact Finset.Subset.refl _

/-- What `AddVote` makes of a set when it returns no error. -/
inductive Adds (vs : VoteSet) (vote : Vote) (valVote : ℤ) : VoteSet → Prop
  | known : Adds vs vote valVote vs
  | counted (hnew : vs.votes vote.validatorIndex.toNat = none)
    (hle : vs.maj23 = none → ¬vs.threshold <
      (vs.count vote valVote).blockHeaderHashCnt vote.blockHeaderHash vote.isOK) :
    Adds vs vote valVote (vs.count vote valVote)
  | majority (hnew : vs.votes vote.validatorIndex.toNat = none) (hnone : vs.maj23 = none)
    (hlt : vs.threshold <
      (vs.count vote valVote).blockHeaderHashCnt vote.blockHeaderHash vote.isOK) :
    Adds vs vote valVote
      { vs.count vote valVote with maj23 := some (vote.blockHeaderHash, vote.isOK) }

theorem adds_of_addVote (hadd : vs.addVote vote valVote = some vs') : Adds vs vote valVote vs' := by
  unfold addVote at hadd
  split at hadd
  · split_ifs at hadd
    obtain rfl := Option.some.inj hadd
    exact .known
  · next hnew =>
    simp only at hadd
    split_ifs at hadd with hsome hlt
    · obtain rfl := Option.some.inj hadd
      exact .counted hnew fun hnone => by rw [hnone] at hsome; cases hsome
    · obtain rfl := Option.some.inj hadd
      exact .majority hnew (Option.not_isSome_iff_eq_none.mp hsome) hlt
    · obtain rfl := Option.some.inj hadd
      exact .counted hnew fun _ => hlt

/-- **Counting a vote** keeps the meaning of the counters. -/
theorem Tally.addVote (h : Tally w n vs) (hsmall : 2 * weight w (Finset.range n) < 2 ^ 31)
    (hi : vote.validatorIndex.toNat < n)
    (hadd : vs.addVote vote (w vote.validatorIndex.toNat) = some vs') : Tally w n vs' := by
  cases adds_of_addVote hadd with
  | known => exact h
  | counted hnew _ =>
    exact ⟨h.total, h.cnt_count hsmall hnew hi, fun key ok hm =>
      (h.maj23 key ok hm).mono (voters_subset_count _ hnew hi key ok)⟩
  | majority hnew _ hlt =>
    have hcnt := h.cnt_count hsmall hnew hi
    refine ⟨h.total, hcnt, fun key ok hm => ?_⟩
    obtain ⟨rfl, rfl⟩ := Prod.mk.inj (Option.some.inj hm)
    rw [threshold_eq h hsmall, hcnt] at hlt
    show 2 * _ < 3 * weight w ((vs.count vote (w vote.validatorIndex.toNat)).voters n _ _)
    omega

/-- A `maj23` is backed by a validator outside any set with less than a third of the weight. -/
theorem Tally.exists_correct (h : Tally w n vs) {byz : Finset ℕ}
    (hbyz : 3 * weight w byz < weight w (Finset.range n)) (hm : vs.maj23 = some (key, ok)) :
    ∃ i, i < n ∧ i ∉ byz ∧ ∃ v, vs.votes i = some v ∧ v.blockHeaderHash = key ∧ v.isOK = ok := by
  by_contra hno
  push Not at hno
  have hsub : vs.voters n key ok ⊆ byz := by
    intro i hi
    obtain ⟨hin, v, hv, hkey, hok⟩ := mem_voters.mp hi
    by_contra hib
    exact hno i hin hib v hv hkey hok
  have hle := weight_mono w hsub
  have hmaj := h.maj23 key ok hm
  unfold Supermajority at hmaj
  omega

/-- A vote that is in the set after another was added was there before, or is the one added. -/
theorem votes_of_addVote (hadd : vs.addVote vote valVote = some vs') {v : Vote}
    (hv : vs'.votes i = some v) :
    vs.votes i = some v ∨ i = vote.validatorIndex.toNat ∧ v = vote := by
  have hvotes : vs'.votes = vs.votes ∨ vs'.votes = (vs.count vote valVote).votes := by
    cases adds_of_addVote hadd with
    | known => exact .inl rfl
    | counted | majority => exact .inr rfl
  rcases hvotes with hvotes | hvotes
  · exact .inl (hvotes ▸ hv)
  · rw [hvotes] at hv
    by_cases heq : i = vote.validatorIndex.toNat
    · subst heq
      simp only [count, Function.update_self, Option.some.injEq] at hv
      exact .inr ⟨rfl, hv.symm⟩
    · left
      simpa only [count, Function.update_of_ne heq] using hv

/-! ## Majorities -/

theorem voters_subset (vs : VoteSet) (n : ℕ) (key : Bytes) (ok : Bool) :
    vs.voters n key ok ⊆ Finset.range n := Finset.filter_subset _ _

theorem disjoint_voters {key' : Bytes} {ok' : Bool} (hne : (key, ok) ≠ (key', ok')) :
    Disjoint (vs.voters n key ok) (vs.voters n key' ok') := by
  rw [Finset.disjoint_left]
  intro i hi hi'
  obtain ⟨-, v, hv, rfl, rfl⟩ := mem_voters.mp hi
  obtain ⟨-, v', hv', rfl, rfl⟩ := mem_voters.mp hi'
  obtain rfl := Option.some.inj (hv.symm.trans hv')
  exact hne rfl

theorem eq_of_supermajority {key' : Bytes} {ok' : Bool}
    (h : Supermajority w (weight w (Finset.range n)) (vs.voters n key ok))
    (h' : Supermajority w (weight w (Finset.range n)) (vs.voters n key' ok')) :
    (key, ok) = (key', ok') := by
  by_contra hne
  exact not_supermajority_of_disjoint (disjoint_voters hne) (voters_subset vs n key ok)
    (voters_subset vs n key' ok') h h'

/-- Every majority is kept in `maj23`. -/
def Latched (w : ℕ → ℕ) (n : ℕ) (vs : VoteSet) : Prop :=
  ∀ key ok, Supermajority w (weight w (Finset.range n)) (vs.voters n key ok) →
    vs.maj23 = some (key, ok)

theorem latched_newVoteSet (w : ℕ → ℕ) (n : ℕ) (totalVotes : ℤ) :
    Latched w n (newVoteSet totalVotes) := by
  intro key ok h
  rw [voters_newVoteSet] at h
  exact absurd h (Nat.not_lt_zero _)

theorem maj23_of_addVote {m : Bytes × Bool} (hm : vs.maj23 = some m)
    (hadd : vs.addVote vote valVote = some vs') : vs'.maj23 = some m := by
  cases adds_of_addVote hadd with
  | known | counted => exact hm
  | majority _ hnone _ => cases hm.symm.trans hnone

/-- **The majority is kept when it is reached.** -/
theorem Latched.addVote (hlatched : Latched w n vs) (h : Tally w n vs)
    (hsmall : 2 * weight w (Finset.range n) < 2 ^ 31) (hi : vote.validatorIndex.toNat < n)
    (hadd : vs.addVote vote (w vote.validatorIndex.toNat) = some vs') : Latched w n vs' := by
  intro key ok hmajority
  have h' := h.addVote hsmall hi hadd
  cases hm : vs.maj23 with
  | some m =>
    -- the pair that was kept before still has a majority
    have hm' := maj23_of_addVote hm hadd
    rw [hm', eq_of_supermajority hmajority (h'.maj23 m.1 m.2 hm')]
  | none =>
    have hbefore : ∀ key ok, ¬Supermajority w (weight w (Finset.range n)) (vs.voters n key ok) := by
      intro key ok hs
      rw [hlatched key ok hs] at hm
      cases hm
    -- only the pair of this vote can have become a majority
    have hpair (hnew : vs.votes vote.validatorIndex.toNat = none)
        (hs : Supermajority w (weight w (Finset.range n))
          ((vs.count vote (w vote.validatorIndex.toNat)).voters n key ok)) :
        vote.blockHeaderHash = key ∧ vote.isOK = ok := by
      rw [voters_count _ hnew hi] at hs
      by_contra hother
      rw [if_neg hother] at hs
      exact hbefore key ok hs
    cases adds_of_addVote hadd with
    | known => exact absurd hmajority (hbefore key ok)
    | majority hnew _ _ =>
      obtain ⟨rfl, rfl⟩ := hpair hnew hmajority
      rfl
    | counted hnew hle =>
      have hle := hle hm
      obtain ⟨rfl, rfl⟩ := hpair hnew hmajority
      rw [threshold_eq h hsmall, h.cnt_count hsmall hnew hi] at hle
      unfold Supermajority at hmajority
      omega

end VoteSet

end Emulator.Pyramid
