import Emulator.Core.HotStuff
import Emulator.Lib.Action
import Emulator.Pyramid.VoteSet

/-!
# The vote set of the source

`VoteTable` is `constypes.VoteSet` as the source has it: a slice of votes, a bit vector that says
which slots are filled, a map from hashes to two counters, and three fields for the majority.
`addVoteInPlace` writes them in the order of the source.

**Refinement.** `VoteTable.toVoteSet` forgets the representation. On a table that is `Kept`, a call
with an index in range does what `VoteSet.addVote` does (`Casts`, `toVoteSet_counted`).

**The invariant** (`Records`). Every validator's first vote is recorded, the counters are weights,
and `has_mj23` is set exactly when some hash and code have more than two thirds.

* `voteTable_spec` — counting and majorities over every sequence of calls.
* `addVote_detects_iff` — the check for a second vote of a validator compares hashes the wrong way
  round.
-/

namespace Emulator.Pyramid

open Emulator.Action Quorum

/-! ## The table and its methods -/

/-- The counter of a code in `[]int32{ok, abort}`. -/
def counterOf (u : ℤ × ℤ) (ok : Bool) : ℤ := if ok then u.1 else u.2

/-- `u[voteIndex(vote)] += valVote`. -/
def addToCounter (u : ℤ × ℤ) (ok : Bool) (valVote : ℤ) : ℤ × ℤ :=
  if ok then (int32 (u.1 + valVote), u.2) else (u.1, int32 (u.2 + valVote))

theorem counterOf_addToCounter (u : ℤ × ℤ) (ok ok' : Bool) (valVote : ℤ) :
    counterOf (addToCounter u ok valVote) ok' =
      if ok' = ok then int32 (counterOf u ok + valVote) else counterOf u ok' := by
  cases ok <;> cases ok' <;> rfl

/-- `constypes.VoteSet`. -/
structure VoteTable where
  validatorNum : ℕ
  totalVotes : ℤ
  votes : List (Option Vote)
  blockHeaderHashCnt : Bytes → Option (ℤ × ℤ)
  bitVector : BitVector
  hasMj23 : Bool
  mj23Key : Bytes
  mj23Code : Bool

/-- `NewVoteSet`. -/
def newVoteTable (n : ℕ) (totalVotes : ℤ) : VoteTable where
  validatorNum := n
  totalVotes := totalVotes
  votes := List.replicate n none
  blockHeaderHashCnt := fun _ => none
  bitVector := BitVector.newBitVector n
  hasMj23 := false
  mj23Key := []
  mj23Code := false

/-- How `AddVote` fails. -/
inductive VoteSetError
  /-- "The voter casts at least two ambiguous votes" -/
  | ambiguous
  /-- an index out of range or a `nil` vote, which panic -/
  | panic
  deriving DecidableEq, Repr

namespace VoteTable

variable (vs : VoteTable)

def slot (i : ℕ) : Option Vote := (vs.votes[i]?).join

/-- `blockHeaderHashCnt[key]` at a code; a hash that is not in the map counts nothing. -/
def cnt (key : Bytes) (ok : Bool) : ℤ := counterOf ((vs.blockHeaderHashCnt key).getD (0, 0)) ok

/-- `2*vs.totalVotes/3`. -/
def threshold : ℤ := (int32 (2 * vs.totalVotes)).tdiv 3

def setBit (i : ℕ) : VoteTable := { vs with bitVector := vs.bitVector.setIndex i true }

def setVote (i : ℕ) (vote : Vote) : VoteTable := { vs with votes := vs.votes.set i (some vote) }

/-- The counter of the vote's hash and code. A hash that is new gets two counters first. -/
def addCount (vote : Vote) (valVote : ℤ) : VoteTable :=
  { vs with
    blockHeaderHashCnt := Function.update vs.blockHeaderHashCnt vote.blockHeaderHash
      (some (addToCounter ((vs.blockHeaderHashCnt vote.blockHeaderHash).getD (0, 0)) vote.isOK
        valVote)) }

/-- The majority is kept once there is one. -/
def latch (vote : Vote) : VoteTable :=
  if vs.hasMj23 then vs
  else if vs.threshold < vs.cnt vote.blockHeaderHash vote.isOK then
    { vs with hasMj23 := true, mj23Key := vote.blockHeaderHash, mj23Code := vote.isOK }
  else vs

def hasMaj23 : Bool := vs.hasMj23

def getMaj23 : Bytes × Bool := (vs.mj23Key, vs.mj23Code)

end VoteTable

/-- `VoteSet.AddVote`, with its writes in the order of the source. -/
def addVoteInPlace (vote : Vote) (valVote : ℤ) : Action VoteSetError VoteTable Unit := do
  let vs ← get
  require (0 ≤ vote.validatorIndex) .panic
  if vs.bitVector.getIndex vote.validatorIndex.toNat then do
    let rawVote ← orThrow (vs.slot vote.validatorIndex.toNat) .panic
    require (!(vote.blockHeaderHash == rawVote.blockHeaderHash || vote.isOK != rawVote.isOK))
      .ambiguous
  else do
    modify (·.setBit vote.validatorIndex.toNat)
    -- `vs.votes[vote.GetIndex()] = vote`
    require (vote.validatorIndex.toNat < vs.votes.length) .panic
    modify (·.setVote vote.validatorIndex.toNat vote)
    modify (·.addCount vote valVote)
    modify (·.latch vote)

namespace VoteTable

/-- What `AddVote` makes of the first vote of a validator. -/
def counted (vs : VoteTable) (vote : Vote) (valVote : ℤ) : VoteTable :=
  ((((vs.setBit vote.validatorIndex.toNat).setVote vote.validatorIndex.toNat vote).addCount vote
    valVote).latch vote)

/-- The bits say which slots are filled, and the majority is empty while there is none. -/
structure Kept (vs : VoteTable) : Prop where
  length : vs.votes.length = vs.validatorNum
  bits : vs.bitVector.bits = vs.validatorNum
  wellFormed : vs.bitVector.WellFormed
  filled : ∀ i, vs.bitVector.getIndex i = (vs.slot i).isSome
  none : vs.hasMj23 = false → vs.getMaj23 = ([], false)

theorem kept_newVoteTable (n : ℕ) (totalVotes : ℤ) : (newVoteTable n totalVotes).Kept where
  length := List.length_replicate
  bits := rfl
  wellFormed := BitVector.wellFormed_newBitVector n
  filled i := by
    have hslot : (newVoteTable n totalVotes).slot i = none := Slots.entry_replicate n i
    rw [hslot]
    exact BitVector.getIndex_newBitVector n i
  none _ := rfl

variable {vs : VoteTable} {vote : Vote} {valVote : ℤ}

theorem latch_cases (vs : VoteTable) (vote : Vote) :
    (vs.latch vote = vs ∧ (vs.hasMj23 = true ∨ vs.cnt vote.blockHeaderHash vote.isOK ≤ vs.threshold)) ∨
      (vs.hasMj23 = false ∧ vs.threshold < vs.cnt vote.blockHeaderHash vote.isOK ∧
        vs.latch vote = { vs with
          hasMj23 := true, mj23Key := vote.blockHeaderHash, mj23Code := vote.isOK }) := by
  unfold latch
  split_ifs with hhas hlt
  · exact .inl ⟨rfl, .inl hhas⟩
  · exact .inr ⟨by simpa using hhas, hlt, rfl⟩
  · exact .inl ⟨rfl, .inr (Int.not_lt.mp hlt)⟩

@[simp] theorem latch_votes (vs : VoteTable) (vote : Vote) : (vs.latch vote).votes = vs.votes := by
  unfold latch
  split_ifs <;> rfl

@[simp] theorem latch_bitVector (vs : VoteTable) (vote : Vote) :
    (vs.latch vote).bitVector = vs.bitVector := by
  unfold latch
  split_ifs <;> rfl

@[simp] theorem latch_validatorNum (vs : VoteTable) (vote : Vote) :
    (vs.latch vote).validatorNum = vs.validatorNum := by
  unfold latch
  split_ifs <;> rfl

theorem slot_counted (hi : vote.validatorIndex.toNat < vs.votes.length) (j : ℕ) :
    (vs.counted vote valVote).slot j =
      if j = vote.validatorIndex.toNat then some vote else vs.slot j := by
  unfold slot counted
  rw [latch_votes]
  exact Slots.entry_set hi vote j

theorem Kept.counted (h : vs.Kept) (hi : vote.validatorIndex.toNat < vs.validatorNum) :
    (vs.counted vote valVote).Kept := by
  have hlen : vote.validatorIndex.toNat < vs.votes.length := by rwa [h.length]
  have hbits : vote.validatorIndex.toNat < vs.bitVector.bits := by rwa [h.bits]
  constructor
  · unfold VoteTable.counted
    rw [latch_votes, latch_validatorNum]
    exact (List.length_set ..).trans h.length
  · unfold VoteTable.counted
    rw [latch_bitVector, latch_validatorNum]
    exact (BitVector.bits_setIndex ..).trans h.bits
  · unfold VoteTable.counted
    rw [latch_bitVector]
    exact h.wellFormed.setIndex _ _
  · unfold VoteTable.counted slot
    rw [latch_bitVector, latch_votes]
    exact BitVector.getIndex_setIndex_entry h.wellFormed hbits hlen h.filled vote
  · intro hno
    unfold VoteTable.counted at hno ⊢
    rcases latch_cases (((vs.setBit vote.validatorIndex.toNat).setVote vote.validatorIndex.toNat
      vote).addCount vote valVote) vote with ⟨hsame, -⟩ | ⟨-, -, hset⟩
    · rw [hsame] at hno ⊢
      exact h.none hno
    · rw [hset] at hno
      cases hno

/-- What a call of `AddVote` with an index in range can do. -/
inductive Casts (vs : VoteTable) (vote : Vote) (valVote : ℤ) :
    Except VoteSetError Unit × VoteTable → Prop
  | ambiguous {rawVote : Vote} (hslot : vs.slot vote.validatorIndex.toNat = some rawVote)
      (h : vote.blockHeaderHash = rawVote.blockHeaderHash ∨ vote.isOK ≠ rawVote.isOK) :
      Casts vs vote valVote (.error .ambiguous, vs)
  | passed {rawVote : Vote} (hslot : vs.slot vote.validatorIndex.toNat = some rawVote)
      (h : ¬(vote.blockHeaderHash = rawVote.blockHeaderHash ∨ vote.isOK ≠ rawVote.isOK)) :
      Casts vs vote valVote (.ok (), vs)
  | first (hslot : vs.slot vote.validatorIndex.toNat = none) :
      Casts vs vote valVote (.ok (), vs.counted vote valVote)

theorem casts_addVoteInPlace (h : vs.Kept) (h₀ : 0 ≤ vote.validatorIndex)
    (hi : vote.validatorIndex < vs.validatorNum) (valVote : ℤ) :
    Casts vs vote valVote (addVoteInPlace vote valVote vs) := by
  unfold addVoteInPlace
  rw [run_bind_ok (run_get vs)]
  refine require_bind_elim (fun hneg => absurd h₀ (of_decide_eq_false hneg)) fun _ => ?_
  rw [h.filled]
  cases hslot : vs.slot vote.validatorIndex.toNat with
  | some rawVote =>
    rw [Option.isSome_some, if_pos rfl, run_bind_ok (run_orThrow_some ..), run_require]
    by_cases hcond : vote.blockHeaderHash = rawVote.blockHeaderHash ∨ vote.isOK ≠ rawVote.isOK
    · have htest : (vote.blockHeaderHash == rawVote.blockHeaderHash ||
          vote.isOK != rawVote.isOK) = true := by simpa using hcond
      rw [htest]
      exact .ambiguous hslot hcond
    · have htest : (vote.blockHeaderHash == rawVote.blockHeaderHash ||
          vote.isOK != rawVote.isOK) = false := by simpa using hcond
      rw [htest]
      exact .passed hslot hcond
  | none =>
    have hlen : vote.validatorIndex.toNat < vs.votes.length := by
      rw [h.length]
      omega
    rw [Option.isSome_none, if_neg Bool.false_ne_true, run_bind_ok (run_modify _ vs)]
    refine require_bind_elim (fun hout => absurd hlen (of_decide_eq_false hout)) fun _ => ?_
    exact .first hslot

/-! ## Refinement -/

/-- The vote set that the table represents. -/
def toVoteSet (vs : VoteTable) : VoteSet where
  totalVotes := vs.totalVotes
  votes := vs.slot
  blockHeaderHashCnt := vs.cnt
  maj23 := if vs.hasMj23 then some vs.getMaj23 else none

theorem toVoteSet_newVoteTable (n : ℕ) (totalVotes : ℤ) :
    (newVoteTable n totalVotes).toVoteSet = newVoteSet totalVotes := by
  have hslot : (newVoteTable n totalVotes).slot = fun _ => none := by
    funext i
    simp only [slot, newVoteTable, List.getElem?_replicate]
    split <;> rfl
  have hcnt : (newVoteTable n totalVotes).cnt = fun _ _ => 0 := by
    funext key ok
    cases ok <;> rfl
  unfold toVoteSet newVoteSet
  rw [hslot, hcnt]
  rfl

theorem cnt_addCount (vs : VoteTable) (vote : Vote) (valVote : ℤ) :
    (vs.addCount vote valVote).cnt = (vs.toVoteSet.count vote valVote).blockHeaderHashCnt := by
  funext key ok
  unfold cnt addCount VoteSet.count toVoteSet
  dsimp only
  by_cases hkey : key = vote.blockHeaderHash
  · subst hkey
    rw [Function.update_self, Function.update_self, Option.getD_some, counterOf_addToCounter,
      Function.update_apply]
    rfl
  · rw [Function.update_of_ne hkey, Function.update_of_ne hkey]
    rfl

/-- **Refinement.** The first vote of a validator is counted as in the vote set. -/
theorem toVoteSet_counted (hi : vote.validatorIndex.toNat < vs.votes.length)
    (hnew : vs.slot vote.validatorIndex.toNat = none) :
    vs.toVoteSet.addVote vote valVote = some (vs.counted vote valVote).toVoteSet := by
  set t := ((vs.setBit vote.validatorIndex.toNat).setVote vote.validatorIndex.toNat vote).addCount
    vote valVote with ht
  have hvotes : t.slot = (vs.toVoteSet.count vote valVote).votes := by
    funext j
    show Slots.entry (vs.votes.set _ (some vote)) j = Function.update vs.slot _ _ j
    rw [Slots.entry_set hi, Function.update_apply]
    rfl
  have hcnt : t.cnt = (vs.toVoteSet.count vote valVote).blockHeaderHashCnt :=
    cnt_addCount ((vs.setBit vote.validatorIndex.toNat).setVote vote.validatorIndex.toNat vote) vote
      valVote
  have hcount : t.toVoteSet = vs.toVoteSet.count vote valVote := by
    rw [toVoteSet, hvotes, hcnt]
    rfl
  have hnone : vs.toVoteSet.votes vote.validatorIndex.toNat = none := hnew
  unfold VoteSet.addVote
  rw [hnone]
  dsimp only
  rw [← hcount]
  have hcounted : vs.counted vote valVote = t.latch vote := rfl
  have hmaj : vs.toVoteSet.maj23.isSome = t.hasMj23 := by
    show (if vs.hasMj23 then some vs.getMaj23 else none).isSome = vs.hasMj23
    cases vs.hasMj23 <;> rfl
  rw [hmaj, hcounted]
  rcases latch_cases t vote with ⟨hsame, hhas | hle⟩ | ⟨hno, hlt, hset⟩
  · rw [if_pos hhas, hsame]
  · have hle' : ¬vs.toVoteSet.threshold < t.toVoteSet.blockHeaderHashCnt vote.blockHeaderHash
        vote.isOK := Int.not_lt.mpr hle
    rw [if_neg hle', ite_self, hsame]
  · have hlt' : vs.toVoteSet.threshold < t.toVoteSet.blockHeaderHashCnt vote.blockHeaderHash
        vote.isOK := hlt
    rw [if_neg (by simp [hno]), if_pos hlt', hset]
    rfl

/-- **Refinement.** A call on the table is a call on the vote set, and a refused vote leaves both as
they were. -/
theorem toVoteSet_addVoteInPlace (h : vs.Kept) (h₀ : 0 ≤ vote.validatorIndex)
    (hi : vote.validatorIndex < vs.validatorNum) (valVote : ℤ) :
    (addVoteInPlace vote valVote vs).2.toVoteSet =
      (vs.toVoteSet.addVote vote valVote).getD vs.toVoteSet := by
  have hcast := casts_addVoteInPlace h h₀ hi valVote
  generalize addVoteInPlace vote valVote vs = r at hcast
  cases hcast with
  | @ambiguous rawVote hslot hcond =>
    have hraw : vs.toVoteSet.votes vote.validatorIndex.toNat = some rawVote := hslot
    unfold VoteSet.addVote
    rw [hraw]
    simp only [if_pos hcond, Option.getD_none]
  | @passed rawVote hslot hcond =>
    have hraw : vs.toVoteSet.votes vote.validatorIndex.toNat = some rawVote := hslot
    unfold VoteSet.addVote
    rw [hraw]
    simp only [if_neg hcond, Option.getD_some]
  | first hslot =>
    have hlen : vote.validatorIndex.toNat < vs.votes.length := by
      rw [h.length]
      omega
    rw [toVoteSet_counted hlen hslot]
    rfl

/-- The table after a sequence of calls of `AddVote`, whatever they return. -/
def castAll (vs : VoteTable) (calls : List (Vote × ℤ)) : VoteTable :=
  calls.foldl (fun vs call => (addVoteInPlace call.1 call.2 vs).2) vs

/-- The calls for a sequence of votes, each with the weight of its validator. -/
def addVotes (w : ℕ → ℕ) (vs : VoteTable) (votes : List Vote) : VoteTable :=
  vs.castAll (votes.map fun v => (v, (w v.validatorIndex.toNat : ℤ)))

theorem addVotes_cons (w : ℕ → ℕ) (vs : VoteTable) (v : Vote) (votes : List Vote) :
    vs.addVotes w (v :: votes) =
      ((addVoteInPlace v (w v.validatorIndex.toNat) vs).2).addVotes w votes := rfl

/-! ## The invariant -/

/-- What the table of `n` validators has recorded of the votes `seen`. -/
structure Records (w : ℕ → ℕ) (n : ℕ) (seen : List Vote) (vs : VoteTable) : Prop where
  kept : vs.Kept
  num : vs.validatorNum = n
  tally : VoteSet.Tally w n vs.toVoteSet
  latched : VoteSet.Latched w n vs.toVoteSet
  first : ∀ i : ℕ, vs.slot i = seen.find? fun v => v.validatorIndex == (i : ℤ)

variable {w : ℕ → ℕ} {n : ℕ} {seen : List Vote}

theorem records_newVoteTable (w : ℕ → ℕ) (n : ℕ) :
    Records w n [] (newVoteTable n (weight w (Finset.range n))) := by
  have hset := toVoteSet_newVoteTable n (weight w (Finset.range n))
  constructor
  · exact kept_newVoteTable _ _
  · rfl
  · rw [hset]
    exact VoteSet.tally_newVoteSet w n
  · rw [hset]
    exact VoteSet.latched_newVoteSet w n _
  · intro i
    exact congrFun (congrArg VoteSet.votes hset) i

theorem Records.addVote (h : Records w n seen vs) (hsmall : 2 * weight w (Finset.range n) < 2 ^ 31)
    (h₀ : 0 ≤ vote.validatorIndex) (hi : vote.validatorIndex < n) :
    Records w n (seen ++ [vote]) (addVoteInPlace vote (w vote.validatorIndex.toNat) vs).2 ∧
      (addVoteInPlace vote (w vote.validatorIndex.toNat) vs).1 ≠ .error .panic := by
  have hcast := casts_addVoteInPlace h.kept h₀ (by rwa [h.num]) (w vote.validatorIndex.toNat)
  have hindex : (vote.validatorIndex.toNat : ℤ) = vote.validatorIndex := Int.toNat_of_nonneg h₀
  have hfind : ∀ i : ℕ, ([vote].find? fun v => v.validatorIndex == (i : ℤ)) =
      if i = vote.validatorIndex.toNat then some vote else none := by
    intro i
    have hiff : (vote.validatorIndex == (i : ℤ)) = decide (i = vote.validatorIndex.toNat) := by
      rw [Bool.eq_iff_iff, beq_iff_eq, decide_eq_true_eq]
      omega
    rw [List.find?_singleton, hiff]
    simp
  -- a validator that has voted keeps its vote
  have hrepeat : ∀ rawVote, vs.slot vote.validatorIndex.toNat = some rawVote →
      Records w n (seen ++ [vote]) vs := by
    intro rawVote hslot
    refine { h with first := fun i => ?_ }
    rw [List.find?_append, hfind, ← h.first]
    split_ifs with hi'
    · rw [hi', hslot]
      rfl
    · exact (Option.or_none).symm
  generalize addVoteInPlace vote (w vote.validatorIndex.toNat) vs = r at hcast
  cases hcast with
  | ambiguous hslot _ => exact ⟨hrepeat _ hslot, fun hc => by cases hc⟩
  | passed hslot _ => exact ⟨hrepeat _ hslot, fun hc => by cases hc⟩
  | first hslot =>
    have hlt : vote.validatorIndex.toNat < n := by omega
    have hlen : vote.validatorIndex.toNat < vs.votes.length := by rwa [h.kept.length, h.num]
    have hadd : vs.toVoteSet.addVote vote (w vote.validatorIndex.toNat) =
        some (vs.counted vote (w vote.validatorIndex.toNat)).toVoteSet :=
      toVoteSet_counted hlen hslot
    refine ⟨⟨h.kept.counted (by rwa [h.num]), ?_, h.tally.addVote hsmall hlt hadd,
      h.latched.addVote h.tally hsmall hlt hadd, fun i => ?_⟩, fun hc => by cases hc⟩
    · rw [VoteTable.counted, latch_validatorNum]
      exact h.num
    · rw [slot_counted hlen, List.find?_append, hfind, ← h.first]
      split_ifs with hi'
      · rw [hi', hslot]
        rfl
      · exact (Option.or_none).symm

/-- The votes name validators of the table. -/
def InRange (n : ℕ) (votes : List Vote) : Prop :=
  ∀ v ∈ votes, 0 ≤ v.validatorIndex ∧ v.validatorIndex < n

instance (n : ℕ) (votes : List Vote) : Decidable (InRange n votes) :=
  inferInstanceAs (Decidable (∀ v ∈ votes, _))

theorem Records.addVotes (h : Records w n seen vs) (hsmall : 2 * weight w (Finset.range n) < 2 ^ 31)
    {votes : List Vote} (hin : InRange n votes) :
    Records w n (seen ++ votes) (vs.addVotes w votes) := by
  induction votes generalizing seen vs with
  | nil => simpa [VoteTable.addVotes, castAll] using h
  | cons v votes ih =>
    obtain ⟨h₀, hi⟩ := hin v List.mem_cons_self
    have hstep := (h.addVote hsmall h₀ hi).1
    have hrest := ih hstep fun u hu => hin u (List.mem_cons_of_mem v hu)
    rw [addVotes_cons]
    rwa [List.append_assoc] at hrest

/-! ## Majorities and their signatures -/

/-- The validators whose recorded vote is for a hash with a code. -/
def voters (vs : VoteTable) (key : Bytes) (ok : Bool) : Finset ℕ :=
  vs.toVoteSet.voters vs.validatorNum key ok

theorem maj23_toVoteSet {m : Bytes × Bool} :
    vs.toVoteSet.maj23 = some m ↔ vs.hasMaj23 = true ∧ vs.getMaj23 = m := by
  show (if vs.hasMj23 then some vs.getMaj23 else none) = some m ↔ vs.hasMj23 = true ∧ _
  cases vs.hasMj23 <;> simp

theorem Records.supermajority (h : Records w n seen vs) (hmaj : vs.hasMaj23 = true) :
    Supermajority w (weight w (Finset.range n)) (vs.voters vs.getMaj23.1 vs.getMaj23.2) := by
  unfold voters
  rw [h.num]
  exact h.tally.maj23 _ _ (maj23_toVoteSet.mpr ⟨hmaj, rfl⟩)

theorem Records.maj23_of_supermajority (h : Records w n seen vs) {key : Bytes} {ok : Bool}
    (hs : Supermajority w (weight w (Finset.range n)) (vs.voters key ok)) :
    vs.hasMaj23 = true ∧ vs.getMaj23 = (key, ok) := by
  unfold voters at hs
  rw [h.num] at hs
  exact maj23_toVoteSet.mp (h.latched key ok hs)

/-- One turn of the loop of `GetMaj23AggreSig`. -/
def takeSign (vs : VoteTable) (acc : List Str × BitVector) (i : ℕ) : List Str × BitVector :=
  if vs.bitVector.getIndex i then
    match vs.slot i with
    | some vote =>
      if vote.isOK = vs.getMaj23.2 ∧ vs.getMaj23.1 = vote.blockHeaderHash then
        (acc.1 ++ [vote.signature], acc.2.setIndex i true)
      else acc
    -- a `nil` vote would panic; where the bit is set there is one
    | none => acc
  else acc

/-- The signatures of the majority, and the bits of its validators. -/
def maj23Signs (vs : VoteTable) : List Str × BitVector :=
  (List.range vs.validatorNum).foldl vs.takeSign ([], BitVector.newBitVector vs.validatorNum)

def getMaj23AggreSig (B : HotStuff.Bls) (vs : VoteTable) : Option (Str × Bytes) :=
  (B.aggregate vs.maj23Signs.1).map fun aggSig => (aggSig, vs.maj23Signs.2.byte)

end VoteTable

namespace VoteSet

/-- Validator `i` voted with the majority. -/
def votedMaj23 (vs : VoteSet) (i : ℕ) : Bool :=
  (vs.votes i).any fun vote => vote.isOK == vs.getMaj23.2 && vs.getMaj23.1 == vote.blockHeaderHash

def signOf (vs : VoteSet) (i : ℕ) : Option Str := (vs.votes i).map Vote.signature

/-- The bits of the validators that voted with the majority. -/
def maj23Bits (n : ℕ) (vs : VoteSet) : BitVector :=
  (BitVector.newBitVector n).setWhere vs.votedMaj23 0 (List.range n)

def getMaj23AggreSig (B : HotStuff.Bls) (n : ℕ) (vs : VoteSet) : Option (Str × Bytes) :=
  (B.aggregate (((List.range n).filter vs.votedMaj23).filterMap vs.signOf)).map fun aggSig =>
    (aggSig, (vs.maj23Bits n).byte)

variable {vs : VoteSet} {n : ℕ}

theorem votedMaj23_iff {i : ℕ} : vs.votedMaj23 i = true ↔
    ∃ v, vs.votes i = some v ∧ v.blockHeaderHash = vs.getMaj23.1 ∧ v.isOK = vs.getMaj23.2 := by
  unfold votedMaj23
  rw [Option.any_eq_true]
  refine exists_congr fun v => and_congr_right fun _ => ?_
  rw [Bool.and_eq_true, beq_iff_eq, beq_iff_eq, and_comm]
  exact and_congr_left fun _ => eq_comm

theorem wellFormed_maj23Bits (n : ℕ) (vs : VoteSet) : (vs.maj23Bits n).WellFormed :=
  (BitVector.wellFormed_newBitVector n).setWhere _ _ _

theorem bits_maj23Bits (n : ℕ) (vs : VoteSet) : (vs.maj23Bits n).bits = n :=
  BitVector.bits_setWhere _ _ _ _

theorem getIndex_maj23Bits {i : ℕ} (hi : i < n) : (vs.maj23Bits n).getIndex i = vs.votedMaj23 i := by
  have hlen : 0 + (List.range n).length ≤ (BitVector.newBitVector n).bits := by simp
  rw [maj23Bits, BitVector.getIndex_setWhere _ (BitVector.wellFormed_newBitVector _) hlen,
    BitVector.getIndex_newBitVector]
  simp [hi]

/-- The bits are those of the validators that voted with the majority. -/
theorem filter_maj23Bits (n : ℕ) (vs : VoteSet) :
    (Finset.range n).filter (fun i => (vs.maj23Bits n).getIndex i = true) =
      vs.voters n vs.getMaj23.1 vs.getMaj23.2 := by
  ext i
  rw [Finset.mem_filter, Finset.mem_range, mem_voters, ← votedMaj23_iff]
  exact and_congr_right fun hi => by rw [getIndex_maj23Bits hi]

/-- The signatures that are aggregated are those of the validators whose bit is set. -/
theorem getMaj23AggreSig_eq (B : HotStuff.Bls) (n : ℕ) (vs : VoteSet) :
    vs.getMaj23AggreSig B n = (B.aggregate
      (((List.range n).filter (vs.maj23Bits n).getIndex).filterMap vs.signOf)).map fun aggSig =>
        (aggSig, (vs.maj23Bits n).byte) := by
  have hfilter : (List.range n).filter (vs.maj23Bits n).getIndex =
      (List.range n).filter vs.votedMaj23 :=
    List.filter_congr fun i hi => getIndex_maj23Bits (List.mem_range.mp hi)
  rw [hfilter]
  rfl

end VoteSet

namespace VoteTable

variable {vs : VoteTable} {vote : Vote} {valVote : ℤ} {w : ℕ → ℕ} {n : ℕ} {seen : List Vote}

theorem Kept.getMaj23_toVoteSet (h : vs.Kept) : vs.toVoteSet.getMaj23 = vs.getMaj23 := by
  unfold VoteSet.getMaj23 toVoteSet
  cases hhas : vs.hasMj23 with
  | true => rfl
  | false => exact (h.none hhas).symm

theorem takeSign_eq (h : vs.Kept) (acc : List Str × BitVector) (i : ℕ) :
    vs.takeSign acc i = if vs.toVoteSet.votedMaj23 i then
      (acc.1 ++ (vs.toVoteSet.signOf i).toList, acc.2.setIndex i true) else acc := by
  unfold takeSign VoteSet.votedMaj23 VoteSet.signOf
  rw [h.filled, h.getMaj23_toVoteSet]
  show _ = if ((vs.slot i).any _) = true then
    (acc.1 ++ ((vs.slot i).map Vote.signature).toList, _) else _
  cases vs.slot i with
  | none => rfl
  | some vote => simp

/-- The loop collects the signatures of the majority and marks its validators. -/
theorem foldl_takeSign (h : vs.Kept) (acc : List Str × BitVector) (k m : ℕ) :
    (List.range' k m).foldl vs.takeSign acc =
      (acc.1 ++ ((List.range' k m).filter vs.toVoteSet.votedMaj23).filterMap vs.toVoteSet.signOf,
        acc.2.setWhere vs.toVoteSet.votedMaj23 k (List.range' k m)) := by
  induction m generalizing k acc with
  | zero => simp [BitVector.setWhere]
  | succ m ih =>
    rw [List.range'_succ, List.foldl_cons, takeSign_eq h, ih, List.filter_cons, BitVector.setWhere]
    split_ifs
    · cases hsign : vs.toVoteSet.signOf k <;> simp [hsign]
    · rfl

/-- **Refinement** of `GetMaj23AggreSig`. -/
theorem Kept.getMaj23AggreSig_toVoteSet (h : vs.Kept) (B : HotStuff.Bls) :
    vs.getMaj23AggreSig B = vs.toVoteSet.getMaj23AggreSig B vs.validatorNum := by
  have hsigns : vs.maj23Signs = (((List.range vs.validatorNum).filter
      vs.toVoteSet.votedMaj23).filterMap vs.toVoteSet.signOf,
      vs.toVoteSet.maj23Bits vs.validatorNum) := by
    unfold maj23Signs VoteSet.maj23Bits
    rw [List.range_eq_range', foldl_takeSign h, List.nil_append]
  unfold getMaj23AggreSig VoteSet.getMaj23AggreSig
  rw [hsigns]

/-! ## Vote sets over a whole run -/

theorem counted_of_hasMaj23 (hmaj : vs.hasMaj23 = true) :
    (vs.counted vote valVote).hasMaj23 = true ∧ (vs.counted vote valVote).getMaj23 = vs.getMaj23 := by
  have hlatch : vs.counted vote valVote = ((vs.setBit vote.validatorIndex.toNat).setVote
      vote.validatorIndex.toNat vote).addCount vote valVote := if_pos hmaj
  rw [hlatch]
  exact ⟨hmaj, rfl⟩

theorem Records.stays (h : Records w n seen vs) (hsmall : 2 * weight w (Finset.range n) < 2 ^ 31)
    {more : List Vote} (hin : InRange n more) (hmaj : vs.hasMaj23 = true) :
    (vs.addVotes w more).hasMaj23 = true ∧ (vs.addVotes w more).getMaj23 = vs.getMaj23 := by
  induction more generalizing seen vs with
  | nil => exact ⟨hmaj, rfl⟩
  | cons v more ih =>
    obtain ⟨h₀, hi⟩ := hin v List.mem_cons_self
    have hstep := (h.addVote hsmall h₀ hi).1
    have hcast := casts_addVoteInPlace h.kept h₀ (by rwa [h.num]) (w v.validatorIndex.toNat)
    have hmore : InRange n more := fun u hu => hin u (List.mem_cons_of_mem v hu)
    rw [addVotes_cons]
    generalize addVoteInPlace v (w v.validatorIndex.toNat) vs = r at hcast hstep
    cases hcast with
    | ambiguous => exact ih h hmore hmaj
    | passed => exact ih h hmore hmaj
    | first =>
      obtain ⟨hhas, hget⟩ := counted_of_hasMaj23 hmaj
      rw [← hget]
      exact ih hstep hmore hhas

/-- What the table of `n` validators with weights `w` has to keep after the calls for `votes`. -/
structure CountsVotes (w : ℕ → ℕ) (n : ℕ) (votes : List Vote) (vs : VoteTable) : Prop where
  /-- each validator is counted once, with its first vote -/
  first : ∀ i : ℕ, vs.slot i = votes.find? fun v => v.validatorIndex == (i : ℤ)
  cnt : ∀ key ok, vs.cnt key ok = weight w (vs.voters key ok)
  hasMaj23 : vs.hasMaj23 = true ↔
    ∃ key ok, 2 * weight w (Finset.range n) < 3 * weight w (vs.voters key ok)
  getMaj23 : ∀ key ok, 2 * weight w (Finset.range n) < 3 * weight w (vs.voters key ok) →
    vs.getMaj23 = (key, ok)
  stays : ∀ more, InRange n more → vs.hasMaj23 = true →
    (vs.addVotes w more).hasMaj23 = true ∧ (vs.addVotes w more).getMaj23 = vs.getMaj23
  /-- the bits that are returned, the signatures that are aggregated and the weight behind them -/
  aggreSig : vs.hasMaj23 = true → ∃ bv : BitVector,
    (∀ B, vs.getMaj23AggreSig B = (B.aggregate (((List.range n).filter bv.getIndex).filterMap
      fun i => (vs.slot i).map Vote.signature)).map fun aggSig => (aggSig, bv.byte)) ∧
    BitVector.newBitArrayFromByte bv.byte = some bv ∧
    (Finset.range n).filter (fun i => bv.getIndex i = true) =
      vs.voters vs.getMaj23.1 vs.getMaj23.2 ∧
    2 * weight w (Finset.range n) <
      3 * weight w ((Finset.range n).filter fun i => bv.getIndex i = true)

theorem Records.countsVotes (h : Records w n seen vs)
    (hsmall : 2 * weight w (Finset.range n) < 2 ^ 31) : CountsVotes w n seen vs := by
  constructor
  · exact h.first
  · intro key ok
    unfold voters
    rw [h.num]
    exact h.tally.cnt key ok
  · constructor
    · exact fun hmaj => ⟨_, _, h.supermajority hmaj⟩
    · rintro ⟨key, ok, hs⟩
      exact (h.maj23_of_supermajority hs).1
  · intro key ok hs
    exact (h.maj23_of_supermajority hs).2
  · exact fun more hin hmaj => h.stays hsmall hin hmaj
  · intro hmaj
    have hbits : (Finset.range n).filter (fun i => (vs.toVoteSet.maj23Bits n).getIndex i = true) =
        vs.voters vs.getMaj23.1 vs.getMaj23.2 := by
      rw [VoteSet.filter_maj23Bits, h.kept.getMaj23_toVoteSet, voters, h.num]
    refine ⟨vs.toVoteSet.maj23Bits n, fun B => ?_, ?_, hbits, ?_⟩
    · rw [h.kept.getMaj23AggreSig_toVoteSet, h.num]
      exact VoteSet.getMaj23AggreSig_eq B n vs.toVoteSet
    · exact BitVector.newBitArrayFromByte_byte (VoteSet.wellFormed_maj23Bits n _)
    · rw [hbits]
      exact h.supermajority hmaj

/-- **The vote set of a Pyramid shard.** Over every sequence of calls with indices in range and each
validator's own weight, as long as twice the total weight fits into an `int32`, the counters are the
weights of the recorded votes, the majority is the only hash and code with more than two thirds, it
stays, and its aggregate has the signatures of the validators it names. Two sets with different
majorities share validators with more than a third of the weight. -/
theorem voteTable_spec {w : ℕ → ℕ} {n : ℕ} (hsmall : 2 * weight w (Finset.range n) < 2 ^ 31) :
    let start := newVoteTable n (weight w (Finset.range n))
    (∀ votes, InRange n votes → CountsVotes w n votes (start.addVotes w votes)) ∧
    ∀ votes₁ votes₂, InRange n votes₁ → InRange n votes₂ →
      let vs₁ := start.addVotes w votes₁
      let vs₂ := start.addVotes w votes₂
      vs₁.hasMaj23 = true → vs₂.hasMaj23 = true → vs₁.getMaj23 ≠ vs₂.getMaj23 →
        weight w (Finset.range n) < 3 * weight w
          (vs₁.voters vs₁.getMaj23.1 vs₁.getMaj23.2 ∩ vs₂.voters vs₂.getMaj23.1 vs₂.getMaj23.2) := by
  intro start
  have hrecords : ∀ votes, InRange n votes → Records w n votes (start.addVotes w votes) :=
    fun votes hin => (records_newVoteTable w n).addVotes hsmall hin
  have hsub : ∀ votes, InRange n votes → ∀ key ok,
      (start.addVotes w votes).voters key ok ⊆ Finset.range n := by
    intro votes hin key ok
    rw [← (hrecords votes hin).num]
    exact VoteSet.voters_subset _ _ _ _
  refine ⟨fun votes hin => (hrecords votes hin).countsVotes hsmall, ?_⟩
  intro votes₁ votes₂ hin₁ hin₂ vs₁ vs₂ hmaj₁ hmaj₂ _
  exact ((hrecords votes₁ hin₁).supermajority hmaj₁).inter
    ((hrecords votes₂ hin₂).supermajority hmaj₂) (hsub votes₁ hin₁ _ _) (hsub votes₂ hin₂ _ _)

/-- Three validators of weight 1 vote for a hash, two with OK and the third against. -/
def threeVotes : List Vote :=
  [newVote 1 0 [7] 0, newVote 1 0 [7] 1, (newVote 1 0 [7] 2).setOK false]

/-- The two OK votes of three are not more than two thirds; a fourth validator makes them three of
four. -/
theorem voteTable_threeVotes :
    2 * weight (fun _ => 1) (Finset.range 4) < 2 ^ 31 ∧
    CountsVotes (fun _ => 1) 4 (threeVotes ++ [newVote 1 0 [7] 3])
      ((newVoteTable 4 4).addVotes (fun _ => 1) (threeVotes ++ [newVote 1 0 [7] 3])) ∧
    ((newVoteTable 4 4).addVotes (fun _ => 1) threeVotes).hasMaj23 = false ∧
    ((newVoteTable 4 4).addVotes (fun _ => 1)
      (threeVotes ++ [newVote 1 0 [7] 3])).getMaj23 = ([7], true) := by
  have hsmall : 2 * weight (fun _ => 1) (Finset.range 4) < 2 ^ 31 := by decide
  refine ⟨hsmall, ?_, by decide, by decide⟩
  exact (voteTable_spec hsmall).1 _ (by decide)

/-! ## A second vote of a validator -/

/-- The vote conflicts with the one that is recorded. -/
def Conflicts (vote rawVote : Vote) : Prop :=
  vote.blockHeaderHash ≠ rawVote.blockHeaderHash ∨ vote.isOK ≠ rawVote.isOK

instance (vote rawVote : Vote) : Decidable (Conflicts vote rawVote) :=
  inferInstanceAs (Decidable (_ ∨ _))

theorem Kept.lt_of_slot (h : vs.Kept) {i : ℕ} {v : Vote} (hv : vs.slot i = some v) :
    i < vs.validatorNum := by
  rw [← h.length]
  exact Slots.lt_length_of_entry hv

theorem Kept.castAll {calls : List (Vote × ℤ)} (h : vs.Kept)
    (hin : InRange vs.validatorNum (calls.map Prod.fst)) : (vs.castAll calls).Kept := by
  induction calls generalizing vs with
  | nil => exact h
  | cons call calls ih =>
    obtain ⟨h₀, hi⟩ := hin call.1 (by simp)
    have hcast := casts_addVoteInPlace h h₀ hi call.2
    have hrest : InRange vs.validatorNum (calls.map Prod.fst) := fun u hu =>
      hin u (List.mem_cons_of_mem _ hu)
    unfold VoteTable.castAll at ih ⊢
    rw [List.foldl_cons]
    generalize addVoteInPlace call.1 call.2 vs = r at hcast
    cases hcast with
    | ambiguous => exact ih h hrest
    | passed => exact ih h hrest
    | first =>
      refine ih (h.counted (by omega)) ?_
      rwa [VoteTable.counted, latch_validatorNum]

/-- **The check for a second vote is the wrong way round.** `AddVote` returns an error exactly for a
vote that conflicts with the recorded one, and changes nothing, only if the two have different
codes: with the same code it refuses a repetition and passes a vote for another hash. -/
theorem addVote_detects_iff {n : ℕ} {totalVotes : ℤ} {calls : List (Vote × ℤ)}
    (hin : InRange n (calls.map Prod.fst)) {vote rawVote : Vote} {i : ℕ}
    (hindex : vote.validatorIndex = i)
    (hvoted : ((newVoteTable n totalVotes).castAll calls).slot i = some rawVote) (valVote : ℤ) :
    let vs := (newVoteTable n totalVotes).castAll calls
    ((addVoteInPlace vote valVote vs).2 = vs ∧
      ((∃ e, (addVoteInPlace vote valVote vs).1 = .error e) ↔ Conflicts vote rawVote)) ↔
      vote.isOK ≠ rawVote.isOK := by
  intro vs
  have hkept : vs.Kept := (kept_newVoteTable n totalVotes).castAll hin
  have hi : vote.validatorIndex < vs.validatorNum := by
    have hlt := hkept.lt_of_slot hvoted
    omega
  have hcast := casts_addVoteInPlace hkept (by omega) hi valVote
  have hslot : vs.slot vote.validatorIndex.toNat = some rawVote := by
    rw [hindex, Int.toNat_natCast]
    exact hvoted
  generalize addVoteInPlace vote valVote vs = r at hcast
  cases hcast with
  | ambiguous hslot' h =>
    obtain rfl := Option.some.inj (hslot.symm.trans hslot')
    constructor
    · rintro ⟨-, hdetects⟩
      rcases hdetects.mp ⟨_, rfl⟩ with hhash | hcode
      · exact h.resolve_left hhash
      · exact hcode
    · exact fun hcode => ⟨rfl, iff_of_true ⟨_, rfl⟩ (.inr hcode)⟩
  | passed hslot' h =>
    obtain rfl := Option.some.inj (hslot.symm.trans hslot')
    rw [not_or] at h
    constructor
    · rintro ⟨-, hdetects⟩
      obtain ⟨e, he⟩ := hdetects.mpr (.inl h.1)
      cases he
    · exact fun hcode => absurd hcode h.2
  | first hslot' =>
    rw [hslot] at hslot'
    cases hslot'

/-- A vote against the hash that the validator has voted for is refused. -/
theorem addVote_detects_otherCode :
    InRange 4 (([newVote 1 0 [7] 0].map fun v => (v, (1 : ℤ))).map Prod.fst) ∧
    let vs := (newVoteTable 4 4).castAll ([newVote 1 0 [7] 0].map fun v => (v, 1))
    vs.slot 0 = some (newVote 1 0 [7] 0) ∧
    (addVoteInPlace ((newVote 1 0 [7] 0).setOK false) 1 vs).2 = vs ∧
    ((∃ e, (addVoteInPlace ((newVote 1 0 [7] 0).setOK false) 1 vs).1 = .error e) ↔
      Conflicts ((newVote 1 0 [7] 0).setOK false) (newVote 1 0 [7] 0)) := by
  have hin : InRange 4 (([newVote 1 0 [7] 0].map fun v => (v, (1 : ℤ))).map Prod.fst) := by decide
  have hvoted : ((newVoteTable 4 4).castAll ([newVote 1 0 [7] 0].map fun v => (v, 1))).slot 0 =
      some (newVote 1 0 [7] 0) := by decide
  exact ⟨hin, hvoted, (addVote_detects_iff hin rfl hvoted 1).mpr (by decide)⟩

/-- A validator that repeats its vote gets the error, and one that votes for another hash does
not. -/
theorem not_addVote_detects_sameCode :
    let vs := (newVoteTable 4 4).castAll ([newVote 1 0 [7] 0].map fun v => (v, 1))
    vs.slot 0 = some (newVote 1 0 [7] 0) ∧
    (addVoteInPlace (newVote 1 0 [7] 0) 1 vs).1 = .error .ambiguous ∧
    ¬Conflicts (newVote 1 0 [7] 0) (newVote 1 0 [7] 0) ∧
    (addVoteInPlace (newVote 1 0 [8] 0) 1 vs).1 = .ok () ∧
    Conflicts (newVote 1 0 [8] 0) (newVote 1 0 [7] 0) := by
  decide

end VoteTable

end Emulator.Pyramid
