import Emulator.Core.HotStuff

/-!
# Aggregated signatures and aggregated votes

`Verifier.VerifyAggregateSignature` checks a signature under the sum of the public keys that a bit
map selects, and `validate_aggregated` checks an aggregated vote with it.

A voter signs its vote as a protobuf message `Vote` with the validator index `-1`. An aggregated
vote is checked against the bytes of a message `AggregatedVote`, in which the field of that number
is empty. The two are never the same bytes.

* `validateAggregated_iff` — so an aggregated vote that `getMaj23` returns is valid only if it
  contains no vote at all.
-/

namespace Emulator.HotStuff

/-- The BLS library with `PublicKey.Add`, as the sum of a list of public keys. -/
structure AggregateBls extends Bls where
  sumKeys : List Str → Str

/-- A message signed under a key. -/
structure Signed where
  key : Str
  msg : Bytes
  sig : Str
  deriving DecidableEq, Repr

/-- Aggregation for the public keys `keys`: an aggregate of signatures verifies under a selection of
keys exactly when these are the keys of the signatures and all of them are on the message. -/
structure AggregateBls.Exact (B : AggregateBls) (keys : List Str) : Prop where
  verify_iff : ∀ signed : List Signed, signed ≠ [] →
    (∀ x ∈ signed, x.key ∈ keys ∧ B.verifyByte x.key x.sig x.msg = true) →
    ∀ agg, B.aggregate (signed.map Signed.sig) = some agg →
    ∀ selected : List Str, (∀ key ∈ selected, key ∈ keys) → ∀ msg,
      (B.verifyByte (B.sumKeys selected) agg msg = true ↔
        selected.Perm (signed.map Signed.key) ∧ ∀ x ∈ signed, x.msg = msg)

namespace Verifier

variable (B : AggregateBls) (s : Verifier)

/-- The public keys that a bit map selects. -/
def selected (bitMap : BitVector) : List Str :=
  (s.publicKeys.zipIdx.filter fun key => bitMap.getIndex key.2).map Prod.fst

/-- `VerifyAggregateSignature`. Bytes that are no bit vector panic (`none`). -/
def verifyAggregateSignature (aggSig : Str) (msg bitMapBytes : Bytes) : Option Bool :=
  (BitVector.newBitArrayFromByte bitMapBytes).map fun bitMap =>
    if s.publicKeys.length ≠ bitMap.size then false
    else B.verifyByte (B.sumKeys (s.selected bitMap)) aggSig msg

end Verifier

/-- The message whose bytes an aggregated vote is checked against. -/
def AggregatedVote.signProto (v : AggregatedVote) : PbAggregatedVote :=
  { code := v.code.toInt, round := v.round, view := v.view, forHash := v.forHash,
    forNecessaryData := v.forNecessaryData, sign := [], signerIndex := [] }

def AggregatedVote.signBytes (c : Codec PbAggregatedVote) (v : AggregatedVote) : Bytes :=
  c.marshal v.signProto

def validateAggregated (B : AggregateBls) (c : Codec PbAggregatedVote) (hdp : HeightDataPackage)
    (aggVote : AggregatedVote) : Except VoteError HeightDataPackage :=
  match hdp.validatorSet.verifyAggregateSignature B aggVote.sign (aggVote.signBytes c)
    aggVote.signerIndexer.byte with
  | none => .error .indexPanic
  | some false => .error .invalidSign
  | some true =>
    if hdp.view ≠ aggVote.view ∨ hdp.round ≠ aggVote.round then .error .invalidVoteCode
    else .ok { hdp with aggVote := some aggVote }

/-- What proto3 makes of the two kinds of message. Field 6 of a `Vote` is a number, which is on the
wire unless it is zero, and field 6 of an `AggregatedVote` is a byte string. -/
def SeparatesVotes (c : Codec PbVote) (ca : Codec PbAggregatedVote) : Prop :=
  ∀ (v : PbVote) (a : PbAggregatedVote), v.validatorIndex ≠ 0 → -2 ^ 31 ≤ v.validatorIndex →
    v.validatorIndex < 2 ^ 31 → c.marshal v ≠ ca.marshal a

/-! ## What `getMaj23` aggregates -/

variable {hdp hdp' : HeightDataPackage} {c : Codec PbVote} {peers : List Peer} {a : AggregatedVote}
  {v : Vote} {vs : List Vote} {B : Bls}

theorem collectVotes_sigs (ok : Bool) (bv : BitVector) (sigs : List Str) (data : List Bytes) (i : ℕ)
    (vs : List (Option Vote)) :
    (collectVotes ok bv sigs data i vs).2.1 = sigs ++ (vs.filterMap id).map Vote.sign := by
  induction vs generalizing bv sigs data i with
  | nil => simp [collectVotes]
  | cons v vs ih =>
    cases v with
    | none =>
      rw [collectVotes, ih]
      rfl
    | some v =>
      rw [collectVotes, ih, List.append_assoc]
      rfl

theorem collectVotes_replicate_none (ok : Bool) (bv : BitVector) (sigs : List Str)
    (data : List Bytes) (i n : ℕ) :
    (collectVotes ok bv sigs data i (List.replicate n none)).1 = bv := by
  induction n generalizing i with
  | zero => rfl
  | succ n ih => exact ih (i + 1)

theorem collectVotes_startPackage (ok : Bool) (peers : List Peer) (view round : ℤ) (hash : Bytes)
    (bv : BitVector) :
    (collectVotes ok bv [] [] 0 (startPackage peers view round hash).votes).1 = bv :=
  collectVotes_replicate_none ..

/-- The recorded votes are signed under the keys of their slots, and nothing is aggregated yet. -/
structure Verified (B : Bls) (c : Codec PbVote) (peers : List Peer) (hdp : HeightDataPackage) :
    Prop where
  validatorSet : hdp.validatorSet = newVerifier peers
  length : hdp.votes.length = hdp.validatorSet.publicKeys.length
  verifies : ∀ (i : ℕ) (v : Vote) (key : Str), hdp.votes[i]? = some (some v) →
    hdp.validatorSet.publicKeys[i]? = some key → B.verifyByte key v.sign (v.signBytes c) = true
  aggVote : hdp.aggVote = none

theorem verified_startPackage (B : Bls) (c : Codec PbVote) (peers : List Peer) (view round : ℤ)
    (hash : Bytes) : Verified B c peers (startPackage peers view round hash) where
  validatorSet := rfl
  length := List.length_replicate
  verifies i v key hv := by
    cases List.eq_of_mem_replicate (List.mem_of_getElem? hv)
  aggVote := rfl

theorem Verified.addVote {vote : Vote} (hv : Verified B c peers hdp)
    (h : HotStuff.addVote B c hdp vote = .ok hdp') : Verified B c peers hdp' := by
  obtain ⟨i, w, -, hver, -, -, -, hslot, -, rfl⟩ := addVote_eq_ok h
  refine ⟨hv.validatorSet, (List.length_set ..).trans hv.length, fun j v key hj hkey => ?_,
    hv.aggVote⟩
  have hj' : (hdp.votes.set i (some vote))[j]? = some (some v) := hj
  rw [List.getElem?_set] at hj'
  split_ifs at hj' with hij
  · obtain rfl : vote = v := by simpa using hj'
    have hkey' : hdp.validatorSet.publicKeys[i]? = some key := by
      rw [hij]
      exact hkey
    rw [verify_natCast hkey'] at hver
    exact Option.some.inj hver
  · exact hv.verifies j v key hj' hkey

/-- The signatures in a package, with the keys and messages they are for. -/
def signedVotes (c : Codec PbVote) (hdp : HeightDataPackage) : List Signed :=
  (hdp.votes.zip hdp.validatorSet.publicKeys).filterMap fun vk =>
    vk.1.map fun v => { key := vk.2, msg := v.signBytes c, sig := v.sign }

theorem filterMap_zip_fst {α β γ : Type} (f : α → Option γ) {l : List α} {l' : List β}
    (h : l.length ≤ l'.length) : ((l.zip l').filterMap fun ab => f ab.1) = l.filterMap f := by
  rw [← Function.comp_def, ← List.filterMap_map, List.map_fst_zip h]

theorem map_sig_signedVotes (hv : Verified B c peers hdp) :
    (signedVotes c hdp).map Signed.sig = (hdp.votes.filterMap id).map Vote.sign := by
  rw [signedVotes, List.map_filterMap, List.map_filterMap,
    ← filterMap_zip_fst (fun v => (id v).map Vote.sign) hv.length.le]
  simp only [Option.map_map]
  rfl

theorem signed_of_mem_signedVotes (hv : Verified B c peers hdp) {x : Signed}
    (hx : x ∈ signedVotes c hdp) :
    x.key ∈ hdp.validatorSet.publicKeys ∧ B.verifyByte x.key x.sig x.msg = true := by
  obtain ⟨⟨o, key⟩, hmem, hsome⟩ := List.mem_filterMap.mp hx
  obtain ⟨v, rfl, rfl⟩ := Option.map_eq_some_iff.mp hsome
  obtain ⟨i, hi⟩ := List.mem_iff_getElem?.mp hmem
  obtain ⟨hvote, hkey⟩ := List.getElem?_zip_eq_some.mp hi
  exact ⟨List.mem_of_getElem? hkey, hv.verifies i v key hvote hkey⟩

theorem mem_signedVotes (hv : Verified B c peers hdp) (hmem : some v ∈ hdp.votes) :
    ∃ x ∈ signedVotes c hdp, x.msg = v.signBytes c := by
  obtain ⟨i, hi⟩ := List.mem_iff_getElem?.mp hmem
  have hlt : i < hdp.validatorSet.publicKeys.length := by
    rw [← hv.length]
    exact (List.getElem?_eq_some_iff.mp hi).1
  have hkey := List.getElem?_eq_getElem hlt
  have hzip : (some v, hdp.validatorSet.publicKeys[i]) ∈
      hdp.votes.zip hdp.validatorSet.publicKeys :=
    List.mem_of_getElem? (List.getElem?_zip_eq_some.mpr ⟨hi, hkey⟩)
  exact ⟨⟨hdp.validatorSet.publicKeys[i], v.signBytes c, v.sign⟩,
    List.mem_filterMap.mpr ⟨_, hzip, rfl⟩, rfl⟩

/-! ## Validating the aggregate -/

theorem validateAggregated_eq_ok {B : AggregateBls} {ca : Codec PbAggregatedVote}
    (ha : a.signerIndexer.WellFormed) (h : validateAggregated B ca hdp a = .ok hdp') :
    B.verifyByte (B.sumKeys (hdp.validatorSet.selected a.signerIndexer)) a.sign (a.signBytes ca) =
      true := by
  unfold validateAggregated Verifier.verifyAggregateSignature at h
  rw [BitVector.newBitArrayFromByte_byte ha, Option.map_some] at h
  split at h
  · cases h
  · cases h
  · next hver =>
    split_ifs at hver with hsize
    · cases hver
    · exact Option.some.inj hver

theorem validateAggregated_of_verify {B : AggregateBls} {ca : Codec PbAggregatedVote}
    (ha : a.signerIndexer.WellFormed)
    (hsize : hdp.validatorSet.publicKeys.length = a.signerIndexer.size)
    (hver : B.verifyByte (B.sumKeys (hdp.validatorSet.selected a.signerIndexer)) a.sign
      (a.signBytes ca) = true) (hview : hdp.view = a.view) (hround : hdp.round = a.round) :
    validateAggregated B ca hdp a = .ok { hdp with aggVote := some a } := by
  unfold validateAggregated Verifier.verifyAggregateSignature
  rw [BitVector.newBitArrayFromByte_byte ha, Option.map_some, if_neg (not_not.mpr hsize), hver]
  simp [hview, hround]

/-- The votes of a sequence of `addVote` calls that all succeed. -/
def addAll (B : Bls) (c : Codec PbVote) (hdp : HeightDataPackage) (vs : List Vote) :
    Except VoteError HeightDataPackage := vs.foldlM (addVote B c) hdp

theorem addAll_nil : addAll B c hdp [] = .ok hdp' ↔ hdp = hdp' := by
  simp [addAll, pure, Except.pure]

theorem addAll_cons : addAll B c hdp (v :: vs) = .ok hdp' ↔
      ∃ hdp₁, addVote B c hdp v = .ok hdp₁ ∧ addAll B c hdp₁ vs = .ok hdp' := by
  unfold addAll
  rw [List.foldlM_cons]
  cases addVote B c hdp v with
  | error e => simp [bind, Except.bind]
  | ok hdp₁ => simp [bind, Except.bind]

theorem Verified.addAll (hv : Verified B c peers hdp) (h : HotStuff.addAll B c hdp vs = .ok hdp') :
    Verified B c peers hdp' := by
  induction vs generalizing hdp with
  | nil =>
    obtain rfl := addAll_nil.mp h
    exact hv
  | cons v vs ih =>
    obtain ⟨hdp₁, hadd, hrest⟩ := addAll_cons.mp h
    exact ih (hv.addVote hadd) hrest

theorem mem_votes_of_addAll (h : addAll B c hdp vs = .ok hdp')
    (hmem : some v ∈ hdp.votes ∨ v ∈ vs) : some v ∈ hdp'.votes := by
  induction vs generalizing hdp with
  | nil =>
    obtain rfl := addAll_nil.mp h
    simpa using hmem
  | cons u vs ih =>
    obtain ⟨hdp₁, hadd, hrest⟩ := addAll_cons.mp h
    obtain ⟨i, w, -, -, -, -, -, hslot, -, rfl⟩ := addVote_eq_ok hadd
    have hi : i < hdp.votes.length := (List.getElem?_eq_some_iff.mp hslot).1
    refine ih hrest ?_
    rcases hmem with hmem | hmem
    · left
      obtain ⟨j, hj⟩ := List.mem_iff_getElem?.mp hmem
      have hij : i ≠ j := by
        rintro rfl
        rw [hj] at hslot
        cases hslot
      exact List.mem_of_getElem? ((List.getElem?_set_ne hij).trans hj)
    · rcases List.mem_cons.mp hmem with rfl | hmem
      · exact .inl (List.mem_set hi _)
      · exact .inr hmem

theorem mem_of_mem_selected {s : Verifier} {bitMap : BitVector} {key : Str}
    (h : key ∈ s.selected bitMap) : key ∈ s.publicKeys := by
  obtain ⟨⟨key', i⟩, hmem, rfl⟩ := List.mem_map.mp h
  exact List.fst_mem_of_mem_zipIdx (List.mem_of_mem_filter hmem)

theorem selected_newBitVector (s : Verifier) (n : ℕ) :
    s.selected (BitVector.newBitVector n) = [] := by
  simp [Verifier.selected, BitVector.getIndex_newBitVector]

/-- **Aggregated votes do not verify.** After `addVote` calls that all succeeded, `getMaj23` returns
a vote that `validate_aggregated` takes, with every counted vote on the bytes it is checked against,
only if no vote was added and the library takes an aggregate of nothing under no key. -/
theorem validateAggregated_iff {B : AggregateBls} {c : Codec PbVote} {ca : Codec PbAggregatedVote}
    {peers : List Peer} (hB : B.Exact (newVerifier peers).publicKeys) (hc : SeparatesVotes c ca)
    {view round : ℤ} {hash : Bytes} {vs : List Vote} {hdp hdp' : HeightDataPackage}
    {a : AggregatedVote} (hadd : addAll B.toBls c (startPackage peers view round hash) vs = .ok hdp)
    (hmaj : getMaj23 B.toBls hdp = some (a, hdp')) :
    ((∃ hdp'', validateAggregated B ca hdp' a = .ok hdp'') ∧
      ∀ i v, slot hdp i = some v → a.signerIndexer.getIndex i = true →
        v.signBytes c = a.signBytes ca) ↔
      vs = [] ∧ B.verifyByte (B.sumKeys []) a.sign (a.signBytes ca) = true := by
  have hv := (verified_startPackage B.toBls c peers view round hash).addAll hadd
  obtain ⟨rfl, hcases⟩ := getMaj23_cases hmaj
  have hof : AggregateOf B.toBls hdp a := by
    rcases hcases with hsome | ⟨-, hof⟩
    · cases hv.aggVote.symm.trans hsome
    · exact hof
  have hagg := hof.sign
  rw [collected, collectVotes_sigs, List.nil_append] at hagg
  constructor
  · rintro ⟨⟨hdp'', hok⟩, -⟩
    have hver := validateAggregated_eq_ok hof.wellFormed hok
    have hnil : vs = [] := by
      by_contra hne
      obtain ⟨v, vs', rfl⟩ := List.exists_cons_of_ne_nil hne
      obtain ⟨x, hx, hmsg⟩ := mem_signedVotes hv (mem_votes_of_addAll hadd (.inr List.mem_cons_self))
      rw [← map_sig_signedVotes hv] at hagg
      rw [← hv.validatorSet] at hB
      have hall := (hB.verify_iff _ (List.ne_nil_of_mem hx)
        (fun y hy => signed_of_mem_signedVotes hv hy) _ hagg _
        (fun key hkey => mem_of_mem_selected hkey) _).mp hver
      -- the vote was signed with a validator index, and the aggregate has none
      exact hc v.signProto a.signProto (show (-1 : ℤ) ≠ 0 by decide)
        (show (-2 ^ 31 : ℤ) ≤ -1 by decide) (show (-1 : ℤ) < 2 ^ 31 by decide)
        (hmsg.symm.trans (hall.2 x hx))
    subst hnil
    obtain rfl := addAll_nil.mp hadd
    rw [show a.signerIndexer = _ from hof.signerIndexer.trans (collectVotes_startPackage ..),
      selected_newBitVector] at hver
    exact ⟨rfl, hver⟩
  · rintro ⟨rfl, hver⟩
    obtain rfl := addAll_nil.mp hadd
    have hbits' := hof.signerIndexer.trans (collectVotes_startPackage ..)
    refine ⟨⟨_, validateAggregated_of_verify hof.wellFormed ?_ ?_ hof.view.symm hof.round.symm⟩,
      fun i v hslot => ?_⟩
    · rw [hbits']
      rfl
    · rw [hbits', selected_newBitVector]
      exact hver
    · rw [slot_startPackage] at hslot
      cases hslot

/-! ## Votes on the wire -/

/-- The wire form of `core.hotstuff.AggregatedVote`. -/
def PbAggregatedVote.toFields (v : PbAggregatedVote) : List Wire.Field :=
  Wire.intField 1 v.code ++ Wire.intField 2 v.view ++ Wire.intField 3 v.round ++
    Wire.bytesField 4 v.forHash ++ Wire.bytesField 5 v.sign ++ Wire.bytesField 6 v.signerIndex ++
    Wire.repeated 7 v.forNecessaryData

def PbAggregatedVote.ofFields (fs : List Wire.Field) : PbAggregatedVote :=
  { code := Wire.signed 1 fs, view := Wire.signed 2 fs, round := Wire.signed 3 fs
    forHash := (Wire.payloads 4 fs).getLastD [], sign := (Wire.payloads 5 fs).getLastD []
    signerIndex := (Wire.payloads 6 fs).getLastD [], forNecessaryData := Wire.payloads 7 fs }

def aggregatedVoteCodec : Codec PbAggregatedVote where
  marshal v := Wire.encode v.toFields
  unmarshal bz := (Wire.decode bz).map PbAggregatedVote.ofFields

theorem separatesVotes_codecs : SeparatesVotes voteCodec aggregatedVoteCodec := by
  intro v a hne h₀ h heq
  have hfields := congrArg (Wire.numbers 6) (Wire.encode_injective heq)
  have hagg : Wire.numbers 6 a.toFields = [] := by
    simp [PbAggregatedVote.toFields, Wire.numbers_intField_ne]
  have hvote : Wire.numbers 6 v.toFields = Wire.numbers 6 (Wire.intField 6 v.validatorIndex) := by
    simp [PbVote.toFields, Wire.numbers_intField_ne]
  rw [hagg, hvote] at hfields
  exact Wire.numbers_intField_ne_nil 6 hne h₀ h hfields

/-! ## A model of the library -/

/-- The part of a signature that stands for the key `f` and the message. -/
def pairField (msg : Bytes) (f : Wire.Field) : Wire.Field := .len 1 (Wire.encode [f, .len 2 msg])

theorem pairField_inj {msg msg' : Bytes} {f f' : Wire.Field}
    (h : pairField msg f = pairField msg' f') : f = f' ∧ msg = msg' := by
  have henc : Wire.encode [f, .len 2 msg] = Wire.encode [f', .len 2 msg'] := by
    simpa [pairField] using h
  simpa using Wire.encode_injective henc

/-- A stand-in for BLS in which a key is an encoded field, a sum of keys and an aggregate of
signatures are their concatenations, and a signature names the key and the message. As in the
library, nothing verifies under no key. -/
def wireBls : AggregateBls where
  verifyByte key sig msg := (Wire.decode key).any fun fk =>
    !fk.isEmpty && (Wire.decode sig).any fun fs => fs.isPerm (fk.map (pairField msg))
  aggregate sigs := if sigs.all fun sig => (Wire.decode sig).isSome then some sigs.flatten else none
  sumKeys keys := keys.flatten

def wireKey (i : UInt8) : Str := Wire.encode [.len 1 [i]]

/-- The signature of a message under the key number `i`. -/
def wireSign (i : UInt8) (msg : Bytes) : Str := Wire.encode [pairField msg (.len 1 [i])]

theorem verifyByte_wireBls {key sig : Str} {msg : Bytes} {fk : List Wire.Field}
    (hkey : Wire.decode key = some fk) :
    wireBls.verifyByte key sig msg = true ↔
      fk ≠ [] ∧ ∃ fs, Wire.decode sig = some fs ∧ fs.Perm (fk.map (pairField msg)) := by
  unfold wireBls
  dsimp only
  rw [hkey, Option.any_some, Bool.and_eq_true]
  cases hsig : Wire.decode sig with
  | none => simp
  | some fs => simp [List.isPerm_iff]

theorem verifyByte_wireSign (i : UInt8) (msg : Bytes) :
    wireBls.verifyByte (wireBls.sumKeys [wireKey i]) (wireSign i msg) msg = true := by
  have hkey : Wire.decode (wireBls.sumKeys [wireKey i]) = some [.len 1 [i]] := by
    show Wire.decode ([wireKey i].flatten) = _
    rw [List.flatten_singleton]
    exact Wire.decode_encode _
  exact (verifyByte_wireBls hkey).mpr
    ⟨List.cons_ne_nil _ _, _, Wire.decode_encode _, List.Perm.refl _⟩

def keyField (key : Str) : Wire.Field := ((Wire.decode key).getD []).headD (.len 1 [])

theorem decode_wireKey (i : UInt8) : Wire.decode (wireKey i) = some [.len 1 [i]] :=
  Wire.decode_encode _

theorem keyField_wireKey (i : UInt8) : keyField (wireKey i) = .len 1 [i] := by
  rw [keyField, decode_wireKey]
  rfl

theorem exact_wireBls (ids : List UInt8) : wireBls.Exact (ids.map wireKey) := by
  have hkeys : ∀ key ∈ ids.map wireKey, Wire.decode key = some [keyField key] ∧
      Wire.encode [keyField key] = key := by
    intro key hkey
    obtain ⟨i, -, rfl⟩ := List.mem_map.mp hkey
    rw [keyField_wireKey]
    exact ⟨decode_wireKey i, rfl⟩
  have hencode (l : List Str) (hl : ∀ key ∈ l, key ∈ ids.map wireKey) :
      (l.map keyField).map (fun f => Wire.encode [f]) = l := by
    rw [List.map_map]
    exact (List.map_congr_left fun key hkey => (hkeys key (hl key hkey)).2).trans (List.map_id l)
  refine ⟨fun signed hne hsigned agg hagg selected hselected msg => ?_⟩
  have hsigs : ∀ x ∈ signed, Wire.decode x.sig = some [pairField x.msg (keyField x.key)] := by
    intro x hx
    obtain ⟨hkey, hver⟩ := hsigned x hx
    obtain ⟨-, fs, hfs, hperm⟩ := (verifyByte_wireBls (hkeys _ hkey).1).mp hver
    rw [hfs, List.perm_singleton.mp hperm]
  obtain rfl : (signed.map Signed.sig).flatten = agg := by
    unfold wireBls at hagg
    dsimp only at hagg
    split_ifs at hagg
    exact Option.some.inj hagg
  have hdec := Wire.decode_flatten hsigs
  have hsum : Wire.decode (wireBls.sumKeys selected) = some (selected.map keyField) := by
    have := Wire.decode_flatten (f := id) fun key hkey => (hkeys key (hselected key hkey)).1
    rwa [List.map_id] at this
  rw [verifyByte_wireBls hsum, hdec]
  -- once all messages are `msg`, both sides compare the keys
  have hmap (hmsg : ∀ x ∈ signed, x.msg = msg) :
      signed.map (fun x => pairField x.msg (keyField x.key)) =
        ((signed.map Signed.key).map keyField).map (pairField msg) := by
    rw [List.map_map, List.map_map]
    exact List.map_congr_left fun x hx => by rw [hmsg x hx]; rfl
  constructor
  · rintro ⟨-, fs, hfs, hperm⟩
    obtain rfl := Option.some.inj hfs
    have hmsg : ∀ x ∈ signed, x.msg = msg := by
      intro x hx
      obtain ⟨f, -, hf⟩ := List.mem_map.mp (hperm.mem_iff.mp (List.mem_map_of_mem hx))
      exact (pairField_inj hf).2.symm
    refine ⟨?_, hmsg⟩
    rw [hmap hmsg, List.map_perm_map_iff fun f f' h => (pairField_inj h).1] at hperm
    have hback := (hperm.map fun f => Wire.encode [f]).symm
    rwa [hencode selected hselected, hencode (signed.map Signed.key) fun key hkey => ?_] at hback
    obtain ⟨x, hx, rfl⟩ := List.mem_map.mp hkey
    exact (hsigned x hx).1
  · rintro ⟨hperm, hmsg⟩
    refine ⟨?_, _, rfl, ?_⟩
    · rintro hnil
      rw [List.map_eq_nil_iff.mp hnil, List.nil_perm, List.map_eq_nil_iff] at hperm
      exact hne hperm
    · rw [hmap hmsg]
      exact ((hperm.map keyField).map (pairField msg)).symm

/-- Three validators of weight 1. -/
def wirePeers : List Peer := [0, 1, 2].map fun i => { pubkey := wireKey i, vote := 1 }

/-- The OK votes of the first two of them. -/
def wireVotes : List Vote :=
  [0, 1].map fun i => { newVote 1 0 [7] [] i.toNat with
    sign := wireSign i ((newVote 1 0 [7] [] i.toNat).signBytes voteCodec) }

/-- The package that has counted them, and their aggregate. -/
def wirePackage : HeightDataPackage :=
  addVotes wireBls.toBls voteCodec (startPackage wirePeers 1 0 [7]) wireVotes

def wireAggregate : AggregatedVote × HeightDataPackage :=
  (getMaj23 wireBls.toBls wirePackage).getD
    (({ newVote 0 0 [] [] 0 with code := 0 }).getAggregated (BitVector.newBitVector 0), wirePackage)

theorem validateAggregated_twoVotes :
    addAll wireBls.toBls voteCodec (startPackage wirePeers 1 0 [7]) wireVotes = .ok wirePackage ∧
    getMaj23 wireBls.toBls wirePackage = some wireAggregate ∧
    ¬((∃ hdp, validateAggregated wireBls aggregatedVoteCodec wireAggregate.2 wireAggregate.1 =
        .ok hdp) ∧
      ∀ i v, slot wirePackage i = some v → wireAggregate.1.signerIndexer.getIndex i = true →
        v.signBytes voteCodec = wireAggregate.1.signBytes aggregatedVoteCodec) := by
  have hadd : addAll wireBls.toBls voteCodec (startPackage wirePeers 1 0 [7]) wireVotes =
      .ok wirePackage := by decide +kernel
  have hmaj : getMaj23 wireBls.toBls wirePackage = some wireAggregate := by decide +kernel
  refine ⟨hadd, hmaj, fun h => ?_⟩
  exact absurd ((validateAggregated_iff (exact_wireBls [0, 1, 2]) separatesVotes_codecs hadd hmaj).mp
    h).1 (by decide)

/-- The aggregate of two valid votes is refused: they are signed on other bytes. -/
theorem not_validateAggregated_twoVotes :
    addAll wireBls.toBls voteCodec (startPackage wirePeers 1 0 [7]) wireVotes = .ok wirePackage ∧
    getMaj23 wireBls.toBls wirePackage = some wireAggregate ∧
    validateAggregated wireBls aggregatedVoteCodec wireAggregate.2 wireAggregate.1 =
      .error .invalidSign ∧
    ∀ v ∈ wireVotes, v.signBytes voteCodec ≠ wireAggregate.1.signBytes aggregatedVoteCodec := by
  decide +kernel

end Emulator.HotStuff
