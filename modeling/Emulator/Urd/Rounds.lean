import Emulator.Urd.History

/-!
# The rounds of a leader

A leader in a view has made the block of the view and waits for votes, then it sends its message
about the view to all shards and waits for theirs. It holds a message of another shard only if it
follows, by its hash link, the last message it took from that shard. Since leaders are in step, the
message that follows can only be the one of the current view (`Leading.view_eq_of_link`), whether it
is taken when it arrives or by `redo_CrossShardMessage` from the store.

* `Leading` — a leader that has made the block of its view.
* `Leading.addCrossShardMessage`, `Leading.countVote`, `Leading.crossShardCommunicate`,
  `Ready.doPropose` — what the methods of a leader do to it and to the history.
* `Running.handleStateTransition` — a round of `handle_state_transition`.
-/

namespace Emulator.Urd

open Emulator.Action HotStuff Lockstep

variable {α : Type}

/-! ## A leader in its view -/

section

variable {P : Network α} {L logs : Str → Log α} {i j : Str} {st : State α}

/-- What a leader holds of shard `j`: nothing yet, or the message of its view. -/
def Entry (P : Network α) (L logs : Str → Log α) (i : Str) (st : State α) (j : Str) : Prop :=
  (st.blockData.finished j = none ∧ st.blockData.lastHash j = (L j).hashAt P.lib (st.view - 1)) ∨
  ∃ m, st.blockData.finished j = some m ∧ sent P logs j st.view i = some m ∧
    st.blockData.lastHash j = (L j).hashAt P.lib st.view

/-- The stored messages are messages that were sent, under the hash they follow. -/
def Stored (P : Network α) (L logs : Str → Log α) (i : Str) (store : Bytes → Option Bytes) : Prop :=
  ∀ key bz, store key = some bz → ∃ j ∈ P.shardIDList, ∃ u m, sent P logs j u i = some m ∧
    key = storeKey j ((L j).hashAt P.lib (u - 1)) ∧ bz = m.protoBytes P.lib

/-- A leader that has made the block of its view. -/
structure Leading (P : Network α) (L logs : Str → Log α) (i : Str) (st : State α) : Prop where
  log : st.log = logs i
  pos : 1 ≤ st.view
  view : (logs i).made.length = st.view
  round : st.round = 0
  blockPool : st.blockPool = lastSeven ((logs i).made.map (·.block))
  store : Stored P L logs i st.store
  blocks : ∀ w r, (st.view : ℤ) < w → st.blockData.blocks w r = none
  j1Txs : st.blockData.j1CrossShardTxs = (L i).opTxsAt st.view
  j2Txs : st.blockData.j2CrossShardTxs = (L i).opTxsAt (st.view - 1)
  votes : ∃ hdp, st.heightDatas = some hdp ∧
    VotesFor hdp st.view ((L i).hashAt P.lib st.view) [(L i).hashAt P.lib (st.view - 1)]
  entry : ∀ j ∈ P.shardIDList, Entry P L logs i st j
  foreign : ∀ j, j ∉ P.shardIDList → st.blockData.finished j = none
  silent : st.blockData.finished i = none → (logs i).talks.length + 1 = st.view

variable {u : ℕ} {m : CrossShardMessage} {inp : Input}

theorem Stored.mono {logs' : Str → Log α} {store : Bytes → Option Bytes}
    (h : Stored P L logs i store) (hle : ∀ j, Log.Le (logs j) (logs' j)) :
    Stored P L logs' i store := by
  intro key bz hkey
  obtain ⟨j, hj, u, m, hm, hrest⟩ := h key bz hkey
  exact ⟨j, hj, u, m, sent_mono (hle j) hm, hrest⟩

theorem storeKey_inj {a b : Str} {x y : Bytes} (ha : 58 ∉ a) (hb : 58 ∉ b)
    (h : storeKey a x = storeKey b y) : a = b ∧ x = y := by
  induction a generalizing b with
  | nil =>
    cases b with
    | nil => exact ⟨rfl, (List.cons.inj h).2⟩
    | cons c b => exact absurd (List.cons.inj h).1 fun hc => hb (hc ▸ List.mem_cons_self)
  | cons c a ih =>
    cases b with
    | nil => exact absurd (List.cons.inj h).1 fun hc => ha (hc ▸ List.mem_cons_self)
    | cons c' b =>
      obtain ⟨hc, htail⟩ := List.cons.inj h
      obtain ⟨hab, hxy⟩ := ih (fun hmem => ha (List.mem_cons_of_mem c hmem))
        (fun hmem => hb (List.mem_cons_of_mem c' hmem)) htail
      exact ⟨by rw [hc, hab], hxy⟩

theorem MessageAt.getLastHash {k : ℕ} (h : MessageAt P L j u k m) :
    m.getLastHash = (L j).hashAt P.lib (u - 1) := by
  rw [CrossShardMessage.getLastHash, getLastHashOfAggVote, h.aggVote.forNecessaryData]
  rfl

theorem Leading.mono {logs' : Str → Log α} (h : Leading P L logs i st)
    (hle : ∀ j, Log.Le (logs j) (logs' j)) (hi : logs' i = logs i) : Leading P L logs' i st :=
  { h with
    log := h.log.trans hi.symm
    view := hi ▸ h.view
    blockPool := hi ▸ h.blockPool
    store := h.store.mono hle
    entry := fun j hj => by
      rcases h.entry j hj with hnone | ⟨m, hsome, hm, hlast⟩
      · exact .inl hnone
      · exact .inr ⟨m, hsome, sent_mono (hle j) hm, hlast⟩
    silent := hi ▸ h.silent }

/-! ## Receiving messages -/

theorem Leading.view_le (hH : History P L logs) (h : Leading P L logs i st) (hi : i ∈ P.shardIDList)
    (hj : j ∈ P.shardIDList) : st.view ≤ (logs j).talks.length + 1 :=
  h.view ▸ hH.inStep.opened_le_closed i hi j hj

/-- A message that follows the last one is the message of the view. -/
theorem Leading.view_eq_of_link (hs : Setting P) (hd : DistinctHashes P L) (hH : History P L logs)
    (h : Leading P L logs i st) (hi : i ∈ P.shardIDList) (hj : j ∈ P.shardIDList)
    (hm : sent P logs j u i = some m) (hnone : st.blockData.finished j = none)
    (hlink : st.blockData.lastHash j = (L j).hashAt P.lib (u - 1)) : u = st.view := by
  obtain ⟨hpos, hle, -⟩ := hH.sent hj hm
  have hview := h.view_le hH hi hj
  have hclosed : (logs j).talks.length ≤ (logs j).made.length := hH.inStep.closed_le_opened j hj
  have hmade := hH.made_le j
  have hlast : st.blockData.lastHash j = (L j).hashAt P.lib (st.view - 1) := by
    rcases h.entry j hj with ⟨-, hlast⟩ | ⟨m', hsome, -⟩
    · exact hlast
    · rw [hnone] at hsome
      cases hsome
  have heq := hd.inj hs.sum_length hj (by omega) (by omega) (hlink.symm.trans hlast)
  have := h.pos
  omega

/-- As long as a leader has not talked itself, it has no message of the view after. -/
theorem Leading.finished_eq_none_of_link (hs : Setting P) (hd : DistinctHashes P L)
    (hH : History P L logs) (h : Leading P L logs i st) (hi : i ∈ P.shardIDList)
    (hown : st.blockData.finished i = none) (hj : j ∈ P.shardIDList)
    (hm : sent P logs j u i = some m)
    (hlink : st.blockData.lastHash j = (L j).hashAt P.lib (u - 1)) :
    st.blockData.finished j = none := by
  rcases h.entry j hj with ⟨hnone, -⟩ | ⟨m', -, hm', hlast⟩
  · exact hnone
  · obtain ⟨hpos, hle, -⟩ := hH.sent hj hm
    obtain ⟨-, hle', -⟩ := hH.sent hj hm'
    have hclosed : (logs j).talks.length ≤ (logs j).made.length := hH.inStep.closed_le_opened j hj
    have hmade := hH.made_le j
    have heq := hd.inj hs.sum_length hj (by omega) (by omega) (hlast.symm.trans hlink)
    have hsilent := h.silent hown
    have hstep : (logs j).talks.length ≤ (logs i).talks.length + 1 := hH.inStep.closed_le hi hj
    omega

/-- Taking the message of another shard for the view. -/
theorem Leading.extend (hH : History P L logs) (h : Leading P L logs i st) (hj : j ∈ P.shardIDList)
    (hji : j ≠ i) (hm : sent P logs j st.view i = some m) :
    Leading P L logs i { st with blockData := st.blockData.extendHash m } := by
  obtain ⟨-, -, hmsg⟩ := hH.sent hj hm
  have hfinished : ∀ k, k ≠ j → (st.blockData.extendHash m).finished k = st.blockData.finished k :=
    fun k hk => by
      simp only [BlockData.extendHash, hmsg.sourceChain, Function.update_of_ne hk]
  have hlastHash : ∀ k, k ≠ j → (st.blockData.extendHash m).lastHash k = st.blockData.lastHash k :=
    fun k hk => by
      simp only [BlockData.extendHash, hmsg.sourceChain, Function.update_of_ne hk]
  refine { h with entry := fun k hk => ?_, foreign := fun k hk => ?_, silent := fun hnone => ?_ }
  · by_cases hkj : k = j
    · subst hkj
      refine .inr ⟨m, ?_, hm, ?_⟩
      · simp only [BlockData.extendHash, hmsg.sourceChain, Function.update_self]
      · simp only [BlockData.extendHash, hmsg.sourceChain, Function.update_self,
          hmsg.aggVote.forHash]
    · have hentry := h.entry k hk
      unfold Entry at hentry ⊢
      simp only [hfinished k hkj, hlastHash k hkj]
      exact hentry
  · have hkj : k ≠ j := fun hkj => hk (hkj ▸ hj)
    exact (hfinished k hkj).trans (h.foreign k hk)
  · exact h.silent ((hfinished i hji.symm).symm.trans hnone)

/-- Storing a message that was sent. -/
theorem Stored.update {store : Bytes → Option Bytes} (h : Stored P L logs i store)
    (hj : j ∈ P.shardIDList) (hm : sent P logs j u i = some m) :
    Stored P L logs i (Function.update store (storeKey j ((L j).hashAt P.lib (u - 1)))
      (some (m.protoBytes P.lib))) := by
  intro key bz hkey
  by_cases heq : key = storeKey j ((L j).hashAt P.lib (u - 1))
  · subst heq
    rw [Function.update_self] at hkey
    exact ⟨j, hj, u, m, hm, rfl, (Option.some.inj hkey).symm⟩
  · rw [Function.update_of_ne heq] at hkey
    exact h key bz hkey

theorem Leading.addCrossShardMessage (hs : Setting P) (hd : DistinctHashes P L)
    (hH : History P L logs) (h : Leading P L logs i st) (hi : i ∈ P.shardIDList)
    (hj : j ∈ P.shardIDList) (hji : j ≠ i) (hm : sent P logs j u i = some m) :
    ∃ r st', addCrossShardMessage P m st = (r, st') ∧ r ≠ .error .panic ∧
      Leading P L logs i st' ∧ st'.step = st.step ∧
      st'.blockData.finished i = st.blockData.finished i := by
  obtain ⟨hpos, hle, hmsg⟩ := hH.sent hj hm
  have hcontains : P.shardIDList.contains m.sourceChain = true := by
    rw [hmsg.sourceChain]
    exact List.contains_iff_mem.mpr hj
  unfold Urd.addCrossShardMessage
  rw [run_bind_ok (run_get st), run_bind_ok (require_eq_ok.mpr ⟨hcontains, rfl⟩), run_bind,
    run_require]
  cases hfree : (st.store (storeKey m.sourceChain m.getLastHash)).isNone with
  | false => exact ⟨_, st, rfl, nofun, h, rfl, rfl⟩
  | true =>
    simp only [if_true]
    rw [run_bind_ok (run_modify _ st)]
    rw [hmsg.sourceChain, hmsg.getLastHash]
    let st₁ : State α := { st with
      store := Function.update st.store (storeKey j ((L j).hashAt P.lib (u - 1)))
        (some (m.protoBytes P.lib)) }
    have h₁ : Leading P L logs i st₁ := { h with store := h.store.update hj hm }
    split_ifs with hlink
    · obtain rfl := h.view_eq_of_link hs hd hH hi hj hm (Option.isNone_iff_eq_none.mp hlink.1)
        hlink.2
      refine ⟨_, _, rfl, nofun, h₁.extend hH hj hji hm, rfl, ?_⟩
      simp only [BlockData.extendHash, hmsg.sourceChain, Function.update_of_ne hji.symm]
    · exact ⟨_, st₁, rfl, nofun, h₁, rfl, rfl⟩

/-! ## Talking -/

/-- What `redo_CrossShardMessage` leaves as it is. -/
structure Redone (P : Network α) (L logs : Str → Log α) (i : Str) (st st' : State α) : Prop where
  leading : Leading P L logs i st'
  own : st'.blockData.finished i = none
  step : st'.step = st.step
  heightDatas : st'.heightDatas = st.heightDatas

theorem Leading.redoShard (hs : Setting P) (hd : DistinctHashes P L) (hH : History P L logs)
    (h : Leading P L logs i st) (hi : i ∈ P.shardIDList) (hown : st.blockData.finished i = none)
    (hj : j ∈ P.shardIDList) :
    ∃ st', redoShard P i j st = (.ok (), st') ∧ Redone P L logs i st st' := by
  unfold Urd.redoShard
  rw [run_bind_ok (run_get st)]
  split_ifs with hji
  · exact ⟨st, rfl, h, hown, rfl, rfl⟩
  · cases hbz : (st.store (storeKey j (st.blockData.lastHash j))).getD [] with
    | nil => exact ⟨st, rfl, h, hown, rfl, rfl⟩
    | cons b bz =>
      obtain ⟨bz', hstore⟩ : ∃ bz', st.store (storeKey j (st.blockData.lastHash j)) = some bz' := by
        cases hstore : st.store (storeKey j (st.blockData.lastHash j)) with
        | none =>
          rw [hstore] at hbz
          cases hbz
        | some bz' => exact ⟨bz', rfl⟩
      rw [hstore, Option.getD_some] at hbz
      obtain ⟨j', hj', u, m, hm, hkey, rfl⟩ := h.store _ _ hstore
      obtain ⟨rfl, hlink⟩ := storeKey_inj (hs.colon j hj) (hs.colon j' hj') hkey
      obtain ⟨-, -, hmsg⟩ := hH.sent hj hm
      have hnone := h.finished_eq_none_of_link hs hd hH hi hown hj hm hlink
      obtain rfl := h.view_eq_of_link hs hd hH hi hj hm hnone hlink
      have hdecode : newCrossShardMessageFromBytes P.lib (b :: bz) = some m := by
        rw [← hbz]
        exact newCrossShardMessageFromBytes_protoBytes hs.csm hmsg.aggVote.signerIndexer
      simp only [hdecode]
      refine ⟨_, rfl, h.extend hH hj hji hm, ?_, rfl, rfl⟩
      simp only [BlockData.extendHash, hmsg.sourceChain, Function.update_of_ne (Ne.symm hji)]
      exact hown

theorem Leading.redoCrossShardMessage (hs : Setting P) (hd : DistinctHashes P L)
    (hH : History P L logs) (h : Leading P L logs i st) (hi : i ∈ P.shardIDList)
    (hown : st.blockData.finished i = none) {order : List Str} (horder : order.Perm P.shardIDList) :
    ∃ st', redoCrossShardMessage P i order st = (.ok (), st') ∧ Redone P L logs i st st' := by
  refine exists_run_forEach (I := Redone P L logs i st) (fun j hj st₁ h₁ => ?_) ⟨h, hown, rfl, rfl⟩
  obtain ⟨st₂, hrun, h₂⟩ := h₁.leading.redoShard hs hd hH hi h₁.own (horder.mem_iff.mp hj)
  exact ⟨st₂, hrun, h₂.leading, h₂.own, h₂.step.trans h₁.step, h₂.heightDatas.trans h₁.heightDatas⟩

theorem Executed.Returned.length (hs : Setting P) {ex : Executed α} (h : ex.Returned P i)
    (hsome : ex.executed ≠ none) : ex.opTxs.length = P.shardIDList.length := by
  unfold Executed.Returned at h
  cases hex : ex.executed with
  | none => exact absurd hex hsome
  | some b =>
    rw [hex] at h
    rw [h]
    exact hs.execution ..

/-- A leader has everything for the messages of its view. -/
theorem Leading.exists_messageFor (hs : Setting P) (hH : History P L logs)
    (h : Leading P L logs i st) (hi : i ∈ P.shardIDList) {sig : AggregatedVote}
    (hsig : Aggregates sig ((L i).hashAt P.lib st.view) [(L i).hashAt P.lib (st.view - 1)]) {k : ℕ}
    (hk : k < P.shardIDList.length) :
    ∃ m, messageFor P i st sig k = some m ∧ MessageAt P L i st.view k m := by
  have hpool : st.blockPool.length = min st.view 7 := by
    rw [h.blockPool, length_lastSeven, List.length_map, h.view]
  unfold messageFor
  split_ifs with h4
  · obtain ⟨v, hv⟩ : ∃ v, st.view = v + 2 := ⟨st.view - 2, by omega⟩
    have hlt : v < (logs i).made.length := by rw [h.view]; omega
    obtain ⟨mk, hmk⟩ : ∃ mk, (logs i).made[v]? = some mk := ⟨_, List.getElem?_eq_getElem hlt⟩
    have hat := hH.made i hi v mk hmk
    have hmkL : (L i).made[v]? = some mk := ((hH.le i).made_eq hlt).trans hmk
    have hfetch : st.fetchBlock 2 = some mk.block := by
      rw [State.fetchBlock_made h.blockPool (by decide), h.view, hv]
      show ((logs i).made[v]?).map (·.block) = _
      rw [hmk]
      rfl
    obtain ⟨csms, -, hci, -⟩ := hat.intention (by omega)
    obtain ⟨p, hp⟩ := mk.block.exists_proofOfIndex P.lib (i := 4) (by decide)
    have hj2 : st.blockData.j2CrossShardTxs = mk.opTxs := by
      rw [h.j2Txs, hv]
      show (((L i).made[v]?).map (·.opTxs)).getD [] = _
      rw [hmkL]
      rfl
    have hlen : mk.opTxs.length = P.shardIDList.length := by
      refine hat.returned.length hs ?_
      rw [hat.executed]
      obtain ⟨w, rfl⟩ : ∃ w, v = w + 2 := ⟨v - 2, by omega⟩
      show ((L i).made[w]?).map (·.block) ≠ none
      have hw : w < (L i).made.length := lt_of_lt_of_le (by omega) (hH.made_le i)
      rw [List.getElem?_eq_getElem hw]
      exact Option.some_ne_none _
    have hopt : k < mk.block.opt.length := by
      rw [hat.opt, List.length_map, hlen]
      exact hk
    obtain ⟨q, hq⟩ := mk.block.exists_getOutputTxsProofOf P.lib hopt
    have htxs : mk.opTxs[k]? = some mk.opTxs[k] := List.getElem?_eq_getElem (hlen ▸ hk)
    have hproof : mk.block.getCommitIntentionProof P.lib = some p := hp
    simp only [hfetch, hci, hproof, hj2, htxs, hq, Option.bind_eq_bind, Option.bind_some]
    refine ⟨_, rfl, rfl, hsig, fun _ => ⟨mk, _, p, q, ?_, hci, hproof, hq, htxs, rfl, rfl, rfl⟩⟩
    rw [hv]
    exact hmkL
  · exact ⟨_, rfl, rfl, hsig, fun hview => absurd hview (by omega)⟩

/-- The package of votes of a leader has a quorum. -/
def HasQuorum (st : State α) : Prop := ∃ hdp, st.heightDatas = some hdp ∧ isQuorum hdp = true

theorem Leading.exists_aggregateVotes (h : Leading P L logs i st) (hquorum : HasQuorum st) :
    aggregateVotes P st = (.error .noMaj23, st) ∨
      ∃ sig hdp, aggregateVotes P st = (.ok sig, { st with heightDatas := some hdp }) ∧
        Aggregates sig ((L i).hashAt P.lib st.view) [(L i).hashAt P.lib (st.view - 1)] ∧
        Leading P L logs i { st with heightDatas := some hdp } ∧ isQuorum hdp = true := by
  obtain ⟨hdp, hhdp, hvotes⟩ := h.votes
  obtain ⟨hdp', hhdp', hq⟩ := hquorum
  obtain rfl := Option.some.inj (hhdp.symm.trans hhdp')
  unfold aggregateVotes
  rw [run_bind_ok (run_get st), run_bind_ok (orThrow_eq_ok.mpr ⟨hhdp, rfl⟩)]
  cases hmaj : getMaj23 P.bls hdp with
  | none => exact .inl rfl
  | some r =>
    obtain ⟨sig, hdp₁⟩ := r
    obtain ⟨hsig, hvotes₁, hq₁⟩ := hvotes.getMaj23 hmaj
    exact .inr ⟨sig, hdp₁, rfl, hsig, { h with votes := ⟨hdp₁, rfl, hvotes₁⟩ }, hq₁.trans hq⟩

/-- The state and the log of a leader after it has talked. -/
def State.talked (st : State α) (csms : List CrossShardMessage) (own : CrossShardMessage) :
    State α :=
  { st with
    blockData := st.blockData.extendHash own
    log := { st.log with talks := st.log.talks ++ [csms] } }

theorem Leading.talked (hH : History P L logs) (h : Leading P L logs i st) (hi : i ∈ P.shardIDList)
    (hown : st.blockData.finished i = none) {csms : List CrossShardMessage}
    {own : CrossShardMessage}
    (hcsms : ∀ k m, csms[k]? = some m → MessageAt P L i st.view k m)
    (hget : csms[P.shardIDList.idxOf i]? = some own) (hle : Log.Le (st.talked csms own).log (L i)) :
    History P L (Function.update logs i (st.talked csms own).log) ∧
      Leading P L (Function.update logs i (st.talked csms own).log) i (st.talked csms own) := by
  have hsilent := h.silent hown
  have hview := h.view
  have htalks : (st.talked csms own).log.talks = (logs i).talks ++ [csms] := by
    rw [← h.log]
    rfl
  have hmade : (st.talked csms own).log.made = (logs i).made := by
    rw [← h.log]
    rfl
  have hH' := hH.talk hle (by omega) hmade htalks (fun k m hm => hsilent ▸ hcsms k m hm)
  refine ⟨hH', ?_⟩
  have hmono : ∀ j, Log.Le (logs j) (Function.update logs i (st.talked csms own).log j) :=
    le_update_self ⟨hmade ▸ List.prefix_rfl, htalks ▸ List.prefix_append _ _⟩
  have hmsg := hcsms _ own hget
  have hsent : sent P (Function.update logs i (st.talked csms own).log) i st.view i = some own := by
    rw [← hsilent, sent, Function.update_self, htalks, List.getElem?_concat_length]
    exact hget
  have hkeep : ∀ j, j ≠ i → (st.talked csms own).blockData.finished j = st.blockData.finished j ∧
      (st.talked csms own).blockData.lastHash j = st.blockData.lastHash j := by
    intro j hji
    simp only [State.talked, BlockData.extendHash, hmsg.sourceChain, Function.update_of_ne hji,
      and_self]
  have hfinished : (st.talked csms own).blockData.finished i = some own := by
    simp only [State.talked, BlockData.extendHash, hmsg.sourceChain, Function.update_self]
  have hlastHash : (st.talked csms own).blockData.lastHash i = (L i).hashAt P.lib st.view := by
    simp only [State.talked, BlockData.extendHash, hmsg.sourceChain, Function.update_self,
      hmsg.aggVote.forHash]
  exact
    { log := by rw [Function.update_self]
      pos := h.pos
      view := by rw [Function.update_self, hmade]; exact hview
      round := h.round
      blockPool := by rw [Function.update_self, hmade]; exact h.blockPool
      store := h.store.mono hmono
      blocks := h.blocks
      j1Txs := h.j1Txs
      j2Txs := h.j2Txs
      votes := h.votes
      entry := fun j hj => by
        by_cases hji : j = i
        · subst hji
          exact .inr ⟨own, hfinished, hsent, hlastHash⟩
        · rcases h.entry j hj with ⟨hnone, hlast⟩ | ⟨m, hsome, hm, hlast⟩
          · exact .inl ⟨(hkeep j hji).1.trans hnone, (hkeep j hji).2.trans hlast⟩
          · exact .inr ⟨m, (hkeep j hji).1.trans hsome, sent_mono (hmono j) hm,
              (hkeep j hji).2.trans hlast⟩
      foreign := fun j hj => by
        have hji : j ≠ i := fun hji => hj (hji ▸ hi)
        exact (hkeep j hji).1.trans (h.foreign j hj)
      silent := fun hnone => by
        rw [hfinished] at hnone
        cases hnone }

/-- **Talking** in a view, once: the votes do not aggregate, or a message goes to every shard. -/
theorem Leading.crossShardCommunicate (hs : Setting P) (hd : DistinctHashes P L)
    (hH : History P L logs) (h : Leading P L logs i st) (hi : i ∈ P.shardIDList)
    (hown : st.blockData.finished i = none) (hquorum : HasQuorum st)
    (horder : inp.order.Perm P.shardIDList) :
    ∃ r st', crossShardCommunicate P i inp st = (r, st') ∧ r ≠ .error .panic ∧
      st'.step = st.step ∧ (r = .ok () → HasQuorum st') ∧
      (r ≠ .ok () → st'.blockData.finished i = none) ∧ (Log.Le st'.log (L i) →
        History P L (Function.update logs i st'.log) ∧
        Leading P L (Function.update logs i st'.log) i st') := by
  obtain ⟨st₁, hredo, h₁⟩ := h.redoCrossShardMessage hs hd hH hi hown horder
  have hquorum₁ : HasQuorum st₁ := by
    unfold HasQuorum
    rw [h₁.heightDatas]
    exact hquorum
  unfold Urd.crossShardCommunicate
  rw [run_bind_ok hredo]
  rcases h₁.leading.exists_aggregateVotes hquorum₁ with hnone | ⟨sig, hdp, hrun, hsig, h₂, hq⟩
  · rw [run_bind_error hnone]
    refine ⟨_, st₁, rfl, nofun, h₁.step, nofun, fun _ => h₁.own, fun _ => ?_⟩
    rw [h₁.leading.log, Function.update_eq_self]
    exact ⟨hH, h₁.leading⟩
  · let st₂ : State α := { st₁ with heightDatas := some hdp }
    obtain ⟨csms, hcsms⟩ := exists_mapM (f := messageFor P i st₂ sig)
      (l := List.range P.shardIDList.length) fun k hk => by
        obtain ⟨m, hm, -⟩ := h₂.exists_messageFor hs hH hi hsig (List.mem_range.mp hk)
        exact ⟨m, hm⟩
    obtain ⟨hlen, hfor⟩ := mapM_range_eq_some hcsms
    have hmsgs : ∀ k m, csms[k]? = some m → MessageAt P L i st₂.view k m := by
      intro k m hm
      have hk : k < P.shardIDList.length := hlen ▸ (List.getElem?_eq_some_iff.mp hm).1
      obtain ⟨m', hm', hmsg⟩ := h₂.exists_messageFor hs hH hi hsig hk
      obtain rfl := Option.some.inj (hm'.symm.trans (hfor k m hm))
      exact hmsg
    have hidx : P.shardIDList.idxOf i < csms.length := hlen ▸ List.idxOf_lt_length_iff.mpr hi
    have hget : csms[P.shardIDList.idxOf i]? = some csms[P.shardIDList.idxOf i] :=
      List.getElem?_eq_getElem hidx
    rw [run_bind_ok hrun, run_bind_ok (run_get st₂), run_bind_ok (orThrow_eq_ok.mpr ⟨hcsms, rfl⟩),
      run_bind_ok (orThrow_eq_ok.mpr ⟨hget, rfl⟩)]
    exact ⟨_, st₂.talked csms csms[P.shardIDList.idxOf i], rfl, nofun, h₁.step,
      fun _ => ⟨hdp, rfl, hq⟩, fun hne => absurd rfl hne, h₂.talked hH hi h₁.own hmsgs hget⟩

/-! ## Voting and proposing -/

/-- **Counting** a vote of a validator for any of the shard's blocks. -/
theorem Leading.countVote (hH : History P L logs) (h : Leading P L logs i st)
    (hi : i ∈ P.shardIDList) {b : Block} (hb : (logs i).block? u = some b) (index : ℕ) (ok : Bool) :
    ∃ r st', countVote P (generateVoteForBlock P i index b ((logs i).hashAt P.lib (u - 1)) ok) st =
      (r, st') ∧ Leading P L logs i st' ∧ st'.step = st.step ∧
      st'.blockData.finished i = st.blockData.finished i := by
  obtain ⟨hdp, hhdp, hvotes⟩ := h.votes
  obtain ⟨w, rfl⟩ : ∃ w, u = w + 1 := by
    cases u with
    | zero => cases hb
    | succ w => exact ⟨w, rfl⟩
  obtain ⟨mk, hmk, rfl⟩ := Option.map_eq_some_iff.mp hb
  have hw := (List.getElem?_eq_some_iff.mp hmk).1
  have hview := (hH.made i hi w mk hmk).view
  generalize hvote : generateVoteForBlock P i index mk.block ((logs i).hashAt P.lib w) ok = vote
  have hdata : vote.view = st.view →
      vote.forNecessaryData = [(L i).hashAt P.lib (st.view - 1)] := by
    intro hv
    have hfor : vote.view = mk.block.view ∧
        vote.forNecessaryData = [(logs i).hashAt P.lib w] := by
      rw [← hvote]
      cases ok <;> exact ⟨rfl, rfl⟩
    rw [hfor.1, hview] at hv
    rw [hfor.2, show st.view - 1 = w by omega, (hH.le i).hashAt_eq hw.le]
  rw [show w + 1 - 1 = w from rfl, hvote]
  cases hadd : addVote P.bls P.lib.vote hdp vote with
  | error e => exact ⟨_, st, run_countVote_error hhdp hadd, h, rfl, rfl⟩
  | ok hdp' =>
    exact ⟨_, _, run_countVote hhdp hadd,
      { h with votes := ⟨hdp', rfl, hvotes.addVote hadd hdata⟩ }, rfl, rfl⟩

/-- A leader that can make its next block. -/
structure Ready (P : Network α) (L logs : Str → Log α) (i : Str) (st : State α) : Prop where
  log : st.log = logs i
  view : (logs i).made.length = st.view
  blockPool : st.blockPool = lastSeven ((logs i).made.map (·.block))
  store : Stored P L logs i st.store
  blocks : ∀ w r, (st.view : ℤ) < w → st.blockData.blocks w r = none
  j1Txs : st.blockData.j1CrossShardTxs = (L i).opTxsAt st.view
  lastHash : ∀ j ∈ P.shardIDList, st.blockData.lastHash j = (L j).hashAt P.lib st.view
  finished : 1 ≤ st.view → ∀ j ∈ P.shardIDList, ∃ m, st.blockData.finished j = some m ∧
    sent P logs j st.view i = some m

theorem Leading.ready (h : Leading P L logs i st)
    (hcomplete : st.blockData.isCrossShardMessageComplete P.shardIDList = true) :
    Ready P L logs i st := by
  have hall : ∀ j ∈ P.shardIDList, ∃ m, st.blockData.finished j = some m ∧
      sent P logs j st.view i = some m ∧
      st.blockData.lastHash j = (L j).hashAt P.lib st.view := by
    intro j hj
    have hsome := List.all_eq_true.mp hcomplete j hj
    rcases h.entry j hj with ⟨hnone, -⟩ | hentry
    · rw [hnone] at hsome
      cases hsome
    · exact hentry
  exact
    { h with
      lastHash := fun j hj => by
        obtain ⟨m, -, -, hlast⟩ := hall j hj
        exact hlast
      finished := fun _ j hj => by
        obtain ⟨m, hsome, hm, -⟩ := hall j hj
        exact ⟨m, hsome, hm⟩ }

theorem ready_newState {app : α} (hlog : logs i = newLog) : Ready P L logs i (newState app) where
  log := hlog.symm
  view := by rw [hlog]; rfl
  blockPool := by rw [hlog]; rfl
  store _ _ h := by cases h
  blocks _ _ _ := rfl
  j1Txs := rfl
  lastHash _ _ := rfl
  finished h := absurd h (Nat.not_succ_le_zero 0)

theorem Ready.length_blockPool (h : Ready P L logs i st) :
    st.blockPool.length = min st.view 7 := by
  rw [h.blockPool, length_lastSeven, List.length_map, h.view]

section

variable (hH : History P L logs)

include hH

section

variable (h : Ready P L logs i st)

include h

theorem Ready.exists_newBlock (hi : i ∈ P.shardIDList) (inp : Input) : ∃ b, newBlock P i inp st = some b := by
  have hlen : (entered P i st).blockPool.length = min st.view 7 := h.length_blockPool
  refine exists_makeBlock hi inp _ fun h1 j hj => ?_
  obtain ⟨m, hm, hsent⟩ := h.finished (by omega) j hj
  refine ⟨m, hm, fun h4 => ?_⟩
  obtain ⟨mk, ci, p, q, -, -, -, -, -, -, hp, hq⟩ := (hH.sent hj hsent).2.2.relay (by omega)
  rw [hp, hq]
  exact ⟨rfl, rfl⟩

theorem Ready.madeAt (hi : i ∈ P.shardIDList)
    {b : Block} (hb : newBlock P i inp st = some b) :
    MadeAt P L i (st.view + 1) { executionJ2 P i st with block := b } := by
  have hasm := assembled_of_makeBlock hb
  have hpool : (entered P i st).blockPool = lastSeven ((logs i).made.map (·.block)) := h.blockPool
  have hlen : (entered P i st).blockPool.length = min st.view 7 := h.length_blockPool
  have hle := hH.le i
  have hsent : ∀ j ∈ P.shardIDList, ∀ m, 1 ≤ st.view → st.blockData.finished j = some m →
      sent P L j st.view i = some m := by
    intro j hj m hpos hm
    obtain ⟨m', hm', hsent⟩ := h.finished hpos j hj
    obtain rfl := Option.some.inj (hm'.symm.trans hm)
    exact sent_mono (hH.le j) hsent
  exact
    { chainID := hasm.chainID
      view := hasm.view
      round := hasm.round
      hashPointer := by
        rw [hasm.hashPointer, State.fetchBlock_made hpool (by decide), h.view,
          Nat.add_sub_cancel, hle.hashAt_eq h.view.ge]
        rfl
      opt := hasm.opt
      outputTxsRoot := hasm.outputTxsRoot
      commitIntentionRoot := hasm.commitIntentionRoot
      executed := by
        have hblock := hle.block?_eq (v := st.view - 1) (by rw [h.view]; omega)
        rw [executed_executionJ2, State.fetchBlock_made h.blockPool (by decide), h.view]
        exact hblock.symm
      returned := returned_executionJ2 P i st
      noVote := fun hlt => hasm.noVote (by omega)
      vote := fun hge => by
        obtain ⟨m, hm, hvote⟩ := hasm.vote (by omega)
        exact ⟨m, hsent i hi m (by omega) hm, hvote⟩
      noIntention := fun hlt => hasm.noIntention (by omega)
      noCertificate := fun hlt => hasm.noCertificate (by omega)
      intention := fun hge => by
        obtain ⟨csms, hcsms, hci, hcc⟩ := hasm.intention (by omega)
        refine ⟨csms, ?_, hci, fun h5 => hcc (by omega)⟩
        have hmem := (List.forall₂_and_left _ _).mpr
          ⟨fun j (hj : j ∈ P.shardIDList) => hj, mapM_eq_some_iff.mp hcsms⟩
        exact hmem.imp fun j m hjm => hsent j hjm.1 m (by omega) hjm.2 }

theorem Ready.length_le_talks {j : Str}
    (hj : j ∈ P.shardIDList) : (logs i).made.length ≤ (logs j).talks.length := by
  rw [h.view]
  rcases Nat.eq_zero_or_pos st.view with hzero | hpos
  · rw [hzero]
    exact Nat.zero_le _
  · obtain ⟨m, -, hm⟩ := h.finished hpos j hj
    exact (hH.sent hj hm).2.1

/-- A block that has what it should have opens the next view of the leader. -/
theorem Ready.proposed (hi : i ∈ P.shardIDList)
    {st' : State α} {mk : Made α} (hprop : Proposed P st st' mk)
    (hat : MadeAt P L i (st.view + 1) mk) (hle : Log.Le st'.log (L i)) :
    History P L (Function.update logs i st'.log) ∧
      Leading P L (Function.update logs i st'.log) i st' := by
  have hmade : st'.log.made = (logs i).made ++ [mk] := by rw [hprop.made, h.log]
  have htalks : st'.log.talks = (logs i).talks := by rw [hprop.talks, h.log]
  have hH' := hH.make hle (fun j => h.length_le_talks hH) hmade htalks (h.view ▸ hat)
  have hmono : ∀ j, Log.Le (logs j) (Function.update logs i st'.log j) :=
    le_update_self ⟨hmade ▸ List.prefix_append _ _, htalks ▸ List.prefix_rfl⟩
  have hmk : (L i).made[st.view]? = some mk := by
    have hlt : st.view < st'.log.made.length := by
      rw [hmade, List.length_append, List.length_singleton, h.view]
      omega
    rw [hle.made_eq hlt, hmade, ← h.view, List.getElem?_concat_length]
  have hhash : (L i).hashAt P.lib (st.view + 1) = mk.block.hash P.lib := Log.hashAt_succ hmk
  refine ⟨hH', ?_⟩
  exact
    { log := by rw [Function.update_self]
      pos := by rw [hprop.view]; omega
      view := by
        rw [Function.update_self, hmade, List.length_append, List.length_singleton, hprop.view,
          h.view]
      round := hprop.round
      blockPool := by
        rw [Function.update_self, hprop.blockPool, hmade, List.map_append]
        exact State.blockPool_appendBlock h.blockPool mk.block
      store := hprop.store ▸ h.store.mono hmono
      blocks := fun w r hw => by
        rw [hprop.view] at hw
        exact hprop.blocks w r (by omega) (h.blocks w r (by omega))
      j1Txs := by
        rw [hprop.view, hprop.j1Txs, Log.opTxsAt, hmk]
        rfl
      j2Txs := by
        rw [hprop.view, hprop.j2Txs, h.j1Txs]
        rfl
      votes := by
        obtain ⟨hdp, hhdp, hvotes⟩ := hprop.votes
        refine ⟨hdp, hhdp, ?_⟩
        rw [hprop.view, hhash]
        rw [hat.hashPointer] at hvotes
        exact hvotes
      entry := fun j hj => .inl ⟨hprop.finished j, by
        rw [hprop.lastHash, hprop.view]
        exact h.lastHash j hj⟩
      foreign := fun j _ => hprop.finished j
      silent := fun _ => by
        have hopened := hH.inStep.closed_le_opened i hi
        have := h.length_le_talks hH hi
        rw [Function.update_self, htalks, hprop.view, ← h.view]
        simp only at hopened
        omega }

end

end

theorem Ready.doPropose (hs : Setting P) (hH : History P L logs) (h : Ready P L logs i st)
    (hi : i ∈ P.shardIDList) (inp : Input) :
    ∃ st', doPropose P i (leaderOf P i) inp st = (.ok (), st') ∧ st'.step = st.step ∧
      (∃ hdp, st'.heightDatas = some hdp) ∧ st'.blockData.finished i = none ∧
      (Log.Le st'.log (L i) → History P L (Function.update logs i st'.log) ∧
        Leading P L (Function.update logs i st'.log) i st') := by
  obtain ⟨b, hb⟩ := h.exists_newBlock hH hi inp
  obtain ⟨st', hrun, hstep, hprop⟩ := run_doPropose hs hi (h.blocks _ _ (by omega)) hb
  exact ⟨st', hrun, hstep, hprop.votes.imp fun _ h => h.1, hprop.finished i,
    h.proposed hH hi hprop (h.madeAt hH hi hb)⟩

/-! ## Rounds of a leader -/

/-- A leader between two calls. -/
structure Running (P : Network α) (L logs : Str → Log α) (i : Str) (st : State α) : Prop where
  leading : Leading P L logs i st
  step : st.step = .leaderVote ∨ st.step = .leaderWait
  voting : st.step = .leaderVote → st.blockData.finished i = none

/-- The outcome of a call: what the leader has recorded is right, and it runs on unless it has
panicked. -/
def Fine (P : Network α) (L logs : Str → Log α) (i : Str) {β : Type}
    (r : Except Fault β × State α) : Prop :=
  Log.Le r.2.log (L i) → History P L (Function.update logs i r.2.log) ∧
    (r.1 ≠ .error .panic → Running P L (Function.update logs i r.2.log) i r.2)

theorem Running.fine (hH : History P L logs) (h : Running P L logs i st) {β : Type}
    (r : Except Fault β) : Fine P L logs i (r, st) := by
  intro _
  show History P L (Function.update logs i st.log) ∧ _
  rw [h.leading.log, Function.update_eq_self]
  exact ⟨hH, fun _ => h⟩

theorem isProposer_leaderOf (P : Network α) (i : Str) : isProposer P i (leaderOf P i) = true :=
  beq_self_eq_true _

/-- **A round** of `handle_state_transition` at a leader. -/
theorem Running.handleStateTransition (hs : Setting P) (hd : DistinctHashes P L)
    (hH : History P L logs) (h : Running P L logs i st) (hi : i ∈ P.shardIDList)
    (horder : inp.order.Perm P.shardIDList) :
    Fine P L logs i (handleStateTransition P i (leaderOf P i) inp st) := by
  rcases h.step with hstep | hstep
  · -- the votes are a quorum or not
    obtain ⟨hdp, hhdp, -⟩ := h.leading.votes
    have htake := takeStep_leaderVote P i (leaderOf P i) hstep inp hhdp
    cases hq : isQuorum hdp with
    | false =>
      rw [hq] at htake
      unfold Urd.handleStateTransition
      rw [run_bind_ok htake]
      exact h.fine hH _
    | true =>
      rw [hq] at htake
      obtain ⟨r, st₁, hrun, -, hstep₁, hquorum, hown, hfine⟩ :=
        h.leading.crossShardCommunicate hs hd hH hi (h.voting hstep) ⟨hdp, hhdp, hq⟩ horder
      rcases r with e | u
      · unfold Urd.handleStateTransition
        rw [run_bind_error (htake.trans (run_bind_error hrun))]
        intro hle
        obtain ⟨hH₁, h₁⟩ := hfine hle
        exact ⟨hH₁, fun _ => ⟨h₁, hstep₁ ▸ h.step, fun _ => hown nofun⟩⟩
      · obtain ⟨hdp₁, hhdp₁, hq₁⟩ := hquorum rfl
        obtain ⟨r, hround, -⟩ := handleStateTransition_taken (isProposer_leaderOf P i)
          (htake.trans (run_bind_ok hrun)) hhdp₁
        rw [hq₁] at hround
        rw [hround]
        intro hle
        obtain ⟨hH₁, h₁⟩ := hfine hle
        exact ⟨hH₁, fun _ => ⟨{ h₁ with }, .inr rfl, nofun⟩⟩
  · have htake := takeStep_leaderWait P i (leaderOf P i) hstep inp
    cases hcomplete : st.blockData.isCrossShardMessageComplete P.shardIDList with
    | false =>
      rw [hcomplete] at htake
      unfold Urd.handleStateTransition
      rw [run_bind_ok htake]
      exact h.fine hH _
    | true =>
      rw [hcomplete] at htake
      obtain ⟨st₁, hrun, -, ⟨hdp, hhdp⟩, hown, hfine⟩ :=
        (h.leading.ready hcomplete).doPropose hs hH hi inp
      obtain ⟨r, hround, -⟩ := handleStateTransition_taken (isProposer_leaderOf P i)
        (htake.trans (run_bind_ok hrun)) hhdp
      rw [hround]
      intro hle
      obtain ⟨hH₁, h₁⟩ := hfine hle
      refine ⟨hH₁, fun _ => ⟨{ h₁ with }, ?_, fun _ => hown⟩⟩
      cases isQuorum hdp
      · exact .inl rfl
      · exact .inr rfl

end

end Emulator.Urd
