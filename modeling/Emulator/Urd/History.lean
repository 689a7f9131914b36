import Emulator.Urd.Leaders

/-!
# Histories of the leaders

What the leaders have done is read off their logs. `MadeAt` says what the block of a view is, and
`MessageAt` what the message of a view is, in terms of the blocks and messages before. Both refer to
what comes earlier in the history, but not to how much of it the speaker has seen: they are stated
against a history `L` that the recorded one goes on to. What is known about an entry then never has
to be proved again as the history grows.

* `History` — what has been recorded is right, and the leaders are in step.
* `History.talk`, `History.make` — the two ways in which a history grows.
* `Synced.along_le` — the logs along a run are parts of those at its end.
-/

namespace Emulator.Urd

open Emulator.Action HotStuff Lockstep

variable {α β : Type} {u v : ℕ} {lib : Lib} {m : CrossShardMessage}

/-! ## Histories that grow -/

namespace Log

variable {l l' : Log α}

/-- What `l` has recorded, `l'` has recorded too. -/
structure Le (l l' : Log α) : Prop where
  made : l.made <+: l'.made
  talks : l.talks <+: l'.talks

theorem Le.refl (l : Log α) : Le l l := ⟨List.prefix_rfl, List.prefix_rfl⟩

theorem Le.trans {l'' : Log α} (h : Le l l') (h' : Le l' l'') : Le l l'' :=
  ⟨h.made.trans h'.made, h.talks.trans h'.talks⟩

theorem Le.made_eq (h : Le l l') (hv : v < l.made.length) : l'.made[v]? = l.made[v]? := by
  obtain ⟨t, ht⟩ := h.made
  rw [← ht, List.getElem?_append_left hv]

theorem Le.block?_eq (h : Le l l') (hv : v ≤ l.made.length) : l'.block? v = l.block? v := by
  cases v with
  | zero => rfl
  | succ v => rw [block?, block?, h.made_eq hv]

theorem Le.hashAt_eq (h : Le l l') (hv : v ≤ l.made.length) : l'.hashAt lib v = l.hashAt lib v := by
  rw [hashAt, hashAt, h.block?_eq hv]

theorem Le.talks_eq (h : Le l l') (hu : u < l.talks.length) : l'.talks[u]? = l.talks[u]? := by
  obtain ⟨t, ht⟩ := h.talks
  rw [← ht, List.getElem?_append_left hu]

end Log

theorem sent_eq_some {P : Network α} {logs : Str → Log α} {j i : Str}
    (h : sent P logs j u i = some m) :
    ∃ w csms, u = w + 1 ∧ w < (logs j).talks.length ∧
      (logs j).talks[w]? = some csms ∧ csms[P.shardIDList.idxOf i]? = some m := by
  cases u with
  | zero => cases h
  | succ w =>
    obtain ⟨csms, hcsms, hm⟩ := Option.bind_eq_some_iff.mp h
    exact ⟨w, csms, rfl, (List.getElem?_eq_some_iff.mp hcsms).1, hcsms, hm⟩

theorem sent_mono {P : Network α} {logs logs' : Str → Log α} {j i : Str}
    (hle : Log.Le (logs j) (logs' j)) (h : sent P logs j u i = some m) :
    sent P logs' j u i = some m := by
  obtain ⟨w, csms, rfl, hlt, hcsms, hm⟩ := sent_eq_some h
  rw [sent, hle.talks_eq hlt, hcsms]
  exact hm

/-! ## What a history says -/

section

variable (P : Network α) (L : Str → Log α)

/-- A message of shard `j` for view `u` to the shard with index `k`. -/
structure MessageAt (j : Str) (u k : ℕ) (m : CrossShardMessage) : Prop where
  sourceChain : m.sourceChain = j
  aggVote : Aggregates m.aggVote ((L j).hashAt P.lib u) [(L j).hashAt P.lib (u - 1)]
  relay : 4 ≤ u → ∃ mk ci p q, (L j).made[u - 2]? = some mk ∧ mk.block.ci = some ci ∧
    mk.block.getCommitIntentionProof P.lib = some p ∧
    mk.block.getOutputTxsProofOf P.lib k = some q ∧ mk.opTxs[k]? = some m.oPTXs ∧
    m.intentionBrief = ci.getBrief ∧
    m.proofOfIntention = some ⟨p, ci.rrightHash P.lib⟩ ∧ m.outputTxsProof = some q

/-- The block of shard `i` for view `v`, with the execution before it. -/
structure MadeAt (i : Str) (v : ℕ) (mk : Made α) : Prop where
  chainID : mk.block.chainID = i
  view : mk.block.view = v
  round : mk.block.round = 0
  hashPointer : mk.block.hashPointer = (L i).hashAt P.lib (v - 1)
  opt : mk.block.opt = mk.opTxs.map (txsHash P.lib)
  outputTxsRoot : mk.block.outputTxsRoot = Merkle.hashFromByteSlices P.lib.sum mk.block.opt
  commitIntentionRoot : ∀ ci ∈ mk.block.ci, mk.block.commitIntentionRoot = ci.hash P.lib
  executed : mk.executed = (L i).block? (v - 2)
  returned : mk.Returned P i
  noVote : v < 2 → mk.block.aggSigVote = none
  vote : 2 ≤ v → ∃ m, sent P L i (v - 1) i = some m ∧ mk.block.aggSigVote = some m.aggVote
  noIntention : v < 3 → mk.block.ci = none
  noCertificate : v < 5 → mk.block.cc = [] ∧ mk.block.ctxs = [] ∧ mk.block.ctxsProof = []
  intention : 3 ≤ v → ∃ csms,
    List.Forall₂ (fun j m => sent P L j (v - 1) i = some m) P.shardIDList csms ∧
      mk.block.ci =
        some ⟨csms.map CrossShardMessage.getLastHash, csms.map CrossShardMessage.aggVote⟩ ∧
      (5 ≤ v → csms.mapM certificateCore = some mk.block.cc ∧
        mk.block.ctxs = csms.map CrossShardMessage.oPTXs ∧
        csms.mapM CrossShardMessage.outputTxsProof = some mk.block.ctxsProof)

/-- The histories of the shards go on to `L`, and what they have recorded is right. -/
structure History (logs : Str → Log α) : Prop where
  le : ∀ i, Log.Le (logs i) (L i)
  inStep : InStep {i | i ∈ P.shardIDList}
    ⟨fun i => (logs i).made.length, fun i => (logs i).talks.length⟩
  made : ∀ i ∈ P.shardIDList, ∀ v mk, (logs i).made[v]? = some mk → MadeAt P L i (v + 1) mk
  talks : ∀ i ∈ P.shardIDList, ∀ u csms, (logs i).talks[u]? = some csms →
    ∀ k m, csms[k]? = some m → MessageAt P L i (u + 1) k m

/-- The blocks of each shard have different hashes. -/
def DistinctHashes : Prop :=
  ∀ i ∈ P.shardIDList, ((L i).made.map fun mk => mk.block.hash P.lib).Nodup

end

section

variable {P : Network α} {L logs : Str → Log α} {i j : Str} {log : Log α}

theorem History.sent (h : History P L logs) (hj : j ∈ P.shardIDList)
    (hm : sent P logs j u i = some m) : 1 ≤ u ∧ u ≤ (logs j).talks.length ∧
      MessageAt P L j u (P.shardIDList.idxOf i) m := by
  obtain ⟨w, csms, rfl, hlt, hcsms, hm⟩ := sent_eq_some hm
  exact ⟨by omega, hlt, h.talks j hj w csms hcsms _ m hm⟩

theorem length_hash (hsum : ∀ x, (lib.sum x).length = Merkle.hashSize) (b : Block) :
    (b.hash lib).length = Merkle.hashSize := by
  rw [Block.hash_eq, Merkle.length_hashFromByteSlices hsum]

theorem Log.hashAt_succ {l : Log α} {mk : Made α} (h : l.made[v]? = some mk) :
    l.hashAt lib (v + 1) = mk.block.hash lib := by
  rw [Log.hashAt, Log.block?, h]
  rfl

theorem DistinctHashes.inj (h : DistinctHashes P L)
    (hsum : ∀ x, (P.lib.sum x).length = Merkle.hashSize) (hj : j ∈ P.shardIDList)
    (hu : u ≤ (L j).made.length) (hv : v ≤ (L j).made.length)
    (heq : (L j).hashAt P.lib u = (L j).hashAt P.lib v) : u = v := by
  have hempty : ∀ w, w < (L j).made.length → (L j).hashAt P.lib (w + 1) ≠ [] := by
    intro w hw hnil
    rw [Log.hashAt_succ (List.getElem?_eq_getElem hw)] at hnil
    have hlen := length_hash hsum ((L j).made[w]).block
    rw [hnil] at hlen
    cases hlen
  cases u with
  | zero =>
    cases v with
    | zero => rfl
    | succ v => exact absurd heq.symm (hempty v hv)
  | succ u =>
    cases v with
    | zero => exact absurd heq (hempty u hu)
    | succ v =>
      rw [Log.hashAt_succ (List.getElem?_eq_getElem hu),
        Log.hashAt_succ (List.getElem?_eq_getElem hv)] at heq
      have hinj := ((h j hj).get_inj_iff (i := ⟨u, by rwa [List.length_map]⟩)
        (j := ⟨v, by rwa [List.length_map]⟩)).mp
          (by simpa only [List.get_eq_getElem, List.getElem_map] using heq)
      rw [Fin.mk.inj hinj]

/-! ## Moves of the histories -/

theorem History.made_le (h : History P L logs) (j : Str) :
    (logs j).made.length ≤ (L j).made.length := (h.le j).made.length_le

theorem length_update (logs : Str → Log α) (i : Str) (log : Log α) (f : Log α → List β) :
    (fun j => (f (Function.update logs i log j)).length) =
      Function.update (fun j => (f (logs j)).length) i (f log).length := by
  funext j
  by_cases hj : j = i
  · subst hj
    rw [Function.update_self, Function.update_self]
  · rw [Function.update_of_ne hj, Function.update_of_ne hj]

/-- What a leader adds to its log, it adds to the history. -/
theorem le_update_self (hlog : Log.Le (logs i) log) (j : Str) :
    Log.Le (logs j) (Function.update logs i log j) := by
  by_cases hj : j = i
  · subst hj
    rwa [Function.update_self]
  · rw [Function.update_of_ne hj]
    exact .refl _

theorem le_update (h : ∀ j, Log.Le (logs j) (L j)) (hlog : Log.Le log (L i)) (j : Str) :
    Log.Le (Function.update logs i log j) (L j) := by
  by_cases hj : j = i
  · subst hj
    rwa [Function.update_self]
  · rw [Function.update_of_ne hj]
    exact h j

/-- A leader talks about the last block it has made. -/
theorem History.talk (h : History P L logs) (hle : Log.Le log (L i))
    (hlt : (logs i).talks.length < (logs i).made.length) (hmade : log.made = (logs i).made)
    {csms : List CrossShardMessage} (htalks : log.talks = (logs i).talks ++ [csms])
    (hcsms : ∀ k m, csms[k]? = some m → MessageAt P L i ((logs i).talks.length + 1) k m) :
    History P L (Function.update logs i log) where
  le := le_update h.le hle
  inStep := by
    have hclose := h.inStep.closeRound (i := i) hlt
    rw [length_update logs i log Log.made, length_update logs i log Log.talks, hmade, htalks,
      List.length_append, Function.update_eq_self]
    exact hclose
  made j hj v mk hmk := by
    refine h.made j hj v mk ?_
    by_cases hji : j = i
    · subst hji
      rwa [Function.update_self, hmade] at hmk
    · rwa [Function.update_of_ne hji] at hmk
  talks j hj u csms' hcsms' k m hm := by
    by_cases hji : j = i
    · subst hji
      rw [Function.update_self, htalks] at hcsms'
      rcases getElem?_concat_eq_some hcsms' with hold | ⟨rfl, rfl⟩
      · exact h.talks j hj u csms' hold k m hm
      · exact hcsms k m hm
    · rw [Function.update_of_ne hji] at hcsms'
      exact h.talks j hj u csms' hcsms' k m hm

/-- A leader makes a block when all have talked about the view before. -/
theorem History.make (h : History P L logs) (hle : Log.Le log (L i))
    (hall : ∀ j ∈ P.shardIDList, (logs i).made.length ≤ (logs j).talks.length) {mk : Made α}
    (hmade : log.made = (logs i).made ++ [mk]) (htalks : log.talks = (logs i).talks)
    (hmk : MadeAt P L i ((logs i).made.length + 1) mk) :
    History P L (Function.update logs i log) where
  le := le_update h.le hle
  inStep := by
    have hopen := h.inStep.openRound (i := i) hall
    rw [length_update logs i log Log.made, length_update logs i log Log.talks, hmade, htalks,
      List.length_append, Function.update_eq_self]
    exact hopen
  made j hj v mk' hmk' := by
    by_cases hji : j = i
    · subst hji
      rw [Function.update_self, hmade] at hmk'
      rcases getElem?_concat_eq_some hmk' with hold | ⟨rfl, rfl⟩
      · exact h.made j hj v mk' hold
      · exact hmk
    · rw [Function.update_of_ne hji] at hmk'
      exact h.made j hj v mk' hmk'
  talks j hj u csms hcsms := by
    refine h.talks j hj u csms ?_
    by_cases hji : j = i
    · subst hji
      rwa [Function.update_self, htalks] at hcsms
    · rwa [Function.update_of_ne hji] at hcsms

end

/-! ## Logs only grow -/

/-- The log of the one state goes on to that of the other. -/
def Grows (s s' : State α) : Prop := Log.Le s.log s'.log

namespace Grows

variable {P : Network α} {me : Str} {index : ℕ}

theorem refl (s : State α) : Grows s s := Log.Le.refl _

theorem trans (a b c : State α) (h : Grows a b) (h' : Grows b c) : Grows a c := Log.Le.trans h h'

theorem of_log_eq {x : Act α β} (h : ∀ s, (x s).2.log = s.log) : Keeps Grows x := by
  intro s
  unfold Grows
  rw [h s]
  exact refl s

theorem of_eq {x : Act α β} (h : ∀ s, (x s).2 = s) : Keeps Grows x :=
  Keeps.of_eq refl h

theorem countVote (vote : Vote) : Keeps Grows (Urd.countVote P vote) :=
  of_log_eq fun s => by
    obtain ⟨hdps, h⟩ := exists_snd_countVote P vote s
    rw [h]

theorem doPropose (inp : Input) : Keeps Grows (Urd.doPropose P me index inp) := by
  intro s
  have hrun := proposes P me index inp s
  generalize Urd.doPropose P me index inp s = r at hrun
  cases hrun with
  | noBlock _ | slotTaken _ _ => exact ⟨List.prefix_rfl, List.prefix_rfl⟩
  | voteRefused _ _ _ | done _ _ _ => exact ⟨List.prefix_append _ _, List.prefix_rfl⟩

theorem crossShardCommunicate (inp : Input) : Keeps Grows (Urd.crossShardCommunicate P me inp) := by
  intro s
  have hrun := talks P me inp s
  generalize Urd.crossShardCommunicate P me inp s = r at hrun
  cases hrun with
  | failed | stuck => exact ⟨List.prefix_rfl, List.prefix_rfl⟩
  | talked => exact ⟨List.prefix_rfl, List.prefix_append _ _⟩

theorem doValidate (block : Block) : Keeps Grows (Urd.doValidate P me index block) := by
  intro s
  have hrun := validates P me index s block
  generalize Urd.doValidate P me index block s = r at hrun
  cases hrun with
  | panicked _ | refused _ _ | accepted _ => exact ⟨List.prefix_rfl, List.prefix_rfl⟩

theorem handleStateTransition (inp : Input) :
    Keeps Grows (Urd.handleStateTransition P me index inp) := by
  intro s
  have htake : Grows s (takeStep P me index inp s).2 :=
    takeStep_elim (refl s) (fun block _ _ => doValidate block s) (fun _ => doPropose inp s)
      fun _ => crossShardCommunicate inp s
  obtain ⟨step, h, -⟩ := exists_snd_handleStateTransition P me index inp s
  rw [h]
  exact htake

theorem start (inp : Input) : Keeps Grows (Urd.start P me index inp) := fun s =>
  start_elim (fun _ _ _ _ => doPropose inp s) (fun _ _ => refl s) fun _ => handleStateTransition inp s

theorem takeMessage (msg : Message) : Keeps Grows (Urd.takeMessage P me msg) := by
  apply keeps_takeMessage refl
  · exact fun p _ => of_log_eq fun _ => rfl
  · exact fun p _ _ _ => of_log_eq fun _ => rfl
  · refine fun m _ => of_log_eq fun s => ?_
    obtain ⟨store, finished, lastHash, h⟩ := exists_snd_addCrossShardMessage P m s
    exact (congrArg State.log h :)
  · exact fun v _ => countVote v

end Grows

/-! ## Logs along a run -/

section

variable {P : Network α} {s s' : System α}

theorem settle_eq_some {r : Except Fault Bool × State α} {st' : State α} (h : settle r = some st') :
    r.1 ≠ .error .panic ∧ ∃ handling, st' = { r.2 with handling } := by
  unfold settle at h
  split at h
  · cases h
  · next e hpanic he =>
    refine ⟨fun heq => ?_, _, (Option.some.inj h).symm⟩
    rw [he] at heq
    exact hpanic (Except.error.inj heq)
  · next again hok =>
    refine ⟨fun heq => ?_, _, (Option.some.inj h).symm⟩
    rw [hok] at heq
    cases heq

theorem grows_act {e : Event} {x : Act α Bool} (hx : e.act P s = some x) : Keeps Grows x := by
  have htail : ∀ {y : Act α Unit}, Keeps Grows y → Keeps Grows (y >>= fun _ =>
      handleStateTransition P e.leader (leaderOf P e.leader) e.input) := fun hy =>
    Keeps.bind Grows.trans hy fun _ => Grows.handleStateTransition _
  cases e with
  | start i inp =>
    obtain rfl := Option.some.inj hx
    exact Grows.start inp
  | resume i inp =>
    obtain rfl := Option.some.inj hx
    exact htail (Grows.of_eq fun _ => rfl)
  | deliver i j u inp =>
    obtain ⟨y, hy, rfl⟩ := Option.map_eq_some_iff.mp hx
    refine htail ?_
    obtain ⟨-, m, -, rfl⟩ := Event.entry_deliver_eq_some.mp hy
    exact Keeps.orThrow_bind Grows.refl fun _ _ => Grows.takeMessage _
  | vote i u index ok inp =>
    obtain ⟨y, hy, rfl⟩ := Option.map_eq_some_iff.mp hx
    obtain ⟨b, -, rfl⟩ := Option.map_eq_some_iff.mp hy
    exact htail (Grows.takeMessage _)

/-- The logs are those of the leaders. -/
def Synced (s : System α) : Prop := ∀ i st, s.leaders i = some st → st.log = s.logs i

theorem Synced.step (h : Synced s) {e : Event} (hstep : systemStep P s e = some s') :
    Synced s' ∧ ∀ j, Log.Le (s.logs j) (s'.logs j) := by
  unfold systemStep at hstep
  split_ifs at hstep
  obtain ⟨x, hx, hcall⟩ := Option.bind_eq_some_iff.mp hstep
  obtain ⟨st, hst, rfl⟩ := Option.map_eq_some_iff.mp hcall
  constructor
  · intro j stj hstj
    by_cases hj : j = e.leader
    · subst hj
      simp only [Function.update_self] at hstj ⊢
      obtain ⟨-, handling, rfl⟩ := settle_eq_some hstj
      rfl
    · simp only [Function.update_of_ne hj] at hstj ⊢
      exact h j stj hstj
  · exact le_update_self (h _ st hst ▸ grows_act hx st)

theorem Synced.run_le {es : List Event} (h : Synced s) (hrun : run (systemStep P) s es = some s') :
    ∀ j, Log.Le (s.logs j) (s'.logs j) := by
  induction es generalizing s with
  | nil =>
    obtain rfl := Option.some.inj hrun
    exact fun _ => .refl _
  | cons e es ih =>
    obtain ⟨s₁, hstep, hrest⟩ := run_cons.mp hrun
    obtain ⟨h₁, hle⟩ := h.step hstep
    exact fun j => (hle j).trans (ih h₁ hrest j)

/-- In every state of a run the histories are parts of those at its end. -/
theorem Synced.along_le {es : List Event} (h : Synced s)
    (hrun : run (systemStep P) s es = some s') :
    Along (systemStep P) (fun s₁ e => ∀ s₂, systemStep P s₁ e = some s₂ →
      ∀ j, Log.Le (s₂.logs j) (s'.logs j)) s es := by
  induction es generalizing s with
  | nil => trivial
  | cons e es ih =>
    obtain ⟨s₁, hstep, hrest⟩ := run_cons.mp hrun
    obtain ⟨h₁, -⟩ := h.step hstep
    refine .cons (fun s₂ hs₂ => ?_) hstep (ih h₁ hrest)
    obtain rfl := Option.some.inj (hstep.symm.trans hs₂)
    exact h₁.run_le hrest

end

end Emulator.Urd
