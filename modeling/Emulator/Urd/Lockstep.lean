import Emulator.Urd.Codecs
import Emulator.Urd.Rounds

/-!
# The leaders in lockstep

The invariant of the whole system: the history is right, and every leader has not started or is in
the view of its last block. It is proved for a run whose final history is known in advance, so that
what the leaders record can be stated once against the final history.

* `systemInv_run` — the invariant holds in every reachable state.
* `inLockstep_run` — the leaders go through the views together, and a leader that proposes has the
  message of its view from every shard.
* `relay_delivered` — the relay lists of block `m - 4` are in the blocks of view `m`.
-/

namespace Emulator.Urd

open Emulator.Action HotStuff Lockstep

variable {α : Type}

/-! ## Runs of the system -/

section

variable {P : Network α} {L : Str → Log α} {s s' : System α} {i j : Str} {st : State α} {e : Event}
  {x : Act α Bool} {logs : Str → Log α}

/-- A leader that has not started, or one between two calls. -/
def Member (P : Network α) (L logs : Str → Log α) (i : Str) (st : State α) : Prop :=
  (∃ app, st = newState app) ∧ logs i = newLog ∨ Running P L logs i st

structure SystemInv (P : Network α) (L : Str → Log α) (s : System α) : Prop where
  history : History P L s.logs
  leaders : ∀ i ∈ P.shardIDList, ∀ st, s.leaders i = some st → Member P L s.logs i st

theorem SystemInv.call (h : SystemInv P L s) (hgrows : Log.Le (s.logs i) (x st).2.log)
    (hhistory : History P L (Function.update s.logs i (x st).2.log))
    (hmember : ∀ st', settle (x st) = some st' →
      Member P L (Function.update s.logs i (x st).2.log) i st') :
    SystemInv P L
      { leaders := Function.update s.leaders i (settle (x st))
        logs := Function.update s.logs i (x st).2.log } := by
  refine ⟨hhistory, fun j hj stj hstj => ?_⟩
  by_cases hji : j = i
  · subst hji
    simp only [Function.update_self] at hstj
    exact hmember stj hstj
  · simp only [Function.update_of_ne hji] at hstj
    have hlog : Function.update s.logs i (x st).2.log j = s.logs j := Function.update_of_ne hji ..
    rcases h.leaders j hj stj hstj with ⟨hnew, hempty⟩ | hrun
    · exact .inl ⟨hnew, hlog.trans hempty⟩
    · exact .inr ⟨hrun.leading.mono (le_update_self hgrows) hlog, hrun.step, hrun.voting⟩

theorem Fine.member {r : Except Fault Bool × State α} (h : Fine P L logs i r)
    (hle : Log.Le r.2.log (L i)) : ∀ st', settle r = some st' →
      Member P L (Function.update logs i r.2.log) i st' := by
  intro st' hst'
  obtain ⟨hpanic, handling, rfl⟩ := settle_eq_some hst'
  have hrun := (h hle).2 hpanic
  exact .inr ⟨{ hrun.leading with }, hrun.step, hrun.voting⟩

/-- What precedes `handle_state_transition` in a call leaves a leader as it should be. -/
theorem Running.entry (hs : Setting P) (hd : DistinctHashes P L) (hH : History P L s.logs)
    (hi : e.leader ∈ P.shardIDList) (h : Running P L s.logs e.leader st) {x : Act α Unit}
    (hx : e.entry P s = some x) : ∃ r st', x st = (r, st') ∧ Running P L s.logs e.leader st' := by
  cases e with
  | start i inp =>
    obtain rfl := Option.some.inj hx
    exact ⟨_, st, rfl, h⟩
  | resume i inp =>
    obtain rfl := Option.some.inj hx
    exact ⟨_, st, rfl, h⟩
  | deliver i j u inp =>
    obtain ⟨hj, m, hm, rfl⟩ := Event.entry_deliver_eq_some.mp hx
    obtain ⟨-, -, hmsg⟩ := hH.sent hj.1 hm
    have hdecode := newCrossShardMessageFromBytes_protoBytes hs.csm hmsg.aggVote.signerIndexer
    unfold takeBytes takeMessage
    rw [run_bind_ok (orThrow_eq_ok.mpr ⟨hdecode, rfl⟩), run_bind, run_require]
    cases (Message.crossShardMessage m).validateBasic P.lib with
    | false => exact ⟨_, st, rfl, h⟩
    | true =>
      obtain ⟨r, st', hrun, -, h', hstep, hown⟩ :=
        h.leading.addCrossShardMessage hs hd hH hi hj.1 hj.2 hm
      exact ⟨r, st', hrun, h', hstep ▸ h.step, fun hv => hown.trans (h.voting (hstep ▸ hv))⟩
  | vote i u index ok inp =>
    obtain ⟨b, hb, rfl⟩ := Option.map_eq_some_iff.mp hx
    unfold takeMessage
    rw [run_bind, run_require]
    split_ifs
    · obtain ⟨r, st', hrun, h', hstep, hown⟩ := h.leading.countVote hH hi hb index ok
      exact ⟨r, st', hrun, h', hstep ▸ h.step, fun hv => hown.trans (h.voting (hstep ▸ hv))⟩
    · exact ⟨_, st, rfl, h⟩

theorem fine_start (hs : Setting P) (hH : History P L logs) (hi : i ∈ P.shardIDList)
    (hlog : logs i = newLog) (app : α) (inp : Input) :
    Fine P L logs i (start P i (leaderOf P i) inp (newState app)) := by
  have hready : Ready P L logs i (newState app) := ready_newState hlog
  obtain ⟨st₁, hrun, -, -, hown, hfine⟩ := hready.doPropose hs hH hi inp
  have hstart : start P i (leaderOf P i) inp (newState app) =
      (.ok false, { st₁ with step := .leaderVote }) := by
    have hview : (newState app).view = 0 := rfl
    unfold start
    rw [run_bind_ok (run_get _), if_pos hview, if_pos (isProposer_leaderOf P i),
      run_bind_ok (run_attempt _ _), hrun]
    rfl
  rw [hstart]
  intro hle
  obtain ⟨hH₁, h₁⟩ := hfine hle
  exact ⟨hH₁, fun _ => ⟨{ h₁ with }, .inl rfl, fun _ => hown⟩⟩

/-- A message that arrives before the leader has started is invalid or is stored. -/
theorem takeBytes_unstarted (hs : Setting P) (hH : History P L logs) (hj : j ∈ P.shardIDList)
    {u : ℕ} {m : CrossShardMessage} (hm : sent P logs j u i = some m) (app : α) :
    takeBytes P i (m.protoBytes P.lib) (newState app) = (.error .invalid, newState app) ∨
      ∃ st, takeBytes P i (m.protoBytes P.lib) (newState app) = (.ok (), st) ∧ st.step = .init ∧
        st.heightDatas = none ∧ st.log = newLog := by
  obtain ⟨-, -, hmsg⟩ := hH.sent hj hm
  have hdecode := newCrossShardMessageFromBytes_protoBytes hs.csm hmsg.aggVote.signerIndexer
  unfold takeBytes takeMessage
  rw [run_bind_ok (orThrow_eq_ok.mpr ⟨hdecode, rfl⟩)]
  cases (Message.crossShardMessage m).validateBasic P.lib with
  | false => exact .inl rfl
  | true =>
    have hcontains : P.shardIDList.contains m.sourceChain = true := by
      rw [hmsg.sourceChain]
      exact List.contains_iff_mem.mpr hj
    have hfree : ((newState app).store (storeKey m.sourceChain m.getLastHash)).isNone = true := rfl
    rw [run_bind_ok (run_require_true _ _)]
    show _ ∨ ∃ st, addCrossShardMessage P m (newState app) = _ ∧ _
    unfold addCrossShardMessage
    rw [run_bind_ok (run_get _), run_bind_ok (require_eq_ok.mpr ⟨hcontains, rfl⟩),
      run_bind_ok (require_eq_ok.mpr ⟨hfree, rfl⟩), run_bind_ok (run_modify _ _)]
    split_ifs <;> exact .inr ⟨_, rfl, rfl, rfl, rfl⟩

theorem entry_unstarted (hs : Setting P) (hH : History P L s.logs)
    (hempty : s.logs e.leader = newLog) {x : Act α Unit} (hx : e.entry P s = some x) {app : α}
    (hrun : x (newState app) = (.ok (), st)) : st.step = .init := by
  cases e with
  | start i inp =>
    obtain rfl := Option.some.inj hx
    exact (congrArg (·.2.step) hrun).symm
  | resume i inp =>
    obtain rfl := Option.some.inj hx
    exact (congrArg (·.2.step) hrun).symm
  | deliver i j u inp =>
    obtain ⟨hj, m, hm, rfl⟩ := Event.entry_deliver_eq_some.mp hx
    rcases takeBytes_unstarted hs hH hj.1 hm app with hrun' | ⟨st', hrun', hinit, -⟩
    · cases hrun.symm.trans hrun'
    · obtain rfl := (Prod.mk.inj (hrun.symm.trans hrun')).2
      exact hinit
  | vote i u index ok inp =>
    obtain ⟨b, hb, rfl⟩ := Option.map_eq_some_iff.mp hx
    rw [show s.logs i = newLog from hempty] at hb
    cases u <;> cases hb

/-- What an event does to a leader that has started. -/
theorem Running.act (hs : Setting P) (hd : DistinctHashes P L) (hH : History P L s.logs)
    (hi : e.leader ∈ P.shardIDList) (horder : e.input.order.Perm P.shardIDList)
    (h : Running P L s.logs e.leader st) (hx : e.act P s = some x) :
    Fine P L s.logs e.leader (x st) := by
  have htail : ∀ {y : Act α Unit}, e.entry P s = some y → Fine P L s.logs e.leader ((y >>= fun _ =>
      Urd.handleStateTransition P e.leader (leaderOf P e.leader) e.input) st) := by
    intro y hy
    obtain ⟨r, st', hrun, h'⟩ := h.entry hs hd hH hi hy
    rcases r with err | u
    · rw [run_bind_error hrun]
      exact h'.fine hH _
    · rw [run_bind_ok hrun]
      exact h'.handleStateTransition hs hd hH hi horder
  cases e with
  | start i inp =>
    obtain rfl := Option.some.inj hx
    have hview : st.view ≠ 0 := Nat.ne_of_gt h.leading.pos
    unfold Urd.start
    rw [run_bind_ok (run_get st), if_neg hview]
    exact h.handleStateTransition hs hd hH hi horder
  | resume i inp =>
    obtain rfl := Option.some.inj hx
    exact htail rfl
  | deliver i j u inp =>
    obtain ⟨y, hy, rfl⟩ := Option.map_eq_some_iff.mp hx
    exact htail hy
  | vote i u index ok inp =>
    obtain ⟨y, hy, rfl⟩ := Option.map_eq_some_iff.mp hx
    exact htail hy

theorem SystemInv.call_of_log_eq (h : SystemInv P L s) (hlog : (x st).2.log = s.logs i)
    (hmember : ∀ st', settle (x st) = some st' → Member P L s.logs i st') :
    SystemInv P L
      { leaders := Function.update s.leaders i (settle (x st))
        logs := Function.update s.logs i (x st).2.log } := by
  have hlogs : Function.update s.logs i (x st).2.log = s.logs := by
    rw [hlog, Function.update_eq_self]
  refine h.call ?_ (hlogs.symm ▸ h.history) fun st' hst' => hlogs.symm ▸ hmember st' hst'
  rw [hlog]
  exact .refl _

/-- What an event does to a leader that has not started: `Start` starts it, and no other event
brings it any further. -/
theorem SystemInv.act_unstarted (hs : Setting P) (h : SystemInv P L s)
    (hi : e.leader ∈ P.shardIDList) (hempty : s.logs e.leader = newLog) {app : α}
    (hst : s.leaders e.leader = some (newState app)) (hhandling : s.handling e.leader = e.resumes)
    (hx : e.act P s = some x) (hlog : Log.Le (x (newState app)).2.log (L e.leader)) :
    SystemInv P L
      { leaders := Function.update s.leaders e.leader (settle (x (newState app)))
        logs := Function.update s.logs e.leader (x (newState app)).2.log } := by
  cases e with
  | start i inp =>
    obtain rfl := Option.some.inj hx
    have hfine := fine_start hs h.history hi hempty app inp
    refine h.call ?_ (hfine hlog).1 (hfine.member hlog)
    rw [hempty]
    exact Grows.start inp (newState app)
  | resume i inp =>
    rw [System.handling, hst] at hhandling
    cases hhandling
  | deliver i j u inp =>
    obtain ⟨y, hy, rfl⟩ := Option.map_eq_some_iff.mp hx
    obtain ⟨hj, m, hm, rfl⟩ := Event.entry_deliver_eq_some.mp hy
    rcases takeBytes_unstarted hs h.history hj.1 hm app with hrun | ⟨st', hrun, hinit, hnone, hlog'⟩
    · have hcall := run_bind_error (f := fun _ => handleStateTransition P i (leaderOf P i) inp) hrun
      refine h.call_of_log_eq ?_ fun st' hst' => .inl ⟨⟨app, ?_⟩, hempty⟩
      · exact (congrArg (·.2.log) hcall).trans hempty.symm
      · exact (Option.some.inj ((congrArg settle hcall).symm.trans hst')).symm
    · have hcall := (run_bind_ok (f := fun _ => handleStateTransition P i (leaderOf P i) inp)
        hrun).trans (handleStateTransition_unset (isProposer_leaderOf P i) hinit hnone inp)
      refine h.call_of_log_eq ?_ fun st'' hst'' => ?_
      · exact ((congrArg (·.2.log) hcall).trans hlog').trans hempty.symm
      · cases (congrArg settle hcall).symm.trans hst''
  | vote i u index ok inp =>
    obtain ⟨y, hy, rfl⟩ := Option.map_eq_some_iff.mp hx
    obtain ⟨b, hb, rfl⟩ := Option.map_eq_some_iff.mp hy
    rw [show s.logs i = newLog from hempty] at hb
    cases u <;> cases hb

/-- **Every event keeps the invariant** of a system whose histories go on to `L`. -/
theorem SystemInv.step (hs : Setting P) (hd : DistinctHashes P L) (h : SystemInv P L s)
    (hle : ∀ j, Log.Le (s'.logs j) (L j)) (hstep : systemStep P s e = some s') :
    SystemInv P L s' := by
  unfold systemStep at hstep
  split_ifs at hstep with hguard
  obtain ⟨hi, horder, hhandling⟩ := hguard
  obtain ⟨x, hx, hcall⟩ := Option.bind_eq_some_iff.mp hstep
  obtain ⟨st, hst, rfl⟩ := Option.map_eq_some_iff.mp hcall
  have hlog : Log.Le (x st).2.log (L e.leader) := by
    have hleader := hle e.leader
    simp only [Function.update_self] at hleader
    exact hleader
  rcases h.leaders _ hi st hst with ⟨⟨app, rfl⟩, hempty⟩ | hrun
  · exact h.act_unstarted hs hi hempty hst hhandling hx hlog
  · have hfine := hrun.act hs hd h.history hi horder hx
    exact h.call (hrun.leading.log ▸ grows_act hx st) (hfine hlog).1 (hfine.member hlog)

theorem systemInv_newSystem (P : Network α) (L : Str → Log α) (apps : Str → α) :
    SystemInv P L (newSystem apps) where
  history :=
    { le := fun _ => ⟨List.nil_prefix, List.nil_prefix⟩
      inStep := ⟨fun _ _ => le_rfl, fun _ _ _ _ => Nat.zero_le _⟩
      made := fun _ _ _ _ h => by cases h
      talks := fun _ _ _ _ h => by cases h }
  leaders i _ _ hst := .inl ⟨⟨apps i, (Option.some.inj hst).symm⟩, rfl⟩

theorem systemInv_run (hs : Setting P) {apps : Str → α} {es : List Event}
    (hrun : run (systemStep P) (newSystem apps) es = some s) (hd : DistinctHashes P s.logs) :
    SystemInv P s.logs s := by
  have hsynced : Synced (newSystem apps) := fun i st hst => by
    obtain rfl := Option.some.inj hst
    rfl
  exact run_invariant_along (fun s₁ e s₂ h hle hstep => h.step hs hd (hle s₂ hstep) hstep)
    (systemInv_newSystem P s.logs apps) (hsynced.along_le hrun) hrun

end

/-! ## A run of two shards -/

theorem setting_pairNetwork : Setting pairNetwork where
  nodup := by decide
  colon := by decide
  sum_length := length_polySum
  csm := csmCoder.roundTrips_codec
  leader := by decide
  verify _ _ msg := by
    show some (decide (indexSign 0 msg = [0] ++ msg)) = some true
    rw [decide_eq_true (show indexSign 0 msg = [0] ++ msg from rfl)]
  execution _ _ _ _ _ := rfl

instance (P : Network α) (L : Str → Log α) : Decidable (DistinctHashes P L) :=
  inferInstanceAs (Decidable (∀ i ∈ P.shardIDList, List.Nodup _))

def roundInput : Input := ⟨⟨0, 0⟩, [[1]], [[2], [3]], [[65], [66]]⟩

/-- In view `u` each leader gets a vote and talks, and then the message of the other one arrives. -/
def viewEvents (u : ℕ) : List Event :=
  let votes (i : Str) : List Event := [.vote i u 1 true roundInput, .resume i roundInput]
  let message (i j : Str) : List Event := [.deliver i j u roundInput, .resume i roundInput]
  votes [65] ++ votes [66] ++ message [65] [66] ++ message [66] [65]

/-- Both leaders start and go through the given number of views. -/
def pairRun (views : ℕ) : List Event :=
  [.start [65] roundInput, .start [66] roundInput] ++
    (List.range views).flatMap fun u => viewEvents (u + 1)

theorem run_pairRun_four :
    ∃ s, run (systemStep pairNetwork) (newSystem fun _ => 0) (pairRun 4) = some s ∧
      DistinctHashes pairNetwork s.logs ∧ (s.logs [66]).made.length = 5 := by
  obtain ⟨s, hrun, hs⟩ := Option.map_eq_some_iff.mp
    (show (run (systemStep pairNetwork) (newSystem fun _ => 0) (pairRun 4)).map
      (fun s => (decide (DistinctHashes pairNetwork s.logs), (s.logs [66]).made.length)) =
        some (true, 5) by decide +kernel)
  obtain ⟨hd, hlen⟩ := Prod.mk.inj hs
  exact ⟨s, hrun, of_decide_eq_true hd, hlen⟩

/-! ## Leaders in lockstep -/

section

variable {P : Network α} {L : Str → Log α} {s s' : System α} {i j : Str} {st : State α}
  {logs : Str → Log α}

/-- The leaders go through the views together. -/
structure InLockstep (P : Network α) (s : System α) : Prop where
  /-- the view of a leader is that of the last block it has made -/
  view : ∀ i ∈ P.shardIDList, ∀ st, s.leaders i = some st → st.view = (s.logs i).made.length
  /-- no leader is more than one view ahead, not even of one whose process has ended -/
  close : ∀ i ∈ P.shardIDList, ∀ j ∈ P.shardIDList,
    (s.logs i).made.length ≤ (s.logs j).made.length + 1
  /-- what a leader holds of a shard is the message of its view -/
  finished : ∀ i ∈ P.shardIDList, ∀ st, s.leaders i = some st → ∀ j m,
    st.blockData.finished j = some m → ∃ b, (s.logs j).block? st.view = some b ∧
      sent P s.logs j st.view i = some m ∧ m.aggVote.forHash = b.hash P.lib
  /-- a leader that goes on to the next view has all of them, and it makes a block -/
  propose : ∀ e, (systemStep P s e).isSome → ∀ x st st₁, e.entry P s = some x →
    s.leaders e.leader = some st → x st = (.ok (), st₁) → 1 ≤ st₁.view → st₁.step = .leaderWait →
      st₁.blockData.isCrossShardMessageComplete P.shardIDList = true →
      (∀ j ∈ P.shardIDList, ∃ m b, st₁.blockData.finished j = some m ∧
        (s.logs j).block? st₁.view = some b ∧ sent P s.logs j st₁.view e.leader = some m ∧
        m.aggVote.forHash = b.hash P.lib) ∧
      ∃ st₂, doPropose P e.leader (leaderOf P e.leader) e.input st₁ = (.ok (), st₂)

theorem History.exists_block (hH : History P L logs) (hj : j ∈ P.shardIDList) {u : ℕ}
    {m : CrossShardMessage} (hm : Urd.sent P logs j u i = some m) :
    ∃ b, (logs j).block? u = some b ∧ m.aggVote.forHash = b.hash P.lib := by
  obtain ⟨hpos, hle, hmsg⟩ := hH.sent hj hm
  have hclosed : (logs j).talks.length ≤ (logs j).made.length := hH.inStep.closed_le_opened j hj
  obtain ⟨w, rfl⟩ : ∃ w, u = w + 1 := ⟨u - 1, by omega⟩
  have hw : w < (logs j).made.length := by omega
  have hmk : (logs j).made[w]? = some (logs j).made[w] := List.getElem?_eq_getElem hw
  refine ⟨(logs j).made[w].block, by rw [Log.block?, hmk]; rfl, ?_⟩
  rw [hmsg.aggVote.forHash, (hH.le j).hashAt_eq (by omega), Log.hashAt_succ hmk]

theorem Leading.exists_finished (hH : History P L logs) (h : Leading P L logs i st)
    {m : CrossShardMessage} (hm : st.blockData.finished j = some m) :
    ∃ b, (logs j).block? st.view = some b ∧ sent P logs j st.view i = some m ∧
      m.aggVote.forHash = b.hash P.lib := by
  have hj : j ∈ P.shardIDList := by
    by_contra hj
    rw [h.foreign j hj] at hm
    cases hm
  rcases h.entry j hj with ⟨hnone, -⟩ | ⟨m', hsome, hsent, -⟩
  · rw [hnone] at hm
    cases hm
  · obtain rfl := Option.some.inj (hsome.symm.trans hm)
    obtain ⟨b, hb, hhash⟩ := hH.exists_block hj hsent
    exact ⟨b, hb, hsent, hhash⟩

/-- **Leaders run in lockstep**, whatever the order in which votes and messages arrive. -/
theorem inLockstep_run (hs : Setting P) {apps : Str → α} {es : List Event}
    (hrun : run (systemStep P) (newSystem apps) es = some s) (hd : DistinctHashes P s.logs) :
    InLockstep P s := by
  have hinv := systemInv_run hs hrun hd
  have hH := hinv.history
  refine ⟨fun i hi st hst => ?_, fun i hi j hj => hH.inStep.opened_le hi hj,
    fun i hi st hst j m hm => ?_, fun e he x st st₁ hx hst hx₁ hpos hwait hcomplete => ?_⟩
  · rcases hinv.leaders i hi st hst with ⟨⟨app, rfl⟩, hempty⟩ | h
    · rw [hempty]
      rfl
    · exact h.leading.view.symm
  · rcases hinv.leaders i hi st hst with ⟨⟨app, rfl⟩, -⟩ | h
    · cases hm
    · exact h.leading.exists_finished hH hm
  · have hi : e.leader ∈ P.shardIDList := by
      unfold systemStep at he
      split_ifs at he with hguard
      · exact hguard.1
      · cases he
    rcases hinv.leaders _ hi st hst with ⟨⟨app, rfl⟩, hempty⟩ | h
    · exact absurd (entry_unstarted hs hH hempty hx hx₁) (by rw [hwait]; exact nofun)
    · obtain ⟨r, st', hrun', h'⟩ := h.entry hs hd hH hi hx
      obtain rfl := (Prod.mk.inj (hx₁.symm.trans hrun')).2
      obtain ⟨st₂, hpropose, -⟩ := (h'.leading.ready hcomplete).doPropose hs hH hi e.input
      refine ⟨fun j hj => ?_, st₂, hpropose⟩
      obtain ⟨m, hm, -⟩ := (h'.leading.ready hcomplete).finished hpos j hj
      obtain ⟨b, hb, hsent, hhash⟩ := h'.leading.exists_finished hH hm
      exact ⟨m, b, hm, hb, hsent, hhash⟩

/-- Two shards whose leaders have made five blocks each. -/
theorem inLockstep_pairRun : Setting pairNetwork ∧
    ∃ s, run (systemStep pairNetwork) (newSystem fun _ => 0) (pairRun 4) = some s ∧
      DistinctHashes pairNetwork s.logs ∧ InLockstep pairNetwork s := by
  obtain ⟨s, hrun, hd, -⟩ := run_pairRun_four
  exact ⟨setting_pairNetwork, s, hrun, hd, inLockstep_run setting_pairNetwork hrun hd⟩

/-! ## Delivery of relays -/

theorem History.madeAt (hH : History P L logs) (hi : i ∈ P.shardIDList) {v : ℕ} (hv : 1 ≤ v)
    {mk : Made α} (hmk : (logs i).made[v - 1]? = some mk) : MadeAt P L i v mk := by
  have hat := hH.made i hi (v - 1) mk hmk
  rwa [Nat.sub_add_cancel hv] at hat

/-- **Relays arrive.** What shard `j` puts into its block of view `m` at the index of shard `i` is
the relay list that the execution of block `m - 4` of `i` returned for `j` while `i` made its block
`m - 2`, with a proof from that block. -/
theorem relay_delivered (hs : Setting P) {apps : Str → α} {es : List Event}
    (hrun : run (systemStep P) (newSystem apps) es = some s) (hd : DistinctHashes P s.logs)
    (hi : i ∈ P.shardIDList) (hj : j ∈ P.shardIDList) {m : ℕ} (hm : 5 ≤ m) {mk : Made α}
    (hmk : (s.logs j).made[m - 1]? = some mk) :
    ∃ mk' b txs proof, (s.logs i).made[m - 3]? = some mk' ∧ mk'.executed = some b ∧
      (s.logs i).block? (m - 4) = some b ∧
      mk'.opTxs = (P.execution i mk'.app (b.ptxs.getD []) (b.crossShardTxs.getD []) b.ctxs).1 ∧
      mk'.opTxs[P.shardIDList.idxOf j]? = some txs ∧
      mk.block.ctxs[P.shardIDList.idxOf i]? = some txs ∧
      mk'.block.getOutputTxsProofOf P.lib (P.shardIDList.idxOf j) = some proof ∧
      mk.block.ctxsProof[P.shardIDList.idxOf i]? = some proof := by
  have hH := (systemInv_run hs hrun hd).history
  obtain ⟨csms, hcsms, -, hcc⟩ := (hH.madeAt hj (by omega) hmk).intention (by omega)
  obtain ⟨-, hctxs, hproofs⟩ := hcc hm
  obtain ⟨msg, hmsg, hsent⟩ := exists_getElem?_of_forall₂ hcsms (List.getElem?_idxOf hi)
  obtain ⟨mk', ci, p, q, hmk', -, -, hq, htxs, -, -, houtput⟩ :=
    (hH.sent hi hsent).2.2.relay (by omega)
  rw [show m - 1 - 2 = m - 3 by omega] at hmk'
  have hat := hH.madeAt hi (v := m - 2) (by omega) (by rwa [show m - 2 - 1 = m - 3 by omega])
  obtain ⟨b, hb⟩ : ∃ b, (s.logs i).block? (m - 4) = some b := by
    obtain ⟨w, hw⟩ : ∃ w, m - 4 = w + 1 := ⟨m - 5, by omega⟩
    have hlt := (List.getElem?_eq_some_iff.mp hmk').1
    rw [hw, Log.block?, List.getElem?_eq_getElem (by omega)]
    exact ⟨_, rfl⟩
  have hexecuted : mk'.executed = some b := by
    rw [hat.executed, show m - 2 - 2 = m - 4 by omega, hb]
  have hreturned := hat.returned
  unfold Executed.Returned at hreturned
  rw [hexecuted] at hreturned
  refine ⟨mk', b, msg.oPTXs, q, hmk', hexecuted, hb, hreturned, htxs, ?_, hq, ?_⟩
  · rw [hctxs, List.getElem?_map, hmsg]
    rfl
  · obtain ⟨proof, hproof, hmsg'⟩ := exists_getElem?_of_forall₂ (mapM_eq_some_iff.mp hproofs) hmsg
    rw [hproof, ← hmsg', houtput]

/-- The fifth block of the second shard has the relay list that the execution of the first block of
the first shard returned. -/
theorem relay_delivered_pairRun :
    ∃ s mk, Setting pairNetwork ∧
      run (systemStep pairNetwork) (newSystem fun _ => 0) (pairRun 4) = some s ∧
      DistinctHashes pairNetwork s.logs ∧ [65] ∈ pairNetwork.shardIDList ∧
      [66] ∈ pairNetwork.shardIDList ∧ (s.logs [66]).made[5 - 1]? = some mk ∧
      ∃ mk' b txs, (s.logs [65]).made[5 - 3]? = some mk' ∧ mk'.executed = some b ∧
        (s.logs [65]).block? (5 - 4) = some b ∧
        mk'.opTxs[pairNetwork.shardIDList.idxOf [66]]? = some txs ∧
        mk.block.ctxs[pairNetwork.shardIDList.idxOf [65]]? = some txs := by
  obtain ⟨s, hrun, hd, hlen⟩ := run_pairRun_four
  have hmk : (s.logs [66]).made[5 - 1]? = some _ := List.getElem?_eq_getElem (by omega)
  have h₁ : [65] ∈ pairNetwork.shardIDList := by decide
  have h₂ : [66] ∈ pairNetwork.shardIDList := by decide
  obtain ⟨mk', b, txs, -, hmk', hexecuted, hb, -, htxs, hctxs, -, -⟩ :=
    relay_delivered setting_pairNetwork hrun hd h₁ h₂ le_rfl hmk
  exact ⟨s, _, setting_pairNetwork, hrun, hd, h₁, h₂, hmk, mk', b, txs, hmk', hexecuted, hb, htxs,
    hctxs⟩

end

end Emulator.Urd
