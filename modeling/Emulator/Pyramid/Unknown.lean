import Emulator.Pyramid.Locks

/-!
# Commits of blocks that are not there

A commit or abort can name a block that this shard has not accepted, or has never seen. It should
then be answered with an abort and be left out. For a block that is stored but not accepted it is. A
hash with nothing stored under it gives `NewBlockFromBytes` no bytes, which is a message without a
header, and the whole call panics: the check for this case is commented out in the source.

* `Skips` — the call answers as if the hashes that are not held were not there.
* `commitAll_skips` — the loop does, as long as it finds a block for every hash.
* `acceptCommitShard_skips_iff` — the call does exactly when every hash has a block.
-/

namespace Emulator.Pyramid.Minibank

open Emulator.Action Emulator.Minibank

variable {app : Application} {chainID : Str}

/-- The shard has stored the block of the entry and accepted it. -/
def AppState.holds (s : AppState) (e : Bytes × Bool) : Bool :=
  (s.blocks e.1).isSome && s.accepted e.1

/-- The receipt of an entry that is left out. -/
def abortReceipt : Receipt := { code := codeTypeAbort, log := [] }

/-- The call succeeds, entries that are not held get an abort, and the rest, the state included, is
as in a call without them. -/
def Skips (app : Application) (entries : List (Bytes × Bool)) (chainID : Str) (s : AppState) : Prop :=
  ∃ rs s', acceptCommitShard app entries chainID s = (.ok rs, s') ∧ rs.length = entries.length ∧
    (∀ p ∈ entries.zip rs, s.holds p.1 = false → p.2 = abortReceipt) ∧
    acceptCommitShard app (entries.filter s.holds) chainID s =
      (.ok (((entries.zip rs).filter fun p => s.holds p.1).map Prod.snd), s')

/-! ## One turn of the loop -/

/-- What one turn of the loop of `AcceptCommitShard` can do. -/
inductive Commits (hash : Bytes) (c : Committing) : Except BankError Receipt × Committing → Prop
  | missing (hnone : c.app.blocks hash = none) : Commits hash c (.error .panic, c)
  | skipped (hstored : (c.app.blocks hash).isSome = true) (hmark : c.app.accepted hash = false) :
    Commits hash c (.ok abortReceipt, c)
  | settled (hstored : (c.app.blocks hash).isSome = true) (hmark : c.app.accepted hash = true)
    {r : Receipt} {c' : Committing} (hblocks : c'.app.blocks = c.app.blocks)
    (haccepted : c'.app.accepted = c.app.accepted) : Commits hash c (.ok r, c')

theorem commits_commitOne (app : Application) (chainID : Str) (hash : Bytes) (commit : Bool)
    (c : Committing) : Commits hash c (commitOne app chainID hash commit c) := by
  generalize hrun : commitOne app chainID hash commit c = out
  cases hb : c.app.blocks hash with
  | none =>
    have hpanic : commitOne app chainID hash commit c = (.error .panic, c) := by
      unfold commitOne
      rw [hb]
    rw [← hrun, hpanic]
    exact .missing hb
  | some block =>
    have hstored : (c.app.blocks hash).isSome = true := by rw [hb]; rfl
    cases hmark : c.app.accepted hash with
    | false =>
      have hskip : commitOne app chainID hash commit c = (.ok abortReceipt, c) := by
        unfold commitOne
        rw [hb]
        simp only [hmark]
        rfl
      rw [← hrun, hskip]
      exact .skipped hstored hmark
    | true =>
      have hsettle : settle app chainID hash commit c.writeSync =
          some (c.writeSync.settle (commitSet app chainID block) commit) := by
        have hb' : c.writeSync.blocks hash = some block := hb
        have hmark' : c.writeSync.accepted hash = true := hmark
        rw [settle, hb', Option.map_some, if_pos hmark']
      obtain ⟨r, c', hok⟩ := exists_commitOne hsettle
      obtain ⟨hblocks, haccepted⟩ := settle_frame (commitOne_ok hok)
      rw [← hrun, hok]
      exact .settled hstored hmark hblocks haccepted

theorem holds_congr {s s' : AppState} (hblocks : s'.blocks = s.blocks)
    (haccepted : s'.accepted = s.accepted) : s'.holds = s.holds := by
  funext e
  rw [AppState.holds, AppState.holds, hblocks, haccepted]

/-! ## The loop -/

/-- A loop that comes to its end has found a block for every hash. -/
theorem stored_of_commitAll {entries : List (Bytes × Bool)} {c c' : Committing} {rs : List Receipt}
    (h : mapEach (fun e => commitOne app chainID e.1 e.2) entries c = (.ok rs, c')) :
    ∀ e ∈ entries, (c.app.blocks e.1).isSome = true := by
  induction entries generalizing c c' rs with
  | nil => simp
  | cons e entries ih =>
    obtain ⟨r, c₁, hone, h⟩ := bind_eq_ok.mp h
    obtain ⟨rs', c₂, hrest, -⟩ := bind_eq_ok.mp h
    have hone : commitOne app chainID e.1 e.2 c = (.ok r, c₁) := hone
    have hcases := commits_commitOne app chainID e.1 e.2 c
    rw [hone] at hcases
    have hrest' := ih hrest
    cases hcases with
    | skipped hstored hmark => exact List.forall_mem_cons.mpr ⟨hstored, hrest'⟩
    | settled hstored hmark hblocks haccepted =>
      rw [hblocks] at hrest'
      exact List.forall_mem_cons.mpr ⟨hstored, hrest'⟩

theorem commitAll_skips (app : Application) (chainID : Str) {entries : List (Bytes × Bool)}
    {c : Committing} (h : ∀ e ∈ entries, (c.app.blocks e.1).isSome = true) :
    ∃ rs c', mapEach (fun e => commitOne app chainID e.1 e.2) entries c = (.ok rs, c') ∧
      (∀ p ∈ entries.zip rs, c.app.holds p.1 = false → p.2 = abortReceipt) ∧
      mapEach (fun e => commitOne app chainID e.1 e.2) (entries.filter c.app.holds) c =
        (.ok (((entries.zip rs).filter fun p => c.app.holds p.1).map Prod.snd), c') := by
  induction entries generalizing c with
  | nil => exact ⟨[], c, rfl, by simp, rfl⟩
  | cons e entries ih =>
    obtain ⟨hstored, hrest⟩ := List.forall_mem_cons.mp h
    have hcases := commits_commitOne app chainID e.1 e.2 c
    generalize hone : commitOne app chainID e.1 e.2 c = out at hcases
    cases hcases with
    | missing hnone =>
      rw [hnone] at hstored
      cases hstored
    | skipped _ hmark =>
      obtain ⟨rs, c', hrun, hskip, hfilter⟩ := ih hrest
      have hout : c.app.holds e = false := by simp [AppState.holds, hmark]
      refine ⟨abortReceipt :: rs, c', ?_, ?_, ?_⟩
      · rw [mapEach, run_bind_ok hone, run_bind_ok hrun]
        rfl
      · exact List.forall_mem_cons.mpr ⟨fun _ => rfl, hskip⟩
      · simpa [hout] using hfilter
    | @settled _ hmark r c₁ hblocks haccepted =>
      have hholds := holds_congr hblocks haccepted
      obtain ⟨rs, c', hrun, hskip, hfilter⟩ := ih (c := c₁) (by rw [hblocks]; exact hrest)
      have hin : c.app.holds e = true := by simp [AppState.holds, hstored, hmark]
      rw [hholds] at hskip hfilter
      refine ⟨r :: rs, c', ?_, ?_, ?_⟩
      · rw [mapEach, run_bind_ok hone, run_bind_ok hrun]
        rfl
      · refine List.forall_mem_cons.mpr ⟨fun hno => ?_, hskip⟩
        rw [hin] at hno
        cases hno
      · rw [List.filter_cons_of_pos hin, mapEach, run_bind_ok hone, run_bind_ok hfilter]
        simp [hin]

/-! ## The call -/

/-- **Commits of unknown blocks.** For every state and every list of hashes with their commit flags,
the call succeeds and leaves out the hashes whose block is not held exactly when each of the hashes
has a block in the store. -/
theorem acceptCommitShard_skips_iff (app : Application) (entries : List (Bytes × Bool))
    (chainID : Str) (s : AppState) :
    Skips app entries chainID s ↔ ∀ e ∈ entries, (s.blocks e.1).isSome = true := by
  constructor
  · intro h
    obtain ⟨rs, s', hrun, -⟩ := h
    unfold acceptCommitShard at hrun
    split at hrun
    · next hloop => exact stored_of_commitAll hloop
    · cases hrun
  · intro h
    obtain ⟨rs, c', hrun, hskip, hfilter⟩ := commitAll_skips app chainID (c := ⟨s, []⟩) h
    refine ⟨rs, c'.writeSync, ?_, length_of_mapEach hrun, hskip, ?_⟩
    · unfold acceptCommitShard
      rw [hrun]
    · unfold acceptCommitShard
      rw [hfilter]

/-- The shard has accepted the payment from account 1 to account 2, and is asked to commit it
together with a block it does not know. -/
def commitWithUnknown : Except BankError (List Receipt) × AppState :=
  acceptCommitShard oneShard [([0], true), ([66, 1], true)] [73]
    (afterCalls [.accept (crossPayment 1) [73] true]).state

/-- The call panics, and the payment is not committed. -/
theorem not_skips_unknown :
    commitWithUnknown.1 = .error .panic ∧
    commitWithUnknown.2.lockedKeys [1] = some 999995 ∧ commitWithUnknown.2.store [1] = none ∧
    (acceptCommitShard oneShard [([66, 1], true)] [73]
      (afterCalls [.accept (crossPayment 1) [73] true]).state).2.store [1] = some 999995 ∧
    ¬Skips oneShard [([0], true), ([66, 1], true)] [73]
      (afterCalls [.accept (crossPayment 1) [73] true]).state := by
  have hpanic : commitWithUnknown.1 = .error .panic := by decide +kernel
  refine ⟨hpanic, by decide +kernel, by decide +kernel, by decide +kernel, fun h => ?_⟩
  obtain ⟨rs, s', hrun, -⟩ := h
  have hok : commitWithUnknown.1 = .ok rs := congrArg Prod.fst hrun
  rw [hpanic] at hok
  cases hok

end Emulator.Pyramid.Minibank
