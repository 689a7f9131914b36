import Emulator.Core.Tally
import Emulator.Urd.Proposing

/-!
# One certificate a view

A leader sums up the votes for its block in one aggregated vote. If it proposes several blocks in a
view, or if two nodes lead, a correct validator still signs an OK vote for one of them only, so two
certificates for different blocks need faulty validators in all that their quorums share. As the
threshold is rounded down, this is `2⌊2W/3⌋ - W` of the total weight `W`, which for four validators
of equal weight is nothing.

* `certificate_unique` — with fewer faulty validators, the certificates of a view are for one block.
-/

namespace Emulator.Urd

open HotStuff Quorum

variable {α : Type} {P : Network α} {peers : List Peer} {view : ℤ} {vs vs' : List Vote}
  {a a' : AggregatedVote}

/-- `getMaj23` makes the OK certificate `a` of the votes. -/
structure Certificate (P : Network α) (peers : List Peer) (view : ℤ) (vs : List Vote)
    (a : AggregatedVote) : Prop where
  isOK : a.isOK = true
  of : ∃ round hash hdp, getMaj23 P.bls
    (addVotes P.bls P.lib.vote (startPackage peers view round hash) vs) = some (a, hdp)

/-- The signers of a certificate, with their OK votes for its block. -/
theorem Certificate.exists_quorum (h : Certificate P peers view vs a) :
    ∃ S ⊆ validators peers, 2 * totalWeight peers / 3 ≤ weight (weightAt peers) S ∧ ∀ i ∈ S,
      ∃ v ∈ vs, v.validatorIndex = i ∧ v.view = view ∧ v.forHash = a.forHash ∧ v.isOK = true := by
  obtain ⟨round, hash, hdp, hmaj⟩ := h.of
  have ha := aggregated_of_getMaj23 hmaj
  refine ⟨signerSet peers a, Finset.filter_subset _ _, ha.threshold_signerSet, fun i hi => ?_⟩
  rw [ha.signerSet_eq, h.isOK] at hi
  obtain ⟨v, hv, hok⟩ := mem_sideSet.mp hi
  have hcounted := counted_addVotes P.bls P.lib.vote peers view round hash vs
  obtain ⟨hacc, hindex⟩ := (hcounted.accepted i v).mp hv
  refine ⟨v, mem_of_mem_accepted hacc, hindex, (hcounted.stored i v hv).1.trans hcounted.view, ?_,
    hok⟩
  rw [ha.forHash i v hv, ha.of.forHash]

/-- **One certificate a view.** Let the OK votes of correct validators in two certificates of a view
be ones that they have signed, whatever messages they got. If the other validators are lighter than
what any two quorums share, both certificates are for the same block. -/
theorem certificate_unique (h : Certificate P peers view vs a) (h' : Certificate P peers view vs' a')
    (me : Str) (correct : Finset ℕ) (app : ℕ → α) (es : ℕ → List NodeEvent) (nodes : ℕ → Node α)
    (hrun : ∀ i ∈ correct, run (nodeStep P me i) (newNode (app i)) (es i) = some (nodes i))
    (hsigned : ∀ i ∈ correct, ∀ v ∈ vs ++ vs', v.validatorIndex = i → v.isOK = true →
      v ∈ (nodes i).state.log.votes)
    (hlight : totalWeight peers + weight (weightAt peers) (validators peers \ correct) <
      2 * (2 * totalWeight peers / 3)) : a.forHash = a'.forHash := by
  obtain ⟨S, hS, hweight, hvotes⟩ := h.exists_quorum
  obtain ⟨S', hS', hweight', hvotes'⟩ := h'.exists_quorum
  by_contra hne
  -- what the two quorums share is faulty, and too light for that
  have hfaulty : S ∩ S' ⊆ validators peers \ correct := by
    intro i hi
    rw [Finset.mem_inter] at hi
    refine Finset.mem_sdiff.mpr ⟨hS hi.1, fun hcorrect => hne ?_⟩
    obtain ⟨v, hv, hvi, hview, hhash, hok⟩ := hvotes i hi.1
    obtain ⟨v', hv', hvi', hview', hhash', hok'⟩ := hvotes' i hi.2
    have hincrease := run_progress (J := (·.VotesIncrease (isProposer P me i)))
      (fun _ _ => Progress.VotesIncrease.move) ⟨List.Pairwise.nil, nofun⟩ (hrun i hcorrect)
    have hmem := hsigned i hcorrect v (List.mem_append_left _ hv) hvi hok
    have hmem' := hsigned i hcorrect v' (List.mem_append_right _ hv') hvi' hok'
    have hsame : v = v' :=
      List.inj_on_of_nodup_map (List.pairwise_map.mpr (hincrease.sorted.imp ne_of_lt))
        (List.mem_filter.mpr ⟨hmem, hok⟩) (List.mem_filter.mpr ⟨hmem', hok'⟩)
        (hview.trans hview'.symm)
    rw [← hhash, ← hhash', hsame]
  have hinter := weight_add_le (weightAt peers) hS hS'
  have hle := weight_mono (weightAt peers) hfaulty
  unfold totalWeight at *
  omega

def soloPeers : List Peer := ((soloNetwork [3]).shards [65]).peerList

/-- A single validator certifies the block that it has proposed, and no other one. -/
theorem certificate_unique_solo :
    ∃ n a, run (nodeStep (soloNetwork [3]) [65] 0) (newNode 0) [.start soloInput] = some n ∧
      Certificate (soloNetwork [3]) soloPeers 1 n.state.log.votes a ∧
      ∀ vs' a', (∀ v ∈ vs', v ∈ n.state.log.votes) →
        Certificate (soloNetwork [3]) soloPeers 1 vs' a' → a.forHash = a'.forHash := by
  have hrun : (run (nodeStep (soloNetwork [3]) [65] 0) (newNode 0) [.start soloInput]).any fun n =>
      (getMaj23 concatBls (addVotes concatBls polyLib.vote (startPackage soloPeers 1 0
        ((firstBlock [3]).hash polyLib)) n.state.log.votes)).any (·.1.isOK) := by decide +kernel
  obtain ⟨n, hn, hmaj⟩ := (Option.any_eq_true _ _).mp hrun
  obtain ⟨⟨a, hdp⟩, ha, hok⟩ := (Option.any_eq_true _ _).mp hmaj
  have hcert : Certificate (soloNetwork [3]) soloPeers 1 n.state.log.votes a := ⟨hok, 0, _, hdp, ha⟩
  refine ⟨n, a, hn, hcert, fun vs' a' hvs' hcert' => ?_⟩
  refine certificate_unique hcert hcert' [65] {0} (fun _ => 0) (fun _ => [.start soloInput])
    (fun _ => n) (fun i hi => ?_) (fun i _ v hv _ _ => ?_) (by decide)
  · obtain rfl := Finset.mem_singleton.mp hi
    exact hn
  · exact (List.mem_append.mp hv).elim id (hvs' v)

end Emulator.Urd
