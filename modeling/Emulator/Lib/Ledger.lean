import Mathlib.Algebra.BigOperators.Group.Finset.Basic
import Mathlib.Algebra.Order.BigOperators.Group.Finset
import Mathlib.Data.Finset.Dedup
import Mathlib.Data.Finset.Max
import Mathlib.Data.UInt
import Mathlib.Tactic.Ring

/-!
# Ledgers with 32-bit balances

A transfer reads every balance first and writes afterwards, so of several writes to one account
only the last one counts, and a credit overwrites a debit of the same account.

* `transfer_apply` — the balance of every account after such a transfer.
* `sum_transfer_eq_iff` — the total over any set of accounts that contains the ones touched is kept
  exactly when the transfer is `Balanced`.
* `complete_iff` — such a transfer does what posting its entries one by one does, on all balances,
  exactly when it is `Complete`.
-/

namespace Emulator.Ledger

variable {K V W : Type} [DecidableEq K]

/-! ## Sequences of writes -/

/-- Write the pairs into `f` from left to right. -/
def writeAll (f : K → V) (ws : List (K × V)) : K → V :=
  ws.foldl (fun f w => Function.update f w.1 w.2) f

/-- The value of the last pair for `k`. -/
def last? : List (K × V) → K → Option V
  | [], _ => none
  | w :: ws, k => (last? ws k).or (if w.1 = k then some w.2 else none)

variable {k : K} {bal : K → UInt32} {ws : List (K × V)} {credits l debits : List (K × UInt32)}

theorem writeAll_apply (f : K → V) (ws : List (K × V)) (k : K) :
    writeAll f ws k = (last? ws k).getD (f k) := by
  induction ws generalizing f with
  | nil => rfl
  | cons w ws ih =>
    show writeAll (Function.update f w.1 w.2) ws k = _
    rw [ih, last?]
    cases last? ws k with
    | some v => rfl
    | none =>
      by_cases h : w.1 = k
      · subst h
        simp
      · simp [h, Function.update_of_ne (Ne.symm h)]

theorem last?_append (ws ws' : List (K × V)) (k : K) :
    last? (ws ++ ws') k = (last? ws' k).or (last? ws k) := by
  induction ws with
  | nil => simp [last?]
  | cons w ws ih => rw [List.cons_append, last?, ih, last?, Option.or_assoc]

theorem last?_map (g : K → V → W) (ws : List (K × V)) (k : K) :
    last? (ws.map fun w => (w.1, g w.1 w.2)) k = (last? ws k).map (g k) := by
  induction ws with
  | nil => rfl
  | cons w ws ih =>
    rw [List.map_cons, last?, ih, last?]
    cases last? ws k with
    | some v => rfl
    | none =>
      by_cases h : w.1 = k
      · subst h
        simp
      · simp [h]

theorem last?_filter (p : K → Bool) (ws : List (K × V)) (k : K) :
    last? (ws.filter fun w => p w.1) k = if p k then last? ws k else none := by
  induction ws with
  | nil => simp [last?]
  | cons w ws ih =>
    by_cases hk : w.1 = k
    · subst hk
      cases hp : p w.1 <;> simp_all [last?]
    · cases hp : p w.1 <;> simp_all [last?]

theorem mem_of_last? {v : V} (h : last? ws k = some v) : (k, v) ∈ ws := by
  induction ws with
  | nil => cases h
  | cons w ws ih =>
    rw [last?, Option.or_eq_some_iff] at h
    rcases h with h | ⟨-, h⟩
    · exact List.mem_cons_of_mem w (ih h)
    · split at h
      · next hk =>
        cases h
        subst hk
        exact List.mem_cons_self
      · cases h

theorem last?_eq_none : last? ws k = none ↔ k ∉ ws.map Prod.fst := by
  induction ws with
  | nil => simp [last?]
  | cons w ws ih =>
    rw [last?, Option.or_eq_none_iff, ih]
    by_cases h : w.1 = k
    · simp [h]
    · simp [h, Ne.symm h]

/-- If all pairs for `k` agree, the last one is any of them. -/
theorem last?_eq_ite {v : V} (h : ∀ w ∈ ws, w.1 = k → w.2 = v) :
    last? ws k = if k ∈ ws.map Prod.fst then some v else none := by
  cases hl : last? ws k with
  | none => rw [if_neg (last?_eq_none.mp hl)]
  | some v' =>
    have hmem := mem_of_last? hl
    have hv : v' = v := h _ hmem rfl
    rw [if_pos (List.mem_map_of_mem hmem), hv]

/-- Without repetitions the last pair for a key is the only one. -/
theorem last?_of_mem (hnd : (ws.map Prod.fst).Nodup) {w : K × V} (hw : w ∈ ws) :
    last? ws w.1 = some w.2 := by
  cases h : last? ws w.1 with
  | none => exact absurd (List.mem_map_of_mem hw) (last?_eq_none.mp h)
  | some v =>
    have hv := mem_of_last? h
    have := List.inj_on_of_nodup_map hnd hv hw rfl
    rw [← this]

/-! ## Transfers -/

/-- Debit and credit, with every new balance computed from the balances before. -/
def transfer (bal : K → UInt32) (debits credits : List (K × UInt32)) : K → UInt32 :=
  writeAll bal (debits.map (fun d => (d.1, bal d.1 - d.2)) ++
    credits.map (fun c => (c.1, bal c.1 + c.2)))

theorem transfer_apply (bal : K → UInt32) (debits credits : List (K × UInt32)) (k : K) :
    transfer bal debits credits k =
      (((last? credits k).map (bal k + ·)).or ((last? debits k).map (bal k - ·))).getD (bal k) := by
  rw [transfer, writeAll_apply, last?_append, last?_map (fun k m => bal k + m),
    last?_map (fun k m => bal k - m)]

/-- The new balance of an account depends on its own old balance only. -/
theorem transfer_congr (debits credits : List (K × UInt32)) {bal' : K → UInt32}
    (h : bal k = bal' k) : transfer bal debits credits k = transfer bal' debits credits k := by
  rw [transfer_apply, transfer_apply, h]

/-- A transfer of which only the accounts in `p` take part. -/
theorem transfer_filter (bal : K → UInt32) (debits credits : List (K × UInt32)) (p : K → Bool)
    (k : K) : transfer bal (debits.filter fun d => p d.1) (credits.filter fun c => p c.1) k =
      if p k then transfer bal debits credits k else bal k := by
  rw [transfer_apply, transfer_apply, last?_filter, last?_filter]
  cases p k <;> rfl

theorem forall_mem_iff_last? (hnd : (ws.map Prod.fst).Nodup) {P : V → Prop} :
    (∀ w ∈ ws, w.1 = k → P w.2) ↔ ∀ v, last? ws k = some v → P v := by
  constructor
  · exact fun h v hv => h (k, v) (mem_of_last? hv) rfl
  · rintro h w hw rfl
    exact h w.2 (last?_of_mem hnd hw)

section

variable (hnd : (debits.map Prod.fst ++ credits.map Prod.fst).Nodup)

include hnd

theorem transfer_debit {d : K × UInt32} (hd : d ∈ debits) :
    transfer bal debits credits d.1 = bal d.1 - d.2 := by
  obtain ⟨hdebits, -, hdisj⟩ := List.nodup_append.mp hnd
  have hno : last? credits d.1 = none := last?_eq_none.mpr fun h =>
    hdisj d.1 (List.mem_map_of_mem hd) d.1 h rfl
  rw [transfer_apply, hno, last?_of_mem hdebits hd]
  rfl

theorem transfer_credit {c : K × UInt32} (hc : c ∈ credits) :
    transfer bal debits credits c.1 = bal c.1 + c.2 := by
  obtain ⟨-, hcredits, -⟩ := List.nodup_append.mp hnd
  rw [transfer_apply, last?_of_mem hcredits hc]
  rfl

/-- With distinct accounts, a balance stays the same exactly when the amount is zero. -/
theorem transfer_eq_self_iff :
    transfer bal debits credits k = bal k ↔ ∀ e ∈ debits ++ credits, e.1 = k → e.2 = 0 := by
  obtain ⟨hd, hc, hdisj⟩ := List.nodup_append.mp hnd
  rw [List.forall_mem_append, forall_mem_iff_last? (P := (· = 0)) hd,
    forall_mem_iff_last? (P := (· = 0)) hc, transfer_apply]
  cases hcr : last? credits k with
  | some m =>
    have hno : last? debits k = none := last?_eq_none.mpr fun h =>
      hdisj k h k (List.mem_map_of_mem (mem_of_last? hcr)) rfl
    simp [hno]
  | none => cases last? debits k <;> simp

end

def accounts (l : List (K × UInt32)) : Finset K := (l.map Prod.fst).toFinset

/-- What account `k` loses: its last debit, unless it is also credited. -/
def lost (debits credits : List (K × UInt32)) (k : K) : ℕ :=
  if (last? credits k).isSome then 0 else ((last? debits k).map UInt32.toNat).getD 0

/-- What account `k` is credited with: its last credit. -/
def gained (credits : List (K × UInt32)) (k : K) : ℕ :=
  ((last? credits k).map UInt32.toNat).getD 0

/-- The credited accounts whose new balance does not fit in 32 bits. -/
def overflowing (bal : K → UInt32) (credits : List (K × UInt32)) : Finset K :=
  (accounts credits).filter fun k => 2 ^ 32 ≤ (bal k).toNat + gained credits k

theorem mem_overflowing {m : UInt32} (h : last? credits k = some m) :
    k ∈ overflowing bal credits ↔ 2 ^ 32 ≤ (bal k).toNat + m.toNat := by
  have hmem : k ∈ accounts credits := List.mem_toFinset.mpr (List.mem_map_of_mem (mem_of_last? h))
  rw [overflowing, Finset.mem_filter, gained, h]
  exact and_iff_right hmem

/-- What is lost, and what the overflows drop, add up to what is credited. -/
def Balanced (bal : K → UInt32) (debits credits : List (K × UInt32)) : Prop :=
  ∑ k ∈ accounts debits, lost debits credits k + 2 ^ 32 * (overflowing bal credits).card =
    ∑ k ∈ accounts credits, gained credits k

instance (bal : K → UInt32) (debits credits : List (K × UInt32)) :
    Decidable (Balanced bal debits credits) := inferInstanceAs (Decidable (_ = _))

theorem toNat_transfer (hfunds : ∀ d ∈ debits, d.2 ≤ bal d.1) (k : K) :
    (transfer bal debits credits k).toNat + lost debits credits k +
        (if k ∈ overflowing bal credits then 2 ^ 32 else 0) =
      (bal k).toNat + gained credits k := by
  rw [transfer_apply, lost, gained]
  have hlt := (bal k).toNat_lt
  cases hc : last? credits k with
  | some m =>
    have hm := m.toNat_lt
    simp only [mem_overflowing hc, Option.map_some, Option.some_or, Option.getD_some,
      Option.isSome_some, if_true, UInt32.toNat_add]
    split_ifs <;> omega
  | none =>
    have hno : k ∉ overflowing bal credits := by
      intro h
      have := List.mem_toFinset.mp (Finset.mem_filter.mp h).1
      exact last?_eq_none.mp hc this
    cases hd : last? debits k with
    | some m =>
      have hle : m ≤ bal k := hfunds _ (mem_of_last? hd)
      have hsub := UInt32.toNat_sub_of_le _ _ hle
      have hle' : m.toNat ≤ (bal k).toNat := UInt32.le_iff_toNat_le.mp hle
      simp only [hno, Option.map_none, Option.map_some, Option.none_or, Option.getD_some,
        Option.getD_none, Option.isSome_none, if_false, hsub, Bool.false_eq_true]
      omega
    | none => simp [hno]

theorem sum_eq_sum_accounts {f : K → ℕ} {S : Finset K} (hS : accounts l ⊆ S)
    (hf : ∀ k, k ∉ accounts l → f k = 0) : ∑ k ∈ S, f k = ∑ k ∈ accounts l, f k :=
  (Finset.sum_subset hS fun k _ hk => hf k hk).symm

/-- What a transfer whose debits are covered does to the total over a set of accounts that contains
its own. -/
theorem sum_transfer (hfunds : ∀ d ∈ debits, d.2 ≤ bal d.1) {S : Finset K}
    (hd : accounts debits ⊆ S) (hc : accounts credits ⊆ S) :
    ∑ k ∈ S, (transfer bal debits credits k).toNat +
        ∑ k ∈ accounts debits, lost debits credits k + 2 ^ 32 * (overflowing bal credits).card =
      ∑ k ∈ S, (bal k).toNat + ∑ k ∈ accounts credits, gained credits k := by
  have hsum : ∑ k ∈ S, (transfer bal debits credits k).toNat +
      ∑ k ∈ S, lost debits credits k +
        ∑ k ∈ S, (if k ∈ overflowing bal credits then 2 ^ 32 else 0) =
      ∑ k ∈ S, (bal k).toNat + ∑ k ∈ S, gained credits k := by
    rw [← Finset.sum_add_distrib, ← Finset.sum_add_distrib, ← Finset.sum_add_distrib]
    exact Finset.sum_congr rfl fun k _ => toNat_transfer hfunds k
  have hlost : ∑ k ∈ S, lost debits credits k = ∑ k ∈ accounts debits, lost debits credits k := by
    refine sum_eq_sum_accounts hd fun k hk => ?_
    have : last? debits k = none := last?_eq_none.mpr fun h => hk (List.mem_toFinset.mpr h)
    simp [lost, this]
  have hgained : ∑ k ∈ S, gained credits k = ∑ k ∈ accounts credits, gained credits k := by
    refine sum_eq_sum_accounts hc fun k hk => ?_
    have : last? credits k = none := last?_eq_none.mpr fun h => hk (List.mem_toFinset.mpr h)
    simp [gained, this]
  have hover : ∑ k ∈ S, (if k ∈ overflowing bal credits then 2 ^ 32 else 0) =
      2 ^ 32 * (overflowing bal credits).card := by
    have hsub : overflowing bal credits ⊆ S := fun k h => hc (Finset.mem_filter.mp h).1
    rw [← Finset.sum_filter, Finset.filter_mem_eq_inter, Finset.inter_eq_right.mpr hsub,
      Finset.sum_const_nat fun _ _ => rfl, Nat.mul_comm]
  rwa [hlost, hgained, hover] at hsum

/-- **Conservation.** A transfer whose debits are covered keeps the total over a set of accounts
that contains its own exactly when it is balanced. -/
theorem sum_transfer_eq_iff (hfunds : ∀ d ∈ debits, d.2 ≤ bal d.1) {S : Finset K}
    (hd : accounts debits ⊆ S) (hc : accounts credits ⊆ S) :
    ∑ k ∈ S, (transfer bal debits credits k).toNat = ∑ k ∈ S, (bal k).toNat ↔
      Balanced bal debits credits := by
  have hsum := sum_transfer hfunds hd hc
  unfold Balanced
  omega

/-- With distinct accounts and no overflow, every amount of the transfer counts. -/
theorem sum_transfer_of_nodup (hnd : (debits.map Prod.fst ++ credits.map Prod.fst).Nodup)
    (hfunds : ∀ d ∈ debits, d.2 ≤ bal d.1)
    (hfit : ∀ c ∈ credits, (bal c.1).toNat + c.2.toNat < 2 ^ 32) {S : Finset K}
    (hdS : accounts debits ⊆ S) (hcS : accounts credits ⊆ S) :
    ∑ k ∈ S, (transfer bal debits credits k).toNat + (debits.map fun d => d.2.toNat).sum =
      ∑ k ∈ S, (bal k).toNat + (credits.map fun c => c.2.toNat).sum := by
  obtain ⟨hd, hc, hdisj⟩ := List.nodup_append.mp hnd
  have hover : overflowing bal credits = ∅ := by
    refine Finset.filter_eq_empty_iff.mpr fun k hk => ?_
    obtain ⟨c, hmem, rfl⟩ := List.mem_map.mp (List.mem_toFinset.mp hk)
    have := hfit c hmem
    simp only [gained, last?_of_mem hc hmem, Option.map_some, Option.getD_some]
    omega
  have hlost : ∑ k ∈ accounts debits, lost debits credits k =
      (debits.map fun d => d.2.toNat).sum := by
    rw [accounts, List.sum_toFinset _ hd, List.map_map]
    refine congrArg List.sum (List.map_congr_left fun d hmem => ?_)
    have hnone : last? credits d.1 = none :=
      last?_eq_none.mpr fun h => hdisj _ (List.mem_map_of_mem hmem) _ h rfl
    simp [lost, hnone, last?_of_mem hd hmem]
  have hgained : ∑ k ∈ accounts credits, gained credits k =
      (credits.map fun c => c.2.toNat).sum := by
    rw [accounts, List.sum_toFinset _ hc, List.map_map]
    refine congrArg List.sum (List.map_congr_left fun c hmem => ?_)
    simp [gained, last?_of_mem hc hmem]
  have hsum := sum_transfer hfunds hdS hcS
  rwa [hover, hlost, hgained, Finset.card_empty, Nat.mul_zero, Nat.add_zero] at hsum

/-! ## Posting every entry

On a ledger that is kept entry by entry, every debit is subtracted and every credit is added, also
if an account occurs more than once. -/

/-- The amounts of the entries for account `k`. -/
def entriesOf (l : List (K × UInt32)) (k : K) : List UInt32 :=
  (l.filter fun e => e.1 = k).map Prod.snd

/-- What the entries for account `k` add up to. -/
def charged (l : List (K × UInt32)) (k : K) : ℕ := ((entriesOf l k).map UInt32.toNat).sum

/-- Every account has what its debits add up to. -/
def Covered (bal : K → UInt32) (debits : List (K × UInt32)) : Prop :=
  ∀ d ∈ debits, charged debits d.1 ≤ (bal d.1).toNat

instance (bal : K → UInt32) (debits : List (K × UInt32)) : Decidable (Covered bal debits) :=
  inferInstanceAs (Decidable (∀ d ∈ debits, _))

/-- The change of account `k`, with every entry counted. -/
def net (debits credits : List (K × UInt32)) (k : K) : UInt32 :=
  (entriesOf credits k).sum - (entriesOf debits k).sum

/-- Every debit is subtracted and every credit added. -/
def post (bal : K → UInt32) (debits credits : List (K × UInt32)) (k : K) : UInt32 :=
  bal k + net debits credits k

/-- The change of account `k` in a `transfer`: only its last entry counts. -/
def written (debits credits : List (K × UInt32)) (k : K) : UInt32 :=
  ((last? credits k).or ((last? debits k).map (- ·))).getD 0

theorem transfer_eq_add (bal : K → UInt32) (debits credits : List (K × UInt32)) (k : K) :
    transfer bal debits credits k = bal k + written debits credits k := by
  rw [transfer_apply, written]
  cases last? credits k with
  | some m => rfl
  | none =>
    cases last? debits k with
    | some m => simp [sub_eq_add_neg]
    | none => simp

/-- A transfer does what posting its entries does: the debits of an account are as good as a single
one, and its last entry brings the change that all its entries make together. -/
structure Complete (debits credits : List (K × UInt32)) : Prop where
  single : ∀ d ∈ debits, ∃ e ∈ debits, e.1 = d.1 ∧ charged debits d.1 = e.2.toNat
  last : ∀ e ∈ debits ++ credits, written debits credits e.1 = net debits credits e.1

theorem mem_entriesOf {e : K × UInt32} (he : e ∈ l) : e.2 ∈ entriesOf l e.1 :=
  List.mem_map_of_mem (List.mem_filter.mpr ⟨he, decide_eq_true rfl⟩)

theorem le_charged {e : K × UInt32} (he : e ∈ l) : e.2.toNat ≤ charged l e.1 :=
  List.single_le_sum (fun _ _ => Nat.zero_le _) _ (List.mem_map_of_mem (mem_entriesOf he))

theorem entriesOf_eq_nil (hk : k ∉ l.map Prod.fst) : entriesOf l k = [] := by
  have hfilter : l.filter (fun e => decide (e.1 = k)) = [] := by
    rw [List.filter_eq_nil_iff]
    intro e he heq
    exact hk (of_decide_eq_true heq ▸ List.mem_map_of_mem he)
  rw [entriesOf, hfilter, List.map_nil]

/-- Without repetitions an account has at most its last entry. -/
theorem entriesOf_of_nodup (hnd : (l.map Prod.fst).Nodup) (k : K) :
    entriesOf l k = (last? l k).toList := by
  induction l with
  | nil => rfl
  | cons e l ih =>
    obtain ⟨hnew, hnd⟩ := List.nodup_cons.mp hnd
    by_cases hk : e.1 = k
    · subst hk
      have hrest := entriesOf_eq_nil hnew
      rw [entriesOf] at hrest
      simp [entriesOf, last?, last?_eq_none.mpr hnew, hrest]
    · have hrest := ih hnd
      rw [entriesOf] at hrest
      simp [entriesOf, last?, hk, hrest]

theorem le_neg_one (m : UInt32) : m ≤ -1 := by
  have hlt := m.toNat_lt
  have hmax : (-1 : UInt32).toNat = 2 ^ 32 - 1 := by decide
  rw [UInt32.le_iff_toNat_le, hmax]
  omega

section

variable {bal : K → UInt32} {debits credits : List (K × UInt32)}

/-- Where the debits of an account are as good as a single one, it is enough that each is
covered. -/
theorem covered_iff
    (hsingle : ∀ d ∈ debits, ∃ e ∈ debits, e.1 = d.1 ∧ charged debits d.1 = e.2.toNat) :
    (∀ d ∈ debits, d.2 ≤ bal d.1) ↔ Covered bal debits := by
  constructor
  · intro h d hd
    obtain ⟨e, he, hkey, hsum⟩ := hsingle d hd
    rw [hsum, ← hkey]
    exact UInt32.le_iff_toNat_le.mp (h e he)
  · intro h d hd
    exact UInt32.le_iff_toNat_le.mpr ((le_charged hd).trans (h d hd))

/-- A transfer whose last entries bring the net changes posts everything. -/
theorem transfer_eq_post
    (hlast : ∀ e ∈ debits ++ credits, written debits credits e.1 = net debits credits e.1) :
    transfer bal debits credits = post bal debits credits := by
  funext k
  rw [transfer_eq_add, post]
  congr 1
  by_cases hk : k ∈ (debits ++ credits).map Prod.fst
  · obtain ⟨e, he, rfl⟩ := List.mem_map.mp hk
    exact hlast e he
  · rw [List.map_append, List.mem_append, not_or] at hk
    simp [written, net, last?_eq_none.mpr hk.1, last?_eq_none.mpr hk.2, entriesOf_eq_nil hk.1,
      entriesOf_eq_nil hk.2]

/-- If covering each debit always covers their sums, the debits are as good as a single one. -/
theorem single_of_covered
    (h : ∀ bal : K → UInt32, (∀ d ∈ debits, d.2 ≤ bal d.1) → Covered bal debits) :
    ∀ d ∈ debits, ∃ e ∈ debits, e.1 = d.1 ∧ charged debits d.1 = e.2.toNat := by
  intro d hd
  -- the account has just its largest debit, and the others have all there can be
  obtain ⟨e, he, hmax⟩ := Finset.exists_max_image (debits.toFinset.filter fun e => e.1 = d.1)
    (fun e => e.2.toNat) ⟨d, by simp [hd]⟩
  rw [Finset.mem_filter, List.mem_toFinset] at he
  refine ⟨e, he.1, he.2, ?_⟩
  have heach : ∀ f ∈ debits, f.2 ≤ if f.1 = d.1 then e.2 else -1 := by
    intro f hf
    split_ifs with hkey
    · have hle := hmax f (Finset.mem_filter.mpr ⟨List.mem_toFinset.mpr hf, hkey⟩)
      exact UInt32.le_iff_toNat_le.mpr hle
    · exact le_neg_one f.2
  have hcov : charged debits d.1 ≤ (if d.1 = d.1 then e.2 else -1).toNat :=
    h (fun k => if k = d.1 then e.2 else -1) heach d hd
  rw [if_pos rfl] at hcov
  exact le_antisymm hcov (he.2 ▸ le_charged he.1)

/-- **When posting and transferring are the same**: on all balances, exactly for complete
transfers. -/
theorem complete_iff : Complete debits credits ↔
    ∀ bal : K → UInt32, ((∀ d ∈ debits, d.2 ≤ bal d.1) ↔ Covered bal debits) ∧
      (Covered bal debits → transfer bal debits credits = post bal debits credits) := by
  constructor
  · intro h bal
    exact ⟨covered_iff h.single, fun _ => transfer_eq_post h.last⟩
  · intro h
    have hsingle := single_of_covered fun bal => (h bal).1.mp
    refine ⟨hsingle, fun e he => ?_⟩
    have hcov : Covered (fun _ => -1) debits := (covered_iff hsingle).mp fun d _ => le_neg_one d.2
    have heq := congrFun ((h fun _ => -1).2 hcov) e.1
    rw [transfer_eq_add, post] at heq
    exact add_left_cancel heq

theorem complete_of_nodup (hnd : (debits.map Prod.fst ++ credits.map Prod.fst).Nodup) :
    Complete debits credits := by
  obtain ⟨hdebits, hcredits, hdisj⟩ := List.nodup_append.mp hnd
  constructor
  · intro d hd
    refine ⟨d, hd, rfl, ?_⟩
    simp [charged, entriesOf_of_nodup hdebits, last?_of_mem hdebits hd]
  · intro e _
    rw [written, net, entriesOf_of_nodup hdebits, entriesOf_of_nodup hcredits]
    cases hc : last? credits e.1 with
    | none => cases last? debits e.1 <;> simp
    | some m =>
      have hno : last? debits e.1 = none := last?_eq_none.mpr fun hk =>
        hdisj _ hk _ (List.mem_map_of_mem (mem_of_last? hc)) rfl
      simp [hno]

end

end Emulator.Ledger
