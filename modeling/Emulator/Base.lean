import Mathlib.Algebra.Order.Group.Unbundled.Int
import Mathlib.Data.Int.ModEq
import Mathlib.Data.List.Forall2
import Mathlib.Data.Int.Notation
import Mathlib.Data.Nat.Notation

/-!
# Go values and external codecs

Byte slices and strings of the source are lists of bytes: a Go string is a byte sequence, and its
order is the lexicographic order of bytes. `nil` and the empty slice are the same list, except
where the source tells them apart, and there the model uses `Option`.

The protobuf runtime is not part of the repository. Each message type has a `Codec`, a pair of
functions `Marshal` and `Unmarshal`, and what the code relies on is stated as `Codec.RoundTrips`.
-/

namespace Emulator

abbrev Bytes := List UInt8

abbrev Str := List UInt8

instance : LawfulBEq Str := inferInstance

def str (s : String) : Str := s.toUTF8.data.toList

/-- `utils.Uint32ToBytes`: little endian. -/
def uint32ToBytes (n : UInt32) : Bytes :=
  [n.toUInt8, (n >>> 8).toUInt8, (n >>> 16).toUInt8, (n >>> 24).toUInt8]

/-- `utils.IntToBytes` on an integer of `size` bytes: little endian, two's complement. -/
def intToBytes (size : ℕ) (n : ℤ) : Bytes :=
  (List.range size).map fun i => UInt8.ofNat ((n % 256 ^ size).toNat / 256 ^ i)

variable {α β : Type} {n : ℕ} {l : List α} {l' : List β} {a : α} {f : α → Option β}

theorem mod_pow_eq_of_bytes {size m : ℕ}
    (h : ∀ i < size, UInt8.ofNat (n / 256 ^ i) = UInt8.ofNat (m / 256 ^ i)) :
    n % 256 ^ size = m % 256 ^ size := by
  induction size with
  | zero => simp [Nat.mod_one]
  | succ k ih =>
    have hk : n / 256 ^ k % 256 = m / 256 ^ k % 256 := by
      have := congrArg UInt8.toNat (h k (Nat.lt_succ_self k))
      simpa using this
    rw [Nat.mod_pow_succ, Nat.mod_pow_succ, ih fun i hi => h i (Nat.lt_succ_of_lt hi), hk]

/-- An integer in the range of its type is determined by its bytes. -/
theorem intToBytes_inj {size : ℕ} {n m : ℤ} (hn : -256 ^ size ≤ 2 * n ∧ 2 * n < 256 ^ size)
    (hm : -256 ^ size ≤ 2 * m ∧ 2 * m < 256 ^ size) (h : intToBytes size n = intToBytes size m) :
    n = m := by
  have hpos : (0 : ℤ) < 256 ^ size := Int.pow_pos (by decide)
  have hbytes : ∀ i < size, UInt8.ofNat ((n % 256 ^ size).toNat / 256 ^ i) =
      UInt8.ofNat ((m % 256 ^ size).toNat / 256 ^ i) := by
    intro i hi
    have := congrArg (·[i]?) h
    simpa [intToBytes, hi] using this
  have hmod := mod_pow_eq_of_bytes hbytes
  have hlt (k : ℤ) : (k % 256 ^ size).toNat < 256 ^ size := by
    have hlt := Int.emod_lt_of_pos k hpos
    have hcast : ((256 ^ size : ℕ) : ℤ) = 256 ^ size := by push_cast; rfl
    omega
  rw [Nat.mod_eq_of_lt (hlt n), Nat.mod_eq_of_lt (hlt m)] at hmod
  have hn0 := Int.emod_nonneg n hpos.ne'
  have hm0 := Int.emod_nonneg m hpos.ne'
  have hemod : n % 256 ^ size = m % 256 ^ size := by omega
  have hdvd : (256 : ℤ) ^ size ∣ n - m := Int.ModEq.dvd hemod.symm
  have hlt' : |n - m| < 256 ^ size := by
    rw [abs_lt]
    constructor <;> omega
  have := Int.eq_zero_of_abs_lt_dvd hdvd hlt'
  omega

/-- `utils.BytesToUint32`, which panics (`none`) on fewer than four bytes. -/
def bytesToUint32 : Bytes → Option UInt32
  | a :: b :: c :: d :: _ =>
    some (a.toUInt32 ||| b.toUInt32 <<< 8 ||| c.toUInt32 <<< 16 ||| d.toUInt32 <<< 24)
  | _ => none

/-- A loop that collects results, or stops at the first element that has none. -/
theorem mapM_eq_some_iff : l.mapM f = some l' ↔ List.Forall₂ (fun a b => f a = some b) l l' := by
  induction l generalizing l' with
  | nil =>
    rw [List.mapM_nil, List.forall₂_nil_left_iff]
    exact ⟨fun h => (Option.some.inj h).symm, fun h => congrArg some h.symm⟩
  | cons a l ih =>
    rw [List.mapM_cons, List.forall₂_cons_left_iff]
    constructor
    · intro h
      obtain ⟨b, hb, h₁⟩ := Option.bind_eq_some_iff.mp h
      obtain ⟨bs, hbs, h₂⟩ := Option.bind_eq_some_iff.mp h₁
      exact ⟨b, bs, hb, ih.mp hbs, (Option.some.inj h₂).symm⟩
    · rintro ⟨b, bs, hb, hbs, rfl⟩
      rw [hb, ih.mpr hbs]
      rfl

theorem exists_mem_of_forall₂ {R : α → β → Prop} (h : List.Forall₂ R l l') {b : β} (hb : b ∈ l') :
    ∃ a ∈ l, R a b := by
  obtain ⟨i, hi, rfl⟩ := List.getElem_of_mem hb
  obtain ⟨hlen, hget⟩ := List.forall₂_iff_get.mp h
  exact ⟨_, List.get_mem l ⟨i, hlen ▸ hi⟩, hget i (hlen ▸ hi) hi⟩

theorem exists_of_mem_mapM (h : l.mapM f = some l') {b : β} (hb : b ∈ l') : ∃ a ∈ l, f a = some b :=
  exists_mem_of_forall₂ (mapM_eq_some_iff.mp h) hb

theorem exists_mem_of_mapM (h : l.mapM f = some l') (ha : a ∈ l) : ∃ b ∈ l', f a = some b :=
  exists_mem_of_forall₂ (mapM_eq_some_iff.mp h).flip ha

theorem getElem?_concat_eq_some {b : α} (h : (l ++ [a])[n]? = some b) :
    l[n]? = some b ∨ n = l.length ∧ a = b := by
  rcases Nat.lt_or_ge n l.length with hn | hn
  · exact .inl (List.getElem?_append_left hn ▸ h)
  · rw [List.getElem?_append_right hn] at h
    obtain ⟨hlt, heq⟩ := List.getElem?_eq_some_iff.mp h
    exact .inr ⟨by simp only [List.length_singleton] at hlt; omega, by simpa using heq⟩

theorem exists_getElem?_of_forall₂ {R : α → β → Prop} (h : List.Forall₂ R l l') {k : ℕ}
    (hk : l[k]? = some a) : ∃ b, l'[k]? = some b ∧ R a b := by
  obtain ⟨hlt, rfl⟩ := List.getElem?_eq_some_iff.mp hk
  obtain ⟨hlen, hget⟩ := List.forall₂_iff_get.mp h
  exact ⟨_, List.getElem?_eq_getElem (hlen ▸ hlt), hget k hlt (hlen ▸ hlt)⟩

theorem mapM_range_eq_some {f : ℕ → Option β} {l : List β} (h : (List.range n).mapM f = some l) :
    l.length = n ∧ ∀ k b, l[k]? = some b → f k = some b := by
  obtain ⟨hlen, hget⟩ := List.forall₂_iff_get.mp (mapM_eq_some_iff.mp h)
  refine ⟨by rw [← hlen, List.length_range], fun k b hb => ?_⟩
  obtain ⟨hk, rfl⟩ := List.getElem?_eq_some_iff.mp hb
  simpa using hget k (hlen ▸ hk) hk

theorem exists_mapM (h : ∀ a ∈ l, ∃ b, f a = some b) : ∃ l', l.mapM f = some l' := by
  induction l with
  | nil => exact ⟨[], rfl⟩
  | cons a l ih =>
    obtain ⟨b, hb⟩ := h a List.mem_cons_self
    obtain ⟨bs, hbs⟩ := ih fun a' ha' => h a' (List.mem_cons_of_mem a ha')
    exact ⟨b :: bs, mapM_eq_some_iff.mpr (.cons hb (mapM_eq_some_iff.mp hbs))⟩

theorem eq_of_map_eq_map {f : α → β} {l' : List α} (hinj : ∀ a ∈ l, ∀ a' ∈ l', f a = f a' → a = a')
    (h : l.map f = l'.map f) : l = l' := by
  induction l generalizing l' with
  | nil => exact (List.map_eq_nil_iff.mp h.symm).symm
  | cons a l ih =>
    cases l' with
    | nil => cases h
    | cons a' l' =>
      obtain ⟨ha, hl⟩ := List.cons.inj h
      rw [hinj a List.mem_cons_self a' List.mem_cons_self ha,
        ih (fun x hx y hy => hinj x (List.mem_cons_of_mem _ hx) y (List.mem_cons_of_mem _ hy)) hl]

/-- `proto.Marshal` and `proto.Unmarshal` for one message type. -/
structure Codec (α : Type) where
  marshal : α → Bytes
  unmarshal : Bytes → Option α

/-- Unmarshalling what was marshalled gives back the message, up to `norm`: the change the wire
makes to a message (an absent element of a repeated message field comes back present). -/
def Codec.RoundTrips {α : Type} (c : Codec α) (norm : α → α) : Prop :=
  ∀ a, c.unmarshal (c.marshal a) = some (norm a)

end Emulator
