import Emulator.Base
import Mathlib.Tactic.Common

/-!
# The protobuf wire format

Base-128 varints, and messages as lists of numbered fields, each a varint or a length-delimited
byte string. The format is used to give concrete codecs; the two round-trip theorems are

* `readVarints_packVarints` — a packed list of numbers reads back;
* `decode_encode` — a list of fields reads back.

Numbers are unbounded here, so the recursions carry fuel; `varint n` has enough by construction,
and reading takes at least one byte a step.
-/

namespace Emulator.Wire

/-! ## Varints -/

def putVarint : ℕ → ℕ → Bytes
  | 0, _ => []
  | fuel + 1, n =>
    if n < 128 then [UInt8.ofNat n] else UInt8.ofNat (n % 128 + 128) :: putVarint fuel (n / 128)

def varint (n : ℕ) : Bytes := putVarint (n + 1) n

def readVarint : Bytes → Option (ℕ × Bytes)
  | [] => none
  | b :: bs =>
    if b.toNat < 128 then some (b.toNat, bs)
    else (readVarint bs).map fun nr => (b.toNat - 128 + 128 * nr.1, nr.2)

theorem readVarint_putVarint (fuel n : ℕ) (h : n < fuel) (r : Bytes) :
    readVarint (putVarint fuel n ++ r) = some (n, r) := by
  induction fuel generalizing n with
  | zero => omega
  | succ fuel ih =>
    unfold putVarint
    split_ifs with hn
    · have hb : (UInt8.ofNat n).toNat = n := by
        rw [UInt8.toNat_ofNat']
        omega
      simp [readVarint, hb, hn]
    · have hb : (UInt8.ofNat (n % 128 + 128)).toNat = n % 128 + 128 := by
        rw [UInt8.toNat_ofNat']
        omega
      have hbig : ¬ n % 128 + 128 < 128 := by omega
      have hval : n % 128 + 128 - 128 + 128 * (n / 128) = n := by omega
      simp only [List.cons_append, readVarint, hb, if_neg hbig, ih (n / 128) (by omega),
        Option.map_some, hval]

@[simp] theorem readVarint_varint (n : ℕ) (r : Bytes) :
    readVarint (varint n ++ r) = some (n, r) :=
  readVarint_putVarint (n + 1) n (by omega) r

theorem varint_ne_nil (n : ℕ) : varint n ≠ [] := by
  unfold varint putVarint
  split_ifs <;> simp

theorem one_le_length_varint (n : ℕ) : 1 ≤ (varint n).length :=
  List.length_pos_of_ne_nil (varint_ne_nil n)

/-- The payload of a packed repeated field. -/
def packVarints (ns : List ℕ) : Bytes := ns.flatMap varint

def readVarints : ℕ → Bytes → Option (List ℕ)
  | _, [] => some []
  | 0, _ :: _ => none
  | fuel + 1, b :: bs =>
    (readVarint (b :: bs)).bind fun nr => (readVarints fuel nr.2).map (nr.1 :: ·)

theorem readVarints_packVarints (ns : List ℕ) (fuel : ℕ) (h : (packVarints ns).length ≤ fuel) :
    readVarints fuel (packVarints ns) = some ns := by
  induction ns generalizing fuel with
  | nil => cases fuel <;> rfl
  | cons n ns ih =>
    have hlen := one_le_length_varint n
    have hcat : packVarints (n :: ns) = varint n ++ packVarints ns := rfl
    rw [hcat, List.length_append] at h
    cases fuel with
    | zero => omega
    | succ fuel =>
      obtain ⟨b, bs, hb⟩ := List.exists_cons_of_ne_nil (varint_ne_nil n)
      have hread : readVarint (b :: (bs ++ packVarints ns)) = some (n, packVarints ns) := by
        rw [← List.cons_append, ← hb]
        exact readVarint_varint n _
      rw [hcat, hb, List.cons_append, readVarints, hread]
      simp [ih fuel (by omega)]

/-! ## Fields -/

inductive Field
  | num (number value : ℕ)
  | len (number : ℕ) (payload : Bytes)
  deriving DecidableEq, Repr

def putField : Field → Bytes
  | .num k v => varint (8 * k) ++ varint v
  | .len k p => varint (8 * k + 2) ++ (varint p.length ++ p)

def encode (fs : List Field) : Bytes := fs.flatMap putField

def readField (bs : Bytes) : Option (Field × Bytes) :=
  (readVarint bs).bind fun tr =>
    match tr.1 % 8 with
    | 0 => (readVarint tr.2).map fun vr => (.num (tr.1 / 8) vr.1, vr.2)
    | 2 => (readVarint tr.2).bind fun lr =>
        if lr.1 ≤ lr.2.length then some (.len (tr.1 / 8) (lr.2.take lr.1), lr.2.drop lr.1)
        else none
    | _ => none

def readFields : ℕ → Bytes → Option (List Field)
  | _, [] => some []
  | 0, _ :: _ => none
  | fuel + 1, b :: bs =>
    (readField (b :: bs)).bind fun fr => (readFields fuel fr.2).map (fr.1 :: ·)

def decode (bs : Bytes) : Option (List Field) := readFields bs.length bs

variable {bs : Bytes} {fs : List Field} {k j : ℕ}

theorem readField_putField (f : Field) (r : Bytes) :
    readField (putField f ++ r) = some (f, r) := by
  cases f with
  | num k v =>
    have hmod : 8 * k % 8 = 0 := by omega
    have hdiv : 8 * k / 8 = k := by omega
    simp [readField, putField, List.append_assoc, hmod, hdiv]
  | len k p =>
    have hmod : (8 * k + 2) % 8 = 2 := by omega
    have hdiv : (8 * k + 2) / 8 = k := by omega
    simp [readField, putField, List.append_assoc, hmod, hdiv]

theorem putField_ne_nil (f : Field) : putField f ≠ [] := by
  cases f <;> simp [putField, varint_ne_nil]

theorem readFields_encode (fs : List Field) (fuel : ℕ) (h : (encode fs).length ≤ fuel) :
    readFields fuel (encode fs) = some fs := by
  induction fs generalizing fuel with
  | nil => cases fuel <;> rfl
  | cons f fs ih =>
    have hcat : encode (f :: fs) = putField f ++ encode fs := rfl
    have hlen : 1 ≤ (putField f).length := List.length_pos_of_ne_nil (putField_ne_nil f)
    rw [hcat, List.length_append] at h
    cases fuel with
    | zero => omega
    | succ fuel =>
      obtain ⟨b, bs, hb⟩ := List.exists_cons_of_ne_nil (putField_ne_nil f)
      have hread : readField (b :: (bs ++ encode fs)) = some (f, encode fs) := by
        rw [← List.cons_append, ← hb]
        exact readField_putField f _
      rw [hcat, hb, List.cons_append, readFields, hread]
      simp [ih fuel (by omega)]

/-- **Round trip.** Encoded fields decode to themselves. -/
theorem decode_encode (fs : List Field) : decode (encode fs) = some fs :=
  readFields_encode fs _ (Nat.le_refl _)

theorem readVarint_append {r : Bytes} {n : ℕ} (h : readVarint bs = some (n, r)) (bs' : Bytes) :
    readVarint (bs ++ bs') = some (n, r ++ bs') := by
  induction bs generalizing n r with
  | nil => cases h
  | cons b bs ih =>
    rw [readVarint] at h
    rw [List.cons_append, readVarint]
    split_ifs at h ⊢ with hb
    · obtain ⟨rfl, rfl⟩ := Prod.mk.inj (Option.some.inj h)
      rfl
    · obtain ⟨⟨m, r'⟩, hm, heq⟩ := Option.map_eq_some_iff.mp h
      obtain ⟨rfl, rfl⟩ := Prod.mk.inj heq
      rw [ih hm, Option.map_some]

theorem readField_append {r : Bytes} {f : Field} (h : readField bs = some (f, r)) (bs' : Bytes) :
    readField (bs ++ bs') = some (f, r ++ bs') := by
  unfold readField at h ⊢
  obtain ⟨⟨tag, r₁⟩, htag, h⟩ := Option.bind_eq_some_iff.mp h
  rw [readVarint_append htag, Option.bind_some]
  dsimp only at h ⊢
  split at h
  · obtain ⟨⟨v, r₂⟩, hv, heq⟩ := Option.map_eq_some_iff.mp h
    obtain ⟨rfl, rfl⟩ := Prod.mk.inj heq
    rw [readVarint_append hv, Option.map_some]
  · obtain ⟨⟨n, r₂⟩, hn, h⟩ := Option.bind_eq_some_iff.mp h
    rw [readVarint_append hn, Option.bind_some]
    dsimp only at h ⊢
    split_ifs at h with hle
    obtain ⟨rfl, rfl⟩ := Prod.mk.inj (Option.some.inj h)
    rw [if_pos (by rw [List.length_append]; omega), List.take_append_of_le_length hle,
      List.drop_append_of_le_length hle]
  · cases h

theorem readFields_mono {fuel fuel' : ℕ} (h : readFields fuel bs = some fs) (hle : fuel ≤ fuel') :
    readFields fuel' bs = some fs := by
  induction fuel generalizing bs fs fuel' with
  | zero =>
    cases bs with
    | nil => cases fuel' <;> exact h
    | cons b bs => cases h
  | succ fuel ih =>
    cases bs with
    | nil => cases fuel' <;> exact h
    | cons b bs =>
      obtain ⟨fuel', rfl⟩ : ∃ k, fuel' = k + 1 := ⟨fuel' - 1, by omega⟩
      obtain ⟨fr, hf, h⟩ := Option.bind_eq_some_iff.mp h
      obtain ⟨gs, hgs, rfl⟩ := Option.map_eq_some_iff.mp h
      rw [readFields, hf, Option.bind_some, ih hgs (by omega), Option.map_some]

theorem readFields_append {bs' : Bytes} {fs' : List Field} {fuel fuel' : ℕ}
    (h : readFields fuel bs = some fs) (h' : readFields fuel' bs' = some fs') :
    readFields (fuel + fuel') (bs ++ bs') = some (fs ++ fs') := by
  induction fuel generalizing bs fs with
  | zero =>
    cases bs with
    | nil =>
      obtain rfl := Option.some.inj h
      rwa [Nat.zero_add]
    | cons b bs => cases h
  | succ fuel ih =>
    cases bs with
    | nil =>
      obtain rfl := Option.some.inj h
      exact readFields_mono h' (by omega)
    | cons b bs =>
      obtain ⟨⟨f, r⟩, hf, h⟩ := Option.bind_eq_some_iff.mp h
      obtain ⟨gs, hgs, rfl⟩ := Option.map_eq_some_iff.mp h
      have hread := readField_append hf bs'
      rw [Nat.succ_add, List.cons_append, readFields, ← List.cons_append, hread, Option.bind_some,
        ih hgs, Option.map_some]
      rfl

theorem decode_append {bs' : Bytes} {fs' : List Field} (h : decode bs = some fs)
    (h' : decode bs' = some fs') : decode (bs ++ bs') = some (fs ++ fs') := by
  rw [decode, List.length_append]
  exact readFields_append h h'

theorem decode_flatten {α : Type} {f : α → Bytes} {g : α → Field} {l : List α}
    (h : ∀ a ∈ l, decode (f a) = some [g a]) : decode (l.map f).flatten = some (l.map g) := by
  induction l with
  | nil => rfl
  | cons a l ih =>
    exact decode_append (h a List.mem_cons_self) (ih fun b hb => h b (List.mem_cons_of_mem a hb))

theorem encode_injective : Function.Injective encode := fun fs gs h =>
  Option.some.inj ((decode_encode fs).symm.trans ((congrArg decode h).trans (decode_encode gs)))

theorem encode_eq_nil : encode fs = [] ↔ fs = [] := by
  cases fs with
  | nil => simp [encode]
  | cons f fs => simp [encode, putField_ne_nil]

/-! ## Messages -/

/-- A repeated length-delimited field: one entry for each element, empty ones included. -/
def repeated (k : ℕ) (ps : List Bytes) : List Field := ps.map (.len k)

/-- A singular byte field, left out when empty. -/
def bytesField (k : ℕ) (p : Bytes) : List Field := if p = [] then [] else [.len k p]

/-- A packed repeated number field, left out when empty. -/
def packed (k : ℕ) (ns : List ℕ) : List Field := bytesField k (packVarints ns)

/-- A singular number field, left out when zero. -/
def numField (k v : ℕ) : List Field := if v = 0 then [] else [.num k v]

/-- A signed number in the 64-bit two's complement form varints carry. -/
def intField (k : ℕ) (v : ℤ) : List Field := numField k (v % 2 ^ 64).toNat

/-- All payloads of the length-delimited field `k`. -/
def payloads (k : ℕ) (fs : List Field) : List Bytes :=
  fs.filterMap fun
    | .len j p => if j = k then some p else none
    | .num _ _ => none

/-- All values of the number field `k`. -/
def numbers (k : ℕ) (fs : List Field) : List ℕ :=
  fs.filterMap fun
    | .num j v => if j = k then some v else none
    | .len _ _ => none

/-- The last value of the number field `k`, zero when it is absent. -/
def number (k : ℕ) (fs : List Field) : ℕ := (numbers k fs).getLastD 0

/-- A varint value read as a signed 64-bit number. -/
def signed (k : ℕ) (fs : List Field) : ℤ := Int.bmod (number k fs) (2 ^ 64)

@[simp] theorem payloads_append (k : ℕ) (fs gs : List Field) :
    payloads k (fs ++ gs) = payloads k fs ++ payloads k gs := List.filterMap_append

@[simp] theorem payloads_repeated_self (k : ℕ) (ps : List Bytes) :
    payloads k (repeated k ps) = ps := by
  simp only [payloads, repeated, List.filterMap_map, Function.comp_def, if_true]
  exact List.filterMap_some

theorem payloads_repeated_ne (h : j ≠ k) (ps : List Bytes) : payloads k (repeated j ps) = [] := by
  simp [payloads, repeated, h]

theorem payloads_bytesField_ne (h : j ≠ k) (p : Bytes) : payloads k (bytesField j p) = [] := by
  unfold bytesField
  split_ifs <;> simp [payloads, h]

@[simp] theorem flatten_payloads_bytesField (k : ℕ) (p : Bytes) :
    (payloads k (bytesField k p)).flatten = p := by
  unfold bytesField
  split_ifs with h <;> simp [payloads, h]

@[simp] theorem numbers_append (k : ℕ) (fs gs : List Field) :
    numbers k (fs ++ gs) = numbers k fs ++ numbers k gs := List.filterMap_append

@[simp] theorem numbers_repeated (j k : ℕ) (ps : List Bytes) : numbers k (repeated j ps) = [] := by
  simp [numbers, repeated]

@[simp] theorem numbers_bytesField (j k : ℕ) (p : Bytes) : numbers k (bytesField j p) = [] := by
  unfold bytesField
  split_ifs <;> simp [numbers]

theorem numbers_numField_self (k v : ℕ) :
    numbers k (numField k v) = if v = 0 then [] else [v] := by
  unfold numField
  split_ifs <;> simp [numbers]

theorem numbers_intField_ne (h : j ≠ k) (v : ℤ) : numbers k (intField j v) = [] := by
  unfold intField numField
  split_ifs <;> simp [numbers, h]

theorem numbers_intField_ne_nil (k : ℕ) {v : ℤ} (hv : v ≠ 0) (h₀ : -2 ^ 31 ≤ v) (h : v < 2 ^ 31) :
    numbers k (intField k v) ≠ [] := by
  rw [intField, numbers_numField_self, if_neg (by omega)]
  exact List.cons_ne_nil _ _

theorem intField_inj (k : ℕ) {v v' : ℤ} (h₀ : -2 ^ 31 ≤ v) (h : v < 2 ^ 31) (h₀' : -2 ^ 31 ≤ v')
    (h' : v' < 2 ^ 31) (heq : intField k v = intField k v') : v = v' := by
  have hnumbers := congrArg (numbers k) heq
  rw [intField, intField, numbers_numField_self, numbers_numField_self] at hnumbers
  split_ifs at hnumbers with hv hv'
  · omega
  · have := List.head_eq_of_cons_eq hnumbers
    omega

/-- The numbers of the packed field `k`. -/
def packedNumbers (k : ℕ) (fs : List Field) : Option (List ℕ) :=
  readVarints (payloads k fs).flatten.length (payloads k fs).flatten

theorem packedNumbers_of_flatten {ns : List ℕ} (h : (payloads k fs).flatten = packVarints ns) :
    packedNumbers k fs = some ns := by
  rw [packedNumbers, h]
  exact readVarints_packVarints ns _ (Nat.le_refl _)

theorem payloads_numField (j k v : ℕ) : payloads k (numField j v) = [] := by
  unfold numField
  split_ifs <;> simp [payloads]

end Emulator.Wire
