import Mathlib.Data.List.Nodup
import Emulator.Base

/-!
# `clist.CList`

The doubly linked list under a mempool. Its elements live at addresses, which are numbers here in
the order in which the elements were made; `none` is the `nil` pointer, and a panic is `none`.

An element has a wait group and a channel for each direction. They are made together when the
neighbour on that side is set to `nil`, and released together when it no longer is; releasing them
twice panics. One flag stands for both: whether they still wait.

* `Linked` — a segment of elements that point to each other in both directions, with flags that say
  which neighbours are missing.
* `Holds` — the list consists of a segment from `nil` to `nil`.
* `pushBack_eq`, `remove_eq` — `PushBack` panics only at the maximal length, and `Remove` of an
  element of the list never does.
-/

namespace Emulator

variable {α : Type}

structure CElement (α : Type) where
  prev : Option ℕ
  prevWait : Bool
  next : Option ℕ
  nextWait : Bool
  removed : Bool
  value : α
  deriving DecidableEq, Repr

namespace CElement

def setNext (e : CElement α) (newNext : Option ℕ) : Option (CElement α) :=
  let oldNext := e.next
  let e := { e with next := newNext }
  if oldNext.isSome ∧ newNext.isNone then some { e with nextWait := true }
  else if oldNext.isNone ∧ newNext.isSome then
    if e.nextWait then some { e with nextWait := false } else none
  else some e

def setPrev (e : CElement α) (newPrev : Option ℕ) : Option (CElement α) :=
  let oldPrev := e.prev
  let e := { e with prev := newPrev }
  if oldPrev.isSome ∧ newPrev.isNone then some { e with prevWait := true }
  else if oldPrev.isNone ∧ newPrev.isSome then
    if e.prevWait then some { e with prevWait := false } else none
  else some e

def setRemoved (e : CElement α) : Option (CElement α) := do
  let e := { e with removed := true }
  let e ← (if e.prev.isNone then
    if e.prevWait then some { e with prevWait := false } else none
    else some e)
  if e.next.isNone then
    if e.nextWait then some { e with nextWait := false } else none
  else some e

/-- An element of a list, with flags that say which neighbours are missing. -/
def live (prev next : Option ℕ) (v : α) : CElement α :=
  ⟨prev, prev.isNone, next, next.isNone, false, v⟩

theorem setNext_live (prev next newNext : Option ℕ) (v : α) :
    (live prev next v).setNext newNext = some (live prev newNext v) := by
  cases next <;> cases newNext <;> rfl

theorem setPrev_live (prev next newPrev : Option ℕ) (v : α) :
    (live prev next v).setPrev newPrev = some (live newPrev next v) := by
  cases prev <;> cases newPrev <;> rfl

theorem exists_setRemoved_live (prev next : Option ℕ) (v : α) :
    ∃ e, (live prev next v).setRemoved = some e := by
  cases prev <;> cases next <;> exact ⟨_, rfl⟩

end CElement

/-- `CList`, with the elements that were made for it. -/
structure CList (α : Type) where
  elements : ℕ → Option (CElement α)
  made : ℕ
  wait : Bool
  head : Option ℕ
  tail : Option ℕ
  len : ℤ
  maxLen : ℤ

namespace CList

def newWithMax (maxLength : ℤ) : CList α := ⟨fun _ => none, 0, true, none, none, 0, maxLength⟩

def maxLength : ℤ := 2 ^ 63 - 1

def new : CList α := newWithMax maxLength

/-- A method of the element at address `e`. -/
def call (l : CList α) (e : ℕ) (f : CElement α → Option (CElement α)) : Option (CList α) :=
  (l.elements e).bind fun x =>
    (f x).map fun x => { l with elements := Function.update l.elements e (some x) }

/-- `PushBack`: the list and the address of the new element. -/
def pushBack (l : CList α) (v : α) : Option (CList α × ℕ) := do
  let e := l.made
  let wait ← (if l.len = 0 then if l.wait then some false else none else some l.wait)
  if l.len ≥ l.maxLen then none
  else
    let l := { l with
      elements := Function.update l.elements e (some ⟨none, true, none, true, false, v⟩)
      made := l.made + 1
      wait := wait
      len := l.len + 1 }
    match l.tail with
    | none => some ({ l with head := some e, tail := some e }, e)
    | some tail =>
      let l ← l.call e (·.setPrev (some tail))
      let l ← l.call tail (·.setNext (some e))
      some ({ l with tail := some e }, e)

/-- The first part of `Remove` after its checks: what was before the element is followed by
`next`. -/
def linkNext (l : CList α) (prev next : Option ℕ) : Option (CList α) :=
  match prev with
  | none => some { l with head := next }
  | some prev => l.call prev (·.setNext next)

/-- The second part: what was after the element is preceded by `prev`. -/
def linkPrev (l : CList α) (prev next : Option ℕ) : Option (CList α) :=
  match next with
  | none => some { l with tail := prev }
  | some next => l.call next (·.setPrev prev)

/-- `Remove`: the list and the value of the element. -/
def remove (l : CList α) (e : ℕ) : Option (CList α × α) := do
  let x ← l.elements e
  let prev := x.prev
  let next := x.next
  if l.head.isNone ∨ l.tail.isNone then none
  else if prev.isNone ∧ l.head ≠ some e then none
  else if next.isNone ∧ l.tail ≠ some e then none
  else
    let l := { l with wait := if l.len = 1 then true else l.wait, len := l.len - 1 }
    let l ← l.linkNext prev next
    let l ← l.linkPrev prev next
    let l ← l.call e (·.setRemoved)
    some (l, x.value)

def front (l : CList α) : Option ℕ := l.head

theorem call_eq {l : CList α} {e : ℕ} {x y : CElement α} {f : CElement α → Option (CElement α)}
    (hx : l.elements e = some x) (hf : f x = some y) :
    l.call e f = some { l with elements := Function.update l.elements e (some y) } := by
  rw [call, hx, Option.bind_some, hf, Option.map_some]

/-! ## Segments -/

/-- The first address of a segment that `q` follows. -/
def first : List (ℕ × α) → Option ℕ → Option ℕ
  | [], q => q
  | (a, _) :: _, _ => some a

/-- The last address of a segment that follows `p`. -/
def last : Option ℕ → List (ℕ × α) → Option ℕ
  | p, [] => p
  | _, (a, _) :: items => last (some a) items

/-- Elements with their values that follow `p`, point to each other, and are followed by `q`. -/
def Linked (m : ℕ → Option (CElement α)) : Option ℕ → List (ℕ × α) → Option ℕ → Prop
  | _, [], _ => True
  | p, (a, v) :: items, q => m a = some (.live p (first items q) v) ∧ Linked m (some a) items q

variable {m m' : ℕ → Option (CElement α)} {p q : Option ℕ} {xs ys items : List (ℕ × α)}

theorem first_append (xs ys : List (ℕ × α)) (q : Option ℕ) :
    first (xs ++ ys) q = first xs (first ys q) := by
  cases xs <;> rfl

theorem last_append (p : Option ℕ) (xs ys : List (ℕ × α)) :
    last p (xs ++ ys) = last (last p xs) ys := by
  induction xs generalizing p with
  | nil => rfl
  | cons x xs ih => exact ih (some x.1)

theorem last_ne_none (a : ℕ) (xs : List (ℕ × α)) : last (some a) xs ≠ none := by
  induction xs generalizing a with
  | nil => exact Option.some_ne_none a
  | cons x xs ih => exact ih x.1

theorem linked_append : Linked m p (xs ++ ys) q ↔ Linked m p xs (first ys q) ∧
    Linked m (last p xs) ys q := by
  induction xs generalizing p with
  | nil => exact (and_iff_right trivial).symm
  | cons x xs ih =>
    simp only [List.cons_append, Linked, last, ih, first_append, and_assoc]

theorem Linked.congr (h : Linked m p items q) (heq : ∀ a ∈ items.map Prod.fst, m' a = m a) :
    Linked m' p items q := by
  induction items generalizing p with
  | nil => trivial
  | cons x items ih =>
    refine ⟨(heq x.1 List.mem_cons_self).trans h.1, ih h.2 ?_⟩
    exact fun a ha => heq a (List.mem_cons_of_mem _ ha)

/-- What follows a segment at the head of the list is changed to `q'`. -/
theorem linkNext_eq {l : CList α} (hnodup : (xs.map Prod.fst).Nodup) (h : Linked l.elements none xs q)
    (hhead : l.head = first xs q) (q' : Option ℕ) :
    ∃ m, l.linkNext (last none xs) q' = some { l with head := first xs q', elements := m } ∧
      Linked m none xs q' ∧ ∀ a, a ∉ xs.map Prod.fst → m a = l.elements a := by
  rcases List.eq_nil_or_concat xs with rfl | ⟨xs, ⟨b, w⟩, rfl⟩
  · exact ⟨l.elements, rfl, trivial, fun _ _ => rfl⟩
  rw [List.concat_eq_append] at *
  obtain ⟨hxs, hb, -⟩ := linked_append.mp h
  have hnot : b ∉ xs.map Prod.fst := by
    rw [List.map_append, List.nodup_append] at hnodup
    exact fun hmem => hnodup.2.2 b hmem b (List.mem_singleton_self b) rfl
  refine ⟨Function.update l.elements b (some (.live (last none xs) q' w)), ?_, ?_, ?_⟩
  · rw [last_append]
    refine (call_eq hb (CElement.setNext_live _ _ q' w)).trans ?_
    rw [first_append, ← show l.head = first xs (first [(b, w)] q') from
      hhead.trans (first_append xs _ q)]
  · refine linked_append.mpr ⟨hxs.congr fun a ha => ?_, Function.update_self .., trivial⟩
    exact Function.update_of_ne (ne_of_mem_of_not_mem ha hnot) _ _
  · intro a ha
    have hb : b ∈ (xs ++ [(b, w)]).map Prod.fst := by simp
    exact Function.update_of_ne (ne_of_mem_of_not_mem hb ha).symm _ _

/-- What precedes a segment at the end of the list is changed to `p'`. -/
theorem linkPrev_eq {l : CList α} (hnodup : (ys.map Prod.fst).Nodup) (h : Linked l.elements p ys none)
    (htail : l.tail = last p ys) (p' : Option ℕ) :
    ∃ m, l.linkPrev p' (first ys none) = some { l with tail := last p' ys, elements := m } ∧
      Linked m p' ys none ∧ ∀ a, a ∉ ys.map Prod.fst → m a = l.elements a := by
  cases ys with
  | nil => exact ⟨l.elements, rfl, trivial, fun _ _ => rfl⟩
  | cons y ys =>
    obtain ⟨b, w⟩ := y
    obtain ⟨hb, hys⟩ := h
    have hnot := (List.nodup_cons.mp hnodup).1
    refine ⟨Function.update l.elements b (some (.live p' (first ys none) w)), ?_, ?_, ?_⟩
    · refine (call_eq hb (CElement.setPrev_live _ _ p' w)).trans ?_
      rw [show last p' ((b, w) :: ys) = l.tail from htail.symm]
    · refine ⟨Function.update_self .., hys.congr fun a ha => ?_⟩
      exact Function.update_of_ne (ne_of_mem_of_not_mem ha hnot) _ _
    · intro a ha
      exact Function.update_of_ne (ne_of_mem_of_not_mem List.mem_cons_self ha).symm _ _

/-! ## The elements of a list -/

/-- The list consists of the elements `items`, given by their addresses and values. -/
structure Holds (l : CList α) (items : List (ℕ × α)) : Prop where
  nodup : (items.map Prod.fst).Nodup
  made : ∀ a ∈ items.map Prod.fst, a < l.made
  head : l.head = first items none
  tail : l.tail = last none items
  len : l.len = items.length
  wait : l.wait = items.isEmpty
  linked : Linked l.elements none items none

theorem holds_newWithMax (maxLength : ℤ) : (newWithMax maxLength : CList α).Holds [] where
  nodup := List.nodup_nil
  made _ ha := by cases ha
  head := rfl
  tail := rfl
  len := rfl
  wait := rfl
  linked := trivial

variable {l : CList α} {a : ℕ} {v : α}

/-- The list with a new element behind the last one, which does not point to it yet. -/
def grown (l : CList α) (v : α) : CList α :=
  { l with
    elements := Function.update l.elements l.made (some (.live l.tail none v))
    made := l.made + 1
    wait := false
    len := l.len + 1 }

theorem pushBack_link (h : l.Holds items) (v : α) :
    l.pushBack v =
      if l.len ≥ l.maxLen then none
      else ((l.grown v).linkNext l.tail (some l.made)).map
        fun l' => ({ l' with tail := some l.made }, l.made) := by
  -- the list waits exactly when it is empty, so its waiters are released once
  have hwait : (if l.len = 0 then if l.wait then some false else none else some l.wait) =
      some false := by
    rw [h.len, h.wait]
    cases items <;> rfl
  simp only [pushBack, hwait, Option.bind_eq_bind, Option.bind_some, grown]
  cases htail : l.tail with
  | none => rfl
  | some t =>
    have hnew : (CElement.mk none true none true false v).setPrev (some t) = _ :=
      CElement.setPrev_live none none (some t) v
    simp only [call, linkNext, Function.update_self, Option.bind_some, hnew, Function.update_idem,
      Option.map_eq_bind]
    rfl

/-- **`PushBack`** puts the new element at the end. It panics if the list has its maximal length. -/
theorem pushBack_eq (h : l.Holds items) (v : α) :
    if l.len ≥ l.maxLen then l.pushBack v = none
    else ∃ l', l.pushBack v = some (l', l.made) ∧ l'.Holds (items ++ [(l.made, v)]) ∧
      l'.maxLen = l.maxLen := by
  rw [pushBack_link h]
  split_ifs with hmax
  · rfl
  have hnew : l.made ∉ items.map Prod.fst := fun hmem => lt_irrefl _ (h.made _ hmem)
  have hlinked : Linked (l.grown v).elements none items none :=
    h.linked.congr fun a ha => Function.update_of_ne (ne_of_mem_of_not_mem ha hnew) _ _
  obtain ⟨m, hlink, hitems, hother⟩ := linkNext_eq h.nodup hlinked h.head (some l.made)
  rw [← h.tail] at hlink
  rw [hlink]
  refine ⟨_, rfl, ⟨?_, ?_, ?_, ?_, ?_, ?_, ?_⟩, rfl⟩
  · rw [List.map_append, List.map_singleton, ← List.concat_eq_append]
    exact h.nodup.concat hnew
  · intro a ha
    rw [List.map_append, List.mem_append] at ha
    rcases ha with ha | ha
    · exact (h.made a ha).trans (Nat.lt_succ_self _)
    · rw [List.mem_singleton.mp ha]
      exact Nat.lt_succ_self _
  · exact (first_append items [(l.made, v)] none).symm
  · exact (last_append none items [(l.made, v)]).symm
  · show l.len + 1 = _
    rw [h.len, List.length_append, List.length_singleton, Nat.cast_add, Nat.cast_one]
  · cases items <;> rfl
  · refine linked_append.mpr ⟨hitems, (hother _ hnew).trans ?_, trivial⟩
    rw [← h.tail]
    exact Function.update_self ..

/-- The list without an element to which its neighbours still point. -/
def shrunk (l : CList α) : CList α :=
  { l with wait := if l.len = 1 then true else l.wait, len := l.len - 1 }

section

variable (h : l.Holds (xs ++ (a, v) :: ys))

include h

theorem wait_shrunk :
    l.shrunk.wait = (xs ++ ys).isEmpty := by
  show (if l.len = 1 then true else l.wait) = _
  rw [h.len, h.wait, List.length_append, List.length_cons]
  cases xs <;> cases ys <;> simp <;> omega

theorem remove_link :
    l.remove a =
      (l.shrunk.linkNext (last none xs) (first ys none)).bind fun l =>
        (l.linkPrev (last none xs) (first ys none)).bind fun l =>
          (l.call a (·.setRemoved)).bind fun l => some (l, v) := by
  obtain ⟨-, ha, -⟩ := linked_append.mp h.linked
  have hhead : l.head = first xs (some a) := h.head.trans (first_append ..)
  have htail : l.tail = last (some a) ys := h.tail.trans (last_append ..)
  rw [remove, ha, Option.bind_eq_bind, Option.bind_some, if_neg, if_neg, if_neg]
  · rfl
  · rw [htail]
    cases ys <;> simp [CElement.live, first, last]
  · rw [hhead]
    cases xs with
    | nil => simp [first]
    | cons x xs => simp [CElement.live, last, last_ne_none]
  · rw [hhead, htail]
    cases xs <;> simp [first, last_ne_none]

/-- **`Remove`** of an element of the list takes it out and does not panic. -/
theorem remove_eq :
    ∃ l', l.remove a = some (l', v) ∧ l'.Holds (xs ++ ys) ∧ l'.maxLen = l.maxLen := by
  obtain ⟨hxs, ha, hys⟩ := linked_append.mp h.linked
  have hnodup := h.nodup
  rw [List.map_append, List.map_cons, List.nodup_middle, List.nodup_cons, List.mem_append,
    not_or] at hnodup
  obtain ⟨⟨haxs, hays⟩, hnodup⟩ := hnodup
  obtain ⟨hndxs, hndys, hdisj⟩ := List.nodup_append.mp hnodup
  obtain ⟨m₁, hlink₁, hxs₁, hother₁⟩ :=
    linkNext_eq (l := l.shrunk) hndxs hxs (h.head.trans (first_append ..)) (first ys none)
  have hys₁ : Linked m₁ (some a) ys none :=
    hys.congr fun b hb => hother₁ b fun hmem => hdisj b hmem b hb rfl
  obtain ⟨m₂, hlink₂, hys₂, hother₂⟩ :=
    linkPrev_eq (l := { l.shrunk with head := first xs (first ys none), elements := m₁ }) hndys hys₁
      (h.tail.trans (last_append ..)) (last none xs)
  have hxs₂ : Linked m₂ none xs (first ys none) :=
    hxs₁.congr fun b hb => hother₂ b fun hmem => hdisj b hb b hmem rfl
  obtain ⟨x, hx⟩ := CElement.exists_setRemoved_live (last none xs) (first ys none) v
  have ha₂ : m₂ a = some (.live (last none xs) (first ys none) v) :=
    (hother₂ a hays).trans ((hother₁ a haxs).trans ha)
  have hne {b : ℕ} (hb : b ≠ a) : Function.update m₂ a (some x) b = m₂ b :=
    Function.update_of_ne hb _ _
  rw [remove_link h, hlink₁, Option.bind_some, hlink₂, Option.bind_some, call_eq ha₂ hx]
  refine ⟨_, rfl, ⟨?_, ?_, ?_, ?_, ?_, ?_, ?_⟩, rfl⟩
  · rw [List.map_append]
    exact hnodup
  · intro b hb
    refine h.made b (List.Sublist.subset ?_ hb)
    exact ((List.sublist_cons_self (a, v) ys).append_left xs).map Prod.fst
  · exact (first_append xs ys none).symm
  · exact (last_append none xs ys).symm
  · show l.len - 1 = _
    rw [h.len]
    simp only [List.length_append, List.length_cons]
    omega
  · exact wait_shrunk h
  · refine linked_append.mpr ⟨hxs₂.congr fun b hb => hne ?_, hys₂.congr fun b hb => hne ?_⟩
    · exact ne_of_mem_of_not_mem hb haxs
    · exact ne_of_mem_of_not_mem hb hays

end

end CList

end Emulator
