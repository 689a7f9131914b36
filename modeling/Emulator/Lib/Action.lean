import Emulator.Lib.Run

/-!
# Actions that may fail and keep what they did

An action runs on a state and ends in a value or an error. An error does not undo the writes made
before it, which is how a method on a pointer behaves that returns early.

* `Reads` — an action that moves the state only within a relation `R` and returns what an observer
  that cannot see inside `R` computes; `Reads.bind` and `Reads.mapEach` compose such actions.
* `Keeps` — an action that moves the state only within `R`, whatever it returns.
* `Respects` — an action that cannot tell states related by `R` apart.
-/

namespace Emulator

/-- A computation on a state `σ` that returns an `α` or fails with an `ε`. -/
def Action (ε σ α : Type) : Type := σ → Except ε α × σ

namespace Action

variable {ε σ α β : Type}

instance : Monad (Action ε σ) where
  pure a := fun s => (.ok a, s)
  bind x f := fun s =>
    match x s with
    | (.ok a, s') => f a s'
    | (.error e, s') => (.error e, s')

def throw (e : ε) : Action ε σ α := fun s => (.error e, s)

def get : Action ε σ σ := fun s => (.ok s, s)

def modify (f : σ → σ) : Action ε σ Unit := fun s => (.ok (), f s)

/-- Fail unless `c`. -/
def require (c : Bool) (e : ε) : Action ε σ Unit := fun s => (if c then .ok () else .error e, s)

/-- The value, or failure with `e` when there is none. -/
def orThrow (o : Option α) (e : ε) : Action ε σ α := fun s => (o.elim (.error e) .ok, s)

/-- Run `x` and hand its outcome, error or not, to what follows. -/
def attempt (x : Action ε σ α) : Action ε σ (Except ε α) := fun s => (.ok (x s).1, (x s).2)

/-- Run `x`, then change the state by `f` however `x` ended. -/
def andFinally (x : Action ε σ α) (f : σ → σ) : Action ε σ α := fun s => ((x s).1, f (x s).2)

/-- Run `f` on every element in order and collect the results. -/
def mapEach (f : α → Action ε σ β) : List α → Action ε σ (List β)
  | [] => pure []
  | a :: l => do
    let b ← f a
    let bs ← mapEach f l
    pure (b :: bs)

/-- Run `f` on every element in order. -/
def forEach (f : α → Action ε σ Unit) : List α → Action ε σ Unit
  | [] => pure ()
  | a :: l => do
    f a
    forEach f l

/-! ## Running -/

variable {x : Action ε σ α} {f : α → Action ε σ β} {s s' : σ} {e : ε} {l : List α}
  {v : σ → Option α} {a : α} {c : Bool} {o : Option α} {w : α → σ → Option β}

@[simp] theorem run_pure (a : α) (s : σ) : (pure a : Action ε σ α) s = (.ok a, s) := rfl
@[simp] theorem run_throw (e : ε) (s : σ) : (throw e : Action ε σ α) s = (.error e, s) := rfl
@[simp] theorem run_get (s : σ) : (get : Action ε σ σ) s = (.ok s, s) := rfl

@[simp] theorem run_modify (f : σ → σ) (s : σ) : (modify f : Action ε σ Unit) s = (.ok (), f s) :=
  rfl

theorem run_require (c : Bool) (e : ε) (s : σ) :
    (require c e : Action ε σ Unit) s = (if c then .ok () else .error e, s) := rfl

@[simp] theorem run_require_true (e : ε) (s : σ) :
    (require true e : Action ε σ Unit) s = (.ok (), s) := rfl

@[simp] theorem run_require_false (e : ε) (s : σ) :
    (require false e : Action ε σ Unit) s = (.error e, s) := rfl

@[simp] theorem run_orThrow_some (a : α) (e : ε) (s : σ) :
    (orThrow (some a) e : Action ε σ α) s = (.ok a, s) := rfl

@[simp] theorem run_orThrow_none (e : ε) (s : σ) :
    (orThrow none e : Action ε σ α) s = (.error e, s) := rfl

@[simp] theorem run_attempt (x : Action ε σ α) (s : σ) :
    x.attempt s = (.ok (x s).1, (x s).2) := rfl

@[simp] theorem run_andFinally (x : Action ε σ α) (f : σ → σ) (s : σ) :
    x.andFinally f s = ((x s).1, f (x s).2) := rfl

theorem run_bind (x : Action ε σ α) (f : α → Action ε σ β) (s : σ) :
    (x >>= f) s = match x s with
      | (.ok a, s') => f a s'
      | (.error e, s') => (.error e, s') := rfl

theorem run_bind_ok (h : x s = (.ok a, s')) : (x >>= f) s = f a s' := by
  rw [run_bind, h]

theorem run_bind_error (h : x s = (.error e, s')) : (x >>= f) s = (.error e, s') := by
  rw [run_bind, h]

theorem run_require_bind (c : Bool) (e : ε) (f : Unit → Action ε σ β) (s : σ) :
    (require c e >>= f) s = if c then f () s else (.error e, s) := by
  cases c <;> rfl

/-- A check and what follows it: to show `P` of the outcome, show it of the failure and of the
rest. -/
theorem require_bind_elim {P : Except ε β × σ → Prop} {f : Unit → Action ε σ β}
    (herror : c = false → P (.error e, s)) (hok : c = true → P (f () s)) :
    P ((require c e >>= f) s) := by
  cases c with
  | false => exact herror rfl
  | true => exact hok rfl

theorem orThrow_bind_elim {P : Except ε β × σ → Prop} (herror : o = none → P (.error e, s))
    (hok : ∀ a, o = some a → P (f a s)) : P ((orThrow o e >>= f) s) := by
  cases o with
  | none => exact herror rfl
  | some a => exact hok a rfl

theorem snd_bind_pure (x : Action ε σ α) (f : α → β) (s : σ) :
    ((x >>= fun a => pure (f a)) s).2 = (x s).2 := by
  rw [run_bind]
  split <;> simp_all

theorem bind_eq_ok {s'' : σ} {b : β} :
    (x >>= f) s = (.ok b, s'') ↔ ∃ a s', x s = (.ok a, s') ∧ f a s' = (.ok b, s'') := by
  rw [run_bind]
  constructor
  · intro h
    split at h
    · next a s' hx => exact ⟨a, s', hx, h⟩
    · cases h
  · rintro ⟨a, s', hx, hf⟩
    rw [hx]
    exact hf

theorem require_eq_ok : (require c e : Action ε σ Unit) s = (.ok (), s') ↔ c = true ∧ s = s' := by
  cases c <;> simp

theorem orThrow_eq_ok : (orThrow o e : Action ε σ α) s = (.ok a, s') ↔ o = some a ∧ s = s' := by
  cases o <;> simp

theorem andFinally_eq_ok {f : σ → σ} :
    andFinally x f s = (.ok a, s') ↔ ∃ s₁, x s = (.ok a, s₁) ∧ s' = f s₁ := by
  rw [run_andFinally, Prod.mk.injEq]
  constructor
  · rintro ⟨h, rfl⟩
    exact ⟨_, Prod.ext h rfl, rfl⟩
  · rintro ⟨s₁, h, rfl⟩
    rw [h]
    exact ⟨rfl, rfl⟩

theorem run_forEach_of_ok {f : α → Action ε σ Unit} {g : σ → α → σ}
    (hf : ∀ a ∈ l, ∀ s, f a s = (.ok (), g s a)) (s : σ) :
    forEach f l s = (.ok (), l.foldl g s) := by
  induction l generalizing s with
  | nil => rfl
  | cons a l ih =>
    rw [forEach, run_bind_ok (hf a List.mem_cons_self s),
      ih fun b hb => hf b (List.mem_cons_of_mem a hb)]
    rfl

/-- A loop of actions that succeed and keep an invariant. -/
theorem exists_run_forEach {I : σ → Prop} {f : α → Action ε σ Unit}
    (hf : ∀ a ∈ l, ∀ s, I s → ∃ s', f a s = (.ok (), s') ∧ I s') (hs : I s) :
    ∃ s', forEach f l s = (.ok (), s') ∧ I s' := by
  induction l generalizing s with
  | nil => exact ⟨s, rfl, hs⟩
  | cons a l ih =>
    obtain ⟨s₁, hrun, hs₁⟩ := hf a List.mem_cons_self s hs
    obtain ⟨s₂, hrest, hs₂⟩ := ih (fun b hb => hf b (List.mem_cons_of_mem a hb)) hs₁
    exact ⟨s₂, by rw [forEach, run_bind_ok hrun, hrest], hs₂⟩

theorem run_forEach_append (f : α → Action ε σ Unit) (l l' : List α) (s : σ) :
    forEach f (l ++ l') s = (forEach f l >>= fun _ => forEach f l') s := by
  induction l generalizing s with
  | nil => rfl
  | cons a l ih =>
    rw [List.cons_append, forEach, forEach, run_bind, run_bind, run_bind]
    cases f a s with
    | mk r s' =>
      cases r with
      | error e => rfl
      | ok u => exact ih s'

/-! ## The state after a success -/

/-- The state after `x`, if it succeeds. -/
def after (x : Action ε σ α) (s : σ) : Option σ :=
  match x s with
  | (.ok _, s') => some s'
  | (.error _, _) => none

theorem after_eq_some : after x s = some s' ↔ ∃ a, x s = (.ok a, s') := by
  unfold after
  cases h : x s with
  | mk r t => cases r <;> simp

theorem exists_bind_eq_ok {s'' : σ} :
    (∃ b, (x >>= f) s = (.ok b, s'')) ↔
      ∃ a s', x s = (.ok a, s') ∧ ∃ b, f a s' = (.ok b, s'') := by
  simp only [bind_eq_ok]
  constructor
  · rintro ⟨b, a, s', hx, hf⟩
    exact ⟨a, s', hx, b, hf⟩
  · rintro ⟨a, s', hx, b, hf⟩
    exact ⟨b, a, s', hx, hf⟩

/-- A loop that succeeds is a run of its turns. -/
theorem forEach_eq_ok {f : α → Action ε σ Unit} :
    forEach f l s = (.ok (), s') ↔ run (fun s a => after (f a) s) s l = some s' := by
  induction l generalizing s with
  | nil => simp [forEach]
  | cons a l ih =>
    rw [forEach, bind_eq_ok, run_cons]
    simp only [after_eq_some, ih]
    constructor
    · rintro ⟨u, s₁, hx, hrest⟩
      exact ⟨s₁, ⟨u, hx⟩, hrest⟩
    · rintro ⟨s₁, ⟨u, hx⟩, hrest⟩
      exact ⟨u, s₁, hx, hrest⟩

theorem exists_mapEach_eq_ok :
    (∃ bs, mapEach f l s = (.ok bs, s')) ↔ run (fun s a => after (f a) s) s l = some s' := by
  induction l generalizing s with
  | nil => simp [mapEach]
  | cons a l ih =>
    rw [mapEach, exists_bind_eq_ok, run_cons]
    simp only [exists_bind_eq_ok, after_eq_some, ← ih]
    constructor
    · rintro ⟨b, s₁, hx, bs, s₂, hbs, hlast⟩
      obtain rfl : s₂ = s' := by simpa using hlast
      exact ⟨s₁, ⟨b, hx⟩, bs, hbs⟩
    · rintro ⟨s₁, ⟨b, hx⟩, bs, hbs⟩
      exact ⟨b, s₁, hx, bs, s', hbs, b :: bs, rfl⟩

theorem length_of_mapEach {bs : List β} (h : mapEach f l s = (.ok bs, s')) :
    bs.length = l.length := by
  induction l generalizing s bs with
  | nil =>
    obtain ⟨rfl, -⟩ : [] = bs ∧ s = s' := by simpa [mapEach] using h
    rfl
  | cons a l ih =>
    obtain ⟨b, s₁, -, h⟩ := bind_eq_ok.mp h
    obtain ⟨bs', s₂, hbs, h⟩ := bind_eq_ok.mp h
    obtain ⟨rfl, rfl⟩ : b :: bs' = bs ∧ s₂ = s' := by simpa using h
    rw [List.length_cons, ih hbs, List.length_cons]

/-! ## Frames -/

/-- `x` neither sees nor undoes the change `f` makes to the state. -/
def Frames (f : σ → σ) (x : Action ε σ α) : Prop := ∀ s, x (f s) = ((x s).1, f (x s).2)

theorem Frames.bind {f : σ → σ} {g : α → Action ε σ β} (hx : Frames f x)
    (hg : ∀ a, Frames f (g a)) : Frames f (x >>= g) := by
  intro s
  rw [run_bind, run_bind, hx s]
  cases h : x s with
  | mk r s' =>
    cases r with
    | ok a => exact hg a s'
    | error e => rfl

/-- What is read does not show the change. -/
theorem Frames.get_bind {f : σ → σ} {g : σ → Action ε σ α} (hread : ∀ s, g (f s) = g s)
    (hg : ∀ s, Frames f (g s)) : Frames f (get >>= g) := by
  intro s
  rw [run_bind_ok (run_get (f s)), run_bind_ok (run_get s), hread s, hg s s]

theorem Frames.mapEach {f : σ → σ} {g : α → Action ε σ β} (hg : ∀ a, Frames f (g a)) (l : List α) :
    Frames f (mapEach g l) := by
  induction l with
  | nil => exact fun _ => rfl
  | cons a l ih =>
    refine Frames.bind (hg a) fun b => Frames.bind ih fun bs => ?_
    exact fun _ => rfl

theorem Frames.forEach {f : σ → σ} {g : α → Action ε σ Unit} (hg : ∀ a, Frames f (g a)) (l : List α) :
    Frames f (forEach g l) := by
  induction l with
  | nil => exact fun _ => rfl
  | cons a l ih => exact Frames.bind (hg a) fun _ => ih

/-! ## Errors an action never returns -/

/-- `x` never fails with `e`. -/
def Avoids (e : ε) (x : Action ε σ α) : Prop := ∀ s, (x s).1 ≠ .error e

theorem Avoids.pure (e : ε) (a : α) : Avoids e (pure a : Action ε σ α) := fun _ h => by cases h

theorem Avoids.require {e' : ε} (h : e' ≠ e) (c : Bool) :
    Avoids e (require c e' : Action ε σ Unit) := by
  intro s hs
  cases c with
  | true => cases hs
  | false =>
    injection hs with hs
    exact h hs

theorem Avoids.bind (hx : Avoids e x) (hf : ∀ a, Avoids e (f a)) : Avoids e (x >>= f) := by
  intro s
  rw [run_bind]
  split
  · next a s' h => exact hf a s'
  · next e' s' h =>
    have := hx s
    rw [h] at this
    simpa using this

theorem Avoids.mapEach (hf : ∀ a, Avoids e (f a)) (l : List α) : Avoids e (mapEach f l) := by
  induction l with
  | nil => exact Avoids.pure e []
  | cons a l ih =>
    exact Avoids.bind (hf a) fun b => Avoids.bind ih fun bs => Avoids.pure e (b :: bs)

theorem Avoids.forEach {f : α → Action ε σ Unit} (hf : ∀ a, Avoids e (f a)) (l : List α) :
    Avoids e (forEach f l) := by
  induction l with
  | nil => exact Avoids.pure e ()
  | cons a l ih => exact Avoids.bind (hf a) fun _ => ih

/-! ## Actions that stay within a relation -/

variable {R : σ → σ → Prop}

/-- However `x` ends, it moves the state within `R`. -/
def Keeps (R : σ → σ → Prop) (x : Action ε σ α) : Prop := ∀ s, R s (x s).2

theorem Keeps.of_eq (hrefl : ∀ a, R a a) (h : ∀ s, (x s).2 = s) : Keeps R x := by
  intro s
  rw [h s]
  exact hrefl s

theorem Keeps.modify {f : σ → σ} (h : ∀ s, R s (f s)) : Keeps R (modify f : Action ε σ Unit) := h

theorem Keeps.get_bind {f : σ → Action ε σ α} (h : ∀ s, R s (f s s).2) : Keeps R (get >>= f) := h

theorem Keeps.require_bind (hrefl : ∀ a, R a a) (h : c = true → Keeps R x) :
    Keeps R (require c e >>= fun _ => x) := by
  intro s
  cases c with
  | true => exact h rfl s
  | false => exact hrefl s

theorem Keeps.orThrow_bind (hrefl : ∀ a, R a a) (h : ∀ a, o = some a → Keeps R (f a)) :
    Keeps R (orThrow o e >>= f) := by
  intro s
  cases o with
  | none => exact hrefl s
  | some a => exact h a rfl s

theorem Keeps.bind (htrans : ∀ a b c, R a b → R b c → R a c) (hx : Keeps R x)
    (hf : ∀ a, Keeps R (f a)) : Keeps R (x >>= f) := by
  intro s
  have hs := hx s
  rw [run_bind]
  split
  · next a s' h =>
    rw [h] at hs
    exact htrans _ _ _ hs (hf a s')
  · next e s' h =>
    rw [h] at hs
    exact hs

theorem Keeps.forEach (hrefl : ∀ a, R a a) (htrans : ∀ a b c, R a b → R b c → R a c)
    {f : α → Action ε σ Unit} (hf : ∀ a ∈ l, Keeps R (f a)) : Keeps R (forEach f l) := by
  induction l with
  | nil => exact hrefl
  | cons a l ih =>
    exact Keeps.bind htrans (hf a List.mem_cons_self) fun _ =>
      ih fun b hb => hf b (List.mem_cons_of_mem a hb)

theorem Keeps.mapEach (hrefl : ∀ a, R a a) (htrans : ∀ a b c, R a b → R b c → R a c)
    (hf : ∀ a, Keeps R (f a)) (l : List α) : Keeps R (mapEach f l) := by
  induction l with
  | nil => exact hrefl
  | cons a l ih =>
    exact Keeps.bind htrans (hf a) fun b => Keeps.bind htrans ih fun bs => hrefl

/-! ## Two runs side by side -/

/-- Runs of `x` from related states return the same and end in related states. -/
def Respects (R : σ → σ → Prop) (x : Action ε σ α) : Prop :=
  ∀ s t, R s t → (x s).1 = (x t).1 ∧ R (x s).2 (x t).2

theorem Respects.of_const {r : Except ε α} (h : ∀ s, x s = (r, s)) : Respects R x := by
  intro s t hst
  rw [h s, h t]
  exact ⟨rfl, hst⟩

theorem Respects.bind (hx : Respects R x) (hf : ∀ a, Respects R (f a)) : Respects R (x >>= f) := by
  intro s t hst
  obtain ⟨hres, hrel⟩ := hx s t hst
  rw [run_bind, run_bind]
  cases hs : x s with
  | mk r s' =>
    cases ht : x t with
    | mk r' t' =>
      rw [hs, ht] at hres hrel
      obtain rfl : r = r' := hres
      cases r with
      | ok a => exact hf a s' t' hrel
      | error e => exact ⟨rfl, hrel⟩

theorem Respects.get_bind {g : σ → Action ε σ α} (hread : ∀ s t, R s t → g s = g t)
    (hg : ∀ s, Respects R (g s)) : Respects R (get >>= g) := by
  intro s t hst
  rw [run_bind_ok (run_get s), run_bind_ok (run_get t), ← hread s t hst]
  exact hg s s t hst

theorem Respects.mapEach (hf : ∀ a ∈ l, Respects R (f a)) : Respects R (mapEach f l) := by
  induction l with
  | nil => exact Respects.of_const fun _ => rfl
  | cons a l ih =>
    refine Respects.bind (hf a List.mem_cons_self) fun b =>
      Respects.bind (ih fun c hc => hf c (List.mem_cons_of_mem a hc)) fun bs => ?_
    exact Respects.of_const fun _ => rfl

/-- `x` stays within `R` and returns `v` of the state it started in. -/
def Reads (R : σ → σ → Prop) (x : Action ε σ α) (v : σ → Option α) : Prop :=
  ∀ s, R s (x s).2 ∧ (x s).1.toOption = v s

/-- States related by `R` look the same to `v`. -/
def Blind (R : σ → σ → Prop) (v : σ → α) : Prop := ∀ s s', R s s' → v s = v s'

theorem Reads.pure (hrefl : ∀ a, R a a) (a : α) :
    Reads R (pure a : Action ε σ α) fun _ => some a := fun s => ⟨hrefl s, rfl⟩

theorem Reads.require (hrefl : ∀ a, R a a) (c : Bool) (e : ε) :
    Reads R (require c e : Action ε σ Unit) fun _ => if c then some () else none := by
  intro s
  refine ⟨hrefl s, ?_⟩
  cases c <;> rfl

theorem Reads.bind (htrans : ∀ a b c, R a b → R b c → R a c) (hx : Reads R x v)
    (hf : ∀ a, Reads R (f a) (w a)) (hw : ∀ a, Blind R (w a)) :
    Reads R (x >>= f) fun s => (v s).bind fun a => w a s := by
  intro s
  obtain ⟨hs, hv⟩ := hx s
  rw [run_bind]
  split
  · next a s' h =>
    rw [h] at hs hv
    obtain ⟨hs', hw'⟩ := hf a s'
    refine ⟨htrans _ _ _ hs hs', ?_⟩
    show (f a s').1.toOption = (v s).bind fun a => w a s
    rw [hw', ← hv, ← hw a s s' hs]
    rfl
  · next e s' h =>
    rw [h] at hs hv
    refine ⟨hs, ?_⟩
    show none = (v s).bind fun a => w a s
    rw [← hv]
    rfl

/-- A read whose failure is handled. -/
theorem Reads.attempt_bind (htrans : ∀ a b c, R a b → R b c → R a c) {f : Except ε α → Action ε σ β}
    {w : Option α → σ → Option β} (hx : Reads R x v) (hf : ∀ r, Reads R (f r) (w r.toOption))
    (hw : ∀ o, Blind R (w o)) : Reads R (x.attempt >>= f) fun s => w (v s) s := by
  intro s
  obtain ⟨hs, hv⟩ := hx s
  obtain ⟨hs', hw'⟩ := hf (x s).1 (x s).2
  rw [run_bind_ok (run_attempt x s)]
  refine ⟨htrans _ _ _ hs hs', ?_⟩
  show (f (x s).1 (x s).2).1.toOption = w (v s) s
  rw [hw', hv, hw (v s) s (x s).2 hs]

theorem Reads.congr {w : σ → Option α} (hx : Reads R x v) (h : ∀ s, v s = w s) :
    Reads R x w := fun s => ⟨(hx s).1, (hx s).2.trans (h s)⟩

theorem Reads.run_ok (hx : Reads R x v) (h : v s = some a) : ∃ s', x s = (.ok a, s') ∧ R s s' := by
  obtain ⟨hs, hv⟩ := hx s
  refine ⟨(x s).2, ?_, hs⟩
  cases hr : (x s).1 with
  | ok b =>
    rw [hr, h] at hv
    cases hv
    rw [← hr]
  | error e =>
    rw [hr, h] at hv
    cases hv

theorem Reads.run_error (hx : Reads R x v) (h : v s = none) :
    ∃ e s', x s = (.error e, s') ∧ R s s' := by
  obtain ⟨hs, hv⟩ := hx s
  cases hr : (x s).1 with
  | ok b =>
    rw [hr, h] at hv
    cases hv
  | error e =>
    refine ⟨e, (x s).2, ?_, hs⟩
    rw [← hr]

theorem Blind.mapM (hw : ∀ a, Blind R (w a)) (l : List α) :
    Blind R fun s => l.mapM fun a => w a s := by
  intro s s' h
  have : (fun a => w a s) = fun a => w a s' := funext fun a => hw a s s' h
  simp only [this]

theorem mapM_guard (c : α → Bool) (g : α → β) (l : List α) :
    (l.mapM fun a => if c a then some (g a) else none) =
      if l.all c then some (l.map g) else none := by
  induction l with
  | nil => rfl
  | cons a l ih =>
    rw [List.mapM_cons, ih, List.all_cons]
    cases c a <;> cases l.all c <;> rfl

/-- A loop of reads returns the list of what each read returns. -/
theorem Reads.mapEach (hrefl : ∀ a, R a a) (htrans : ∀ a b c, R a b → R b c → R a c)
    (hf : ∀ a, Reads R (f a) (w a)) (hw : ∀ a, Blind R (w a)) (l : List α) :
    Reads R (mapEach f l) fun s => l.mapM fun a => w a s := by
  induction l with
  | nil => exact Reads.pure hrefl []
  | cons a l ih =>
    have htail : ∀ b, Reads R (Action.mapEach f l >>= fun bs => Pure.pure (b :: bs))
        fun s => (l.mapM fun a => w a s).bind fun bs => some (b :: bs) := fun b =>
      Reads.bind htrans ih (fun bs => Reads.pure hrefl _) fun _ _ _ _ => rfl
    refine (Reads.bind htrans (hf a) htail fun b s s' h => ?_).congr fun s => ?_
    · exact congrArg (Option.bind · fun bs => some (b :: bs)) (Blind.mapM hw l s s' h)
    · rw [List.mapM_cons]
      rfl

end Action

end Emulator
