import Mathlib.Data.List.Basic

/-!
# Runs of a transition system

A system is a step function `step : σ → ε → Option σ`: the event decides what happens, and `none`
means that the event cannot happen in this state.

* `run_invariant` — what every step keeps holds after every run.
* `run_invariant_along` — the same for runs whose steps all meet a condition.
* `run_eq_none_of_measure` — a measure that every step lowers bounds the length of the runs.
* `exists_run_of_loop` — from a state that steps keep, there are runs of every length.
-/

namespace Emulator

variable {σ ε : Type} {step : σ → ε → Option σ}

/-- The state after a sequence of events. -/
def run (step : σ → ε → Option σ) : σ → List ε → Option σ
  | s, [] => some s
  | s, e :: es => (step s e).bind fun s' => run step s' es

variable {s s' : σ} {es : List ε} {P : σ → ε → Prop} {e : ε} {I : σ → Prop}

@[simp] theorem run_nil (s : σ) : run step s [] = some s := rfl

theorem run_cons {s'' : σ} :
    run step s (e :: es) = some s'' ↔ ∃ s', step s e = some s' ∧ run step s' es = some s'' := by
  rw [run, Option.bind_eq_some_iff]

theorem run_cons_of_step (h : step s e = some s') : run step s (e :: es) = run step s' es := by
  rw [run, h, Option.bind_some]

theorem run_append {s'' : σ} {es' : List ε} :
    run step s (es ++ es') = some s'' ↔ ∃ s', run step s es = some s' ∧ run step s' es' = some s'' := by
  induction es generalizing s with
  | nil => simp
  | cons e es ih =>
    rw [List.cons_append, run_cons]
    constructor
    · rintro ⟨s₁, hs₁, h⟩
      obtain ⟨s', h, h'⟩ := ih.mp h
      exact ⟨s', run_cons.mpr ⟨s₁, hs₁, h⟩, h'⟩
    · rintro ⟨s', h, h'⟩
      obtain ⟨s₁, hs₁, h⟩ := run_cons.mp h
      exact ⟨s₁, hs₁, ih.mpr ⟨s', h, h'⟩⟩

theorem run_map {α : Type} (g : α → ε) (s : σ) (as : List α) :
    run step s (as.map g) = run (fun s a => step s (g a)) s as := by
  induction as generalizing s with
  | nil => rfl
  | cons a as ih =>
    rw [List.map_cons, run, run]
    exact congrArg _ (funext fun s' => ih s')

/-- A system that a map of the states carries into another one runs as the other one does. -/
theorem run_commute {τ : Type} {step' : τ → ε → Option τ} {f : σ → τ}
    (h : ∀ s e, step' (f s) e = (step s e).map f) (s : σ) (es : List ε) :
    run step' (f s) es = (run step s es).map f := by
  induction es generalizing s with
  | nil => rfl
  | cons e es ih =>
    rw [run, run, h, Option.map_bind, Option.bind_map]
    exact congrArg _ (funext fun s' => ih s')

/-- Events that can always happen in the states of an invariant, and keep it, make a run. -/
theorem exists_run (hstep : ∀ e ∈ es, ∀ s, I s → ∃ s', step s e = some s' ∧ I s') (hs : I s) :
    ∃ s', run step s es = some s' ∧ I s' := by
  induction es generalizing s with
  | nil => exact ⟨s, rfl, hs⟩
  | cons e es ih =>
    obtain ⟨s₁, hs₁, hI⟩ := hstep e List.mem_cons_self s hs
    obtain ⟨s', hrun, hI'⟩ := ih (fun e' he' => hstep e' (List.mem_cons_of_mem e he')) hI
    exact ⟨s', run_cons.mpr ⟨s₁, hs₁, hrun⟩, hI'⟩

/-- Every step of the run, taken at state `s` with event `e`, meets `P s e`. -/
def Along (step : σ → ε → Option σ) (P : σ → ε → Prop) : σ → List ε → Prop
  | _, [] => True
  | s, e :: es => P s e ∧ ∀ s', step s e = some s' → Along step P s' es

theorem Along.cons (hP : P s e) (h : step s e = some s') (hes : Along step P s' es) :
    Along step P s (e :: es) := by
  refine ⟨hP, fun s'' h'' => ?_⟩
  obtain rfl := Option.some.inj (h.symm.trans h'')
  exact hes

theorem along_cons_iff (hP : P s e) (h : step s e = some s') :
    Along step P s (e :: es) ↔ Along step P s' es :=
  ⟨fun hes => hes.2 s' h, .cons hP h⟩

theorem along_of_mem (h : ∀ e ∈ es, ∀ s, P s e) : Along step P s es := by
  induction es generalizing s with
  | nil => trivial
  | cons e es ih =>
    exact ⟨h e List.mem_cons_self s, fun s' _ => ih fun e' he' => h e' (List.mem_cons_of_mem e he')⟩

theorem Along.and {Q : σ → ε → Prop} (hP : Along step P s es) (hQ : Along step Q s es) :
    Along step (fun s e => P s e ∧ Q s e) s es := by
  induction es generalizing s with
  | nil => trivial
  | cons e es ih => exact ⟨⟨hP.1, hQ.1⟩, fun s' hs' => ih (hP.2 s' hs') (hQ.2 s' hs')⟩

/-- A condition that follows from `P` in the states of an invariant, which steps meeting `P`
keep. -/
theorem Along.imp {Q : σ → ε → Prop} (hstep : ∀ s e s', I s → P s e → step s e = some s' → I s')
    (himp : ∀ s e, I s → P s e → Q s e) (hs : I s) (h : Along step P s es) : Along step Q s es := by
  induction es generalizing s with
  | nil => trivial
  | cons e es ih =>
    exact ⟨himp s e hs h.1, fun s' hs' => ih (hstep s e s' hs h.1 hs') (h.2 s' hs')⟩

/-- The conditions of a run are those of its first part and those of the rest. -/
theorem Along.append {es' : List ε} (h : Along step P s (es ++ es'))
    (hrun : run step s es = some s') : Along step P s es ∧ Along step P s' es' := by
  induction es generalizing s with
  | nil =>
    obtain rfl := Option.some.inj hrun
    exact ⟨trivial, h⟩
  | cons e es ih =>
    obtain ⟨s₁, hs₁, hrest⟩ := run_cons.mp hrun
    obtain ⟨h₁, h₂⟩ := ih (h.2 s₁ hs₁) hrest
    exact ⟨.cons h.1 hs₁ h₁, h₂⟩

/-- Conditions that can be checked at each step can be checked for a whole run. -/
instance decidableAlong {P : σ → ε → Prop} [∀ s e, Decidable (P s e)] :
    ∀ (s : σ) (es : List ε), Decidable (Along step P s es)
  | _, [] => isTrue trivial
  | s, e :: es =>
    match hs : step s e with
    | none => decidable_of_iff (P s e)
        ⟨fun h => ⟨h, fun s' hs' => by rw [hs] at hs'; cases hs'⟩, fun h => h.1⟩
    | some s' =>
      have : Decidable (Along step P s' es) := decidableAlong s' es
      decidable_of_iff (P s e ∧ Along step P s' es)
        ⟨fun h => .cons h.1 hs h.2, fun h => ⟨h.1, h.2 s' hs⟩⟩

/-- An invariant that every step meeting `P` keeps holds after every run of such steps. -/
theorem run_invariant_along (hstep : ∀ s e s', I s → P s e → step s e = some s' → I s') (hs : I s)
    (hP : Along step P s es) (h : run step s es = some s') : I s' := by
  induction es generalizing s with
  | nil =>
    cases h
    exact hs
  | cons e es ih =>
    obtain ⟨s₁, hs₁, h⟩ := run_cons.mp h
    exact ih (hstep s e s₁ hs hP.1 hs₁) (hP.2 s₁ hs₁) h

/-- An invariant that every step keeps holds after every run. -/
theorem run_invariant (hstep : ∀ s e s', I s → step s e = some s' → I s') (hs : I s)
    (h : run step s es = some s') : I s' := by
  induction es generalizing s with
  | nil =>
    cases h
    exact hs
  | cons e es ih =>
    obtain ⟨s₁, hs₁, h⟩ := run_cons.mp h
    exact ih (hstep s e s₁ hs hs₁) h

/-- Runs are not longer than a measure that every step lowers. -/
theorem run_eq_none_of_measure (μ : σ → ℕ)
    (hstep : ∀ s e s', I s → step s e = some s' → I s' ∧ μ s' < μ s) (hs : I s)
    (h : μ s < es.length) : run step s es = none := by
  induction es generalizing s with
  | nil => cases h
  | cons e es ih =>
    rw [run]
    cases he : step s e with
    | none => rfl
    | some s' =>
      obtain ⟨hs', hlt⟩ := hstep s e s' hs he
      rw [List.length_cons] at h
      exact ih hs' (by omega)

/-- A run goes on for ever in states that a step with some event keeps. -/
theorem exists_run_of_loop (hstep : ∀ s, I s → ∃ s', step s e = some s' ∧ I s')
    (h : run step s es = some s') (hs' : I s') (k : ℕ) :
    ∃ es' : List ε, es'.length = k ∧ run step s es' ≠ none := by
  have hloop : ∀ m : ℕ, ∀ t, I t → run step t (List.replicate m e) ≠ none := by
    intro m
    induction m with
    | zero => exact fun t _ => nofun
    | succ m ih =>
      intro t ht
      obtain ⟨t', hstep', ht'⟩ := hstep t ht
      rw [List.replicate_succ, run, hstep', Option.bind_some]
      exact ih t' ht'
  rcases Nat.lt_or_ge k es.length with hlt | hge
  · -- a shorter run is the front of the one that is there
    refine ⟨es.take k, by rw [List.length_take]; omega, fun hnone => ?_⟩
    rw [← List.take_append_drop k es] at h
    obtain ⟨t, ht, -⟩ := run_append.mp h
    rw [hnone] at ht
    cases ht
  · refine ⟨es ++ List.replicate (k - es.length) e, by simp; omega, fun hnone => ?_⟩
    obtain ⟨t, ht⟩ := Option.ne_none_iff_exists'.mp (hloop (k - es.length) s' hs')
    rw [run_append.mpr ⟨s', h, ht⟩] at hnone
    cases hnone

end Emulator
