import Mathlib.Data.Nat.Notation
import Mathlib.Logic.Relation

/-!
# Guarded transition systems

A system is a partial step function `step : σ → α → Option σ`: in state `s` the action `a` is
either not possible (`none`) or leads to exactly one state. All nondeterminism sits in the choice
of the action, so a run is a list of actions and can be executed.

A *guard* `ok : σ → α → Prop` restricts which actions a run may take in which states. Two uses:
an environment assumption ("the clock never goes back"), and the exact condition under which a
property survives ("no step falls into this window"). The guard reads the state *before* the step.

## Main definitions

* `TransitionSystem.Step`, `Reachable` — one guarded step, and finitely many
* `TransitionSystem.exec` — run a list of actions, checking the guard on the way

## Main results

* `Reachable.invariant` — the invariant rule
* `Reachable.invariant_of_reachable` — the same relative to what is already known of every state
* `reachable_iff_exec` — reachability is execution of some list of actions
* `exec_foldl` — the rule for a property that refers to the actions of the run
* `exec_measure` — the rule for runs that come to an end
-/

namespace TransitionSystem

variable {σ α : Type*} {step : σ → α → Option σ} {ok : σ → α → Prop}

/-- The guard that allows every action. -/
def anyAction (_ : σ) (_ : α) : Prop := True

instance : DecidableRel (anyAction (σ := σ) (α := α)) := fun _ _ => instDecidableTrue

/-- One step of the system that the guard allows. -/
def Step (step : σ → α → Option σ) (ok : σ → α → Prop) (s t : σ) : Prop :=
  ∃ a, ok s a ∧ step s a = some t

/-- `t` is reached from `s` by finitely many guarded steps. -/
def Reachable (step : σ → α → Option σ) (ok : σ → α → Prop) : σ → σ → Prop :=
  Relation.ReflTransGen (Step step ok)

theorem Reachable.refl (s : σ) : Reachable step ok s s := Relation.ReflTransGen.refl

theorem Reachable.tail {s t u : σ} {a : α} (h : Reachable step ok s t) (ha : ok t a)
    (hstep : step t a = some u) : Reachable step ok s u :=
  Relation.ReflTransGen.tail h ⟨a, ha, hstep⟩

theorem Reachable.trans {s t u : σ} (h : Reachable step ok s t) (h' : Reachable step ok t u) :
    Reachable step ok s u :=
  Relation.ReflTransGen.trans h h'

/-- A run that a guard allows is a run of every weaker one. -/
theorem Reachable.mono {ok' : σ → α → Prop} {s t : σ} (h : Reachable step ok s t)
    (himp : ∀ u a, ok u a → ok' u a) : Reachable step ok' s t := by
  induction h with
  | refl => exact .refl s
  | tail _ hlast ih =>
    obtain ⟨a, ha, hs⟩ := hlast
    exact ih.tail (himp _ a ha) hs

/-- **The invariant rule.** What holds at the start and is kept by every guarded step holds in
every state reached. -/
theorem Reachable.invariant {P : σ → Prop} {s t : σ} (h : Reachable step ok s t) (h0 : P s)
    (hstep : ∀ u a v, P u → ok u a → step u a = some v → P v) : P t := by
  induction h with
  | refl => exact h0
  | tail _ hlast ih =>
    obtain ⟨a, ha, hs⟩ := hlast
    exact hstep _ a _ ih ha hs

/-- The invariant rule relative to a fact `J` already known of every reachable state. -/
theorem Reachable.invariant_of_reachable {P J : σ → Prop} {s t : σ} (h : Reachable step ok s t)
    (hJ : ∀ u, Reachable step ok s u → J u) (h0 : P s)
    (hstep : ∀ u a v, J u → P u → ok u a → step u a = some v → P v) : P t := by
  have key : Reachable step ok s t ∧ P t := by
    refine Reachable.invariant (P := fun u => Reachable step ok s u ∧ P u) h
      ⟨Reachable.refl s, h0⟩ ?_
    rintro u a v ⟨hu, hP⟩ ha hs
    exact ⟨hu.tail ha hs, hstep u a v (hJ u hu) hP ha hs⟩
  exact key.2

/-! ### Execution -/

variable [DecidableRel ok]

/-- Execute a list of actions from `s`. The result is `none` as soon as an action is not
possible or not allowed by the guard. -/
def exec (step : σ → α → Option σ) (ok : σ → α → Prop) [DecidableRel ok] :
    σ → List α → Option σ
  | s, [] => some s
  | s, a :: as => if ok s a then (step s a).bind fun t => exec step ok t as else none

theorem exec_cons_eq_some {s u : σ} {a : α} {as : List α} :
    exec step ok s (a :: as) = some u ↔
      ok s a ∧ ∃ t, step s a = some t ∧ exec step ok t as = some u := by
  simp only [exec, Option.ite_none_right_eq_some, Option.bind_eq_some_iff]

theorem exec_append {s u : σ} {as bs : List α} :
    exec step ok s (as ++ bs) = some u ↔
      ∃ t, exec step ok s as = some t ∧ exec step ok t bs = some u := by
  induction as generalizing s with
  | nil => simp [exec]
  | cons a as ih =>
    rw [List.cons_append, exec_cons_eq_some]
    constructor
    · rintro ⟨ha, t, hs, hrest⟩
      obtain ⟨v, hv, hu⟩ := ih.mp hrest
      exact ⟨v, exec_cons_eq_some.mpr ⟨ha, t, hs, hv⟩, hu⟩
    · rintro ⟨v, hv, hu⟩
      obtain ⟨ha, t, hs, hrest⟩ := exec_cons_eq_some.mp hv
      exact ⟨ha, t, hs, ih.mpr ⟨v, hrest, hu⟩⟩

/-- A state is reachable exactly when some list of actions executes to it. -/
theorem reachable_iff_exec {s t : σ} :
    Reachable step ok s t ↔ ∃ as, exec step ok s as = some t := by
  constructor
  · intro h
    induction h with
    | refl => exact ⟨[], rfl⟩
    | tail _ hlast ih =>
      obtain ⟨as, has⟩ := ih
      obtain ⟨a, ha, hs⟩ := hlast
      exact ⟨as ++ [a], exec_append.mpr ⟨_, has, exec_cons_eq_some.mpr ⟨ha, _, hs, rfl⟩⟩⟩
  · rintro ⟨as, has⟩
    induction as generalizing s with
    | nil => exact (Option.some.inj has) ▸ Reachable.refl s
    | cons a as ih =>
      obtain ⟨ha, u, hs, hrest⟩ := exec_cons_eq_some.mp has
      exact Relation.ReflTransGen.head ⟨a, ha, hs⟩ (ih hrest)

/-- **The history rule.** A property of a state and of what the actions so far add up to, kept by
every guarded step, holds at the end of a run. -/
theorem exec_foldl {γ : Type*} {P : γ → σ → Prop} (f : γ → α → γ) {s t : σ} {as : List α} {c : γ}
    (h : exec step ok s as = some t) (h0 : P c s)
    (hstep : ∀ c u a v, P c u → ok u a → step u a = some v → P (f c a) v) :
    P (as.foldl f c) t := by
  induction as generalizing s c with
  | nil => exact Option.some.inj h ▸ h0
  | cons a as ih =>
    obtain ⟨ha, u, hs, hrest⟩ := exec_cons_eq_some.mp h
    exact ih hrest (hstep c s a u h0 ha hs)

/-- **The rule for finite runs.** Where every guarded step keeps `P` and makes a measure smaller, no
run is longer than the measure at its start. -/
theorem exec_measure {P : σ → Prop} (m : σ → ℕ) {s t : σ} {as : List α}
    (h : exec step ok s as = some t) (h0 : P s)
    (hstep : ∀ u a v, P u → ok u a → step u a = some v → P v ∧ m v < m u) :
    P t ∧ as.length + m t ≤ m s := by
  induction as generalizing s with
  | nil =>
    obtain rfl := Option.some.inj h
    exact ⟨h0, by simp⟩
  | cons a as ih =>
    obtain ⟨ha, u, hs, hrest⟩ := exec_cons_eq_some.mp h
    obtain ⟨hu, hlt⟩ := hstep s a u h0 ha hs
    obtain ⟨ht, hle⟩ := ih hrest hu
    exact ⟨ht, by rw [List.length_cons]; omega⟩

/-- What a list of actions executes to is reachable. -/
theorem reachable_get {s : σ} {as : List α} (h : (exec step ok s as).isSome) :
    Reachable step ok s ((exec step ok s as).get h) :=
  reachable_iff_exec.mpr ⟨as, (Option.some_get h).symm⟩

end TransitionSystem
