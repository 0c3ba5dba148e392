import Mathlib

/-!
# Runs of a labelled system

A system is a set of initial states and a step relation labelled by what happens.  Everything
that is claimed of every run goes through `Reachable.invariant`; a condition that the steps of a
run have to meet is put into the system with `restrict`.
-/

namespace Aitos.Framework

variable {σ ε : Type*}

structure System (σ ε : Type*) where
  init : σ → Prop
  step : σ → ε → σ → Prop

namespace System

variable (S : System σ ε)

inductive Reachable : σ → Prop where
  | init {s : σ} : S.init s → Reachable s
  | step {s s' : σ} {e : ε} : Reachable s → S.step s e s' → Reachable s'

/-- The runs of `S` in which every step is taken from a state that allows it. -/
def restrict (ok : σ → ε → Prop) : System σ ε where
  init := S.init
  step s e s' := ok s e ∧ S.step s e s'

/-- The runs of `S` from the initial states in `P`. -/
def startingIn (P : σ → Prop) : System σ ε where
  init s := S.init s ∧ P s
  step := S.step

variable {S}

theorem Reachable.of_startingIn {P : σ → Prop} {s : σ} (h : (S.startingIn P).Reachable s) :
    S.Reachable s := by
  induction h with
  | init h => exact .init h.1
  | step _ h ih => exact .step ih h

theorem Reachable.invariant {P : σ → Prop} (hinit : ∀ s, S.init s → P s)
    (hstep : ∀ s e s', P s → S.step s e s' → P s') {s : σ} (h : S.Reachable s) : P s := by
  induction h with
  | init h => exact hinit _ h
  | step _ h ih => exact hstep _ _ _ ih h

theorem Reachable.of_restrict {ok : σ → ε → Prop} {s : σ} (h : (S.restrict ok).Reachable s) :
    S.Reachable s := by
  induction h with
  | init h => exact .init h
  | step _ h ih => exact .step ih h.2

/-- An invariant that is preserved by the steps taken inside another invariant. -/
theorem Reachable.invariant_of {P Q : σ → Prop} (hQ : ∀ s, S.Reachable s → Q s)
    (hinit : ∀ s, S.init s → P s) (hstep : ∀ s e s', Q s → P s → S.step s e s' → P s')
    {s : σ} (h : S.Reachable s) : P s := by
  induction h with
  | init h => exact hinit _ h
  | step hr h ih => exact hstep _ _ _ (hQ _ hr) ih h

/-- A list of events that can be executed one after the other is a run. -/
theorem Reachable.replay {next : σ → ε → Option σ} {es : List ε} {s s' : σ}
    (hnext : ∀ s e s', S.Reachable s → next s e = some s' → S.step s e s') (h : S.Reachable s)
    (hes : es.foldlM next s = some s') : S.Reachable s' := by
  induction es generalizing s with
  | nil =>
      cases hes
      exact h
  | cons e es ih =>
      rw [List.foldlM_cons, Option.bind_eq_bind, Option.bind_eq_some_iff] at hes
      obtain ⟨s₁, hs, hes'⟩ := hes
      exact ih (h.step (hnext s e s₁ h hs)) hes'

end System

end Aitos.Framework
