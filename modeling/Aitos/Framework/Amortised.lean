import Aitos.Framework.Run

/-!
# What a run costs

A run is paid for out of a potential: if each step costs no more than the potential loses and the
step brings in, then the whole run costs no more than its first state has and its steps bring in.
-/

namespace Aitos.Framework

namespace System

variable {σ ε : Type*}

section Costs

variable (S : System σ ε) (during : σ → Prop) (cost income : σ → ε → σ → Nat)

/-- A run from `s` that stays in `during`, with its cost and its income. -/
inductive Costs (s : σ) : Nat → Nat → σ → Prop where
  | refl : during s → Costs s 0 0 s
  | step {n m : Nat} {s' s'' : σ} {e : ε} : Costs s n m s' → S.step s' e s'' → during s'' →
      Costs s (n + cost s' e s'') (m + income s' e s'') s''

variable {S during cost income}

theorem Costs.inside {s s' : σ} {n m : Nat} (h : S.Costs during cost income s n m s') :
    during s' := by
  cases h with
  | refl h => exact h
  | step _ _ h => exact h

theorem Costs.reachable {s s' : σ} {n m : Nat} (h : S.Costs during cost income s n m s')
    (hs : S.Reachable s) : S.Reachable s' := by
  induction h with
  | refl _ => exact hs
  | step _ hstep _ ih => exact .step ih hstep

theorem Costs.bound (potential : σ → Nat)
    (hstep : ∀ s e s', S.Reachable s → during s → during s' → S.step s e s' →
      potential s' + cost s e s' ≤ potential s + income s e s')
    {s s' : σ} {n m : Nat} (h : S.Costs during cost income s n m s') (hs : S.Reachable s) :
    n + potential s' ≤ potential s + m := by
  induction h with
  | refl _ => rw [Nat.zero_add, Nat.add_zero]
  | @step n m s₁ s₂ e h hnext hduring ih =>
      have hone := hstep s₁ e s₂ (h.reachable hs) h.inside hduring hnext
      omega

end Costs

end System

end Aitos.Framework
