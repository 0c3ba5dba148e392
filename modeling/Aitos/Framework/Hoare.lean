import Mathlib

/-!
# Stateful code that may stop

A function of an imperative program is a state transformer that returns a value or stops the
machine.  `wp m E Q` is the weakest precondition for returning in `Q` or stopping in `E`;
`Keeps R m` relates the states before and after a run that returns; `Couples R m n` relates two
runs that return.
-/

namespace Aitos.Framework

variable {σ ε α β : Type}

abbrev Code (σ ε α : Type) := StateT σ (Except ε) α

namespace Code

@[simp]
theorem bind_ok {m : Code σ ε α} {f : α → Code σ ε β} {s s' : σ} {b : β} :
    (m >>= f) s = .ok (b, s') ↔ ∃ a s₁, m s = .ok (a, s₁) ∧ f a s₁ = .ok (b, s') := by
  change (m s >>= fun p => f p.1 p.2) = _ ↔ _
  cases hm : m s with
  | error e =>
      constructor
      · intro h
        cases h
      · rintro ⟨a, s₁, h, -⟩
        cases h
  | ok p =>
      constructor
      · intro h
        exact ⟨p.1, p.2, rfl, h⟩
      · rintro ⟨a, s₁, h, h'⟩
        cases h
        exact h'

/-- The rest of the code runs in the state its first part returns in. -/
theorem bind_of_ok {m : Code σ ε α} {f : α → Code σ ε β} {s s₁ : σ} {a : α}
    (h : m s = .ok (a, s₁)) : (m >>= f) s = f a s₁ := by
  change (m s >>= fun p => f p.1 p.2) = _
  rw [h]
  rfl

theorem bind_of_error {m : Code σ ε α} {f : α → Code σ ε β} {s : σ} {e : ε}
    (h : m s = .error e) : (m >>= f) s = .error e := by
  change (m s >>= fun p => f p.1 p.2) = _
  rw [h]
  rfl

@[simp]
theorem pure_ok {a b : α} {s s' : σ} :
    (pure a : Code σ ε α) s = .ok (b, s') ↔ b = a ∧ s' = s := by
  change Except.ok (a, s) = Except.ok (b, s') ↔ _
  simp [eq_comm]

@[simp]
theorem map_ok {m : Code σ ε α} {f : α → β} {s s' : σ} {b : β} :
    (f <$> m) s = .ok (b, s') ↔ ∃ a, m s = .ok (a, s') ∧ b = f a := by
  rw [map_eq_pure_bind, bind_ok]
  simp

@[simp]
theorem throw_ok {e : ε} {a : α} {s s' : σ} :
    (throw e : Code σ ε α) s = .ok (a, s') ↔ False := by
  constructor
  · intro h
    cases h
  · exact False.elim

@[simp]
theorem get_ok {s s' b : σ} : (get : Code σ ε σ) s = .ok (b, s') ↔ b = s ∧ s' = s := by
  change Except.ok (s, s) = Except.ok (b, s') ↔ _
  simp [eq_comm]

@[simp]
theorem modify_ok {f : σ → σ} {s s' : σ} {u : Unit} :
    (modify f : Code σ ε Unit) s = .ok (u, s') ↔ s' = f s := by
  change Except.ok ((), f s) = Except.ok (u, s') ↔ _
  simp [eq_comm]

@[simp]
theorem get_bind {f : σ → Code σ ε α} {s : σ} : (get >>= f) s = f s s := rfl

@[simp]
theorem modify_bind {g : σ → σ} {f : Unit → Code σ ε α} {s : σ} :
    (modify g >>= f) s = f () (g s) := rfl

/-- A result that was computed -/
theorem ok_of_toOption {m : Code σ ε α} {s : σ} {out : α × σ} (h : out ∈ (m s).toOption) :
    m s = .ok out := by
  cases hm : m s with
  | error e =>
      rw [hm] at h
      cases h
  | ok out' =>
      rw [hm] at h
      cases h
      rfl

theorem exists_of_toOption {m : Code σ ε α} {s : σ} {f : σ → β} {b : β}
    (h : (m s).toOption.map (fun out => f out.2) = some b) :
    ∃ a s', m s = .ok (a, s') ∧ f s' = b := by
  obtain ⟨⟨a, s'⟩, hout, hb⟩ := Option.map_eq_some_iff.mp h
  exact ⟨a, s', ok_of_toOption hout, hb⟩

theorem returns_of_toOption {m : Code σ ε α} {s : σ} {a : α}
    (h : (m s).toOption.map (fun out => out.1) = some a) : ∃ s', m s = .ok (a, s') := by
  obtain ⟨⟨a', s'⟩, hout, rfl⟩ := Option.map_eq_some_iff.mp h
  exact ⟨s', ok_of_toOption hout⟩

end Code

/-- A run that returns relates the states before and after it. -/
def Keeps (R : σ → σ → Prop) (m : Code σ ε α) : Prop :=
  ∀ s a s', m s = .ok (a, s') → R s s'

section Wp

/-- From `s`, the code returns as `Q` says or stops as `E` says. -/
def wp (m : Code σ ε α) (E : ε → Prop) (Q : α → σ → Prop) (s : σ) : Prop :=
  match m s with
  | .ok (a, s') => Q a s'
  | .error e => E e

variable {E : ε → Prop} {s : σ}

@[simp]
theorem wp_pure {a : α} {Q : α → σ → Prop} : wp (pure a : Code σ ε α) E Q s ↔ Q a s := Iff.rfl

@[simp]
theorem wp_throw {e : ε} {Q : α → σ → Prop} : wp (throw e : Code σ ε α) E Q s ↔ E e := Iff.rfl

@[simp]
theorem wp_get {Q : σ → σ → Prop} : wp (get : Code σ ε σ) E Q s ↔ Q s s := Iff.rfl

@[simp]
theorem wp_modify {f : σ → σ} {Q : Unit → σ → Prop} :
    wp (modify f : Code σ ε Unit) E Q s ↔ Q () (f s) := Iff.rfl

@[simp]
theorem wp_bind {m : Code σ ε α} {f : α → Code σ ε β} {Q : β → σ → Prop} :
    wp (m >>= f) E Q s ↔ wp m E (fun a s' => wp (f a) E Q s') s := by
  change (match (m s >>= fun p => f p.1 p.2) with | .ok (a, s') => Q a s' | .error e => E e) ↔ _
  unfold wp
  cases m s <;> rfl

theorem wp_mono {m : Code σ ε α} {Q Q' : α → σ → Prop} (h : wp m E Q s)
    (hQ : ∀ a s', Q a s' → Q' a s') : wp m E Q' s := by
  unfold wp at h ⊢
  cases hm : m s with
  | error e =>
      rw [hm] at h
      exact h
  | ok p =>
      rw [hm] at h
      exact hQ _ _ h

theorem wp_mono_stop {m : Code σ ε α} {E' : ε → Prop} {Q : α → σ → Prop} (h : wp m E Q s)
    (hE : ∀ e, E e → E' e) : wp m E' Q s := by
  unfold wp at h ⊢
  cases hm : m s with
  | error e =>
      rw [hm] at h
      exact hE e h
  | ok p =>
      rw [hm] at h
      exact h

theorem wp_ok {m : Code σ ε α} {Q : α → σ → Prop} {a : α} {s' : σ} (h : wp m E Q s)
    (hm : m s = .ok (a, s')) : Q a s' := by
  rw [wp, hm] at h
  exact h

end Wp

namespace Keeps

variable {R : σ → σ → Prop} [IsPreorder σ R] {m : Code σ ε α}

theorem pure {a : α} : Keeps R (pure a : Code σ ε α) := by
  intro s b s' hb
  obtain ⟨rfl, rfl⟩ := Code.pure_ok.mp hb
  exact refl_of R _

omit [IsPreorder σ R] in
theorem throw {e : ε} : Keeps R (throw e : Code σ ε α) := by
  intro s b s' hb
  exact (Code.throw_ok.mp hb).elim

theorem get : Keeps R (get : Code σ ε σ) := by
  intro s b s' hb
  obtain ⟨rfl, rfl⟩ := Code.get_ok.mp hb
  exact refl_of R _

omit [IsPreorder σ R] in
theorem modify {f : σ → σ} (h : ∀ s, R s (f s)) : Keeps R (modify f : Code σ ε Unit) := by
  intro s b s' hb
  obtain rfl := Code.modify_ok.mp hb
  exact h s

theorem bind {f : α → Code σ ε β} (h : Keeps R m) (hf : ∀ a, Keeps R (f a)) :
    Keeps R (m >>= f) := by
  intro s b s' hb
  obtain ⟨a, s₁, h₁, h₂⟩ := Code.bind_ok.mp hb
  exact trans_of R (h s a s₁ h₁) (hf a s₁ b s' h₂)

omit [IsPreorder σ R] in
/-- A part that only does what `E` absorbs comes before one that does `E`. -/
theorem before {E : σ → σ → Prop} {f : α → Code σ ε β} (h : Keeps R m)
    (hf : ∀ a, Keeps E (f a)) (hE : ∀ {s s₁ s'}, R s s₁ → E s₁ s' → E s s') :
    Keeps E (m >>= f) := by
  intro s b s' hb
  obtain ⟨a, s₁, h₁, h₂⟩ := Code.bind_ok.mp hb
  exact hE (h s a s₁ h₁) (hf a s₁ b s' h₂)

omit [IsPreorder σ R] in
/-- A part that only does what `E` absorbs comes after one that does `E`. -/
theorem after {E : σ → σ → Prop} {f : α → Code σ ε β} (h : Keeps E m)
    (hf : ∀ a, Keeps R (f a)) (hE : ∀ {s s₁ s'}, E s s₁ → R s₁ s' → E s s') :
    Keeps E (m >>= f) := by
  intro s b s' hb
  obtain ⟨a, s₁, h₁, h₂⟩ := Code.bind_ok.mp hb
  exact hE (h s a s₁ h₁) (hf a s₁ b s' h₂)

omit [IsPreorder σ R] in
theorem weaken {E : σ → σ → Prop} (h : Keeps R m) (hE : ∀ {s s'}, R s s' → E s s') : Keeps E m :=
  fun s a s' ha => hE (h s a s' ha)

omit [IsPreorder σ R] in
theorem ite {c : Prop} [Decidable c] {n : Code σ ε α} (ht : Keeps R m) (he : Keeps R n) :
    Keeps R (if c then m else n) := by
  split
  · exact ht
  · exact he

end Keeps

/-- Two runs from related states that both return give the same value and related states. -/
def Couples (R : σ → σ → Prop) (m n : Code σ ε α) : Prop :=
  ∀ s s' a a' t t', R s s' → m s = .ok (a, t) → n s' = .ok (a', t') → a = a' ∧ R t t'

namespace Couples

variable {R : σ → σ → Prop} {m n : Code σ ε α}

theorem ok {s s' t t' : σ} {a a' : α} (h : Couples R m n) (hR : R s s') (hm : m s = .ok (a, t))
    (hn : n s' = .ok (a', t')) : a = a' ∧ R t t' := h s s' a a' t t' hR hm hn

theorem pure {a : α} : Couples R (pure a : Code σ ε α) (pure a) := by
  intro s s' b b' t t' hR h h'
  obtain ⟨rfl, rfl⟩ := Code.pure_ok.mp h
  obtain ⟨rfl, rfl⟩ := Code.pure_ok.mp h'
  exact ⟨rfl, hR⟩

theorem throw {e : ε} : Couples R (throw e) n := by
  intro s s' a a' t t' _ h
  exact (Code.throw_ok.mp h).elim

theorem bind {f g : α → Code σ ε β} (h : Couples R m n) (hf : ∀ a, Couples R (f a) (g a)) :
    Couples R (m >>= f) (n >>= g) := by
  intro s s' b b' t t' hR hm hn
  obtain ⟨a, u, hm₁, hm₂⟩ := Code.bind_ok.mp hm
  obtain ⟨a', u', hn₁, hn₂⟩ := Code.bind_ok.mp hn
  obtain ⟨rfl, hR'⟩ := h.ok hR hm₁ hn₁
  exact (hf a).ok hR' hm₂ hn₂

theorem ite {c : Prop} [Decidable c] {m' n' : Code σ ε α} (ht : Couples R m n)
    (he : Couples R m' n') : Couples R (if c then m else m') (if c then n else n') := by
  split
  · exact ht
  · exact he

end Couples

end Aitos.Framework
