import Aitos.Framework.Hoare

/-!
# Code on a part of the state

A lens picks out a part of a state.  `zoom` runs code for the part on the whole, and commutes with
the operations that code is put together from.
-/

namespace Aitos.Framework

variable {σ τ ε α β : Type}

structure Lens (σ τ : Type) where
  get : σ → τ
  set : σ → τ → σ
  get_set : ∀ s t, get (set s t) = t
  set_get : ∀ s, set s (get s) = s
  set_set : ∀ s t t', set (set s t) t' = set s t'

namespace Lens

variable (L : Lens σ τ)

def zoom (m : Code τ ε α) : Code σ ε α := fun s =>
  match m (L.get s) with
  | .ok (a, t) => .ok (a, L.set s t)
  | .error e => .error e

theorem zoom_ok {m : Code τ ε α} {s : σ} {a : α} {t : τ} (h : m (L.get s) = .ok (a, t)) :
    L.zoom m s = .ok (a, L.set s t) := by
  rw [zoom, h]

theorem zoom_pure (a : α) : L.zoom (pure a : Code τ ε α) = pure a := by
  funext s
  have h : L.zoom (pure a : Code τ ε α) s = .ok (a, L.set s (L.get s)) := rfl
  rw [h, L.set_get]
  rfl

theorem zoom_bind (m : Code τ ε α) (f : α → Code τ ε β) :
    L.zoom (m >>= f) = L.zoom m >>= fun a => L.zoom (f a) := by
  funext s
  cases hm : m (L.get s) with
  | error e =>
      have hbind : (m >>= f) (L.get s) = .error e := by
        change (m (L.get s) >>= fun p => f p.1 p.2) = _
        rw [hm]
        rfl
      have hzoom : L.zoom m s = .error e := by rw [zoom, hm]
      change _ = (L.zoom m s >>= fun p => L.zoom (f p.1) p.2)
      rw [zoom, hbind, hzoom]
      rfl
  | ok out =>
      obtain ⟨a, t⟩ := out
      rw [Code.bind_of_ok (L.zoom_ok hm), zoom, zoom, Code.bind_of_ok hm, L.get_set]
      cases f a t with
      | error e => rfl
      | ok out =>
          dsimp only
          rw [L.set_set]

theorem zoom_ite {c : Prop} [Decidable c] (m n : Code τ ε α) :
    L.zoom (if c then m else n) = if c then L.zoom m else L.zoom n := by
  split <;> rfl

end Lens

end Aitos.Framework
