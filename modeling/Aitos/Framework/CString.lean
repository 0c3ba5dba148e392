import Aitos.Framework.Bytes

/-!
# NUL-terminated strings

`StringAt mem p l` says that the characters `l`, none of them NUL, stand from `p` on and a NUL
follows them.
-/

namespace Aitos.Framework

def StringAt (mem : Bytes) : Nat → List UInt8 → Prop
  | p, [] => mem p = 0
  | p, c :: l => mem p = c ∧ c ≠ 0 ∧ StringAt mem (p + 1) l

namespace StringAt

variable {mem mem' : Bytes} {p : Nat} {c : UInt8} {l : List UInt8}

theorem head (h : StringAt mem p (c :: l)) : mem p = c := h.1

theorem tail (h : StringAt mem p (c :: l)) : StringAt mem (p + 1) l := h.2.2

theorem ne_zero (h : StringAt mem p l) : ∀ c ∈ l, c ≠ 0 := by
  induction l generalizing p with
  | nil => simp
  | cons c l ih =>
      intro d hd
      rcases List.mem_cons.mp hd with rfl | hd
      · exact h.2.1
      · exact ih h.tail d hd

theorem getD (h : StringAt mem p l) {i : Nat} (hi : i < l.length) : mem (p + i) = l.getD i 0 := by
  induction l generalizing p i with
  | nil => exact absurd hi (Nat.not_lt_zero i)
  | cons c l ih =>
      cases i with
      | zero => exact h.head
      | succ i =>
          have hnext := ih h.tail (Nat.lt_of_succ_lt_succ hi)
          rw [Nat.add_assoc, Nat.add_comm 1 i] at hnext
          exact hnext

theorem terminated (h : StringAt mem p l) : mem (p + l.length) = 0 := by
  induction l generalizing p with
  | nil => exact h
  | cons c l ih =>
      have hend := ih h.tail
      rwa [Nat.add_assoc, Nat.add_comm 1 l.length] at hend

theorem congr (h : StringAt mem p l) (hmem : ∀ i, p ≤ i → i ≤ p + l.length → mem' i = mem i) :
    StringAt mem' p l := by
  induction l generalizing p with
  | nil => exact (hmem p le_rfl (by omega)).trans h
  | cons c l ih =>
      rw [List.length_cons] at hmem
      refine ⟨(hmem p le_rfl (by omega)).trans h.1, h.2.1, ih h.tail ?_⟩
      intro i hi hi'
      exact hmem i (by omega) (by omega)

theorem of_getD (hl : ∀ i, i < l.length → mem (p + i) = l.getD i 0) (hend : mem (p + l.length) = 0)
    (hne : 0 ∉ l) : StringAt mem p l := by
  induction l generalizing p with
  | nil => exact hend
  | cons c l ih =>
      rw [List.mem_cons, not_or] at hne
      refine ⟨hl 0 (Nat.zero_lt_succ _), fun h => hne.1 h.symm, ih (fun i hi => ?_) ?_ hne.2⟩
      · rw [Nat.add_assoc, Nat.add_comm 1 i]
        exact hl (i + 1) (Nat.succ_lt_succ hi)
      · rw [Nat.add_assoc, Nat.add_comm 1 l.length]
        exact hend

theorem push (h : StringAt mem (p + 1) l) (hc : c ≠ 0) :
    StringAt (Function.update mem p c) p (c :: l) := by
  refine ⟨Function.update_self .., hc, h.congr ?_⟩
  intro i hi _
  exact Function.update_of_ne (by omega) _ _

end StringAt

end Aitos.Framework
