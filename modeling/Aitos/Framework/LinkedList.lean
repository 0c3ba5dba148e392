import Mathlib

/-!
# Doubly linked lists in memory

A node is an address; the word there is its predecessor and the word four bytes on its successor.
`Linked m p xs q` says that the words of `m` link `p`, the nodes `xs` and `q` in this order.
Insertion and removal write words of the list's own nodes only.
-/

namespace Aitos.Framework

abbrev Words := Nat → Nat

def Linked (m : Words) : Nat → List Nat → Nat → Prop
  | p, [], q => m (p + 4) = q ∧ m q = p
  | p, x :: xs, q => m (p + 4) = x ∧ m x = p ∧ Linked m x xs q

/-- No node lies on the second word of another. -/
def Spread (l : List Nat) : Prop := ∀ x ∈ l, ∀ y ∈ l, x ≠ y + 4

/-- Link `e` in before `before`. -/
def insertBefore (m : Words) (before e : Nat) : Words :=
  let m := Function.update m (m before + 4) e
  let m := Function.update m e (m before)
  let m := Function.update m (e + 4) before
  Function.update m before e

/-- Link the neighbours of `e` with each other. -/
def unlink (m : Words) (e : Nat) : Words :=
  let m := Function.update m (m e + 4) (m (e + 4))
  Function.update m (m (e + 4)) (m e)

/-- Whether `obj` comes before `q`, walking from `e`; `none` when the steps do not reach. -/
def findFrom (m : Words) (q obj : Nat) : Nat → Nat → Option Bool
  | 0, _ => none
  | n + 1, e =>
      if e = q then some false else if e = obj then some true else findFrom m q obj n (m (e + 4))

/-- The nodes before `q`, walking from `e`. -/
def walk (m : Words) (q : Nat) : Nat → Nat → List Nat
  | 0, _ => []
  | n + 1, e => if e = q then [] else e :: walk m q n (m (e + 4))

/-- The first node before `q` with `f`, walking from `e`. -/
def firstFrom (m : Words) (q : Nat) (f : Nat → Bool) : Nat → Nat → Option (Option Nat)
  | 0, _ => none
  | n + 1, e =>
      if e = q then some none else if f e then some (some e) else firstFrom m q f n (m (e + 4))

section Linked

variable {m m' : Words} {p q e : Nat} {xs ys : List Nat}

theorem Linked.congr (h : Linked m p xs q) (hnext : ∀ a ∈ p :: xs, m' (a + 4) = m (a + 4))
    (hprev : ∀ b ∈ xs ++ [q], m' b = m b) : Linked m' p xs q := by
  induction xs generalizing p with
  | nil =>
      simp only [List.mem_singleton, forall_eq, List.nil_append] at hnext hprev
      exact ⟨hnext.trans h.1, hprev.trans h.2⟩
  | cons x xs ih =>
      obtain ⟨h₁, h₂, h₃⟩ := h
      refine ⟨(hnext p (by simp)).trans h₁, (hprev x (by simp)).trans h₂, ih h₃ ?_ ?_⟩
      · exact fun a ha => hnext a (List.mem_cons_of_mem p ha)
      · exact fun b hb => hprev b (List.mem_cons_of_mem x hb)

theorem Linked.prev_mem (h : Linked m p xs q) : m q ∈ p :: xs := by
  induction xs generalizing p with
  | nil => simp [h.2]
  | cons x xs ih => exact List.mem_cons_of_mem p (ih h.2.2)

theorem Linked.next_mem (h : Linked m p xs q) : m (p + 4) ∈ xs ++ [q] := by
  cases xs with
  | nil => simp [h.1]
  | cons x xs => simp [h.1]

theorem linked_append (e : Nat) : Linked m p (xs ++ e :: ys) q ↔
    Linked m p xs e ∧ Linked m e ys q := by
  induction xs generalizing p with
  | nil => simp [Linked, and_assoc]
  | cons x xs ih => simp [Linked, ih, and_assoc]

theorem insertBefore_of_ne {x : Nat} (hx : x ≠ m q + 4) (he : x ≠ e) (he' : x ≠ e + 4)
    (hq : x ≠ q) : insertBefore m q e x = m x := by
  simp [insertBefore, hx, he, he', hq]

theorem Linked.insertBefore (h : Linked m p xs q) (hn : (e :: p :: xs ++ [q]).Nodup)
    (hs : Spread (e :: p :: xs ++ [q])) : Linked (insertBefore m q e) p (xs ++ [e]) q := by
  induction xs generalizing p with
  | nil =>
      obtain ⟨h₁, h₂⟩ := h
      have hpq := hs q (by simp) p (by simp)
      have hep := hs e (by simp) p (by simp)
      have heq := hs q (by simp) e (by simp)
      have hqe := hs e (by simp) q (by simp)
      simp at hn
      have hpe : p ≠ e := fun h => hn.1.1 h.symm
      have hqe' : q ≠ e := fun h => hn.1.2 h.symm
      simp [Linked, Framework.insertBefore, h₂, hpq, hpq.symm, hep.symm, heq.symm, hpe, hqe'.symm]
  | cons x xs ih =>
      obtain ⟨h₁, h₂, h₃⟩ := h
      have hlast := h₃.prev_mem
      have hpe := hs e (by simp) p (by simp)
      have hpq := hs q (by simp) p (by simp)
      have hxlast := hs x (by simp) (m q) (by
        have := List.mem_append_left [q] hlast
        simp at this ⊢
        tauto)
      have hxe := hs x (by simp) e (by simp)
      have hrest : (e :: x :: xs ++ [q]).Nodup := by
        refine hn.sublist ?_
        simp
      have hspread : Spread (e :: x :: xs ++ [q]) := by
        intro a ha b hb
        refine hs a ?_ b ?_
        · simp at ha ⊢
          tauto
        · simp at hb ⊢
          tauto
      refine ⟨?_, ?_, ih h₃ hrest hspread⟩
      · have hp : p ≠ m q := by
          rintro rfl
          simp at hn
          simp at hlast
          tauto
        rw [insertBefore_of_ne (by omega) hpe.symm (fun h => ?_) hpq.symm, h₁]
        have : p = e := by omega
        simp [this] at hn
      · have hxq : x ≠ q := by
          rintro rfl
          simp at hn
        have hxe' : x ≠ e := by
          rintro rfl
          simp at hn
        rw [insertBefore_of_ne hxlast hxe' hxe hxq, h₂]

theorem unlink_eq (hprev : e ≠ m e + 4) (hne : e ≠ m e) : unlink m e =
    Function.update (Function.update m (m e + 4) (m (e + 4))) (m (e + 4)) (m e) := by
  have hcell : e + 4 ≠ m e + 4 := by omega
  simp [unlink, Function.update_of_ne hcell, Function.update_of_ne hprev]

theorem Linked.unlink_head (h : Linked m p (e :: ys) q) (hn : (p :: e :: ys ++ [q]).Nodup)
    (hs : Spread (p :: e :: ys ++ [q])) : Linked (unlink m e) p ys q := by
  obtain ⟨h₁, h₂, h₃⟩ := h
  have hep : e ≠ p := by
    rintro rfl
    simp at hn
  rw [unlink_eq (h₂ ▸ hs e (by simp) p (by simp)) (h₂ ▸ hep), h₂]
  cases ys with
  | nil =>
      have hpq := hs q (by simp) p (by simp)
      rw [h₃.1]
      exact ⟨by simp [hpq.symm], by simp⟩
  | cons y ys =>
      obtain ⟨h₄, h₅, h₆⟩ := h₃
      have hpy := hs y (by simp) p (by simp)
      rw [h₄]
      refine ⟨by simp [hpy.symm], by simp, h₆.congr (fun a ha => ?_) (fun b hb => ?_)⟩
      · have hay : a + 4 ≠ y := fun h => hs y (by simp) a (by simp at ha ⊢; tauto) h.symm
        have hap : a + 4 ≠ p + 4 := by
          intro h
          have : a = p := by omega
          subst a
          simp at hn ha
          tauto
        rw [Function.update_of_ne hay, Function.update_of_ne hap]
      · have hby : b ≠ y := by
          rintro rfl
          simp at hn hb
          tauto
        have hbp := hs b (by simp at hb ⊢; tauto) p (by simp)
        rw [Function.update_of_ne hby, Function.update_of_ne hbp]

theorem Linked.unlink (h : Linked m p (xs ++ e :: ys) q) (hn : (p :: (xs ++ e :: ys) ++ [q]).Nodup)
    (hs : Spread (p :: (xs ++ e :: ys) ++ [q])) : Linked (unlink m e) p (xs ++ ys) q := by
  induction xs generalizing p with
  | nil => exact h.unlink_head hn hs
  | cons x xs ih =>
      obtain ⟨h₁, h₂, h₃⟩ := h
      obtain ⟨hleft, hright⟩ := (linked_append e).mp h₃
      have hprev := hleft.prev_mem
      have hnext := hright.next_mem
      have hspread : Spread (x :: (xs ++ e :: ys) ++ [q]) :=
        fun a ha b hb => hs a (List.mem_cons_of_mem p ha) b (List.mem_cons_of_mem p hb)
      -- the two words that change belong to the neighbours of `e`
      have hne : e ≠ m e := by
        intro h
        rw [← h] at hprev
        simp [List.nodup_middle] at hn hprev
        tauto
      have hcell := hs e (by simp) (m e) (by simp at hprev ⊢; tauto)
      refine ⟨?_, ?_, ih h₃ (List.nodup_cons.mp hn).2 hspread⟩
      · have hp : p + 4 ≠ m (e + 4) :=
          (hs (m (e + 4)) (by simp at hnext ⊢; tauto) p (by simp)).symm
        have hp' : p + 4 ≠ m e + 4 := by
          intro h
          have : p = m e := by omega
          rw [← this] at hprev
          simp at hn hprev
          tauto
        rw [unlink_eq hcell hne, Function.update_of_ne hp, Function.update_of_ne hp', h₁]
      · have hx : x ≠ m (e + 4) := by
          intro h
          rw [← h] at hnext
          simp at hn hnext
          tauto
        have hx' := hs x (by simp) (m e) (by simp at hprev ⊢; tauto)
        rw [unlink_eq hcell hne, Function.update_of_ne hx, Function.update_of_ne hx', h₂]

theorem Linked.insertBefore_mid {b : Nat} (h : Linked m p (xs ++ b :: ys) q)
    (hn : (e :: p :: (xs ++ b :: ys) ++ [q]).Nodup) (hs : Spread (e :: p :: (xs ++ b :: ys) ++ [q])) :
    Linked (Framework.insertBefore m b e) p (xs ++ e :: b :: ys) q := by
  obtain ⟨hleft, hright⟩ := (linked_append b).mp h
  have hprev := hleft.prev_mem
  have hsub : (e :: p :: xs ++ [b]).Sublist (e :: p :: (xs ++ b :: ys) ++ [q]) := by simp
  have hleft' := hleft.insertBefore (hn.sublist hsub) fun x hx y hy =>
    hs x (hsub.subset hx) y (hsub.subset hy)
  have hmb : m b ∈ e :: p :: (xs ++ b :: ys) ++ [q] := by
    simp at hprev ⊢
    tauto
  have hright' : Linked (Framework.insertBefore m b e) b ys q := by
    apply hright.congr
    · intro a ha
      have hmem : a ∈ e :: p :: (xs ++ b :: ys) ++ [q] := by
        simp at ha ⊢
        tauto
      have hane : a ≠ m b := by
        rintro rfl
        simp [List.nodup_append] at hn
        simp at ha hprev
        grind
      have hae : a ≠ e := by
        rintro rfl
        simp at hn ha
        tauto
      apply insertBefore_of_ne
      · omega
      · exact (hs e (by simp) a hmem).symm
      · omega
      · exact (hs b (by simp) a hmem).symm
    · intro c hc
      have hmem : c ∈ e :: p :: (xs ++ b :: ys) ++ [q] := by
        simp at hc ⊢
        tauto
      apply insertBefore_of_ne
      · exact hs c hmem (m b) hmb
      · rintro rfl
        simp at hn hc
        tauto
      · exact hs c hmem e (by simp)
      · rintro rfl
        simp [List.nodup_append] at hn
        simp at hc
        grind
  rw [show xs ++ e :: b :: ys = (xs ++ [e]) ++ b :: ys by simp]
  exact (linked_append b).mpr ⟨hleft', hright'⟩

/-- A word outside the nodes. -/
def Outside (c : Nat) (l : List Nat) : Prop := ∀ x ∈ l, c ≠ x ∧ c ≠ x + 4

theorem Linked.insertBefore_outside {c : Nat} (h : Linked m p xs q)
    (hc : Outside c (e :: p :: xs ++ [q])) : Framework.insertBefore m q e c = m c := by
  have hlast := h.prev_mem
  have hq := hc q (by simp)
  have he := hc e (by simp)
  have hm := hc (m q) (by simp at hlast ⊢; tauto)
  exact insertBefore_of_ne hm.2 he.1 he.2 hq.1

theorem Linked.unlink_outside {c : Nat} (h : Linked m p (xs ++ e :: ys) q)
    (hn : (p :: (xs ++ e :: ys) ++ [q]).Nodup) (hs : Spread (p :: (xs ++ e :: ys) ++ [q]))
    (hc : Outside c (p :: (xs ++ e :: ys) ++ [q])) : Framework.unlink m e c = m c := by
  obtain ⟨hleft, hright⟩ := (linked_append e).mp h
  have hprev := hleft.prev_mem
  have hnext := hright.next_mem
  have hne : e ≠ m e := by
    intro h
    rw [← h] at hprev
    simp [List.nodup_middle] at hn hprev
    tauto
  have hcell := hs e (by simp) (m e) (by simp at hprev ⊢; tauto)
  have hc₁ := hc (m e) (by simp at hprev ⊢; tauto)
  have hc₂ := hc (m (e + 4)) (by simp at hnext ⊢; tauto)
  rw [unlink_eq hcell hne, Function.update_of_ne hc₂.1, Function.update_of_ne hc₁.2]

theorem Linked.findFrom (h : Linked m p xs q) (hq : q ∉ xs) (obj : Nat) {n : Nat}
    (hn : xs.length < n) : findFrom m q obj n (m (p + 4)) = some (decide (obj ∈ xs)) := by
  induction xs generalizing p n with
  | nil =>
      obtain ⟨n, rfl⟩ := Nat.exists_eq_succ_of_ne_zero (Nat.ne_of_gt hn)
      simp [Framework.findFrom, h.1]
  | cons x xs ih =>
      obtain ⟨n, rfl⟩ := Nat.exists_eq_succ_of_ne_zero (Nat.ne_of_gt (Nat.zero_lt_of_lt hn))
      obtain ⟨h₁, -, h₃⟩ := h
      simp only [List.mem_cons, not_or] at hq
      have hrec := ih h₃ hq.2 (Nat.lt_of_succ_lt_succ hn)
      rw [h₁, Framework.findFrom, if_neg (Ne.symm hq.1), hrec]
      by_cases hx : x = obj
      · simp [hx]
      · simp [hx, Ne.symm hx]

theorem Linked.firstFrom (h : Linked m p xs q) (hq : q ∉ xs) (f : Nat → Bool) {n : Nat}
    (hn : xs.length < n) : firstFrom m q f n (m (p + 4)) = some (xs.find? f) := by
  induction xs generalizing p n with
  | nil =>
      obtain ⟨n, rfl⟩ := Nat.exists_eq_succ_of_ne_zero (Nat.ne_of_gt hn)
      simp [Framework.firstFrom, h.1]
  | cons x xs ih =>
      obtain ⟨n, rfl⟩ := Nat.exists_eq_succ_of_ne_zero (Nat.ne_of_gt (Nat.zero_lt_of_lt hn))
      obtain ⟨h₁, -, h₃⟩ := h
      simp only [List.mem_cons, not_or] at hq
      have hrec := ih h₃ hq.2 (Nat.lt_of_succ_lt_succ hn)
      rw [h₁, Framework.firstFrom, if_neg (Ne.symm hq.1), hrec, List.find?_cons]
      cases f x with
      | true => rfl
      | false => rfl

theorem Linked.walk (h : Linked m p xs q) (hq : q ∉ xs) {n : Nat} (hn : xs.length < n) :
    walk m q n (m (p + 4)) = xs := by
  induction xs generalizing p n with
  | nil =>
      obtain ⟨n, rfl⟩ := Nat.exists_eq_succ_of_ne_zero (Nat.ne_of_gt hn)
      simp [Framework.walk, h.1]
  | cons x xs ih =>
      obtain ⟨n, rfl⟩ := Nat.exists_eq_succ_of_ne_zero (Nat.ne_of_gt (Nat.zero_lt_of_lt hn))
      obtain ⟨h₁, -, h₃⟩ := h
      simp only [List.mem_cons, not_or] at hq
      rw [h₁, Framework.walk, if_neg (Ne.symm hq.1), ih h₃ hq.2 (Nat.lt_of_succ_lt_succ hn)]

end Linked

end Aitos.Framework
