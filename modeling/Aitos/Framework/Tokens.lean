import Mathlib

/-!
# Splitting at separators

The tokens of a list are its maximal runs without a separator.
-/

namespace Aitos.Framework

variable {α : Type*} (sep : α → Bool)

def tokens (l : List α) : List (List α) := (l.splitOnP sep).filter (fun w => !w.isEmpty)

@[simp] theorem tokens_nil : tokens sep [] = [] := by
  simp [tokens]

variable {sep}

@[simp] theorem tokens_cons_sep {a : α} (h : sep a = true) (l : List α) :
    tokens sep (a :: l) = tokens sep l := by
  have hsplit := @List.splitOnP_append_cons_of_forall_mem _ sep [] (by simp) a h l
  rw [List.nil_append] at hsplit
  rw [tokens, hsplit]
  rfl

theorem tokens_append_seps {seps : List α} (h : ∀ a ∈ seps, sep a = true) (l : List α) :
    tokens sep (seps ++ l) = tokens sep l := by
  induction seps with
  | nil => rfl
  | cons a seps ih =>
      rw [List.cons_append, tokens_cons_sep (h a List.mem_cons_self)]
      exact ih fun b hb => h b (List.mem_cons_of_mem a hb)

theorem tokens_word {w : List α} (hw : ∀ a ∈ w, sep a = false) (hne : w ≠ []) :
    tokens sep w = [w] := by
  rw [tokens, List.splitOnP_eq_singleton hw]
  simp [hne]

theorem tokens_word_append {w : List α} (hw : ∀ a ∈ w, sep a = false) (hne : w ≠ []) {a : α}
    (ha : sep a = true) (l : List α) : tokens sep (w ++ a :: l) = w :: tokens sep l := by
  rw [tokens, List.splitOnP_append_cons_of_forall_mem hw a ha]
  simp [hne, tokens]

theorem mem_tokens {w : List α} : ∀ {l : List α}, w ∈ tokens sep l →
    w ≠ [] ∧ (∀ a ∈ w, sep a = false) ∧ ∀ a ∈ w, a ∈ l
  | [], h => by simp at h
  | c :: l, h => by
      by_cases hc : sep c = true
      · rw [tokens_cons_sep hc] at h
        obtain ⟨hne, hword, hsub⟩ := mem_tokens h
        exact ⟨hne, hword, fun a ha => List.mem_cons_of_mem _ (hsub a ha)⟩
      · have hsplit := List.takeWhile_append_dropWhile (p := fun a => !sep a) (l := c :: l)
        have hfirst : (c :: l).takeWhile (fun a => !sep a) ≠ [] := by
          rw [List.takeWhile_cons_of_pos (by simpa using hc)]
          exact List.cons_ne_nil _ _
        have hchars : ∀ a ∈ (c :: l).takeWhile (fun a => !sep a), sep a = false := by
          intro a ha
          simpa using List.mem_takeWhile_imp ha
        have hsub : ∀ a ∈ (c :: l).takeWhile (fun a => !sep a), a ∈ c :: l := fun a ha =>
          (List.takeWhile_sublist _).subset ha
        cases hrest : (c :: l).dropWhile (fun a => !sep a) with
        | nil =>
            rw [hrest, List.append_nil] at hsplit
            rw [← hsplit, tokens_word hchars hfirst, List.mem_singleton] at h
            rw [h]
            exact ⟨hfirst, hchars, hsub⟩
        | cons b rest =>
            have hb : sep b = true := by
              have hnot := List.head?_dropWhile_not (fun a => !sep a) (c :: l)
              rw [hrest] at hnot
              simpa using hnot
            have hlt : rest.length ≤ l.length := by
              have hle := (List.dropWhile_sublist (l := c :: l) fun a => !sep a).length_le
              rw [hrest, List.length_cons, List.length_cons] at hle
              omega
            rw [hrest] at hsplit
            rw [← hsplit, tokens_word_append hchars hfirst hb, List.mem_cons] at h
            rcases h with h | h
            · rw [h]
              exact ⟨hfirst, hchars, hsub⟩
            · obtain ⟨hne, hword, hin⟩ := mem_tokens h
              refine ⟨hne, hword, fun a ha => ?_⟩
              rw [← hsplit]
              exact List.mem_append_right _ (List.mem_cons_of_mem _ (hin a ha))
  termination_by l => l.length

end Aitos.Framework
