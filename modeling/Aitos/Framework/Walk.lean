import Mathlib

/-!
# Following names through a graph

The nodes of a graph have named entries, and some entries lead to a further node.  A list of names
resolves to an entry when every name but the last leads on.  `follow` is the search that stops at the
first entry that does not.
-/

namespace Aitos.Framework

variable {N C E : Type*}

/-- Following all the names from `n` ends at the entry `e`. -/
inductive Resolves (entry : N → C → E → Prop) (child : E → Option N) : N → List C → E → Prop where
  | last {n : N} {c : C} {e : E} : entry n c e → Resolves entry child n [c] e
  | step {n m : N} {c : C} {cs : List C} {d e : E} : entry n c d → child d = some m →
      Resolves entry child m cs e → Resolves entry child n (c :: cs) e

/-- The entry at which the search stops, if it finds all it looks up. -/
def follow (find : N → C → Option E) (child : E → Option N) : N → List C → Option E
  | _, [] => none
  | n, [c] => find n c
  | n, c :: c' :: cs =>
      match find n c with
      | none => none
      | some e =>
          match child e with
          | none => some e
          | some m => follow find child m (c' :: cs)

/-- On the nodes in `Good` and the names in `Ok`, the search in one node finds its entries, and
entries lead to nodes in `Good`. -/
structure Finds (find : N → C → Option E) (entry : N → C → E → Prop) (child : E → Option N)
    (Good : N → Prop) (Ok : C → Prop) : Prop where
  find : ∀ {n c}, Good n → Ok c → ∀ e, find n c = some e ↔ entry n c e
  child : ∀ {n c e m}, Good n → Ok c → entry n c e → child e = some m → Good m

section Follow

variable {find : N → C → Option E} {entry : N → C → E → Prop} {child : E → Option N}
  {Good : N → Prop} {Ok : C → Prop}

theorem Resolves.ne_nil {n : N} {cs : List C} {e : E} (h : Resolves entry child n cs e) :
    cs ≠ [] := by
  cases h with
  | last _ => exact List.cons_ne_nil _ _
  | step _ _ _ => exact List.cons_ne_nil _ _

theorem Resolves.of_cons {n : N} {c : C} {cs : List C} {e : E}
    (h : Resolves entry child n (c :: cs) e) (hcs : cs ≠ []) :
    ∃ d m, entry n c d ∧ child d = some m ∧ Resolves entry child m cs e := by
  cases h with
  | last _ => exact absurd rfl hcs
  | step hentry hchild h => exact ⟨_, _, hentry, hchild, h⟩

theorem Resolves.concat {n m : N} {c : C} {cs : List C} {d e : E}
    (h : Resolves entry child n cs d) (hchild : child d = some m) (hentry : entry m c e) :
    Resolves entry child n (cs ++ [c]) e := by
  induction h with
  | last hlast => exact .step hlast hchild (.last hentry)
  | step hfirst hchild' _ ih => exact .step hfirst hchild' (ih hchild)

theorem follow_cons {n : N} {c : C} {cs : List C} (hcs : cs ≠ []) :
    follow find child n (c :: cs) =
      (find n c).bind fun e => (child e).elim (some e) fun m => follow find child m cs := by
  obtain ⟨c', cs, rfl⟩ := List.exists_cons_of_ne_nil hcs
  rw [follow]
  cases find n c with
  | none => rfl
  | some e => cases hc : child e <;> simp [hc]

theorem Finds.follow_of_resolves (hf : Finds find entry child Good Ok) {n : N} {cs : List C} {e : E}
    (h : Resolves entry child n cs e) (rest : List C) (hrest : rest = [] ∨ child e = none)
    (hn : Good n) (hok : ∀ c ∈ cs, Ok c) : follow find child n (cs ++ rest) = some e := by
  induction h with
  | @last n c e hentry =>
      have hfind := (hf.find hn (hok c (by simp)) e).mpr hentry
      by_cases hnil : rest = []
      · rw [hnil]
        exact hfind
      · have hchild := hrest.resolve_left hnil
        rw [List.singleton_append, follow_cons hnil]
        simp [hfind, hchild]
  | @step n m c cs d e hentry hchild hres ih =>
      have hfind := (hf.find hn (hok c (by simp)) d).mpr hentry
      have hm := hf.child hn (hok c (by simp)) hentry hchild
      have hne : cs ++ rest ≠ [] := fun h => hres.ne_nil (List.append_eq_nil_iff.mp h).1
      rw [List.cons_append, follow_cons hne]
      simp [hfind, hchild, ih hrest hm fun c hc => hok c (List.mem_cons_of_mem _ hc)]

/-- What the search stops at is what all the names resolve to, or what the first of them do. -/
theorem Finds.resolves_of_follow (hf : Finds find entry child Good Ok) (cs : List C) :
    ∀ {n : N} {e : E}, Good n → (∀ c ∈ cs, Ok c) → follow find child n cs = some e →
      Resolves entry child n cs e ∨ ∃ pre rest, cs = pre ++ rest ∧ rest ≠ [] ∧
        Resolves entry child n pre e ∧ child e = none := by
  induction cs with
  | nil =>
      intro n e _ _ h
      cases h
  | cons c cs ih =>
      intro n e hn hok h
      have hc := hok c (by simp)
      by_cases hcs : cs = []
      · subst hcs
        exact Or.inl (.last ((hf.find hn hc e).mp h))
      · rw [follow_cons hcs, Option.bind_eq_some_iff] at h
        obtain ⟨d, hfind, h⟩ := h
        have hentry := (hf.find hn hc d).mp hfind
        cases hchild : child d with
        | none =>
            rw [hchild] at h
            obtain rfl : d = e := Option.some.inj h
            exact Or.inr ⟨[c], cs, rfl, hcs, .last hentry, hchild⟩
        | some m =>
            rw [hchild] at h
            have hm := hf.child hn hc hentry hchild
            rcases ih hm (fun c hc => hok c (List.mem_cons_of_mem _ hc)) h with
              hres | ⟨pre, rest, rfl, hrest, hres, hnone⟩
            · exact Or.inl (.step hentry hchild hres)
            · exact Or.inr ⟨c :: pre, rest, rfl, hrest, .step hentry hchild hres, hnone⟩

theorem Finds.not_resolves_append (hf : Finds find entry child Good Ok) {n : N} {cs : List C}
    {e : E}
    (h : Resolves entry child n cs e) (hnone : child e = none) {rest : List C} (hrest : rest ≠ [])
    (hn : Good n) (hok : ∀ c ∈ cs, Ok c) (e' : E) :
    ¬ Resolves entry child n (cs ++ rest) e' := by
  have hunique : ∀ {n c d d'}, Good n → Ok c → entry n c d → entry n c d' → d = d' := by
    intro n c d d' hn hc hd hd'
    have h := (hf.find hn hc d).mpr hd
    rw [(hf.find hn hc d').mpr hd'] at h
    exact (Option.some.inj h).symm
  induction h with
  | @last n c e hentry =>
      intro h
      obtain ⟨d, m, hentry', hchild, -⟩ := Resolves.of_cons h hrest
      obtain rfl := hunique hn (hok c (by simp)) hentry hentry'
      rw [hnone] at hchild
      cases hchild
  | @step n m c cs d e hentry hchild hres ih =>
      have hm := hf.child hn (hok c (by simp)) hentry hchild
      intro h
      have hne : cs ++ rest ≠ [] := fun h => hrest (List.append_eq_nil_iff.mp h).2
      obtain ⟨d', m', hentry', hchild', h'⟩ := Resolves.of_cons h hne
      obtain rfl := hunique hn (hok c (by simp)) hentry hentry'
      obtain rfl : m = m' := Option.some.inj (hchild.symm.trans hchild')
      exact ih hnone hm (fun c hc => hok c (List.mem_cons_of_mem _ hc)) h'

end Follow

end Aitos.Framework
