import Aitos.Fs.Resolution

/-!
# The path that was searched

`search_file` takes one component after the other into its buffer `name` and appends it, behind a
slash, to `searched_path`.  So what stands there at the end are the components it looked up, as long
as it never goes on behind a name that the clearing of sixteen bytes does not wipe out.
-/

namespace Aitos.Fs

open Framework

section Joined

variable {cs ds : List (List UInt8)} {c : List UInt8}

/-- The components with one slash before each. -/
def joined (cs : List (List UInt8)) : Path := cs.flatMap fun c => slash :: c

theorem joined_append (cs ds : List (List UInt8)) : joined (cs ++ ds) = joined cs ++ joined ds :=
  List.flatMap_append

theorem joined_singleton (c : List UInt8) : joined [c] = slash :: c := List.flatMap_singleton _ _

theorem length_joined (cs : List (List UInt8)) : (joined cs).length = pathLength cs := by
  rw [joined, List.length_flatMap, pathLength]
  rfl

theorem zero_notMem_joined (h : ∀ c ∈ cs, 0 ∉ c) : 0 ∉ joined cs := by
  intro hzero
  obtain ⟨c, hc, hmem⟩ := List.mem_flatMap.mp hzero
  rcases List.mem_cons.mp hmem with hslash | hmem
  · exact absurd hslash (by decide)
  · exact h c hc hmem

private theorem joined_head (cs : List (List UInt8)) {x : UInt8} (h : (joined cs).head? = some x) :
    x = slash := by
  cases cs with
  | nil => cases h
  | cons c cs => exact (Option.some.inj h).symm

theorem components_joined (h : ∀ c ∈ cs, c ≠ [] ∧ slash ∉ c) : components (joined cs) = cs := by
  induction cs with
  | nil => rfl
  | cons c cs ih =>
      obtain ⟨hne, hslash⟩ := h c List.mem_cons_self
      have hrest := ih fun d hd => h d (List.mem_cons_of_mem _ hd)
      have happ := components_append hne hslash (d := joined cs) fun x hx => joined_head cs hx
      rw [show joined (c :: cs) = slash :: (c ++ joined cs) from rfl, components_slash, happ]
      refine congrArg (c :: ·) ?_
      split
      · rename_i hnil
        rw [hnil] at hrest
        exact hrest
      · exact hrest

end Joined

section Upcoming

variable {name : Bytes} {rest : Option Path} {todo : List (List UInt8)} {c : List UInt8} {p : Path}

private theorem length_le_of_mem_components (hc : c ∈ components p) : c.length ≤ p.length := by
  have hle : c.length + 1 ≤ pathLength (components p) :=
    List.single_le_sum (fun _ _ => Nat.zero_le _) _ (List.mem_map_of_mem hc)
  have hlen := pathLength_components_succ p
  omega

/-- The buffer and what is left of the path stand for the components `todo`, the first of them in
the buffer. -/
structure Upcoming (name : Bytes) (rest : Option Path) (todo : List (List UInt8)) : Prop where
  chars : cstr name 512 = todo.headD []
  clean : ∀ i, (todo.headD []).length ≤ i → i < 512 → name i = 0
  left : todo ≠ [] → rest.elim [] components = todo.tail
  sound : ∀ c ∈ todo, c ≠ [] ∧ 0 ∉ c ∧ c.length < 512

theorem Upcoming.done_iff (h : Upcoming name rest todo) : name 0 = 0 ↔ todo = [] := by
  have hchars := h.chars
  cases todo with
  | nil =>
      refine iff_of_true ?_ rfl
      by_contra hne
      exact cstr_ne_nil hne hchars
  | cons c todo =>
      refine iff_of_false (fun hzero => ?_) (List.cons_ne_nil _ _)
      rw [cstr, if_pos hzero] at hchars
      exact (h.sound c List.mem_cons_self).1 hchars.symm

theorem Upcoming.of_parse (hname : ∀ i < 512, name i = 0) (hleft : rest.elim [] components = todo)
    (hsound : ∀ c ∈ todo, c ≠ [] ∧ 0 ∉ c ∧ c.length < 512) :
    Upcoming (storeName name (rest.elim ⟨[], none⟩ pathParse).component)
      (rest.elim ⟨[], none⟩ pathParse).rest todo := by
  obtain ⟨hhead, htail⟩ := nextComponent hleft
  rw [hhead]
  have hfirst : 0 ∉ todo.headD [] ∧ (todo.headD []).length < 512 := by
    cases todo with
    | nil => exact ⟨List.not_mem_nil, by decide⟩
    | cons c todo => exact (hsound c List.mem_cons_self).2
  refine ⟨cstr_storeName hfirst.1 hfirst.2 (hname _ hfirst.2), fun i hi hi' => ?_, htail, hsound⟩
  rw [storeName, Bytes.blit_of_outside _ _ _ _ (by omega)]
  exact hname i hi'

theorem Upcoming.first (hzero : 0 ∉ p) (hlen : p.length < 512) :
    Upcoming (storeName Bytes.zero (pathParse p).component) (pathParse p).rest (components p) := by
  have hleft : (some p).elim [] components = components p := rfl
  refine Upcoming.of_parse (fun _ _ => rfl) hleft fun c hc => ?_
  have hle := length_le_of_mem_components hc
  exact ⟨components_ne_nil hc, fun hmem => hzero (mem_of_mem_components hc hmem), by omega⟩

/-- The next round, when the clearing wipes out the component in the buffer -/
theorem Upcoming.next (h : Upcoming name rest (c :: todo)) (hc : c.length ≤ 16) :
    Upcoming (storeName (name.fill 0 16 0) (rest.elim ⟨[], none⟩ pathParse).component)
      (rest.elim ⟨[], none⟩ pathParse).rest todo := by
  refine Upcoming.of_parse (fun i hi => ?_) (h.left (List.cons_ne_nil _ _)) fun d hd =>
    h.sound d (List.mem_cons_of_mem _ hd)
  by_cases hlow : i < 16
  · rw [Bytes.fill, Bytes.blit_of_lt _ _ _ _ (Nat.zero_le i) (by omega)]
  · rw [Bytes.fill_of_outside _ _ _ (by omega)]
    exact h.clean i (by rw [List.headD_cons]; omega) hi

end Upcoming

section Search

variable {s s' : State} {r : Searched} {p : Path}

private theorem searchLoop_searched (k : Nat) : ∀ {todo : List (List UInt8)} {rest : Option Path}
    {name : Bytes} {d : DirPtr} {no : UInt32} {dirE : Option DirEntry} {searched : Path} {s : State},
    Upcoming name rest todo → (∀ c ∈ todo, c.length ≤ 16) →
    searchLoop k rest name d no dirE searched s = .ok (r, s') →
    ∃ done, done <+: todo ∧ r.searchedPath = searched ++ joined done := by
  induction k with
  | zero =>
      intro todo rest name d no dirE searched s _ _ h
      exact (fault_ok.mp h).elim
  | succ k ih =>
      intro todo rest name d no dirE searched s hup hshort h
      rw [searchLoop] at h
      split at h
      · obtain ⟨_, s₁, -, h⟩ := Code.bind_ok.mp h
        obtain ⟨_, s₂, -, h⟩ := Code.bind_ok.mp h
        cases dirE with
        | none => exact (fault_ok.mp h).elim
        | some e =>
            obtain ⟨rfl, -⟩ := Code.pure_ok.mp h
            exact ⟨[], List.nil_prefix, (List.append_nil _).symm⟩
      · rename_i hname
        obtain ⟨c, todo, rfl⟩ := List.exists_cons_of_ne_nil fun hnil => hname (hup.done_iff.mpr hnil)
        have hchars : cstr name 512 = c := hup.chars
        have hone : searched ++ slash :: c = searched ++ joined [c] := by rw [joined_singleton]
        have hgo : ∀ {d no dirE s}, searchLoop k (rest.elim ⟨[], none⟩ pathParse).rest
            (storeName (name.fill 0 16 0) (rest.elim ⟨[], none⟩ pathParse).component) d no dirE
            (searched ++ slash :: c) s = .ok (r, s') →
            ∃ done, done <+: c :: todo ∧ r.searchedPath = searched ++ joined done := by
          intro d no dirE s h
          obtain ⟨done, hdone, hr⟩ := ih (hup.next (hshort c List.mem_cons_self))
            (fun e he => hshort e (List.mem_cons_of_mem _ he)) h
          refine ⟨c :: done, List.cons_prefix_cons.mpr ⟨rfl, hdone⟩, ?_⟩
          rw [hr, List.append_assoc]
          rfl
        rw [hchars] at h
        obtain ⟨_, s₁, -, h⟩ := Code.bind_ok.mp h
        obtain ⟨_, s₂, -, h⟩ := Code.bind_ok.mp h
        obtain ⟨found, s₃, -, h⟩ := Code.bind_ok.mp h
        cases found with
        | none =>
            obtain ⟨rfl, -⟩ := Code.pure_ok.mp h
            exact ⟨[c], List.cons_prefix_cons.mpr ⟨rfl, List.nil_prefix⟩, hone⟩
        | some e =>
            dsimp only at h
            split at h
            · obtain ⟨_, s₄, -, h⟩ := Code.bind_ok.mp h
              obtain ⟨_, s₅, -, h⟩ := Code.bind_ok.mp h
              obtain ⟨_, s₆, -, h⟩ := Code.bind_ok.mp h
              exact hgo h
            · split at h
              · obtain ⟨rfl, -⟩ := Code.pure_ok.mp h
                exact ⟨[c], List.cons_prefix_cons.mpr ⟨rfl, List.nil_prefix⟩, hone⟩
              · exact hgo h

theorem searchFile_searched (hzero : 0 ∉ p) (hlen : p.length < 512)
    (hshort : ∀ c ∈ components p, c.length ≤ 16) (h : searchFile p s = .ok (r, s')) :
    ∃ done, done <+: components p ∧ r.searchedPath = joined done := by
  rw [searchFile] at h
  split at h
  · obtain ⟨rfl, -⟩ := Code.pure_ok.mp h
    exact ⟨[], List.nil_prefix, rfl⟩
  · obtain ⟨_, s₁, -, h⟩ := Code.bind_ok.mp h
    exact searchLoop_searched _ (Upcoming.first hzero hlen) hshort h

end Search

end Aitos.Fs
