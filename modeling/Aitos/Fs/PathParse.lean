import Aitos.Framework.CString
import Aitos.Fs.Resolution

/-!
# Walking a path by pointers

`path_parse` and `path_depth_cnt` as they run on a NUL-terminated path in memory: what is left of the
path is a pointer into it, and the name buffer of the caller keeps whatever `path_parse` does not
overwrite.  The path lies apart from the buffer.
-/

namespace Aitos.Fs

open Framework

section Code

variable (text : Bytes)

/-- `while (*(++pathname) == '/');` -/
def skipSlashes : Nat → Nat → Except Halt Nat
  | 0, _ => throw .diverge
  | n + 1, pathname =>
      if text (pathname + 1) = slash then skipSlashes n (pathname + 1) else return pathname + 1

/-- The slashes in front of a component. -/
def leadingSlashes (n pathname : Nat) : Except Halt Nat :=
  if text pathname = slash then skipSlashes text n pathname else return pathname

/-- The loop that copies the characters of a component to a buffer of `size` bytes. -/
def copyName (size : Nat) : Nat → Nat → Nat → Bytes → Except Halt (Nat × Bytes)
  | 0, _, _, _ => throw .diverge
  | n + 1, pathname, nameStore, name =>
      if text pathname ≠ slash ∧ text pathname ≠ 0 then
        if nameStore < size then
          copyName size n (pathname + 1) (nameStore + 1)
            (Function.update name nameStore (text pathname))
        else throw .outOfBounds
      else return (pathname, name)

/-- `path_parse`: what it returns, and the buffer. -/
def pathParseAt (size n pathname : Nat) (name : Bytes) : Except Halt (Option Nat × Bytes) := do
  let pathname ← leadingSlashes text n pathname
  let (pathname, name) ← copyName text size n pathname 0 name
  return (if text pathname = 0 then none else some pathname, name)

/-- Between two rounds the caller clears sixteen bytes and parses on, when a pointer came back. -/
def nextRound (size n : Nat) (p : Option Nat) (name : Bytes) : Except Halt (Option Nat × Bytes) :=
  match p with
  | none => return (none, name.fill 0 16 0)
  | some p => pathParseAt text size n p (name.fill 0 16 0)

/-- The loop of `path_depth_cnt`. -/
def depthLoopAt : Nat → Option Nat → Bytes → Nat → Except Halt Nat
  | 0, _, _, _ => throw .diverge
  | n + 1, p, name, depth =>
      if name 0 = 0 then return depth
      else do
        let (p, name) ← nextRound text 16 n p name
        depthLoopAt n p name (depth + 1)

/-- `path_depth_cnt`, whose name buffer holds what was on the stack. -/
def pathDepthCntAt (n : Nat) (stack : Bytes) (pathname : Nat) : Except Halt Nat := do
  let (p, name) ← pathParseAt text 16 n pathname stack
  depthLoopAt text n p name 0

/-- The names a caller with a buffer of `size` bytes finds in it, round after round, until the first
character of one is NUL. -/
def nextNames (size : Nat) : Nat → Option Nat → Bytes → Except Halt (List (List UInt8))
  | 0, _, _ => throw .diverge
  | n + 1, p, name =>
      if name 0 = 0 then return [cstr name size]
      else do
        let (p, name') ← nextRound text size n p name
        let names ← nextNames size n p name'
        return cstr name size :: names

def pathNames (size n pathname : Nat) (name : Bytes) : Except Halt (List (List UInt8)) := do
  let (p, name) ← pathParseAt text size n pathname name
  nextNames text size n p name

end Code

section Parse

variable {text : Bytes} {size n a : Nat} {p : Path} {name : Bytes}

private theorem skipSlashes_ok (h : StringAt text a (slash :: p)) (hn : p.length < n) :
    ∃ b, skipSlashes text n a = .ok b ∧ StringAt text b (p.dropWhile (· = slash)) := by
  induction p generalizing a n with
  | nil =>
      obtain ⟨n, rfl⟩ : ∃ k, n = k + 1 := ⟨n - 1, by omega⟩
      have hend : text (a + 1) ≠ slash := by
        have hzero : text (a + 1) = 0 := h.tail
        rw [hzero]
        decide
      rw [skipSlashes, if_neg hend]
      exact ⟨a + 1, rfl, h.tail⟩
  | cons c p ih =>
      obtain ⟨n, rfl⟩ : ∃ k, n = k + 1 := ⟨n - 1, by omega⟩
      rw [List.length_cons] at hn
      have hhead := h.tail.head
      rw [skipSlashes, hhead]
      by_cases hc : c = slash
      · rw [if_pos hc, List.dropWhile_cons_of_pos (by simpa using hc)]
        have htail := h.tail
        rw [hc] at htail
        exact ih htail (by omega)
      · rw [if_neg hc, List.dropWhile_cons_of_neg (by simpa using hc)]
        exact ⟨a + 1, rfl, h.tail⟩

theorem leadingSlashes_ok (h : StringAt text a p) (hn : p.length < n) :
    ∃ b, leadingSlashes text n a = .ok b ∧ StringAt text b (p.dropWhile (· = slash)) := by
  cases p with
  | nil =>
      have hend : text a = 0 := h
      rw [leadingSlashes, if_neg (by rw [hend]; decide)]
      exact ⟨a, rfl, h⟩
  | cons c p =>
      rw [List.length_cons] at hn
      rw [leadingSlashes]
      by_cases hc : c = slash
      · rw [if_pos (h.head.trans hc), List.dropWhile_cons_of_pos (by simpa using hc)]
        rw [hc] at h
        exact skipSlashes_ok h (by omega)
      · rw [if_neg fun hs => hc (h.head.symm.trans hs),
          List.dropWhile_cons_of_neg (by simpa using hc)]
        exact ⟨a, rfl, h⟩

private theorem blit_update (b : Bytes) (j : Nat) (c : UInt8) (w : List UInt8) :
    Bytes.blit (Function.update b j c) (j + 1) w.length (fun i => w.getD i 0) =
      b.blit j (c :: w).length fun i => (c :: w).getD i 0 := by
  funext i
  rw [List.length_cons]
  by_cases hj : i = j
  · rw [hj, Bytes.blit_of_outside _ _ _ _ (by omega), Function.update_self,
      Bytes.blit_of_lt _ _ _ _ (by omega) (by omega), Nat.sub_self]
    rfl
  · by_cases hin : j ≤ i ∧ i < j + (w.length + 1)
    · rw [Bytes.blit_of_lt _ _ _ _ (by omega) (by omega),
        Bytes.blit_of_lt _ _ _ _ hin.1 (by omega)]
      obtain ⟨k, hk⟩ : ∃ k, i - j = k + 1 := ⟨i - j - 1, by omega⟩
      rw [hk, show i - (j + 1) = k by omega]
      rfl
    · rw [Bytes.blit_of_outside _ _ _ _ (by omega), Bytes.blit_of_outside _ _ _ _ (by omega),
        Function.update_of_ne hj]

private theorem copyName_ok (name : Bytes) (h : StringAt text a p) (hn : p.length < n) {j : Nat}
    (hsize : j + (p.takeWhile (· ≠ slash)).length ≤ size) :
    ∃ b, copyName text size n a j name =
        .ok (b, name.blit j (p.takeWhile (· ≠ slash)).length
          fun i => (p.takeWhile (· ≠ slash)).getD i 0) ∧
      StringAt text b (p.dropWhile (· ≠ slash)) := by
  induction p generalizing a n j name with
  | nil =>
      obtain ⟨n, rfl⟩ : ∃ k, n = k + 1 := ⟨n - 1, by omega⟩
      have hend : text a = 0 := h
      refine ⟨a, ?_, h⟩
      rw [copyName, if_neg fun hne => hne.2 hend]
      refine congrArg (fun b => Except.ok (a, b)) (funext fun i => ?_)
      exact (Bytes.blit_of_outside _ _ _ _ (by simp; omega)).symm
  | cons c p ih =>
      obtain ⟨n, rfl⟩ : ∃ k, n = k + 1 := ⟨n - 1, by omega⟩
      rw [List.length_cons] at hn
      by_cases hc : c = slash
      · have hhead : text a = slash := h.head.trans hc
        rw [List.takeWhile_cons_of_neg (by simpa using hc),
          List.dropWhile_cons_of_neg (by simpa using hc)]
        refine ⟨a, ?_, h⟩
        rw [copyName, if_neg fun hne => hne.1 hhead]
        refine congrArg (fun b => Except.ok (a, b)) (funext fun i => ?_)
        exact (Bytes.blit_of_outside _ _ _ _ (by simp; omega)).symm
      · rw [List.takeWhile_cons_of_pos (by simpa using hc)] at hsize ⊢
        rw [List.dropWhile_cons_of_pos (by simpa using hc)]
        rw [List.length_cons] at hsize
        obtain ⟨b, hb, hrest⟩ := ih (Function.update name j c) h.tail (n := n) (by omega)
          (j := j + 1) (by omega)
        refine ⟨b, ?_, hrest⟩
        rw [copyName, h.head, if_pos ⟨hc, h.2.1⟩, if_pos (by omega), hb, blit_update]

/-- On the path that stands in memory `path_parse` stores the first component and returns a pointer to
what `pathParse` leaves. -/
theorem pathParseAt_ok (name : Bytes) (h : StringAt text a p) (hn : p.length < n)
    (hsize : (pathParse p).component.length ≤ size) :
    ∃ r, pathParseAt text size n a name = .ok (r, storeName name (pathParse p).component) ∧
      Option.Rel (StringAt text) r (pathParse p).rest := by
  obtain ⟨b, hb, hstr⟩ := leadingSlashes_ok h hn
  simp only [pathParse, List.span_eq_takeWhile_dropWhile] at hsize ⊢
  have hle : (p.dropWhile (· = slash)).length ≤ p.length :=
    (List.dropWhile_sublist _).length_le
  obtain ⟨r, hr, hrest⟩ := copyName_ok name hstr (n := n) (by omega) (j := 0)
    ((Nat.zero_add _).trans_le hsize)
  rw [pathParseAt, hb]
  refine ⟨if text r = 0 then none else some r, ?_, ?_⟩
  · change (copyName text size n b 0 name >>= _) = _
    rw [hr]
    rfl
  · cases hd : (p.dropWhile (· = slash)).dropWhile (· ≠ slash) with
    | nil =>
        have hend : text r = 0 := by
          rw [hd] at hrest
          exact hrest
        rw [if_pos hend, if_pos rfl]
        exact .none
    | cons c q =>
        rw [hd] at hrest
        rw [if_neg (hrest.head.symm ▸ hrest.2.1), if_neg (List.cons_ne_nil c q)]
        exact .some hrest

theorem pathParse_length (p : Path) :
    (pathParse p).component.length + (pathParse p).rest.elim 0 List.length ≤ p.length := by
  simp only [pathParse, List.span_eq_takeWhile_dropWhile]
  have hsplit := congrArg List.length (List.takeWhile_append_dropWhile
    (p := fun x => decide (x ≠ slash)) (l := p.dropWhile (· = slash)))
  rw [List.length_append] at hsplit
  have hle : (p.dropWhile (· = slash)).length ≤ p.length := (List.dropWhile_sublist _).length_le
  split
  · rw [Option.elim_none]
    omega
  · rw [Option.elim_some]
    omega

end Parse

section Rounds

variable {text : Bytes} {size n : Nat} {p : Option Nat} {rest : Option Path}
  {c : List UInt8} {cs : List (List UInt8)} {name : Bytes} {s : State}

theorem storeName_ne_zero (name : Bytes) (hc : c ≠ []) (hzero : 0 ∉ c) :
    storeName name c 0 ≠ 0 := by
  cases c with
  | nil => exact absurd rfl hc
  | cons x c =>
      have hx : x ≠ 0 := fun h => hzero (by simp [h])
      simpa [storeName, Bytes.blit] using hx

theorem zero_not_mem_left (h : Option.Rel (StringAt text) p rest)
    (hcs : rest.elim [] components = cs) (hc : c ∈ cs) : 0 ∉ c := by
  intro hmem
  cases h with
  | none =>
      rw [← hcs] at hc
      cases hc
  | some h =>
      rw [← hcs] at hc
      exact h.ne_zero 0 (mem_of_mem_components hc hmem) rfl

theorem component_ne_nil (hcs : rest.elim [] components = c :: cs) : c ≠ [] := by
  cases rest with
  | none => cases hcs
  | some q =>
      refine components_ne_nil (p := q) ?_
      rw [Option.elim_some] at hcs
      rw [hcs]
      exact List.mem_cons_self

theorem pathParseAt_round (name : Bytes) {a : Nat} {q : Path} (h : StringAt text a q)
    (hlen : ((components q).headD []).length ≤ size) (hn : q.length < n) :
    ∃ p', pathParseAt text size n a name =
        .ok (p', storeName name ((components q).headD [])) ∧
      Option.Rel (StringAt text) p' (pathParse q).rest := by
  have hhead := (nextComponent (show (some q).elim [] components = components q from rfl)).1
  rw [Option.elim_some] at hhead
  rw [← hhead] at hlen ⊢
  exact pathParseAt_ok name h hn hlen

theorem nextRound_ok (name : Bytes) (h : Option.Rel (StringAt text) p rest)
    (hcs : rest.elim [] components = cs) (hlen : (cs.headD []).length ≤ size)
    (hn : rest.elim 0 List.length < n) :
    ∃ p', nextRound text size n p name =
        .ok (p', storeName (name.fill 0 16 0) (cs.headD [])) ∧
      Option.Rel (StringAt text) p' (rest.elim ⟨[], none⟩ pathParse).rest := by
  subst hcs
  cases h with
  | none =>
      refine ⟨none, ?_, .none⟩
      rw [nextRound]
      refine congrArg (fun b => Except.ok (none, b)) (funext fun i => ?_)
      exact (Bytes.blit_of_outside _ _ _ _ (by simp)).symm
  | some h => exact pathParseAt_round _ h hlen hn

theorem nextRound_shorter (hcs : rest.elim [] components = c :: cs) :
    (rest.elim ⟨[], none⟩ pathParse).rest.elim 0 List.length < rest.elim 0 List.length := by
  have hhead := (nextComponent hcs).1
  have hpos : 0 < c.length := List.length_pos_iff.mpr (component_ne_nil hcs)
  cases rest with
  | none => cases hcs
  | some q =>
      rw [Option.elim_some, List.headD_cons] at hhead
      have hle := pathParse_length q
      rw [hhead] at hle
      rw [Option.elim_some, Option.elim_some]
      omega

theorem cleared (name : Bytes) : ∀ i < 16, name.fill 0 16 0 i = 0 := by
  intro i hi
  rw [Bytes.fill, Bytes.blit_of_lt _ _ _ _ (Nat.zero_le i) (by omega)]

private theorem nextNames_ok (hsize : 16 ≤ size) : ∀ {cs c n p rest name}, name 0 ≠ 0 →
    cstr name size = c → Option.Rel (StringAt text) p rest → rest.elim [] components = cs →
    (∀ c ∈ cs, c.length ≤ 15) → rest.elim 0 List.length + 1 < n →
    nextNames text size n p name = .ok (c :: cs ++ [[]]) := by
  intro cs
  induction cs with
  | nil =>
      intro c n p rest name hname hc hrel hcs hlen hn
      obtain ⟨n, rfl⟩ : ∃ k, n = k + 1 + 1 := ⟨n - 2, by omega⟩
      obtain ⟨p', hround, -⟩ := nextRound_ok name hrel hcs (Nat.zero_le size) (n := n + 1) (by omega)
      have hempty : storeName (name.fill 0 16 0) [] 0 = 0 :=
        (storeName_head List.not_mem_nil (cleared name 0 (by omega))).mpr rfl
      have hread : cstr (storeName (name.fill 0 16 0) []) size = [] :=
        cstr_storeName List.not_mem_nil (by rw [List.length_nil]; omega) (cleared name 0 (by omega))
      rw [List.headD_nil] at hround
      rw [nextNames, if_neg hname, hround, hc]
      change (nextNames text size (n + 1) p' (storeName (name.fill 0 16 0) []) >>=
        fun names => pure (c :: names)) = _
      rw [nextNames, if_pos hempty, hread]
      rfl
  | cons c' cs ih =>
      intro c n p rest name hname hc hrel hcs hlen hn
      obtain ⟨n, rfl⟩ : ∃ k, n = k + 1 := ⟨n - 1, by omega⟩
      have hc'len := hlen c' List.mem_cons_self
      have hfits : c'.length ≤ size := by omega
      obtain ⟨p', hround, hrel'⟩ := nextRound_ok name hrel hcs hfits (n := n) (by omega)
      have hcs' := (nextComponent hcs).2 (List.cons_ne_nil _ _)
      have hless := nextRound_shorter hcs
      have hzero := zero_not_mem_left hrel hcs List.mem_cons_self
      have hne : c' ≠ [] := component_ne_nil hcs
      have hnext' := ih (storeName_ne_zero (name.fill 0 16 0) hne hzero)
        (cstr_storeName hzero (by omega) (cleared name _ (by omega))) hrel' hcs'
        (fun d hd => hlen d (List.mem_cons_of_mem _ hd)) (n := n) (by omega)
      rw [nextNames, if_neg hname, hround, hc]
      change (nextNames text size n p' (storeName (name.fill 0 16 0) c') >>= _) = _
      rw [hnext']
      rfl

private theorem depthLoopAt_eq (n : Nat) : ∀ (p : Option Nat) (name : Bytes) (depth : Nat),
    depthLoopAt text n p name depth =
      (fun names => depth + names.length - 1) <$> nextNames text 16 n p name := by
  induction n with
  | zero => exact fun _ _ _ => rfl
  | succ n ih =>
      intro p name depth
      rw [depthLoopAt, nextNames]
      split
      · rfl
      · cases hround : nextRound text 16 n p name with
        | error e => rfl
        | ok r =>
            change depthLoopAt text n r.1 r.2 (depth + 1) =
              _ <$> (nextNames text 16 n r.1 r.2 >>= fun names => pure (cstr name 16 :: names))
            rw [ih]
            cases nextNames text 16 n r.1 r.2 with
            | error e => rfl
            | ok names =>
                refine congrArg Except.ok ?_
                change depth + 1 + names.length - 1 = depth + (names.length + 1) - 1
                omega

end Rounds

section Depth

variable {s : State} {p : Path} {cs : List (List UInt8)}

private theorem depthLoop_eq : ∀ {cs rest name} (depth : Nat) {n}, name 0 ≠ 0 →
    rest.elim [] components = cs → (∀ c ∈ cs, 0 ∉ c) → cs.length + 1 < n →
    depthLoop n rest name depth s = if ∀ c ∈ cs, c.length ≤ 16 then .ok (depth + cs.length + 1, s)
      else .error .outOfBounds := by
  intro cs
  induction cs with
  | nil =>
      intro rest name depth n hname hcs _ hn
      obtain ⟨n, rfl⟩ : ∃ k, n = k + 2 := ⟨n - 2, by rw [List.length_nil] at hn; omega⟩
      rw [if_pos (by simp)]
      cases rest with
      | none =>
          rw [depthLoop, if_neg hname]
          rfl
      | some q =>
          have hhead : (pathParse q).component = [] := (nextComponent hcs).1
          rw [depthLoop, if_neg hname, hhead]
          rfl
  | cons c cs ih =>
      intro rest name depth n hname hcs hzero hn
      obtain ⟨n, rfl⟩ : ∃ k, n = k + 1 := ⟨n - 1, by omega⟩
      obtain ⟨hhead, htail⟩ := nextComponent hcs
      rw [List.length_cons] at hn
      cases rest with
      | none => cases hcs
      | some q =>
          rw [Option.elim_some] at hhead htail
          rw [depthLoop, if_neg hname, hhead, List.headD_cons]
          by_cases hc : c.length ≤ 16
          · have hne : c ≠ [] := component_ne_nil hcs
            have hrequire : require (c.length ≤ 16) .outOfBounds s = .ok ((), s) :=
              require_ok.mpr ⟨rfl, hc⟩
            have hcount : depth + 1 + cs.length + 1 = depth + (c :: cs).length + 1 := by
              rw [List.length_cons]
              omega
            rw [Code.bind_of_ok hrequire, ih (depth + 1)
              (storeName_ne_zero Bytes.zero hne (hzero c List.mem_cons_self))
              (htail (List.cons_ne_nil _ _)) (fun d hd => hzero d (List.mem_cons_of_mem _ hd))
              (by omega), hcount]
            simp only [List.forall_mem_cons, hc, true_and]
          · rw [require, if_neg hc, if_neg fun hshort => hc (hshort c List.mem_cons_self)]
            rfl

private theorem pathParseAt_first {text : Bytes} {size n a : Nat} (name : Bytes) (hsize : 16 ≤ size)
    (h : StringAt text a p) (hne : components p ≠ [])
    (hlen : ∀ c ∈ components p, c.length ≤ 15) (hn : p.length < n) :
    ∃ c p' rest', pathParseAt text size n a name = .ok (p', storeName name c) ∧
      components p = c :: rest'.elim [] components ∧ c ≠ [] ∧ c.length ≤ 15 ∧ 0 ∉ c ∧
      Option.Rel (StringAt text) p' rest' ∧ rest'.elim 0 List.length < p.length := by
  have hleft : (some p).elim [] components = components p := rfl
  have htail : (pathParse p).rest.elim [] components = (components p).tail :=
    (nextComponent hleft).2 hne
  obtain ⟨c, cs, hcs⟩ := List.exists_cons_of_ne_nil hne
  have hmem : c ∈ components p := by
    rw [hcs]
    exact List.mem_cons_self
  have hfits : ((components p).headD []).length ≤ size := by
    rw [hcs]
    exact (hlen c hmem).trans (by omega)
  obtain ⟨p', hparse, hrel⟩ := pathParseAt_round name h hfits hn
  rw [hcs, List.headD_cons] at hparse
  rw [hcs, List.tail_cons] at htail
  have hless : (pathParse p).rest.elim 0 List.length < p.length :=
    nextRound_shorter (hleft.trans hcs)
  refine ⟨c, p', _, hparse, ?_, components_ne_nil hmem, hlen c hmem, ?_, hrel, hless⟩
  · rw [hcs, htail]
  · exact fun hzero => h.ne_zero 0 (mem_of_mem_components hmem hzero) rfl

/-- Every round of a caller with a cleared buffer yields a component, and a last one nothing. -/
private theorem pathNames_ok {text : Bytes} {size n a : Nat} {name : Bytes} (hsize : 16 ≤ size)
    (hname : ∀ i < 16, name i = 0) (h : StringAt text a p) (hne : components p ≠ [])
    (hlen : ∀ c ∈ components p, c.length ≤ 15) (hn : p.length < n) :
    pathNames text size n a name = .ok (components p ++ [[]]) := by
  obtain ⟨c, p', rest', hparse, hcs, hc, hshort, hzero, hrel, hless⟩ :=
    pathParseAt_first name hsize h hne hlen hn
  have hnext := nextNames_ok hsize (storeName_ne_zero name hc hzero)
    (cstr_storeName hzero (by omega) (hname _ (by omega))) hrel rfl
    (fun d hd => hlen d (by rw [hcs]; exact List.mem_cons_of_mem _ hd)) (n := n) (by omega)
  rw [pathNames, hparse, hcs]
  exact hnext

private theorem pathDepthCntAt_ok {text : Bytes} {n a : Nat} (stack : Bytes) (h : StringAt text a p)
    (hne : components p ≠ []) (hlen : ∀ c ∈ components p, c.length ≤ 15) (hn : p.length < n) :
    pathDepthCntAt text n stack a = .ok (components p).length := by
  obtain ⟨c, p', rest', hparse, hcs, hc, -, hzero, hrel, hless⟩ :=
    pathParseAt_first stack le_rfl h hne hlen hn
  have hnext := nextNames_ok le_rfl (storeName_ne_zero stack hc hzero) rfl hrel rfl
    (fun d hd => hlen d (by rw [hcs]; exact List.mem_cons_of_mem _ hd)) (n := n) (by omega)
  rw [pathDepthCntAt, hparse, hcs]
  change depthLoopAt text n p' (storeName stack c) 0 = _
  rw [depthLoopAt_eq, hnext]
  refine congrArg Except.ok ?_
  simp

theorem length_components_le (p : Path) : (components p).length ≤ p.length := by
  have hcount := List.card_nsmul_le_sum ((components p).map fun c => c.length + 1) 2 fun k hk => by
    obtain ⟨c, hc, rfl⟩ := List.mem_map.mp hk
    exact Nat.succ_le_succ (List.length_pos_iff.mpr (components_ne_nil hc))
  rw [List.length_map, smul_eq_mul, ← pathLength] at hcount
  have hle := pathLength_components_succ p
  omega

theorem pathDepthCnt_eq (hzero : ∀ c ∈ components p, 0 ∉ c) (hne : components p ≠ []) :
    pathDepthCnt p s = if ∀ c ∈ components p, c.length ≤ 16 then .ok ((components p).length, s)
      else .error .outOfBounds := by
  have hcount := length_components_le p
  obtain ⟨c, cs, hcs⟩ := List.exists_cons_of_ne_nil hne
  have hleft : (some p).elim [] components = c :: cs := hcs
  have hhead : (pathParse p).component = c := (nextComponent hleft).1
  rw [hcs] at hzero
  rw [hcs, List.length_cons] at hcount
  rw [hcs, pathDepthCnt, hhead]
  by_cases hc : c.length ≤ 16
  · have hne : c ≠ [] := component_ne_nil hleft
    have hrest : (pathParse p).rest.elim [] components = cs :=
      (nextComponent hleft).2 (List.cons_ne_nil _ _)
    have hrequire : require (c.length ≤ 16) .outOfBounds s = .ok ((), s) :=
      require_ok.mpr ⟨rfl, hc⟩
    have hthere : require (c ≠ []) .uninitialised s = .ok ((), s) := require_ok.mpr ⟨rfl, hne⟩
    rw [Code.bind_of_ok hrequire, Code.bind_of_ok hthere, depthLoop_eq 0
      (storeName_ne_zero Bytes.zero hne (hzero c List.mem_cons_self)) hrest
      (fun d hd => hzero d (List.mem_cons_of_mem _ hd)) (by omega), Nat.zero_add]
    simp only [List.forall_mem_cons, hc, true_and, List.length_cons]
  · rw [require, if_neg hc, if_neg fun hshort => hc (hshort c List.mem_cons_self)]
    rfl

end Depth

section Slashes

/-- One of two neighbouring slashes, or a slash at the end, is dropped. -/
inductive DropSlash : Path → Path → Prop
  | repeated (p q : Path) : DropSlash (p ++ slash :: slash :: q) (p ++ slash :: q)
  | trailing (p : Path) : DropSlash (p ++ [slash]) p

/-- The paths differ only in repeated or trailing slashes. -/
def SameButSlashes : Path → Path → Prop := Relation.EqvGen DropSlash

private theorem components_append_slash (p q : Path) :
    components (p ++ slash :: q) = components p ++ components q := by
  rw [components, List.splitOn_append_cons_self, List.filter_append]
  rfl

theorem DropSlash.components {p q : Path} (h : DropSlash p q) :
    Fs.components p = Fs.components q := by
  cases h with
  | repeated p q => rw [components_append_slash, components_append_slash, components_slash]
  | trailing q => rw [components_append_slash, show Fs.components [] = [] from rfl, List.append_nil]

theorem SameButSlashes.components {p q : Path} (h : SameButSlashes p q) :
    Fs.components p = Fs.components q := by
  induction h with
  | rel p q h => exact h.components
  | refl p => rfl
  | symm p q _ ih => exact ih.symm
  | trans p q r _ _ ih ih' => exact ih.trans ih'

end Slashes

/-- On a path with components of at most fifteen bytes the callers of `path_parse` see the components
in order and then an empty name, `path_depth_cnt` returns how many there are, and it returns the same
for every path that differs only in repeated or trailing slashes. -/
theorem pathParse_components {text : Bytes} {a n : Nat} {p : Path} (hp : StringAt text a p)
    (hne : components p ≠ []) (hlen : ∀ c ∈ components p, c.length ≤ 15) (hn : p.length < n) :
    (∀ size name, 16 ≤ size → (∀ i < 16, name i = 0) →
      pathNames text size n a name = .ok (components p ++ [[]])) ∧
    (∀ stack, pathDepthCntAt text n stack a = .ok (components p).length) ∧
    (∀ s, pathDepthCnt p s = .ok ((components p).length, s)) ∧
    ∀ text' a' q n' stack, StringAt text' a' q → SameButSlashes p q → q.length < n' →
      pathDepthCntAt text' n' stack a' = .ok (components p).length := by
  refine ⟨fun size name hsize hname => pathNames_ok hsize hname hp hne hlen hn,
    fun stack => pathDepthCntAt_ok stack hp hne hlen hn, fun s => ?_, ?_⟩
  · rw [pathDepthCnt_eq (fun c hc hzero => hp.ne_zero 0 (mem_of_mem_components hc hzero) rfl) hne,
      if_pos fun c hc => (hlen c hc).trans (by decide)]
  · intro text' a' q n' stack hq hsame hn'
    have hcs := hsame.components
    rw [hcs] at hne hlen ⊢
    exact pathDepthCntAt_ok stack hq hne hlen hn'

/-- `//a//b/` and `/a/b` at the start of two memories -/
theorem pathParse_components_ab :
    pathNames (fun i => (path "//a//b/").getD i 0) 512 8 0 Bytes.zero =
        .ok [path "a", path "b", []] ∧
      pathDepthCntAt (fun i => (path "//a//b/").getD i 0) 8 (fun _ => 255) 0 = .ok 2 ∧
      pathDepthCntAt (fun i => (path "/a/b").getD i 0) 5 (fun _ => 255) 0 = .ok 2 := by
  have hstr : StringAt (fun i => (path "//a//b/").getD i 0) 0 (path "//a//b/") :=
    .of_getD (fun _ _ => by rw [Nat.zero_add]) rfl (by decide)
  have hstr' : StringAt (fun i => (path "/a/b").getD i 0) 0 (path "/a/b") :=
    .of_getD (fun _ _ => by rw [Nat.zero_add]) rfl (by decide)
  have hsame : SameButSlashes (path "//a//b/") (path "/a/b") :=
    ((Relation.EqvGen.rel _ _ (DropSlash.repeated [] (path "a//b/"))).trans _ _ _
      (.rel _ _ (DropSlash.repeated (path "/a") (path "b/")))).trans _ _ _
      (.rel _ _ (DropSlash.trailing (path "/a/b")))
  obtain ⟨hnames, hdepth, -, hother⟩ := pathParse_components hstr (by decide) (by decide) (n := 8)
    (by decide)
  exact ⟨hnames 512 Bytes.zero (by decide) fun _ _ => rfl, hdepth _,
    hother _ 0 _ 5 _ hstr' hsame (by decide)⟩

end Aitos.Fs
