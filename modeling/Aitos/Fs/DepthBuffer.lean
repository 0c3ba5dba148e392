import Aitos.Fs.PathParse
import Aitos.Fs.SearchedPath

/-!
# The name buffer of path_depth_cnt

`path_parse` copies a component whatever its length, and the buffer of `path_depth_cnt` holds sixteen
bytes.  `sys_open` and `sys_mkdir` hand it the path of the user and then the path that was searched.
-/

namespace Aitos.Fs

open Framework

section Overflow

variable {text : Bytes} {size n a : Nat} {p : Path}

private theorem copyName_overflow (name : Bytes) (h : StringAt text a p) (hn : p.length < n)
    {j : Nat} (hj : j ≤ size) (hsize : size < j + (p.takeWhile (· ≠ slash)).length) :
    copyName text size n a j name = .error .outOfBounds := by
  induction p generalizing a n j name with
  | nil =>
      rw [List.takeWhile_nil, List.length_nil] at hsize
      omega
  | cons c p ih =>
      obtain ⟨n, rfl⟩ : ∃ k, n = k + 1 := ⟨n - 1, by omega⟩
      rw [List.length_cons] at hn
      by_cases hc : c = slash
      · rw [List.takeWhile_cons_of_neg (by simpa using hc), List.length_nil] at hsize
        omega
      · rw [List.takeWhile_cons_of_pos (by simpa using hc), List.length_cons] at hsize
        rw [copyName, h.head, if_pos ⟨hc, h.2.1⟩]
        by_cases hlt : j < size
        · rw [if_pos hlt]
          exact ih _ h.tail (by omega) hlt (by omega)
        · rw [if_neg hlt]
          rfl

private theorem pathParseAt_overflow (name : Bytes) (h : StringAt text a p) (hn : p.length < n)
    (hsize : size < (pathParse p).component.length) :
    pathParseAt text size n a name = .error .outOfBounds := by
  obtain ⟨b, hb, hstr⟩ := leadingSlashes_ok h hn
  simp only [pathParse, List.span_eq_takeWhile_dropWhile] at hsize
  have hle : (p.dropWhile (· = slash)).length ≤ p.length := (List.dropWhile_sublist _).length_le
  rw [pathParseAt, hb]
  change (copyName text size n b 0 name >>= _) = _
  rw [copyName_overflow name hstr (by omega) (Nat.zero_le size) (by rwa [Nat.zero_add])]
  rfl

end Overflow

section Depth

variable {text : Bytes} {n a : Nat} {p : Option Nat} {rest : Option Path}
  {cs : List (List UInt8)} {name : Bytes}

private theorem nextRound_overflow (name : Bytes) (h : Option.Rel (StringAt text) p rest)
    (hcs : rest.elim [] components = cs) (hlong : 16 < (cs.headD []).length)
    (hn : rest.elim 0 List.length < n) :
    nextRound text 16 n p name = .error .outOfBounds := by
  rw [← (nextComponent hcs).1] at hlong
  cases h with
  | none => exact absurd hlong (by decide)
  | some h => exact pathParseAt_overflow _ h hn hlong

/-- The loop counts the components that are left, or overruns its buffer at one of them. -/
private theorem depthLoopAt_cases : ∀ {cs n p rest name} (depth : Nat), name 0 ≠ 0 →
    Option.Rel (StringAt text) p rest → rest.elim [] components = cs →
    rest.elim 0 List.length + 1 < n →
    if ∀ c ∈ cs, c.length ≤ 16 then
      depthLoopAt text n p name depth = .ok (depth + 1 + cs.length)
    else depthLoopAt text n p name depth = .error .outOfBounds := by
  intro cs
  induction cs with
  | nil =>
      intro n p rest name depth hname hrel hcs hn
      obtain ⟨n, rfl⟩ : ∃ k, n = k + 1 + 1 := ⟨n - 2, by omega⟩
      obtain ⟨p', hround, -⟩ := nextRound_ok name hrel hcs (Nat.zero_le 16) (n := n + 1) (by omega)
      have hempty : storeName (name.fill 0 16 0) [] 0 = 0 :=
        (storeName_head List.not_mem_nil (cleared name 0 (by omega))).mpr rfl
      rw [if_pos (by simp), depthLoopAt, if_neg hname, hround]
      change depthLoopAt text (n + 1) p' (storeName (name.fill 0 16 0) []) (depth + 1) = _
      rw [depthLoopAt, if_pos hempty]
      rfl
  | cons c cs ih =>
      intro n p rest name depth hname hrel hcs hn
      obtain ⟨n, rfl⟩ : ∃ k, n = k + 1 := ⟨n - 1, by omega⟩
      by_cases hc : c.length ≤ 16
      · obtain ⟨p', hround, hrel'⟩ := nextRound_ok name hrel hcs hc (n := n) (by omega)
        have hless := nextRound_shorter hcs
        have hne := component_ne_nil hcs
        have hzero := zero_not_mem_left hrel hcs List.mem_cons_self
        have hrest := ih (depth + 1) (storeName_ne_zero (name.fill 0 16 0) hne hzero) hrel'
          ((nextComponent hcs).2 (List.cons_ne_nil _ _)) (n := n) (by omega)
        have hall : (∀ d ∈ c :: cs, d.length ≤ 16) ↔ ∀ d ∈ cs, d.length ≤ 16 := by
          rw [List.forall_mem_cons, and_iff_right hc]
        have hrun : depthLoopAt text (n + 1) p name depth =
            depthLoopAt text n p' (storeName (name.fill 0 16 0) c) (depth + 1) := by
          rw [depthLoopAt, if_neg hname, hround]
          rfl
        rw [hrun]
        simp only [hall, List.length_cons]
        rw [show depth + 1 + (cs.length + 1) = depth + 1 + 1 + cs.length by omega]
        exact hrest
      · have hover := nextRound_overflow name hrel hcs (by rw [List.headD_cons]; omega)
          (n := n) (by omega)
        rw [if_neg fun hall => hc (hall c List.mem_cons_self), depthLoopAt, if_neg hname, hover]
        rfl

private theorem pathParse_rest_none {q : Path} (h : (pathParse q).component = []) :
    (pathParse q).rest = none := by
  simp only [pathParse, List.span_eq_takeWhile_dropWhile] at h ⊢
  cases hd : q.dropWhile (· = slash) with
  | nil => rfl
  | cons x d =>
      have hx : x ≠ slash := by
        simpa using head_dropWhile (f := (· = slash)) q (by rw [hd]; rfl)
      rw [hd, List.takeWhile_cons_of_pos (by simpa using hx)] at h
      cases h

/-- The depth of a path without a component depends on what was on the stack. -/
private theorem pathDepthCntAt_nil {q : Path} (stack : Bytes) (hq : StringAt text a q)
    (hcs : components q = []) (hn : q.length + 1 < n) :
    pathDepthCntAt text n stack a = .ok (if stack 0 = 0 then 0 else 1) := by
  have hleft : (some q).elim [] components = [] := hcs
  have hcomp : (pathParse q).component = [] := (nextComponent hleft).1
  have hparse : pathParseAt text 16 n a stack = .ok (none, stack) := by
    have hfits : (pathParse q).component.length ≤ 16 := by
      rw [hcomp]
      exact Nat.zero_le 16
    obtain ⟨p', hp', hrel⟩ := pathParseAt_ok stack hq (Nat.lt_of_succ_lt hn) hfits
    rw [pathParse_rest_none hcomp] at hrel
    cases hrel
    rw [hp', hcomp]
    refine congrArg (fun b => Except.ok (none, b)) (funext fun i => ?_)
    exact Bytes.blit_of_outside _ _ _ _ (by simp)
  obtain ⟨n, rfl⟩ : ∃ k, n = k + 1 + 1 := ⟨n - 2, by omega⟩
  rw [pathDepthCntAt, hparse]
  change depthLoopAt text (n + 1 + 1) none stack 0 = _
  rw [depthLoopAt]
  split
  · rfl
  · change depthLoopAt text (n + 1) none (stack.fill 0 16 0) 1 = _
    rw [depthLoopAt, if_pos (cleared stack 0 (by omega))]
    rfl

private theorem pathDepthCntAt_cons {q : Path} {c : List UInt8} {cs : List (List UInt8)}
    (stack : Bytes) (hq : StringAt text a q) (hcs : components q = c :: cs) (hn : q.length < n)
    (hc : c.length ≤ 16) :
    if ∀ d ∈ cs, d.length ≤ 16 then pathDepthCntAt text n stack a = .ok (1 + cs.length)
    else pathDepthCntAt text n stack a = .error .outOfBounds := by
  have hleft : (some q).elim [] components = c :: cs := hcs
  have hrest : (pathParse q).rest.elim [] components = cs :=
    (nextComponent hleft).2 (List.cons_ne_nil _ _)
  have hless : (pathParse q).rest.elim 0 List.length < q.length := nextRound_shorter hleft
  have hmem : c ∈ components q := by
    rw [hcs]
    exact List.mem_cons_self
  have hzero : 0 ∉ c := fun h => hq.ne_zero 0 (mem_of_mem_components hmem h) rfl
  have hfits : ((components q).headD []).length ≤ 16 := by
    rw [hcs]
    exact hc
  obtain ⟨p', hparse, hrel⟩ := pathParseAt_round stack hq hfits hn
  rw [hcs, List.headD_cons] at hparse
  have hloop := depthLoopAt_cases 0 (storeName_ne_zero stack (components_ne_nil hmem) hzero) hrel
    hrest (n := n) (by omega)
  rw [Nat.zero_add] at hloop
  rw [pathDepthCntAt, hparse]
  exact hloop

private theorem pathDepthCntAt_fits {q : Path} (stack : Bytes) (hq : StringAt text a q)
    (hn : q.length + 1 < n) (hshort : ∀ c ∈ components q, c.length ≤ 16) :
    ∃ d, pathDepthCntAt text n stack a = .ok d := by
  cases hcs : components q with
  | nil => exact ⟨_, pathDepthCntAt_nil stack hq hcs hn⟩
  | cons c cs =>
      rw [hcs, List.forall_mem_cons] at hshort
      have hcases := pathDepthCntAt_cons stack hq hcs (n := n) (by omega) hshort.1
      rw [if_pos hshort.2] at hcases
      exact ⟨_, hcases⟩

private theorem pathDepthCntAt_overflow {q : Path} (stack : Bytes) (hq : StringAt text a q)
    (hn : q.length < n) (hlong : ¬ ∀ c ∈ components q, c.length ≤ 16) :
    pathDepthCntAt text n stack a = .error .outOfBounds := by
  cases hcs : components q with
  | nil =>
      rw [hcs] at hlong
      exact absurd (by simp) hlong
  | cons c cs =>
      rw [hcs, List.forall_mem_cons] at hlong
      by_cases hc : c.length ≤ 16
      · have hcases := pathDepthCntAt_cons stack hq hcs hn hc
        rwa [if_neg fun hrest => hlong ⟨hc, hrest⟩] at hcases
      · have hfirst : (pathParse q).component = c :=
          (nextComponent (show (some q).elim [] components = c :: cs from hcs)).1
        rw [pathDepthCntAt, pathParseAt_overflow stack hq hn (by rw [hfirst]; omega)]
        rfl

/-- No `path_parse` call of `path_depth_cnt` on the path `q` stores more bytes than the name buffer
has, wherever the path stands in memory and whatever was on the stack. -/
def DepthFits (q : Path) : Prop :=
  ∀ text a n stack, StringAt text a q → q.length + 1 < n →
    pathDepthCntAt text n stack a ≠ .error .outOfBounds

private theorem stringAt_getD {q : Path} (hzero : 0 ∉ q) : StringAt (fun i => q.getD i 0) 0 q := by
  refine StringAt.of_getD (fun i _ => ?_) ?_ hzero
  · rw [Nat.zero_add]
  · rw [Nat.zero_add]
    exact List.getD_eq_default _ _ le_rfl

private theorem depthFits_iff {q : Path} (hzero : 0 ∉ q) :
    DepthFits q ↔ ∀ c ∈ components q, c.length ≤ 16 := by
  constructor
  · intro hfits
    by_contra hlong
    exact hfits _ 0 (q.length + 2) Bytes.zero (stringAt_getD hzero) (by omega)
      (pathDepthCntAt_overflow _ (stringAt_getD hzero) (by omega) hlong)
  · intro hshort text a n stack hq hn hover
    obtain ⟨d, hd⟩ := pathDepthCntAt_fits stack hq hn hshort
    rw [hd] at hover
    cases hover

end Depth

section Callers

variable {s : State} {pathname q : Path}

/-- The calls that count depths -/
inductive DepthCaller where
  | sysOpen (flags : UInt32)
  | sysMkdir

/-- The caller gets to the depth of its path: `sys_open` when the path does not end in a slash, and
`sys_mkdir` when the search does not find it. -/
def CountsPath (s : State) (pathname : Path) : DepthCaller → Prop
  | .sysOpen flags => pathname.getLast? ≠ some slash ∧ (s.ndebug = true ∨ flags ≤ 7)
  | .sysMkdir => ∃ s₁ r s₂, sysMalloc s = .ok (true, s₁) ∧
      searchFile pathname s₁ = .ok (r, s₂) ∧ r.inodeNo = minusOne

/-- The caller gets to the depth of the path `q` that was searched. -/
def CountsSearched (s : State) (pathname : Path) (q : Path) : DepthCaller → Prop
  | .sysOpen flags => CountsPath s pathname (.sysOpen flags) ∧
      ∃ r s₁, searchFile pathname s = .ok (r, s₁) ∧ r.fileType ≠ ftDirectory ∧ r.searchedPath = q
  | .sysMkdir => ∃ s₁ r s₂, sysMalloc s = .ok (true, s₁) ∧
      searchFile pathname s₁ = .ok (r, s₂) ∧ r.inodeNo = minusOne ∧ r.searchedPath = q

/-- The paths that the call hands to `path_depth_cnt` -/
def CallsDepth (s : State) (pathname : Path) (caller : DepthCaller) (q : Path) : Prop :=
  q = pathname ∧ CountsPath s pathname caller ∨ CountsSearched s pathname q caller

private theorem CountsSearched.counts {caller : DepthCaller}
    (h : CountsSearched s pathname q caller) : CountsPath s pathname caller := by
  cases caller with
  | sysOpen flags => exact h.1
  | sysMkdir =>
      obtain ⟨s₁, r, s₂, hmem, hsearch, hno, -⟩ := h
      exact ⟨s₁, r, s₂, hmem, hsearch, hno⟩

theorem CountsSearched.components {caller : DepthCaller} (h : CountsSearched s pathname q caller)
    (hzero : 0 ∉ pathname) (hlen : pathname.length < 512)
    (hshort : ∀ c ∈ components pathname, c.length ≤ 16) :
    0 ∉ q ∧ ∀ c ∈ Fs.components q, c ∈ Fs.components pathname := by
  have hsearched : ∃ done, done <+: Fs.components pathname ∧ q = joined done := by
    cases caller with
    | sysOpen flags =>
        obtain ⟨-, r, s₁, hsearch, -, rfl⟩ := h
        exact searchFile_searched hzero hlen hshort hsearch
    | sysMkdir =>
        obtain ⟨s₁, r, s₂, -, hsearch, -, rfl⟩ := h
        exact searchFile_searched hzero hlen hshort hsearch
  obtain ⟨done, hdone, rfl⟩ := hsearched
  have hsound : ∀ c ∈ done, c ∈ Fs.components pathname := fun c hc => hdone.subset hc
  refine ⟨zero_notMem_joined fun c hc hmem => hzero (mem_of_mem_components (hsound c hc) hmem), ?_⟩
  rw [components_joined fun c hc =>
    ⟨(component_sound (hsound c hc)).1, (component_sound (hsound c hc)).2.1⟩]
  exact hsound

/-- On a path shorter than `MAX_PATH_LEN` no `path_parse` call of `path_depth_cnt` stores more than
sixteen bytes, if and only if the call returns before it counts or all components are at most sixteen
bytes. -/
theorem depthCalls_iff (s : State) (caller : DepthCaller) (hzero : 0 ∉ pathname)
    (hlen : pathname.length < 512) :
    (∀ q, CallsDepth s pathname caller q → DepthFits q) ↔
      ¬ CountsPath s pathname caller ∨ ∀ c ∈ components pathname, c.length ≤ 16 := by
  constructor
  · intro hfits
    by_cases hcounts : CountsPath s pathname caller
    · exact .inr ((depthFits_iff hzero).mp (hfits pathname (.inl ⟨rfl, hcounts⟩)))
    · exact .inl hcounts
  · rintro (hnot | hshort) q (⟨rfl, hcounts⟩ | hsearched)
    · exact absurd hcounts hnot
    · exact absurd hsearched.counts hnot
    · exact (depthFits_iff hzero).mpr hshort
    · obtain ⟨hq, hsub⟩ := hsearched.components hzero hlen hshort
      exact (depthFits_iff hq).mpr fun c hc => hshort c (hsub c hc)

/-- A component of sixteen bytes still fits. -/
theorem depthCalls_sixteen :
    CallsDepth (State.fresh smallPartition Bytes.zero) (path "/abcdefghijklmnop") (.sysOpen 0)
      (path "/abcdefghijklmnop") ∧
    ∀ q, CallsDepth (State.fresh smallPartition Bytes.zero) (path "/abcdefghijklmnop")
      (.sysOpen 0) q → DepthFits q := by
  refine ⟨.inl ⟨rfl, by decide, .inr (by decide)⟩, ?_⟩
  exact (depthCalls_iff (State.fresh smallPartition Bytes.zero) (.sysOpen 0) (by decide)
    (by decide)).mpr (.inr (by decide))

/-- A component of seventeen bytes does not. -/
theorem depthCalls_seventeen : ¬ ∀ q, CallsDepth (State.fresh smallPartition Bytes.zero)
    (path "/abcdefghijklmnopq") (.sysOpen 0) q → DepthFits q := by
  intro hfits
  have hcounts : CountsPath (State.fresh smallPartition Bytes.zero) (path "/abcdefghijklmnopq")
      (.sysOpen 0) := ⟨by decide, .inr (by decide)⟩
  have hshort := (depthFits_iff (by decide)).mp (hfits _ (.inl ⟨rfl, hcounts⟩))
  exact absurd hshort (by decide)

end Callers

end Aitos.Fs
