import Aitos.Framework.Tokens
import Aitos.Framework.Zoom
import Aitos.Shell.Repl

/-!
# Cutting a line into arguments

`parse_line` of `shell/repl.c` on any line and any vector.  The line has `size` bytes and the vector
`slots` places; an access outside of them stops the run, so a run that returns has made none.
`shell_run` calls it on its static buffers.
-/

namespace Aitos.Shell.ParseLine

open Framework

/-- What `line` and `argv` point at.  A pointer into the line is its offset. -/
structure Args where
  line : Bytes
  argv : Nat → Option Nat

abbrev ParseM := Code Args Fault

section Code

variable (size slots : Nat)

def charAt (p : Nat) : ParseM UInt8 := do
  if p < size then return (← get).line p else throw .outOfBounds

def setChar (p : Nat) (c : UInt8) : ParseM Unit :=
  if p < size then modify fun s => { s with line := Function.update s.line p c }
  else throw .outOfBounds

def setArg (i : Nat) (q : Option Nat) : ParseM Unit :=
  if i < slots then modify fun s => { s with argv := Function.update s.argv i q }
  else throw .outOfBounds

/-- `while (*p == ' ' || *p == '\t') p++`, with `n` bytes left in the line. -/
def skipBlanks : Nat → Nat → ParseM Nat
  | 0, _ => throw .outOfBounds
  | n + 1, p => do
      let c ← charAt size p
      if isBlank c then skipBlanks n (p + 1) else return p

/-- `while (*p && *p != ' ' && *p != '\t') p++`, with `n` bytes left in the line. -/
def skipWord : Nat → Nat → ParseM Nat
  | 0, _ => throw .outOfBounds
  | n + 1, p => do
      let c ← charAt size p
      if c ≠ 0 ∧ isBlank c = false then skipWord n (p + 1) else return p

/-- The loop over the tokens, with `room = max_arg - 1 - argc`. -/
def parseTokens : Nat → Nat → Nat → ParseM Nat
  | 0, argc, p => do
      let _ ← charAt size p
      return argc
  | room + 1, argc, p => do
      let c ← charAt size p
      if c = 0 then return argc
      else do
        setArg slots argc (some p)
        let p ← skipWord size (size - p) p
        let c ← charAt size p
        if c = 0 then return argc + 1
        else do
          setChar size p 0
          let p ← skipBlanks size (size - (p + 1)) (p + 1)
          parseTokens room (argc + 1) p

def parseLine (maxArg : Nat) : ParseM Nat := do
  let p ← skipBlanks size size 0
  let argc ← parseTokens size slots (maxArg - 1) 0 p
  setArg slots argc none
  return argc

end Code

/-- The line holds the string `l` at `p`, its terminating zero included. -/
def StringAt (size : Nat) (line : Bytes) : Nat → List UInt8 → Prop
  | p, [] => p < size ∧ line p = 0
  | p, c :: l => p < size ∧ line p = c ∧ c ≠ 0 ∧ StringAt size line (p + 1) l

namespace StringAt

variable {size : Nat} {line line' : Bytes} {p : Nat} {l : List UInt8}

theorem inside (h : StringAt size line p l) : p + l.length < size := by
  induction l generalizing p with
  | nil => exact h.1
  | cons c l ih =>
      have hl := ih h.2.2.2
      rw [List.length_cons]
      omega

private theorem of_append {w : List UInt8} (h : StringAt size line p (w ++ l)) :
    StringAt size line (p + w.length) l := by
  induction w generalizing p with
  | nil => exact h
  | cons c w ih =>
      rw [List.length_cons, Nat.add_comm w.length, ← Nat.add_assoc]
      exact ih h.2.2.2

theorem congr (h : StringAt size line p l)
    (hline : ∀ i, p ≤ i → i ≤ p + l.length → line' i = line i) : StringAt size line' p l := by
  induction l generalizing p with
  | nil => exact ⟨h.1, (hline p (by omega) (by omega)).trans h.2⟩
  | cons c l ih =>
      obtain ⟨hp, hc, hne, hl⟩ := h
      rw [List.length_cons] at hline
      exact ⟨hp, (hline p (by omega) (by omega)).trans hc, hne,
        ih hl fun i h₁ h₂ => hline i (by omega) (by omega)⟩

theorem cut {w : List UInt8} (h : StringAt size line p (w ++ l)) :
    StringAt size (Function.update line (p + w.length) 0) p w := by
  induction w generalizing p with
  | nil =>
      have hin := h.inside
      exact ⟨by omega, Function.update_self ..⟩
  | cons c w ih =>
      obtain ⟨hp, hc, hne, hl⟩ := h
      have hrest := ih hl
      rw [List.length_cons, Nat.add_comm w.length, ← Nat.add_assoc]
      refine ⟨hp, ?_, hne, hrest⟩
      rw [Function.update_of_ne (by omega), hc]

theorem dropWhile (h : StringAt size line p l) (f : UInt8 → Bool) :
    StringAt size line (p + (l.takeWhile f).length) (l.dropWhile f) := by
  rw [← List.takeWhile_append_dropWhile (p := f) (l := l)] at h
  exact h.of_append

private theorem of_chars (hchars : ∀ i (h : i < l.length), line (p + i) = l.get ⟨i, h⟩)
    (hzero : 0 ∉ l)
    (hend : line (p + l.length) = 0) (hsize : p + l.length < size) : StringAt size line p l := by
  induction l generalizing p with
  | nil => exact ⟨hsize, hend⟩
  | cons c l ih =>
      rw [List.length_cons] at hend hsize
      have hc : line p = c := hchars 0 (by simp)
      refine ⟨by omega, hc, fun h => hzero (by simp [h]), ?_⟩
      apply ih
      · intro i hi
        rw [show p + 1 + i = p + (i + 1) by omega]
        exact hchars (i + 1) (by simpa using hi)
      · exact fun h => hzero (List.mem_cons_of_mem _ h)
      · rw [show p + 1 + l.length = p + (l.length + 1) by omega]
        exact hend
      · omega

end StringAt

/-- Slots `i`, `i + 1`, … of the vector point at these strings. -/
def PointsAt (size : Nat) (s : Args) : Nat → List (List UInt8) → Prop
  | _, [] => True
  | i, arg :: args => (∃ p, s.argv i = some p ∧ StringAt size s.line p arg) ∧
      PointsAt size s (i + 1) args

section Loops

variable {size slots : Nat} {s : Args} {p : Nat} {l : List UInt8}

private theorem charAt_eq (hp : p < size) : charAt size p s = .ok (s.line p, s) := by
  rw [charAt, if_pos hp]
  rfl

private theorem setChar_eq (hp : p < size) (c : UInt8) :
    setChar size p c s = .ok ((), { s with line := Function.update s.line p c }) := by
  rw [setChar, if_pos hp]
  rfl

private theorem setArg_eq {i : Nat} (hi : i < slots) (q : Option Nat) :
    setArg slots i q s = .ok ((), { s with argv := Function.update s.argv i q }) := by
  rw [setArg, if_pos hi]
  rfl

private theorem skipBlanks_eq (h : StringAt size s.line p l) :
    skipBlanks size (size - p) p s = .ok (p + (l.takeWhile isBlank).length, s) := by
  induction l generalizing p with
  | nil =>
      obtain ⟨hp, hc⟩ := h
      rw [show size - p = size - (p + 1) + 1 by omega, skipBlanks, Code.bind_of_ok (charAt_eq hp), hc]
      rfl
  | cons c l ih =>
      obtain ⟨hp, hc, hne, hl⟩ := h
      rw [show size - p = size - (p + 1) + 1 by omega, skipBlanks,
        Code.bind_of_ok (charAt_eq hp), hc]
      cases hb : isBlank c with
      | true =>
          rw [if_pos rfl, ih hl, List.takeWhile_cons_of_pos hb, List.length_cons]
          congr 2
          omega
      | false =>
          rw [List.takeWhile_cons_of_neg (by simp [hb])]
          rfl

private theorem skipWord_eq (h : StringAt size s.line p l) :
    skipWord size (size - p) p s = .ok (p + (l.takeWhile fun c => !isBlank c).length, s) := by
  induction l generalizing p with
  | nil =>
      obtain ⟨hp, hc⟩ := h
      rw [show size - p = size - (p + 1) + 1 by omega, skipWord, Code.bind_of_ok (charAt_eq hp), hc]
      rfl
  | cons c l ih =>
      obtain ⟨hp, hc, hne, hl⟩ := h
      rw [show size - p = size - (p + 1) + 1 by omega, skipWord,
        Code.bind_of_ok (charAt_eq hp), hc]
      cases hb : isBlank c with
      | true =>
          rw [List.takeWhile_cons_of_neg (by simp [hb]), if_neg (by simp)]
          rfl
      | false =>
          rw [if_pos ⟨hne, rfl⟩, ih hl, List.takeWhile_cons_of_pos (by simp [hb]), List.length_cons]
          congr 2
          omega

end Loops

private theorem tokens_dropWhile_blank (l : List UInt8) :
    tokens isBlank (l.dropWhile isBlank) = tokens isBlank l := by
  conv_rhs => rw [← List.takeWhile_append_dropWhile (p := isBlank) (l := l)]
  rw [tokens_append_seps]
  intro a ha
  exact List.mem_takeWhile_imp ha

theorem head_dropWhile {f : UInt8 → Bool} {l : List UInt8} :
    ∀ c ∈ (l.dropWhile f).head?, f c = false := by
  intro c hc
  have hnot := List.head?_dropWhile_not f l
  rw [Option.mem_def.mp hc] at hnot
  simpa using hnot

/-- What the loop over the tokens of `l`, which stands at `p`, has done from slot `argc` on. -/
structure Parsed (size : Nat) (l : List UInt8) (toks : List (List UInt8)) (argc p : Nat)
    (s s' : Args) : Prop where
  args : PointsAt size s' argc toks
  line : ∀ i, i < p ∨ p + l.length ≤ i → s'.line i = s.line i
  argv : ∀ i, i < argc ∨ argc + toks.length ≤ i → s'.argv i = s.argv i

section Parse

variable {size slots : Nat} {s s' : Args} {p argc room : Nat} {l : List UInt8}

theorem PointsAt.congr {i : Nat} {args : List (List UInt8)} (h : PointsAt size s i args)
    (hline : s'.line = s.line)
    (hargv : ∀ j, i ≤ j → j < i + args.length → s'.argv j = s.argv j) :
    PointsAt size s' i args := by
  induction args generalizing i with
  | nil => trivial
  | cons arg args ih =>
      obtain ⟨⟨p, hp, htext⟩, hargs⟩ := h
      rw [List.length_cons] at hargv
      refine ⟨⟨p, (hargv i (by omega) (by omega)).trans hp, hline ▸ htext⟩, ?_⟩
      exact ih hargs fun j h₁ h₂ => hargv j (by omega) (by omega)

theorem PointsAt.get {i : Nat} {args : List (List UInt8)} (h : PointsAt size s i args) {k : Nat}
    (hk : k < args.length) : ∃ p, s.argv (i + k) = some p ∧
      StringAt size s.line p (args.get ⟨k, hk⟩) := by
  induction args generalizing i k with
  | nil => simp at hk
  | cons arg args ih =>
      obtain ⟨hfirst, hargs⟩ := h
      cases k with
      | zero => exact hfirst
      | succ k =>
          obtain ⟨p, hp, htext⟩ := ih hargs (by simpa using hk)
          refine ⟨p, ?_, htext⟩
          rw [← hp]
          congr 1
          omega

theorem Parsed.cons {w rest : List UInt8} {b : UInt8} {toks : List (List UInt8)}
    (h : StringAt size s.line p (w ++ b :: rest)) {blanks : Nat} {tail : List UInt8}
    (hlen : blanks + tail.length = rest.length)
    (hrest : Parsed size tail toks (argc + 1) (p + w.length + 1 + blanks)
      ⟨Function.update s.line (p + w.length) 0, Function.update s.argv argc (some p)⟩ s') :
    Parsed size (w ++ b :: rest) (w :: toks) argc p s s' where
  args := by
    refine ⟨⟨p, ?_, ?_⟩, hrest.args⟩
    · rw [hrest.argv argc (by omega)]
      exact Function.update_self ..
    · refine h.cut.congr fun i _ hi => ?_
      exact hrest.line i (.inl (by omega))
  line i hi := by
    rw [List.length_append, List.length_cons] at hi
    rw [hrest.line i (by omega)]
    exact Function.update_of_ne (by omega) ..
  argv i hi := by
    rw [List.length_cons] at hi
    rw [hrest.argv i (by omega)]
    exact Function.update_of_ne (by omega) ..

/-- The loop over the tokens, by induction on the room that is left in the vector. -/
private theorem parseTokens_parsed (h : StringAt size s.line p l)
    (hhead : ∀ c ∈ l.head?, isBlank c = false) (hroom : argc + room < slots) :
    ∃ s', parseTokens size slots room argc p s =
        .ok (argc + ((tokens isBlank l).take room).length, s') ∧
      Parsed size l ((tokens isBlank l).take room) argc p s s' := by
  induction room generalizing s argc p l with
  | zero =>
      have hp : p < size := by
        have hin := h.inside
        omega
      refine ⟨s, ?_, ?_⟩
      · rw [parseTokens, Code.bind_of_ok (charAt_eq hp)]
        rfl
      · exact ⟨by simp [PointsAt], fun _ _ => rfl, fun _ _ => rfl⟩
  | succ room ih =>
      cases l with
      | nil =>
          refine ⟨s, ?_, ?_⟩
          · rw [parseTokens, Code.bind_of_ok (charAt_eq h.1), if_pos h.2]
            simp [pure, StateT.pure, Except.pure]
          · exact ⟨by simp [PointsAt], fun _ _ => rfl, fun _ _ => rfl⟩
      | cons c l =>
          have hc : isBlank c = false := hhead c (by simp)
          set w := (c :: l).takeWhile (fun c => !isBlank c) with hw
          have hne : w ≠ [] := by
            rw [hw, List.takeWhile_cons_of_pos (by simp [hc])]
            exact List.cons_ne_nil _ _
          have hnb : ∀ a ∈ w, isBlank a = false := by
            intro a ha
            simpa using List.mem_takeWhile_imp ha
          have hsplit := List.takeWhile_append_dropWhile (p := fun c => !isBlank c) (l := c :: l)
          have hrest := h.dropWhile fun c => !isBlank c
          rw [← hw] at hsplit hrest
          -- the slot of this token is filled before its end is searched
          set s₁ : Args := { s with argv := Function.update s.argv argc (some p) } with hs₁
          have hword : skipWord size (size - p) p s₁ = .ok (p + w.length, s₁) := skipWord_eq h
          have hstart : ∀ f : UInt8 → ParseM Nat, (charAt size p >>= f) s = f c s := by
            intro f
            rw [Code.bind_of_ok (charAt_eq h.1), h.2.1]
          rw [parseTokens, hstart, if_neg h.2.2.1,
            Code.bind_of_ok (setArg_eq (by omega) (some p)), Code.bind_of_ok hword]
          cases hr : (c :: l).dropWhile (fun c => !isBlank c) with
          | nil =>
              -- the line ends with this token
              rw [hr, List.append_nil] at hsplit
              rw [hr] at hrest
              have htok : (tokens isBlank (c :: l)).take (room + 1) = [w] := by
                rw [← hsplit, tokens_word hnb hne, List.take_succ_cons, List.take_nil]
              rw [htok]
              refine ⟨s₁, ?_, ?_, fun _ _ => rfl, ?_⟩
              · rw [Code.bind_of_ok (charAt_eq hrest.1), if_pos hrest.2]
                rfl
              · refine ⟨⟨p, Function.update_self .., ?_⟩, trivial⟩
                rw [hsplit]
                exact h
              · intro i hi
                rw [List.length_singleton] at hi
                exact Function.update_of_ne (by omega) ..
          | cons b rest =>
              rw [hr] at hsplit hrest
              have hb : isBlank b = true := by
                have hnot := List.head?_dropWhile_not (fun c => !isBlank c) (c :: l)
                rw [hr] at hnot
                simpa using hnot
              obtain ⟨hq, hbq, hbne, htail⟩ := hrest
              set s₂ : Args := { s₁ with line := Function.update s.line (p + w.length) 0 }
                with hs₂
              have htail₂ : StringAt size s₂.line (p + w.length + 1) rest :=
                htail.congr fun i h₁ _ => Function.update_of_ne (by omega) ..
              obtain ⟨s', hrun, hparsed⟩ := @ih s₂ _ (argc + 1) _ (htail₂.dropWhile isBlank)
                head_dropWhile (by omega)
              rw [tokens_dropWhile_blank] at hrun hparsed
              have htok : (tokens isBlank (c :: l)).take (room + 1) =
                  w :: (tokens isBlank rest).take room := by
                rw [← hsplit, tokens_word_append hnb hne hb, List.take_succ_cons]
              have hlen : (rest.takeWhile isBlank).length + (rest.dropWhile isBlank).length =
                  rest.length := by
                rw [← List.length_append, List.takeWhile_append_dropWhile]
              rw [htok]
              refine ⟨s', ?_, ?_⟩
              · rw [Code.bind_of_ok (charAt_eq hq), if_neg (by rw [hbq]; exact hbne),
                  Code.bind_of_ok (setChar_eq hq 0), Code.bind_of_ok (skipBlanks_eq htail₂), hrun,
                  List.length_cons, Nat.add_right_comm, ← Nat.add_assoc]
              · rw [← hsplit] at h ⊢
                exact Parsed.cons h hlen hparsed

/-- The vector that `parse_line` makes of a line. -/
def argsOf (maxArg : Nat) (l : List UInt8) : List (List UInt8) :=
  (tokens isBlank l).take (maxArg - 1)

private theorem length_argsOf (maxArg : Nat) (l : List UInt8) :
    (argsOf maxArg l).length = min (tokens isBlank l).length (maxArg - 1) := by
  rw [argsOf, List.length_take, Nat.min_comm]

/-- What `parse_line` leaves: the vector with its `NULL`; bytes behind the line and slots that are
not its own are as before. -/
structure LineParsed (size maxArg : Nat) (l : List UInt8) (s s' : Args) : Prop where
  args : PointsAt size s' 0 (argsOf maxArg l)
  null : s'.argv (argsOf maxArg l).length = none
  line : ∀ i, l.length ≤ i → s'.line i = s.line i
  argv : ∀ i, maxArg ≤ i → s'.argv i = s.argv i

theorem parseLine_parsed {maxArg : Nat} (h : StringAt size s.line 0 l) (hmax : 1 ≤ maxArg)
    (hslots : maxArg ≤ slots) : ∃ s', parseLine size slots maxArg s =
        .ok ((argsOf maxArg l).length, s') ∧ LineParsed size maxArg l s s' := by
  obtain ⟨s', hrun, hparsed⟩ := @parseTokens_parsed size slots s _ 0 (maxArg - 1) _
    (h.dropWhile isBlank) head_dropWhile (by omega)
  rw [tokens_dropWhile_blank, ← argsOf] at hrun hparsed
  have hlen : (argsOf maxArg l).length < maxArg := by
    have hmin := length_argsOf maxArg l
    omega
  have hsum : (l.takeWhile isBlank).length + (l.dropWhile isBlank).length = l.length := by
    rw [← List.length_append, List.takeWhile_append_dropWhile]
  refine ⟨{ s' with argv := Function.update s'.argv (argsOf maxArg l).length none }, ?_, ?_, ?_,
    ?_, ?_⟩
  · have hskip := skipBlanks_eq h
    have hlength := Nat.zero_add (argsOf maxArg l).length
    rw [Nat.sub_zero] at hskip
    rw [hlength] at hrun
    rw [parseLine, Code.bind_of_ok hskip, Code.bind_of_ok hrun,
      Code.bind_of_ok (setArg_eq (by omega) none)]
    rfl
  · refine hparsed.args.congr rfl fun j _ hj => ?_
    exact Function.update_of_ne (by omega) ..
  · exact Function.update_self ..
  · intro i hi
    exact hparsed.line i (.inr (by omega))
  · intro i hi
    change Function.update s'.argv (argsOf maxArg l).length none i = _
    rw [Function.update_of_ne (by omega)]
    exact hparsed.argv i (.inr (by omega))

end Parse

/-! ### The static buffers -/

/-- `line_buf` and `argv_buf` -/
def buffers : Lens Repl Args where
  get s := ⟨s.lineBuf, s.argvBuf⟩
  set s t := { s with lineBuf := t.line, argvBuf := t.argv }
  get_set _ _ := rfl
  set_get _ := rfl
  set_set _ _ _ := rfl

private theorem lineAt_zoom (p : Nat) : lineAt p = buffers.zoom (charAt shellLineMax p) := by
  funext s
  rw [lineAt, charAt, Lens.zoom_ite]
  split <;> rfl

private theorem setLine_zoom (p : Nat) (c : UInt8) :
    setLine p c = buffers.zoom (setChar shellLineMax p c) := by
  funext s
  rw [setLine, setChar, Lens.zoom_ite]
  split <;> rfl

private theorem setArgv_zoom (i : Nat) (q : Option Nat) :
    setArgv i q = buffers.zoom (setArg argvMax i q) := by
  funext s
  rw [setArgv, setArg, Lens.zoom_ite]
  split <;> rfl

private theorem skipBlanks_zoom (n : Nat) : ∀ p,
    Shell.skipBlanks n p = buffers.zoom (skipBlanks shellLineMax n p) := by
  induction n with
  | zero => exact fun _ => rfl
  | succ n ih =>
      intro p
      simp only [Shell.skipBlanks, skipBlanks, Lens.zoom_bind, Lens.zoom_ite, Lens.zoom_pure,
        lineAt_zoom, ih]

private theorem skipWord_zoom (n : Nat) : ∀ p,
    Shell.skipWord n p = buffers.zoom (skipWord shellLineMax n p) := by
  induction n with
  | zero => exact fun _ => rfl
  | succ n ih =>
      intro p
      simp only [Shell.skipWord, skipWord, Lens.zoom_bind, Lens.zoom_ite, Lens.zoom_pure,
        lineAt_zoom, ih]

private theorem parseTokens_zoom (room : Nat) : ∀ argc p,
    Shell.parseTokens room argc p = buffers.zoom (parseTokens shellLineMax argvMax room argc p) := by
  induction room with
  | zero =>
      intro argc p
      simp only [Shell.parseTokens, parseTokens, Lens.zoom_bind, Lens.zoom_pure, lineAt_zoom]
  | succ room ih =>
      intro argc p
      simp only [Shell.parseTokens, parseTokens, Lens.zoom_bind, Lens.zoom_ite, Lens.zoom_pure,
        lineAt_zoom, setArgv_zoom, setLine_zoom, skipWord_zoom, skipBlanks_zoom, ih]

/-- The shell cuts its line as `parse_line` does on any buffers. -/
theorem parseLine_zoom (maxArg : Nat) :
    Shell.parseLine maxArg = buffers.zoom (parseLine shellLineMax argvMax maxArg) := by
  simp only [Shell.parseLine, parseLine, Lens.zoom_bind, Lens.zoom_pure, skipBlanks_zoom,
    parseTokens_zoom, setArgv_zoom]

/-! ### Echo -/

/-- The arguments with a blank between them. -/
def joinArgs : List (List UInt8) → List UInt8
  | [] => []
  | [arg] => arg
  | arg :: args => arg ++ 0x20 :: joinArgs args

/-- The text that `cmd_echo` prints in front of the line feed. -/
def echoText (argv : List (List UInt8)) : List UInt8 := joinArgs argv.tail

private theorem joinArgs_cons (arg : List UInt8) {args : List (List UInt8)} (h : args ≠ []) :
    joinArgs (arg :: args) = arg ++ 0x20 :: joinArgs args := by
  cases args with
  | nil => exact absurd rfl h
  | cons => rfl

private theorem tokens_joinArgs {args : List (List UInt8)} (hne : ∀ a ∈ args, a ≠ [])
    (hword : ∀ a ∈ args, ∀ c ∈ a, isBlank c = false) : tokens isBlank (joinArgs args) = args := by
  induction args with
  | nil => exact tokens_nil _
  | cons arg args ih =>
      have harg := hne arg List.mem_cons_self
      have hchars := hword arg List.mem_cons_self
      by_cases hlast : args = []
      · rw [hlast]
        exact tokens_word hchars harg
      · have hrest := ih (fun a ha => hne a (List.mem_cons_of_mem _ ha))
          (fun a ha => hword a (List.mem_cons_of_mem _ ha))
        rw [joinArgs_cons arg hlast, tokens_word_append hchars harg (by decide), hrest]

private theorem joinArgs_flatMap (arg : List UInt8) (args : List (List UInt8)) :
    joinArgs (arg :: args) = arg ++ args.flatMap fun a => 0x20 :: a := by
  induction args generalizing arg with
  | nil => exact (List.append_nil arg).symm
  | cons a args ih =>
      rw [joinArgs_cons arg (List.cons_ne_nil _ _), ih a]
      rfl

/-- The shell after characters were printed. -/
def emit (r : Repl) (cs : List UInt8) : Repl :=
  { r with console := Drivers.emitString cs r.console }

private theorem emit_emit (r : Repl) (cs ds : List UInt8) :
    emit (emit r cs) ds = emit r (cs ++ ds) := by
  have happend : Drivers.emitString (cs ++ ds) r.console =
      Drivers.emitString ds (Drivers.emitString cs r.console) := List.foldl_append
  rw [emit, emit, emit, happend]

private theorem printk_prints {fmt : String} {args : List Drivers.PrintkArg} {cs : List UInt8}
    (h : Drivers.printkChars (Drivers.ascii fmt) args = some cs) (r : Repl) :
    printk fmt args r = .ok ((), emit r cs) := by
  rw [printk, Code.get_bind, Drivers.printk, h]
  rfl

private theorem printk_arg (arg : List UInt8) (r : Repl) :
    printk "%s" [.str arg] r = .ok ((), emit r arg) := by
  have hchars : Drivers.printkChars (Drivers.ascii "%s") [.str arg] = some (arg ++ []) := rfl
  rw [List.append_nil] at hchars
  exact printk_prints hchars r

private theorem echoArgs_rest (args : List (List UInt8)) : ∀ {i : Nat} (_ : 1 < i) (r : Repl),
    echoArgs i args r = .ok ((), emit r (args.flatMap fun a => 0x20 :: a)) := by
  induction args with
  | nil => exact fun _ _ => rfl
  | cons arg args ih =>
      intro i hi r
      have hblank : printk " " [] r = .ok ((), emit r [0x20]) := printk_prints rfl r
      have hturn : echoArgs i (arg :: args) r =
          (printk " " [] >>= fun _ => printk "%s" [.str arg] >>= fun _ => echoArgs (i + 1) args) r := by
        simp only [echoArgs, hi, if_true]
      rw [hturn, Code.bind_of_ok hblank, Code.bind_of_ok (printk_arg arg _), ih (by omega),
        emit_emit, emit_emit, List.flatMap_cons]
      rfl

/-- The call prints this text and a line feed. -/
def EchoPrints (argv : List (List UInt8)) (out : List UInt8) : Prop :=
  ∀ r : Repl, cmdEcho argv r = .ok (0, emit r (out ++ [0xa]))

private theorem cmdEcho_prints (argv : List (List UInt8)) : EchoPrints argv (echoText argv) := by
  intro r
  have hargs : echoArgs 1 argv.tail r = .ok ((), emit r (echoText argv)) := by
    rw [echoText]
    cases argv.tail with
    | nil => rfl
    | cons arg args =>
        have hturn : echoArgs 1 (arg :: args) r =
            (printk "%s" [.str arg] >>= fun _ => echoArgs 2 args) r := rfl
        rw [hturn, Code.bind_of_ok (printk_arg arg r), echoArgs_rest args (by omega), emit_emit,
          joinArgs_flatMap]
  have hend : ∀ r, printk "\n" [] r = .ok ((), emit r [0xa]) := printk_prints rfl
  rw [cmdEcho, Code.bind_of_ok hargs, Code.bind_of_ok (hend _), emit_emit]
  rfl

/-- What `echo` has printed, given to `echo` again, is the same vector up to its first word. -/
private theorem echoText_again (maxArg : Nat) (l : List UInt8) :
    echoText (argsOf maxArg (Drivers.ascii "echo " ++ echoText (argsOf maxArg l))) =
      echoText (argsOf maxArg l) := by
  have hargs : ∀ a ∈ (argsOf maxArg l).tail, a ∈ tokens isBlank l := fun a ha =>
    List.mem_of_mem_take (List.mem_of_mem_tail ha)
  have htext : tokens isBlank (echoText (argsOf maxArg l)) = (argsOf maxArg l).tail :=
    tokens_joinArgs (fun a ha => (mem_tokens (hargs a ha)).1)
      fun a ha => (mem_tokens (hargs a ha)).2.1
  have htokens : tokens isBlank (Drivers.ascii "echo " ++ echoText (argsOf maxArg l)) =
      Drivers.ascii "echo" :: (argsOf maxArg l).tail := by
    rw [← htext]
    have hword : ∀ c ∈ Drivers.ascii "echo", isBlank c = false := by decide +kernel
    have hsplit : Drivers.ascii "echo " = Drivers.ascii "echo" ++ [0x20] := by decide +kernel
    rw [hsplit, List.append_assoc]
    exact tokens_word_append hword (by decide +kernel) (by decide) _
  have hlen := length_argsOf maxArg l
  have htail : (argsOf maxArg l).tail.length = (argsOf maxArg l).length - 1 := List.length_tail
  have hvec : (argsOf maxArg (Drivers.ascii "echo " ++ echoText (argsOf maxArg l))).tail =
      (argsOf maxArg l).tail := by
    rw [argsOf, htokens]
    cases hroom : maxArg - 1 with
    | zero =>
        have hnil : (argsOf maxArg l).tail = [] := by
          rw [← List.length_eq_zero_iff]
          omega
        rw [hnil]
        rfl
    | succ room =>
        rw [List.take_succ_cons, List.tail_cons]
        exact List.take_of_length_le (by omega)
  exact congrArg joinArgs hvec

/-- `parse_line` on every line: the vector points at the runs of characters between the blanks, as
many as have room, a `NULL` stands behind them, and nothing behind the line or the vector is
touched.  Given what `echo` has printed for them, `echo` prints it again. -/
theorem parse_line_argv (l : List UInt8) (maxArg : Nat) (hmax : 1 ≤ maxArg) (s : Args)
    (h : StringAt (l.length + 1) s.line 0 l) :
    ∃ s', parseLine (l.length + 1) maxArg maxArg s =
        .ok (min (tokens isBlank l).length (maxArg - 1), s') ∧
      (∀ i (hi : i < (tokens isBlank l).length), i < maxArg - 1 → ∃ p, s'.argv i = some p ∧
        StringAt (l.length + 1) s'.line p ((tokens isBlank l).get ⟨i, hi⟩)) ∧
      s'.argv (min (tokens isBlank l).length (maxArg - 1)) = none ∧
      (∀ i, l.length ≤ i → s'.line i = s.line i) ∧ (∀ i, maxArg ≤ i → s'.argv i = s.argv i) ∧
      ∃ argv out, argv.length = min (tokens isBlank l).length (maxArg - 1) ∧
        PointsAt (l.length + 1) s' 0 argv ∧ EchoPrints argv out ∧
        ∀ (size : Nat) (s₂ : Args), StringAt size s₂.line 0 (Drivers.ascii "echo " ++ out) →
          ∃ argv₂ s₂', parseLine size maxArg maxArg s₂ = .ok (argv₂.length, s₂') ∧
            PointsAt size s₂' 0 argv₂ ∧ EchoPrints argv₂ out := by
  obtain ⟨s', hrun, hdone⟩ := parseLine_parsed h hmax le_rfl
  have hlen := length_argsOf maxArg l
  have hnull := hdone.null
  rw [hlen] at hrun hnull
  refine ⟨s', hrun, ?_, hnull, hdone.line, hdone.argv, argsOf maxArg l, echoText (argsOf maxArg l),
    hlen, hdone.args, cmdEcho_prints _, ?_⟩
  · intro i hi hroom
    obtain ⟨p, hp, htext⟩ := hdone.args.get (k := i) (by omega)
    rw [Nat.zero_add] at hp
    refine ⟨p, hp, ?_⟩
    have hget : (argsOf maxArg l).get ⟨i, by omega⟩ = (tokens isBlank l).get ⟨i, hi⟩ := by
      simp [argsOf]
    rw [← hget]
    exact htext
  · intro size s₂ h₂
    obtain ⟨s₂', hrun₂, hdone₂⟩ := parseLine_parsed h₂ hmax le_rfl
    have hprints := cmdEcho_prints (argsOf maxArg
      (Drivers.ascii "echo " ++ echoText (argsOf maxArg l)))
    rw [echoText_again] at hprints
    exact ⟨_, s₂', hrun₂, hdone₂.args, hprints⟩

/-- `  echo a  b` with room for three pointers: two arguments, the third is cut off. -/
theorem parse_line_argv_full : ∃ s', parseLine 12 3 3
    ⟨fun i => (Drivers.ascii "  echo a  b").getD i 0, fun _ => none⟩ = .ok (2, s') := by
  have hline : StringAt 12 (fun i => (Drivers.ascii "  echo a  b").getD i 0) 0
      (Drivers.ascii "  echo a  b") := by
    refine StringAt.of_chars ?_ (by decide) (by decide) (by decide)
    intro i hi
    rw [Nat.zero_add, List.getD_eq_getElem _ _ hi]
    rfl
  obtain ⟨s', hrun, -⟩ := parse_line_argv (Drivers.ascii "  echo a  b") 3 (by decide)
    ⟨fun i => (Drivers.ascii "  echo a  b").getD i 0, fun _ => none⟩ hline
  exact ⟨s', hrun⟩

end Aitos.Shell.ParseLine
