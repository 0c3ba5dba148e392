import Aitos.Shell.ParseLine

/-!
# The shell as a line editor

What the input loop is for: an editor that holds the line as a list of characters and hands the
tokens of each line to a command.  The loop on the reused buffer, with a parser that overwrites
it in place, does the same for every sequence of keys.
-/

namespace Aitos.Shell

open Framework Drivers

/-- The editor's line, the argument vectors of the lines entered so far, and whether it stopped. -/
structure LineEditor where
  line : List UInt8
  entered : List (List (List UInt8))
  stopped : Bool
  deriving DecidableEq, Repr

namespace LineEditor

variable (exits : List (List UInt8) → Bool)

/-- The argument vector of a line: its first fifteen tokens. -/
def args (line : List UInt8) : List (List UInt8) := (tokens isBlank line).take 15

def enter (e : LineEditor) : LineEditor :=
  if e.line = [] then e
  else
    { line := [], entered := e.entered ++ [args e.line],
      stopped := exits (args e.line) }

def key (e : LineEditor) (k : UInt8) : LineEditor :=
  if e.stopped then e
  else if k = 4 then { e with stopped := e.line = [] }
  else if k = 3 then { e with line := [] }
  else if k = 0x0a ∨ k = 0x0d then e.enter exits
  else if k = 0x08 ∨ k = 127 then { e with line := e.line.dropLast }
  else if 32 ≤ k ∧ k ≤ 126 ∧ e.line.length < 127 then { e with line := e.line ++ [k] }
  else e

def run (keys : List UInt8) : LineEditor := keys.foldl (key exits) ⟨[], [], false⟩

end LineEditor

/-! ### Code that only prints -/

/-- The code returns `a` and changes nothing but the console. -/
def Prints {α : Type} (m : ShellM α) (a : α) : Prop :=
  ∀ s : Repl, ∃ console, m s = .ok (a, { s with console })

namespace Prints

variable {α β : Type} {a : α} {b : β}

theorem pure : Prints (pure a) a := fun s => ⟨s.console, rfl⟩

theorem bind {m : ShellM α} {f : α → ShellM β} (hm : Prints m a) (hf : Prints (f a) b) :
    Prints (m >>= f) b := by
  intro s
  obtain ⟨c₁, h₁⟩ := hm s
  obtain ⟨c₂, h₂⟩ := hf { s with console := c₁ }
  exact ⟨c₂, by rw [Code.bind_of_ok h₁, h₂]⟩

private theorem modifyConsole (f : Repl → Console) :
    Prints (modify fun s : Repl => { s with console := f s } : ShellM Unit) () :=
  fun s => ⟨f s, rfl⟩

end Prints

theorem printk_eq {fmt : String} {args : List PrintkArg} {cs : List UInt8}
    (h : printkChars (ascii fmt) args = some cs) (s : Repl) :
    printk fmt args s = .ok ((), { s with console := emitString cs s.console }) := by
  rw [printk, Code.get_bind, Drivers.printk, h]
  rfl

private theorem prints_printk {fmt : String} {args : List PrintkArg}
    (h : (printkChars (ascii fmt) args).isSome) : Prints (printk fmt args) () := by
  intro s
  obtain ⟨cs, hcs⟩ := Option.isSome_iff_exists.mp h
  exact ⟨_, printk_eq hcs s⟩

private theorem prints_prompt : Prints printPrompt () := prints_printk (by decide)

private theorem prints_helpLines (cmds : List ShellCmd) : Prints (printHelpLines cmds) () := by
  induction cmds with
  | nil => exact .pure
  | cons cmd cmds ih => exact (prints_printk rfl).bind ih

private theorem prints_echoArgs (i : Nat) (args : List (List UInt8)) :
    Prints (echoArgs i args) () := by
  induction args generalizing i with
  | nil => exact .pure
  | cons arg args ih =>
      have hrest : Prints (printk "%s" [.str arg] >>= fun _ => echoArgs (i + 1) args) () :=
        (prints_printk rfl).bind (ih (i + 1))
      rw [echoArgs]
      by_cases hi : i > 1
      · simp only [hi, if_true]
        exact (prints_printk (by decide)).bind hrest
      · simp only [hi, if_false]
        exact Prints.pure.bind hrest

/-- What each handler returns. -/
def Handler.result : Handler → Int
  | .exit => shellExit
  | _ => 0

private theorem prints_handler (argv : List (List UInt8)) (h : Handler) :
    Prints (h.run argv) h.result := by
  cases h with
  | help => exact ((prints_printk (by decide)).bind (prints_helpLines _)).bind .pure
  | clear => exact (Prints.modifyConsole _).bind .pure
  | version => exact (prints_printk (by decide)).bind .pure
  | echo => exact (prints_echoArgs 1 _).bind ((prints_printk (by decide)).bind .pure)
  | uname => exact (prints_printk (by decide)).bind .pure
  | exit => exact .pure

/-- The value `shell_dispatch` returns. -/
def dispatchResult : List (List UInt8) → Int
  | [] => 0
  | name :: _ =>
      if name = [] then 0
      else
        match findCmd name with
        | some cmd => cmd.handler.result
        | none => -1

private theorem prints_dispatch (argv : List (List UInt8)) :
    Prints (shellDispatch argv) (dispatchResult argv) := by
  cases argv with
  | nil => exact .pure
  | cons name argv =>
      rw [shellDispatch, dispatchResult]
      split
      · exact .pure
      · cases hcmd : findCmd name with
        | none => exact (prints_printk rfl).bind .pure
        | some cmd => exact prints_handler _ cmd.handler

/-! ### Parsing in place -/

/-- The buffer holds the string `l` at `p`, its terminating zero included. -/
def TextAt (buf : Bytes) : Nat → List UInt8 → Prop
  | p, [] => p < shellLineMax ∧ buf p = 0
  | p, c :: l => p < shellLineMax ∧ buf p = c ∧ c ≠ 0 ∧ TextAt buf (p + 1) l

private theorem textAt_iff {buf : Bytes} {p : Nat} {l : List UInt8} :
    TextAt buf p l ↔ ParseLine.StringAt shellLineMax buf p l := by
  induction l generalizing p with
  | nil => exact Iff.rfl
  | cons c l ih => rw [TextAt, ParseLine.StringAt, ih]

section Loops

variable {s : Repl} {p : Nat} {l : List UInt8}

private theorem lineAt_eq (hp : p < shellLineMax) : lineAt p s = .ok (s.lineBuf p, s) := by
  rw [lineAt, if_pos hp]
  rfl

theorem setLine_eq (hp : p < shellLineMax) (c : UInt8) :
    setLine p c s = .ok ((), { s with lineBuf := Function.update s.lineBuf p c }) := by
  rw [setLine, if_pos hp]
  rfl

private theorem cString_eq (h : TextAt s.lineBuf p l) :
    cString (shellLineMax - p) p s = .ok (l, s) := by
  induction l generalizing p with
  | nil =>
      obtain ⟨hp, hc⟩ := h
      obtain ⟨n, hn⟩ := Nat.exists_eq_add_of_lt hp
      rw [show shellLineMax - p = n + 1 by omega, cString, Code.bind_of_ok (lineAt_eq hp), hc]
      rfl
  | cons c l ih =>
      obtain ⟨hp, hc, hne, hl⟩ := h
      rw [show shellLineMax - p = shellLineMax - (p + 1) + 1 by omega, cString,
        Code.bind_of_ok (lineAt_eq hp), hc, if_neg hne, Code.bind_of_ok (ih hl)]
      rfl

end Loops

/-- Slots `i`, `i + 1`, … of `argv_buf` point at these strings. -/
def ArgsAt (s : Repl) : Nat → List (List UInt8) → Prop
  | _, [] => True
  | i, arg :: args => (∃ p, s.argvBuf i = some p ∧ TextAt s.lineBuf p arg) ∧ ArgsAt s (i + 1) args

private theorem argStrings_eq {s : Repl} {i : Nat} {args : List (List UInt8)} (h : ArgsAt s i args)
    (hi : i + args.length ≤ argvMax) : argStrings args.length i s = .ok (args, s) := by
  induction args generalizing i with
  | nil => rfl
  | cons arg args ih =>
      obtain ⟨⟨p, hp, htext⟩, hargs⟩ := h
      rw [List.length_cons] at hi ⊢
      have hslot : argvAt i s = .ok (some p, s) := by
        rw [argvAt, if_pos (by omega), ← hp]
        rfl
      have harg : argString i s = .ok (arg, s) := by
        rw [argString, Code.bind_of_ok hslot]
        exact cString_eq htext
      rw [argStrings, Code.bind_of_ok harg, Code.bind_of_ok (ih hargs (by omega))]
      rfl

private theorem argsAt_iff {s : Repl} {i : Nat} {args : List (List UInt8)} :
    ArgsAt s i args ↔ ParseLine.PointsAt shellLineMax (ParseLine.buffers.get s) i args := by
  induction args generalizing i with
  | nil => exact Iff.rfl
  | cons arg args ih =>
      simp only [ArgsAt, ParseLine.PointsAt, textAt_iff, ih]
      exact Iff.rfl

/-- The state with other contents of the two static arrays. -/
def Repl.withBuffers (s : Repl) (buf : Bytes) (argv : Nat → Option Nat) : Repl :=
  { s with lineBuf := buf, argvBuf := argv }

private theorem length_args_lt (line : List UInt8) : (LineEditor.args line).length < argvMax := by
  rw [LineEditor.args, List.length_take, argvMax]
  omega

private theorem parseLine_eq {s : Repl} {line : List UInt8} (h : TextAt s.lineBuf 0 line) :
    ∃ buf argv,
      parseLine argvMax s = .ok ((LineEditor.args line).length, s.withBuffers buf argv) ∧
      ArgsAt (s.withBuffers buf argv) 0 (LineEditor.args line) := by
  obtain ⟨t, hrun, hdone⟩ := ParseLine.parseLine_parsed (s := ParseLine.buffers.get s)
    (textAt_iff.mp h) (show 1 ≤ argvMax by decide) le_rfl
  refine ⟨t.line, t.argv, ?_, argsAt_iff.mpr hdone.args⟩
  rw [ParseLine.parseLine_zoom]
  exact ParseLine.buffers.zoom_ok hrun

private theorem dispatchLine_eq {s : Repl} {line : List UInt8} (h : TextAt s.lineBuf 0 line) :
    ∃ buf argv console,
      dispatchLine s = .ok (dispatchResult (LineEditor.args line),
        { s with
          lineBuf := buf, argvBuf := argv, console
          dispatched := s.dispatched ++ [LineEditor.args line] }) := by
  obtain ⟨buf, argv, hrun, hargs⟩ := parseLine_eq h
  have hstrings := argStrings_eq hargs (by have := length_args_lt line; omega)
  obtain ⟨console, hdispatch⟩ := prints_dispatch (LineEditor.args line)
    { s.withBuffers buf argv with dispatched := s.dispatched ++ [LineEditor.args line] }
  refine ⟨buf, argv, console, ?_⟩
  rw [dispatchLine, Code.bind_of_ok hrun, Code.bind_of_ok hstrings, Code.modify_bind]
  exact hdispatch

/-! ### Simulation -/

/-- The line the running loop holds in its buffer. -/
structure HoldsLine (s : Repl) (line : List UInt8) : Prop where
  pos : s.pos = line.length
  chars : ∀ i (h : i < line.length), s.lineBuf i = line.get ⟨i, h⟩
  nonzero : ∀ c ∈ line, c ≠ 0
  fits : line.length < shellLineMax

/-- The loop and the editor have entered the same lines and stopped alike; while they run they
hold the same line. -/
structure Simulates (s : Repl) (e : LineEditor) : Prop where
  dispatched : s.dispatched = e.entered
  stopped : s.stopped = e.stopped
  line : e.stopped = false → HoldsLine s e.line

/-- The code returns in a state that simulates the editor `e`. -/
def Reaches (m : ShellM Unit) (s : Repl) (e : LineEditor) : Prop :=
  ∃ s', m s = .ok ((), s') ∧ Simulates s' e

private theorem Reaches.after_print {m : ShellM Unit} {f : Unit → ShellM Unit} {s : Repl}
    {e : LineEditor} (hm : Prints m ()) (hf : ∀ console, Reaches (f ()) { s with console } e) :
    Reaches (m >>= f) s e := by
  obtain ⟨console, hrun⟩ := hm s
  obtain ⟨s', hs', hsim⟩ := hf console
  exact ⟨s', by rw [Code.bind_of_ok hrun, hs'], hsim⟩

private theorem Reaches.of_prints {m : ShellM Unit} {s : Repl} {e : LineEditor} (hm : Prints m ())
    (h : ∀ console, Simulates { s with console } e) : Reaches m s e := by
  obtain ⟨console, hrun⟩ := hm s
  exact ⟨_, hrun, h console⟩

private theorem holdsLine_nil {s : Repl} (h : s.pos = 0) : HoldsLine s [] :=
  ⟨h, fun _ h => absurd h (Nat.not_lt_zero _), by simp, by decide⟩

private theorem reaches_shutdown {s : Repl} {e : LineEditor} (hd : s.dispatched = e.entered)
    (hstop : e.stopped = true) : Reaches shellShutdown s e := by
  have hprint : Prints (printk "AiTOS halted. Use Ctrl-A X to quit QEMU.\n" []) () :=
    prints_printk (by decide)
  apply Reaches.after_print (prints_printk (by decide))
  intro console
  rw [Reaches, Code.modify_bind]
  apply Reaches.after_print hprint
  intro console'
  refine ⟨_, rfl, hd, hstop.symm, ?_⟩
  intro h
  rw [hstop] at h
  contradiction

private theorem reaches_startLine {s : Repl} {e : LineEditor} (hd : s.dispatched = e.entered)
    (hstop : s.stopped = e.stopped) (hline : e.line = []) : Reaches startLine s e := by
  rw [Reaches, startLine, Code.modify_bind]
  apply Reaches.of_prints prints_prompt
  intro console
  refine ⟨hd, hstop, fun _ => ?_⟩
  rw [hline]
  exact holdsLine_nil rfl

theorem HoldsLine.textAt {s : Repl} {line : List UInt8} (h : HoldsLine s line) :
    TextAt (Function.update s.lineBuf s.pos 0) 0 line := by
  have main : ∀ n, n ≤ line.length →
      TextAt (Function.update s.lineBuf s.pos 0) n (line.drop n) := by
    intro n hn
    induction hk : line.length - n generalizing n with
    | zero =>
        have hlen : n = line.length := by omega
        subst hlen
        rw [List.drop_length]
        refine ⟨h.fits, ?_⟩
        rw [h.pos, Function.update_self]
    | succ k ih =>
        have hlt : n < line.length := by omega
        have hfits := h.fits
        rw [List.drop_eq_getElem_cons hlt]
        refine ⟨by omega, ?_, h.nonzero _ (List.getElem_mem hlt), ih (n + 1) hlt (by omega)⟩
        rw [Function.update_of_ne (by rw [h.pos]; omega)]
        exact h.chars n hlt
  exact main 0 (Nat.zero_le _)

/-- `shell_dispatch` ends the shell with this argument vector. -/
def exits (argv : List (List UInt8)) : Bool := dispatchResult argv = shellExit

private theorem reaches_enter {s : Repl} {e : LineEditor} (h : Simulates s e)
    (hrun : e.stopped = false) : Reaches enterKey s (e.enter exits) := by
  have hline := h.line hrun
  have hpos : s.pos < shellLineMax := by
    rw [hline.pos]
    exact hline.fits
  have hprint : Prints (printk "\n" []) () := prints_printk (by decide)
  rw [Reaches, enterKey, Code.get_bind, Code.bind_of_ok (setLine_eq hpos 0)]
  apply Reaches.after_print hprint
  intro console
  by_cases hempty : e.line = []
  · have hzero : ¬ 0 < s.pos := by
      rw [hline.pos, hempty]
      exact Nat.lt_irrefl 0
    rw [if_neg hzero, LineEditor.enter, if_pos hempty]
    exact reaches_startLine h.dispatched h.stopped hempty
  · have hlt : 0 < s.pos := by
      rw [hline.pos]
      exact List.length_pos_of_ne_nil hempty
    obtain ⟨buf, argv, console', hdispatch⟩ := dispatchLine_eq
      (s := { s with lineBuf := Function.update s.lineBuf s.pos 0, console }) hline.textAt
    rw [if_pos hlt, LineEditor.enter, if_neg hempty, Reaches, Code.bind_of_ok hdispatch]
    by_cases hexit : dispatchResult (LineEditor.args e.line) = shellExit
    · rw [if_pos hexit]
      apply reaches_shutdown
      · exact congrArg (· ++ _) h.dispatched
      · simp [exits, hexit]
    · rw [if_neg hexit]
      apply reaches_startLine
      · exact congrArg (· ++ _) h.dispatched
      · simp [exits, hexit, h.stopped, hrun]
      · rfl

private theorem reaches_erase {s : Repl} {e : LineEditor} (h : Simulates s e)
    (hrun : e.stopped = false) : Reaches eraseKey s { e with line := e.line.dropLast } := by
  have hline := h.line hrun
  rw [Reaches, eraseKey, Code.get_bind]
  by_cases hlt : 0 < s.pos
  · have hprint : Prints (printk "\x08 \x08" []) () := prints_printk (by decide)
    rw [if_pos hlt, Code.modify_bind]
    apply Reaches.of_prints hprint
    intro console
    refine ⟨h.dispatched, h.stopped, fun _ => ⟨?_, ?_, ?_, ?_⟩⟩
    · rw [List.length_dropLast, ← hline.pos]
    · intro i hi
      rw [List.get_eq_getElem, List.getElem_dropLast]
      exact hline.chars i (by rw [List.length_dropLast] at hi; omega)
    · exact fun c hc => hline.nonzero c (List.dropLast_subset _ hc)
    · rw [List.length_dropLast]
      have := hline.fits
      omega
  · have hnil : e.line = [] := by
      apply List.length_eq_zero_iff.mp
      rw [← hline.pos]
      omega
    rw [if_neg hlt]
    refine ⟨s, rfl, h.dispatched, h.stopped, fun _ => ?_⟩
    rw [hnil, List.dropLast_nil, ← hnil]
    exact hline

private theorem reaches_printable {s : Repl} {e : LineEditor} (h : Simulates s e)
    (hrun : e.stopped = false) {ch : UInt8} (hch : ch ≠ 0) (hroom : e.line.length < 127) :
    Reaches (printableKey ch) s { e with line := e.line ++ [ch] } := by
  have hline := h.line hrun
  have hprint : Prints (printk "%c" [.int ch.toUInt32]) () := prints_printk rfl
  have hpos : s.pos < shellLineMax := by
    rw [hline.pos]
    exact hline.fits
  rw [Reaches, printableKey, Code.get_bind, Code.bind_of_ok (setLine_eq hpos ch), Code.modify_bind]
  apply Reaches.of_prints hprint
  intro console
  refine ⟨h.dispatched, h.stopped, fun _ => ⟨?_, ?_, ?_, ?_⟩⟩
  · rw [List.length_append, ← hline.pos]
    rfl
  · intro i hi
    rw [List.length_append, List.length_singleton] at hi
    change Function.update s.lineBuf s.pos ch i = _
    rw [List.get_eq_getElem, hline.pos]
    by_cases hlast : i = e.line.length
    · subst hlast
      rw [Function.update_self, List.getElem_concat_length rfl]
    · have hlt : i < e.line.length := by omega
      rw [Function.update_of_ne hlast, List.getElem_append_left hlt]
      exact hline.chars i hlt
  · intro c hc
    rw [List.mem_append, List.mem_singleton] at hc
    rcases hc with hc | rfl
    · exact hline.nonzero c hc
    · exact hch
  · rw [List.length_append, List.length_singleton, shellLineMax]
    omega

private theorem reaches_key {s : Repl} {e : LineEditor} (h : Simulates s e)
    (hrun : e.stopped = false) (k : UInt8) : Reaches (shellKey k) s (e.key exits k) := by
  have hline := h.line hrun
  have hzero : s.pos = 0 ↔ e.line = [] := by
    rw [hline.pos]
    exact List.length_eq_zero_iff
  rw [LineEditor.key, if_neg (by simp [hrun]), Reaches, shellKey, Code.get_bind]
  by_cases h4 : k = 4
  · subst h4
    rw [if_pos rfl]
    by_cases hempty : e.line = []
    · have hprint : Prints (printk "\n" []) () := prints_printk (by decide)
      rw [if_pos ⟨by decide, hzero.mpr hempty⟩]
      apply Reaches.after_print hprint
      intro console
      exact reaches_shutdown h.dispatched (by simp [hempty])
    · have hpos : ¬ s.pos = 0 := fun hp => hempty (hzero.mp hp)
      simp only [hpos, and_false, if_false]
      refine ⟨s, rfl, h.dispatched, ?_, fun _ => hline⟩
      simp [hempty, h.stopped, hrun]
  have hch4 : (if k = 0x0d then 0x0a else k) ≠ 4 := by
    split
    · decide
    · exact h4
  rw [if_neg h4, if_neg (fun hc => hch4 hc.1)]
  by_cases h3 : k = 3
  · subst h3
    have hprint : Prints (printk "^C\n" []) () := prints_printk (by decide)
    rw [if_pos rfl, if_pos (by decide), interruptKey, Code.modify_bind]
    apply Reaches.after_print hprint
    intro console
    apply Reaches.of_prints prints_prompt
    intro console'
    exact ⟨h.dispatched, h.stopped, fun _ => holdsLine_nil rfl⟩
  have hch3 : (if k = 0x0d then 0x0a else k) ≠ 3 := by
    split
    · decide
    · exact h3
  rw [if_neg h3, if_neg hch3]
  by_cases henter : k = 0x0a ∨ k = 0x0d
  · have hch : (if k = 0x0d then 0x0a else k) = 0x0a := by
      split
      · rfl
      · rename_i hcr
        exact henter.resolve_right hcr
    rw [if_pos henter, if_pos hch]
    exact reaches_enter h hrun
  obtain ⟨hlf, hcr⟩ := not_or.mp henter
  rw [if_neg henter, if_neg hcr, if_neg hlf]
  by_cases hback : k = 0x08 ∨ k = 127
  · rw [if_pos hback, if_pos hback]
    exact reaches_erase h hrun
  rw [if_neg hback, if_neg hback, hline.pos, show shellLineMax - 1 = 127 from rfl]
  by_cases hprint : 32 ≤ k ∧ k ≤ 126 ∧ e.line.length < 127
  · have hnonzero : k ≠ 0 := by
      rintro rfl
      exact absurd hprint.1 (by decide)
    rw [if_pos hprint, if_pos hprint]
    exact reaches_printable h hrun hnonzero hprint.2.2
  · rw [if_neg hprint, if_neg hprint]
    exact ⟨s, rfl, h⟩

private theorem LineEditor.key_stopped {e : LineEditor} (h : e.stopped = true) (k : UInt8) :
    e.key exits k = e := if_pos h

private theorem LineEditor.foldl_stopped {e : LineEditor} (h : e.stopped = true)
    (keys : List UInt8) : keys.foldl (key exits) e = e := by
  induction keys with
  | nil => rfl
  | cons k keys ih => rw [List.foldl_cons, key_stopped h, ih]

/-- The whole loop, by induction on the keys. -/
private theorem reaches_loop {s : Repl} {e : LineEditor} (h : Simulates s e) (keys : List UInt8) :
    Reaches (shellLoop keys) s (keys.foldl (LineEditor.key exits) e) := by
  induction keys generalizing s e with
  | nil => exact ⟨s, rfl, h⟩
  | cons k keys ih =>
      rw [Reaches, shellLoop, Code.get_bind]
      cases hstop : e.stopped with
      | true =>
          rw [if_pos (h.stopped.trans hstop), LineEditor.foldl_stopped hstop]
          exact ⟨s, rfl, h⟩
      | false =>
          obtain ⟨s₁, hkey, hsim⟩ := reaches_key h hstop k
          obtain ⟨s', hloop, hsim'⟩ := ih hsim
          refine ⟨s', ?_, hsim'⟩
          rw [if_neg (by simp [h.stopped, hstop]), Code.bind_of_ok hkey, hloop]

/-- The shell before `shell_run`: what its static arrays and the screen hold is arbitrary. -/
def Repl.boot (lineBuf : Bytes) (argvBuf : Nat → Option Nat) (console : Console) : Repl :=
  { pos := 0, lineBuf, argvBuf, console, dispatched := [], stopped := false }

/-- The shell is the line editor.  For every sequence of keys it runs without an access outside
its two arrays, has handed exactly the editor's argument vectors to `shell_dispatch`, and has
stopped exactly when the editor has: at an end of input on an empty line, or because
`shell_dispatch` returned `SHELL_EXIT`. -/
theorem shellRun_refines_lineEditor (lineBuf : Bytes) (argvBuf : Nat → Option Nat)
    (console : Console) (keys : List UInt8) :
    (∃ s, shellRun keys (Repl.boot lineBuf argvBuf console) = .ok ((), s) ∧
      s.dispatched = (LineEditor.run exits keys).entered ∧
      s.stopped = (LineEditor.run exits keys).stopped ∧
      ((LineEditor.run exits keys).stopped = false →
        HoldsLine s (LineEditor.run exits keys).line)) ∧
    ∀ argv s, ∃ r s', shellDispatch argv s = .ok (r, s') ∧ (exits argv ↔ r = shellExit) := by
  constructor
  · have hreach : Reaches (shellRun keys) (Repl.boot lineBuf argvBuf console)
        (LineEditor.run exits keys) := by
      have hprint : Prints (printk "AiTOS Shell ready - type 'help' for commands\n" []) () :=
        prints_printk (by decide)
      rw [Reaches, shellRun, Code.modify_bind]
      apply Reaches.after_print hprint
      intro console₁
      apply Reaches.after_print prints_prompt
      intro console₂
      exact reaches_loop ⟨rfl, rfl, fun _ => holdsLine_nil rfl⟩ keys
    obtain ⟨s, hrun, hsim⟩ := hreach
    exact ⟨s, hrun, hsim.dispatched, hsim.stopped, hsim.line⟩
  · intro argv s
    obtain ⟨console', hrun⟩ := prints_dispatch argv s
    exact ⟨_, _, hrun, by simp [exits]⟩

end Aitos.Shell
