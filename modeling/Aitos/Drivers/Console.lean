import Mathlib

/-!
# The text console

`arch/x86_64/print.asm` mirrors each character to two ports and draws it into the text buffer at
`0xB8000`, two bytes a cell, at a software cursor.  The state keeps, besides the cursor and the
memory, the addresses of the two-byte stores and the port writes, last first.  On top of it stand
`vga_clear_screen`, `console_clear` and `printk`.
-/

namespace Aitos.Drivers

def vgaMem : UInt64 := 0xb8000

def debugcon : UInt16 := 0xe9

def com1Data : UInt16 := 0x3f8

def vgaWidth : UInt64 := 80

def vgaHeight : UInt64 := 25

/-- A space in bright white on black. -/
def vgaBlank : UInt16 := 0x0F20

structure Console where
  cursorPos : UInt64
  mem : UInt64 → UInt8
  stores : List UInt64
  ports : List (UInt16 × UInt8)

namespace Console

/-- The `.data` section as it is loaded. -/
def boot (mem : UInt64 → UInt8) : Console := ⟨0, mem, [], []⟩

def store (s : Console) (a : UInt64) (v : UInt16) : Console :=
  { s with
    mem := Function.update (Function.update s.mem a v.toUInt8) (a + 1) (v >>> 8).toUInt8
    stores := a :: s.stores }

def out (s : Console) (port : UInt16) (v : UInt8) : Console :=
  { s with ports := (port, v) :: s.ports }

/-- A character on a byte port, line feeds followed by a carriage return. -/
def mirror (s : Console) (port : UInt16) (c : UInt8) : Console :=
  if c = 0xa then (s.out port c).out port 0xd else s.out port c

/-- Address of a cell of the text buffer. -/
def cellAddr (k : UInt64) : UInt64 := vgaMem + k * 2

/-- Cell `k` of the text buffer: the character and above it the attribute. -/
def cell (s : Console) (k : Nat) : UInt16 :=
  (s.mem (cellAddr (UInt64.ofNat k))).toUInt16 +
    256 * (s.mem (cellAddr (UInt64.ofNat k) + 1)).toUInt16

def glyph (s : Console) (c : UInt8) : Console :=
  { s.store (cellAddr s.cursorPos) (0x0F00 ||| c.toUInt16) with cursorPos := s.cursorPos + 1 }

def backspace (s : Console) : Console :=
  if s.cursorPos = 0 then s
  else
    { s with cursorPos := s.cursorPos - 1 }.store (cellAddr (s.cursorPos - 1)) vgaBlank

def newline (s : Console) : Console :=
  let start := (s.cursorPos / vgaWidth + 1) * vgaWidth
  if start < vgaWidth * vgaHeight then { s with cursorPos := start } else { s with cursorPos := 0 }

/-- The hardware cursor registers `0x0F` and `0x0E` take the two low bytes of the cursor. -/
def syncCursor (s : Console) : Console :=
  (((s.out 0x3d4 0x0f).out 0x3d5 s.cursorPos.toUInt8).out 0x3d4 0x0e).out 0x3d5
    (s.cursorPos >>> 8).toUInt8

end Console

open Console

def archConsolePutchar (c : UInt8) (s : Console) : Console :=
  let s := (s.mirror debugcon c).mirror com1Data c
  let s :=
    if c = 0xa then s.newline
    else if c = 0xd then s
    else if c = 0x8 then s.backspace
    else s.glyph c
  s.syncCursor

def archConsoleResetCursor (s : Console) : Console := { s with cursorPos := 0 }

def vgaClearScreen (s : Console) : Console :=
  (List.range 2000).foldl (fun s i => s.store (cellAddr (UInt64.ofNat i)) vgaBlank) s

def consoleClear (s : Console) : Console := archConsoleResetCursor (vgaClearScreen s)

/-- The bytes of a string literal. -/
def ascii (s : String) : List UInt8 := s.toList.map fun c => UInt8.ofNat c.toNat

/-- A variadic argument of `printk`. -/
inductive PrintkArg where
  | str (s : List UInt8)
  | int (v : UInt32)
  | long (v : UInt64)

def emitString (cs : List UInt8) (s : Console) : Console :=
  cs.foldl (fun s c => archConsolePutchar c s) s

/-- The digits `emit_decimal` writes from the end of its 21-byte buffer, at most 20 of them. -/
def decimalDigits : Nat → UInt64 → List UInt8 → List UInt8
  | 0, _, digits => digits
  | room + 1, value, digits =>
      if value = 0 then digits
      else decimalDigits room (value / 10) ((0x30 + (value % 10).toUInt8) :: digits)

def emitDecimal (value : UInt64) : List UInt8 :=
  if value = 0 then [0x30] else decimalDigits 20 value []

/-- A decimal conversion of a `long` argument. -/
def convertLong (fmt : List UInt8) :
    List PrintkArg → Option (List UInt8 × List UInt8 × List PrintkArg)
  | .long v :: args => some (emitDecimal v, fmt, args)
  | _ => none

/-- The conversion `conv` behind a `%`: the characters emitted, the rest of the format and of the
arguments.  `none` stands for an argument that is missing or of another type. -/
def convert (conv : UInt8) (fmt : List UInt8) (args : List PrintkArg) :
    Option (List UInt8 × List UInt8 × List PrintkArg) :=
  if conv = 0x73 then
    match args with
    | .str s :: args => some (s, fmt, args)
    | _ => none
  else if conv = 0x64 then
    match args with
    | .int v :: args => some (emitDecimal v.toInt32.toInt64.toUInt64, fmt, args)
    | _ => none
  else if conv = 0x6c then
    if fmt.take 2 = [0x6c, 0x75] then convertLong (fmt.drop 2) args
    else if fmt.take 1 = [0x75] then convertLong (fmt.drop 1) args
    else some ([conv], fmt, args)
  else if conv = 0x63 then
    match args with
    | .int v :: args => some ([v.toUInt8], fmt, args)
    | _ => none
  else some ([conv], fmt, args)

/-- The format loop; a `%` at the end of the format runs over its end. -/
def printkLoop : Nat → List UInt8 → List PrintkArg → Option (List UInt8)
  | _, [], _ => some []
  | 0, _ :: _, _ => none
  | n + 1, c :: fmt, args =>
      if c ≠ 0x25 then (c :: ·) <$> printkLoop n fmt args
      else
        match fmt with
        | [] => none
        | conv :: fmt =>
            match convert conv fmt args with
            | none => none
            | some (cs, fmt, args) => (cs ++ ·) <$> printkLoop n fmt args

/-- The characters `printk` emits, if C defines what it does. -/
def printkChars (fmt : List UInt8) (args : List PrintkArg) : Option (List UInt8) :=
  printkLoop fmt.length fmt args

def printk (fmt : String) (args : List PrintkArg) (s : Console) : Option Console :=
  (printkChars (ascii fmt) args).map fun cs => emitString cs s

/-- The characters that are drawn: all but line feed, carriage return and backspace. -/
def IsGlyph (c : UInt8) : Prop := c ≠ 0xa ∧ c ≠ 0xd ∧ c ≠ 0x8

instance (c : UInt8) : Decidable (IsGlyph c) := inferInstanceAs (Decidable (_ ∧ _))

section Fields

variable (s : Console)

@[simp] theorem mirror_cursorPos (port : UInt16) (c : UInt8) :
    (s.mirror port c).cursorPos = s.cursorPos := by
  unfold mirror
  split <;> rfl

@[simp] theorem mirror_mem (port : UInt16) (c : UInt8) : (s.mirror port c).mem = s.mem := by
  unfold mirror
  split <;> rfl

@[simp] theorem mirror_stores (port : UInt16) (c : UInt8) :
    (s.mirror port c).stores = s.stores := by
  unfold mirror
  split <;> rfl

@[simp] theorem syncCursor_cursorPos : s.syncCursor.cursorPos = s.cursorPos := rfl

@[simp] theorem syncCursor_mem : s.syncCursor.mem = s.mem := rfl

@[simp] theorem syncCursor_stores : s.syncCursor.stores = s.stores := rfl

end Fields

/-- What one character does to the cursor and to the text buffer. -/
structure Drawn (s s' : Console) (cursor : UInt64) (drawn : List (UInt64 × UInt16)) : Prop where
  cursorPos : s'.cursorPos = cursor
  stores : s'.stores = drawn.map Prod.fst ++ s.stores
  mem : s'.mem = (drawn.foldr (fun d s => s.store d.1 d.2) s).mem

section Putchar

variable {s : Console} {c : UInt8}

theorem putchar_glyph (hc : IsGlyph c) :
    Drawn s (archConsolePutchar c s) (s.cursorPos + 1)
      [(cellAddr s.cursorPos, 0x0F00 ||| c.toUInt16)] := by
  obtain ⟨hlf, hcr, hbs⟩ := hc
  constructor <;> simp [archConsolePutchar, glyph, store, hlf, hcr, hbs]

theorem putchar_backspace (h : s.cursorPos ≠ 0) :
    Drawn s (archConsolePutchar 0x8 s) (s.cursorPos - 1)
      [(cellAddr (s.cursorPos - 1), vgaBlank)] := by
  constructor <;> simp [archConsolePutchar, backspace, store, h]

private theorem putchar_backspace_home (h : s.cursorPos = 0) :
    Drawn s (archConsolePutchar 0x8 s) 0 [] := by
  constructor <;> simp [archConsolePutchar, backspace, h]

private theorem putchar_return : Drawn s (archConsolePutchar 0xd s) s.cursorPos [] := by
  constructor <;> simp [archConsolePutchar]

private theorem putchar_newline :
    Drawn s (archConsolePutchar 0xa s)
      (if (s.cursorPos / vgaWidth + 1) * vgaWidth < vgaWidth * vgaHeight then
        (s.cursorPos / vgaWidth + 1) * vgaWidth else 0) [] := by
  constructor <;> simp [archConsolePutchar, newline, apply_ite Console.cursorPos,
    apply_ite Console.mem, apply_ite Console.stores]

end Putchar

/-- A two-byte store at `a` lies in the 4000 bytes of the text buffer. -/
def InTextBuffer (a : UInt64) : Prop := 0xb8000 ≤ a.toNat ∧ a.toNat + 2 ≤ 0xb8000 + 4000

instance (a : UInt64) : Decidable (InTextBuffer a) := inferInstanceAs (Decidable (_ ∧ _))

/-- The cursor is a cell of the screen and every store so far went into the text buffer. -/
def OnScreen (s : Console) : Prop :=
  s.cursorPos.toNat < 80 * 25 ∧ ∀ a ∈ s.stores, InTextBuffer a

instance (s : Console) : Decidable (OnScreen s) := inferInstanceAs (Decidable (_ ∧ _))

theorem toNat_cellAddr {k : UInt64} (h : k.toNat < 2000) :
    (cellAddr k).toNat = 0xb8000 + 2 * k.toNat := by
  rw [cellAddr, vgaMem, UInt64.toNat_add, UInt64.toNat_mul]
  change (753664 + k.toNat * 2 % 2 ^ 64) % 2 ^ 64 = _
  omega

private theorem inTextBuffer_cellAddr {k : UInt64} (h : k.toNat < 2000) :
    InTextBuffer (cellAddr k) := by
  rw [InTextBuffer, toNat_cellAddr h]
  omega

private theorem Drawn.onScreen {s s' : Console} {cursor : UInt64} {drawn : List (UInt64 × UInt16)}
    (h : Drawn s s' cursor drawn) (hs : OnScreen s) (hcursor : cursor.toNat < 2000)
    (hdrawn : ∀ d ∈ drawn, InTextBuffer d.1) : OnScreen s' := by
  constructor
  · rw [h.cursorPos]
    exact hcursor
  · intro a ha
    rw [h.stores, List.mem_append, List.mem_map] at ha
    rcases ha with ⟨d, hd, rfl⟩ | ha
    · exact hdrawn d hd
    · exact hs.2 a ha

inductive Call where
  | putchar (c : UInt8)
  | resetCursor
  deriving DecidableEq, Repr

def Call.run : Call → Console → Console
  | .putchar c => archConsolePutchar c
  | .resetCursor => archConsoleResetCursor

def runCalls (s : Console) (calls : List Call) : Console := calls.foldl (fun s c => c.run s) s

/-- A glyph drawn in the last cell moves the cursor behind the screen: only the line feed wraps. -/
def FillsScreen (s : Console) : Call → Prop
  | .putchar c => IsGlyph c ∧ s.cursorPos = 1999
  | .resetCursor => False

private theorem onScreen_call {s : Console} (hs : OnScreen s) {call : Call}
    (h : ¬ FillsScreen s call) : OnScreen (call.run s) := by
  have hcur := hs.1
  cases call with
  | resetCursor => exact ⟨show (0 : UInt64).toNat < 2000 by decide, hs.2⟩
  | putchar c =>
      by_cases hlf : c = 0xa
      · subst hlf
        apply putchar_newline.onScreen hs ?_ (by simp)
        split
        · rename_i hlt
          exact UInt64.lt_iff_toNat_lt.mp hlt
        · decide
      by_cases hcr : c = 0xd
      · subst hcr
        exact putchar_return.onScreen hs hcur (by simp)
      by_cases hbs : c = 0x8
      · subst hbs
        by_cases h0 : s.cursorPos = 0
        · exact (putchar_backspace_home h0).onScreen hs (by decide) (by simp)
        · have hdec : (s.cursorPos - 1).toNat < 2000 := by
            have hpos : s.cursorPos.toNat ≠ 0 := fun h => h0 (UInt64.toNat_inj.mp h)
            have hle : (1 : UInt64) ≤ s.cursorPos :=
              UInt64.le_iff_toNat_le.mpr (Nat.one_le_iff_ne_zero.mpr hpos)
            rw [UInt64.toNat_sub_of_le _ _ hle]
            omega
          apply (putchar_backspace h0).onScreen hs hdec
          simpa using inTextBuffer_cellAddr hdec
      · have hne : s.cursorPos.toNat ≠ 1999 := fun h' =>
          h ⟨⟨hlf, hcr, hbs⟩, UInt64.toNat_inj.mp h'⟩
        apply (putchar_glyph ⟨hlf, hcr, hbs⟩).onScreen hs
        · rw [UInt64.toNat_add]
          change (s.cursorPos.toNat + 1) % 2 ^ 64 < _
          omega
        · simpa using inTextBuffer_cellAddr hcur

private theorem not_onScreen_call {s : Console} {call : Call} (h : FillsScreen s call) :
    ¬ OnScreen (call.run s) := by
  cases call with
  | resetCursor => exact h.elim
  | putchar c =>
      intro hs
      have hcur := hs.1
      rw [show (Call.putchar c).run s = archConsolePutchar c s from rfl,
        (putchar_glyph h.1).cursorPos, h.2] at hcur
      exact absurd hcur (by decide)

private theorem runCalls_concat (s : Console) (calls : List Call) (call : Call) :
    runCalls s (calls ++ [call]) = call.run (runCalls s calls) := by
  simp [runCalls]

private theorem onScreen_runCalls {s : Console} (hs : OnScreen s) (calls : List Call)
    (h : ∀ done call, done ++ [call] <+: calls → ¬ FillsScreen (runCalls s done) call) :
    OnScreen (runCalls s calls) := by
  induction calls using List.reverseRecOn with
  | nil => exact hs
  | append_singleton calls call ih =>
      rw [runCalls_concat]
      apply onScreen_call
      · apply ih
        intro done call' hp
        exact h done call' (hp.trans (List.prefix_append _ _))
      · exact h calls call (List.prefix_refl _)

/-- From the loaded data, in any sequence of calls: the cursor and all stores stay inside the
screen after every call exactly when no glyph is drawn while the cursor is in the last cell. -/
theorem onScreen_always_iff (mem : UInt64 → UInt8) (calls : List Call) :
    (∀ done, done <+: calls → OnScreen (runCalls (boot mem) done)) ↔
      ∀ done c, done ++ [.putchar c] <+: calls → IsGlyph c →
        (runCalls (boot mem) done).cursorPos ≠ 1999 := by
  constructor
  · intro h done c hp hc hcur
    apply @not_onScreen_call (runCalls (boot mem) done) (.putchar c) ⟨hc, hcur⟩
    rw [← runCalls_concat]
    exact h _ hp
  · intro h done hdone
    have hboot : OnScreen (boot mem) := ⟨by simp [boot], by simp [boot]⟩
    apply onScreen_runCalls hboot
    intro done' call hp hfill
    cases call with
    | resetCursor => exact hfill
    | putchar c => exact h done' c (hp.trans hdone) hfill.1 hfill.2

private theorem cursorPos_glyphs (mem : UInt64 → UInt8) {c : UInt8} (hc : IsGlyph c) (n : Nat) :
    (runCalls (boot mem) (List.replicate n (.putchar c))).cursorPos = UInt64.ofNat n := by
  induction n with
  | zero => rfl
  | succ n ih =>
      rw [List.replicate_succ', runCalls_concat]
      have hdrawn := putchar_glyph (s := runCalls (boot mem) (List.replicate n (.putchar c))) hc
      rw [Call.run, hdrawn.cursorPos, ih, UInt64.ofNat_add]
      rfl

/-- Letters from the loaded state on: after 2000 of them the cursor is behind the screen, and
the next one is stored behind the text buffer. -/
theorem screen_overrun :
    ¬ OnScreen (runCalls (boot fun _ => 0) (List.replicate 2000 (.putchar 0x41))) ∧
      ¬ ∀ a ∈ (runCalls (boot fun _ => 0) (List.replicate 2001 (.putchar 0x41))).stores,
        InTextBuffer a := by
  have hA : IsGlyph 0x41 := by decide
  have hcur := cursorPos_glyphs (fun _ => 0) hA 2000
  constructor
  · rintro ⟨hlt, -⟩
    rw [hcur] at hlt
    exact absurd hlt (by decide)
  · intro h
    rw [List.replicate_succ', runCalls_concat, Call.run, (putchar_glyph hA).stores, hcur] at h
    have hlast := h _ (List.mem_append_left _ (List.mem_singleton_self _))
    exact absurd hlast (by decide)

end Aitos.Drivers
