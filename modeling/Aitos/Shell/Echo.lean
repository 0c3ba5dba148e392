import Aitos.Shell.LineEditor

/-!
# The echoed line

While a line is edited the screen follows the buffer: a character is echoed by drawing it, a
character is erased by the three characters backspace, space, backspace.  On the screen each of
these is a glyph drawn behind the line or its last cell blanked, so one invariant between the
line and the cells behind the prompt carries the whole editing.
-/

namespace Aitos.Shell

open Framework Drivers Drivers.Console

section Cells

private theorem word_bytes (v : UInt16) :
    v.toUInt8.toUInt16 + (256 : UInt16) * (v >>> 8).toUInt8.toUInt16 = v := by
  apply UInt16.toNat_inj.mp
  have hv := v.toNat_lt
  have hshift : (v >>> 8).toNat = v.toNat / 256 := by
    rw [UInt16.toNat_shiftRight]
    exact Nat.shiftRight_eq_div_pow _ 8
  rw [UInt16.toNat_add, UInt16.toNat_mul, UInt8.toNat_toUInt16, UInt8.toNat_toUInt16,
    UInt16.toNat_toUInt8, UInt16.toNat_toUInt8, hshift]
  change (v.toNat % 2 ^ 8 + 256 * (v.toNat / 256 % 2 ^ 8) % 2 ^ 16) % 2 ^ 16 = v.toNat
  omega

private theorem toNat_cellAddr_ofNat {k : Nat} (h : k < 2000) :
    (cellAddr (UInt64.ofNat k)).toNat = 0xb8000 + 2 * k := by
  have hk : (UInt64.ofNat k).toNat = k := UInt64.toNat_ofNat_of_lt' (by
    change k < 2 ^ 64
    omega)
  rw [toNat_cellAddr (by omega), hk]

private theorem cellAddr_inj {j k : Nat} (hj : j < 2000) (hk : k < 2000) :
    cellAddr (UInt64.ofNat j) = cellAddr (UInt64.ofNat k) ↔ j = k := by
  constructor
  · intro h
    have hnat := congrArg UInt64.toNat h
    rw [toNat_cellAddr_ofNat hj, toNat_cellAddr_ofNat hk] at hnat
    omega
  · intro h
    rw [h]

private theorem toNat_cellAddr_succ {k : Nat} (h : k < 2000) :
    (cellAddr (UInt64.ofNat k) + 1).toNat = 0xb8000 + 2 * k + 1 := by
  rw [UInt64.toNat_add, toNat_cellAddr_ofNat h]
  change (0xb8000 + 2 * k + 1) % 2 ^ 64 = _
  omega

private theorem ne_of_toNat {a b : UInt64} (h : a.toNat ≠ b.toNat) :
    a ≠ b := fun hab => h (by rw [hab])

private theorem cell_store (c : Console) {j k : Nat} (hj : j < 2000) (hk : k < 2000) (v : UInt16) :
    (c.store (cellAddr (UInt64.ofNat j)) v).cell k = if k = j then v else c.cell k := by
  have hj₀ := toNat_cellAddr_ofNat hj
  have hj₁ := toNat_cellAddr_succ hj
  have hk₀ := toNat_cellAddr_ofNat hk
  have hk₁ := toNat_cellAddr_succ hk
  by_cases h : k = j
  · subst h
    have hne : cellAddr (UInt64.ofNat k) ≠ cellAddr (UInt64.ofNat k) + 1 := ne_of_toNat (by omega)
    simp only [cell, store, Function.update_self, Function.update_of_ne hne, if_true]
    exact word_bytes v
  · have h₁ : cellAddr (UInt64.ofNat k) ≠ cellAddr (UInt64.ofNat j) := ne_of_toNat (by omega)
    have h₂ : cellAddr (UInt64.ofNat k) ≠ cellAddr (UInt64.ofNat j) + 1 := ne_of_toNat (by omega)
    have h₃ : cellAddr (UInt64.ofNat k) + 1 ≠ cellAddr (UInt64.ofNat j) := ne_of_toNat (by omega)
    have h₄ : cellAddr (UInt64.ofNat k) + 1 ≠ cellAddr (UInt64.ofNat j) + 1 :=
      ne_of_toNat (by omega)
    simp only [cell, store, Function.update_of_ne h₁, Function.update_of_ne h₂,
      Function.update_of_ne h₃, Function.update_of_ne h₄, h, if_false]

private theorem cell_congr {c c' : Console} (h : c'.mem = c.mem) (k : Nat) :
    c'.cell k = c.cell k := by
  rw [cell, cell, h]

end Cells

/-- Behind the prompt at cell `p0` the screen shows the first `n` characters of `line`; among the
cells written since `base` those behind the line are blank, and the cells not written are as in
`base`. -/
structure Shows (base : Console) (p0 : Nat) (line : Nat → UInt8) (n : Nat)
    (written : List UInt64) (c : Console) : Prop where
  cursor : c.cursorPos = UInt64.ofNat (p0 + n)
  fits : n ≤ 127
  shown : ∀ i < n, c.cell (p0 + i) = 0x0F00 ||| (line i).toUInt16
  stores : c.stores = written ++ base.stores
  range : ∀ a ∈ written, ∃ i < 127, a = cellAddr (UInt64.ofNat (p0 + i))
  blank : ∀ k < 2000, p0 + n ≤ k → cellAddr (UInt64.ofNat k) ∈ written → c.cell k = vgaBlank
  kept : ∀ k < 2000, cellAddr (UInt64.ofNat k) ∉ written → c.cell k = base.cell k

namespace Shows

variable {base c : Console} {p0 n : Nat} {line : Nat → UInt8} {written : List UInt64}

theorem congr {line' : Nat → UInt8} (h : Shows base p0 line n written c)
    (hline : ∀ i < n, line' i = line i) : Shows base p0 line' n written c :=
  { h with shown := fun i hi => by rw [hline i hi, h.shown i hi] }

theorem glyph (h : Shows base p0 line n written c) (hp : p0 + 127 < 2000) (hn : n < 127)
    {ch : UInt8} (hch : IsGlyph ch) :
    ∃ w, Shows base p0 (Function.update line n ch) (n + 1) w (archConsolePutchar ch c) := by
  have hdrawn := putchar_glyph (s := c) hch
  rw [h.cursor] at hdrawn
  have hcell : ∀ k < 2000, (archConsolePutchar ch c).cell k =
      if k = p0 + n then 0x0F00 ||| ch.toUInt16 else c.cell k := by
    intro k hk
    rw [cell_congr hdrawn.mem]
    exact cell_store c (by omega) hk _
  refine ⟨cellAddr (UInt64.ofNat (p0 + n)) :: written, ?_, by omega, ?_, ?_, ?_, ?_, ?_⟩
  · rw [hdrawn.cursorPos, ← Nat.add_assoc, UInt64.ofNat_add _ 1]
    rfl
  · intro i hi
    rw [hcell _ (by omega)]
    by_cases hin : i = n
    · subst hin
      rw [if_pos rfl, Function.update_self]
    · rw [if_neg (by omega), Function.update_of_ne hin, h.shown i (by omega)]
  · rw [hdrawn.stores, h.stores]
    rfl
  · intro a ha
    rcases List.mem_cons.mp ha with rfl | ha
    · exact ⟨n, hn, rfl⟩
    · exact h.range a ha
  · intro k hk hge hmem
    rw [List.mem_cons, cellAddr_inj hk (by omega)] at hmem
    rw [hcell k hk, if_neg (by omega)]
    exact h.blank k hk (by omega) (hmem.resolve_left (by omega))
  · intro k hk hmem
    rw [List.mem_cons, cellAddr_inj hk (by omega), not_or] at hmem
    rw [hcell k hk, if_neg hmem.1]
    exact h.kept k hk hmem.2

theorem backspace (h : Shows base p0 line n written c) (hp : p0 + 127 < 2000) (hn : 0 < n) :
    ∃ w, Shows base p0 line (n - 1) w (archConsolePutchar 0x8 c) := by
  have hfits := h.fits
  have hne : c.cursorPos ≠ 0 := by
    rw [h.cursor]
    apply ne_of_toNat
    rw [UInt64.toNat_ofNat_of_lt' (by change p0 + n < 2 ^ 64; omega)]
    exact Nat.ne_of_gt (by change 0 < p0 + n; omega)
  have hdrawn := putchar_backspace hne
  have hdec : c.cursorPos - 1 = UInt64.ofNat (p0 + (n - 1)) := by
    rw [h.cursor, show p0 + n = p0 + (n - 1) + 1 by omega, UInt64.ofNat_add _ 1]
    exact UInt64.add_sub_cancel _ 1
  rw [hdec] at hdrawn
  have hcell : ∀ k < 2000, (archConsolePutchar 0x8 c).cell k =
      if k = p0 + (n - 1) then vgaBlank else c.cell k := by
    intro k hk
    rw [cell_congr hdrawn.mem]
    exact cell_store c (by omega) hk _
  refine ⟨cellAddr (UInt64.ofNat (p0 + (n - 1))) :: written, hdrawn.cursorPos, by omega, ?_, ?_,
    ?_, ?_, ?_⟩
  · intro i hi
    rw [hcell _ (by omega), if_neg (by omega), h.shown i (by omega)]
  · rw [hdrawn.stores, h.stores]
    rfl
  · intro a ha
    rcases List.mem_cons.mp ha with rfl | ha
    · exact ⟨n - 1, by omega, rfl⟩
    · exact h.range a ha
  · intro k hk hge hmem
    rw [List.mem_cons, cellAddr_inj hk (by omega)] at hmem
    rw [hcell k hk]
    split
    · rfl
    · rename_i hne
      exact h.blank k hk (by omega) (hmem.resolve_left hne)
  · intro k hk hmem
    rw [List.mem_cons, cellAddr_inj hk (by omega), not_or] at hmem
    rw [hcell k hk, if_neg hmem.1]
    exact h.kept k hk hmem.2

theorem erase (h : Shows base p0 line n written c) (hp : p0 + 127 < 2000) (hn : 0 < n) :
    ∃ w, Shows base p0 line (n - 1) w (emitString [0x8, 0x20, 0x8] c) := by
  have hfits := h.fits
  obtain ⟨w₁, h₁⟩ := h.backspace hp hn
  obtain ⟨w₂, h₂⟩ := h₁.glyph hp (by omega) (show IsGlyph 0x20 by decide)
  obtain ⟨w₃, h₃⟩ := h₂.backspace hp (by omega)
  refine ⟨w₃, ?_⟩
  rw [Nat.add_sub_cancel] at h₃
  exact h₃.congr fun i hi => (Function.update_of_ne (by omega) ..).symm

end Shows

/-- The keys that edit the line: printable characters, backspace and delete. -/
def IsEditKey (k : UInt8) : Prop := 32 ≤ k ∧ k ≤ 126 ∨ k = 0x08 ∨ k = 127

instance (k : UInt8) : Decidable (IsEditKey k) := inferInstanceAs (Decidable (_ ∨ _))

/-- The shell is running and the screen shows its line behind the prompt at `p0`. -/
def Echoes (base : Console) (p0 : Nat) (s : Repl) : Prop :=
  s.stopped = false ∧ ∃ written, Shows base p0 s.lineBuf s.pos written s.console

private theorem echoes_erase {base : Console} {p0 : Nat} {s : Repl} (h : Echoes base p0 s)
    (hp : p0 + 127 < 2000) : ∃ s', eraseKey s = .ok ((), s') ∧ Echoes base p0 s' := by
  obtain ⟨hrun, w, hshows⟩ := h
  rw [eraseKey, Code.get_bind]
  by_cases hlt : 0 < s.pos
  · have hchars : printkChars (ascii "\x08 \x08") [] = some [0x8, 0x20, 0x8] := rfl
    rw [if_pos hlt, Code.modify_bind, printk_eq hchars]
    exact ⟨_, rfl, hrun, hshows.erase hp hlt⟩
  · rw [if_neg hlt]
    exact ⟨s, rfl, hrun, w, hshows⟩

private theorem isGlyph_of_printable {ch : UInt8} (h : 32 ≤ ch) : IsGlyph ch := by
  refine ⟨?_, ?_, ?_⟩ <;>
  · rintro rfl
    exact absurd h (by decide)

private theorem echoes_printable {base : Console} {p0 : Nat} {s : Repl} (h : Echoes base p0 s)
    (hp : p0 + 127 < 2000) {ch : UInt8} (hch : 32 ≤ ch) (hroom : s.pos < 127) :
    ∃ s', printableKey ch s = .ok ((), s') ∧ Echoes base p0 s' := by
  obtain ⟨hrun, w, hshows⟩ := h
  have hpos : s.pos < shellLineMax := by
    rw [shellLineMax]
    omega
  have hchars : printkChars (ascii "%c") [.int ch.toUInt32] = some [ch.toUInt32.toUInt8] := rfl
  rw [show ch.toUInt32.toUInt8 = ch by simp] at hchars
  rw [printableKey, Code.get_bind, Code.bind_of_ok (setLine_eq hpos ch), Code.modify_bind,
    printk_eq hchars]
  exact ⟨_, rfl, hrun, hshows.glyph hp hroom (isGlyph_of_printable hch)⟩

/-- One editing key keeps screen and line together. -/
private theorem echoes_key {base : Console} {p0 : Nat} {s : Repl} (h : Echoes base p0 s)
    (hp : p0 + 127 < 2000) {k : UInt8} (hk : IsEditKey k) :
    ∃ s', shellKey k s = .ok ((), s') ∧ Echoes base p0 s' := by
  have hne : k ≠ 0x0d ∧ k ≠ 4 ∧ k ≠ 3 ∧ k ≠ 0x0a := by
    refine ⟨?_, ?_, ?_, ?_⟩ <;>
    · rintro rfl
      exact absurd hk (by decide)
  obtain ⟨hcr, h4, h3, hlf⟩ := hne
  rw [shellKey, Code.get_bind, if_neg hcr, if_neg (fun hc => h4 hc.1), if_neg h3, if_neg hlf]
  by_cases hback : k = 0x08 ∨ k = 127
  · rw [if_pos hback]
    exact echoes_erase h hp
  · have hprint : 32 ≤ k ∧ k ≤ 126 := hk.resolve_right hback
    rw [if_neg hback]
    by_cases hroom : s.pos < shellLineMax - 1
    · rw [if_pos ⟨hprint.1, hprint.2, hroom⟩]
      exact echoes_printable h hp hprint.1 hroom
    · rw [if_neg (fun hc => hroom hc.2.2)]
      exact ⟨s, rfl, h⟩

private theorem echoes_loop {base : Console} {p0 : Nat} {s : Repl} (h : Echoes base p0 s)
    (hp : p0 + 127 < 2000) {keys : List UInt8} (hkeys : ∀ k ∈ keys, IsEditKey k) :
    ∃ s', shellLoop keys s = .ok ((), s') ∧ Echoes base p0 s' := by
  induction keys generalizing s with
  | nil => exact ⟨s, rfl, h⟩
  | cons k keys ih =>
      obtain ⟨s₁, hkey, h₁⟩ := echoes_key h hp (hkeys k List.mem_cons_self)
      obtain ⟨s', hloop, h'⟩ := ih h₁ fun a ha => hkeys a (List.mem_cons_of_mem k ha)
      refine ⟨s', ?_, h'⟩
      rw [shellLoop, Code.get_bind, if_neg (by simp [h.1]), Code.bind_of_ok hkey, hloop]

/-- From a fresh line with the cursor at cell `p0`, after any editing keys: the cursor stands
`pos` cells behind `p0`, the cells in between show `line_buf`, every cell from the cursor on that
was written since is a blank, and all other cells of the screen are as they were. -/
theorem screen_shows_line (s : Repl) (p0 : Nat) (hpos : s.pos = 0) (hrun : s.stopped = false)
    (hcursor : s.console.cursorPos = UInt64.ofNat p0) (hp0 : p0 + 127 < 2000)
    (keys : List UInt8) (hkeys : ∀ k ∈ keys, IsEditKey k) :
    ∃ s' written, shellLoop keys s = .ok ((), s') ∧
      s'.console.stores = written ++ s.console.stores ∧
      s'.console.cursorPos = UInt64.ofNat (p0 + s'.pos) ∧
      (∀ i < s'.pos, s'.console.cell (p0 + i) = 0x0F00 ||| (s'.lineBuf i).toUInt16) ∧
      (∀ k < 2000, p0 + s'.pos ≤ k → cellAddr (UInt64.ofNat k) ∈ written →
        s'.console.cell k = vgaBlank) ∧
      ∀ k < 2000, (k < p0 ∨ p0 + s'.pos ≤ k ∧ cellAddr (UInt64.ofNat k) ∉ written) →
        s'.console.cell k = s.console.cell k := by
  have hstart : Echoes s.console p0 s := by
    refine ⟨hrun, [], ?_, ?_, ?_, rfl, ?_, ?_, fun _ _ _ => rfl⟩
    · rw [hcursor, hpos, Nat.add_zero]
    · omega
    · intro i hi
      omega
    · simp
    · simp
  obtain ⟨s', hloop, -, written, hshows⟩ := echoes_loop hstart hp0 hkeys
  refine ⟨s', written, hloop, hshows.stores, hshows.cursor, hshows.shown, hshows.blank, ?_⟩
  intro k hk hout
  apply hshows.kept k hk
  rcases hout with hlt | ⟨-, hnot⟩
  · -- nothing in front of the prompt is ever written
    intro hmem
    obtain ⟨i, hi, heq⟩ := hshows.range _ hmem
    rw [cellAddr_inj hk (by omega)] at heq
    omega
  · exact hnot

/-- Two letters and a backspace behind the prompt of the first row. -/
theorem screen_shows_line_typed :
    ∃ s', shellLoop [0x6c, 0x73, 0x08]
        (Repl.boot Bytes.zero (fun _ => none) { boot (fun _ => 0) with cursorPos := 19 }) =
          .ok ((), s') ∧
      s'.console.cursorPos = UInt64.ofNat (19 + s'.pos) ∧
      ∀ i < s'.pos, s'.console.cell (19 + i) = 0x0F00 ||| (s'.lineBuf i).toUInt16 := by
  obtain ⟨s', w, hrun, -, hcursor, hshown, -⟩ := screen_shows_line
    (Repl.boot Bytes.zero (fun _ => none) { boot (fun _ => 0) with cursorPos := 19 }) 19 rfl rfl
    rfl (by decide) [0x6c, 0x73, 0x08] (by decide +kernel)
  exact ⟨s', hrun, hcursor, hshown⟩

end Aitos.Shell
