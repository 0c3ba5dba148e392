import Aitos.Drivers.Keyboard

/-!
# The shift keys

Make and break codes of set 1 as a keyboard sends them, and the table by which the handler
translates the next make code.  The handler keeps one flag for two keys and does not look at the
prefix `0xe0`, so the flag follows the keys only under the conditions of `Clear`.
-/

namespace Aitos.Drivers.Keyboard

open Aitos.Framework

/-- A key: whether its codes are prefixed, and its make code. -/
structure Key where
  ext : Bool
  code : UInt8
  deriving DecidableEq

/-- The make code and the break code of the key are neither 0 nor the prefix. -/
def Key.Valid (x : Key) : Prop := x.code ≠ 0 ∧ x.code < 0x80 ∧ x.code ≠ 0x60

instance (x : Key) : Decidable x.Valid := inferInstanceAs (Decidable (_ ∧ _))

def leftShift : Key := ⟨false, 0x2a⟩

def rightShift : Key := ⟨false, 0x36⟩

inductive KeyEvent where
  | make (x : Key)
  | release (x : Key)
  deriving DecidableEq

/-- The bytes of a key event. -/
def KeyEvent.codes : KeyEvent → List UInt8
  | .make x => (if x.ext then [0xe0] else []) ++ [x.code]
  | .release x => (if x.ext then [0xe0] else []) ++ [x.code ||| 0x80]

/-- The keys held down after an event. -/
def KeyEvent.after (held : Key → Bool) : KeyEvent → Key → Bool
  | .make x => Function.update held x true
  | .release x => Function.update held x false

/-- A key can be made at any time and released when it is held. -/
def KeyEvent.Allowed (held : Key → Bool) : KeyEvent → Prop
  | .make x => x.Valid
  | .release x => x.Valid ∧ held x = true

instance (held : Key → Bool) (e : KeyEvent) : Decidable (e.Allowed held) :=
  match e with
  | .make x => inferInstanceAs (Decidable x.Valid)
  | .release x => inferInstanceAs (Decidable (x.Valid ∧ held x = true))

def heldAfter (held : Key → Bool) (es : List KeyEvent) : Key → Bool :=
  es.foldl KeyEvent.after held

/-- A sequence in which the make and break codes of each key alternate. -/
def Alternates (held : Key → Bool) : List KeyEvent → Prop
  | [] => True
  | e :: es => e.Allowed held ∧ Alternates (e.after held) es

instance decidableAlternates :
    (held : Key → Bool) → (es : List KeyEvent) → Decidable (Alternates held es)
  | _, [] => inferInstanceAs (Decidable True)
  | held, e :: es =>
      have := decidableAlternates (e.after held) es
      inferInstanceAs (Decidable (e.Allowed held ∧ Alternates (e.after held) es))

def shiftHeld (held : Key → Bool) : Bool := held leftShift || held rightShift

/-- The handler on one byte after the other. -/
def handle (scs : List UInt8) : KbdM Unit := scs.forM kbdIrq

def codes (es : List KeyEvent) : List UInt8 := es.flatMap KeyEvent.codes

/-- No key is down and nothing was typed. -/
def noKeys : Key → Bool := fun _ => false

/-- The unprefixed make code `c` is translated as the shift keys held ask for. -/
def TranslatedAfter (es : List KeyEvent) (c : UInt8) : Prop :=
  ∃ k k', handle (codes es) boot = .ok ((), k) ∧ kbdIrq c k = .ok ((), k') ∧
    ∃ push, k'.pushes = k.pushes ++ [push] ∧
      push.ch = (if shiftHeld (heldAfter noKeys es) then keymapShift else keymap).getD c.toNat 0

/-- The event does not set the flag apart from the shift keys held: neither shift key is released
while the other is held, and the prefixed codes that end like those of a shift key come only when
they change nothing. -/
def Clear (held : Key → Bool) : KeyEvent → Prop
  | .make x => x.ext = true → x.code = 0x2a ∨ x.code = 0x36 → shiftHeld held = true
  | .release x =>
      (x = leftShift → held rightShift = false) ∧ (x = rightShift → held leftShift = false) ∧
        (x.ext = true → x.code = 0x2a ∨ x.code = 0x36 → shiftHeld held = false)

def AllClear (held : Key → Bool) : List KeyEvent → Prop
  | [] => True
  | e :: es => Clear held e ∧ AllClear (e.after held) es

/-- The flag after an event. -/
def KeyEvent.flag (b : Bool) : KeyEvent → Bool
  | .make x => if x.code = 0x2a ∨ x.code = 0x36 then true else b
  | .release x => if x.code = 0x2a ∨ x.code = 0x36 then false else b

/-- What the bits of a make code say of its break code. -/
private theorem break_code (c : UInt8) : c ≠ 0 ∧ c < 0x80 ∧ c ≠ 0x60 →
    (c ||| 0x80 ≠ 0 ∧ c ||| 0x80 ≠ 0xe0 ∧ c ||| 0x80 ≠ 0x2a ∧ c ||| 0x80 ≠ 0x36) ∧
      (c ||| 0x80 = 0xaa ↔ c = 0x2a) ∧ (c ||| 0x80 = 0xb6 ↔ c = 0x36) ∧
      (c ||| 0x80) &&& 0x80 ≠ 0 ∧ c &&& 0x80 = 0 := by
  revert c
  refine forall_uInt8 ?_
  decide +kernel

section Handler

variable {k : Keyboard}

private theorem kbdIrq_ext : kbdIrq 0xe0 k = .ok ((), { k with extScancode := true }) := rfl

private theorem kbdIrq_make {c : UInt8} (h : Inv k) (hc : c ≠ 0 ∧ c < 0x80 ∧ c ≠ 0x60) :
    ∃ k', kbdIrq c k = .ok ((), k') ∧ Inv k' ∧
      k'.shiftDown = if c = 0x2a ∨ c = 0x36 then true else k.shiftDown := by
  obtain ⟨k', hrun, hinv⟩ := h.irq c
  refine ⟨k', hrun, hinv, ?_⟩
  have hbits := (break_code c hc).2.2.2.2
  have hne : ∀ b : UInt8, 0x80 ≤ b → c ≠ b := by
    rintro b hb rfl
    exact UInt8.not_le.mpr hc.2.1 hb
  rw [kbdIrq, if_neg hc.1, if_neg (hne 0xe0 (by decide))] at hrun
  split_ifs at hrun ⊢ with h₁ h₂ h₃ h₄
  · cases hrun
    rfl
  · exact absurd h₂ (not_or.mpr ⟨hne _ (by decide), hne _ (by decide)⟩)
  · exact absurd hbits h₃
  · exact absurd hc.2.1 (UInt8.not_lt.mpr h₄)
  · rw [translate_ok h.inside hc.2.1] at hrun
    cases hrun
    rfl

private theorem kbdIrq_break {c : UInt8} (h : Inv k) (hc : c ≠ 0 ∧ c < 0x80 ∧ c ≠ 0x60) :
    ∃ k', kbdIrq (c ||| 0x80) k = .ok ((), k') ∧ Inv k' ∧
      k'.shiftDown = if c = 0x2a ∨ c = 0x36 then false else k.shiftDown := by
  obtain ⟨k', hrun, hinv⟩ := h.irq (c ||| 0x80)
  refine ⟨k', hrun, hinv, ?_⟩
  obtain ⟨⟨hzero, hext, hleft, hright⟩, haa, hb6, hhigh, -⟩ := break_code c hc
  rw [kbdIrq, if_neg hzero, if_neg hext, if_neg (not_or.mpr ⟨hleft, hright⟩)] at hrun
  simp only [haa, hb6, if_pos hhigh] at hrun
  split_ifs at hrun ⊢
  · cases hrun
    rfl
  · cases hrun
    rfl

private theorem handle_append (scs scs' : List UInt8) :
    handle (scs ++ scs') = (handle scs >>= fun _ => handle scs') := List.forM_append ..

/-- Behind an optional prefix, a code does to the flag what it does alone. -/
private theorem handle_prefixed {c : UInt8} {f : Bool → Bool} (ext : Bool)
    (hcode : ∀ k : Keyboard, Inv k →
      ∃ k', kbdIrq c k = .ok ((), k') ∧ Inv k' ∧ k'.shiftDown = f k.shiftDown)
    (h : Inv k) :
    ∃ k', handle ((if ext then [0xe0] else []) ++ [c]) k = .ok ((), k') ∧ Inv k' ∧
      k'.shiftDown = f k.shiftDown := by
  have hone : handle [c] = kbdIrq c := bind_pure _
  cases ext with
  | false =>
      change ∃ k', handle [c] k = _ ∧ _
      rw [hone]
      exact hcode k h
  | true =>
      have htwo : handle ([0xe0] ++ [c]) = (kbdIrq 0xe0 >>= fun _ => kbdIrq c) := by
        rw [handle_append, hone]
        rfl
      change ∃ k', handle ([0xe0] ++ [c]) k = _ ∧ _
      rw [htwo, Code.bind_of_ok kbdIrq_ext]
      exact hcode _ (h.setExt true)

private theorem handle_event {e : KeyEvent} {held : Key → Bool} (he : e.Allowed held) (h : Inv k) :
    ∃ k', handle e.codes k = .ok ((), k') ∧ Inv k' ∧ k'.shiftDown = e.flag k.shiftDown := by
  cases e with
  | make x => exact handle_prefixed x.ext (fun k hk => kbdIrq_make hk he) h
  | release x => exact handle_prefixed x.ext (fun k hk => kbdIrq_break hk he.1) h

private theorem handle_events {es : List KeyEvent} {held : Key → Bool} (hes : Alternates held es)
    (h : Inv k) :
    ∃ k', handle (codes es) k = .ok ((), k') ∧ Inv k' ∧
      k'.shiftDown = es.foldl KeyEvent.flag k.shiftDown := by
  induction es generalizing k held with
  | nil => exact ⟨k, rfl, h, rfl⟩
  | cons e es ih =>
      obtain ⟨k₁, hrun₁, h₁, hflag₁⟩ := handle_event hes.1 h
      obtain ⟨k', hrun, h', hflag⟩ := ih hes.2 h₁
      refine ⟨k', ?_, h', ?_⟩
      · rw [codes, List.flatMap_cons, handle_append, Code.bind_of_ok hrun₁]
        exact hrun
      · rw [hflag, hflag₁]
        rfl

end Handler

section Flag

variable {held : Key → Bool} {e : KeyEvent} {es : List KeyEvent} {b : Bool}

private theorem shiftHeld_update {x : Key} (hl : x ≠ leftShift) (hr : x ≠ rightShift) (v : Bool) :
    shiftHeld (Function.update held x v) = shiftHeld held := by
  rw [shiftHeld, Function.update_of_ne hl.symm, Function.update_of_ne hr.symm, shiftHeld]

private theorem shiftHeld_left (v : Bool) :
    shiftHeld (Function.update held leftShift v) = (v || held rightShift) := by
  rw [shiftHeld, Function.update_self, Function.update_of_ne (by decide)]

private theorem shiftHeld_right (v : Bool) :
    shiftHeld (Function.update held rightShift v) = (held leftShift || v) := by
  rw [shiftHeld, Function.update_self, Function.update_of_ne (by decide)]

/-- The keys whose codes end like those of a shift key. -/
private theorem shift_cases {x : Key} (hx : x.code = 0x2a ∨ x.code = 0x36) :
    x = leftShift ∨ x = rightShift ∨ x.ext = true ∧ x ≠ leftShift ∧ x ≠ rightShift := by
  obtain ⟨ext, code⟩ := x
  cases ext with
  | false =>
      rcases hx with rfl | rfl
      · exact .inl rfl
      · exact .inr (.inl rfl)
  | true => exact .inr (.inr ⟨rfl, by simp [leftShift], by simp [rightShift]⟩)

private theorem not_shift {x : Key} (hx : ¬ (x.code = 0x2a ∨ x.code = 0x36)) :
    x ≠ leftShift ∧ x ≠ rightShift := by
  constructor
  · rintro rfl
    exact hx (.inl rfl)
  · rintro rfl
    exact hx (.inr rfl)

private theorem flag_eq_iff (hb : b = shiftHeld held) :
    e.flag b = shiftHeld (e.after held) ↔ Clear held e := by
  cases e with
  | make x =>
      simp only [KeyEvent.flag, KeyEvent.after, Clear]
      by_cases hx : x.code = 0x2a ∨ x.code = 0x36
      · rw [if_pos hx]
        rcases shift_cases hx with rfl | rfl | ⟨hext, hl, hr⟩
        · rw [shiftHeld_left]
          exact iff_of_true rfl fun h => absurd h (by decide)
        · rw [shiftHeld_right, Bool.or_true]
          exact iff_of_true rfl fun h => absurd h (by decide)
        · rw [shiftHeld_update hl hr]
          exact ⟨fun h _ _ => h.symm, fun h => (h hext hx).symm⟩
      · obtain ⟨hl, hr⟩ := not_shift hx
        rw [if_neg hx, shiftHeld_update hl hr]
        exact iff_of_true hb fun _ h => absurd h hx
  | release x =>
      simp only [KeyEvent.flag, KeyEvent.after, Clear]
      by_cases hx : x.code = 0x2a ∨ x.code = 0x36
      · rw [if_pos hx]
        rcases shift_cases hx with rfl | rfl | ⟨hext, hl, hr⟩
        · rw [shiftHeld_left, Bool.false_or]
          refine ⟨fun h => ⟨fun _ => h.symm, ?_, ?_⟩, fun h => (h.1 rfl).symm⟩
          · exact fun h' => absurd h' (by decide)
          · exact fun h' => absurd h' (by decide)
        · rw [shiftHeld_right, Bool.or_false]
          refine ⟨fun h => ⟨?_, fun _ => h.symm, ?_⟩, fun h => (h.2.1 rfl).symm⟩
          · exact fun h' => absurd h' (by decide)
          · exact fun h' => absurd h' (by decide)
        · rw [shiftHeld_update hl hr]
          refine ⟨fun h => ⟨?_, ?_, fun _ _ => h.symm⟩, fun h => (h.2.2 hext hx).symm⟩
          · exact fun h' => absurd h' hl
          · exact fun h' => absurd h' hr
      · obtain ⟨hl, hr⟩ := not_shift hx
        rw [if_neg hx, shiftHeld_update hl hr]
        exact iff_of_true hb ⟨fun h => absurd h hl, fun h => absurd h hr, fun _ h => absurd h hx⟩

private theorem flags_eq_iff (hes : Alternates held es) (hb : b = shiftHeld held) :
    (∀ es₁, es₁ <+: es → es₁.foldl KeyEvent.flag b = shiftHeld (heldAfter held es₁)) ↔
      AllClear held es := by
  induction es generalizing held b with
  | nil =>
      refine iff_of_true (fun es₁ hes₁ => ?_) trivial
      rw [List.prefix_nil.mp hes₁]
      exact hb
  | cons e es ih =>
      constructor
      · intro h
        have hone : e.flag b = shiftHeld (e.after held) := h [e] ⟨es, rfl⟩
        refine ⟨(flag_eq_iff hb).mp hone, (ih hes.2 hone).mp fun es₁ hes₁ => ?_⟩
        exact h (e :: es₁) ((List.prefix_cons_inj e).mpr hes₁)
      · rintro ⟨hclear, hrest⟩ es₁ hes₁
        have hone := (flag_eq_iff hb).mpr hclear
        cases es₁ with
        | nil => exact hb
        | cons e₁ es₁ =>
            obtain ⟨rfl, htail⟩ := List.cons_prefix_cons.mp hes₁
            exact (ih hes.2 hone).mpr hrest es₁ htail

end Flag

private theorem Alternates.initial {held : Key → Bool} {es es₁ : List KeyEvent}
    (h : Alternates held es) (hes₁ : es₁ <+: es) : Alternates held es₁ := by
  induction es₁ generalizing es held with
  | nil => trivial
  | cons e es₁ ih =>
      cases es with
      | nil => exact absurd (List.prefix_nil.mp hes₁) (List.cons_ne_nil e es₁)
      | cons e' es =>
          obtain ⟨rfl, htail⟩ := List.cons_prefix_cons.mp hes₁
          exact ⟨h.1, ih h.2 htail⟩

private theorem pushes_of_make {k : Keyboard} {c : UInt8} (h : Inv k)
    (hc : c ≠ 0 ∧ c < 0x80 ∧ c ≠ 0x60 ∧ c ≠ 0x2a ∧ c ≠ 0x36) :
    ∃ k' push, kbdIrq c k = .ok ((), k') ∧ k'.pushes = k.pushes ++ [push] ∧
      push.ch = k.translation.getD c.toNat 0 := by
  obtain ⟨hzero, hlt, h60, hl, hr⟩ := hc
  have hbits := (break_code c ⟨hzero, hlt, h60⟩).2.2.2.2
  have hne : ∀ b : UInt8, 0x80 ≤ b → c ≠ b := by
    rintro b hb rfl
    exact UInt8.not_le.mpr hlt hb
  rw [kbdIrq, if_neg hzero, if_neg (hne 0xe0 (by decide)), if_neg (not_or.mpr ⟨hl, hr⟩),
    if_neg (not_or.mpr ⟨hne 0xaa (by decide), hne 0xb6 (by decide)⟩), if_neg (not_not_intro hbits),
    if_neg (UInt8.not_le.mpr hlt), translate_ok h.inside hlt]
  exact ⟨_, _, rfl, rfl, rfl⟩

private theorem translatedAfter_iff {es : List KeyEvent} (hes : Alternates noKeys es) :
    (∀ c, c ≠ 0 ∧ c < 0x80 ∧ c ≠ 0x60 ∧ c ≠ 0x2a ∧ c ≠ 0x36 → TranslatedAfter es c) ↔
      es.foldl KeyEvent.flag false = shiftHeld (heldAfter noKeys es) := by
  obtain ⟨k, hrun, hinv, hflag⟩ := handle_events hes inv_boot
  have hflag' : k.shiftDown = es.foldl KeyEvent.flag false := hflag
  rw [← hflag']
  constructor
  · intro h
    obtain ⟨k₁, k', hrun₁, hirq, push, hpush, hch⟩ := h 0x1e (by decide)
    obtain ⟨k'', push', hirq', hpush', hch'⟩ := pushes_of_make hinv (c := 0x1e) (by decide)
    rw [hrun] at hrun₁
    cases hrun₁
    rw [hirq'] at hirq
    cases hirq
    obtain ⟨-, heq⟩ := List.append_inj' (hpush'.symm.trans hpush) rfl
    cases heq
    -- the two tables differ at this code
    rw [hch', translation] at hch
    cases hdown : k.shiftDown <;> cases hheld : shiftHeld (heldAfter noKeys es) <;>
      simp only [hdown, hheld] at hch ⊢ <;> exact absurd hch (by decide)
  · intro h c hc
    obtain ⟨k', push, hirq, hpush, hch⟩ := pushes_of_make hinv hc
    refine ⟨k, k', hrun, hirq, push, hpush, ?_⟩
    rw [hch, translation, h]

/-- At any moment of a sequence, the make codes that may come next are translated right, if and
only if every event of the sequence is clear. -/
theorem shift_iff {es : List KeyEvent} (hes : Alternates noKeys es) :
    (∀ es₁, es₁ <+: es → ∀ c, c ≠ 0 ∧ c < 0x80 ∧ c ≠ 0x60 ∧ c ≠ 0x2a ∧ c ≠ 0x36 →
      TranslatedAfter es₁ c) ↔ AllClear noKeys es := by
  rw [← flags_eq_iff (b := false) hes rfl]
  constructor
  · intro h es₁ hes₁
    exact (translatedAfter_iff (hes.initial hes₁)).mp (h es₁ hes₁)
  · intro h es₁ hes₁
    exact (translatedAfter_iff (hes.initial hes₁)).mpr (h es₁ hes₁)

theorem shift_left_a :
    Alternates noKeys [.make leftShift, .make ⟨false, 0x1e⟩, .release leftShift] ∧
    ∀ es₁, es₁ <+: [.make leftShift, .make ⟨false, 0x1e⟩, .release leftShift] →
      ∀ c, c ≠ 0 ∧ c < 0x80 ∧ c ≠ 0x60 ∧ c ≠ 0x2a ∧ c ≠ 0x36 → TranslatedAfter es₁ c := by
  have hes : Alternates noKeys [.make leftShift, .make ⟨false, 0x1e⟩, .release leftShift] := by
    decide
  refine ⟨hes, (shift_iff hes).mpr ⟨?_, ?_, ⟨?_, ?_, ?_⟩, trivial⟩⟩
  · exact fun h => absurd h (by decide)
  · exact fun h => absurd h (by decide)
  · exact fun _ => by decide
  · exact fun h => absurd h (by decide)
  · exact fun h => absurd h (by decide)

/-- Both shift keys are pressed and the left one is released: the next letter is a small one. -/
theorem shift_right_held :
    Alternates noKeys [.make leftShift, .make rightShift, .release leftShift] ∧
      ¬ TranslatedAfter [.make leftShift, .make rightShift, .release leftShift] 0x1e := by
  refine ⟨by decide, ?_⟩
  rintro ⟨k, k', hrun, hirq, push, hpush, hch⟩
  have hruns : ((handle (codes [.make leftShift, .make rightShift, .release leftShift]) >>=
      fun _ => kbdIrq 0x1e) boot).toOption.map (fun out => out.2.pushes.getLast?.map Push.ch) =
      some (some 0x61) := by decide +kernel
  rw [Code.bind_of_ok hrun, hirq] at hruns
  have hlast : some (some push.ch) = some (some (0x61 : UInt8)) := by
    rw [← hruns]
    simp [Except.toOption, hpush]
  rw [Option.some.inj (Option.some.inj hlast)] at hch
  exact absurd hch (by decide)

end Aitos.Drivers.Keyboard
