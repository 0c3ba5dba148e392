import Aitos.Drivers.Console
import Aitos.Framework.Hoare
import Aitos.Framework.RingBuffer
import Aitos.Framework.Run

/-!
# The keyboard

`drivers/keyboard.c`: the interrupt handler translates scancodes and pushes characters into a ring,
`keyboard_read_char` polls the ring.  The handler may run between any two accesses of the reader to
the ring.  The serial line is idle.  Besides the variables of the driver the state keeps every call
of `kbd_push` and the characters returned so far.  What was typed is kept apart from the driver, in a
`Log` that knows the scancodes and the characters returned but not the ring.
-/

namespace Aitos.Drivers

open Aitos.Framework

namespace Keyboard

def bufSize : Nat := 128

/-- A table of 128 characters, zeros behind the ones listed. -/
def table (cs : List UInt8) : List UInt8 := cs ++ List.replicate (128 - cs.length) 0

def keymap : List UInt8 :=
  table ([0, 27] ++ ascii "1234567890-=\x08" ++ ascii "\tqwertyuiop[]\r" ++ [0] ++
    ascii "asdfghjkl;'\x60" ++ [0] ++ ascii "\\zxcvbnm,./" ++ [0] ++ ascii "*" ++ [0] ++ ascii " ")

def keymapShift : List UInt8 :=
  table ([0, 27] ++ ascii "!@#$%^&*()_+\x08" ++ ascii "\tQWERTYUIOP\x7b\x7d\r" ++ [0] ++
    ascii "ASDFGHJKL:\"~" ++ [0] ++ ascii "|ZXCVBNM<>?" ++ [0] ++ ascii "*" ++ [0] ++ ascii " ")

/-- Where `keyboard_read_char` stands. -/
inductive Reader where
  | idle
  /-- before the comparison of `kbd_head` and `kbd_tail` -/
  | checking
  /-- before the character is read -/
  | loading
  /-- before `kbd_tail` is advanced -/
  | advancing (c : UInt8)
  deriving DecidableEq

/-- A call of `kbd_push`, with the number of characters in the ring at that moment. -/
structure Push where
  ch : UInt8
  pending : Nat
  dropped : Bool
  deriving DecidableEq

inductive Fault where
  | outOfRange

end Keyboard

structure Keyboard where
  ring : RingBuffer UInt8
  shiftDown : Bool
  extScancode : Bool
  reader : Keyboard.Reader
  pushes : List Keyboard.Push
  returned : List UInt8

namespace Keyboard

abbrev KbdM := Code Keyboard Fault

/-- Read an array. -/
def entry (t : List UInt8) (i : Nat) : KbdM UInt8 :=
  match t[i]? with
  | none => throw .outOfRange
  | some c => return c

def kbdPush (ch : UInt8) : KbdM Unit := do
  let k ← get
  let push := ⟨ch, k.ring.count bufSize, decide (k.ring.Full bufSize)⟩
  modify fun k => { k with pushes := k.pushes ++ [push] }
  if k.ring.Full bufSize then return
  else if bufSize ≤ k.ring.head then throw .outOfRange
  else modify fun k => { k with ring := k.ring.push bufSize ch }

/-- The table by which a make code is translated. -/
def translation (k : Keyboard) : List UInt8 := if k.shiftDown then keymapShift else keymap

def setExt (b : Bool) : KbdM Unit := modify fun k => { k with extScancode := b }

def setShift (b : Bool) : KbdM Unit := modify fun k => { k with shiftDown := b }

/-- `kbd_irq` when the port delivers `sc`. -/
def kbdIrq (sc : UInt8) : KbdM Unit :=
  if sc = 0 then setExt false
  else if sc = 0xe0 then setExt true
  else if sc = 0x2a ∨ sc = 0x36 then setShift true
  else if sc = 0xaa ∨ sc = 0xb6 then setShift false
  else if sc &&& 0x80 ≠ 0 then return
  else if sc ≥ 128 then return
  else do
    kbdPush (← entry (← get).translation sc.toNat)
    setExt false

/-- The next access of `keyboard_read_char`, or the next call of it.  Only the reader writes
`kbd_tail`, so comparing it with `kbd_head` is one access. -/
def readerStep : KbdM Unit := do
  let k ← get
  match k.reader with
  | .idle => modify fun k => { k with reader := .checking }
  | .checking =>
      if k.ring.Empty then return else modify fun k => { k with reader := .loading }
  | .loading =>
      if bufSize ≤ k.ring.tail then throw .outOfRange
      else modify fun k => { k with reader := .advancing (k.ring.buf k.ring.tail) }
  | .advancing c =>
      modify fun k =>
        { k with ring := k.ring.pop bufSize, reader := .idle, returned := k.returned ++ [c] }

end Keyboard

inductive KbdEvent where
  | irq (sc : UInt8)
  | read

namespace Keyboard

def step : KbdEvent → KbdM Unit
  | .irq sc => kbdIrq sc
  | .read => readerStep

def boot : Keyboard := ⟨⟨fun _ => 0, 0, 0⟩, false, false, .idle, [], []⟩

end Keyboard

namespace Keyboard

/-- The characters of the calls that were not dropped. -/
def accepted (ps : List Push) : List UInt8 := (ps.filter fun p => !p.dropped).map Push.ch

/-- The character that a scancode types, if any. -/
def typed (shift : Bool) (sc : UInt8) : Option UInt8 :=
  if sc = 0 ∨ 0x80 ≤ sc ∨ sc = 0x2a ∨ sc = 0x36 then none
  else some ((if shift then keymapShift else keymap).getD sc.toNat 0)

/-- The shift state after a scancode. -/
def shiftAfter (shift : Bool) (sc : UInt8) : Bool :=
  if sc = 0x2a ∨ sc = 0x36 then true else if sc = 0xaa ∨ sc = 0xb6 then false else shift

/-- What was typed, as the scancodes say: a character is dropped when 127 are pending, that is,
accepted and not yet returned. -/
structure Log where
  shift : Bool
  pushes : List Push
  deriving DecidableEq

/-- The log after an event, when `returned` characters have been returned. -/
def Log.after (l : Log) (returned : Nat) : KbdEvent → Log
  | .read => l
  | .irq sc =>
      let pending := (accepted l.pushes).length - returned
      { shift := shiftAfter l.shift sc
        pushes := l.pushes ++
          ((typed l.shift sc).map fun c => ⟨c, pending, decide (pending = 127)⟩).toList }

end Keyboard

open Keyboard in
/-- The handler and the reader in any order, and the log of it. -/
def keyboard : System (Keyboard × Log) KbdEvent where
  init s := s = (boot, ⟨false, []⟩)
  step s e s' := step e s.1 = .ok ((), s'.1) ∧ s'.2 = s.2.after s.1.returned.length e

namespace Keyboard

/-- What `kbd_push` does to a ring whose positions are inside it. -/
def pushed (k : Keyboard) (ch : UInt8) : Keyboard :=
  { k with
    pushes := k.pushes ++ [⟨ch, k.ring.count bufSize, decide (k.ring.Full bufSize)⟩]
    ring := if k.ring.Full bufSize then k.ring else k.ring.push bufSize ch }

structure Inv (k : Keyboard) : Prop where
  inside : k.ring.Inside bufSize
  order : accepted k.pushes = k.returned ++ k.ring.contents bufSize
  drops : ∀ p ∈ k.pushes, p.dropped = true ↔ p.pending = 127
  reader : match k.reader with
    | .loading => k.ring.contents bufSize ≠ []
    | .advancing c => ∃ rest, k.ring.contents bufSize = c :: rest
    | _ => True

variable {k : Keyboard} {ch : UInt8}

private theorem kbdPush_ok (h : k.ring.Inside bufSize) : kbdPush ch k = .ok ((), k.pushed ch) := by
  have hhead : ¬ bufSize ≤ k.ring.head := Nat.not_le.mpr h.head
  rw [kbdPush, Code.get_bind, Code.modify_bind]
  by_cases hfull : k.ring.Full bufSize
  · rw [if_pos hfull, pushed, if_pos hfull]
    rfl
  · rw [if_neg hfull, if_neg hhead, pushed, if_neg hfull]
    rfl

/-- 127 characters fill the ring. -/
theorem full_iff (h : k.ring.Inside bufSize) :
    k.ring.Full bufSize ↔ k.ring.count bufSize = 127 := by
  rw [h.full_iff]
  change k.ring.count bufSize + 1 = 127 + 1 ↔ _
  omega

theorem inv_boot : Inv boot := by
  refine ⟨⟨by decide, by decide⟩, by decide, ?_, trivial⟩
  intro p hp
  cases hp

private theorem Inv.pushed (h : Inv k) (ch : UInt8) : Inv (k.pushed ch) := by
  have hdrops : ∀ p ∈ (k.pushed ch).pushes, p.dropped = true ↔ p.pending = 127 := by
    intro p hp
    rcases List.mem_append.mp hp with hp | hp
    · exact h.drops p hp
    · rw [List.mem_singleton.mp hp]
      exact decide_eq_true_iff.trans (full_iff h.inside)
  by_cases hfull : k.ring.Full bufSize
  · have hring : (k.pushed ch).ring = k.ring := if_pos hfull
    refine ⟨hring ▸ h.inside, ?_, hdrops, ?_⟩
    · rw [hring]
      change accepted (k.pushes ++ [_]) = _
      rw [accepted, List.filter_append, List.map_append, ← accepted, h.order, decide_eq_true hfull]
      exact List.append_nil _
    · rw [hring]
      exact h.reader
  · have hring : (k.pushed ch).ring = k.ring.push bufSize ch := if_neg hfull
    have hcontents := h.inside.contents_push hfull ch
    refine ⟨hring ▸ h.inside.push ch, ?_, hdrops, ?_⟩
    · rw [hring]
      change accepted (k.pushes ++ [_]) = _
      rw [accepted, List.filter_append, List.map_append, ← accepted, h.order,
        decide_eq_false hfull, hcontents, List.append_assoc]
      rfl
    · have hreader := h.reader
      rw [hring, hcontents]
      change match k.reader with
        | .loading => k.ring.contents bufSize ++ [ch] ≠ []
        | .advancing c => ∃ rest, k.ring.contents bufSize ++ [ch] = c :: rest
        | _ => True
      cases hk : k.reader with
      | idle => trivial
      | checking => trivial
      | loading => exact List.append_ne_nil_of_right_ne_nil _ (List.cons_ne_nil _ _)
      | advancing c =>
          rw [hk] at hreader
          obtain ⟨rest, hrest⟩ := hreader
          exact ⟨rest ++ [ch], by rw [hrest, List.cons_append]⟩

private theorem length_translation (k : Keyboard) : k.translation.length = 128 := by
  unfold translation
  split <;> rfl

theorem Inv.setExt (h : Inv k) (b : Bool) : Inv { k with extScancode := b } :=
  ⟨h.inside, h.order, h.drops, h.reader⟩

private theorem Inv.setShift (h : Inv k) (b : Bool) : Inv { k with shiftDown := b } :=
  ⟨h.inside, h.order, h.drops, h.reader⟩

private theorem entry_ok {t : List UInt8} {i : Nat} (hi : i < t.length) :
    entry t i k = .ok (t.getD i 0, k) := by
  rw [entry, List.getElem?_eq_getElem hi, List.getD_eq_getElem _ _ hi]
  rfl

theorem translate_ok {sc : UInt8} (h : k.ring.Inside bufSize) (hsc : sc < 128) :
    (do kbdPush (← entry (← get).translation sc.toNat); setExt false : KbdM Unit) k =
      .ok ((), { k.pushed (k.translation.getD sc.toNat 0) with extScancode := false }) := by
  have hlen : sc.toNat < k.translation.length := by
    rw [length_translation]
    exact UInt8.lt_iff_toNat_lt.mp hsc
  rw [Code.get_bind, Code.bind_of_ok (entry_ok hlen), Code.bind_of_ok (kbdPush_ok h)]
  rfl

theorem Inv.irq (h : Inv k) (sc : UInt8) : ∃ k', kbdIrq sc k = .ok ((), k') ∧ Inv k' := by
  unfold kbdIrq
  split_ifs with h₁ h₂ h₃ h₄ h₅ h₆
  · exact ⟨_, rfl, h.setExt false⟩
  · exact ⟨_, rfl, h.setExt true⟩
  · exact ⟨_, rfl, h.setShift true⟩
  · exact ⟨_, rfl, h.setShift false⟩
  · exact ⟨k, rfl, h⟩
  · exact ⟨k, rfl, h⟩
  · exact ⟨_, translate_ok h.inside (UInt8.not_le.mp h₆), (h.pushed _).setExt false⟩

theorem Inv.read (h : Inv k) : ∃ k', readerStep k = .ok ((), k') ∧ Inv k' := by
  have hreader := h.reader
  rw [readerStep, Code.get_bind]
  cases hk : k.reader with
  | idle => exact ⟨_, rfl, h.inside, h.order, h.drops, trivial⟩
  | checking =>
      dsimp only
      split
      · exact ⟨k, rfl, h⟩
      · rename_i hne
        refine ⟨_, rfl, h.inside, h.order, h.drops, ?_⟩
        exact fun hnil => hne (h.inside.contents_eq_nil.mp hnil)
  | loading =>
      rw [hk] at hreader
      have hne : ¬ k.ring.Empty := fun he => hreader (h.inside.contents_eq_nil.mpr he)
      have htail : ¬ bufSize ≤ k.ring.tail := Nat.not_le.mpr h.inside.tail
      dsimp only
      rw [if_neg htail]
      exact ⟨_, rfl, h.inside, h.order, h.drops, _, h.inside.contents_pop hne⟩
  | advancing c =>
      rw [hk] at hreader
      obtain ⟨rest, hrest⟩ := hreader
      have hne : ¬ k.ring.Empty := by
        intro he
        rw [h.inside.contents_eq_nil.mpr he] at hrest
        cases hrest
      have hpop := h.inside.contents_pop hne
      rw [hrest] at hpop
      obtain ⟨-, hpop⟩ := List.cons.inj hpop
      refine ⟨_, rfl, h.inside.pop, ?_, h.drops, trivial⟩
      change accepted k.pushes = (k.returned ++ [c]) ++ (k.ring.pop bufSize).contents bufSize
      rw [h.order, hrest, hpop, List.append_assoc, List.singleton_append]

theorem Inv.step (h : Inv k) (e : KbdEvent) : ∃ k', step e k = .ok ((), k') ∧ Inv k' := by
  cases e with
  | irq sc => exact h.irq sc
  | read => exact h.read

theorem forall_uInt8 {P : UInt8 → Prop} (h : ∀ n : Fin 256, P ⟨⟨n⟩⟩) (c : UInt8) : P c := h c.toFin

/-- The codes that the handler tells apart before it looks at the highest bit -/
private theorem high_bit (sc : UInt8) :
    (sc &&& 0x80 ≠ 0 ↔ 0x80 ≤ sc) ∧
      (sc = 0xe0 ∨ sc = 0xaa ∨ sc = 0xb6 → 0x80 ≤ sc) ∧ (sc = 0x2a ∨ sc = 0x36 → ¬ 0x80 ≤ sc) := by
  revert sc
  refine forall_uInt8 ?_
  decide +kernel

/-- The handler types what the scancode stands for. -/
private theorem kbdIrq_typed (h : k.ring.Inside bufSize) (sc : UInt8) :
    ∃ ext, kbdIrq sc k = .ok ((),
      { ((typed k.shiftDown sc).elim k k.pushed) with
        shiftDown := shiftAfter k.shiftDown sc, extScancode := ext }) := by
  obtain ⟨hbit, hhigh, hlow⟩ := high_bit sc
  have hdead : ∀ k₁ : Keyboard, sc = 0 ∨ 0x80 ≤ sc ∨ sc = 0x2a ∨ sc = 0x36 →
      (typed k.shiftDown sc).elim k k.pushed = k := by
    intro _ hsc
    rw [typed, if_pos hsc]
    rfl
  unfold kbdIrq
  split_ifs with h₁ h₂ h₃ h₄ h₅ h₆
  · subst h₁
    exact ⟨false, rfl⟩
  · subst h₂
    exact ⟨true, rfl⟩
  · refine ⟨k.extScancode, ?_⟩
    rw [hdead k (.inr (.inr h₃)), shiftAfter, if_pos h₃]
    rfl
  · refine ⟨k.extScancode, ?_⟩
    rw [hdead k (.inr (.inl (hhigh (.inr h₄)))), shiftAfter, if_neg h₃, if_pos h₄]
    rfl
  · refine ⟨k.extScancode, ?_⟩
    rw [hdead k (.inr (.inl (hbit.mp h₅))), shiftAfter, if_neg h₃, if_neg h₄]
    rfl
  · refine ⟨k.extScancode, ?_⟩
    rw [hdead k (.inr (.inl h₆)), shiftAfter, if_neg h₃, if_neg h₄]
    rfl
  · refine ⟨false, ?_⟩
    have htyped : typed k.shiftDown sc = some (k.translation.getD sc.toNat 0) := by
      rw [typed, if_neg, translation]
      rintro (hz | hge | hsh)
      · exact h₁ hz
      · exact h₆ hge
      · exact h₃ hsh
    rw [translate_ok h (UInt8.not_le.mp h₆), htyped, shiftAfter, if_neg h₃, if_neg h₄]
    rfl

/-- The driver has done what the log says. -/
structure Logged (k : Keyboard) (l : Log) : Prop where
  inv : Inv k
  shift : k.shiftDown = l.shift
  pushes : k.pushes = l.pushes

theorem Inv.pending (h : Inv k) :
    (accepted k.pushes).length - k.returned.length = k.ring.count bufSize := by
  rw [h.order, List.length_append, RingBuffer.length_contents, Nat.add_sub_cancel_left]

theorem Logged.step {k' : Keyboard} {l : Log} (h : Logged k l) {e : KbdEvent}
    (hs : step e k = .ok ((), k')) : Logged k' (l.after k.returned.length e) := by
  obtain ⟨k₁, hrun, hinv⟩ := h.inv.step e
  rw [hs] at hrun
  cases hrun
  cases e with
  | read =>
      have hkeep : k'.shiftDown = k.shiftDown ∧ k'.pushes = k.pushes := by
        change readerStep k = _ at hs
        rw [readerStep, Code.get_bind] at hs
        cases hreader : k.reader with
        | idle =>
            rw [hreader] at hs
            cases hs
            exact ⟨rfl, rfl⟩
        | checking =>
            rw [hreader] at hs
            dsimp only at hs
            split at hs <;> cases hs <;> exact ⟨rfl, rfl⟩
        | loading =>
            rw [hreader] at hs
            dsimp only at hs
            split at hs <;> cases hs
            exact ⟨rfl, rfl⟩
        | advancing c =>
            rw [hreader] at hs
            cases hs
            exact ⟨rfl, rfl⟩
      exact ⟨hinv, hkeep.1.trans h.shift, hkeep.2.trans h.pushes⟩
  | irq sc =>
      obtain ⟨ext, hirq⟩ := kbdIrq_typed h.inv.inside sc
      change kbdIrq sc k = _ at hs
      rw [hirq] at hs
      cases hs
      refine ⟨hinv, ?_, ?_⟩
      · rw [Log.after, ← h.shift]
      · rw [Log.after, ← h.shift, ← h.pushes, h.inv.pending]
        cases typed k.shiftDown sc with
        | none => exact (List.append_nil _).symm
        | some c =>
            change k.pushes ++ [_] = k.pushes ++ [_]
            rw [decide_eq_decide.mpr (full_iff h.inv.inside)]

private theorem logged_of_reachable {s : Keyboard × Log} (h : keyboard.Reachable s) :
    Logged s.1 s.2 := by
  refine h.invariant (P := fun s => Logged s.1 s.2) ?_ ?_
  · rintro s rfl
    exact ⟨inv_boot, rfl, rfl⟩
  · rintro s e s' hs ⟨hstep, hlog⟩
    rw [hlog]
    exact hs.step hstep

/-- Whatever the order of interrupts and reads: what was returned and what is still in the ring are
the characters typed and not dropped, in their order; a character is dropped when 127 are pending
and only then, and these calls of `kbd_push` are the ones made; the positions are inside the ring
and no access to an array fails. -/
theorem keyboard_fifo {l : Log} (h : keyboard.Reachable (k, l)) :
    accepted l.pushes = k.returned ++ k.ring.contents bufSize ∧
      (∀ p ∈ l.pushes, p.dropped = true ↔ p.pending = 127) ∧ k.pushes = l.pushes ∧
      k.ring.head < bufSize ∧ k.ring.tail < bufSize ∧ ∀ e, ∃ k', step e k = .ok ((), k') := by
  have hlog : Logged k l := logged_of_reachable h
  have hinv := hlog.inv
  rw [← hlog.pushes]
  refine ⟨hinv.order, hinv.drops, rfl, hinv.inside.head, hinv.inside.tail, fun e => ?_⟩
  obtain ⟨k', hrun, -⟩ := hinv.step e
  exact ⟨k', hrun⟩

/-- With a shift key down an `a` is typed, and it is read. -/
theorem keyboard_fifo_a : ∃ k : Keyboard, keyboard.Reachable (k, ⟨true, [⟨0x41, 0, false⟩]⟩) ∧
    k.returned = [0x41] ∧ accepted [⟨0x41, 0, false⟩] = k.returned ++ k.ring.contents bufSize ∧
      k.pushes = [⟨0x41, 0, false⟩] ∧ ∀ e, ∃ k', step e k = .ok ((), k') := by
  have hruns : ((step (.irq 0x2a) >>= fun _ => step (.irq 0x1e) >>= fun _ => step .read >>= fun _ =>
      step .read >>= fun _ => step .read >>= fun _ => step .read) boot).toOption.map
        (fun out => out.2.returned) = some [0x41] := by decide +kernel
  obtain ⟨a, k, hrun, hret⟩ := Code.exists_of_toOption hruns
  obtain ⟨⟨⟩, k₁, h₁, hrun⟩ := Code.bind_ok.mp hrun
  obtain ⟨⟨⟩, k₂, h₂, hrun⟩ := Code.bind_ok.mp hrun
  obtain ⟨⟨⟩, k₃, h₃, hrun⟩ := Code.bind_ok.mp hrun
  obtain ⟨⟨⟩, k₄, h₄, hrun⟩ := Code.bind_ok.mp hrun
  obtain ⟨⟨⟩, k₅, h₅, h₆⟩ := Code.bind_ok.mp hrun
  cases h₁
  have hreach : keyboard.Reachable (k, ⟨true, [⟨0x41, 0, false⟩]⟩) := by
    have hboot : keyboard.Reachable (boot, ⟨false, []⟩) := .init rfl
    have hshift : keyboard.Reachable (_, ⟨true, []⟩) := hboot.step (e := .irq 0x2a) ⟨rfl, by decide⟩
    have htyped : keyboard.Reachable (k₂, ⟨true, [⟨0x41, 0, false⟩]⟩) :=
      hshift.step (e := .irq 0x1e) ⟨h₂, rfl⟩
    have hchecked : keyboard.Reachable (k₃, ⟨true, [⟨0x41, 0, false⟩]⟩) :=
      htyped.step (e := .read) ⟨h₃, rfl⟩
    have hloaded : keyboard.Reachable (k₄, ⟨true, [⟨0x41, 0, false⟩]⟩) :=
      hchecked.step (e := .read) ⟨h₄, rfl⟩
    have hread : keyboard.Reachable (k₅, ⟨true, [⟨0x41, 0, false⟩]⟩) :=
      hloaded.step (e := .read) ⟨h₅, rfl⟩
    exact hread.step (e := .read) ⟨h₆, rfl⟩
  obtain ⟨horder, -, hpushes, -, -, hruns⟩ := keyboard_fifo hreach
  exact ⟨k, hreach, hret, horder, hpushes, hruns⟩

end Keyboard

end Aitos.Drivers
