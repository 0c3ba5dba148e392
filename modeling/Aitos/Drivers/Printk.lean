import Aitos.Drivers.Console
import Aitos.Framework.CString
import Aitos.Framework.Hoare
import Aitos.Framework.Numeral

/-!
# printk over memory

`printk` of `kernel/printk.c` as it walks the format in memory: the run keeps the characters
emitted, the addresses at which the format was read and the arguments not yet taken.  A run takes
its fuel from a counter, one unit for each round of the loop.  A run of a finished format emits what
the character lists of `Console` say; a run of an unfinished one reads on behind the NUL.
-/

namespace Aitos.Drivers.Printk

open Aitos.Framework

inductive Stop where
  | outOfBounds
  | badArg
  | outOfFuel

/-- An argument as it is passed: a string by its address. -/
inductive Arg where
  | str (p : Nat)
  | int (v : UInt32)
  | long (v : UInt64)

namespace Arg

def str? : Arg → Option Nat
  | str p => some p
  | _ => none

def int? : Arg → Option UInt32
  | int v => some v
  | _ => none

def long? : Arg → Option UInt64
  | long v => some v
  | _ => none

end Arg

structure Output where
  out : List UInt8
  reads : List Nat
  args : List Arg

abbrev PrintkM := Code Output Stop

section Code

variable (mem stack : Bytes)

def vaArg {α : Type} (type : Arg → Option α) : PrintkM α := do
  match (← get).args with
  | [] => throw .badArg
  | a :: args =>
      match type a with
      | none => throw .badArg
      | some v => do
          modify fun o => { o with args := args }
          return v

/-- Read the format. -/
def fetch (p : Nat) : PrintkM UInt8 := do
  modify fun o => { o with reads := p :: o.reads }
  return mem p

def emitChar (c : UInt8) : PrintkM Unit := modify fun o => { o with out := o.out ++ [c] }

def emitString : Nat → Nat → PrintkM Unit
  | 0, _ => throw .outOfFuel
  | n + 1, s =>
      if mem s = 0 then return
      else do
        emitChar (mem s)
        emitString n (s + 1)

/-- The digit loop, the next digit going below `i`. -/
def digitLoop : Nat → UInt64 → Bytes → PrintkM (Bytes × Nat)
  | i, value, buf =>
      if value = 0 then return (buf, i)
      else
        match i with
        | 0 => throw .outOfBounds
        | i + 1 =>
            digitLoop i (value / 10) (Function.update buf i (0x30 + value % 10).toUInt8)

/-- `stack` is what the buffer of 21 bytes holds before. -/
def emitDecimal (value : UInt64) : PrintkM Unit := do
  let buf := Function.update stack 20 0
  if value = 0 then emitChar 0x30
  else do
    let (buf, i) ← digitLoop 20 value buf
    emitString buf (21 - i) i

/-- `p[1] == 'l' && p[2] == 'u'`, with `next` for `p[1]`. -/
def isLongLong (p : Nat) (next : UInt8) : PrintkM Bool :=
  if next = 0x6c then (· == 0x75) <$> fetch mem (p + 2) else return false

/-- The case `l`, with `p` at the `l`. -/
def convertLong (p : Nat) : PrintkM Nat := do
  let next ← fetch mem (p + 1)
  if ← isLongLong mem p next then do
    emitDecimal stack (← vaArg Arg.long?)
    return p + 2
  else if next = 0x75 then do
    emitDecimal stack (← vaArg Arg.long?)
    return p + 1
  else do
    emitChar (mem p)
    return p

/-- The switch on the character behind a `%`, with `p` at that character. -/
def convert (fuel p : Nat) : PrintkM Nat := do
  let c ← fetch mem p
  if c = 0x73 then do
    emitString mem fuel (← vaArg Arg.str?)
    return p
  else if c = 0x64 then do
    emitDecimal stack (← vaArg Arg.int?).toInt32.toInt64.toUInt64
    return p
  else if c = 0x6c then convertLong mem stack p
  else if c = 0x63 then do
    emitChar (← vaArg Arg.int?).toUInt8
    return p
  else if c = 0x25 then do
    emitChar 0x25
    return p
  else do
    emitChar c
    return p

def printkLoop : Nat → Nat → PrintkM Unit
  | 0, _ => throw .outOfFuel
  | n + 1, p => do
      let c ← fetch mem p
      if c = 0 then return
      else if c ≠ 0x25 then do
        emitChar c
        printkLoop n (p + 1)
      else do
        let p ← convert mem stack n (p + 1)
        printkLoop n (p + 1)

def printk (fuel fmt : Nat) : PrintkM UInt32 := do
  printkLoop mem stack fuel fmt
  return 0

end Code

theorem digit_eq (value : UInt64) :
    (0x30 + (value % 10).toUInt8 : UInt8) = digitChar (value.toNat % 10) := by
  have hlt := Nat.mod_lt value.toNat (show 0 < 10 by omega)
  apply UInt8.toNat_inj.mp
  rw [digitChar, if_pos hlt]
  simp

private theorem decimalDigits_eq {room : Nat} {value : UInt64} (hvalue : value.toNat < 10 ^ room)
    (hne : value ≠ 0) (digits : List UInt8) :
    decimalDigits room value digits = asciiNumeral 10 value.toNat ++ digits := by
  induction room generalizing value digits with
  | zero =>
      have hzero : value.toNat = 0 := by omega
      exact absurd (UInt64.toNat_inj.mp hzero) hne
  | succ room ih =>
      have hdiv : (value / 10).toNat = value.toNat / 10 := by simp
      have hlt : (value / 10).toNat < 10 ^ room := by
        rw [hdiv]
        omega
      rw [decimalDigits, if_neg hne, digit_eq]
      by_cases hbig : value.toNat < 10
      · have hzero : value / 10 = 0 := by
          apply UInt64.toNat_inj.mp
          rw [hdiv, Nat.div_eq_of_lt hbig]
          rfl
        rw [hzero, asciiNumeral_of_lt hbig, Nat.mod_eq_of_lt hbig]
        cases room <;> rfl
      · have hne' : value / 10 ≠ 0 := by
          intro hzero
          rw [hzero] at hdiv
          have hle : 10 / 10 ≤ value.toNat / 10 := Nat.div_le_div_right (by omega)
          rw [← hdiv] at hle
          exact absurd hle (by decide)
        rw [ih hlt hne', hdiv, asciiNumeral_of_le (by omega) (by omega : 10 ≤ value.toNat),
          List.append_assoc, List.singleton_append]

theorem emitDecimal_eq (value : UInt64) :
    Drivers.emitDecimal value = asciiNumeral 10 value.toNat := by
  unfold Drivers.emitDecimal
  split
  · rename_i hzero
    rw [hzero]
    decide
  · rename_i hne
    have hlt := value.toNat_lt
    rw [decimalDigits_eq (by omega) hne, List.append_nil]

section Run

variable {mem stack : Bytes} {o : Output}

theorem vaArg_ok {α : Type} {type : Arg → Option α} {a : Arg} {args : List Arg} {v : α}
    (hargs : o.args = a :: args) (ha : type a = some v) :
    vaArg type o = .ok (v, { o with args := args }) := by
  rw [vaArg, Code.get_bind, hargs]
  dsimp only
  rw [ha]
  rfl

theorem fetch_bind {α : Type} {f : UInt8 → PrintkM α} (o : Output) (q : Nat) :
    (fetch mem q >>= f) o = f (mem q) { o with reads := q :: o.reads } := rfl

theorem map_fetch_bind {α β : Type} {g : UInt8 → β} {f : β → PrintkM α} (o : Output) (q : Nat) :
    ((g <$> fetch mem q) >>= f) o = f (g (mem q)) { o with reads := q :: o.reads } := rfl

private theorem emitString_ok {n s : Nat} {cs : List UInt8} (hs : StringAt mem s cs)
    (hn : cs.length < n) : emitString mem n s o = .ok ((), { o with out := o.out ++ cs }) := by
  induction cs generalizing n s o with
  | nil =>
      obtain ⟨n, rfl⟩ := Nat.exists_eq_succ_of_ne_zero (Nat.ne_of_gt hn)
      have hend : mem s = 0 := hs
      rw [emitString, if_pos hend, List.append_nil]
      rfl
  | cons c cs ih =>
      obtain ⟨n, rfl⟩ := Nat.exists_eq_succ_of_ne_zero (Nat.ne_of_gt (Nat.zero_lt_of_lt hn))
      obtain ⟨hc, hne, hcs⟩ := hs
      rw [List.length_cons] at hn
      rw [emitString, hc, if_neg hne, emitChar, Code.modify_bind, ih hcs (by omega)]
      simp only [List.append_assoc, List.singleton_append]

/-- The digits go below the ones in the buffer, none of them below its first byte. -/
private theorem digitLoop_ok {i : Nat} {value : UInt64} {buf : Bytes} {cs : List UInt8}
    (hvalue : value.toNat < 10 ^ i) (hbuf : StringAt buf i cs) :
    ∃ buf' j, digitLoop i value buf o = .ok ((buf', j), o) ∧
      StringAt buf' j (decimalDigits i value cs) ∧
      j + (decimalDigits i value cs).length = i + cs.length := by
  induction i generalizing value buf cs with
  | zero =>
      have hzero : value = 0 := UInt64.toNat_inj.mp (by simpa using hvalue)
      rw [hzero]
      exact ⟨buf, 0, rfl, hbuf, rfl⟩
  | succ i ih =>
      rw [digitLoop]
      by_cases hzero : value = 0
      · rw [decimalDigits, if_pos hzero, if_pos hzero]
        exact ⟨buf, i + 1, rfl, hbuf, rfl⟩
      · have hdigit : (0x30 + value % 10).toUInt8 = 0x30 + (value % 10).toUInt8 :=
          UInt64.toUInt8_add _ _
        have hne : (0x30 + (value % 10).toUInt8 : UInt8) ≠ 0 := by
          intro h
          have hle := le_digitChar (show value.toNat % 10 < 36 by omega)
          rw [← digit_eq, h] at hle
          exact absurd hle (by decide)
        have hdiv : (value / 10).toNat = value.toNat / 10 := by simp
        obtain ⟨buf', j, hrun, hstr, hlen⟩ :=
          @ih (value / 10) _ _ (by omega) (hbuf.push hne)
        rw [decimalDigits, if_neg hzero, if_neg hzero, hdigit]
        refine ⟨buf', j, hrun, hstr, ?_⟩
        rw [hlen, List.length_cons]
        omega

theorem emitDecimal_ok (value : UInt64) :
    emitDecimal stack value o = .ok ((), { o with out := o.out ++ Drivers.emitDecimal value }) := by
  unfold emitDecimal Drivers.emitDecimal
  by_cases hzero : value = 0
  · rw [if_pos hzero, if_pos hzero]
    rfl
  · have hlt := value.toNat_lt
    have hend : StringAt (Function.update stack 20 0) 20 [] := Function.update_self ..
    obtain ⟨buf', j, hrun, hstr, hlen⟩ := @digitLoop_ok o 20 value _ [] (by omega) hend
    rw [if_neg hzero, if_neg hzero, Code.bind_of_ok hrun]
    refine emitString_ok hstr ?_
    rw [List.length_nil] at hlen
    omega

theorem emitArg_ok {α : Type} {type : Arg → Option α} {f : α → UInt64} {a : Arg} {args : List Arg}
    {v : α} (q : Nat) (hargs : o.args = a :: args) (ha : type a = some v) :
    (do emitDecimal stack (f (← vaArg type)); return q : PrintkM Nat) o =
      .ok (q, { o with out := o.out ++ Drivers.emitDecimal (f v), args := args }) := by
  rw [Code.bind_of_ok (vaArg_ok hargs ha), Code.bind_of_ok (emitDecimal_ok _)]
  rfl

end Run

/-- An argument in memory and what it stands for. -/
def ArgAt (mem : Bytes) : Arg → PrintkArg → Prop
  | .str p, .str s => StringAt mem p s
  | .int v, .int w => v = w
  | .long v, .long w => v = w
  | _, _ => False

def ArgsAt (mem : Bytes) : List Arg → List PrintkArg → Prop := List.Forall₂ (ArgAt mem)

/-- Length of the string arguments. -/
def textLength (args : List PrintkArg) : Nat :=
  (args.map fun | .str s => s.length | _ => 0).sum

/-- The scan stands at `p` before the rest `fmt` of a format that lies between `lo` and `hi`, the
address of its NUL, and `args` are left. -/
structure Scanning (mem : Bytes) (lo hi : Nat) (o : Output) (p : Nat) (fmt : List UInt8)
    (args : List PrintkArg) : Prop where
  text : StringAt mem p fmt
  args : ArgsAt mem o.args args
  first : lo ≤ p
  last : p + fmt.length = hi
  reads : ∀ a ∈ o.reads, lo ≤ a ∧ a ≤ hi

namespace Scanning

variable {mem stack : Bytes} {lo hi p : Nat} {o : Output} {c : UInt8} {fmt : List UInt8}
  {args : List PrintkArg}

private theorem fetched (h : Scanning mem lo hi o p fmt args) {q : Nat} (hq : lo ≤ q)
    (hq' : q ≤ hi) : Scanning mem lo hi { o with reads := q :: o.reads } p fmt args := by
  refine ⟨h.text, h.args, h.first, h.last, fun a ha => ?_⟩
  rcases List.mem_cons.mp ha with rfl | ha
  · exact ⟨hq, hq'⟩
  · exact h.reads a ha

theorem next (h : Scanning mem lo hi o p (c :: fmt) args) :
    Scanning mem lo hi o (p + 1) fmt args := by
  have hlast := h.last
  have hfirst := h.first
  rw [List.length_cons] at hlast
  exact ⟨h.text.tail, h.args, by omega, by omega, h.reads⟩

theorem emit (h : Scanning mem lo hi o p fmt args) (cs : List UInt8) :
    Scanning mem lo hi { o with out := o.out ++ cs } p fmt args :=
  ⟨h.text, h.args, h.first, h.last, h.reads⟩

theorem take {arg : PrintkArg} (h : Scanning mem lo hi o p fmt (arg :: args)) :
    ∃ a rest, o.args = a :: rest ∧ ArgAt mem a arg ∧
      Scanning mem lo hi { o with args := rest } p fmt args := by
  have hargs := h.args
  cases ho : o.args with
  | nil =>
      rw [ho] at hargs
      cases hargs
  | cons a rest =>
      rw [ho] at hargs
      cases hargs with
      | cons ha hrest => exact ⟨a, rest, rfl, ha, h.text, hrest, h.first, h.last, h.reads⟩

private theorem take_str {s : List UInt8} (h : Scanning mem lo hi o p fmt (.str s :: args)) :
    ∃ q o', vaArg Arg.str? o = .ok (q, o') ∧ StringAt mem q s ∧ o'.out = o.out ∧
      Scanning mem lo hi o' p fmt args := by
  obtain ⟨a, rest, ho, ha, h'⟩ := h.take
  cases a with
  | str q => exact ⟨q, _, vaArg_ok ho rfl, ha, rfl, h'⟩
  | int v => cases ha
  | long v => cases ha

private theorem take_int {v : UInt32} (h : Scanning mem lo hi o p fmt (.int v :: args)) :
    ∃ o', vaArg Arg.int? o = .ok (v, o') ∧ o'.out = o.out ∧ Scanning mem lo hi o' p fmt args := by
  obtain ⟨a, rest, ho, ha, h'⟩ := h.take
  cases a with
  | str q => cases ha
  | int w =>
      cases ha
      exact ⟨_, vaArg_ok ho rfl, rfl, h'⟩
  | long w => cases ha

private theorem take_long {v : UInt64} (h : Scanning mem lo hi o p fmt (.long v :: args)) :
    ∃ o', vaArg Arg.long? o = .ok (v, o') ∧ o'.out = o.out ∧
      Scanning mem lo hi o' p fmt args := by
  obtain ⟨a, rest, ho, ha, h'⟩ := h.take
  cases a with
  | str q => cases ha
  | int w => cases ha
  | long w =>
      cases ha
      exact ⟨_, vaArg_ok ho rfl, rfl, h'⟩

private theorem convertLong_ok {cs fmt' : List UInt8} {args' : List PrintkArg}
    (h : Scanning mem lo hi o p (0x6c :: fmt) args)
    (hconv : Drivers.convert 0x6c fmt args = some (cs, fmt', args')) :
    ∃ q o', convertLong mem stack p o = .ok (q, o') ∧ o'.out = o.out ++ cs ∧
      Scanning mem lo hi o' (q + 1) fmt' args' := by
  have hlast := h.last
  have hfirst := h.first
  rw [List.length_cons] at hlast
  have hfmt := h.text.tail
  have hread := h.next.fetched (q := p + 1) (by omega) (by omega)
  change (if fmt.take 2 = [0x6c, 0x75] then Drivers.convertLong (fmt.drop 2) args
    else if fmt.take 1 = [0x75] then Drivers.convertLong (fmt.drop 1) args
    else some ([0x6c], fmt, args)) = _ at hconv
  rw [convertLong, fetch_bind]
  simp only [isLongLong]
  have hc := h.text.head
  -- the conversion ends at the `l`
  have hplain : ∀ o₁, o₁.out = o.out → Scanning mem lo hi o₁ (p + 1) fmt args →
      some ([0x6c], fmt, args) = some (cs, fmt', args') →
      ∃ q o', (do emitChar (mem p); return p : PrintkM Nat) o₁ = .ok (q, o') ∧
        o'.out = o.out ++ cs ∧ Scanning mem lo hi o' (q + 1) fmt' args' := by
    intro o₁ hout h₁ heq
    cases heq
    refine ⟨p, _, rfl, ?_, h₁.emit _⟩
    rw [← hout, hc]
  -- it goes on to the `u` at `q`
  have hlong : ∀ o₁ q rest, o₁.out = o.out → Scanning mem lo hi o₁ (q + 1) rest args →
      Drivers.convertLong rest args = some (cs, fmt', args') →
      ∃ q' o', (do emitDecimal stack (← vaArg Arg.long?); return q : PrintkM Nat) o₁ =
          .ok (q', o') ∧
        o'.out = o.out ++ cs ∧ Scanning mem lo hi o' (q' + 1) fmt' args' := by
    intro o₁ q rest hout h₁ heq
    cases args with
    | nil => cases heq
    | cons arg args =>
        cases arg with
        | long v =>
            cases heq
            obtain ⟨o₂, hrun, hout₂, h₂⟩ := h₁.take_long
            rw [Code.bind_of_ok hrun, Code.bind_of_ok (emitDecimal_ok v)]
            refine ⟨q, _, rfl, ?_, h₂.emit _⟩
            rw [← hout, ← hout₂]
        | _ => cases heq
  cases fmt with
  | nil =>
      have hend : mem (p + 1) = 0 := hfmt
      rw [hend]
      exact hplain _ rfl hread hconv
  | cons d fmt =>
      rw [hfmt.head]
      rw [List.length_cons] at hlast
      by_cases hd : d = 0x6c
      · subst hd
        have hread' := hread.fetched (q := p + 2) (by omega) (by omega)
        rw [if_pos rfl, map_fetch_bind]
        cases fmt with
        | nil =>
            have hend : mem (p + 2) = 0 := hfmt.tail
            rw [hend]
            exact hplain _ rfl hread' hconv
        | cons e fmt =>
            rw [hfmt.tail.head]
            by_cases he : e = 0x75
            · subst he
              exact hlong _ (p + 2) fmt rfl hread'.next.next hconv
            · have hbeq : (e == 0x75) = false := beq_eq_false_iff_ne.mpr he
              have hlist : ¬ [0x6c, e] = ([0x6c, 0x75] : List UInt8) := by simpa using he
              rw [hbeq]
              change (if [0x6c, e] = ([0x6c, 0x75] : List UInt8) then _ else _) = _ at hconv
              rw [if_neg hlist] at hconv
              exact hplain _ rfl hread' hconv
      · rw [if_neg hd, pure_bind]
        have hlist : ¬ (d :: fmt).take 2 = ([0x6c, 0x75] : List UInt8) := by
          intro h
          exact hd (List.cons.inj h).1
        rw [if_neg hlist] at hconv
        by_cases hu : d = 0x75
        · subst hu
          exact hlong _ (p + 1) fmt rfl hread.next hconv
        · have hlist' : ¬ (d :: fmt).take 1 = ([0x75] : List UInt8) := by simpa using hu
          rw [if_neg hlist'] at hconv
          rw [if_neg hu]
          exact hplain _ rfl hread hconv

private theorem convert_ok (stack : Bytes) {cs fmt' : List UInt8} {args' : List PrintkArg} {n : Nat}
    (h : Scanning mem lo hi o p (c :: fmt) args) (hn : textLength args < n)
    (hconv : Drivers.convert c fmt args = some (cs, fmt', args')) :
    ∃ q o', convert mem stack n p o = .ok (q, o') ∧ o'.out = o.out ++ cs ∧
      Scanning mem lo hi o' (q + 1) fmt' args' := by
  have hlast := h.last
  rw [List.length_cons] at hlast
  have hfetch := h.fetched h.first (q := p) (by omega)
  rw [convert, fetch_bind, h.text.head]
  by_cases hs : c = 0x73
  · subst hs
    cases args with
    | nil => cases hconv
    | cons arg args =>
        cases arg with
        | str s =>
            cases hconv
            obtain ⟨q, o', hrun, hstr, hout, h'⟩ := hfetch.take_str
            have hlen : cs.length < n := by
              simp only [textLength, List.map_cons, List.sum_cons] at hn
              omega
            rw [if_pos rfl, Code.bind_of_ok hrun, Code.bind_of_ok (emitString_ok hstr hlen)]
            refine ⟨p, _, rfl, ?_, h'.next.emit _⟩
            rw [hout]
        | _ => cases hconv
  by_cases hd : c = 0x64
  · subst hd
    cases args with
    | nil => cases hconv
    | cons arg args =>
        cases arg with
        | int v =>
            cases hconv
            obtain ⟨o', hrun, hout, h'⟩ := hfetch.take_int
            rw [if_neg hs, if_pos rfl, Code.bind_of_ok hrun, Code.bind_of_ok (emitDecimal_ok _)]
            refine ⟨p, _, rfl, ?_, h'.next.emit _⟩
            rw [hout]
        | _ => cases hconv
  rw [if_neg hs, if_neg hd]
  by_cases hl : c = 0x6c
  · subst hl
    rw [if_pos rfl]
    exact hfetch.convertLong_ok hconv
  by_cases hchar : c = 0x63
  · subst hchar
    cases args with
    | nil => cases hconv
    | cons arg args =>
        cases arg with
        | int v =>
            cases hconv
            obtain ⟨o', hrun, hout, h'⟩ := hfetch.take_int
            rw [if_neg hl, if_pos rfl, Code.bind_of_ok hrun]
            refine ⟨p, _, rfl, ?_, h'.next.emit _⟩
            change o'.out ++ _ = _
            rw [hout]
        | _ => cases hconv
  unfold Drivers.convert at hconv
  rw [if_neg hs, if_neg hd, if_neg hl, if_neg hchar] at hconv
  rw [if_neg hl, if_neg hchar]
  cases hconv
  split
  · rename_i hp
    rw [hp]
    exact ⟨p, _, rfl, rfl, hfetch.next.emit _⟩
  · exact ⟨p, _, rfl, rfl, hfetch.next.emit _⟩

private theorem printkLoop_nil {n : Nat} (h : Scanning mem lo hi o p [] args) (hn : 0 < n) :
    ∃ o', printkLoop mem stack n p o = .ok ((), o') ∧ o'.out = o.out ++ [] ∧
      ∀ a ∈ o'.reads, lo ≤ a ∧ a ≤ hi := by
  obtain ⟨n, rfl⟩ := Nat.exists_eq_succ_of_ne_zero (Nat.ne_of_gt hn)
  have hlast := h.last
  have hend : mem p = 0 := h.text
  rw [printkLoop, fetch_bind, hend, List.append_nil]
  exact ⟨_, rfl, rfl, (h.fetched h.first (q := p) (by omega)).reads⟩

end Scanning

private theorem textLength_cons (arg : PrintkArg) (args : List PrintkArg) :
    textLength args ≤ textLength (arg :: args) := by
  simp only [textLength, List.map_cons, List.sum_cons]
  omega

private theorem convert_shrinks {c : UInt8} {fmt cs fmt' : List UInt8} {args args' : List PrintkArg}
    (h : Drivers.convert c fmt args = some (cs, fmt', args')) :
    fmt'.length ≤ fmt.length ∧ textLength args' ≤ textLength args := by
  have hlong : ∀ k, Drivers.convertLong (fmt.drop k) args = some (cs, fmt', args') →
      fmt'.length ≤ fmt.length ∧ textLength args' ≤ textLength args := by
    intro k heq
    cases args with
    | nil => cases heq
    | cons arg args =>
        cases arg with
        | long v =>
            cases heq
            rw [List.length_drop]
            exact ⟨by omega, textLength_cons _ _⟩
        | _ => cases heq
  unfold Drivers.convert at h
  split_ifs at h
  · cases args with
    | nil => cases h
    | cons arg args =>
        cases arg with
        | str s =>
            cases h
            exact ⟨le_rfl, textLength_cons _ _⟩
        | _ => cases h
  · cases args with
    | nil => cases h
    | cons arg args =>
        cases arg with
        | int v =>
            cases h
            exact ⟨le_rfl, textLength_cons _ _⟩
        | _ => cases h
  · exact hlong 2 h
  · exact hlong 1 h
  · cases h
    exact ⟨le_rfl, le_rfl⟩
  · cases args with
    | nil => cases h
    | cons arg args =>
        cases arg with
        | int v =>
            cases h
            exact ⟨le_rfl, textLength_cons _ _⟩
        | _ => cases h
  · cases h
    exact ⟨le_rfl, le_rfl⟩

section Loop

variable {c conv : UInt8} {fmt fmt' cs : List UInt8} {args args' : List PrintkArg} {k : Nat}

theorem printkLoop_literal (hc : c ≠ 0x25) :
    Drivers.printkLoop (k + 1) (c :: fmt) args = (c :: ·) <$> Drivers.printkLoop k fmt args := by
  rw [Drivers.printkLoop.eq_def]
  exact if_pos hc

theorem printkLoop_conversion (h : Drivers.convert conv fmt args = some (cs, fmt', args')) :
    Drivers.printkLoop (k + 1) (0x25 :: conv :: fmt) args =
      (cs ++ ·) <$> Drivers.printkLoop k fmt' args' := by
  rw [Drivers.printkLoop, if_neg (by decide), h]

private theorem convert_of_printkLoop
    (h : Drivers.printkLoop (k + 1) (0x25 :: conv :: fmt) args = some cs) :
    ∃ out, Drivers.convert conv fmt args = some out := by
  cases hconv : Drivers.convert conv fmt args with
  | some out => exact ⟨out, rfl⟩
  | none =>
      rw [Drivers.printkLoop, if_neg (by decide), hconv] at h
      cases h

end Loop

/-- The scan emits what the format stands for and reads nothing outside the format. -/
theorem Scanning.printkLoop_ok {mem : Bytes} (stack : Bytes) {lo hi p : Nat} {o : Output}
    {k n : Nat} {fmt cs : List UInt8} {args : List PrintkArg} (h : Scanning mem lo hi o p fmt args)
    (hcs : Drivers.printkLoop k fmt args = some cs) (hn : fmt.length + textLength args < n) :
    ∃ o', printkLoop mem stack n p o = .ok ((), o') ∧ o'.out = o.out ++ cs ∧
      ∀ a ∈ o'.reads, lo ≤ a ∧ a ≤ hi := by
  induction k generalizing p o n fmt cs args with
  | zero =>
      cases fmt with
      | nil =>
          cases hcs
          exact h.printkLoop_nil (Nat.zero_lt_of_lt hn)
      | cons c fmt => cases hcs
  | succ k ih =>
      cases fmt with
      | nil =>
          cases hcs
          exact h.printkLoop_nil (Nat.zero_lt_of_lt hn)
      | cons c fmt =>
          obtain ⟨n, rfl⟩ := Nat.exists_eq_succ_of_ne_zero (Nat.ne_of_gt (Nat.zero_lt_of_lt hn))
          have hlast := h.last
          rw [List.length_cons] at hn hlast
          have hfetch := h.fetched h.first (q := p) (by omega)
          rw [printkLoop, fetch_bind, h.text.head, if_neg h.text.2.1]
          by_cases hc : c = 0x25
          · subst hc
            cases fmt with
            | nil => cases hcs
            | cons conv fmt =>
                obtain ⟨⟨cs₁, fmt', args'⟩, hconv⟩ := convert_of_printkLoop hcs
                rw [printkLoop_conversion hconv] at hcs
                obtain ⟨cs₂, hrest, rfl⟩ := Option.map_eq_some_iff.mp hcs
                obtain ⟨hfmt, hargs⟩ := convert_shrinks hconv
                rw [List.length_cons] at hn
                obtain ⟨q, o₁, hrun, hout, h₁⟩ :=
                  hfetch.next.convert_ok stack (n := n) (by omega) hconv
                obtain ⟨o', hrun', hout', hreads⟩ := ih h₁ hrest (n := n) (by omega)
                rw [if_neg (by decide), Code.bind_of_ok hrun, hrun']
                refine ⟨o', rfl, ?_, hreads⟩
                rw [hout', hout, List.append_assoc]
          · rw [printkLoop_literal hc] at hcs
            obtain ⟨cs₂, hrest, rfl⟩ := Option.map_eq_some_iff.mp hcs
            obtain ⟨o', hrun', hout', hreads⟩ := ih (hfetch.next.emit [c]) hrest (n := n) (by omega)
            rw [if_pos hc, emitChar, Code.modify_bind, hrun']
            refine ⟨o', rfl, ?_, hreads⟩
            rw [hout', List.append_assoc, List.singleton_append]

/-- Reading is logged for good. -/
def KeepsReads (o o' : Output) : Prop := o.reads ⊆ o'.reads

instance : IsPreorder Output KeepsReads where
  refl _ := List.Subset.refl _
  trans _ _ _ h h' := List.Subset.trans h h'

section Reads

variable {mem stack : Bytes}

private theorem keepsReads_modify {f : Output → Output} (h : ∀ o, o.reads ⊆ (f o).reads) :
    Keeps KeepsReads (modify f : PrintkM Unit) := Keeps.modify h

private theorem keepsReads_vaArg {α : Type} (type : Arg → Option α) :
    Keeps KeepsReads (vaArg type) := by
  refine Keeps.get.bind fun o => ?_
  cases o.args with
  | nil => exact Keeps.throw
  | cons a args =>
      dsimp only
      cases type a with
      | none => exact Keeps.throw
      | some v =>
          refine Keeps.bind (keepsReads_modify ?_) fun _ => Keeps.pure
          exact fun o => List.Subset.refl o.reads

private theorem keepsReads_fetch (p : Nat) : Keeps KeepsReads (fetch mem p) :=
  (keepsReads_modify fun o => List.subset_cons_self p o.reads).bind fun _ => Keeps.pure

private theorem keepsReads_emitChar (c : UInt8) : Keeps KeepsReads (emitChar c) :=
  keepsReads_modify fun o => List.Subset.refl o.reads

private theorem keepsReads_emitString (n s : Nat) : Keeps KeepsReads (emitString mem n s) := by
  induction n generalizing s with
  | zero => exact Keeps.throw
  | succ n ih =>
      exact Keeps.ite Keeps.pure ((keepsReads_emitChar _).bind fun _ => ih _)

private theorem keepsReads_digitLoop (i : Nat) (value : UInt64) (buf : Bytes) :
    Keeps KeepsReads (digitLoop i value buf) := by
  induction i generalizing value buf with
  | zero => exact Keeps.ite Keeps.pure Keeps.throw
  | succ i ih => exact Keeps.ite Keeps.pure (ih _ _)

private theorem keepsReads_emitDecimal (value : UInt64) :
    Keeps KeepsReads (emitDecimal stack value) :=
  Keeps.ite (keepsReads_emitChar _)
    ((keepsReads_digitLoop _ _ _).bind fun _ => keepsReads_emitString _ _)

private theorem keepsReads_convertLong (p : Nat) : Keeps KeepsReads (convertLong mem stack p) := by
  have hlong : ∀ q, Keeps KeepsReads
      (do emitDecimal stack (← vaArg Arg.long?); return q : PrintkM Nat) := fun q =>
    (keepsReads_vaArg _).bind fun _ => (keepsReads_emitDecimal _).bind fun _ => Keeps.pure
  refine (keepsReads_fetch _).bind fun next => Keeps.bind ?_ fun long => ?_
  · rw [isLongLong, map_eq_pure_bind]
    exact Keeps.ite ((keepsReads_fetch _).bind fun _ => Keeps.pure) Keeps.pure
  · exact Keeps.ite (hlong _)
      (Keeps.ite (hlong _) ((keepsReads_emitChar _).bind fun _ => Keeps.pure))

private theorem keepsReads_convert (n p : Nat) : Keeps KeepsReads (convert mem stack n p) := by
  have hchar : ∀ c, Keeps KeepsReads (do emitChar c; return p : PrintkM Nat) := fun c =>
    (keepsReads_emitChar c).bind fun _ => Keeps.pure
  refine (keepsReads_fetch _).bind fun c => ?_
  refine Keeps.ite ((keepsReads_vaArg _).bind fun _ =>
    (keepsReads_emitString _ _).bind fun _ => Keeps.pure) ?_
  refine Keeps.ite ((keepsReads_vaArg _).bind fun _ =>
    (keepsReads_emitDecimal _).bind fun _ => Keeps.pure) ?_
  refine Keeps.ite (keepsReads_convertLong _) ?_
  exact Keeps.ite ((keepsReads_vaArg _).bind fun _ => hchar _) (Keeps.ite (hchar _) (hchar _))

private theorem keepsReads_printkLoop (n p : Nat) :
    Keeps KeepsReads (printkLoop mem stack n p) := by
  induction n generalizing p with
  | zero => exact Keeps.throw
  | succ n ih =>
      refine (keepsReads_fetch _).bind fun c => Keeps.ite Keeps.pure ?_
      exact Keeps.ite ((keepsReads_emitChar _).bind fun _ => ih _)
        ((keepsReads_convert _ _).bind fun _ => ih _)

private theorem convertLong_next {p q : Nat} {o o' : Output}
    (h : convertLong mem stack p o = .ok (q, o')) :
    q = p ∨ q = p + 1 ∧ mem (p + 1) = 0x75 ∨ q = p + 2 ∧ mem (p + 1) = 0x6c ∧ mem (p + 2) = 0x75 := by
  rw [convertLong, fetch_bind] at h
  obtain ⟨long, o₁, hlong, h⟩ := Code.bind_ok.mp h
  split_ifs at h with h₁ h₂
  · obtain ⟨v, o₂, -, h⟩ := Code.bind_ok.mp h
    obtain ⟨-, o₃, -, h⟩ := Code.bind_ok.mp h
    refine .inr (.inr ⟨(Code.pure_ok.mp h).1, ?_⟩)
    unfold isLongLong at hlong
    split_ifs at hlong with hl
    · obtain ⟨c, hc, hu⟩ := Code.map_ok.mp hlong
      cases hc
      rw [h₁] at hu
      exact ⟨hl, by simpa using hu⟩
    · cases hlong
      cases h₁
  · obtain ⟨v, o₂, -, h⟩ := Code.bind_ok.mp h
    obtain ⟨-, o₃, -, h⟩ := Code.bind_ok.mp h
    exact .inr (.inl ⟨(Code.pure_ok.mp h).1, h₂⟩)
  · obtain ⟨-, o₃, -, h⟩ := Code.bind_ok.mp h
    exact .inl (Code.pure_ok.mp h).1

private theorem mem_reads_of_printkLoop {n p : Nat} {o o' : Output} {u : Unit}
    (h : printkLoop mem stack n p o = .ok (u, o')) : p ∈ o'.reads := by
  cases n with
  | zero => cases h
  | succ n =>
      obtain ⟨c, o₁, hfetch, h⟩ := Code.bind_ok.mp h
      cases hfetch
      have hrest : Keeps KeepsReads
          (if mem p = 0 then return
            else if mem p ≠ 0x25 then do
              emitChar (mem p)
              printkLoop mem stack n (p + 1)
            else do
              let p ← convert mem stack n (p + 1)
              printkLoop mem stack n (p + 1) : PrintkM Unit) :=
        Keeps.ite Keeps.pure (Keeps.ite
          ((keepsReads_emitChar _).bind fun _ => keepsReads_printkLoop _ _)
          ((keepsReads_convert _ _).bind fun _ => keepsReads_printkLoop _ _))
      exact hrest _ _ _ h List.mem_cons_self

private theorem convert_next {n p q : Nat} {o o' : Output}
    (h : convert mem stack n p o = .ok (q, o')) :
    q = p ∨ q = p + 1 ∧ mem (p + 1) = 0x75 ∨ q = p + 2 ∧ mem (p + 1) = 0x6c ∧ mem (p + 2) = 0x75 := by
  obtain ⟨c, o₁, -, h⟩ := Code.bind_ok.mp h
  split_ifs at h
  · obtain ⟨s, o₂, -, h⟩ := Code.bind_ok.mp h
    obtain ⟨-, o₃, -, h⟩ := Code.bind_ok.mp h
    exact .inl (Code.pure_ok.mp h).1
  · obtain ⟨s, o₂, -, h⟩ := Code.bind_ok.mp h
    obtain ⟨-, o₃, -, h⟩ := Code.bind_ok.mp h
    exact .inl (Code.pure_ok.mp h).1
  · exact convertLong_next h
  · obtain ⟨s, o₂, -, h⟩ := Code.bind_ok.mp h
    obtain ⟨-, o₃, -, h⟩ := Code.bind_ok.mp h
    exact .inl (Code.pure_ok.mp h).1
  · obtain ⟨-, o₃, -, h⟩ := Code.bind_ok.mp h
    exact .inl (Code.pure_ok.mp h).1
  · obtain ⟨-, o₃, -, h⟩ := Code.bind_ok.mp h
    exact .inl (Code.pure_ok.mp h).1

end Reads

/-- The format ends in a `%` that begins a directive. -/
def Unfinished : List UInt8 → Prop
  | [] => False
  | c :: fmt =>
      if c = 0x25 then
        match fmt with
        | [] => True
        | _ :: fmt => Unfinished fmt
      else Unfinished fmt

theorem unfinished_literal {c : UInt8} (hc : c ≠ 0x25) (fmt : List UInt8) :
    Unfinished (c :: fmt) ↔ Unfinished fmt := by
  rw [Unfinished.eq_def]
  dsimp only
  rw [if_neg hc]

theorem unfinished_conversion (conv : UInt8) (fmt : List UInt8) :
    Unfinished (0x25 :: conv :: fmt) ↔ Unfinished fmt := by
  rw [Unfinished.eq_def]
  dsimp only
  rw [if_pos rfl]

section PastTheEnd

variable {mem stack : Bytes}

/-- What a conversion leaves of the format is as unfinished as what it found. -/
private theorem rest_of_convert {n p q : Nat} {o o' : Output} {fmt : List UInt8}
    (hfmt : StringAt mem (p + 1) fmt) (h : convert mem stack n p o = .ok (q, o')) :
    ∃ rest, StringAt mem (q + 1) rest ∧ q + rest.length = p + fmt.length ∧
      (Unfinished rest ↔ Unfinished fmt) := by
  rcases convert_next h with rfl | ⟨rfl, hu⟩ | ⟨rfl, hl, hu⟩
  · exact ⟨fmt, hfmt, rfl, Iff.rfl⟩
  · cases fmt with
    | nil =>
        have hend : mem (p + 1) = 0 := hfmt
        rw [hend] at hu
        cases hu
    | cons c fmt =>
        have hc := hfmt.head
        rw [hu] at hc
        refine ⟨fmt, hfmt.tail, ?_, (unfinished_literal (hc ▸ by decide) fmt).symm⟩
        rw [List.length_cons]
        omega
  · cases fmt with
    | nil =>
        have hend : mem (p + 1) = 0 := hfmt
        rw [hend] at hl
        cases hl
    | cons c fmt =>
        have hc := hfmt.head
        rw [hl] at hc
        cases fmt with
        | nil =>
            have hend : mem (p + 2) = 0 := hfmt.tail
            rw [hend] at hu
            cases hu
        | cons d fmt =>
            have hd := hfmt.tail.head
            rw [hu] at hd
            refine ⟨fmt, hfmt.tail.tail, ?_, ?_⟩
            · rw [List.length_cons, List.length_cons]
              omega
            · rw [unfinished_literal (hc ▸ by decide), unfinished_literal (hd ▸ by decide)]

/-- The scan of an unfinished format goes on behind its NUL. -/
theorem reads_past_end {n p : Nat} {o o' : Output} {u : Unit} {fmt : List UInt8}
    (hfmt : StringAt mem p fmt) (hun : Unfinished fmt)
    (h : printkLoop mem stack n p o = .ok (u, o')) : p + fmt.length + 1 ∈ o'.reads := by
  induction n generalizing p o fmt with
  | zero => cases h
  | succ n ih =>
      rw [printkLoop, fetch_bind] at h
      cases fmt with
      | nil => exact hun.elim
      | cons c fmt =>
          rw [hfmt.head, if_neg hfmt.2.1] at h
          rw [List.length_cons]
          by_cases hc : c = 0x25
          · subst hc
            rw [if_neg (by decide)] at h
            obtain ⟨q, o₁, hconv, h⟩ := Code.bind_ok.mp h
            cases fmt with
            | nil =>
                have hend : mem (p + 1) = 0 := hfmt.tail
                rw [convert, fetch_bind, hend] at hconv
                cases hconv
                exact mem_reads_of_printkLoop h
            | cons conv fmt =>
                rw [unfinished_conversion] at hun
                obtain ⟨rest, hrest, hlen, hiff⟩ := rest_of_convert hfmt.tail.tail hconv
                have hmem := ih hrest (hiff.mpr hun) h
                rw [List.length_cons]
                have heq : q + 1 + rest.length + 1 = p + (fmt.length + 1 + 1) + 1 := by omega
                rwa [heq] at hmem
          · rw [unfinished_literal hc] at hun
            rw [if_pos hc, emitChar, Code.modify_bind] at h
            have hmem := ih hfmt.tail hun h
            have heq : p + 1 + fmt.length + 1 = p + (fmt.length + 1) + 1 := by omega
            rwa [heq] at hmem

end PastTheEnd

end Aitos.Drivers.Printk
