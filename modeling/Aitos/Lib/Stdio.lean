import Aitos.Framework.CString
import Aitos.Framework.Hoare
import Aitos.Framework.Numeral
import Aitos.Framework.Word

/-!
# vsprintf

`itoa` and `vsprintf` of `lib/stdio.c`.  The format and the string arguments are read from `mem`;
the destination buffer is apart from them and `bufPtr` counts from its start.  The arguments are
the words above the format on the stack, from which `va_arg` takes one after the other.
-/

namespace Aitos.Lib.Stdio

open Aitos.Framework

inductive Stop where
  | outOfFuel
  | noArg
  | divideError

structure Output where
  buf : Bytes
  bufPtr : Nat
  args : List UInt32

abbrev StdioM := Code Output Stop

section Code

variable (mem : Bytes)

def vaArg : StdioM UInt32 := do
  match (← get).args with
  | [] => throw .noArg
  | v :: args => do
      modify fun o => { o with args := args }
      return v

/-- `*(buf_ptr++) = c` -/
def Output.put (o : Output) (c : UInt8) : Output :=
  { o with buf := Function.update o.buf o.bufPtr c, bufPtr := o.bufPtr + 1 }

def putChar (c : UInt8) : StdioM Unit := modify fun o => o.put c

/-- Calls nest at most `depth` deep. -/
def itoa (base : UInt8) : Nat → UInt32 → StdioM Unit
  | 0, _ => throw .outOfFuel
  | depth + 1, value => do
      if base = 0 then throw .divideError
      let m := value % base.toUInt32
      let i := value / base.toUInt32
      if i ≠ 0 then itoa base depth i
      if m < 10 then putChar (m + 0x30).toUInt8 else putChar (m - 10 + 0x41).toUInt8

def strcpy : Nat → Nat → Nat → StdioM Unit
  | 0, _, _ => throw .outOfFuel
  | n + 1, dst, src => do
      modify fun o => { o with buf := Function.update o.buf dst (mem src) }
      if mem src = 0 then return else strcpy n (dst + 1) (src + 1)

def strlen (b : Bytes) : Nat → Nat → StdioM Nat
  | 0, _ => throw .outOfFuel
  | n + 1, p => if b p = 0 then return 0 else (· + 1) <$> strlen b n (p + 1)

/-- The case of `%d`: a word of 32 bits has at most 32 digits. -/
def convertInt : StdioM Unit := do
  let argInt ← vaArg
  if argInt.toInt32 < 0 then do
    putChar 0x2d
    itoa 10 32 (0 - argInt)
  else itoa 10 32 argInt

/-- The switch on the character behind a `%`, with `p` at that character: where `index_ptr` stands
afterwards. -/
def convert (fuel p : Nat) : StdioM Nat := do
  let c := mem p
  if c = 0x73 then do
    let argStr ← vaArg
    strcpy mem fuel (← get).bufPtr argStr.toNat
    let len ← strlen mem fuel argStr.toNat
    modify fun o => { o with bufPtr := o.bufPtr + len }
    return p + 1
  else if c = 0x63 then do
    putChar (← vaArg).toUInt8
    return p + 1
  else if c = 0x64 then do
    convertInt
    return p + 1
  else if c = 0x78 then do
    itoa 16 32 (← vaArg)
    return p + 1
  else return p

def formatLoop : Nat → Nat → StdioM Unit
  | 0, _ => throw .outOfFuel
  | n + 1, p =>
      if mem p = 0 then return
      else if mem p ≠ 0x25 then do
        putChar (mem p)
        formatLoop n (p + 1)
      else do
        let p ← convert mem n (p + 1)
        formatLoop n p

def vsprintf (fuel format : Nat) : StdioM UInt32 := do
  formatLoop mem fuel format
  return UInt32.ofNat (← strlen (← get).buf fuel 0)

end Code

namespace Output

def write (o : Output) (cs : List UInt8) : Output := cs.foldl put o

/-- A NUL behind what is written. -/
def terminate (o : Output) : Output := { o with buf := Function.update o.buf o.bufPtr 0 }

variable {o : Output} {c : UInt8} {cs ds : List UInt8}

@[simp] theorem put_bufPtr : (o.put c).bufPtr = o.bufPtr + 1 := rfl

@[simp] theorem terminate_bufPtr : o.terminate.bufPtr = o.bufPtr := rfl

@[simp] theorem write_nil : o.write [] = o := rfl

@[simp] theorem write_cons : o.write (c :: cs) = (o.put c).write cs := rfl

private theorem write_append : o.write (cs ++ ds) = (o.write cs).write ds := List.foldl_append ..

private theorem write_singleton : o.write [c] = o.put c := rfl

@[simp] theorem write_bufPtr : (o.write cs).bufPtr = o.bufPtr + cs.length := by
  induction cs generalizing o with
  | nil => rfl
  | cons c cs ih =>
      rw [write_cons, ih, put_bufPtr, List.length_cons]
      omega

@[simp] theorem write_args : (o.write cs).args = o.args := by
  induction cs generalizing o with
  | nil => rfl
  | cons c cs ih =>
      rw [write_cons, ih]
      rfl

private theorem write_buf_of_outside {i : Nat} (hi : i < o.bufPtr ∨ o.bufPtr + cs.length ≤ i) :
    (o.write cs).buf i = o.buf i := by
  induction cs generalizing o with
  | nil => rfl
  | cons c cs ih =>
      rw [List.length_cons] at hi
      have hi' : i < (o.put c).bufPtr ∨ (o.put c).bufPtr + cs.length ≤ i := by
        rw [put_bufPtr]
        omega
      rw [write_cons, ih hi']
      exact Function.update_of_ne (by omega) _ _

private theorem write_buf_of_lt {i : Nat} (hi : i < cs.length) :
    (o.write cs).buf (o.bufPtr + i) = cs.getD i 0 := by
  induction cs generalizing o i with
  | nil => exact absurd hi (Nat.not_lt_zero i)
  | cons c cs ih =>
      rw [write_cons]
      cases i with
      | zero =>
          rw [write_buf_of_outside (.inl (Nat.lt_succ_self _))]
          exact Function.update_self ..
      | succ i =>
          have hpos : o.bufPtr + (i + 1) = (o.put c).bufPtr + i := by
            rw [put_bufPtr]
            omega
          rw [hpos, ih (Nat.lt_of_succ_lt_succ hi)]
          rfl

private theorem terminate_put : o.terminate.put c = o.put c := by
  simp only [put, terminate, Function.update_idem]

private theorem terminate_write (hcs : cs ≠ []) : o.terminate.write cs = o.write cs := by
  cases cs with
  | nil => exact absurd rfl hcs
  | cons c cs => rw [write_cons, write_cons, terminate_put]

private theorem terminate_write_terminate : (o.terminate.write cs).terminate =
    (o.write cs).terminate := by
  cases cs with
  | nil => simp only [write_nil, terminate, Function.update_idem]
  | cons c cs => rw [terminate_write (List.cons_ne_nil c cs)]

/-- The same buffer and pointer. -/
def Same (o o' : Output) : Prop := o.buf = o'.buf ∧ o.bufPtr = o'.bufPtr

variable {o' : Output}

private theorem same_setArgs (args : List UInt32) : Same { o with args := args } o := ⟨rfl, rfl⟩

theorem Same.write (h : Same o o') (cs : List UInt8) : Same (o.write cs) (o'.write cs) := by
  induction cs generalizing o o' with
  | nil => exact h
  | cons c cs ih =>
      refine ih ⟨?_, ?_⟩
      · rw [put, put, h.1, h.2]
      · rw [put_bufPtr, put_bufPtr, h.2]

private theorem Same.terminate (h : Same o o') : Same o.terminate o'.terminate := by
  refine ⟨?_, h.2⟩
  rw [Output.terminate, Output.terminate, h.1, h.2]

theorem Same.trans {o'' : Output} (h : Same o o') (h' : Same o' o'') : Same o o'' :=
  ⟨h.1.trans h'.1, h.2.trans h'.2⟩

end Output

section Run

variable {mem : Bytes} {o : Output}

theorem vaArg_ok {v : UInt32} {args : List UInt32} (hargs : o.args = v :: args) :
    vaArg o = .ok (v, { o with args := args }) := by
  rw [vaArg, Code.get_bind, hargs]
  rfl

theorem digit_eq (m : UInt32) :
    (if m < 10 then (m + 0x30).toUInt8 else (m - 10 + 0x41).toUInt8) = digitChar m.toNat := by
  apply UInt8.toNat_inj.mp
  rw [digitChar, UInt8.toNat_ofNat']
  by_cases h : m < 10
  · have hlt : m.toNat < 10 := UInt32.lt_iff_toNat_lt.mp h
    rw [if_pos h, if_pos hlt]
    simp
    omega
  · have hge : ¬ m.toNat < 10 := fun hlt => h (UInt32.lt_iff_toNat_lt.mpr hlt)
    have hle : (10 : UInt32) ≤ m := UInt32.le_iff_toNat_le.mpr (Nat.not_lt.mp hge)
    rw [if_neg h, if_neg hge]
    rw [UInt32.toNat_toUInt8, UInt32.toNat_add, UInt32.toNat_sub_of_le _ _ hle]
    change (m.toNat - 10 + 65) % 2 ^ 32 % 2 ^ 8 = (65 + (m.toNat - 10)) % 2 ^ 8
    omega

private theorem itoa_ok (base : UInt8) (depth : Nat) (value : UInt32) (hb : 1 < base.toNat)
    (hvalue : value.toNat < base.toNat ^ depth) (hdepth : 0 < depth) :
    itoa base depth value o = .ok ((), o.write (asciiNumeral base.toNat value.toNat)) := by
  induction depth generalizing value o with
  | zero => exact absurd hdepth (Nat.lt_irrefl 0)
  | succ depth ih =>
      have hbase : base ≠ 0 := by
        intro h
        rw [h] at hb
        exact absurd hb (by decide)
      have hdiv : (value / base.toUInt32).toNat = value.toNat / base.toNat := by simp
      have hmod : (value % base.toUInt32).toNat = value.toNat % base.toNat := by simp
      have hlast : ∀ o : Output, (if value % base.toUInt32 < 10 then
          putChar (value % base.toUInt32 + 0x30).toUInt8
          else putChar (value % base.toUInt32 - 10 + 0x41).toUInt8) o =
          .ok ((), o.put (digitChar (value.toNat % base.toNat))) := by
        intro o
        rw [← hmod, ← digit_eq]
        split <;> rfl
      rw [itoa, if_neg hbase]
      change (if value / base.toUInt32 ≠ 0 then
        (itoa base depth (value / base.toUInt32) >>= fun _ =>
          if value % base.toUInt32 < 10 then putChar (value % base.toUInt32 + 0x30).toUInt8
          else putChar (value % base.toUInt32 - 10 + 0x41).toUInt8)
        else if value % base.toUInt32 < 10 then putChar (value % base.toUInt32 + 0x30).toUInt8
          else putChar (value % base.toUInt32 - 10 + 0x41).toUInt8) o = _
      by_cases hsmall : value.toNat < base.toNat
      · have hzero : value / base.toUInt32 = 0 := by
          apply UInt32.toNat_inj.mp
          rw [hdiv, Nat.div_eq_of_lt hsmall]
          rfl
        rw [if_neg (not_not_intro hzero), hlast, Nat.mod_eq_of_lt hsmall,
          asciiNumeral_of_lt hsmall]
        rfl
      · have hpos := Nat.div_pos (Nat.not_lt.mp hsmall) (Nat.zero_lt_of_lt hb)
        have hne : value / base.toUInt32 ≠ 0 := by
          intro hzero
          rw [hzero] at hdiv
          exact absurd hdiv.symm hpos.ne'
        have hlt : (value / base.toUInt32).toNat < base.toNat ^ depth := by
          rw [hdiv]
          exact Nat.div_lt_of_lt_mul (by rwa [Nat.pow_succ'] at hvalue)
        have hdepth' : 0 < depth := by
          refine Nat.pos_of_ne_zero fun hzero => ?_
          rw [hzero, Nat.pow_zero, hdiv] at hlt
          omega
        rw [if_pos hne, Code.bind_of_ok (ih _ hlt hdepth'), hlast, hdiv,
          asciiNumeral_of_le hb (Nat.not_lt.mp hsmall), Output.write_append,
          Output.write_singleton]

private theorem strcpy_ok {n src : Nat} {s : List UInt8} (dst : Nat) (hs : StringAt mem src s)
    (hn : s.length < n) :
    ∃ o', strcpy mem n dst src o = .ok ((), o') ∧ o'.args = o.args ∧ o'.bufPtr = o.bufPtr ∧
      o'.buf = ({ o with bufPtr := dst }.write s).terminate.buf := by
  induction s generalizing n dst src o with
  | nil =>
      obtain ⟨n, rfl⟩ := Nat.exists_eq_succ_of_ne_zero (Nat.ne_of_gt hn)
      have hend : mem src = 0 := hs
      rw [strcpy, Code.modify_bind, hend, if_pos rfl]
      exact ⟨_, rfl, rfl, rfl, rfl⟩
  | cons c s ih =>
      obtain ⟨n, rfl⟩ := Nat.exists_eq_succ_of_ne_zero (Nat.ne_of_gt (Nat.zero_lt_of_lt hn))
      rw [List.length_cons] at hn
      rw [strcpy, Code.modify_bind, hs.head, if_neg hs.2.1]
      exact ih (dst + 1) hs.tail (by omega)

private theorem strlen_ok {b : Bytes} {n p : Nat} {s : List UInt8} (hs : StringAt b p s)
    (hn : s.length < n) : strlen b n p o = .ok (s.length, o) := by
  induction s generalizing n p with
  | nil =>
      obtain ⟨n, rfl⟩ := Nat.exists_eq_succ_of_ne_zero (Nat.ne_of_gt hn)
      have hend : b p = 0 := hs
      rw [strlen, if_pos hend]
      rfl
  | cons c s ih =>
      obtain ⟨n, rfl⟩ := Nat.exists_eq_succ_of_ne_zero (Nat.ne_of_gt (Nat.zero_lt_of_lt hn))
      rw [List.length_cons] at hn
      rw [strlen, hs.head, if_neg hs.2.1, Code.map_ok.mpr ⟨s.length, ih hs.tail (by omega), rfl⟩]
      rfl

end Run

/-- What a word on the stack stands for. -/
inductive Value where
  | str (s : List UInt8)
  | int (v : UInt32)

def ArgAt (mem : Bytes) (w : UInt32) : Value → Prop
  | .str s => StringAt mem w.toNat s
  | .int v => w = v

def ArgsAt (mem : Bytes) : List UInt32 → List Value → Prop := List.Forall₂ (ArgAt mem)

/-- Length of the string arguments. -/
def textLength (vals : List Value) : Nat := (vals.map fun | .str s => s.length | .int _ => 0).sum

private theorem textLength_str (s : List UInt8) (vals : List Value) :
    textLength (.str s :: vals) = s.length + textLength vals := rfl

private theorem textLength_int (v : UInt32) (vals : List Value) :
    textLength (.int v :: vals) = textLength vals := Nat.zero_add _

/-- The characters that a format of literals, `%s`, `%c`, `%d` and `%x` stands for. -/
inductive Renders : List UInt8 → List Value → List UInt8 → Prop
  | nil {vals} : Renders [] vals []
  | literal {c fmt vals out} (hc : c ≠ 0x25) (h : Renders fmt vals out) :
      Renders (c :: fmt) vals (c :: out)
  | string {s fmt vals out} (h : Renders fmt vals out) :
      Renders (0x25 :: 0x73 :: fmt) (.str s :: vals) (s ++ out)
  | char {v fmt vals out} (h : Renders fmt vals out) :
      Renders (0x25 :: 0x63 :: fmt) (.int v :: vals) (v.toUInt8 :: out)
  | int {v fmt vals out} (h : Renders fmt vals out) :
      Renders (0x25 :: 0x64 :: fmt) (.int v :: vals) (signedDecimal v.toInt32.toInt ++ out)
  | hex {v fmt vals out} (h : Renders fmt vals out) :
      Renders (0x25 :: 0x78 :: fmt) (.int v :: vals) (asciiNumeral 16 v.toNat ++ out)

/-- The last directive of the format is a `%s` and nothing follows it. -/
def EndsInString : List UInt8 → Prop
  | [] => False
  | c :: fmt =>
      if c = 0x25 then
        match fmt with
        | [] => False
        | conv :: fmt => if fmt = [] then conv = 0x73 else EndsInString fmt
      else EndsInString fmt

private theorem endsInString_literal {c : UInt8} (hc : c ≠ 0x25) (fmt : List UInt8) :
    EndsInString (c :: fmt) ↔ EndsInString fmt := by
  rw [EndsInString.eq_def]
  dsimp only
  rw [if_neg hc]

private theorem endsInString_conversion (conv : UInt8) (fmt : List UInt8) :
    EndsInString (0x25 :: conv :: fmt) ↔ if fmt = [] then conv = 0x73 else EndsInString fmt := by
  rw [EndsInString.eq_def]
  dsimp only
  rw [if_pos rfl]

private theorem Renders.endsInString {fmt : List UInt8} {vals : List Value}
    (h : Renders fmt vals []) (hfmt : fmt ≠ []) : EndsInString fmt := by
  generalize hout : [] = out at h
  induction h with
  | nil => exact absurd rfl hfmt
  | literal => cases hout
  | @string s fmt vals out h ih =>
      rw [endsInString_conversion]
      split
      · rfl
      · rename_i hne
        exact ih hne (List.append_eq_nil_iff.mp hout.symm).2.symm
  | char => cases hout
  | @int v fmt vals out h ih =>
      have hnil := (List.append_eq_nil_iff.mp hout.symm).1
      unfold signedDecimal at hnil
      split at hnil
      · cases hnil
      · exact absurd hnil (asciiNumeral_ne_nil _ _)
  | hex => exact absurd (List.append_eq_nil_iff.mp hout.symm).1 (asciiNumeral_ne_nil _ _)

section Format

variable {mem : Bytes} {o o' : Output} {p n : Nat} {fmt out : List UInt8} {vals : List Value}

/-- The state after a format has been printed as `out`. -/
def Printed (fmt out : List UInt8) (o o' : Output) : Prop :=
  EndsInString fmt ∧ (o'.Same (o.write out).terminate) ∨ ¬ EndsInString fmt ∧ o'.Same (o.write out)

private theorem Printed.of_write {o₁ : Output} {cs : List UInt8} {text : List UInt8}
    (h₁ : o₁.Same (o.write cs)) (h : Printed fmt out o₁ o')
    (htext : EndsInString text ↔ EndsInString fmt) : Printed text (cs ++ out) o o' := by
  rw [Printed, htext, Output.write_append]
  rcases h with ⟨hends, h⟩ | ⟨hends, h⟩
  · exact .inl ⟨hends, h.trans (h₁.write out).terminate⟩
  · exact .inr ⟨hends, h.trans (h₁.write out)⟩

/-- A `%s` before the rest of the format: its NUL is overwritten unless nothing follows. -/
private theorem Printed.of_string {o₁ : Output} {s : List UInt8}
    (h₁ : o₁.Same (o.write s).terminate) (hfmt : Renders fmt vals out) (h : Printed fmt out o₁ o') :
    Printed (0x25 :: 0x73 :: fmt) (s ++ out) o o' := by
  rw [Printed, endsInString_conversion, Output.write_append]
  by_cases hnil : fmt = []
  · subst hnil
    cases hfmt
    rw [if_pos rfl]
    rcases h with ⟨hends, -⟩ | ⟨-, h⟩
    · exact hends.elim
    · exact .inl ⟨rfl, h.trans h₁⟩
  · rw [if_neg hnil]
    rcases h with ⟨hends, h⟩ | ⟨hends, h⟩
    · refine .inl ⟨hends, h.trans ?_⟩
      rw [← Output.terminate_write_terminate (o := o.write s)]
      exact (h₁.write out).terminate
    · refine .inr ⟨hends, h.trans ?_⟩
      have hout : out ≠ [] := by
        rintro rfl
        exact hends (hfmt.endsInString hnil)
      rw [← Output.terminate_write (o := o.write s) hout]
      exact h₁.write out

theorem take {val : Value} (h : ArgsAt mem o.args (val :: vals)) :
    ∃ w, ArgAt mem w val ∧ ∃ args, o.args = w :: args ∧ ArgsAt mem args vals := by
  cases ho : o.args with
  | nil =>
      rw [ho] at h
      cases h
  | cons w args =>
      rw [ho] at h
      cases h with
      | cons hw hargs => exact ⟨w, hw, args, rfl, hargs⟩

/-- The result of a directive that writes `cs` and leaves the arguments `vals`. -/
def Writes (mem : Bytes) (cs : List UInt8) (vals : List Value) (o o₁ : Output) : Prop :=
  o₁.Same (o.write cs) ∧ ArgsAt mem o₁.args vals

private theorem convert_string {s : List UInt8} (hp : mem p = 0x73)
    (hargs : ArgsAt mem o.args (.str s :: vals)) (hn : s.length < n) :
    ∃ o₁, convert mem n p o = .ok (p + 1, o₁) ∧ o₁.Same (o.write s).terminate ∧
      ArgsAt mem o₁.args vals := by
  obtain ⟨w, hw, args, ho, hargs'⟩ := take hargs
  obtain ⟨o₂, hcpy, hargs₂, hptr, hbuf⟩ :=
    strcpy_ok (o := { o with args := args }) o.bufPtr hw hn
  rw [convert, hp, if_pos rfl, Code.bind_of_ok (vaArg_ok ho), Code.get_bind,
    Code.bind_of_ok hcpy, Code.bind_of_ok (strlen_ok hw hn)]
  have hsame := (Output.same_setArgs (o := o) args).write s
  refine ⟨_, rfl, ⟨hbuf.trans hsame.terminate.1, ?_⟩, ?_⟩
  · rw [Output.terminate_bufPtr, Output.write_bufPtr]
    exact congrArg (· + s.length) hptr
  · change ArgsAt mem o₂.args vals
    rw [hargs₂]
    exact hargs'

private theorem convert_char {v : UInt32} (hp : mem p = 0x63)
    (hargs : ArgsAt mem o.args (.int v :: vals)) :
    ∃ o₁, convert mem n p o = .ok (p + 1, o₁) ∧ Writes mem [v.toUInt8] vals o o₁ := by
  obtain ⟨w, rfl, args, ho, hargs'⟩ := take hargs
  rw [convert, hp, if_neg (by decide), if_pos rfl, Code.bind_of_ok (vaArg_ok ho)]
  exact ⟨_, rfl, ⟨rfl, rfl⟩, hargs'⟩

/-- The sign and the digits of the absolute value, that of the least number included. -/
private theorem convertInt_ok {v : UInt32} {args : List UInt32} (hargs : o.args = v :: args) :
    convertInt o =
      .ok ((), { o with args := args }.write (signedDecimal v.toInt32.toInt)) := by
  have hlt := v.toNat_lt
  have hint := toInt_toInt32 v
  rw [convertInt, Code.bind_of_ok (vaArg_ok hargs)]
  by_cases hv : v.toInt32 < 0
  · have hneg : v.toInt32.toInt < 0 := Int32.lt_iff_toInt_lt.mp hv
    have habs : v.toInt32.toInt.natAbs = (0 - v).toNat := by
      rw [UInt32.toNat_sub]
      change _ = (2 ^ 32 - v.toNat + 0) % 2 ^ 32
      split at hint <;> omega
    have hlt' := (0 - v).toNat_lt
    rw [if_pos hv, putChar, Code.modify_bind,
      itoa_ok 10 32 _ (by decide) (hlt'.trans (by decide)) (by decide), signedDecimal, if_pos hneg,
      habs]
    rfl
  · have hnonneg : ¬ v.toInt32.toInt < 0 := fun h => hv (Int32.lt_iff_toInt_lt.mpr h)
    have habs : v.toInt32.toInt.natAbs = v.toNat := by
      split at hint <;> omega
    rw [if_neg hv, itoa_ok 10 32 _ (by decide) (hlt.trans (by decide)) (by decide), signedDecimal,
      if_neg hnonneg, habs]
    rfl

private theorem convert_int {v : UInt32} (hp : mem p = 0x64)
    (hargs : ArgsAt mem o.args (.int v :: vals)) :
    ∃ o₁, convert mem n p o = .ok (p + 1, o₁) ∧
      Writes mem (signedDecimal v.toInt32.toInt) vals o o₁ := by
  obtain ⟨w, rfl, args, ho, hargs'⟩ := take hargs
  rw [convert, hp, if_neg (by decide), if_neg (by decide), if_pos rfl,
    Code.bind_of_ok (convertInt_ok ho)]
  refine ⟨_, rfl, (Output.same_setArgs args).write _, ?_⟩
  rw [Output.write_args]
  exact hargs'

private theorem convert_hex {v : UInt32} (hp : mem p = 0x78)
    (hargs : ArgsAt mem o.args (.int v :: vals)) :
    ∃ o₁, convert mem n p o = .ok (p + 1, o₁) ∧
      Writes mem (asciiNumeral 16 v.toNat) vals o o₁ := by
  obtain ⟨w, rfl, args, ho, hargs'⟩ := take hargs
  have hlt := w.toNat_lt
  rw [convert, hp, if_neg (by decide), if_neg (by decide), if_neg (by decide), if_pos rfl,
    Code.bind_of_ok (vaArg_ok ho),
    Code.bind_of_ok (itoa_ok 16 32 w (by decide) (hlt.trans (by decide)) (by decide))]
  refine ⟨_, rfl, (Output.same_setArgs args).write _, ?_⟩
  rw [Output.write_args]
  exact hargs'

private theorem formatLoop_conversion {q : Nat} {o₁ : Output} (hp : mem p = 0x25)
    (hrun : convert mem n (p + 1) o = .ok (q, o₁)) :
    formatLoop mem (n + 1) p o = formatLoop mem n q o₁ := by
  rw [formatLoop, hp, if_neg (by decide), if_neg (by decide), Code.bind_of_ok hrun]

private theorem formatLoop_directive {conv : UInt8} {cs : List UInt8} (hp : mem p = 0x25)
    (hconv : conv ≠ 0x73)
    (hrun : ∃ o₁, convert mem n (p + 1) o = .ok (p + 2, o₁) ∧ Writes mem cs vals o o₁)
    (hrest : ∀ o₁ : Output, ArgsAt mem o₁.args vals →
      ∃ o', formatLoop mem n (p + 2) o₁ = .ok ((), o') ∧ Printed fmt out o₁ o') :
    ∃ o', formatLoop mem (n + 1) p o = .ok ((), o') ∧
      Printed (0x25 :: conv :: fmt) (cs ++ out) o o' := by
  obtain ⟨o₁, hone, hwrite, hargs⟩ := hrun
  obtain ⟨o', hloop, hprinted⟩ := hrest o₁ hargs
  rw [formatLoop_conversion hp hone]
  refine ⟨o', hloop, hprinted.of_write hwrite ?_⟩
  rw [endsInString_conversion]
  split
  · rename_i hnil
    rw [hnil]
    exact iff_of_false hconv fun h => h
  · exact Iff.rfl

private theorem formatLoop_ok (h : Renders fmt vals out) (htext : StringAt mem p fmt)
    (hargs : ArgsAt mem o.args vals) (hn : fmt.length + textLength vals < n) :
    ∃ o', formatLoop mem n p o = .ok ((), o') ∧ Printed fmt out o o' := by
  obtain ⟨n, rfl⟩ := Nat.exists_eq_succ_of_ne_zero (Nat.ne_of_gt (Nat.zero_lt_of_lt hn))
  induction h generalizing n p o with
  | nil =>
      have hend : mem p = 0 := htext
      rw [formatLoop, if_pos hend]
      exact ⟨o, rfl, .inr ⟨fun h => h, rfl, rfl⟩⟩
  | @literal c fmt vals out hc h ih =>
      rw [List.length_cons] at hn
      obtain ⟨n, rfl⟩ : ∃ m, n = m + 1 := ⟨n - 1, by omega⟩
      obtain ⟨o', hrun, hprinted⟩ := ih htext.tail (o := o.put c) hargs n (by omega)
      rw [formatLoop, htext.head, if_neg htext.2.1, if_pos hc, putChar, Code.modify_bind]
      refine ⟨o', hrun, ?_⟩
      have hsame : (o.put c).Same (o.write [c]) := ⟨rfl, rfl⟩
      exact hprinted.of_write hsame (endsInString_literal hc fmt)
  | @string s fmt vals out h ih =>
      rw [List.length_cons, List.length_cons, textLength_str] at hn
      obtain ⟨n, rfl⟩ : ∃ m, n = m + 1 := ⟨n - 1, by omega⟩
      obtain ⟨o₁, hone, hwrite, hargs₁⟩ :=
        convert_string (n := n + 1) (p := p + 1) htext.tail.head hargs (by omega)
      obtain ⟨o', hloop, hprinted⟩ := ih htext.tail.tail hargs₁ n (by omega)
      rw [formatLoop_conversion htext.head hone]
      exact ⟨o', hloop, hprinted.of_string hwrite h⟩
  | @char v fmt vals out h ih =>
      rw [List.length_cons, List.length_cons, textLength_int] at hn
      obtain ⟨n, rfl⟩ : ∃ m, n = m + 1 := ⟨n - 1, by omega⟩
      exact formatLoop_directive htext.head (by decide) (convert_char htext.tail.head hargs)
        fun o₁ hargs₁ => ih htext.tail.tail hargs₁ n (by omega)
  | @int v fmt vals out h ih =>
      rw [List.length_cons, List.length_cons, textLength_int] at hn
      obtain ⟨n, rfl⟩ : ∃ m, n = m + 1 := ⟨n - 1, by omega⟩
      exact formatLoop_directive htext.head (by decide) (convert_int htext.tail.head hargs)
        fun o₁ hargs₁ => ih htext.tail.tail hargs₁ n (by omega)
  | @hex v fmt vals out h ih =>
      rw [List.length_cons, List.length_cons, textLength_int] at hn
      obtain ⟨n, rfl⟩ : ∃ m, n = m + 1 := ⟨n - 1, by omega⟩
      exact formatLoop_directive htext.head (by decide) (convert_hex htext.tail.head hargs)
        fun o₁ hargs₁ => ih htext.tail.tail hargs₁ n (by omega)

end Format

/-- The conversions of a format, by their characters. -/
def conversions : List UInt8 → List UInt8
  | [] => []
  | c :: fmt =>
      if c = 0x25 then
        match fmt with
        | [] => []
        | conv :: fmt => conv :: conversions fmt
      else conversions fmt

/-- A NUL is given to a `%c`. -/
def NulCharacter (fmt : List UInt8) (vals : List Value) : Prop :=
  ∃ v, (0x63, .int v) ∈ (conversions fmt).zip vals ∧ v.toUInt8 = 0

theorem conversions_conversion (conv : UInt8) (fmt : List UInt8) :
    conversions (0x25 :: conv :: fmt) = conv :: conversions fmt := by
  rw [conversions.eq_def]
  dsimp only
  rw [if_pos rfl]

private theorem nulCharacter_literal {c : UInt8} (hc : c ≠ 0x25) (fmt : List UInt8)
    (vals : List Value) : NulCharacter (c :: fmt) vals ↔ NulCharacter fmt vals := by
  have hconv : conversions (c :: fmt) = conversions fmt := by
    rw [conversions.eq_def]
    dsimp only
    rw [if_neg hc]
  rw [NulCharacter, NulCharacter, hconv]

private theorem nulCharacter_conversion {conv : UInt8} (hconv : conv ≠ 0x63) (fmt : List UInt8)
    (val : Value) (vals : List Value) :
    NulCharacter (0x25 :: conv :: fmt) (val :: vals) ↔ NulCharacter fmt vals := by
  simp only [NulCharacter, conversions_conversion, List.zip_cons_cons, List.mem_cons,
    Prod.mk.injEq, hconv.symm, false_and, false_or]

private theorem zero_notMem_asciiNumeral {b n : Nat} (hb : 1 < b) (hb' : b ≤ 36) :
    0 ∉ asciiNumeral b n := fun h => absurd (le_of_mem_asciiNumeral hb hb' h) (by decide)

private theorem zero_notMem_signedDecimal (z : Int) : 0 ∉ signedDecimal z := by
  have hnum : 0 ∉ asciiNumeral 10 z.natAbs := zero_notMem_asciiNumeral (by omega) (by omega)
  unfold signedDecimal
  split
  · rw [List.mem_cons, not_or]
    exact ⟨by decide, hnum⟩
  · exact hnum

/-- A NUL among the characters comes from a `%c`. -/
private theorem Renders.zero_mem_iff {fmt out : List UInt8} {vals : List Value}
    (h : Renders fmt vals out) (hfmt : ∀ c ∈ fmt, c ≠ 0) (hvals : ∀ s, .str s ∈ vals → 0 ∉ s) :
    0 ∈ out ↔ NulCharacter fmt vals := by
  induction h with
  | nil => simp [NulCharacter, conversions]
  | @literal c fmt vals out hc h ih =>
      rw [List.forall_mem_cons] at hfmt
      rw [nulCharacter_literal hc, ← ih hfmt.2 hvals, List.mem_cons, or_iff_right hfmt.1.symm]
  | @string s fmt vals out h ih =>
      rw [List.forall_mem_cons, List.forall_mem_cons] at hfmt
      rw [nulCharacter_conversion (by decide),
        ← ih hfmt.2.2 fun s hs => hvals s (List.mem_cons_of_mem _ hs), List.mem_append,
        or_iff_right (hvals s List.mem_cons_self)]
  | @char v fmt vals out h ih =>
      rw [List.forall_mem_cons, List.forall_mem_cons] at hfmt
      have hrest := ih hfmt.2.2 fun s hs => hvals s (List.mem_cons_of_mem _ hs)
      have hzero : 0 = v.toUInt8 ↔ v.toUInt8 = 0 := eq_comm
      rw [List.mem_cons, hrest, hzero]
      simp only [NulCharacter, conversions_conversion, List.zip_cons_cons, List.mem_cons,
        Prod.mk.injEq, true_and, Value.int.injEq, or_and_right, exists_or, exists_eq_left]
  | @int v fmt vals out h ih =>
      rw [List.forall_mem_cons, List.forall_mem_cons] at hfmt
      rw [nulCharacter_conversion (by decide),
        ← ih hfmt.2.2 fun s hs => hvals s (List.mem_cons_of_mem _ hs), List.mem_append,
        or_iff_right (zero_notMem_signedDecimal _)]
  | @hex v fmt vals out h ih =>
      rw [List.forall_mem_cons, List.forall_mem_cons] at hfmt
      rw [nulCharacter_conversion (by decide),
        ← ih hfmt.2.2 fun s hs => hvals s (List.mem_cons_of_mem _ hs), List.mem_append,
        or_iff_right (zero_notMem_asciiNumeral (by omega) (by omega))]

theorem ArgsAt.ne_zero {mem : Bytes} {args : List UInt32} {vals : List Value}
    (h : ArgsAt mem args vals) : ∀ s, .str s ∈ vals → 0 ∉ s := by
  induction h with
  | nil => simp
  | @cons w val args vals hw h ih =>
      intro s hs
      rcases List.mem_cons.mp hs with rfl | hs
      · exact fun hzero => StringAt.ne_zero hw 0 hzero rfl
      · exact ih s hs

private theorem strlen_state {b : Bytes} {n p len : Nat} {o o' : Output}
    (h : strlen b n p o = .ok (len, o')) : o' = o := by
  induction n generalizing p len with
  | zero => cases h
  | succ n ih =>
      rw [strlen] at h
      split at h
      · cases h
        rfl
      · obtain ⟨len', hlen, -⟩ := Code.map_ok.mp h
        exact ih hlen

private theorem strlen_le {b : Bytes} {n p len i : Nat} {o o' : Output}
    (h : strlen b n p o = .ok (len, o')) (hi : b (p + i) = 0) : len ≤ i := by
  induction n generalizing p len i with
  | zero => cases h
  | succ n ih =>
      rw [strlen] at h
      split at h
      · cases h
        exact Nat.zero_le i
      · rename_i hne
        obtain ⟨len', hlen, rfl⟩ := Code.map_ok.mp h
        cases i with
        | zero => exact absurd hi hne
        | succ i =>
            rw [Nat.add_comm i, ← Nat.add_assoc] at hi
            exact Nat.succ_le_succ (ih hlen hi)

section Buffer

variable {o o' : Output} {fmt out : List UInt8}

private theorem Printed.buf_of_lt (h : Printed fmt out o o') {i : Nat} (hi : i < out.length) :
    o'.buf (o.bufPtr + i) = out.getD i 0 := by
  rw [← Output.write_buf_of_lt hi]
  rcases h with ⟨-, h⟩ | ⟨-, h⟩
  · rw [h.1]
    refine Function.update_of_ne ?_ _ _
    rw [Output.write_bufPtr]
    omega
  · rw [h.1]

private theorem Printed.buf_end (h : Printed fmt out o o') :
    o'.buf (o.bufPtr + out.length) = 0 ↔ EndsInString fmt ∨ o.buf (o.bufPtr + out.length) = 0 := by
  rcases h with ⟨hends, h⟩ | ⟨hends, h⟩
  · refine iff_of_true ?_ (.inl hends)
    rw [h.1, ← Output.write_bufPtr]
    exact Function.update_self ..
  · rw [or_iff_right hends, h.1, Output.write_buf_of_outside (.inr le_rfl)]

end Buffer

/-- For enough fuel, `vsprintf` returns the length of `out` and leaves it in the buffer, with a NUL
behind it. -/
def Formats (mem buf : Bytes) (format : Nat) (args : List UInt32) (out : List UInt8) : Prop :=
  ∃ n₀, ∀ n, n₀ ≤ n → ∃ r o, vsprintf mem n format ⟨buf, 0, args⟩ = .ok (r, o) ∧
    r.toNat = out.length ∧ (∀ i, i < out.length → o.buf i = out.getD i 0) ∧ o.buf out.length = 0

theorem vsprintf_iff {mem buf : Bytes} {format : Nat} {args : List UInt32} {fmt out : List UInt8}
    {vals : List Value} (htext : StringAt mem format fmt) (hargs : ArgsAt mem args vals)
    (h : Renders fmt vals out) :
    Formats mem buf format args out ↔
      (EndsInString fmt ∨ buf out.length = 0) ∧ ¬ NulCharacter fmt vals ∧ out.length < 2 ^ 32 := by
  have hloop : ∀ n, fmt.length + textLength vals < n →
      ∃ o', formatLoop mem n format ⟨buf, 0, args⟩ = .ok ((), o') ∧
        Printed fmt out ⟨buf, 0, args⟩ o' := fun n hn =>
    formatLoop_ok (o := ⟨buf, 0, args⟩) h htext hargs hn
  have hnul := h.zero_mem_iff htext.ne_zero hargs.ne_zero
  constructor
  · rintro ⟨n₀, hformats⟩
    obtain ⟨r, o, hrun, hr, hbuf, hend⟩ :=
      hformats (max n₀ (fmt.length + textLength vals + 1)) (le_max_left _ _)
    obtain ⟨o', hok, hprinted⟩ :=
      hloop (max n₀ (fmt.length + textLength vals + 1)) (lt_max_of_lt_right (by omega))
    rw [vsprintf, Code.bind_of_ok hok, Code.get_bind] at hrun
    obtain ⟨len, o₁, hlen, hret⟩ := Code.bind_ok.mp hrun
    cases hret
    obtain rfl := strlen_state hlen
    have hsize : out.length < 2 ^ 32 := hr ▸ (UInt32.ofNat len).toNat_lt
    refine ⟨?_, ?_, hsize⟩
    · have hiff := hprinted.buf_end
      simp only [Nat.zero_add] at hiff
      exact hiff.mp hend
    · rw [← hnul]
      intro hzero
      obtain ⟨i, hi, hget⟩ := List.getElem_of_mem hzero
      have hfirst : o.buf (0 + i) = 0 := by
        rw [Nat.zero_add, hbuf i hi, List.getD_eq_getElem _ _ hi, hget]
      have hle := strlen_le hlen hfirst
      rw [UInt32.toNat_ofNat', Nat.mod_eq_of_lt (by omega)] at hr
      omega
  · rintro ⟨hends, hnonul, hsize⟩
    rw [← hnul] at hnonul
    refine ⟨fmt.length + textLength vals + 1 + out.length, fun n hn => ?_⟩
    obtain ⟨o', hok, hprinted⟩ := hloop n (by omega)
    have hbuf : ∀ i, i < out.length → o'.buf i = out.getD i 0 := by
      intro i hi
      rw [← hprinted.buf_of_lt hi, Nat.zero_add]
    have hend : o'.buf out.length = 0 := by
      have hend := hprinted.buf_end
      simp only [Nat.zero_add] at hend
      exact hend.mpr hends
    have hstr : StringAt o'.buf 0 out :=
      StringAt.of_getD (by simpa using hbuf) (by simpa using hend) hnonul
    rw [vsprintf, Code.bind_of_ok hok, Code.get_bind,
      Code.bind_of_ok (strlen_ok hstr (by omega))]
    refine ⟨_, o', rfl, ?_, hbuf, hend⟩
    rw [UInt32.toNat_ofNat']
    exact Nat.mod_eq_of_lt hsize

/-- `itoa` appends the numeral of its value in every base from 2 to 36, `%d` the signed decimal
numeral of its argument and `%x` the hexadecimal numeral. -/
theorem vsprintf_numerals :
    (∀ base : UInt8, 2 ≤ base → base ≤ 36 → ∀ depth, 32 ≤ depth → ∀ value o,
      ∃ cs, itoa base depth value o = .ok ((), o.write cs) ∧
        IsNumeral base.toNat value.toNat cs) ∧
    (∀ mem n p o v args, mem p = 0x25 → mem (p + 1) = 0x64 → o.args = v :: args →
      ∃ cs, formatLoop mem (n + 1) p o =
          formatLoop mem n (p + 2) ({ o with args := args }.write cs) ∧
        IsSignedDecimal v.toInt32.toInt cs) ∧
    ∀ mem n p o v args, mem p = 0x25 → mem (p + 1) = 0x78 → o.args = v :: args →
      ∃ cs, formatLoop mem (n + 1) p o =
          formatLoop mem n (p + 2) ({ o with args := args }.write cs) ∧
        IsNumeral 16 v.toNat cs := by
  refine ⟨fun base h₁ h₂ depth hdepth value o => ?_, fun mem n p o v args hp hconv hargs => ?_,
    fun mem n p o v args hp hconv hargs => ?_⟩
  · have hlow : 2 ≤ base.toNat := UInt8.le_iff_toNat_le.mp h₁
    have hhigh : base.toNat ≤ 36 := UInt8.le_iff_toNat_le.mp h₂
    have hfits : value.toNat < base.toNat ^ depth := by
      calc value.toNat < 2 ^ 32 := value.toNat_lt
        _ ≤ base.toNat ^ 32 := Nat.pow_le_pow_left hlow 32
        _ ≤ base.toNat ^ depth := Nat.pow_le_pow_right (by omega) hdepth
    exact ⟨_, itoa_ok base depth value hlow hfits (by omega),
      isNumeral_asciiNumeral hlow hhigh _⟩
  · have hrun : convert mem n (p + 1) o =
        .ok (p + 2, { o with args := args }.write (signedDecimal v.toInt32.toInt)) := by
      rw [convert, hconv, if_neg (by decide), if_neg (by decide), if_pos rfl,
        Code.bind_of_ok (convertInt_ok hargs)]
      rfl
    exact ⟨_, formatLoop_conversion hp hrun, isSignedDecimal_signedDecimal _⟩
  · have hdigits := itoa_ok (o := { o with args := args }) 16 32 v (by decide)
      (v.toNat_lt.trans (by decide)) (by decide)
    have hrun : convert mem n (p + 1) o =
        .ok (p + 2, { o with args := args }.write (asciiNumeral 16 v.toNat)) := by
      rw [convert, hconv, if_neg (by decide), if_neg (by decide), if_neg (by decide), if_pos rfl,
        Code.bind_of_ok (vaArg_ok hargs), Code.bind_of_ok hdigits]
      rfl
    exact ⟨_, formatLoop_conversion hp hrun, isNumeral_asciiNumeral (by omega) (by omega) _⟩

/-- The format `%d%x` -/
def numberText : Bytes := fun i => [0x25, 0x64, 0x25, 0x78].getD i 0

/-- The least `int` and the greatest word -/
theorem vsprintf_numerals_least :
    (∃ cs, itoa 36 32 0xffffffff ⟨Bytes.zero, 0, []⟩ =
        .ok ((), Output.write ⟨Bytes.zero, 0, []⟩ cs) ∧ IsNumeral 36 0xffffffff cs) ∧
      (∃ cs, formatLoop numberText 2 0 ⟨Bytes.zero, 0, [0x80000000]⟩ =
          formatLoop numberText 1 2 (Output.write ⟨Bytes.zero, 0, []⟩ cs) ∧
        IsSignedDecimal (-2147483648) cs) ∧
      ∃ cs, formatLoop numberText 2 2 ⟨Bytes.zero, 0, [0xffffffff]⟩ =
          formatLoop numberText 1 4 (Output.write ⟨Bytes.zero, 0, []⟩ cs) ∧
        IsNumeral 16 0xffffffff cs :=
  ⟨vsprintf_numerals.1 36 (by decide) (by decide) 32 le_rfl 0xffffffff _,
    vsprintf_numerals.2.1 numberText 1 0 ⟨Bytes.zero, 0, [0x80000000]⟩ 0x80000000 [] rfl rfl rfl,
    vsprintf_numerals.2.2 numberText 1 2 ⟨Bytes.zero, 0, [0xffffffff]⟩ 0xffffffff [] rfl rfl rfl⟩

/-- The format `%d%s`, its NUL and the string `ab`. -/
def sampleText : Bytes := fun i => [0x25, 0x64, 0x25, 0x73, 0, 0x61, 0x62].getD i 0

private theorem sampleText_format : StringAt sampleText 0 [0x25, 0x64, 0x25, 0x73] := by
  simp [StringAt, sampleText]

/-- A buffer that was never written. -/
def dirty : Bytes := fun _ => 0xaa

theorem vsprintf_minus_one_ab :
    Formats sampleText dirty 0 [0xffffffff, 5] [0x2d, 0x31, 0x61, 0x62] := by
  have hargs : ArgsAt sampleText [0xffffffff, 5] [.int 0xffffffff, .str [0x61, 0x62]] :=
    .cons rfl (.cons (by simp [ArgAt, StringAt, sampleText]) .nil)
  have hout : [0x2d, 0x31, 0x61, 0x62] =
      signedDecimal (0xffffffff : UInt32).toInt32.toInt ++ ([0x61, 0x62] ++ []) := by decide
  rw [hout]
  refine (vsprintf_iff sampleText_format hargs (.int (.string .nil))).mpr ⟨.inl rfl, ?_, ?_⟩
  · rintro ⟨v, hmem, -⟩
    simp [conversions] at hmem
  · decide

/-- `sprintf(buf, "%d", 7)` leaves the 7 without a NUL in a buffer that held none. -/
theorem vsprintf_unterminated :
    ¬ Formats (fun i => [0x25, 0x64].getD i 0) dirty 0 [7] [0x37] := by
  rintro ⟨n₀, hformats⟩
  obtain ⟨r, o, hrun, -, -, hend⟩ := hformats (max n₀ 3) (le_max_left _ _)
  have htext : StringAt (fun i => [0x25, 0x64].getD i 0) 0 [0x25, 0x64] := by simp [StringAt]
  have hargs : ArgsAt (fun i => [0x25, 0x64].getD i 0) [7] [.int 7] := .cons rfl .nil
  obtain ⟨o', hok, hprinted⟩ := formatLoop_ok (n := max n₀ 3) (o := ⟨dirty, 0, [7]⟩)
    (.int .nil) htext hargs (lt_max_of_lt_right (by decide))
  rw [vsprintf, Code.bind_of_ok hok, Code.get_bind] at hrun
  obtain ⟨len, o₁, hlen, hret⟩ := Code.bind_ok.mp hrun
  cases hret
  obtain rfl := strlen_state hlen
  rcases hprinted.buf_end.mp hend with hends | hbuf
  · exact absurd hends (by simp [EndsInString])
  · exact absurd hbuf (by decide)

end Aitos.Lib.Stdio
