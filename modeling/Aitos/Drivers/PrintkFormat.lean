import Aitos.Drivers.Printk

/-!
# What printk formats stand for

`Renders` says what a format and its arguments stand for, `Converts` what a scan does at one
conversion.  `printk` prints what its format stands for when the format is finished and no `%d` is
given a negative number.
-/

namespace Aitos.Drivers.Printk

open Aitos.Framework

/-- The characters a format and its arguments stand for.  What an unfinished directive stands for
is left open. -/
inductive Renders : List UInt8 → List PrintkArg → List UInt8 → Prop
  | nil {args} : Renders [] args []
  | literal {c fmt args out} (hc : c ≠ 0x25) (h : Renders fmt args out) :
      Renders (c :: fmt) args (c :: out)
  | string {s fmt args out} (h : Renders fmt args out) :
      Renders (0x25 :: 0x73 :: fmt) (.str s :: args) (s ++ out)
  | int {v fmt args out} (h : Renders fmt args out) :
      Renders (0x25 :: 0x64 :: fmt) (.int v :: args) (signedDecimal v.toInt32.toInt ++ out)
  | long {v fmt args out} (h : Renders fmt args out) :
      Renders (0x25 :: 0x6c :: 0x75 :: fmt) (.long v :: args) (asciiNumeral 10 v.toNat ++ out)
  | longLong {v fmt args out} (h : Renders fmt args out) :
      Renders (0x25 :: 0x6c :: 0x6c :: 0x75 :: fmt) (.long v :: args)
        (asciiNumeral 10 v.toNat ++ out)
  | char {v fmt args out} (h : Renders fmt args out) :
      Renders (0x25 :: 0x63 :: fmt) (.int v :: args) (v.toUInt8 :: out)
  | percent {fmt args out} (h : Renders fmt args out) :
      Renders (0x25 :: 0x25 :: fmt) args (0x25 :: out)
  | unknown {conv fmt args out} (hconv : conv ∉ [0x73, 0x64, 0x63, 0x25])
      (hlong : conv = 0x6c → fmt.take 1 ≠ [0x75] ∧ fmt.take 2 ≠ [0x6c, 0x75])
      (h : Renders fmt args out) : Renders (0x25 :: conv :: fmt) args (conv :: out)
  | unfinished {args out} : Renders [0x25] args out

/-- The conversions of a format that take an argument, by their first character. -/
def conversions : List UInt8 → List UInt8
  | [] => []
  | c :: fmt =>
      if c = 0x25 then
        match fmt with
        | [] => []
        | conv :: fmt =>
            if conv ∈ [0x73, 0x64, 0x63] ∨
                conv = 0x6c ∧ (fmt.take 1 = [0x75] ∨ fmt.take 2 = [0x6c, 0x75]) then
              conv :: conversions fmt
            else conversions fmt
      else conversions fmt

/-- A negative argument belongs to a `%d`. -/
def NegativeDecimal (fmt : List UInt8) (args : List PrintkArg) : Prop :=
  ∃ v, (0x64, .int v) ∈ (conversions fmt).zip args ∧ v.toInt32 < 0

private theorem conversions_literal {c : UInt8} (hc : c ≠ 0x25) (fmt : List UInt8) :
    conversions (c :: fmt) = conversions fmt := by
  rw [conversions.eq_def]
  dsimp only
  rw [if_neg hc]

theorem conversions_conversion (conv : UInt8) (fmt : List UInt8) :
    conversions (0x25 :: conv :: fmt) =
      if conv ∈ [0x73, 0x64, 0x63] ∨
          conv = 0x6c ∧ (fmt.take 1 = [0x75] ∨ fmt.take 2 = [0x6c, 0x75]) then
        conv :: conversions fmt
      else conversions fmt := by
  rw [conversions.eq_def]
  dsimp only
  rw [if_pos rfl]

private theorem emitDecimal_nonneg {v : UInt32} (hv : 0 ≤ v.toInt32) :
    Drivers.emitDecimal v.toInt32.toInt64.toUInt64 = signedDecimal v.toInt32.toInt := by
  have hint : 0 ≤ v.toInt32.toInt := Int32.le_iff_toInt_le.mp hv
  have hlong : (0 : Int64) ≤ v.toInt32.toInt64 := by
    rw [Int64.le_iff_toInt_le, Int32.toInt_toInt64]
    exact hint
  have hnat : v.toInt32.toInt64.toUInt64.toNat = v.toInt32.toInt.natAbs := by
    rw [Int64.toNat_toUInt64_of_le hlong, Int32.toNatClampNeg_toInt64]
    change v.toInt32.toInt.toNat = _
    omega
  rw [emitDecimal_eq, hnat, signedDecimal, if_neg (by omega)]

/-- A negative number is printed without its sign. -/
private theorem emitDecimal_neg {v : UInt32} (hv : v.toInt32 < 0) (out out' : List UInt8) :
    Drivers.emitDecimal v.toInt32.toInt64.toUInt64 ++ out ≠
      signedDecimal v.toInt32.toInt ++ out' := by
  have hint : v.toInt32.toInt < 0 := Int32.lt_iff_toInt_lt.mp hv
  rw [emitDecimal_eq, signedDecimal, if_pos hint]
  generalize v.toInt32.toInt64.toUInt64.toNat = n
  cases hnum : asciiNumeral 10 n with
  | nil => exact absurd hnum (asciiNumeral_ne_nil 10 n)
  | cons c cs =>
      intro h
      have hc : c ∈ asciiNumeral 10 n := by
        rw [hnum]
        exact List.mem_cons_self
      have hle := le_of_mem_asciiNumeral (by omega) (by omega) hc
      rw [(List.cons.inj h).1] at hle
      exact absurd hle (by decide)

section Renders

variable {fmt rest cs out : List UInt8} {args args' : List PrintkArg} {k : Nat}

/-- What a format is printed as, compared with what it stands for. -/
def Compares (k : Nat) (text : List UInt8) (vals : List PrintkArg) (out : List UInt8) : Prop :=
  ∃ actual, Drivers.printkLoop k text vals = some actual ∧
    (actual = out ↔ ¬ NegativeDecimal text vals)

private theorem compares_conversion (conv : UInt8) (h : Compares k rest args' out)
    (hconv : Drivers.convert conv fmt args = some (cs, rest, args'))
    (hneg : NegativeDecimal (0x25 :: conv :: fmt) args ↔ NegativeDecimal rest args') :
    Compares (k + 1) (0x25 :: conv :: fmt) args (cs ++ out) := by
  obtain ⟨actual, hactual, hiff⟩ := h
  refine ⟨cs ++ actual, ?_, ?_⟩
  · rw [printkLoop_conversion hconv, hactual]
    rfl
  · rw [hneg, ← hiff]
    exact List.append_cancel_left_eq cs actual out ▸ Iff.rfl

private theorem negativeDecimal_cons (conv : UInt8) {arg : PrintkArg} (hconv : conv ≠ 0x64)
    (hfmt : conversions fmt = conv :: conversions rest) :
    NegativeDecimal fmt (arg :: args) ↔ NegativeDecimal rest args := by
  simp only [NegativeDecimal, hfmt, List.zip_cons_cons, List.mem_cons, Prod.mk.injEq,
    hconv.symm, false_and, false_or]

private theorem convert_unknown {conv : UInt8} (hconv : conv ∉ [0x73, 0x64, 0x63, 0x25])
    (hlong : conv = 0x6c → fmt.take 1 ≠ [0x75] ∧ fmt.take 2 ≠ [0x6c, 0x75])
    (args : List PrintkArg) : Drivers.convert conv fmt args = some ([conv], fmt, args) := by
  simp only [List.mem_cons, not_or] at hconv
  unfold Drivers.convert
  rw [if_neg hconv.1, if_neg hconv.2.1, if_neg hconv.2.2.1]
  split
  · rename_i hl
    rw [if_neg (hlong hl).2, if_neg (hlong hl).1]
  · rfl

private theorem actual_of_renders {text : List UInt8} {vals : List PrintkArg}
    (h : Renders text vals out) (hun : ¬ Unfinished text) (hk : text.length ≤ k) :
    Compares k text vals out := by
  induction h generalizing k with
  | nil =>
      refine ⟨[], ?_, ?_⟩
      · cases k <;> rfl
      · simp [NegativeDecimal, conversions]
  | @literal c fmt args out hc h ih =>
      rw [unfinished_literal hc] at hun
      obtain ⟨k, rfl⟩ := Nat.exists_eq_succ_of_ne_zero (Nat.ne_of_gt (Nat.zero_lt_of_lt hk))
      obtain ⟨actual, hactual, hiff⟩ := ih hun (k := k) (Nat.le_of_succ_le_succ hk)
      refine ⟨c :: actual, ?_, ?_⟩
      · rw [printkLoop_literal hc, hactual]
        rfl
      · rw [List.cons_inj_right, hiff, NegativeDecimal, NegativeDecimal, conversions_literal hc]
  | @string s fmt args out h ih =>
      rw [unfinished_conversion] at hun
      obtain ⟨k, rfl⟩ := Nat.exists_eq_succ_of_ne_zero (Nat.ne_of_gt (Nat.zero_lt_of_lt hk))
      have hlen : fmt.length ≤ k := Nat.le_of_lt (Nat.le_of_succ_le_succ hk)
      exact compares_conversion 0x73 (ih hun hlen) rfl (negativeDecimal_cons 0x73 (by decide) rfl)
  | @int v fmt args out h ih =>
      rw [unfinished_conversion] at hun
      obtain ⟨k, rfl⟩ := Nat.exists_eq_succ_of_ne_zero (Nat.ne_of_gt (Nat.zero_lt_of_lt hk))
      have hlen : fmt.length ≤ k := Nat.le_of_lt (Nat.le_of_succ_le_succ hk)
      have hneg : NegativeDecimal (0x25 :: 0x64 :: fmt) (.int v :: args) ↔
          v.toInt32 < 0 ∨ NegativeDecimal fmt args := by
        have hfmt : conversions (0x25 :: 0x64 :: fmt) = 0x64 :: conversions fmt := rfl
        simp only [NegativeDecimal, hfmt, List.zip_cons_cons, List.mem_cons, Prod.mk.injEq,
          true_and, PrintkArg.int.injEq, or_and_right, exists_or, exists_eq_left]
      by_cases hv : v.toInt32 < 0
      · obtain ⟨actual, hactual, -⟩ := ih hun hlen
        refine ⟨Drivers.emitDecimal v.toInt32.toInt64.toUInt64 ++ actual, ?_, ?_⟩
        · have hconv : Drivers.convert 0x64 fmt (.int v :: args) =
              some (Drivers.emitDecimal v.toInt32.toInt64.toUInt64, fmt, args) := rfl
          rw [printkLoop_conversion hconv, hactual]
          rfl
        · rw [hneg]
          exact iff_of_false (emitDecimal_neg hv _ _) (fun h => h (.inl hv))
      · rw [← emitDecimal_nonneg (Int32.not_lt.mp hv)]
        exact compares_conversion 0x64 (ih hun hlen) rfl (hneg.trans (or_iff_right hv))
  | @long v fmt args out h ih =>
      rw [unfinished_conversion, unfinished_literal (by decide)] at hun
      obtain ⟨k, rfl⟩ := Nat.exists_eq_succ_of_ne_zero (Nat.ne_of_gt (Nat.zero_lt_of_lt hk))
      simp only [List.length_cons] at hk
      rw [← emitDecimal_eq]
      refine compares_conversion 0x6c (ih hun (by omega)) rfl ?_
      refine negativeDecimal_cons 0x6c (by decide) ?_
      rw [conversions_conversion, if_pos (.inr ⟨rfl, .inl rfl⟩), conversions_literal (by decide)]
  | @longLong v fmt args out h ih =>
      rw [unfinished_conversion, unfinished_literal (by decide), unfinished_literal (by decide)]
        at hun
      obtain ⟨k, rfl⟩ := Nat.exists_eq_succ_of_ne_zero (Nat.ne_of_gt (Nat.zero_lt_of_lt hk))
      simp only [List.length_cons] at hk
      rw [← emitDecimal_eq]
      refine compares_conversion 0x6c (ih hun (by omega)) rfl ?_
      refine negativeDecimal_cons 0x6c (by decide) ?_
      rw [conversions_conversion, if_pos (.inr ⟨rfl, .inr rfl⟩), conversions_literal (by decide),
        conversions_literal (by decide)]
  | @char v fmt args out h ih =>
      rw [unfinished_conversion] at hun
      obtain ⟨k, rfl⟩ := Nat.exists_eq_succ_of_ne_zero (Nat.ne_of_gt (Nat.zero_lt_of_lt hk))
      have hlen : fmt.length ≤ k := Nat.le_of_lt (Nat.le_of_succ_le_succ hk)
      have hconv : Drivers.convert 0x63 fmt (.int v :: args) = some ([v.toUInt8], fmt, args) := rfl
      exact compares_conversion 0x63 (ih hun hlen) hconv (negativeDecimal_cons 0x63 (by decide) rfl)
  | @percent fmt args out h ih =>
      rw [unfinished_conversion] at hun
      obtain ⟨k, rfl⟩ := Nat.exists_eq_succ_of_ne_zero (Nat.ne_of_gt (Nat.zero_lt_of_lt hk))
      have hlen : fmt.length ≤ k := Nat.le_of_lt (Nat.le_of_succ_le_succ hk)
      have hconv : Drivers.convert 0x25 fmt args = some ([0x25], fmt, args) := rfl
      exact compares_conversion 0x25 (ih hun hlen) hconv Iff.rfl
  | @unknown conv fmt args out hconv hlong h ih =>
      rw [unfinished_conversion] at hun
      obtain ⟨k, rfl⟩ := Nat.exists_eq_succ_of_ne_zero (Nat.ne_of_gt (Nat.zero_lt_of_lt hk))
      have hlen : fmt.length ≤ k := Nat.le_of_lt (Nat.le_of_succ_le_succ hk)
      refine compares_conversion conv (ih hun hlen) (convert_unknown hconv hlong args) ?_
      simp only [List.mem_cons, not_or] at hconv
      have hnone : ¬ (conv ∈ [0x73, 0x64, 0x63] ∨
          conv = 0x6c ∧ (fmt.take 1 = [0x75] ∨ fmt.take 2 = [0x6c, 0x75])) := by
        rintro (hmem | ⟨hl, hu | hlu⟩)
        · simp only [List.mem_cons, List.not_mem_nil, or_false] at hmem
          rcases hmem with h | h | h
          · exact hconv.1 h
          · exact hconv.2.1 h
          · exact hconv.2.2.1 h
        · exact (hlong hl).1 hu
        · exact (hlong hl).2 hlu
      rw [NegativeDecimal, NegativeDecimal, conversions_conversion, if_neg hnone]
  | unfinished => exact absurd trivial hun

end Renders

/-- For enough fuel, `printk` returns, has emitted `out` and has read nothing outside the `len`
characters of its format and their NUL. -/
def Prints (mem stack : Bytes) (fmt len : Nat) (args : List Arg) (out : List UInt8) : Prop :=
  ∃ n₀, ∀ n, n₀ ≤ n → ∃ o, printk mem stack n fmt ⟨[], [], args⟩ = .ok (0, o) ∧ o.out = out ∧
    ∀ a ∈ o.reads, fmt ≤ a ∧ a ≤ fmt + len

theorem printk_iff {mem stack : Bytes} {fmt : Nat} {args : List Arg} {text out : List UInt8}
    {vals : List PrintkArg} (htext : StringAt mem fmt text) (hargs : ArgsAt mem args vals)
    (h : Renders text vals out) :
    Prints mem stack fmt text.length args out ↔
      ¬ Unfinished text ∧ ¬ NegativeDecimal text vals := by
  have hstart : Scanning mem fmt (fmt + text.length) ⟨[], [], args⟩ fmt text vals :=
    ⟨htext, hargs, le_rfl, rfl, by simp⟩
  -- what a run of a finished format emits
  have hrun : ¬ Unfinished text → ∃ actual, Prints mem stack fmt text.length args actual ∧
      (actual = out ↔ ¬ NegativeDecimal text vals) := by
    intro hun
    obtain ⟨actual, hactual, hiff⟩ := actual_of_renders h hun le_rfl
    refine ⟨actual, ⟨text.length + textLength vals + 1, fun n hn => ?_⟩, hiff⟩
    obtain ⟨o, hloop, hout, hreads⟩ :=
      hstart.printkLoop_ok stack (n := n) hactual (by omega)
    refine ⟨o, ?_, hout, hreads⟩
    rw [printk, Code.bind_of_ok hloop]
    rfl
  constructor
  · rintro ⟨n₀, hprints⟩
    have hun : ¬ Unfinished text := by
      intro hun
      obtain ⟨o, hok, -, hreads⟩ := hprints n₀ le_rfl
      obtain ⟨u, o', hloop, hret⟩ := Code.bind_ok.mp hok
      cases hret
      have hle := (hreads _ (reads_past_end htext hun hloop)).2
      omega
    obtain ⟨actual, ⟨n₁, hactual⟩, hiff⟩ := hrun hun
    refine ⟨hun, hiff.mp ?_⟩
    obtain ⟨o, hok, hout, -⟩ := hprints (max n₀ n₁) (le_max_left _ _)
    obtain ⟨o', hok', hout', -⟩ := hactual (max n₀ n₁) (le_max_right _ _)
    rw [hok] at hok'
    cases hok'
    exact hout'.symm.trans hout
  · rintro ⟨hun, hneg⟩
    obtain ⟨actual, hactual, hiff⟩ := hrun hun
    rwa [hiff.mpr hneg] at hactual

/-- Memory that holds the string `text` at 0. -/
def textAt (text : List UInt8) : Bytes := fun i => text.getD i 0

theorem printk_percent :
    Prints (textAt (ascii "n=%d%%")) Bytes.zero 0 6 [.int 7] (ascii "n=7%") := by
  have hfmt : ascii "n=%d%%" = [0x6e, 0x3d, 0x25, 0x64, 0x25, 0x25] := rfl
  have hout : ascii "n=7%" = 0x6e :: 0x3d :: (signedDecimal (7 : UInt32).toInt32.toInt ++ [0x25]) := by
    decide
  rw [hfmt, hout]
  have htext : StringAt (textAt [0x6e, 0x3d, 0x25, 0x64, 0x25, 0x25]) 0
      [0x6e, 0x3d, 0x25, 0x64, 0x25, 0x25] := by
    simp [StringAt, textAt]
  have hargs : ArgsAt (textAt [0x6e, 0x3d, 0x25, 0x64, 0x25, 0x25]) [.int 7] [.int 7] :=
    .cons rfl .nil
  have hrenders : Renders [0x6e, 0x3d, 0x25, 0x64, 0x25, 0x25] [.int 7]
      (0x6e :: 0x3d :: (signedDecimal (7 : UInt32).toInt32.toInt ++ [0x25])) :=
    .literal (by decide) (.literal (by decide) (.int (.percent .nil)))
  refine (printk_iff htext hargs hrenders).mpr ⟨fun h => h, ?_⟩
  rintro ⟨v, hmem, hv⟩
  obtain ⟨-, hv'⟩ := Prod.mk.inj (List.mem_singleton.mp hmem)
  cases hv'
  exact absurd hv (by decide)

/-- The format `%` is read behind its NUL. -/
theorem printk_unfinished : ¬ ∃ out, Prints (textAt [0x25]) Bytes.zero 0 1 [] out := by
  rintro ⟨out, n, hprints⟩
  obtain ⟨o, hok, -, hreads⟩ := hprints n le_rfl
  obtain ⟨u, o', hloop, hret⟩ := Code.bind_ok.mp hok
  cases hret
  have htext : StringAt (textAt [0x25]) 0 [0x25] := ⟨rfl, by decide, rfl⟩
  exact absurd (hreads _ (reads_past_end htext trivial hloop)).2 (by decide)

/-- Wherever a scan meets the conversion `conv`, it takes `arg` and emits `text`. -/
def Converts (conv : List UInt8) (arg : Arg) (text : List UInt8) : Prop :=
  ∀ (mem stack : Bytes) (n p : Nat) (o : Output) (args : List Arg),
    (∀ i, i < conv.length → mem (p + i) = conv.getD i 0) → o.args = arg :: args →
    ∃ q o', convert mem stack n p o = .ok (q, o') ∧ q + 1 = p + conv.length ∧
      o'.out = o.out ++ text ∧ o'.args = args

private theorem converts_int (v : UInt32) :
    Converts [0x64] (.int v) (Drivers.emitDecimal v.toInt32.toInt64.toUInt64) := by
  intro mem stack n p o args hconv hargs
  have hp : mem p = 0x64 := hconv 0 (by decide)
  rw [convert, fetch_bind, hp, if_neg (by decide), if_pos rfl]
  exact ⟨p, _, emitArg_ok p hargs rfl, rfl, rfl, rfl⟩

private theorem converts_long (u : UInt64) :
    Converts [0x6c, 0x75] (.long u) (Drivers.emitDecimal u) := by
  intro mem stack n p o args hconv hargs
  have hp : mem p = 0x6c := hconv 0 (by decide)
  have hu : mem (p + 1) = 0x75 := hconv 1 (by decide)
  rw [convert, fetch_bind, hp, if_neg (by decide), if_neg (by decide), if_pos rfl, convertLong,
    fetch_bind, hu, isLongLong, if_neg (by decide), pure_bind, if_neg (by decide), if_pos rfl]
  exact ⟨p + 1, _, emitArg_ok (p + 1) hargs rfl, rfl, rfl, rfl⟩

private theorem converts_longLong (u : UInt64) :
    Converts [0x6c, 0x6c, 0x75] (.long u) (Drivers.emitDecimal u) := by
  intro mem stack n p o args hconv hargs
  have hp : mem p = 0x6c := hconv 0 (by decide)
  have hl : mem (p + 1) = 0x6c := hconv 1 (by decide)
  have hu : mem (p + 2) = 0x75 := hconv 2 (by decide)
  rw [convert, fetch_bind, hp, if_neg (by decide), if_neg (by decide), if_pos rfl, convertLong,
    fetch_bind, hl, isLongLong, if_pos rfl, map_fetch_bind, hu, if_pos (by decide)]
  exact ⟨p + 2, _, emitArg_ok (p + 2) hargs rfl, rfl, rfl, rfl⟩

/-- What is asked of the decimal conversions, with `v` for a `%d`. -/
structure DecimalConversions (v : UInt32) : Prop where
  int : Converts [0x64] (.int v) (signedDecimal v.toInt32.toInt)
  long : ∀ u, Converts [0x6c, 0x75] (.long u) (asciiNumeral 10 u.toNat)
  longLong : ∀ u, Converts [0x6c, 0x6c, 0x75] (.long u) (asciiNumeral 10 u.toNat)
  noLeadingZero : ∀ u : UInt64, u ≠ 0 → (asciiNumeral 10 u.toNat).head? ≠ some 0x30
  inside : ∀ stack u o, emitDecimal stack u o ≠ .error .outOfBounds

theorem decimalConversions_iff (v : UInt32) : DecimalConversions v ↔ 0 ≤ v.toInt32 := by
  constructor
  · intro h
    refine Int32.not_lt.mp fun hv => ?_
    have hargs : (⟨[], [], [.int v]⟩ : Output).args = [.int v] := rfl
    have hconv : ∀ i, i < [(0x64 : UInt8)].length → textAt [0x64] (0 + i) = [0x64].getD i 0 := by
      intro i _
      rw [Nat.zero_add]
      rfl
    obtain ⟨q, o, hrun, -, hout, -⟩ := h.int _ Bytes.zero 0 0 _ _ hconv hargs
    obtain ⟨q', o', hrun', -, hout', -⟩ := converts_int v _ Bytes.zero 0 0 _ _ hconv hargs
    rw [hrun] at hrun'
    cases hrun'
    have hne := emitDecimal_neg hv [] []
    rw [List.append_nil, List.append_nil] at hne
    exact hne (hout'.symm.trans hout)
  · intro hv
    refine ⟨?_, fun u => ?_, fun u => ?_, fun u hu => ?_, fun stack u o => ?_⟩
    · rw [← emitDecimal_nonneg hv]
      exact converts_int v
    · rw [← emitDecimal_eq]
      exact converts_long u
    · rw [← emitDecimal_eq]
      exact converts_longLong u
    · refine head_asciiNumeral (by omega) (by omega) fun hzero => hu ?_
      exact UInt64.toNat_inj.mp hzero
    · rw [emitDecimal_ok]
      intro h
      cases h

/-- `printk("%d", -1)` does not print `-1`. -/
theorem printk_minus_one : ¬ Converts [0x64] (.int 0xffffffff) (ascii "-1") := by
  intro h
  have hargs : (⟨[], [], [.int 0xffffffff]⟩ : Output).args = [.int 0xffffffff] := rfl
  have hconv : ∀ i, i < [(0x64 : UInt8)].length → textAt [0x64] (0 + i) = [0x64].getD i 0 := by
    intro i _
    rw [Nat.zero_add]
    rfl
  obtain ⟨q, o, hrun, -, hout, -⟩ := h _ Bytes.zero 0 0 _ _ hconv hargs
  obtain ⟨q', o', hrun', -, hout', -⟩ := converts_int 0xffffffff _ Bytes.zero 0 0 _ _ hconv hargs
  rw [hrun] at hrun'
  cases hrun'
  exact absurd (hout'.symm.trans hout) (by decide)

end Aitos.Drivers.Printk
