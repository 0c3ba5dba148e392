import Mathlib

/-!
# Numerals

The numeral of a number in a base: its digits, the most significant first, and a single zero for
zero.  In ASCII the digits from ten on are capital letters.
-/

namespace Aitos.Framework

def numeral (b n : Nat) : List Nat := if n = 0 then [0] else (Nat.digits b n).reverse

variable {b n : Nat}

theorem numeral_of_lt (h : n < b) : numeral b n = [n] := by
  unfold numeral
  split
  · rename_i hn
    rw [hn]
  · rename_i hn
    rw [Nat.digits_of_lt b n hn h, List.reverse_singleton]

theorem numeral_of_le (hb : 1 < b) (h : b ≤ n) : numeral b n = numeral b (n / b) ++ [n % b] := by
  have hn : n ≠ 0 := by omega
  have hdiv : n / b ≠ 0 := (Nat.div_pos h (by omega)).ne'
  rw [numeral, if_neg hn, numeral, if_neg hdiv, Nat.digits_def' hb (by omega), List.reverse_cons]

theorem numeral_ne_nil (b n : Nat) : numeral b n ≠ [] := by
  unfold numeral
  split
  · exact List.cons_ne_nil _ _
  · rename_i hn
    rw [ne_eq, List.reverse_eq_nil_iff]
    exact Nat.digits_ne_nil_iff_ne_zero.mpr hn

theorem numeral_lt (hb : 1 < b) {d : Nat} (hd : d ∈ numeral b n) : d < b := by
  unfold numeral at hd
  split at hd
  · rw [List.mem_singleton.mp hd]
    omega
  · exact Nat.digits_lt_base hb (List.mem_reverse.mp hd)

theorem ofDigits_numeral (b n : Nat) : Nat.ofDigits b (numeral b n).reverse = n := by
  unfold numeral
  split
  · rename_i hn
    rw [hn]
    rfl
  · rw [List.reverse_reverse, Nat.ofDigits_digits]

theorem head_numeral_ne_zero (hn : n ≠ 0) : (numeral b n).head (numeral_ne_nil b n) ≠ 0 := by
  simp only [numeral, if_neg hn, List.head_reverse]
  exact Nat.getLast_digit_ne_zero b hn

def digitChar (d : Nat) : UInt8 := UInt8.ofNat (if d < 10 then 0x30 + d else 0x41 + (d - 10))

def asciiNumeral (b n : Nat) : List UInt8 := (numeral b n).map digitChar

/-- The decimal numeral of an integer, a minus sign first when it is negative. -/
def signedDecimal (z : Int) : List UInt8 :=
  if z < 0 then 0x2d :: asciiNumeral 10 z.natAbs else asciiNumeral 10 z.natAbs

theorem asciiNumeral_of_lt (h : n < b) : asciiNumeral b n = [digitChar n] := by
  rw [asciiNumeral, numeral_of_lt h, List.map_singleton]

theorem asciiNumeral_of_le (hb : 1 < b) (h : b ≤ n) :
    asciiNumeral b n = asciiNumeral b (n / b) ++ [digitChar (n % b)] := by
  rw [asciiNumeral, numeral_of_le hb h, List.map_append, List.map_singleton, asciiNumeral]

theorem asciiNumeral_ne_nil (b n : Nat) : asciiNumeral b n ≠ [] := by
  rw [asciiNumeral, ne_eq, List.map_eq_nil_iff]
  exact numeral_ne_nil b n

theorem digitChar_ne_zeroDigit {d : Nat} (hd : d < 36) (hne : d ≠ 0) : digitChar d ≠ 0x30 := by
  intro h
  have hnat := congrArg UInt8.toNat h
  rw [digitChar, UInt8.toNat_ofNat'] at hnat
  split at hnat <;> simp at hnat <;> omega

theorem head_asciiNumeral (hb : 1 < b) (hb' : b ≤ 36) (hn : n ≠ 0) :
    (asciiNumeral b n).head? ≠ some 0x30 := by
  have hne := numeral_ne_nil b n
  have hlt := numeral_lt hb (List.head_mem hne)
  rw [asciiNumeral, List.head?_map, List.head?_eq_some_head hne, Option.map_some, ne_eq,
    Option.some.injEq]
  exact digitChar_ne_zeroDigit (by omega) (head_numeral_ne_zero hn)

/-- A digit is neither a NUL nor a minus sign. -/
theorem le_digitChar {d : Nat} (hd : d < 36) : 0x30 ≤ digitChar d := by
  rw [UInt8.le_iff_toNat_le, digitChar, UInt8.toNat_ofNat']
  split <;> simp <;> omega

theorem le_of_mem_asciiNumeral (hb : 1 < b) (hb' : b ≤ 36) {c : UInt8}
    (hc : c ∈ asciiNumeral b n) : 0x30 ≤ c := by
  obtain ⟨d, hd, rfl⟩ := List.mem_map.mp hc
  have hlt := numeral_lt hb hd
  exact le_digitChar (by omega)

/-- What a digit stands for. -/
def digitValue (c : UInt8) : Option Nat :=
  if 0x30 ≤ c ∧ c ≤ 0x39 then some (c.toNat - 0x30)
  else if 0x41 ≤ c ∧ c ≤ 0x5a then some (c.toNat - 0x41 + 10)
  else none

theorem digitValue_digitChar {d : Nat} (hd : d < 36) : digitValue (digitChar d) = some d := by
  have hall : ∀ e ∈ List.range 36, digitValue (digitChar e) = some e := by decide
  exact hall d (List.mem_range.mpr hd)

/-- The characters are digits of the base that evaluate to `n`, and only a single zero starts with
a zero. -/
structure IsNumeral (b n : Nat) (cs : List UInt8) : Prop where
  nonempty : cs ≠ []
  leading : cs.head? = some 0x30 → cs = [0x30]
  value : ∃ ds : List Nat, cs.map digitValue = ds.map some ∧ (∀ d ∈ ds, d < b) ∧
    Nat.ofDigits b ds.reverse = n

theorem isNumeral_asciiNumeral (hb : 1 < b) (hb' : b ≤ 36) (n : Nat) :
    IsNumeral b n (asciiNumeral b n) where
  nonempty := asciiNumeral_ne_nil b n
  leading h := by
    have hn : n = 0 := by
      by_contra hn
      exact head_asciiNumeral hb hb' hn h
    rw [hn, asciiNumeral_of_lt (by omega)]
    rfl
  value := by
    refine ⟨numeral b n, ?_, fun d hd => numeral_lt hb hd, ofDigits_numeral b n⟩
    rw [asciiNumeral, List.map_map]
    refine List.map_congr_left fun d hd => ?_
    have hlt := numeral_lt hb hd
    exact digitValue_digitChar (by omega)

/-- A minus sign in front of the decimal numeral of a negative number -/
def IsSignedDecimal (z : Int) (cs : List UInt8) : Prop :=
  ∃ ds, IsNumeral 10 z.natAbs ds ∧ cs = if z < 0 then 0x2d :: ds else ds

theorem isSignedDecimal_signedDecimal (z : Int) : IsSignedDecimal z (signedDecimal z) :=
  ⟨asciiNumeral 10 z.natAbs, isNumeral_asciiNumeral (by omega) (by omega) _, rfl⟩

end Aitos.Framework
