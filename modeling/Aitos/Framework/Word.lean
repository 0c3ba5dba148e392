import Mathlib

/-!
# Words as signed numbers
-/

namespace Aitos.Framework

theorem toInt_toInt32 (v : UInt32) :
    v.toInt32.toInt = if v.toNat < 2 ^ 31 then (v.toNat : Int) else v.toNat - 2 ^ 32 := by
  change v.toBitVec.toInt = _
  rw [BitVec.toInt_eq_toNat_cond]
  change (if 2 * v.toNat < 2 ^ 32 then (v.toNat : Int) else v.toNat - (2 ^ 32 : Nat)) = _
  split <;> split <;> omega

theorem toInt32_le_iff {d e : UInt32} (hd : d.toNat < 2 ^ 31) :
    e.toInt32 ≤ d.toInt32 ↔ e.toNat ≤ d.toNat ∨ 2 ^ 31 ≤ e.toNat := by
  have he := e.toNat_lt
  rw [Int32.le_iff_toInt_le, toInt_toInt32, toInt_toInt32, if_pos hd]
  split <;> omega

end Aitos.Framework
