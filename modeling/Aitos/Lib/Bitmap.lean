import Aitos.Framework.Bits
import Aitos.Framework.Bytes
import Aitos.Framework.Word

/-!
# Bitmaps

`lib/kernel/bitmap.c` over the bytes of a bitmap and of the memory behind it.
-/

namespace Aitos.Lib

open Aitos.Framework

/-- `struct bitmap`: the bytes from `btmpBytesLen` on are the memory behind the bitmap.  The index
of every bit is an `int`: a bitmap comes out of a pool, which is smaller than that. -/
structure Bitmap where
  btmpBytesLen : UInt32
  bits : Bytes
  fits : 8 * btmpBytesLen.toNat < 2 ^ 31

namespace Bitmap

/-- A failed `ASSERT`. -/
structure Failed where
  deriving DecidableEq

def bitmapMask : UInt32 := 1

def bitmapScanTest (b : Bitmap) (bitIdx : UInt32) : Bool :=
  let byteIdx := bitIdx / 8
  let bitOdd := bitIdx % 8
  (b.bits byteIdx.toNat).toUInt32 &&& (bitmapMask <<< bitOdd) ≠ 0

/-- The first loop: at most `n` more bytes are skipped. -/
def skipFull (b : Bitmap) : Nat → UInt32 → UInt32
  | 0, idxByte => idxByte
  | n + 1, idxByte =>
      if b.bits idxByte.toNat = 0xff ∧ idxByte < b.btmpBytesLen then skipFull b n (idxByte + 1)
      else idxByte

/-- The second loop: the mask is 0 from the eighth bit on. -/
def clearBit (byte : UInt8) : Nat → UInt32 → UInt32
  | 0, idxBit => idxBit
  | n + 1, idxBit =>
      if (bitmapMask <<< idxBit).toUInt8 &&& byte ≠ 0 then clearBit byte n (idxBit + 1) else idxBit

/-- The third loop, with `bit_left` rounds to go. -/
def countRun (b : Bitmap) (cnt : UInt32) : Nat → UInt32 → UInt32 → Int32
  | 0, _, _ => -1
  | left + 1, bitNext, count =>
      let count := if !b.bitmapScanTest bitNext then count + 1 else 0
      if count = cnt then (bitNext - cnt + 1).toInt32
      else countRun b cnt left (bitNext + 1) count

def bitmapScan (b : Bitmap) (cnt : UInt32) : Except Failed Int32 :=
  let idxByte := b.skipFull b.btmpBytesLen.toNat 0
  if ¬ idxByte < b.btmpBytesLen then throw ⟨⟩
  else if idxByte = b.btmpBytesLen then return -1
  else
    let idxBit := clearBit (b.bits idxByte.toNat) 8 0
    let bitIdxStart := idxByte * 8 + idxBit
    if cnt = 1 then return bitIdxStart.toInt32
    else
      let bitLeft := b.btmpBytesLen * 8 - bitIdxStart
      return b.countRun cnt bitLeft.toNat (bitIdxStart + 1) 1

def bitmapSet (b : Bitmap) (bitIdx : UInt32) (value : Int8) : Except Failed Bitmap :=
  if ¬ (value = 0 ∨ value = 1) then throw ⟨⟩
  else
    let byteIdx := bitIdx / 8
    let bitOdd := bitIdx % 8
    let byte := (b.bits byteIdx.toNat).toUInt32
    if value ≠ 0 then
      return { b with
        bits := Function.update b.bits byteIdx.toNat (byte ||| bitmapMask <<< bitOdd).toUInt8 }
    else
      return { b with
        bits := Function.update b.bits byteIdx.toNat (byte &&& ~~~(bitmapMask <<< bitOdd)).toUInt8 }

/-- Bit `i` of the bitmap and of the memory behind it. -/
def bit (b : Bitmap) (i : Nat) : Bool := (b.bits (i / 8)).toNat.testBit (i % 8)

/-- The number of bits. -/
def size (b : Bitmap) : Nat := 8 * b.btmpBytesLen.toNat

section Bytes

private theorem forall_byte {P : UInt8 → Prop} (h : ∀ n : Fin 256, P ⟨⟨n⟩⟩) (byte : UInt8) :
    P byte :=
  h byte.toFin

private theorem forall_odd {P : UInt32 → Prop} (h : ∀ k : Fin 8, P (UInt32.ofNat k)) {odd : UInt32}
    (hodd : odd.toNat < 8) : P odd := by
  have hk := h ⟨odd.toNat, hodd⟩
  rwa [UInt32.ofNat_toNat] at hk

private theorem mask_ne_zero {odd : UInt32} (hodd : odd.toNat < 8) (byte : UInt8) :
    decide (byte.toUInt32 &&& (bitmapMask <<< odd) ≠ 0) = byte.toNat.testBit odd.toNat := by
  revert byte
  refine forall_odd (P := fun odd => ∀ byte : UInt8,
    decide (byte.toUInt32 &&& (bitmapMask <<< odd) ≠ 0) = byte.toNat.testBit odd.toNat)
    (fun k => forall_byte ?_) hodd
  revert k
  decide +kernel

private theorem full_byte {k : Nat} (hk : k < 8) : (0xff : UInt8).toNat.testBit k = true := by
  have h : ∀ k : Fin 8, (0xff : UInt8).toNat.testBit k = true := by decide
  exact h ⟨k, hk⟩

private theorem clearBit_spec (byte : UInt8) : byte ≠ 0xff →
    (clearBit byte 8 0).toNat < 8 ∧ byte.toNat.testBit (clearBit byte 8 0).toNat = false ∧
      ∀ k : Fin 8, k < (clearBit byte 8 0).toNat → byte.toNat.testBit k = true := by
  revert byte
  refine forall_byte ?_
  decide +kernel

private theorem testBit_set {odd : UInt32} (hodd : odd.toNat < 8) (byte : UInt8) {k : Nat}
    (hk : k < 8) : (byte.toUInt32 ||| bitmapMask <<< odd).toUInt8.toNat.testBit k =
      (decide (k = odd.toNat) || byte.toNat.testBit k) := by
  have hmask : ∀ j : Fin 8, (bitmapMask <<< UInt32.ofNat j).toNat = 2 ^ j.val := by decide
  have hodd' : (bitmapMask <<< odd).toNat = 2 ^ odd.toNat := by
    have h := hmask ⟨odd.toNat, hodd⟩
    rwa [UInt32.ofNat_toNat] at h
  rw [UInt32.toNat_toUInt8, UInt32.toNat_or, UInt8.toNat_toUInt32, hodd',
    Nat.testBit_mod_two_pow, decide_eq_true hk, Bool.true_and, Nat.testBit_or,
    Nat.testBit_two_pow, Bool.or_comm]
  congr 1
  exact decide_eq_decide.mpr eq_comm

end Bytes

section Scan

variable {b : Bitmap}

private theorem bitmapScanTest_eq (b : Bitmap) (bitIdx : UInt32) :
    b.bitmapScanTest bitIdx = b.bit bitIdx.toNat := by
  have hodd : (bitIdx % 8).toNat < 8 := by
    rw [UInt32.toNat_mod]
    exact Nat.mod_lt _ (by decide)
  rw [bitmapScanTest, mask_ne_zero hodd, bit, UInt32.toNat_div, UInt32.toNat_mod]
  rfl

private theorem bit_of_byte {i k : Nat} (hk : k < 8) :
    b.bit (8 * i + k) = (b.bits i).toNat.testBit k := by
  have hdiv : (8 * i + k) / 8 = i := by omega
  have hmod : (8 * i + k) % 8 = k := by omega
  rw [bit, hdiv, hmod]

private theorem size_eq (b : Bitmap) : b.size = 8 * b.btmpBytesLen.toNat := rfl

private theorem skipFull_spec {n : Nat} {i : UInt32} (h : i.toNat + n = b.btmpBytesLen.toNat) :
    i.toNat ≤ (b.skipFull n i).toNat ∧ (b.skipFull n i).toNat ≤ b.btmpBytesLen.toNat ∧
      (∀ k, i.toNat ≤ k → k < (b.skipFull n i).toNat → b.bits k = 0xff) ∧
      ((b.skipFull n i).toNat < b.btmpBytesLen.toNat →
        b.bits (b.skipFull n i).toNat ≠ 0xff) := by
  have hfits := b.fits
  induction n generalizing i with
  | zero =>
      rw [skipFull]
      refine ⟨le_rfl, by omega, fun k hk hk' => by omega, fun hlt => by omega⟩
  | succ n ih =>
      rw [skipFull]
      split
      · rename_i hfull
        have hnext : (i + 1).toNat = i.toNat + 1 := by
          rw [UInt32.toNat_add]
          exact Nat.mod_eq_of_lt (by change i.toNat + 1 < 2 ^ 32; omega)
        obtain ⟨hle, hle', hbytes, hstop⟩ := ih (i := i + 1) (by omega)
        refine ⟨by omega, hle', fun k hk hk' => ?_, hstop⟩
        by_cases hki : k = i.toNat
        · rw [hki]
          exact hfull.1
        · exact hbytes k (by omega) hk'
      · rename_i hstop
        refine ⟨le_rfl, by omega, fun k hk hk' => by omega, fun hlt hff => hstop ⟨hff, ?_⟩⟩
        exact UInt32.lt_iff_toNat_lt.mpr hlt

/-- An index, or -1. -/
def result : Option Nat → Int32
  | none => -1
  | some i => (UInt32.ofNat i).toInt32

private theorem countRun_eq {cnt : UInt32} {left : Nat} {next count : UInt32}
    (hleft : next.toNat + left ≤ 2 ^ 31) (hcount : count.toNat ≤ next.toNat) :
    b.countRun cnt left next count =
      result (scanRun b.bit cnt.toNat left next.toNat count.toNat) := by
  induction left generalizing next count with
  | zero => rfl
  | succ left ih =>
      have hnext : (next + 1).toNat = next.toNat + 1 := by
        rw [UInt32.toNat_add]
        exact Nat.mod_eq_of_lt (by change next.toNat + 1 < 2 ^ 32; omega)
      obtain ⟨c, hc⟩ : ∃ c : UInt32,
          c = if !b.bitmapScanTest next then count + 1 else 0 := ⟨_, rfl⟩
      have hcnat : c.toNat = if b.bit next.toNat then 0 else count.toNat + 1 := by
        rw [hc, bitmapScanTest_eq]
        cases b.bit next.toNat with
        | true => rfl
        | false =>
            change (count + 1).toNat = count.toNat + 1
            rw [UInt32.toNat_add]
            exact Nat.mod_eq_of_lt (by change count.toNat + 1 < 2 ^ 32; omega)
      have hcle : c.toNat ≤ next.toNat + 1 := by
        rw [hcnat]
        split <;> omega
      simp only [countRun, scanRun, ← hc, ← hcnat]
      by_cases hfound : c = cnt
      · rw [if_pos hfound, if_pos (congrArg UInt32.toNat hfound)]
        have hcnt : cnt.toNat ≤ next.toNat + 1 := hfound ▸ hcle
        have hnat : next - cnt + 1 = UInt32.ofNat (next.toNat + 1 - cnt.toNat) := by
          apply UInt32.toNat_inj.mp
          have hlt := cnt.toNat_lt
          rw [UInt32.toNat_add, UInt32.toNat_sub, UInt32.toNat_ofNat']
          change ((2 ^ 32 - cnt.toNat + next.toNat) % 2 ^ 32 + 1) % 2 ^ 32 = _
          omega
        rw [hnat]
        rfl
      · have hne : c.toNat ≠ cnt.toNat := fun h => hfound (UInt32.toNat_inj.mp h)
        rw [if_neg hfound, if_neg hne, ih (by omega) (by omega), hnext]

/-- What `bitmap_scan` does: it fails when all bits are set; else it takes the first clear bit, or
the first run that the counting scan finds from there on. -/
theorem bitmapScan_cases (b : Bitmap) (cnt : UInt32) :
    (∀ i, i < b.size → b.bit i = true) ∧ b.bitmapScan cnt = .error ⟨⟩ ∨
      ∃ start, start < b.size ∧ b.bit start = false ∧ (∀ k, k < start → b.bit k = true) ∧
        b.bitmapScan cnt = .ok (result (if cnt = 1 then some start else
          scanRun b.bit cnt.toNat (b.size - start) (start + 1) 1)) := by
  have hfits := b.fits
  have hsize := b.size_eq
  obtain ⟨-, hle, hbytes, hstop⟩ :=
    skipFull_spec (b := b) (n := b.btmpBytesLen.toNat) (i := 0) (Nat.zero_add _)
  have hset : ∀ k, k < 8 * (b.skipFull b.btmpBytesLen.toNat 0).toNat → b.bit k = true := by
    intro k hk
    have hbyte := hbytes (k / 8) (Nat.zero_le _) (by omega)
    rw [bit, hbyte]
    exact full_byte (Nat.mod_lt k (by decide))
  rw [bitmapScan]
  generalize b.skipFull b.btmpBytesLen.toNat 0 = r at *
  by_cases hr : r < b.btmpBytesLen
  · right
    have hlt : r.toNat < b.btmpBytesLen.toNat := UInt32.lt_iff_toNat_lt.mp hr
    have hne : r ≠ b.btmpBytesLen := fun h => by
      rw [h] at hlt
      exact Nat.lt_irrefl _ hlt
    obtain ⟨hbit, hclear, hbefore⟩ := clearBit_spec (b.bits r.toNat) (hstop hlt)
    have hstart : (r * 8 + clearBit (b.bits r.toNat) 8 0).toNat =
        8 * r.toNat + (clearBit (b.bits r.toNat) 8 0).toNat := by
      rw [UInt32.toNat_add, UInt32.toNat_mul]
      change (r.toNat * 8 % 2 ^ 32 + _) % 2 ^ 32 = _
      omega
    rw [if_neg (not_not_intro hr), if_neg hne]
    generalize clearBit (b.bits r.toNat) 8 0 = k at *
    refine ⟨8 * r.toNat + k.toNat, by omega, ?_, ?_, ?_⟩
    · rw [bit_of_byte hbit]
      exact hclear
    · intro j hj
      by_cases hj' : j < 8 * r.toNat
      · exact hset j hj'
      · have hjk : 8 * r.toNat + (j - 8 * r.toNat) = j := by omega
        rw [← hjk, bit_of_byte (by omega)]
        exact hbefore ⟨j - 8 * r.toNat, by omega⟩ (by change j - 8 * r.toNat < k.toNat; omega)
    · split
      · rw [result, ← hstart, UInt32.ofNat_toNat]
        rfl
      · have hleft : (b.btmpBytesLen * 8 - (r * 8 + k)).toNat =
            b.size - (8 * r.toNat + k.toNat) := by
          have hlen : (b.btmpBytesLen * 8).toNat = b.size := by
            rw [UInt32.toNat_mul]
            change b.btmpBytesLen.toNat * 8 % 2 ^ 32 = _
            omega
          rw [UInt32.toNat_sub, hlen, hstart]
          omega
        have hnext : (r * 8 + k + 1).toNat = 8 * r.toNat + k.toNat + 1 := by
          rw [UInt32.toNat_add, hstart]
          change (8 * r.toNat + k.toNat + 1) % 2 ^ 32 = _
          omega
        have hone : (1 : UInt32).toNat = 1 := rfl
        have hrun := @countRun_eq b cnt (b.btmpBytesLen * 8 - (r * 8 + k)).toNat (r * 8 + k + 1) 1
          (by omega) (by omega)
        rw [hnext, hleft, hone] at hrun
        dsimp only
        rw [hleft, hrun]
        rfl
  · left
    have hlen : r.toNat = b.btmpBytesLen.toNat := by
      have hge : b.btmpBytesLen.toNat ≤ r.toNat :=
        Nat.not_lt.mp fun hlt => hr (UInt32.lt_iff_toNat_lt.mpr hlt)
      omega
    refine ⟨fun i hi => hset i (by omega), ?_⟩
    rw [if_pos hr]
    rfl

private theorem toInt_result {i : Nat} (hi : i < 2 ^ 31) : (result (some i)).toInt = i := by
  have hnat : (UInt32.ofNat i).toNat = i := by
    rw [UInt32.toNat_ofNat']
    exact Nat.mod_eq_of_lt (by omega)
  rw [result, toInt_toInt32, hnat, if_pos hi]

private theorem result_ne {i : Nat} (hi : i < 2 ^ 31) : result (some i) ≠ -1 := by
  intro h
  have hint := toInt_result hi
  rw [h] at hint
  have hneg : (-1 : Int32).toInt = -1 := by decide
  omega

/-- A first run that lies inside the bitmap. -/
structure FirstRun (b : Bitmap) (cnt start : Nat) : Prop where
  run : IsRun b.bit cnt start
  inside : start + cnt ≤ b.size
  first : ∀ i, IsRun b.bit cnt i → i + cnt ≤ b.size → start ≤ i

private theorem le_of_isRun {cnt start i : Nat} (hcnt : 0 < cnt)
    (hbefore : ∀ k, k < start → b.bit k = true) (hi : IsRun b.bit cnt i) : start ≤ i := by
  by_contra hlt
  have hfalse := hi i le_rfl (by omega)
  rw [hbefore i (by omega)] at hfalse
  cases hfalse

private theorem scan_first {cnt start : Nat} (hcnt : 1 < cnt) (hsize : start < b.size)
    (hclear : b.bit start = false) (hbefore : ∀ k, k < start → b.bit k = true) :
    (∀ i, scanRun b.bit cnt (b.size - start) (start + 1) 1 = some i →
      IsRun b.bit cnt i ∧ i + cnt ≤ b.size + 1 ∧ ∀ i', IsRun b.bit cnt i' → i ≤ i') ∧
      (scanRun b.bit cnt (b.size - start) (start + 1) 1 = none →
        ∀ i, IsRun b.bit cnt i → b.size + 1 < i + cnt) := by
  have hmin : ∀ i, IsRun b.bit cnt i → start + 1 - 1 ≤ i := by
    intro i hi
    have hle := le_of_isRun (by omega) hbefore hi
    omega
  obtain ⟨hsome, hnone⟩ := scanRun_first (b.size - start) hcnt (by omega) hmin
  refine ⟨fun i hi => ⟨?_, ?_, hsome i hi⟩, fun h i hi => ?_⟩
  · refine scanRun_some _ (by omega) (fun j hj hj' => ?_) hi
    have hj'' : j = start := by omega
    rw [hj'']
    exact hclear
  · have hend := scanRun_inside _ (by omega) hi
    omega
  · have hend := hnone h i hi
    omega

private theorem bitmapScan_first {cnt : UInt32} (hcnt : 1 ≤ cnt)
    (hrun : ∃ i, IsRun b.bit cnt.toNat i ∧ i + cnt.toNat ≤ b.size) :
    ∃ start r, FirstRun b cnt.toNat start ∧ b.bitmapScan cnt = .ok r ∧ r.toInt = start := by
  have hfits := b.fits
  have hsize := b.size_eq
  have hpos : 1 ≤ cnt.toNat := UInt32.le_iff_toNat_le.mp hcnt
  obtain ⟨i₀, hi₀, hin₀⟩ := hrun
  rcases bitmapScan_cases b cnt with ⟨hfull, -⟩ | ⟨start, hstart, hclear, hbefore, hscan⟩
  · have hfalse := hi₀ i₀ le_rfl (by omega)
    rw [hfull i₀ (by omega)] at hfalse
    cases hfalse
  · by_cases hone : cnt = 1
    · have hone' : cnt.toNat = 1 := by
        rw [hone]
        rfl
      rw [if_pos hone] at hscan
      have hrun : IsRun b.bit cnt.toNat start := by
        intro j hj hj'
        have hj'' : j = start := by omega
        rw [hj'']
        exact hclear
      exact ⟨start, _, ⟨hrun, by omega, fun i hi _ => le_of_isRun hpos hbefore hi⟩, hscan,
        toInt_result (by omega)⟩
    · have hone' : 1 < cnt.toNat := by
        have hne : cnt.toNat ≠ 1 := fun h => hone (UInt32.toNat_inj.mp h)
        omega
      rw [if_neg hone] at hscan
      obtain ⟨hsome, hnone⟩ := scan_first hone' hstart hclear hbefore
      cases hfound : scanRun b.bit cnt.toNat (b.size - start) (start + 1) 1 with
      | none =>
          have hend := hnone hfound i₀ hi₀
          omega
      | some i =>
          obtain ⟨hi, -, hfirst⟩ := hsome i hfound
          have hle := hfirst i₀ hi₀
          rw [hfound] at hscan
          exact ⟨i, _, ⟨hi, by omega, fun i' hi' _ => hfirst i' hi'⟩, hscan,
            toInt_result (by omega)⟩

end Scan

section Set

variable {b : Bitmap}

private theorem bitmapSet_ok (b : Bitmap) (i : UInt32) :
    ∃ b', b.bitmapSet i 1 = .ok b' ∧
      ∀ j : UInt32, b'.bitmapScanTest j = (decide (j = i) || b.bitmapScanTest j) := by
  refine ⟨_, rfl, fun j => ?_⟩
  rw [bitmapScanTest_eq, bitmapScanTest_eq]
  have hodd : (i % 8).toNat < 8 := by
    rw [UInt32.toNat_mod]
    exact Nat.mod_lt _ (by decide)
  have hdiv : (i / 8).toNat = i.toNat / 8 := by simp
  have hmod : (i % 8).toNat = i.toNat % 8 := by simp
  simp only [bit]
  by_cases hbyte : j.toNat / 8 = i.toNat / 8
  · rw [hbyte, ← hdiv, Function.update_self, testBit_set hodd _ (Nat.mod_lt _ (by decide)), hmod]
    congr 1
    refine decide_eq_decide.mpr ⟨fun h => ?_, fun h => by rw [h]⟩
    exact UInt32.toNat_inj.mp (by omega)
  · have hne : j ≠ i := fun h => hbyte (by rw [h])
    rw [Function.update_of_ne (by rw [hdiv]; exact hbyte), decide_eq_false hne, Bool.false_or]

private theorem setAll_ok (is : List UInt32) :
    ∃ b', is.foldlM (fun b i => bitmapSet b i 1) b = .ok b' ∧
      ∀ j : UInt32, b'.bitmapScanTest j = true ↔ j ∈ is ∨ b.bitmapScanTest j = true := by
  induction is generalizing b with
  | nil => exact ⟨b, rfl, fun j => by simp⟩
  | cons i is ih =>
      obtain ⟨b₁, hset, htest⟩ := bitmapSet_ok b i
      obtain ⟨b', hrun, htest'⟩ := ih (b := b₁)
      refine ⟨b', ?_, fun j => ?_⟩
      · rw [List.foldlM_cons, hset]
        exact hrun
      · rw [htest', htest, List.mem_cons, Bool.or_eq_true, decide_eq_true_iff]
        tauto

end Set

/-- The first run is found, and after each of its bits `is` is set, in any order, these bits and
the ones set before test as set. -/
theorem bitmapScan_set {b : Bitmap} {cnt : UInt32} (hcnt : 1 ≤ cnt)
    (hrun : ∃ i, IsRun b.bit cnt.toNat i ∧ i + cnt.toNat ≤ b.size) :
    ∃ start r, FirstRun b cnt.toNat start ∧ b.bitmapScan cnt = .ok r ∧ r.toInt = start ∧
      ∀ is : List UInt32, (∀ i, i ∈ is ↔ start ≤ i.toNat ∧ i.toNat < start + cnt.toNat) →
        ∃ b', is.foldlM (fun b i => bitmapSet b i 1) b = .ok b' ∧
          ∀ j : UInt32, b'.bitmapScanTest j = true ↔
            start ≤ j.toNat ∧ j.toNat < start + cnt.toNat ∨ b.bitmapScanTest j = true := by
  obtain ⟨start, r, hfirst, hscan, hr⟩ := bitmapScan_first hcnt hrun
  refine ⟨start, r, hfirst, hscan, hr, fun is his => ?_⟩
  obtain ⟨b', hset, htest⟩ := setAll_ok (b := b) is
  refine ⟨b', hset, fun j => ?_⟩
  rw [htest, his]

/-- The same bitmap, with whatever behind it. -/
structure SameInside (b b' : Bitmap) : Prop where
  len : b'.btmpBytesLen = b.btmpBytesLen
  bits : ∀ i, i < b.btmpBytesLen.toNat → b'.bits i = b.bits i

theorem SameInside.bit {b b' : Bitmap} (h : SameInside b b') {i : Nat} (hi : i < b.size) :
    b'.bit i = b.bit i := by
  have hsize := b.size_eq
  rw [Bitmap.bit, Bitmap.bit, h.bits (i / 8) (by omega)]

theorem SameInside.size {b b' : Bitmap} (h : SameInside b b') : b'.size = b.size := by
  rw [size_eq, size_eq, h.len]

private theorem SameInside.isRun {b b' : Bitmap} (h : SameInside b b') {cnt i : Nat}
    (hin : i + cnt ≤ b.size) (hi : IsRun b'.bit cnt i) : IsRun b.bit cnt i := by
  intro j hj hj'
  rw [← h.bit (by omega)]
  exact hi j hj hj'

/-- The bitmap with a clear byte behind it. -/
def clearBehind (b : Bitmap) : Bitmap :=
  { b with bits := Function.update b.bits b.btmpBytesLen.toNat 0 }

private theorem sameInside_clearBehind (b : Bitmap) : SameInside b b.clearBehind :=
  ⟨rfl, fun _ hi => Function.update_of_ne hi.ne _ _⟩

private theorem bit_clearBehind (b : Bitmap) : b.clearBehind.bit b.size = false := by
  have hdiv : b.size / 8 = b.btmpBytesLen.toNat := by
    rw [size_eq]
    omega
  have hbyte : b.clearBehind.bits b.btmpBytesLen.toNat = 0 := Function.update_self ..
  rw [bit, hdiv, hbyte]
  exact Nat.zero_testBit _

/-- A run that ends with the first bit behind the bitmap is found when that bit is clear. -/
private theorem bitmapScan_behind {b : Bitmap} {cnt : UInt32} (hcnt : 1 < cnt.toNat)
    (hle : cnt.toNat ≤ b.size + 1)
    (hlast : ∀ i, b.size + 1 - cnt.toNat ≤ i → i < b.size → b.bit i = false) :
    b.clearBehind.bitmapScan cnt ≠ .ok (-1) := by
  intro hscan
  have hfits := b.fits
  have hsame := sameInside_clearBehind b
  have hsize := hsame.size
  have hsize' := b.size_eq
  have hrun : IsRun b.clearBehind.bit cnt.toNat (b.size + 1 - cnt.toNat) := by
    intro j hj hj'
    by_cases hjs : j = b.size
    · rw [hjs]
      exact bit_clearBehind b
    · rw [hsame.bit (by omega)]
      exact hlast j hj (by omega)
  rcases bitmapScan_cases b.clearBehind cnt with ⟨-, herr⟩ | ⟨start, hstart, hclear, hbefore, hok⟩
  · rw [hscan] at herr
    cases herr
  · have hone : cnt ≠ 1 := by
      rintro rfl
      exact absurd hcnt (by decide)
    obtain ⟨hsome, hnone⟩ := scan_first hcnt hstart hclear hbefore
    rw [if_neg hone, hscan] at hok
    cases hfound : scanRun b.clearBehind.bit cnt.toNat (b.clearBehind.size - start) (start + 1) 1 with
    | none =>
        have hend := hnone hfound _ hrun
        omega
    | some i =>
        rw [hfound] at hok
        obtain ⟨-, hend, -⟩ := hsome i hfound
        exact result_ne (by omega) (Except.ok.inj hok).symm

/-- Without a run inside the bitmap, `bitmap_scan` returns -1 whatever follows the bitmap, if and
only if some bit is clear and the last `cnt - 1` bits are not all clear. -/
theorem bitmapScan_none_iff {b : Bitmap} {cnt : UInt32} (hcnt : 1 ≤ cnt)
    (hnone : ∀ i, IsRun b.bit cnt.toNat i → b.size < i + cnt.toNat) :
    (∀ b', SameInside b b' → b'.bitmapScan cnt = .ok (-1)) ↔
      (∃ i, i < b.size ∧ b.bit i = false) ∧
        ¬ (cnt.toNat ≤ b.size + 1 ∧
          ∀ i, b.size + 1 - cnt.toNat ≤ i → i < b.size → b.bit i = false) := by
  have hpos : 1 ≤ cnt.toNat := UInt32.le_iff_toNat_le.mp hcnt
  -- with a clear bit, a run of one bit would lie inside
  have hmany : ∀ i, i < b.size → b.bit i = false → 1 < cnt.toNat := by
    intro i hi hclear
    by_contra hone
    have hend := hnone i fun j hj hj' => by
      have hji : j = i := by omega
      rw [hji]
      exact hclear
    omega
  constructor
  · intro h
    rcases bitmapScan_cases b cnt with ⟨-, herr⟩ | ⟨start, hstart, hclear, -, -⟩
    · rw [h b ⟨rfl, fun _ _ => rfl⟩] at herr
      cases herr
    · refine ⟨⟨start, hstart, hclear⟩, ?_⟩
      rintro ⟨hle, hlast⟩
      exact bitmapScan_behind (hmany start hstart hclear) hle hlast
        (h _ (sameInside_clearBehind b))
  · rintro ⟨⟨i₀, hi₀, hclear₀⟩, hlast⟩ b' hsame
    have hsize := hsame.size
    rcases bitmapScan_cases b' cnt with ⟨hfull, -⟩ | ⟨start, hstart, hclear, hbefore, hok⟩
    · have hset := hfull i₀ (by omega)
      rw [hsame.bit hi₀, hclear₀] at hset
      cases hset
    · have hcnt' := hmany i₀ hi₀ hclear₀
      have hone : cnt ≠ 1 := by
        rintro rfl
        exact absurd hcnt' (by decide)
      obtain ⟨hsome, -⟩ := scan_first hcnt' hstart hclear hbefore
      rw [if_neg hone] at hok
      cases hfound : scanRun b'.bit cnt.toNat (b'.size - start) (start + 1) 1 with
      | none =>
          rw [hfound] at hok
          exact hok
      | some i =>
          exfalso
          obtain ⟨hi, hend, -⟩ := hsome i hfound
          by_cases hin : i + cnt.toNat ≤ b.size
          · have hout := hnone i (hsame.isRun hin hi)
            omega
          · refine hlast ⟨by omega, fun j hj hj' => ?_⟩
            rw [← hsame.bit hj']
            exact hi j (by omega) (by omega)

/-- A bitmap of one byte with clear memory behind it. -/
def ofByte (byte : UInt8) : Bitmap := ⟨1, fun i => if i = 0 then byte else 0, by decide⟩

private theorem no_pair {byte : UInt8}
    (h : ∀ i : Fin 7, (ofByte byte).bit i = true ∨ (ofByte byte).bit (i + 1) = true) :
    ∀ i, IsRun (ofByte byte).bit 2 i → (ofByte byte).size < i + 2 := by
  intro i hi
  by_contra hin
  have hlt : i < 7 := by
    change ¬ 8 < i + 2 at hin
    omega
  rcases h ⟨i, hlt⟩ with hset | hset
  · rw [hi i le_rfl (by omega)] at hset
    cases hset
  · rw [hi (i + 1) (by omega) (by omega)] at hset
    cases hset

/-- Two bits are found and set in a byte whose last two are clear. -/
theorem bitmapScan_set_pair :
    ∃ start r, FirstRun (ofByte 0x3f) 2 start ∧ (ofByte 0x3f).bitmapScan 2 = .ok r ∧
      r.toInt = start ∧
      ∀ is : List UInt32, (∀ i, i ∈ is ↔ start ≤ i.toNat ∧ i.toNat < start + 2) →
        ∃ b', is.foldlM (fun b i => bitmapSet b i 1) (ofByte 0x3f) = .ok b' ∧
          ∀ j : UInt32, b'.bitmapScanTest j = true ↔
            start ≤ j.toNat ∧ j.toNat < start + 2 ∨ (ofByte 0x3f).bitmapScanTest j = true := by
  have hrun : ∃ i, IsRun (ofByte 0x3f).bit (2 : UInt32).toNat i ∧
      i + (2 : UInt32).toNat ≤ (ofByte 0x3f).size := by
    refine ⟨6, fun j hj hj' => ?_, by decide⟩
    have hcases : j = 6 ∨ j = 7 := by
      change j < 6 + 2 at hj'
      omega
    rcases hcases with rfl | rfl <;> decide
  exact bitmapScan_set (by decide) hrun

/-- A single clear bit before a set one. -/
theorem bitmapScan_none_pair :
    (∀ i, IsRun (ofByte 0xbf).bit (2 : UInt32).toNat i →
      (ofByte 0xbf).size < i + (2 : UInt32).toNat) ∧
    ∀ b', SameInside (ofByte 0xbf) b' → b'.bitmapScan 2 = .ok (-1) := by
  have hnone : ∀ i, IsRun (ofByte 0xbf).bit (2 : UInt32).toNat i →
      (ofByte 0xbf).size < i + (2 : UInt32).toNat := no_pair (by decide)
  refine ⟨hnone, (bitmapScan_none_iff (by decide) hnone).mpr ⟨⟨6, by decide, by decide⟩, ?_⟩⟩
  rintro ⟨-, hlast⟩
  exact absurd (hlast 7 (by decide) (by decide)) (by decide)

/-- A full bitmap fails the assertion; a clear last bit is taken together with the bit behind the
bitmap. -/
theorem bitmapScan_none_wrong :
    ((∀ i, IsRun (ofByte 0xff).bit 2 i → (ofByte 0xff).size < i + 2) ∧
      (ofByte 0xff).bitmapScan 2 = .error ⟨⟩) ∧
    (∀ i, IsRun (ofByte 0x7f).bit 2 i → (ofByte 0x7f).size < i + 2) ∧
      (ofByte 0x7f).bitmapScan 2 = .ok 7 :=
  ⟨⟨no_pair (by decide), rfl⟩, no_pair (by decide), rfl⟩

end Bitmap

end Aitos.Lib
