import Mathlib

/-!
# Byte buffers

A buffer, or a whole disk, is a function from addresses to bytes.  Words are little-endian and
32 bits wide.
-/

namespace Aitos.Framework

abbrev Bytes := Nat → UInt8

namespace Bytes

/-- `memcpy` of `len` bytes of `src` to address `off`. -/
def blit (b : Bytes) (off len : Nat) (src : Bytes) : Bytes :=
  fun i => if off ≤ i ∧ i < off + len then src (i - off) else b i

/-- `memset` of `len` bytes from address `off`. -/
def fill (b : Bytes) (off len : Nat) (v : UInt8) : Bytes := b.blit off len (fun _ => v)

def zero : Bytes := fun _ => 0

/-- The buffer seen from address `off` on. -/
def drop (b : Bytes) (off : Nat) : Bytes := fun i => b (off + i)

def word (b : Bytes) (off : Nat) : UInt32 :=
  UInt32.ofNat ((b off).toNat + 256 * (b (off + 1)).toNat + 65536 * (b (off + 2)).toNat +
    16777216 * (b (off + 3)).toNat)

/-- Byte `i` of a word. -/
def ofWord (w : UInt32) (i : Nat) : UInt8 := UInt8.ofNat (w.toNat / 256 ^ i)

/-- The words of `w` one after the other. -/
def ofWords (w : Nat → UInt32) : Bytes := fun i => ofWord (w (i / 4)) (i % 4)

section Blit

variable (b src : Bytes) (off len : Nat)

theorem blit_of_lt {i : Nat} (h : off ≤ i) (h' : i < off + len) :
    b.blit off len src i = src (i - off) :=
  if_pos ⟨h, h'⟩

theorem blit_of_outside {i : Nat} (h : i < off ∨ off + len ≤ i) : b.blit off len src i = b i := by
  apply if_neg
  omega

theorem blit_add {i : Nat} (h : i < len) : b.blit off len src (off + i) = src i := by
  rw [blit_of_lt b src off len (by omega) (by omega)]
  congr 1
  omega

theorem fill_of_outside {v : UInt8} {i : Nat} (h : i < off ∨ off + len ≤ i) :
    b.fill off len v i = b i := blit_of_outside b _ off len h

theorem fill_add {v : UInt8} {i : Nat} (h : i < len) : b.fill off len v (off + i) = v :=
  blit_add b _ off len h

end Blit

section Words

theorem word_congr {b b' : Bytes} {off off' : Nat} (h : ∀ i, i < 4 → b (off + i) = b' (off' + i)) :
    b.word off = b'.word off' := by
  have h₀ := h 0 (by omega)
  simp only [Nat.add_zero] at h₀
  rw [word, word, h₀, h 1 (by omega), h 2 (by omega), h 3 (by omega)]

theorem toNat_word (b : Bytes) (off : Nat) :
    (b.word off).toNat = (b off).toNat + 256 * (b (off + 1)).toNat +
      65536 * (b (off + 2)).toNat + 16777216 * (b (off + 3)).toNat := by
  have h₀ := (b off).toNat_lt
  have h₁ := (b (off + 1)).toNat_lt
  have h₂ := (b (off + 2)).toNat_lt
  have h₃ := (b (off + 3)).toNat_lt
  rw [word, UInt32.toNat_ofNat']
  apply Nat.mod_eq_of_lt
  omega

theorem toNat_ofWord (w : UInt32) (i : Nat) : (ofWord w i).toNat = w.toNat / 256 ^ i % 256 := by
  rw [ofWord, UInt8.toNat_ofNat']

theorem word_ofWord (w : UInt32) : word (ofWord w) 0 = w := by
  apply UInt32.toNat_inj.mp
  have hw := w.toNat_lt
  rw [toNat_word, toNat_ofWord, toNat_ofWord, toNat_ofWord, toNat_ofWord]
  omega

theorem word_ofWords (w : Nat → UInt32) (k : Nat) : (ofWords w).word (4 * k) = w k := by
  rw [← word_ofWord (w k)]
  apply word_congr
  intro i hi
  have h₁ : (4 * k + i) / 4 = k := by omega
  have h₂ : (4 * k + i) % 4 = i := by omega
  rw [ofWords, h₁, h₂, Nat.zero_add]

end Words

end Bytes

end Aitos.Framework
