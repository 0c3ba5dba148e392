import Aitos.Fs.Bitmap
import Aitos.Lib.Bitmap
import Aitos.Mm.Memory
import Aitos.Mm.PageMaps

/-!
# One bitmap, several models of its scan

`bitmap_scan` works on bytes.  The memory manager and the file system keep the bits of a bitmap, and
their scans find what the function of `lib/kernel/bitmap.c` finds.
-/

namespace Aitos.Lib.Bitmap

open Framework

variable (b : Bitmap) (cnt : UInt32)

/-- The scan of the bytes is a scan of the bits. -/
private theorem bitmapScan_bits : b.bitmapScan cnt = match firstClear b.bit 0 b.size with
    | none => .error ⟨⟩
    | some start => .ok (result (if cnt.toNat = 1 then some start else
        scanRun b.bit cnt.toNat (b.size - start) (start + 1) 1)) := by
  have hone : cnt = 1 ↔ cnt.toNat = 1 := UInt32.toNat_inj.symm
  rcases bitmapScan_cases b cnt with ⟨hfull, hscan⟩ | ⟨start, hsize, hclear, hbefore, hscan⟩
  · have hnone : firstClear b.bit 0 b.size = none :=
      firstClear_none fun k _ hk => hfull k (by omega)
    rw [hscan, hnone]
  · have hsome : firstClear b.bit 0 b.size = some start :=
      firstClear_eq (Nat.zero_le _) (by omega) hclear fun k _ hk => hbefore k hk
    rw [hscan, hsome]
    simp only [hone]

/-- A scan of the bits stops where `bitmap_scan` trips its assertion, and else finds the same
bits. -/
def Scans {σ ε : Type} (scan : Code σ ε (Option Nat)) (stop : ε) (s : σ) : Prop :=
  b.bitmapScan cnt = .error ⟨⟩ ∧ scan s = .error stop ∨
    ∃ r, b.bitmapScan cnt = .ok (result r) ∧ scan s = .ok (r, s)

theorem scans_paging (m : Proc.Fork.Machine) :
    b.Scans cnt (Paging.bitmapScan false b.bit b.size cnt.toNat) .noPages m := by
  rw [Scans, bitmapScan_bits, Paging.bitmapScan, Paging.findRun]
  cases firstClear b.bit 0 b.size with
  | none => exact .inl ⟨rfl, rfl⟩
  | some start => exact .inr ⟨_, rfl, rfl⟩

theorem scans_heap {c : Mm.Context} (hdebug : c.ndebug = false) (h : Mm.Heap) :
    b.Scans cnt (c.bitmapScan b.bit b.size cnt.toNat) .noPages h := by
  rw [Scans, bitmapScan_bits, Mm.Context.bitmapScan]
  cases firstClear b.bit 0 b.size with
  | none =>
      refine .inl ⟨rfl, ?_⟩
      rw [Mm.Context.assert, hdebug]
      rfl
  | some start => exact .inr ⟨_, rfl, rfl⟩

/-- The file system looks for one bit. -/
theorem scans_fs {s : Fs.State} (hdebug : s.ndebug = false) :
    b.Scans 1 (Fs.bitmapScan b.bit b.size) .assertion s := by
  rw [Scans, bitmapScan_bits, Fs.bitmapScan, Fs.assert]
  cases firstClear b.bit 0 b.size with
  | none =>
      refine .inl ⟨rfl, ?_⟩
      rw [bind_assoc, Code.get_bind, if_neg (by simp [hdebug])]
      rfl
  | some start =>
      refine .inr ⟨some start, rfl, ?_⟩
      rw [bind_assoc, Code.get_bind, if_pos (by simp)]
      rfl

end Aitos.Lib.Bitmap
