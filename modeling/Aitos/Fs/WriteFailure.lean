import Aitos.Fs.WriteLimit

/-!
# Writes that fail

`file_write` returns -1 from several places when a buffer or a block cannot be had.  Only the first
of them undoes what was done before: the others leave `io_buf`, and mostly `all_blocks` and blocks
of the disk as well, without an owner.
-/

namespace Aitos.Fs

open Framework

/-- Nothing that the file owns or could own has changed: the inode's block pointers and size, its
indirect table, the block bitmap in memory and on the disk, and the heap. -/
structure WriteUndone (s s' : State) (p : Ptr) : Prop where
  iSectors : (s'.inode p).iSectors = (s.inode p).iSectors
  iSize : (s'.inode p).iSize = (s.inode p).iSize
  table : (s.inode p).iSectors 12 ≠ 0 →
    sectorOf s'.disk ((s.inode p).iSectors 12) = sectorOf s.disk ((s.inode p).iSectors 12)
  blockBitmap : s'.blockBitmap = s.blockBitmap
  diskBitmap : ∀ i < s.part.sb.blockBitmapSects.toNat,
    sectorOf s'.disk (s.part.sb.blockBitmapLba + UInt32.ofNat i) =
      sectorOf s.disk (s.part.sb.blockBitmapLba + UInt32.ofNat i)
  heap : s'.mem.live = s.mem.live

/-- No block of the heap was given out or back, and no request was made. -/
def SameMem (s s' : State) : Prop := s'.mem = s.mem

instance : IsPreorder State SameMem where
  refl _ := rfl
  trans _ _ _ h h' := h'.trans h

private theorem stableDisk_sameMem : StableDisk SameMem where
  disk _ _ _ _ := rfl
  blockBit _ _ _ := rfl
  inodeBit _ _ _ := rfl
  sector _ _ _ _ := rfl

variable {s s' : State} {fd : Nat} {p : Ptr} {src : Bytes} {count : UInt32}

private theorem sameMem_writeBlocks (p : Ptr) (has will : Nat) :
    Keeps SameMem (writeBlocks p has will) :=
  Keeps.ite (StableDisk.sameBlocks p _ _) (stableDisk_sameMem.moreBlocks p _ _)

/-- A write that fails once it has its two buffers keeps them. -/
private theorem writeFile_leaks (h : writeFile fd p src count s = .ok (none, s')) :
    s'.mem.live = s.mem.live := by
  rw [writeFile] at h
  obtain ⟨ok, s₁, hfirst, hrest⟩ := Code.bind_ok.mp h
  have hm₁ : s₁.mem = s.mem := stableDisk_sameMem.firstBlock p _ _ _ hfirst
  rw [← hm₁]
  split at hrest
  · rw [Code.get_bind] at hrest
    obtain ⟨_, s₂, hassert, hrest⟩ := Code.bind_ok.mp hrest
    obtain ⟨rfl, -⟩ := assert_ok.mp hassert
    obtain ⟨r, s₃, hblocks, hrest⟩ := Code.bind_ok.mp hrest
    have hm₃ := sameMem_writeBlocks p _ _ _ _ _ hblocks
    cases r with
    | none =>
        obtain ⟨-, rfl⟩ := Code.pure_ok.mp hrest
        rw [hm₃]
    | some blocks =>
        dsimp only [writeData] at hrest
        rw [Code.modify_bind] at hrest
        obtain ⟨written, s₄, hloop, hrest⟩ := Code.bind_ok.mp hrest
        have hm₄ := stableDisk_sameMem.writeLoop (fun _ _ _ => rfl) _ _ _ _ _ _ _ _ _ hloop
        have hm₄ : s₄.mem = s₃.mem := hm₄
        obtain ⟨buf, s₅, hmalloc, hrest⟩ := Code.bind_ok.mp hrest
        obtain ⟨hbuf, rfl⟩ := sysMalloc_ok.mp hmalloc
        split at hrest
        · rename_i hfalse
          obtain ⟨-, rfl⟩ := Code.pure_ok.mp hrest
          show s₄.malloc.live = _
          rw [State.malloc, Memory.malloc, ← hbuf, hfalse, hm₄, hm₃]
          rfl
        · simp only [Code.get_bind, Code.bind_ok, Code.pure_ok] at hrest
          obtain ⟨_, _, -, _, _, -, _, _, -, _, _, -, hnone, -⟩ := hrest
          cases hnone
  · obtain ⟨-, rfl⟩ := Code.pure_ok.mp hrest
    rfl

/-- A write that fails for want of a buffer or a block leaves everything as it was exactly when it
is the first buffer that it does not get. -/
theorem failed_write_undone_iff (hslot : (s.fileTable fd).fdInode = some p)
    (hsize : (s.inode p).iSize + count ≤ 71680) (h : fileWrite fd src count s = .ok (none, s')) :
    WriteUndone s s' p ↔ s.mem.serve s.mem.calls = false := by
  rw [fileWrite, Code.get_bind, hslot] at h
  dsimp only at h
  rw [if_neg (UInt32.not_lt.mpr hsize)] at h
  obtain ⟨ioBuf, s₁, hmalloc, hrest⟩ := Code.bind_ok.mp h
  obtain ⟨hbuf, rfl⟩ := sysMalloc_ok.mp hmalloc
  rw [← hbuf]
  cases ioBuf with
  | false =>
      rw [if_pos rfl] at hrest
      obtain ⟨-, rfl⟩ := Code.pure_ok.mp hrest
      refine ⟨fun _ => rfl, fun _ => ⟨rfl, rfl, fun _ => rfl, rfl, fun _ _ => rfl, ?_⟩⟩
      show s.malloc.live = _
      rw [State.malloc, Memory.malloc, ← hbuf]
      rfl
  | true =>
      -- `io_buf` has no owner in any of the ways out that remain
      rw [if_neg (by decide)] at hrest
      obtain ⟨blocks, s₂, hmalloc₂, hrest⟩ := Code.bind_ok.mp hrest
      obtain ⟨hbuf₂, rfl⟩ := sysMalloc_ok.mp hmalloc₂
      have hlive : s.mem.live < s'.mem.live := by
        have hone : s.malloc.live = s.mem.live + 1 := by
          rw [State.malloc, Memory.malloc, ← hbuf, if_pos rfl]
        have hmono : s.malloc.live ≤ (s.setMem s.malloc).malloc.live := by
          show _ ≤ if _ then _ else _
          split
          · exact Nat.le_succ _
          · exact le_rfl
        split at hrest
        · obtain ⟨-, rfl⟩ := Code.pure_ok.mp hrest
          exact Nat.lt_of_lt_of_le (by omega) hmono
        · rw [writeFile_leaks hrest]
          exact Nat.lt_of_lt_of_le (by omega) hmono
      exact ⟨fun hundone => absurd hundone.heap (Nat.ne_of_gt hlive), fun hfalse => by cases hfalse⟩

/-- Without memory for the first buffer nothing happens. -/
theorem failed_write_undone_noMemory :
    let s := createdState.setMem { createdState.mem with serve := fun _ => false }
    ∃ s', fileWrite 3 (fun _ => 7) 600 s = .ok (none, s') ∧ WriteUndone s s' 1 := by
  intro s
  obtain ⟨s', h⟩ : ∃ s', fileWrite 3 (fun _ => 7) 600 s = .ok (none, s') :=
    Code.returns_of_toOption (by decide +kernel)
  exact ⟨s', h, (failed_write_undone_iff (p := 1) rfl (by decide) h).mpr rfl⟩

/-- A disk with one free block, in a build without assertions. -/
def oneBlockState : State :=
  { createdState with ndebug := true, blockBitmap := fun i => i ≠ 5 }

/-- A write of 600 bytes takes the one block, finds no second, and returns -1: the block stays in
the inode and in the bitmap, and the two buffers stay allocated. -/
theorem failed_write_keeps_block : ∃ s', fileWrite 3 (fun _ => 7) 600 oneBlockState =
    .ok (none, s') ∧ (s'.inode 1).iSectors 0 = 618 ∧ s'.blockBitmap 5 = true ∧ s'.mem.live = 2 ∧
    ¬ WriteUndone oneBlockState s' 1 := by
  have hplay : ∃ out ∈ (fileWrite 3 (fun _ => 7) 600 oneBlockState).toOption, out.1 = none ∧
      (out.2.inode 1).iSectors 0 = 618 ∧ out.2.blockBitmap 5 = true ∧ out.2.mem.live = 2 := by
    decide +kernel
  obtain ⟨⟨r, s'⟩, hout, rfl, hsector, hbit, hlive⟩ := hplay
  refine ⟨s', Code.ok_of_toOption hout, hsector, hbit, hlive, fun hundone => ?_⟩
  have hheap := hundone.heap
  rw [hlive] at hheap
  cases hheap

end Aitos.Fs
