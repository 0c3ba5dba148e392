import Aitos.Fs.Allocation
import Aitos.Fs.Transfer

/-!
# The contents of a file

Byte `a` of a file lies in its block `a / 512`.  `file_read` first collects block pointers and then
copies from the sectors they name; it reads the file where the pointers it has collected are those
of the file.
-/

namespace Aitos.Fs

open Framework

/-- Byte `a` of the file with the blocks `blocks`. -/
def byteIn (disk : Bytes) (blocks : Nat → UInt32) (a : Nat) : UInt8 :=
  disk (512 * (blocks (a / 512)).toNat + a % 512)

/-- The `n` bytes from position `a` on. -/
def bytesIn (disk : Bytes) (blocks : Nat → UInt32) (a n : Nat) : List UInt8 :=
  (List.range n).map fun i => byteIn disk blocks (a + i)

/-- What a file contains at position `a`. -/
def Inode.byteAt (ino : Inode) (disk : Bytes) (a : Nat) : UInt8 :=
  byteIn disk (ino.allBlocks disk) a

/-- The block pointers as `file_write` leaves them: those up to the block of the end of the file are
there, and the indirect table exactly when one of them is in it.  A file that was never written has
none. -/
structure PointersFit (ino : Inode) (disk : Bytes) : Prop where
  blocks : (ino.iSize = 0 ∧ ∀ k < 140, ino.allBlocks disk k = 0) ∨
    ino.iSize.toNat / 512 < 140 ∧ ∀ k < 140, ino.allBlocks disk k ≠ 0 ↔ k ≤ ino.iSize.toNat / 512
  table : ino.iSectors 12 ≠ 0 ↔ 12 ≤ ino.iSize.toNat / 512

theorem PointersFit.size_lt {ino : Inode} {disk : Bytes} (h : PointersFit ino disk) :
    ino.iSize.toNat < 71680 := by
  rcases h.blocks with ⟨h0, -⟩ | ⟨hlt, -⟩
  · rw [h0]
    decide
  · omega

section Bytes

private theorem bytesIn_add (disk : Bytes) (blocks : Nat → UInt32) (a m n : Nat) :
    bytesIn disk blocks a (m + n) = bytesIn disk blocks a m ++ bytesIn disk blocks (a + m) n := by
  rw [bytesIn, List.range_add, List.map_append, List.map_map, bytesIn, bytesIn]
  congr 1
  apply List.map_congr_left
  intro i _
  rw [Function.comp_apply, Nat.add_assoc]

private theorem takeBytes_sector {disk : Bytes} {blocks : Nat → UInt32} {a n : Nat}
    (h : a % 512 + n ≤ 512) :
    takeBytes (sectorOf disk (blocks (a / 512))) (a % 512) n = bytesIn disk blocks a n := by
  rw [takeBytes, bytesIn]
  apply List.map_congr_left
  intro i hi
  have hi' := List.mem_range.mp hi
  rw [sectorOf_lt _ _ (by omega), byteIn, show (a + i) / 512 = a / 512 by omega,
    show (a + i) % 512 = a % 512 + i by omega]

theorem chunkSize_toNat (pos left : UInt32) :
    (chunkSize pos left).toNat = min left.toNat (512 - pos.toNat % 512) := by
  have hmod : (pos % 512).toNat = pos.toNat % 512 := UInt32.toNat_mod _ _
  have hle : pos % 512 ≤ 512 := by
    rw [UInt32.le_iff_toNat_le, hmod]
    exact (Nat.mod_lt _ (by decide)).le
  have hsub : (512 - pos % 512).toNat = 512 - pos.toNat % 512 := by
    rw [UInt32.toNat_sub_of_le _ _ hle, hmod]
    rfl
  rw [chunkSize]
  split
  · rename_i hlt
    have hlt' := UInt32.lt_iff_toNat_lt.mp hlt
    omega
  · rename_i hle'
    have := UInt32.le_iff_toNat_le.mp (UInt32.not_lt.mp hle')
    omega

/-- `n` turns are enough for `left` bytes from position `pos` on, a sector a turn. -/
def Enough (pos left n : Nat) : Prop := 0 < n ∧ (0 < left → (pos % 512 + left + 511) / 512 < n)

theorem Enough.turn {pos left c n : Nat} (h : Enough pos left (n + 1)) (hleft : 0 < left)
    (hc : c = min left (512 - pos % 512)) : Enough (pos + c) (left - c) n := by
  have hlt := h.2 hleft
  rw [Enough]
  omega

end Bytes

section Reading

variable {fd : Nat} {blocks : Nat → UInt32} {size : UInt32}

/-- The state with a new position of slot `fd`. -/
def State.seek (s : State) (fd : Nat) (pos : UInt32) : State :=
  s.setFile fd { s.fileTable fd with fdPos := pos }

private theorem seek_self (s : State) (fd : Nat) : s.seek fd (s.fileTable fd).fdPos = s := by
  rw [State.seek, State.setFile, Function.update_eq_self]

private theorem seek_seek (s : State) (fd : Nat) (pos pos' : UInt32) :
    (s.seek fd pos).seek fd pos' = s.seek fd pos' := by
  simp [State.seek, State.setFile]

private theorem seek_fdPos (s : State) (fd : Nat) (pos : UInt32) :
    ((s.seek fd pos).fileTable fd).fdPos = pos := by simp [State.seek]

private theorem readLoop_eq (n : Nat) : ∀ (stored : List UInt8) {s : State} {b : UInt32},
    b ≤ size → (s.fileTable fd).fdPos.toNat + (size.toNat - b.toNat) ≤ 71680 →
    Enough (s.fileTable fd).fdPos.toNat (size.toNat - b.toNat) n →
    readLoop fd blocks size n stored b s =
      .ok ((size, stored ++
        bytesIn s.disk blocks (s.fileTable fd).fdPos.toNat (size.toNat - b.toNat)),
        s.seek fd (UInt32.ofNat ((s.fileTable fd).fdPos.toNat + (size.toNat - b.toNat)))) := by
  induction n with
  | zero =>
      intro stored s b _ _ h
      exact absurd h.1 (Nat.lt_irrefl 0)
  | succ n ih =>
      intro stored s b hb hend hfuel
      obtain ⟨pos, hpos⟩ : ∃ pos, pos = (s.fileTable fd).fdPos := ⟨_, rfl⟩
      have hb' := UInt32.le_iff_toNat_le.mp hb
      rw [← hpos] at hend hfuel ⊢
      rw [readLoop]
      split
      · rename_i hle
        obtain rfl : b = size := UInt32.le_antisymm hb hle
        rw [Nat.sub_self, Nat.add_zero, UInt32.ofNat_toNat, hpos, seek_self]
        simp [bytesIn]
      · rename_i hlt
        obtain ⟨hleft, hsub⟩ := toNat_sub_pos hlt
        have hdiv : (pos / 512).toNat = pos.toNat / 512 := UInt32.toNat_div _ _
        have hmod : (pos % 512).toNat = pos.toNat % 512 := UInt32.toNat_mod _ _
        have hchunk := chunkSize_toNat pos (size - b)
        have hsec : (pos / 512).toNat < 140 := by omega
        have hadd := add_chunk hsec hleft
        have hsize := size.toNat_lt
        have hb₁ : (b + chunkSize pos (size - b)).toNat =
            b.toNat + (chunkSize pos (size - b)).toNat := by
          rw [UInt32.toNat_add, Nat.mod_eq_of_lt (by omega)]
        have hin : require ((pos / 512).toNat < 140) .outOfBounds s = .ok ((), s) :=
          require_ok.mpr ⟨rfl, hsec⟩
        have hread : ideRead (blocks (pos / 512).toNat) Bytes.zero 1 s =
          .ok (sectorOf s.disk (blocks (pos / 512).toNat), s) := rfl
        rw [Code.get_bind, ← hpos, Code.bind_of_ok hin, ← chunkSize, Code.bind_of_ok hread,
          Code.modify_bind, ← hpos]
        have hleft' : size.toNat - (b + chunkSize pos (size - b)).toNat =
            size.toNat - b.toNat - (chunkSize pos (size - b)).toNat := by omega
        have hfuel' := hfuel.turn (by omega) (hsub ▸ hchunk)
        rw [← hadd, ← hleft'] at hfuel'
        have hnext := ih (stored ++ takeBytes (sectorOf s.disk (blocks (pos.toNat / 512)))
            (pos.toNat % 512) (chunkSize pos (size - b)).toNat)
          (s := s.seek fd (pos + chunkSize pos (size - b)))
          (b := b + chunkSize pos (size - b)) (UInt32.le_iff_toNat_le.mpr (by omega))
          (by rw [seek_fdPos]; omega) (by rw [seek_fdPos]; exact hfuel')
        rw [seek_fdPos, seek_seek, hadd, hleft'] at hnext
        rw [hdiv, hmod]
        refine hnext.trans ?_
        have htake : pos.toNat % 512 + (chunkSize pos (size - b)).toNat ≤ 512 := by omega
        have hsplit : size.toNat - b.toNat = (chunkSize pos (size - b)).toNat +
            (size.toNat - b.toNat - (chunkSize pos (size - b)).toNat) := by omega
        have hbytes := bytesIn_add s.disk blocks pos.toNat (chunkSize pos (size - b)).toNat
          (size.toNat - b.toNat - (chunkSize pos (size - b)).toNat)
        rw [← hsplit] at hbytes
        rw [hbytes, takeBytes_sector htake, List.append_assoc, Nat.add_assoc, ← hsplit]
        rfl

/-- The pointers that `file_read` collects are those of the file, unless the blocks end with the
first one behind the direct ones. -/
private theorem readBlocks_of_file {ino : Inode} {disk : Bytes} {start stop : Nat}
    (hstop : stop < 140) (hle : start ≤ stop) (htable : 12 ≤ stop → ino.iSectors 12 ≠ 0)
    (h : ¬ (start < 12 ∧ stop = 12)) : ∃ blocks, ∀ s : State,
      readBlocks ino disk start stop s = .ok (blocks, s) ∧
      ∀ k, start ≤ k → k ≤ stop → blocks k = ino.allBlocks disk k := by
  have hdirect {last k : Nat} (h₁ : start ≤ k) (h₂ : k ≤ last) (h₃ : k < 12) :
      (if start ≤ k ∧ k ≤ last then ino.iSectors k else 0) = ino.allBlocks disk k := by
    rw [if_pos ⟨h₁, h₂⟩, allBlocks_direct _ _ h₃]
  have hindirect {first : Nat → UInt32} {k : Nat} (h₁ : 12 ≤ k) (h₂ : k ≤ stop) :
      tableBlocks disk (ino.iSectors 12) first k = ino.allBlocks disk k := by
    rw [tableBlocks, if_pos ⟨h₁, by omega⟩, Inode.allBlocks, if_neg (by omega),
      if_pos ⟨by omega, htable (by omega)⟩]
  rw [readBlocks]
  by_cases heq : stop = start
  · rw [if_pos heq]
    by_cases hlow : stop < 12
    · rw [if_pos hlow]
      exact ⟨_, fun _ => ⟨rfl, fun k h₁ h₂ => hdirect h₁ (by omega) (by omega)⟩⟩
    · rw [if_neg hlow]
      exact ⟨_, fun _ => ⟨rfl, fun k h₁ h₂ => hindirect (by omega) h₂⟩⟩
  · rw [if_neg heq]
    by_cases hlow : stop < 12
    · rw [if_pos hlow]
      exact ⟨_, fun _ => ⟨rfl, fun k h₁ h₂ => hdirect h₁ h₂ (by omega)⟩⟩
    · have hassert (s : State) : assert (ino.iSectors 12 ≠ 0) s = .ok ((), s) :=
        assert_ok.mpr ⟨rfl, Or.inr (htable (by omega))⟩
      rw [if_neg hlow]
      simp only [Code.bind_of_ok (hassert _)]
      by_cases hcross : start < 12 ∧ 12 < stop
      · rw [if_pos hcross]
        refine ⟨_, fun _ => ⟨rfl, fun k h₁ h₂ => ?_⟩⟩
        by_cases hk : k < 12
        · rw [tableBlocks, if_neg (by omega)]
          exact hdirect h₁ (by omega) hk
        · exact hindirect (by omega) h₂
      · rw [if_neg hcross]
        exact ⟨_, fun _ => ⟨rfl, fun k h₁ h₂ => hindirect (by omega) h₂⟩⟩

private theorem readBlocks_twelve {ino : Inode} {disk : Bytes} {start : Nat} {s : State}
    (hlt : start < 12) (htable : ino.iSectors 12 ≠ 0) :
    readBlocks ino disk start 12 s = .ok (tableBlocks disk (ino.iSectors 12) noBlocks, s) := by
  have hassert : assert (ino.iSectors 12 ≠ 0) s = .ok ((), s) := assert_ok.mpr ⟨rfl, Or.inr htable⟩
  rw [readBlocks, if_neg (by omega), if_neg (by omega), Code.bind_of_ok hassert,
    if_neg (by omega)]
  rfl

/-- What is left of the heap after `calls` more requests whose blocks were freed again. -/
def State.asked (s : State) (n : Nat) : State :=
  s.setMem { s.mem with calls := s.mem.calls + n }

private theorem malloc_malloc_free_free {s : State} (h₁ : s.mem.serve s.mem.calls = true)
    (h₂ : s.mem.serve (s.mem.calls + 1) = true) :
    let s₂ := (s.setMem s.malloc).setMem (s.setMem s.malloc).malloc
    (s₂.setMem s₂.free).free = { s.mem with calls := s.mem.calls + 2 } := by
  cases hk : s.kernelHeap <;>
    simp_all [State.malloc, State.free, State.kernelHeap, Memory.malloc, Memory.free]

private theorem readSize_eq {p : Ptr} {s : State} (h₁ : s.mem.serve s.mem.calls = true)
    (h₂ : s.mem.serve (s.mem.calls + 1) = true)
    (hbound : s.ndebug = true ∨ ((s.fileTable fd).fdPos / 512).toNat < 139 ∧
      (((s.fileTable fd).fdPos + size) / 512).toNat < 139)
    (hblocks : ∀ s₁ : State, s₁.ndebug = s.ndebug → readBlocks (s.inode p) s.disk
      ((s.fileTable fd).fdPos / 512).toNat (((s.fileTable fd).fdPos + size) / 512).toNat s₁ =
        .ok (blocks, s₁))
    (hend : (s.fileTable fd).fdPos.toNat + size.toNat ≤ 71680) :
    readSize fd p size s = .ok ((some size, bytesIn s.disk blocks (s.fileTable fd).fdPos.toNat
      size.toNat), (s.seek fd ((s.fileTable fd).fdPos + size)).asked 2) := by
  obtain ⟨pos, hpos⟩ : ∃ pos, pos = (s.fileTable fd).fdPos := ⟨_, rfl⟩
  rw [← hpos] at hbound hblocks hend ⊢
  obtain ⟨s₁, hs₁⟩ : ∃ s₁ : State, s₁ = s.setMem s.malloc := ⟨_, rfl⟩
  obtain ⟨s₂, hs₂⟩ : ∃ s₂ : State, s₂ = s₁.setMem s₁.malloc := ⟨_, rfl⟩
  have hmalloc₁ : sysMalloc s = .ok (true, s₁) := sysMalloc_ok.mpr ⟨h₁.symm, hs₁⟩
  have hmalloc₂ : sysMalloc s₁ = .ok (true, s₂) := sysMalloc_ok.mpr ⟨by rw [hs₁]; exact h₂.symm, hs₂⟩
  have hfd : (s₂.fileTable fd).fdPos = pos := by rw [hs₂, hs₁, hpos]; rfl
  have hassert : assert ((pos / 512).toNat < 139 ∧ ((pos + size) / 512).toNat < 139) s₂ =
      .ok ((), s₂) := assert_ok.mpr ⟨rfl, by rw [hs₂, hs₁]; exact hbound⟩
  have hb : readBlocks (s₂.inode p) s₂.disk (pos / 512).toNat ((pos + size) / 512).toNat s₂ =
      .ok (blocks, s₂) := by
    have := hblocks s₂ (by rw [hs₂, hs₁]; rfl)
    rw [hs₂, hs₁] at this ⊢
    exact this
  have hzero : size.toNat - (0 : UInt32).toNat = size.toNat := rfl
  have hloop : readLoop fd blocks size 142 [] 0 s₂ = _ := readLoop_eq 142 [] UInt32.zero_le
    (by rw [hfd, hzero]; exact hend) (by rw [hfd, hzero, Enough]; omega)
  rw [hfd, hzero, List.nil_append] at hloop
  have hsum : UInt32.ofNat (pos.toNat + size.toNat) = pos + size := by simp
  rw [hsum] at hloop
  rw [readSize, Code.bind_of_ok hmalloc₁, if_neg (by decide), Code.bind_of_ok hmalloc₂,
    if_neg (by decide), Code.get_bind, hfd, Code.bind_of_ok hassert, Code.bind_of_ok hb,
    Code.bind_of_ok hloop]
  have hmem : (s₂.setMem s₂.free).free = { s.mem with calls := s.mem.calls + 2 } := by
    rw [hs₂, hs₁]
    exact malloc_malloc_free_free h₁ h₂
  have hfreed : ((s₂.seek fd (pos + size)).setMem s₂.free).setMem (s₂.setMem s₂.free).free =
      (s.seek fd (pos + size)).asked 2 := by
    rw [hmem, hs₂, hs₁]
    rfl
  rw [← hfreed, hs₂, hs₁]
  rfl

/-- What `file_read` is to do: to return, store and step over the bytes that are there, or to say
that there are none. -/
def ReadCorrect (s : State) (fd : Nat) (ino : Inode) (count : UInt32) : Prop :=
  let pos := (s.fileTable fd).fdPos
  let n := min count.toNat (ino.iSize.toNat - pos.toNat)
  if pos < ino.iSize then
    ∃ calls, fileRead fd count s =
      .ok ((some (UInt32.ofNat n), (List.range n).map fun i => ino.byteAt s.disk (pos.toNat + i)),
        (s.seek fd (UInt32.ofNat (pos.toNat + n))).asked calls)
  else fileRead fd count s = .ok ((none, []), s)

variable {s : State} {p : Ptr} {count : UInt32}

private theorem fileRead_of_lt (hp : (s.fileTable fd).fdInode = some p)
    (hno : (s.fileTable fd).fdPos.toNat + count.toNat < 2 ^ 32)
    (hlt : (s.fileTable fd).fdPos < (s.inode p).iSize) :
    fileRead fd count s = readSize fd p (UInt32.ofNat (min count.toNat
      ((s.inode p).iSize.toNat - (s.fileTable fd).fdPos.toNat))) s := by
  have hlt' := UInt32.lt_iff_toNat_lt.mp hlt
  have hsum : ((s.fileTable fd).fdPos + count).toNat =
      (s.fileTable fd).fdPos.toNat + count.toNat := by
    rw [UInt32.toNat_add, Nat.mod_eq_of_lt hno]
  have hsub : ((s.inode p).iSize - (s.fileTable fd).fdPos).toNat =
      (s.inode p).iSize.toNat - (s.fileTable fd).fdPos.toNat :=
    UInt32.toNat_sub_of_le _ _ (UInt32.le_iff_toNat_le.mpr hlt'.le)
  rw [fileRead, Code.get_bind, hp]
  dsimp only
  split
  · rename_i hgt
    have hgt' := UInt32.lt_iff_toNat_lt.mp hgt
    have hne : (s.inode p).iSize - (s.fileTable fd).fdPos ≠ 0 := by
      intro hzero
      rw [hzero] at hsub
      have : (0 : UInt32).toNat = 0 := rfl
      omega
    rw [if_neg hne, min_eq_right (by omega), ← hsub, UInt32.ofNat_toNat]
  · rename_i hle
    have hle' := UInt32.le_iff_toNat_le.mp (UInt32.not_lt.mp hle)
    rw [min_eq_left (by omega), UInt32.ofNat_toNat]

private theorem fileRead_at_end (hp : (s.fileTable fd).fdInode = some p) (hcount : 0 < count)
    (hno : (s.fileTable fd).fdPos.toNat + count.toNat < 2 ^ 32)
    (heq : (s.fileTable fd).fdPos = (s.inode p).iSize) :
    fileRead fd count s = .ok ((none, []), s) := by
  have hpos : 0 < count.toNat := UInt32.lt_iff_toNat_lt.mp hcount
  have hgt : (s.fileTable fd).fdPos + count > (s.inode p).iSize := by
    apply UInt32.lt_iff_toNat_lt.mpr
    rw [UInt32.toNat_add, Nat.mod_eq_of_lt hno, heq]
    omega
  rw [fileRead, Code.get_bind, hp]
  dsimp only
  rw [if_pos hgt, heq, UInt32.sub_self, if_pos rfl]
  rfl

/-- The two buffers of a transfer are served. -/
def State.Buffers (s : State) : Prop :=
  s.mem.serve s.mem.calls = true ∧ s.mem.serve (s.mem.calls + 1) = true

private theorem readSize_some {n : UInt32} {out : List UInt8} {s' : State}
    (h : readSize fd p size s = .ok ((some n, out), s')) :
    s.Buffers ∧ (s.ndebug = true ∨ ((s.fileTable fd).fdPos / 512).toNat < 139 ∧
      (((s.fileTable fd).fdPos + size) / 512).toNat < 139) := by
  rw [readSize] at h
  simp only [Code.bind_ok, sysMalloc_ok] at h
  obtain ⟨ok, s₁, ⟨hok, rfl⟩, h⟩ := h
  split at h
  · obtain ⟨h, -⟩ := Code.pure_ok.mp h
    cases h
  rename_i htrue
  simp only [Code.bind_ok, sysMalloc_ok] at h
  obtain ⟨ok', s₂, ⟨hok', rfl⟩, h⟩ := h
  split at h
  · obtain ⟨h, -⟩ := Code.pure_ok.mp h
    cases h
  rename_i htrue'
  rw [Bool.not_eq_false] at htrue htrue'
  simp only [Code.get_bind, Code.bind_ok, assert_ok] at h
  obtain ⟨_, s₃, ⟨rfl, hassert⟩, -⟩ := h
  exact ⟨⟨hok.symm.trans htrue, hok'.symm.trans htrue'⟩, hassert⟩

private theorem reads_iff {n : Nat} (hbuf : s.Buffers) (hn : n < 2 ^ 32)
    (hend : (s.fileTable fd).fdPos.toNat + n ≤ 71680)
    (hbound : s.ndebug = true ∨ ((s.fileTable fd).fdPos / 512).toNat < 139 ∧
      (((s.fileTable fd).fdPos + UInt32.ofNat n) / 512).toNat < 139)
    (hblocks : ∀ s₁ : State, readBlocks (s.inode p) s.disk ((s.fileTable fd).fdPos / 512).toNat
      (((s.fileTable fd).fdPos + UInt32.ofNat n) / 512).toNat s₁ = .ok (blocks, s₁)) :
    (∃ calls, readSize fd p (UInt32.ofNat n) s = .ok ((some (UInt32.ofNat n),
      (List.range n).map fun i => (s.inode p).byteAt s.disk ((s.fileTable fd).fdPos.toNat + i)),
      (s.seek fd (UInt32.ofNat ((s.fileTable fd).fdPos.toNat + n))).asked calls)) ↔
    ∀ i < n, byteIn s.disk blocks ((s.fileTable fd).fdPos.toNat + i) =
      (s.inode p).byteAt s.disk ((s.fileTable fd).fdPos.toNat + i) := by
  have hn' : (UInt32.ofNat n).toNat = n := by
    rw [UInt32.toNat_ofNat', Nat.mod_eq_of_lt hn]
  have hread := readSize_eq hbuf.1 hbuf.2 hbound (fun s₁ _ => hblocks s₁) (by rw [hn']; exact hend)
  have hsum : UInt32.ofNat ((s.fileTable fd).fdPos.toNat + n) =
      (s.fileTable fd).fdPos + UInt32.ofNat n := by simp
  rw [hread, hn', hsum]
  constructor
  · rintro ⟨calls, h⟩ i hi
    obtain ⟨⟨-, hbytes⟩, -⟩ := Prod.mk.inj (Except.ok.inj h) |>.imp_left Prod.mk.inj
    exact List.map_inj_left.mp hbytes i (List.mem_range.mpr hi)
  · intro h
    have hbytes : bytesIn s.disk blocks (s.fileTable fd).fdPos.toNat n = (List.range n).map fun i =>
        (s.inode p).byteAt s.disk ((s.fileTable fd).fdPos.toNat + i) :=
      List.map_congr_left fun i hi => h i (List.mem_range.mp hi)
    rw [hbytes]
    exact ⟨2, rfl⟩

/-- The bytes a read returns are those of the file, or the boot sector happens to have them where
the direct pointers are not collected. -/
def ReadFits (s : State) (fd : Nat) (ino : Inode) (count : UInt32) : Prop :=
  let pos := (s.fileTable fd).fdPos.toNat
  let n := min count.toNat (ino.iSize.toNat - pos)
  pos = ino.iSize.toNat ∨
    s.Buffers ∧ (s.ndebug = true ∨ (pos + n) / 512 < 139) ∧
      (¬ (pos / 512 < 12 ∧ (pos + n) / 512 = 12) ∨
        ∀ i < n, pos + i < 6144 → s.disk ((pos + i) % 512) = ino.byteAt s.disk (pos + i))

/-- Without the direct pointers the bytes come from sector 0. -/
private theorem byteIn_table {ino : Inode} {disk : Bytes} {a : Nat} (ha : a < 71680)
    (htable : ino.iSectors 12 ≠ 0) :
    byteIn disk (tableBlocks disk (ino.iSectors 12) noBlocks) a =
      if a < 6144 then disk (a % 512) else ino.byteAt disk a := by
  rw [byteIn, tableBlocks]
  split
  · rename_i hin
    rw [if_neg (by omega), Inode.byteAt, byteIn, Inode.allBlocks, if_neg (by omega),
      if_pos ⟨by omega, htable⟩]
  · have hzero : 512 * (noBlocks (a / 512)).toNat + a % 512 = a % 512 := Nat.zero_add _
    rw [if_pos (by omega), hzero]

private theorem reads_iff_fits {n : Nat} (hfit : PointersFit (s.inode p) s.disk) (hn : 0 < n)
    (hle : (s.fileTable fd).fdPos.toNat + n ≤ (s.inode p).iSize.toNat) :
    (∃ calls, readSize fd p (UInt32.ofNat n) s = .ok ((some (UInt32.ofNat n),
      (List.range n).map fun i => (s.inode p).byteAt s.disk ((s.fileTable fd).fdPos.toNat + i)),
      (s.seek fd (UInt32.ofNat ((s.fileTable fd).fdPos.toNat + n))).asked calls)) ↔
    s.Buffers ∧ (s.ndebug = true ∨ ((s.fileTable fd).fdPos.toNat + n) / 512 < 139) ∧
      (¬ ((s.fileTable fd).fdPos.toNat / 512 < 12 ∧
          ((s.fileTable fd).fdPos.toNat + n) / 512 = 12) ∨
        ∀ i < n, (s.fileTable fd).fdPos.toNat + i < 6144 →
          s.disk (((s.fileTable fd).fdPos.toNat + i) % 512) =
            (s.inode p).byteAt s.disk ((s.fileTable fd).fdPos.toNat + i)) := by
  have hsize := hfit.size_lt
  have hn' : (UInt32.ofNat n).toNat = n := by
    rw [UInt32.toNat_ofNat', Nat.mod_eq_of_lt (by omega)]
  have hstart : ((s.fileTable fd).fdPos / 512).toNat = (s.fileTable fd).fdPos.toNat / 512 :=
    UInt32.toNat_div _ _
  have hstop : (((s.fileTable fd).fdPos + UInt32.ofNat n) / 512).toNat =
      ((s.fileTable fd).fdPos.toNat + n) / 512 := by
    rw [UInt32.toNat_div, UInt32.toNat_add, hn', Nat.mod_eq_of_lt (by omega)]
    rfl
  have hfirst : (s.fileTable fd).fdPos.toNat / 512 ≤ ((s.fileTable fd).fdPos.toNat + n) / 512 := by
    omega
  have htable (h : 12 ≤ ((s.fileTable fd).fdPos.toNat + n) / 512) : (s.inode p).iSectors 12 ≠ 0 :=
    hfit.table.mpr (by omega)
  by_cases hbuf : s.Buffers
  · by_cases hbound : s.ndebug = true ∨ ((s.fileTable fd).fdPos.toNat + n) / 512 < 139
    · have hbound' : s.ndebug = true ∨ ((s.fileTable fd).fdPos / 512).toNat < 139 ∧
          (((s.fileTable fd).fdPos + UInt32.ofNat n) / 512).toNat < 139 := by
        rw [hstart, hstop]
        exact hbound.imp_right fun h => ⟨by omega, h⟩
      simp only [hbuf, hbound, true_and]
      by_cases hgap : (s.fileTable fd).fdPos.toNat / 512 < 12 ∧
          ((s.fileTable fd).fdPos.toNat + n) / 512 = 12
      · have hblocks (s₁ : State) : readBlocks (s.inode p) s.disk
            ((s.fileTable fd).fdPos / 512).toNat
            (((s.fileTable fd).fdPos + UInt32.ofNat n) / 512).toNat s₁ =
              .ok (tableBlocks s.disk ((s.inode p).iSectors 12) noBlocks, s₁) := by
          rw [hstart, hstop, hgap.2]
          exact readBlocks_twelve hgap.1 (htable (by omega))
        rw [reads_iff hbuf (by omega) (by omega) hbound' hblocks, or_iff_right (not_not.mpr hgap)]
        refine forall₂_congr fun i hi => ?_
        rw [byteIn_table (by omega) (htable (by omega))]
        by_cases hlow : (s.fileTable fd).fdPos.toNat + i < 6144
        · simp [hlow]
        · simp [hlow]
      · refine iff_of_true ?_ (Or.inl hgap)
        obtain ⟨blocks, hblocks⟩ : ∃ blocks, ∀ s₁ : State, readBlocks (s.inode p) s.disk
            ((s.fileTable fd).fdPos / 512).toNat
            (((s.fileTable fd).fdPos + UInt32.ofNat n) / 512).toNat s₁ = .ok (blocks, s₁) ∧
            ∀ k, (s.fileTable fd).fdPos.toNat / 512 ≤ k →
              k ≤ ((s.fileTable fd).fdPos.toNat + n) / 512 →
              blocks k = (s.inode p).allBlocks s.disk k := by
          rw [hstart, hstop]
          exact readBlocks_of_file (by omega) hfirst htable hgap
        rw [reads_iff hbuf (by omega) (by omega) hbound' fun s₁ => (hblocks s₁).1]
        intro i hi
        rw [Inode.byteAt, byteIn, byteIn, (hblocks s).2 _ (by omega) (by omega)]
    · refine iff_of_false (fun ⟨_, h⟩ => ?_) fun h => hbound h.2.1
      have := (readSize_some h).2
      rw [hstart, hstop] at this
      exact hbound (this.imp_right And.right)
  · exact iff_of_false (fun ⟨_, h⟩ => hbuf (readSize_some h).1) fun h => hbuf h.1

theorem file_read_correct_iff (hp : (s.fileTable fd).fdInode = some p)
    (hfit : PointersFit (s.inode p) s.disk) (hpos : (s.fileTable fd).fdPos ≤ (s.inode p).iSize)
    (hcount : 0 < count) (hno : (s.fileTable fd).fdPos.toNat + count.toNat < 2 ^ 32) :
    ReadCorrect s fd (s.inode p) count ↔ ReadFits s fd (s.inode p) count := by
  have hpos' := UInt32.le_iff_toNat_le.mp hpos
  have hcount' : 0 < count.toNat := UInt32.lt_iff_toNat_lt.mp hcount
  rw [ReadCorrect, ReadFits]
  split
  · rename_i hlt
    have hlt' := UInt32.lt_iff_toNat_lt.mp hlt
    rw [or_iff_right (by omega), fileRead_of_lt hp hno hlt]
    exact reads_iff_fits hfit (by omega) (by omega)
  · rename_i hge
    have heq : (s.fileTable fd).fdPos = (s.inode p).iSize :=
      UInt32.le_antisymm hpos (UInt32.not_lt.mp hge)
    exact iff_of_true (fileRead_at_end hp hcount hno heq) (Or.inl (by rw [heq]))

end Reading

section Written

/-- A file of 6200 bytes: twelve direct blocks, and one in the table. -/
def writtenInode : Inode where
  iNo := 1
  iSize := 6200
  iOpenCnts := 1
  writeDeny := false
  iSectors := fun i => if i < 12 then UInt32.ofNat (614 + i) else 626

def writtenDisk : Bytes := fun a =>
  if a < 512 * 614 then 0
  else if a < 512 * 626 then 7
  else if a < 512 * 627 then Bytes.ofWords (fun k => if k = 0 then 627 else 0) (a - 512 * 626)
  else 7

/-- The file, open in slot 3 and positioned at `pos`. -/
def writtenState (pos : UInt32) : State :=
  { State.fresh smallPartition writtenDisk with
    blockBitmap := fun i => i < 15
    inodeBitmap := fun i => i < 2
    inode := fun _ => writtenInode
    openInode := [1]
    nextInode := 2
    fileTable := Function.update (fun _ => ⟨0, 0, none⟩) 3 ⟨pos, oRdwr, some 1⟩ }

private theorem written_fits (pos : UInt32) :
    PointersFit ((writtenState pos).inode 1) (writtenState pos).disk := by
  change PointersFit writtenInode writtenDisk
  exact ⟨Or.inr ⟨by decide, by decide +kernel⟩, by decide⟩

theorem file_read_correct_written : ReadCorrect (writtenState 100) 3 writtenInode 3000 := by
  refine (file_read_correct_iff (p := 1) (by rfl) (written_fits 100) (by decide) (by decide)
    (by decide)).mpr ?_
  exact Or.inr ⟨⟨rfl, rfl⟩, Or.inr (by decide), Or.inl (by decide)⟩

/-- The last byte before the table is read from sector 0. -/
theorem file_read_boot_sector : (writtenState 6143).ndebug = false ∧ (writtenState 6143).Buffers ∧
    ((writtenState 6143).fileTable 3).fdInode = some 1 ∧
    PointersFit ((writtenState 6143).inode 1) (writtenState 6143).disk ∧
    ((writtenState 6143).fileTable 3).fdPos < writtenInode.iSize ∧
    ¬ ReadCorrect (writtenState 6143) 3 writtenInode 1 := by
  refine ⟨rfl, ⟨rfl, rfl⟩, rfl, written_fits 6143, by decide, ?_⟩
  intro h
  rw [ReadCorrect] at h
  obtain ⟨calls, h⟩ : ∃ calls, fileRead 3 1 (writtenState 6143) =
    .ok ((some 1, [writtenInode.byteAt writtenDisk 6143]), State.asked _ calls) := h
  have hread : (fileRead 3 1 (writtenState 6143)).toOption.map (fun out => out.1) =
    some (some 1, [0]) := by decide +kernel
  rw [h] at hread
  have hbyte : writtenInode.byteAt writtenDisk 6143 ≠ 0 := by decide +kernel
  injection hread with hread
  injection (Prod.mk.inj hread).2 with hzero
  exact hbyte hzero

end Written

end Aitos.Fs
