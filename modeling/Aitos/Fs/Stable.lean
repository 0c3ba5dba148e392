import Aitos.Fs.Syscall

/-!
# Relations the lower layers keep

Most of what has to be said about the functions below the system calls is that they leave
something alone.  A relation that holds across the elementary changes they make holds across the
functions; this module goes through them once, for any such relation.
-/

namespace Aitos.Fs

open Framework

/-- The disk, the bitmaps and the block pointers of inodes can change. -/
structure StableDisk (R : State → State → Prop) : Prop where
  disk : ∀ s lba buf n, R s (s.writeSectors lba buf n)
  blockBit : ∀ s i v, R s (s.setBlockBit i v)
  inodeBit : ∀ s i v, R s (s.setInodeBit i v)
  sector : ∀ s p i lba, R s (s.setSector p i lba)

/-- The heap can change, too. -/
structure Stable (R : State → State → Prop) : Prop extends StableDisk R where
  mem : ∀ s m, m.serve = s.mem.serve → R s (s.setMem m)

/-- Inodes can be opened and closed, and handles be made, too. -/
structure StableRefs (R : State → State → Prop) : Prop extends Stable R where
  inodeOpen : ∀ n, Keeps R (inodeOpen n)
  inodeClose : ∀ p, Keeps R (inodeClose p)
  pushDir : ∀ s p, R s (s.pushDir p)

/-- The sizes of inodes can change, too. -/
structure StableDirs (R : State → State → Prop) : Prop extends StableRefs R where
  size : ∀ s p n, R s (s.setSize p n)

/-- The slots of `file_table`, the descriptors and `write_deny` can change, and files be created,
too. -/
structure StableFiles (R : State → State → Prop) : Prop extends StableRefs R where
  setFile : ∀ s i f, R s (s.setFile i f)
  setFd : ∀ s pid fd slot origin, R s (s.setFd pid fd slot origin)
  setDeny : ∀ s p v, R s (s.setDeny p v)
  newInode : ∀ s ino, R s (s.newInode ino)
  listInode : ∀ s p, R s ((s.listInode p).setInode p (s.inode p).opened)

/-- `E` is what `R` and one more change do. -/
structure Absorbs (R E : State → State → Prop) : Prop where
  of : ∀ {s s'}, R s s' → E s s'
  before : ∀ {s s₁ s'}, R s s₁ → E s₁ s' → E s s'
  after : ∀ {s s₁ s'}, E s s₁ → R s₁ s' → E s s'

theorem Absorbs.self (R : State → State → Prop) [IsPreorder State R] : Absorbs R R :=
  ⟨id, trans_of R, trans_of R⟩

section Checks

variable {R : State → State → Prop} [IsPreorder State R]

theorem keeps_assert (c : Prop) [Decidable c] : Keeps R (assert c) :=
  Keeps.get.bind fun _ => Keeps.ite Keeps.pure Keeps.throw

private theorem keeps_assertLba (lba : UInt32) : Keeps R (assertLba lba) := keeps_assert _

private theorem keeps_readTable (p : Ptr) : Keeps R (readTable p) :=
  Keeps.get.bind fun _ => (keeps_assert _).bind fun _ => (keeps_assertLba _).bind fun _ => Keeps.pure

theorem keeps_require (c : Prop) [Decidable c] (h : Halt) : Keeps R (require c h) :=
  Keeps.ite Keeps.pure Keeps.throw

theorem keeps_ideRead (lba : UInt32) (buf : Bytes) (n : Nat) : Keeps R (ideRead lba buf n) :=
  Keeps.get.bind fun _ => Keeps.pure

theorem keeps_inodeLocate (n : UInt32) : Keeps R (inodeLocate n) :=
  (keeps_assert _).bind fun _ => Keeps.get.bind fun _ => Keeps.pure

private theorem keeps_bitmapScan (b : Nat → Bool) (n : Nat) : Keeps R (bitmapScan b n) :=
  (keeps_assert _).bind fun _ => Keeps.pure

theorem keeps_createDirEntry (name : List UInt8) (no t : UInt32) :
    Keeps R (createDirEntry name no t) :=
  (keeps_assert _).bind fun _ => Keeps.pure

private theorem keeps_getFreeSlotInGlobal : Keeps R getFreeSlotInGlobal :=
  Keeps.get.bind fun _ => Keeps.pure

private theorem keeps_depthLoop (n : Nat) : ∀ (p : Option Path) (name : Bytes) (depth : Nat),
    Keeps R (depthLoop n p name depth) := by
  induction n with
  | zero =>
      intro p name depth
      exact Keeps.throw
  | succ n ih =>
      intro p name depth
      unfold depthLoop
      split
      · exact Keeps.pure
      · cases p with
        | none => exact ih _ _ _
        | some p => exact (keeps_require _ _).bind fun _ => ih _ _ _

theorem keeps_pathDepthCnt (p : Path) : Keeps R (pathDepthCnt p) :=
  (keeps_require _ _).bind fun _ => (keeps_require _ _).bind fun _ => keeps_depthLoop _ _ _ _

private theorem keeps_fdLocal2global (fd : Nat) : Keeps R (fdLocal2global fd) := by
  refine (keeps_require _ _).bind fun _ => Keeps.get.bind fun s => ?_
  cases s.fdTable s.cur fd with
  | none => exact Keeps.throw
  | some i => exact (keeps_assert _).bind fun _ => Keeps.pure

end Checks

namespace StableDisk

variable {R : State → State → Prop} [IsPreorder State R] (h : StableDisk R)
include h

omit [IsPreorder State R] in
theorem ideWrite (lba : UInt32) (buf : Bytes) (n : Nat) : Keeps R (ideWrite lba buf n) :=
  Keeps.modify fun s => h.disk s lba buf n

theorem inodeSync (ino : Inode) : Keeps R (inodeSync ino) :=
  (keeps_inodeLocate _).bind fun _ => Keeps.get.bind fun _ => (keeps_assert _).bind fun _ =>
    (keeps_ideRead _ _ _).bind fun _ => h.ideWrite _ _ _

theorem inodeDelete (n : UInt32) : Keeps R (inodeDelete n) :=
  (keeps_assert _).bind fun _ => (keeps_inodeLocate _).bind fun _ => Keeps.get.bind fun _ =>
    (keeps_assert _).bind fun _ => (keeps_ideRead _ _ _).bind fun _ => h.ideWrite _ _ _

theorem blockBitmapSet (i : Nat) (v : Bool) : Keeps R (blockBitmapSet i v) :=
  Keeps.get.bind fun _ => (keeps_require _ _).bind fun _ => Keeps.modify fun s => h.blockBit s i v

theorem inodeBitmapSet (i : Nat) (v : Bool) : Keeps R (inodeBitmapSet i v) :=
  Keeps.get.bind fun _ => (keeps_require _ _).bind fun _ => Keeps.modify fun s => h.inodeBit s i v

theorem inodeBitmapAlloc : Keeps R inodeBitmapAlloc := by
  refine Keeps.get.bind fun s => (keeps_bitmapScan _ _).bind fun r => ?_
  cases r with
  | none => exact Keeps.pure
  | some i => exact (h.inodeBitmapSet i true).bind fun _ => Keeps.pure

theorem blockBitmapAlloc : Keeps R blockBitmapAlloc := by
  refine Keeps.get.bind fun s => (keeps_bitmapScan _ _).bind fun r => ?_
  cases r with
  | none => exact Keeps.pure
  | some i => exact (h.blockBitmapSet i true).bind fun _ => Keeps.pure

theorem bitmapSync (i : Nat) (btmp : BitmapType) : Keeps R (bitmapSync i btmp) := by
  refine Keeps.get.bind fun s => ?_
  cases btmp
  · exact h.ideWrite _ _ _
  · exact h.ideWrite _ _ _

theorem releaseBlock (lba : UInt32) : Keeps R (releaseBlock lba) :=
  Keeps.get.bind fun _ => (h.blockBitmapSet _ _).bind fun _ => h.bitmapSync _ _

theorem releaseBlocks (blocks : Nat → UInt32) (n : Nat) : ∀ i,
    Keeps R (releaseBlocks blocks i n) := by
  induction n with
  | zero =>
      intro i
      exact Keeps.pure
  | succ n ih =>
      intro i
      rw [Fs.releaseBlocks]
      split
      · exact Keeps.get.bind fun _ => (keeps_assert _).bind fun _ => (h.releaseBlock _).bind fun _ =>
          ih _
      · exact ih _

theorem releaseAll (ino : Inode) : Keeps R ino.releaseAll := by
  refine Keeps.get.bind fun s => ?_
  dsimp only
  split
  · exact (h.releaseBlock _).bind fun _ => h.releaseBlocks _ _ _
  · exact h.releaseBlocks _ _ _

omit [IsPreorder State R] in
theorem setSector (p : Ptr) (i : Nat) (lba : UInt32) :
    Keeps R (modify fun s => s.setSector p i lba : FsM Unit) :=
  Keeps.modify fun s => h.sector s p i lba

theorem growDir {E : State → State → Prop} (hE : Absorbs R E) {p : Ptr} {de : Bytes}
    (hw : ∀ lba buf k, Keeps E (writeEntry p lba buf k de)) (blocks : Nat → UInt32) (i : Nat) :
    Keeps E (growDir p de blocks i) := by
  have hwrite : ∀ lba buf k, Keeps E (do writeEntry p lba buf k de; return true : FsM Bool) :=
    fun lba buf k => (hw lba buf k).after (fun _ => Keeps.pure) hE.after
  refine h.blockBitmapAlloc.before (fun r => ?_) hE.before
  cases r with
  | none => exact Keeps.pure.weaken hE.of
  | some lba =>
      refine Keeps.get.before (fun s => ?_) hE.before
      refine (keeps_assert _).before (fun _ => ?_) hE.before
      refine (h.bitmapSync _ _).before (fun _ => ?_) hE.before
      split
      · exact (h.setSector p i lba).before (fun _ => hwrite _ _ _) hE.before
      · split
        · refine (h.setSector p 12 lba).before (fun _ => ?_) hE.before
          refine h.blockBitmapAlloc.before (fun r' => ?_) hE.before
          cases r' with
          | none =>
              refine Keeps.weaken ?_ hE.of
              exact (h.blockBitmapSet _ _).bind fun _ => (h.setSector p 12 0).bind fun _ =>
                Keeps.pure
          | some lba' =>
              refine (keeps_assert _).before (fun _ => ?_) hE.before
              refine (h.bitmapSync _ _).before (fun _ => ?_) hE.before
              exact (h.ideWrite _ _ _).before (fun _ => hwrite _ _ _) hE.before
        · exact (h.ideWrite _ _ _).before (fun _ => hwrite _ _ _) hE.before

theorem syncLoop {E : State → State → Prop} (hE : Absorbs R E) {p : Ptr} {de : Bytes}
    (hw : ∀ lba buf k, Keeps E (writeEntry p lba buf k de)) (blocks : Nat → UInt32) (n : Nat) :
    ∀ i, Keeps E (syncLoop p de blocks i n) := by
  induction n with
  | zero =>
      intro i
      exact Keeps.pure.weaken hE.of
  | succ n ih =>
      intro i
      rw [Fs.syncLoop]
      split
      · exact h.growDir hE hw blocks i
      · refine (keeps_ideRead _ _ _).before (fun buf => ?_) hE.before
        split
        · exact (hw _ _ _).after (fun _ => Keeps.pure) hE.after
        · exact ih (i + 1)

theorem syncDirEntry {E : State → State → Prop} (hE : Absorbs R E) {de : Bytes}
    (hw : ∀ p lba buf k, Keeps E (writeEntry p lba buf k de)) (d : DirPtr) :
    Keeps E (syncDirEntry d de) := by
  refine Keeps.get.before (fun s => ?_) hE.before
  refine (keeps_assert _).before (fun _ => ?_) hE.before
  exact h.syncLoop hE (hw _) _ _ _

theorem allocBlocks (p : Ptr) (direct : Nat) (checkIdx : Bool) (n : Nat) :
    ∀ blocks i, Keeps R (allocBlocks p direct checkIdx blocks i n) := by
  induction n with
  | zero =>
      intro blocks i
      exact Keeps.pure
  | succ n ih =>
      intro blocks i
      refine h.blockBitmapAlloc.bind fun r => ?_
      cases r with
      | none => exact Keeps.pure
      | some lba =>
          refine Keeps.get.bind fun s => ?_
          split
          · exact (keeps_assert _).bind fun _ => (h.setSector _ _ _).bind fun _ =>
              (keeps_assert _).bind fun _ => (h.bitmapSync _ _).bind fun _ => ih _ _
          · exact (keeps_require _ _).bind fun _ => (h.bitmapSync _ _).bind fun _ => ih _ _

omit h in
theorem sameBlocks (p : Ptr) (has will : Nat) : Keeps R (sameBlocks p has will) := by
  refine Keeps.get.bind fun s => ?_
  split
  · exact Keeps.pure
  · exact (keeps_readTable p).bind fun _ => Keeps.pure

theorem writeTable (lba : UInt32) (blocks : Nat → UInt32) : Keeps R (writeTable lba blocks) :=
  (keeps_assertLba lba).bind fun _ => h.ideWrite _ _ _

theorem moreBlocks (p : Ptr) (has will : Nat) : Keeps R (moreBlocks p has will) := by
  refine Keeps.get.bind fun s => ?_
  split
  · exact (keeps_require _ _).bind fun _ => (keeps_assert _).bind fun _ =>
      h.allocBlocks _ _ _ _ _ _
  · split
    · refine h.blockBitmapAlloc.bind fun r => ?_
      cases r with
      | none => exact Keeps.pure
      | some table =>
          refine (keeps_assert _).bind fun _ => (h.setSector _ _ _).bind fun _ =>
            (h.allocBlocks _ _ _ _ _ _).bind fun r' => ?_
          cases r' with
          | none => exact Keeps.pure
          | some blocks => exact (h.writeTable _ _).bind fun _ => Keeps.pure
    · refine (keeps_readTable p).bind fun _ => (h.allocBlocks _ _ _ _ _ _).bind fun r' => ?_
      cases r' with
      | none => exact Keeps.pure
      | some blocks => exact (h.writeTable _ _).bind fun _ => Keeps.pure

theorem firstBlock (p : Ptr) : Keeps R (firstBlock p) := by
  refine Keeps.get.bind fun s => ?_
  split
  · refine h.blockBitmapAlloc.bind fun r => ?_
    cases r with
    | none => exact Keeps.pure
    | some lba =>
        exact (h.setSector _ _ _).bind fun _ => (keeps_assert _).bind fun _ =>
          (h.bitmapSync _ _).bind fun _ => Keeps.pure
  · exact Keeps.pure

theorem writeLoop {i : Nat} {p : Ptr} (hturn : ∀ s n f, R s ((s.setSize p n).setFile i f))
    (blocks : Nat → UInt32) (count : UInt32) (n : Nat) : ∀ first src written,
      Keeps R (writeLoop i p blocks count n first src written) := by
  induction n with
  | zero =>
      intro first src written
      exact Keeps.throw
  | succ n ih =>
      intro first src written
      rw [Fs.writeLoop]
      refine Keeps.ite Keeps.pure (Keeps.get.bind fun s => (keeps_require _ _).bind fun _ =>
        (keeps_assertLba _).bind fun _ => ?_)
      have hrest : ∀ (lba : UInt32) (buf : Bytes) (f : State → State) (src : Bytes)
          (written : UInt32), (∀ s, R s (f s)) → Keeps R (do
            Fs.ideWrite lba buf 1
            modify f
            Fs.writeLoop i p blocks count n false src written) := fun lba buf f src written hf =>
        (h.ideWrite _ _ _).bind fun _ => (Keeps.modify hf).bind fun _ => ih _ _ _
      exact Keeps.ite
        ((keeps_ideRead _ _ _).bind fun _ => hrest _ _ _ _ _ fun s => hturn s _ _)
        (Keeps.pure.bind fun _ => hrest _ _ _ _ _ fun s => hturn s _ _)

end StableDisk

namespace Stable

variable {R : State → State → Prop} [IsPreorder State R] (h : Stable R)
include h

omit [IsPreorder State R] in
theorem sysMalloc : Keeps R sysMalloc := by
  intro s b s' hs
  obtain ⟨-, rfl⟩ := sysMalloc_ok.mp hs
  exact h.mem s _ rfl

omit [IsPreorder State R] in
theorem sysFree : Keeps R sysFree := Keeps.modify fun s => h.mem s _ rfl

theorem sysFreeBlock (b : Block) : Keeps R (sysFreeBlock b) :=
  Keeps.get.bind fun _ => (keeps_assert _).bind fun _ => Keeps.modify fun s => h.mem s _ rfl

omit [IsPreorder State R] in
theorem setPgdir (pgdir : Nat) : Keeps R (modify fun s => s.setPgdir pgdir : FsM Unit) :=
  Keeps.modify fun s => h.mem s _ rfl

theorem inKernelHeap {α : Type} {c : FsM α} (hc : Keeps R c) : Keeps R (inKernelHeap c) :=
  Keeps.get.bind fun _ => Keeps.get.bind fun _ => (h.setPgdir 0).bind fun _ => hc.bind fun _ =>
    (h.setPgdir _).bind fun _ => Keeps.pure

theorem inodeOpen (hup : ∀ s p, R s (s.countUp p)) (hpush : ∀ s ino, R s (s.pushInode ino))
    (n : UInt32) : Keeps R (inodeOpen n) := by
  refine Keeps.get.bind fun s => ?_
  split
  · exact (Keeps.modify fun s => hup s _).bind fun _ => Keeps.pure
  · exact (keeps_inodeLocate n).bind fun _ => (h.inKernelHeap h.sysMalloc).bind fun _ =>
      h.sysMalloc.bind fun _ => (keeps_require _ _).bind fun _ =>
      (keeps_ideRead _ _ _).bind fun _ => (keeps_require _ _).bind fun _ => Keeps.get.bind fun _ =>
      (Keeps.modify fun s => hpush s _).bind fun _ => h.sysFree.bind fun _ => Keeps.pure

theorem inodeClose (hdown : ∀ s p, R s (s.setInode p (s.inode p).countDown))
    (herase : ∀ s p, R s { s with openInode := s.openInode.erase p }) (p : Ptr) :
    Keeps R (inodeClose p) := by
  refine (Keeps.modify fun s => hdown s p).bind fun _ => Keeps.get.bind fun s => ?_
  exact Keeps.ite ((Keeps.modify fun s => herase s p).bind fun _ => h.inKernelHeap h.sysFree)
    Keeps.pure

theorem searchDirEntry (d : DirPtr) (name : List UInt8) : Keeps R (searchDirEntry d name) :=
  h.sysMalloc.bind fun _ => Keeps.ite Keeps.pure
    (h.sysMalloc.bind fun _ => (keeps_require _ _).bind fun _ => Keeps.get.bind fun _ =>
      h.sysFree.bind fun _ => h.sysFree.bind fun _ => Keeps.pure)

end Stable

namespace StableRefs

variable {R : State → State → Prop} [IsPreorder State R] (h : StableRefs R)
include h

theorem dirOpen (n : UInt32) : Keeps R (dirOpen n) :=
  h.sysMalloc.bind fun _ => (h.inodeOpen n).bind fun _ => (keeps_require _ _).bind fun _ =>
    Keeps.get.bind fun _ => (Keeps.modify fun s => h.pushDir s _).bind fun _ => Keeps.pure

theorem dirClose (d : DirPtr) : Keeps R (dirClose d) :=
  Keeps.ite Keeps.pure
    (Keeps.get.bind fun _ => (h.inodeClose _).bind fun _ => h.sysFree)

theorem searchLoop (n : Nat) : ∀ (subPath : Option Path) (name : Bytes) (d : DirPtr)
    (no : UInt32) (e : Option DirEntry) (searched : Path),
    Keeps R (searchLoop n subPath name d no e searched) := by
  induction n with
  | zero =>
      intro subPath name d no e searched
      exact Keeps.throw
  | succ n ih =>
      intro subPath name d no e searched
      rw [Fs.searchLoop]
      split
      · refine (h.dirClose d).bind fun _ => (h.dirOpen no).bind fun d' => ?_
        cases e with
        | none => exact Keeps.throw
        | some e => exact Keeps.pure
      · refine (keeps_assert _).bind fun _ => (keeps_require _ _).bind fun _ =>
          (h.searchDirEntry d _).bind fun found => ?_
        cases found with
        | none => exact Keeps.pure
        | some e =>
            dsimp only
            split
            · exact Keeps.get.bind fun _ => (h.dirClose d).bind fun _ =>
                (h.dirOpen _).bind fun _ => ih _ _ _ _ _ _
            · split
              · exact Keeps.pure
              · exact ih _ _ _ _ _ _

theorem searchFile (p : Path) : Keeps R (searchFile p) := by
  rw [Fs.searchFile]
  split
  · exact Keeps.pure
  · exact (keeps_assert _).bind fun _ => h.searchLoop _ _ _ _ _ _ _

theorem inodeRelease (n : UInt32) : Keeps R (inodeRelease n) :=
  (h.inodeOpen n).bind fun _ => Keeps.get.bind fun _ => (keeps_assert _).bind fun _ =>
    (h.releaseAll _).bind fun _ => (h.inodeBitmapSet _ _).bind fun _ =>
    (h.bitmapSync _ _).bind fun _ => h.sysMalloc.bind fun _ => (keeps_require _ _).bind fun _ =>
    (h.inodeDelete n).bind fun _ => h.sysFree.bind fun _ => h.inodeClose _

end StableRefs

namespace StableDirs

variable {R : State → State → Prop} [IsPreorder State R] (h : StableDirs R)
include h

theorem writeEntry (p : Ptr) (lba : UInt32) (buf : Bytes) (k : Nat) (de : Bytes) :
    Keeps R (writeEntry p lba buf k de) :=
  (h.ideWrite _ _ _).bind fun _ => Keeps.modify fun s => h.size s _ _

theorem deleteLoop (p : Ptr) (inodeNo : UInt32) (blocks : Nat → UInt32) (n : Nat) : ∀ i,
    Keeps R (deleteLoop p inodeNo blocks i n) := by
  induction n with
  | zero =>
      intro i
      exact Keeps.pure
  | succ n ih =>
      intro i
      rw [Fs.deleteLoop]
      split
      · exact ih _
      · refine (keeps_ideRead _ _ _).bind fun buf => (keeps_assert _).bind fun _ => ?_
        cases (scanSector buf inodeNo).found with
        | none => exact ih _
        | some k =>
            have hclear : Keeps R (clearEntry blocks i buf k (scanSector buf inodeNo)) := by
              rw [clearEntry]
              split
              · exact (h.releaseBlock _).bind fun _ => keeps_require _ _
              · exact h.ideWrite _ _ _
            exact hclear.bind fun _ => Keeps.get.bind fun _ => (keeps_assert _).bind fun _ =>
              (Keeps.modify fun s => h.size s _ _).bind fun _ => Keeps.get.bind fun _ =>
              (h.inodeSync _).bind fun _ => Keeps.pure

theorem deleteDirEntry (d : DirPtr) (inodeNo : UInt32) : Keeps R (deleteDirEntry d inodeNo) :=
  Keeps.get.bind fun _ => h.deleteLoop _ _ _ _ _

theorem dirRemove (parentDir childDir : DirPtr) : Keeps R (dirRemove parentDir childDir) :=
  Keeps.get.bind fun _ => (keeps_assert _).bind fun _ => h.sysMalloc.bind fun _ =>
    Keeps.ite Keeps.pure ((h.deleteDirEntry _ _).bind fun _ => (h.inodeRelease _).bind fun _ =>
      h.sysFree.bind fun _ => Keeps.pure)

theorem sysUnlink (pathname : Path) : Keeps R (sysUnlink pathname) := by
  refine (h.searchFile _).bind fun r => (keeps_assert _).bind fun _ => ?_
  have hrefuse : Keeps R (do dirClose r.parentDir; return false : FsM Bool) :=
    (h.dirClose _).bind fun _ => Keeps.pure
  split
  · exact hrefuse
  split
  · exact hrefuse
  refine Keeps.get.bind fun s => ?_
  split
  · exact hrefuse
  · exact h.sysMalloc.bind fun _ => (keeps_require _ _).bind fun _ =>
      (h.deleteDirEntry _ _).bind fun _ => (h.inodeRelease _).bind fun _ => h.sysFree.bind fun _ =>
      (h.dirClose _).bind fun _ => Keeps.pure

theorem mkdirRollback (inodeNo : UInt32) (d : DirPtr) : Keeps R (mkdirRollback inodeNo d) :=
  (h.inodeBitmapSet _ _).bind fun _ => (h.dirClose _).bind fun _ => h.sysFree.bind fun _ =>
    Keeps.pure

theorem mkdirIn (d : DirPtr) (name : List UInt8) (inodeNo : UInt32) :
    Keeps R (mkdirIn d name inodeNo) := by
  refine h.blockBitmapAlloc.bind fun r => ?_
  cases r with
  | none => exact h.mkdirRollback _ _
  | some lba =>
      refine Keeps.get.bind fun _ => (h.bitmapSync _ _).bind fun _ => (h.ideWrite _ _ _).bind
        fun _ => (keeps_createDirEntry _ _ _).bind fun de => ?_
      refine (h.syncDirEntry (Absorbs.self R) (fun p lba buf k => h.writeEntry p lba buf k de)
        d).bind fun ok => ?_
      split
      · exact Keeps.get.bind fun _ => (h.inodeSync _).bind fun _ => (h.inodeSync _).bind fun _ =>
          (h.bitmapSync _ _).bind fun _ => h.sysFree.bind fun _ => (h.dirClose _).bind fun _ =>
          Keeps.pure
      · exact h.mkdirRollback _ _

theorem sysMkdir (pathname : Path) : Keeps R (sysMkdir pathname) := by
  refine h.sysMalloc.bind fun ioBuf => Keeps.ite Keeps.pure ((h.searchFile _).bind fun r => ?_)
  have hrefuse : Keeps R (do dirClose r.parentDir; sysFree; return false : FsM Bool) :=
    (h.dirClose _).bind fun _ => h.sysFree.bind fun _ => Keeps.pure
  refine Keeps.ite hrefuse ?_
  refine ((keeps_pathDepthCnt _).bind fun _ => (keeps_pathDepthCnt _).bind fun _ =>
    Keeps.pure).bind fun same => Keeps.ite ?_ hrefuse
  refine h.inodeBitmapAlloc.bind fun no => ?_
  cases no with
  | none => exact hrefuse
  | some no => exact h.mkdirIn _ _ _

theorem sysRmdir (pathname : Path) : Keeps R (sysRmdir pathname) := by
  refine (h.searchFile _).bind fun r => (keeps_assert _).bind fun _ => ?_
  split
  · refine (h.dirOpen _).bind fun d => Keeps.bind ?_ fun _ => (h.dirClose _).bind fun _ =>
      Keeps.pure
    refine Keeps.bind (Keeps.get.bind fun _ => Keeps.pure) fun empty => Keeps.ite ?_ ?_
    · exact (h.dirRemove _ _).bind fun _ => (h.dirClose _).bind fun _ => Keeps.pure
    · exact (h.dirClose _).bind fun _ => Keeps.pure
  · exact (h.dirClose _).bind fun _ => Keeps.pure

end StableDirs

namespace StableRefs

variable {R : State → State → Prop} [IsPreorder State R] (h : StableRefs R)
include h

theorem sysOpendir (name : Path) : Keeps R (sysOpendir name) := by
  refine (keeps_assert _).bind fun _ => Keeps.ite Keeps.pure ((h.searchFile _).bind fun r => ?_)
  split
  · exact (h.dirOpen _).bind fun _ => (h.dirClose _).bind fun _ => Keeps.pure
  · exact (h.dirClose _).bind fun _ => Keeps.pure

theorem sysStat (pathname : Path) : Keeps R (sysStat pathname) := by
  rw [Fs.sysStat]
  split
  · exact Keeps.get.bind fun _ => Keeps.pure
  · refine (h.searchFile _).bind fun r => ?_
    split
    · exact (h.inodeOpen _).bind fun _ => Keeps.get.bind fun _ => (h.inodeClose _).bind fun _ =>
        Keeps.pure
    · exact Keeps.pure

end StableRefs

namespace StableFiles

variable {R : State → State → Prop} [IsPreorder State R] (h : StableFiles R)
include h

theorem pcbFdInstall (i : Nat) : Keeps R (pcbFdInstall i) := by
  refine Keeps.get.bind fun s => ?_
  cases freeFd (s.fdTable s.cur) 3 (maxFilesOpenPerProc - 3) with
  | none => exact Keeps.pure
  | some fd => exact (Keeps.modify fun s => h.setFd s _ _ _ _).bind fun _ => Keeps.pure

theorem fileOpen (no flag : UInt32) : Keeps R (fileOpen no flag) := by
  refine keeps_getFreeSlotInGlobal.bind fun slot => ?_
  cases slot with
  | none => exact Keeps.pure
  | some i =>
      refine (h.inodeOpen no).bind fun p => ?_
      refine (Keeps.modify fun s => h.setFile s _ _).bind fun _ => Keeps.get.bind fun s => ?_
      split
      · split
        · exact Keeps.pure
        · exact (Keeps.modify fun s => h.setDeny s _ _).bind fun _ => h.pcbFdInstall i
      · exact h.pcbFdInstall i

theorem fileClose (i : Nat) : Keeps R (fileClose i) := by
  refine Keeps.get.bind fun s => ?_
  cases (s.fileTable i).fdInode with
  | none => exact Keeps.throw
  | some p =>
      exact (Keeps.modify fun s => h.setDeny s _ _).bind fun _ => (h.inodeClose p).bind fun _ =>
        Keeps.modify fun s => h.setFile s _ _

theorem sysClose (fd : Int) : Keeps R (sysClose fd) := by
  rw [Fs.sysClose]
  split
  · exact (keeps_fdLocal2global _).bind fun i => (h.fileClose i).bind fun _ =>
      (Keeps.modify fun s => h.setFd s _ _ _ _).bind fun _ => Keeps.pure
  · exact Keeps.pure

section Create

variable {E : State → State → Prop} (hE : Absorbs R E)
  (hw : ∀ p lba buf k de, Keeps E (writeEntry p lba buf k de))
include hE hw

theorem createIn (d : DirPtr) (name : List UInt8) (no : UInt32) (p : Ptr) (ino : Block) (i : Nat) :
    Keeps E (createIn d name no p ino i) := by
  refine (keeps_createDirEntry _ _ _).before (fun de => ?_) hE.before
  refine (h.syncDirEntry hE (fun p lba buf k => hw p lba buf k de) d).after (fun synced => ?_)
    hE.after
  split
  · exact Keeps.get.bind fun _ => (h.inodeSync _).bind fun _ => Keeps.get.bind fun _ =>
      (h.inodeSync _).bind fun _ => (h.bitmapSync _ _).bind fun _ =>
      (Keeps.modify fun s => h.listInode s p).bind fun _ => h.sysFree.bind fun _ =>
      h.pcbFdInstall i
  · exact (Keeps.modify fun s => h.setFile s _ _).bind fun _ => (h.sysFreeBlock _).bind fun _ =>
      (h.inodeBitmapSet _ _).bind fun _ => h.sysFree.bind fun _ => Keeps.pure

theorem createFile (d : DirPtr) (name : List UInt8) (flag no : UInt32) (ino : Block) :
    Keeps E (createFile d name flag no ino) := by
  refine Keeps.get.before (fun s => ?_) hE.before
  refine (Keeps.modify fun s => h.newInode s _).before (fun _ => ?_) hE.before
  refine keeps_getFreeSlotInGlobal.before (fun slot => ?_) hE.before
  cases slot with
  | none =>
      refine Keeps.weaken ?_ hE.of
      exact (h.sysFreeBlock _).bind fun _ => (h.inodeBitmapSet _ _).bind fun _ =>
        h.sysFree.bind fun _ => Keeps.pure
  | some i =>
      refine (Keeps.modify fun s => h.setFile s _ _).before (fun _ => ?_) hE.before
      exact h.createIn hE hw _ _ _ _ _ _

theorem fileCreate (d : DirPtr) (name : List UInt8) (flag : UInt32) :
    Keeps E (fileCreate d name flag) := by
  refine Keeps.get.before (fun s => ?_) hE.before
  refine h.sysMalloc.before (fun ioBuf => ?_) hE.before
  split
  · exact Keeps.pure.weaken hE.of
  refine h.inodeBitmapAlloc.before (fun found => ?_) hE.before
  cases found with
  | none => exact Keeps.pure.weaken hE.of
  | some no =>
      refine Keeps.get.before (fun s => ?_) hE.before
      refine (h.setPgdir 0).before (fun _ => ?_) hE.before
      refine Keeps.get.before (fun s => ?_) hE.before
      refine h.sysMalloc.before (fun newFileInode => ?_) hE.before
      split
      · refine Keeps.weaken ?_ hE.of
        exact (h.inodeBitmapSet _ _).bind fun _ => (h.sysFreeBlock _).bind fun _ => Keeps.pure
      exact (h.setPgdir _).before (fun _ => h.createFile hE hw _ _ _ _ _) hE.before

end Create

theorem sysOpen {E : State → State → Prop} (hE : Absorbs R E) {pathname : Path} {flags : UInt32}
    (hcreate : flags &&& oCreat ≠ 0 → ∀ d name, Keeps E (Fs.fileCreate d name flags)) :
    Keeps E (sysOpen pathname flags) := by
  have hrefuse : ∀ d : DirPtr, Keeps E (do Fs.dirClose d; return none : FsM (Option Nat)) :=
    fun d => ((h.dirClose d).bind fun _ => Keeps.pure).weaken hE.of
  refine (keeps_require _ _).before (fun _ => ?_) hE.before
  split
  · exact Keeps.pure.weaken hE.of
  refine (keeps_assert _).before (fun _ => ?_) hE.before
  refine (keeps_pathDepthCnt _).before (fun depth => ?_) hE.before
  refine (h.searchFile _).before (fun r => ?_) hE.before
  rw [openSearched]
  split
  · exact hrefuse _
  refine (keeps_pathDepthCnt _).before (fun searchedDepth => ?_) hE.before
  split
  · exact hrefuse _
  split
  · exact hrefuse _
  split
  · exact hrefuse _
  split
  · rename_i hflag
    refine (hcreate hflag _ _).after (fun fd => ?_) hE.after
    exact (h.dirClose _).bind fun _ => Keeps.pure
  · exact (h.fileOpen _ _).weaken hE.of

end StableFiles

end Aitos.Fs
