import Aitos.Fs.CreateFailure
import Aitos.Fs.DepthBuffer
import Aitos.Fs.Search
import Aitos.Fs.System

/-!
# Directories that cannot be made

`sys_mkdir` takes an inode, then a block, and writes the entry last.  When that fails it gives the
inode back and forgets the block.  Whether it gets there depends on where `search_file` ends, which
`lastDir` computes from the state before the call.
-/

namespace Aitos.Fs

open Framework

/-- Inode `n` as `inode_open` finds it: the one in memory, or what is at its place in the table. -/
def State.inodeFound (s : State) (n : UInt32) : Inode :=
  match s.findInode n with
  | some p => s.inode p
  | none =>
      let pos := inodePosition s.part.sb n
      let buf := Bytes.zero.blit 0 (512 * pos.sectors) (s.disk.drop (512 * pos.secLba.toNat))
      Inode.ofBytes (buf.drop pos.offSize.toNat)

/-- The requests for memory of `dir_open`: the inode is read from the disk unless it is open. -/
def State.opening (s : State) (n : UInt32) : Nat := if (s.findInode n).isSome then 1 else 3

/-- The directory in which the search for `cs` ends when it gives the number -1 after the last of
them: the last one is looked up there in vain, or for want of memory not at all, or the entry it has
gives that number.  `dir` is searched, `parentNo` is the directory that it was found in and `found`
its entry; `calls` requests for memory came before. -/
def State.lastDir (s : State) (dir : Inode) (parentNo : UInt32) (found : Option DirEntry)
    (calls : Nat) : List (List UInt8) → Option Inode
  | [] => if found.any (·.iNo = minusOne) then some (s.inodeFound parentNo) else none
  | c :: cs =>
      match if s.mem.serve calls then dir.lookup s.disk c else none with
      | none => if cs = [] then some dir else none
      | some e =>
          if e.fType = ftDirectory then
            s.lastDir (s.inodeFound e.iNo) dir.iNo (some e) (calls + 2 + s.opening e.iNo) cs
          else if e.fType = ftRegular then
            if e.iNo = minusOne ∧ cs = [] then some dir else none
          else s.lastDir dir parentNo (some e) (calls + 2) cs

/-- The first block of the new directory `no` in directory `parentNo` is taken: its bit is on the
disk and its entries are written. -/
def State.takeDirBlock (s : State) (no parentNo : UInt32) (i : Nat) : State :=
  ((s.setBlockBit i true).syncBlockBit i).writeSectors (s.part.sb.dataStartLba + UInt32.ofNat i)
    (dirBlock no parentNo) 1

/-- The directory has no room for an entry, and the blocks that it needs are not there. -/
def State.NoRoom (s : State) (dir : Inode) : Prop :=
  ∃ j, dir.growsAt s.disk = some j ∧
    (s.nextBlock = none ∨ j = 12 ∧ ∃ i, s.nextBlock = some i ∧ s.blockAfter i = none)

/-- The way out of `sys_mkdir` that undoes too little: the search ends in a directory without the
last name of the path, there is an inode and a block for the new directory, and then the other one
has no room for the entry. -/
def State.MkdirStuck (s : State) (pathname : Path) : Prop :=
  s.mem.serve s.mem.calls = true ∧ isRootPath pathname = false ∧
    (∀ c ∈ components pathname, c.length ≤ 16) ∧
    ∃ dir i, ∃ no : UInt32,
      s.lastDir (s.dirInode rootDir) 0 none (s.mem.calls + 1) (components pathname) = some dir ∧
      firstClear s.inodeBitmap 0 s.inodeBits = some no.toNat ∧ s.nextBlock = some i ∧
      (s.takeDirBlock no dir.iNo i).NoRoom dir

/-- The blocks of the kernel's heap since `s`: one for each inode that was opened, and one for the
handle `d` when the kernel's heap serves the thread. -/
structure HeapHeld (s s₁ : State) (d : DirPtr) : Prop where
  kernel : s₁.mem.kernel + s.openInode.length = s.mem.kernel + s₁.openInode.length +
    if d = rootDir ∨ s.kernelHeap = false then 0 else 1
  lost : s₁.mem.lost = s.mem.lost
  pgdir : s₁.mem.pgdir = s.mem.pgdir

/-- What a call did to the heap of the kernel: `k` more blocks, and `c` requests. -/
structure HeapStep (m m' : Memory) (k c : Nat) : Prop where
  kernel : m'.kernel = m.kernel + k
  calls : m'.calls = m.calls + c
  lost : m'.lost = m.lost
  pgdir : m'.pgdir = m.pgdir

section Heap

variable {s s₁ s' : State} {d : DirPtr} {p : Ptr}

private theorem searchDirEntry_heap {name : List UInt8} {r : Option DirEntry}
    (h : searchDirEntry d name s = .ok (r, s')) :
    s'.openInode = s.openInode ∧
      r = (if s.mem.serve s.mem.calls then (s.dirInode d).lookup s.disk name else none) ∧
      HeapStep s.mem s'.mem 0 (if s.mem.serve s.mem.calls then 2 else 1) := by
  rw [searchDirEntry] at h
  obtain ⟨first, s₁, hmalloc, hrest⟩ := Code.bind_ok.mp h
  obtain ⟨rfl, rfl⟩ := sysMalloc_ok.mp hmalloc
  split at hrest
  · rename_i hfail
    obtain ⟨rfl, rfl⟩ := Code.pure_ok.mp hrest
    rw [hfail]
    exact ⟨rfl, rfl, malloc_kernel_of_failed hfail, rfl, rfl, rfl⟩
  · rename_i hserved
    have hserve : s.mem.serve s.mem.calls = true := by simpa using hserved
    simp only [Code.bind_ok, sysMalloc_ok, require_ok, Code.get_bind, sysFree_ok, Code.pure_ok]
      at hrest
    obtain ⟨second, s₂, ⟨rfl, rfl⟩, _, s₃, ⟨rfl, hserve₂⟩, _, s₄, rfl, _, s₅, rfl, rfl, rfl⟩ := hrest
    rw [hserve]
    have hsecond : s.mem.serve (s.mem.calls + 1) = true := hserve₂
    refine ⟨rfl, rfl, ?_, rfl, ?_, rfl⟩
    · change Memory.kernel (((s.malloc.malloc s.kernelHeap).free s.kernelHeap ⟨s.kernelHeap, false⟩).free
        s.kernelHeap ⟨s.kernelHeap, false⟩) = _
      cases hk : s.kernelHeap <;>
        simp [State.malloc, Memory.malloc, Memory.free, hserve, hsecond, hk]
    · change Memory.lost (((s.malloc.malloc s.kernelHeap).free s.kernelHeap ⟨s.kernelHeap, false⟩).free
        s.kernelHeap ⟨s.kernelHeap, false⟩) = _
      simp [State.malloc, Memory.malloc, Memory.free]

private theorem inodeOpen_heap {n : UInt32} (h : inodeOpen n s = .ok (p, s')) :
    s'.openInode.length = s.openInode.length + (if (s.findInode n).isSome then 0 else 1) ∧
      HeapStep s.mem s'.mem (if (s.findInode n).isSome then 0 else 1)
        (if (s.findInode n).isSome then 0 else 2) ∧
      (s'.inode p).iNo = (s.inodeFound n).iNo ∧
      (s'.inode p).iSectors = (s.inodeFound n).iSectors := by
  rw [inodeOpen, Code.get_bind] at h
  rw [State.inodeFound]
  cases hfind : s.findInode n with
  | some q =>
      simp only [hfind, Code.modify_bind, Code.pure_ok] at h
      obtain ⟨rfl, rfl⟩ := h
      refine ⟨rfl, ⟨rfl, rfl, rfl, rfl⟩, ?_, ?_⟩
      · simp [State.countUp]
      · simp [State.countUp]
  | none =>
      simp only [hfind, inodeLocate, Code.bind_ok, Code.get_bind, Code.modify_bind, assert_ok,
        inKernelHeap_sysMalloc_ok, sysMalloc_ok, require_ok, ideRead_ok, sysFree_ok, Code.pure_ok]
        at h
      obtain ⟨_, s₁, ⟨_, _, ⟨rfl, -⟩, rfl, rfl⟩, found, s₂, ⟨rfl, rfl⟩, buf, s₃, ⟨rfl, rfl⟩, _, s₄,
        ⟨rfl, hbuf⟩, b, s₅, ⟨rfl, rfl⟩, _, s₆, ⟨rfl, hfound⟩, _, s₇, rfl, rfl, rfl⟩ := h
      have hsecond : s₁.mem.serve (s₁.mem.calls + 1) = true := hbuf
      have hfirst : s₁.mem.serve s₁.mem.calls = true := hfound
      refine ⟨rfl, ⟨?_, rfl, ?_, rfl⟩, ?_, ?_⟩
      · change Memory.kernel (((s₁.mem.malloc true).malloc s₁.kernelHeap).free s₁.kernelHeap
          ⟨s₁.kernelHeap, false⟩) = _
        cases hk : s₁.kernelHeap <;> simp [Memory.malloc, Memory.free, hfirst, hsecond]
      · change Memory.lost (((s₁.mem.malloc true).malloc s₁.kernelHeap).free s₁.kernelHeap
          ⟨s₁.kernelHeap, false⟩) = _
        simp [Memory.malloc, Memory.free]
      · simp [Inode.opened]
      · simp [Inode.opened]

/-- What the search keeps true of the handle that it holds: the directory `dir` is open there. -/
structure OnInode (s s₁ : State) (d : DirPtr) (dir : Inode) : Prop where
  holding : Holding s s₁ d
  heap : HeapHeld s s₁ d
  iNo : (s₁.dirInode d).iNo = dir.iNo
  iSectors : (s₁.dirInode d).iSectors = dir.iSectors

theorem Restored.inodeFound (ht : Tidy s) (h : Restored s s₁) (n : UInt32) :
    s₁.inodeFound n = s.inodeFound n := by
  rw [State.inodeFound, State.inodeFound, h.findInode ht, h.disk, h.part]
  cases hfind : s.findInode n with
  | none => rfl
  | some p => exact h.inode p (ht.listed p (List.mem_of_find?_eq_some hfind)).1

theorem HeapHeld.kernelHeap (hf : Framed s s₁) (h : HeapHeld s s₁ d) :
    s₁.kernelHeap = s.kernelHeap := by
  rw [State.kernelHeap, h.pgdir, hf.cur, State.kernelHeap]

private theorem dirOpen_onInode {n : UInt32} (ht : Tidy s) (hr : Restored s s₁)
    (hkernel : s₁.mem.kernel = s.mem.kernel) (hlost : s₁.mem.lost = s.mem.lost)
    (hpgdir : s₁.mem.pgdir = s.mem.pgdir) (h : dirOpen n s₁ = .ok (d, s')) :
    OnInode s s' d (s.inodeFound n) ∧ s'.mem.calls = s₁.mem.calls + s.opening n := by
  obtain ⟨hhold, hne⟩ := dirOpen_holding ht hr h
  simp only [dirOpen, Code.bind_ok, sysMalloc_ok, Code.get_bind, Code.modify_bind, require_ok,
    Code.pure_ok] at h
  obtain ⟨_, s₂, ⟨rfl, rfl⟩, p, s₃, h₃, _, s₄, ⟨rfl, hserve⟩, rfl, rfl⟩ := h
  obtain ⟨hlen, hstep, hiNo, hiSectors⟩ := inodeOpen_heap h₃
  have hr₂ : Restored s (s₁.setMem s₁.malloc) := trans_of Restored hr (Restored.malloc s₁)
  have hfind : (s₁.setMem s₁.malloc).findInode n = s.findInode n := hr₂.findInode ht n
  have hheap : s₁.kernelHeap = s.kernelHeap := by
    rw [State.kernelHeap, hpgdir, hr.cur, State.kernelHeap]
  have hmalloc : s₁.malloc.kernel = if s.kernelHeap then s.mem.kernel + 1 else s.mem.kernel := by
    rw [State.malloc, malloc_kernel hserve, hheap, hkernel]
  have hinode : (s₄.pushDir p).dirInode s₄.nextDir = s₄.inode p := by simp [State.dirInode]
  rw [hfind] at hlen hstep
  rw [hr₂.inodeFound ht] at hiNo hiSectors
  have hopen : s₁.openInode = s.openInode := hr.openInode
  refine ⟨⟨hhold, ⟨?_, hstep.lost.trans hlost, hstep.pgdir.trans hpgdir⟩, ?_, ?_⟩, ?_⟩
  · have hk : s₄.mem.kernel = s₁.malloc.kernel + _ := hstep.kernel
    have hl : s₄.openInode.length = s₁.openInode.length + _ := hlen
    change s₄.mem.kernel + _ = _ + s₄.openInode.length + _
    rw [hk, hl, hmalloc, hopen]
    simp only [hne, false_or]
    cases s.kernelHeap
    · simp only [Bool.false_eq_true, ↓reduceIte]
      omega
    · simp only [↓reduceIte, Bool.true_eq_false]
      omega
  · rw [hinode]
    exact hiNo
  · rw [hinode]
    exact hiSectors
  · have hc : s₄.mem.calls = s₁.mem.calls + 1 + _ := hstep.calls
    change s₄.mem.calls = _
    rw [hc, State.opening]
    split <;> omega

private theorem dirClose_heap {u : Unit} (ht : Tidy s) (hhold : Holding s s₁ d)
    (hheap : HeapHeld s s₁ d) (h : dirClose d s₁ = .ok (u, s')) : s'.mem.kernel = s.mem.kernel ∧
      s'.mem.lost = s.mem.lost ∧ s'.mem.pgdir = s.mem.pgdir ∧ s'.mem.calls = s₁.mem.calls := by
  have hk := hheap.kernelHeap hhold.framed
  have hcount := hheap.kernel
  rw [dirClose] at h
  rcases hhold with ⟨rfl, hr⟩ | ⟨hd, -, href⟩
  · rw [if_pos rfl] at h
    obtain ⟨-, rfl⟩ := Code.pure_ok.mp h
    rw [if_pos (.inl rfl), hr.openInode] at hcount
    exact ⟨by omega, hheap.lost, hheap.pgdir, rfl⟩
  · have hne : d ≠ rootDir := Nat.ne_of_gt (ht.rootDir.trans_le hd)
    simp only [hne, false_or] at hcount
    rw [if_neg hne, Code.get_bind] at h
    obtain ⟨_, s₂, hclose, hfree⟩ := Code.bind_ok.mp h
    obtain rfl := sysFree_ok.mp hfree
    simp only [inodeClose, Code.modify_bind, Code.get_bind] at hclose
    rcases href.here with ⟨hmem, hopen, hp⟩ | ⟨-, hopen, hp⟩
    · have hpos := (ht.listed _ hmem).2
      have hcnt : ((s₁.setInode (s₁.dir d).inode (s₁.inode (s₁.dir d).inode).countDown).inode
          (s₁.dir d).inode).iOpenCnts ≠ 0 := by
        simp only [State.setInode_inode, Function.update_self, hp, Inode.countDown]
        rw [if_neg (by omega)]
        omega
      rw [if_neg hcnt] at hclose
      obtain ⟨-, rfl⟩ := Code.pure_ok.mp hclose
      rw [hopen] at hcount
      refine ⟨?_, ?_, hheap.pgdir, rfl⟩
      · change (s₁.mem.free s₁.kernelHeap ⟨s₁.kernelHeap, false⟩).kernel = _
        rw [hk, Memory.free]
        cases hheap' : s.kernelHeap <;> simp only [hheap'] at hcount ⊢ <;> simp at hcount ⊢ <;> omega
      · change (s₁.mem.free s₁.kernelHeap ⟨s₁.kernelHeap, false⟩).lost = _
        rw [Memory.free]
        simp [hheap.lost]
    · have hcnt : ((s₁.setInode (s₁.dir d).inode (s₁.inode (s₁.dir d).inode).countDown).inode
          (s₁.dir d).inode).iOpenCnts = 0 := by
        simp [Inode.countDown, hp]
      rw [if_pos hcnt] at hclose
      simp only [Code.modify_bind, inKernelHeap_sysFree_ok] at hclose
      subst hclose
      rw [hopen, List.length_cons] at hcount
      refine ⟨?_, ?_, hheap.pgdir, rfl⟩
      · change ((s₁.mem.free true ⟨true, false⟩).free s₁.kernelHeap ⟨s₁.kernelHeap, false⟩).kernel = _
        rw [hk]
        cases hheap' : s.kernelHeap <;> simp only [hheap'] at hcount ⊢ <;>
          simp [Memory.free] at hcount ⊢ <;> omega
      · change ((s₁.mem.free true ⟨true, false⟩).free s₁.kernelHeap ⟨s₁.kernelHeap, false⟩).lost = _
        simp [Memory.free, hheap.lost]

theorem OnInode.root (s : State) : OnInode s s rootDir (s.dirInode rootDir) :=
  ⟨.inl ⟨rfl, refl_of Restored s⟩, ⟨rfl, rfl, rfl⟩, rfl, rfl⟩

theorem OnInode.searchDirEntry {dir : Inode} {name : List UInt8} {r : Option DirEntry}
    (ht : Tidy s) (hroot : (s.dir rootDir).inode < s.nextInode) (hd : OnInode s s₁ d dir)
    (h : searchDirEntry d name s₁ = .ok (r, s')) : OnInode s s' d dir ∧
      r = (if s.mem.serve s₁.mem.calls then dir.lookup s.disk name else none) ∧
      (s.mem.serve s₁.mem.calls = true → s'.mem.calls = s₁.mem.calls + 2) := by
  have hr := restored_searchDirEntry _ _ _ _ _ h
  obtain ⟨hopen, hfound, hstep⟩ := searchDirEntry_heap h
  have hsame := hd.holding.dirInode ht hroot hr
  have hserve : s₁.mem.serve = s.mem.serve := hd.holding.framed.serve
  rw [hserve, lookup_congr hd.iSectors, hd.holding.framed.disk] at hfound
  refine ⟨⟨hd.holding.restored hr, ⟨?_, hstep.lost.trans hd.heap.lost,
    hstep.pgdir.trans hd.heap.pgdir⟩, ?_, ?_⟩, hfound, fun hserved => ?_⟩
  · rw [hstep.kernel, hopen]
    exact hd.heap.kernel
  · rw [hsame]
    exact hd.iNo
  · rw [hsame]
    exact hd.iSectors
  · rw [hstep.calls, hserve, if_pos hserved]

theorem OnInode.next {dir : Inode} {n : UInt32} {d' : DirPtr} {s₂ : State} {u : Unit} (ht : Tidy s)
    (hd : OnInode s s₁ d dir) (hclose : dirClose d s₁ = .ok (u, s₂))
    (hopen : dirOpen n s₂ = .ok (d', s')) :
    OnInode s s' d' (s.inodeFound n) ∧ s'.mem.calls = s₁.mem.calls + s.opening n := by
  have hr := dirClose_restored ht hd.holding hclose
  obtain ⟨hkernel, hlost, hpgdir, hcalls⟩ := dirClose_heap ht hd.holding hd.heap hclose
  rw [← hcalls]
  exact dirOpen_onInode ht hr hkernel hlost hpgdir hopen

private theorem searchLoop_heap (ht : Tidy s) (hroot : (s.dir rootDir).inode < s.nextInode)
    (n : Nat) : ∀ {s₁ : State} {subPath : Option Path} {name : Bytes} {d : DirPtr} {no : UInt32}
      {dirE : Option DirEntry} {searched : Path} {r : Searched}, (∃ dir, OnInode s s₁ d dir) →
      searchLoop n subPath name d no dirE searched s₁ = .ok (r, s') →
      ∃ dir, OnInode s s' r.parentDir dir := by
  induction n with
  | zero =>
      intro s₁ subPath name d no dirE searched r _ h
      exact (fault_ok.mp h).elim
  | succ n ih =>
      rintro s₁ subPath name d no dirE searched r ⟨dir, hd⟩ h
      rw [searchLoop] at h
      split at h
      · obtain ⟨_, s₂, h₂, h⟩ := Code.bind_ok.mp h
        obtain ⟨d', s₃, h₃, h⟩ := Code.bind_ok.mp h
        cases dirE with
        | none => exact (fault_ok.mp h).elim
        | some e =>
            obtain ⟨rfl, rfl⟩ := Code.pure_ok.mp h
            exact ⟨_, (hd.next ht h₂ h₃).1⟩
      · simp only [Code.bind_ok, assert_ok, require_ok] at h
        obtain ⟨_, s₂, ⟨rfl, -⟩, _, s₃, ⟨rfl, -⟩, found, s₄, h₄, h⟩ := h
        have hd₄ := (hd.searchDirEntry ht hroot h₄).1
        cases found with
        | none =>
            obtain ⟨rfl, rfl⟩ := Code.pure_ok.mp h
            exact ⟨dir, hd₄⟩
        | some e =>
            simp only at h
            split at h
            · simp only [Code.get_bind] at h
              obtain ⟨_, s₅, h₅, h⟩ := Code.bind_ok.mp h
              obtain ⟨d', s₆, h₆, h⟩ := Code.bind_ok.mp h
              exact ih ⟨_, (hd₄.next ht h₅ h₆).1⟩ h
            · split at h
              · obtain ⟨rfl, rfl⟩ := Code.pure_ok.mp h
                exact ⟨dir, hd₄⟩
              · exact ih ⟨dir, hd₄⟩ h

/-- Where the search for the components `todo` ends. -/
structure EndsAt (s s' : State) (todo : List (List UInt8)) (searched : Path) (last : Option Inode)
    (r : Searched) : Prop where
  path : ∃ done, done <+: todo ∧ r.searchedPath = searched ++ joined done ∧
    (last.isSome = true ↔ r.inodeNo = minusOne ∧ done = todo)
  dir : ∀ dir, last = some dir → OnInode s s' r.parentDir dir

private theorem EndsAt.cons {c : List UInt8} {todo : List (List UInt8)} {searched : Path}
    {last : Option Inode} {r : Searched} (h : EndsAt s s' todo (searched ++ slash :: c) last r) :
    EndsAt s s' (c :: todo) searched last r := by
  obtain ⟨done, hdone, hpath, hlast⟩ := h.path
  refine ⟨⟨c :: done, List.cons_prefix_cons.mpr ⟨rfl, hdone⟩, ?_, ?_⟩, h.dir⟩
  · rw [hpath, List.append_assoc]
    rfl
  · rw [hlast, List.cons.injEq]
    simp

/-- All components are found. -/
private theorem endsAt_found {no : UInt32} {e : DirEntry} {searched : Path} {d : DirPtr}
    (hd : OnInode s s' d (s.inodeFound no)) (dir : Inode) (calls : Nat) :
    EndsAt s s' [] searched (s.lastDir dir no (some e) calls [])
      ⟨e.iNo, searched, d, ftDirectory⟩ := by
  refine ⟨⟨[], List.nil_prefix, (List.append_nil _).symm, ?_⟩, ?_⟩
  · by_cases he : e.iNo = minusOne <;> simp [State.lastDir, he]
  · intro last hlast
    have hsame : last = s.inodeFound no := by
      by_cases he : e.iNo = minusOne
      · simp [State.lastDir, he] at hlast
        exact hlast.symm
      · simp [State.lastDir, he] at hlast
    rw [hsame]
    exact hd

/-- The search stops at the component that it looks up. -/
private theorem endsAt_stop {c : List UInt8} {todo : List (List UInt8)} {searched : Path}
    {r : Searched} {dir : Inode} (hd : OnInode s s' r.parentDir dir)
    (hpath : r.searchedPath = searched ++ slash :: c) : EndsAt s s' (c :: todo) searched
      (if r.inodeNo = minusOne ∧ todo = [] then some dir else none) r := by
  refine ⟨⟨[c], List.cons_prefix_cons.mpr ⟨rfl, List.nil_prefix⟩, ?_, ?_⟩, ?_⟩
  · rw [hpath, joined_singleton]
  · by_cases hcase : r.inodeNo = minusOne ∧ todo = []
    · simp [hcase]
    · rw [if_neg hcase]
      refine iff_of_false (by simp) ?_
      rintro ⟨hno, heq⟩
      exact hcase ⟨hno, by simpa using heq.symm⟩
  · intro last hlast
    by_cases hcase : r.inodeNo = minusOne ∧ todo = []
    · rw [if_pos hcase] at hlast
      cases hlast
      exact hd
    · rw [if_neg hcase] at hlast
      cases hlast

private theorem searchLoop_lastDir (ht : Tidy s) (hroot : (s.dir rootDir).inode < s.nextInode)
    (n : Nat) :
    ∀ {s₁ : State} {todo : List (List UInt8)} {rest : Option Path} {name : Bytes} {d : DirPtr}
      {no : UInt32} {dirE : Option DirEntry} {searched : Path} {r : Searched} {dir : Inode},
      OnInode s s₁ d dir → Upcoming name rest todo → (∀ c ∈ todo, c.length ≤ 16) →
      searchLoop n rest name d no dirE searched s₁ = .ok (r, s') →
      EndsAt s s' todo searched (s.lastDir dir no dirE s₁.mem.calls todo) r := by
  induction n with
  | zero =>
      intro s₁ todo rest name d no dirE searched r dir _ _ _ h
      exact (fault_ok.mp h).elim
  | succ n ih =>
      intro s₁ todo rest name d no dirE searched r dir hd hup hshort h
      rw [searchLoop] at h
      split at h
      · rename_i hzero
        obtain rfl := hup.done_iff.mp hzero
        obtain ⟨_, s₂, h₂, h⟩ := Code.bind_ok.mp h
        obtain ⟨d', s₃, h₃, h⟩ := Code.bind_ok.mp h
        cases dirE with
        | none => exact (fault_ok.mp h).elim
        | some e =>
            obtain ⟨rfl, rfl⟩ := Code.pure_ok.mp h
            exact endsAt_found (hd.next ht h₂ h₃).1 _ _
      · rename_i hname
        obtain ⟨c, todo, rfl⟩ := List.exists_cons_of_ne_nil fun hnil => hname (hup.done_iff.mpr hnil)
        have hchars : cstr name 512 = c := hup.chars
        have hnext := hup.next (hshort c List.mem_cons_self)
        have hshort' : ∀ e ∈ todo, e.length ≤ 16 := fun e he => hshort e (List.mem_cons_of_mem _ he)
        rw [hchars] at h
        simp only [Code.bind_ok, assert_ok, require_ok] at h
        obtain ⟨_, s₂, ⟨rfl, -⟩, _, s₃, ⟨rfl, -⟩, found, s₄, h₄, h⟩ := h
        obtain ⟨hd₄, hfound, hcalls⟩ := hd.searchDirEntry ht hroot h₄
        rw [State.lastDir, ← hfound]
        cases found with
        | none =>
            obtain ⟨rfl, rfl⟩ := Code.pure_ok.mp h
            have hend : EndsAt s s' (c :: todo) searched _
                ⟨minusOne, searched ++ slash :: c, d, ftUnknown⟩ := endsAt_stop hd₄ rfl
            simp only [true_and] at hend
            exact hend
        | some e =>
            have hserve : s.mem.serve s₃.mem.calls = true := by
              by_contra hcon
              rw [if_neg hcon] at hfound
              cases hfound
            have hcalls₄ := hcalls hserve
            simp only at h ⊢
            split at h
            · rename_i hdirectory
              rw [if_pos hdirectory]
              simp only [Code.get_bind] at h
              obtain ⟨_, s₅, h₅, h⟩ := Code.bind_ok.mp h
              obtain ⟨d', s₆, h₆, h⟩ := Code.bind_ok.mp h
              obtain ⟨hd₆, hcalls₆⟩ := hd₄.next ht h₅ h₆
              rw [hd₄.iNo] at h
              have hend := ih hd₆ hnext hshort' h
              rw [hcalls₆, hcalls₄] at hend
              exact hend.cons
            · rename_i hdirectory
              rw [if_neg hdirectory]
              split at h
              · rename_i hregular
                rw [if_pos hregular]
                obtain ⟨rfl, rfl⟩ := Code.pure_ok.mp h
                have hend : EndsAt s s' (c :: todo) searched _
                    ⟨e.iNo, searched ++ slash :: c, d, ftRegular⟩ := endsAt_stop hd₄ rfl
                exact hend
              · rename_i hregular
                rw [if_neg hregular]
                have hend := ih hd₄ hnext hshort' h
                rw [hcalls₄] at hend
                exact hend.cons

end Heap

/-- The bitmap of blocks in memory is as before. -/
def SameBlocks (s s' : State) : Prop := s'.blockBitmap = s.blockBitmap

instance : IsPreorder State SameBlocks where
  refl _ := rfl
  trans _ _ _ h h' := Eq.trans h' h

private theorem sameBlocks_dirClose (d : DirPtr) : Keeps SameBlocks (dirClose d) := by
  have hclose : ∀ p, Keeps SameBlocks (inodeClose p) := by
    intro p
    refine Keeps.bind (Keeps.modify fun s => rfl) fun _ => Keeps.get.bind fun s => ?_
    split
    · exact Keeps.bind (Keeps.modify fun s => rfl) fun _ => Keeps.modify fun s => rfl
    · exact Keeps.pure
  exact Keeps.ite Keeps.pure (Keeps.get.bind fun s => (hclose _).bind fun _ =>
    Keeps.modify fun s => rfl)

section Mkdir

variable {s s₁ s' : State} {d : DirPtr} {no : UInt32} {i : Nat} {name : List UInt8} {de : Bytes}
  {pathname : Path}

private theorem syncDirEntry_noRoom (h : syncDirEntry d de s = .ok (false, s')) :
    s.NoRoom (s.dirInode d) := by
  rcases syncDirEntry_grown h with ⟨-, hb⟩ | ⟨j, hj, hgrown⟩
  · cases hb
  · cases hgrown with
    | noBlock hnone => exact ⟨j, hj, .inl hnone⟩
    | noSecond hj12 hi hnext => exact ⟨j, hj, .inr ⟨hj12, _, hi, hnext⟩⟩

private theorem noRoom_congr {dir dir' : Inode} (hdir : dir'.iSectors = dir.iSectors)
    (hdisk : s'.disk = s.disk) (hbits : s'.blockBitmap = s.blockBitmap) (hpart : s'.part = s.part) :
    s'.NoRoom dir' ↔ s.NoRoom dir := by
  simp only [State.NoRoom, Inode.growsAt, State.nextBlock, State.blockAfter, State.blockBits, hdir,
    hdisk, hbits, hpart]

private theorem takeDirBlock_congr (hf : Framed s s₁) (no parentNo : UInt32) (i : Nat) :
    (s₁.takeDirBlock no parentNo i).disk = (s.takeDirBlock no parentNo i).disk ∧
      (s₁.takeDirBlock no parentNo i).blockBitmap = (s.takeDirBlock no parentNo i).blockBitmap := by
  simp only [State.takeDirBlock, State.syncBlockBit, State.setBlockBit, State.writeSectors, hf.disk,
    hf.blockBitmap, hf.part, and_self]

/-- A failing `mkdirIn` found no block, or no room for the entry after it had taken one. -/
private theorem mkdirIn_failed (hclear : s₁.inodeBitmap no.toNat = false)
    (h : mkdirIn d name no (s₁.setInodeBit no.toNat true) = .ok (false, s')) :
    (s₁.nextBlock = none ∧ ∃ s₂ u, dirClose d s₁ = .ok (u, s₂) ∧ s' = s₂.setMem s₂.free) ∨
    ∃ i, s₁.nextBlock = some i ∧
      (s₁.takeDirBlock no (s₁.dirInode d).iNo i).NoRoom (s₁.dirInode d) ∧
        s'.blockBitmap ≠ s₁.blockBitmap := by
  have hback : (s₁.setInodeBit no.toNat true).setInodeBit no.toNat false = s₁ := by
    simp only [State.setInodeBit, update_true_false hclear]
  rw [mkdirIn] at h
  obtain ⟨r, s₂, halloc, hrest⟩ := Code.bind_ok.mp h
  rcases blockBitmapAlloc_cases halloc with ⟨hnone, rfl, rfl⟩ | ⟨i, hsome, hlt, hfree, rfl, rfl⟩
  · left
    refine ⟨hnone, ?_⟩
    simp only [mkdirRollback, inodeBitmapSet, Code.get_bind, Code.bind_ok, require_ok,
      Code.modify_ok, sysFree_ok, Code.pure_ok] at hrest
    obtain ⟨_, s₃, ⟨_, s₄, ⟨rfl, -⟩, rfl⟩, _, s₅, hclose, _, s₆, rfl, -, rfl⟩ := hrest
    rw [hback] at hclose
    exact ⟨s₅, _, hclose, rfl⟩
  · right
    have hidx : ((s₁.setInodeBit no.toNat true).setBlockBit i true).blockIdx
        (s₁.part.sb.dataStartLba + UInt32.ofNat i) = i := blockIdx_blockLba (s := s₁) hlt
    dsimp only at hrest
    rw [Code.get_bind] at hrest
    simp only [State.setInodeBit_part, hidx] at hrest
    rw [Code.bind_of_ok (bitmapSync_block _ _)] at hrest
    obtain ⟨_, s₃, hwrite, hrest₃⟩ := Code.bind_ok.mp hrest
    obtain rfl := ideWrite_ok.mp hwrite
    obtain ⟨de, s₄, hde, hrest₄⟩ := Code.bind_ok.mp hrest₃
    obtain rfl := createDirEntry_same _ _ _ _ _ _ hde
    obtain ⟨b, s₅, hsync, htail⟩ := Code.bind_ok.mp hrest₄
    cases b with
    | true =>
        simp only [↓reduceIte, Code.bind_ok, Code.get_bind, Code.pure_ok] at htail
        simp at htail
    | false =>
        have hroom := syncDirEntry_noRoom hsync
        refine ⟨i, hsome, (noRoom_congr rfl rfl rfl rfl).mp hroom, ?_⟩
        simp only [Bool.false_eq_true, ↓reduceIte, mkdirRollback, inodeBitmapSet, Code.get_bind,
          Code.bind_ok, require_ok, Code.modify_ok, sysFree_ok, Code.pure_ok] at htail
        obtain ⟨_, s₆, ⟨_, s₇, ⟨rfl, -⟩, rfl⟩, _, s₈, hclose, _, s₉, rfl, -, rfl⟩ := htail
        intro heq
        have hbits : s₈.blockBitmap = Function.update s₁.blockBitmap i true :=
          (sameBlocks_dirClose _ _ _ _ hclose).trans (syncDirEntry_failed hsync).1
        have hbit : s₈.blockBitmap i = s₁.blockBitmap i := congrFun heq i
        have hwas : s₁.blockBitmap i = false := hfree
        rw [hbits, Function.update_self, hwas] at hbit
        cases hbit

private theorem samePathDepth_same (pathname : Path) (r : Searched) :
    Keeps Eq (samePathDepth pathname r) :=
  (pathDepthCnt_same _).bind fun _ => (pathDepthCnt_same _).bind fun _ => Keeps.pure

private theorem pathDepthCnt_counts {p : Path} {n : Nat} (hzero : 0 ∉ p)
    (h : pathDepthCnt p s = .ok (n, s')) :
    (∀ c ∈ components p, c.length ≤ 16) ∧ n = (components p).length := by
  have hne : components p ≠ [] := by
    intro hnil
    have hleft : (some p).elim [] components = [] := hnil
    have hhead : (pathParse p).component = [] := (nextComponent hleft).1
    simp [pathDepthCnt, hhead, Code.bind_ok] at h
  rw [pathDepthCnt_eq (fun c hc hmem => hzero (mem_of_mem_components hc hmem)) hne] at h
  split at h
  · next hshort =>
      cases h
      exact ⟨hshort, rfl⟩
  · cases h

private theorem samePathDepth_short {r : Searched} {same : Bool} (hzero : 0 ∉ pathname)
    (h : samePathDepth pathname r s = .ok (same, s')) : ∀ c ∈ components pathname, c.length ≤ 16 := by
  rw [samePathDepth] at h
  obtain ⟨n, s₁, hcount, -⟩ := Code.bind_ok.mp h
  exact (pathDepthCnt_counts hzero hcount).1

private theorem samePathDepth_joined {r : Searched} {same : Bool} {done : List (List UInt8)}
    (hzero : 0 ∉ pathname) (hdone : done <+: components pathname)
    (hpath : r.searchedPath = joined done) (h : samePathDepth pathname r s = .ok (same, s')) :
    same = true ↔ done = components pathname := by
  have hsound : ∀ c ∈ done, c ∈ components pathname := fun c hc => hdone.subset hc
  have hzero' : 0 ∉ joined done := zero_notMem_joined fun c hc hmem =>
    hzero (mem_of_mem_components (hsound c hc) hmem)
  have hjoined : components (joined done) = done := components_joined fun c hc =>
    ⟨(component_sound (hsound c hc)).1, (component_sound (hsound c hc)).2.1⟩
  rw [samePathDepth, hpath] at h
  obtain ⟨n, s₁, hcount, hrest⟩ := Code.bind_ok.mp h
  obtain ⟨m, s₂, hcount', hret⟩ := Code.bind_ok.mp hrest
  obtain ⟨rfl, -⟩ := Code.pure_ok.mp hret
  rw [(pathDepthCnt_counts hzero hcount).2, (pathDepthCnt_counts hzero' hcount').2, hjoined,
    decide_eq_true_iff]
  exact ⟨fun hlen => hdone.eq_of_length hlen.symm, fun heq => by rw [heq]⟩

private theorem lastDir_setMem {m : Memory} (hm : m.serve = s.mem.serve) (cs : List (List UInt8)) :
    ∀ (dir : Inode) (parentNo : UInt32) (found : Option DirEntry) (calls : Nat),
      (s.setMem m).lastDir dir parentNo found calls cs = s.lastDir dir parentNo found calls cs := by
  induction cs with
  | nil => exact fun _ _ _ _ => rfl
  | cons c cs ih =>
      intro dir parentNo found calls
      have hserve : (s.setMem m).mem.serve = s.mem.serve := hm
      rw [State.lastDir, State.lastDir, hserve]
      simp only [ih]
      rfl

private theorem searchFile_lastDir {r : Searched} (ht : Tidy s)
    (hroot : (s.dir rootDir).inode < s.nextInode)
    (hzero : 0 ∉ pathname) (hpath : isRootPath pathname = false)
    (hshort : ∀ c ∈ components pathname, c.length ≤ 16) (h : searchFile pathname s = .ok (r, s')) :
    EndsAt s s' (components pathname) []
      (s.lastDir (s.dirInode rootDir) 0 none s.mem.calls (components pathname)) r := by
  have hup : Upcoming (storeName Bytes.zero (pathParse pathname).component)
      (pathParse pathname).rest (components pathname) := by
    have hleft : (some pathname).elim [] components = components pathname := rfl
    refine Upcoming.of_parse (fun _ _ => rfl) hleft fun c hc => ?_
    have hle := hshort c hc
    exact ⟨components_ne_nil hc, fun hmem => hzero (mem_of_mem_components hc hmem), by omega⟩
  rw [searchFile, if_neg (by rw [hpath]; decide)] at h
  simp only [Code.bind_ok, assert_ok] at h
  obtain ⟨_, s₁, ⟨rfl, -⟩, h⟩ := h
  exact searchLoop_lastDir ht hroot _ (OnInode.root _) hup hshort h

private theorem searchFile_heap {r : Searched} (ht : Tidy s)
    (hroot : (s.dir rootDir).inode < s.nextInode)
    (h : searchFile pathname s = .ok (r, s')) : ∃ dir, OnInode s s' r.parentDir dir := by
  rw [searchFile] at h
  split at h
  · obtain ⟨rfl, rfl⟩ := Code.pure_ok.mp h
    exact ⟨_, OnInode.root _⟩
  · simp only [Code.bind_ok, assert_ok] at h
    obtain ⟨_, s₁, ⟨rfl, -⟩, h⟩ := h
    exact searchLoop_heap ht hroot _ ⟨_, OnInode.root _⟩ h

private theorem closed_undone {s₂ : State} {dir : Inode} {u : Unit} (ht : Tidy s)
    (hserve : s.mem.serve s.mem.calls = true) (hd : OnInode (s.setMem s.malloc) s₁ d dir)
    (hclose : dirClose d s₁ = .ok (u, s₂)) : CreateUndone s (s₂.setMem s₂.free) := by
  have ht₀ : Tidy (s.setMem s.malloc) := (Restored.malloc s).tidy ht
  have hr := dirClose_restored ht₀ hd.holding hclose
  obtain ⟨hkernel, hlost, hpgdir, -⟩ := dirClose_heap ht₀ hd.holding hd.heap hclose
  have hheap : s₂.kernelHeap = s.kernelHeap := by
    rw [State.kernelHeap, hpgdir, hr.cur, State.kernelHeap]
    rfl
  refine ⟨hr.inodeBitmap, hr.blockBitmap, hr.disk, hr.inode, hr.fileTable, ?_, ?_,
    congrFun hpgdir _⟩
  · have hk : s₂.mem.kernel = if s.kernelHeap then s.mem.kernel + 1 else s.mem.kernel :=
      hkernel.trans (malloc_kernel hserve)
    change (s₂.mem.free s₂.kernelHeap ⟨s₂.kernelHeap, false⟩).kernel = _
    rw [Memory.free, hheap, hk]
    cases s.kernelHeap <;> simp
  · change (s₂.mem.free s₂.kernelHeap ⟨s₂.kernelHeap, false⟩).lost = _
    rw [Memory.free]
    simp only [Bool.false_and, Bool.false_eq_true, if_false]
    exact hlost

private theorem noRoom_framed {dir dir' : Inode} (hf : Framed s s₁) (hno : dir'.iNo = dir.iNo)
    (hdir : dir'.iSectors = dir.iSectors) (no : UInt32) (i : Nat) :
    (s₁.takeDirBlock no dir'.iNo i).NoRoom dir' ↔ (s.takeDirBlock no dir.iNo i).NoRoom dir := by
  rw [hno]
  obtain ⟨hdisk, hbits⟩ := takeDirBlock_congr hf no dir.iNo i
  exact noRoom_congr hdir hdisk hbits hf.part

/-- Where the search ends if all components are short, with `io_buf` allocated before it. -/
private theorem searchFile_ends {r : Searched} (ht : Tidy s)
    (hroot : (s.dir rootDir).inode < s.nextInode) (hzero : 0 ∉ pathname)
    (hsearch : searchFile pathname (s.setMem s.malloc) = .ok (r, s₁))
    (hpath : isRootPath pathname = false) (hshort : ∀ c ∈ components pathname, c.length ≤ 16) :
    EndsAt (s.setMem s.malloc) s₁ (components pathname) []
      (s.lastDir (s.dirInode rootDir) 0 none (s.mem.calls + 1) (components pathname)) r := by
  have hlast := searchFile_lastDir ((Restored.malloc s).tidy ht) (by exact hroot) hzero hpath hshort
    hsearch
  rw [lastDir_setMem (by rfl)] at hlast
  exact hlast

/-- A search that stops earlier leaves nothing to be stuck with. -/
private theorem searched_of_stuck {r : Searched} (ht : Tidy s)
    (hroot : (s.dir rootDir).inode < s.nextInode) (hzero : 0 ∉ pathname)
    (hsearch : searchFile pathname (s.setMem s.malloc) = .ok (r, s₁))
    (hstuck : s.MkdirStuck pathname) :
    r.inodeNo = minusOne ∧ r.searchedPath = joined (components pathname) := by
  obtain ⟨-, hpath, hshort, dir, i, no, hlast, -⟩ := hstuck
  obtain ⟨done, -, hdone, hiff⟩ := (searchFile_ends ht hroot hzero hsearch hpath hshort).path
  rw [hlast] at hiff
  obtain ⟨hno, rfl⟩ := hiff.mp rfl
  exact ⟨hno, hdone⟩

private theorem firstFree_framed (hf : Framed (s.setMem s.malloc) s₁) :
    firstClear s₁.inodeBitmap 0 s₁.inodeBits = firstClear s.inodeBitmap 0 s.inodeBits ∧
      s₁.nextBlock = s.nextBlock := by
  constructor
  · rw [State.inodeBits, State.inodeBits, hf.inodeBitmap, hf.part]
    rfl
  · rw [State.nextBlock, State.nextBlock, State.blockBits, State.blockBits, hf.blockBitmap, hf.part]
    rfl

private theorem sysMkdir_undone_iff (ht : Tidy s) (hroot : (s.dir rootDir).inode < s.nextInode)
    (hzero : 0 ∉ pathname) (h : sysMkdir pathname s = .ok (false, s')) :
    CreateUndone s s' ↔ ¬ s.MkdirStuck pathname := by
  rw [sysMkdir] at h
  obtain ⟨ioBuf, s₁, hmalloc, hrest⟩ := Code.bind_ok.mp h
  obtain ⟨rfl, rfl⟩ := sysMalloc_ok.mp hmalloc
  split at hrest
  · -- no memory for `io_buf`
    rename_i hfail
    obtain ⟨-, rfl⟩ := Code.pure_ok.mp hrest
    refine iff_of_true ⟨rfl, rfl, rfl, fun _ _ => rfl, rfl, malloc_kernel_of_failed hfail, rfl, rfl⟩
      ?_
    rintro ⟨hserve, -⟩
    rw [hfail] at hserve
    cases hserve
  · rename_i hserved
    have hserve : s.mem.serve s.mem.calls = true := by simpa using hserved
    have ht₀ : Tidy (s.setMem s.malloc) := (Restored.malloc s).tidy ht
    obtain ⟨r, s₁, hsearch, hrest⟩ := Code.bind_ok.mp hrest
    obtain ⟨dir₀, hd⟩ := searchFile_heap ht₀ (by exact hroot) hsearch
    have hunstuck : ∀ {s₂ : State} {u : Unit}, dirClose r.parentDir s₁ = .ok (u, s₂) →
        s' = s₂.setMem s₂.free → ¬ s.MkdirStuck pathname →
          (CreateUndone s s' ↔ ¬ s.MkdirStuck pathname) := by
      intro s₂ u hclose hs' hnot
      rw [hs']
      exact iff_of_true (closed_undone ht hserve hd hclose) hnot
    split at hrest
    · rename_i hother
      simp only [Code.bind_ok, sysFree_ok, Code.pure_ok] at hrest
      obtain ⟨_, s₂, hclose, _, s₃, rfl, -, rfl⟩ := hrest
      exact hunstuck hclose rfl fun hcon =>
        hother (searched_of_stuck ht hroot hzero hsearch hcon).1
    · rename_i hnew
      have hno : r.inodeNo = minusOne := not_not.mp hnew
      have hpath : isRootPath pathname = false := by
        by_contra hroot'
        rw [searchFile, if_pos (by simpa using hroot')] at hsearch
        obtain ⟨rfl, -⟩ := Code.pure_ok.mp hsearch
        cases hno
      obtain ⟨same, s₂, hdepth, hrest⟩ := Code.bind_ok.mp hrest
      obtain rfl := samePathDepth_same _ _ _ _ _ hdepth
      have hend := searchFile_ends ht hroot hzero hsearch hpath (samePathDepth_short hzero hdepth)
      obtain ⟨done, hdone, hsearched, hiff⟩ := hend.path
      have hsame := samePathDepth_joined hzero hdone hsearched hdepth
      split at hrest
      · rename_i htrue
        obtain rfl := hsame.mp htrue
        obtain ⟨dir, hlast⟩ := Option.isSome_iff_exists.mp (hiff.mpr ⟨hno, rfl⟩)
        have hdir := hend.dir dir hlast
        obtain ⟨hbits, hnext⟩ := firstFree_framed hd.holding.framed
        obtain ⟨found, s₂, halloc, htail⟩ := Code.bind_ok.mp hrest
        rcases inodeBitmapAlloc_cases halloc with ⟨hnone, rfl, rfl⟩ | ⟨no, hsome, hclear, rfl, rfl⟩
        · simp only [Code.bind_ok, sysFree_ok, Code.pure_ok] at htail
          obtain ⟨_, s₂, hclose, _, s₃, rfl, -, rfl⟩ := htail
          refine hunstuck hclose rfl ?_
          rintro ⟨-, -, -, dir', i, no, -, hsome, -⟩
          rw [← hbits, hnone] at hsome
          cases hsome
        · rcases mkdirIn_failed hclear htail with
            ⟨hnone, s₂, u, hclose, hs'⟩ | ⟨i, hi, hroom, hkept⟩
          · refine hunstuck hclose hs' ?_
            rintro ⟨-, -, -, dir', i, no', -, -, hi, -⟩
            rw [← hnext, hnone] at hi
            cases hi
          · -- the block of the new directory stays taken
            refine iff_of_false ?_ (not_not_intro ?_)
            · intro hu
              exact hkept (hu.blockBitmap.trans hd.holding.framed.blockBitmap.symm)
            · refine ⟨hserve, hpath, samePathDepth_short hzero hdepth, dir, i, no, hlast,
                hbits.symm.trans hsome, hnext.symm.trans hi, ?_⟩
              exact (noRoom_framed hd.holding.framed hdir.iNo hdir.iSectors no i).mp hroom
      · rename_i hother
        simp only [Code.bind_ok, sysFree_ok, Code.pure_ok] at hrest
        obtain ⟨_, s₂, hclose, _, s₃, rfl, -, rfl⟩ := hrest
        refine hunstuck hclose rfl ?_
        rintro ⟨-, -, -, dir, i, no, hlast, -⟩
        rw [hlast] at hiff
        exact hother (hsame.mpr (hiff.mp rfl).2)

end Mkdir

/-- When `file_create` and `sys_mkdir` have undone their steps by the time they return -1. -/
theorem creation_failure_undone_iff (s : State) :
    (∀ d name flag s', (s.dir d).inode < s.nextInode →
      fileCreate d name flag s = .ok (none, s') → (CreateUndone s s' ↔ s.CreateFailsCleanly d)) ∧
    ∀ pathname s', Tidy s → (s.dir rootDir).inode < s.nextInode → 0 ∉ pathname →
      sysMkdir pathname s = .ok (false, s') → (CreateUndone s s' ↔ ¬ s.MkdirStuck pathname) :=
  ⟨fun _ _ _ _ hd h => fileCreate_undone_iff hd h,
    fun _ _ ht hroot hzero h => sysMkdir_undone_iff ht hroot hzero h⟩

/-- No inode is free, and the build is without assertions. -/
def State.noInode (s : State) : State :=
  { s with ndebug := true, inodeBitmap := fun _ => true }

/-- Without an inode `sys_mkdir` of a kernel thread undoes its steps, and `file_create` does not. -/
theorem creation_failure_without_inode : ∃ s ∈ smallSystem,
    (∃ s', sysMkdir (path "/a") s.noInode = .ok (false, s') ∧ CreateUndone s.noInode s') ∧
    ∃ s', fileCreate rootDir (path "a") oCreat s.noInode = .ok (none, s') ∧
      ¬ CreateUndone s.noInode s' := by
  have hplay : ∃ s ∈ smallSystem, Tidy s.noInode ∧
      (s.noInode.dir rootDir).inode < s.noInode.nextInode ∧
      s.noInode.mem.serve s.noInode.mem.calls = true ∧ s.noInode.kernelHeap = true ∧
      firstClear s.noInode.inodeBitmap 0 s.noInode.inodeBits = none ∧
      (∃ out ∈ (sysMkdir (path "/a") s.noInode).toOption, out.1 = false) ∧
      ∃ out ∈ (fileCreate rootDir (path "a") oCreat s.noInode).toOption, out.1 = none := by
    decide +kernel
  obtain ⟨s, hs, htidy, hroot, hserve, hkernel, hfull, ⟨⟨r, s₁⟩, hmkdir, rfl⟩, ⟨⟨r, s₂⟩, hcreate,
    rfl⟩⟩ := hplay
  obtain ⟨hfile, hdir⟩ := creation_failure_undone_iff s.noInode
  refine ⟨s, hs, ⟨s₁, Code.ok_of_toOption hmkdir, ?_⟩, s₂, Code.ok_of_toOption hcreate, ?_⟩
  · refine (hdir _ _ htidy hroot (by decide) (Code.ok_of_toOption hmkdir)).mpr ?_
    rintro ⟨-, -, -, dir, i, no, -, hsome, -⟩
    rw [hfull] at hsome
    cases hsome
  · rw [hfile _ _ _ _ hroot (Code.ok_of_toOption hcreate)]
    rintro (hfail | ⟨-, hprocess⟩ | ⟨hsome, -⟩)
    · rw [hserve] at hfail
      cases hfail
    · rw [hkernel] at hprocess
      cases hprocess
    · exact hsome hfull

/-- Without an inode `file_create` of a kernel thread returns -1 and keeps `io_buf`. -/
theorem file_create_keeps_buffer : ∃ s ∈ smallSystem, s.noInode.ndebug = true ∧
    ∃ s', fileCreate rootDir (path "a") oCreat s.noInode = .ok (none, s') ∧
      s'.mem.kernel = s.noInode.mem.kernel + 1 ∧ ¬ CreateUndone s.noInode s' := by
  have hplay : ∃ s ∈ smallSystem,
      ∃ out ∈ (fileCreate rootDir (path "a") oCreat s.noInode).toOption, out.1 = none ∧
        out.2.mem.kernel = s.noInode.mem.kernel + 1 := by
    decide +kernel
  obtain ⟨s, hs, ⟨⟨r, s'⟩, hcreate, rfl, hmore⟩⟩ := hplay
  refine ⟨s, hs, rfl, s', Code.ok_of_toOption hcreate, hmore, ?_⟩
  intro hu
  have hheap : s'.mem.kernel = s.noInode.mem.kernel := hu.kernel
  have hkernel : s'.mem.kernel = s.noInode.mem.kernel + 1 := hmore
  omega

end Aitos.Fs
