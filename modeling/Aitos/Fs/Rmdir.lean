import Aitos.Fs.Handle
import Aitos.Fs.Deletion
import Aitos.Fs.Release

/-!
# Removing a directory

`sys_rmdir` deletes the entry in whatever directory the last component was looked up in, does not
look at the result of the deletion, and releases the inode.  The tree loses just that entry unless
the last component is `.`, the entry is the last one of a later block of its directory, or the inode
of that directory is written over the one of another.
-/

namespace Aitos.Fs

open Framework

/-- Directory `n` of the tree has the entry `e`, which is not `.` or `..`, under a name. -/
def State.Lists (s : State) (n : UInt32) (name : List UInt8) (e : DirEntry) : Prop :=
  s.IsDir n ∧ Proper name ∧ s.Entry n name e

/-- A directory tree on blocks of its own: each directory is well formed, what an entry names is in
use, and one entry apart from the dots names it. -/
structure SoundTree (s : State) : Prop extends DirectoryTree s where
  tidy : Tidy s
  blocks : BlockOwnership s
  dir : ∀ {n}, s.IsDir n → WellFormedDir s (s.inodeOf n)
  used : ∀ {n name e}, s.IsDir n → name ≠ [] → s.Entry n name e → s.InUse e.iNo
  once : ∀ {n n' name name' e e'}, s.Lists n name e → s.Lists n' name' e' → e.iNo = e'.iNo →
    n = n' ∧ name = name'
  notRoot : ∀ {n name e}, s.Lists n name e → e.iNo ≠ 0

/-- One entry has disappeared, the one that named the inode that was freed, and what the others name
is in use. -/
def DirRemoved (s s' : State) : Prop :=
  ∃ n name e, s.Lists n name e ∧ s.inodeBitmap e.iNo.toNat = true ∧
    s'.inodeBitmap = Function.update s.inodeBitmap e.iNo.toNat false ∧
    (∀ n' name' e', s'.Lists n' name' e' ↔ s.Lists n' name' e' ∧ ¬ (n' = n ∧ name' = name)) ∧
    ∀ n' name' e', s'.IsDir n' → name' ≠ [] → s'.Entry n' name' e' →
      s'.inodeBitmap e'.iNo.toNat = true

/-- After inode `m` was freed, directory `k` has the entries that directory `σ k` had, without those
that are gone. -/
structure Rewired (s s' : State) (m : UInt32) (σ : UInt32 → UInt32)
    (gone : UInt32 → List UInt8 → Prop) : Prop where
  entry : ∀ {k name e}, s.IsDir k → k ≠ m → name ≠ [] →
    (s'.Entry k name e ↔ s.Entry (σ k) name e ∧ ¬ gone (σ k) name)
  bitmap : s'.inodeBitmap = Function.update s.inodeBitmap m.toNat false

section Tree

variable {s s' : State} {n m : UInt32} {c : List UInt8} {e : DirEntry} {σ : UInt32 → UInt32}
  {gone : UInt32 → List UInt8 → Prop}

private theorem lists_of_slot {x : Nat × Nat} (hn : s.IsDir n) (hx : x ∈ (s.inodeOf n).slots s.disk)
    (hproper : Proper ((s.inodeOf n).nameIn s.disk x)) :
    s.Lists n ((s.inodeOf n).nameIn s.disk x) ((s.inodeOf n).entryIn s.disk x) :=
  ⟨hn, hproper, entry_iff_slot.mpr ⟨x, hx, rfl, rfl⟩⟩

private theorem SoundTree.entry_unique (hs : SoundTree s) (hlist : s.Lists n c e) {e' : DirEntry}
    (h : s.Entry n c e') : e' = e :=
  hs.unique hlist.1 hlist.2.1.1 h hlist.2.2

/-- Only the entry that is removed names the directory, which has no entries of its own. -/
private theorem SoundTree.names_ne (hs : SoundTree s) (hlist : s.Lists n c e)
    (hempty : ∀ name e', ¬ s.Lists e.iNo name e') {k : UInt32} {name : List UInt8} {e' : DirEntry}
    (hk : s.IsDir k) (hne : k ≠ e.iNo) (hname : name ≠ []) (hentry : s.Entry k name e')
    (hother : ¬ (k = n ∧ name = c)) : e'.iNo ≠ e.iNo := by
  by_cases hdot : name = dot
  · rw [hdot] at hentry
    rw [hs.dot_entry hk hentry]
    exact hne
  by_cases hdotdot : name = dotdot
  · rw [hdotdot] at hentry
    rw [hs.dotdot_entry hk hentry]
    obtain ⟨cs, hcs⟩ := hs.canonical hk
    cases hcs with
    | root =>
        rw [← hs.dotdot_entry .root hs.dotdot]
        exact (hs.notRoot hlist).symm
    | entry hcs' hx hproper hchild hzero =>
        have hparent := lists_of_slot hcs'.isDir hx hproper
        rw [hs.parent hcs'.isDir hx hproper hchild hzero]
        intro heq
        rw [heq] at hparent
        exact hempty _ _ hparent
  · intro heq
    have hthis : s.Lists k name e' := ⟨hk, ⟨hname, hdot, hdotdot⟩, hentry⟩
    exact hother (hs.once hthis hlist heq)

/-- A directory is still reached, or one on the way to it, which has entries of its own, has those
of another. -/
private theorem Rewired.reaches (h : Rewired s s' e.iNo σ gone) (hs : SoundTree s)
    (hlist : s.Lists n c e) (hempty : ∀ name e', ¬ s.Lists e.iNo name e')
    (hgone : ∀ {k name}, gone k name → k = n ∧ name = c) {cs : List (List UInt8)} {k : UInt32}
    (hk : Canonical s cs k) : k ≠ e.iNo →
    s'.IsDir k ∨ ∃ b, σ b ≠ b ∧ (∃ name e', s.Lists b name e') ∧ b ≠ e.iNo ∧ s'.IsDir b := by
  induction hk with
  | root => exact fun _ => .inl .root
  | @entry cs j k x hj hx hproper hchild hzero ih =>
      intro hne
      have hlists := lists_of_slot hj.isDir hx hproper
      have hjdir := hlists.1
      have hentry := hlists.2.2
      have hjne : j ≠ e.iNo := by
        intro heq
        rw [heq] at hlists
        exact hempty _ _ hlists
      rcases ih hjne with hreach | hbad
      · by_cases hσ : σ j = j
        · left
          refine .entry hreach hproper.1 ((h.entry hjdir hjne hproper.1).mpr ⟨?_, ?_⟩) hchild
          · rw [hσ]
            exact hentry
          · rw [hσ]
            intro hg
            obtain ⟨hjn, hc⟩ := hgone hg
            have hsame := hs.entry_unique hlist (by rw [← hjn, ← hc]; exact hentry)
            have hkno := iNo_of_child hchild
            rw [hsame] at hkno
            exact hne hkno.symm
        · exact .inr ⟨j, hσ, ⟨_, _, hlists⟩, hjne, hreach⟩
      · exact .inr hbad

theorem Rewired.isDir (h : Rewired s s' e.iNo σ gone) (hs : SoundTree s) (hlist : s.Lists n c e)
    (hempty : ∀ name e', ¬ s.Lists e.iNo name e')
    (hσ : ∀ {k}, s.IsDir k → k ≠ e.iNo → s.IsDir (σ k) ∧ σ k ≠ e.iNo) (hgone : gone n c)
    {k : UInt32} (hk : s'.IsDir k) : s.IsDir k ∧ k ≠ e.iNo := by
  induction hk with
  | root => exact ⟨.root, (hs.notRoot hlist).symm⟩
  | @entry j k name e' _ hname hentry hchild ih =>
      obtain ⟨hj, hjne⟩ := ih
      obtain ⟨hσj, hσne⟩ := hσ hj hjne
      obtain ⟨hold, hkept⟩ := (h.entry hj hjne hname).mp hentry
      have hno := iNo_of_child hchild
      refine ⟨.entry hσj hname hold hchild, ?_⟩
      rw [← hno]
      refine hs.names_ne hlist hempty hσj hσne hname hold ?_
      rintro ⟨hjn, rfl⟩
      rw [hjn] at hkept
      exact hkept hgone

private theorem Rewired.removed (h : Rewired s s' e.iNo σ gone) (hs : SoundTree s)
    (hlist : s.Lists n c e)
    (hempty : ∀ name e', ¬ s.Lists e.iNo name e') (hgone : ∀ k name, gone k name ↔ k = n ∧ name = c)
    (hσ : ∀ {k}, s.IsDir k → k ≠ e.iNo → σ k = k ∨ σ k = n ∧ (∀ name e', ¬ s.Lists k name e') ∧
      ∀ name e', s.Lists n name e' → name = c) : DirRemoved s s' := by
  have hn := hlist.1
  have hnne : n ≠ e.iNo := by
    rintro heq
    exact hempty c e (heq ▸ hlist)
  have hσdir : ∀ {k}, s.IsDir k → k ≠ e.iNo → s.IsDir (σ k) ∧ σ k ≠ e.iNo := by
    intro k hk hne
    rcases hσ hk hne with hid | ⟨hto, -⟩
    · rw [hid]
      exact ⟨hk, hne⟩
    · rw [hto]
      exact ⟨hn, hnne⟩
  have hused := hs.used hn hlist.2.1.1 hlist.2.2
  have hback : ∀ {k}, s'.IsDir k → s.IsDir k ∧ k ≠ e.iNo := fun hk =>
    h.isDir hs hlist hempty hσdir ((hgone n c).mpr ⟨rfl, rfl⟩) hk
  refine ⟨n, c, e, hlist, hused.2, h.bitmap, ?_, ?_⟩
  · intro k name e'
    constructor
    · rintro ⟨hk, hproper, hentry⟩
      obtain ⟨hkdir, hkne⟩ := hback hk
      obtain ⟨hold, hkept⟩ := (h.entry hkdir hkne hproper.1).mp hentry
      rw [hgone] at hkept
      rcases hσ hkdir hkne with hid | ⟨hto, -, hnone⟩
      · rw [hid] at hold hkept
        exact ⟨⟨hkdir, hproper, hold⟩, hkept⟩
      · rw [hto] at hold hkept
        exact absurd ⟨rfl, hnone name e' ⟨hn, hproper, hold⟩⟩ hkept
    · rintro ⟨hlists, hother⟩
      have hkne : k ≠ e.iNo := by
        intro heq
        rw [heq] at hlists
        exact hempty _ _ hlists
      have hid : σ k = k := by
        rcases hσ hlists.1 hkne with hid | ⟨-, hnone, -⟩
        · exact hid
        · exact absurd hlists (hnone name e')
      refine ⟨?_, hlists.2.1, (h.entry hlists.1 hkne hlists.2.1.1).mpr ⟨?_, ?_⟩⟩
      · obtain ⟨cs, hcs⟩ := hs.canonical hlists.1
        rcases h.reaches hs hlist hempty (fun hg => (hgone _ _).mp hg) hcs hkne with
          hreach | ⟨b, hσb, ⟨name', e'', hb⟩, hbne, -⟩
        · exact hreach
        · rcases hσ hb.1 hbne with hid' | ⟨-, hnone, -⟩
          · exact absurd hid' hσb
          · exact absurd hb (hnone name' e'')
      · rw [hid]
        exact hlists.2.2
      · rw [hid, hgone]
        exact hother
  · intro k name e' hk hname hentry
    obtain ⟨hkdir, hkne⟩ := hback hk
    obtain ⟨hσk, hσne⟩ := hσdir hkdir hkne
    obtain ⟨hold, hkept⟩ := (h.entry hkdir hkne hname).mp hentry
    rw [hgone] at hkept
    have hne := hs.names_ne hlist hempty hσk hσne hname hold hkept
    have hbit := (hs.used hσk hname hold).2
    rw [h.bitmap, Function.update_of_ne]
    · exact hbit
    · exact fun heq => hne (UInt32.toNat_inj.mp heq)

/-- The inode that was freed is the one that the missing entry named. -/
theorem DirRemoved.unique (h : Rewired s s' e.iNo σ gone) (hs : SoundTree s)
    (hlist : s.Lists n c e) (hr : DirRemoved s s') :
    (∀ n' name' e', s'.Lists n' name' e' ↔ s.Lists n' name' e' ∧ ¬ (n' = n ∧ name' = c)) ∧
      ∀ n' name' e', s'.IsDir n' → name' ≠ [] → s'.Entry n' name' e' → e'.iNo ≠ e.iNo := by
  obtain ⟨n₁, name₁, e₁, hlist₁, hbit, hmap, hiff, hused⟩ := hr
  have hsame : e₁.iNo = e.iNo := by
    by_contra hne
    have hclear := congrFun (hmap.symm.trans h.bitmap) e₁.iNo.toNat
    rw [Function.update_self, Function.update_of_ne, hbit] at hclear
    · cases hclear
    · exact fun heq => hne (UInt32.toNat_inj.mp heq)
  obtain ⟨rfl, rfl⟩ := hs.once hlist₁ hlist hsame
  refine ⟨hiff, ?_⟩
  intro n' name' e' hn' hname' hentry heq
  have hset := hused n' name' e' hn' hname' hentry
  rw [heq, h.bitmap, Function.update_self] at hset
  cases hset

private theorem Rewired.not_removed (h : Rewired s s' e.iNo σ gone) (hs : SoundTree s)
    (hlist : s.Lists n c e) (hempty : ∀ name e', ¬ s.Lists e.iNo name e')
    (hgone : ∀ k name, ¬ gone k name) (hσ : ∀ k, σ k = k ∨ σ k = n) : ¬ DirRemoved s s' := by
  intro hr
  obtain ⟨-, hnames⟩ := hr.unique h hs hlist
  have hcne := hlist.2.1.1
  have hnne : n ≠ e.iNo := by
    rintro heq
    exact hempty c e (heq ▸ hlist)
  have hσn : σ n = n := (hσ n).elim id id
  obtain ⟨cs, hcs⟩ := hs.canonical hlist.1
  rcases h.reaches hs hlist hempty (fun hg => absurd hg (hgone _ _)) hcs hnne with
    hreach | ⟨b, hσb, ⟨_, _, hb⟩, hbne, hreach⟩
  · refine hnames n c e hreach hcne ((h.entry hlist.1 hnne hcne).mpr ⟨?_, hgone _ _⟩) rfl
    rw [hσn]
    exact hlist.2.2
  · refine hnames b c e hreach hcne ((h.entry hb.1 hbne hcne).mpr ⟨?_, hgone _ _⟩) rfl
    rw [(hσ b).resolve_left hσb]
    exact hlist.2.2

private theorem Rewired.not_removed_of_overwritten (h : Rewired s s' e.iNo σ gone)
    (hs : SoundTree s) (hlist : s.Lists n c e) (hempty : ∀ name e', ¬ s.Lists e.iNo name e')
    (hgone : ∀ k name, gone k name ↔ k = n ∧ name = c) {b : UInt32} (hb : s.IsDir b)
    (hbne : b ≠ e.iNo) (hbn : b ≠ n) (hσb : σ b = n) (hσ : ∀ k, k ≠ b → σ k = k)
    (hentries : (∃ name e', s.Lists b name e') ∨ ∃ name e', s.Lists n name e' ∧ name ≠ c) :
    ¬ DirRemoved s s' := by
  intro hr
  obtain ⟨hiff, -⟩ := hr.unique h hs hlist
  have hreach : s'.IsDir b := by
    obtain ⟨cs, hcs⟩ := hs.canonical hb
    rcases h.reaches hs hlist hempty (fun hg => (hgone _ _).mp hg) hcs hbne with
      hreach | ⟨b', hσb', -, -, hreach⟩
    · exact hreach
    · have heq : b' = b := by
        by_contra hne
        exact hσb' (hσ b' hne)
      rw [← heq]
      exact hreach
  rcases hentries with ⟨name, e', hlists⟩ | ⟨name, e', hlists, hname⟩
  · have hkept := (hiff b name e').mpr ⟨hlists, fun heq => hbn heq.1⟩
    have hold := ((h.entry hb hbne hlists.2.1.1).mp hkept.2.2).1
    rw [hσb] at hold
    exact hbn (hs.once hlists ⟨hlist.1, hlists.2.1, hold⟩ rfl).1
  · have hnew : s'.Lists b name e' := by
      refine ⟨hreach, hlists.2.1, (h.entry hb hbne hlists.2.1.1).mpr ⟨?_, ?_⟩⟩
      · rw [hσb]
        exact hlists.2.2
      · rw [hσb, hgone]
        exact fun heq => hname heq.2
    have hold := ((hiff b name e').mp hnew).1
    exact hbn (hs.once hold hlists rfl).1

end Tree

section Entries

variable {s : State} {ino ino' : Inode} {disk' : Bytes} {name : List UInt8} {e : DirEntry}
  {x : Nat × Nat}

private theorem hasEntry_iff_slot {disk : Bytes} : ino.HasEntry disk name e ↔
    ∃ x ∈ ino.slots disk, ino.nameIn disk x = name ∧ ino.entryIn disk x = e := by
  constructor
  · rintro ⟨i, hi, hblock, k, hk, hname, he⟩
    exact ⟨(i, k), mem_slots.mpr ⟨hi, hblock, hk⟩, hname, he⟩
  · rintro ⟨⟨i, k⟩, hx, hname, he⟩
    obtain ⟨hi, hblock, hk⟩ := mem_slots.mp hx
    exact ⟨i, hi, hblock, k, hk, hname, he⟩

private theorem hasEntry_congr {disk : Bytes} (hsec : ∀ i ≤ 12, ino'.iSectors i = ino.iSectors i)
    (hdata : ∀ i ≤ 140, ino.refs disk i ≠ 0 →
      sectorOf disk' (ino.refs disk i) = sectorOf disk (ino.refs disk i)) :
    ino'.HasEntry disk' name e ↔ ino.HasEntry disk name e := by
  have hblocks : ∀ i, ino'.allBlocks disk' i = ino.allBlocks disk i := by
    apply allBlocks_congr hsec
    intro ht
    have htable := hdata 140 le_rfl
    rw [refs_table] at htable
    exact htable ht
  have hblock : ∀ i < 140, ino.allBlocks disk i ≠ 0 →
      sectorOf disk' (ino'.allBlocks disk' i) = sectorOf disk (ino.allBlocks disk i) := by
    intro i hi hne
    have hsame := hdata i (by omega)
    rw [refs_block _ _ hi] at hsame
    rw [hblocks]
    exact hsame hne
  rw [Inode.HasEntry, Inode.HasEntry]
  constructor
  · rintro ⟨i, hi, hne, k, hk, hname, he⟩
    have hne' : ino.allBlocks disk i ≠ 0 := by
      rw [← hblocks]
      exact hne
    rw [hblock i hi hne'] at hname he
    exact ⟨i, hi, hne', k, hk, hname, he⟩
  · rintro ⟨i, hi, hne, k, hk, hname, he⟩
    rw [← hblock i hi hne] at hname he
    refine ⟨i, hi, ?_, k, hk, hname, he⟩
    rw [hblocks]
    exact hne

private theorem hasEntry_cleared (hs : WellFormedDir s ino) (hx : x ∈ ino.slots s.disk)
    (hsec : ∀ i ≤ 12, ino'.iSectors i = ino.iSectors i)
    (hself : ∀ a < 512, sectorOf disk' (ino.allBlocks s.disk x.1) a =
      (sectorOf s.disk (ino.allBlocks s.disk x.1)).fill (24 * x.2) 24 0 a)
    (hother : ∀ lba, s.Allocated lba → lba ≠ ino.allBlocks s.disk x.1 →
      sectorOf disk' lba = sectorOf s.disk lba) (hne : ino.nameIn s.disk x ≠ [])
    (hname : name ≠ []) : ino'.HasEntry disk' name e ↔
      ino.HasEntry s.disk name e ∧ name ≠ ino.nameIn s.disk x := by
  obtain ⟨hblocks, hzero, hsame⟩ := rewriteSlot hs.toOwnsBlocks hx hsec hself hother
  have hslots : ino'.slots disk' = ino.slots s.disk := by
    rw [Inode.slots, Inode.slots, funext hblocks]
  have hkeep : ∀ y ∈ ino.slots s.disk, y ≠ x → ino'.nameIn disk' y = ino.nameIn s.disk y ∧
      ino'.entryIn disk' y = ino.entryIn s.disk y := fun y hy hyx =>
    ⟨(hsame y hy hyx).nameIn hy (hs.short y hy), (hsame y hy hyx).entryIn⟩
  have hgone : ino'.nameIn disk' x = [] := by
    apply entryName_zero (mem_slots.mp hx).2.2
    rw [hblocks]
    have hbyte := hzero 0 (by decide)
    rwa [Nat.add_zero] at hbyte
  rw [hasEntry_iff_slot, hasEntry_iff_slot, hslots]
  constructor
  · rintro ⟨y, hy, hyname, hye⟩
    have hyx : y ≠ x := by
      rintro rfl
      exact hname (hyname.symm.trans hgone)
    obtain ⟨h₁, h₂⟩ := hkeep y hy hyx
    rw [h₁] at hyname
    rw [h₂] at hye
    refine ⟨⟨y, hy, hyname, hye⟩, ?_⟩
    intro heq
    have hyne : ino.nameIn s.disk y ≠ [] := by
      rw [hyname]
      exact hname
    exact hyx (hs.unique y hy x hx hyne (hyname.trans heq))
  · rintro ⟨⟨y, hy, hyname, hye⟩, hdiff⟩
    have hyx : y ≠ x := by
      rintro rfl
      exact hdiff hyname.symm
    obtain ⟨h₁, h₂⟩ := hkeep y hy hyx
    exact ⟨y, hy, h₁.trans hyname, h₂.trans hye⟩

theorem WellFormedDir.empty (hs : WellFormedDir s ino) (hsize : ino.iSize = 48)
    (hx : x ∈ ino.slots s.disk) : ¬ ino.HoldsIn s.disk x := by
  intro hholds
  have hblock : ino.allBlocks s.disk 0 ≠ 0 := by
    rw [allBlocks_direct _ _ (by decide)]
    exact hs.firstBlock
  have hzero : (0, 0) ∈ ino.slots s.disk := mem_slots.mpr ⟨by decide, hblock, by decide⟩
  have hone : (0, 1) ∈ ino.slots s.disk := mem_slots.mpr ⟨by decide, hblock, by decide⟩
  have hlive : ∀ y ∈ ino.slots s.disk, ino.nameIn s.disk y ≠ [] → y ∈ ino.live s.disk :=
    fun y hy hne => List.mem_filter.mpr ⟨hy, decide_eq_true (mt (hs.free y hy).mpr hne)⟩
  have hsub : [(0, 0), (0, 1), x] ⊆ ino.live s.disk := by
    intro y hy
    simp only [List.mem_cons, List.not_mem_nil, or_false] at hy
    rcases hy with rfl | rfl | rfl
    · refine hlive _ hzero ?_
      rw [hs.dot]
      decide
    · refine hlive _ hone ?_
      rw [hs.dotdot]
      decide
    · exact List.mem_filter.mpr ⟨hx, decide_eq_true hholds.1⟩
  have hnodup : [(0, 0), (0, 1), x].Nodup := by
    have h₀ : (0, 0) ≠ x := by
      rintro rfl
      exact hholds.2.1 hs.dot
    have h₁ : (0, 1) ≠ x := by
      rintro rfl
      exact hholds.2.2 hs.dotdot
    simp [h₀, h₁]
  have hthree := (hnodup.subperm hsub).length_le
  have hbytes := hs.size
  rw [hsize] at hbytes
  have h48 : (48 : UInt32).toNat = 48 := rfl
  simp only [List.length_cons, List.length_nil] at hthree
  omega

end Entries

/-- The state with the disk and the bitmaps of another one, and another size in one inode. -/
def State.patched (s t : State) (q : Ptr) (size : UInt32) : State := (s.withMaps t).setSize q size

/-- What `delete_dir_entry` has done to the state: it has written the slot `dest` of the inode table
from inode `q`, and has changed the block `blk`. -/
structure EntryDeleted (s s' : State) (q : Ptr) (size : UInt32) (dest : Option Nat)
    (blk : Option UInt32) : Prop where
  rest : s' = s.patched s' q size
  inodeBitmap : s'.inodeBitmap = s.inodeBitmap
  bits : ∀ {lba}, s.Allocated lba → blk ≠ some lba → s'.blockBitmap (s.blockIdx lba) = true
  slots : ∀ k < 4096, ∀ i ≤ 12, (Inode.ofBytes (s'.slot k)).iSectors i =
    if dest = some k then (s.inode q).iSectors i else (Inode.ofBytes (s.slot k)).iSectors i
  data : ∀ {lba : UInt32}, s.part.sb.dataStartLba.toNat ≤ lba.toNat → blk ≠ some lba →
    sectorOf s'.disk lba = sectorOf s.disk lba

section Patched

variable {s s₁ s₂ s' t : State} {q : Ptr} {size : UInt32} {d : DirPtr} {p : Ptr}

private theorem patched_inode (s t : State) (q : Ptr) (size : UInt32) (p : Ptr) :
    (s.patched t q size).inode p =
      if p = q then { s.inode q with iSize := size } else s.inode p := by
  change Function.update s.inode q _ p = _
  by_cases hp : p = q
  · rw [hp, Function.update_self, if_pos rfl]
    rfl
  · rw [Function.update_of_ne hp, if_neg hp]

private theorem patched_iSectors (s t : State) (q : Ptr) (size : UInt32) (p : Ptr) :
    ((s.patched t q size).inode p).iSectors = (s.inode p).iSectors := by
  rw [patched_inode]
  split
  · rename_i hp
    rw [hp]
  · rfl

private theorem patched_iNo (s t : State) (q : Ptr) (size : UInt32) (p : Ptr) :
    ((s.patched t q size).inode p).iNo = (s.inode p).iNo := by
  rw [patched_inode]
  split
  · rename_i hp
    rw [hp]
  · rfl

private theorem patched_findInode (s t : State) (q : Ptr) (size : UInt32) (k : UInt32) :
    (s.patched t q size).findInode k = s.findInode k := by
  change List.find? _ s.openInode = List.find? _ s.openInode
  simp only [patched_iNo]

private theorem Tidy.patched (h : Tidy s) (t : State) (q : Ptr) (size : UInt32) :
    Tidy (s.patched t q size) := by
  refine ⟨h.nodup, ?_, h.rootDir⟩
  intro p hp
  obtain ⟨hlt, hpos⟩ := h.listed p hp
  refine ⟨hlt, ?_⟩
  rw [patched_inode]
  split
  · rename_i hpq
    rw [← hpq]
    exact hpos
  · exact hpos

private theorem Framed.patched (h : Framed s s₁) (t : State) (q : Ptr) (size : UInt32) :
    Framed (s.patched t q size) (s₁.patched t q size) :=
  ⟨h.ndebug, h.part, rfl, rfl, rfl, h.fileTable, h.cur, h.procs, h.fdTable, h.fdOrigin,
    h.cwdInodeNr, h.serve, h.nextInode, h.nextDir, h.dir⟩

private theorem Restored.patched (h : Restored s s₁) (t : State) (q : Ptr) (size : UInt32) :
    Restored (s.patched t q size) (s₁.patched t q size) := by
  refine ⟨h.toFramed.patched t q size, h.openInode, ?_⟩
  intro p hp
  rw [patched_inode, patched_inode]
  split
  · rename_i hpq
    rw [← hpq, h.inode p hp]
  · exact h.inode p hp

private theorem Referenced.patched (h : Referenced s s₁ p) (t : State) (q : Ptr) (size : UInt32) :
    Referenced (s.patched t q size) (s₁.patched t q size) p := by
  refine ⟨h.toFramed.patched t q size, ?_, h.held, ?_⟩
  · intro p' hp' hne
    rw [patched_inode, patched_inode]
    split
    · rename_i hpq
      rw [← hpq, h.others p' hp' hne]
    · exact h.others p' hp' hne
  · rcases h.here with ⟨hmem, hopen, hp⟩ | ⟨hnew, hopen, hone⟩
    · refine .inl ⟨hmem, hopen, ?_⟩
      rw [patched_inode, patched_inode]
      split
      · rename_i hpq
        rw [← hpq, hp]
      · exact hp
    · refine .inr ⟨hnew, hopen, ?_⟩
      rw [patched_inode]
      split
      · rename_i hpq
        rw [← hpq]
        exact hone
      · exact hone

private theorem Holding.patched (h : Holding s s₁ d) (t : State) (q : Ptr) (size : UInt32) :
    Holding (s.patched t q size) (s₁.patched t q size) d := by
  rcases h with ⟨hd, hr⟩ | ⟨hnew, hlt, href⟩
  · exact .inl ⟨hd, hr.patched t q size⟩
  · exact .inr ⟨hnew, hlt, href.patched t q size⟩

end Patched

section Deleted

variable {s s₁ s' : State} {d : DirPtr} {q : Ptr} {x : Nat × Nat} {lba : UInt32}

private theorem entryDeleted_none (s : State) (q : Ptr) :
    EntryDeleted s s q (s.inode q).iSize none none := by
  have hsame : s.patched s q (s.inode q).iSize = s := by
    change { s with inode := Function.update s.inode q { s.inode q with iSize := _ } } = s
    rw [Function.update_eq_self]
  exact ⟨hsame.symm, rfl, fun h _ => h.bit, fun _ _ _ _ => rfl, fun _ _ => rfl⟩

private theorem entryDeleted_shrink (hs₁ : s₁ = s.withMaps s₁)
    (hmap : s₁.inodeBitmap = s.inodeBitmap)
    (hbits : ∀ {lba'}, s.Allocated lba' → lba' ≠ lba → s₁.blockBitmap (s.blockIdx lba') = true)
    (hslots : ∀ k < 4096, ∀ a < 76, s₁.slot k a = s.slot k a)
    (hdata : ∀ {lba' : UInt32}, s.part.sb.dataStartLba.toNat ≤ lba'.toNat → lba' ≠ lba →
      sectorOf s₁.disk lba' = sectorOf s.disk lba') :
    EntryDeleted s (s₁.shrink q) q ((s.inode q).iSize - 24)
      (some ((s.inode q).iNo.toNat % 256)) (some lba) := by
  have hino : s₁.inode = s.inode := by
    rw [hs₁]
    rfl
  have hpart : s₁.part = s.part := by
    rw [hs₁]
    rfl
  refine ⟨?_, hmap, fun h hne => hbits h fun heq => hne (by rw [heq]), ?_, ?_⟩
  · rw [State.shrink, hino, hs₁]
    rfl
  · intro k hk i hi
    obtain ⟨t, ht⟩ : ∃ t, t = s₁.setSize q ((s₁.inode q).iSize - 24) := ⟨_, rfl⟩
    have hslot : t.slot k = s₁.slot k := by
      rw [ht]
      rfl
    rw [State.shrink, ← ht, hino]
    by_cases hdest : k = (s.inode q).iNo.toNat % 256
    · rw [if_pos (by rw [hdest]), hdest, ofBytes_congr fun a ha => setSlot_slot_self t _ _ ha]
      exact (ofBytes_pureImage _).2.2 i (by omega)
    · rw [if_neg (fun heq => hdest (Option.some.inj heq).symm),
        ofBytes_congr fun a ha => setSlot_slot_of_ne t hdest _ ha, hslot,
        ofBytes_congr (hslots k hk)]
  · intro lba' hlba' hne
    rw [← hdata hlba' fun heq => hne (by rw [heq])]
    exact sameData_shrink s₁ q lba' (by rw [hpart]; exact hlba')

private theorem slot_writeSectors (h : s.part.sb.dataStartLba.toNat ≤ lba.toNat) (buf : Bytes)
    {k a : Nat}
    (hk : k < 4096) (ha : a < 76) : (s.writeSectors lba buf 1).slot k a = s.slot k a := by
  have hdata := s.part.layout.data
  apply Bytes.blit_of_outside
  change slotAddr s.part k + a < _ ∨ _
  rw [slotAddr]
  omega

private theorem slot_giveBack (h : s.blockIdx lba < s.blockBits) {k a : Nat} :
    (s.giveBack lba).slot k a = s.slot k a := by
  have hlt := h
  have h₁ := s.part.layout.inodeBitmap
  have h₂ := s.part.layout.inodeTable
  rw [State.blockBits] at hlt
  have hin : s.blockIdx lba < (s.setBlockBit (s.blockIdx lba) false).blockBits := h
  refine syncBlockBit_disk_of_outside hin (.inr ?_)
  change 512 * (s.part.sb.blockBitmapLba.toNat + s.blockIdx lba / 4096) + 512 ≤
    slotAddr s.part k + a
  rw [slotAddr]
  omega

private theorem State.Allocated.blockIdx_ne {lba' : UInt32} (h : s.Allocated lba)
    (h' : s.Allocated lba') (hne : lba' ≠ lba) : s.blockIdx lba' ≠ s.blockIdx lba := by
  intro heq
  have h₁ := toNat_blockIdx h.data
  have h₂ := toNat_blockIdx h'.data
  have hle₁ := h.data
  have hle₂ := h'.data
  apply hne
  apply UInt32.toNat_inj.mp
  omega

private theorem entryDeleted_cleared (hlba : s.Allocated lba) (buf : Bytes) :
    EntryDeleted s ((s.writeSectors lba buf 1).shrink q) q ((s.inode q).iSize - 24)
      (some ((s.inode q).iNo.toNat % 256)) (some lba) := by
  refine entryDeleted_shrink rfl rfl ?_ ?_ ?_
  · exact fun h _ => h.bit
  · exact fun k hk a ha => slot_writeSectors hlba.data buf hk ha
  · exact fun _ hne => sectorOf_writeSectors_of_ne _ hne

private theorem entryDeleted_released (hlba : s.Allocated lba) :
    EntryDeleted s ((s.giveBack lba).shrink q) q ((s.inode q).iSize - 24)
      (some ((s.inode q).iNo.toNat % 256)) (some lba) := by
  refine entryDeleted_shrink rfl rfl ?_ ?_ ?_
  · intro lba' h hne
    change Function.update s.blockBitmap (s.blockIdx lba) false (s.blockIdx lba') = true
    rw [Function.update_of_ne (hlba.blockIdx_ne h hne)]
    exact h.bit
  · exact fun k hk a ha => slot_giveBack hlba.inMap
  · intro lba' hdata hne
    have hin : s.blockIdx lba < (s.setBlockBit (s.blockIdx lba) false).blockBits := hlba.inMap
    exact sameData_syncBlockBit hin lba' hdata

end Deleted

/-- `t` is a state in which inodes of `s` were opened, and nothing else was done. -/
structure Opened (s t : State) : Prop extends OpensOnly s t where
  tidy : Tidy t
  part : t.part = s.part
  disk : t.disk = s.disk
  blockBitmap : t.blockBitmap = s.blockBitmap
  inodeBitmap : t.inodeBitmap = s.inodeBitmap

section Release

variable {s s₃ s₄ s' t : State} {q p : Ptr} {size : UInt32} {dest : Option Nat}
  {blk : Option UInt32} {m n : UInt32}

private theorem Released.sameData (h : Released m s s') (hm : m.toNat < 4096)
    (hin : ∀ i, (s.inodeOf m).Refers s i → i < s.blockBits) : SameData s s' := by
  intro lba hlba
  have h₁ := s.part.layout.inodeBitmap
  have h₂ := s.part.layout.inodeTable
  have h₃ := s.part.layout.data
  apply sectorOf_congr
  intro a ha
  apply h.disk
  · rw [slotAddr]
    omega
  · omega
  · intro i hi
    have hlt := hin i hi
    rw [State.blockBits] at hlt
    omega

theorem EntryDeleted.findInode (hd : EntryDeleted t s₃ q size dest blk) (k : UInt32) :
    s₃.findInode k = t.findInode k := by
  rw [hd.rest, patched_findInode]

theorem Opened.inodeOf (h : Opened s t) (hd : EntryDeleted t s₃ q size dest blk)
    (hopen : t.findInode m = some p) : (s₃.inodeOf m).iNo = (s.inodeOf m).iNo ∧
      (s₃.inodeOf m).iSectors = (s.inodeOf m).iSectors := by
  have hsame := h.same m
  rw [State.inodeOf, hopen] at hsame
  rw [State.inodeOf, hd.findInode, hopen, hd.rest]
  exact ⟨(patched_iNo t s₃ q size p).trans hsame.iNo,
    (patched_iSectors t s₃ q size p).trans hsame.iSectors⟩

theorem Opened.refs (h : Opened s t) (hd : EntryDeleted t s₃ q size dest blk)
    (hopen : t.findInode m = some p) (howns : OwnsBlocks s (s.inodeOf m))
    (hblk : ∀ i ≤ 140, (s.inodeOf m).refs s.disk i ≠ 0 →
      blk ≠ some ((s.inodeOf m).refs s.disk i)) (i : Nat) :
    (s₃.inodeOf m).allBlocks s₃.disk i = (s.inodeOf m).allBlocks s.disk i ∧
      (s₃.inodeOf m).refs s₃.disk i = (s.inodeOf m).refs s.disk i := by
  have hsec := (h.inodeOf hd hopen).2
  have hblocks : ∀ i, (s₃.inodeOf m).allBlocks s₃.disk i = (s.inodeOf m).allBlocks s.disk i := by
    apply allBlocks_congr fun i _ => by rw [hsec]
    intro ht
    have htable := hblk 140 le_rfl
    rw [refs_table] at htable
    rw [hd.data _ (htable ht), h.disk]
    rw [h.part]
    exact (howns.table ht).data
  exact ⟨hblocks i, refs_congr hblocks (by rw [hsec]) i⟩

theorem Opened.owns (h : Opened s t) (hd : EntryDeleted t s₃ q size dest blk)
    (hopen : t.findInode m = some p) (howns : OwnsBlocks s (s.inodeOf m))
    (hblk : ∀ i ≤ 140, (s.inodeOf m).refs s.disk i ≠ 0 →
      blk ≠ some ((s.inodeOf m).refs s.disk i)) : OwnsBlocks s₃ (s₃.inodeOf m) := by
  have hrefs := fun i => (h.refs hd hopen howns hblk i).2
  have hpart : s₃.part = s.part := by
    rw [hd.rest]
    exact h.part
  have hidx : ∀ lba, s₃.blockIdx lba = s.blockIdx lba := by
    intro lba
    rw [State.blockIdx, State.blockIdx, hpart]
  refine ⟨?_, ?_⟩
  · intro i hi hne
    rw [hrefs] at hne ⊢
    have halloc := howns.allocated i hi hne
    have hthere : t.Allocated ((s.inodeOf m).refs s.disk i) :=
      Allocated.congr halloc h.part h.blockBitmap
    refine ⟨?_, ?_, ?_⟩
    · rw [hpart]
      exact halloc.data
    · rw [hidx, State.blockBits, hpart]
      exact halloc.inMap
    · have hbit := hd.bits hthere (hblk i hi hne)
      rw [State.blockIdx, h.part] at hbit
      rw [State.blockIdx, hpart]
      exact hbit
  · intro i hi j hj hne heq
    rw [hrefs] at hne heq
    rw [hrefs] at heq
    exact howns.distinct i hi j hj hne heq

theorem Opened.released (h : Opened s t) (hd : EntryDeleted t s₃ q size dest blk)
    (hopen : t.findInode m = some p) (hs : BlockOwnership s) (hm : s.InUse m) (hroot : m ≠ 0)
    (hno : (s.inodeOf m).iNo = m)
    (hblk : ∀ i ≤ 140, (s.inodeOf m).refs s.disk i ≠ 0 →
      blk ≠ some ((s.inodeOf m).refs s.disk i))
    (hrun : inodeRelease m s₃ = .ok ((), s₄)) : Released m s₃ s₄ ∧ SameData s₃ s₄ := by
  have howns := hs.owns m hm
  have hthere := h.owns hd hopen howns hblk
  have hpart : s₃.part = s.part := by
    rw [hd.rest]
    exact h.part
  have htidy : Tidy s₃ := by
    rw [hd.rest]
    exact h.tidy.patched s₃ q size
  have hrel := inodeRelease_released htidy hthere (fun k hk hne => by
    rw [(h.refs hd hopen howns hblk k).1] at hne ⊢
    rw [State.blockIdx, hpart]
    exact hs.blockIdx_pos hm hroot hk hne) hm.1 ((h.inodeOf hd hopen).1.trans hno) hrun
  refine ⟨hrel, hrel.sameData hm.1 ?_⟩
  rintro i ⟨k, hk, hne, rfl⟩
  exact (hthere.allocated k hk hne).inMap

theorem Opened.final (h : Opened s t) (ht : Tidy s) (hd : EntryDeleted t s₃ q size dest blk)
    (hq : SameFile (t.inode q) (s.inodeOf n)) (hrel : Released m s₃ s₄) (hdata : SameData s₃ s₄)
    (hend : Restored (s.patched s₄ q size) s') :
    (∀ k : UInt32, k.toNat < 4096 → k ≠ m → ∀ i ≤ 12, (s'.inodeOf k).iSectors i =
      if dest = some k.toNat ∧ s.findInode k = none then (s.inodeOf n).iSectors i
      else (s.inodeOf k).iSectors i) ∧
    (∀ {lba : UInt32}, s.part.sb.dataStartLba.toNat ≤ lba.toNat →
      sectorOf s'.disk lba = sectorOf s₃.disk lba) ∧
    s'.inodeBitmap = Function.update s.inodeBitmap m.toNat false := by
  have hpart : s₃.part = s.part := by
    rw [hd.rest]
    exact h.part
  have hdisk : s'.disk = s₄.disk := hend.disk
  have hpart' : s'.part = s.part := hend.part
  have hpart₄ : s₄.part = s.part := hrel.rest.part.trans hpart
  refine ⟨?_, ?_, ?_⟩
  · intro k hk hkm i hi
    have hfind : s'.findInode k = s.findInode k := by
      rw [hend.findInode (ht.patched s₄ q size), patched_findInode]
    rw [State.inodeOf, hfind]
    cases hmem : s.findInode k with
    | some p =>
        have hlt := (ht.listed p (List.mem_of_find?_eq_some hmem)).1
        rw [if_neg (fun hcon => by cases hcon.2), State.inodeOf, hmem]
        dsimp only
        rw [hend.inode p hlt, patched_iSectors]
    | none =>
        have hslot : Inode.ofBytes (s'.slot k.toNat) = Inode.ofBytes (s₃.slot k.toNat) := by
          apply ofBytes_congr
          intro a ha
          have hsame : s'.slot k.toNat = s₄.slot k.toNat := by
            rw [State.slot, State.slot, hdisk, hpart', hpart₄]
          rw [hsame]
          exact hrel.slots k.toNat hk (fun heq => hkm (UInt32.toNat_inj.mp heq)) a ha
        have hold : Inode.ofBytes (t.slot k.toNat) = s.inodeOf k := by
          rw [State.inodeOf, hmem, State.slot, State.slot, h.disk, h.part]
        dsimp only
        rw [hslot, hd.slots k.toNat hk i hi, hold, hq.iSectors]
        by_cases hdest : dest = some k.toNat
        · rw [if_pos hdest, if_pos ⟨hdest, rfl⟩]
        · rw [if_neg hdest, if_neg fun hcon => hdest hcon.1]
  · intro lba hlba
    rw [hdisk]
    exact hdata lba (by rw [hpart]; exact hlba)
  · have hmap : s'.inodeBitmap = s₄.inodeBitmap := hend.inodeBitmap
    rw [hmap, hrel.inodeBitmap, hd.inodeBitmap, h.inodeBitmap]

end Release

/-- `sys_rmdir` that returns 0, step by step: the target was found, nothing but the dots is in it,
the entry was deleted and the inode released. -/
structure Removal (s s' : State) (pathname : Path) (n : UInt32) (c : List UInt8) (e : DirEntry)
    (t s₃ s₄ : State) (dp : DirPtr) (p : Ptr) : Prop where
  isDir : s.IsDir n
  last : (components pathname).getLast? = some c
  entry : s.Entry n c e
  resolves : s.ResolvesTo pathname e
  fType : e.fType = ftDirectory
  notRoot : e.iNo ≠ 0
  size : (s.inodeOf e.iNo).iSize = 48
  opened : Opened s t
  parent : t.findInode n = some (t.dir dp).inode
  child : t.findInode e.iNo = some p
  delete : ∃ b, deleteDirEntry dp e.iNo t = .ok (b, s₃)
  release : inodeRelease e.iNo s₃ = .ok ((), s₄)
  close : ∀ {size dest blk}, EntryDeleted t s₃ (t.dir dp).inode size dest blk →
    Released e.iNo s₃ s₄ → Restored (s.patched s₄ (t.dir dp).inode size) s'

section Steps

variable {s s₁ s₂ s' : State} {pathname : Path} {d : DirPtr} {n : UInt32}

/-- When a handle was opened on top of the one of the search, both can be closed again. -/
private theorem closes_restored (ht : Tidy s) {dp dc : DirPtr} (hhold : Holding s s₁ dp)
    (hchild : Holding s₁ s₂ dc) {s₃ s₄ : State} {u v : Unit} (hr : Restored s₂ s₃)
    (h₁ : dirClose dc s₃ = .ok (u, s₄)) (h₂ : dirClose dp s₄ = .ok (v, s')) : Restored s s' :=
  dirClose_restored ht (hhold.restored
    (dirClose_restored (hhold.tidy ht) (hchild.restored hr) h₁)) h₂

private theorem closes_patched (ht : Tidy s) {dp dc : DirPtr} (hhold : Holding s s₁ dp)
    (hchild : Holding s₁ s₂ dc) {t s₃ s₄ : State} {q : Ptr} {size : UInt32} {u v : Unit}
    (hr : Restored (s₂.patched t q size) s₃)
    (h₁ : dirClose dc s₃ = .ok (u, s₄)) (h₂ : dirClose dp s₄ = .ok (v, s')) :
    Restored (s.patched t q size) s' :=
  closes_restored (ht.patched t q size) (hhold.patched t q size) (hchild.patched t q size) hr h₁ h₂

private theorem Opened.of_onHandle (ht : Tidy s) (h : OnHandle s s₁ d n) : Opened s s₁ :=
  ⟨h.toOpensOnly, h.holding.tidy ht, h.holding.framed.part, h.holding.framed.disk,
    h.holding.framed.blockBitmap, h.holding.framed.inodeBitmap⟩

theorem Opened.trans (h : Opened s s₁) (h' : Opened s₁ s₂) : Opened s s₂ :=
  ⟨trans_of OpensOnly h.toOpensOnly h'.toOpensOnly, h'.tidy, h'.part.trans h.part,
    h'.disk.trans h.disk, h'.blockBitmap.trans h.blockBitmap, h'.inodeBitmap.trans h.inodeBitmap⟩

theorem Opened.of_restored (ht : Tidy s) (h : Restored s s₁) : Opened s s₁ :=
  ⟨h.opensOnly ht, h.tidy ht, h.part, h.disk, h.blockBitmap, h.inodeBitmap⟩

private theorem searchLoop_type (k : Nat) : ∀ {s₁ : State} {subPath : Option Path} {name : Bytes}
    {d : DirPtr} {no : UInt32} {dirE : Option DirEntry} {searched : Path} {r : Searched},
    searchLoop k subPath name d no dirE searched s₁ = .ok (r, s') → r.inodeNo ≠ minusOne →
      r.fileType ≠ ftRegular → r.fileType = ftDirectory := by
  induction k with
  | zero =>
      intro s₁ subPath name d no dirE searched r h
      exact (fault_ok.mp h).elim
  | succ k ih =>
      intro s₁ subPath name d no dirE searched r h hno hreg
      rw [searchLoop] at h
      split at h
      · obtain ⟨_, s₂, -, hrest⟩ := Code.bind_ok.mp h
        obtain ⟨d', s₃, -, hret⟩ := Code.bind_ok.mp hrest
        cases dirE with
        | none => exact (fault_ok.mp hret).elim
        | some e =>
            obtain ⟨rfl, -⟩ := Code.pure_ok.mp hret
            rfl
      · simp only [Code.bind_ok, assert_ok, require_ok] at h
        obtain ⟨_, s₂, -, _, s₃, -, found, s₄, -, hrest⟩ := h
        cases found with
        | none =>
            obtain ⟨rfl, -⟩ := Code.pure_ok.mp hrest
            exact absurd rfl hno
        | some e =>
            simp only at hrest
            split at hrest
            · rw [Code.get_bind] at hrest
              obtain ⟨_, s₅, -, hrest₅⟩ := Code.bind_ok.mp hrest
              obtain ⟨d', s₆, -, hloop⟩ := Code.bind_ok.mp hrest₅
              exact ih hloop hno hreg
            · split at hrest
              · obtain ⟨rfl, -⟩ := Code.pure_ok.mp hrest
                exact absurd rfl hreg
              · exact ih hrest hno hreg

private theorem searchFile_type {r : Searched} (h : searchFile pathname s = .ok (r, s'))
    (hno : r.inodeNo ≠ minusOne) (hreg : r.fileType ≠ ftRegular) : r.fileType = ftDirectory := by
  rw [searchFile] at h
  split at h
  · obtain ⟨rfl, -⟩ := Code.pure_ok.mp h
    rfl
  · obtain ⟨_, s₁, -, hloop⟩ := Code.bind_ok.mp h
    exact searchLoop_type _ hloop hno hreg

private theorem dirRemove_cases {dp dc : DirPtr} {b : Bool} (h : dirRemove dp dc s = .ok (b, s')) :
    (b = false ∧ s' = s.setMem s.malloc) ∨
    b = true ∧ ∃ ok s₁ s₂, deleteDirEntry dp (s.dirInode dc).iNo (s.setMem s.malloc) =
      .ok (ok, s₁) ∧ inodeRelease (s.dirInode dc).iNo s₁ = .ok ((), s₂) ∧
        s' = s₂.setMem s₂.free := by
  rw [dirRemove, Code.get_bind] at h
  obtain ⟨_, s₁, hassert, hrest⟩ := Code.bind_ok.mp h
  obtain ⟨rfl, -⟩ := assert_ok.mp hassert
  obtain ⟨ioBuf, s₂, hmalloc, hrun⟩ := Code.bind_ok.mp hrest
  obtain ⟨-, rfl⟩ := sysMalloc_ok.mp hmalloc
  split at hrun
  · obtain ⟨hb, rfl⟩ := Code.pure_ok.mp hrun
    exact .inl ⟨hb, rfl⟩
  · obtain ⟨ok, s₃, hdelete, hrun₃⟩ := Code.bind_ok.mp hrun
    obtain ⟨_, s₄, hrelease, hrun₄⟩ := Code.bind_ok.mp hrun₃
    obtain ⟨_, s₅, hfree, hret⟩ := Code.bind_ok.mp hrun₄
    obtain rfl := sysFree_ok.mp hfree
    obtain ⟨hb, rfl⟩ := Code.pure_ok.mp hret
    exact .inr ⟨hb, ok, s₃, s₄, hdelete, hrelease, rfl⟩

private theorem sysRmdir_steps {b : Bool} (hs : SoundTree s) (hdebug : s.ndebug = false)
    (hzero : 0 ∉ pathname) (h : sysRmdir pathname s = .ok (b, s')) :
    b = false ∧ Restored s s' ∨
      b = true ∧ ∃ n c e t s₃ s₄ dp p, Removal s s' pathname n c e t s₃ s₄ dp p := by
  have ht := hs.tidy
  rw [sysRmdir] at h
  obtain ⟨r, s₁, hsearch, hrest⟩ := Code.bind_ok.mp h
  have hhold := searchFile_holding ht hsearch
  obtain ⟨_, s₂, hassert, hbranch⟩ := Code.bind_ok.mp hrest
  obtain ⟨rfl, hroot⟩ := assert_ok.mp hassert
  have hroot' : r.inodeNo ≠ 0 := by
    rcases hroot with hnd | hne
    · rw [hhold.framed.ndebug, hdebug] at hnd
      cases hnd
    · exact hne
  split at hbranch
  · rename_i hdir
    have htype := searchFile_type hsearch hdir.1 hdir.2
    obtain ⟨n, c, e, htarget⟩ :=
      searchFile_target ht hs.toDirectoryTree hzero hsearch hroot' htype
    obtain ⟨dc, s₃, hopen, hopened⟩ := Code.bind_ok.mp hbranch
    obtain ⟨ok, s₅, hrmdir, hclosing⟩ := Code.bind_ok.mp hopened
    obtain ⟨_, s₆, hclose, hret⟩ := Code.bind_ok.mp hclosing
    obtain ⟨rfl, rfl⟩ := Code.pure_ok.mp hret
    have ht₂ := hhold.tidy ht
    have hm : s.IsDir r.inodeNo := by
      rw [← htarget.iNo]
      exact .entry htarget.isDir htarget.name_ne htarget.entry
        (child_directory htarget.fType)
    obtain ⟨hlt, hnum⟩ := hs.number hm
    have hchild := (dirOpen_onHandle ht₂ (refl_of Restored s₂) hlt
      ((htarget.handle.same r.inodeNo).iNo.trans hnum) hopen).1
    obtain ⟨empty, s₆, hisEmpty, hcases⟩ := Code.bind_ok.mp hrmdir
    rw [dirIsEmpty, Code.get_bind] at hisEmpty
    obtain ⟨hsize, rfl⟩ := Code.pure_ok.mp hisEmpty
    split at hcases
    · rename_i hempty
      rw [hempty] at hsize
      obtain ⟨ok', s₇, hremove, hcloseChild⟩ := Code.bind_ok.mp hcases
      obtain ⟨_, s₈, hcloseChild', hret'⟩ := Code.bind_ok.mp hcloseChild
      obtain ⟨rfl, rfl⟩ := Code.pure_ok.mp hret'
      have hno : (s₆.dirInode dc).iNo = e.iNo := by
        rw [hchild.dirInode.iNo, (htarget.handle.same r.inodeNo).iNo, hnum, htarget.iNo]
      have hmalloc := Restored.malloc s₆
      rcases dirRemove_cases hremove with ⟨rfl, rfl⟩ | ⟨rfl, ok, s₉, s₁₀, hdelete, hrelease, rfl⟩
      · exact .inl ⟨rfl, closes_restored ht hhold hchild.holding hmalloc hcloseChild' hclose⟩
      · refine .inr ⟨rfl, n, c, e, s₆.setMem s₆.malloc, s₉, s₁₀, r.parentDir, (s₆.dir dc).inode,
          ?_⟩
        rw [hno] at hdelete hrelease
        have hdp := (htarget.handle.holding.ptr ht (ht.root_lt hs.rootDir)).1
        have hparent : s₆.dir r.parentDir = s₂.dir r.parentDir :=
          hchild.holding.framed.dir r.parentDir hdp
        have htop := hchild.holding.tidy ht₂
        have hall := (Opened.of_onHandle ht htarget.handle).trans
          ((Opened.of_onHandle ht₂ hchild).trans (Opened.of_restored htop hmalloc))
        have hsizeNo : (s.inodeOf e.iNo).iSize = 48 := by
          rw [htarget.iNo, ← (htarget.handle.same r.inodeNo).iSize, ← hchild.dirInode.iSize]
          exact of_decide_eq_true hsize.symm
        refine ⟨htarget.isDir, htarget.last, htarget.entry, htarget.resolves, htarget.fType, ?_,
          hsizeNo, hall, ?_, ?_, ⟨ok, hdelete⟩, hrelease, ?_⟩
        · rw [htarget.iNo]
          exact hroot'
        · have hfound := hchild.found htarget.handle.here
          rw [← hparent] at hfound
          exact (hmalloc.opensOnly htop).found hfound
        · rw [htarget.iNo]
          exact (hmalloc.opensOnly htop).found hchild.here
        · intro size dest blk hd hrel
          refine closes_patched ht hhold hchild.holding ?_ hcloseChild' hclose
          refine trans_of Restored (hmalloc.patched s₁₀ _ size) ?_
          have hpatch : s₉.withMaps s₁₀ =
              (s₆.setMem s₆.malloc).patched s₁₀ (s₆.dir r.parentDir).inode size := by
            rw [hd.rest]
            rfl
          have hback := hrel.rest
          rw [hpatch] at hback
          exact trans_of Restored hback (Restored.free s₁₀)
    · obtain ⟨_, s₇, hcloseChild, hret'⟩ := Code.bind_ok.mp hcases
      obtain ⟨rfl, rfl⟩ := Code.pure_ok.mp hret'
      exact .inl ⟨rfl, closes_restored ht hhold hchild.holding (refl_of Restored _) hcloseChild
        hclose⟩
  · obtain ⟨_, s₃, hclose, hret⟩ := Code.bind_ok.mp hbranch
    obtain ⟨hb, rfl⟩ := Code.pure_ok.mp hret
    exact .inl ⟨hb, dirClose_restored ht hhold hclose⟩

end Steps

/-- The directory whose inode is read as directory `k` when slot `dest` of the inode table has been
written from directory `n`. -/
def State.readAs (s : State) (dest : Option Nat) (n k : UInt32) : UInt32 :=
  if dest = some k.toNat ∧ s.findInode k = none then n else k

section Rewired

variable {s s' t s₃ s₄ : State} {n m : UInt32} {q : Ptr} {size : UInt32} {dest : Option Nat}
  {x : Nat × Nat} {ino ino' : Inode}

theorem SoundTree.inUse (hs : SoundTree s) (hn : s.IsDir n) : s.InUse n := by
  cases hn with
  | root => exact hs.blocks.root
  | entry hk hname hentry hchild =>
      rw [← iNo_of_child hchild]
      exact hs.used hk hname hentry

private theorem readAs_cases (s : State) (dest : Option Nat) (n k : UInt32) :
    s.readAs dest n k = k ∨ s.readAs dest n k = n := by
  rw [State.readAs]
  split
  · exact .inr rfl
  · exact .inl rfl

private theorem readAs_isDir (hn : s.IsDir n) {k : UInt32} (hk : s.IsDir k) :
    s.IsDir (s.readAs dest n k) := by
  rcases readAs_cases s dest n k with h | h
  · rw [h]
    exact hk
  · rw [h]
    exact hn

private theorem readAs_iSectors (k : UInt32) (i : Nat) :
    (if dest = some k.toNat ∧ s.findInode k = none then (s.inodeOf n).iSectors i
      else (s.inodeOf k).iSectors i) = (s.inodeOf (s.readAs dest n k)).iSectors i := by
  rw [State.readAs]
  split <;> rfl

private theorem rewired_kept (hs : SoundTree s) (hn : s.IsDir n)
    (hsec : ∀ k : UInt32, k.toNat < 4096 → k ≠ m → ∀ i ≤ 12, (s'.inodeOf k).iSectors i =
      if dest = some k.toNat ∧ s.findInode k = none then (s.inodeOf n).iSectors i
      else (s.inodeOf k).iSectors i)
    (hdata : SameData s s')
    (hmap : s'.inodeBitmap = Function.update s.inodeBitmap m.toNat false) :
    Rewired s s' m (s.readAs dest n) fun _ _ => False := by
  refine ⟨?_, hmap⟩
  intro k name e hk hkm _
  rw [not_false_eq_true, and_true]
  have hσ : s.IsDir (s.readAs dest n k) := readAs_isDir hn hk
  refine hasEntry_congr ?_ ?_
  · intro i hi
    rw [hsec k (hs.number hk).1 hkm i hi, readAs_iSectors]
  · intro i hi hne
    exact hdata _ ((hs.dir hσ).allocated i hi hne).data

private theorem rewired_cleared (hs : SoundTree s) (hn : s.IsDir n)
    (hx : x ∈ (s.inodeOf n).slots s.disk) (hname : (s.inodeOf n).nameIn s.disk x ≠ [])
    (hsec : ∀ k : UInt32, k.toNat < 4096 → k ≠ m → ∀ i ≤ 12, (s'.inodeOf k).iSectors i =
      if dest = some k.toNat ∧ s.findInode k = none then (s.inodeOf n).iSectors i
      else (s.inodeOf k).iSectors i)
    (hself : ∀ a < 512, sectorOf s'.disk ((s.inodeOf n).allBlocks s.disk x.1) a =
      (sectorOf s.disk ((s.inodeOf n).allBlocks s.disk x.1)).fill (24 * x.2) 24 0 a)
    (hother : ∀ lba, s.Allocated lba → lba ≠ (s.inodeOf n).allBlocks s.disk x.1 →
      sectorOf s'.disk lba = sectorOf s.disk lba)
    (hmap : s'.inodeBitmap = Function.update s.inodeBitmap m.toNat false) :
    Rewired s s' m (s.readAs dest n)
      fun k name => k = n ∧ name = (s.inodeOf n).nameIn s.disk x := by
  refine ⟨?_, hmap⟩
  intro k name e hk hkm hne
  have hσ : s.IsDir (s.readAs dest n k) := readAs_isDir hn hk
  have hpointers : ∀ i ≤ 12, (s'.inodeOf k).iSectors i =
      (s.inodeOf (s.readAs dest n k)).iSectors i := by
    intro i hi
    rw [hsec k (hs.number hk).1 hkm i hi, readAs_iSectors]
  by_cases hkn : s.readAs dest n k = n
  · rw [hkn] at hpointers ⊢
    have hiff := hasEntry_cleared (hs.dir hn) hx hpointers hself hother hname (e := e) hne
    rw [State.Entry, hiff]
    constructor
    · rintro ⟨hold, hdiff⟩
      exact ⟨hold, fun hgone => hdiff hgone.2⟩
    · rintro ⟨hold, hgone⟩
      exact ⟨hold, fun hsame => hgone ⟨rfl, hsame⟩⟩
  · have hiff : s'.Entry k name e ↔ s.Entry (s.readAs dest n k) name e := by
      refine hasEntry_congr hpointers ?_
      intro i hi href
      refine hother _ ((hs.dir hσ).allocated i hi href) ?_
      have hx₁ := (mem_slots.mp hx).1
      have hapart := hs.blocks.disjoint _ _ (hs.inUse hσ) (hs.inUse hn) hkn i hi x.1 (by omega) href
      rw [refs_block _ _ hx₁] at hapart
      exact hapart
    rw [hiff]
    exact ⟨fun hold => ⟨hold, fun hgone => hkn hgone.1⟩, fun hold => hold.1⟩

theorem WellFormedDir.same (h : WellFormedDir s ino) (hsame : SameFile ino' ino)
    (hdisk : t.disk = s.disk) (hpart : t.part = s.part) (hbits : t.blockBitmap = s.blockBitmap) :
    WellFormedDir t ino' := by
  have howns : OwnsBlocks t ino' := by
    refine h.toOwnsBlocks.congr hpart hbits fun i _ => ?_
    rw [hdisk]
    rw [Inode.refs, Inode.refs, Inode.allBlocks, Inode.allBlocks, hsame.iSectors]
  obtain ⟨no, size, cnt, deny, sectors⟩ := ino
  obtain ⟨no', size', cnt', deny', sectors'⟩ := ino'
  obtain ⟨hno, hsize, hsec⟩ := hsame
  dsimp only at hno hsize hsec
  subst hno hsize hsec
  refine ⟨howns, ?_, ?_, ?_, ?_, h.firstBlock, ?_, ?_, ?_⟩
  · rw [hdisk]
    exact h.short
  · rw [hdisk]
    exact h.free
  · rw [hdisk]
    exact h.unique
  · rw [hdisk]
    exact h.numbers
  · rw [hdisk]
    exact h.dot
  · rw [hdisk]
    exact h.dotdot
  · rw [hdisk]
    exact h.size

theorem SameFile.allBlocks (h : SameFile ino' ino) (disk : Bytes) :
    ino'.allBlocks disk = ino.allBlocks disk := by
  funext i
  rw [Inode.allBlocks, Inode.allBlocks, h.iSectors]

private theorem WellFormedDir.holds {disk : Bytes} (h : WellFormedDir s ino) (hdisk : disk = s.disk)
    (hx : x ∈ ino.slots disk) : ino.HoldsIn disk x ↔ Proper (ino.nameIn disk x) := by
  rw [hdisk] at hx ⊢
  have hfree := h.free x hx
  constructor
  · intro hholds
    exact ⟨fun hnil => hholds.1 (hfree.mp hnil), hholds.2.1, hholds.2.2⟩
  · intro hproper
    exact ⟨fun hunknown => hproper.1 (hfree.mpr hunknown), hproper.2.1, hproper.2.2⟩

theorem SoundTree.slot (hs : SoundTree s) {c : List UInt8} {e : DirEntry} (h : s.Lists n c e) :
    ∃ x ∈ (s.inodeOf n).slots s.disk, (s.inodeOf n).HoldsIn s.disk x ∧
      (s.inodeOf n).nameIn s.disk x = c ∧ (s.inodeOf n).entryIn s.disk x = e := by
  obtain ⟨x, hx, hname, he⟩ := entry_iff_slot.mp h.2.2
  refine ⟨x, hx, ((hs.dir h.1).holds rfl hx).mpr ?_, hname, he⟩
  rw [hname]
  exact h.2.1

theorem SoundTree.lists (hs : SoundTree s) (hn : s.IsDir n) (hx : x ∈ (s.inodeOf n).slots s.disk)
    (hholds : (s.inodeOf n).HoldsIn s.disk x) :
    s.Lists n ((s.inodeOf n).nameIn s.disk x) ((s.inodeOf n).entryIn s.disk x) :=
  lists_of_slot hn hx (((hs.dir hn).holds rfl hx).mp hholds)

end Rewired

/-- When the entry in slot `x` of directory `n` is deleted, that inode, which is too large for
`inode_sync`, is written over the one of another directory, and one of the two has other entries. -/
def State.Overwrites (s : State) (n m : UInt32) (x : Nat × Nat) : Prop :=
  256 ≤ n.toNat ∧ ∃ k, s.IsDir k ∧ k.toNat = n.toNat % 256 ∧ k ≠ m ∧ s.findInode k = none ∧
    ((∃ name e, s.Lists k name e) ∨
      ∃ y ∈ (s.inodeOf n).slots s.disk, (s.inodeOf n).HoldsIn s.disk y ∧ y ≠ x)

/-- The paths that `sys_rmdir` can remove: the last component is not `.`, the entry is not the last
one of a later block of its directory, and no directory is overwritten. -/
structure State.RmdirClean (s : State) (pathname : Path) : Prop where
  name : (components pathname).getLast? ≠ some dot
  entry : ∀ {e n x}, s.ResolvesTo pathname e → s.IsDir n → x ∈ (s.inodeOf n).slots s.disk →
    (s.inodeOf n).HoldsIn s.disk x → ((s.inodeOf n).entryIn s.disk x).iNo = e.iNo →
    ¬ (s.inodeOf n).Last s.disk x ∧ ¬ s.Overwrites n e.iNo x

section Removal

variable {s s' : State} {pathname : Path} {n : UInt32} {c : List UInt8} {e : DirEntry}
  {t s₃ s₄ : State} {dp : DirPtr} {p : Ptr} {x : Nat × Nat}

theorem Removal.target (h : Removal s s' pathname n c e t s₃ s₄ dp p) : s.IsDir e.iNo := by
  have hne : c ≠ [] := components_ne_nil (List.mem_of_getLast? h.last)
  exact .entry h.isDir hne h.entry (child_directory h.fType)

theorem Removal.empty (h : Removal s s' pathname n c e t s₃ s₄ dp p) (hs : SoundTree s)
    (name : List UInt8) (e' : DirEntry) : ¬ s.Lists e.iNo name e' := by
  intro hlists
  obtain ⟨x, hx, hholds, -⟩ := hs.slot hlists
  exact (hs.dir h.target).empty h.size hx hholds

private theorem Removal.parentInode (h : Removal s s' pathname n c e t s₃ s₄ dp p) :
    SameFile (t.dirInode dp) (s.inodeOf n) := by
  have hsame := h.opened.same n
  rw [State.inodeOf, h.parent] at hsame
  exact hsame

private theorem Removal.wellFormed (h : Removal s s' pathname n c e t s₃ s₄ dp p)
    (hs : SoundTree s) : WellFormedDir t (t.dirInode dp) :=
  (hs.dir h.isDir).same h.parentInode h.opened.disk h.opened.part h.opened.blockBitmap

theorem Removal.final (h : Removal s s' pathname n c e t s₃ s₄ dp p) (hs : SoundTree s)
    {size : UInt32} {dest : Option Nat} {blk : Option UInt32}
    (hd : EntryDeleted t s₃ (t.dir dp).inode size dest blk)
    (hblk : ∀ i ≤ 140, (s.inodeOf e.iNo).refs s.disk i ≠ 0 →
      blk ≠ some ((s.inodeOf e.iNo).refs s.disk i)) :
    (∀ k : UInt32, k.toNat < 4096 → k ≠ e.iNo → ∀ i ≤ 12, (s'.inodeOf k).iSectors i =
      if dest = some k.toNat ∧ s.findInode k = none then (s.inodeOf n).iSectors i
      else (s.inodeOf k).iSectors i) ∧
    (∀ {lba : UInt32}, s.part.sb.dataStartLba.toNat ≤ lba.toNat →
      sectorOf s'.disk lba = sectorOf s₃.disk lba) ∧
    s'.inodeBitmap = Function.update s.inodeBitmap e.iNo.toNat false := by
  obtain ⟨hrel, hdata⟩ := h.opened.released hd h.child hs.blocks (hs.inUse h.target) h.notRoot
    (hs.number h.target).2 hblk h.release
  exact h.opened.final hs.tidy hd h.parentInode hrel hdata (h.close hd hrel)

private theorem Removal.ne_dotdot (h : Removal s s' pathname n c e t s₃ s₄ dp p)
    (hs : SoundTree s) : c ≠ dotdot := by
  intro heq
  have hentry := h.entry
  rw [heq] at hentry
  have he := hs.dotdot_entry h.isDir hentry
  obtain ⟨cs, hcs⟩ := hs.canonical h.isDir
  cases hcs with
  | root =>
      rw [← hs.dotdot_entry .root hs.dotdot] at he
      exact h.notRoot (by rw [he])
  | entry hcs' hx hproper hchild hzero =>
      have hno := hs.parent hcs'.isDir hx hproper hchild hzero
      have hlists := lists_of_slot hcs'.isDir hx hproper
      rw [← hno, ← he] at hlists
      exact h.empty hs _ _ hlists

/-- When the last component is `.`, the directory is released, but its entry stays. -/
theorem Removal.dot (h : Removal s s' pathname n dot e t s₃ s₄ dp p) (hs : SoundTree s) :
    ¬ DirRemoved s s' := by
  have he := hs.dot_entry h.isDir h.entry
  have hn : n = e.iNo := by rw [he]
  have hempty := h.empty hs
  -- nothing is deleted in the directory itself
  have hrun : s₃ = t := by
    obtain ⟨b, hdelete⟩ := h.delete
    rw [deleteDirEntry_absent] at hdelete
    · cases hdelete
      rfl
    · intro y hy hholds _
      have hslots : (t.dirInode dp).slots t.disk = (s.inodeOf n).slots s.disk := by
        rw [Inode.slots, Inode.slots, h.parentInode.allBlocks, h.opened.disk]
      have hholds' : (s.inodeOf n).HoldsIn s.disk y := by
        rw [Inode.HoldsIn, ← h.parentInode.allBlocks, ← h.opened.disk]
        exact hholds
      rw [hslots, hn] at hy
      rw [hn] at hholds'
      exact (hs.dir h.target).empty h.size hy hholds'
  have hd : EntryDeleted t s₃ (t.dir dp).inode (t.inode (t.dir dp).inode).iSize none none := by
    rw [hrun]
    exact entryDeleted_none t _
  obtain ⟨hsec, hdata, hmap⟩ := h.final hs hd fun i _ _ hcon => by cases hcon
  have hsame : SameData s s' := by
    intro lba hlba
    rw [hdata hlba, hrun, h.opened.disk]
  have hrewired := rewired_kept hs h.isDir hsec hsame hmap
  -- the entry that names it is in another directory
  obtain ⟨cs, hcs⟩ := hs.canonical h.target
  generalize hm : e.iNo = m at hcs
  cases hcs with
  | root => exact absurd hm h.notRoot
  | entry hcs' hx hproper hchild _ =>
      have hno := iNo_of_child hchild
      have hlists := lists_of_slot hcs'.isDir hx hproper
      rw [hm, ← hno] at hrewired
      rw [hm, ← hno] at hempty
      refine hrewired.not_removed hs hlists hempty (fun _ _ => not_false) ?_
      intro k
      left
      rw [State.readAs, if_neg]
      exact fun hcon => by cases hcon.1

private theorem Removal.blk_ne (h : Removal s s' pathname n c e t s₃ s₄ dp p) (hs : SoundTree s)
    (hne : n ≠ e.iNo) (hx : x ∈ (s.inodeOf n).slots s.disk) : ∀ i ≤ 140,
    (s.inodeOf e.iNo).refs s.disk i ≠ 0 →
      some ((s.inodeOf n).allBlocks s.disk x.1) ≠ some ((s.inodeOf e.iNo).refs s.disk i) := by
  intro i hi href heq
  have hx₁ := (mem_slots.mp hx).1
  have hapart := hs.blocks.disjoint _ _ (hs.inUse h.target) (hs.inUse h.isDir) hne.symm i hi x.1
    (by omega) href
  rw [refs_block _ _ hx₁] at hapart
  exact hapart (Option.some.inj heq).symm

theorem Removal.handle (h : Removal s s' pathname n c e t s₃ s₄ dp p) :
    (t.dirInode dp).allBlocks t.disk = (s.inodeOf n).allBlocks s.disk ∧
      (t.dirInode dp).slots t.disk = (s.inodeOf n).slots s.disk ∧
      (t.dirInode dp).HoldsIn t.disk = (s.inodeOf n).HoldsIn s.disk ∧
      (t.dirInode dp).entryIn t.disk = (s.inodeOf n).entryIn s.disk ∧
      (t.dirInode dp).Last t.disk = (s.inodeOf n).Last s.disk := by
  have hblocks : (t.dirInode dp).allBlocks t.disk = (s.inodeOf n).allBlocks s.disk := by
    rw [h.parentInode.allBlocks, h.opened.disk]
  have hslots : (t.dirInode dp).slots t.disk = (s.inodeOf n).slots s.disk := by
    rw [Inode.slots, Inode.slots, hblocks]
  have hholds : (t.dirInode dp).HoldsIn t.disk = (s.inodeOf n).HoldsIn s.disk := by
    funext y
    rw [Inode.HoldsIn, Inode.HoldsIn, hblocks, h.opened.disk]
  refine ⟨hblocks, hslots, hholds, ?_, ?_⟩
  · funext y
    rw [Inode.entryIn, Inode.entryIn, hblocks, h.opened.disk]
  · funext y
    rw [Inode.Last, Inode.Last, hslots, hholds]

theorem Removal.allocated (h : Removal s s' pathname n c e t s₃ s₄ dp p) (hs : SoundTree s)
    (hx : x ∈ (s.inodeOf n).slots s.disk) :
    t.Allocated ((s.inodeOf n).allBlocks s.disk x.1) := by
  obtain ⟨hi, hblock, -⟩ := mem_slots.mp hx
  exact Allocated.congr ((hs.dir h.isDir).block hi hblock) h.opened.part h.opened.blockBitmap

private theorem Removal.dest (h : Removal s s' pathname n c e t s₃ s₄ dp p) (hs : SoundTree s) :
    (t.inode (t.dir dp).inode).iNo = n :=
  h.parentInode.iNo.trans (hs.number h.isDir).2

theorem Removal.cleared (h : Removal s s' pathname n c e t s₃ s₄ dp p) (hs : SoundTree s)
    (hne : n ≠ e.iNo) (hx : x ∈ (s.inodeOf n).slots s.disk)
    (hholds : (s.inodeOf n).HoldsIn s.disk x) (he : (s.inodeOf n).entryIn s.disk x = e)
    (hlast : ¬ (s.inodeOf n).Last s.disk x) :
    Rewired s s' e.iNo (s.readAs (some (n.toNat % 256)) n)
      fun k name => k = n ∧ name = (s.inodeOf n).nameIn s.disk x := by
  obtain ⟨hblocks, hslots, hholdsT, hentries, hlastT⟩ := h.handle
  have halloc := h.allocated hs hx
  have hname := ((hs.dir h.isDir).holds rfl hx).mp hholds
  obtain ⟨b, hdelete⟩ := h.delete
  have hrun := deleteDirEntry_clears (x := x) (h.wellFormed hs) (by rw [hslots]; exact hx)
    (by rw [hholdsT]; exact hholds) (by rw [hlastT]; exact hlast)
  rw [hentries, he, hdelete, hblocks] at hrun
  have hs₃ := congrArg Prod.snd (Except.ok.inj hrun)
  dsimp only at hs₃
  have hd := entryDeleted_cleared (q := (t.dir dp).inode) halloc
    ((sectorOf t.disk ((s.inodeOf n).allBlocks s.disk x.1)).fill (24 * x.2) 24 0)
  rw [← hs₃, h.dest hs] at hd
  obtain ⟨hsec, hdata, hmap⟩ := h.final hs hd (h.blk_ne hs hne hx)
  refine rewired_cleared hs h.isDir hx hname.1 hsec ?_ ?_ hmap
  · intro a ha
    have hlba := halloc.data
    rw [h.opened.part] at hlba
    have hshrink := sameData_shrink (t.writeSectors ((s.inodeOf n).allBlocks s.disk x.1)
      ((sectorOf t.disk ((s.inodeOf n).allBlocks s.disk x.1)).fill (24 * x.2) 24 0) 1)
      (t.dir dp).inode _ halloc.data
    rw [hdata hlba, hs₃, hshrink, sectorOf_writeSectors_self _ _ _ ha, h.opened.disk]
  · intro lba hlba hother
    have hdiff : some ((s.inodeOf n).allBlocks s.disk x.1) ≠ some lba :=
      fun heq => hother (Option.some.inj heq).symm
    rw [hdata hlba.data, hd.data (by rw [h.opened.part]; exact hlba.data) hdiff, h.opened.disk]

/-- The block of the entry is given back, and the entry stays. -/
private theorem Removal.dangles (h : Removal s s' pathname n c e t s₃ s₄ dp p) (hs : SoundTree s)
    (hne : n ≠ e.iNo) (hx : x ∈ (s.inodeOf n).slots s.disk)
    (hholds : (s.inodeOf n).HoldsIn s.disk x) (he : (s.inodeOf n).entryIn s.disk x = e)
    (hlast : (s.inodeOf n).Last s.disk x) :
    Rewired s s' e.iNo (s.readAs (some (n.toNat % 256)) n) fun _ _ => False := by
  obtain ⟨hblocks, hslots, hholdsT, hentries, hlastT⟩ := h.handle
  have halloc := h.allocated hs hx
  obtain ⟨b, hdelete⟩ := h.delete
  have hrun := deleteDirEntry_releases (x := x) (h.wellFormed hs) (by rw [hslots]; exact hx)
    (by rw [hholdsT]; exact hholds) (by rw [hlastT]; exact hlast)
  rw [hentries, he, hdelete, hblocks] at hrun
  split at hrun
  · have hs₃ := congrArg Prod.snd (Except.ok.inj hrun)
    dsimp only at hs₃
    have hd := entryDeleted_released (q := (t.dir dp).inode) halloc
    rw [← hs₃, h.dest hs] at hd
    obtain ⟨hsec, hdata, hmap⟩ := h.final hs hd (h.blk_ne hs hne hx)
    refine rewired_kept hs h.isDir hsec ?_ hmap
    intro lba hlba
    have hthere : t.part.sb.dataStartLba.toNat ≤ lba.toNat := by
      rw [h.opened.part]
      exact hlba
    have hin : t.blockIdx ((s.inodeOf n).allBlocks s.disk x.1) <
        (t.setBlockBit (t.blockIdx ((s.inodeOf n).allBlocks s.disk x.1)) false).blockBits :=
      halloc.inMap
    have hshrink := sameData_shrink (t.giveBack ((s.inodeOf n).allBlocks s.disk x.1))
      (t.dir dp).inode lba hthere
    have hback : sectorOf (t.giveBack ((s.inodeOf n).allBlocks s.disk x.1)).disk lba =
        sectorOf t.disk lba := sameData_syncBlockBit hin lba hthere
    rw [hdata hlba, hs₃, hshrink, hback, h.opened.disk]
  · cases hrun

private theorem State.Overwrites.readAs (h : s.Overwrites n e.iNo x) :
    ∃ k, s.IsDir k ∧ k ≠ e.iNo ∧ k ≠ n ∧ s.readAs (some (n.toNat % 256)) n k = n ∧
    (∀ j, j ≠ k → s.readAs (some (n.toNat % 256)) n j = j) ∧
    ((∃ name e', s.Lists k name e') ∨
      ∃ y ∈ (s.inodeOf n).slots s.disk, (s.inodeOf n).HoldsIn s.disk y ∧ y ≠ x) := by
  obtain ⟨hlarge, k, hk, hslot, hne, hclosed, hentries⟩ := h
  refine ⟨k, hk, hne, ?_, ?_, ?_, hentries⟩
  · intro heq
    rw [heq] at hslot
    omega
  · rw [State.readAs, if_pos ⟨by rw [hslot], hclosed⟩]
  · intro j hj
    rw [State.readAs, if_neg]
    rintro ⟨hsame, -⟩
    refine hj (UInt32.toNat_inj.mp ?_)
    rw [hslot]
    exact (Option.some.inj hsame).symm

private theorem Removal.parent_ne (h : Removal s s' pathname n c e t s₃ s₄ dp p) (hs : SoundTree s)
    (hlist : s.Lists n c e) : n ≠ e.iNo := by
  intro heq
  rw [heq] at hlist
  exact h.empty hs _ _ hlist

/-- Where the entry is cleared, the tree loses just that entry unless a directory is overwritten. -/
private theorem Removal.cleared_iff (h : Removal s s' pathname n c e t s₃ s₄ dp p)
    (hs : SoundTree s) (hlist : s.Lists n c e) (hx : x ∈ (s.inodeOf n).slots s.disk)
    (hholds : (s.inodeOf n).HoldsIn s.disk x) (hc : (s.inodeOf n).nameIn s.disk x = c)
    (he : (s.inodeOf n).entryIn s.disk x = e) (hlast : ¬ (s.inodeOf n).Last s.disk x) :
    DirRemoved s s' ↔ ¬ s.Overwrites n e.iNo x := by
  have hrewired := h.cleared hs (h.parent_ne hs hlist) hx hholds he hlast
  rw [hc] at hrewired
  have hempty := h.empty hs
  constructor
  · intro hremoved hover
    obtain ⟨k, hk, hne, hkn, hto, hkeep, hentries⟩ := hover.readAs
    refine hrewired.not_removed_of_overwritten hs hlist hempty (fun _ _ => Iff.rfl) hk hne hkn hto
      hkeep ?_ hremoved
    refine hentries.imp id ?_
    rintro ⟨y, hy, hyholds, hyx⟩
    refine ⟨_, _, hs.lists h.isDir hy hyholds, ?_⟩
    intro hname
    rw [← hc] at hname
    have hproper := ((hs.dir h.isDir).holds rfl hy).mp hyholds
    exact hyx ((hs.dir h.isDir).unique y hy x hx hproper.1 hname)
  · intro hover
    refine hrewired.removed hs hlist hempty (fun _ _ => Iff.rfl) ?_
    intro k hk hne
    by_cases hdest : some (n.toNat % 256) = some k.toNat ∧ s.findInode k = none
    · have hto : s.readAs (some (n.toNat % 256)) n k = n := if_pos hdest
      by_cases hkn : k = n
      · exact .inl (by rw [hto, hkn])
      refine .inr ⟨hto, ?_⟩
      have hslot := (Option.some.inj hdest.1).symm
      have hlarge : 256 ≤ n.toNat := by
        by_contra hsmall
        rw [Nat.mod_eq_of_lt (Nat.lt_of_not_le hsmall)] at hslot
        exact hkn (UInt32.toNat_inj.mp hslot)
      have hnone : ¬ ((∃ name e', s.Lists k name e') ∨
          ∃ y ∈ (s.inodeOf n).slots s.disk, (s.inodeOf n).HoldsIn s.disk y ∧ y ≠ x) :=
        fun hentries => hover ⟨hlarge, k, hk, hslot, hne, hdest.2, hentries⟩
      refine ⟨fun name e' hl => hnone (.inl ⟨name, e', hl⟩), ?_⟩
      intro name e' hl
      obtain ⟨y, hy, hyholds, hyname, -⟩ := hs.slot hl
      have hyx : y = x := by
        by_contra hyx
        exact hnone (.inr ⟨y, hy, hyholds, hyx⟩)
      rw [← hyname, hyx, hc]
    · exact .inl (if_neg hdest)

/-- What `sys_rmdir` did to the tree is decided by the path. -/
private theorem Removal.removed_iff (h : Removal s s' pathname n c e t s₃ s₄ dp p)
    (hs : SoundTree s) : DirRemoved s s' ↔ s.RmdirClean pathname := by
  by_cases hdot : c = Fs.dot
  · subst hdot
    exact iff_of_false (h.dot hs) fun hclean => hclean.name h.last
  have hproper : Proper c := ⟨components_ne_nil (List.mem_of_getLast? h.last), hdot, h.ne_dotdot hs⟩
  have hlist : s.Lists n c e := ⟨h.isDir, hproper, h.entry⟩
  obtain ⟨x, hx, hholds, hc, he⟩ := hs.slot hlist
  have hne := h.parent_ne hs hlist
  have hdecide : s.RmdirClean pathname ↔
      ¬ (s.inodeOf n).Last s.disk x ∧ ¬ s.Overwrites n e.iNo x := by
    constructor
    · intro hclean
      exact hclean.entry h.resolves h.isDir hx hholds (by rw [he])
    · intro hgood
      refine ⟨?_, ?_⟩
      · rw [h.last]
        exact fun heq => hdot (Option.some.inj heq)
      · intro e' n' x' hres hn' hx' hholds' hno
        have hfollow := follow_of_resolvesTo hs.toWellFormedTree h.resolves
        rw [follow_of_resolvesTo hs.toWellFormedTree hres] at hfollow
        obtain rfl : e' = e := Option.some.inj hfollow
        obtain ⟨hnn, hname⟩ := hs.once (hs.lists hn' hx' hholds') hlist hno
        subst hnn
        have hxx : x' = x := by
          rw [← hc] at hname
          exact (hs.dir hn').unique x' hx' x hx
            (((hs.dir hn').holds rfl hx').mp hholds').1 hname
        rw [hxx]
        exact hgood
  rw [hdecide]
  by_cases hlast : (s.inodeOf n).Last s.disk x
  · refine iff_of_false ?_ fun hgood => hgood.1 hlast
    exact (h.dangles hs hne hx hholds he hlast).not_removed hs hlist (h.empty hs)
      (fun _ _ => not_false) (readAs_cases s _ n)
  · rw [h.cleared_iff hs hlist hx hholds hc he hlast]
    exact ⟨fun hover => ⟨hlast, hover⟩, fun hgood => hgood.2⟩

end Removal

/-- `sys_rmdir` that returns -1 leaves the disk and the bitmaps as they were; one that returns 0 has
removed one entry just when the path is one of those it can remove. -/
theorem rmdir_removes_iff {s s' : State} {pathname : Path} {b : Bool} (hs : SoundTree s)
    (hdebug : s.ndebug = false) (hzero : 0 ∉ pathname) (h : sysRmdir pathname s = .ok (b, s')) :
    (b = false → Restored s s') ∧
      (b = true → (DirRemoved s s' ↔ s.RmdirClean pathname)) := by
  rcases sysRmdir_steps hs hdebug hzero h with ⟨rfl, hback⟩ | ⟨rfl, n, c, e, t, s₃, s₄, dp, p, hrem⟩
  · exact ⟨fun _ => hback, fun hcon => by cases hcon⟩
  · exact ⟨fun hcon => (by cases hcon), fun _ => hrem.removed_iff hs⟩

private theorem ownership_of_single {s : State} {b : UInt32 → UInt32} (hroot : s.InUse 0)
    (hfirst : (s.inodeOf 0).iSectors 0 = s.part.sb.dataStartLba)
    (hrefs : ∀ n, s.InUse n → ∀ i ≤ 140, (s.inodeOf n).refs s.disk i = if i = 0 then b n else 0)
    (halloc : ∀ n, s.InUse n → s.Allocated (b n))
    (hinj : ∀ m n, s.InUse m → s.InUse n → b m = b n → m = n) : BlockOwnership s where
  owns := by
    intro n hn
    refine ⟨?_, ?_⟩
    · intro i hi hne
      rw [hrefs n hn i hi] at hne ⊢
      split at hne
      · rw [if_pos (by assumption)]
        exact halloc n hn
      · exact absurd rfl hne
    · intro i hi j hj hne heq
      have hne' := hne
      rw [heq, hrefs n hn j hj] at hne'
      rw [hrefs n hn i hi] at hne
      split at hne
      · split at hne'
        · omega
        · exact absurd rfl hne'
      · exact absurd rfl hne
  disjoint := by
    intro m n hm hn hne i hi j hj href heq
    have href' := href
    rw [heq, hrefs n hn j hj] at href'
    rw [hrefs m hm i hi] at href heq
    rw [hrefs n hn j hj] at heq
    split at href
    · split at href'
      · rw [if_pos (by assumption), if_pos (by assumption)] at heq
        exact hne (hinj m n hm hn heq)
      · exact absurd rfl href'
    · exact absurd rfl href
  root := hroot
  rootBlock := hfirst

/-- The two directories and their blocks are in use. -/
def occupiedState : State :=
  { nestedState with blockBitmap := fun i => i < 2, inodeBitmap := fun i => i < 2 }

private theorem occupied_inUse {n : UInt32} (h : occupiedState.InUse n) : n = 0 ∨ n = 1 := by
  have hlt : n.toNat < 2 := of_decide_eq_true h.2
  rcases (show n.toNat = 0 ∨ n.toNat = 1 by omega) with hn | hn
  · exact .inl (UInt32.toNat_inj.mp hn)
  · exact .inr (UInt32.toNat_inj.mp hn)

private theorem occupied_isDir {n : UInt32} (h : occupiedState.IsDir n) : n = 0 ∨ n = 1 := by
  have hsame : SameTree occupiedState nestedState := ⟨rfl, rfl, rfl, rfl, rfl⟩
  simpa using nested_treeOn.mem (hsame.isDir h)

private theorem occupied_ownership : BlockOwnership occupiedState := by
  refine ownership_of_single (b := fun n => 613 + n) ⟨by decide, by decide⟩ (by decide) ?_ ?_ ?_
  · intro n hn
    rcases occupied_inUse hn with rfl | rfl <;> decide +kernel
  · intro n hn
    rcases occupied_inUse hn with rfl | rfl <;> exact ⟨by decide, by decide, by decide⟩
  · intro m n hm hn
    rcases occupied_inUse hm with rfl | rfl <;> rcases occupied_inUse hn with rfl | rfl <;> decide

private theorem occupied_dir {n : UInt32} (h : occupiedState.InUse n) :
    WellFormedDir occupiedState (occupiedState.inodeOf n) := by
  have howns := occupied_ownership.owns n h
  rcases occupied_inUse h with rfl | rfl
  · exact ⟨howns, by decide +kernel, by decide +kernel, by decide +kernel, by decide +kernel,
      by decide +kernel, by decide +kernel, by decide +kernel, by decide +kernel⟩
  · exact ⟨howns, by decide +kernel, by decide +kernel, by decide +kernel, by decide +kernel,
      by decide +kernel, by decide +kernel, by decide +kernel, by decide +kernel⟩

private theorem occupied_lists {n : UInt32} {name : List UInt8} {e : DirEntry}
    (h : occupiedState.Lists n name e) : n = 0 ∧ name = path "d" ∧ e = ⟨1, ftDirectory⟩ := by
  obtain ⟨hn, hproper, hentry⟩ := h
  obtain ⟨x, hx, hname, he⟩ := entry_iff_slot.mp hentry
  rw [← hname] at hproper
  rw [← hname, ← he]
  rcases occupied_isDir hn with rfl | rfl
  · have hslots : ∀ x ∈ (occupiedState.inodeOf 0).slots occupiedState.disk,
        Proper ((occupiedState.inodeOf 0).nameIn occupiedState.disk x) →
          (occupiedState.inodeOf 0).nameIn occupiedState.disk x = path "d" ∧
          (occupiedState.inodeOf 0).entryIn occupiedState.disk x = ⟨1, ftDirectory⟩ := by
      decide +kernel
    exact ⟨rfl, hslots x hx hproper⟩
  · have hslots : ∀ x ∈ (occupiedState.inodeOf 1).slots occupiedState.disk,
        ¬ Proper ((occupiedState.inodeOf 1).nameIn occupiedState.disk x) := by
      decide +kernel
    exact absurd hproper (hslots x hx)

private theorem occupied_soundTree : SoundTree occupiedState := by
  have hsame : SameTree nestedState occupiedState := ⟨rfl, rfl, rfl, rfl, rfl⟩
  have hused : ∀ {n}, occupiedState.IsDir n → occupiedState.InUse n := by
    intro n hn
    rcases occupied_isDir hn with rfl | rfl <;> exact ⟨by decide, by decide⟩
  refine ⟨hsame.directoryTree nested_treeOn.directoryTree, by decide +kernel, occupied_ownership,
    fun hn => occupied_dir (hused hn), ?_, ?_, ?_⟩
  · intro n name e hn hname hentry
    refine hused (.entry hn hname hentry (child_directory ?_))
    obtain ⟨x, hx, hslot, he⟩ := entry_iff_slot.mp hentry
    rw [← hslot] at hname
    rw [← he]
    rcases occupied_isDir hn with rfl | rfl
    · have htypes : ∀ x ∈ (occupiedState.inodeOf 0).slots occupiedState.disk,
          (occupiedState.inodeOf 0).nameIn occupiedState.disk x ≠ [] →
          ((occupiedState.inodeOf 0).entryIn occupiedState.disk x).fType = ftDirectory := by
        decide +kernel
      exact htypes x hx hname
    · have htypes : ∀ x ∈ (occupiedState.inodeOf 1).slots occupiedState.disk,
          (occupiedState.inodeOf 1).nameIn occupiedState.disk x ≠ [] →
          ((occupiedState.inodeOf 1).entryIn occupiedState.disk x).fType = ftDirectory := by
        decide +kernel
      exact htypes x hx hname
  · intro n n' name name' e e' h h' _
    obtain ⟨hn, hname, -⟩ := occupied_lists h
    obtain ⟨hn', hname', -⟩ := occupied_lists h'
    exact ⟨hn.trans hn'.symm, hname.trans hname'.symm⟩
  · intro n name e h
    obtain ⟨-, -, he⟩ := occupied_lists h
    rw [he]
    decide

/-- The empty directory `/d` is removed. -/
theorem rmdir_removes_d : ∃ s', sysRmdir (path "/d") occupiedState = .ok (true, s') ∧
    DirRemoved occupiedState s' := by
  obtain ⟨s', h⟩ : ∃ s', sysRmdir (path "/d") occupiedState = .ok (true, s') :=
    Code.returns_of_toOption (by decide +kernel)
  refine ⟨s', h, ((rmdir_removes_iff occupied_soundTree rfl (by decide) h).2 rfl).mpr ?_⟩
  refine ⟨by decide, ?_⟩
  intro e n x _ hn hx hholds _
  obtain ⟨rfl, -, -⟩ := occupied_lists (occupied_soundTree.lists hn hx hholds)
  have hlast : ∀ y ∈ (occupiedState.inodeOf 0).slots occupiedState.disk, y.1 = 0 := by
    decide +kernel
  exact ⟨fun hcon => hcon.1 (hlast x hx), fun hcon => absurd hcon.1 (by decide)⟩

/-- `sys_rmdir("/d/.")` returns 0 and frees inode 1, and the entry `d` stays. -/
theorem rmdir_dot_keeps_entry : ∃ s', sysRmdir (path "/d/.") occupiedState = .ok (true, s') ∧
    ¬ DirRemoved occupiedState s' := by
  have hrun : ∃ out ∈ (sysRmdir (path "/d/.") occupiedState).toOption, out.1 = true ∧
      ∃ x ∈ (out.2.inodeOf 0).slots out.2.disk, (out.2.inodeOf 0).nameIn out.2.disk x = path "d" ∧
        (out.2.inodeOf 0).entryIn out.2.disk x = ⟨1, ftDirectory⟩ := by
    decide +kernel
  obtain ⟨⟨b, s'⟩, hout, rfl, hslot⟩ := hrun
  refine ⟨s', Code.ok_of_toOption hout, ?_⟩
  rintro ⟨n, name, e, hlist, -, -, hiff, -⟩
  obtain ⟨rfl, rfl, rfl⟩ := occupied_lists hlist
  have hkept : s'.Lists 0 (path "d") ⟨1, ftDirectory⟩ :=
    ⟨.root, ⟨by decide, by decide, by decide⟩, entry_iff_slot.mpr hslot⟩
  exact ((hiff _ _ _).mp hkept).2 ⟨rfl, rfl⟩

end Aitos.Fs
