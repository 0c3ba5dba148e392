import Aitos.Framework.Tokens
import Aitos.Framework.Walk
import Aitos.Fs.InodeTable
import Aitos.Fs.Syscall

/-!
# The directory tree

What the disk and the open inodes say about directories: which entries a directory has, which inodes
are directories of the tree, and to what a path resolves.
-/

namespace Aitos.Fs

open Framework

section Components

/-- The components of a path. -/
def components (p : Path) : List (List UInt8) := (p.splitOn slash).filter (· ≠ [])

private theorem components_eq_tokens (p : Path) : components p = tokens (· == slash) p := by
  rw [components, tokens, List.splitOn_eq_splitOnP]
  refine List.filter_congr fun c _ => ?_
  cases c <;> rfl

theorem components_slash (p : Path) : components (slash :: p) = components p := by
  rw [components_eq_tokens, components_eq_tokens]
  exact @tokens_cons_sep _ (· == slash) slash (beq_self_eq_true slash) p

private theorem components_dropWhile (p : Path) :
    components (p.dropWhile (· = slash)) = components p := by
  have hsplit := List.takeWhile_append_dropWhile (p := fun x => decide (x = slash)) (l := p)
  have hseps : ∀ x ∈ p.takeWhile (· = slash), (x == slash) = true := fun x hx => by
    simpa using List.mem_takeWhile_imp hx
  have happ := tokens_append_seps hseps (p.dropWhile (· = slash))
  rw [hsplit] at happ
  rw [components_eq_tokens, components_eq_tokens, happ]

theorem components_append {c d : Path} (hc : c ≠ []) (hslash : slash ∉ c)
    (hd : ∀ x, d.head? = some x → x = slash) :
    components (c ++ d) = c :: (if d = [] then none else some d).elim [] components := by
  have hword : ∀ x ∈ c, (x == slash) = false := fun x hx => by
    simpa using fun h : x = slash => hslash (h ▸ hx)
  cases d with
  | nil =>
      rw [List.append_nil, components_eq_tokens, tokens_word hword hc, if_pos rfl,
        Option.elim_none]
  | cons x d =>
      obtain rfl := hd x rfl
      have hsep : (fun x => x == slash) slash = true := rfl
      rw [components_eq_tokens, tokens_word_append hword hc hsep, if_neg (List.cons_ne_nil _ _),
        Option.elim_some, components_slash, components_eq_tokens]

theorem head_dropWhile {f : UInt8 → Bool} (p : Path) {x : UInt8}
    (h : (p.dropWhile f).head? = some x) : f x = false := by
  have hne : p.dropWhile f ≠ [] := by
    intro hnil
    rw [hnil] at h
    cases h
  have hhead := List.head_dropWhile_not f hne
  rw [List.head?_eq_some_head hne] at h
  rwa [Option.some.inj h] at hhead

theorem components_pathParse (p : Path) :
    components p = if (pathParse p).component = [] then []
      else (pathParse p).component :: (pathParse p).rest.elim [] components := by
  rw [← components_dropWhile]
  simp only [pathParse, List.span_eq_takeWhile_dropWhile]
  obtain ⟨q, hq⟩ : ∃ q, q = p.dropWhile (· = slash) := ⟨_, rfl⟩
  rw [← hq]
  cases q with
  | nil => rfl
  | cons x q =>
      have hx : x ≠ slash := by
        simpa using head_dropWhile (f := (· = slash)) p (by rw [← hq]; rfl)
      have hne : (x :: q).takeWhile (· ≠ slash) ≠ [] := by
        rw [List.takeWhile_cons_of_pos (by simpa using hx)]
        exact List.cons_ne_nil _ _
      have hslash : slash ∉ (x :: q).takeWhile (· ≠ slash) := fun hmem => by
        simpa using List.mem_takeWhile_imp hmem
      have happ := components_append hne hslash (d := (x :: q).dropWhile (· ≠ slash))
        fun y hy => by simpa using head_dropWhile _ hy
      rw [List.takeWhile_append_dropWhile] at happ
      rw [if_neg hne, happ]

theorem component_sound {p : Path} {c : List UInt8} (h : c ∈ components p) :
    c ≠ [] ∧ slash ∉ c ∧ ∀ x ∈ c, x ∈ p := by
  rw [components_eq_tokens] at h
  obtain ⟨hne, hword, hin⟩ := mem_tokens h
  exact ⟨hne, fun hmem => by simpa using hword slash hmem, hin⟩

theorem components_ne_nil {p : Path} {c : List UInt8} (h : c ∈ components p) : c ≠ [] :=
  (component_sound h).1

theorem mem_of_mem_components {p : Path} {c : List UInt8} (h : c ∈ components p) {x : UInt8}
    (hx : x ∈ c) : x ∈ p := (component_sound h).2.2 x hx

/-- The length of the path that names the components with one slash before each. -/
def pathLength (cs : List (List UInt8)) : Nat := (cs.map fun c => c.length + 1).sum

theorem pathLength_components_succ (p : Path) : pathLength (components p) ≤ p.length + 1 := by
  have hall : ((p.splitOn slash).map fun c => c.length + 1).sum = p.length + 1 := by
    induction p with
    | nil => rfl
    | cons x p ih =>
        rw [List.splitOn_cons_eq_if_modifyHead]
        split
        · simp [ih]
          omega
        · obtain ⟨d, ds, hds⟩ := List.exists_cons_of_ne_nil (List.splitOn_ne_nil slash p)
          rw [hds] at ih ⊢
          simp at ih ⊢
          omega
  rw [← hall]
  exact List.Sublist.sum_le_sum ((List.filter_sublist).map _) fun _ _ => Nat.zero_le _

theorem pathLength_components {p : Path} (h : p.head? = some slash) :
    pathLength (components p) ≤ p.length := by
  cases p with
  | nil => cases h
  | cons x p =>
      obtain rfl : x = slash := Option.some.inj h
      rw [components_slash]
      exact pathLength_components_succ p

theorem length_le_pathLength (cs : List (List UInt8)) : cs.length ≤ pathLength cs := by
  induction cs with
  | nil => exact Nat.zero_le _
  | cons c cs ih =>
      rw [pathLength, List.map_cons, List.sum_cons, List.length_cons]
      rw [pathLength] at ih
      omega

end Components

section Names

theorem cstr_eq {c : List UInt8} (hzero : 0 ∉ c) : ∀ {b : Bytes} {n : Nat}, c.length < n →
    (∀ i, i < c.length → b i = c.getD i 0) → b c.length = 0 → cstr b n = c := by
  induction c with
  | nil =>
      intro b n hn _ hend
      obtain ⟨n, rfl⟩ := Nat.exists_eq_succ_of_ne_zero (Nat.ne_of_gt hn)
      have hfirst : b 0 = 0 := hend
      rw [cstr, if_pos hfirst]
  | cons x c ih =>
      intro b n hn hchars hend
      obtain ⟨n, rfl⟩ := Nat.exists_eq_succ_of_ne_zero (Nat.ne_of_gt (Nat.zero_lt_of_lt hn))
      obtain ⟨hx, hc⟩ : (0 : UInt8) ≠ x ∧ 0 ∉ c := by simpa using hzero
      have hhead : b 0 = x := by simpa using hchars 0 (by simp)
      have htail : cstr (b.drop 1) n = c := by
        apply ih hc
        · simpa using hn
        · intro i hi
          have := hchars (i + 1) (by simpa using hi)
          rw [Bytes.drop, Nat.add_comm, this]
          simp
        · rw [Bytes.drop, Nat.add_comm]
          exact hend
      rw [cstr, hhead, if_neg hx.symm, htail]

theorem cstr_storeName {c : List UInt8} (hzero : 0 ∉ c) {name : Bytes} {n : Nat}
    (hn : c.length < n) (hend : name c.length = 0) : cstr (storeName name c) n = c := by
  apply cstr_eq hzero hn
  · intro i hi
    rw [storeName, Bytes.blit_of_lt _ _ _ _ (Nat.zero_le _) (by omega), Nat.sub_zero]
  · rw [storeName, Bytes.blit_of_outside _ _ _ _ (by omega)]
    exact hend

theorem storeName_head {c : List UInt8} (hzero : 0 ∉ c) {name : Bytes} (hname : name 0 = 0) :
    storeName name c 0 = 0 ↔ c = [] := by
  cases c with
  | nil => simp [storeName, Bytes.blit, hname]
  | cons x c =>
      have hx : x ≠ 0 := fun h => hzero (by simp [h])
      simp [storeName, Bytes.blit, hx]

theorem zero_not_mem_cstr (n : Nat) : ∀ b : Bytes, 0 ∉ cstr b n := by
  induction n with
  | zero => exact fun _ => List.not_mem_nil
  | succ n ih =>
      intro b
      rw [cstr]
      split
      · exact List.not_mem_nil
      · rename_i hb
        rw [List.mem_cons, not_or]
        exact ⟨Ne.symm hb, ih _⟩

theorem cstr_ne_nil {b : Bytes} {n : Nat} (h : b 0 ≠ 0) : cstr b (n + 1) ≠ [] := by
  rw [cstr, if_neg h]
  exact List.cons_ne_nil _ _

end Names

section Entries

/-- The sector `lba` as it is read. -/
def sectorOf (disk : Bytes) (lba : UInt32) : Bytes :=
  Bytes.zero.blit 0 512 (disk.drop (512 * lba.toNat))

/-- Some sector of the directory `ino` has the entry `e` called `name`. -/
def Inode.HasEntry (ino : Inode) (disk : Bytes) (name : List UInt8) (e : DirEntry) : Prop :=
  ∃ i < 140, ino.allBlocks disk i ≠ 0 ∧ ∃ k < entriesPerSec,
    entryName (sectorOf disk (ino.allBlocks disk i)) k = name ∧
      entryAt (sectorOf disk (ino.allBlocks disk i)) k = e

private theorem findEntry_some {buf : Bytes} {name : List UInt8} {e : DirEntry} (n : Nat) :
    ∀ {k : Nat}, findEntry buf name k n = some e → ∃ j, k ≤ j ∧ j < k + n ∧ entryName buf j = name ∧
      entryAt buf j = e := by
  induction n with
  | zero =>
      intro k h
      cases h
  | succ n ih =>
      intro k h
      rw [findEntry] at h
      split at h
      · rename_i hname
        exact ⟨k, le_rfl, by omega, hname, Option.some.inj h⟩
      · obtain ⟨j, h₁, h₂, hj⟩ := ih h
        exact ⟨j, by omega, by omega, hj⟩

private theorem findEntry_none {buf : Bytes} {name : List UInt8} (n : Nat) : ∀ {k : Nat},
    findEntry buf name k n = none → ∀ j, k ≤ j → j < k + n → entryName buf j ≠ name := by
  induction n with
  | zero =>
      intro k _ j h₁ h₂
      omega
  | succ n ih =>
      intro k h j h₁ h₂
      rw [findEntry] at h
      split at h
      · cases h
      · rename_i hname
        by_cases hj : j = k
        · rw [hj]
          exact hname
        · exact ih h j (by omega) (by omega)

private theorem searchBlocks_some {disk : Bytes} {blocks : Nat → UInt32} {name : List UInt8}
    {e : DirEntry} (n : Nat) : ∀ {i : Nat}, searchBlocks disk blocks name i n = some e →
      ∃ j, j < i + n ∧ blocks j ≠ 0 ∧ ∃ k < entriesPerSec,
        entryName (sectorOf disk (blocks j)) k = name ∧ entryAt (sectorOf disk (blocks j)) k = e := by
  induction n with
  | zero =>
      intro i h
      cases h
  | succ n ih =>
      intro i h
      rw [searchBlocks] at h
      split at h
      · obtain ⟨j, h₁, hj⟩ := ih h
        exact ⟨j, by omega, hj⟩
      · rename_i hblock
        split at h
        · rename_i e' hfound
          obtain rfl := Option.some.inj h
          obtain ⟨k, -, hk, hentry⟩ := findEntry_some _ hfound
          exact ⟨i, by omega, hblock, k, by simpa using hk, hentry⟩
        · obtain ⟨j, h₁, hj⟩ := ih h
          exact ⟨j, by omega, hj⟩

private theorem searchBlocks_none {disk : Bytes} {blocks : Nat → UInt32} {name : List UInt8}
    (n : Nat) : ∀ {i : Nat}, searchBlocks disk blocks name i n = none →
      ∀ j, i ≤ j → j < i + n → blocks j ≠ 0 → ∀ k < entriesPerSec,
        entryName (sectorOf disk (blocks j)) k ≠ name := by
  induction n with
  | zero =>
      intro i _ j h₁ h₂
      omega
  | succ n ih =>
      intro i h j h₁ h₂ hblock k hk
      rw [searchBlocks] at h
      by_cases hj : j = i
      · subst hj
        rw [if_neg hblock] at h
        split at h
        · cases h
        · rename_i hfound
          exact findEntry_none _ hfound k (Nat.zero_le _) (by simpa using hk)
      · split at h
        · exact ih h j (by omega) (by omega) hblock k hk
        · split at h
          · cases h
          · exact ih h j (by omega) (by omega) hblock k hk

theorem hasEntry_of_lookup {ino : Inode} {disk : Bytes} {name : List UInt8} {e : DirEntry}
    (h : ino.lookup disk name = some e) : ino.HasEntry disk name e := by
  obtain ⟨i, hi, hblock, hentry⟩ := searchBlocks_some _ h
  exact ⟨i, by simpa using hi, hblock, hentry⟩

private theorem lookup_of_hasEntry {ino : Inode} {disk : Bytes} {name : List UInt8} {e : DirEntry}
    (h : ino.HasEntry disk name e) : ∃ e', ino.lookup disk name = some e' := by
  cases hlookup : ino.lookup disk name with
  | some e' => exact ⟨e', rfl⟩
  | none =>
      obtain ⟨i, hi, hblock, k, hk, hname, -⟩ := h
      have hne := searchBlocks_none _ hlookup i (Nat.zero_le _) (by simpa using hi) hblock k hk
      exact absurd hname hne

theorem lookup_congr {a b : Inode} (h : a.iSectors = b.iSectors) (disk : Bytes)
    (name : List UInt8) : a.lookup disk name = b.lookup disk name := by
  have hblocks : a.allBlocks disk = b.allBlocks disk := by
    funext i
    rw [Inode.allBlocks, Inode.allBlocks, h]
  rw [Inode.lookup, Inode.lookup, hblocks]

end Entries

section Tree

/-- Inode `n`: the one in memory when it is open, otherwise the copy in the inode table. -/
def State.inodeOf (s : State) (n : UInt32) : Inode :=
  match s.findInode n with
  | some p => s.inode p
  | none => Inode.ofBytes (s.slot n.toNat)

/-- Directory `n` has the entry `e` called `name`. -/
def State.Entry (s : State) (n : UInt32) (name : List UInt8) (e : DirEntry) : Prop :=
  (s.inodeOf n).HasEntry s.disk name e

/-- The directory an entry leads to. -/
def DirEntry.child (e : DirEntry) : Option UInt32 :=
  if e.fType = ftDirectory then some e.iNo else none

/-- The inode numbers of the directories of the tree. -/
inductive State.IsDir (s : State) : UInt32 → Prop where
  | root : s.IsDir 0
  | entry {n m : UInt32} {name : List UInt8} {e : DirEntry} : s.IsDir n → name ≠ [] →
      s.Entry n name e → e.child = some m → s.IsDir m

/-- The directory tree is well formed: `root_dir` is open on inode 0, the directories have their
numbers in range and in their inodes, the names in a directory are different, entries are files or
directories, and the root is its own parent. -/
structure WellFormedTree (s : State) : Prop where
  rootDir : s.findInode 0 = some (s.dir rootDir).inode
  number : ∀ {n}, s.IsDir n → n.toNat < 4096 ∧ (s.inodeOf n).iNo = n
  unique : ∀ {n name e e'}, s.IsDir n → name ≠ [] → s.Entry n name e → s.Entry n name e' → e = e'
  typed : ∀ {n name e}, s.IsDir n → name ≠ [] → s.Entry n name e →
    (e.fType = ftDirectory ∨ e.fType = ftRegular) ∧ e.iNo.toNat < 4096
  dot : s.Entry 0 dot ⟨0, ftDirectory⟩
  dotdot : s.Entry 0 dotdot ⟨0, ftDirectory⟩

/-- The search in one directory -/
def State.find (s : State) (n : UInt32) (name : List UInt8) : Option DirEntry :=
  (s.inodeOf n).lookup s.disk name

theorem WellFormedTree.finds {s : State} (hs : WellFormedTree s) :
    Finds s.find s.Entry DirEntry.child s.IsDir (· ≠ []) where
  find {n c} hn hc e := by
    constructor
    · exact hasEntry_of_lookup
    · intro h
      obtain ⟨e', he'⟩ := lookup_of_hasEntry h
      have hsame := hs.unique hn hc h (hasEntry_of_lookup he')
      rw [hsame]
      exact he'
  child hn hc hentry hchild := .entry hn hc hentry hchild

/-- The first sector of the root directory. -/
def State.rootSector (s : State) : Bytes := sectorOf s.disk ((s.inodeOf 0).allBlocks s.disk 0)

/-- The root directory has one sector, its own two entries and apart from them only files. -/
def State.FlatRoot (s : State) : Prop :=
  s.findInode 0 = some (s.dir rootDir).inode ∧ (s.inodeOf 0).allBlocks s.disk 0 ≠ 0 ∧
  (∀ i < 140, i ≠ 0 → (s.inodeOf 0).allBlocks s.disk i = 0) ∧
  (∀ k < entriesPerSec, entryName s.rootSector k ≠ [] →
    entryAt s.rootSector k = ⟨0, ftDirectory⟩ ∨
      (entryAt s.rootSector k).fType = ftRegular ∧ (entryAt s.rootSector k).iNo.toNat < 4096) ∧
  (∀ k < entriesPerSec, ∀ l < entriesPerSec, entryName s.rootSector k ≠ [] →
    entryName s.rootSector k = entryName s.rootSector l →
    entryAt s.rootSector k = entryAt s.rootSector l) ∧
  (∃ k < entriesPerSec, entryName s.rootSector k = Fs.dot ∧
    entryAt s.rootSector k = ⟨0, ftDirectory⟩) ∧
  ∃ k < entriesPerSec, entryName s.rootSector k = Fs.dotdot ∧
    entryAt s.rootSector k = ⟨0, ftDirectory⟩

instance (s : State) : Decidable s.FlatRoot := inferInstanceAs (Decidable (_ ∧ _))

theorem State.FlatRoot.wellFormedTree {s : State} (h : s.FlatRoot) : WellFormedTree s := by
  obtain ⟨hroot, hblock, hone, hentries, hnames, ⟨k, hk, hdot⟩, ⟨l, hl, hdotdot⟩⟩ := h
  have hentry : ∀ {name e}, s.Entry 0 name e → ∃ k < entriesPerSec,
      entryName s.rootSector k = name ∧ entryAt s.rootSector k = e := by
    rintro name e ⟨i, hi, hne, hk⟩
    by_cases hzero : i = 0
    · rw [hzero] at hk
      exact hk
    · exact absurd (hone i hi hzero) hne
  have hno : (s.inodeOf 0).iNo = 0 := by
    rw [State.inodeOf, hroot]
    simpa using List.find?_some hroot
  have honly : ∀ {n}, s.IsDir n → n = 0 := by
    intro n hn
    induction hn with
    | root => rfl
    | @entry n m name e hn hname he hchild ih =>
        rw [ih] at he
        obtain ⟨j, hj, hjname, rfl⟩ := hentry he
        rcases hentries j hj (by rw [hjname]; exact hname) with heq | ⟨hreg, -⟩
        · rw [heq] at hchild
          exact (Option.some.inj hchild).symm
        · rw [DirEntry.child, hreg, if_neg (by decide)] at hchild
          cases hchild
  refine ⟨hroot, fun hn => ?_, fun hn hname he he' => ?_, fun hn hname he => ?_, ?_, ?_⟩
  · rw [honly hn]
    exact ⟨by decide, hno⟩
  · rw [honly hn] at he he'
    obtain ⟨i, hi, hiname, rfl⟩ := hentry he
    obtain ⟨j, hj, hjname, rfl⟩ := hentry he'
    exact hnames i hi j hj (by rw [hiname]; exact hname) (hiname.trans hjname.symm)
  · rw [honly hn] at he
    obtain ⟨j, hj, hjname, rfl⟩ := hentry he
    rcases hentries j hj (by rw [hjname]; exact hname) with heq | ⟨hreg, hlt⟩
    · rw [heq]
      exact ⟨Or.inl rfl, by decide⟩
    · exact ⟨Or.inr hreg, hlt⟩
  · exact ⟨0, by decide, hblock, k, hk, hdot⟩
  · exact ⟨0, by decide, hblock, l, hl, hdotdot⟩

/-- Following all components of the path from the root ends at the entry `e`. -/
def State.ResolvesTo (s : State) (pathname : Path) (e : DirEntry) : Prop :=
  Resolves s.Entry DirEntry.child 0 (components pathname) e

end Tree

end Aitos.Fs
