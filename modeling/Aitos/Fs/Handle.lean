import Aitos.Fs.Cwd

/-!
# The handle of a search

`search_file` hands out a handle on the directory in which it looked the last component up.  Whether
or not the heap serves every request of the search, that directory is one of the tree, and the entry
found in it is the one that the path resolves to.
-/

namespace Aitos.Fs

open Framework

/-- Two copies of an inode that may differ in the number of openers and the writer's mark only. -/
structure SameFile (a b : Inode) : Prop where
  iNo : a.iNo = b.iNo
  iSize : a.iSize = b.iSize
  iSectors : a.iSectors = b.iSectors

instance : IsPreorder Inode SameFile where
  refl _ := ⟨rfl, rfl, rfl⟩
  trans _ _ _ h h' := ⟨h.iNo.trans h'.iNo, h.iSize.trans h'.iSize, h.iSectors.trans h'.iSectors⟩

/-- From `s` to `s₁` inodes were opened at most: what was found before is found again, and every
inode is the same file. -/
structure OpensOnly (s s₁ : State) : Prop where
  found : ∀ {k q}, s.findInode k = some q → s₁.findInode k = some q
  same : ∀ k, SameFile (s₁.inodeOf k) (s.inodeOf k)

instance : IsPreorder State OpensOnly where
  refl _ := ⟨id, fun _ => refl_of SameFile _⟩
  trans _ _ _ h h' := ⟨fun hq => h'.found (h.found hq),
    fun k => trans_of SameFile (h'.same k) (h.same k)⟩

/-- The handle `d` is the only trace since `s`, and it is on the inode that is found as `n`. -/
structure OnHandle (s s₁ : State) (d : DirPtr) (n : UInt32) : Prop extends OpensOnly s s₁ where
  holding : Holding s s₁ d
  here : s₁.findInode n = some (s₁.dir d).inode

section Open

variable {s s₁ s₂ s' : State} {d : DirPtr} {n : UInt32} {p : Ptr}

theorem Restored.opensOnly (ht : Tidy s) (h : Restored s s₁) : OpensOnly s s₁ := by
  refine ⟨?_, ?_⟩
  · intro k q hq
    rw [h.findInode ht]
    exact hq
  · intro k
    rw [(h.sameTree ht).inodeOf]
    exact refl_of SameFile _

private theorem opensOnly_countUp (s : State) (p : Ptr) : OpensOnly s (s.countUp p) := by
  have hno : ∀ q, ((s.countUp p).inode q).iNo = (s.inode q).iNo := by
    intro q
    by_cases hq : q = p
    · rw [hq]
      simp [State.countUp]
    · simp [State.countUp, hq]
  have hfind : ∀ k, (s.countUp p).findInode k = s.findInode k := by
    intro k
    change List.find? _ s.openInode = List.find? _ s.openInode
    simp only [hno]
  refine ⟨?_, ?_⟩
  · intro k q hq
    rw [hfind]
    exact hq
  · intro k
    rw [State.inodeOf, State.inodeOf, hfind]
    cases s.findInode k with
    | none => exact refl_of SameFile _
    | some q =>
        by_cases hq : q = p
        · rw [hq]
          refine ⟨?_, ?_, ?_⟩ <;> simp [State.countUp]
        · have hsame : (s.countUp p).inode q = s.inode q := Function.update_of_ne hq _ _
          dsimp only
          rw [hsame]
          exact refl_of SameFile _

private theorem opensOnly_pushInode (ht : Tidy s) (hnone : s.findInode n = none)
    (hno : (s.inodeOf n).iNo = n) :
    OpensOnly s (s.pushInode (s.load n.toNat)) ∧
      (s.pushInode (s.load n.toNat)).findInode n = some s.nextInode := by
  have hload : (s.load n.toNat).iNo = n := by
    rw [State.inodeOf, hnone] at hno
    exact hno
  have hhead : ((s.pushInode (s.load n.toNat)).inode s.nextInode) = s.load n.toNat :=
    Function.update_self _ _ _
  have hold : ∀ q ∈ s.openInode, (s.pushInode (s.load n.toNat)).inode q = s.inode q := by
    intro q hq
    exact Function.update_of_ne (Nat.ne_of_lt (ht.listed q hq).1) _ _
  have hnew : (s.pushInode (s.load n.toNat)).findInode n = some s.nextInode := by
    change List.find? _ (s.nextInode :: s.openInode) = _
    rw [List.find?_cons_of_pos]
    rw [hhead, hload]
    exact decide_eq_true rfl
  have hfind : ∀ k, k ≠ n →
      (s.pushInode (s.load n.toNat)).findInode k = s.findInode k := by
    intro k hk
    change List.find? _ (s.nextInode :: s.openInode) = List.find? _ s.openInode
    rw [List.find?_cons_of_neg]
    · apply List.find?_congr
      intro q hq
      rw [hold q hq]
    · rw [hhead, hload]
      simpa using hk.symm
  refine ⟨⟨?_, ?_⟩, hnew⟩
  · intro k q hq
    have hk : k ≠ n := by
      rintro rfl
      rw [hnone] at hq
      cases hq
    rw [hfind k hk]
    exact hq
  · intro k
    by_cases hk : k = n
    · rw [hk, State.inodeOf, State.inodeOf, hnew, hnone]
      dsimp only
      rw [hhead]
      exact ⟨rfl, rfl, rfl⟩
    · rw [State.inodeOf, State.inodeOf, hfind k hk]
      cases hq : s.findInode k with
      | none => exact refl_of SameFile _
      | some q =>
          dsimp only
          rw [hold q (List.mem_of_find?_eq_some hq)]
          exact refl_of SameFile _

private theorem inodeOpen_opensOnly (ht : Tidy s) (hn : n.toNat < 4096)
    (hno : (s.inodeOf n).iNo = n)
    (h : inodeOpen n s = .ok (p, s₁)) : OpensOnly s s₁ ∧ s₁.findInode n = some p := by
  rcases (inodeOpen_ok hn).mp h with ⟨hfind, rfl⟩ | ⟨hnone, rfl, rfl, -⟩
  · have hsame := opensOnly_countUp s p
    exact ⟨hsame, hsame.found hfind⟩
  · obtain ⟨hsame, hfound⟩ := opensOnly_pushInode ht hnone hno
    exact ⟨⟨hsame.found, hsame.same⟩, hfound⟩

theorem dirOpen_onHandle (ht : Tidy s) (hr : Restored s s₁) (hn : n.toNat < 4096)
    (hno : (s.inodeOf n).iNo = n) (h : dirOpen n s₁ = .ok (d, s')) :
    OnHandle s s' d n ∧ d ≠ rootDir := by
  obtain ⟨hholding, hd⟩ := dirOpen_holding ht hr h
  simp only [dirOpen, Code.bind_ok, Code.get_bind, Code.modify_bind, Code.pure_ok] at h
  obtain ⟨_, s₂, h₂, p, s₃, h₃, _, s₄, h₄, rfl, rfl⟩ := h
  have hr₂ := trans_of Restored hr (restored_sysMalloc _ _ _ h₂)
  have hbefore := hr₂.opensOnly ht
  obtain ⟨hsame, hp⟩ := inodeOpen_opensOnly (hr₂.tidy ht) hn
    ((hbefore.same n).iNo.trans hno) h₃
  obtain ⟨rfl, -⟩ := require_ok.mp h₄
  have hall := trans_of OpensOnly hbefore hsame
  have hdir : ((s₄.pushDir p).dir s₄.nextDir).inode = p := by simp
  refine ⟨⟨⟨hall.found, hall.same⟩, hholding, ?_⟩, hd⟩
  rw [hdir]
  exact hp

theorem OnHandle.root (hroot : s.findInode 0 = some (s.dir rootDir).inode) :
    OnHandle s s rootDir 0 :=
  ⟨refl_of OpensOnly s, Or.inl ⟨rfl, refl_of Restored s⟩, hroot⟩

theorem OnHandle.restored (ht : Tidy s) (hroot : s.findInode 0 = some (s.dir rootDir).inode)
    (h : OnHandle s s₁ d n) (h' : Restored s₁ s₂) : OnHandle s s₂ d n := by
  have hd := (h.holding.ptr ht (ht.root_lt hroot)).1
  have hafter := h'.opensOnly (h.holding.tidy ht)
  refine ⟨trans_of OpensOnly h.toOpensOnly hafter, h.holding.restored h', ?_⟩
  rw [h'.dir d hd]
  exact hafter.found h.here

theorem OnHandle.dirInode (h : OnHandle s s₁ d n) : SameFile (s₁.dirInode d) (s.inodeOf n) := by
  have hsame := h.same n
  rw [State.inodeOf, h.here] at hsame
  exact hsame

private theorem searchDirEntry_some {name : List UInt8} {e : DirEntry}
    (h : searchDirEntry d name s = .ok (some e, s')) :
    (s.dirInode d).lookup s.disk name = some e := by
  rw [searchDirEntry] at h
  obtain ⟨first, s₁, hmalloc, hrest⟩ := Code.bind_ok.mp h
  obtain ⟨-, rfl⟩ := sysMalloc_ok.mp hmalloc
  split at hrest
  · obtain ⟨hnone, -⟩ := Code.pure_ok.mp hrest
    cases hnone
  · simp only [Code.bind_ok, sysMalloc_ok, require_ok, Code.get_bind, sysFree_ok, Code.pure_ok]
      at hrest
    obtain ⟨_, s₂, ⟨-, rfl⟩, _, s₃, ⟨rfl, -⟩, _, s₄, rfl, _, s₅, rfl, hlookup, -⟩ := hrest
    exact hlookup.symm

theorem OnHandle.entry (h : OnHandle s s₁ d n) {name : List UInt8} {e : DirEntry}
    (hfound : searchDirEntry d name s₁ = .ok (some e, s')) : s.Entry n name e := by
  have hlookup := searchDirEntry_some hfound
  rw [h.holding.framed.disk, lookup_congr h.dirInode.iSectors] at hlookup
  exact hasEntry_of_lookup hlookup

end Open

/-- The buffer holds the component `c`; of a component that is no name of an entry it may hold
more. -/
structure NameBuffer (name : Bytes) (c : List UInt8) : Prop where
  short : c.length ≤ 15 → cstr name 512 = c
  long : 16 ≤ c.length → 16 ≤ (cstr name 512).length

section Names

private theorem length_cstr (n : Nat) : ∀ {b : Bytes} {k : Nat}, (∀ i < k, b i ≠ 0) → k ≤ n →
    k ≤ (cstr b n).length := by
  induction n with
  | zero =>
      intro b k _ hk
      omega
  | succ n ih =>
      intro b k hne hk
      cases k with
      | zero => exact Nat.zero_le _
      | succ k =>
          have hhead : b 0 ≠ 0 := hne 0 (Nat.zero_lt_succ k)
          have htail := @ih (b.drop 1) k (fun i hi => hne (1 + i) (by omega)) (by omega)
          rw [cstr, if_neg hhead, List.length_cons]
          omega

private theorem nameBuffer_storeName {c : List UInt8} (hzero : 0 ∉ c) {name : Bytes}
    (hname : ∀ i < 16, name i = 0) : NameBuffer (storeName name c) c := by
  refine ⟨fun hlen => cstr_storeName hzero (by omega) (hname _ (by omega)), ?_⟩
  intro hlen
  apply length_cstr
  · intro i hi
    rw [storeName, Bytes.blit_of_lt _ _ _ _ (Nat.zero_le _) (by omega), Nat.sub_zero,
      List.getD_eq_getElem _ _ (by omega)]
    intro hbyte
    exact hzero (hbyte ▸ List.getElem_mem _)
  · decide

end Names

/-- What the search has found when it hands out `r` with a handle on directory `n`: the entry `e`,
under the last component of the path. -/
structure Target (s s₁ : State) (pathname : Path) (r : Searched) (n : UInt32) (c : List UInt8)
    (e : DirEntry) : Prop where
  handle : OnHandle s s₁ r.parentDir n
  isDir : s.IsDir n
  last : (components pathname).getLast? = some c
  entry : s.Entry n c e
  resolves : s.ResolvesTo pathname e
  iNo : e.iNo = r.inodeNo
  fType : e.fType = ftDirectory

theorem Target.name_ne {s s₁ : State} {pathname : Path} {r : Searched} {n : UInt32}
    {c : List UInt8} {e : DirEntry} (h : Target s s₁ pathname r n c e) : c ≠ [] :=
  components_ne_nil (List.mem_of_getLast? h.last)

/-- What the loop of `search_file` knows on directory `n` when the components in `pre` are behind
it: the entry found last is that of `n`, and it is in directory `no`. -/
inductive Walked (s : State) (no n : UInt32) : List (List UInt8) → Option DirEntry → Prop where
  | start : n = 0 → Walked s no n [] none
  | found {pre : List (List UInt8)} {c : List UInt8} {e : DirEntry} : s.IsDir no →
      s.Entry no c e → Resolves s.Entry DirEntry.child 0 (pre ++ [c]) e → e.child = some n →
      Walked s no n (pre ++ [c]) (some e)

section Search

variable {s s₁ s' : State} {pathname : Path} {d : DirPtr} {n no : UInt32}

theorem NameBuffer.ne_nil {name : Bytes} {c : List UInt8} (h : NameBuffer name c) (hc : c ≠ []) :
    name 0 ≠ 0 := by
  intro hzero
  have hnil : cstr name 512 = [] := by rw [cstr, if_pos hzero]
  by_cases hlen : c.length ≤ 15
  · exact hc ((h.short hlen).symm.trans hnil)
  · have hlong := h.long (by omega)
    rw [hnil] at hlong
    cases hlong

theorem Walked.next {pre : List (List UInt8)} {dirE : Option DirEntry} {c : List UInt8}
    {e : DirEntry} (h : Walked s no n pre dirE) (hn : s.IsDir n) (hentry : s.Entry n c e)
    (hdir : e.fType = ftDirectory) : Walked s n e.iNo (pre ++ [c]) (some e) := by
  cases h with
  | start hzero =>
      rw [hzero] at hn hentry ⊢
      exact .found hn hentry (.last hentry) (child_directory hdir)
  | found hno _ hres hchild =>
      exact .found hn hentry (hres.concat hchild hentry) (child_directory hdir)

/-- The last name was found, and the handle goes back to the directory of its entry. -/
private theorem target_of_walked (ht : Tidy s) (hs : DirectoryTree s) (hd : OnHandle s s₁ d n)
    {e : DirEntry} (hwalked : Walked s no n (components pathname) (some e)) {s₂ s₃ : State}
    {u : Unit} (hclose : dirClose d s₁ = .ok (u, s₂)) {d' : DirPtr}
    (hopen : dirOpen no s₂ = .ok (d', s₃)) (searched : Path) :
    ∃ c, Target s s₃ pathname ⟨e.iNo, searched, d', ftDirectory⟩ no c e := by
  have hback := dirClose_restored ht hd.holding hclose
  generalize hall : components pathname = cs at hwalked
  cases hwalked with
  | @found pre c _ hno hentry hres hchild =>
      obtain ⟨hlt, hnum⟩ := hs.number hno
      refine ⟨c, (dirOpen_onHandle ht hback hlt hnum hopen).1, hno, ?_, hentry, ?_, rfl,
        fType_of_child hchild⟩
      · rw [hall, List.getLast?_concat]
      · rw [State.ResolvesTo, hall]
        exact hres

/-- What is found under the name in the buffer is the entry of the component, since stored names
are short. -/
private theorem entry_of_buffer (hs : DirectoryTree s) (hd : OnHandle s s₁ d n) (hn : s.IsDir n)
    {name : Bytes} {cs : List (List UInt8)} (hname : NameBuffer name (cs.headD []))
    (hne : name 0 ≠ 0) {e : DirEntry}
    (hsearch : searchDirEntry d (cstr name 512) s₁ = .ok (some e, s')) :
    ∃ c cs', cs = c :: cs' ∧ s.Entry n c e ∧
      (e.fType = ftDirectory ∨ e.fType = ftRegular) := by
  have hentry : s.Entry n (cstr name 512) e := hd.entry hsearch
  have hcne : cstr name 512 ≠ [] := cstr_ne_nil hne
  have hlen : (cstr name 512).length ≤ 15 := by
    obtain ⟨x, hx, hxname, -⟩ := entry_iff_slot.mp hentry
    rw [← hxname]
    exact (hs.names hn hx).1
  cases cs with
  | nil => exact absurd (hname.short (Nat.zero_le _)) hcne
  | cons c cs' =>
      have hbuf : NameBuffer name c := hname
      have hc : cstr name 512 = c := by
        by_cases hshort : c.length ≤ 15
        · exact hbuf.short hshort
        · have hlong := hbuf.long (by omega)
          omega
      exact ⟨c, cs', rfl, hc ▸ hentry, (hs.typed hn hcne hentry).1⟩

private theorem nameBuffer_next (name : Bytes) {cs : List (List UInt8)} (hcs : ∀ c ∈ cs, 0 ∉ c) :
    NameBuffer (storeName (name.fill 0 16 0) (cs.headD [])) (cs.headD []) := by
  apply nameBuffer_storeName
  · intro hzero
    cases cs with
    | nil => exact List.not_mem_nil hzero
    | cons c cs' => exact hcs c List.mem_cons_self hzero
  · intro i hi
    have hfill := Bytes.fill_add name 0 16 (v := 0) hi
    rwa [Nat.zero_add] at hfill

private theorem searchLoop_target (ht : Tidy s) (hs : DirectoryTree s) (k : Nat) : ∀ {s₁ : State}
    {subPath : Option Path} {name : Bytes} {d : DirPtr} {n no : UInt32} {dirE : Option DirEntry}
    {searched : Path} {r : Searched} {pre cs : List (List UInt8)}, OnHandle s s₁ d n →
      s.IsDir n → NameBuffer name (cs.headD []) → (∀ c ∈ cs, c ≠ [] ∧ 0 ∉ c) →
      (cs ≠ [] → subPath.elim [] components = cs.tail) → components pathname = pre ++ cs →
      Walked s no n pre dirE →
      searchLoop k subPath name d no dirE searched s₁ = .ok (r, s') → r.fileType = ftDirectory →
      ∃ n c e, Target s s' pathname r n c e := by
  induction k with
  | zero =>
      intro s₁ subPath name d n no dirE searched r pre cs _ _ _ _ _ _ _ h
      exact (fault_ok.mp h).elim
  | succ k ih =>
      intro s₁ subPath name d n no dirE searched r pre cs hd hn hname hcs hsub hall hwalked h hdir
      rw [searchLoop] at h
      split at h
      · rename_i hzero
        have hnil : cs = [] := by
          cases cs with
          | nil => rfl
          | cons c cs => exact absurd hzero (hname.ne_nil (hcs c List.mem_cons_self).1)
        rw [hnil, List.append_nil] at hall
        rw [← hall] at hwalked
        obtain ⟨_, s₂, hclose, hrest⟩ := Code.bind_ok.mp h
        obtain ⟨d', s₃, hopen, hret⟩ := Code.bind_ok.mp hrest
        cases dirE with
        | none => exact (fault_ok.mp hret).elim
        | some e =>
            obtain ⟨rfl, rfl⟩ := Code.pure_ok.mp hret
            obtain ⟨c, htarget⟩ := target_of_walked ht hs hd hwalked hclose hopen searched
            exact ⟨no, c, e, htarget⟩
      · rename_i hne
        simp only [Code.bind_ok, assert_ok, require_ok] at h
        obtain ⟨_, s₂, ⟨rfl, -⟩, _, s₃, ⟨rfl, -⟩, found, s₄, hsearch, hrest⟩ := h
        have hd₄ := hd.restored ht hs.rootDir (restored_searchDirEntry _ _ _ _ _ hsearch)
        cases found with
        | none =>
            obtain ⟨rfl, -⟩ := Code.pure_ok.mp hrest
            have hunknown : ftUnknown = ftDirectory := hdir
            exact absurd hunknown (by decide)
        | some e =>
            obtain ⟨c, cs', rfl, hentry, htyped⟩ := entry_of_buffer hs hd hn hname hne hsearch
            have hcs' : ∀ c' ∈ cs', c' ≠ [] ∧ 0 ∉ c' :=
              fun c' hc' => hcs c' (List.mem_cons_of_mem _ hc')
            simp only at hrest
            split at hrest
            · rename_i htype
              rw [Code.get_bind] at hrest
              obtain ⟨_, s₅, hclose, hrest₅⟩ := Code.bind_ok.mp hrest
              obtain ⟨d', s₆, hopen, hloop⟩ := Code.bind_ok.mp hrest₅
              have hback := dirClose_restored ht hd₄.holding hclose
              have hchild : s.IsDir e.iNo :=
                .entry hn (hcs c List.mem_cons_self).1 hentry (child_directory htype)
              obtain ⟨hlt, hnum⟩ := hs.number hchild
              have hno : (s₄.dirInode d).iNo = n := by
                rw [hd₄.dirInode.iNo]
                exact (hs.number hn).2
              rw [hno] at hloop
              obtain ⟨hcomp, hsubRest⟩ := nextComponent (hsub (List.cons_ne_nil _ _))
              refine ih (dirOpen_onHandle ht hback hlt hnum hopen).1 hchild ?_ hcs' hsubRest ?_
                (hwalked.next hn hentry htype) hloop hdir
              · rw [hcomp, List.tail_cons]
                exact nameBuffer_next name fun c' hc' => (hcs' c' hc').2
              · rw [hall, List.append_assoc]
                rfl
            · rename_i htype
              rw [if_pos (htyped.resolve_left htype)] at hrest
              obtain ⟨rfl, -⟩ := Code.pure_ok.mp hrest
              have hfile : ftRegular = ftDirectory := hdir
              exact absurd hfile (by decide)

/-- When `search_file` hands out a directory other than the root, its handle is on the directory in
which the last component names it. -/
theorem searchFile_target {r : Searched} (ht : Tidy s) (hs : DirectoryTree s)
    (hzero : 0 ∉ pathname) (h : searchFile pathname s = .ok (r, s')) (hroot : r.inodeNo ≠ 0)
    (hdir : r.fileType = ftDirectory) : ∃ n c e, Target s s' pathname r n c e := by
  rw [searchFile] at h
  split at h
  · obtain ⟨rfl, -⟩ := Code.pure_ok.mp h
    exact absurd rfl hroot
  · simp only [Code.bind_ok, assert_ok] at h
    obtain ⟨_, s₁, ⟨rfl, -⟩, hloop⟩ := h
    have hcs : ∀ c ∈ components pathname, c ≠ [] ∧ 0 ∉ c := fun c hc =>
      ⟨components_ne_nil hc, fun hz => hzero (mem_of_mem_components hc hz)⟩
    have hparse := components_pathParse pathname
    refine searchLoop_target ht hs _ (OnHandle.root hs.rootDir) .root ?_ hcs ?_
      (List.nil_append _).symm (.start rfl) hloop hdir
    · by_cases hnil : (pathParse pathname).component = []
      · rw [if_pos hnil] at hparse
        rw [hparse, hnil]
        exact nameBuffer_storeName List.not_mem_nil fun _ _ => rfl
      · rw [if_neg hnil] at hparse
        rw [hparse] at hcs ⊢
        exact nameBuffer_storeName (hcs _ List.mem_cons_self).2 fun _ _ => rfl
    · intro hne
      by_cases hnil : (pathParse pathname).component = []
      · rw [if_pos hnil] at hparse
        exact absurd hparse hne
      · rw [if_neg hnil] at hparse
        rw [hparse]
        rfl

end Search

end Aitos.Fs
