import Aitos.Proc.Switch

/-!
# Every task goes on where it was left

A task that does not run is described by the context `switch_to` will load for it.  Saving a
context, `thread_create` and `build_child_stack` each produce one; nothing the running task does
touches it; and loading it brings the registers, the stack pointer and the stack back.
-/

namespace Aitos.Proc.Switch

open Framework

section Pages

variable {a p : Word}

private theorem toNat_pageOf (a : Word) : (pageOf a).toNat = a.toNat / 4096 * 4096 := by
  have hshift : pageOf a = (a >>> 12) <<< 12 := by
    apply BitVec.eq_of_getLsbD_eq
    intro i hi
    rw [pageOf, BitVec.getLsbD_and, BitVec.getLsbD_shiftLeft, BitVec.getLsbD_ushiftRight]
    by_cases hlow : i < 12
    · have hmask : BitVec.getLsbD 0xfffff000#32 i = false := by
        interval_cases i <;> rfl
      simp [hmask, hlow]
    · have hmask : BitVec.getLsbD 0xfffff000#32 i = true := by
        interval_cases i <;> rfl
      have hsum : 12 + (i - 12) = i := by omega
      simp [hmask, hlow, hi, hsum]
  have hlt := a.isLt
  rw [hshift, BitVec.toNat_shiftLeft, BitVec.toNat_ushiftRight, Nat.shiftRight_eq_div_pow,
    Nat.shiftLeft_eq]
  omega

private theorem pageOf_le (h : pageOf a = p) : p.toNat ≤ a.toNat ∧ a.toNat < p.toNat + 4096 := by
  have hpage := toNat_pageOf a
  rw [h] at hpage
  omega

private theorem pageOf_eq (hp : pageOf p = p) (hle : p.toNat ≤ a.toNat)
    (hlt : a.toNat < p.toNat + 4096) : pageOf a = p := by
  have hpage := toNat_pageOf p
  rw [hp] at hpage
  apply BitVec.eq_of_toNat_eq
  rw [toNat_pageOf]
  omega

@[simp] theorem pageOf_pageOf (a : Word) : pageOf (pageOf a) = pageOf a := by
  apply BitVec.eq_of_toNat_eq
  rw [toNat_pageOf, toNat_pageOf]
  omega

private theorem page_bound (hp : pageOf p = p) : p.toNat + 4096 ≤ 2 ^ 32 := by
  have hpage := toNat_pageOf p
  rw [hp] at hpage
  have hlt := p.isLt
  omega

end Pages

/-- What `switch_to` loads: the registers, where it returns to, the stack pointer after that and
the stack above it. -/
structure Context where
  ebp : Word
  ebx : Word
  edi : Word
  esi : Word
  eip : Word
  esp : Word
  stack : Word → Word

/-- The task `t` has been left with the context `c`, in the layout of `struct thread_stack`. -/
structure Suspended (mem : Word → Word) (t : Word) (c : Context) : Prop where
  selfKstack : mem t = c.esp - 20#32
  ebp : mem (c.esp - 20#32) = c.ebp
  ebx : mem (c.esp - 16#32) = c.ebx
  edi : mem (c.esp - 12#32) = c.edi
  esi : mem (c.esp - 8#32) = c.esi
  eip : mem (c.esp - 4#32) = c.eip
  inPage : pageOf c.esp = t
  room : t.toNat + 20 ≤ c.esp.toNat
  stack : ∀ a, pageOf a = t → c.esp ≤ a → mem a = c.stack a

/-- The words a context is made of are those the machine keeps for the task. -/
private theorem Suspended.keep {mem mem' : Word → Word} {t : Word} {c : Context}
    (h : Suspended mem t c) (hself : mem' t = mem t)
    (hkeep : ∀ a, pageOf a = t → c.esp - 20#32 ≤ a → mem' a = mem a) : Suspended mem' t c := by
  have hroom := h.room
  have hbound := pageOf_le h.inPage
  have hpage : pageOf t = t := by
    rw [← h.inPage]
    exact pageOf_pageOf _
  have hcell : ∀ d : Word, 4 ≤ d.toNat → d.toNat ≤ 20 → mem' (c.esp - d) = mem (c.esp - d) := by
    intro d hd hd'
    apply hkeep
    · apply pageOf_eq hpage <;> bv_omega
    · bv_omega
  refine ⟨hself.trans h.selfKstack, ?_, ?_, ?_, ?_, ?_, h.inPage, hroom, ?_⟩
  · exact (hcell 20 (by decide) (by decide)).trans h.ebp
  · exact (hcell 16 (by decide) (by decide)).trans h.ebx
  · exact (hcell 12 (by decide) (by decide)).trans h.edi
  · exact (hcell 8 (by decide) (by decide)).trans h.esi
  · exact (hcell 4 (by decide) (by decide)).trans h.eip
  · intro a ha hle
    rw [hkeep a ha (by bv_omega)]
    exact h.stack a ha hle

section Words

private theorem sub_sub_word (e a b : Word) : e - a - b = e - (a + b) := by
  bv_omega

private theorem sub_add_word {e a b : Word} : e - a + b = e - (a - b) := by
  bv_omega

private theorem add_ne_sub_word {e a b : Word} (ha : a.toNat ≤ 16) (hb : 0 < b.toNat)
    (hb' : b.toNat ≤ 20) : e + a ≠ e - b := by
  bv_omega

end Words

section Instructions

variable {c : Cpu} {t : Word}

/-- The stack and the PCB after the first half of `switch_to`, entered with `t` as its first
argument. -/
def savedMem (c : Cpu) (t : Word) : Word → Word :=
  let e := c.regs .esp
  Function.update (Function.update (Function.update (Function.update (Function.update c.mem
    (e - 4#32) (c.regs .esi)) (e - 8#32) (c.regs .edi)) (e - 12#32) (c.regs .ebx))
    (e - 16#32) (c.regs .ebp)) t (e - 16#32)

private theorem saveContext_spec (ht : c.mem (c.regs .esp + 4#32) = t) :
    (saveContext.foldl exec c).mem = savedMem c t ∧
      (saveContext.foldl exec c).regs .esp = c.regs .esp - 16#32 := by
  have hup : c.regs .esp - 16#32 + 20#32 = c.regs .esp + 4#32 := by
    generalize c.regs .esp = e
    clear ht
    bv_omega
  have hn₁ : c.regs .esp + 4#32 ≠ c.regs .esp - 4#32 :=
    add_ne_sub_word (by decide) (by decide) (by decide)
  have hn₂ : c.regs .esp + 4#32 ≠ c.regs .esp - 8#32 :=
    add_ne_sub_word (by decide) (by decide) (by decide)
  have hn₃ : c.regs .esp + 4#32 ≠ c.regs .esp - 12#32 :=
    add_ne_sub_word (by decide) (by decide) (by decide)
  have hn₄ : c.regs .esp + 4#32 ≠ c.regs .esp - 16#32 :=
    add_ne_sub_word (by decide) (by decide) (by decide)
  simp only [saveContext, exec, Cpu.push, Cpu.store, Cpu.set, savedMem, List.foldl_cons,
    List.foldl_nil, Function.update_apply, reduceCtorEq, if_false, if_true, sub_sub_word,
    BitVec.reduceAdd]
  rw [hup, if_neg hn₄, if_neg hn₃, if_neg hn₂, if_neg hn₁, ht]
  exact ⟨rfl, trivial⟩

private theorem resumeContext_spec {x : Context} (ht : c.mem (c.regs .esp + 24#32) = t)
    (h : Suspended c.mem t x) : let c' := resumeContext.foldl exec c
    c'.mem = c.mem ∧ c'.eip = x.eip ∧ c'.regs .esp = x.esp ∧ c'.regs .ebp = x.ebp ∧
      c'.regs .ebx = x.ebx ∧ c'.regs .edi = x.edi ∧ c'.regs .esi = x.esi := by
  simp only [resumeContext, exec, Cpu.pop, Cpu.set, List.foldl_cons, List.foldl_nil,
    Function.update_apply, reduceCtorEq, if_false, if_true, ht, BitVec.add_zero, h.selfKstack,
    sub_add_word, BitVec.reduceSub]
  exact ⟨trivial, h.eip, BitVec.sub_zero _, h.ebp, h.ebx, h.edi, h.esi⟩

private theorem savedMem_push (ret : Word) (a : Word) : savedMem (c.push ret) t a =
    if a = t then c.regs .esp - 20#32
    else if a = c.regs .esp - 20#32 then c.regs .ebp
    else if a = c.regs .esp - 16#32 then c.regs .ebx
    else if a = c.regs .esp - 12#32 then c.regs .edi
    else if a = c.regs .esp - 8#32 then c.regs .esi
    else if a = c.regs .esp - 4#32 then ret else c.mem a := by
  simp only [savedMem, Cpu.push, Cpu.store, Cpu.set, Function.update_apply, reduceCtorEq, if_false,
    if_true, sub_sub_word, BitVec.reduceAdd]

/-- The context of a task that calls `switch_to`. -/
def Cpu.context (c : Cpu) (ret : Word) : Context :=
  ⟨c.regs .ebp, c.regs .ebx, c.regs .edi, c.regs .esi, ret, c.regs .esp, c.mem⟩

private theorem suspended_saved (ret : Word) (ht : pageOf (c.regs .esp) = t)
    (hroom : t.toNat + 20 < (c.regs .esp).toNat) :
    Suspended (savedMem (c.push ret) t) t (c.context ret) := by
  have hbound := pageOf_le ht
  have hne : ∀ d : Word, d.toNat ≤ 20 → c.regs .esp - d ≠ t := by
    generalize c.regs .esp = e at hroom hbound
    clear ht
    intro d hd
    bv_omega
  have h₂₀ := hne 20#32 (by decide)
  have h₁₆ := hne 16#32 (by decide)
  have h₁₂ := hne 12#32 (by decide)
  have h₈ := hne 8#32 (by decide)
  have h₄ := hne 4#32 (by decide)
  constructor
  case inPage => exact ht
  case room => exact hroom.le
  case stack =>
    intro a _ hle
    change c.regs .esp ≤ a at hle
    have habove : a ≠ t ∧ ∀ d : Word, 0 < d.toNat → d.toNat ≤ 20 → a ≠ c.regs .esp - d := by
      generalize c.regs .esp = e at hroom hle
      clear ht hbound hne h₂₀ h₁₆ h₁₂ h₈ h₄
      refine ⟨by bv_omega, ?_⟩
      intro d hd hd'
      bv_omega
    have hsub := habove.2
    rw [savedMem_push, if_neg habove.1, if_neg (hsub 20#32 (by decide) (by decide)),
      if_neg (hsub 16#32 (by decide) (by decide)), if_neg (hsub 12#32 (by decide) (by decide)),
      if_neg (hsub 8#32 (by decide) (by decide)), if_neg (hsub 4#32 (by decide) (by decide))]
    rfl
  all_goals
    simp [savedMem_push, Cpu.context, h₂₀, h₁₆, h₁₂, h₈, h₄]

private theorem savedMem_of_ne (ret : Word) {a : Word} (ht : pageOf (c.regs .esp) = t)
    (hroom : t.toNat + 20 < (c.regs .esp).toNat) (ha : pageOf a ≠ t) :
    savedMem (c.push ret) t a = c.mem a := by
  have hbound := pageOf_le ht
  have hpage : pageOf t = t := by
    rw [← ht]
    exact pageOf_pageOf _
  have hself : a ≠ t := fun h => ha (h ▸ hpage)
  have hcell : ∀ d : Word, d.toNat ≤ 20 → a ≠ c.regs .esp - d := by
    intro d hd h
    apply ha
    rw [h]
    generalize c.regs .esp = e at hroom hbound
    apply pageOf_eq hpage <;> rw [BitVec.toNat_sub] <;> omega
  rw [savedMem_push, if_neg hself, if_neg (hcell _ (by decide)), if_neg (hcell _ (by decide)),
    if_neg (hcell _ (by decide)), if_neg (hcell _ (by decide)), if_neg (hcell _ (by decide))]

private theorem savedMem_next (ret : Word) (ht : pageOf (c.regs .esp) = t)
    (hroom : t.toNat + 20 < (c.regs .esp).toNat) :
    savedMem (c.push ret) t (c.regs .esp + 4#32) = c.mem (c.regs .esp + 4#32) := by
  have hbound := pageOf_le ht
  have hend : t.toNat + 4096 ≤ 2 ^ 32 := by
    apply page_bound
    rw [← ht]
    exact pageOf_pageOf _
  have hself : c.regs .esp + 4#32 ≠ t := by
    generalize c.regs .esp = e at hroom hbound
    clear ht
    bv_omega
  have hcell : ∀ d : Word, 0 < d.toNat → d.toNat ≤ 20 → c.regs .esp + 4#32 ≠ c.regs .esp - d :=
    fun d hd hd' => add_ne_sub_word (by decide) hd hd'
  rw [savedMem_push, if_neg hself, if_neg (hcell _ (by decide) (by decide)),
    if_neg (hcell _ (by decide) (by decide)), if_neg (hcell _ (by decide) (by decide)),
    if_neg (hcell _ (by decide) (by decide)), if_neg (hcell _ (by decide) (by decide))]

end Instructions

section Creation

variable {m : Machine} {p : Word} (fields : Word → Word)

private theorem pageOf_add (hp : pageOf p = p) {d : Word} (hd : d.toNat < 4096) :
    pageOf (p + d) = p := by
  have hbound := page_bound hp
  apply pageOf_eq hp <;> rw [BitVec.toNat_add] <;> omega

private theorem store_mem (m : Machine) (a v b : Word) :
    (m.store a v).cpu.mem b = if b = a then v else m.cpu.mem b :=
  Function.update_apply ..

theorem store_regs (m : Machine) (a v : Word) : (m.store a v).cpu.regs = m.cpu.regs := rfl

theorem setPage_regs (m : Machine) (p : Word) (f : Word → Word) :
    (m.setPage p f).cpu.regs = m.cpu.regs := rfl

private theorem setPage_mem (m : Machine) (p : Word) (f : Word → Word) (a : Word) :
    (m.setPage p f).cpu.mem a = if pageOf a = p then f (a - p) else m.cpu.mem a := rfl

private theorem setFields_mem (m : Machine) (p : Word) (fields : Word → Word) (a : Word) :
    (m.setFields p fields).cpu.mem a =
      if pageOf a = p ∧ a - p ≠ 0 ∧ a - p < taskStructSize then fields (a - p)
      else m.cpu.mem a := by
  rw [Machine.setFields, setPage_mem]
  by_cases ha : pageOf a = p
  · have hback : p + (a - p) = a := by
      clear ha
      bv_omega
    simp only [ha, true_and, if_true, hback]
  · simp only [ha, false_and, if_false]

private theorem threadCreate_mem (kernelThread : Word) (m : Machine) (p function funcArg b : Word) :
    (m.threadCreate kernelThread p function funcArg).cpu.mem b =
      let k := m.cpu.mem p - 432#32
      if b = k then 0 else if b = k + 4#32 then 0 else if b = k + 12#32 then 0
      else if b = k + 8#32 then 0 else if b = k + 28#32 then funcArg
      else if b = k + 24#32 then function else if b = k + 16#32 then kernelThread
      else if b = p then k else m.cpu.mem b := by
  simp only [Machine.threadCreate, intrStackSize, threadStackSize, store_mem, if_true,
    sub_sub_word, BitVec.reduceMul, BitVec.reduceAdd]
  split_ifs <;> rfl

variable {kernelThread intrExit : Word}

/-- The context `r` speaks of, for the task `t`. -/
def Resumption.Describes (kernelThread intrExit t : Word) (x : Context) : Resumption → Prop
  | .returns regs ret stack =>
      x = ⟨regs .ebp, regs .ebx, regs .edi, regs .esi, ret, regs .esp, stack⟩
  | .starts function funcArg =>
      x.eip = kernelThread ∧ x.esp = t + 3684#32 ∧ x.stack (t + 3688#32) = function ∧
        x.stack (t + 3692#32) = funcArg
  | .forked frame =>
      x.eip = intrExit ∧ x.esp = t + 4020#32 ∧ ∀ i < 19,
        x.stack (t + 4020#32 + 4#32 * BitVec.ofNat 32 i) = if i = eaxIndex then 0 else frame i

/-- What `thread_create` stores in the page that `init_thread` hands to it. -/
private theorem threadStart_mem (function funcArg b : Word) :
    (m.threadStart kernelThread p function funcArg fields).cpu.mem b =
      if b = p + 3664#32 then 0 else if b = p + 3668#32 then 0 else if b = p + 3676#32 then 0
      else if b = p + 3672#32 then 0 else if b = p + 3692#32 then funcArg
      else if b = p + 3688#32 then function else if b = p + 3680#32 then kernelThread
      else if b = p then p + 3664#32
      else ((m.setPage p fun _ => 0).initThread p fields).cpu.mem b := by
  have htop : p + 4096#32 - 432#32 = p + 3664#32 := by
    bv_omega
  have hself : ((m.setPage p fun _ => 0).initThread p fields).cpu.mem p = p + 4096#32 := by
    rw [Machine.initThread, store_mem, if_pos rfl, pgSize]
  rw [Machine.threadStart, threadCreate_mem, hself, htop]
  simp only [BitVec.add_assoc, BitVec.reduceAdd]

private theorem threadStart_mem_of_ne (hp : pageOf p = p) (function funcArg : Word) {b : Word}
    (hb : pageOf b ≠ p) :
    (m.threadStart kernelThread p function funcArg fields).cpu.mem b = m.cpu.mem b := by
  have hcell : ∀ d : Word, d.toNat < 4096 → b ≠ p + d := by
    intro d hd h
    exact hb (h ▸ pageOf_add hp hd)
  have hself : b ≠ p := fun h => hb (h ▸ hp)
  rw [threadStart_mem, if_neg (hcell _ (by decide)), if_neg (hcell _ (by decide)),
    if_neg (hcell _ (by decide)), if_neg (hcell _ (by decide)), if_neg (hcell _ (by decide)),
    if_neg (hcell _ (by decide)), if_neg (hcell _ (by decide)), if_neg hself, Machine.initThread,
    store_mem, if_neg hself, setFields_mem, if_neg fun h => hb h.1, setPage_mem, if_neg hb]

private theorem suspended_threadStart (hp : pageOf p = p) (function funcArg : Word) :
    let m' := m.threadStart kernelThread p function funcArg fields
    Suspended m'.cpu.mem p ⟨0, 0, 0, 0, kernelThread, p + 3684#32, m'.cpu.mem⟩ := by
  have hdown : ∀ a : Word, p + 3684#32 - a = p + (3684#32 - a) := by
    clear hp
    intro a
    bv_omega
  have hbound := page_bound hp
  constructor
  case inPage => exact pageOf_add hp (by decide)
  case room =>
    change p.toNat + 20 ≤ (p + 3684#32).toNat
    rw [BitVec.toNat_add]
    have : (3684#32).toNat = 3684 := rfl
    omega
  case stack =>
    intro a _ _
    rfl
  all_goals
    simp [threadStart_mem, hdown]

private theorem describes_threadStart (function funcArg : Word) :
    let m' := m.threadStart kernelThread p function funcArg fields
    (Resumption.starts function funcArg).Describes kernelThread intrExit p
      ⟨0, 0, 0, 0, kernelThread, p + 3684#32, m'.cpu.mem⟩ := by
  refine ⟨rfl, rfl, ?_, ?_⟩ <;> simp [threadStart_mem]

/-- What `build_child_stack` stores in the copy of the parent's page. -/
private theorem buildChildStack_mem (m : Machine) (child b : Word) :
    (m.buildChildStack intrExit child).cpu.mem b =
      if b = child then child + 4000#32 else if b = child + 4000#32 then 0
      else if b = child + 4004#32 then 0 else if b = child + 4008#32 then 0
      else if b = child + 4012#32 then 0 else if b = child + 4016#32 then intrExit
      else if b = child + 4052#32 then 0 else m.cpu.mem b := by
  have hbase : child + 4096#32 - 76#32 = child + 4020#32 := by
    bv_omega
  have hdown : ∀ a : Word, child + 4020#32 - a = child + (4020#32 - a) := by
    intro a
    bv_omega
  simp only [Machine.buildChildStack, store_mem, pgSize, intrStackSize, hbase, hdown,
    BitVec.add_assoc, BitVec.reduceAdd, BitVec.reduceSub]

private theorem copyPcb_mem_of_ne (child parent : Word) {b : Word} (hb : pageOf b ≠ child) :
    (m.copyPcbVaddrbitmapStack0 child parent fields).cpu.mem b = m.cpu.mem b := by
  rw [Machine.copyPcbVaddrbitmapStack0, setFields_mem, if_neg fun h => hb h.1, setPage_mem,
    if_neg hb]

private theorem copyPcb_mem_stack {child parent d : Word} (hc : pageOf child = child)
    (hd : 280 ≤ d.toNat) (hd' : d.toNat < 4096) :
    (m.copyPcbVaddrbitmapStack0 child parent fields).cpu.mem (child + d) =
      m.cpu.mem (parent + d) := by
  have hoff : child + d - child = d := by
    clear hc
    bv_omega
  have habove : ¬ d < taskStructSize := by
    rw [taskStructSize, BitVec.lt_def]
    have hsize : (280#32).toNat = 280 := rfl
    omega
  rw [Machine.copyPcbVaddrbitmapStack0, setFields_mem, hoff, if_neg fun h => habove h.2.2,
    setPage_mem, if_pos (pageOf_add hc hd'), hoff]

/-- The machine after `fork`, up to the lists it puts the child on. -/
def forkedMem (intrExit : Word) (m : Machine) (child : Word) (fields : Word → Word) : Word → Word :=
  ((m.copyPcbVaddrbitmapStack0 child m.runningThread fields).buildChildStack intrExit child).cpu.mem

theorem forkedMem_of_ne {child b : Word} (hc : pageOf child = child) (hb : pageOf b ≠ child) :
    forkedMem intrExit m child fields b = m.cpu.mem b := by
  have hcell : ∀ d : Word, d.toNat < 4096 → b ≠ child + d := by
    intro d hd h
    exact hb (h ▸ pageOf_add hc hd)
  have hself : b ≠ child := fun h => hb (h ▸ hc)
  rw [forkedMem, buildChildStack_mem, if_neg hself, if_neg (hcell _ (by decide)),
    if_neg (hcell _ (by decide)), if_neg (hcell _ (by decide)), if_neg (hcell _ (by decide)),
    if_neg (hcell _ (by decide)), if_neg (hcell _ (by decide)), copyPcb_mem_of_ne _ _ _ hb]

private theorem suspended_fork {child : Word} (hc : pageOf child = child) :
    Suspended (forkedMem intrExit m child fields) child
      ⟨0, 0, 0, 0, intrExit, child + 4020#32, forkedMem intrExit m child fields⟩ := by
  have hdown : ∀ a : Word, child + 4020#32 - a = child + (4020#32 - a) := by
    clear hc
    intro a
    bv_omega
  have hbound := page_bound hc
  constructor
  case inPage => exact pageOf_add hc (by decide)
  case room =>
    change child.toNat + 20 ≤ (child + 4020#32).toNat
    rw [BitVec.toNat_add]
    have : (4020#32).toNat = 4020 := rfl
    omega
  case stack =>
    intro a _ _
    rfl
  all_goals
    simp [forkedMem, buildChildStack_mem, hdown]

private theorem describes_fork {child : Word} (hc : pageOf child = child) :
    (Resumption.forked (m.intrStack m.runningThread)).Describes kernelThread intrExit child
      ⟨0, 0, 0, 0, intrExit, child + 4020#32, forkedMem intrExit m child fields⟩ := by
  refine ⟨rfl, rfl, ?_⟩
  intro i hi
  set d : Word := 4020#32 + 4#32 * BitVec.ofNat 32 i with hd
  have hnat : d.toNat = 4020 + 4 * i := by
    rw [hd, BitVec.toNat_add, BitVec.toNat_mul, BitVec.toNat_ofNat, BitVec.toNat_ofNat,
      BitVec.toNat_ofNat]
    omega
  have haddr : child + 4020#32 + 4#32 * BitVec.ofNat 32 i = child + d := by
    rw [hd, BitVec.add_assoc]
  have hne : ∀ e : Word, e.toNat ≠ d.toNat → child + d ≠ child + e := by
    intro e he h
    exact he (congrArg BitVec.toNat (BitVec.add_right_inj child |>.mp h)).symm
  have hself : child + d ≠ child := by
    intro h
    have hzero : d = 0#32 := by
      have := hnat
      bv_omega
    rw [hzero, BitVec.toNat_ofNat] at hnat
    omega
  change forkedMem intrExit m child fields (child + 4020#32 + 4#32 * BitVec.ofNat 32 i) = _
  rw [haddr, forkedMem, buildChildStack_mem, if_neg hself,
    if_neg (hne _ (by rw [hnat, BitVec.toNat_ofNat]; omega)),
    if_neg (hne _ (by rw [hnat, BitVec.toNat_ofNat]; omega)),
    if_neg (hne _ (by rw [hnat, BitVec.toNat_ofNat]; omega)),
    if_neg (hne _ (by rw [hnat, BitVec.toNat_ofNat]; omega)),
    if_neg (hne _ (by rw [hnat, BitVec.toNat_ofNat]; omega))]
  by_cases hi8 : i = eaxIndex
  · have hd52 : d = 4052#32 := by
      rw [hd, hi8]
      rfl
    rw [if_pos hi8, hd52, if_pos rfl]
  · have hframe : m.runningThread + 4096#32 - 76#32 + 4#32 * BitVec.ofNat 32 i =
        m.runningThread + d := by
      rw [hd]
      generalize 4#32 * BitVec.ofNat 32 i = e
      generalize m.runningThread = r
      clear * -
      bv_omega
    rw [if_neg hi8]
    rw [eaxIndex] at hi8
    rw [if_neg (hne _ (by rw [hnat, BitVec.toNat_ofNat]; omega)),
      copyPcb_mem_stack _ hc (by omega) (by omega), Machine.intrStack, pgSize, intrStackSize, hframe]

end Creation

section Runs

variable {kernelThread intrExit : Word} {m m' : Machine}

/-- Every task but the running one has been left with the context its record speaks of. -/
structure Inv (kernelThread intrExit : Word) (m : Machine) : Prop where
  running : m.runningThread ∈ m.threads
  pages : ∀ t ∈ m.threads, pageOf t = t
  suspended : ∀ t ∈ m.threads, t ≠ m.runningThread → ∃ x, Suspended m.cpu.mem t x ∧
    (m.resumption t).Describes kernelThread intrExit t x

/-- Whatever leaves the kept words of the suspended tasks alone. -/
private theorem Inv.keep (h : Inv kernelThread intrExit m) (hthreads : m'.threads = m.threads)
    (hres : m'.resumption = m.resumption) (hrun : m'.runningThread = m.runningThread)
    (hkeep : ∀ t ∈ m.threads, t ≠ m.runningThread → ∀ a, m.Kept t a → m'.cpu.mem a = m.cpu.mem a) :
    Inv kernelThread intrExit m' := by
  refine ⟨?_, ?_, ?_⟩
  · rw [hrun, hthreads]
    exact h.running
  · rw [hthreads]
    exact h.pages
  · intro t ht hne
    rw [hthreads] at ht
    rw [hrun] at hne
    obtain ⟨x, hx, hd⟩ := h.suspended t ht hne
    refine ⟨x, hx.keep (hkeep t ht hne t (Or.inl rfl)) ?_, by rw [hres]; exact hd⟩
    intro a ha hle
    exact hkeep t ht hne a (Or.inr ⟨ha, by rw [hx.selfKstack]; exact hle⟩)

private theorem Inv.create (h : Inv kernelThread intrExit m) {p : Word} (hp : m.Fresh p)
    {r : Resumption} {x : Context} (hthreads : m'.threads = p :: m.threads)
    (hres : m'.resumption = Function.update m.resumption p r)
    (hrun : m'.runningThread = m.runningThread)
    (hmem : ∀ a, pageOf a ≠ p → m'.cpu.mem a = m.cpu.mem a)
    (hx : Suspended m'.cpu.mem p x) (hd : r.Describes kernelThread intrExit p x) :
    Inv kernelThread intrExit m' := by
  refine ⟨?_, ?_, ?_⟩
  · rw [hrun, hthreads]
    exact List.mem_cons_of_mem _ h.running
  · intro t ht
    rw [hthreads, List.mem_cons] at ht
    rcases ht with rfl | ht
    · exact hp.1
    · exact h.pages t ht
  · intro t ht hne
    rw [hthreads, List.mem_cons] at ht
    by_cases htp : t = p
    · subst htp
      refine ⟨x, hx, ?_⟩
      rw [hres, Function.update_self]
      exact hd
    · rw [hrun] at hne
      obtain ⟨y, hy, hyd⟩ := h.suspended t (ht.resolve_left htp) hne
      refine ⟨y, hy.keep (hmem t ?_) ?_, ?_⟩
      · rw [h.pages t (ht.resolve_left htp)]
        exact htp
      · intro a ha _
        exact hmem a (by rw [ha]; exact htp)
      · rw [hres, Function.update_of_ne htp]
        exact hyd

theorem Inv.room (h : Inv kernelThread intrExit m) {ret : Word}
    (he : m.Enabled (.switchTo ret)) : m.runningThread.toNat + 20 < (m.cpu.regs .esp).toNat := by
  have hend := page_bound (h.pages _ h.running)
  have hstack := he.2.1
  rw [taskStructSize] at hstack
  generalize m.cpu.regs .esp = e at hstack
  generalize m.runningThread = t at hstack hend
  clear * - hstack hend
  bv_omega

theorem Inv.left (h : Inv kernelThread intrExit m) {ret : Word} (he : m.Enabled (.switchTo ret))
    {t : Word} (ht : t ∈ m.threads) : ∃ x,
    Suspended (savedMem (m.cpu.push ret) m.runningThread) t x ∧
      ((m.step kernelThread intrExit (.switchTo ret)).resumption t).Describes
        kernelThread intrExit t x := by
  have hroom := h.room he
  have hres : (m.step kernelThread intrExit (.switchTo ret)).resumption =
      Function.update m.resumption m.runningThread (.returns m.cpu.regs ret m.cpu.mem) := rfl
  by_cases hself : t = m.runningThread
  · rw [hself]
    refine ⟨_, suspended_saved ret rfl hroom, ?_⟩
    rw [hres, Function.update_self]
    rfl
  · obtain ⟨x, hx, hd⟩ := h.suspended t ht hself
    refine ⟨x, hx.keep (savedMem_of_ne ret rfl hroom ?_) ?_, ?_⟩
    · rw [h.pages t ht]
      exact hself
    · intro a ha _
      exact savedMem_of_ne ret rfl hroom (by rw [ha]; exact hself)
    · rw [hres, Function.update_of_ne hself]
      exact hd

theorem Inv.switch (h : Inv kernelThread intrExit m) {ret : Word} (he : m.Enabled (.switchTo ret))
    {x : Context}
    (hx : Suspended (savedMem (m.cpu.push ret) m.runningThread)
      (m.cpu.mem (m.cpu.regs .esp + 4#32)) x) :
    let c := (m.step kernelThread intrExit (.switchTo ret)).cpu
    c.mem = savedMem (m.cpu.push ret) m.runningThread ∧ c.eip = x.eip ∧ c.regs .esp = x.esp ∧
      c.regs .ebp = x.ebp ∧ c.regs .ebx = x.ebx ∧ c.regs .edi = x.edi ∧ c.regs .esi = x.esi := by
  intro c
  have hargs : (m.cpu.push ret).mem ((m.cpu.push ret).regs .esp + 4#32) = m.runningThread := by
    have hup : m.cpu.regs .esp - 4#32 + 4#32 = m.cpu.regs .esp := BitVec.sub_add_cancel _ _
    have hne : m.cpu.regs .esp ≠ m.cpu.regs .esp - 4#32 := by
      generalize m.cpu.regs .esp = e
      clear * -
      bv_omega
    simp only [Cpu.push, Cpu.store, Cpu.set, Function.update_self, hup]
    rw [Function.update_of_ne hne]
    exact he.2.2.1
  obtain ⟨hmem, hesp⟩ := saveContext_spec hargs
  have harg : (saveContext.foldl exec (m.cpu.push ret)).mem
      ((saveContext.foldl exec (m.cpu.push ret)).regs .esp + 24#32) =
        m.cpu.mem (m.cpu.regs .esp + 4#32) := by
    have hup : m.cpu.regs .esp - 20#32 + 24#32 = m.cpu.regs .esp + 4#32 := by
      generalize m.cpu.regs .esp = e
      clear * -
      bv_omega
    rw [hmem, hesp]
    simp only [Cpu.push, Cpu.set, Function.update_self, sub_sub_word, BitVec.reduceAdd, hup]
    exact savedMem_next ret rfl (h.room he)
  have hcpu : c = resumeContext.foldl exec (saveContext.foldl exec (m.cpu.push ret)) := by
    change switchTo.foldl exec _ = _
    rw [switchTo, List.foldl_append]
  obtain ⟨hmem', hregs⟩ := resumeContext_spec harg (hmem ▸ hx)
  rw [hcpu]
  exact ⟨hmem'.trans hmem, hregs⟩

theorem Inv.threadStart (h : Inv kernelThread intrExit m) {p : Word} (hp : m.Fresh p)
    (function funcArg : Word) (fields : Word → Word) : Inv kernelThread intrExit
      (m.step kernelThread intrExit (.threadStart p function funcArg fields)) := by
  have hregs : (m.threadStart kernelThread p function funcArg fields).cpu.regs = m.cpu.regs := by
    simp only [Machine.threadStart, Machine.threadCreate, Machine.initThread, Machine.setFields,
      store_regs, setPage_regs]
  refine h.create hp rfl rfl ?_ ?_ (suspended_threadStart fields hp.1 function funcArg)
    (describes_threadStart fields function funcArg)
  · exact congrArg (fun regs => pageOf (regs Reg.esp)) hregs
  · intro a ha
    exact threadStart_mem_of_ne fields hp.1 function funcArg ha

theorem Inv.fork (h : Inv kernelThread intrExit m) {child : Word} (hc : m.Fresh child)
    (fields : Word → Word) :
    Inv kernelThread intrExit (m.step kernelThread intrExit (.fork child fields)) := by
  have hregs : ((m.copyPcbVaddrbitmapStack0 child m.runningThread fields).buildChildStack
      intrExit child).cpu.regs = m.cpu.regs := by
    simp only [Machine.buildChildStack, Machine.copyPcbVaddrbitmapStack0, Machine.setFields,
      store_regs, setPage_regs]
  refine h.create hc rfl rfl ?_ ?_ (suspended_fork fields hc.1) (describes_fork fields hc.1)
  · exact congrArg (fun regs => pageOf (regs Reg.esp)) hregs
  · intro a ha
    exact forkedMem_of_ne fields hc.1 ha

theorem inv_step (h : Inv kernelThread intrExit m) {e : Event} (he : m.Enabled e) :
    Inv kernelThread intrExit (m.step kernelThread intrExit e) := by
  cases e with
  | setReg r v =>
      refine h.keep rfl rfl ?_ fun _ _ _ _ _ => rfl
      change pageOf (Function.update m.cpu.regs r v .esp) = _
      by_cases hr : r = .esp
      · subst hr
        rw [Function.update_self]
        exact he rfl
      · rw [Function.update_of_ne (Ne.symm hr)]
        rfl
  | store a v =>
      refine h.keep rfl rfl rfl ?_
      intro t ht hne b hb
      have hba : b ≠ a := by
        rintro rfl
        exact he t ht hne hb
      exact (store_mem m a v b).trans (if_neg hba)
  | threadStart p function funcArg fields =>
      exact h.threadStart he function funcArg fields
  | fork child fields =>
      exact h.fork he fields
  | switchTo ret =>
      have hnext := he.2.2.2
      obtain ⟨x, hx, -⟩ := h.left he hnext
      obtain ⟨hmem, -, hesp, -⟩ := h.switch he hx
      have hrun : (m.step kernelThread intrExit (.switchTo ret)).runningThread =
          m.cpu.mem (m.cpu.regs .esp + 4#32) := by
        rw [Machine.runningThread, hesp]
        exact hx.inPage
      refine ⟨by rw [hrun]; exact hnext, h.pages, ?_⟩
      intro t ht _
      rw [hmem]
      exact h.left he ht

theorem reachable_inv (h : (tasks kernelThread intrExit).Reachable m) :
    Inv kernelThread intrExit m := by
  refine h.invariant ?_ ?_
  · intro m hm
    change m.threads = _ at hm
    refine ⟨by rw [hm]; exact List.mem_singleton_self _, ?_, ?_⟩
    · intro t ht
      rw [hm, List.mem_singleton] at ht
      rw [ht]
      exact pageOf_pageOf _
    · intro t ht hne
      rw [hm, List.mem_singleton] at ht
      exact absurd ht hne
  · rintro m e m' hinv ⟨he, rfl⟩
    exact inv_step hinv he

end Runs

/-- The running task goes on as `r` says.  A function finds its arguments above the return
address on the stack, and `intr_exit` finds the interrupt frame at the stack pointer. -/
def Machine.Resumed (kernelThread intrExit : Word) (m : Machine) : Resumption → Prop
  | .returns regs ret stack =>
      m.cpu.eip = ret ∧ (∀ r ∈ [Reg.ebp, .ebx, .esi, .edi, .esp], m.cpu.regs r = regs r) ∧
        ∀ a, pageOf a = m.runningThread → m.cpu.regs .esp ≤ a → m.cpu.mem a = stack a
  | .starts function funcArg =>
      m.cpu.eip = kernelThread ∧ m.cpu.mem (m.cpu.regs .esp + 4#32) = function ∧
        m.cpu.mem (m.cpu.regs .esp + 8#32) = funcArg
  | .forked frame =>
      m.cpu.eip = intrExit ∧ ∀ i < 19,
        m.cpu.mem (m.cpu.regs .esp + 4#32 * BitVec.ofNat 32 i) = if i = eaxIndex then 0 else frame i

private theorem add_le_add_word {t d e : Word} (ht : pageOf t = t) (hde : d.toNat ≤ e.toNat)
    (he : e.toNat < 4096) : t + d ≤ t + e := by
  have hbound := page_bound ht
  clear ht
  rw [BitVec.le_def, BitVec.toNat_add, BitVec.toNat_add]
  omega

theorem resumed_of_describes {kernelThread intrExit : Word} {m : Machine} {x : Context}
    {r : Resumption} (hd : r.Describes kernelThread intrExit m.runningThread x)
    (heip : m.cpu.eip = x.eip) (hesp : m.cpu.regs .esp = x.esp) (hebp : m.cpu.regs .ebp = x.ebp)
    (hebx : m.cpu.regs .ebx = x.ebx) (hedi : m.cpu.regs .edi = x.edi)
    (hesi : m.cpu.regs .esi = x.esi)
    (hstack : ∀ a, pageOf a = m.runningThread → x.esp ≤ a → m.cpu.mem a = x.stack a) :
    m.Resumed kernelThread intrExit r := by
  have hpage : pageOf m.runningThread = m.runningThread := pageOf_pageOf _
  cases r with
  | returns regs ret stack =>
      cases hd
      refine ⟨heip, ?_, ?_⟩
      · simp only [List.forall_mem_cons]
        exact ⟨hebp, hebx, hesi, hedi, hesp, List.forall_mem_nil _⟩
      · intro a ha hle
        rw [hesp] at hle
        exact hstack a ha hle
  | starts function funcArg =>
      obtain ⟨hentry, htop, hf, ha⟩ := hd
      have hcell : ∀ d : Word, 3684 ≤ d.toNat → d.toNat < 4096 →
          m.cpu.mem (m.runningThread + d) = x.stack (m.runningThread + d) := by
        intro d hd hd'
        apply hstack
        · exact pageOf_add hpage hd'
        · rw [htop]
          exact add_le_add_word hpage hd hd'
      refine ⟨heip.trans hentry, ?_, ?_⟩
      · rw [hesp, htop, BitVec.add_assoc]
        exact (hcell 3688#32 (by decide) (by decide)).trans hf
      · rw [hesp, htop, BitVec.add_assoc]
        exact (hcell 3692#32 (by decide) (by decide)).trans ha
  | forked frame =>
      obtain ⟨hentry, htop, hframe⟩ := hd
      refine ⟨heip.trans hentry, ?_⟩
      intro i hi
      have hnat : (4020#32 + 4#32 * BitVec.ofNat 32 i).toNat = 4020 + 4 * i := by
        rw [BitVec.toNat_add, BitVec.toNat_mul, BitVec.toNat_ofNat, BitVec.toNat_ofNat,
          BitVec.toNat_ofNat]
        omega
      rw [hesp, htop, ← hframe i hi]
      apply hstack
      · rw [BitVec.add_assoc]
        exact pageOf_add hpage (by omega)
      · rw [htop, BitVec.add_assoc]
        exact add_le_add_word hpage (by rw [hnat, BitVec.toNat_ofNat]; omega) (by omega)

/-- In every run of tasks made by `thread_start` and by `fork`, `switch_to` goes on with the task
it is given: after that task's own call of `switch_to`, with its registers, its stack pointer and
its stack; or, the first time, in `kernel_thread` with the two arguments; or in `intr_exit` with
the parent's interrupt frame and `eax` zero. -/
theorem switch_resumes {kernelThread intrExit : Word} {m m' : Machine} {ret : Word}
    (h : (tasks kernelThread intrExit).Reachable m)
    (hs : (tasks kernelThread intrExit).step m (.switchTo ret) m') :
    m'.runningThread = m.cpu.mem (m.cpu.regs .esp + 4#32) ∧
      m'.Resumed kernelThread intrExit (m'.resumption m'.runningThread) := by
  obtain ⟨he, rfl⟩ := hs
  have hinv := reachable_inv h
  obtain ⟨x, hx, hd⟩ := hinv.left he he.2.2.2
  obtain ⟨hmem, heip, hesp, hebp, hebx, hedi, hesi⟩ := hinv.switch he hx
  have hrun : (m.step kernelThread intrExit (.switchTo ret)).runningThread =
      m.cpu.mem (m.cpu.regs .esp + 4#32) := by
    rw [Machine.runningThread, hesp]
    exact hx.inPage
  have hstack := hx.stack
  rw [← hmem] at hstack
  rw [← hrun] at hd hstack
  exact ⟨hrun, resumed_of_describes hd heip hesp hebp hebx hedi hesi hstack⟩

/-- The first task forks with 2 in the `eax` of its interrupt frame, and switches to the child. -/
theorem switch_resumes_fork : ∃ m m', (tasks 0xc0001500#32 0xc0002000#32).Reachable m ∧
    (tasks 0xc0001500#32 0xc0002000#32).step m (.switchTo 0xc0001010#32) m' ∧
    m.intrStack m.runningThread eaxIndex = 2#32 ∧ m'.runningThread = 0xc0105000#32 ∧
    m'.Resumed 0xc0001500#32 0xc0002000#32 (m'.resumption m'.runningThread) := by
  let mem (a : Word) : Word := if a = 0xc009ee00#32 then 0xc009e000#32
    else if a = 0xc009ee04#32 then 0xc0105000#32 else 2#32
  let start : Machine := ⟨⟨fun _ => 0xc009ee00#32, 0#32, mem⟩, [0xc009e000#32],
    fun _ => .starts 0#32 0#32⟩
  let m := start.step 0xc0001500#32 0xc0002000#32 (.fork 0xc0105000#32 fun _ => 0#32)
  have hr : (tasks 0xc0001500#32 0xc0002000#32).Reachable m :=
    .step (.init (s := start) (show start.threads = [start.runningThread] by decide))
      ⟨by decide, rfl⟩
  have hmem : ∀ a, pageOf a ≠ 0xc0105000#32 → m.cpu.mem a = mem a :=
    fun a ha => forkedMem_of_ne (fun _ => 0#32) (by decide) ha
  have hregs : m.cpu.regs = start.cpu.regs := by
    simp only [m, Machine.step, Machine.buildChildStack, Machine.copyPcbVaddrbitmapStack0,
      Machine.setFields, store_regs, setPage_regs]
  have hrun : m.runningThread = 0xc009e000#32 := by
    rw [Machine.runningThread, hregs]
    decide
  have hen : m.Enabled (.switchTo 0xc0001010#32) := by
    refine ⟨?_, ?_, ?_, ?_⟩
    · rw [hregs]
      decide
    · rw [hregs, hrun]
      decide
    · rw [hregs, hrun, hmem _ (by decide)]
      decide
    · rw [hregs, hmem _ (by decide)]
      decide
  have hstep : (tasks 0xc0001500#32 0xc0002000#32).step m (.switchTo 0xc0001010#32)
      (m.step 0xc0001500#32 0xc0002000#32 (.switchTo 0xc0001010#32)) := ⟨hen, rfl⟩
  have h := switch_resumes hr hstep
  refine ⟨m, _, hr, hstep, ?_, h.1.trans ?_, h.2⟩
  · rw [Machine.intrStack, hrun, hmem _ (by decide)]
    decide
  · rw [hregs, hmem _ (by decide)]
    decide

end Aitos.Proc.Switch
