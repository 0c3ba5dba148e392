import Aitos.Fs.Format

/-!
# Runs of system calls

Any process may make the next call.  A call that stops the machine is the end of its run.
-/

namespace Aitos.Fs

open Framework

inductive Call where
  | sysOpen (pathname : Path) (flags : UInt32)
  | sysClose (fd : Int)
  | sysWrite (fd : Int) (src : Bytes) (count : UInt32)
  | sysMkdir (pathname : Path)
  | sysUnlink (pathname : Path)
  | sysRmdir (pathname : Path)
  | sysOpendir (name : Path)
  | sysClosedir (d : DirPtr)
  | sysChdir (pathname : Path)
  | sysStat (pathname : Path)
  | sysFork (child : Pid)

inductive Reply where
  | fd (r : Option Nat)
  | count (r : Option UInt32)
  | done (ok : Bool)
  | dir (r : Option DirPtr)
  | stat (r : Option Stat)
  | forked

def Call.run : Call → FsM Reply
  | .sysOpen pathname flags => Reply.fd <$> Fs.sysOpen pathname flags
  | .sysClose fd => Reply.done <$> Fs.sysClose fd
  | .sysWrite fd src count => Reply.count <$> Fs.sysWrite fd src count
  | .sysMkdir pathname => Reply.done <$> Fs.sysMkdir pathname
  | .sysUnlink pathname => Reply.done <$> Fs.sysUnlink pathname
  | .sysRmdir pathname => Reply.done <$> Fs.sysRmdir pathname
  | .sysOpendir name => Reply.dir <$> Fs.sysOpendir name
  | .sysClosedir d => Reply.done <$> Fs.sysClosedir d
  | .sysChdir pathname => Reply.done <$> Fs.sysChdir pathname
  | .sysStat pathname => Reply.stat <$> Fs.sysStat pathname
  | .sysFork child => (fun _ => Reply.forked) <$> Fs.sysFork child

/-- A new process gets a page, and so a `pid`, that no live process has. -/
def Call.childFresh (s : State) : Call → Bool
  | .sysFork child => child ∉ s.procs
  | _ => true

@[simps -fullyApplied]
def State.switchTo (s : State) (pid : Pid) : State := { s with cur := pid }

/-- Who calls, what, and what comes back. -/
structure Event where
  pid : Pid
  call : Call
  reply : Reply

/-- Runs from the states in `start` of the calls in `allowed`. -/
def calls (start : State → Prop) (allowed : Call → Prop) : System State Event where
  init := start
  step s e s' := allowed e.call ∧ e.pid ∈ s.procs ∧ e.call.childFresh s = true ∧
    e.call.run (s.switchTo e.pid) = .ok (e.reply, s')

/-- Some partition was mounted. -/
def AnyMounted (s : State) : Prop := ∃ part disk, Mounted part disk s

/-- The state after one call, if the call is possible and returns. -/
def State.playOne (s : State) (pid : Pid) (c : Call) : Option State :=
  if pid ∈ s.procs ∧ c.childFresh s = true then
    match c.run (s.switchTo pid) with
    | .ok (_, s') => some s'
    | .error _ => none
  else none

def State.play (s : State) : List (Pid × Call) → Option State
  | [] => some s
  | (pid, c) :: cs => (s.playOne pid c).bind fun s' => s'.play cs

theorem playOne_step (start : State → Prop) {allowed : Call → Prop} {s s' : State} {pid : Pid}
    {c : Call} (hc : allowed c) (h : s.playOne pid c = some s') :
    ∃ r, (calls start allowed).step s ⟨pid, c, r⟩ s' := by
  rw [State.playOne] at h
  split at h
  · rename_i hcond
    split at h
    · rename_i r s₁ hrun
      obtain rfl := Option.some.inj h
      exact ⟨r, hc, hcond.1, hcond.2, hrun⟩
    · cases h
  · cases h

theorem play_reachable {start : State → Prop} {allowed : Call → Prop} (cs : List (Pid × Call)) :
    ∀ {s s' : State}, (calls start allowed).Reachable s → (∀ c ∈ cs, allowed c.2) →
      s.play cs = some s' → (calls start allowed).Reachable s' := by
  induction cs with
  | nil =>
      intro s s' hs _ h
      obtain rfl := Option.some.inj h
      exact hs
  | cons c cs ih =>
      intro s s' hs hcs h
      obtain ⟨s₁, h₁, h₂⟩ := Option.bind_eq_some_iff.mp h
      obtain ⟨r, hstep⟩ := playOne_step start (hcs c List.mem_cons_self) h₁
      exact ih (hs.step hstep) (fun c hc => hcs c (List.mem_cons_of_mem _ hc)) h₂

/-- A small partition on an empty disk. -/
def smallExtent : Extent := ⟨1, 700, by decide, ⟨by decide, by decide⟩⟩

/-- Its disk, when the stack was zero where the padding of the super block lies. -/
def smallDisk : Bytes := Format.partitionFormat 1 700 Bytes.zero Bytes.zero

/-- Format and mount the small partition; process `0` is there. -/
def smallSystem : Option State :=
  match openRootDir (mountPartition smallExtent.partition smallDisk) with
  | .ok (_, s) => some s
  | .error _ => none

theorem smallSystem_mounted {s : State} (h : smallSystem = some s) :
    Mounted smallExtent.partition smallDisk s := by
  rw [smallSystem] at h
  split at h
  · rename_i s₀ hopen
    obtain rfl := Option.some.inj h
    exact ⟨s₀, s₀.procs, hopen, rfl⟩
  · cases h

/-- A played list of calls on the small system shows what a run can reach. -/
theorem smallSystem_reachable {start : State → Prop} {allowed : Call → Prop} {P : State → Prop}
    (hstart : ∀ s, Mounted smallExtent.partition smallDisk s → start s)
    (cs : List (Pid × Call)) (hcs : ∀ c ∈ cs, allowed c.2)
    (h : ∃ s ∈ smallSystem.bind (State.play · cs), P s) :
    ∃ s, (calls start allowed).Reachable s ∧ P s := by
  obtain ⟨s', hs', hP⟩ := h
  obtain ⟨s, hs, hplay⟩ := Option.bind_eq_some_iff.mp hs'
  exact ⟨s', play_reachable cs (.init (hstart s (smallSystem_mounted hs))) hcs hplay, hP⟩

end Aitos.Fs
