import MipsOs.ForkCall

/-! sys_execv of syscall.c. Which file vfs_open finds and what load_elf makes of the kernel is left
open; of vfs_open and vfs_close only the counts of the vnode are kept. The array argPtrTable is on
the kernel's stack, where it has whatever was there before. A failing call puts the counts and the
interrupt level back on every path; the address space is gone once the program has been opened, and
most paths keep kernel blocks. -/

set_option autoImplicit false
namespace MipsOs.Sys
open Prog Bytes Accesses Function
open CopyInOut (userTop Touches)

def nameMax : Nat := 255

/-- INVAL_PTR and KERN_PTR -/
def invalPtr : Nat := 0x40000000
def kernPtr : Nat := 0x80000000

structure Image where
  mem : Buffer
  map : Mapping
  vmspace : Vm.AddrSpace
  frames : Vm.Frames
  tlb : List Vm.TlbEntry
  newBlocks : List (Nat × Nat)
  heapCalls : Nat

/-- The file system, and the address of argPtrTable. -/
structure Loader extends Library where
  vfsOpen : Buffer → Nat → Except Errno Nat
  loadElf : Nat → Kern → Except Errno Nat × Image
  argPtrTable : Nat

structure UserEntry where
  argc : Nat
  argv : Nat
  stackptr : Nat
  entrypoint : Nat

def index (a i : Nat) : Nat := (a + 4 * i) % 2^32

def sub32 (a b : Nat) : Nat := toU32 ((a : Int) - b)

section Arguments

def countArgsFrom (args : Nat) : Nat → Nat → Code Nat
  | 0, _ => halt .endless
  | n+1, i => do
    let arg ← getWord (index args i)
    if arg = 0 then pure i else countArgsFrom args n (i+1)

def countArgs (args : Nat) : Code Nat := countArgsFrom args (2^30) 0

variable (lib : Library)

def freeArgs (argKPtr : Nat) : Nat → Nat → Code Unit
  | 0, _ => pure ()
  | n+1, i => do
    kfree lib (← getWord (index argKPtr i))
    freeArgs argKPtr n (i+1)

def copyArg (args progNameKPtr argKPtr spl i : Nat) : Code Unit := do
  let len ← strlen (← getWord (index args i))
  putWord (index argKPtr i) (← kmalloc lib (len + 1))
  if (← getWord (index argKPtr i)) = 0 then
    freeArgs lib argKPtr i 0
    kfree lib argKPtr
    kfree lib progNameKPtr
    let _ ← splx spl
    fail .ENOMEM
  else
    let arg ← getWord (index args i)
    let result ← attempt (copyinstr arg (← getWord (index argKPtr i)) (len + 1))
    match result with
    | .ok _ => pure ()
    | .error e =>
      let _ ← splx spl
      fail e

structure Gathered where
  progNameKPtr : Nat
  argKPtr : Nat
  nArg : Nat

/-- sys_execv from the allocation of progNameKPtr to the end of the loop. -/
def gatherArgs (program args spl : Nat) : Code Gathered := do
  let progNameKPtr ← kmalloc lib nameMax
  if progNameKPtr = 0 then
    let _ ← splx spl
    fail .ENOMEM
  else
    match ← attempt (copyinstr program progNameKPtr nameMax) with
    | .error _ =>
      let _ ← splx spl
      fail .EFAULT
    | .ok _ =>
      let nArg ← countArgs args
      let argKPtr ← kmalloc lib ((nArg + 1) * 4)
      if argKPtr = 0 then
        kfree lib progNameKPtr
        let _ ← splx spl
        fail .ENOMEM
      else
        loop (fun i _ => copyArg lib args progNameKPtr argKPtr spl i) 0 nArg ()
        pure ⟨progNameKPtr,argKPtr,nArg⟩

def release (g : Gathered) : Code Unit := do
  kfree lib g.progNameKPtr
  freeArgs lib g.argKPtr g.nArg 0
  kfree lib g.argKPtr

end Arguments

section Loading

variable (ld : Loader)

def Kern.setCounts (k : Kern) (v : Nat) (d : Int) : Kern :=
  { k with
    refcount := update k.refcount v ((k.refcount v : Int) + d).toNat
    opencount := update k.opencount v ((k.opencount v : Int) + d).toNat }

def vfsOpen (name : Nat) : Code Nat := fun k =>
  match ld.vfsOpen k.space.mem name with
  | .error e => .err e k
  | .ok v => .ok v (k.setCounts v 1)

def vfsClose (v : Nat) : Code Unit := modify fun k => k.setCounts v (-1)

def Kern.setImage (k : Kern) (im : Image) : Kern :=
  { k with
    space := ⟨im.mem,k.space.trace⟩
    map := im.map
    vmspace := some im.vmspace
    mmu := { k.mmu with frames := im.frames, tlb := im.tlb }
    blocks := im.newBlocks ++ k.blocks
    heapCalls := im.heapCalls }

def loadElf (v : Nat) : Code Nat := fun k =>
  match (ld.loadElf v k).1 with
  | .error e => .err e (k.setImage (ld.loadElf v k).2)
  | .ok entrypoint => .ok entrypoint (k.setImage (ld.loadElf v k).2)

def destroyVmspace : Code Unit := fun k =>
  match k.vmspace with
  | none => .panic (.vm .nullPointer)
  | some as =>
    match Vm.asDestroy as k.mmu.frames with
    | .error s => .panic (.vm s)
    | .ok frames => .ok () { k with vmspace := none, mmu := { k.mmu with frames := frames } }

def createVmspace : Code Bool := do
  let as ← kmalloc ld.toLibrary sizeofAddrspace
  if as = 0 then pure false
  else
    modify fun k => { k with vmspace := some Vm.asCreate, mmu := Vm.asActivate k.mmu }
    pure true

def asDefineStack : Code (Except Errno Nat) := fun k =>
  match k.vmspace.bind Vm.AddrSpace.stack with
  | none => .panic (.vm .nullPointer)
  | some stack =>
    if stack.pstart ≠ 0 ∧ stack.pend ≠ 0 then .ok (.ok Vm.userStack) k
    else .panic (.assertion "as->stack->pstart != 0 && as->stack->pend != 0")

/-- The program `v` has been opened: from as_destroy to as_define_stack. The result is the entry
point and the stack pointer. -/
def loadOpened (g : Gathered) (spl v : Nat) : Code (Nat × Nat) := do
  destroyVmspace
  if (← createVmspace ld) = false then
    vfsClose v
    let _ ← splx spl
    fail .ENOMEM
  else
    match ← attempt (loadElf ld v) with
    | .error e =>
      release ld.toLibrary g
      vfsClose v
      let _ ← splx spl
      fail e
    | .ok entrypoint =>
      vfsClose v
      match ← asDefineStack with
      | .error e =>
        release ld.toLibrary g
        vfsClose v
        let _ ← splx spl
        fail e
      | .ok stackptr => pure (entrypoint,stackptr)

def loadProgram (g : Gathered) (spl : Nat) : Code (Nat × Nat) := do
  match ← attempt (vfsOpen ld g.progNameKPtr) with
  | .error e =>
    let _ ← splx spl
    fail e
  | .ok v => loadOpened ld g spl v

end Loading

section Stack

variable (ld : Loader)

def memLen (argLen : Nat) : Nat := if argLen % 4 ≠ 0 then argLen + (4 - argLen % 4) else argLen

/-- One round of the loop that copies the strings out. What copyoutstr returns is not looked at. -/
def pushString (argKPtr i stackptr : Nat) : Code Nat := do
  let len ← strlen (← getWord (index argKPtr i))
  let stackptr := sub32 stackptr (memLen (len + 1))
  let _ ← attempt (copyoutstr (← getWord (index argKPtr i)) stackptr (len + 1))
  putWord (index ld.argPtrTable i) stackptr
  pure stackptr

def pushStrings (argKPtr : Nat) : Nat → Nat → Code Nat
  | 0, stackptr => pure stackptr
  | n+1, stackptr => do
    let stackptr ← pushString ld argKPtr n stackptr
    pushStrings argKPtr n stackptr

def pushPointer (i stackptr : Nat) : Code Nat := do
  let stackptr := sub32 stackptr 4
  let _ ← attempt (copyout ld.toLibrary (index ld.argPtrTable i) stackptr 4)
  pure stackptr

def pushPointers : Nat → Nat → Code Nat
  | 0, stackptr => pure stackptr
  | n+1, stackptr => do
    let stackptr ← pushPointer ld n stackptr
    pushPointers n stackptr

end Stack

section Execv

variable (ld : Loader)

/-- The part of sys_execv with interrupts off. The second loop starts at nArg, one past the end of
argPtrTable. -/
def execProgram (program args : Nat) : Code UserEntry := do
  let spl ← splhigh
  let g ← gatherArgs ld.toLibrary program args spl
  let (entrypoint,stackptr) ← loadProgram ld g spl
  let stackptr ← pushStrings ld g.argKPtr g.nArg stackptr
  let stackptr ← pushPointers ld (g.nArg + 1) stackptr
  release ld.toLibrary g
  let _ ← splx spl
  pure ⟨g.nArg,stackptr,stackptr,entrypoint⟩

/-- The checks of single words of the caller, up to the count of the arguments. errKPtr is freed
only when copyin fails. -/
def checkArgs (program args : Nat) : Code Unit := do
  let errKPtr ← kmalloc ld.toLibrary 4
  match ← attempt (copyin ld.toLibrary program errKPtr 4) with
  | .error e =>
    kfree ld.toLibrary errKPtr
    fail e
  | .ok _ =>
    match ← attempt (copyin ld.toLibrary args errKPtr 4) with
    | .error e =>
      kfree ld.toLibrary errKPtr
      fail e
    | .ok _ =>
      if program = invalPtr ∨ args = invalPtr then fail .EFAULT
      else if program = kernPtr ∨ args = kernPtr then fail .EFAULT
      else if (← strlen program) = 0 then fail .EINVAL
      else
        let _ ← countArgs args
        if (← getWord (index args 1)) = invalPtr then fail .EFAULT
        else if (← getWord (index args 1)) = kernPtr then fail .EFAULT
        else if (← getWord (index args 1)) = 0 then fail .EFAULT
        else pure ()

/-- The value says how md_usermode is called. -/
def sysExecv (program args : Nat) : Code UserEntry := do
  if program = 0 ∨ args = 0 then fail .EFAULT
  else
    checkArgs ld program args
    execProgram ld program args

end Execv

def untouched : Vm.AddrSpace :=
  ⟨some ⟨0x400000,0x401000,1,0x1000,0x2000,[],0⟩,some ⟨0x10000000,0x10001000,1,0x2000,0x3000,[],0⟩,
    some ⟨0x10002000,0x10002000,0,0,0,[],0x10002000⟩,
    some ⟨Vm.userStack - 0x18000,Vm.userStack,24,0x3000,0x1b000,[],0⟩⟩

/-- A file system with one program, number 7, which is loaded with the given result. -/
def oneProgram (fails : Nat → Bool) (loaded : Except Errno Nat) : Loader where
  toLibrary := growing fails
  vfsOpen _ _ := .ok 7
  loadElf _ k := (loaded,⟨k.space.mem,allMapped,
    match loaded with
    | .ok _ => untouched
    | .error _ => Vm.asCreate,k.mmu.frames,k.mmu.tlb,[],k.heapCalls⟩)
  argPtrTable := 0x80300000

/-- The program's name is at 0x1000 and the arguments "a" and "b" are at 0x2000. The third word of
argPtrTable has been used before. -/
def twoArgs : Buffer := fun j =>
  if j = 0x1000 then 112 else if j = 0x2002 then 0x30 else if j = 0x2006 then 0x31
  else if j = 0x3000 then 97 else if j = 0x3100 then 98 else if j = 0x8030000b then 1 else 0

def caller (mem : Buffer) : Kern := { oneProcess mem with vmspace := some untouched }

structure Steady (k₀ : Kern) (c : Nat) (k : Kern) : Prop where
  refcount : k.refcount = k₀.refcount
  opencount : k.opencount = k₀.opencount
  curspl : k.mmu.curspl = c

structure Before (k₀ : Kern) (c : Nat) (k : Kern) : Prop extends Steady k₀ c k where
  vmspace : k.vmspace = k₀.vmspace
  map : k.map = k₀.map

theorem steady_aside (lib : Library) (k₀ : Kern) (c : Nat) : Aside lib (Steady k₀ c) where
  space _ _ h := ⟨h.1,h.2,h.3⟩
  blocks _ _ h := ⟨h.1,h.2,h.3⟩
  heap _ h := ⟨h.1,h.2,h.3⟩

theorem before_aside (lib : Library) (k₀ : Kern) (c : Nat) : Aside lib (Before k₀ c) where
  space _ _ h := ⟨⟨h.1.1,h.1.2,h.1.3⟩,h.2,h.3⟩
  blocks _ _ h := ⟨⟨h.1.1,h.1.2,h.1.3⟩,h.2,h.3⟩
  heap _ h := ⟨⟨h.1.1,h.1.2,h.1.3⟩,h.2,h.3⟩

section Arguments

variable {lib : Library} {I : Kern → Prop} (h : Aside lib I)
include h

theorem Aside.freeArgs (argKPtr n i : Nat) :
    Unerring I (fun _ => True) (Sys.freeArgs lib argKPtr n i) := by
  induction n generalizing i with
  | zero => exact .pure ()
  | succ n ih => exact .bind (h.deref_unerring _) fun _ => .bind (h.kfree_unerring _) fun _ => ih _

theorem Aside.release (g : Gathered) : Unerring I (fun _ => True) (Sys.release lib g) :=
  .bind (h.kfree_unerring _) fun _ => .bind (h.freeArgs _ _ _) fun _ => h.kfree_unerring _

theorem Aside.countArgs (args : Nat) : Unerring I (fun _ => True) (Sys.countArgs args) := by
  have hfrom : ∀ n i, Unerring I (fun _ => True) (countArgsFrom args n i) := by
    intro n
    induction n with
    | zero => exact fun _ => .halt trivial
    | succ n ih => exact fun i => .bind (h.deref_unerring _) fun _ => .ite (.pure _) (ih _)
  exact hfrom _ _

end Arguments

section Phases

variable {ld : Loader} {k₀ k : Kern} {c spl : Nat}

theorem Steady.trans {k₁ : Kern} {c' : Nat} (h : Steady k₀ c' k₁) (h' : Steady k₁ c k) :
    Steady k₀ c k :=
  ⟨h'.1.trans h.1,h'.2.trans h.2,h'.3⟩

variable {α : Type} {v name : Nat}

theorem splx_fail {Q : α → Kern → Prop} (e : Errno) (hk : Before k₀ c k) :
    ((splx spl >>= fun _ => fail e : Code α) k).Ends Q (fun _ k' => Before k₀ spl k')
      fun _ => True :=
  ⟨⟨hk.1.1,hk.1.2,rfl⟩,hk.2,hk.3⟩

theorem splx_fail_steady {Q : α → Kern → Prop} (e : Errno) (hk : Steady k₀ c k) :
    ((splx spl >>= fun _ => fail e : Code α) k).Ends Q (fun _ k' => Steady k₀ spl k')
      fun _ => True :=
  ⟨hk.1,hk.2,rfl⟩

theorem copyArg_ends (lib : Library) (args progNameKPtr argKPtr i : Nat) (hk : Before k₀ c k) :
    (copyArg lib args progNameKPtr argKPtr spl i k).Ends (fun _ k' => Before k₀ c k')
      (fun _ k' => Before k₀ spl k') fun _ => True := by
  have h := before_aside lib k₀ c
  refine (h.deref_unerring _ k hk).bind_unerring fun arg k₁ hk₁ => ?_
  refine (h.strlen arg k₁ hk₁).bind_unerring fun len k₂ hk₂ => ?_
  refine (h.kmalloc_unerring _ k₂ hk₂).bind_unerring fun p k₃ hk₃ => ?_
  refine (h.deref_unerring _ k₃ hk₃).bind_unerring fun _ k₄ hk₄ => ?_
  refine (h.deref_unerring _ k₄ hk₄).bind_unerring fun p' k₅ hk₅ => ?_
  split
  · refine (h.freeArgs argKPtr i 0 k₅ hk₅).bind_unerring fun _ k₆ hk₆ => ?_
    refine (h.kfree_unerring _ k₆ hk₆).bind_unerring fun _ k₇ hk₇ => ?_
    refine (h.kfree_unerring _ k₇ hk₇).bind_unerring fun _ k₈ hk₈ => ?_
    exact splx_fail _ hk₈
  · refine (h.deref_unerring _ k₅ hk₅).bind_unerring fun arg' k₆ hk₆ => ?_
    refine (h.deref_unerring _ k₆ hk₆).bind_unerring fun p'' k₇ hk₇ => ?_
    exact (h.onSpace _ k₇ hk₇).attempt_bind (fun _ _ hk₈ => hk₈) (fun e _ hk₈ => splx_fail e hk₈)
      fun _ hp => hp

theorem copyArgs_ends (lib : Library) (args progNameKPtr argKPtr n i : Nat) (hk : Before k₀ c k) :
    (loop (fun i _ => copyArg lib args progNameKPtr argKPtr spl i) i n () k).Ends
      (fun _ k' => Before k₀ c k') (fun _ k' => Before k₀ spl k') fun _ => True := by
  induction n generalizing i k with
  | zero => exact hk
  | succ n ih =>
    exact (copyArg_ends lib args progNameKPtr argKPtr i hk).andThen fun _ _ hk' => ih _ hk'

theorem gatherArgs_ends (lib : Library) (program args : Nat) (hk : Before k₀ c k) :
    (gatherArgs lib program args spl k).Ends (fun _ k' => Before k₀ c k')
      (fun _ k' => Before k₀ spl k') fun _ => True := by
  have h := before_aside lib k₀ c
  refine (h.kmalloc_unerring _ k hk).bind_unerring fun name k₁ hk₁ => ?_
  split
  · exact splx_fail _ hk₁
  refine (h.onSpace _ k₁ hk₁).attempt_bind (fun _ k₂ hk₂ => ?_) (fun _ _ hk₂ => splx_fail _ hk₂)
    fun _ hp => hp
  refine (h.countArgs args k₂ hk₂).bind_unerring fun nArg k₃ hk₃ => ?_
  refine (h.kmalloc_unerring _ k₃ hk₃).bind_unerring fun array k₄ hk₄ => ?_
  split
  · exact (h.kfree_unerring _ k₄ hk₄).bind_unerring fun _ _ hk₅ => splx_fail _ hk₅
  · exact (copyArgs_ends lib args name array nArg 0 hk₄).andThen fun _ _ hk₅ => hk₅

theorem setCounts_back (hk : Steady (k₀.setCounts v 1) c k) : Steady k₀ c (k.setCounts v (-1)) := by
  have href : k.refcount = update k₀.refcount v (k₀.refcount v + 1) := hk.refcount
  have hopen : k.opencount = update k₀.opencount v (k₀.opencount v + 1) := hk.opencount
  refine ⟨?_,?_,hk.curspl⟩
  · simp [Kern.setCounts,href]
  · simp [Kern.setCounts,hopen]

theorem destroyVmspace_ends (hk : Steady k₀ c k) :
    (destroyVmspace k).Ends (fun _ k' => Steady k₀ c k') (fun _ _ => False) fun _ => True := by
  unfold destroyVmspace
  cases k.vmspace with
  | none => trivial
  | some as =>
    cases hd : Vm.asDestroy as k.mmu.frames with
    | error s => simp [hd,Outcome.Ends]
    | ok frames => simpa [hd,Outcome.Ends] using ⟨hk.1,hk.2,hk.3⟩

theorem createVmspace_ends (hk : Steady k₀ c k) :
    (createVmspace ld k).Ends (fun _ k' => Steady k₀ c k') (fun _ _ => False) fun _ => True := by
  refine ((steady_aside ld.toLibrary k₀ c).kmalloc_unerring _ k hk).andThen fun as k₁ hk₁ => ?_
  split
  · exact hk₁
  · exact ⟨hk₁.1,hk₁.2,hk₁.3⟩

theorem loadElf_ends (v : Nat) (hk : Steady k₀ c k) :
    (loadElf ld v k).Ends (fun _ k' => Steady k₀ c k') (fun _ k' => Steady k₀ c k')
      fun _ => True := by
  unfold loadElf
  split
  · exact ⟨hk.1,hk.2,hk.3⟩
  · exact ⟨hk.1,hk.2,hk.3⟩

theorem asDefineStack_gives :
    (asDefineStack k).Ends (fun r k' => r = .ok Vm.userStack ∧ k' = k) (fun _ _ => False)
      fun _ => True := by
  unfold asDefineStack
  cases k.vmspace.bind Vm.AddrSpace.stack with
  | none => trivial
  | some stack =>
    simp only
    split
    · exact ⟨rfl,rfl⟩
    · trivial

/-- Whatever fails after the program has been opened, it is closed again. -/
theorem loadOpened_ends (g : Gathered) (v : Nat) (hk : Steady (k₀.setCounts v 1) c k) :
    (loadOpened ld g spl v k).Ends (fun _ k' => Steady k₀ c k') (fun _ k' => Steady k₀ spl k')
      fun _ => True := by
  refine (destroyVmspace_ends hk).bind_unerring fun _ k₁ hk₁ => ?_
  refine (createVmspace_ends hk₁).bind_unerring fun made k₂ hk₂ => ?_
  split
  · exact splx_fail_steady _ (setCounts_back hk₂)
  refine (loadElf_ends v hk₂).attempt_bind (fun entry k₃ hk₃ => ?_) (fun e k₃ hk₃ => ?_)
    fun _ hp => hp
  · refine asDefineStack_gives.bind_unerring fun r k₄ hr => ?_
    obtain ⟨rfl,rfl⟩ := hr
    exact setCounts_back hk₃
  · refine ((steady_aside ld.toLibrary _ c).release g k₃ hk₃).bind_unerring fun _ k₄ hk₄ => ?_
    exact splx_fail_steady _ (setCounts_back hk₄)

/-- As before, and if no program can be opened with the old address space. -/
def Failed (ld : Loader) (k₀ : Kern) (c : Nat) (k : Kern) : Prop :=
  Steady k₀ c k ∧ ((∀ mem name v, ld.vfsOpen mem name ≠ .ok v) → Before k₀ c k)

theorem Before.failed (hk : Before k₀ c k) : Failed ld k₀ c k := ⟨hk.toSteady,fun _ => hk⟩

theorem loadProgram_ends (g : Gathered) (hk : Before k₀ c k) :
    (loadProgram ld g spl k).Ends (fun _ k' => Steady k₀ c k') (fun _ k' => Failed ld k₀ spl k')
      fun _ => True := by
  unfold loadProgram
  cases hopen : ld.vfsOpen k.space.mem g.progNameKPtr with
  | error e =>
    have hv : vfsOpen ld g.progNameKPtr k = .err e k := by simp only [vfsOpen,hopen]
    rw [bind_ok (attempt_err hv)]
    exact (splx_fail e hk).mono (fun _ _ h => h) (fun _ _ h => h.failed) fun _ hp => hp
  | ok v =>
    have hv : vfsOpen ld g.progNameKPtr k = .ok v (k.setCounts v 1) := by
      simp only [vfsOpen,hopen]
    rw [bind_ok (attempt_ok hv)]
    exact (loadOpened_ends g v ⟨rfl,rfl,hk.curspl⟩).mono (fun _ _ h' => hk.toSteady.trans h')
      (fun _ _ h' => ⟨hk.toSteady.trans h',fun hno => absurd hopen (hno _ _ v)⟩) fun _ hp => hp

theorem pushStrings_unerring (argKPtr n stackptr : Nat) :
    Unerring (Steady k₀ c) (fun _ => True) (pushStrings ld argKPtr n stackptr) := by
  have h := steady_aside ld.toLibrary k₀ c
  induction n generalizing stackptr with
  | zero => exact .pure _
  | succ n ih =>
    refine .bind (.bind (h.deref_unerring _) fun _ => .bind (h.strlen _) fun _ => ?_) fun _ => ih _
    refine .bind (h.deref_unerring _) fun _ => .bind (.attempt (h.onSpace _)) fun _ => ?_
    exact .bind (h.deref_unerring _) fun _ => .pure _

theorem pushPointers_unerring (n stackptr : Nat) :
    Unerring (Steady k₀ c) (fun _ => True) (pushPointers ld n stackptr) := by
  have h := steady_aside ld.toLibrary k₀ c
  induction n generalizing stackptr with
  | zero => exact .pure _
  | succ n ih => exact .bind (.bind (.attempt (h.onSpace _)) fun _ => .pure _) fun _ => ih _

theorem splhigh_before (hk : Before k₀ c k) :
    ∃ k', splhigh k = .ok c k' ∧ Before k₀ Vm.splHigh k' := by
  refine ⟨{ k with mmu := { k.mmu with curspl := Vm.splHigh } },?_,⟨hk.1.1,hk.1.2,rfl⟩,hk.2,hk.3⟩
  rw [← hk.curspl]
  rfl

theorem execProgram_ends (program args : Nat) (hk : Before k₀ c k) :
    (execProgram ld program args k).Ends (fun _ _ => True) (fun _ k' => Failed ld k₀ c k')
      fun _ => True := by
  obtain ⟨k',hspl,hhigh⟩ := splhigh_before hk
  rw [execProgram,bind_ok hspl]
  refine (gatherArgs_ends ld.toLibrary program args hhigh).bind (fun g k₁ hk₁ => ?_)
    (fun _ _ he => he.failed) fun _ hp => hp
  refine (loadProgram_ends g hk₁).andThen fun r k₂ hk₂ => ?_
  refine (pushStrings_unerring _ _ _ k₂ hk₂).bind_unerring fun sp k₃ hk₃ => ?_
  refine (pushPointers_unerring _ _ k₃ hk₃).bind_unerring fun sp' k₄ hk₄ => ?_
  exact ((steady_aside ld.toLibrary k₀ _).release g k₄ hk₄).bind_unerring fun _ _ _ => trivial

theorem checkArgs_keeps (program args : Nat) :
    Keeps (Before k₀ c) (fun _ => True) (checkArgs ld program args) := by
  have h := before_aside ld.toLibrary k₀ c
  have hfreed : ∀ p e, Keeps (Before k₀ c) (fun _ => True)
      (kfree ld.toLibrary p >>= fun _ => fail e : Code Unit) := fun p e =>
    .bind (h.kfree p) fun _ => .fail e
  refine .bind (h.kmalloc 4) fun p => .bind (.attempt (h.onSpace _)) fun r => ?_
  cases r with
  | error e => exact hfreed p e
  | ok _ =>
    refine .bind (.attempt (h.onSpace _)) fun r => ?_
    cases r with
    | error e => exact hfreed p e
    | ok _ =>
      refine .ite (fun _ => .fail _) fun _ => .ite (fun _ => .fail _) fun _ => ?_
      refine .bind (h.strlen program).keeps fun _ => .ite (fun _ => .fail _) fun _ => ?_
      refine .bind (h.countArgs args).keeps fun _ => .bind (h.deref _) fun _ => ?_
      refine .ite (fun _ => .fail _) fun _ => .bind (h.deref _) fun _ => ?_
      refine .ite (fun _ => .fail _) fun _ => .bind (h.deref _) fun _ => ?_
      exact .ite (fun _ => .fail _) fun _ => .pure ()

theorem sysExecv_ends (ld : Loader) (program args : Nat) (k : Kern) :
    (sysExecv ld program args k).Ends (fun _ _ => True)
      (fun _ k' => Failed ld k k.mmu.curspl k') fun _ => True := by
  have hk : Before k k.mmu.curspl k := ⟨⟨rfl,rfl,rfl⟩,rfl,rfl⟩
  unfold sysExecv
  split
  · exact hk.failed
  · exact (checkArgs_keeps program args k hk).bind (fun _ _ hk' => execProgram_ends _ _ hk')
      (fun _ _ he => he.failed) fun _ hp => hp

end Phases

section Harmless

variable {ld : Loader} {k : Kern} {program args : Nat}

/-- The caller can go on as if there had been no call. -/
structure Harmless (k k' : Kern) : Prop extends Before k k.mmu.curspl k' where
  memory : ∀ j, j < userTop → k'.space.mem j = k.space.mem j
  blocks : k'.blocks = k.blocks

/-- A copy between the user's memory and some kernel address fails, whatever has been accessed
before. -/
def Rejects (copy : Nat → Prog Space Errno Stop Unit) : Prop :=
  ∀ kern s, userTop ≤ kern → ∃ e t, copy kern s = .err e t

/-- It never fails. -/
def Admits (copy : Nat → Prog Space Errno Stop Unit) : Prop :=
  ∀ kern s, userTop ≤ kern → ∀ e t, copy kern s ≠ .err e t

def Library.reading (lib : Library) (k : Kern) (p n kern : Nat) : Prog Space Errno Stop Unit :=
  CopyInOut.copyin lib.memcpy k.map.faults p kern n

def Library.storing (lib : Library) (k : Kern) (p n kern : Nat) : Prog Space Errno Stop Unit :=
  CopyInOut.copyout lib.memcpy k.map.faults kern p n

def Unreadable (ld : Loader) (k : Kern) (p : Nat) : Prop := Rejects (ld.reading k p 4)

theorem copyin_word (ld : Loader) {p kern : Nat} (hp : p < 2^32) (k : Kern) :
    (copyin ld.toLibrary p kern 4 k).Ends
      (fun _ k' => ∃ s, k' = k.setSpace s ∧
        ∀ j, j < kern ∨ kern + 4 ≤ j → s.mem j = k.space.mem j)
      (fun _ k' => ∃ s, k' = k.setSpace s ∧
        ∀ j, j < kern ∨ kern + 4 ≤ j → s.mem j = k.space.mem j)
      fun _ => False := by
  have hgrows : ∀ s, Grows (Touches false p kern 4) k.space s →
      ∀ j, j < kern ∨ kern + 4 ≤ j → s.mem j = k.space.mem j := by
    intro s hs j hj
    refine hs.mem_eq fun a ha hw => ?_
    rcases ha with ⟨hr,-⟩ | ⟨-,hlow,hhigh⟩
    · rw [hr] at hw
      cases hw
    · omega
  refine (copyin_ends hp (show 1 ≤ 4 by decide) (by decide)).mono ?_ ?_ fun _ hp => hp
  · rintro _ k' ⟨-,s,rfl,hs,-⟩
    exact ⟨s,rfl,hgrows s hs⟩
  · rintro _ k' ⟨-,rfl | ⟨-,s,rfl,hs⟩⟩
    · exact ⟨k'.space,rfl,fun _ _ => rfl⟩
    · exact ⟨s,rfl,hgrows s hs⟩

theorem Unreadable.copyin {p kern : Nat} (h : Unreadable ld k p) (hp : p < 2^32)
    (hkern : userTop ≤ kern) {k₁ : Kern} (hmap : k₁.map = k.map) :
    ∃ e s, Sys.copyin ld.toLibrary p kern 4 k₁ = .err e (k₁.setSpace s) ∧
      ∀ j, j < userTop → s.mem j = k₁.space.mem j := by
  obtain ⟨e,t,ht⟩ := h kern k₁.space hkern
  rw [Library.reading,← hmap] at ht
  have hrun : Sys.copyin ld.toLibrary p kern 4 k₁ = .err e (k₁.setSpace t) := onSpace_err ht
  have hend : (Sys.copyin ld.toLibrary p kern 4 k₁).Ends _ _ _ := copyin_word ld hp k₁
  rw [hrun] at hend
  obtain ⟨s,hs,hmem⟩ := hend
  have hspace : t = s := congrArg Kern.space hs
  exact ⟨e,t,hrun,fun j hj => hspace ▸ hmem j (.inl (by omega))⟩

theorem checkArgs_unreadable {a : Nat} (ha : ld.kmalloc k.heapCalls k.blocks 4 = some a)
    (hprogram : program < 2^32) (hargs : args < 2^32)
    (h : Unreadable ld k program ∨ Unreadable ld k args) :
    ∃ e k', checkArgs ld program args k = .err e k' ∧ Harmless k k' := by
  have hle : userTop ≤ a := Library.le_of_kmalloc ha
  obtain ⟨k₁,hmalloc,hmap,hspace,hfreed⟩ : ∃ k₁, kmalloc ld.toLibrary 4 k = .ok a k₁ ∧
      k₁.map = k.map ∧ k₁.space = k.space ∧
      ∀ s e, (∀ j, j < userTop → s.mem j = k₁.space.mem j) →
        ∃ e' k', (kfree ld.toLibrary a >>= fun _ => fail e : Code Unit) (k₁.setSpace s) =
          .err e' k' ∧ Harmless k k' := by
    refine ⟨_,kmalloc_some ha,rfl,rfl,fun s e hmem => ?_⟩
    rw [bind_ok (kfree_live List.mem_cons_self hle)]
    exact ⟨e,_,rfl,⟨⟨rfl,rfl,rfl⟩,rfl,rfl⟩,hmem,Library.without_cons ha⟩
  rw [checkArgs,bind_ok hmalloc]
  have hend : (Sys.copyin ld.toLibrary program a 4 k₁).Ends _ _ _ := copyin_word ld hprogram k₁
  cases hrun : Sys.copyin ld.toLibrary program a 4 k₁ with
  | ok _ k₂ =>
    rw [hrun] at hend
    obtain ⟨s,rfl,hmem⟩ := hend
    rw [bind_ok (attempt_ok hrun)]
    rcases h with hu | hu
    · obtain ⟨e,s',hrun',-⟩ := hu.copyin hprogram hle hmap
      rw [hrun'] at hrun
      cases hrun
    · have hmap' : (k₁.setSpace s).map = k.map := hmap
      obtain ⟨e,s',hrun',hmem'⟩ := hu.copyin hargs hle hmap'
      simp only
      rw [bind_ok (attempt_err hrun')]
      exact hfreed s' e fun j hj => (hmem' j hj).trans (hmem j (.inl (by omega)))
  | err e k₂ =>
    rw [hrun] at hend
    obtain ⟨s,rfl,hmem⟩ := hend
    rw [bind_ok (attempt_err hrun)]
    exact hfreed s e fun j hj => hmem j (.inl (by omega))
  | panic p =>
    rw [hrun] at hend
    exact hend.elim

/-- Without memory for the test, a pointer outside the user's memory is refused before anything is
written through NULL. -/
theorem checkArgs_outside (args : Nat) (ha : ld.kmalloc k.heapCalls k.blocks 4 = none)
    (hprogram : program < 2^32) (hout : userTop < program + 4) :
    checkArgs ld program args k = .err .EFAULT k.tick ∧ Harmless k k.tick := by
  refine ⟨?_,⟨⟨rfl,rfl,rfl⟩,rfl,rfl⟩,fun _ _ => rfl,rfl⟩
  rw [checkArgs,bind_ok (kmalloc_none ha),
    bind_ok (attempt_err (copyin_refused hprogram (by decide) (.inr hout)))]
  rfl

end Harmless

end MipsOs.Sys
