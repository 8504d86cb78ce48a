import MipsOs.AddressSpace
import MipsOs.CopyInOut
import MipsOs.Process
import MipsOs.PtrArray
import MipsOs.PtrQueue

/-! The kernel as the functions of syscall.c see it, in the context of the thread that has made the
system call: user and kernel memory, the blocks of the kernel heap, the thread system's tables, the
console. kmalloc is any allocator that hands out blocks apart from those in use. The calls that are
given a pointer: sys_waitpid, over a table that other processes work on while the caller sleeps, and
sys_write and sys_read, which know the console only. -/

set_option autoImplicit false
namespace MipsOs.Sys
open Prog Bytes Accesses
open CopyInOut (userTop userTop_eq Touches copyBlock_inside)
open Proc (totalProcesses)

/-- Which accesses fault in the current address space. The kernel's half is mapped directly. -/
structure Mapping where
  faults : Faults
  kernel : ∀ tr (a : Access), userTop ≤ a.addr → a.Aligned → faults tr a = false

/-- The registers of a trapframe that mips_syscall looks at. -/
structure Trapframe where
  v0 : Nat
  a0 : Nat
  a1 : Nat
  a2 : Nat
  a3 : Nat
  epc : Nat
  deriving DecidableEq, Repr

/-- struct process, with the pointers to its lock and its condition variable. A pointer to a thread
is an address here. -/
structure Slot extends Proc.Entry where
  exitpermission : Nat
  exitcv : Nat

/-- `blocks` are the address and the size of what kmalloc has returned and kfree has not got back;
`heapCalls` counts the calls of both. The arrays and the run queue come with the address of their
storage, the thread's name with its length. `trapframes` are those copied into heap blocks. -/
structure Kern where
  space : Space
  map : Mapping
  blocks : List (Nat × Nat)
  heapCalls : Nat
  mmu : Vm.Mmu
  vmspace : Option Vm.AddrSpace
  threadPID : Nat
  tNameLen : Nat
  tCwd : Option Nat
  refcount : Nat → Nat
  opencount : Nat → Nat
  table : Nat → Slot
  noprocesses : Nat
  numthreads : Nat
  sleepers : PtrArray Nat
  sleepersV : Nat
  zombies : PtrArray Nat
  zombiesV : Nat
  runqueue : PtrQueue Nat
  runqueueData : Nat
  trapframes : Nat → Trapframe
  input : Nat → Byte
  output : List Byte

/-- Why a system call does not come back to its caller. -/
inductive Stop where
  | kernelFault
  | badFree
  | endless
  | assertion (msg : String)
  | vm (s : Vm.Stop)
  | asleep
  | exited
  | shutdown
  | usermode
  deriving DecidableEq, Repr

/-- memcpy and the kernel heap. Whether the n-th call of the heap succeeds is open, and so is what
it does to the coremap; a request that fails has taken no page. -/
structure Library where
  memcpy : CopyRoutine
  kmalloc : Nat → List (Nat × Nat) → Nat → Option Nat
  fresh : ∀ n live sz a, kmalloc n live sz = some a → userTop ≤ a ∧ a + sz ≤ 2^32 ∧
    ∀ b ∈ live, b.1 ≠ a ∧ (a + sz ≤ b.1 ∨ b.1 + b.2 ≤ a)
  pages : Nat → Vm.Frames → Vm.Frames
  pages_none : ∀ n live sz f, kmalloc n live sz = none → pages n f = f

abbrev Code (α : Type) : Type := Prog Kern Errno Stop α

section Functions

variable {α : Type} (lib : Library)

def Kern.heapCall (k : Kern) : Kern :=
  { k with
    heapCalls := k.heapCalls + 1
    mmu := { k.mmu with frames := lib.pages k.heapCalls k.mmu.frames } }

def Kern.setBlocks (k : Kern) (blocks : List (Nat × Nat)) : Kern := { k with blocks := blocks }

def Kern.setSpace (k : Kern) (s : Space) : Kern := { k with space := s }

def kmalloc (sz : Nat) : Code Nat := fun k =>
  match lib.kmalloc k.heapCalls k.blocks sz with
  | none => .ok 0 (k.heapCall lib)
  | some a => .ok a ((k.heapCall lib).setBlocks ((a,sz) :: k.blocks))

def without (blocks : List (Nat × Nat)) (ptr : Nat) : List (Nat × Nat) :=
  blocks.filter fun b => decide (b.1 ≠ ptr)

def kfree (ptr : Nat) : Code Unit := fun k =>
  if ptr = 0 then .ok () k
  else if ptr ∈ k.blocks.map Prod.fst then
    .ok () ((k.heapCall lib).setBlocks (without k.blocks ptr))
  else .panic .badFree

def onSpace (f : Faults → Prog Space Errno Stop α) : Code α := fun k =>
  zoom Kern.space Kern.setSpace (f k.map.faults) k

def copyin (usersrc dest len : Nat) : Code Unit :=
  onSpace fun fl => CopyInOut.copyin lib.memcpy fl usersrc dest len

def copyout (src userdest len : Nat) : Code Unit :=
  onSpace fun fl => CopyInOut.copyout lib.memcpy fl src userdest len

def copyinstr (usersrc dest len : Nat) : Code Nat :=
  onSpace fun fl => CopyInOut.copyinstr fl usersrc dest len

def copyoutstr (src userdest len : Nat) : Code Nat :=
  onSpace fun fl => CopyInOut.copyoutstr fl src userdest len

/-- An access through a pointer. Without pcb_badfaultfunc a fault in the kernel is fatal. -/
def deref (f : Faults → Prog Space Fault Stop α) : Code α :=
  onSpace fun fl => orHalt (fun _ => .kernelFault) (f fl)

def getByte (addr : Nat) : Code Byte := deref fun fl => loadByte fl addr

def putByte (addr : Nat) (b : Byte) : Code Unit := deref fun fl => storeByte fl addr b

def getWord (addr : Nat) : Code Nat := deref fun fl => loadWord fl addr

def putWord (addr n : Nat) : Code Unit := deref fun fl => storeWord fl addr n

def strlenFrom (s : Nat) : Nat → Nat → Code Nat
  | 0, _ => halt .endless
  | n+1, i => do
    let ch ← getByte ((s + i) % 2^32)
    if ch = 0 then pure i else strlenFrom s n (i+1)

def strlen (s : Nat) : Code Nat := strlenFrom s (2^32) 0

def splx (spl : Nat) : Code Nat := fun k =>
  .ok k.mmu.curspl { k with mmu := { k.mmu with curspl := spl } }

def splhigh : Code Nat := splx Vm.splHigh

end Functions

section Calls

variable {lib : Library} {k : Kern} {sz a lo n : Nat}

theorem Mapping.quietOn (m : Mapping) (h : userTop ≤ lo) : QuietOn m.faults lo n :=
  fun tr a ha halign => m.kernel tr a (h.trans ha.1) halign

theorem Library.le_of_kmalloc (h : lib.kmalloc n k.blocks sz = some a) : userTop ≤ a :=
  (lib.fresh n k.blocks sz a h).1

theorem kmalloc_some (h : lib.kmalloc k.heapCalls k.blocks sz = some a) :
    kmalloc lib sz k = .ok a ((k.heapCall lib).setBlocks ((a,sz) :: k.blocks)) := by
  simp only [kmalloc,h]

def Kern.tick (k : Kern) : Kern := { k with heapCalls := k.heapCalls + 1 }

theorem kmalloc_none (h : lib.kmalloc k.heapCalls k.blocks sz = none) :
    kmalloc lib sz k = .ok 0 k.tick := by
  simp only [kmalloc,h,Kern.heapCall,lib.pages_none _ _ _ _ h,Kern.tick]

theorem kfree_live (h : a ∈ k.blocks.map Prod.fst) (ha : userTop ≤ a) :
    kfree lib a k = .ok () ((k.heapCall lib).setBlocks (without k.blocks a)) := by
  have hvalue := userTop_eq
  rw [kfree,if_neg (by omega),if_pos h]

variable {α : Type} {s : Space}

theorem onSpace_ok {f : Faults → Prog Space Errno Stop α} {r : α}
    (h : f k.map.faults k.space = .ok r s) : onSpace f k = .ok r (k.setSpace s) :=
  zoom_ok h

theorem onSpace_err {f : Faults → Prog Space Errno Stop α} {e : Errno}
    (h : f k.map.faults k.space = .err e s) : onSpace f k = .err e (k.setSpace s) :=
  zoom_err h

theorem deref_ok {f : Faults → Prog Space Fault Stop α} {r : α}
    (h : f k.map.faults k.space = .ok r s) : deref f k = .ok r (k.setSpace s) :=
  onSpace_ok (orHalt_ok h)

section Ends

variable {α : Type} {P : Stop → Prop}

theorem onSpace_ends {f : Faults → Prog Space Errno Stop α} {Q : α → Space → Prop}
    {E : Errno → Space → Prop} (h : (f k.map.faults k.space).Ends Q E P) :
    (onSpace f k).Ends (fun r k' => ∃ s, k' = k.setSpace s ∧ Q r s)
      (fun e k' => ∃ s, k' = k.setSpace s ∧ E e s) P :=
  .zoom (h.mono (fun _ s hs => ⟨s,rfl,hs⟩) (fun _ s hs => ⟨s,rfl,hs⟩) fun _ hp => hp)

theorem deref_ends {f : Faults → Prog Space Fault Stop α} {A : Access → Prop}
    (h : Obeys k.map.faults A k.space (f k.map.faults k.space)) (hp : P .kernelFault) :
    (deref f k).Ends (fun _ k' => ∃ s, k' = k.setSpace s ∧ Grows A k.space s)
      (fun _ _ => False) P :=
  (onSpace_ends (E := fun _ _ => False) (.orHalt h fun _ => hp)).mono (fun _ _ hk => hk)
    (fun _ _ ⟨_,_,he⟩ => he) fun _ hp => hp

end Ends

section Gives

variable {α : Type}

theorem onSpace_gives {f : Faults → Prog Space Errno Stop α} {Q : α → Space → Prop}
    (h : (f k.map.faults k.space).Gives Q) :
    (onSpace f k).Gives fun r k' => ∃ s, k' = k.setSpace s ∧ Q r s := by
  intro r k' hrun
  cases hf : f k.map.faults k.space with
  | ok a s =>
    rw [onSpace_ok hf] at hrun
    cases hrun
    exact ⟨_,rfl,h _ _ hf⟩
  | err e s =>
    rw [onSpace_err hf] at hrun
    cases hrun
  | panic p =>
    simp only [onSpace,zoom,hf] at hrun
    cases hrun

theorem deref_gives {f : Faults → Prog Space Fault Stop α} {Q : α → Space → Prop}
    (h : (f k.map.faults k.space).Gives Q) :
    (deref f k).Gives fun r k' => ∃ s, k' = k.setSpace s ∧ Q r s := by
  refine onSpace_gives fun a s hrun => ?_
  cases hf : f k.map.faults k.space with
  | ok b t =>
    rw [orHalt_ok hf] at hrun
    cases hrun
    exact h _ _ hf
  | err | panic =>
    simp only [orHalt,hf] at hrun
    cases hrun

theorem kfree_gives (lib : Library) (p : Nat) :
    (kfree lib p k).Gives fun _ k' => k'.space.mem = k.space.mem := by
  unfold kfree
  split
  · exact .pure rfl
  · split
    · exact .pure rfl
    · exact .panic _

end Gives

theorem getByte_kernel (h : userTop ≤ a) :
    getByte a k = .ok (k.space.mem a) (k.setSpace ⟨k.space.mem,⟨false,a,1⟩ :: k.space.trace⟩) :=
  deref_ok (loadByte_quiet (k.map.kernel _ _ h (Nat.one_dvd a)))

section Copies

variable {user kern len : Nat}

section

variable (hlen : 1 ≤ len) (hin : user + len ≤ userTop) (hkern : userTop ≤ kern)
  (hq : QuietOn k.map.faults user len)

include hlen hin hkern hq

theorem copyin_mapped :
    ∃ tr, copyin lib user kern len k =
      .ok () (k.setSpace ⟨splice k.space.mem kern len k.space.mem user,tr⟩) := by
  obtain ⟨tr,htr⟩ := CopyInOut.copyBlock_quiet (π := Stop) (c := lib.memcpy) (s := k.space) hlen hin
    (show Apart kern user len from .inr (by omega)) hq (k.map.quietOn hkern)
  exact ⟨tr,onSpace_ok htr⟩

end

theorem copyin_refused (huser : user < 2^32) (hlen : len < 2^32)
    (h : len = 0 ∨ userTop < user + len) : copyin lib user kern len k = .err .EFAULT k :=
  onSpace_err (CopyInOut.copyBlock_outside huser hlen h)

/-- A copy that goes through has read the whole block; one that does not has touched nothing, or
nothing but the two blocks. -/
theorem copyin_ends {P : Stop → Prop} (huser : user < 2^32) (hlen : 1 ≤ len) (hmax : len < 2^32) :
    (copyin lib user kern len k).Ends
      (fun _ k' => user + len ≤ userTop ∧ ∃ s, k' = k.setSpace s ∧
        Grows (Touches false user kern len) k.space s ∧ Loaded k.map.faults k.space s user len)
      (fun e k' => e = .EFAULT ∧ (k' = k ∨ user + len ≤ userTop ∧ ∃ s, k' = k.setSpace s ∧
        Grows (Touches false user kern len) k.space s)) P := by
  rcases Nat.lt_or_ge userTop (user + len) with hout | hin
  · rw [copyin_refused huser hmax (.inr hout)]
    exact ⟨rfl,.inl rfl⟩
  · have hcopy : (CopyInOut.copyin lib.memcpy k.map.faults user kern len k.space :
        Outcome Space Errno Stop Unit).Safe
        (fun _ s => Grows (Touches false user kern len) k.space s ∧
          Loaded k.map.faults k.space s user len)
        fun e s => e = .EFAULT ∧ Grows (Touches false user kern len) k.space s := by
      unfold CopyInOut.copyin
      rw [copyBlock_inside hlen hin]
      refine .mapErr (Outcome.Safe.mono (.and (memcpy_obeys lib.memcpy (fun a hw ha => ?_)
        fun a hw ha => ?_) (memcpy_loaded lib.memcpy)) (fun _ _ h => h) fun _ _ h => ⟨rfl,h.1.1⟩)
      · exact .inl ⟨hw,ha,ha.2.trans hin⟩
      · exact .inr ⟨hw,ha⟩
    refine (onSpace_ends (.of_safe hcopy)).mono (fun _ _ h => ⟨hin,h⟩) ?_ fun _ hp => hp
    rintro e k' ⟨s,rfl,he,hs⟩
    exact ⟨he,.inr ⟨hin,s,rfl,hs⟩⟩

end Copies

end Calls

section Spaces

variable {α : Type} {I : Kern → Prop} (hspace : ∀ k s, I k → I (k.setSpace s))
include hspace

theorem onSpace_keeps (f : Faults → Prog Space Errno Stop α) :
    Keeps I (fun _ => True) (onSpace f) := by
  intro k hk
  unfold onSpace zoom
  cases f k.map.faults k.space with
  | ok r s | err e s => exact hspace k s hk
  | panic p => trivial

theorem deref_unerring_of (f : Faults → Prog Space Fault Stop α) :
    Unerring I (fun _ => True) (deref f) := by
  intro k hk
  cases hf : f k.map.faults k.space with
  | ok r s =>
    rw [deref_ok hf]
    exact hspace k s hk
  | err | panic =>
    simp only [deref,onSpace,zoom,orHalt,hf]
    trivial

end Spaces

/-- A property of what accesses to memory and calls of the heap leave alone. -/
structure Aside (lib : Library) (I : Kern → Prop) : Prop where
  space : ∀ k s, I k → I (k.setSpace s)
  blocks : ∀ k bs, I k → I (k.setBlocks bs)
  heap : ∀ k, I k → I (k.heapCall lib)

namespace Aside

variable {α : Type} {lib : Library} {I : Kern → Prop} (h : Aside lib I)
include h

theorem kmalloc_unerring (sz : Nat) : Unerring I (fun _ => True) (Sys.kmalloc lib sz) := by
  intro k hk
  unfold Sys.kmalloc
  cases lib.kmalloc k.heapCalls k.blocks sz with
  | none => exact h.heap k hk
  | some a => exact h.blocks _ _ (h.heap k hk)

theorem kfree_unerring (ptr : Nat) : Unerring I (fun _ => True) (Sys.kfree lib ptr) := by
  intro k hk
  unfold Sys.kfree
  split
  · exact hk
  · split
    · exact h.blocks _ _ (h.heap k hk)
    · trivial

theorem kmalloc (sz : Nat) : Keeps I (fun _ => True) (Sys.kmalloc lib sz) :=
  (h.kmalloc_unerring sz).keeps

theorem kfree (ptr : Nat) : Keeps I (fun _ => True) (Sys.kfree lib ptr) :=
  (h.kfree_unerring ptr).keeps

theorem onSpace (f : Faults → Prog Space Errno Stop α) :
    Keeps I (fun _ => True) (Sys.onSpace f) := onSpace_keeps h.space f

theorem deref_unerring (f : Faults → Prog Space Fault Stop α) :
    Unerring I (fun _ => True) (Sys.deref f) := deref_unerring_of h.space f

theorem deref (f : Faults → Prog Space Fault Stop α) : Keeps I (fun _ => True) (Sys.deref f) :=
  (h.deref_unerring f).keeps

theorem putByte (a : Nat) (b : Byte) : Keeps I (fun _ => True) (Sys.putByte a b) := h.deref _

theorem strlen (p : Nat) : Unerring I (fun _ => True) (Sys.strlen p) := by
  have hfrom : ∀ n i, Unerring I (fun _ => True) (strlenFrom p n i) := by
    intro n
    induction n with
    | zero => exact fun _ => .halt trivial
    | succ n ih => exact fun i => .bind (h.deref_unerring _) fun _ => .ite (.pure _) (ih _)
  exact hfrom _ _

end Aside

def above : List (Nat × Nat) → Nat
  | [] => 0x80400000
  | b :: live => max (above live) ((b.1 + b.2 + 16) / 16 * 16)

theorem le_above (live : List (Nat × Nat)) : 0x80400000 ≤ above live := by
  induction live with
  | nil => exact Nat.le_refl _
  | cons b live ih => exact ih.trans (Nat.le_max_left _ _)

theorem end_le_above {live : List (Nat × Nat)} {b : Nat × Nat} (h : b ∈ live) :
    b.1 + b.2 < above live := by
  induction live with
  | nil => cases h
  | cons c live ih =>
    simp only [above]
    rcases List.mem_cons.mp h with rfl | h
    · omega
    · have := ih h
      omega

/-- A heap that puts each block above the others; call `n` fails if `fails n`. -/
def growing (fails : Nat → Bool) : Library where
  memcpy := bytewise
  kmalloc n live sz :=
    if fails n = true then none else if above live + sz ≤ 2^32 then some (above live) else none
  fresh n live sz a h := by
    have hlow := le_above live
    have hvalue := userTop_eq
    split at h
    · cases h
    · split at h
      · cases h
        refine ⟨by omega,by assumption,fun b hb => ?_⟩
        have := end_le_above hb
        omega
      · cases h
  pages _ f := f
  pages_none _ _ _ _ _ := rfl

def allMapped : Mapping := ⟨fun _ _ => false,fun _ _ _ _ => rfl⟩

def oneProcess (mem : Buffer) : Kern where
  space := ⟨mem,[]⟩
  map := allMapped
  blocks := []
  heapCalls := 0
  mmu := ⟨Vm.vmBootstrap Vm.smallMemory,[],0⟩
  vmspace := some Vm.asCreate
  threadPID := 1
  tNameLen := 4
  tCwd := none
  refcount := fun _ => 0
  opencount := fun _ => 0
  table := fun p => ⟨⟨if p = 1 then some 0x80200000 else none,p == 1,false,0,false,0,none⟩,0,0⟩
  noprocesses := 2
  numthreads := 1
  sleepers := .arrayCreate fun _ => 0
  sleepersV := 0
  zombies := .arrayCreate fun _ => 0
  zombiesV := 0
  runqueue := .qCreate 32 (fun _ => 0) PtrQueue.runqueue_size
  runqueueData := 0x80100000
  trapframes := fun _ => ⟨0,0,0,0,0,0⟩
  input := fun i => BitVec.ofNat 8 (97 + i)
  output := []

/-- What the other threads do while this one sleeps, if they wake it up at all: its own memory is
left alone. -/
structure Waiters extends Library where
  meanwhile : Kern → Option Kern
  own : ∀ k k', meanwhile k = some k' → k'.space = k.space ∧ k'.map = k.map ∧
    k'.vmspace = k.vmspace ∧ k'.threadPID = k.threadPID ∧ k'.mmu.curspl = k.mmu.curspl

variable (w : Waiters)

/-- lock_acquire, cv_wait and lock_release on a table entry. -/
def cvWait (pid : Nat) : Code Unit := fun k =>
  if (k.table pid).exitpermission = 0 then .panic (.assertion "lock != NULL")
  else if (k.table pid).exitcv = 0 then .panic (.assertion "cv != NULL")
  else
    match w.meanwhile k with
    | none => .panic .asleep
    | some k' => .ok () k'

def Kern.setWaiting (k : Kern) (pid : Nat) : Kern :=
  { k with table := Function.update k.table pid { k.table pid with waiting := true } }

def waitFor (pid status : Nat) : Code Int := do
  let k ← get
  if (k.table pid).processthread = none then fail .EINVAL
  else if (k.table pid).waiting = true then fail .EINVAL
  else if pid = k.threadPID then fail .EINVAL
  else if pid = (k.table k.threadPID).parentPID then fail .EINVAL
  else if (k.table pid).exited = true then
    putWord status (toU32 (k.table pid).exitcode)
    pure pid
  else
    cvWait w pid
    let k ← get
    putWord status (toU32 (k.table pid).exitcode)
    modify fun k => k.setWaiting pid
    pure pid

@[irreducible] def misaligned (status : Nat) : Bool := (toInt32 status).tmod 4 != 0

/-- The value is what is stored through retval. Process 0 gets its status before any check of the
pointer; memcheck is only freed when copyin fails. -/
def sysWaitpid (pid : Int) (status : Nat) (options : Int) : Code Int := do
  if options ≠ 0 then fail .EINVAL
  else if status = 0 then fail .EFAULT
  else if pid < 0 ∨ pid ≥ totalProcesses then fail .EINVAL
  else if pid = 0 then
    putWord status 0
    fail .EINVAL
  else
    let memcheck ← kmalloc w.toLibrary 4
    match ← attempt (copyin w.toLibrary status memcheck 4) with
    | .error e =>
      kfree w.toLibrary memcheck
      fail e
    | .ok _ =>
      if misaligned status = true then fail .EINVAL
      else waitFor w pid.toNat status

section Stores

variable {w : Waiters} {k : Kern} {pid status : Nat}

theorem putWord_ends (n : Nat) : (putWord status n k).Ends
    (fun _ k' => k.space.trace <:+ k'.space.trace ∧ k'.mmu.curspl = k.mmu.curspl ∧
      k'.blocks = k.blocks) (fun _ _ => False) fun _ => True := by
  refine (deref_ends (A := fun _ => True) (storeWord_obeys n trivial) trivial).mono ?_
    (fun _ _ he => he) fun _ hp => hp
  rintro r k' ⟨s,rfl,hs⟩
  exact ⟨hs.suffix,rfl,rfl⟩

/-- The other threads leave the heap as it is while the caller sleeps. -/
def Waiters.Still (w : Waiters) : Prop :=
  ∀ k k', w.meanwhile k = some k' → k'.blocks = k.blocks

theorem cvWait_ends : (cvWait w pid k).Ends
    (fun _ k' => k'.space = k.space ∧ k'.mmu.curspl = k.mmu.curspl ∧
      (w.Still → k'.blocks = k.blocks)) (fun _ _ => False) fun _ => True := by
  unfold cvWait
  split
  · trivial
  · split
    · trivial
    · cases hk : w.meanwhile k with
      | none => trivial
      | some k' => exact ⟨(w.own k k' hk).1,(w.own k k' hk).2.2.2.2,fun h => h k k' hk⟩

theorem waitFor_ends : (waitFor w pid status k).Ends
    (fun _ k' => k.space.trace <:+ k'.space.trace ∧ k'.mmu.curspl = k.mmu.curspl ∧
      (w.Still → k'.blocks = k.blocks)) (fun e k' => e = .EINVAL ∧ k' = k) fun _ => True := by
  rw [waitFor,get_bind]
  split
  · exact ⟨rfl,rfl⟩
  split
  · exact ⟨rfl,rfl⟩
  split
  · exact ⟨rfl,rfl⟩
  split
  · exact ⟨rfl,rfl⟩
  split
  · exact (putWord_ends _).bind_unerring fun _ _ ht => ⟨ht.1,ht.2.1,fun _ => ht.2.2⟩
  · refine cvWait_ends.bind_unerring fun _ t ht => ?_
    rw [get_bind,← ht.1,← ht.2.1]
    exact (putWord_ends _).bind_unerring fun _ _ hu =>
      ⟨hu.1,hu.2.1,fun h => hu.2.2.trans (ht.2.2 h)⟩

theorem aligned_of_user (hin : status < 2^31) (h : misaligned status = false) :
    status % 4 = 0 := by
  unfold misaligned at h
  have htmod := bne_eq_false_iff_eq.mp h
  rw [toInt32_of_lt hin,Int.tmod_eq_emod_of_nonneg (by omega)] at htmod
  omega

theorem kmalloc_cases (lib : Library) (sz : Nat) (k : Kern) :
    ∃ p k', kmalloc lib sz k = .ok p k' ∧ k'.space = k.space ∧ k'.map = k.map ∧
      (p = 0 ∨ userTop ≤ p ∧ p ∈ k'.blocks.map Prod.fst) := by
  cases ha : lib.kmalloc k.heapCalls k.blocks sz with
  | none => exact ⟨_,_,kmalloc_none ha,rfl,rfl,.inl rfl⟩
  | some a =>
    exact ⟨_,_,kmalloc_some ha,rfl,rfl,.inr ⟨Library.le_of_kmalloc ha,List.mem_cons_self⟩⟩

theorem kfree_cases {p : Nat} (hp : p = 0 ∨ userTop ≤ p ∧ p ∈ k.blocks.map Prod.fst)
    (lib : Library) : ∃ k', kfree lib p k = .ok () k' ∧ k'.space = k.space := by
  rcases hp with rfl | ⟨hle,hmem⟩
  · exact ⟨k,rfl,rfl⟩
  · exact ⟨_,kfree_live hmem hle,rfl⟩

theorem touches_ne {memcheck : Nat} (hnull : status ≠ 0) (hin : status + 4 ≤ userTop)
    (hp : memcheck = 0 ∨ userTop ≤ memcheck) {a : Access} (h : Touches false status memcheck 4 a) :
    a ≠ ⟨true,status,4⟩ := by
  rintro rfl
  rcases h with ⟨hw,-⟩ | ⟨-,hlow,hhigh⟩
  · cases hw
  · have hlow' : memcheck ≤ status := hlow
    have hhigh' : status + 4 ≤ memcheck + 4 := hhigh
    omega

theorem putWord_run (a n : Nat) (k : Kern) : putWord a n k =
    if k.map.faults k.space.trace ⟨true,a,4⟩ then .panic .kernelFault
    else .ok () (k.setSpace ⟨splice k.space.mem a 4 (be32Byte n) 0,⟨true,a,4⟩ :: k.space.trace⟩) := by
  cases h : k.map.faults k.space.trace ⟨true,a,4⟩ with
  | true =>
    simp only [putWord,deref,onSpace,zoom,orHalt,storeWord,bind_err (access_err h)]
    rfl
  | false => exact deref_ok (by rw [storeWord,bind_ok (access_ok h)]; rfl)

/-- A success means that the pointer is one to mapped user memory, and with an error nothing has been
stored through it: for every process but 0, and for that one if the call returns before the store
or the store is fatal. -/
theorem waitpid_stores (w : Waiters) (k : Kern) (pid : Int) (status : Nat) (options : Int)
    (hstatus : status < 2^32) :
    (sysWaitpid w pid status options k).Ends
      (fun _ k' => status % 4 = 0 ∧ status + 4 ≤ userTop ∧
        Loaded k.map.faults k.space k'.space status 4)
      (fun _ k' => Grows (fun a => a ≠ ⟨true,status,4⟩) k.space k'.space) (fun _ => True) ↔
    pid ≠ 0 ∨ options ≠ 0 ∨ status = 0 ∨ k.map.faults k.space.trace ⟨true,status,4⟩ = true := by
  rw [sysWaitpid]
  split
  · next hopt => exact iff_of_true (Grows.refl _ _) (.inr (.inl hopt))
  split
  · next hnull => exact iff_of_true (Grows.refl _ _) (.inr (.inr (.inl hnull)))
  next hopt hnull =>
  split
  · next hrange => exact iff_of_true (Grows.refl _ _) (.inl (by rintro rfl; revert hrange; decide))
  split
  · next hpid =>
    simp only [hpid,hopt,hnull,ne_eq,not_true,false_or]
    have hput := putWord_run status 0 k
    cases hf : k.map.faults k.space.trace ⟨true,status,4⟩ with
    | true =>
      rw [hf,if_pos rfl] at hput
      rw [bind_panic hput]
      exact iff_of_true trivial rfl
    | false =>
      rw [hf,if_neg (by simp)] at hput
      rw [bind_ok hput]
      refine iff_of_false (fun ⟨new,hnew,hall,_⟩ => ?_) (by simp)
      have hone : new = [⟨true,status,4⟩] := List.append_cancel_right hnew.symm
      exact hall _ (hone ▸ List.mem_cons_self) rfl
  next hpid =>
  refine iff_of_true ?_ (.inl hpid)
  obtain ⟨memcheck,k₁,hmalloc,hspace,hmap,hp⟩ := kmalloc_cases w.toLibrary 4 k
  rw [bind_ok hmalloc,← hspace,← hmap]
  have hne : ∀ {s}, status + 4 ≤ userTop → Grows (Touches false status memcheck 4) k₁.space s →
      Grows (fun a => a ≠ ⟨true,status,4⟩) k₁.space s := fun hin h =>
    h.mono fun _ ha => touches_ne hnull hin (hp.imp_right And.left) ha
  -- the pointer has been read through
  have hread : ∀ s, status + 4 ≤ userTop → Grows (Touches false status memcheck 4) k₁.space s →
      Loaded k₁.map.faults k₁.space s status 4 →
      ((if misaligned status = true then fail .EINVAL else waitFor w pid.toNat status :
        Code Int) (k₁.setSpace s)).Ends
        (fun _ k' => status % 4 = 0 ∧ status + 4 ≤ userTop ∧
          Loaded k₁.map.faults k₁.space k'.space status 4)
        (fun _ k' => Grows (fun a => a ≠ ⟨true,status,4⟩) k₁.space k'.space) fun _ => True := by
    intro s hin hgrows hloaded
    split
    · exact hne hin hgrows
    · next halign =>
      have hlow : status < 2^31 := by unfold userTop at hin; omega
      have haligned := aligned_of_user hlow (by simpa using halign)
      refine waitFor_ends.mono (fun _ k' ht => ⟨haligned,hin,hloaded.later ht.1⟩) ?_ fun _ hp => hp
      rintro _ k' ⟨-,rfl⟩
      exact hne hin hgrows
  -- it has not: memcheck is freed
  have hfreed : ∀ k₂ : Kern, k₂.blocks = k₁.blocks →
      Grows (fun a => a ≠ ⟨true,status,4⟩) k₁.space k₂.space →
      ((kfree w.toLibrary memcheck >>= fun _ => fail .EFAULT : Code Int) k₂).Ends
        (fun _ k' => status % 4 = 0 ∧ status + 4 ≤ userTop ∧
          Loaded k₁.map.faults k₁.space k'.space status 4)
        (fun _ k' => Grows (fun a => a ≠ ⟨true,status,4⟩) k₁.space k'.space) fun _ => True := by
    intro k₂ hblocks hgrows
    obtain ⟨k₃,hfree,hspace₃⟩ := kfree_cases (hblocks ▸ hp) w.toLibrary
    rw [bind_ok hfree]
    show Grows _ k₁.space k₃.space
    rw [hspace₃]
    exact hgrows
  refine (copyin_ends (P := fun _ => False) hstatus (show 1 ≤ 4 by decide) (by decide)).attempt_bind
    (fun _ k₂ ⟨hin,s,hs,hgrows,hloaded⟩ => ?_) (fun e k₂ ⟨he,hk₂⟩ => ?_) fun _ hp => hp.elim
  · rw [hs]
    exact hread s hin hgrows hloaded
  · subst he
    rcases hk₂ with rfl | ⟨hin,s,rfl,hgrows⟩
    · exact hfreed _ rfl (Grows.refl _ _)
    · exact hfreed _ rfl (hne hin hgrows)

def oneExited (mem : Buffer) : Kern :=
  { oneProcess mem with
    table := fun p => ⟨⟨some 0x80200000,true,p == 2,5,false,0,none⟩,0x80210000,0x80220000⟩ }

def soundSleepers (lib : Library) : Waiters := ⟨lib,fun _ => none,by simp⟩

theorem waitpid_stores_exited : ∃ k',
    sysWaitpid (soundSleepers (growing fun _ => false)) 2 0x1000 0 (oneExited fun _ => 0) = .ok 2 k' ∧
      Loaded (fun _ _ => false) (oneExited fun _ => 0).space k'.space 0x1000 4 := by
  have hends := (waitpid_stores (soundSleepers (growing fun _ => false)) (oneExited fun _ => 0) 2
    0x1000 0 (by decide)).mpr (.inl (by decide))
  have hrun : (sysWaitpid (soundSleepers (growing fun _ => false)) 2 0x1000 0
      (oneExited fun _ => 0)).test (fun r _ => r == 2) = true := by decide +kernel
  obtain ⟨r,k',hk,hr⟩ := Outcome.test_eq_true hrun
  rw [hk] at hends ⊢
  rw [beq_iff_eq] at hr
  exact ⟨k',by rw [hr],hends.2.2⟩

/-- For process 0 a kernel address is written to, and EINVAL comes back. -/
theorem waitpid_writes_kernel_memory : ∃ k',
    sysWaitpid (soundSleepers (growing fun _ => false)) 0 0x80001000 0 (oneProcess fun _ => 7) =
      .err .EINVAL k' ∧ (oneProcess fun _ => 7).space.mem 0x80001000 = 7 ∧
      k'.space.mem 0x80001000 = 0 :=
  ⟨_,rfl,rfl,rfl⟩

end Stores

def stdinFileno : Int := 0
def stdoutFileno : Int := 1
def stderrFileno : Int := 2

def sizeofPtr : Nat := 4

def putch (ch : Byte) : Code Unit := modify fun k => { k with output := k.output ++ [ch] }

def getch : Code Byte := fun k => .ok (k.input 0) { k with input := fun i => k.input (i+1) }

variable (lib : Library)

/-- A block that has not been copied in stays allocated. -/
def sysWrite (fd : Int) (buf nbytes : Nat) : Code Unit := do
  if fd ≠ stdoutFileno ∧ fd ≠ stderrFileno then fail .EBADF
  else
    let array ← kmalloc lib nbytes
    let result ← attempt (copyin lib buf array nbytes)
    if result = .error .EFAULT then fail .EFAULT
    else
      loop (fun i _ => do putch (← getByte (array + i))) 0 nbytes ()
      kfree lib array

/-- The number of bytes copied out is the size of the pointer. -/
def sysRead (fd : Int) (buf buflen : Nat) : Code Unit := do
  if fd ≠ stdinFileno then fail .EBADF
  else
    let array ← kmalloc lib buflen
    loop (fun i _ => do putByte (array + i) (← getch)) 0 buflen ()
    let result ← attempt (copyout lib array buf sizeofPtr)
    if result = .error .EFAULT then fail .EFAULT
    else kfree lib array

section Write

variable {lib : Library} {k : Kern} {fd : Int} {buf nbytes a : Nat}

def bytesAt (b : Buffer) (p i n : Nat) : List Byte := (List.range' i n).map fun j => b (p + j)

def Kern.setOutput (k : Kern) (output : List Byte) : Kern := { k with output := output }

theorem putLoop_run (ha : userTop ≤ a) (n i : Nat) (k : Kern) :
    ∃ tr, loop (fun i _ => do putch (← getByte (a + i))) i n () k =
      .ok () ((k.setSpace ⟨k.space.mem,tr⟩).setOutput (k.output ++ bytesAt k.space.mem a i n)) := by
  induction n generalizing i k with
  | zero => exact ⟨k.space.trace,by simp [loop,bytesAt,Kern.setSpace,Kern.setOutput]⟩
  | succ n ih =>
    have hbody : (do putch (← getByte (a + i)) : Code Unit) k = .ok ()
        ((k.setSpace ⟨k.space.mem,⟨false,a + i,1⟩ :: k.space.trace⟩).setOutput
          (k.output ++ [k.space.mem (a + i)])) := by
      rw [bind_ok (getByte_kernel (by omega))]
      rfl
    obtain ⟨tr,htr⟩ := ih (i+1) ((k.setSpace
      ⟨k.space.mem,⟨false,a + i,1⟩ :: k.space.trace⟩).setOutput (k.output ++ [k.space.mem (a + i)]))
    refine ⟨tr,?_⟩
    rw [loop,bind_ok hbody,htr]
    simp [Kern.setSpace,Kern.setOutput,bytesAt,List.range'_succ]

theorem sysWrite_mapped (hfd : fd = stdoutFileno ∨ fd = stderrFileno) (hn : 1 ≤ nbytes)
    (hin : buf + nbytes ≤ userTop) (hq : QuietOn k.map.faults buf nbytes)
    (ha : lib.kmalloc k.heapCalls k.blocks nbytes = some a) :
    ∃ k', sysWrite lib fd buf nbytes k = .ok () k' ∧
      k'.output = k.output ++ bytesAt k.space.mem buf 0 nbytes := by
  have hkern := Library.le_of_kmalloc ha
  have hfd' : ¬ (fd ≠ stdoutFileno ∧ fd ≠ stderrFileno) := by omega
  obtain ⟨tr,hcopy⟩ : ∃ tr, copyin lib buf a nbytes
      ((k.heapCall lib).setBlocks ((a,nbytes) :: k.blocks)) =
        .ok () (((k.heapCall lib).setBlocks ((a,nbytes) :: k.blocks)).setSpace
          ⟨splice k.space.mem a nbytes k.space.mem buf,tr⟩) := copyin_mapped hn hin hkern hq
  rw [sysWrite,if_neg hfd',bind_ok (kmalloc_some ha),bind_ok (attempt_ok hcopy),if_neg (by simp)]
  obtain ⟨tr',hloop⟩ := putLoop_run hkern nbytes 0 (((k.heapCall lib).setBlocks
    ((a,nbytes) :: k.blocks)).setSpace ⟨splice k.space.mem a nbytes k.space.mem buf,tr⟩)
  rw [bind_ok hloop,kfree_live (by simp [Kern.setOutput,Kern.setSpace,Kern.setBlocks]) hkern]
  refine ⟨_,rfl,?_⟩
  have hcopied : bytesAt (splice k.space.mem a nbytes k.space.mem buf) a 0 nbytes =
      bytesAt k.space.mem buf 0 nbytes := by
    refine List.map_congr_left fun i hi => ?_
    have hi' := List.mem_range'_1.mp hi
    rw [splice_inside (by omega) (by omega)]
    congr 1
    omega
  simp [Kern.setOutput,Kern.setSpace,Kern.setBlocks,Kern.heapCall,hcopied]

theorem sysWrite_refused (hfd : fd = stdoutFileno ∨ fd = stderrFileno) (hbuf : buf < 2^32)
    (hn : nbytes < 2^32) (h : nbytes = 0 ∨ userTop < buf + nbytes) :
    ∃ k', sysWrite lib fd buf nbytes k = .err .EFAULT k' ∧ k'.output = k.output := by
  have hfd' : ¬ (fd ≠ stdoutFileno ∧ fd ≠ stderrFileno) := by omega
  have hmalloc : ∃ p k', kmalloc lib nbytes k = .ok p k' ∧ k'.output = k.output := by
    cases ha : lib.kmalloc k.heapCalls k.blocks nbytes with
    | none => exact ⟨_,_,kmalloc_none ha,rfl⟩
    | some a => exact ⟨_,_,kmalloc_some ha,rfl⟩
  obtain ⟨p,k',hk,hout⟩ := hmalloc
  refine ⟨k',?_,hout⟩
  rw [sysWrite,if_neg hfd',bind_ok hk,bind_ok (attempt_err (copyin_refused hbuf hn h)),if_pos rfl]
  rfl

/-- A buffer is written, or refused, as it should be if and only if it is not an empty one in user
space for which there was memory. -/
theorem console_write (lib : Library) (k : Kern) (hfd : fd = stdoutFileno ∨ fd = stderrFileno)
    (hbuf : buf < 2^32) (hn : nbytes < 2^32)
    (hq : buf + nbytes ≤ userTop → QuietOn k.map.faults buf nbytes) :
    ((buf + nbytes ≤ userTop → (lib.kmalloc k.heapCalls k.blocks nbytes).isSome = true →
      ∃ k', sysWrite lib fd buf nbytes k = .ok () k' ∧
        k'.output = k.output ++ bytesAt k.space.mem buf 0 nbytes) ∧
    (¬ buf + nbytes ≤ userTop →
      ∃ k', sysWrite lib fd buf nbytes k = .err .EFAULT k' ∧ k'.output = k.output)) ↔
    1 ≤ nbytes ∨ userTop < buf ∨ lib.kmalloc k.heapCalls k.blocks nbytes = none := by
  refine ⟨fun ⟨hin,_⟩ => ?_,fun h => ⟨fun hin hsome => ?_,fun hout =>
    sysWrite_refused hfd hbuf hn (by omega)⟩⟩
  · by_contra hno
    simp only [not_or] at hno
    obtain ⟨hempty,htop,hnone⟩ := hno
    obtain ⟨k',hk,_⟩ := hin (by omega) (Option.isSome_iff_ne_none.mpr hnone)
    cases hk.symm.trans (sysWrite_refused hfd hbuf hn (.inl (by omega))).choose_spec.1
  · obtain ⟨a,ha⟩ := Option.isSome_iff_exists.mp hsome
    have hnone : lib.kmalloc k.heapCalls k.blocks nbytes ≠ none := by rw [ha]; simp
    have hpos : 1 ≤ nbytes := by
      rcases h with h | h | h
      · exact h
      · omega
      · exact (hnone h).elim
    exact sysWrite_mapped hfd hpos hin (hq hin) ha

theorem console_write_two :
    QuietOn (oneProcess fun i => BitVec.ofNat 8 i).map.faults 0x1041 2 ∧
    ∃ k', sysWrite (growing fun _ => false) 1 0x1041 2 (oneProcess fun i => BitVec.ofNat 8 i) =
      .ok () k' ∧ k'.output = [0x41,0x42] := by
  have hquiet : QuietOn (oneProcess fun i => BitVec.ofNat 8 i).map.faults 0x1041 2 :=
    fun _ _ _ _ => rfl
  refine ⟨hquiet,?_⟩
  obtain ⟨k',hk,hout⟩ := ((console_write (growing fun _ => false)
    (oneProcess fun i => BitVec.ofNat 8 i) (.inl rfl) (by decide) (by decide)
    fun _ => hquiet).mpr (.inl (by decide))).1 (by decide) (by decide)
  exact ⟨k',hk,hout.trans (by decide)⟩

/-- An empty buffer is refused, although kmalloc succeeds. -/
theorem console_write_nothing :
    ((growing fun _ => false).kmalloc 0 [] 0).isSome = true ∧
    ∃ k', sysWrite (growing fun _ => false) 1 0x1000 0 (oneProcess fun _ => 0) = .err .EFAULT k' :=
  ⟨by decide,(sysWrite_refused (.inl rfl) (by decide) (by decide) (.inl rfl)).imp fun _ h => h.1⟩

end Write

section Read

variable {lib : Library} {k : Kern} {buf buflen a : Nat}

/-- The memory once the characters are in the kernel's buffer at `a`. -/
def Kern.filled (k : Kern) (a n : Nat) : Buffer := splice k.space.mem a n k.input 0

theorem getLoop_gives (a n : Nat) (k : Kern) :
    (loop (fun i _ => do putByte (a + i) (← getch)) 0 n () k).Gives
      fun _ k' => k'.space.mem = k.filled a n := by
  refine (Outcome.Gives.loop (I := fun i _ k' => k'.space.mem = k.filled a i ∧
    k'.input = fun j => k.input (j + i)) n ⟨(splice_nothing ..).symm,rfl⟩
    fun i _ k₁ _ _ h₁ => ?_).mono fun _ k' h => by rw [h.1,Nat.zero_add]
  obtain ⟨hmem,hinput⟩ := h₁
  have hget : (getch k₁).Gives fun ch k₂ => ch = k.input i ∧ k₂.space.mem = k.filled a i ∧
      k₂.input = fun j => k.input (j + (i + 1)) := fun ch k₂ h => by
    cases h
    refine ⟨?_,hmem,?_⟩
    · rw [hinput]
      exact congrArg k.input (Nat.zero_add i)
    · funext j
      rw [hinput]
      exact congrArg k.input (by omega)
  refine .bind hget fun ch k₂ h₂ => ?_
  obtain ⟨rfl,hmem₂,hinput₂⟩ := h₂
  refine (deref_gives (storeByte_gives _ _)).mono fun _ k' h => ?_
  obtain ⟨s,rfl,hs⟩ := h
  refine ⟨?_,hinput₂⟩
  have hstep := splice_splice k.space.mem k.input a i 1 0
  rw [splice_one,Nat.zero_add] at hstep
  rw [Kern.filled,← hstep]
  exact hs.trans (by rw [hmem₂]; rfl)

theorem sysRead_gives (hbuf : buf < 2^32) (hap : Accesses.Apart buf a 4)
    (ha : a = (lib.kmalloc k.heapCalls k.blocks buflen).getD 0) :
    (sysRead lib stdinFileno buf buflen k).Gives fun _ k' => buf + 4 ≤ userTop ∧
      k'.space.mem = splice (k.filled a buflen) buf 4 (k.filled a buflen) a := by
  have hmalloc : (kmalloc lib buflen k).Gives fun p k₁ => p = a ∧
      k₁.space.mem = k.space.mem ∧ k₁.input = k.input := fun p k₁ h => by
    cases hk : lib.kmalloc k.heapCalls k.blocks buflen with
    | none =>
      cases (kmalloc_none hk).symm.trans h
      exact ⟨by rw [ha,hk]; rfl,rfl,rfl⟩
    | some b =>
      cases (kmalloc_some hk).symm.trans h
      exact ⟨by rw [ha,hk]; rfl,rfl,rfl⟩
  rw [sysRead,if_neg (by simp)]
  refine .bind hmalloc fun p k₁ h₁ => ?_
  obtain ⟨rfl,hmem₁,hinput₁⟩ := h₁
  refine .bind (getLoop_gives p buflen k₁) fun _ k₂ h₂ => ?_
  rw [Kern.filled,hmem₁,hinput₁] at h₂
  refine .of_ends (E := fun _ _ => True) (Outcome.Ends.attempt_bind (onSpace_ends
    (CopyInOut.copyBlock_ends
    (c := lib.memcpy) hbuf (by decide) (by decide) hap)) (fun _ k₃ h₃ => ?_)
    (fun e k₃ h₃ => ?_) fun _ h => h)
  · obtain ⟨s,rfl,hin,hs⟩ := h₃
    rw [if_neg (by simp)]
    exact ((kfree_gives lib p).mono fun _ k' h => ⟨hin,by
      rw [h]; exact hs.trans (by rw [h₂]; rfl)⟩).ends
  · obtain ⟨s,rfl,rfl⟩ := h₃
    exact trivial

/-- Four bytes are copied out, whatever the length of the buffer. The user gets what was typed if and
only if the other bytes happen to be right: those of a longer buffer that are not written, those
behind a shorter one that are, and, if there was no memory for the kernel's buffer and the
characters went to address 0, those in front of the user's. -/
theorem console_read_delivers (lib : Library) (k : Kern) (buf buflen a : Nat)
    (hin : buf + buflen ≤ userTop) (hap : Accesses.Apart buf a 4)
    (ha : a = (lib.kmalloc k.heapCalls k.blocks buflen).getD 0) :
    (sysRead lib stdinFileno buf buflen k).Gives fun _ k' =>
      ((∀ i, i < buflen → k'.space.mem (buf + i) = k.input i) ∧
        ∀ j, j < userTop → j < buf ∨ buf + buflen ≤ j → k'.space.mem j = k.space.mem j) ↔
      (∀ i, 4 ≤ i → i < buflen → k.filled a buflen (buf + i) = k.input i) ∧
        (∀ i, buflen ≤ i → i < 4 → k.space.mem (a + i) = k.space.mem (buf + i)) ∧
        ∀ j, j < buf → k.filled a buflen j = k.space.mem j := by
  have htop := userTop_eq
  refine (sysRead_gives (by omega) hap ha).mono fun _ k' h => ?_
  obtain ⟨hfour,hmem⟩ := h
  have hkern : a = 0 ∨ userTop ≤ a := by
    cases hk : lib.kmalloc k.heapCalls k.blocks buflen with
    | none => exact .inl (by rw [ha,hk]; rfl)
    | some b =>
      rw [hk] at ha
      exact .inr (ha ▸ Library.le_of_kmalloc hk)
  -- the four bytes, and all the others
  have hcopied : ∀ i, i < 4 → k'.space.mem (buf + i) = k.filled a buflen (a + i) := fun i hi => by
    rw [hmem,splice_inside (by omega) (by omega)]
    congr 1
    omega
  have hother : ∀ j, j < buf ∨ buf + 4 ≤ j → k'.space.mem j = k.filled a buflen j := fun j hj => by
    rw [hmem,splice_outside hj]
  have htyped : ∀ i, i < buflen → k.filled a buflen (a + i) = k.input i := fun i hi => by
    rw [Kern.filled,splice_inside (by omega) (by omega)]
    congr 1
    omega
  have hkept : ∀ i, buflen ≤ i → k.filled a buflen (a + i) = k.space.mem (a + i) := fun i hi =>
    splice_outside (by omega)
  constructor
  · rintro ⟨hbytes,hrest⟩
    refine ⟨fun i hi hlt => ?_,fun i hle hi => ?_,fun j hj => ?_⟩
    · rw [← hother _ (by omega),hbytes i hlt]
    · rw [← hkept i hle,← hcopied i hi,hrest _ (by omega) (by omega)]
    · rw [← hother j (.inl hj),hrest j (by omega) (.inl hj)]
  · rintro ⟨hlong,hshort,hbelow⟩
    refine ⟨fun i hi => ?_,fun j hj hout => ?_⟩
    · rcases Nat.lt_or_ge i 4 with h4 | h4
      · rw [hcopied i h4,htyped i hi]
      · rw [hother _ (by omega),hlong i h4 hi]
    · by_cases h4 : buf ≤ j ∧ j < buf + 4
      · obtain ⟨i,rfl⟩ := Nat.exists_eq_add_of_le h4.1
        rw [hcopied i (by omega),hkept i (by omega),hshort i (by omega) (by omega)]
      · rw [hother j (by omega)]
        rcases Nat.lt_or_ge j buf with hlt | hge
        · exact hbelow j hlt
        · exact splice_outside (by omega)

theorem console_read_delivers_abcd : ∃ k',
    sysRead (growing fun _ => false) stdinFileno 0x1000 4 (oneProcess fun _ => 0) = .ok () k' ∧
      k'.space.mem 0x1003 = 100 := by
  have hrun : (sysRead (growing fun _ => false) stdinFileno 0x1000 4
      (oneProcess fun _ => 0)).test (fun _ _ => true) = true := by decide +kernel
  obtain ⟨_,k',hk,-⟩ := Outcome.test_eq_true hrun
  have hread := console_read_delivers (growing fun _ => false) (oneProcess fun _ => 0) 0x1000 4
    0x80400000 (by decide) (.inl (by decide)) (by decide) () k' hk
  refine ⟨k',hk,(hread.mpr ⟨fun i h h' => ?_,fun i h h' => ?_,fun j hj => ?_⟩).1 3 (by decide)⟩
  · omega
  · omega
  · exact splice_outside (.inl (by omega))

/-- Of eight characters four are delivered, and the call returns 0. -/
theorem console_read_drops_characters : ∃ k',
    sysRead (growing fun _ => false) stdinFileno 0x1000 8 (oneProcess fun _ => 0) = .ok () k' ∧
      (oneProcess fun _ => 0).input 4 = 101 ∧ k'.space.mem 0x1004 = 0 := by
  have hrun : (sysRead (growing fun _ => false) stdinFileno 0x1000 8 (oneProcess fun _ => 0)).test
      (fun _ k' => decide (k'.space.mem 0x1004 = 0)) = true := by decide +kernel
  obtain ⟨_,k',hk,hmem⟩ := Outcome.test_eq_true hrun
  exact ⟨k',hk,by decide,of_decide_eq_true hmem⟩

end Read

end MipsOs.Sys
