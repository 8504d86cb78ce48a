import MipsOs.PageTables
import MipsOs.PointerCalls

/-! thread_create and thread_fork of thread/thread.c and sys_fork of syscall.c, with every
allocation they make. The structures are the ones the heap hands out; the texts of names are left
out. -/

set_option autoImplicit false
namespace MipsOs.Sys
open Prog Bytes Accesses Function
open CopyInOut (userTop userTop_eq)

def sizeofThread : Nat := 92
def sizeofLock : Nat := 12
def sizeofCv : Nat := 8
def sizeofTrapframe : Nat := 148
def sizeofAddrspace : Nat := 16
def sizeofRegion : Nat := 28
def stackSize : Nat := 4096

/-- What as_copy finds in memory it does not initialise. -/
structure Forks extends Library where
  tables : Vm.RegionName → Option (List Vm.Pte)
  vendActual : Vm.RegionName → Nat
  frames : Vm.RegionName → Vm.Uninit

structure NewThread where
  addr : Nat
  tName : Nat
  threadPID : Nat

section Threads

variable (lib : Library)

def createNamed (size nameLen : Nat) : Code Nat := do
  let p ← kmalloc lib size
  if p = 0 then pure 0
  else
    let name ← kmalloc lib (nameLen + 1)
    if name = 0 then
      kfree lib p
      pure 0
    else pure p

def lockCreate : Code Nat := createNamed lib sizeofLock "exitperm".length

def cvCreate : Code Nat := createNamed lib sizeofCv "cv_exitcv".length

def Kern.setSlot (k : Kern) (i : Nat) (slot : Slot) : Kern :=
  { k with table := update k.table i slot }

def Slot.take (slot : Slot) (thread exitpermission exitcv : Nat) : Slot :=
  { slot with
    occupied := true, exitpermission := exitpermission, exitcv := exitcv
    processthread := some thread, waiting := false, owner := none }

def Slot.setParent (slot : Slot) (pid : Nat) : Slot := { slot with parentPID := pid }

/-- The search for a free entry starts at 0 for the first two threads and at 2 after that. -/
def nextProcess : Code Nat := fun k =>
  if k.noprocesses < 2 then .ok 0 { k with noprocesses := k.noprocesses + 1 } else .ok 2 k

/-- When the table is full, the structure and its name stay allocated. -/
def threadCreate (nameLen : Nat) : Code (Option NewThread) := do
  let thread ← kmalloc lib sizeofThread
  if thread = 0 then pure none
  else
    let tName ← kmalloc lib (nameLen + 1)
    if tName = 0 then
      kfree lib thread
      pure none
    else
      let t ← nextProcess
      let spl ← splhigh
      let k ← get
      match Proc.firstSlot t fun i => (k.table i).toEntry with
      | none =>
        let _ ← splx spl
        pure none
      | some i =>
        let exitpermission ← lockCreate lib
        let exitcv ← cvCreate lib
        modify fun k => k.setSlot i ((k.table i).take thread exitpermission exitcv)
        let _ ← splx spl
        pure (some ⟨thread,tName,i⟩)

/-- array_preallocate, with the address of the array's storage. -/
def arrayPreallocate (a : PtrArray Nat) (v nguys : Nat) : Code (PtrArray Nat × Nat) := do
  let a' := (a.arrayPreallocate nguys).1
  let newv ← kmalloc lib (a'.max * 4)
  if newv = 0 then fail .ENOMEM
  else
    kfree lib v
    pure (a',newv)

def qGrow (targetsize : Nat) : Code Unit := do
  let k ← get
  let q := (k.runqueue.qGrow targetsize).1
  let ndata ← kmalloc lib (q.size * 4)
  if ndata = 0 then fail .ENOMEM
  else
    kfree lib k.runqueueData
    modify fun k => { k with runqueue := q, runqueueData := ndata }

def schedulerPreallocate (nthreads : Nat) : Code Unit := do
  let k ← get
  if k.runqueue.size < nthreads then qGrow lib nthreads else pure ()

def makeRunnable (t : Nat) : Code Unit := do
  let k ← get
  if k.runqueue.full = true then qGrow lib (k.runqueue.size + 1)
  modify fun k => { k with runqueue := k.runqueue.put t }

/-- The part of thread_fork from array_preallocate to make_runnable. -/
def makeRoom (t : Nat) : Code Unit := do
  let k ← get
  let (sleepers,v) ← arrayPreallocate lib k.sleepers k.sleepersV (k.numthreads + 1)
  modify fun k => { k with sleepers := sleepers, sleepersV := v }
  let (zombies,v) ← arrayPreallocate lib k.zombies k.zombiesV (k.numthreads + 1)
  modify fun k => { k with zombies := zombies, zombiesV := v }
  schedulerPreallocate lib (k.numthreads + 1)
  makeRunnable lib t

def Kern.addRef (k : Kern) (d : Int) : Kern :=
  match k.tCwd with
  | none => k
  | some v => { k with
      refcount := update k.refcount v ((k.refcount v : Int) + d).toNat }

/-- An error after thread_create leaves the table entry, its lock and its condition variable. -/
def threadFork (nameLen : Nat) : Code NewThread := do
  match ← threadCreate lib nameLen with
  | none => fail .ENOMEM
  | some newguy =>
    let stack ← kmalloc lib stackSize
    if stack = 0 then
      kfree lib newguy.tName
      kfree lib newguy.addr
      fail .ENOMEM
    else
      putByte stack 0xae
      putByte (stack + 1) 0x11
      putByte (stack + 2) 0xda
      putByte (stack + 3) 0x33
      modify fun k => k.addRef 1
      let s ← splhigh
      match ← attempt (makeRoom lib newguy.addr) with
      | .ok _ =>
        modify fun k => { k with numthreads := k.numthreads + 1 }
        let _ ← splx s
        pure newguy
      | .error e =>
        let _ ← splx s
        modify fun k => k.addRef (-1)
        kfree lib stack
        kfree lib newguy.tName
        kfree lib newguy.addr
        fail e

end Threads

section Fork

variable (fk : Forks)

def Kern.ram (k : Kern) : Nat → UInt8 := fun a => UInt8.ofBitVec (k.space.mem (userTop + a))

def Kern.setRam (k : Kern) (ram : Nat → UInt8) : Kern :=
  k.setSpace { k.space with
    mem := fun j => if j < userTop then k.space.mem j else (ram (j - userTop)).toBitVec }

def pick (data text stack heap : Nat) : Vm.RegionName → Nat
  | .data => data
  | .text => text
  | .stack => stack
  | .heap => heap

/-- as_copy. Its structures stay allocated when it fails. -/
def asCopy (old : Vm.AddrSpace) : Code Vm.AddrSpace := do
  let new ← kmalloc fk.toLibrary sizeofAddrspace
  if new = 0 then fail .ENOMEM
  else
    let data ← kmalloc fk.toLibrary sizeofRegion
    let text ← kmalloc fk.toLibrary sizeofRegion
    let stack ← kmalloc fk.toLibrary sizeofRegion
    let heap ← kmalloc fk.toLibrary sizeofRegion
    let chance : Vm.CopyChance := ⟨true,fun n =>
      if pick data text stack heap n = 0 then none else some (fk.tables n),fk.vendActual,fk.frames⟩
    let k ← get
    match Vm.asCopy old chance k.mmu.frames k.ram with
    | .error s => halt (.vm s)
    | .ok out =>
      modify fun k => { k.setRam out.mem with mmu := { k.mmu with frames := out.frames } }
      match out.result,out.ret with
      | none,some new => pure new
      | some e,_ => fail e
      | none,none => halt (.vm .nullPointer)

/-- An error is what is stored through retval; the function itself returns -1 then. -/
def sysFork (tf : Trapframe) : Code Nat := do
  let k ← get
  let child ← kmalloc fk.toLibrary sizeofTrapframe
  if child = 0 then fail .ENOMEM
  else
    modify fun k => { k with trapframes := update k.trapframes child tf }
    match k.vmspace with
    | none => halt (.vm .nullPointer)
    | some parentAddrspace =>
      let _ ← asCopy fk parentAddrspace
      let childThread ← threadFork fk.toLibrary k.tNameLen
      modify fun k' => k'.setSlot childThread.threadPID
        ((k'.table childThread.threadPID).setParent k.threadPID)
      pure childThread.threadPID

end Fork

section Failure

/-- What a call that reports an error must not have changed. -/
structure NoTrace (k k' : Kern) : Prop where
  table : k'.table = k.table
  runqueue : k'.runqueue = k.runqueue
  sleepers : k'.sleepers = k.sleepers
  zombies : k'.zombies = k.zombies
  numthreads : k'.numthreads = k.numthreads
  refcount : k'.refcount = k.refcount
  blocks : k'.blocks = k.blocks
  frames : k'.mmu.frames = k.mmu.frames

variable {lib : Library} {k : Kern} {nameLen a : Nat}

theorem Library.without_cons {n sz : Nat} (h : lib.kmalloc n k.blocks sz = some a) :
    without ((a,sz) :: k.blocks) a = k.blocks := by
  have hother : ∀ b ∈ k.blocks, decide (b.1 ≠ a) = true := fun b hb =>
    decide_eq_true ((lib.fresh n k.blocks sz a h).2.2 b hb).1
  simpa [without] using hother

theorem threadFork_none {k' : Kern} (h : threadCreate lib nameLen k = .ok none k') :
    threadFork lib nameLen k = .err .ENOMEM k' := by
  rw [threadFork,bind_ok h]
  rfl

theorem threadCreate_noThread (h : lib.kmalloc k.heapCalls k.blocks sizeofThread = none) :
    threadCreate lib nameLen k = .ok none k.tick := by
  rw [threadCreate,bind_ok (kmalloc_none h),if_pos rfl]
  rfl

/-- What is left when there is no memory for the name: what the heap has done to the frames. -/
theorem threadCreate_noName (h : lib.kmalloc k.heapCalls k.blocks sizeofThread = some a)
    (hname : lib.kmalloc (k.heapCalls + 1) ((a,sizeofThread) :: k.blocks) (nameLen + 1) = none) :
    ∃ k', threadCreate lib nameLen k = .ok none k' ∧ k'.blocks = k.blocks ∧ (NoTrace k k' ↔
      lib.pages (k.heapCalls + 2) (lib.pages k.heapCalls k.mmu.frames) = k.mmu.frames) := by
  have hkern := Library.le_of_kmalloc h
  have hvalue := userTop_eq
  have hthread : a ∈ (((k.heapCall lib).setBlocks ((a,sizeofThread) :: k.blocks)).tick).blocks.map
      Prod.fst := List.mem_cons_self
  rw [threadCreate,bind_ok (kmalloc_some h),if_neg (by omega),bind_ok (kmalloc_none hname),
    if_pos rfl,bind_ok (kfree_live hthread hkern)]
  exact ⟨_,rfl,Library.without_cons h,fun ht => ht.frames,
    fun hpages => ⟨rfl,rfl,rfl,rfl,rfl,rfl,Library.without_cons h,hpages⟩⟩

theorem threadCreate_full {b : Nat} (h : lib.kmalloc k.heapCalls k.blocks sizeofThread = some a)
    (hname : lib.kmalloc (k.heapCalls + 1) ((a,sizeofThread) :: k.blocks) (nameLen + 1) = some b)
    {k' : Kern} (hrun : threadCreate lib nameLen k = .ok none k') :
    k'.blocks = (b,nameLen + 1) :: (a,sizeofThread) :: k.blocks := by
  have hvalue := userTop_eq
  have hkern := Library.le_of_kmalloc h
  have hkern' := (lib.fresh _ _ _ _ hname).1
  rw [threadCreate,bind_ok (kmalloc_some h),if_neg (by omega),bind_ok (kmalloc_some hname),
    if_neg (by omega)] at hrun
  obtain ⟨t,k₁,hnext,hrun⟩ := bind_eq_ok.mp hrun
  obtain ⟨spl,k₂,hspl,hrun⟩ := bind_eq_ok.mp hrun
  have hblocks : k₂.blocks = (b,nameLen + 1) :: (a,sizeofThread) :: k.blocks := by
    cases hspl
    unfold nextProcess at hnext
    split at hnext <;> cases hnext <;> rfl
  rw [get_bind] at hrun
  cases hslot : Proc.firstSlot t fun i => (k₂.table i).toEntry with
  | none =>
    rw [hslot] at hrun
    cases hrun
    exact hblocks
  | some i =>
    rw [hslot] at hrun
    obtain ⟨_,_,_,hrun⟩ := bind_eq_ok.mp hrun
    obtain ⟨_,_,_,hrun⟩ := bind_eq_ok.mp hrun
    cases hrun

/-- A thread_create that gives no thread keeps no block, or both of those it has got. -/
theorem threadCreate_blocks {k' : Kern} (hrun : threadCreate lib nameLen k = .ok none k') :
    k'.blocks = k.blocks ∨ ∃ x y, k'.blocks = x :: y :: k.blocks := by
  cases h : lib.kmalloc k.heapCalls k.blocks sizeofThread with
  | none =>
    cases (threadCreate_noThread h).symm.trans hrun
    exact .inl rfl
  | some a =>
    cases hname : lib.kmalloc (k.heapCalls + 1) ((a,sizeofThread) :: k.blocks) (nameLen + 1) with
    | none =>
      obtain ⟨k₁,hk₁,hblocks,_⟩ := threadCreate_noName h hname
      cases hk₁.symm.trans hrun
      exact .inl hblocks
    | some b => exact .inr ⟨_,_,threadCreate_full h hname hrun⟩

theorem sysFork_noTrapframe {fk : Forks} (tf : Trapframe)
    (h : fk.kmalloc k.heapCalls k.blocks sizeofTrapframe = none) :
    ∃ k', sysFork fk tf k = .err .ENOMEM k' ∧ NoTrace k k' := by
  refine ⟨k.tick,?_,⟨rfl,rfl,rfl,rfl,rfl,rfl,rfl,rfl⟩⟩
  rw [sysFork,get_bind,bind_ok (kmalloc_none h),if_pos rfl]
  rfl

section Threads

/-- The threads, the table and the references are as in `k`, whatever the storage of the arrays
is. -/
structure ThreadsKept (k k' : Kern) : Prop where
  table : k'.table = k.table
  runqueue : k'.runqueue.toList = k.runqueue.toList
  sleepers : k'.sleepers.toList = k.sleepers.toList
  zombies : k'.zombies.toList = k.zombies.toList
  numthreads : k'.numthreads = k.numthreads
  refcount : k'.refcount = k.refcount
  tCwd : k'.tCwd = k.tCwd

def Kern.threads (k : Kern) :
    (Nat → Slot) × (List Nat × List Nat × List Nat) × Nat × (Nat → Nat) × Option Nat :=
  (k.table,(k.runqueue.toList,k.sleepers.toList,k.zombies.toList),k.numthreads,k.refcount,k.tCwd)

theorem threads_eq {k k' : Kern} : k'.threads = k.threads ↔ ThreadsKept k k' := by
  simp only [Kern.threads,Prod.mk.injEq]
  exact ⟨fun ⟨ht,⟨hr,hs,hz⟩,h⟩ => ⟨ht,hr,hs,hz,h.1,h.2.1,h.2.2⟩,
    fun ⟨ht,hr,hs,hz,hn,hc,hw⟩ => ⟨ht,⟨hr,hs,hz⟩,hn,hc,hw⟩⟩

/-- The threads are kept and the interrupt level is `c`. -/
def Kept (k₀ : Kern) (c : Nat) (k : Kern) : Prop := k.threads = k₀.threads ∧ k.mmu.curspl = c

/-- As `Kept`, but for an entry of the table that was free and has been taken. -/
def Claimed (k₀ : Kern) (c : Nat) (k : Kern) : Prop :=
  ∃ i slot, (k₀.table i).occupied = false ∧ slot.occupied = true ∧ Kept (k₀.setSlot i slot) c k

theorem kept_aside (lib : Library) (k₀ : Kern) (c : Nat) : Aside lib (Kept k₀ c) :=
  ⟨fun _ _ h => h,fun _ _ h => h,fun _ h => h⟩

theorem Aside.createNamed {lib : Library} {I : Kern → Prop} (h : Aside lib I) (size nameLen : Nat) :
    Unerring I (fun _ => True) (Sys.createNamed lib size nameLen) := by
  refine .bind (h.kmalloc_unerring size) fun p => .ite (.pure 0) ?_
  refine .bind (h.kmalloc_unerring _) fun name => .ite ?_ (.pure p)
  exact .bind (h.kfree_unerring p) fun _ => .pure 0

variable {lib : Library} {k₀ k : Kern} {c : Nat}

theorem splhigh_ends {α : Type} {g : Nat → Code α} {Q : α → Kern → Prop} {E : Errno → Kern → Prop}
    (hk : Kept k₀ c k) (hg : ∀ k', Kept k₀ Vm.splHigh k' → (g c k').Ends Q E fun _ => True) :
    ((splhigh >>= g) k).Ends Q E fun _ => True := by
  have hspl : splhigh k = .ok c { k with mmu := { k.mmu with curspl := Vm.splHigh } } := by
    rw [← hk.2]
    rfl
  rw [bind_ok hspl]
  exact hg _ ⟨hk.1,rfl⟩

theorem threadCreate_ends (lib : Library) (nameLen : Nat) (hk : Kept k₀ c k) :
    (threadCreate lib nameLen k).Ends
      (fun new k' => new = none ∧ Kept k₀ c k' ∨ new ≠ none ∧ Claimed k₀ c k') (fun _ _ => False)
      fun _ => True := by
  have h := kept_aside lib k₀ c
  have hnext : Unerring (Kept k₀ c) (fun _ => True) nextProcess := by
    intro k hk
    unfold nextProcess
    split
    · exact hk
    · exact hk
  refine (h.kmalloc_unerring _ k hk).bind_unerring fun thread k₁ hk₁ => ?_
  split
  · exact .inl ⟨rfl,hk₁⟩
  refine (h.kmalloc_unerring _ k₁ hk₁).bind_unerring fun tName k₂ hk₂ => ?_
  split
  · exact (h.kfree_unerring thread k₂ hk₂).bind_unerring fun _ _ hk₃ => .inl ⟨rfl,hk₃⟩
  refine (hnext k₂ hk₂).bind_unerring fun t k₃ hk₃ => splhigh_ends hk₃ fun k₄ hk₄ => ?_
  have hhigh := kept_aside lib k₀ Vm.splHigh
  rw [get_bind]
  cases hslot : Proc.firstSlot t fun i => (k₄.table i).toEntry with
  | none => exact .inl ⟨rfl,hk₄.1,rfl⟩
  | some i =>
    refine ((hhigh.createNamed _ _) _ hk₄).bind_unerring fun lock k₅ hk₅ => ?_
    refine ((hhigh.createNamed _ _) _ hk₅).bind_unerring fun cv k₆ hk₆ => ?_
    have hfree := List.find?_some hslot
    simp only [Bool.and_eq_true,Bool.not_eq_true'] at hfree
    have hkept := threads_eq.mp hk₆.1
    refine .inr ⟨nofun,i,(k₆.table i).take thread lock cv,?_,rfl,threads_eq.mpr ?_,rfl⟩
    · rw [← (threads_eq.mp hk₄.1).table]
      exact hfree.1.2
    · exact { hkept with table := congrArg (update · i _) hkept.table }

theorem arrayPreallocate_ends (a : PtrArray Nat) (v nguys : Nat) (hk : Kept k₀ c k) :
    (arrayPreallocate lib a v nguys k).Ends
      (fun r k' => r.1.toList = a.toList ∧ Kept k₀ c k') (fun _ k' => Kept k₀ c k')
      fun _ => True := by
  have h := kept_aside lib k₀ c
  refine (h.kmalloc _ k hk).andThen fun newv k₁ hk₁ => ?_
  split
  · exact hk₁
  · refine (h.kfree v k₁ hk₁).andThen fun _ k₂ hk₂ => ?_
    exact ⟨PtrArray.arrayPreallocate_toList a nguys,hk₂⟩

theorem qGrow_keeps (targetsize : Nat) :
    Keeps (Kept k₀ c) (fun _ => True) (qGrow lib targetsize) := by
  have h := kept_aside lib k₀ c
  intro k hk
  refine (h.kmalloc _ k hk).andThen fun ndata k₁ hk₁ => ?_
  split
  · exact hk₁
  · refine (h.kfree _ k₁ hk₁).andThen fun _ k₂ hk₂ => ⟨threads_eq.mpr ?_,hk₂.2⟩
    exact { threads_eq.mp hk₂.1 with
      runqueue := (k.runqueue.qGrow_toList targetsize).1.trans (threads_eq.mp hk.1).runqueue }

theorem makeRunnable_ends (t : Nat) (hk : Kept k₀ c k) :
    (makeRunnable lib t k).Ends (fun _ k' => k'.mmu.curspl = c) (fun _ k' => Kept k₀ c k')
      fun _ => True := by
  rw [makeRunnable,get_bind]
  split
  · exact (qGrow_keeps _ k hk).andThen fun _ _ hk' => hk'.2
  · exact hk.2

theorem makeRoom_ends (t : Nat) (hk : Kept k₀ c k) :
    (makeRoom lib t k).Ends (fun _ k' => k'.mmu.curspl = c) (fun _ k' => Kept k₀ c k')
      fun _ => True := by
  rw [makeRoom,get_bind]
  have hthreads := threads_eq.mp hk.1
  refine (arrayPreallocate_ends _ _ _ hk).andThen fun r k₁ hk₁ => ?_
  have hroom : Kept k₀ c { k₁ with sleepers := r.1, sleepersV := r.2 } :=
    ⟨threads_eq.mpr { threads_eq.mp hk₁.2.1 with sleepers := hk₁.1.trans hthreads.sleepers },
      hk₁.2.2⟩
  refine (arrayPreallocate_ends k.zombies _ _ hroom).andThen fun r' k₂ hk₂ => ?_
  have hroom' : Kept k₀ c { k₂ with zombies := r'.1, zombiesV := r'.2 } :=
    ⟨threads_eq.mpr { threads_eq.mp hk₂.2.1 with zombies := hk₂.1.trans hthreads.zombies },
      hk₂.2.2⟩
  have hscheduler : Keeps (Kept k₀ c) (fun _ => True)
      (schedulerPreallocate lib (k.numthreads + 1)) :=
    .get_bind fun _ => .ite (fun _ => qGrow_keeps _) fun _ => .pure ()
  exact (hscheduler _ hroom').andThen fun _ _ hk₃ => makeRunnable_ends t hk₃

theorem addRef_none (d : Int) (h : k.tCwd = none) : k.addRef d = k := by
  simp only [Kern.addRef,h]

theorem addRef_some {v : Nat} (d : Int) (h : k.tCwd = some v) : k.addRef d = { k with
    refcount := update k.refcount v ((k.refcount v : Int) + d).toNat } := by
  simp only [Kern.addRef,h]

theorem addRef_mmu (d : Int) : (k.addRef d).mmu = k.mmu := by
  unfold Kern.addRef
  split <;> rfl

theorem addRef_back {k' : Kern} (hk : Kept (k.addRef 1) c k') : Kept k c (k'.addRef (-1)) := by
  have h := threads_eq.mp hk.1
  refine ⟨threads_eq.mpr ?_,by rw [addRef_mmu]; exact hk.2⟩
  cases hcwd : k.tCwd with
  | none =>
    rw [addRef_none 1 hcwd] at h
    rwa [addRef_none (-1) (h.tCwd.trans hcwd)]
  | some v =>
    rw [addRef_some 1 hcwd] at h
    rw [addRef_some (-1) (h.tCwd.trans hcwd)]
    refine ⟨h.table,h.runqueue,h.sleepers,h.zombies,h.numthreads,?_,h.tCwd⟩
    have hcount : k'.refcount = update k.refcount v (k.refcount v + 1) := h.refcount
    simp [hcount]

theorem threadFork_ends (lib : Library) (nameLen : Nat) (hk : Kept k₀ c k) :
    (threadFork lib nameLen k).Ends (fun _ k' => k'.mmu.curspl = c)
      (fun _ k' => threadCreate lib nameLen k = .ok none k' ∧ Kept k₀ c k' ∨ Claimed k₀ c k')
      fun _ => True := by
  have hcreate := threadCreate_ends lib nameLen hk
  cases hr : threadCreate lib nameLen k with
  | err e k₁ =>
    rw [hr] at hcreate
    exact hcreate.elim
  | panic p =>
    rw [threadFork,bind_panic hr]
    trivial
  | ok new k₁ =>
  rw [hr] at hcreate
  rw [threadFork,bind_ok hr]
  rcases hcreate with ⟨rfl,hk₁⟩ | ⟨hne,i,slot,hfree,htaken,hk₁⟩
  · exact .inl ⟨rfl,hk₁⟩
  cases new with
  | none => exact (hne rfl).elim
  | some newguy =>
    have h := kept_aside lib (k₀.setSlot i slot) c
    refine Outcome.Ends.mono (E := fun _ => Kept (k₀.setSlot i slot) c) ?_ (fun _ _ hk => hk)
      (fun _ _ he => .inr ⟨i,slot,hfree,htaken,he⟩) fun _ hp => hp
    refine (h.kmalloc _ k₁ hk₁).andThen fun stack k₂ hk₂ => ?_
    have hfree : ∀ e, Keeps (Kept (k₀.setSlot i slot) c) (fun _ => True) (do
        kfree lib newguy.tName
        kfree lib newguy.addr
        fail e : Code NewThread) := fun e =>
      .bind (h.kfree _) fun _ => .bind (h.kfree _) fun _ => .fail e
    split
    · exact (hfree _ _ hk₂).mono (fun _ _ hk => hk.2) (fun _ _ he => he) fun _ hp => hp
    · refine (h.putByte _ _ _ hk₂).andThen fun _ _ hk₃ => ?_
      refine (h.putByte _ _ _ hk₃).andThen fun _ _ hk₄ => ?_
      refine (h.putByte _ _ _ hk₄).andThen fun _ _ hk₅ => ?_
      refine (h.putByte _ _ _ hk₅).andThen fun _ k₆ hk₆ => ?_
      rw [modify_bind]
      have hcounted : Kept (k₆.addRef 1) c (k₆.addRef 1) := ⟨rfl,by rw [addRef_mmu]; exact hk₆.2⟩
      refine splhigh_ends hcounted fun k₇ hk₇ => ?_
      -- from here on the reference has been counted
      refine (makeRoom_ends newguy.addr hk₇).attempt_bind (fun _ _ _ => rfl)
        (fun e k₈ hk₈ => ?_) fun _ hp => hp
      have hlow : Kept (k₆.addRef 1) c { k₈ with mmu := { k₈.mmu with curspl := c } } :=
        ⟨hk₈.1,rfl⟩
      obtain ⟨hthreads,hlevel⟩ := addRef_back hlow
      have hback := And.intro (hthreads.trans hk₆.1) hlevel
      exact ((Keeps.bind (h.kfree stack) fun _ => hfree e) _ hback).mono (fun _ _ hk => hk.2)
        (fun _ _ he => he) fun _ hp => hp

/-- As `Kept`, and there is a block at `a`. -/
def KeptWith (a : Nat) (k₀ : Kern) (c : Nat) (k : Kern) : Prop :=
  Kept k₀ c k ∧ a ∈ k.blocks.map Prod.fst

theorem kmalloc_with (sz : Nat) : Keeps (KeptWith a k₀ c) (fun _ => True) (kmalloc lib sz) := by
  intro k hk
  unfold kmalloc
  split
  · exact hk
  · exact ⟨hk.1,List.mem_cons_of_mem _ hk.2⟩

theorem asCopy_keeps (fk : Forks) (old : Vm.AddrSpace) :
    Keeps (KeptWith a k₀ c) (fun _ => True) (asCopy fk old) := by
  refine .bind (kmalloc_with _) fun new => .ite (fun _ => .fail _) fun _ => ?_
  refine .bind (kmalloc_with _) fun data => .bind (kmalloc_with _) fun text => ?_
  refine .bind (kmalloc_with _) fun stack => .bind (kmalloc_with _) fun heap => .get_bind fun k => ?_
  split
  · exact .halt trivial
  · refine .modify_bind (fun _ hk => hk) ?_
    split
    · exact .pure _
    · exact .fail _
    · exact .halt trivial

theorem sysFork_ends (fk : Forks) (tf : Trapframe) (hk : Kept k₀ c k) :
    (sysFork fk tf k).Ends (fun _ k' => k'.mmu.curspl = c)
      (fun _ k' => fk.kmalloc k.heapCalls k.blocks sizeofTrapframe = none ∧ Kept k₀ c k' ∨
        (∃ a, fk.kmalloc k.heapCalls k.blocks sizeofTrapframe = some a ∧ KeptWith a k₀ c k') ∨
        Claimed k₀ c k') fun _ => True := by
  rw [sysFork,get_bind]
  cases ha : fk.kmalloc k.heapCalls k.blocks sizeofTrapframe with
  | none =>
    rw [bind_ok (kmalloc_none ha),if_pos rfl]
    exact .inl ⟨rfl,hk⟩
  | some child =>
    have hkern := Library.le_of_kmalloc ha
    have hvalue := userTop_eq
    rw [bind_ok (kmalloc_some ha),if_neg (by omega),modify_bind]
    cases k.vmspace with
    | none => trivial
    | some old =>
      have hwith : KeptWith child k₀ c { (k.heapCall fk.toLibrary).setBlocks
          ((child,sizeofTrapframe) :: k.blocks) with
          trapframes := update k.trapframes child tf } := ⟨hk,List.mem_cons_self⟩
      refine Outcome.Ends.bind (asCopy_keeps fk old _ hwith)
        (fun _ k₁ hk₁ => ?_) (fun _ _ hk₁ => .inr (.inl ⟨child,rfl,hk₁⟩)) fun _ hp => hp
      refine Outcome.Ends.bind (threadFork_ends _ _ hk₁.1) (fun _ _ hk₂ => hk₂) (fun _ k₂ hk₂ => ?_)
        fun _ hp => hp
      rcases hk₂ with ⟨hnone,hk₂⟩ | hclaimed
      · refine .inr (.inl ⟨child,rfl,hk₂,?_⟩)
        rcases threadCreate_blocks hnone with hblocks | ⟨x,y,hblocks⟩
        · rw [hblocks]
          exact hk₁.2
        · rw [hblocks]
          exact List.mem_cons_of_mem _ (List.mem_cons_of_mem _ hk₁.2)
      · exact .inr (.inr hclaimed)

end Threads

/-- The heap has a block for the trapframe and, if there is a space to copy, one for its copy. -/
def Forks.granted (fk : Forks) (k : Kern) : Prop :=
  ∃ child, fk.kmalloc k.heapCalls k.blocks sizeofTrapframe = some child ∧ (k.vmspace = none ∨
    fk.kmalloc (k.heapCalls + 1) ((child,sizeofTrapframe) :: k.blocks) sizeofAddrspace ≠ none)

theorem kmalloc_then {lib : Library} {sz : Nat} {k : Kern} {α : Type} {g : Nat → Code α}
    {Q : α → Kern → Prop} {E : Errno → Kern → Prop} {P : Stop → Prop}
    (hg : ∀ a k', (g a k').Ends Q E P) : ((kmalloc lib sz >>= g) k).Ends Q E P := by
  obtain ⟨a,k',h,_⟩ := kmalloc_cases lib sz k
  rw [bind_ok h]
  exact hg a k'

/-- A process that has been loaded never gets a child: with these two blocks as_copy stops at the
assertion that its text has no frames yet. -/
theorem sysFork_loaded (fk : Forks) (tf : Trapframe) {k : Kern}
    (hl : fk.granted k → ∀ old, k.vmspace = some old → old.loaded = true) :
    (sysFork fk tf k).Ends (fun _ _ => False) (fun _ _ => ¬ fk.granted k) fun _ => fk.granted k := by
  rw [sysFork,get_bind]
  cases ha : fk.kmalloc k.heapCalls k.blocks sizeofTrapframe with
  | none =>
    rw [bind_ok (kmalloc_none ha),if_pos rfl]
    exact fun ⟨_,hc,_⟩ => by cases ha.symm.trans hc
  | some child =>
    have hkern := Library.le_of_kmalloc ha
    have hvalue := userTop_eq
    rw [bind_ok (kmalloc_some ha),if_neg (by omega),modify_bind]
    cases hv : k.vmspace with
    | none => exact ⟨child,ha,.inl hv⟩
    | some old =>
      refine Outcome.Ends.bind (Q := fun _ _ => False) ?_ (fun _ _ h => h.elim) (fun _ _ h => h)
        fun _ h => h
      cases hb : fk.kmalloc (k.heapCalls + 1) ((child,sizeofTrapframe) :: k.blocks)
        sizeofAddrspace with
      | none =>
        rw [asCopy,bind_ok (kmalloc_none hb),if_pos rfl]
        rintro ⟨_,hc,hc' | hc'⟩
        · cases hv.symm.trans hc'
        · cases ha.symm.trans hc
          exact hc' hb
      | some new =>
        have hkern := (fk.fresh _ _ _ _ hb).1
        have hboth : fk.granted k := ⟨child,ha,.inr (by rw [hb]; simp)⟩
        rw [asCopy,bind_ok (kmalloc_some hb),if_neg (by omega)]
        refine kmalloc_then fun data _ => kmalloc_then fun text _ => kmalloc_then fun stack _ =>
          kmalloc_then fun heap k₂ => ?_
        rw [get_bind]
        obtain ⟨e,he⟩ := Vm.asCopy_stops (c := ⟨true,fun n => if pick data text stack heap n = 0
          then none else some (fk.tables n),fk.vendActual,fk.frames⟩) (hl hboth old hv) rfl
          k₂.mmu.frames k₂.ram
        rw [he]
        exact hboth

theorem Kept.threads {k k' : Kern} {c : Nat} (h : Kept k c k') :
    ThreadsKept { k with table := k'.table } k' := { threads_eq.mp h.1 with table := rfl }

theorem Claimed.threads {k k' : Kern} {c : Nat} (h : Claimed k c k') :
    ThreadsKept { k with table := k'.table } k' := by
  obtain ⟨i,slot,-,-,hk⟩ := h
  exact { threads_eq.mp hk.1 with table := rfl }

theorem Claimed.trace {k k' : Kern} {c : Nat} (h : Claimed k c k') : ¬ NoTrace k k' := by
  obtain ⟨i,slot,hfree,htaken,hk⟩ := h
  intro hno
  have hsame : update k.table i slot i = k.table i :=
    congrFun ((threads_eq.mp hk.1).table.symm.trans hno.table) i
  rw [update_self] at hsame
  rw [hsame,hfree] at htaken
  cases htaken

/-- A call that fails leaves the threads and the references as they were. Nothing at all is left if
and only if what fails is the first allocation of sys_fork, or one of the first two of thread_fork
after which the heap gives back what it took. -/
theorem fork_failure_leaves_no_trace (fk : Forks) (k : Kern) (tf : Trapframe) (nameLen : Nat) :
    (∀ e k', threadFork fk.toLibrary nameLen k = .err e k' →
      ThreadsKept { k with table := k'.table } k' ∧ (NoTrace k k' ↔
        fk.kmalloc k.heapCalls k.blocks sizeofThread = none ∨
        ∃ a, fk.kmalloc k.heapCalls k.blocks sizeofThread = some a ∧
          fk.kmalloc (k.heapCalls + 1) ((a,sizeofThread) :: k.blocks) (nameLen + 1) = none ∧
          fk.pages (k.heapCalls + 2) (fk.pages k.heapCalls k.mmu.frames) = k.mmu.frames)) ∧
    ∀ e k', sysFork fk tf k = .err e k' →
      ThreadsKept { k with table := k'.table } k' ∧
        (NoTrace k k' ↔ fk.kmalloc k.heapCalls k.blocks sizeofTrapframe = none) := by
  have hk : Kept k k.mmu.curspl k := ⟨rfl,rfl⟩
  refine ⟨fun e k' hrun => ?_,fun e k' hrun => ?_⟩
  · have hends := threadFork_ends fk.toLibrary nameLen hk
    rw [hrun] at hends
    refine ⟨hends.elim (fun h => h.2.threads) Claimed.threads,fun ht => ?_,?_⟩
    · rcases hends with ⟨hnone,_⟩ | hclaimed
      · cases h : fk.kmalloc k.heapCalls k.blocks sizeofThread with
        | none => exact .inl rfl
        | some a =>
          refine .inr ⟨a,rfl,?_⟩
          cases hname : fk.kmalloc (k.heapCalls + 1) ((a,sizeofThread) :: k.blocks)
            (nameLen + 1) with
          | none =>
            obtain ⟨k₁,hk₁,_,hiff⟩ := threadCreate_noName h hname
            cases hk₁.symm.trans hnone
            exact ⟨rfl,hiff.mp ht⟩
          | some b =>
            have hlen := congrArg List.length (ht.blocks.symm.trans (threadCreate_full h hname hnone))
            simp only [List.length_cons] at hlen
            omega
      · exact (hclaimed.trace ht).elim
    · rintro (h | ⟨a,h,hname,hpages⟩)
      · cases (threadFork_none (threadCreate_noThread h)).symm.trans hrun
        exact ⟨rfl,rfl,rfl,rfl,rfl,rfl,rfl,rfl⟩
      · obtain ⟨k₁,hk₁,_,hiff⟩ := threadCreate_noName h hname
        cases (threadFork_none hk₁).symm.trans hrun
        exact hiff.mpr hpages
  · have hends := sysFork_ends fk tf hk
    rw [hrun] at hends
    refine ⟨?_,fun ht => ?_,fun h => ?_⟩
    · rcases hends with h | ⟨_,_,h⟩ | h
      · exact h.2.threads
      · exact h.1.threads
      · exact h.threads
    · rcases hends with h | ⟨a,ha,_,hmem⟩ | h
      · exact h.1
      · -- the block of the trapframe was not there before
        rw [ht.blocks] at hmem
        obtain ⟨x,hx,rfl⟩ := List.mem_map.mp hmem
        exact (((fk.fresh _ _ _ _ ha).2.2 x hx).1 rfl).elim
      · exact (h.trace ht).elim
    · obtain ⟨k₁,hk₁,htrace⟩ := sysFork_noTrapframe tf h
      cases hk₁.symm.trans hrun
      exact htrace

/-- A heap in which call `n` fails, and no page tables behind the pointers of as_copy. -/
def failingAt (n : Nat) : Forks :=
  ⟨growing fun i => i == n,fun _ => none,fun _ => 0,fun _ => Vm.zeroed⟩

theorem fork_failure_leaves_no_trace_first : ∃ k',
    sysFork (failingAt 0) ⟨0,0,0,0,0,0⟩ (oneProcess fun _ => 0) = .err .ENOMEM k' ∧
      NoTrace (oneProcess fun _ => 0) k' :=
  ⟨_,rfl,((fork_failure_leaves_no_trace (failingAt 0) _ ⟨0,0,0,0,0,0⟩ 4).2 _ _ rfl).2.mpr rfl⟩

/-- Without memory for the stack the table entry stays taken, and four blocks stay allocated. -/
theorem fork_failure_keeps_slot : ∃ k',
    threadFork (failingAt 6).toLibrary 4 (oneProcess fun _ => 0) = .err .ENOMEM k' ∧
      ((oneProcess fun _ => 0).table 2).occupied = false ∧ (k'.table 2).occupied = true ∧
      (oneProcess fun _ => 0).blocks = [] ∧ k'.blocks.length = 4 :=
  ⟨_,rfl,rfl,rfl,rfl,rfl⟩

end Failure

end MipsOs.Sys
