import MipsOs.ExecCall

/-! mips_syscall. Each call says in its own way that it has failed, and what reaches the user is an
error code for all of them but fork. Some calls leave kernel blocks behind. -/

set_option autoImplicit false
namespace MipsOs.Sys
open Prog Bytes Accesses
open Proc (totalProcesses)
open CopyInOut (userTop userTop_eq)

/-- The numbers of kern/callno.h that mips_syscall knows. -/
inductive Callno where
  | exit | execv | fork | waitpid | read | write | reboot | sbrk | getpid | time
  deriving DecidableEq, Repr

def callno : Nat → Option Callno
  | 0 => some .exit
  | 1 => some .execv
  | 2 => some .fork
  | 3 => some .waitpid
  | 5 => some .read
  | 6 => some .write
  | 8 => some .reboot
  | 10 => some .sbrk
  | 11 => some .getpid
  | 28 => some .time
  | _ => none

/-- What the calls take from outside: also the clock, and the uninitialised counter of
num_empty_cm. -/
structure Env extends Waiters, Forks, Loader where
  gettime : Kern → Nat × Nat
  emptyCm : Int

section Calls

variable (env : Env)

/-- RB_REBOOT, RB_HALT and RB_POWEROFF do not come back. -/
def sysReboot (code : Int) : Code Int :=
  if code = 0 ∨ code = 1 ∨ code = 2 then halt .shutdown else fail .EINVAL

def sysGetpid : Code Int := fun k => .ok k.threadPID k

/-- thread_exit does not come back. -/
def sysExit : Code Int := halt .exited

def copyTime (src userdest : Nat) : Code Unit :=
  if userdest ≠ 0 then mapErr (fun _ => .EFAULT) (copyout env.toLibrary src userdest 4) else pure ()

/-- The blocks stay allocated when copyout fails; whether there are any is not checked. -/
def sysTime (seconds nanoseconds : Nat) : Code Int := do
  let sec ← kmalloc env.toLibrary sizeofPtr
  let nsec ← kmalloc env.toLibrary sizeofPtr
  let k ← get
  putWord sec (env.gettime k).1
  putWord nsec (env.gettime k).2
  copyTime env sec seconds
  copyTime env nsec nanoseconds
  let retval ← getWord sec
  kfree env.toLibrary sec
  kfree env.toLibrary nsec
  pure (toInt32 retval)

def sysSbrk (amount : Int) : Code Int := fun k =>
  match k.vmspace with
  | none => .panic (.vm .nullPointer)
  | some as =>
    match as.heap with
    | none => .panic (.vm .nullPointer)
    | some heap =>
      match Vm.sysSbrk amount env.emptyCm heap k.mmu.frames with
      | (some e,_,_) => .err e k
      | (none,retval,heap) => .ok (retval.getD 0) { k with vmspace := some (as.set .heap heap) }

/-- The call with the number in v0. The value is retval, which is looked at only if there is no
error. -/
def syscall (tf : Trapframe) : Code Int :=
  match callno tf.v0 with
  | some .reboot => sysReboot (toInt32 tf.a0)
  | some .write => do
    sysWrite env.toLibrary (toInt32 tf.a0) tf.a1 tf.a2
    pure (toInt32 tf.a2)
  | some .read => do
    sysRead env.toLibrary (toInt32 tf.a0) tf.a1 tf.a2
    pure (toInt32 tf.a2)
  | some .fork => do
    let pid ← sysFork env.toForks tf
    pure pid
  | some .getpid => sysGetpid
  | some .exit => sysExit
  | some .waitpid => sysWaitpid env.toWaiters (toInt32 tf.a0) tf.a1 (toInt32 tf.a2)
  | some .time => sysTime env tf.a0 tf.a1
  | some .execv => do
    let _ ← sysExecv env.toLoader tf.a0 tf.a1
    halt .usermode
  | some .sbrk => sysSbrk env (toInt32 tf.a0)
  | none => fail .ENOSYS

/-- The value of err for a call that fails: sys_fork returns -1 and puts the code into retval. -/
def errOf (tf : Trapframe) (e : Errno) : Int :=
  if callno tf.v0 = some .fork then -1 else e.code

def Trapframe.finish (tf : Trapframe) (result : Except Int Int) : Trapframe :=
  match result with
  | .error err => { tf with v0 := toU32 err, a3 := 1, epc := (tf.epc + 4) % 2^32 }
  | .ok retval => { tf with v0 := toU32 retval, a3 := 0, epc := (tf.epc + 4) % 2^32 }

def assertLow : Code Unit := fun k =>
  if k.mmu.curspl = 0 then .ok () k else .panic (.assertion "curspl == 0")

def mipsSyscall (tf : Trapframe) : Code Trapframe := do
  assertLow
  match ← attempt (syscall env tf) with
  | .error e =>
    assertLow
    pure (tf.finish (.error (errOf tf e)))
  | .ok retval =>
    assertLow
    pure (tf.finish (.ok retval))

end Calls

section Lent

variable (lib : Library) {k : Kern} {bs bs' : List (Nat × Nat)} {p q : Nat}

/-- The heap between a kmalloc that has returned `p` and the kfree of it; before the kmalloc it
was `bs`. -/
def Lent (bs : List (Nat × Nat)) (p : Nat) (bs' : List (Nat × Nat)) : Prop :=
  p = 0 ∧ bs' = bs ∨ p ≠ 0 ∧ p ∈ bs'.map Prod.fst ∧ without bs' p = bs

theorem kmalloc_lends (sz : Nat) (k : Kern) :
    ∃ p k', kmalloc lib sz k = .ok p k' ∧ Lent k.blocks p k'.blocks ∧
      (p = 0 ∧ lib.kmalloc k.heapCalls k.blocks sz = none ∨
        userTop ≤ p ∧ lib.kmalloc k.heapCalls k.blocks sz ≠ none) ∧
      k'.mmu.curspl = k.mmu.curspl ∧ k'.map = k.map := by
  cases ha : lib.kmalloc k.heapCalls k.blocks sz with
  | none => exact ⟨0,_,kmalloc_none ha,.inl ⟨rfl,rfl⟩,.inl ⟨rfl,rfl⟩,rfl,rfl⟩
  | some a =>
    have hvalue := userTop_eq
    have hlow := Library.le_of_kmalloc ha
    exact ⟨a,_,kmalloc_some ha,.inr ⟨by omega,List.mem_cons_self,Library.without_cons ha⟩,
      .inr ⟨hlow,by simp⟩,rfl,rfl⟩

theorem Lent.null (h : Lent bs 0 bs') : bs' = bs :=
  h.elim And.right fun h => absurd rfl h.1

theorem Lent.grows (h : Lent bs p bs') (hp : p ≠ 0) : bs.length < bs'.length := by
  obtain ⟨_,hmem,rfl⟩ := h.resolve_left fun h => hp h.1
  obtain ⟨b,hb,rfl⟩ := List.mem_map.mp hmem
  exact List.length_filter_lt_length_iff_exists.mpr ⟨b,hb,by simp⟩

theorem kfree_lent (h : Lent bs p k.blocks) :
    ∃ k', kfree lib p k = .ok () k' ∧ k'.blocks = bs ∧ k'.mmu.curspl = k.mmu.curspl := by
  rcases h with ⟨rfl,hbs⟩ | ⟨hp,hmem,hbs⟩
  · exact ⟨k,rfl,hbs,rfl⟩
  · refine ⟨(k.heapCall lib).setBlocks (without k.blocks p),?_,hbs,rfl⟩
    rw [kfree,if_neg hp,if_pos hmem]

theorem kfree_lent_first (hp : Lent bs p bs') (hq : Lent bs' q k.blocks) :
    ∃ k', kfree lib p k = .ok () k' ∧ Lent bs q k'.blocks ∧ k'.mmu.curspl = k.mmu.curspl := by
  rcases hp with ⟨rfl,rfl⟩ | ⟨hp,hmem,hbs⟩
  · exact ⟨k,rfl,hq,rfl⟩
  rcases hq with ⟨rfl,rfl⟩ | ⟨hq,hmem',hbs'⟩
  · obtain ⟨k',hk',hblocks,hlevel⟩ := kfree_lent (k := k) lib (.inr ⟨hp,hmem,hbs⟩)
    exact ⟨k',hk',.inl ⟨rfl,hblocks⟩,hlevel⟩
  -- the second block is not the first one, which was there before it
  rw [← hbs'] at hmem hbs
  obtain ⟨b,hb,rfl⟩ := List.mem_map.mp hmem
  obtain ⟨hlive,hne⟩ := List.mem_filter.mp hb
  have hne : b.1 ≠ q := of_decide_eq_true hne
  refine ⟨(k.heapCall lib).setBlocks (without k.blocks b.1),?_,.inr ⟨hq,?_,?_⟩,rfl⟩
  · rw [kfree,if_neg hp,if_pos (List.mem_map_of_mem hlive)]
  · obtain ⟨c,hc,rfl⟩ := List.mem_map.mp hmem'
    exact List.mem_map_of_mem (List.mem_filter.mpr ⟨hc,decide_eq_true hne.symm⟩)
  · show without (without k.blocks b.1) q = bs
    rw [← hbs]
    simp only [without,List.filter_filter,Bool.and_comm]

end Lent

section Blocks

/-- The blocks, the interrupt level and the mapping are those of `k₀`. -/
def BlocksAre (k₀ k : Kern) : Prop :=
  k.blocks = k₀.blocks ∧ k.mmu.curspl = k₀.mmu.curspl ∧ k.map = k₀.map

/-- A call has returned to the interrupt level it came from. If `known` is, it has left the heap as
it was just in case `free` holds. -/
def Settled (known free : Prop) (k k' : Kern) : Prop :=
  (known → (k'.blocks = k.blocks ↔ free)) ∧ k'.mmu.curspl = k.mmu.curspl

variable {k₀ k : Kern}

theorem blocksAre_space (k : Kern) (s : Accesses.Space) (h : BlocksAre k₀ k) :
    BlocksAre k₀ (k.setSpace s) := h

theorem onSpace_cases {α : Type} (f : Faults → Prog Space Errno Stop α) (k : Kern) :
    (∃ a s, f k.map.faults k.space = .ok a s ∧ onSpace f k = .ok a (k.setSpace s)) ∨
    (∃ e s, f k.map.faults k.space = .err e s ∧ onSpace f k = .err e (k.setSpace s)) ∨
    ∃ p, onSpace f k = .panic p := by
  cases hf : f k.map.faults k.space with
  | ok a s => exact .inl ⟨a,s,rfl,onSpace_ok hf⟩
  | err e s => exact .inr (.inl ⟨e,s,rfl,onSpace_err hf⟩)
  | panic p => exact .inr (.inr ⟨p,by simp only [onSpace,zoom,hf]⟩)

/-- A copy of the call: it fails with EFAULT if it fails, and what is known about the mapping
tells which. -/
theorem copy_cases {f : Faults → Nat → Prog Space Errno Stop Unit} {kern : Nat}
    (hf : ∀ s, (f k.map.faults kern s).Ends (fun _ _ => True) (fun e _ => e = .EFAULT)
      fun _ => True) (hmap : k.map = k₀.map) :
    (∃ s, onSpace (f · kern) k = .ok () (k.setSpace s) ∧
      (userTop ≤ kern → ¬ Rejects (f k₀.map.faults))) ∨
    (∃ s, onSpace (f · kern) k = .err .EFAULT (k.setSpace s) ∧
      (userTop ≤ kern → ¬ Admits (f k₀.map.faults))) ∨
    ∃ p, onSpace (f · kern) k = .panic p := by
  rcases onSpace_cases (f · kern) k with ⟨_,s,hs,hrun⟩ | ⟨e,s,hs,hrun⟩ | hpanic
  · refine .inl ⟨s,hrun,fun hle hr => ?_⟩
    obtain ⟨e,t,ht⟩ := hr kern k.space hle
    rw [← hmap,hs] at ht
    cases ht
  · have he := hf k.space
    rw [hs] at he
    cases he
    exact .inr (.inl ⟨s,hrun,fun hle ha => ha kern k.space hle _ s (hmap ▸ hs)⟩)
  · exact .inr (.inr hpanic)

theorem copyin_cases (lib : Library) (p kern n : Nat) (hmap : k.map = k₀.map) :
    (∃ s, copyin lib p kern n k = .ok () (k.setSpace s) ∧
      (userTop ≤ kern → ¬ Rejects (lib.reading k₀ p n))) ∨
    (∃ s, copyin lib p kern n k = .err .EFAULT (k.setSpace s) ∧
      (userTop ≤ kern → ¬ Admits (lib.reading k₀ p n))) ∨
    ∃ q, copyin lib p kern n k = .panic q :=
  copy_cases (f := fun fl kern => CopyInOut.copyin lib.memcpy fl p kern n)
    (fun _ => CopyInOut.copyBlock_efault) hmap

theorem copyout_cases (lib : Library) (p kern n : Nat) (hmap : k.map = k₀.map) :
    (∃ s, copyout lib kern p n k = .ok () (k.setSpace s) ∧
      (userTop ≤ kern → ¬ Rejects (lib.storing k₀ p n))) ∨
    (∃ s, copyout lib kern p n k = .err .EFAULT (k.setSpace s) ∧
      (userTop ≤ kern → ¬ Admits (lib.storing k₀ p n))) ∨
    ∃ q, copyout lib kern p n k = .panic q :=
  copy_cases (f := fun fl kern => CopyInOut.copyout lib.memcpy fl kern p n)
    (fun _ => CopyInOut.copyBlock_efault) hmap

theorem putLoop_blocks (a n : Nat) : Unerring (BlocksAre k₀) (fun _ => True)
    (loop (fun i _ => do putch (← getByte (a + i))) 0 n () : Code Unit) := by
  refine .loop (fun i _ => .bind (deref_unerring_of blocksAre_space _) fun ch => ?_) n 0 ()
  exact fun _ hk => hk

theorem getLoop_blocks (a n : Nat) : Unerring (BlocksAre k₀) (fun _ => True)
    (loop (fun i _ => do putByte (a + i) (← getch)) 0 n () : Code Unit) := by
  have hgetch : Unerring (BlocksAre k₀) (fun _ => True) getch := fun _ hk => hk
  exact .loop (fun i _ => .bind hgetch fun ch => deref_unerring_of blocksAre_space _) n 0 ()

/-- The same of a call that returns with an error or without one. -/
def Returns {α : Type} (o : Outcome Kern Errno Stop α) (known free : Prop) (k : Kern) : Prop :=
  o.Ends (fun _ k' => Settled known free k k') (fun _ k' => Settled known free k k') fun _ => True

theorem Returns.level {α : Type} {o : Outcome Kern Errno Stop α} {known free : Prop}
    (h : Returns o known free k) : o.Ends (fun _ k' => k'.mmu.curspl = k.mmu.curspl)
      (fun _ k' => k'.mmu.curspl = k.mmu.curspl) fun _ => True :=
  h.mono (fun _ _ h => h.2) (fun _ _ h => h.2) fun _ hp => hp

/-- The mapping alone decides whether the copy fails. -/
def Decided (copy : Nat → Prog Space Errno Stop Unit) : Prop := Admits copy ∨ Rejects copy

def WriteFrees (lib : Library) (fd : Int) (buf nbytes : Nat) (k : Kern) : Prop :=
  (fd ≠ stdoutFileno ∧ fd ≠ stderrFileno) ∨ lib.kmalloc k.heapCalls k.blocks nbytes = none ∨
    Admits (lib.reading k buf nbytes)

def ReadFrees (lib : Library) (fd : Int) (buf buflen : Nat) (k : Kern) : Prop :=
  fd ≠ stdinFileno ∨ lib.kmalloc k.heapCalls k.blocks buflen = none ∨
    Admits (lib.storing k buf sizeofPtr)

/-- sys_waitpid returns before its kmalloc. -/
def EarlyWait (pid : Int) (status : Nat) (options : Int) : Prop :=
  options ≠ 0 ∨ status = 0 ∨ pid ≤ 0 ∨ pid ≥ totalProcesses

def WaitFrees (w : Waiters) (pid : Int) (status : Nat) (options : Int) (k : Kern) : Prop :=
  EarlyWait pid status options ∨ w.kmalloc k.heapCalls k.blocks 4 = none ∨
    Rejects (w.reading k status 4)

/-- The time words can be stored where the user wants them. -/
def Storable (env : Env) (k : Kern) (seconds nanoseconds : Nat) : Prop :=
  (seconds = 0 ∨ Admits (env.storing k seconds 4)) ∧
    (nanoseconds = 0 ∨ Admits (env.storing k nanoseconds 4))

def TimeFrees (env : Env) (seconds nanoseconds : Nat) (k : Kern) : Prop :=
  env.kmalloc k.heapCalls k.blocks sizeofPtr = none ∨ Storable env k seconds nanoseconds

/-- sys__time asks twice for memory, and both requests have the same result. -/
def Together (lib : Library) (k : Kern) : Prop :=
  ∀ p k₁, kmalloc lib sizeofPtr k = .ok p k₁ → (lib.kmalloc k.heapCalls k.blocks sizeofPtr = none ↔
    lib.kmalloc k₁.heapCalls k₁.blocks sizeofPtr = none)

section Copied

variable {m : Option Nat} {p : Nat} {early good : Prop} {lib : Library} {k₁ : Kern}
  (hlent : Lent k.blocks p k₁.blocks) (hnull : p = 0 ∧ m = none ∨ userTop ≤ p ∧ m ≠ none)

include hlent hnull

theorem kept_iff (hblocks : k₀.blocks = k₁.blocks) (hearly : ¬ early)
    (hgood : userTop ≤ p → ¬ good) : k₀.blocks = k.blocks ↔ early ∨ m = none ∨ good := by
  rw [hblocks]
  rcases hnull with ⟨rfl,hm⟩ | ⟨hle,hm⟩
  · exact iff_of_true hlent.null (.inr (.inl hm))
  · have hvalue := userTop_eq
    have hgrows := hlent.grows (by omega)
    refine iff_of_false (fun heq => ?_) (by simp [hearly,hm,hgood hle])
    rw [heq] at hgrows
    omega

theorem settled_freed {known : Prop} {u : Kern} (hlevel : k₁.mmu.curspl = k.mmu.curspl)
    (hu : BlocksAre k₁ u) (hgood : userTop ≤ p → known → good) :
    ∃ k', kfree lib p u = .ok () k' ∧ Settled known (early ∨ m = none ∨ good) k k' := by
  obtain ⟨k',hfree,hblocks,hlevel'⟩ := kfree_lent lib (hu.1.symm ▸ hlent)
  refine ⟨k',hfree,fun hknown => iff_of_true hblocks (.inr ?_),
    hlevel'.trans (hu.2.1.trans hlevel)⟩
  exact hnull.imp And.right fun h => hgood h.1 hknown

end Copied

/-- The block stays allocated if it cannot be filled from the user's buffer. -/
theorem sysWrite_blocks (lib : Library) (fd : Int) (buf nbytes : Nat) (k : Kern) :
    Returns (sysWrite lib fd buf nbytes k) (Decided (lib.reading k buf nbytes))
      (WriteFrees lib fd buf nbytes k) k := by
  rw [sysWrite]
  split
  · next hfd => exact ⟨fun _ => iff_of_true rfl (.inl hfd),rfl⟩
  next hfd =>
  obtain ⟨array,k₁,hmalloc,hlent,hnull,hlevel,hmap⟩ := kmalloc_lends lib nbytes k
  rw [bind_ok hmalloc]
  rcases copyin_cases lib buf array nbytes hmap with
    ⟨s,hrun,hok⟩ | ⟨s,hrun,herr⟩ | ⟨p,hrun⟩
  · rw [bind_ok (attempt_ok hrun),if_neg (by simp)]
    refine (putLoop_blocks array nbytes (k₁.setSpace s) ⟨rfl,rfl,rfl⟩).bind_unerring
      fun _ k₃ h₃ => ?_
    obtain ⟨k₄,hfree,hsettled⟩ := settled_freed hlent hnull hlevel h₃
      fun hle (hknown : Decided _) => hknown.resolve_right (hok hle)
    rw [hfree]
    exact hsettled
  · rw [bind_ok (attempt_err hrun),if_pos rfl]
    exact ⟨fun _ => kept_iff hlent hnull rfl hfd herr,hlevel⟩
  · rw [bind_panic (p := p) (by simp only [attempt,hrun])]
    trivial

theorem sysRead_blocks (lib : Library) (fd : Int) (buf buflen : Nat) (k : Kern) :
    Returns (sysRead lib fd buf buflen k) (Decided (lib.storing k buf sizeofPtr))
      (ReadFrees lib fd buf buflen k) k := by
  rw [sysRead]
  split
  · next hfd => exact ⟨fun _ => iff_of_true rfl (.inl hfd),rfl⟩
  next hfd =>
  obtain ⟨array,k₁,hmalloc,hlent,hnull,hlevel,hmap⟩ := kmalloc_lends lib buflen k
  rw [bind_ok hmalloc]
  refine (getLoop_blocks array buflen k₁ ⟨rfl,rfl,rfl⟩).bind_unerring fun _ k₂ h₂ => ?_
  rcases copyout_cases lib buf array sizeofPtr (h₂.2.2.trans hmap) with
    ⟨s,hrun,hok⟩ | ⟨s,hrun,herr⟩ | ⟨p,hrun⟩
  · obtain ⟨k₄,hfree,hsettled⟩ := settled_freed (u := k₂.setSpace s) hlent hnull hlevel h₂
      fun hle (hknown : Decided _) => hknown.resolve_right (hok hle)
    rw [bind_ok (attempt_ok hrun),if_neg (by simp),hfree]
    exact hsettled
  · rw [bind_ok (attempt_err hrun),if_pos rfl]
    exact ⟨fun _ => kept_iff hlent hnull h₂.1 hfd herr,h₂.2.1.trans hlevel⟩
  · rw [bind_panic (p := p) (by simp only [attempt,hrun])]
    trivial

/-- A time word is stored, or the pointer is NULL, or the copy fails. -/
theorem copyTime_cases (env : Env) (p kern : Nat) (hmap : k.map = k₀.map) :
    (∃ s, copyTime env kern p k = .ok () (k.setSpace s) ∧
      (userTop ≤ kern → p = 0 ∨ ¬ Rejects (env.storing k₀ p 4))) ∨
    (∃ s, copyTime env kern p k = .err .EFAULT (k.setSpace s) ∧
      (userTop ≤ kern → p ≠ 0 ∧ ¬ Admits (env.storing k₀ p 4))) ∨
    ∃ q, copyTime env kern p k = .panic q := by
  rw [copyTime]
  by_cases hp : p = 0
  · rw [if_neg (not_not.mpr hp)]
    exact .inl ⟨k.space,rfl,fun _ => .inl hp⟩
  · rw [if_pos hp]
    rcases copyout_cases env.toLibrary p kern 4 hmap with
      ⟨s,hrun,hok⟩ | ⟨s,hrun,herr⟩ | ⟨q,hrun⟩
    · exact .inl ⟨s,mapErr_ok hrun,fun hle => .inr (hok hle)⟩
    · exact .inr (.inl ⟨s,mapErr_err hrun,fun hle => ⟨hp,herr hle⟩⟩)
    · exact .inr (.inr ⟨q,by simp only [mapErr,hrun]⟩)

/-- Both blocks are freed unless a word cannot be copied out. -/
theorem sysTime_blocks (env : Env) (seconds nanoseconds : Nat) (k : Kern) :
    Returns (sysTime env seconds nanoseconds k) (Together env.toLibrary k ∧
        Decided (env.storing k seconds 4) ∧ Decided (env.storing k nanoseconds 4))
      (TimeFrees env seconds nanoseconds k) k := by
  rw [sysTime]
  obtain ⟨sec,k₁,hsec,hlent,hnull,hlevel,hmap⟩ := kmalloc_lends env.toLibrary sizeofPtr k
  obtain ⟨nsec,k₂,hnsec,hlent',hnull',hlevel',hmap'⟩ := kmalloc_lends env.toLibrary sizeofPtr k₁
  rw [bind_ok hsec,bind_ok hnsec,get_bind]
  have hword : ∀ a n, Unerring (BlocksAre k₂) (fun _ => True) (putWord a n) :=
    fun _ _ => deref_unerring_of blocksAre_space _
  refine (hword _ _ k₂ ⟨rfl,rfl,rfl⟩).bind_unerring fun _ k₃ h₃ => ?_
  refine (hword _ _ k₃ h₃).bind_unerring fun _ k₄ h₄ => ?_
  have hvalue := userTop_eq
  have hmap₄ : k₄.map = k.map := h₄.2.2.trans (hmap'.trans hmap)
  have hkept : ∀ {k' : Kern} {known : Prop}, BlocksAre k₂ k' →
      (userTop ≤ sec → userTop ≤ nsec → ¬ Storable env k seconds nanoseconds) →
      Settled (Together env.toLibrary k ∧ known) (TimeFrees env seconds nanoseconds k) k k' := by
    intro k' known hk' hbad
    refine ⟨fun hknown => ?_,hk'.2.1.trans (hlevel'.trans hlevel)⟩
    have htogether := hknown.1 sec k₁ hsec
    rcases hnull with ⟨rfl,hm⟩ | ⟨hle,hm⟩
    · obtain ⟨rfl,_⟩ := hnull'.resolve_right fun h => h.2 (htogether.mp hm)
      exact iff_of_true (hk'.1.trans (hlent'.null.trans hlent.null)) (.inl hm)
    · obtain ⟨hle',_⟩ := hnull'.resolve_left fun h => hm (htogether.mpr h.2)
      have hgrows := hlent.grows (by omega)
      have hgrows' := hlent'.grows (by omega)
      refine iff_of_false (fun heq => ?_) (not_or.mpr ⟨hm,hbad hle hle'⟩)
      rw [← hk'.1,heq] at hgrows'
      omega
  rcases copyTime_cases env seconds sec hmap₄ with ⟨s,hrun,hok⟩ | ⟨s,hrun,herr⟩ | ⟨q,hrun⟩
  rotate_left
  · rw [bind_err hrun]
    exact hkept h₄ fun hle _ hc => (herr hle).2 (hc.1.resolve_left (herr hle).1)
  · rw [bind_panic hrun]
    trivial
  rw [bind_ok hrun]
  rcases copyTime_cases (k := k₄.setSpace s) env nanoseconds nsec hmap₄ with
    ⟨s',hrun',hok'⟩ | ⟨s',hrun',herr'⟩ | ⟨q,hrun'⟩
  rotate_left
  · rw [bind_err hrun']
    exact hkept h₄ fun _ hle hc => (herr' hle).2 (hc.2.resolve_left (herr' hle).1)
  · rw [bind_panic hrun']
    trivial
  rw [bind_ok hrun']
  refine (deref_unerring_of (I := BlocksAre k₂) blocksAre_space _ (k₄.setSpace s |>.setSpace s')
    h₄).bind_unerring fun retval k₇ h₇ => ?_
  obtain ⟨k₈,hfree,hlent₈,hlevel₈⟩ := kfree_lent_first env.toLibrary hlent (h₇.1.symm ▸ hlent')
  obtain ⟨k₉,hfree',hblocks,hlevel₉⟩ := kfree_lent env.toLibrary hlent₈
  rw [bind_ok hfree,bind_ok hfree']
  refine ⟨fun hknown => iff_of_true hblocks ?_,
    hlevel₉.trans (hlevel₈.trans (h₇.2.1.trans (hlevel'.trans hlevel)))⟩
  rcases hnull with ⟨_,hm⟩ | ⟨hle,hm⟩
  · exact .inl hm
  · obtain ⟨hle',_⟩ := hnull'.resolve_left fun h => hm ((hknown.1 sec k₁ hsec).mpr h.2)
    exact .inr ⟨(hok hle).imp_right hknown.2.1.resolve_right,
      (hok' hle').imp_right hknown.2.2.resolve_right⟩

/-- memcheck is gone only if copyin has failed or it was never asked for. -/
theorem sysWaitpid_blocks (w : Waiters) (pid : Int) (status : Nat) (options : Int) (k : Kern) :
    Returns (sysWaitpid w pid status options k) (w.Still ∧ Decided (w.reading k status 4))
      (WaitFrees w pid status options k) k := by
  rw [sysWaitpid]
  split
  · next h => exact ⟨fun _ => iff_of_true rfl (.inl (.inl h)),rfl⟩
  split
  · next h => exact ⟨fun _ => iff_of_true rfl (.inl (.inr (.inl h))),rfl⟩
  split
  · next h => exact ⟨fun _ => iff_of_true rfl (.inl (.inr (.inr (by omega)))),rfl⟩
  split
  · refine (deref_unerring_of (I := BlocksAre k) blocksAre_space _ k ⟨rfl,rfl,rfl⟩).bind_unerring
      fun _ k' hk' => ?_
    exact ⟨fun _ => iff_of_true hk'.1 (.inl (.inr (.inr (by omega)))),hk'.2.1⟩
  have hlate : ¬ EarlyWait pid status options := by
    unfold EarlyWait
    omega
  obtain ⟨memcheck,k₁,hmalloc,hlent,hnull,hlevel,hmap⟩ := kmalloc_lends w.toLibrary 4 k
  rw [bind_ok hmalloc]
  rcases copyin_cases w.toLibrary status memcheck 4 hmap with
    ⟨s,hrun,hok⟩ | ⟨s,hrun,herr⟩ | ⟨p,hrun⟩
  · rw [bind_ok (attempt_ok hrun)]
    show Returns ((if misaligned status = true then fail .EINVAL else waitFor w pid.toNat status :
      Code Int) (k₁.setSpace s)) _ _ _
    split
    · exact ⟨fun _ => kept_iff hlent hnull rfl hlate hok,hlevel⟩
    · refine waitFor_ends.mono (fun _ k' hk' => ⟨fun hknown => ?_,hk'.2.1.trans hlevel⟩)
        (fun _ k' he => ⟨fun _ => ?_,?_⟩) fun _ hp => hp
      · exact kept_iff hlent hnull (hk'.2.2 hknown.1) hlate hok
      · exact kept_iff hlent hnull (by rw [he.2]; rfl) hlate hok
      · exact (congrArg (·.mmu.curspl) he.2).trans hlevel
  · obtain ⟨k₃,hfree,hsettled⟩ := settled_freed (u := k₁.setSpace s) hlent hnull hlevel
      ⟨rfl,rfl,rfl⟩ fun hle (hknown : w.Still ∧ Decided _) =>
        hknown.2.resolve_left (herr hle)
    rw [bind_ok (attempt_err hrun)]
    show Returns ((kfree w.toLibrary memcheck >>= fun _ => fail .EFAULT : Code Int)
      (k₁.setSpace s)) _ _ _
    rw [bind_ok hfree]
    exact hsettled
  · rw [bind_panic (p := p) (by simp only [attempt,hrun])]
    trivial

end Blocks

section Level

variable {c : Nat} {k : Kern}

def AtLevel (c : Nat) (k : Kern) : Prop := k.mmu.curspl = c

theorem sysSbrk_level (env : Env) (amount : Int) :
    Keeps (AtLevel c) (fun _ => True) (sysSbrk env amount) := by
  intro k hk
  unfold sysSbrk
  split
  · trivial
  · split
    · trivial
    · split
      · exact hk
      · exact hk

theorem syscall_level (env : Env) (tf : Trapframe) :
    Keeps (AtLevel c) (fun _ => True) (syscall env tf) := by
  have hlevel : ∀ {α : Type} {f : Code α}, (∀ k, (f k).Ends
      (fun _ k' => k'.mmu.curspl = k.mmu.curspl) (fun _ k' => k'.mmu.curspl = k.mmu.curspl)
      fun _ => True) → Keeps (AtLevel c) (fun _ => True) f := fun h k hk =>
    (h k).mono (fun _ _ h' => h'.trans hk) (fun _ _ h' => h'.trans hk) fun _ hp => hp
  unfold syscall
  generalize toInt32 tf.a0 = a0
  generalize toInt32 tf.a2 = a2
  split
  · exact .ite (fun _ => .halt trivial) fun _ => .fail _
  · exact .bind (hlevel fun k => (sysWrite_blocks _ a0 _ _ k).level) fun _ => .pure a2
  · exact .bind (hlevel fun k => (sysRead_blocks _ a0 _ _ k).level) fun _ => .pure a2
  · refine .bind (hlevel fun k => ?_) fun _ => .pure _
    refine (sysFork_ends env.toForks tf ⟨Eq.refl k.threads,rfl⟩).mono (fun _ _ h => h)
      (fun _ _ h => ?_) fun _ hp => hp
    rcases h with h | ⟨_,_,h⟩ | ⟨_,_,_,_,h⟩
    · exact h.2.2
    · exact h.1.2
    · exact h.2
  · exact fun _ hk => hk
  · exact .halt trivial
  · exact hlevel fun k => (sysWaitpid_blocks env.toWaiters _ _ _ k).level
  · exact hlevel fun k => (sysTime_blocks env _ _ k).level
  · intro k hk
    exact (sysExecv_ends env.toLoader tf.a0 tf.a1 k).bind (fun _ _ _ => trivial)
      (fun _ _ he => he.1.curspl.trans hk) fun _ hp => hp
  · exact sysSbrk_level env _
  · exact .fail _

end Level

section Convention

variable {env : Env} {tf : Trapframe} {k : Kern}

theorem code_bounds (e : Errno) : 0 < e.code ∧ e.code ≤ 26 := by
  cases e <;> decide

theorem toU32_code (e : Errno) : toU32 (e.code : Int) = e.code := by
  have := (code_bounds e).2
  simp only [toU32]
  omega

theorem assertLow_eq (h : k.mmu.curspl = 0) : assertLow k = .ok () k := by simp [assertLow,h]

theorem assertLow_gives {α : Type} {g : Code α} {Q : α → Kern → Prop}
    (hg : k.mmu.curspl = 0 → (g k).Gives Q) : ((assertLow >>= fun _ => g) k).Gives Q := by
  by_cases hk : k.mmu.curspl = 0
  · rw [bind_ok (assertLow_eq hk)]
    exact hg hk
  · rw [bind_panic (show assertLow k = .panic (.assertion "curspl == 0") by simp [assertLow,hk])]
    exact .panic _

/-- The trapframe tells how the call has ended. -/
structure Reported (env : Env) (tf : Trapframe) (k : Kern) (tf' : Trapframe) (k' : Kern) :
    Prop where
  epc : tf'.epc = (tf.epc + 4) % 2^32
  curspl : k'.mmu.curspl = 0
  outcome : (tf'.a3 = 1 ∧ ∃ e, syscall env tf k = .err e k' ∧ tf'.v0 = e.code ∧ 0 < tf'.v0) ∨
    (tf'.a3 = 0 ∧ ∃ retval, syscall env tf k = .ok retval k' ∧ tf'.v0 = toU32 retval)

/-- A fork that fails is reported with a code that is none. -/
theorem fork_misreported (hcall : callno tf.v0 = some .fork) (hlow : k.mmu.curspl = 0) {e : Errno}
    {k' : Kern} (hrun : sysFork env.toForks tf k = .err e k') :
    ∃ tf', mipsSyscall env tf k = .ok tf' k' ∧ ¬ Reported env tf k tf' k' := by
  have hsys : syscall env tf k = .err e k' := by
    simp only [syscall,hcall]
    exact bind_err hrun
  have hlevel := syscall_level env tf k hlow
  rw [hsys] at hlevel
  refine ⟨tf.finish (.error (errOf tf e)),?_,fun hreported => ?_⟩
  · rw [mipsSyscall,bind_ok (assertLow_eq hlow),bind_ok (attempt_err hsys)]
    exact bind_ok (assertLow_eq hlevel)
  · rcases hreported.outcome with ⟨_,e',_,hv0,_⟩ | ⟨ha3,_⟩
    · have hcode := (code_bounds e').2
      rw [show errOf tf e = -1 from if_pos hcall] at hv0
      change 4294967295 = e'.code at hv0
      omega
    · cases ha3

/-- A heap whose first request fails, and nobody else around. -/
def lonely : Env where
  toWaiters := soundSleepers (growing fun i => i == 0)
  tables _ := none
  vendActual _ := 0
  frames _ := Vm.zeroed
  vfsOpen _ _ := .error .ENOENT
  loadElf _ k := (.error .ENOEXEC,⟨k.space.mem,k.map,Vm.asCreate,k.mmu.frames,[],[],k.heapCalls⟩)
  argPtrTable := 0x80300000
  gettime _ := (0,0)
  emptyCm := 0

end Convention

variable {k : Kern}

/-- When the four calls leave the heap as it was. -/
theorem calls_keep_blocks (env : Env) (k : Kern) :
    (∀ fd buf nbytes, Returns (sysWrite env.toLibrary fd buf nbytes k)
      (Decided (env.reading k buf nbytes)) (WriteFrees env.toLibrary fd buf nbytes k) k) ∧
    (∀ fd buf buflen, Returns (sysRead env.toLibrary fd buf buflen k)
      (Decided (env.storing k buf sizeofPtr)) (ReadFrees env.toLibrary fd buf buflen k) k) ∧
    (∀ seconds nanoseconds, Returns (sysTime env seconds nanoseconds k)
      (Together env.toLibrary k ∧ Decided (env.storing k seconds 4) ∧
        Decided (env.storing k nanoseconds 4)) (TimeFrees env seconds nanoseconds k) k) ∧
    ∀ pid status options, Returns (sysWaitpid env.toWaiters pid status options k)
      (env.Still ∧ Decided (env.reading k status 4))
      (WaitFrees env.toWaiters pid status options k) k :=
  ⟨fun fd buf n => sysWrite_blocks env.toLibrary fd buf n k,
    fun fd buf n => sysRead_blocks env.toLibrary fd buf n k,
    fun s n => sysTime_blocks env s n k,
    fun pid status options => sysWaitpid_blocks env.toWaiters pid status options k⟩

def quiet : Env := { lonely with toWaiters := soundSleepers (growing fun _ => false) }

/-- A successful sys_waitpid keeps memcheck; with a bad pointer sys_write and sys_read keep one
block and sys__time keeps two. -/
theorem calls_leak :
    (oneExited fun _ => 0).blocks = [] ∧
    (∃ k', sysWaitpid quiet.toWaiters 2 0x1000 0 (oneExited fun _ => 0) = .ok 2 k' ∧
      k'.blocks = [(0x80400000,4)]) ∧
    (∃ k', sysWrite quiet.toLibrary 1 0x80000000 4 (oneExited fun _ => 0) = .err .EFAULT k' ∧
      k'.blocks = [(0x80400000,4)]) ∧
    (∃ k', sysRead quiet.toLibrary 0 0x80000000 4 (oneExited fun _ => 0) = .err .EFAULT k' ∧
      k'.blocks = [(0x80400000,4)]) ∧
    ∃ k', sysTime quiet 0x80000000 0 (oneExited fun _ => 0) = .err .EFAULT k' ∧
      k'.blocks.length = 2 := by
  have hwait : (sysWaitpid quiet.toWaiters 2 0x1000 0 (oneExited fun _ => 0)).test
      (fun r k' => decide (r = 2 ∧ k'.blocks = [(0x80400000,4)])) = true := by decide +kernel
  have hwrite : (sysWrite quiet.toLibrary 1 0x80000000 4 (oneExited fun _ => 0)).testErr
      .EFAULT (fun k' => k'.blocks = [(0x80400000,4)]) = true := by decide +kernel
  have hread : (sysRead quiet.toLibrary 0 0x80000000 4 (oneExited fun _ => 0)).testErr
      .EFAULT (fun k' => k'.blocks = [(0x80400000,4)]) = true := by decide +kernel
  have htime : (sysTime quiet 0x80000000 0 (oneExited fun _ => 0)).testErr
      .EFAULT (fun k' => k'.blocks.length = 2) = true := by decide +kernel
  obtain ⟨r,k',hk',hp⟩ := Outcome.test_eq_true hwait
  obtain ⟨rfl,hblocks⟩ := of_decide_eq_true hp
  exact ⟨rfl,⟨k',hk',hblocks⟩,Outcome.testErr_eq_true hwrite,Outcome.testErr_eq_true hread,
    Outcome.testErr_eq_true htime⟩

end MipsOs.Sys
