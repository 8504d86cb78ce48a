import MipsOs.Runs
import MipsOs.Types

/-! Processes: the table of thread/thread.c, thread_create, thread_fork and
thread_exit, the locks and condition variables of thread/synch.c, and sys_fork,
sys_waitpid and sys_exit. A thread can be preempted between any two statements
executed with interrupts on; what runs at splhigh is one step. -/

set_option autoImplicit false
namespace MipsOs.Proc
open Function

def totalProcesses : Nat := 128

/-- struct process. `owner` is the owner of its exitpermission lock; threads are
referred to by the order of their creation. -/
structure Entry where
  processthread : Option Nat
  occupied : Bool
  exited : Bool
  exitcode : Int
  waiting : Bool
  parentPID : Nat
  owner : Option Nat
  deriving DecidableEq, Repr

inductive Addr where
  | lock (p : Nat)
  | cv (p : Nat)
  deriving DecidableEq, Repr

/-- The next statement of a thread. `embryo` is a thread that thread_fork has not
made runnable yet, `user` one that is outside the calls modelled here. -/
inductive Pc where
  | embryo
  | user
  | forkCreate (syscall : Bool)
  | forkStart (syscall : Bool) (child : Nat)
  | forkParent (child : Nat)
  | waitThread (p : Nat)
  | waitWaiting (p : Nat)
  | waitSelf (p : Nat)
  | waitParent (p : Nat)
  | waitExited (p : Nat)
  | waitCode (p : Nat)
  | waitAcquire (p : Nat)
  | waitSleep (p : Nat)
  | waitAgain (p : Nat)
  | waitRelease (p : Nat)
  | waitStatus (p : Nat)
  | waitMark (p : Nat) (status : Int)
  | exitAcquire (c : Int)
  | exitBroadcast (c : Int)
  | exitRelease (c : Int)
  | exitFlag (c : Int)
  | exitCode (c : Int)
  | threadExit
  | dead
  deriving DecidableEq, Repr

structure Thread where
  pid : Nat
  pc : Pc
  asleep : Option Addr
  deriving DecidableEq, Repr

/-- A completed sys_waitpid: what was stored through status, or the error. -/
structure Return where
  waiter : Nat
  pid : Int
  result : Except Errno Int

/-- The fields `exitArg` and `returns` record what processes passed to sys_exit and got from
sys_waitpid; no step reads them. -/
structure State where
  table : Nat → Entry
  threads : Nat → Thread
  nthreads : Nat
  noprocesses : Nat
  exitArg : Nat → Option Int
  returns : List Return

def firstSlot (t : Nat) (table : Nat → Entry) : Option Nat :=
  (List.range totalProcesses).find? fun i =>
    decide (t ≤ i) && !(table i).occupied && (table i).processthread.isNone

def searchFrom (s : State) : Nat := if s.noprocesses < 2 then 0 else 2

/-- thread_create once its two calls of kmalloc have succeeded. -/
def threadCreate (s : State) : Option Nat × State :=
  let s' := { s with noprocesses := if s.noprocesses < 2 then s.noprocesses + 1 else s.noprocesses }
  match firstSlot (searchFrom s) s.table with
  | none => (none,s')
  | some i => (some s.nthreads,{ s' with
      table := update s.table i { s.table i with
        occupied := true, owner := none, processthread := some s.nthreads, waiting := false }
      threads := update s.threads s.nthreads ⟨i,.embryo,none⟩
      nthreads := s.nthreads + 1 })

def initProcesstable : State where
  table := fun _ => ⟨none,false,false,0,false,0,none⟩
  threads := fun _ => ⟨0,.dead,none⟩
  nthreads := 0
  noprocesses := 0
  exitArg := fun _ => none
  returns := []

def State.setPc (s : State) (t : Nat) (pc : Pc) : State :=
  { s with threads := update s.threads t { s.threads t with pc := pc } }

/-- The state thread_bootstrap leaves: the boot thread runs. -/
def threadBootstrap : State := (threadCreate initProcesstable).2.setPc 0 .user

structure WaitArgs where
  pid : Int
  status : Nat
  options : Int
  copyin : Option Errno

def waitpidArgs (w : WaitArgs) : Option Errno :=
  if w.options ≠ 0 then some .EINVAL
  else if w.status = 0 then some .EFAULT
  else if w.pid < 0 ∨ w.pid ≥ totalProcesses then some .EINVAL
  else if w.pid = 0 then some .EINVAL
  else if w.copyin.isSome then w.copyin
  else if w.status % 4 ≠ 0 then some .EINVAL
  else none

/-- What a step of the running thread does to the rest of the machine: at most one
table entry changes, sleepers on one address wake up, a sys_waitpid returns. -/
structure Effect where
  pc : Pc
  asleep : Option Addr := none
  entry : Option (Nat × Entry) := none
  wake : Option Addr := none
  ret : Option Return := none

def lockAcquire (s : State) (t p : Nat) (here next : Pc) : Effect :=
  match (s.table p).owner with
  | some _ => { pc := here, asleep := some (.lock p) }
  | none => { pc := next, entry := some (p,{ s.table p with owner := some t }) }

def lockRelease (s : State) (t p : Nat) (next : Pc) (asleep : Option Addr) : Option Effect :=
  if (s.table p).owner = some t then some
    { pc := next, asleep := asleep, entry := some (p,{ s.table p with owner := none })
      wake := some (.lock p) }
  else none

/-- The statements of sys_waitpid and sys_exit. cv_wait releases the lock and goes
to sleep with interrupts off, so that is one step. -/
def effect (s : State) (t : Nat) : Option Effect :=
  let me := (s.threads t).pid
  let goto (pc : Pc) : Option Effect := some { pc := pc }
  let refuse (p : Nat) : Option Effect := some { pc := .user, ret := some ⟨t,p,.error .EINVAL⟩ }
  match (s.threads t).pc with
  | .waitThread p => if (s.table p).processthread.isNone then refuse p else goto (.waitWaiting p)
  | .waitWaiting p => if (s.table p).waiting then refuse p else goto (.waitSelf p)
  | .waitSelf p => if p = me then refuse p else goto (.waitParent p)
  | .waitParent p => if p = (s.table me).parentPID then refuse p else goto (.waitExited p)
  | .waitExited p => if (s.table p).exited then goto (.waitCode p) else goto (.waitAcquire p)
  | .waitCode p => some { pc := .user, ret := some ⟨t,p,.ok (s.table p).exitcode⟩ }
  | .waitAcquire p => some (lockAcquire s t p (.waitAcquire p) (.waitSleep p))
  | .waitSleep p => lockRelease s t p (.waitAgain p) (some (.cv p))
  | .waitAgain p => some (lockAcquire s t p (.waitAgain p) (.waitRelease p))
  | .waitRelease p => lockRelease s t p (.waitStatus p) none
  | .waitStatus p => goto (.waitMark p (s.table p).exitcode)
  | .waitMark p v => some
      { pc := .user, entry := some (p,{ s.table p with waiting := true })
        ret := some ⟨t,p,.ok v⟩ }
  | .exitAcquire c => some (lockAcquire s t me (.exitAcquire c) (.exitBroadcast c))
  | .exitBroadcast c => some { pc := .exitRelease c, wake := some (.cv me) }
  | .exitRelease c => lockRelease s t me (.exitFlag c) none
  | .exitFlag c => some
      { pc := .exitCode c, entry := some (me,{ s.table me with exited := true }) }
  | .exitCode c => some
      { pc := .threadExit, entry := some (me,{ s.table me with exitcode := c }) }
  | .threadExit => goto .dead
  | _ => none

def wakeUp (wake : Option Addr) (th : Thread) : Thread :=
  if th.asleep.isSome ∧ th.asleep = wake then { th with asleep := none } else th

def Effect.apply (e : Effect) (s : State) (t : Nat) : State :=
  { s with
    table := match e.entry with
      | some (p,en) => update s.table p en
      | none => s.table
    threads := update (fun i => wakeUp e.wake (s.threads i)) t
      { s.threads t with pc := e.pc, asleep := e.asleep }
    returns := s.returns ++ e.ret.toList }

/-- What a thread outside the modelled calls may start: sys_fork after as_copy has
returned, thread_fork by kernel code, sys_waitpid, sys_exit, or thread_exit. -/
inductive Call where
  | fork (asCopy : Option Errno)
  | threadFork
  | waitpid (w : WaitArgs)
  | exit (c : Int)
  | threadExit

/-- Action `go t fails junk` is the next statement of thread `t`; `fails` says whether an
allocation of thread_fork fails there, `junk` what a freed struct thread holds as
threadPID. -/
inductive Act where
  | call (t : Nat) (c : Call)
  | go (t : Nat) (fails : Bool) (junk : Nat)

def startCall (s : State) (t : Nat) : Call → State
  | .fork (some _) => s
  | .fork none => s.setPc t (.forkCreate true)
  | .threadFork => s.setPc t (.forkCreate false)
  | .waitpid w =>
    match waitpidArgs w with
    | some e => { s with returns := s.returns ++ [⟨t,w.pid,.error e⟩] }
    | none => s.setPc t (.waitThread w.pid.toNat)
  | .exit c => { s.setPc t (.exitAcquire c) with
      exitArg := update s.exitArg (s.threads t).pid (some c) }
  | .threadExit => s.setPc t .threadExit

/-- The statements of thread_fork and the rest of sys_fork. When an allocation
fails after thread_create, the table entry stays as it is. -/
def forkStep (s : State) (t : Nat) (fails : Bool) (junk : Nat) : Option State :=
  match (s.threads t).pc with
  | .forkCreate sc =>
    if fails then some (s.setPc t .user)
    else
      match threadCreate s with
      | (none,s') => some (s'.setPc t .user)
      | (some child,s') => some (s'.setPc t (.forkStart sc child))
  | .forkStart sc child =>
    if fails then some ((s.setPc child .dead).setPc t .user)
    else some ((s.setPc child .user).setPc t (if sc then .forkParent child else .user))
  | .forkParent child =>
    let pid := if (s.threads child).pc = .dead then junk else (s.threads child).pid
    some { s.setPc t .user with
      table := if pid < totalProcesses then
          update s.table pid { s.table pid with parentPID := (s.threads t).pid }
        else s.table }
  | _ => none

def step (s : State) : Act → Option State
  | .call t c =>
    if t < s.nthreads ∧ (s.threads t).pc = .user ∧ (s.threads t).asleep = none then
      some (startCall s t c)
    else none
  | .go t fails junk =>
    if t < s.nthreads ∧ (s.threads t).asleep = none then
      match effect s t with
      | some e => some (e.apply s t)
      | none => forkStep s t fails junk
    else none

variable {s : State} {t i p : Nat} {next pc : Pc} {e : Effect} {c : Call}

theorem step_cases {s' : State} {a : Act} (h : step s a = some s') :
    (∃ t c, a = .call t c ∧ t < s.nthreads ∧ (s.threads t).pc = .user ∧
      (s.threads t).asleep = none ∧ s' = startCall s t c) ∨
    (∃ t fails junk e, a = .go t fails junk ∧ t < s.nthreads ∧ (s.threads t).asleep = none ∧
      effect s t = some e ∧ s' = e.apply s t) ∨
    ∃ t fails junk, a = .go t fails junk ∧ t < s.nthreads ∧ (s.threads t).asleep = none ∧
      forkStep s t fails junk = some s' := by
  cases a with
  | call t c =>
    simp only [step] at h
    split at h
    · rename_i hc
      cases h
      exact .inl ⟨t,c,rfl,hc.1,hc.2.1,hc.2.2,rfl⟩
    · cases h
  | go t fails junk =>
    simp only [step] at h
    split at h
    · rename_i hc
      split at h
      · rename_i e he
        cases h
        exact .inr (.inl ⟨t,fails,junk,e,rfl,hc.1,hc.2,he,rfl⟩)
      · exact .inr (.inr ⟨t,fails,junk,rfl,hc.1,hc.2,h⟩)
    · cases h

@[simp] theorem setPc_self (s : State) (t : Nat) (pc : Pc) :
    (s.setPc t pc).threads t = { s.threads t with pc := pc } := by
  simp [State.setPc]

theorem setPc_of_ne (s : State) (pc : Pc) (h : i ≠ t) : (s.setPc t pc).threads i = s.threads i := by
  simp [State.setPc,h]

@[simp] theorem setPc_pid (s : State) (t : Nat) (pc : Pc) (i : Nat) :
    ((s.setPc t pc).threads i).pid = (s.threads i).pid := by
  by_cases h : i = t
  · subst h
    simp
  · rw [setPc_of_ne s pc h]

@[simp] theorem setPc_asleep (s : State) (t : Nat) (pc : Pc) (i : Nat) :
    ((s.setPc t pc).threads i).asleep = (s.threads i).asleep := by
  by_cases h : i = t
  · subst h
    simp
  · rw [setPc_of_ne s pc h]

@[simp] theorem wakeUp_pc (w : Option Addr) (th : Thread) : (wakeUp w th).pc = th.pc := by
  unfold wakeUp
  split <;> rfl

@[simp] theorem wakeUp_pid (w : Option Addr) (th : Thread) : (wakeUp w th).pid = th.pid := by
  unfold wakeUp
  split <;> rfl

@[simp] theorem apply_self (e : Effect) (s : State) (t : Nat) :
    (e.apply s t).threads t = { s.threads t with pc := e.pc, asleep := e.asleep } := by
  simp [Effect.apply]

theorem apply_of_ne (e : Effect) (s : State) (h : i ≠ t) :
    (e.apply s t).threads i = wakeUp e.wake (s.threads i) := by
  simp [Effect.apply,h]

theorem apply_pid (e : Effect) (s : State) (t i : Nat) :
    ((e.apply s t).threads i).pid = (s.threads i).pid := by
  by_cases h : i = t
  · subst h
    simp
  · simp [apply_of_ne e s h]

def Pc.awaits : Pc → Option Nat
  | .waitThread p | .waitWaiting p | .waitSelf p | .waitParent p | .waitExited p | .waitCode p
  | .waitAcquire p | .waitSleep p | .waitAgain p | .waitRelease p | .waitStatus p
  | .waitMark p _ => some p
  | _ => none

/-- The steps that `effect` computes, by the statement they start at. -/
inductive Exec (s : State) (t : Nat) : Pc → Effect → Prop
  | refuse {pc : Pc} {p : Nat} (hp : pc.awaits = some p) :
      Exec s t pc { pc := .user, ret := some ⟨t,p,.error .EINVAL⟩ }
  | isThread {p : Nat} (h : (s.table p).processthread.isSome = true) :
      Exec s t (.waitThread p) { pc := .waitWaiting p }
  | isUnwaited {p : Nat} : Exec s t (.waitWaiting p) { pc := .waitSelf p }
  | isOther {p : Nat} : Exec s t (.waitSelf p) { pc := .waitParent p }
  | isNoParent {p : Nat} : Exec s t (.waitParent p) { pc := .waitExited p }
  | hasExited {p : Nat} (h : (s.table p).exited = true) :
      Exec s t (.waitExited p) { pc := .waitCode p }
  | isRunning {p : Nat} (h : (s.table p).exited = false) :
      Exec s t (.waitExited p) { pc := .waitAcquire p }
  | code {p : Nat} : Exec s t (.waitCode p)
      { pc := .user, ret := some ⟨t,p,.ok (s.table p).exitcode⟩ }
  | acquire {p : Nat} (h : (s.table p).owner = none) : Exec s t (.waitAcquire p)
      { pc := .waitSleep p, entry := some (p,{ s.table p with owner := some t }) }
  | acquireBlocks {p : Nat} : Exec s t (.waitAcquire p)
      { pc := .waitAcquire p, asleep := some (.lock p) }
  | sleep {p : Nat} : Exec s t (.waitSleep p)
      { pc := .waitAgain p, asleep := some (.cv p)
        entry := some (p,{ s.table p with owner := none }), wake := some (.lock p) }
  | again {p : Nat} (h : (s.table p).owner = none) : Exec s t (.waitAgain p)
      { pc := .waitRelease p, entry := some (p,{ s.table p with owner := some t }) }
  | againBlocks {p : Nat} : Exec s t (.waitAgain p)
      { pc := .waitAgain p, asleep := some (.lock p) }
  | release {p : Nat} : Exec s t (.waitRelease p)
      { pc := .waitStatus p, entry := some (p,{ s.table p with owner := none })
        wake := some (.lock p) }
  | status {p : Nat} : Exec s t (.waitStatus p) { pc := .waitMark p (s.table p).exitcode }
  | mark {p : Nat} {v : Int} : Exec s t (.waitMark p v)
      { pc := .user, entry := some (p,{ s.table p with waiting := true })
        ret := some ⟨t,p,.ok v⟩ }
  | exitAcquire {c : Int} : Exec s t (.exitAcquire c)
      { pc := .exitBroadcast c, entry := some ((s.threads t).pid,
        { s.table (s.threads t).pid with owner := some t }) }
  | exitBlocks {c : Int} : Exec s t (.exitAcquire c)
      { pc := .exitAcquire c, asleep := some (.lock (s.threads t).pid) }
  | broadcast {c : Int} : Exec s t (.exitBroadcast c)
      { pc := .exitRelease c, wake := some (.cv (s.threads t).pid) }
  | exitRelease {c : Int} : Exec s t (.exitRelease c)
      { pc := .exitFlag c, entry := some ((s.threads t).pid,
        { s.table (s.threads t).pid with owner := none })
        wake := some (.lock (s.threads t).pid) }
  | flag {c : Int} : Exec s t (.exitFlag c)
      { pc := .exitCode c, entry := some ((s.threads t).pid,
        { s.table (s.threads t).pid with exited := true }) }
  | exitCode {c : Int} : Exec s t (.exitCode c)
      { pc := .threadExit, entry := some ((s.threads t).pid,
        { s.table (s.threads t).pid with exitcode := c }) }
  | threadExit : Exec s t .threadExit { pc := .dead }

theorem lockAcquire_cases {here : Pc} {Q : Effect → Prop}
    (hblock : Q { pc := here, asleep := some (.lock p) }) (htake : (s.table p).owner = none →
      Q { pc := next, entry := some (p,{ s.table p with owner := some t }) }) :
    Q (lockAcquire s t p here next) := by
  unfold lockAcquire
  split
  · exact hblock
  · exact htake ‹_›

theorem lockRelease_some {asleep : Option Addr} (h : lockRelease s t p next asleep = some e) :
    e = { pc := next, asleep := asleep, entry := some (p,{ s.table p with owner := none })
          wake := some (.lock p) } := by
  unfold lockRelease at h
  split at h
  · exact (Option.some.inj h).symm
  · cases h

theorem effect_exec (he : effect s t = some e) : Exec s t (s.threads t).pc e := by
  unfold effect at he
  cases hpc : (s.threads t).pc with
  | embryo | user | forkCreate _ | forkStart _ _ | forkParent _ | dead => simp [hpc] at he
  | waitThread p =>
    simp only [hpc] at he
    split at he <;> cases he
    · exact .refuse rfl
    · rename_i h
      exact .isThread (by simpa [Option.isSome_iff_ne_none] using h)
  | waitWaiting p =>
    simp only [hpc] at he
    split at he <;> cases he
    · exact .refuse rfl
    · exact .isUnwaited
  | waitSelf p =>
    simp only [hpc] at he
    split at he <;> cases he
    · exact .refuse rfl
    · exact .isOther
  | waitParent p =>
    simp only [hpc] at he
    split at he <;> cases he
    · exact .refuse rfl
    · exact .isNoParent
  | waitExited p =>
    simp only [hpc] at he
    split at he <;> cases he
    · exact .hasExited ‹_›
    · rename_i h
      exact .isRunning (by simpa using h)
  | waitCode p =>
    simp only [hpc] at he
    cases he
    exact .code
  | waitAcquire p =>
    simp only [hpc,Option.some.injEq] at he
    exact he ▸ lockAcquire_cases .acquireBlocks .acquire
  | waitSleep p =>
    simp only [hpc] at he
    exact lockRelease_some he ▸ .sleep
  | waitAgain p =>
    simp only [hpc,Option.some.injEq] at he
    exact he ▸ lockAcquire_cases .againBlocks .again
  | waitRelease p =>
    simp only [hpc] at he
    exact lockRelease_some he ▸ .release
  | waitStatus p =>
    simp only [hpc] at he
    cases he
    exact .status
  | waitMark p v =>
    simp only [hpc] at he
    cases he
    exact .mark
  | exitAcquire c =>
    simp only [hpc,Option.some.injEq] at he
    exact he ▸ lockAcquire_cases .exitBlocks fun _ => .exitAcquire
  | exitBroadcast c =>
    simp only [hpc] at he
    cases he
    exact .broadcast
  | exitRelease c =>
    simp only [hpc] at he
    exact lockRelease_some he ▸ .exitRelease
  | exitFlag c =>
    simp only [hpc] at he
    cases he
    exact .flag
  | exitCode c =>
    simp only [hpc] at he
    cases he
    exact .exitCode
  | threadExit =>
    simp only [hpc] at he
    cases he
    exact .threadExit

def Pc.forking : Pc → Bool
  | .embryo | .forkCreate _ | .forkStart _ _ | .forkParent _ => true
  | _ => false

theorem Exec.forking (h : Exec s t pc e) : pc.forking = false ∧ e.pc.forking = false := by
  cases h with
  | refuse hp => cases pc <;> simp_all [Pc.awaits,Pc.forking]
  | _ => exact ⟨rfl,rfl⟩

theorem Exec.entry (h : Exec s t pc e) (i : Nat) :
    ((e.apply s t).table i).occupied = (s.table i).occupied ∧
    ((e.apply s t).table i).processthread = (s.table i).processthread := by
  have hup : ∀ p en, en.occupied = (s.table p).occupied →
      en.processthread = (s.table p).processthread →
      (update s.table p en i).occupied = (s.table i).occupied ∧
      (update s.table p en i).processthread = (s.table i).processthread := by
    intro p en ho hp
    by_cases hi : i = p
    · subst hi
      simp [ho,hp]
    · simp [hi]
  cases h with
  | acquire | sleep | again | release | mark | exitAcquire | exitRelease | flag | exitCode =>
    exact hup _ _ rfl rfl
  | _ => exact ⟨rfl,rfl⟩

def Call.start : Call → Option Pc
  | .fork (some _) => none
  | .fork none => some (.forkCreate true)
  | .threadFork => some (.forkCreate false)
  | .waitpid w => if (waitpidArgs w).isSome then none else some (.waitThread w.pid.toNat)
  | .exit c => some (.exitAcquire c)
  | .threadExit => some .threadExit

theorem startCall_threads (s : State) (t : Nat) (c : Call) :
    (startCall s t c).threads = (match c.start with
      | some pc => (s.setPc t pc).threads
      | none => s.threads) ∧
    (startCall s t c).table = s.table ∧ (startCall s t c).nthreads = s.nthreads ∧
    (startCall s t c).noprocesses = s.noprocesses := by
  cases c with
  | fork e => cases e <;> exact ⟨rfl,rfl,rfl,rfl⟩
  | waitpid w =>
    cases hw : waitpidArgs w <;> simp [startCall,Call.start,hw,State.setPc]
  | threadFork | exit _ | threadExit => exact ⟨rfl,rfl,rfl,rfl⟩

theorem Call.start_ne (h : c.start = some pc) : ∀ sc i, pc ≠ .forkStart sc i := by
  rintro sc i rfl
  cases c with
  | fork e => cases e <;> cases h
  | waitpid w =>
    simp only [Call.start] at h
    split at h <;> cases h
  | threadFork | exit _ | threadExit => cases h

end MipsOs.Proc
