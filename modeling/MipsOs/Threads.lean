import MipsOs.PtrArray
import MipsOs.PtrQueue

/-! The thread system (thread.c, scheduler.c) and the primitives of synch.c on
one processor. What a thread still has to do inside the kernel is a list of
instructions; it is interrupted only while curspl is 0, and another thread runs
only after mi_switch. -/

set_option autoImplicit false
namespace MipsOs.Threads
open Function

abbrev Tid := Nat

inductive Addr where
  | sem (s : Nat)
  | lock (l : Nat)
  | cv (c : Nat)
  | other (a : Nat)
  deriving DecidableEq, Repr

/-- Statements of thread.c and synch.c. -/
inductive Instr where
  /-- int spl = splhigh(); -/
  | splhigh
  /-- splx(spl); -/
  | splx
  | spl0
  /-- thread_sleep(addr), up to the switch -/
  | sleep (addr : Addr)
  /-- mi_switch(S_READY), up to the switch -/
  | yield
  /-- numthreads--; mi_switch(S_ZOMB); -/
  | exit
  /-- what mi_switch does when it is switched back to -/
  | exorcise
  /-- the end of thread_sleep -/
  | awake
  /-- panic("Thread came back from the dead!") -/
  | undead
  | wakeup (addr : Addr)
  | onewakeup (addr : Addr)
  /-- the part of thread_fork with interrupts off -/
  | fork
  /-- menuth = curthread; -/
  | menu
  /-- while (sem->count == 0) thread_sleep(sem); -/
  | waitCount (s : Nat)
  | decCount (s : Nat)
  | incCount (s : Nat)
  /-- while (lock->owner != NULL) thread_sleep(lock); -/
  | waitOwner (l : Nat)
  | setOwner (l : Nat)
  | clearOwner (l : Nat)
  deriving DecidableEq, Repr

inductive Panic where
  | curspl | exorcise | numthreads | undead | countP | countV | notOwner
  deriving DecidableEq, Repr

/-- What has become of the locks. -/
inductive Event where
  | acquire (t : Tid) (l : Nat)
  | release (t : Tid) (l : Nat)
  deriving DecidableEq, Repr

structure Thread where
  sleepaddr : Option Addr
  code : List Instr
  /-- The levels that the pending splx will restore. -/
  spls : List Nat
  /-- When the thread last went to sleep. -/
  since : Nat

/-- From `created` on, the fields record the history. -/
structure Kernel where
  curthread : Option Tid
  curspl : Nat
  runqueue : PtrQueue Tid
  sleepers : PtrArray Tid
  zombies : PtrArray Tid
  numthreads : Nat
  thread : Tid → Thread
  menuth : Option Tid
  count : Nat → Int
  owner : Nat → Option Tid
  created : Nat
  exited : List Tid
  destroyed : List Tid
  log : List Event
  clock : Nat
  /-- How often mi_switch and the wakeups have called kmalloc. -/
  kmallocs : Nat

def splHigh : Nat := 15

def totalProcesses : Nat := 128

namespace Kernel

def ready (k : Kernel) : List Tid := k.runqueue.toList

def asleep (k : Kernel) : List Tid := k.sleepers.toList

def dead (k : Kernel) : List Tid := k.zombies.toList

def setThread (k : Kernel) (t : Tid) (f : Thread → Thread) : Kernel :=
  { k with thread := update k.thread t (f (k.thread t)) }

def setSleepers (k : Kernel) (a : PtrArray Tid) : Kernel := { k with sleepers := a }

end Kernel

/-- A statement does not stop the machine. -/
abbrev Run := Except Panic Kernel

section Scheduler

def Kernel.queued (k : Kernel) (t : Tid) : Kernel :=
  { k with runqueue := (k.runqueue.qAddtail t).1,
           kmallocs := k.kmallocs + (k.runqueue.qAddtail t).2 }

def makeRunnable (t : Tid) (k : Kernel) : Run :=
  if 0 < k.curspl then .ok (k.queued t) else .error .curspl

/-- With an empty queue the processor idles, and curthread stays NULL. -/
def scheduler (k : Kernel) : Run :=
  if 0 < k.curspl then
    match k.runqueue.qRemhead with
    | none => .ok k
    | some (next,q) => .ok { k with curthread := some next, runqueue := q }
  else .error .curspl

end Scheduler

section Wakeup

/-- The loop of thread_wakeup and thread_onewakeup, from index `i` on. -/
def wakeLoop (addr : Addr) (one : Bool) : Nat → Nat → Kernel → Run
  | 0, _, k => .ok k
  | n+1, i, k =>
    match k.sleepers.arrayGetguy i with
    | none => .ok k
    | some t =>
      if (k.thread t).sleepaddr = some addr then
        match makeRunnable t (k.setSleepers (k.sleepers.arrayRemove i)) with
        | .error p => .error p
        | .ok k => if one = true then .ok k else wakeLoop addr one n i k
      else wakeLoop addr one n (i+1) k

def threadWakeup (addr : Addr) (k : Kernel) : Run :=
  if 0 < k.curspl then wakeLoop addr false k.sleepers.num 0 k else .error .curspl

def threadOnewakeup (addr : Addr) (k : Kernel) : Run :=
  if 0 < k.curspl then wakeLoop addr true k.sleepers.num 0 k else .error .curspl

/-- The loop of thread_hassleepers. -/
def sleeperLoop (addr : Addr) (k : Kernel) : Nat → Nat → Nat
  | 0, _ => 0
  | n+1, i =>
    match k.sleepers.arrayGetguy i with
    | none => 0
    | some t => if (k.thread t).sleepaddr = some addr then 1 else sleeperLoop addr k n (i+1)

def threadHassleepers (addr : Addr) (k : Kernel) : Except Panic Nat :=
  if 0 < k.curspl then .ok (sleeperLoop addr k k.sleepers.num 0) else .error .curspl

end Wakeup

section Switch

inductive ThreadState where
  | ready | sleep | zomb
  deriving DecidableEq, Repr

def stash (nextstate : ThreadState) (cur : Tid) (k : Kernel) : Run :=
  match nextstate with
  | .ready => makeRunnable cur k
  | .sleep => .ok { k with sleepers := (k.sleepers.arrayAdd cur).1,
                           kmallocs := k.kmallocs + (k.sleepers.arrayAdd cur).2 }
  | .zomb => .ok { k with zombies := (k.zombies.arrayAdd cur).1,
                          kmallocs := k.kmallocs + (k.zombies.arrayAdd cur).2 }

/-- mi_switch up to md_switch. The thread switched to goes on with its own code. -/
def miSwitch (nextstate : ThreadState) (k : Kernel) : Run :=
  if 0 < k.curspl then
    match k.curthread with
    | none => .ok k
    | some cur =>
      match stash nextstate cur { k with curthread := none } with
      | .error p => .error p
      | .ok k => scheduler k
  else .error .curspl

def destroyAll : List Tid → Kernel → Run
  | [], k => .ok k
  | z :: rest, k =>
    if some z = k.curthread then .error .exorcise
    else destroyAll rest { k with destroyed := z :: k.destroyed }

def exorcise (k : Kernel) : Run :=
  if 0 < k.curspl then
    match destroyAll k.dead k with
    | .error p => .error p
    | .ok k => .ok { k with zombies := (k.zombies.arraySetsize 0).1,
                            kmallocs := k.kmallocs + (k.zombies.arraySetsize 0).2 }
  else .error .curspl

def newThread : Thread := ⟨none,[.spl0],[],0⟩

/-- The room thread_fork makes for one thread more. -/
def preallocate (k : Kernel) : Kernel :=
  { k with
    sleepers := (k.sleepers.arrayPreallocate (k.numthreads + 1)).1,
    zombies := (k.zombies.arrayPreallocate (k.numthreads + 1)).1,
    runqueue := (k.runqueue.qPreallocate (k.numthreads + 1)).1 }

def Kernel.spawn (k : Kernel) : Kernel :=
  { k with thread := update k.thread k.created newThread, created := k.created + 1 }

/-- thread_fork. Every thread ever created keeps its slot of the process table, so
thread_create fails from the 129th on. -/
def threadFork (k : Kernel) : Run :=
  if k.created < totalProcesses then
    match makeRunnable k.created (preallocate k.spawn) with
    | .error p => .error p
    | .ok k' => .ok { k' with numthreads := k.numthreads + 1, kmallocs := k.kmallocs }
  else .ok k

end Switch

section Statements

def threadSleep (t : Tid) (addr : Addr) (code : List Instr) (k : Kernel) : Run :=
  miSwitch .sleep { k with
    thread := update k.thread t
      ⟨some addr,.exorcise :: .awake :: code,(k.thread t).spls,k.clock⟩,
    clock := k.clock + 1 }

@[irreducible] def increment (n : Int) : Int := toInt32 (toU32 (n + 1))

def incCount (s : Nat) (k : Kernel) : Run :=
  if 0 < increment (k.count s) then
    .ok { k with count := update k.count s (increment (k.count s)) }
  else .error .countV

/-- A statement is done, or it has switched to another thread. -/
inductive Progress where
  | went (k : Kernel)
  | switched (k : Kernel)

def went : Run → Except Panic Progress
  | .ok k => .ok (.went k)
  | .error p => .error p

def switched : Run → Except Panic Progress
  | .ok k => .ok (.switched k)
  | .error p => .error p

def exec (t : Tid) (rest : List Instr) (k : Kernel) : Instr → Except Panic Progress
  | .splhigh => .ok (.went { k with
      curspl := splHigh,
      thread := update k.thread t
        { k.thread t with spls := k.curspl :: (k.thread t).spls } })
  | .splx => .ok (.went { k with
      curspl := (k.thread t).spls.headD 0,
      thread := update k.thread t
        { k.thread t with spls := (k.thread t).spls.tail } })
  | .spl0 => .ok (.went { k with curspl := 0 })
  | .sleep addr => switched (threadSleep t addr rest k)
  | .yield => switched (miSwitch .ready
      (k.setThread t fun th => { th with code := .exorcise :: rest }))
  | .exit =>
    if 0 < k.numthreads then
      switched (miSwitch .zomb { k with
        thread := update k.thread t { k.thread t with code := [.exorcise,.undead] },
        numthreads := k.numthreads - 1,
        exited := t :: k.exited })
    else .error .numthreads
  | .exorcise => went (exorcise k)
  | .awake => .ok (.went (k.setThread t fun th => { th with sleepaddr := none }))
  | .undead => .error .undead
  | .wakeup addr => went (threadWakeup addr k)
  | .onewakeup addr => went (threadOnewakeup addr k)
  | .fork => went (threadFork k)
  | .menu => .ok (.went { k with menuth := some t })
  | .waitCount s =>
    if k.count s = 0 then switched (threadSleep t (.sem s) (.waitCount s :: rest) k)
    else .ok (.went k)
  | .decCount s =>
    if 0 < k.count s then .ok (.went { k with count := update k.count s (k.count s - 1) })
    else .error .countP
  | .incCount s => went (incCount s k)
  | .waitOwner l =>
    if k.owner l ≠ none then switched (threadSleep t (.lock l) (.waitOwner l :: rest) k)
    else .ok (.went k)
  | .setOwner l => .ok (.went { k with owner := update k.owner l (some t),
                                       log := .acquire t l :: k.log })
  | .clearOwner l =>
    if k.owner l = some t then
      .ok (.went { k with owner := update k.owner l none, log := .release t l :: k.log })
    else .error .notOwner

/-- Thread `t` executes statements until interrupts are on or another thread runs. -/
def burst (t : Tid) : List Instr → Kernel → Run
  | [], k => .ok (k.setThread t fun th => { th with code := [] })
  | i :: rest, k =>
    match exec t rest k i with
    | .error p => .error p
    | .ok (.switched k) => .ok k
    | .ok (.went k) =>
      if k.curspl = 0 then .ok (k.setThread t fun th => { th with code := rest })
      else burst t rest k

end Statements

section Functions

def P (s : Nat) : List Instr := [.splhigh,.waitCount s,.decCount s,.splx]

def V (s : Nat) : List Instr := [.splhigh,.incCount s,.wakeup (.sem s),.splx]

def lockAcquire (l : Nat) : List Instr := [.splhigh,.waitOwner l,.setOwner l,.splx]

def lockRelease (l : Nat) : List Instr := [.splhigh,.clearOwner l,.wakeup (.lock l),.splx]

def cvWait (c l : Nat) : List Instr :=
  [.splhigh] ++ lockRelease l ++ [.sleep (.cv c)] ++ lockAcquire l ++ [.splx]

/-- The lock is only tested for NULL. -/
def cvSignal (c : Nat) : List Instr := [.splhigh,.onewakeup (.cv c),.splx]

def cvBroadcast (c : Nat) : List Instr := [.splhigh,.wakeup (.cv c),.splx]

def threadYield : List Instr := [.splhigh,.yield,.splx]

def menusleep : Nat := 0

def menucv : Nat := 0

/-- thread_exit; the thread of the menu tells it. -/
def threadExit (ismenu : Bool) : List Instr :=
  [.splhigh] ++ (if ismenu = true then lockAcquire menusleep ++ cvBroadcast menucv ++
    lockRelease menusleep else []) ++ [.exit]

def lbolt : Addr := .other 0

/-- hardclock; once a second it wakes up the threads in clocksleep. -/
def hardclock (second : Bool) : List Instr :=
  (if second = true then [.wakeup lbolt] else []) ++ threadYield

/-- Calls that threads make. Sleep addresses of the primitives are left to the primitives. -/
inductive Call where
  | fork | yield | exit | menu
  | sleep (a : Nat)
  | wakeup (a : Nat)
  | onewakeup (a : Nat)
  | P (s : Nat)
  | V (s : Nat)
  | lockAcquire (l : Nat)
  | lockRelease (l : Nat)
  | cvWait (c l : Nat)
  | cvSignal (c l : Nat)
  | cvBroadcast (c l : Nat)
  deriving DecidableEq, Repr

def Call.code (ismenu : Bool) : Call → List Instr
  | .fork => [.splhigh,.fork,.splx]
  | .yield => threadYield
  | .exit => threadExit ismenu
  | .menu => [.menu]
  | .sleep a => [.splhigh,.sleep (.other a),.splx]
  | .wakeup a => [.splhigh,.wakeup (.other a),.splx]
  | .onewakeup a => [.splhigh,.onewakeup (.other a),.splx]
  | .P s => Threads.P s
  | .V s => Threads.V s
  | .lockAcquire l => Threads.lockAcquire l
  | .lockRelease l => Threads.lockRelease l
  | .cvWait c l => Threads.cvWait c l
  | .cvSignal c _ => Threads.cvSignal c
  | .cvBroadcast c _ => Threads.cvBroadcast c

/-- What interrupt handlers call. -/
inductive Irq where
  | hardclock (second : Bool)
  | V (s : Nat)
  | wakeup (a : Nat)
  deriving DecidableEq, Repr

def Irq.code : Irq → List Instr
  | .hardclock second => Threads.hardclock second
  | .V s => Threads.V s
  | .wakeup a => [.splhigh,.wakeup (.other a),.splx]

/-- In the idle loop curthread is NULL and interrupts stay off: for a handler the levels do not
matter, and mi_switch returns at once. -/
def idleExec (k : Kernel) : Instr → Run
  | .wakeup addr => threadWakeup addr k
  | .incCount s => incCount s k
  | _ => .ok k

def idle : List Instr → Kernel → Run
  | [], k => .ok k
  | i :: rest, k =>
    match idleExec k i with
    | .error p => .error p
    | .ok k => idle rest k

end Functions

section Machine

inductive Act where
  /-- The current thread calls a function. -/
  | call (c : Call)
  /-- The current thread goes on after a switch. -/
  | run
  | irq (i : Irq)
  /-- The idle loop finds a thread in the queue. -/
  | dispatch
  deriving DecidableEq, Repr

/-- The trap code around a handler saves and restores curspl. -/
def trap (handler : List Instr) : List Instr := [.splhigh] ++ handler ++ [.splx]

def perform (k : Kernel) (a : Act) : Option Run :=
  match k.curthread,a with
  | some t,.call c =>
    if k.curspl = 0 ∧ (k.thread t).code = [] then some (burst t (c.code (k.menuth == some t)) k)
    else none
  | some t,.run =>
    if (k.thread t).code ≠ [] then some (burst t (k.thread t).code k) else none
  | some t,.irq i =>
    if k.curspl = 0 then some (burst t (trap i.code ++ (k.thread t).code) k) else none
  | none,.irq i => some (idle i.code k)
  | none,.dispatch => if k.runqueue.qEmpty = true then none else some (scheduler k)
  | _,_ => none

def step (k : Kernel) (a : Act) : Option Kernel :=
  match perform k a with
  | some (.ok k') => some k'
  | _ => none

/-- After thread_bootstrap and scheduler_bootstrap, when interrupts have been enabled:
the first thread runs. The semaphores and locks are made. -/
def boot (initialCount : Nat → Nat) : Kernel where
  curthread := some 0
  curspl := 0
  runqueue := .qCreate 32 (fun _ => 0) PtrQueue.runqueue_size
  sleepers := .arrayCreate fun _ => 0
  zombies := .arrayCreate fun _ => 0
  numthreads := 1
  thread _ := ⟨none,[],[],0⟩
  menuth := none
  count s := initialCount s
  owner _ := none
  created := 1
  exited := []
  destroyed := []
  log := []
  clock := 0
  kmallocs := 0

end Machine

end MipsOs.Threads
