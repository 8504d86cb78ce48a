import MipsOs.ThreadPlaces

/-! Room for the threads. thread_fork preallocates, and mi_switch and the wakeups
count on it: here is when they find the room they need without kmalloc. -/

set_option autoImplicit false
namespace MipsOs.Threads
open Runs

variable {k k' k₀ : Kernel} {t : Tid} {rest : List Instr}

/-- What thread_fork keeps up. The queue can hold one thread less than its size, and the sleepers
array is empty-handed until the first fork. -/
structure Room (k : Kernel) : Prop where
  least : 32 ≤ k.runqueue.size
  queue : k.numthreads ≤ k.runqueue.size
  sleepers : 1 < k.created → k.numthreads ≤ k.sleepers.max

/-- A thread that exits finds room among the zombies, and exorcise does not give the room back. -/
def Kernel.roomToDie (k : Kernel) : Prop := k.zombies.num < k.zombies.max ∧ k.zombies.max ≤ 16

/-- The zombies array as long as forks happen with few threads. -/
structure Small (k : Kernel) : Prop where
  max : k.zombies.max = 0 ∨ k.zombies.max = 2 ∨ k.zombies.max = 6 ∨ k.zombies.max = 14
  room : 1 < k.created → k.numthreads ≤ k.zombies.max

structure Roomy (k₀ k : Kernel) : Prop where
  room : Room k
  calm : k.created = k₀.created ∨ k.exited = k₀.exited
  frugal : 1 < k.created → k₀.numthreads < k₀.runqueue.size →
    k.exited = k₀.exited ∨ k₀.roomToDie → k.kmallocs = k₀.kmallocs
  small : Small k₀ → k.created = k₀.created ∨ k₀.numthreads ≤ 13 →
    k.exited = k₀.exited ∨ k₀.roomToDie → Small k

/-- The same while the action goes on. A fork is the last thing a burst does. -/
structure RoomIn (k₀ : Kernel) (rest : List Instr) (k : Kernel) : Prop where
  room : Room k
  size : k₀.runqueue.size ≤ k.runqueue.size
  exited : k.exited = k₀.exited
  once : k.created = k₀.created ∨ rest = [.splx] ∨ rest = []
  frugal : k₀.numthreads < k₀.runqueue.size → k.kmallocs = k₀.kmallocs
  grave : k.created = k₀.created → k₀.roomToDie → k.roomToDie
  small : Small k₀ → k.created = k₀.created ∨ k₀.numthreads ≤ 13 → Small k

theorem RoomIn.roomy (h : RoomIn k₀ rest k) : Roomy k₀ k :=
  ⟨h.room,.inr h.exited,fun _ hq _ => h.frugal hq,fun hs hc _ => h.small hs hc⟩

theorem RoomIn.start (h : Room k) (code : List Instr) : RoomIn k code k :=
  ⟨h,Nat.le_refl _,rfl,.inl rfl,fun _ => rfl,fun _ hg => hg,fun hs _ => hs⟩

theorem RoomIn.once_tail {i : Instr} (h : RoomIn k₀ (i :: rest) k) :
    k.created = k₀.created ∨ rest = [.splx] ∨ rest = [] := by
  rcases h.once with hc | hr | hr
  · exact .inl hc
  · exact .inr (.inr (List.cons.inj hr).2)
  · cases hr

theorem RoomIn.next {i : Instr} (h : RoomIn k₀ (i :: rest) k) : RoomIn k₀ rest k :=
  ⟨h.room,h.size,h.exited,h.once_tail,h.frugal,h.grave,h.small⟩

theorem RoomIn.data (h : RoomIn k₀ rest k) (lvl : Nat) (thread : Tid → Thread)
    (menuth : Option Tid) (count : Nat → Int) (owner : Nat → Option Tid) (log : List Event) :
    RoomIn k₀ rest { k with
      curspl := lvl, thread := thread, menuth := menuth, count := count, owner := owner,
      log := log } :=
  ⟨⟨h.room.least,h.room.queue,h.room.sleepers⟩,h.size,h.exited,h.once,h.frugal,h.grave,
    fun hs hc => ⟨(h.small hs hc).max,(h.small hs hc).room⟩⟩

theorem RoomIn.numthreads (h : RoomIn k₀ rest k) (hc : k.created = k₀.created) (hpl : Placed k)
    (hpl₀ : Placed k₀) : k.numthreads = k₀.numthreads := by
  have hn := hpl.number
  have hn₀ := hpl₀.number
  rw [h.exited,hc] at hn
  omega

theorem RoomIn.before {i : Instr} (h : RoomIn k₀ (i :: rest) k) (hi : i ≠ .splx) :
    k.created = k₀.created := by
  rcases h.once with hc | hr | hr
  · exact hc
  · exact (hi (List.cons.inj hr).1).elim
  · cases hr

theorem woken_length (p : Tid → Bool) (one : Bool) (l : List Tid) :
    (woken p one l).length ≤ l.length := by
  have h := (woken_perm p one l).length_eq
  rw [List.length_append] at h
  omega

theorem Moved.roomIn {ws left : List Tid} (hm : Moved ws left k k') (h : RoomIn k₀ rest k)
    (hroom : k₀.numthreads < k₀.runqueue.size →
      k.ready.length + ws.length < k.runqueue.size) : RoomIn k₀ rest k' := by
  have hcreated : k'.created = k.created := by rw [hm.rest]
  have hnum : k'.numthreads = k.numthreads := by rw [hm.rest]
  have hexited : k'.exited = k.exited := by rw [hm.rest]
  have hzombies : k'.zombies = k.zombies := by rw [hm.rest]
  refine ⟨⟨Nat.le_trans h.room.least hm.size,?_,?_⟩,Nat.le_trans h.size hm.size,
    hexited.trans h.exited,?_,fun hq => ?_,fun hc hg => ?_,fun hs hc => ?_⟩
  · rw [hnum]
    exact Nat.le_trans h.room.queue hm.size
  · rw [hnum,hcreated,hm.max]
    exact h.room.sleepers
  · rw [hcreated]
    exact h.once
  · exact ((hm.room (hroom hq)).1).trans (h.frugal hq)
  · rw [Kernel.roomToDie,hzombies]
    exact h.grave (hcreated.symm.trans hc) hg
  · rw [hcreated] at hc
    have hsm := h.small hs hc
    refine ⟨?_,?_⟩
    · rw [hzombies]
      exact hsm.max
    · rw [hcreated,hnum,hzombies]
      exact hsm.room

theorem seats_length (hpl : Placed k) (hcur : k.curthread = some t) :
    k.ready.length + k.asleep.length + 1 = k.numthreads := by
  rw [← hpl.total,seated_cur hcur,List.length_cons,List.length_append]

/-- The running thread needs no room itself. -/
theorem BaseIn.room_to_wake (h : BaseIn t rest k) (hr : Room k) (p : Tid → Bool) (one : Bool) :
    k.ready.length + (woken p one k.asleep).length < k.runqueue.size := by
  have hs := seats_length h.placed h.cur
  have hw := woken_length p one k.asleep
  have hq := hr.queue
  omega

theorem Picked.roomy (hp : Picked k k') (h : Roomy k₀ k) : Roomy k₀ k' := by
  cases hp with
  | idle _ => exact h
  | @next x q hr hs =>
    refine ⟨⟨?_,?_,h.room.sleepers⟩,h.calm,h.frugal,fun hs hc he =>
      ⟨(h.small hs hc he).max,(h.small hs hc he).room⟩⟩
    · show 32 ≤ q.size
      rw [hs]
      exact h.room.least
    · show k.numthreads ≤ q.size
      rw [hs]
      exact h.room.queue

/-- Going to sleep takes one place in the sleepers array, and the thread itself is not in it yet. -/
theorem RoomIn.slept {addr : Addr} {code : List Instr} (h : RoomIn k₀ rest k)
    (hb : BaseIn t rest k) : Roomy k₀ (k.slept t addr code) := by
  have hs := seats_length hb.placed hb.cur
  have hlen : k.asleep.length = k.sleepers.num := PtrArray.length_toList _
  refine ⟨⟨h.room.least,h.room.queue,fun hc => ?_⟩,.inr h.exited,fun hc hq _ => ?_,fun hs hc _ =>
    ⟨(h.small hs hc).max,(h.small hs hc).room⟩⟩
  · exact Nat.le_trans (h.room.sleepers hc) (PtrArray.le_arrayAdd_max _ _)
  · have hmax := h.room.sleepers hc
    show k.kmallocs + (k.sleepers.arrayAdd t).2 = k₀.kmallocs
    rw [PtrArray.arrayAdd_kmallocs,if_pos (by omega),Nat.add_zero]
    exact h.frugal hq

theorem RoomIn.yielded {code : List Instr} (h : RoomIn k₀ (.yield :: rest) k)
    (hb : BaseIn t (.yield :: rest) k) (hpl₀ : Placed k₀) : Roomy k₀ (k.yielded t code) := by
  have hs := seats_length hb.placed hb.cur
  have hnum := h.numthreads (h.before (by decide)) hb.placed hpl₀
  have hsize := h.size
  have hgrow : k.runqueue.size ≤ (k.yielded t code).runqueue.size :=
    (k.runqueue.qAddtail_toList t).2
  refine ⟨⟨Nat.le_trans h.room.least hgrow,Nat.le_trans h.room.queue hgrow,h.room.sleepers⟩,
    .inr h.exited,fun hc hq _ => ?_,fun hs hc _ => ⟨(h.small hs hc).max,(h.small hs hc).room⟩⟩
  have hne : ¬ k.runqueue.toList.length + 1 = k.runqueue.size := by
    show ¬ k.ready.length + 1 = k.runqueue.size
    omega
  show k.kmallocs + (k.runqueue.qAddtail t).2 = k₀.kmallocs
  rw [PtrQueue.qAddtail_kmallocs,if_neg hne,Nat.add_zero]
  exact h.frugal hq

theorem RoomIn.buried (h : RoomIn k₀ (.exit :: rest) k) : Roomy k₀ (k.buried t) := by
  have hcr := h.before (by decide)
  have hcons : (k.buried t).exited ≠ k₀.exited := by
    rw [← h.exited]
    exact fun he => absurd (congrArg List.length he) (by simp [Kernel.buried])
  have hroom : k₀.roomToDie → (k.zombies.arrayAdd t).2 = 0 ∧
      (k.zombies.arrayAdd t).1.max = k.zombies.max := by
    intro hg
    have hz := (h.grave hcr hg).1
    exact ⟨by rw [PtrArray.arrayAdd_kmallocs,if_pos hz],PtrArray.arrayAdd_max hz t⟩
  refine ⟨⟨h.room.least,?_,fun hc => ?_⟩,.inl hcr,fun _ hq he => ?_,
    fun hs hc he => ⟨?_,fun hcr => ?_⟩⟩
  · exact Nat.le_trans (Nat.sub_le _ _) h.room.queue
  · exact Nat.le_trans (Nat.sub_le _ _) (h.room.sleepers hc)
  · show k.kmallocs + (k.zombies.arrayAdd t).2 = k₀.kmallocs
    rw [(hroom (he.resolve_left hcons)).1,Nat.add_zero]
    exact h.frugal hq
  · have hmax : (k.buried t).zombies.max = k.zombies.max := (hroom (he.resolve_left hcons)).2
    rw [hmax]
    exact (h.small hs hc).max
  · show k.numthreads - 1 ≤ (k.zombies.arrayAdd t).1.max
    rw [(hroom (he.resolve_left hcons)).2]
    exact Nat.le_trans (Nat.sub_le _ _) ((h.small hs hc).room hcr)

theorem RoomIn.exorcised {i : Instr} (h : RoomIn k₀ (i :: rest) k) :
    RoomIn k₀ rest k.exorcised := by
  have hkeep : k.zombies.max ≤ 16 → k.exorcised.zombies.max = k.zombies.max := by
    intro hle
    show (k.zombies.arraySetsize 0).1.max = _
    rw [PtrArray.arraySetsize,dif_neg (Nat.not_lt_zero _),if_neg (by omega)]
  have hnone : (k.zombies.arraySetsize 0).2 = 0 := by
    rw [PtrArray.arraySetsize,dif_neg (Nat.not_lt_zero _)]
    split <;> rfl
  refine ⟨⟨h.room.least,h.room.queue,h.room.sleepers⟩,h.size,h.exited,h.once_tail,fun hq => ?_,
    fun hc hg => ?_,fun hs hc => ?_⟩
  · show k.kmallocs + (k.zombies.arraySetsize 0).2 = k₀.kmallocs
    rw [hnone,Nat.add_zero]
    exact h.frugal hq
  · obtain ⟨hlt,hle⟩ := h.grave hc hg
    have hnum : k.exorcised.zombies.num = 0 := PtrArray.arraySetsize_num _ 0
    rw [Kernel.roomToDie,hkeep hle,hnum]
    omega
  · obtain ⟨hmax,hroom⟩ := h.small hs hc
    have hle : k.zombies.max ≤ 16 := by omega
    refine ⟨?_,?_⟩
    · rw [hkeep hle]
      exact hmax
    · rw [hkeep hle]
      exact hroom

/-- The sizes that an array goes through up to 14 entries. -/
theorem newmax_small {n nguys m : Nat} (hn : nguys ≤ 14) (hm : m = 0 ∨ m = 2 ∨ m = 6 ∨ m = 14) :
    PtrArray.newmax n nguys m = 0 ∨ PtrArray.newmax n nguys m = 2 ∨
      PtrArray.newmax n nguys m = 6 ∨ PtrArray.newmax n nguys m = 14 := by
  induction n generalizing m with
  | zero => exact hm
  | succ n ih =>
    simp only [PtrArray.newmax]
    split
    · exact ih (by omega)
    · exact hm

theorem RoomIn.forked (h : RoomIn k₀ [.fork,.splx] k) (hpl : Placed k) (hpl₀ : Placed k₀) :
    RoomIn k₀ [.splx] k.forked := by
  have hcr := h.before (by decide)
  have hnum := h.numthreads hcr hpl hpl₀
  obtain ⟨_,hpre,htarget⟩ := k.runqueue.qPreallocate_toList (k.numthreads + 1)
  have hadd : (k.runqueue.qPreallocate (k.numthreads + 1)).1.size ≤ k.forked.runqueue.size :=
    ((k.runqueue.qPreallocate (k.numthreads + 1)).1.qAddtail_toList k.created).2
  have hsize : k.runqueue.size ≤ k.forked.runqueue.size := Nat.le_trans hpre hadd
  have hnew : ¬ k.forked.created = k₀.created := by
    show ¬ k.created + 1 = k₀.created
    omega
  refine ⟨⟨Nat.le_trans h.room.least hsize,Nat.le_trans htarget hadd,fun _ => ?_⟩,
    Nat.le_trans h.size hsize,h.exited,.inr (.inl rfl),h.frugal,fun hc _ => (hnew hc).elim,
    fun hs hc => ?_⟩
  · exact k.sleepers.le_arrayPreallocate_max (k.numthreads + 1)
  · have hle : k.numthreads + 1 ≤ 14 := by
      have hle := hc.resolve_left hnew
      omega
    refine ⟨newmax_small hle (h.small hs (.inl hcr)).max,fun _ => ?_⟩
    exact k.zombies.le_arrayPreallocate_max (k.numthreads + 1)

theorem RoomIn.keeps {i : Instr} {pr : Progress} (hpl₀ : Placed k₀) (hb : BaseIn t (i :: rest) k)
    (h : RoomIn k₀ (i :: rest) k) (hd : Does t rest k i pr) :
    pr.Keeps (RoomIn k₀ rest) (Roomy k₀) := by
  cases hd with
  | own | decCount | incCount | setOwner | clearOwner => exact h.next.data _ _ _ _ _ _
  | pass | noFork => exact h.next
  | exorcise _ => exact h.exorcised
  | wakeup _ hm | onewakeup _ hm => exact hm.roomIn h.next fun _ => hb.room_to_wake h.room _ _
  | fork hr _ =>
    subst hr
    exact h.forked hb.placed hpl₀
  | sleep _ _ _ hpick => exact hpick.roomy (h.slept hb)
  | yield _ _ hpick => exact hpick.roomy (h.yielded hb hpl₀)
  | exit _ hpick => exact hpick.roomy h.buried

theorem Base.room_to_wake (h : Base k) (hcur : k.curthread = none)
    (hq : k.numthreads < k.runqueue.size) (p : Tid → Bool) :
    k.ready.length + (woken p false k.asleep).length < k.runqueue.size := by
  have hseats : k.ready.length + k.asleep.length = k.numthreads := by
    rw [← h.placed.total,Kernel.seated,hcur,List.append_assoc,List.length_append,
      List.length_append]
    exact (Nat.zero_add _).symm
  have hw := woken_length p false k.asleep
  omega

theorem Room.idleKeeps {i : Irq} (hb : Base k) (hcur : k.curthread = none) (h : Room k)
    (hd : IdleDoes k i k') : Roomy k k' := by
  have hstart := RoomIn.start h []
  cases hd with
  | nothing => exact hstart.roomy
  | wakeup _ hm => exact (hm.roomIn hstart fun hq => hb.room_to_wake hcur hq _).roomy
  | @V s _ _ hm =>
    have hraised : RoomIn k [] (k.raised s) := hstart.data _ _ _ _ _ _
    exact (hm.roomIn hraised fun hq => hb.room_to_wake hcur hq _).roomy

theorem Room.step {a : Act} (hb : Base k) (h : Room k) (hk : step k a = some k') :
    Base k' ∧ Roomy k k' := by
  have hs := hb.extend (I := fun _ code k' => RoomIn k code k') (E := fun _ => True)
    (step_eq_some hk)
    (fun _ code _ _ => RoomIn.start h code) (fun _ _ _ _ _ hbi hi hd => hi.keeps hb.placed hbi hd)
    (fun _ _ _ _ _ _ _ _ => True.intro) (fun _ _ _ _ hi _ => (hi.data _ _ _ _ _ _).roomy)
    (fun _ _ _ hcur hd => h.idleKeeps hb hcur hd) (fun _ _ _ _ => True.intro)
    (fun _ _ _ hp => hp.roomy (RoomIn.start h []).roomy)
  exact hs

section Runs

variable {initialCount : Nat → Nat} {acts : List Act}

theorem boot_room (initialCount : Nat → Nat) : Room (boot initialCount) :=
  ⟨Nat.le_refl 32,(by decide : 1 ≤ 32),fun h => (Nat.lt_irrefl 1 h).elim⟩

theorem boot_small (initialCount : Nat → Nat) : Small (boot initialCount) :=
  ⟨.inl rfl,fun h => (Nat.lt_irrefl 1 h).elim⟩

/-- The first thread forks before it does anything else, forks happen with at most 13 threads, and
a thread exits only while there are fewer zombies than threads. -/
def Modest (k : Kernel) (a : Act) : Prop :=
  ∀ k', step k a = some k' → 1 < k'.created ∧ (k'.created ≠ k.created → k.numthreads ≤ 13) ∧
    (k'.exited ≠ k.exited → k.zombies.num < k.numthreads)

/-- The state between the actions of such a run. -/
structure Frugal (k : Kernel) : Prop where
  base : Base k
  room : Room k
  small : Small k
  kmallocs : k.kmallocs = 0

theorem Frugal.few (h : Frugal k) : k.numthreads ≤ 14 := by
  have hn := h.base.placed.number
  have hmax := h.small.max
  by_cases hc : 1 < k.created
  · have hr := h.small.room hc
    omega
  · omega

theorem Frugal.step {a : Act} (h : Frugal k) (ha : Modest k a) (hk : step k a = some k') :
    Frugal k' := by
  obtain ⟨hcr,hfork,hexit⟩ := ha k' hk
  obtain ⟨hb,hr⟩ := Room.step h.base h.room hk
  have hdie : k'.exited = k.exited ∨ k.roomToDie := by
    by_cases he : k'.exited = k.exited
    · exact .inl he
    · refine .inr ⟨?_,?_⟩
      · rw [hr.calm.resolve_right he] at hcr
        exact Nat.lt_of_lt_of_le (hexit he) (h.small.room hcr)
      · have hmax := h.small.max
        omega
  have hfew : k'.created = k.created ∨ k.numthreads ≤ 13 :=
    or_iff_not_imp_left.mpr hfork
  have hqueue : k.numthreads < k.runqueue.size := by
    have hle := h.few
    have hleast := h.room.least
    omega
  exact ⟨hb,hr.room,hr.small h.small hfew hdie,
    (hr.frugal hcr hqueue hdie).trans h.kmallocs⟩

theorem reachable_room (h : run Threads.step (boot initialCount) acts = some k) : Room k :=
  (run_keeps (C := fun _ _ => True) (I := fun k => Base k ∧ Room k)
    (fun _ _ _ hi _ hs => ⟨(Room.step hi.1 hi.2 hs).1,(Room.step hi.1 hi.2 hs).2.room⟩)
    ⟨boot_base initialCount,boot_room initialCount⟩ (Along.trivial _ _ _) h).2

/-- A switch or wakeup does not call kmalloc when there has been a fork, the queue is larger than
the number of threads, and a thread that exits finds room among the zombies; on a run with few
threads that is always so. -/
theorem switches_find_room (h : run Threads.step (boot initialCount) acts = some k) :
    (∀ a k', step k a = some k' → 1 < k'.created → k.numthreads < k.runqueue.size →
      (k'.exited ≠ k.exited → k.zombies.num < k.zombies.max ∧ k.zombies.max ≤ 16) →
      k'.kmallocs = k.kmallocs) ∧
    (Along Threads.step Modest (boot initialCount) acts → k.kmallocs = 0) := by
  refine ⟨fun a k' hk hc hq hz => ?_,fun ha => ?_⟩
  · have hr := (Room.step (reachable_base h) (reachable_room h) hk).2
    exact hr.frugal hc hq (or_iff_not_imp_left.mpr hz)
  · have hf : Frugal k := run_keeps (fun _ _ _ hi hm hs => Frugal.step hi hm hs)
      ⟨boot_base initialCount,boot_room initialCount,boot_small initialCount,rfl⟩ ha h
    exact hf.kmallocs

def yields (n : Nat) : List Act := (List.replicate n [.call .yield,.run]).flatten

def forkAndYield : List Act := [.call .fork] ++ yields 4 ++ [.call .exit]

def modestTest (k : Kernel) (a : Act) : Bool :=
  (step k a).all fun k' => decide (1 < k'.created ∧ (k'.created ≠ k.created → k.numthreads ≤ 13) ∧
    (k'.exited ≠ k.exited → k.zombies.num < k.numthreads))

theorem modest_of_test {a : Act} (h : modestTest k a = true) : Modest k a := by
  intro k' hk
  rw [modestTest,hk] at h
  exact of_decide_eq_true h

theorem switches_find_room_exit : ∃ k,
    run Threads.step (boot fun _ => 0) forkAndYield = some k ∧ k.exited = [0] ∧
      k.kmallocs = 0 := by
  have h : ((run Threads.step (boot fun _ => 0) forkAndYield).any fun k =>
      decide (k.exited = [0])) = true := by decide +kernel
  have hm : checkAlong Threads.step modestTest (boot fun _ => 0) forkAndYield = true := by
    decide +kernel
  obtain ⟨k,hk,he⟩ := some_of_any h
  exact ⟨k,hk,of_decide_eq_true he,
    (switches_find_room hk).2 (Along.of_check (fun _ _ => modest_of_test) hm)⟩

/-- A switch calls kmalloc: the first thread goes to sleep before it has forked; 32 threads are
all runnable; and the last of 15 threads to come back has given up the zombies array, before it
exits. -/
theorem switches_allocate :
    (∃ k, run Threads.step (boot fun _ => 0) [.call (.sleep 1)] = some k ∧ k.kmallocs = 1) ∧
    (∃ k, run Threads.step (boot fun _ => 0)
      (List.replicate 31 (.call .fork) ++ [.call .yield]) = some k ∧ k.kmallocs = 1) ∧
    (∃ k, run Threads.step (boot fun _ => 0)
      (List.replicate 14 (.call .fork) ++ yields 15 ++ [.call .exit]) = some k ∧
      k.kmallocs = 1) := by
  refine ⟨?_,?_,?_⟩
  · have h : ((run Threads.step (boot fun _ => 0) [.call (.sleep 1)]).any fun k =>
        decide (k.kmallocs = 1)) = true := by decide +kernel
    obtain ⟨k,hk,he⟩ := some_of_any h
    exact ⟨k,hk,of_decide_eq_true he⟩
  · have h : ((run Threads.step (boot fun _ => 0)
        (List.replicate 31 (.call .fork) ++ [.call .yield])).any fun k =>
        decide (k.kmallocs = 1)) = true := by decide +kernel
    obtain ⟨k,hk,he⟩ := some_of_any h
    exact ⟨k,hk,of_decide_eq_true he⟩
  · have h : ((run Threads.step (boot fun _ => 0)
        (List.replicate 14 (.call .fork) ++ yields 15 ++ [.call .exit])).any fun k =>
        decide (k.kmallocs = 1)) = true := by decide +kernel
    obtain ⟨k,hk,he⟩ := some_of_any h
    exact ⟨k,hk,of_decide_eq_true he⟩

end Runs

end MipsOs.Threads
