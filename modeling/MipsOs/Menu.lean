import MipsOs.Tasks

/-! The menu of kern/main/menu.c and the programs it runs. Thread 0 is the menu thread; its `k`-th
call of common_prog forks thread `k+1`, which runs cmd_progthread and then the part of thread_exit
(thread/thread.c) that tells the menu. cv_wait releases the lock and goes to sleep with interrupts
off, so that is one section. -/

set_option autoImplicit false
namespace MipsOs.Menu
open Tasks Function Runs

inductive Channel where
  | menusleep | menucv
  deriving DecidableEq, Repr

inductive MenuAt where
  | fork
  | lockAcquire
  | cvWait
  /-- Inside cv_wait, at its lock_acquire. -/
  | reacquire
  | lockRelease
  deriving DecidableEq, Repr

/-- Where a program's thread is: in cmd_progthread before and after it sets menuth, and then in
thread_exit. At its end it has told the menu, or found that menuth is another thread. -/
inductive ProgramAt where
  | start
  | running
  | exiting
  | lockAcquire
  | cvBroadcast
  | lockRelease
  | gone (told : Bool)
  deriving DecidableEq, Repr

inductive Place where
  | menu (k : Nat) (pc : MenuAt)
  | program (pc : ProgramAt)
  deriving DecidableEq, Repr

/-- The owner of menusleep, menuth, and the threads that have been forked. -/
structure Globals where
  owner : Option Nat
  menuth : Option Nat
  created : Nat → Bool

section Code

variable (t : Nat) (x : Globals)

def lockAcquire (here next : Place) : Effect Globals Place Channel :=
  if x.owner = none then ⟨{ x with owner := some t },next,none,none⟩
  else ⟨x,here,none,some .menusleep⟩

/-- The assertion fails for a thread that is not the owner. -/
def lockRelease (next : Place) (sleeps : Option Channel) : Option (Effect Globals Place Channel) :=
  if x.owner = some t then some ⟨{ x with owner := none },next,some .menusleep,sleeps⟩ else none

/-- common_prog does not look at the result of thread_fork before it waits. -/
def commonProg (forkFails : Nat → Bool) (k : Nat) :
    MenuAt → Option (Effect Globals Place Channel)
  | .fork =>
    let x := if forkFails k then x else { x with created := update x.created (k+1) true }
    some ⟨x,.menu k .lockAcquire,none,none⟩
  | .lockAcquire => some (lockAcquire t x (.menu k .lockAcquire) (.menu k .cvWait))
  | .cvWait => lockRelease t x (.menu k .reacquire) (some .menucv)
  | .reacquire => some (lockAcquire t x (.menu k .reacquire) (.menu k .lockRelease))
  | .lockRelease => lockRelease t x (.menu (k+1) .fork) none

def threadExit : ProgramAt → Option (Effect Globals Place Channel)
  | .exiting =>
    if x.menuth = some t then some ⟨x,.program .lockAcquire,none,none⟩
    else some ⟨x,.program (.gone false),none,none⟩
  | .lockAcquire => some (lockAcquire t x (.program .lockAcquire) (.program .cvBroadcast))
  | .cvBroadcast => some ⟨x,.program .lockRelease,some .menucv,none⟩
  | .lockRelease => lockRelease t x (.program (.gone true)) none
  | _ => none

def cmdProgthread : ProgramAt → Option (Effect Globals Place Channel)
  | .start =>
    if x.created t then some ⟨{ x with menuth := some t },.program .running,none,none⟩ else none
  | .running => some ⟨x,.program .exiting,none,none⟩
  | pc => threadExit t x pc

end Code

def code (forkFails : Nat → Bool) : Code Globals Place Channel
  | t, .menu k pc, x => commonProg t x forkFails k pc
  | t, .program pc, x => cmdProgthread t x pc

abbrev Kernel := State Globals Place Channel

/-- `menuth` is what earlier commands have left there. -/
def boot (menuth : Option Nat) : Kernel where
  shared := ⟨none,menuth,fun _ => false⟩
  place := fun t => if t = 0 then .menu 0 .fork else .program .start
  asleep := fun _ => none

def ProgramAt.told : ProgramAt → Bool
  | .lockRelease => true
  | .gone told => told
  | _ => false

def ProgramAt.locked : ProgramAt → Bool
  | .cvBroadcast => true
  | pc => pc.told

def Place.told : Place → Bool
  | .program pc => pc.told
  | _ => false

def Place.locked : Place → Bool
  | .program pc => pc.locked
  | _ => false

/-- The menu thread sleeps on menucv in its `k`-th command, whose program was never created or has
already done its cv_broadcast. -/
def Lost (s : Kernel) : Prop :=
  s.asleep 0 = some .menucv ∧ ∃ k, s.place 0 = .menu k .reacquire ∧
    (s.shared.created (k+1) = false ∨ (s.place (k+1)).told = true)

/-- thread_fork does not fail, and a program takes menusleep in thread_exit only when the menu
thread has taken it first. -/
def MenuFirst (forkFails : Nat → Bool) (s : Kernel) (t : Nat) : Prop :=
  (∀ k, s.place t = .menu k .fork → forkFails k = false) ∧
    ∀ k, t = k + 1 → s.place t = .program .lockAcquire → s.place 0 ≠ .menu k .lockAcquire

/-- What holds while the menu thread is at a place of its `k`-th command. -/
def Awaits (s : Kernel) (k : Nat) : MenuAt → Prop
  | .fork => ∀ j, k ≤ j → s.shared.created (j+1) = false
  | .lockAcquire => (s.shared.created (k+1) = true ∧ (s.place (k+1)).locked = false)
  | .cvWait => s.shared.created (k+1) = true ∧ (s.place (k+1)).locked = false ∧
      s.shared.owner = some 0
  | .reacquire => s.shared.created (k+1) = true ∧
      (s.asleep 0 = some .menucv → (s.place (k+1)).told = false)
  | .lockRelease => True

structure Inv (s : Kernel) : Prop where
  menu : ∃ k pc, s.place 0 = .menu k pc ∧ Awaits s k pc ∧
    ∀ j, k < j → s.shared.created (j+1) = false
  program : ∀ j, ∃ pc, s.place (j+1) = .program pc ∧
    (s.shared.created (j+1) = false → pc = .start)

section Steps

variable {forkFails : Nat → Bool} {s u : Kernel} {t k : Nat} {x : Globals}
  {e : Effect Globals Place Channel}

/-- What a section of a program's thread does to the rest. -/
structure Moves (t : Nat) (x : Globals) (pc : ProgramAt) (e : Effect Globals Place Channel)
    (pc' : ProgramAt) : Prop where
  next : e.next = .program pc'
  created : e.shared.created = x.created
  forked : pc = .start → x.created t = true
  owner : ∀ o, x.owner = some o → o ≠ t → e.shared.owner = some o
  locked : pc'.locked = true → pc.locked = true ∨ pc = .lockAcquire ∧ x.owner = none
  told : pc'.told = true → pc.told = true ∨ e.wakes = some .menucv

theorem moves_release {pc pc' : ProgramAt} {sleeps : Option Channel} (hpc : pc ≠ .start)
    (hl : pc'.locked = true → pc.locked = true) (ht : pc'.told = true → pc.told = true)
    (h : lockRelease t x (.program pc') sleeps = some e) : Moves t x pc e pc' := by
  unfold lockRelease at h
  split at h
  · next ho =>
    obtain rfl := Option.some.inj h
    refine ⟨rfl,rfl,fun hs => absurd hs hpc,fun o hx hne => ?_,fun h' => .inl (hl h'),
      fun h' => .inl (ht h')⟩
    rw [ho] at hx
    exact absurd (Option.some.inj hx).symm hne
  · cases h

theorem cmdProgthread_moves {pc : ProgramAt} (h : cmdProgthread t x pc = some e) :
    ∃ pc', Moves t x pc e pc' := by
  cases pc with
  | start =>
    by_cases hc : x.created t = true
    · simp only [cmdProgthread,if_pos hc,Option.some.injEq] at h
      subst h
      exact ⟨.running,rfl,rfl,fun _ => hc,fun o ho _ => ho,by simp [ProgramAt.locked,ProgramAt.told],
        by simp [ProgramAt.told]⟩
    · simp [cmdProgthread,hc] at h
  | running =>
    obtain rfl := Option.some.inj h
    exact ⟨.exiting,rfl,rfl,by simp,fun o ho _ => ho,by simp [ProgramAt.locked,ProgramAt.told],
      by simp [ProgramAt.told]⟩
  | exiting =>
    by_cases hm : x.menuth = some t
    · simp only [cmdProgthread,threadExit,if_pos hm,Option.some.injEq] at h
      subst h
      exact ⟨.lockAcquire,rfl,rfl,by simp,fun o ho _ => ho,
        by simp [ProgramAt.locked,ProgramAt.told],by simp [ProgramAt.told]⟩
    · simp only [cmdProgthread,threadExit,if_neg hm,Option.some.injEq] at h
      subst h
      exact ⟨.gone false,rfl,rfl,by simp,fun o ho _ => ho,
        by simp [ProgramAt.locked,ProgramAt.told],by simp [ProgramAt.told]⟩
  | lockAcquire =>
    by_cases ho : x.owner = none
    · simp only [cmdProgthread,threadExit,lockAcquire,if_pos ho,Option.some.injEq] at h
      subst h
      exact ⟨.cvBroadcast,rfl,rfl,by simp,by simp [ho],fun _ => .inr ⟨rfl,ho⟩,
        by simp [ProgramAt.told]⟩
    · simp only [cmdProgthread,threadExit,lockAcquire,if_neg ho,Option.some.injEq] at h
      subst h
      exact ⟨.lockAcquire,rfl,rfl,by simp,fun o ho _ => ho,fun h' => .inl h',fun h' => .inl h'⟩
  | cvBroadcast =>
    obtain rfl := Option.some.inj h
    exact ⟨.lockRelease,rfl,rfl,by simp,fun o ho _ => ho,fun _ => .inl rfl,fun _ => .inr rfl⟩
  | lockRelease =>
    exact ⟨.gone true,moves_release (by simp) (fun _ => rfl) (fun _ => rfl) h⟩
  | gone told => cases h

theorem locked_of_told {p : Place} (h : p.locked = false) : p.told = false := by
  cases p with
  | menu k pc => rfl
  | program pc => cases pc <;> first | exact h | rfl

theorem Inv.programStep (h : Inv s) {j : Nat} {pc : ProgramAt}
    (hp : s.place (j+1) = .program pc)
    (hfirst : pc = .lockAcquire → s.place 0 ≠ .menu j .lockAcquire)
    (he : cmdProgthread (j+1) s.shared pc = some e) : Inv (s.after (j+1) e) := by
  obtain ⟨pc',hm⟩ := cmdProgthread_moves he
  obtain ⟨k,mpc,hplace,hawaits,hlater⟩ := h.menu
  have hmenu : (s.after (j+1) e).place 0 = .menu k mpc := by
    rw [after_place_of_ne (Nat.succ_ne_zero j).symm,hplace]
  have hprogram : ∀ i, (s.after (j+1) e).place (i+1) =
      if i = j then .program pc' else s.place (i+1) := by
    intro i
    by_cases hi : i = j
    · subst hi
      rw [after_place_self,if_pos rfl,hm.next]
    · rw [after_place_of_ne (by omega),if_neg hi]
  have hlocked : (mpc = .lockAcquire ∨ mpc = .cvWait ∧ s.shared.owner = some 0) →
      (s.place (k+1)).locked = false → ((s.after (j+1) e).place (k+1)).locked = false := by
    intro hmpc hold
    rw [hprogram]
    split
    · next hk =>
      subst hk
      rw [hp] at hold
      by_contra hnew
      rcases hm.locked (by simpa [Place.locked] using hnew) with hl | ⟨hpc,hfree⟩
      · rw [show (Place.program pc).locked = pc.locked from rfl,hl] at hold
        cases hold
      · rcases hmpc with rfl | ⟨-,ho⟩
        · exact hfirst hpc hplace
        · rw [hfree] at ho
          cases ho
    · exact hold
  have hcreated : (s.after (j+1) e).shared.created = s.shared.created := hm.created
  refine ⟨⟨k,mpc,hmenu,?_,fun i hi => by rw [hcreated]; exact hlater i hi⟩,fun i => ?_⟩
  · cases mpc with
    | fork =>
      intro i hi
      rw [hcreated]
      exact hawaits i hi
    | lockAcquire =>
      exact ⟨by rw [hcreated]; exact hawaits.1,hlocked (.inl rfl) hawaits.2⟩
    | cvWait =>
      obtain ⟨hc,hl,ho⟩ := hawaits
      exact ⟨by rw [hcreated]; exact hc,hlocked (.inr ⟨rfl,ho⟩) hl,hm.owner 0 ho (by omega)⟩
    | reacquire =>
      refine ⟨by rw [hcreated]; exact hawaits.1,fun hsleep => ?_⟩
      rcases asleep_after hsleep with ⟨hz,-⟩ | ⟨-,hsleep,hwakes⟩
      · omega
      · have hold := hawaits.2 hsleep
        rw [hprogram]
        split
        · next hk =>
          subst hk
          rw [hp] at hold
          by_contra hnew
          rcases hm.told (by simpa [Place.told] using hnew) with ht | hw
          · rw [show (Place.program pc).told = pc.told from rfl,ht] at hold
            cases hold
          · exact hwakes hw
        · exact hold
    | lockRelease => exact True.intro
  · rw [hprogram,hcreated]
    split
    · next hi =>
      subst hi
      refine ⟨pc',rfl,fun hc => ?_⟩
      obtain ⟨pc₀,hp₀,hstart⟩ := h.program i
      rw [hp] at hp₀
      obtain rfl := Place.program.inj hp₀
      rw [hm.forked (hstart hc)] at hc
      cases hc
    · exact h.program i

theorem Inv.menuStep (h : Inv s) {pc : MenuAt} (hp : s.place 0 = .menu k pc)
    (hok : pc = .fork → forkFails k = false)
    (he : commonProg 0 s.shared forkFails k pc = some e) : Inv (s.after 0 e) := by
  obtain ⟨k₀,pc₀,hplace,hawaits,hlater⟩ := h.menu
  rw [hp] at hplace
  obtain ⟨rfl,rfl⟩ := Place.menu.inj hplace
  have hprogram : ∀ i, (s.after 0 e).place (i+1) = s.place (i+1) := fun i =>
    after_place_of_ne (Nat.succ_ne_zero i)
  have hkeep : e.shared.created = s.shared.created →
      ∀ j, ∃ pc, (s.after 0 e).place (j+1) = .program pc ∧
        ((s.after 0 e).shared.created (j+1) = false → pc = .start) := by
    intro hc j
    rw [hprogram,after_shared,hc]
    exact h.program j
  cases pc with
  | fork =>
    obtain rfl := Option.some.inj he
    simp only [hok rfl] at hkeep hprogram ⊢
    have hnew : ∀ j, k < j → update s.shared.created (k+1) true (j+1) = false := by
      intro j hj
      rw [update_of_ne (by omega)]
      exact hawaits j (Nat.le_of_lt hj)
    obtain ⟨pc₁,hp₁,hstart⟩ := h.program k
    refine ⟨⟨k,.lockAcquire,after_place_self,⟨update_self ..,?_⟩,hnew⟩,fun j => ?_⟩
    · rw [hprogram,hp₁,hstart (hawaits k (Nat.le_refl k))]
      rfl
    · rw [hprogram]
      obtain ⟨pc₂,hp₂,hs₂⟩ := h.program j
      refine ⟨pc₂,hp₂,fun hc => hs₂ ?_⟩
      by_cases hj : j = k
      · subst hj
        exact absurd hc (by simp)
      · simpa [hj] using hc
  | lockAcquire =>
    by_cases ho : s.shared.owner = none
    · simp only [commonProg,lockAcquire,if_pos ho,Option.some.injEq] at he
      subst he
      refine ⟨⟨k,.cvWait,after_place_self,⟨hawaits.1,?_,rfl⟩,hlater⟩,hkeep rfl⟩
      rw [hprogram]
      exact hawaits.2
    · simp only [commonProg,lockAcquire,if_neg ho,Option.some.injEq] at he
      subst he
      refine ⟨⟨k,.lockAcquire,after_place_self,⟨hawaits.1,?_⟩,hlater⟩,hkeep rfl⟩
      rw [hprogram]
      exact hawaits.2
  | cvWait =>
    obtain ⟨hc,hl,ho⟩ := hawaits
    simp only [commonProg,lockRelease,if_pos ho,Option.some.injEq] at he
    subst he
    refine ⟨⟨k,.reacquire,after_place_self,⟨hc,fun _ => ?_⟩,hlater⟩,hkeep rfl⟩
    rw [hprogram]
    exact locked_of_told hl
  | reacquire =>
    by_cases ho : s.shared.owner = none
    · simp only [commonProg,lockAcquire,if_pos ho,Option.some.injEq] at he
      subst he
      exact ⟨⟨k,.lockRelease,after_place_self,True.intro,hlater⟩,hkeep rfl⟩
    · simp only [commonProg,lockAcquire,if_neg ho,Option.some.injEq] at he
      subst he
      exact ⟨⟨k,.reacquire,after_place_self,⟨hawaits.1,by simp⟩,hlater⟩,hkeep rfl⟩
  | lockRelease =>
    by_cases ho : s.shared.owner = some 0
    · simp only [commonProg,lockRelease,if_pos ho,Option.some.injEq] at he
      subst he
      exact ⟨⟨k+1,.fork,after_place_self,fun j hj => hlater j hj,fun j hj => hlater j (by omega)⟩,
        hkeep rfl⟩
    · simp [commonProg,lockRelease,ho] at he

theorem Inv.step (h : Inv s) (hc : MenuFirst forkFails s t)
    (hs : Tasks.step (code forkFails) s t = some u) : Inv u := by
  obtain ⟨-,e,he,rfl⟩ := step_eq_some.mp hs
  cases t with
  | zero =>
    obtain ⟨k,pc,hp,-,-⟩ := h.menu
    rw [hp] at he
    exact h.menuStep hp (fun hpc => hc.1 k (hpc ▸ hp)) he
  | succ j =>
    obtain ⟨pc,hp,-⟩ := h.program j
    rw [hp] at he
    exact h.programStep hp (fun hpc => hc.2 j rfl (hpc ▸ hp)) he

theorem inv_boot (menuth : Option Nat) : Inv (boot menuth) :=
  ⟨⟨0,.fork,rfl,fun _ _ => rfl,fun _ _ => rfl⟩,fun _ => ⟨.start,rfl,fun _ => rfl⟩⟩

theorem Inv.not_lost (h : Inv s) : ¬ Lost s := by
  rintro ⟨hsleep,k,hp,hlost⟩
  obtain ⟨k₀,pc,hp₀,hawaits,-⟩ := h.menu
  rw [hp] at hp₀
  obtain ⟨rfl,rfl⟩ := Place.menu.inj hp₀
  rcases hlost with hc | ht
  · rw [hawaits.1] at hc
    cases hc
  · rw [hawaits.2 hsleep] at ht
    cases ht

end Steps

/-- The menu thread waits for a program that could not be forked, and it waits for one that has
already told it. -/
theorem wakeup_lost :
    (∃ forkFails sched s, run (step (code forkFails)) (boot none) sched = some s ∧
      s.shared.created 1 = false ∧ Lost s) ∧
    ∃ sched s, run (step (code fun _ => false)) (boot none) sched = some s ∧
      s.place 1 = .program (.gone true) ∧ Lost s := by
  constructor
  · have hrun : ((run (step (code fun _ => true)) (boot none) [0,0,0]).any fun s =>
        s.asleep 0 == some .menucv && s.place 0 == .menu 0 .reacquire &&
          s.shared.created 1 == false) = true := by decide
    obtain ⟨s,hs,h⟩ := some_of_any hrun
    simp only [Bool.and_eq_true,beq_iff_eq] at h
    exact ⟨_,_,s,hs,h.2,h.1.1,0,h.1.2,.inl h.2⟩
  · have hrun : ((run (step (code fun _ => false)) (boot none)
        [0,1,1,1,1,1,1,0,0]).any fun s => s.asleep 0 == some .menucv &&
          s.place 0 == .menu 0 .reacquire && s.place 1 == .program (.gone true)) = true := by decide
    obtain ⟨s,hs,h⟩ := some_of_any hrun
    simp only [Bool.and_eq_true,beq_iff_eq] at h
    exact ⟨_,s,hs,h.2,h.1.1,0,h.1.2,.inr (by simp [h.2,Place.told,ProgramAt.told])⟩

/-- The menu thread never sleeps on menucv for a program that was not created or has already told
it, as long as thread_fork does not fail and the menu thread is the first to take menusleep. -/
theorem menu_gets_control (forkFails : Nat → Bool) (menuth : Option Nat) {sched : List Nat}
    {s : Kernel} (hfirst : Along (step (code forkFails)) (MenuFirst forkFails) (boot menuth) sched)
    (h : run (step (code forkFails)) (boot menuth) sched = some s) : ¬ Lost s := by
  have hinv : Inv s := run_keeps (fun _ _ _ hi hc hs => hi.step hc hs) (inv_boot menuth) hfirst h
  exact hinv.not_lost

def menuFirst (s : Kernel) (t : Nat) : Bool :=
  s.place t != .program .lockAcquire || s.place 0 != .menu (t-1) .lockAcquire

theorem menuFirst_of_test {s : Kernel} {t : Nat} (h : menuFirst s t = true) :
    MenuFirst (fun _ => false) s t := by
  refine ⟨fun _ _ => rfl,?_⟩
  rintro k rfl hp
  simpa [menuFirst,hp] using h

theorem menu_gets_control_waits : ∃ s,
    run (step (code fun _ => false)) (boot none) [0,0,0,1,1,1] = some s ∧
    s.asleep 0 = some .menucv ∧ ¬ Lost s := by
  have hrun : ((run (step (code fun _ => false)) (boot none) [0,0,0,1,1,1]).any fun s =>
      s.asleep 0 == some .menucv) = true := by decide
  have hfirst : checkAlong (step (code fun _ => false)) menuFirst (boot none)
      [0,0,0,1,1,1] = true := by decide
  obtain ⟨s,hs,h⟩ := some_of_any hrun
  exact ⟨s,hs,beq_iff_eq.mp h,menu_gets_control _ none
    (Along.of_check (fun _ _ => menuFirst_of_test) hfirst) hs⟩

end MipsOs.Menu
