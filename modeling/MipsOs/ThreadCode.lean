import MipsOs.Threads

/-! What the code of a thread looks like wherever it can be left, and what each of
its statements then does. -/

set_option autoImplicit false
namespace MipsOs.Threads
open Function

section Outcomes

variable {α : Type}

/-- The result satisfies `Q`, or a panic that `E` allows stops the machine. -/
def Safe (r : Except Panic α) (Q : α → Prop) (E : Panic → Prop) : Prop :=
  match r with
  | .ok a => Q a
  | .error p => E p

theorem Safe.mono {r : Except Panic α} {Q Q' : α → Prop} {E E' : Panic → Prop} (h : Safe r Q E)
    (hq : ∀ a, Q a → Q' a) (he : ∀ p, E p → E' p) : Safe r Q' E' := by
  cases r with
  | ok a => exact hq a h
  | error p => exact he p h

def Progress.Keeps (In Out : Kernel → Prop) : Progress → Prop
  | .went k => In k
  | .switched k => Out k

abbrev Kernel.left (k : Kernel) (t : Tid) (rest : List Instr) : Kernel :=
  k.setThread t fun th => { th with code := rest }

/-- An invariant of a burst: what each statement keeps, and what is left at the end. -/
theorem burst_keeps {t : Tid} {I : List Instr → Kernel → Prop} {O : Kernel → Prop}
    {E : Panic → Prop}
    (hexec : ∀ i rest k, I (i :: rest) k →
      Safe (exec t rest k i) (Progress.Keeps (I rest) O) E)
    (hend : ∀ rest k, I rest k →
      rest = [] ∨ (∃ i k', I (i :: rest) k' ∧ exec t rest k' i = .ok (.went k) ∧ k.curspl = 0) →
      O (k.left t rest)) {code : List Instr} {k : Kernel}
    (h : I code k) : Safe (burst t code k) O E := by
  induction code generalizing k with
  | nil => exact hend [] k h (.inl rfl)
  | cons i rest ih =>
    have hi := hexec i rest k h
    rw [burst]
    cases hx : exec t rest k i with
    | error p =>
      rw [hx] at hi
      exact hi
    | ok pr =>
      rw [hx] at hi
      cases pr with
      | switched k' => exact hi
      | went k' =>
        have hin : I rest k' := hi
        show Safe (if k'.curspl = 0 then _ else _) O E
        by_cases hz : k'.curspl = 0
        · rw [if_pos hz]
          exact hend rest k' hin (.inr ⟨i,k,h,hx,hz⟩)
        · rw [if_neg hz]
          exact ih hin

end Outcomes

section Queues

variable {k k' : Kernel}

@[simp] theorem queued_ready (k : Kernel) (t : Tid) : (k.queued t).ready = k.ready ++ [t] :=
  (k.runqueue.qAddtail_toList t).1

theorem makeRunnable_eq (h : 0 < k.curspl) (t : Tid) : makeRunnable t k = .ok (k.queued t) :=
  if_pos h

/-- Threads `ws` have moved from the sleepers to the end of the run queue. -/
structure Moved (ws left : List Tid) (k k' : Kernel) : Prop where
  rest : k' = { k with
    runqueue := k'.runqueue, sleepers := k'.sleepers, kmallocs := k'.kmallocs }
  ready : k'.ready = k.ready ++ ws
  asleep : k'.asleep = left
  max : k'.sleepers.max = k.sleepers.max
  size : k.runqueue.size ≤ k'.runqueue.size
  room : k.ready.length + ws.length < k.runqueue.size →
    k'.kmallocs = k.kmallocs ∧ k'.runqueue.size = k.runqueue.size

theorem Moved.refl {left : List Tid} (h : k.asleep = left) : Moved [] left k k :=
  ⟨rfl,(List.append_nil _).symm,h,rfl,Nat.le_refl _,fun _ => ⟨rfl,rfl⟩⟩

theorem Moved.cons {t : Tid} {ws left : List Tid} {sleepers : PtrArray Tid}
    (h : Moved ws left ((k.setSleepers sleepers).queued t) k')
    (hmax : sleepers.max = k.sleepers.max) :
    Moved (t :: ws) left k k' where
  rest := by
    rw [h.rest]
    rfl
  ready := by
    rw [h.ready,queued_ready,List.append_assoc]
    rfl
  asleep := h.asleep
  max := h.max.trans hmax
  size := Nat.le_trans (k.runqueue.qAddtail_toList t).2 h.size
  room hroom := by
    have hne : k.ready.length + 1 ≠ k.runqueue.size := by
      simp only [List.length_cons] at hroom
      omega
    have hsize : ((k.setSleepers sleepers).queued t).runqueue.size =
        k.runqueue.size := PtrQueue.qAddtail_size hne t
    have hroom' : ((k.setSleepers sleepers).queued t).ready.length + ws.length <
        ((k.setSleepers sleepers).queued t).runqueue.size := by
      rw [hsize,queued_ready]
      simp only [List.length_cons,List.length_append,List.length_nil] at hroom ⊢
      show k.ready.length + (0 + 1) + ws.length < k.runqueue.size
      omega
    obtain ⟨hk,hs⟩ := h.room hroom'
    refine ⟨hk.trans ?_,hs.trans hsize⟩
    show k.kmallocs + (k.runqueue.qAddtail t).2 = k.kmallocs
    have hn : (k.runqueue.qAddtail t).2 = 0 := by
      rw [PtrQueue.qAddtail_kmallocs]
      exact if_neg hne
    rw [hn,Nat.add_zero]

def woken (p : Tid → Bool) (one : Bool) : List Tid → List Tid
  | [] => []
  | x :: l => if p x = true then x :: (if one = true then [] else woken p one l)
    else woken p one l

def notWoken (p : Tid → Bool) (one : Bool) : List Tid → List Tid
  | [] => []
  | x :: l => if p x = true then (if one = true then l else notWoken p one l)
    else x :: notWoken p one l

def Kernel.sleepsOn (k : Kernel) (addr : Addr) (x : Tid) : Bool :=
  decide ((k.thread x).sleepaddr = some addr)

theorem wakeLoop_spec {addr : Addr} {one : Bool} (hspl : 0 < k.curspl) {n : Nat}
    {pre post : List Tid} (h : k.asleep = pre ++ post) (hn : post.length ≤ n) :
    ∃ k', wakeLoop addr one n pre.length k = .ok k' ∧
      Moved (woken (k.sleepsOn addr) one post) (pre ++ notWoken (k.sleepsOn addr) one post)
        k k' := by
  induction n generalizing k pre post with
  | zero =>
    obtain rfl : post = [] := List.length_eq_zero_iff.mp (Nat.le_zero.mp hn)
    exact ⟨k,rfl,Moved.refl h⟩
  | succ n ih =>
    have hget : k.sleepers.arrayGetguy pre.length = post.head? := by
      rw [← PtrArray.getElem?_toList]
      show k.asleep[pre.length]? = _
      rw [h,List.getElem?_append_right (Nat.le_refl _),Nat.sub_self,List.head?_eq_getElem?]
    rw [wakeLoop,hget]
    cases post with
    | nil =>
      exact ⟨k,rfl,Moved.refl h⟩
    | cons x post =>
      simp only [List.head?_cons]
      by_cases hx : (k.thread x).sleepaddr = some addr
      · have hp : k.sleepsOn addr x = true := decide_eq_true hx
        have hlen : pre.length < k.sleepers.num := by
          rw [← PtrArray.length_toList]
          show pre.length < k.asleep.length
          rw [h]
          simp
        rw [if_pos hx,makeRunnable_eq (k := k.setSleepers (k.sleepers.arrayRemove pre.length)) hspl]
        have hrm : (k.sleepers.arrayRemove pre.length).toList = pre ++ post := by
          rw [PtrArray.arrayRemove_toList _ hlen]
          show k.asleep.eraseIdx pre.length = _
          rw [h,List.eraseIdx_append_of_length_le (Nat.le_refl _),Nat.sub_self]
          rfl
        simp only [woken,notWoken,hp,if_true]
        cases one with
        | true =>
          have hm : Moved [] (pre ++ post)
              ((k.setSleepers (k.sleepers.arrayRemove pre.length)).queued x) _ := Moved.refl hrm
          exact ⟨_,rfl,hm.cons rfl⟩
        | false =>
          have hspl' : 0 < ((k.setSleepers (k.sleepers.arrayRemove pre.length)).queued x).curspl :=
            hspl
          obtain ⟨k',hk',hm⟩ := ih hspl' hrm (by simpa using hn)
          exact ⟨k',hk',hm.cons rfl⟩
      · have hp : k.sleepsOn addr x = false := decide_eq_false hx
        rw [if_neg hx]
        have hpre : k.asleep = (pre ++ [x]) ++ post := by
          rw [h,List.append_assoc]
          rfl
        obtain ⟨k',hk',hm⟩ := ih hspl hpre (by simpa using hn)
        simp only [woken,notWoken,hp,Bool.false_eq_true,if_false]
        refine ⟨k',?_,?_⟩
        · rw [← hk',List.length_append]
          rfl
        · simpa using hm

theorem threadWakeup_spec (hspl : 0 < k.curspl) (addr : Addr) :
    ∃ k', threadWakeup addr k = .ok k' ∧
      Moved (woken (k.sleepsOn addr) false k.asleep) (notWoken (k.sleepsOn addr) false k.asleep)
        k k' := by
  rw [threadWakeup,if_pos hspl]
  have hlen : k.asleep.length ≤ k.sleepers.num := Nat.le_of_eq k.sleepers.length_toList
  exact wakeLoop_spec hspl (List.nil_append k.asleep).symm hlen

theorem threadOnewakeup_spec (hspl : 0 < k.curspl) (addr : Addr) :
    ∃ k', threadOnewakeup addr k = .ok k' ∧
      Moved (woken (k.sleepsOn addr) true k.asleep) (notWoken (k.sleepsOn addr) true k.asleep)
        k k' := by
  rw [threadOnewakeup,if_pos hspl]
  have hlen : k.asleep.length ≤ k.sleepers.num := Nat.le_of_eq k.sleepers.length_toList
  exact wakeLoop_spec hspl (List.nil_append k.asleep).symm hlen

theorem woken_perm (p : Tid → Bool) (one : Bool) (l : List Tid) :
    (woken p one l ++ notWoken p one l).Perm l := by
  induction l with
  | nil => exact List.Perm.refl []
  | cons x l ih =>
    simp only [woken,notWoken]
    split
    · cases one with
      | true => exact List.Perm.refl (x :: l)
      | false => exact ih.cons x
    · exact (List.perm_middle).trans (ih.cons x)

/-- The idle processor takes the first thread of the queue, if there is one. -/
inductive Picked (k : Kernel) : Kernel → Prop
  | idle (h : k.ready = []) : Picked k k
  | next {x : Tid} {q : PtrQueue Tid} (h : k.ready = x :: q.toList)
      (hs : q.size = k.runqueue.size) : Picked k { k with curthread := some x, runqueue := q }

theorem scheduler_spec (hspl : 0 < k.curspl) : ∃ k', scheduler k = .ok k' ∧ Picked k k' := by
  rw [scheduler,if_pos hspl]
  cases hq : k.runqueue.qRemhead with
  | none =>
    refine ⟨k,rfl,.idle ?_⟩
    by_contra hne
    obtain ⟨x,r,hr⟩ := PtrQueue.qRemhead_isSome (q := k.runqueue) hne
    rw [hq] at hr
    cases hr
  | some xq =>
    obtain ⟨hlist,hs⟩ := PtrQueue.qRemhead_toList hq
    exact ⟨_,rfl,.next hlist hs⟩

theorem miSwitch_spec {nextstate : ThreadState} {t : Tid} {s : Kernel} (hspl : 0 < k.curspl)
    (hcur : k.curthread = some t)
    (hs : stash nextstate t { k with curthread := none } = .ok s) (hspl' : 0 < s.curspl) :
    ∃ k', miSwitch nextstate k = .ok k' ∧ Picked s k' := by
  rw [miSwitch,if_pos hspl,hcur]
  simp only [hs]
  exact scheduler_spec hspl'

end Queues

section Code

def opens : List Instr → Bool
  | .decCount _ :: _ | .setOwner _ :: _ => false
  | _ => true

/-- Code that a thread can be left with: it does not count a semaphore up, and does not fork. -/
def pending (code : List Instr) : Bool :=
  code.all fun
    | .incCount _ | .fork => false
    | _ => true

def frees (l : Nat) : List Instr → Bool
  | [] => false
  | .clearOwner l' :: rest => decide (l' = l) || frees l rest
  | .waitOwner l' :: rest => decide (l' ≠ l) && frees l rest
  | .setOwner l' :: rest => decide (l' ≠ l) && frees l rest
  | _ :: rest => frees l rest

def Instr.quiet : Instr → Bool
  | .sleep (.cv _) | .sleep (.other _) | .yield | .exorcise | .awake => true
  | .wakeup _ | .onewakeup _ | .decCount _ | .setOwner _ => true
  | _ => false

/-- Code that runs with curspl at `lvl` and with the levels `spls` saved: it ends with interrupts
on, turns them off for what needs it, tests in a loop before it takes, and wakes up the
sleepers of a semaphore or lock right after it has given something back. -/
inductive Sound : Nat → List Nat → List Instr → Prop
  | nil : Sound 0 [] []
  | splhigh {lvl : Nat} {spls : List Nat} {rest : List Instr} (ho : opens rest = true)
      (h : Sound splHigh (lvl :: spls) rest) : Sound lvl spls (.splhigh :: rest)
  | splx {lvl spl : Nat} {spls : List Nat} {rest : List Instr} (ho : opens rest = true)
      (hp : pending rest = true) (h : Sound spl spls rest) : Sound lvl (spl :: spls) (.splx :: rest)
  | spl0 {lvl : Nat} {spls : List Nat} {rest : List Instr} (ho : opens rest = true)
      (hp : pending rest = true) (h : Sound 0 spls rest) : Sound lvl spls (.spl0 :: rest)
  | menu {lvl : Nat} {spls : List Nat} {rest : List Instr} (ho : opens rest = true)
      (hp : pending rest = true) (h : Sound lvl spls rest) : Sound lvl spls (.menu :: rest)
  | exit {spls : List Nat} : Sound splHigh spls [.exit]
  | fork : Sound splHigh [0] [.fork,.splx]
  | quiet {i : Instr} {spls : List Nat} {rest : List Instr} (hi : i.quiet = true)
      (ho : opens rest = true) (hp : pending rest = true) (h : Sound splHigh spls rest) :
      Sound splHigh spls (i :: rest)
  | waitCount {s : Nat} {spls : List Nat} {rest : List Instr}
      (h : Sound splHigh spls (.decCount s :: rest)) :
      Sound splHigh spls (.waitCount s :: .decCount s :: rest)
  | incCount {s : Nat} {spls : List Nat} {rest : List Instr}
      (h : Sound splHigh spls (.wakeup (.sem s) :: rest)) :
      Sound splHigh spls (.incCount s :: .wakeup (.sem s) :: rest)
  | waitOwner {l : Nat} {spls : List Nat} {rest : List Instr}
      (h : Sound splHigh spls (.setOwner l :: rest)) :
      Sound splHigh spls (.waitOwner l :: .setOwner l :: rest)
  | clearOwner {l : Nat} {spls : List Nat} {rest : List Instr} (hf : frees l rest = false)
      (h : Sound splHigh spls (.wakeup (.lock l) :: rest)) :
      Sound splHigh spls (.clearOwner l :: .wakeup (.lock l) :: rest)

variable {lvl : Nat} {spls : List Nat} {rest : List Instr}

def Addr.plain : Addr → Bool
  | .cv _ | .other _ => true
  | _ => false

/-- What it takes for a statement to come first. -/
def Needs (lvl : Nat) (spls : List Nat) (rest : List Instr) : Instr → Prop
  | .splhigh => opens rest = true ∧ Sound splHigh (lvl :: spls) rest
  | .splx => ∃ spl spls', spls = spl :: spls' ∧ opens rest = true ∧ Sound spl spls' rest
  | .spl0 => opens rest = true ∧ Sound 0 spls rest
  | .menu => opens rest = true ∧ Sound lvl spls rest
  | .exit => lvl = splHigh ∧ rest = []
  | .fork => lvl = splHigh ∧ spls = [0] ∧ rest = [.splx]
  | .undead => False
  | .sleep addr => lvl = splHigh ∧ opens rest = true ∧ Sound lvl spls rest ∧ addr.plain = true
  | .waitCount s => lvl = splHigh ∧ Sound lvl spls rest ∧ ∃ r, rest = .decCount s :: r
  | .incCount s => lvl = splHigh ∧ Sound lvl spls rest ∧ ∃ r, rest = .wakeup (.sem s) :: r
  | .waitOwner l => lvl = splHigh ∧ Sound lvl spls rest ∧ ∃ r, rest = .setOwner l :: r
  | .clearOwner l => lvl = splHigh ∧ Sound lvl spls rest ∧ frees l rest = false ∧
      ∃ r, rest = .wakeup (.lock l) :: r
  | _ => lvl = splHigh ∧ opens rest = true ∧ Sound lvl spls rest

theorem Sound.needs {i : Instr} (h : Sound lvl spls (i :: rest)) : Needs lvl spls rest i := by
  cases h with
  | splhigh ho h | spl0 ho _ h | menu ho _ h => exact ⟨ho,h⟩
  | splx ho _ h => exact ⟨_,_,rfl,ho,h⟩
  | exit => exact ⟨rfl,rfl⟩
  | fork => exact ⟨rfl,rfl,rfl⟩
  | quiet hi ho _ h =>
    cases i with
    | sleep addr =>
      cases addr with
      | cv | other => exact ⟨rfl,ho,h,rfl⟩
      | sem | lock => cases hi
    | yield | exorcise | awake | wakeup | onewakeup | decCount | setOwner => exact ⟨rfl,ho,h⟩
    | _ => cases hi
  | waitCount h | incCount h | waitOwner h => exact ⟨rfl,h,_,rfl⟩
  | clearOwner hf h => exact ⟨rfl,h,hf,_,rfl⟩

/-- Only splhigh comes before code that cannot be left pending. -/
theorem Sound.pending_rest {i : Instr} (h : Sound lvl spls (i :: rest)) (hi : i ≠ .splhigh) :
    pending rest = true := by
  cases h with
  | splhigh _ _ => exact (hi rfl).elim
  | splx _ hp _ | spl0 _ hp _ | menu _ hp _ | quiet _ _ hp _ => exact hp
  | exit | fork => rfl
  | waitCount h | incCount h | waitOwner h | clearOwner _ h =>
    cases h with | quiet _ _ hp _ => exact hp

theorem Sound.resume (h : Sound splHigh spls rest) (ho : opens rest = true)
    (hp : pending rest = true) : Sound splHigh spls (.exorcise :: .awake :: rest) :=
  .quiet rfl rfl hp (.quiet rfl ho hp h)

theorem sound_lockAcquire (l : Nat) (ho : opens rest = true) (hp : pending rest = true)
    (h : Sound lvl spls rest) : Sound lvl spls (lockAcquire l ++ rest) :=
  .splhigh rfl (.waitOwner (.quiet rfl rfl hp (.splx ho hp h)))

theorem sound_lockRelease (l : Nat) (hf : frees l rest = false) (ho : opens rest = true)
    (hp : pending rest = true) (h : Sound lvl spls rest) :
    Sound lvl spls (lockRelease l ++ rest) :=
  .splhigh rfl (.clearOwner hf (.quiet rfl rfl hp (.splx ho hp h)))

theorem sound_cvBroadcast (c : Nat) (ho : opens rest = true) (hp : pending rest = true)
    (h : Sound lvl spls rest) : Sound lvl spls (cvBroadcast c ++ rest) :=
  .splhigh rfl (.quiet rfl rfl hp (.splx ho hp h))

theorem sound_threadYield (ho : opens rest = true) (hp : pending rest = true)
    (h : Sound lvl spls rest) : Sound lvl spls (threadYield ++ rest) :=
  .splhigh rfl (.quiet rfl rfl hp (.splx ho hp h))

theorem sound_V (s : Nat) (ho : opens rest = true) (hp : pending rest = true)
    (h : Sound lvl spls rest) : Sound lvl spls (V s ++ rest) :=
  .splhigh rfl (.incCount (.quiet rfl rfl hp (.splx ho hp h)))

theorem sound_threadExit (ismenu : Bool) : Sound lvl spls (threadExit ismenu) := by
  cases ismenu with
  | false => exact .splhigh rfl .exit
  | true =>
    refine .splhigh rfl (sound_lockAcquire menusleep rfl rfl (sound_cvBroadcast menucv rfl rfl ?_))
    exact sound_lockRelease menusleep rfl rfl rfl .exit

theorem sound_call (ismenu : Bool) (c : Call) : Sound 0 [] (c.code ismenu) := by
  cases c with
  | fork => exact .splhigh rfl .fork
  | yield => exact sound_threadYield rfl rfl .nil
  | exit => exact sound_threadExit ismenu
  | menu => exact .menu rfl rfl .nil
  | sleep | wakeup | onewakeup | cvSignal =>
    exact .splhigh rfl (.quiet rfl rfl rfl (.splx rfl rfl .nil))
  | P s => exact .splhigh rfl (.waitCount (.quiet rfl rfl rfl (.splx rfl rfl .nil)))
  | V s => exact sound_V s rfl rfl .nil
  | lockAcquire l => exact sound_lockAcquire l rfl rfl .nil
  | lockRelease l => exact sound_lockRelease l rfl rfl rfl .nil
  | cvWait c l =>
    refine .splhigh rfl (sound_lockRelease l ?_ rfl rfl (.quiet rfl rfl rfl
      (sound_lockAcquire l rfl rfl (.splx rfl rfl .nil))))
    simp [frees,lockAcquire]
  | cvBroadcast c l => exact sound_cvBroadcast c rfl rfl .nil

theorem sound_irq (i : Irq) (ho : opens rest = true) (hp : pending rest = true)
    (h : Sound lvl spls rest) : Sound lvl spls (trap i.code ++ rest) := by
  have hx : Sound splHigh (lvl :: spls) (.splx :: rest) := .splx ho hp h
  rw [trap,List.append_assoc,List.append_assoc]
  refine .splhigh ?_ ?_
  · cases i with
    | hardclock second => cases second <;> rfl
    | V | wakeup => rfl
  · cases i with
    | hardclock second =>
      cases second with
      | false => exact sound_threadYield rfl hp hx
      | true => exact .quiet rfl rfl hp (sound_threadYield rfl hp hx)
    | V s => exact sound_V s rfl hp hx
    | wakeup a => exact .splhigh rfl (.quiet rfl rfl hp (.splx rfl hp hx))

theorem opens_of_sound (h : Sound 0 spls rest) : opens rest = true := by
  cases rest with
  | nil => rfl
  | cons i rest =>
    have hn := h.needs
    cases i with
    | decCount | setOwner => cases hn.1
    | _ => rfl

end Code

section Statements

variable {k k' : Kernel} {t : Tid} {rest : List Instr}

theorem splHigh_pos (h : k.curspl = splHigh) : 0 < k.curspl := by
  rw [h]
  decide

theorem destroyAll_spec (l : List Tid) (k : Kernel) (h : ∀ t, k.curthread = some t → t ∉ l) :
    destroyAll l k = .ok { k with destroyed := l.reverse ++ k.destroyed } := by
  induction l generalizing k with
  | nil => rfl
  | cons z l ih =>
    have hz : ¬ some z = k.curthread := fun he => h z he.symm List.mem_cons_self
    have hl := ih { k with destroyed := z :: k.destroyed } fun t ht hm =>
      h t ht (List.mem_cons_of_mem z hm)
    rw [destroyAll,if_neg hz,hl]
    simp

def Kernel.exorcised (k : Kernel) : Kernel :=
  { k with destroyed := k.dead.reverse ++ k.destroyed, zombies := (k.zombies.arraySetsize 0).1,
           kmallocs := k.kmallocs + (k.zombies.arraySetsize 0).2 }

theorem exorcise_eq (hspl : 0 < k.curspl) (hcur : k.curthread = some t) (ht : t ∉ k.dead) :
    exorcise k = .ok k.exorcised := by
  rw [Threads.exorcise,if_pos hspl,destroyAll_spec k.dead k fun x hx => ?_]
  · rfl
  · rw [hcur] at hx
    cases hx
    exact ht

def Kernel.forked (k : Kernel) : Kernel :=
  { (preallocate k.spawn).queued k.created with
    numthreads := k.numthreads + 1, kmallocs := k.kmallocs }

theorem threadFork_eq (hspl : 0 < k.curspl) :
    threadFork k = .ok (if k.created < totalProcesses then k.forked else k) := by
  rw [threadFork]
  by_cases hc : k.created < totalProcesses
  · rw [if_pos hc,if_pos hc,makeRunnable_eq (k := preallocate k.spawn) hspl]
    rfl
  · rw [if_neg hc,if_neg hc]

theorem forked_ready (k : Kernel) : k.forked.ready = k.ready ++ [k.created] := by
  show ((preallocate k.spawn).queued k.created).ready = _
  rw [queued_ready]
  congr 1
  exact (k.runqueue.qPreallocate_toList (k.numthreads + 1)).1

def Kernel.slept (k : Kernel) (t : Tid) (addr : Addr) (code : List Instr) : Kernel :=
  { k with
    curthread := none,
    thread := update k.thread t
      ⟨some addr,.exorcise :: .awake :: code,(k.thread t).spls,k.clock⟩,
    clock := k.clock + 1,
    sleepers := (k.sleepers.arrayAdd t).1,
    kmallocs := k.kmallocs + (k.sleepers.arrayAdd t).2 }

def Kernel.yielded (k : Kernel) (t : Tid) (code : List Instr) : Kernel :=
  { k with
    curthread := none,
    thread := update k.thread t { k.thread t with code := .exorcise :: code },
    runqueue := (k.runqueue.qAddtail t).1,
    kmallocs := k.kmallocs + (k.runqueue.qAddtail t).2 }

def Kernel.buried (k : Kernel) (t : Tid) : Kernel :=
  { k with
    curthread := none,
    thread := update k.thread t { k.thread t with code := [.exorcise,.undead] },
    numthreads := k.numthreads - 1,
    exited := t :: k.exited,
    zombies := (k.zombies.arrayAdd t).1,
    kmallocs := k.kmallocs + (k.zombies.arrayAdd t).2 }

def Kernel.lowered (k : Kernel) (s : Nat) : Kernel :=
  { k with count := update k.count s (k.count s - 1) }

def Kernel.raised (k : Kernel) (s : Nat) : Kernel :=
  { k with count := update k.count s (increment (k.count s)) }

def Kernel.locked (k : Kernel) (t : Tid) (l : Nat) : Kernel :=
  { k with owner := update k.owner l (some t), log := .acquire t l :: k.log }

def Kernel.unlocked (k : Kernel) (t : Tid) (l : Nat) : Kernel :=
  { k with owner := update k.owner l none, log := .release t l :: k.log }

section

variable (hspl : 0 < k.curspl) (hcur : k.curthread = some t)

include hspl hcur

theorem threadSleep_spec (addr : Addr) (code : List Instr) :
    ∃ k', threadSleep t addr code k = .ok k' ∧ Picked (k.slept t addr code) k' :=
  miSwitch_spec hspl hcur (s := k.slept t addr code) rfl hspl

theorem yield_spec (rest : List Instr) :
    ∃ k', exec t rest k .yield = .ok (.switched k') ∧ Picked (k.yielded t rest) k' := by
  have hs : stash .ready t { k.setThread t fun th => { th with code := .exorcise :: rest } with
      curthread := none } = .ok (k.yielded t rest) := if_pos hspl
  have hspl' : 0 < (k.setThread t fun th => { th with code := .exorcise :: rest }).curspl := hspl
  obtain ⟨k',hk,hp⟩ := miSwitch_spec hspl' hcur hs hspl
  exact ⟨k',by rw [exec,hk]; rfl,hp⟩

theorem exit_spec (hn : 0 < k.numthreads) (rest : List Instr) :
    ∃ k', exec t rest k .exit = .ok (.switched k') ∧ Picked (k.buried t) k' := by
  obtain ⟨k',hk,hp⟩ := miSwitch_spec (t := t) (k := { k with
    thread := update k.thread t { k.thread t with code := [.exorcise,.undead] },
    numthreads := k.numthreads - 1,
    exited := t :: k.exited }) hspl hcur
    (show stash .zomb t _ = .ok (k.buried t) from rfl) hspl
  exact ⟨k',by rw [exec,if_pos hn,hk]; rfl,hp⟩

end

theorem slept_asleep (k : Kernel) (t : Tid) (addr : Addr) (code : List Instr) :
    (k.slept t addr code).asleep = k.asleep ++ [t] := k.sleepers.arrayAdd_toList t

theorem yielded_ready (k : Kernel) (t : Tid) (code : List Instr) :
    (k.yielded t code).ready = k.ready ++ [t] := (k.runqueue.qAddtail_toList t).1

theorem buried_dead (k : Kernel) (t : Tid) : (k.buried t).dead = k.dead ++ [t] :=
  k.zombies.arrayAdd_toList t

theorem incCount_eq {s : Nat} (h : 0 < increment (k.count s)) : incCount s k = .ok (k.raised s) :=
  if_pos h

theorem incCount_overflow {s : Nat} (h : ¬ 0 < increment (k.count s)) :
    incCount s k = .error .countV := if_neg h

def Instr.own : Instr → Bool
  | .splhigh | .splx | .spl0 | .awake | .menu => true
  | _ => false

def levels (lvl : Nat) (spls : List Nat) : Instr → Nat × List Nat
  | .splhigh => (splHigh,lvl :: spls)
  | .splx => (spls.headD 0,spls.tail)
  | .spl0 => (0,spls)
  | _ => (lvl,spls)

inductive Passes (k : Kernel) : Instr → Prop
  | count {s : Nat} (h : k.count s ≠ 0) : Passes k (.waitCount s)
  | owner {l : Nat} (h : k.owner l = none) : Passes k (.waitOwner l)

inductive Waits (k : Kernel) (rest : List Instr) : Instr → Addr → List Instr → Prop
  | sleep {addr : Addr} (h : addr.plain = true) : Waits k rest (.sleep addr) addr rest
  | count {s : Nat} (h : k.count s = 0) :
      Waits k rest (.waitCount s) (.sem s) (.waitCount s :: rest)
  | owner {l : Nat} (h : k.owner l ≠ none) :
      Waits k rest (.waitOwner l) (.lock l) (.waitOwner l :: rest)

/-- What a statement of well formed code does. -/
inductive Does (t : Tid) (rest : List Instr) (k : Kernel) : Instr → Progress → Prop
  | own {i : Instr} {lvl : Nat} {th : Thread} {menuth : Option Tid} (hi : i.own = true)
      (hl : (lvl,th.spls) = levels k.curspl (k.thread t).spls i) (hs : Sound lvl th.spls rest) :
      Does t rest k i (.went { k with
        curspl := lvl, thread := update k.thread t th, menuth := menuth })
  | pass {i : Instr} (hi : Passes k i) (hs : Sound k.curspl (k.thread t).spls rest) :
      Does t rest k i (.went k)
  | exorcise (hs : Sound k.curspl (k.thread t).spls rest) :
      Does t rest k .exorcise (.went k.exorcised)
  | wakeup {addr : Addr} {k' : Kernel} (hs : Sound k.curspl (k.thread t).spls rest)
      (hm : Moved (woken (k.sleepsOn addr) false k.asleep)
        (notWoken (k.sleepsOn addr) false k.asleep) k k') :
      Does t rest k (.wakeup addr) (.went k')
  | onewakeup {addr : Addr} {k' : Kernel} (hs : Sound k.curspl (k.thread t).spls rest)
      (hm : Moved (woken (k.sleepsOn addr) true k.asleep)
        (notWoken (k.sleepsOn addr) true k.asleep) k k') :
      Does t rest k (.onewakeup addr) (.went k')
  | fork (hr : rest = [.splx]) (hs : Sound k.curspl (k.thread t).spls rest) :
      Does t rest k .fork (.went k.forked)
  | noFork (hs : Sound k.curspl (k.thread t).spls rest) : Does t rest k .fork (.went k)
  | decCount {s : Nat} (hc : 0 < k.count s) (hs : Sound k.curspl (k.thread t).spls rest) :
      Does t rest k (.decCount s) (.went (k.lowered s))
  | incCount {s : Nat} (hc : 0 < increment (k.count s))
      (hs : Sound k.curspl (k.thread t).spls rest) (hr : ∃ r, rest = .wakeup (.sem s) :: r) :
      Does t rest k (.incCount s) (.went (k.raised s))
  | setOwner {l : Nat} (hs : Sound k.curspl (k.thread t).spls rest) :
      Does t rest k (.setOwner l) (.went (k.locked t l))
  | clearOwner {l : Nat} (ho : k.owner l = some t) (hs : Sound k.curspl (k.thread t).spls rest)
      (hf : frees l rest = false) (hr : ∃ r, rest = .wakeup (.lock l) :: r) :
      Does t rest k (.clearOwner l) (.went (k.unlocked t l))
  | sleep {i : Instr} {addr : Addr} {code : List Instr} {k' : Kernel}
      (hi : Waits k rest i addr code) (hspl : k.curspl = splHigh)
      (hs : Sound splHigh (k.thread t).spls (.exorcise :: .awake :: code))
      (hpick : Picked (k.slept t addr code) k') : Does t rest k i (.switched k')
  | yield {k' : Kernel} (hspl : k.curspl = splHigh)
      (hs : Sound splHigh (k.thread t).spls (.exorcise :: rest))
      (hpick : Picked (k.yielded t rest) k') : Does t rest k .yield (.switched k')
  | exit {k' : Kernel} (hspl : k.curspl = splHigh) (hpick : Picked (k.buried t) k') :
      Does t rest k .exit (.switched k')

/-- The assertions that can fail. -/
inductive Fails (t : Tid) (k : Kernel) : Instr → Panic → Prop
  | countP {s : Nat} (h : ¬ 0 < k.count s) : Fails t k (.decCount s) .countP
  | countV {s : Nat} (h : ¬ 0 < increment (k.count s)) : Fails t k (.incCount s) .countV
  | notOwner {l : Nat} (h : ¬ k.owner l = some t) : Fails t k (.clearOwner l) .notOwner

theorem Does.of_sleep {i : Instr} {addr : Addr} {code : List Instr}
    (hcur : k.curthread = some t) (hi : Waits k rest i addr code) (hspl : k.curspl = splHigh)
    (hs : Sound splHigh (k.thread t).spls (.exorcise :: .awake :: code)) :
    Safe (switched (threadSleep t addr code k)) (Does t rest k i) fun _ => False := by
  obtain ⟨k',hk,hp⟩ := threadSleep_spec (splHigh_pos hspl) hcur addr code
  rw [hk]
  exact .sleep hi hspl hs hp

theorem exec_does {i : Instr} (hcur : k.curthread = some t)
    (hs : Sound k.curspl (k.thread t).spls (i :: rest)) (hdead : t ∉ k.dead)
    (hnum : 0 < k.numthreads) : Safe (exec t rest k i) (Does t rest k i) (Fails t k i) := by
  have hn := hs.needs
  cases i with
  | splhigh => exact .own rfl rfl hn.2
  | splx =>
    obtain ⟨spl,spls,hspls,_,hs⟩ := hn
    refine .own rfl rfl ?_
    rw [hspls]
    exact hs
  | spl0 =>
    have hd : Does t rest k .spl0 (.went { k with
        curspl := 0, thread := update k.thread t (k.thread t), menuth := k.menuth }) :=
      .own rfl rfl hn.2
    rw [update_eq_self] at hd
    exact hd
  | sleep addr =>
    obtain ⟨hspl,ho,hr,hplain⟩ := hn
    have hp := hs.pending_rest (by simp)
    rw [hspl] at hr
    exact (Does.of_sleep hcur (.sleep hplain) hspl (hr.resume ho hp)).mono (fun _ hd => hd) nofun
  | yield =>
    obtain ⟨hspl,ho,hr⟩ := hn
    have hp := hs.pending_rest (by simp)
    obtain ⟨k',hk,hpick⟩ := yield_spec (splHigh_pos hspl) hcur rest
    rw [hspl] at hr
    rw [hk]
    exact .yield hspl (.quiet rfl ho hp hr) hpick
  | exit =>
    obtain ⟨k',hk,hpick⟩ := exit_spec (splHigh_pos hn.1) hcur hnum rest
    rw [hk]
    exact .exit hn.1 hpick
  | exorcise =>
    rw [Threads.exec,exorcise_eq (splHigh_pos hn.1) hcur hdead]
    exact .exorcise hn.2.2
  | awake => exact .own rfl rfl hn.2.2
  | undead => exact hn.elim
  | wakeup addr =>
    obtain ⟨k',hk,hm⟩ := threadWakeup_spec (splHigh_pos hn.1) addr
    rw [Threads.exec,hk]
    exact .wakeup hn.2.2 hm
  | onewakeup addr =>
    obtain ⟨k',hk,hm⟩ := threadOnewakeup_spec (splHigh_pos hn.1) addr
    rw [Threads.exec,hk]
    exact .onewakeup hn.2.2 hm
  | fork =>
    obtain ⟨hspl,hspls,rfl⟩ := hn
    have hr : Sound k.curspl (k.thread t).spls [.splx] := by
      rw [hspls]
      exact .splx rfl rfl .nil
    rw [Threads.exec,threadFork_eq (splHigh_pos hspl)]
    by_cases hc : k.created < totalProcesses
    · rw [if_pos hc]
      exact .fork rfl hr
    · rw [if_neg hc]
      exact .noFork hr
  | menu =>
    have hd : Does t rest k .menu (.went { k with
        curspl := k.curspl, thread := update k.thread t (k.thread t),
        menuth := some t }) := .own rfl rfl hn.2
    rw [update_eq_self] at hd
    exact hd
  | waitCount s =>
    obtain ⟨hspl,hr,r,rfl⟩ := hn
    have hp := hs.pending_rest (by simp)
    rw [Threads.exec]
    split
    · next hc =>
      rw [hspl] at hs
      exact (Does.of_sleep hcur (.count hc) hspl (hs.resume rfl hp)).mono (fun _ hd => hd) nofun
    · next hc => exact .pass (.count hc) hr
  | decCount s =>
    rw [Threads.exec]
    split
    · next hc => exact .decCount hc hn.2.2
    · next hc => exact .countP hc
  | incCount s =>
    rw [Threads.exec]
    by_cases hc : 0 < increment (k.count s)
    · rw [incCount_eq hc]
      exact .incCount hc hn.2.1 hn.2.2
    · rw [incCount_overflow hc]
      exact .countV hc
  | waitOwner l =>
    obtain ⟨hspl,hr,r,rfl⟩ := hn
    have hp := hs.pending_rest (by simp)
    rw [Threads.exec]
    split
    · next hc =>
      rw [hspl] at hs
      exact (Does.of_sleep hcur (.owner hc) hspl (hs.resume rfl hp)).mono (fun _ hd => hd) nofun
    · next hc => exact .pass (.owner (Decidable.not_not.mp hc)) hr
  | setOwner l => exact .setOwner hn.2.2
  | clearOwner l =>
    rw [Threads.exec]
    split
    · next hc => exact .clearOwner hc hn.2.1 hn.2.2.1 hn.2.2.2
    · next hc => exact .notOwner hc

end Statements

end MipsOs.Threads
