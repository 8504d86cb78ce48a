import Mathlib.Data.List.Lemmas
import MipsOs.ThreadPlaces

/-! Who sleeps on an address, in the order of the sleepers array, and how the
statements change that. -/

set_option autoImplicit false
namespace MipsOs.Threads
open Function

variable {k k' : Kernel} {t : Tid} {rest : List Instr} {addr : Addr}

def Kernel.waiters (k : Kernel) (addr : Addr) : List Tid := k.asleep.filter (k.sleepsOn addr)

theorem mem_waiters {x : Tid} :
    x ∈ k.waiters addr ↔ x ∈ k.asleep ∧ (k.thread x).sleepaddr = some addr := by
  rw [Kernel.waiters,List.mem_filter,Kernel.sleepsOn,decide_eq_true_eq]

section

variable (p : Tid → Bool) (l : List Tid)

include p l

theorem woken_all : woken p false l = l.filter p := by
  induction l with
  | nil => rfl
  | cons x l ih =>
    rw [woken,List.filter_cons,ih]
    rfl

theorem notWoken_all :
    notWoken p false l = l.filter fun x => !p x := by
  induction l with
  | nil => rfl
  | cons x l ih =>
    rw [notWoken,List.filter_cons,ih]
    cases p x <;> rfl

theorem woken_one :
    woken p true l = (l.filter p).head?.toList := by
  induction l with
  | nil => rfl
  | cons x l ih =>
    rw [woken,List.filter_cons]
    split
    · rfl
    · exact ih

theorem notWoken_one : notWoken p true l = l.eraseP p := by
  induction l with
  | nil => rfl
  | cons x l ih =>
    rw [notWoken]
    by_cases hp : p x = true
    · rw [if_pos hp,if_pos rfl,List.eraseP_cons_of_pos hp]
    · rw [if_neg hp,List.eraseP_cons_of_neg hp,ih]

end

theorem filter_eraseP (p q : Tid → Bool) (l : List Tid) (h : ∀ x, p x = true → q x = false) :
    (l.eraseP p).filter q = l.filter q := by
  induction l with
  | nil => rfl
  | cons x l ih =>
    by_cases hp : p x = true
    · rw [List.eraseP_cons_of_pos hp,List.filter_cons_of_neg (by rw [h x hp]; simp)]
    · rw [List.eraseP_cons_of_neg hp,List.filter_cons,List.filter_cons,ih]

theorem eraseP_eq_erase {p : Tid → Bool} {l : List Tid} {x : Tid}
    (h : (l.filter p).head? = some x) : l.eraseP p = l.erase x := by
  induction l with
  | nil => cases h
  | cons y l ih =>
    by_cases hp : p y = true
    · rw [List.filter_cons_of_pos hp] at h
      cases h
      rw [List.eraseP_cons_of_pos hp,List.erase_cons_head]
    · rw [List.filter_cons_of_neg hp] at h
      have hne : y ≠ x := by
        rintro rfl
        exact hp (List.mem_filter.mp (List.mem_of_mem_head? h)).2
      rw [List.eraseP_cons_of_neg hp,List.erase_cons_tail (by simpa using hne),ih h]

theorem filter_eraseP_self (p : Tid → Bool) (l : List Tid) :
    (l.eraseP p).filter p = (l.filter p).tail := by
  induction l with
  | nil => rfl
  | cons x l ih =>
    by_cases hp : p x = true
    · rw [List.eraseP_cons_of_pos hp,List.filter_cons_of_pos hp,List.tail_cons]
    · rw [List.eraseP_cons_of_neg hp,List.filter_cons_of_neg hp,List.filter_cons_of_neg hp,ih]

theorem sleepsOn_ne {a : Addr} (hne : a ≠ addr) (x : Tid) (h : k.sleepsOn addr x = true) :
    k.sleepsOn a x = false := by
  refine decide_eq_false fun ha => hne ?_
  rw [of_decide_eq_true h] at ha
  exact (Option.some.inj ha).symm

theorem Moved.waiters {ws left : List Tid} (hm : Moved ws left k k') (a : Addr) :
    k'.waiters a = left.filter (k.sleepsOn a) := by
  have hth : k'.thread = k.thread := by rw [hm.rest]
  rw [Kernel.waiters,hm.asleep]
  refine List.filter_congr fun x _ => ?_
  rw [Kernel.sleepsOn,Kernel.sleepsOn,hth]

theorem Moved.waiters_all {ws : List Tid}
    (hm : Moved ws (k.asleep.filter fun x => !k.sleepsOn addr x) k k') (a : Addr) :
    k'.waiters a = if a = addr then [] else k.waiters a := by
  rw [hm.waiters,List.filter_filter]
  split
  · next ha =>
    subst ha
    refine List.filter_eq_nil_iff.mpr fun x _ => ?_
    simp
  · next ha =>
    refine List.filter_congr fun x _ => ?_
    cases hx : k.sleepsOn addr x with
    | true => rw [sleepsOn_ne ha x hx]; rfl
    | false => simp

theorem Moved.waiters_one {ws : List Tid}
    (hm : Moved ws (k.asleep.eraseP (k.sleepsOn addr)) k k') (a : Addr) :
    k'.waiters a = if a = addr then (k.waiters a).tail else k.waiters a := by
  rw [hm.waiters]
  split
  · next ha =>
    subst ha
    exact filter_eraseP_self _ _
  · next ha => exact filter_eraseP _ _ _ fun x hx => sleepsOn_ne ha x hx

theorem sleeperLoop_zero (h : k.waiters addr = []) (n i : Nat) : sleeperLoop addr k n i = 0 := by
  induction n generalizing i with
  | zero => rfl
  | succ n ih =>
    rw [sleeperLoop]
    split
    · rfl
    · next x hx =>
      have hmem : x ∈ k.asleep := List.mem_of_getElem? (k.sleepers.getElem?_toList i ▸ hx)
      rw [if_neg,ih]
      exact fun hsleeps => List.not_mem_nil (h ▸ mem_waiters.mpr ⟨hmem,hsleeps⟩)

/-- `Moved` names the threads that go to the end of the run queue and those that stay. With room
in the queue no memory is asked for. -/
theorem wakeup_moves_sleepers (hspl : 0 < k.curspl)
    (hroom : k.ready.length + (k.waiters addr).length < k.runqueue.size) :
    (∃ k', threadWakeup addr k = .ok k' ∧ k'.kmallocs = k.kmallocs ∧
      Moved (k.waiters addr) (k.asleep.filter fun x => !k.sleepsOn addr x) k k' ∧
      threadHassleepers addr k' = .ok 0) ∧
    ∃ k', threadOnewakeup addr k = .ok k' ∧ k'.kmallocs = k.kmallocs ∧
      Moved (k.waiters addr).head?.toList (k.asleep.eraseP (k.sleepsOn addr)) k k' := by
  constructor
  · obtain ⟨k',hk',hm⟩ := threadWakeup_spec hspl addr
    rw [woken_all,notWoken_all] at hm
    have hspl' : 0 < k'.curspl := by rwa [hm.rest]
    have hnone : k'.waiters addr = [] := by rw [hm.waiters_all,if_pos rfl]
    refine ⟨k',hk',(hm.room hroom).1,hm,?_⟩
    rw [threadHassleepers,if_pos hspl',sleeperLoop_zero hnone]
  · obtain ⟨k',hk',hm⟩ := threadOnewakeup_spec hspl addr
    rw [woken_one,notWoken_one] at hm
    refine ⟨k',hk',(hm.room ?_).1,hm⟩
    have hlen : (k.waiters addr).head?.toList.length ≤ (k.waiters addr).length := by
      cases k.waiters addr <;> simp
    exact Nat.lt_of_le_of_lt (Nat.add_le_add_left hlen _) hroom

/-- Threads 0, 2 and 4 sleep on a lock, 1 and 3 on a semaphore. -/
def fiveAsleep : Kernel :=
  { boot fun _ => 0 with
    curspl := splHigh, sleepers := ⟨5,8,id,by decide⟩,
    thread := fun x => ⟨some (if x % 2 = 0 then .lock 7 else .sem 7),[],[],0⟩ }

theorem wakeup_moves_every_second : ∃ k', threadWakeup (.lock 7) fiveAsleep = .ok k' ∧
    k'.asleep = [1,3] ∧ k'.ready = [0,2,4] := by
  obtain ⟨⟨k',hk',-,hm,-⟩,-⟩ :=
    @wakeup_moves_sleepers fiveAsleep (.lock 7) (by decide) (by decide)
  exact ⟨k',hk',hm.asleep,hm.ready⟩

section Statements

def Progress.state : Progress → Kernel
  | .went k => k
  | .switched k => k

theorem waiters_congr (k' : Kernel) (ha : k'.asleep = k.asleep)
    (hth : ∀ x ∈ k.asleep, (k'.thread x).sleepaddr = (k.thread x).sleepaddr) (a : Addr) :
    k'.waiters a = k.waiters a := by
  rw [Kernel.waiters,ha]
  refine List.filter_congr fun x hx => ?_
  rw [Kernel.sleepsOn,Kernel.sleepsOn,hth x hx]

theorem Picked.waiters (hp : Picked k k') (a : Addr) : k'.waiters a = k.waiters a := by
  cases hp with
  | idle | next => rfl

theorem BaseIn.waiters_update (hb : BaseIn t rest k) (k' : Kernel) {th : Thread}
    (ha : k'.asleep = k.asleep) (hth : k'.thread = update k.thread t th) (a : Addr) :
    k'.waiters a = k.waiters a := by
  refine waiters_congr k' ha (fun x hx => ?_) a
  have hne : x ≠ t := by
    rintro rfl
    exact hb.placed.cur_not_parked hb.cur (List.mem_append_right _ hx)
  rw [hth,update_of_ne hne]

theorem BaseIn.waiters_slept (hb : BaseIn t rest k) (code : List Instr) (a : Addr) :
    (k.slept t addr code).waiters a =
      if a = addr then k.waiters a ++ [t] else k.waiters a := by
  have hnot : t ∉ k.asleep := fun hx =>
    hb.placed.cur_not_parked hb.cur (List.mem_append_right _ hx)
  have hself : (k.slept t addr code).sleepsOn a t = decide (a = addr) := by
    rw [Kernel.sleepsOn]
    have hth : ((k.slept t addr code).thread t).sleepaddr = some addr := by
      show (update k.thread t _ t).sleepaddr = _
      rw [update_self]
    rw [hth]
    exact decide_eq_decide.mpr ⟨fun h => (Option.some.inj h).symm,fun h => by rw [h]⟩
  have hold : k.asleep.filter ((k.slept t addr code).sleepsOn a) = k.waiters a := by
    refine List.filter_congr fun x hx => ?_
    have hne : x ≠ t := fun he => hnot (he ▸ hx)
    have hth : (k.slept t addr code).thread x = k.thread x := update_of_ne hne _ _
    rw [Kernel.sleepsOn,Kernel.sleepsOn,hth]
  rw [Kernel.waiters,slept_asleep,List.filter_append,hold]
  by_cases ha : a = addr
  · rw [if_pos ha,List.filter_cons_of_pos (by rw [hself]; exact decide_eq_true ha)]
    rfl
  · rw [if_neg ha,List.filter_cons_of_neg (by rw [hself,decide_eq_false ha]; simp)]
    exact List.append_nil _

theorem BaseIn.waiters_forked (hb : BaseIn t rest k) (a : Addr) :
    k.forked.waiters a = k.waiters a := by
  have ha : k.forked.asleep = k.asleep := rfl
  refine waiters_congr k.forked ha (fun x hx => ?_) a
  have hmem : x ∈ k.seated := by
    rw [Kernel.seated]
    exact List.mem_append_right _ hx
  have hlt : x ≠ k.created := by
    rintro rfl
    exact Nat.lt_irrefl _ ((hb.placed.seated_iff k.created).mp hmem).1
  have hth : k.forked.thread x = k.thread x := update_of_ne hlt _ _
  rw [hth]

variable {i : Instr} {pr : Progress} {x : Tid}

/-- What a statement does to the sleepers on one address: nothing, or it is a wakeup, or its
thread goes to sleep there. -/
theorem Does.waiters (hb : BaseIn t (i :: rest) k) (hd : Does t rest k i pr) (a : Addr) :
    (pr.state.waiters a = k.waiters a ∧ i ≠ .wakeup a ∧ i ≠ .onewakeup a ∧
      ∀ code, ¬ Waits k rest i a code) ∨
    (i = .wakeup a ∧ pr.state.waiters a = []) ∨
    (i = .onewakeup a ∧ pr.state.waiters a = (k.waiters a).tail) ∨
    (∃ code, Waits k rest i a code ∧ pr.state.waiters a = k.waiters a ++ [t]) := by
  cases hd with
  | own hi _ _ =>
    refine .inl ⟨hb.waiters_update _ (by rfl) (by rfl) a,?_,?_,?_⟩
    · rintro rfl
      cases hi
    · rintro rfl
      cases hi
    · rintro code hw
      cases hw <;> cases hi
  | pass hi _ =>
    refine .inl ⟨rfl,?_,?_,?_⟩
    · rintro rfl
      cases hi
    · rintro rfl
      cases hi
    · rintro code hw
      cases hw with
      | sleep _ => cases hi
      | count h => cases hi with | count h' => exact h' h
      | owner h => cases hi with | owner h' => exact h h'
  | exorcise | noFork | decCount | incCount | setOwner | clearOwner =>
    exact .inl ⟨rfl,nofun,nofun,nofun⟩
  | @wakeup addr _ _ hm =>
    rw [notWoken_all] at hm
    have hw := hm.waiters_all a
    by_cases ha : a = addr
    · subst ha
      exact .inr (.inl ⟨rfl,hw.trans (if_pos rfl)⟩)
    · refine .inl ⟨hw.trans (if_neg ha),fun he => ha ?_,nofun,nofun⟩
      cases he
      rfl
  | @onewakeup addr _ _ hm =>
    rw [notWoken_one] at hm
    have hw := hm.waiters_one a
    by_cases ha : a = addr
    · subst ha
      exact .inr (.inr (.inl ⟨rfl,hw.trans (if_pos rfl)⟩))
    · refine .inl ⟨hw.trans (if_neg ha),nofun,fun he => ha ?_,nofun⟩
      cases he
      rfl
  | fork _ _ => exact .inl ⟨hb.waiters_forked a,nofun,nofun,nofun⟩
  | @sleep _ addr code k' hi _ _ hpick =>
    have hw : k'.waiters a = if a = addr then k.waiters a ++ [t] else k.waiters a :=
      (hpick.waiters a).trans (hb.waiters_slept code a)
    by_cases ha : a = addr
    · subst ha
      exact .inr (.inr (.inr ⟨code,hi,hw.trans (if_pos rfl)⟩))
    · refine .inl ⟨hw.trans (if_neg ha),?_,?_,?_⟩
      · rintro rfl
        cases hi
      · rintro rfl
        cases hi
      · intro code' hi'
        cases hi with
        | sleep | count | owner => cases hi'; exact ha rfl
  | @yield k' _ _ hpick =>
    refine .inl ⟨?_,nofun,nofun,nofun⟩
    have hy : (k.yielded t rest).waiters a = k.waiters a := hb.waiters_update _ (by rfl) (by rfl) a
    exact (hpick.waiters a).trans hy
  | @exit k' _ hpick =>
    refine .inl ⟨?_,nofun,nofun,nofun⟩
    have hy : (k.buried t).waiters a = k.waiters a := hb.waiters_update _ (by rfl) (by rfl) a
    exact (hpick.waiters a).trans hy

theorem Does.frame (hd : Does t rest k i pr) (hne : x ≠ t)
    (hlt : x ≠ k.created) : pr.state.thread x = k.thread x := by
  have hpicked : ∀ {k₁ k' : Kernel}, Picked k₁ k' → k₁.thread x = k.thread x →
      k'.thread x = k.thread x := by
    intro k₁ k' hp h
    cases hp with
    | idle | next => exact h
  cases hd with
  | own _ _ _ => exact update_of_ne hne _ _
  | pass | exorcise | noFork | decCount | incCount | setOwner | clearOwner => rfl
  | @wakeup _ k' _ hm | @onewakeup _ k' _ hm =>
    show k'.thread x = _
    rw [hm.rest]
  | fork _ _ => exact update_of_ne hlt _ _
  | sleep _ _ _ hpick | yield _ _ hpick | exit _ hpick => exact hpicked hpick (update_of_ne hne _ _)

theorem Does.history (hd : Does t rest k i pr) :
    k.created ≤ pr.state.created ∧
      (pr.state.exited = k.exited ∨ pr.state.exited = t :: k.exited) := by
  have hpicked : ∀ {k₁ k' : Kernel}, Picked k₁ k' →
      k'.created = k₁.created ∧ k'.exited = k₁.exited := by
    intro k₁ k' hp
    cases hp with
    | idle | next => exact ⟨rfl,rfl⟩
  cases hd with
  | @wakeup _ k' _ hm | @onewakeup _ k' _ hm =>
    show k.created ≤ k'.created ∧ (k'.exited = _ ∨ k'.exited = _)
    rw [hm.rest]
    exact ⟨Nat.le_refl _,.inl rfl⟩
  | fork _ _ => exact ⟨Nat.le_succ _,.inl rfl⟩
  | sleep _ _ _ hpick | yield _ _ hpick =>
    exact ⟨Nat.le_of_eq (hpicked hpick).1.symm,.inl (hpicked hpick).2⟩
  | exit _ hpick => exact ⟨Nat.le_of_eq (hpicked hpick).1.symm,.inr (hpicked hpick).2⟩
  | _ => exact ⟨Nat.le_refl _,.inl rfl⟩

inductive Resumes (k : Kernel) (rest : List Instr) : Instr → List Instr → Prop
  | sleep {i : Instr} {addr : Addr} {code : List Instr} (h : Waits k rest i addr code) :
      Resumes k rest i (.exorcise :: .awake :: code)
  | yield : Resumes k rest .yield (.exorcise :: rest)

/-- The threads that the statement leaves waiting, and the one it has switched to. -/
def Progress.others : Progress → List Tid
  | .went k => k.ready ++ k.asleep
  | .switched k => k.seated

theorem Picked.seated (hp : Picked k k') (hcur : k.curthread = none) :
    k'.seated = k.ready ++ k.asleep := by
  cases hp with
  | idle _ =>
    rw [Kernel.seated,hcur]
    rfl
  | @next x q hr _ =>
    rw [hr]
    rfl

theorem Picked.thread (hp : Picked k k') : k'.thread = k.thread := by
  cases hp with
  | idle | next => rfl

theorem Picked.created (hp : Picked k k') : k'.created = k.created := by
  cases hp with
  | idle | next => rfl

theorem Picked.log (hp : Picked k k') : k'.log = k.log := by
  cases hp with
  | idle | next => rfl

/-- Those threads were waiting before and are as they were; or it is the thread itself; or it is
new. -/
theorem Does.others (hb : BaseIn t (i :: rest) k) (hd : Does t rest k i pr) (hx : x ∈ pr.others) :
    (x ∈ k.ready ++ k.asleep ∧ pr.state.thread x = k.thread x) ∨
    (x = t ∧ Resumes k rest i (pr.state.thread x).code) ∨ pr.state.thread x = newThread := by
  have hpark := hb.placed.cur_not_parked hb.cur
  have hframe : x ∈ k.ready ++ k.asleep → pr.state.thread x = k.thread x := by
    intro hm
    refine hd.frame (fun he => hpark (he ▸ hm)) fun he => ?_
    have hs : x ∈ k.seated := by
      rw [seated_cur hb.cur]
      exact List.mem_cons_of_mem t hm
    rw [he] at hs
    exact Nat.lt_irrefl _ ((hb.placed.seated_iff k.created).mp hs).1
  have hold : x ∈ k.ready ++ k.asleep →
      (x ∈ k.ready ++ k.asleep ∧ pr.state.thread x = k.thread x) ∨
      (x = t ∧ Resumes k rest i (pr.state.thread x).code) ∨ pr.state.thread x = newThread :=
    fun hm => .inl ⟨hm,hframe hm⟩
  cases hd with
  | own | pass | exorcise | noFork | decCount | incCount | setOwner | clearOwner => exact hold hx
  | @wakeup addr k' _ hm | @onewakeup addr k' _ hm =>
    refine hold ?_
    have hx : x ∈ k'.ready ++ k'.asleep := hx
    rw [hm.ready,hm.asleep,List.append_assoc] at hx
    exact ((woken_perm _ _ _).append_left _).mem_iff.mp hx
  | fork _ _ =>
    have hx : x ∈ k.forked.ready ++ k.asleep := hx
    rw [forked_ready] at hx
    by_cases he : x = k.created
    · subst he
      exact .inr (.inr (update_self _ _ _))
    · refine hold ?_
      simpa [he] using hx
  | @sleep _ addr code k' hi _ _ hpick =>
    have hx : x ∈ k'.seated := hx
    rw [hpick.seated rfl,slept_asleep] at hx
    have hx : x ∈ k.ready ++ (k.asleep ++ [t]) := hx
    by_cases he : x = t
    · subst he
      refine .inr (.inl ⟨rfl,?_⟩)
      show Resumes k rest _ (k'.thread x).code
      rw [(congrFun hpick.thread x).trans (update_self _ _ _)]
      exact .sleep hi
    · refine hold ?_
      simpa [he] using hx
  | @yield k' _ _ hpick =>
    have hx : x ∈ k'.seated := hx
    rw [hpick.seated rfl,yielded_ready] at hx
    have hx : x ∈ k.ready ++ [t] ++ k.asleep := hx
    by_cases he : x = t
    · subst he
      refine .inr (.inl ⟨rfl,?_⟩)
      show Resumes k rest _ (k'.thread x).code
      rw [(congrFun hpick.thread x).trans (update_self _ _ _)]
      exact .yield
    · refine hold ?_
      simpa [he] using hx
  | @exit k' _ hpick =>
    have hx : x ∈ k'.seated := hx
    rw [hpick.seated rfl] at hx
    exact hold hx

theorem IdleDoes.waiters {i : Irq} (hd : IdleDoes k i k') (a : Addr) :
    (k'.waiters a = k.waiters a ∧ ∀ s, a = .sem s → i ≠ .V s) ∨ k'.waiters a = [] := by
  cases hd with
  | nothing => exact .inl ⟨rfl,nofun⟩
  | @wakeup _ addr _ hi hm =>
    rw [notWoken_all] at hm
    have hw := hm.waiters_all a
    by_cases ha : a = addr
    · exact .inr (hw.trans (if_pos ha))
    · refine .inl ⟨hw.trans (if_neg ha),?_⟩
      rintro s _ rfl
      cases hi
  | @V s _ _ hm =>
    rw [notWoken_all] at hm
    have hw := Moved.waiters_all (k := k.raised s) hm a
    by_cases ha : a = .sem s
    · exact .inr (hw.trans (if_pos ha))
    · refine .inl ⟨hw.trans (if_neg ha),?_⟩
      rintro s' rfl he
      cases he
      exact ha rfl

end Statements

end MipsOs.Threads
