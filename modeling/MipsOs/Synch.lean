import Mathlib.Algebra.BigOperators.Group.Finset.Basic
import MipsOs.Sleepers

/-! Semaphores and locks of thread/synch.c. The count of a semaphore is what has been put in and not
taken out, and whoever sleeps on it finds it empty. The owner of a lock is the one thread between
lock_acquire, or the return of cv_wait, and its release, and nobody sleeps on a lock that is free. -/

set_option autoImplicit false
namespace MipsOs.Threads
open Function Runs

variable {k k' k₀ : Kernel} {t : Tid} {rest : List Instr} {a : Act}

theorem increment_of_lt {n : Int} (h0 : 0 ≤ n) (h : n + 1 < 2^31) : increment n = n + 1 := by
  have hu := toU32_of_lt (i := n + 1) (by omega) (by omega)
  have ht := toInt32_of_lt (n := toU32 (n + 1)) (by omega)
  unfold increment
  exact ht.trans hu

/-- An int that is still positive after ++ has not overflowed. -/
theorem increment_eq {n : Int} (h0 : 0 ≤ n) (h : n < 2^31) (hp : 0 < increment n) :
    increment n = n + 1 ∧ n + 1 < 2^31 := by
  have hlt : n + 1 < 2^31 := by
    refine Int.not_le.mp fun hge => ?_
    have hu := toU32_of_lt (i := n + 1) (by omega) (by omega)
    have ht := toInt32_of_ge (n := toU32 (n + 1)) (by omega) (by omega)
    unfold increment at hp
    omega
  exact ⟨increment_of_lt h0 hlt,hlt⟩

/-- Between two statements. A V that has just counted up is about to wake up the sleepers. -/
structure Sems (rest : List Instr) (k : Kernel) : Prop where
  nonneg : ∀ s, 0 ≤ k.count s
  small : ∀ s, k.count s < 2^31
  asleep : ∀ s, k.waiters (.sem s) ≠ [] →
    k.count s = 0 ∨ rest.head? = some (.wakeup (.sem s))

theorem Moved.count {ws left : List Tid} (hm : Moved ws left k k') : k'.count = k.count := by
  rw [hm.rest]

theorem Picked.count (hp : Picked k k') : k'.count = k.count := by
  cases hp with
  | idle | next => rfl

theorem Sems.congr {rest' : List Instr} (h : k'.count = k.count) (hs : Sems rest k)
    (ha : ∀ s, k'.waiters (.sem s) ≠ [] →
      k.count s = 0 ∨ rest'.head? = some (.wakeup (.sem s))) : Sems rest' k' where
  nonneg s := by rw [h]; exact hs.nonneg s
  small s := by rw [h]; exact hs.small s
  asleep s := by rw [h]; exact ha s

section Statements

variable {i : Instr} {pr : Progress} {s : Nat}

theorem Does.sems (hd : Does t rest k i pr) :
    (pr.state.count = k.count ∧ ∀ s, i ≠ .incCount s ∧ i ≠ .decCount s) ∨
    (∃ s, i = .decCount s ∧ 0 < k.count s ∧ pr = .went (k.lowered s)) ∨
    (∃ s, i = .incCount s ∧ 0 < increment (k.count s) ∧ pr = .went (k.raised s) ∧
      ∃ r, rest = .wakeup (.sem s) :: r) := by
  cases hd with
  | own hi _ _ | pass hi _ =>
    refine .inl ⟨rfl,fun s => ?_⟩
    constructor <;> rintro rfl <;> cases hi
  | exorcise | fork | noFork | setOwner | clearOwner => exact .inl ⟨rfl,fun _ => ⟨nofun,nofun⟩⟩
  | wakeup _ hm | onewakeup _ hm => exact .inl ⟨hm.count,fun _ => ⟨nofun,nofun⟩⟩
  | decCount hc _ => exact .inr (.inl ⟨_,rfl,hc,rfl⟩)
  | incCount hc _ hr => exact .inr (.inr ⟨_,rfl,hc,rfl,hr⟩)
  | sleep hi _ _ hpick =>
    refine .inl ⟨hpick.count,fun s => ?_⟩
    constructor <;> rintro rfl <;> cases hi
  | yield _ _ hpick | exit _ hpick => exact .inl ⟨hpick.count,fun _ => ⟨nofun,nofun⟩⟩

theorem lowered_count (k : Kernel) (s s' : Nat) :
    (k.lowered s).count s' = if s' = s then k.count s - 1 else k.count s' :=
  update_apply k.count s (k.count s - 1) s'

theorem Sems.raised_count (h : Sems rest k) (hc : 0 < increment (k.count s)) (s' : Nat) :
    (k.raised s).count s' = if s' = s then k.count s + 1 else k.count s' := by
  rw [← (increment_eq (h.nonneg s) (h.small s) hc).1]
  exact update_apply k.count s (increment (k.count s)) s'

theorem Sems.lowered (h : Sems (.decCount s :: rest) k) (hc : 0 < k.count s) :
    Sems rest (k.lowered s) := by
  refine ⟨fun s' => ?_,fun s' => ?_,fun s' hw => ?_⟩
  · have h0 := h.nonneg s'
    rw [lowered_count]
    split <;> omega
  · have hlt := h.small s
    have hlt' := h.small s'
    rw [lowered_count]
    split <;> omega
  · rcases h.asleep s' hw with hz | hz
    · by_cases hs : s' = s
      · subst hs
        omega
      · rw [lowered_count,if_neg hs]
        exact .inl hz
    · cases hz

theorem Sems.raised {rest' : List Instr} (h : Sems rest k) (hc : 0 < increment (k.count s))
    (ha : ∀ s', k.waiters (.sem s') ≠ [] → s' ≠ s → k.count s' = 0)
    (hr : rest'.head? = some (.wakeup (.sem s))) : Sems rest' (k.raised s) := by
  have hlt := (increment_eq (h.nonneg s) (h.small s) hc).2
  refine ⟨fun s' => ?_,fun s' => ?_,fun s' hw => ?_⟩
  · have h0 := h.nonneg s'
    have h1 := h.nonneg s
    rw [h.raised_count hc]
    split <;> omega
  · have hs := h.small s'
    rw [h.raised_count hc]
    split <;> omega
  · by_cases hs : s' = s
    · subst hs
      exact .inr hr
    · rw [h.raised_count hc,if_neg hs]
      exact .inl (ha s' hw hs)

/-- Unless it is about to be woken up, whoever sleeps on a semaphore finds it empty. -/
theorem Sems.empty (h : Sems (i :: rest) k)
    (hw : k.waiters (.sem s) ≠ []) (hi : i ≠ .wakeup (.sem s)) : k.count s = 0 :=
  (h.asleep s hw).resolve_right fun hz => hi (Option.some.inj hz)

theorem Sems.keeps (hb : BaseIn t (i :: rest) k)
    (h : Sems (i :: rest) k) (hd : Does t rest k i pr) : pr.Keeps (Sems rest) (Sems []) := by
  -- What the sleepers find after a statement that leaves the semaphores alone.
  have hzero : ∀ s, pr.state.waiters (.sem s) ≠ [] → k.count s = 0 := by
    intro s hw
    rcases hd.waiters hb (.sem s) with ⟨he,hi,_,_⟩ | ⟨_,he⟩ | ⟨rfl,he⟩ | ⟨code,hi,_⟩
    · rw [he] at hw
      exact h.empty hw hi
    · exact (hw he).elim
    · refine h.empty (fun hn => hw ?_) nofun
      rw [he,hn]
      rfl
    · cases hi with
      | sleep hp => cases hp
      | count hc => exact hc
  rcases hd.sems with ⟨hs,_⟩ | ⟨s,rfl,hc,rfl⟩ | ⟨s,rfl,hc,rfl,r,rfl⟩
  · cases pr with
    | went | switched => exact h.congr hs fun s hw => .inl (hzero s hw)
  · exact h.lowered hc
  · exact h.raised hc (fun s' hw _ => h.empty hw nofun) rfl

theorem Sems.idleKeeps {i : Irq} (h : Sems [] k) (hd : IdleDoes k i k') : Sems [] k' := by
  have hempty : ∀ s, k.waiters (.sem s) ≠ [] → k.count s = 0 :=
    fun s hw => (h.asleep s hw).resolve_right nofun
  have hw := hd.waiters
  cases hd with
  | nothing => exact h
  | wakeup _ hm =>
    refine h.congr hm.count fun s hs => .inl ?_
    rcases hw (.sem s) with ⟨he,_⟩ | he
    · rw [he] at hs
      exact hempty s hs
    · exact (hs he).elim
  | @V s _ hc hm =>
    have hr : Sems [.wakeup (.sem s)] (k.raised s) :=
      h.raised hc (fun s' hs _ => hempty s' hs) rfl
    refine hr.congr hm.count fun s' hs => .inl ?_
    have hne : s' ≠ s := by
      rintro rfl
      rcases hw (.sem s') with ⟨_,hi⟩ | he
      · exact hi s' rfl rfl
      · exact hs he
    rcases hw (.sem s') with ⟨he,_⟩ | he
    · rw [he] at hs
      exact (update_of_ne hne _ _).trans (hempty s' hs)
    · exact (hs he).elim

theorem Sound.take {lvl : Nat} {spls : List Nat}
    (h : Sound lvl spls (i :: rest)) (hr : rest.head? = some (.decCount s)) :
    i = .waitCount s := by
  obtain ⟨r,rfl⟩ := List.head?_eq_some_iff.mp hr
  cases h with
  | splhigh ho _ | splx ho _ _ | spl0 ho _ _ | menu ho _ _ | quiet _ ho _ _ => cases ho
  | waitCount _ => rfl

end Statements

section Calls

/-- How often the threads have still to execute a statement in the calls they are in. -/
def Kernel.inside (k : Kernel) (j : Instr) : Nat :=
  ∑ x ∈ Finset.range k.created, (k.thread x).code.count j

def Kernel.insideBut (t : Tid) (k : Kernel) (j : Instr) : Nat :=
  ∑ x ∈ (Finset.range k.created).erase t, (k.thread x).code.count j

/-- What a thread has still to take out of a semaphore, less what it has to put in. -/
def owing (s : Nat) (code : List Instr) : Int := code.count (.decCount s) - code.count (.incCount s)

def Kernel.owed (k : Kernel) (s : Nat) : Int := k.inside (.decCount s) - k.inside (.incCount s)

def Kernel.owedBut (t : Tid) (k : Kernel) (s : Nat) : Int :=
  k.insideBut t (.decCount s) - k.insideBut t (.incCount s)

/-- What the calls put into a semaphore, less what they take out. -/
def net (s : Nat) (acts : List Act) : Int :=
  acts.count (.call (.V s)) + acts.count (.irq (.V s)) - acts.count (.call (.P s))

variable {i j : Instr} {pr : Progress} {code : List Instr} {s : Nat}

theorem net_cons (s : Nat) (a : Act) (acts : List Act) :
    net s (a :: acts) = net s [a] + net s acts := by
  simp only [net,List.count_cons,List.count_nil]
  omega

theorem inside_eq (ht : t < k.created) :
    k.inside j = (k.thread t).code.count j + k.insideBut t j :=
  (Finset.add_sum_erase _ _ (Finset.mem_range.mpr ht)).symm

theorem owed_eq (ht : t < k.created) (s : Nat) :
    k.owed s = owing s (k.thread t).code + k.owedBut t s := by
  simp only [Kernel.owed,Kernel.owedBut,owing,inside_eq ht]
  omega

theorem owed_congr (hc : k'.created = k.created) (ht : k'.thread = k.thread) :
    k'.owed s = k.owed s := by
  simp only [Kernel.owed,Kernel.inside,hc,ht]

theorem Does.counts (hs : Sems (i :: rest) k) (hd : Does t rest k i pr) (s : Nat) :
    pr.state.count s + owing s (i :: rest) = k.count s + owing s rest := by
  rcases hd.sems with ⟨hc,hi⟩ | ⟨s',rfl,_,rfl⟩ | ⟨s',rfl,hc,rfl,_⟩
  · rw [hc,owing,List.count_cons_of_ne (hi s).2,List.count_cons_of_ne (hi s).1,owing]
  · show (k.lowered s').count s + _ = _
    rw [lowered_count]
    by_cases h : s = s'
    · subst h
      simp [owing]
      omega
    · simp [owing,h,Ne.symm h]
  · show (k.raised s').count s + _ = _
    rw [hs.raised_count hc]
    by_cases h : s = s'
    · subst h
      simp [owing]
      omega
    · simp [owing,h,Ne.symm h]

theorem Does.insideBut (hb : BaseIn t (i :: rest) k) (hd : Does t rest k i pr) (hj : j ≠ .spl0) :
    pr.state.insideBut t j = k.insideBut t j := by
  have hsame : pr.state.created = k.created → pr.state.insideBut t j = k.insideBut t j := by
    intro hc
    refine Finset.sum_congr (by rw [hc]) fun x hx => ?_
    obtain ⟨hne,hlt⟩ := Finset.mem_erase.mp hx
    rw [hd.frame hne (Nat.ne_of_lt (Finset.mem_range.mp hlt))]
  cases hd with
  | fork _ _ =>
    have hne : k.created ≠ t := Nat.ne_of_gt (hb.placed.cur_live hb.cur).1
    have hnew : newThread.code.count j = 0 := List.count_cons_of_ne hj.symm
    show ∑ x ∈ (Finset.range (k.created + 1)).erase t,
      (update k.thread k.created newThread x).code.count j = _
    rw [Finset.range_add_one,Finset.erase_insert_of_ne hne,Finset.sum_insert (by simp),update_self,
      hnew,Nat.zero_add]
    refine Finset.sum_congr rfl fun x hx => ?_
    rw [update_of_ne (Nat.ne_of_lt (Finset.mem_range.mp (Finset.mem_erase.mp hx).2))]
  | @wakeup _ k' _ hm | @onewakeup _ k' _ hm =>
    refine hsame ?_
    show k'.created = _
    rw [hm.rest]
  | sleep _ _ _ hpick | yield _ _ hpick | exit _ hpick => exact hsame hpick.created
  | _ => exact hsame rfl

theorem Does.stored {α : Type} {f : List Instr → α} (hb : BaseIn t (i :: rest) k)
    (hf : ∀ code, Resumes k rest i code → f code = f rest) (he : f [.exorcise,.undead] = f [])
    (hd : Does t rest k i (.switched k')) : f (k'.thread t).code = f rest := by
  cases hd with
  | sleep hi _ _ hpick =>
    rw [(congrFun hpick.thread t).trans (update_self _ _ _)]
    exact hf _ (.sleep hi)
  | yield _ _ hpick =>
    rw [(congrFun hpick.thread t).trans (update_self _ _ _)]
    exact hf _ .yield
  | exit _ hpick =>
    rw [(congrFun hpick.thread t).trans (update_self _ _ _),hb.sound.needs.2]
    exact he

theorem owing_resumes (h : Resumes k rest i code) : owing s code = owing s rest := by
  cases h with
  | sleep hw => cases hw <;> simp [owing]
  | yield => simp [owing]

theorem owing_starts (hs : Starts k t a code) :
    owing s code + net s [a] = owing s (k.thread t).code := by
  cases hs with
  | call c _ hc =>
    rw [hc]
    cases c with
    | P | V => simp [owing,net,Call.code,Threads.P,Threads.V,List.count_cons]
    | exit => cases k.menuth == some t <;> rfl
    | _ => rfl
  | run _ => exact Int.add_zero _
  | irq i _ =>
    cases i with
    | V => simp [owing,net,trap,Irq.code,Threads.V,List.count_cons]; omega
    | hardclock second => cases second <;> simp [owing,net,trap,Irq.code,hardclock,threadYield]
    | wakeup => simp [owing,net,trap,Irq.code]

end Calls

section Actions

def Raises (a : Act) (s : Nat) : Prop := a = .call (.V s) ∨ a = .irq (.V s)

/-- Between two actions; `n` is what a semaphore was made with and the calls have put into it. -/
structure SemOut (n : Nat → Int) (k : Kernel) : Prop where
  sems : Sems [] k
  balance : ∀ s, k.count s = n s + k.owed s

structure SemIn (n : Nat → Int) (k₀ : Kernel) (a : Act) (t : Tid) (rest : List Instr)
    (k : Kernel) : Prop where
  sems : Sems rest k
  balance : ∀ s, k.count s = n s + owing s rest + k.owedBut t s
  take : ∀ s, rest.head? = some (.decCount s) → 0 < k.count s
  raise : ∀ s, .incCount s ∈ rest → Raises a s ∧ k.count s ≤ k₀.count s

variable {n : Nat → Int} {s : Nat} {code : List Instr} {i : Instr}

theorem not_mem_pending (h : pending rest = true) : .incCount s ∉ rest := by
  intro hm
  have hp := List.all_eq_true.mp h _ hm
  cases hp

/-- Only V has code that counts up. -/
theorem raises_of_starts (hl : pending (k.thread t).code = true)
    (ha : Starts k t a code) (hm : .incCount s ∈ code) : Raises a s := by
  cases ha with
  | call c _ _ =>
    cases c with
    | V s' =>
      have hs : s = s' := by simpa [Call.code,Threads.V] using hm
      rw [hs]
      exact .inl rfl
    | fork => simp [Call.code] at hm
    | exit =>
      refine (not_mem_pending ?_ hm).elim
      cases k.menuth == some t <;> rfl
    | _ => exact (not_mem_pending rfl hm).elim
  | run _ => exact (not_mem_pending hl hm).elim
  | irq i _ =>
    rcases List.mem_append.mp hm with hm | hm
    · cases i with
      | V s' =>
        have hs : s = s' := by simpa [trap,Irq.code,Threads.V] using hm
        rw [hs]
        exact .inr rfl
      | hardclock second =>
        refine (not_mem_pending ?_ hm).elim
        cases second <;> rfl
      | wakeup _ => exact (not_mem_pending rfl hm).elim
    · exact (not_mem_pending hl hm).elim

theorem SemOut.start (hb : Base k) (h : SemOut n k) (hcur : k.curthread = some t)
    (ha : Starts k t a code) : SemIn (fun s => n s + net s [a]) k a t code k := by
  have hl := hb.running t hcur
  refine ⟨h.sems.congr rfl fun s hw => .inl ?_,fun s => ?_,fun s hr => ?_,fun s hm => ?_⟩
  · exact (h.sems.asleep s hw).resolve_right nofun
  · have hbal := h.balance s
    have howes := owing_starts (s := s) ha
    rw [owed_eq (hb.placed.cur_live hcur).1] at hbal
    omega
  · have ho := opens_of_starts hl.opens ha
    obtain ⟨r,rfl⟩ := List.head?_eq_some_iff.mp hr
    cases ho
  · exact ⟨raises_of_starts hl.pending ha hm,Int.le_refl _⟩

theorem SemIn.keeps {pr : Progress} (hb : BaseIn t (i :: rest) k)
    (h : SemIn n k₀ a t (i :: rest) k) (hd : Does t rest k i pr) :
    pr.Keeps (SemIn n k₀ a t rest) (SemOut n) := by
  have hs := h.sems.keeps hb hd
  have hbal : ∀ s, pr.state.count s = n s + owing s rest + pr.state.owedBut t s := by
    intro s
    have hb₀ := h.balance s
    have hc := hd.counts h.sems s
    rw [Kernel.owedBut,hd.insideBut hb (by simp),hd.insideBut hb (by simp)]
    rw [Kernel.owedBut] at hb₀
    omega
  cases pr with
  | switched k' =>
    refine ⟨hs,fun s => ?_⟩
    have hlt : t < k'.created := Nat.lt_of_lt_of_le (hb.placed.cur_live hb.cur).1 hd.history.1
    rw [owed_eq hlt,hd.stored hb (fun _ => owing_resumes) rfl,← Int.add_assoc]
    exact hbal s
  | went k' =>
    refine ⟨hs,hbal,fun s hr => ?_,fun s hm => ?_⟩
    · obtain rfl := hb.sound.take hr
      have hn := h.sems.nonneg s
      cases hd with
      | own hi _ _ => cases hi
      | pass hi _ => cases hi with | count hc => omega
    · obtain ⟨ha,hle⟩ := h.raise s (List.mem_cons_of_mem i hm)
      refine ⟨ha,?_⟩
      rcases hd.sems with ⟨hsame,_⟩ | ⟨s',rfl,_,hpr⟩ | ⟨s',rfl,_,_,r,rfl⟩
      · rw [show k'.count = k.count from hsame]
        exact hle
      · cases hpr
        have hcount := update_apply k.count s' (k.count s' - 1) s
        show update k.count s' (k.count s' - 1) s ≤ k₀.count s
        rw [hcount]
        split
        · next he =>
          subst he
          omega
        · exact hle
      · have hp := hb.sound.pending_rest nofun
        exact (not_mem_pending hp hm).elim

theorem SemIn.stop (hb : BaseIn t rest k) (h : SemIn n k₀ a t rest k)
    (he : rest = [] ∨ k.curspl = 0) :
    SemOut n (k.left t rest) := by
  refine ⟨h.sems.congr (by rfl) fun s hw => .inl ?_,fun s => ?_⟩
  · have hw' : k.waiters (.sem s) ≠ [] := by
      rwa [hb.waiters_update _ (by rfl) (by rfl)] at hw
    refine (h.sems.asleep s hw').resolve_right fun hr => ?_
    obtain ⟨r,rfl⟩ := List.head?_eq_some_iff.mp hr
    exact absurd (hb.sound.needs.1.symm.trans (he.resolve_left nofun)) (by decide)
  · have hlt : t < k.created := (hb.placed.cur_live hb.cur).1
    have hth : (k.left t rest).thread t = _ := update_self _ _ _
    have hbut : ∀ j, (k.left t rest).insideBut t j = _ := fun j =>
      Finset.sum_congr rfl fun x hx =>
        congrArg (fun th : Thread => th.code.count j) (update_of_ne (Finset.ne_of_mem_erase hx) _ _)
    rw [owed_eq (k := k.setThread t _) hlt,hth,Kernel.owedBut,hbut,hbut,← Int.add_assoc]
    exact h.balance s

/-- The assertion in P does not fail, and the one in V only when the count would overflow. -/
def SemFails (k : Kernel) (a : Act) (p : Panic) : Prop :=
  p ≠ .countP ∧ (p = .countV → ∃ s, Raises a s ∧ k.count s + 1 = 2^31)

theorem Sems.overflow (h : Sems rest k) (hc : ¬ 0 < increment (k.count s)) :
    2^31 ≤ k.count s + 1 := by
  refine Int.not_lt.mp fun hlt => hc ?_
  have h0 := h.nonneg s
  rw [increment_of_lt h0 hlt]
  omega

theorem SemIn.fails {p : Panic} (h₀ : Sems [] k₀) (h : SemIn n k₀ a t (i :: rest) k)
    (hf : Fails t k i p) : SemFails k₀ a p := by
  cases hf with
  | @countP s hc => exact (hc (h.take s rfl)).elim
  | @countV s hc =>
    refine ⟨nofun,fun _ => ⟨s,?_⟩⟩
    obtain ⟨ha,hle⟩ := h.raise s List.mem_cons_self
    have ho := h.sems.overflow hc
    have hlt := h₀.small s
    exact ⟨ha,by omega⟩
  | notOwner _ => exact ⟨nofun,nofun⟩

theorem SemOut.idleKeeps {i : Irq} (h : SemOut n k) (hd : IdleDoes k i k') :
    SemOut (fun s => n s + net s [.irq i]) k' := by
  refine ⟨h.sems.idleKeeps hd,fun s => ?_⟩
  have hbal := h.balance s
  have hmoved : ∀ {ws left : List Tid} {k₂ : Kernel}, Moved ws left k₂ k' →
      k'.owed s = k₂.owed s := by
    intro ws left k₂ hm
    exact owed_congr (by rw [hm.rest]) (by rw [hm.rest])
  cases hd with
  | nothing => rw [show net s [.irq (.hardclock false)] = 0 from rfl,Int.add_zero,hbal]
  | wakeup hi hm =>
    rw [hm.count,hmoved hm,hbal]
    cases i with
    | V => cases hi
    | hardclock | wakeup => simp [net]
  | @V s' _ hc hm =>
    rw [hm.count,hmoved hm,h.sems.raised_count hc,show (k.raised s').owed s = k.owed s from rfl]
    by_cases hs : s = s'
    · subst hs
      simp [net]
      omega
    · simp [net,hs,Ne.symm hs,hbal]

theorem SemOut.perform {r : Run} (hb : Base k) (h : SemOut n k) (hr : perform k a = some r) :
    Safe r (fun k' => Base k' ∧ SemOut (fun s => n s + net s [a]) k') (SemFails k a) := by
  refine hb.extend (I := SemIn (fun s => n s + net s [a]) k a) hr
    (fun t code hcur ha => h.start hb hcur ha)
    (fun _ _ _ _ _ hbi hi hd => hi.keeps hbi hd) (fun _ _ _ _ _ _ hi hf => hi.fails h.sems hf)
    (fun _ _ _ hbi hi he => hi.stop hbi he) (fun i _ ha _ hd => ?_)
    (fun s ha _ hc => ⟨nofun,fun _ => ⟨s,.inr ha,?_⟩⟩) (fun k' ha _ hp => ?_)
  · subst ha
    exact h.idleKeeps hd
  · have ho := h.sems.overflow hc
    have hlt := h.sems.small s
    omega
  · subst ha
    refine ⟨h.sems.congr hp.count fun s hw => .inl ?_,fun s => ?_⟩
    · rw [hp.waiters] at hw
      exact (h.sems.asleep s hw).resolve_right nofun
    · rw [hp.count,owed_congr hp.created hp.thread,h.balance s]
      exact (congrArg (· + _) (Int.add_zero _)).symm

end Actions

section Runs

variable {initialCount : Nat → Nat} {acts : List Act}

theorem boot_sems (hc : ∀ s, initialCount s < 2^31) :
    SemOut (fun s => initialCount s) (boot initialCount) := by
  refine ⟨⟨fun s => Int.natCast_nonneg _,fun s => ?_,fun _ hw => (hw rfl).elim⟩,fun s => ?_⟩
  · have hs := hc s
    show (initialCount s : Int) < 2^31
    omega
  · exact (Int.add_zero _).symm

theorem run_sems {n : Nat → Int} (hb : Base k) (hs : SemOut n k)
    (h : run Threads.step k acts = some k') :
    Base k' ∧ SemOut (fun s => n s + net s acts) k' := by
  induction acts generalizing k n with
  | nil =>
    cases h
    exact ⟨hb,hs.sems,fun s => (hs.balance s).trans (congrArg (· + _) (Int.add_zero _).symm)⟩
  | cons a acts ih =>
    obtain ⟨k₁,hk,hr⟩ := run_cons.mp h
    obtain ⟨hb₁,hs₁⟩ := hs.perform hb (step_eq_some hk)
    obtain ⟨hb',hs'⟩ := ih hb₁ hs₁ hr
    refine ⟨hb',hs'.sems,fun s => ?_⟩
    rw [hs'.balance s,net_cons s a acts,Int.add_assoc (n s)]

/-- Calls of V and P that have counted. -/
def completedV (acts : List Act) (k : Kernel) (s : Nat) : Int :=
  acts.count (.call (.V s)) + acts.count (.irq (.V s)) - k.inside (.incCount s)

def completedP (acts : List Act) (k : Kernel) (s : Nat) : Int :=
  acts.count (.call (.P s)) - k.inside (.decCount s)

/-- In every state the count is not negative, it is the initial count and the completed Vs without
the completed Ps, and it is 0 if a thread is asleep on the semaphore; and no assertion of P and V
fails as long as the count fits into an int. -/
theorem semaphore_correct (hc : ∀ s, initialCount s < 2^31)
    (h : run Threads.step (boot initialCount) acts = some k) :
    (∀ s, 0 ≤ k.count s ∧
      k.count s = initialCount s + completedV acts k s - completedP acts k s ∧
      ∀ x ∈ k.asleep, (k.thread x).sleepaddr = some (.sem s) → k.count s = 0) ∧
    ∀ a p, perform k a = some (.error p) → p ≠ .countP ∧
      (p = .countV → ∃ s, (a = .call (.V s) ∨ a = .irq (.V s)) ∧ k.count s + 1 = 2^31) := by
  obtain ⟨hb,hs⟩ := run_sems (boot_base initialCount) (boot_sems hc) h
  refine ⟨fun s => ⟨hs.sems.nonneg s,?_,fun x hx hsleep => ?_⟩,fun a p hp => hs.perform hb hp⟩
  · rw [hs.balance s,completedV,completedP,net,Kernel.owed]
    omega
  · have hmem : x ∈ k.waiters (.sem s) := mem_waiters.mpr ⟨hx,hsleep⟩
    exact (hs.sems.asleep s (List.ne_nil_of_mem hmem)).resolve_right nofun

def contend : List Act :=
  [.call .fork,.call (.P 0),.call (.V 0),.call (.P 0),.call .yield,.run,.call (.P 0)]

theorem semaphore_correct_contend : ∃ k, run Threads.step (boot fun _ => 1) contend = some k ∧
    k.asleep = [1] ∧ completedV contend k 0 = 1 ∧ completedP contend k 0 = 2 ∧ k.count 0 = 0 := by
  have h : ((run Threads.step (boot fun _ => 1) contend).any fun k =>
      decide (k.asleep = [1] ∧ completedV contend k 0 = 1 ∧ completedP contend k 0 = 2)) = true := by
    decide +kernel
  obtain ⟨k,hk,he⟩ := some_of_any h
  obtain ⟨ha,hV,hP⟩ := of_decide_eq_true he
  have hc := ((semaphore_correct (fun _ => by decide) hk).1 0).2.1
  rw [hV,hP] at hc
  exact ⟨k,hk,ha,hV,hP,hc⟩

end Runs

variable {k k' : Kernel} {t x : Tid} {l : Nat} {rest : List Instr} {a : Act}

/-- The last thing thread `t` has done with lock `l` is to take it. -/
def holding (t : Tid) (l : Nat) : List Event → Bool
  | [] => false
  | .acquire t' l' :: log => if t' = t ∧ l' = l then true else holding t l log
  | .release t' l' :: log => if t' = t ∧ l' = l then false else holding t l log

def lockDoIHold (k : Kernel) (l : Nat) : Bool := decide (k.owner l = k.curthread)

/-- Between two statements. A lock_release that has just given up the lock is about to wake up the
sleepers. -/
structure Locks (rest : List Instr) (k : Kernel) : Prop where
  owner : ∀ l x, holding x l k.log = true ↔ k.owner l = some x
  asleep : ∀ l, k.waiters (.lock l) ≠ [] →
    k.owner l ≠ none ∨ rest.head? = some (.wakeup (.lock l))
  parked : ∀ x ∈ k.ready ++ k.asleep, ∀ l, frees l (k.thread x).code = true → k.owner l = some x

structure LockIn (t : Tid) (rest : List Instr) (k : Kernel) : Prop where
  locks : Locks rest k
  take : ∀ l, rest.head? = some (.setOwner l) → k.owner l = none
  release : ∀ l, frees l rest = true → k.owner l = some t

structure LockOut (k : Kernel) : Prop where
  locks : Locks [] k
  running : ∀ t, k.curthread = some t →
    ∀ l, frees l (k.thread t).code = true → k.owner l = some t

structure SameLocks (k k' : Kernel) : Prop where
  owner : k'.owner = k.owner
  log : k'.log = k.log

theorem SameLocks.refl (k : Kernel) : SameLocks k k := ⟨rfl,rfl⟩

theorem SameLocks.trans {k₁ : Kernel} (h : SameLocks k k₁) (h' : SameLocks k₁ k') :
    SameLocks k k' :=
  ⟨h'.owner.trans h.owner,h'.log.trans h.log⟩

theorem Moved.sameLocks {ws left : List Tid} (hm : Moved ws left k k') : SameLocks k k' := by
  rw [hm.rest]
  exact ⟨rfl,rfl⟩

theorem Picked.sameLocks (hp : Picked k k') : SameLocks k k' := by
  cases hp with
  | idle _ => exact .refl k
  | next _ _ => exact ⟨rfl,rfl⟩

theorem SameLocks.locks {rest' : List Instr} (h : SameLocks k k') (hl : Locks rest k)
    (ha : ∀ l, k'.waiters (.lock l) ≠ [] →
      k.owner l ≠ none ∨ rest'.head? = some (.wakeup (.lock l)))
    (hp : ∀ x ∈ k'.ready ++ k'.asleep, ∀ l, frees l (k'.thread x).code = true →
      k.owner l = some x) : Locks rest' k' where
  owner l x := by rw [h.log,h.owner]; exact hl.owner l x
  asleep l := by rw [h.owner]; exact ha l
  parked x hx l := by rw [h.owner]; exact hp x hx l

section Statements

variable {i : Instr} {pr : Progress} {lvl : Nat} {spls : List Nat}

theorem Does.locks (hd : Does t rest k i pr) :
    (SameLocks k pr.state ∧ (∀ l, i ≠ .setOwner l) ∧ ∀ l, i ≠ .clearOwner l) ∨
    (∃ l, i = .setOwner l ∧ pr = .went (k.locked t l)) ∨
    (∃ l, i = .clearOwner l ∧ k.owner l = some t ∧ frees l rest = false ∧
      pr = .went (k.unlocked t l) ∧ ∃ r, rest = .wakeup (.lock l) :: r) := by
  cases hd with
  | own hi _ _ | pass hi _ => refine .inl ⟨⟨rfl,rfl⟩,?_,?_⟩ <;> rintro l rfl <;> cases hi
  | exorcise | fork | noFork | decCount | incCount => exact .inl ⟨⟨rfl,rfl⟩,nofun,nofun⟩
  | wakeup _ hm | onewakeup _ hm => exact .inl ⟨hm.sameLocks,nofun,nofun⟩
  | setOwner _ => exact .inr (.inl ⟨_,rfl,rfl⟩)
  | clearOwner ho _ hf hr => exact .inr (.inr ⟨_,rfl,ho,hf,rfl,hr⟩)
  | @sleep _ addr code _ hi _ _ hpick =>
    have hs : SameLocks k (k.slept t addr code) := ⟨rfl,rfl⟩
    refine .inl ⟨hs.trans hpick.sameLocks,?_,?_⟩ <;> rintro l rfl <;> cases hi
  | yield _ _ hpick =>
    have hs : SameLocks k (k.yielded t rest) := ⟨rfl,rfl⟩
    exact .inl ⟨hs.trans hpick.sameLocks,nofun,nofun⟩
  | exit _ hpick =>
    have hs : SameLocks k (k.buried t) := ⟨rfl,rfl⟩
    exact .inl ⟨hs.trans hpick.sameLocks,nofun,nofun⟩

/-- Whoever sleeps on a lock finds it taken, unless a release is about to wake it up. -/
theorem Locks.taken (h : Locks (i :: rest) k) (hw : k.waiters (.lock l) ≠ [])
    (hi : i ≠ .wakeup (.lock l)) : k.owner l ≠ none :=
  (h.asleep l hw).resolve_right fun hz => hi (Option.some.inj hz)

/-- Code that takes a lock has just tested that it is free. -/
theorem Sound.takeLock (h : Sound lvl spls (i :: rest))
    (hr : rest.head? = some (.setOwner l)) : i = .waitOwner l := by
  obtain ⟨r,rfl⟩ := List.head?_eq_some_iff.mp hr
  cases h with
  | splhigh ho _ | splx ho _ _ | spl0 ho _ _ | menu ho _ _ | quiet _ ho _ _ => cases ho
  | waitOwner _ => rfl

/-- Whoever is about to take a lock has found it free. -/
theorem Does.take (hb : BaseIn t (i :: rest) k) (hd : Does t rest k i pr)
    (hr : rest.head? = some (.setOwner l)) (hw : ∀ k', pr ≠ .switched k') :
    pr.state.owner l = none := by
  obtain rfl := hb.sound.takeLock hr
  cases hd with
  | own hi _ _ => cases hi
  | pass hi _ => cases hi with | owner ho => exact ho
  | sleep => exact (hw _ rfl).elim

theorem frees_resumes {code : List Instr} (h : Resumes k rest i code) :
    frees l code = frees l (i :: rest) := by
  cases h with
  | sleep hw => cases hw <;> rfl
  | yield => rfl

/-- Only taking and giving up a lock changes what the rest of the code does first with it. -/
theorem frees_rest (h : Sound lvl spls (i :: rest))
    (hs : ∀ l, i ≠ .setOwner l) (hc : ∀ l, i ≠ .clearOwner l) :
    frees l (i :: rest) = frees l rest := by
  cases i with
  | setOwner l' => exact (hs l' rfl).elim
  | clearOwner l' => exact (hc l' rfl).elim
  | waitOwner l' =>
    obtain ⟨_,_,r,rfl⟩ := h.needs
    simp [frees]
  | _ => rfl

theorem LockIn.same (hb : BaseIn t (i :: rest) k)
    (h : LockIn t (i :: rest) k) (hd : Does t rest k i pr) (hs : SameLocks k pr.state)
    (hset : ∀ l, i ≠ .setOwner l) (hclear : ∀ l, i ≠ .clearOwner l) :
    pr.Keeps (LockIn t rest) LockOut := by
  have htaken : ∀ l, pr.state.waiters (.lock l) ≠ [] → k.owner l ≠ none := by
    intro l hw
    rcases hd.waiters hb (.lock l) with ⟨he,hi,_,_⟩ | ⟨_,he⟩ | ⟨rfl,he⟩ | ⟨code,hi,_⟩
    · rw [he] at hw
      exact h.locks.taken hw hi
    · exact (hw he).elim
    · refine h.locks.taken (fun hn => hw ?_) nofun
      rw [he,hn]
      rfl
    · cases hi with
      | sleep hp => cases hp
      | owner ho => exact ho
  have hothers : ∀ x ∈ pr.others, ∀ l, frees l (pr.state.thread x).code = true →
      k.owner l = some x := by
    intro x hx l hf
    rcases hd.others hb hx with ⟨hm,hth⟩ | ⟨rfl,hr⟩ | hth
    · rw [hth] at hf
      exact h.locks.parked x hm l hf
    · rw [frees_resumes hr] at hf
      exact h.release l hf
    · rw [hth] at hf
      cases hf
  cases pr with
  | went k' =>
    have hs : SameLocks k k' := hs
    refine ⟨hs.locks h.locks (fun l hw => .inl (htaken l hw)) hothers,
      fun l hr => hd.take hb hr nofun,fun l hf => ?_⟩
    rw [hs.owner]
    rw [← frees_rest hb.sound hset hclear] at hf
    exact h.release l hf
  | switched k' =>
    have hs : SameLocks k k' := hs
    refine ⟨hs.locks h.locks (fun l hw => .inl (htaken l hw)) fun x hx => hothers x ?_,
      fun x hx l hf => ?_⟩
    · show x ∈ k'.seated
      rw [Kernel.seated,List.append_assoc]
      exact List.mem_append_right _ hx
    · rw [hs.owner]
      refine hothers x ?_ l hf
      show x ∈ k'.seated
      rw [seated_cur hx]
      exact List.mem_cons_self

theorem LockIn.locked (hb : BaseIn t (.setOwner l :: rest) k)
    (h : LockIn t (.setOwner l :: rest) k) : LockIn t rest (k.locked t l) := by
  have hfree := h.take l rfl
  have howner : ∀ l', (k.locked t l).owner l' = if l' = l then some t else k.owner l' :=
    fun l' => update_apply k.owner l (some t) l'
  refine ⟨⟨fun l' x => ?_,fun l' hw => ?_,fun x hx l' hf => ?_⟩,fun l' hr => ?_,fun l' hf => ?_⟩
  · have ho := h.locks.owner l' x
    show (if t = x ∧ l = l' then true else holding x l' k.log) = true ↔ _
    rw [howner]
    by_cases hl : l' = l
    · subst hl
      rw [if_pos rfl]
      by_cases hx : t = x
      · simp [hx]
      · rw [if_neg fun hc => hx hc.1,ho,hfree]
        exact ⟨nofun,fun he => (hx (Option.some.inj he)).elim⟩
    · rw [if_neg hl,if_neg fun hc => hl hc.2.symm]
      exact ho
  · rw [howner]
    split
    · exact .inl nofun
    · exact .inl (h.locks.taken hw nofun)
  · have ho := h.locks.parked x hx l' hf
    rw [howner,if_neg]
    · exact ho
    · rintro rfl
      rw [hfree] at ho
      cases ho
  · cases hb.sound.takeLock hr
  · rw [howner]
    by_cases hl : l' = l
    · rw [if_pos hl]
    · rw [if_neg hl]
      have hl' : ¬ l = l' := fun he => hl he.symm
      refine h.release l' ?_
      simp [frees,hl',hf]

theorem LockIn.unlocked (hb : BaseIn t (.clearOwner l :: rest) k)
    (h : LockIn t (.clearOwner l :: rest) k) (hown : k.owner l = some t)
    (hf : frees l rest = false) (hr : ∃ r, rest = .wakeup (.lock l) :: r) :
    LockIn t rest (k.unlocked t l) := by
  have howner : ∀ l', (k.unlocked t l).owner l' = if l' = l then none else k.owner l' :=
    fun l' => update_apply k.owner l none l'
  refine ⟨⟨fun l' x => ?_,fun l' hw => ?_,fun x hx l' hf' => ?_⟩,fun l' hh => ?_,fun l' hf' => ?_⟩
  · have ho := h.locks.owner l' x
    show (if t = x ∧ l = l' then false else holding x l' k.log) = true ↔ _
    rw [howner]
    by_cases hl : l' = l
    · subst hl
      rw [if_pos rfl]
      by_cases hx : t = x
      · simp [hx]
      · rw [if_neg fun hc => hx hc.1,ho,hown]
        exact ⟨fun he => (hx (Option.some.inj he)).elim,nofun⟩
    · rw [if_neg hl,if_neg fun hc => hl hc.2.symm]
      exact ho
  · by_cases hl : l' = l
    · obtain ⟨r,rfl⟩ := hr
      exact .inr (by rw [hl]; rfl)
    · rw [howner,if_neg hl]
      exact .inl (h.locks.taken hw nofun)
  · have ho := h.locks.parked x hx l' hf'
    rw [howner,if_neg]
    · exact ho
    · rintro rfl
      rw [hown] at ho
      cases ho
      exact hb.placed.cur_not_parked hb.cur hx
  · cases hb.sound.takeLock hh
  · have hl : ¬ l' = l := by
      rintro rfl
      rw [hf] at hf'
      cases hf'
    rw [howner,if_neg hl]
    refine h.release l' ?_
    simp [frees,hf']

theorem LockIn.keeps (hb : BaseIn t (i :: rest) k)
    (h : LockIn t (i :: rest) k) (hd : Does t rest k i pr) : pr.Keeps (LockIn t rest) LockOut := by
  rcases hd.locks with ⟨hs,hset,hclear⟩ | ⟨l,rfl,rfl⟩ | ⟨l,rfl,hown,hf,rfl,hr⟩
  · exact h.same hb hd hs hset hclear
  · exact h.locked hb
  · exact h.unlocked hb hown hf hr

end Statements

/-- A thread releases a lock, or waits with it, only while it holds it. -/
def Disciplined (k : Kernel) (a : Act) : Prop :=
  ∀ t, k.curthread = some t →
    match a with
    | .call (.lockRelease l) | .call (.cvWait _ l) => holding t l k.log = true
    | _ => True

theorem frees_irq (i : Irq) : frees l (trap i.code ++ rest) = frees l rest := by
  cases i with
  | hardclock second => cases second <;> rfl
  | V | wakeup => rfl

theorem frees_starts {code : List Instr} (h : LockOut k) (hcur : k.curthread = some t)
    (hd : Disciplined k a) (ha : Starts k t a code) (hf : frees l code = true) :
    k.owner l = some t := by
  cases ha with
  | call c _ _ =>
    have hd := hd t hcur
    cases c with
    | lockRelease l' =>
      have hl : l' = l := by simpa [Call.code,Threads.lockRelease,frees] using hf
      rw [← hl]
      exact (h.locks.owner l' t).mp hd
    | cvWait c l' =>
      have hl : l' = l := by
        by_contra hne
        simp [Call.code,Threads.cvWait,Threads.lockRelease,Threads.lockAcquire,frees,hne] at hf
      rw [← hl]
      exact (h.locks.owner l' t).mp hd
    | exit =>
      cases hm : k.menuth == some t with
      | true =>
        rw [hm] at hf
        simp [Call.code,threadExit,Threads.lockAcquire,Threads.cvBroadcast,Threads.lockRelease,
          frees] at hf
      | false =>
        rw [hm] at hf
        cases hf
    | lockAcquire l' => simp [Call.code,Threads.lockAcquire,frees] at hf
    | _ => cases hf
  | run _ => exact h.running t hcur l hf
  | irq i _ =>
    rw [frees_irq] at hf
    exact h.running t hcur l hf

theorem opens_take {code : List Instr} (ho : opens code = true) (l : Nat)
    (hr : code.head? = some (.setOwner l)) : k.owner l = none := by
  obtain ⟨r,rfl⟩ := List.head?_eq_some_iff.mp hr
  cases ho

theorem LockOut.start {code : List Instr} (h : LockOut k) (hcur : k.curthread = some t)
    (hd : Disciplined k a) (hl : opens (k.thread t).code = true) (ha : Starts k t a code) :
    LockIn t code k := by
  refine ⟨⟨h.locks.owner,fun l hw => .inl ?_,h.locks.parked⟩,fun l hr => ?_,
    fun l hf => frees_starts h hcur hd ha hf⟩
  · exact (h.locks.asleep l hw).resolve_right nofun
  · exact opens_take (opens_of_starts hl ha) l hr

theorem LockIn.stop (hb : BaseIn t rest k) (h : LockIn t rest k) (he : rest = [] ∨ k.curspl = 0) :
    LockOut (k.left t rest) := by
  have hsame : SameLocks k (k.left t rest) :=
    ⟨rfl,rfl⟩
  refine ⟨hsame.locks h.locks (fun l hw => .inl ?_) fun x hx l hf => ?_,fun x hx l hf => ?_⟩
  · have hw' : k.waiters (.lock l) ≠ [] := by
      rwa [hb.waiters_update _ (by rfl) (by rfl)] at hw
    refine (h.locks.asleep l hw').resolve_right fun hr => ?_
    obtain ⟨r,rfl⟩ := List.head?_eq_some_iff.mp hr
    exact absurd (hb.sound.needs.1.symm.trans (he.resolve_left nofun)) (by decide)
  · have hne : x ≠ t := by
      rintro rfl
      exact hb.placed.cur_not_parked hb.cur hx
    have hth : (k.left t rest).thread x = k.thread x :=
      update_of_ne hne _ _
    rw [hth] at hf
    exact h.locks.parked x hx l hf
  · have hx : k.curthread = some x := hx
    rw [hb.cur] at hx
    cases hx
    have hth : ((k.left t rest).thread t).code = rest := by
      show (update k.thread t _ t).code = rest
      rw [update_self]
    rw [hth] at hf
    exact h.release l hf

theorem LockOut.idleKeeps {i : Irq} (h : LockOut k) (hcur : k.curthread = none)
    (hd : IdleDoes k i k') : LockOut k' := by
  have hw := hd.waiters
  have hmoved : ∀ {k₁ : Kernel} {ws left : List Tid}, Moved ws left k₁ k' → SameLocks k k₁ →
      k₁.thread = k.thread → k₁.ready = k.ready → k₁.asleep = k.asleep → k₁.curthread = none →
      (ws ++ left).Perm k₁.asleep → LockOut k' := by
    intro k₁ ws left hm hs hth hready hasleep hnone hp
    have hth' : k'.thread = k.thread := by rw [hm.rest]; exact hth
    have hcur' : k'.curthread = none := by rw [hm.rest]; exact hnone
    refine ⟨(hs.trans hm.sameLocks).locks h.locks (fun l hwl => .inl ?_) fun x hx l hf => ?_,
      fun x hx => ?_⟩
    · rcases hw (.lock l) with ⟨he,_⟩ | he
      · rw [he] at hwl
        exact (h.locks.asleep l hwl).resolve_right nofun
      · exact (hwl he).elim
    · rw [hth'] at hf
      rw [hm.ready,hm.asleep,List.append_assoc,hready] at hx
      refine h.locks.parked x ?_ l hf
      rw [← hasleep]
      exact (hp.append_left _).mem_iff.mp hx
    · rw [hcur'] at hx
      cases hx
  cases hd with
  | nothing => exact h
  | wakeup _ hm => exact hmoved hm (.refl k) rfl rfl rfl hcur (woken_perm _ _ _)
  | V _ hm => exact hmoved hm ⟨rfl,rfl⟩ rfl rfl rfl hcur (woken_perm _ _ _)

theorem Picked.lockOut (hp : Picked k k') (h : LockOut k) (hcur : k.curthread = none) :
    LockOut k' := by
  refine ⟨hp.sameLocks.locks h.locks (fun l hw => .inl ?_) fun x hx l hf => ?_,fun x hx l hf => ?_⟩
  · rw [hp.waiters] at hw
    exact (h.locks.asleep l hw).resolve_right nofun
  · rw [hp.thread] at hf
    refine h.locks.parked x ?_ l hf
    rw [← hp.seated hcur,Kernel.seated,List.append_assoc]
    exact List.mem_append_right _ hx
  · rw [hp.thread] at hf
    rw [hp.sameLocks.owner]
    refine h.locks.parked x ?_ l hf
    rw [← hp.seated hcur,seated_cur hx]
    exact List.mem_cons_self

theorem LockIn.fails {i : Instr} {p : Panic} (h : LockIn t (i :: rest) k) (hf : Fails t k i p) :
    p ≠ .notOwner := by
  cases hf with
  | countP | countV => nofun
  | @notOwner l ho => exact (ho (h.release l (by simp [frees]))).elim

theorem LockOut.perform {r : Run} (hb : Base k) (h : LockOut k) (hd : Disciplined k a)
    (hr : perform k a = some r) :
    Safe r (fun k' => Base k' ∧ LockOut k') (· ≠ .notOwner) :=
  hb.extend (I := LockIn) hr
    (fun t _ hcur ha => h.start hcur hd (hb.running t hcur).opens ha)
    (fun _ _ _ _ _ hbi hi hdo => hi.keeps hbi hdo) (fun _ _ _ _ _ _ hi hf => hi.fails hf)
    (fun _ _ _ hbi hi he => hi.stop hbi he) (fun _ _ _ hcur hdo => h.idleKeeps hcur hdo)
    (fun _ _ _ _ => nofun) (fun _ _ hcur hp => hp.lockOut h hcur)

/-- Whether a thread that holds lock `l`, or does not, holds it when it has executed its code. -/
def keepsLock (l : Nat) (b : Bool) (code : List Instr) : Bool :=
  code.foldl (fun b i => decide (i = .setOwner l ∨ b = true ∧ i ≠ .clearOwner l)) b

/-- Thread `x` holds lock `l` when it has executed its code. -/
structure Acquires (x : Tid) (l : Nat) (code : List Instr) (k : Kernel) : Prop where
  keeps : keepsLock l (decide (k.owner l = some x)) code = true
  lt : x < k.created

/-- While thread `t` executes its code. -/
structure Acquiring (x : Tid) (l : Nat) (t : Tid) (rest : List Instr) (k : Kernel) : Prop where
  take : ∀ l, rest.head? = some (.setOwner l) → k.owner l = none
  acquires : Acquires x l (if t = x then rest else (k.thread x).code) k

theorem Acquiring.owner {i : Instr} {pr : Progress} (h : Acquiring x l t (i :: rest) k)
    (hd : Does t rest k i pr) : pr.state.owner l = some x ↔
      if t = x then i = .setOwner l ∨ k.owner l = some x ∧ i ≠ .clearOwner l
      else k.owner l = some x := by
  rcases hd.locks with ⟨hs,hset,hclear⟩ | ⟨l',rfl,rfl⟩ | ⟨l',rfl,ho,-,rfl,-⟩
  · simp [hs.owner,hset l,hclear l]
  · have ho := h.take l' rfl
    simp only [Progress.state,Kernel.locked,update_apply]
    by_cases hl : l = l'
    · simp [hl,ho]
    · simp [hl,Ne.symm hl]
  · simp only [Progress.state,Kernel.unlocked,update_apply]
    by_cases hl : l = l'
    · simp [hl,ho]
    · simp [hl,Ne.symm hl]

theorem Acquiring.keeps {i : Instr} {pr : Progress} (hb : BaseIn t (i :: rest) k)
    (h : Acquiring x l t (i :: rest) k) (hd : Does t rest k i pr) :
    pr.Keeps (Acquiring x l t rest) fun k' => Acquires x l (k'.thread x).code k' := by
  obtain ⟨hk,hlt⟩ := h.acquires
  have hlt' := Nat.lt_of_lt_of_le hlt hd.history.1
  have howner := h.owner hd
  have hnext : Acquires x l (if t = x then rest else (pr.state.thread x).code) pr.state := by
    refine ⟨?_,hlt'⟩
    by_cases hx : t = x
    · simp only [hx,if_true] at hk howner ⊢
      simpa [keepsLock,howner] using hk
    · simp only [hx,if_false] at hk howner ⊢
      rw [hd.frame (Ne.symm hx) hlt.ne]
      simpa only [howner] using hk
  cases pr with
  | went k' => exact ⟨fun l hr => hd.take hb hr nofun,hnext⟩
  | switched k' =>
    refine ⟨?_,hlt'⟩
    rw [← hnext.keeps]
    by_cases hx : t = x
    · subst hx
      rw [if_pos rfl]
      refine hd.stored hb (fun _ hr => ?_) (by simp [keepsLock])
      cases hr with
      | sleep hw => cases hw <;> simp [keepsLock]
      | yield => simp [keepsLock]
    · rw [if_neg hx]
      rfl

theorem Acquires.start {code : List Instr} (h : Acquires x l (k.thread x).code k)
    (hn : (k.thread x).code ≠ []) (ha : Starts k t a code) :
    Acquires x l (if t = x then code else (k.thread x).code) k := by
  by_cases hx : t = x
  · subst hx
    rw [if_pos rfl]
    refine ⟨?_,h.lt⟩
    rw [← h.keeps]
    cases ha with
    | call _ _ hc => exact (hn hc).elim
    | run => rfl
    | irq i =>
      cases i with
      | hardclock second => cases second <;> simp [keepsLock,trap,Irq.code,hardclock,threadYield]
      | V | wakeup => simp [keepsLock,trap,Irq.code,Threads.V]
  · rw [if_neg hx]
    exact h

theorem Acquires.congr (h : Acquires x l (k.thread x).code k) (ht : k'.thread = k.thread)
    (ho : k'.owner = k.owner) (hc : k'.created = k.created) :
    Acquires x l (k'.thread x).code k' :=
  ⟨by rw [ht,ho]; exact h.keeps,by rw [hc]; exact h.lt⟩

theorem Acquires.perform {r : Run} (hb : Base k)
    (hstart : ∀ t code, k.curthread = some t → Starts k t a code →
      Acquires x l (if t = x then code else (k.thread x).code) k)
    (h : k.curthread = none → Acquires x l (k.thread x).code k) (hr : perform k a = some r) :
    Safe r (fun k' => Base k' ∧ Acquires x l (k'.thread x).code k') fun _ => True := by
  refine hb.extend (I := Acquiring x l) hr
    (fun t code hcur ha => ⟨opens_take (opens_of_starts (hb.running t hcur).opens ha),
      hstart t code hcur ha⟩)
    (fun _ _ _ _ _ hbi hi hd => hi.keeps hbi hd) (fun _ _ _ _ _ _ _ _ => True.intro)
    (fun t rest k _ hi _ => ⟨?_,hi.acquires.lt⟩) (fun _ k' _ hcur hd => ?_)
    (fun _ _ _ _ => True.intro)
    (fun _ _ hcur hp => (h hcur).congr hp.thread hp.sameLocks.owner hp.created)
  · rw [← hi.acquires.keeps]
    refine congrArg (keepsLock l _) ?_
    show (update k.thread t _ x).code = _
    rw [update_apply]
    by_cases hx : t = x
    · simp [hx]
    · simp [hx,Ne.symm hx]
  · cases hd with
    | nothing => exact h hcur
    | wakeup _ hm | V _ hm => refine (h hcur).congr ?_ ?_ ?_ <;> rw [hm.rest] <;> rfl

/-- As long as thread `t` has not come back from the call it is in there, and when it has come back
it owns the lock. -/
theorem acquire_returns {acts : List Act} {k₁ : Kernel} (hb : Base k) (hcur : k.curthread = some t)
    (hc : a = .call (.lockAcquire l) ∨ ∃ c, a = .call (.cvWait c l))
    (hs : Threads.step k a = some k₁)
    (ha : Along Threads.step (fun k _ => (k.thread t).code ≠ []) k₁ acts)
    (hr : run Threads.step k₁ acts = some k') (hz : (k'.thread t).code = []) :
    k'.owner l = some t := by
  have h₁ := Acquires.perform (x := t) (l := l) hb (fun t' code hcur' hst => ?_)
    (fun hn => nomatch hcur.symm.trans hn) (step_eq_some hs)
  · have h' := run_keeps (I := fun k => Base k ∧ Acquires t l (k.thread t).code k)
      (fun _ _ _ hi hn hs => Acquires.perform hi.1 (fun _ _ _ hst => hi.2.start hn hst)
        (fun _ => hi.2) (step_eq_some hs)) h₁ ha hr
    have hkeeps := h'.2.keeps
    rw [hz] at hkeeps
    exact of_decide_eq_true hkeeps
  · obtain rfl : t = t' := Option.some.inj (hcur.symm.trans hcur')
    rw [if_pos rfl]
    refine ⟨?_,(hb.placed.cur_live hcur).1⟩
    rcases hc with rfl | ⟨c,rfl⟩
    · cases hst
      simp [keepsLock,Call.code,Threads.lockAcquire]
    · cases hst
      simp [keepsLock,Call.code,Threads.cvWait,Threads.lockRelease,Threads.lockAcquire]

section Runs

variable {initialCount : Nat → Nat} {acts : List Act}

theorem boot_lockOut (initialCount : Nat → Nat) : LockOut (boot initialCount) :=
  ⟨⟨fun _ _ => ⟨nofun,nofun⟩,fun _ hw => (hw rfl).elim,nofun⟩,fun _ _ _ => nofun⟩

theorem reachable_lockOut (h : run Threads.step (boot initialCount) acts = some k)
    (hd : Along Threads.step Disciplined (boot initialCount) acts) : Base k ∧ LockOut k :=
  run_keeps (I := fun k => Base k ∧ LockOut k)
    (fun _ _ _ hi hc hs => hi.2.perform hi.1 hc (step_eq_some hs))
    ⟨boot_base initialCount,boot_lockOut initialCount⟩ hd h

/-- At most one thread holds a lock, it is the owner, and lock_do_i_hold tells it so; whoever sleeps
on a lock finds it owned; the assertion of lock_release does not fail; and a thread that returns from
lock_acquire or cv_wait holds the lock. -/
theorem lock_correct (h : run Threads.step (boot initialCount) acts = some k)
    (hd : Along Threads.step Disciplined (boot initialCount) acts) :
    (∀ l x y, holding x l k.log = true → holding y l k.log = true → x = y) ∧
    (∀ l x, k.owner l = some x ↔ holding x l k.log = true) ∧
    (∀ l t, k.curthread = some t → lockDoIHold k l = holding t l k.log) ∧
    (∀ l, ∀ x ∈ k.asleep, (k.thread x).sleepaddr = some (.lock l) → k.owner l ≠ none) ∧
    (∀ a p, Disciplined k a → perform k a = some (.error p) → p ≠ .notOwner) ∧
    ∀ l t a k₁, k.curthread = some t →
      (a = .call (.lockAcquire l) ∨ ∃ c, a = .call (.cvWait c l)) →
      Threads.step k a = some k₁ → ∀ acts' k',
      Along Threads.step (fun k _ => (k.thread t).code ≠ []) k₁ acts' →
      run Threads.step k₁ acts' = some k' → (k'.thread t).code = [] → k'.owner l = some t := by
  obtain ⟨hb,hl⟩ := reachable_lockOut h hd
  have howner := hl.locks.owner
  refine ⟨fun l x y hx hy => ?_,fun l x => (howner l x).symm,fun l t hcur => ?_,
    fun l x hx hs => ?_,fun a p ha hp => hl.perform hb ha hp,
    fun l t a k₁ hcur hc hs acts' k' => acquire_returns hb hcur hc hs⟩
  · have he := ((howner l x).mp hx).symm.trans ((howner l y).mp hy)
    exact Option.some.inj he
  · rw [lockDoIHold,hcur,Bool.eq_iff_iff,decide_eq_true_eq]
    exact (howner l t).symm
  · have hmem : x ∈ k.waiters (.lock l) := mem_waiters.mpr ⟨hx,hs⟩
    exact (hl.locks.asleep l (List.ne_nil_of_mem hmem)).resolve_right nofun

/-- One thread waits on a condition variable, another takes the lock meanwhile and holds it when
the first one comes back. -/
def handOver : List Act :=
  [.call .fork,.call (.lockAcquire 1),.call (.cvWait 0 1),.run,.call (.lockAcquire 1),
    .call (.cvSignal 0 1),.call .yield,.run]

def disciplinedTest (k : Kernel) (a : Act) : Bool :=
  match k.curthread,a with
  | some t,.call (.lockRelease l) => holding t l k.log
  | some t,.call (.cvWait _ l) => holding t l k.log
  | _,_ => true

theorem disciplined_of_test (h : disciplinedTest k a = true) : Disciplined k a := by
  intro t hcur
  simp only [disciplinedTest,hcur] at h
  split
  · exact h
  · exact h
  · exact True.intro

theorem lock_correct_handOver : ∃ k,
    run Threads.step (boot fun _ => 0) handOver = some k ∧ k.asleep = [0] ∧
      k.owner 1 ≠ none := by
  have h : ((run Threads.step (boot fun _ => 0) handOver).any fun k =>
      decide (k.asleep = [0] ∧ (k.thread 0).sleepaddr = some (.lock 1))) = true := by
    decide +kernel
  have hd : checkAlong Threads.step disciplinedTest (boot fun _ => 0) handOver = true := by
    decide +kernel
  obtain ⟨k,hk,he⟩ := some_of_any h
  obtain ⟨ha,hs⟩ := of_decide_eq_true he
  have hal := Along.of_check (fun _ _ => disciplined_of_test) hd
  refine ⟨k,hk,ha,(lock_correct hk hal).2.2.2.1 1 0 ?_ hs⟩
  rw [ha]
  exact List.mem_singleton_self 0

end Runs

end MipsOs.Threads
