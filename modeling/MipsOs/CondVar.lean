import MipsOs.Synch

/-! Condition variables: cv_wait gives up the lock and goes to sleep in one step,
the sleepers are in the order in which they came, and cv_wait returns with the
lock. -/

set_option autoImplicit false
namespace MipsOs.Threads
open Function Runs

variable {k k' k₁ : Kernel} {t x : Tid} {l c : Nat} {rest : List Instr} {a : Act}

/-- The sleepers are in the order in which they went to sleep. -/
structure Ordered (k : Kernel) : Prop where
  sorted : k.asleep.Pairwise fun x y => (k.thread x).since < (k.thread y).since
  past : ∀ x ∈ k.asleep, (k.thread x).since < k.clock

theorem Ordered.of_sublist (h : Ordered k) (hs : k'.asleep.Sublist k.asleep)
    (hth : ∀ x ∈ k.asleep, (k'.thread x).since = (k.thread x).since) (hc : k.clock ≤ k'.clock) :
    Ordered k' where
  sorted := by
    refine (h.sorted.sublist hs).imp_of_mem fun {x y} hx hy hlt => ?_
    rw [hth x (hs.subset hx),hth y (hs.subset hy)]
    exact hlt
  past x hx := by
    rw [hth x (hs.subset hx)]
    exact Nat.lt_of_lt_of_le (h.past x (hs.subset hx)) hc

theorem Ordered.slept {addr : Addr} {code : List Instr} (h : Ordered k) (ht : t ∉ k.asleep) :
    Ordered (k.slept t addr code) := by
  have hself : ((k.slept t addr code).thread t).since = k.clock := by
    show (update k.thread t _ t).since = _
    rw [update_self]
  have hold : ∀ x ∈ k.asleep, ((k.slept t addr code).thread x).since = (k.thread x).since := by
    intro x hx
    have hne : x ≠ t := fun he => ht (he ▸ hx)
    have hth : (k.slept t addr code).thread x = k.thread x := update_of_ne hne _ _
    rw [hth]
  refine ⟨?_,fun x hx => ?_⟩
  · rw [slept_asleep,List.pairwise_append]
    refine ⟨h.sorted.imp_of_mem fun {x y} hx hy hlt => ?_,List.pairwise_singleton _ _,
      fun x hx y hy => ?_⟩
    · rw [hold x hx,hold y hy]
      exact hlt
    · rw [List.mem_singleton.mp hy,hold x hx,hself]
      exact h.past x hx
  · show _ < k.clock + 1
    rw [slept_asleep] at hx
    rcases List.mem_append.mp hx with hx | hx
    · rw [hold x hx]
      exact Nat.lt_succ_of_lt (h.past x hx)
    · rw [List.mem_singleton.mp hx,hself]
      exact Nat.lt_succ_self _

theorem Picked.ordered (hp : Picked k k') (h : Ordered k) : Ordered k' := by
  cases hp with
  | idle _ => exact h
  | next _ _ => exact ⟨h.sorted,h.past⟩

theorem Moved.ordered {ws left : List Tid} (hm : Moved ws left k k') (h : Ordered k)
    (hs : left.Sublist k.asleep) : Ordered k' := by
  refine h.of_sublist (by rw [hm.asleep]; exact hs) (fun x _ => ?_) ?_
  · rw [hm.rest]
  · rw [hm.rest]

theorem notWoken_sublist (p : Tid → Bool) (one : Bool) (l : List Tid) :
    (notWoken p one l).Sublist l := by
  cases one with
  | true =>
    rw [notWoken_one]
    exact List.eraseP_sublist
  | false =>
    rw [notWoken_all]
    exact List.filter_sublist

theorem Ordered.keeps {i : Instr} {pr : Progress} (hb : BaseIn t (i :: rest) k) (h : Ordered k)
    (hd : Does t rest k i pr) : pr.Keeps Ordered Ordered := by
  have hnot : t ∉ k.asleep := fun hx =>
    hb.placed.cur_not_parked hb.cur (List.mem_append_right _ hx)
  have hframe : ∀ x ∈ k.asleep, pr.state.thread x = k.thread x := by
    intro x hx
    refine hd.frame (fun he => hnot (he ▸ hx)) fun he => ?_
    have hs : x ∈ k.seated := by
      rw [Kernel.seated]
      exact List.mem_append_right _ hx
    rw [he] at hs
    exact Nat.lt_irrefl _ ((hb.placed.seated_iff k.created).mp hs).1
  have hsame : pr.state.asleep = k.asleep → k.clock = pr.state.clock → Ordered pr.state :=
    fun ha hc => h.of_sublist (by rw [ha]) (fun x hx => by rw [hframe x hx]) (Nat.le_of_eq hc)
  cases hd with
  | own | exorcise | fork | decCount | incCount | setOwner | clearOwner => exact hsame rfl rfl
  | pass | noFork => exact h
  | wakeup _ hm | onewakeup _ hm => exact hm.ordered h (notWoken_sublist _ _ _)
  | sleep _ _ _ hpick => exact hpick.ordered (h.slept hnot)
  | @yield k' _ _ hpick | @exit k' _ hpick =>
    refine hsame ?_ ?_
    · cases hpick <;> rfl
    · cases hpick <;> rfl

theorem Ordered.perform {r : Run} (hb : Base k) (h : Ordered k) (hr : perform k a = some r) :
    Safe r (fun k' => Base k' ∧ Ordered k') fun _ => True := by
  refine hb.extend (I := fun _ _ => Ordered) hr (fun _ _ _ _ => h)
    (fun _ _ _ _ _ hbi hi hd => hi.keeps hbi hd) (fun _ _ _ _ _ _ _ _ => True.intro)
    (fun t rest k hbi hi _ => ?_) (fun i k' _ _ hd => ?_) (fun _ _ _ _ => True.intro)
    (fun _ _ _ hp => hp.ordered h)
  · refine hi.of_sublist (List.Sublist.refl _) (fun x hx => ?_) (Nat.le_refl _)
    have hne : x ≠ t := by
      rintro rfl
      exact hbi.placed.cur_not_parked hbi.cur (List.mem_append_right _ hx)
    have hth : (k.left t rest).thread x = k.thread x :=
      update_of_ne hne _ _
    rw [hth]
  · cases hd with
    | nothing => exact h
    | wakeup _ hm => exact hm.ordered h (notWoken_sublist _ _ _)
    | @V s _ _ hm =>
      have hraised : Ordered (k.raised s) := ⟨h.sorted,h.past⟩
      exact hm.ordered hraised (notWoken_sublist _ _ _)

theorem reachable_ordered {initialCount : Nat → Nat} {acts : List Act}
    (h : run Threads.step (boot initialCount) acts = some k) : Ordered k :=
  (run_keeps (C := fun _ _ => True) (I := fun k => Base k ∧ Ordered k)
    (fun _ _ _ hi _ hs => hi.2.perform hi.1 (step_eq_some hs))
    ⟨boot_base initialCount,List.Pairwise.nil,nofun⟩ (Along.trivial _ _ _) h).2

theorem Ordered.longest {addr : Addr} {y : Tid} (h : Ordered k)
    (hx : (k.waiters addr).head? = some x) (hy : y ∈ k.waiters addr) (hne : y ≠ x) :
    (k.thread x).since < (k.thread y).since := by
  have hs := h.sorted.filter (k.sleepsOn addr)
  obtain ⟨ws,hws⟩ : ∃ ws, k.waiters addr = x :: ws := List.head?_eq_some_iff.mp hx
  have hs : (k.waiters addr).Pairwise _ := hs
  rw [hws] at hs hy
  exact (List.pairwise_cons.mp hs).1 y ((List.mem_cons.mp hy).resolve_left hne)

section Execution

variable {i : Instr} {Q : Kernel → Prop} {E : Panic → Prop}

theorem BaseIn.burst_went (hb : BaseIn t (i :: rest) k) (hx : exec t rest k i = .ok (.went k₁))
    (hz : k₁.curspl ≠ 0) (hgo : BaseIn t rest k₁ → Safe (burst t rest k₁) Q E) :
    Safe (burst t (i :: rest) k) Q E := by
  have hdoes := hb.does
  rw [burst]
  rw [hx] at hdoes ⊢
  show Safe (if k₁.curspl = 0 then _ else _) Q E
  rw [if_neg hz]
  exact hgo (hb.keeps hdoes)

theorem BaseIn.high (hb : BaseIn t (i :: rest) k) (hi : i.own = false) : k.curspl = splHigh := by
  have hn := hb.sound.needs
  cases i with
  | splhigh | splx | spl0 | awake | menu => cases hi
  | exit => exact hn.1
  | undead => exact hn.elim
  | _ => exact hn.1

theorem BaseIn.pos (hb : BaseIn t (i :: rest) k) (hi : i.own = false) : 0 < k.curspl :=
  splHigh_pos (hb.high hi)

/-- Only the running thread's record and the level have changed. -/
structure Own (t : Tid) (lvl : Nat) (spls : List Nat) (k k₁ : Kernel) : Prop where
  rest : k₁ = { k with curspl := k₁.curspl, thread := k₁.thread, menuth := k₁.menuth }
  curspl : k₁.curspl = lvl
  spls : (k₁.thread t).spls = spls
  thread : ∃ th, k₁.thread = update k.thread t th

variable {lvl : Nat} {spls : List Nat} {code : List _} {addr : Addr}

theorem Own.log (ho : Own t lvl spls k k₁) : k₁.log = k.log := by
  rw [ho.rest]

theorem Own.owner (ho : Own t lvl spls k k₁) : k₁.owner = k.owner := by
  rw [ho.rest]

theorem Own.ready (ho : Own t lvl spls k k₁) : k₁.ready = k.ready := by
  rw [ho.rest]
  rfl

theorem Own.asleep (ho : Own t lvl spls k k₁) : k₁.asleep = k.asleep := by
  rw [ho.rest]
  rfl

theorem Own.waiters {spls : List _} (ho : Own t lvl spls k k₁)
    (hb : BaseIn t code k) (addr : Addr) : k₁.waiters addr = k.waiters addr := by
  obtain ⟨th,hth⟩ := ho.thread
  exact hb.waiters_update k₁ ho.asleep hth addr

theorem Own.sleepsOn {spls : List _} (ho : Own t lvl spls k k₁)
    (hb : BaseIn t code k) (hx : x ∈ k.asleep) : k₁.sleepsOn addr x = k.sleepsOn addr x := by
  obtain ⟨th,hth⟩ := ho.thread
  have hne : x ≠ t := by
    rintro rfl
    exact hb.placed.cur_not_parked hb.cur (List.mem_append_right _ hx)
  rw [Kernel.sleepsOn,Kernel.sleepsOn,hth,update_of_ne hne]

theorem Own.update {th : Thread} (hs : th.spls = spls) :
    Own t lvl spls k { k with curspl := lvl, thread := Function.update k.thread t th } :=
  ⟨rfl,rfl,(congrArg Thread.spls (update_self _ _ _)).trans hs,th,rfl⟩

theorem exec_splx {spl : Nat} (hs : (k.thread t).spls = spl :: spls) :
    exec t rest k .splx = .ok (.went { k with
      curspl := spl, thread := update k.thread t { k.thread t with spls := spls } }) := by
  rw [exec,hs]
  rfl

theorem BaseIn.burst_splhigh (hb : BaseIn t (.splhigh :: rest) k)
    (hgo : ∀ k₁, BaseIn t rest k₁ → Own t splHigh (k.curspl :: (k.thread t).spls) k k₁ →
      Safe (burst t rest k₁) Q E) : Safe (burst t (.splhigh :: rest) k) Q E :=
  hb.burst_went rfl (show splHigh ≠ 0 by decide) fun hb₁ => hgo _ hb₁ (.update rfl)

theorem BaseIn.burst_splx {spl : Nat} (hb : BaseIn t (.splx :: rest) k)
    (hs : (k.thread t).spls = spl :: spls) (hpos : spl ≠ 0)
    (hgo : ∀ k₁, BaseIn t rest k₁ → Own t spl spls k k₁ → Safe (burst t rest k₁) Q E) :
    Safe (burst t (.splx :: rest) k) Q E :=
  hb.burst_went (exec_splx hs) hpos fun hb₁ => hgo _ hb₁ (.update rfl)

theorem burst_splx_zero (hs : (k.thread t).spls = 0 :: spls) (hstop : ∀ k₁, Own t 0 spls k k₁ →
      Q (k₁.left t rest)) :
    Safe (burst t (.splx :: rest) k) Q E := by
  rw [burst,exec_splx hs]
  exact hstop _ (.update rfl)

theorem BaseIn.burst_wakeup (hb : BaseIn t (.wakeup addr :: rest) k)
    (hgo : ∀ k₁, BaseIn t rest k₁ → Moved (k.waiters addr)
      (k.asleep.filter fun x => !k.sleepsOn addr x) k k₁ → Safe (burst t rest k₁) Q E) :
    Safe (burst t (.wakeup addr :: rest) k) Q E := by
  obtain ⟨k₁,hk,hm⟩ := threadWakeup_spec (hb.pos rfl) addr
  rw [woken_all,notWoken_all] at hm
  refine hb.burst_went (by rw [exec,hk]; rfl) ?_ fun hb₁ => hgo k₁ hb₁ hm
  rw [hm.rest]
  exact (hb.pos rfl).ne'

theorem BaseIn.burst_onewakeup (hb : BaseIn t (.onewakeup addr :: rest) k)
    (hgo : ∀ k₁, BaseIn t rest k₁ → Moved (k.waiters addr).head?.toList
      (k.asleep.eraseP (k.sleepsOn addr)) k k₁ → Safe (burst t rest k₁) Q E) :
    Safe (burst t (.onewakeup addr :: rest) k) Q E := by
  obtain ⟨k₁,hk,hm⟩ := threadOnewakeup_spec (hb.pos rfl) addr
  rw [woken_one,notWoken_one] at hm
  refine hb.burst_went (by rw [exec,hk]; rfl) ?_ fun hb₁ => hgo k₁ hb₁ hm
  rw [hm.rest]
  exact (hb.pos rfl).ne'

theorem BaseIn.burst_sleep (hb : BaseIn t (.sleep addr :: rest) k)
    (hswitch : ∀ k₁, Picked (k.slept t addr rest) k₁ → Q k₁) :
    Safe (burst t (.sleep addr :: rest) k) Q E := by
  obtain ⟨k₁,hk,hpick⟩ := threadSleep_spec (hb.pos rfl) hb.cur addr rest
  rw [burst,exec,hk]
  exact hswitch k₁ hpick

end Execution

theorem Base.at_rest (h : Base k) (hcur : k.curthread = some t) (hz : k.curspl = 0)
    (hc : (k.thread t).code = []) : (k.thread t).spls = [] := by
  have hs := (h.running t hcur).sound
  rw [hz,hc] at hs
  cases hl : (k.thread t).spls with
  | nil => rfl
  | cons x xs =>
    rw [hl] at hs
    cases hs

theorem step_call {call : Call} {Q : Kernel → Prop} (hcur : k.curthread = some t)
    (hz : k.curspl = 0) (hc : (k.thread t).code = [])
    (h : Safe (burst t (call.code (k.menuth == some t)) k) Q fun _ => False) :
    ∃ k', step k (.call call) = some k' ∧ Q k' := by
  have hp : perform k (.call call) = some (burst t (call.code (k.menuth == some t)) k) := by
    unfold perform
    simp only [hcur]
    exact if_pos ⟨hz,hc⟩
  cases hr : burst t (call.code (k.menuth == some t)) k with
  | error p =>
    rw [hr] at h
    exact h.elim
  | ok k' =>
    rw [hr] at h hp
    refine ⟨k',?_,h⟩
    rw [step,hp]

section

variable (h : Base k) (hcur : k.curthread = some t) (hz : k.curspl = 0)
  (hc : (k.thread t).code = [])

include h hcur hz hc

theorem cvWait_spec (ho : k.owner l = some t) (c : Nat) :
    ∃ k', step k (.call (.cvWait c l)) = some k' ∧ k'.log = .release t l :: k.log ∧
      k'.owner l = none ∧ k'.waiters (.cv c) = k.waiters (.cv c) ++ [t] := by
  have hspls := h.at_rest hcur hz hc
  refine step_call hcur hz hc ?_
  have hb := h.starts hcur (.call (.cvWait c l) hz hc)
  refine hb.burst_splhigh fun k₁ hb₁ ho₁ => hb₁.burst_splhigh fun k₂ hb₂ ho₂ => ?_
  have howner : k₂.owner l = some t := by
    rw [ho₂.owner,ho₁.owner]
    exact ho
  refine hb₂.burst_went (if_pos howner) (hb₂.pos rfl).ne' fun hb₃ =>
    hb₃.burst_wakeup fun k₄ hb₄ hm => ?_
  have hs₄ : (k₄.thread t).spls = [splHigh,0] := by
    have hs₂ := ho₂.spls
    rw [ho₁.spls,ho₁.curspl,hz,hspls] at hs₂
    rw [hm.rest]
    exact hs₂
  refine hb₄.burst_splx hs₄ (by decide) fun k₅ hb₅ ho₅ => hb₅.burst_sleep fun k₆ hpick => ?_
  have hlog₄ : k₄.log = .release t l :: k₂.log := by rw [hm.rest]
  have howner₄ : k₄.owner = update k₂.owner l none := by rw [hm.rest]
  have hw₄ : k₄.waiters (.cv c) = k₂.waiters (.cv c) :=
    (hm.waiters_all (.cv c)).trans (if_neg nofun)
  refine ⟨?_,?_,?_⟩
  · rw [hpick.log]
    show k₅.log = _
    rw [ho₅.log,hlog₄,ho₂.log,ho₁.log]
  · rw [hpick.sameLocks.owner]
    show k₅.owner l = none
    rw [ho₅.owner,howner₄,update_self]
  · rw [hpick.waiters,hb₅.waiters_slept,if_pos rfl,ho₅.waiters hb₄,hw₄,ho₂.waiters hb₁,
      ho₁.waiters hb]

theorem cvSignal_spec (c l : Nat) :
    ∃ k', step k (.call (.cvSignal c l)) = some k' ∧
      k'.ready = k.ready ++ (k.waiters (.cv c)).head?.toList ∧
      (k.waiters (.cv c) = [] → k'.asleep = k.asleep) ∧
      ∀ x, (k.waiters (.cv c)).head? = some x → k'.asleep = k.asleep.erase x := by
  have hspls := h.at_rest hcur hz hc
  refine step_call hcur hz hc ?_
  have hb := h.starts hcur (.call (.cvSignal c l) hz hc)
  refine hb.burst_splhigh fun k₁ hb₁ ho₁ => hb₁.burst_onewakeup fun k₂ hb₂ hm => ?_
  have hs₂ : (k₂.thread t).spls = [0] := by
    rw [hm.rest]
    show (k₁.thread t).spls = _
    rw [ho₁.spls,hz,hspls]
  have hw := ho₁.waiters hb (.cv c)
  refine burst_splx_zero hs₂ fun k₃ ho₃ => ⟨?_,fun hn => ?_,fun x hx => ?_⟩
  · show k₃.ready = _
    rw [ho₃.ready,hm.ready,ho₁.ready,hw]
  · show k₃.asleep = _
    rw [hn] at hw
    rw [ho₃.asleep,hm.asleep,List.eraseP_of_forall_not (List.filter_eq_nil_iff.mp hw),ho₁.asleep]
  · show k₃.asleep = _
    rw [← hw] at hx
    rw [ho₃.asleep,hm.asleep,eraseP_eq_erase hx,ho₁.asleep]

theorem cvBroadcast_spec (c l : Nat) :
    ∃ k', step k (.call (.cvBroadcast c l)) = some k' ∧
      k'.ready = k.ready ++ k.waiters (.cv c) ∧
      k'.asleep = k.asleep.filter fun x => !k.sleepsOn (.cv c) x := by
  have hspls := h.at_rest hcur hz hc
  refine step_call hcur hz hc ?_
  have hb := h.starts hcur (.call (.cvBroadcast c l) hz hc)
  refine hb.burst_splhigh fun k₁ hb₁ ho₁ => hb₁.burst_wakeup fun k₂ hb₂ hm => ?_
  have hs₂ : (k₂.thread t).spls = [0] := by
    rw [hm.rest]
    show (k₁.thread t).spls = _
    rw [ho₁.spls,hz,hspls]
  refine burst_splx_zero hs₂ fun k₃ ho₃ => ⟨?_,?_⟩
  · show k₃.ready = _
    rw [ho₃.ready,hm.ready,ho₁.ready,ho₁.waiters hb]
  · show k₃.asleep = _
    rw [ho₃.asleep,hm.asleep,ho₁.asleep]
    refine List.filter_congr fun x hx => ?_
    rw [ho₁.sleepsOn hb hx]

end

section Runs

variable {initialCount : Nat → Nat} {acts : List Act}

/-- A running thread calls a function of a condition variable. cv_wait releases the lock and puts
the thread at the end of the sleepers in one step, and when it comes back it owns the lock;
cv_signal makes the one that has slept longest runnable, cv_broadcast all of them. -/
theorem condition_variable_correct
    (h : run Threads.step (boot initialCount) acts = some k) (hcur : k.curthread = some t)
    (hz : k.curspl = 0) (hc : (k.thread t).code = []) (c l : Nat) :
    (k.owner l = some t → ∃ k', step k (.call (.cvWait c l)) = some k' ∧
      k'.log = .release t l :: k.log ∧ k'.owner l = none ∧
      k'.waiters (.cv c) = k.waiters (.cv c) ++ [t] ∧
      ∀ acts' k'', Along Threads.step (fun k _ => (k.thread t).code ≠ []) k' acts' →
        run Threads.step k' acts' = some k'' → (k''.thread t).code = [] →
        k''.owner l = some t) ∧
    (∃ k', step k (.call (.cvSignal c l)) = some k' ∧
      (k.waiters (.cv c) = [] → k'.ready = k.ready ∧ k'.asleep = k.asleep) ∧
      ∀ x, (k.waiters (.cv c)).head? = some x →
        k'.ready = k.ready ++ [x] ∧ k'.asleep = k.asleep.erase x ∧
        ∀ y ∈ k.waiters (.cv c), y ≠ x → (k.thread x).since < (k.thread y).since) ∧
    ∃ k', step k (.call (.cvBroadcast c l)) = some k' ∧
      k'.ready = k.ready ++ k.waiters (.cv c) ∧ (k.waiters (.cv c)).Nodup ∧
      k'.asleep = k.asleep.filter fun x => !k.sleepsOn (.cv c) x := by
  have hb := reachable_base h
  have hord := reachable_ordered h
  refine ⟨fun ho => ?_,?_,?_⟩
  · obtain ⟨k',hk,hlog,hown,hw⟩ := cvWait_spec hb hcur hz hc ho c
    exact ⟨k',hk,hlog,hown,hw,fun acts' k'' => acquire_returns hb hcur (.inr ⟨c,rfl⟩) hk⟩
  · obtain ⟨k',hk,hready,hnone,hone⟩ := cvSignal_spec hb hcur hz hc c l
    refine ⟨k',hk,fun hn => ⟨?_,hnone hn⟩,fun x hx => ⟨?_,hone x hx,fun y hy hne => ?_⟩⟩
    · rw [hready,hn]
      exact List.append_nil _
    · rw [hready,hx]
      rfl
    · exact hord.longest hx hy hne
  · obtain ⟨k',hk,hready,hasleep⟩ := cvBroadcast_spec hb hcur hz hc c l
    refine ⟨k',hk,hready,?_,hasleep⟩
    have hn := hb.placed.nodup
    rw [Kernel.seated] at hn
    exact (List.Nodup.of_append_right hn).filter _

def waitAndLock : List Act :=
  [.call .fork,.call (.lockAcquire 1),.call (.cvWait 0 1),.run,.call (.lockAcquire 1)]

theorem condition_variable_correct_signal : ∃ k k',
    run Threads.step (boot fun _ => 0) waitAndLock = some k ∧ k.asleep = [0] ∧
      step k (.call (.cvSignal 0 1)) = some k' ∧ k'.ready = [0] ∧ k'.asleep = [] := by
  have h : ((run Threads.step (boot fun _ => 0) waitAndLock).any fun k =>
      decide (k.curthread = some 1 ∧ k.curspl = 0 ∧ (k.thread 1).code = [] ∧ k.asleep = [0] ∧
        k.ready = [] ∧ k.waiters (.cv 0) = [0])) = true := by decide +kernel
  obtain ⟨k,hk,he⟩ := some_of_any h
  obtain ⟨hcur,hz,hc,ha,hr,hw⟩ := of_decide_eq_true he
  obtain ⟨k',hs,_,hone⟩ := (condition_variable_correct hk hcur hz hc 0 1).2.1
  obtain ⟨hready,hasleep,_⟩ := hone 0 (by rw [hw]; rfl)
  refine ⟨k,k',hk,ha,hs,?_,?_⟩
  · rw [hready,hr]
    rfl
  · rw [hasleep,ha]
    rfl

end Runs

end MipsOs.Threads
