import MipsOs.ExitStatus

/-! Whether a waiter is woken at all. -/

set_option autoImplicit false
namespace MipsOs.Proc
open Runs

def Pc.flagging : Pc → Bool
  | .exitRelease _ | .exitFlag _ => true
  | _ => false

def hasBroadcast (s : State) (p : Nat) : Bool :=
  (s.threads p).pc.unpublished || (s.threads p).pc.over && (s.exitArg p).isSome

/-- A process broadcasts only while no waiter is between its test of exited and its
sleep on exitcv, and no waiter tests exited between the broadcast and the store. -/
def Act.Timely (s : State) : Act → Prop
  | .go t _ _ => (∀ c, (s.threads t).pc = .exitBroadcast c → ∀ i, i < s.nthreads →
      (s.threads i).pc ≠ .waitAcquire (s.threads t).pid ∧
      (s.threads i).pc ≠ .waitSleep (s.threads t).pid) ∧
      ∀ p, (s.threads t).pc = .waitExited p → (s.threads p).pc.flagging = false
  | .call _ _ => True

def Sleepy (s : State) (t p : Nat) : Prop :=
  (s.threads t).pc = .waitAcquire p ∨ (s.threads t).pc = .waitSleep p ∨
    (s.threads t).asleep = some (.cv p)

structure Notified (s : State) : Prop extends Base s where
  resting : ∀ t p, t < s.nthreads → (s.threads t).asleep = some (.cv p) →
    (s.threads t).pc = .waitAgain p
  flagged : ∀ p, p < s.nthreads → hasBroadcast s p = true → (s.threads p).pc.flagging = false →
    (s.table p).exited = true
  nobody : ∀ t p, t < s.nthreads → hasBroadcast s p = true → ¬ Sleepy s t p

variable {s s' : State} {t p : Nat} {wake : Option Addr}

theorem Notified.sleepy_known (h : Notified s) (ht : t < s.nthreads)
    (hp : Sleepy s t p) : p < s.nthreads := by
  refine h.known t p ht ?_
  rcases hp with hp | hp | hp
  · rw [hp]
    exact ⟨rfl,by simp⟩
  · rw [hp]
    exact ⟨rfl,by simp⟩
  · rw [h.resting t p ht hp]
    exact ⟨rfl,by simp⟩

theorem wakeUp_asleep {th : Thread} {a : Addr}
    (h : (wakeUp wake th).asleep = some a) : th.asleep = some a := by
  unfold wakeUp at h
  split at h
  · cases h
  · exact h

theorem hasBroadcast_other (h : Exits s)
    (ho : Others s t wake s') (hp : p < s.nthreads) (hpt : p ≠ t) (hb : hasBroadcast s' p = true) :
    hasBroadcast s p = true ∧ (s'.threads p).pc = (s.threads p).pc := by
  rcases ho.pc p hp hpt with heq | ⟨hemb,hor⟩
  · refine ⟨?_,heq⟩
    rwa [hasBroadcast,heq,ho.exitArg p hpt] at hb
  · have hnone := (h.quiet hp (by rw [hemb]; rfl) (by rw [hemb]; rfl)).1
    rw [hasBroadcast,ho.exitArg p hpt,hnone] at hb
    rcases hor with heq | heq <;> simp [heq,Pc.unpublished] at hb

structure ActorNotified (s : State) (t : Nat) (wake : Option Addr) (s' : State) : Prop where
  resting : ∀ p, (s'.threads t).asleep = some (.cv p) → (s'.threads t).pc = .waitAgain p
  sleepy : ∀ p, Sleepy s' t p → hasBroadcast s' p = false
  flagged : hasBroadcast s' t = true → (s'.threads t).pc.flagging = false →
    (s'.table t).exited = true
  broadcast : hasBroadcast s' t = true → hasBroadcast s t = true ∨ wake = some (.cv t) ∧
    ∀ i, i < s.nthreads → (s.threads i).pc ≠ .waitAcquire t ∧ (s.threads i).pc ≠ .waitSleep t

theorem Sleepy.back (ho : Others s t wake s')
    {i : Nat} (hi : i < s'.nthreads) (hit : i ≠ t) (h : Sleepy s' i p) :
    i < s.nthreads ∧ Sleepy s i p ∧
      ((s.threads i).asleep = some (.cv p) → wake = some (.cv p) →
        (s.threads i).pc = .waitAcquire p ∨ (s.threads i).pc = .waitSleep p) := by
  have hin : i < s.nthreads := by
    by_contra hge
    rw [Sleepy,ho.new i (by omega) hi] at h
    rcases h with h | h | h <;> cases h
  refine ⟨hin,?_⟩
  have hpc : (s'.threads i).pc.awaits = some p → (s'.threads i).pc = (s.threads i).pc :=
    fun hp => (ho.waiter_cases hi hp hit).2
  rcases h with h | h | h
  · rw [hpc (by rw [h]; rfl)] at h
    exact ⟨.inl h,fun _ _ => .inl h⟩
  · rw [hpc (by rw [h]; rfl)] at h
    exact ⟨.inr (.inl h),fun _ _ => .inr h⟩
  · rw [ho.asleep i hin hit,wakeUp] at h
    split at h
    · cases h
    · rename_i hne
      refine ⟨.inr (.inr h),fun ha hw => absurd ⟨by rw [ha]; rfl,ha.trans hw.symm⟩ hne⟩

theorem Notified.of_others (h : Notified s)
    (hb : Base s') (ho : Others s t wake s') (hself : ActorNotified s t wake s') : Notified s' where
  toBase := hb
  resting := by
    intro i p hi hp
    by_cases hit : i = t
    · subst hit
      exact hself.resting p hp
    · obtain ⟨hin,hs,_⟩ := Sleepy.back ho hi hit (.inr (.inr hp))
      rw [ho.asleep i hin hit] at hp
      have hcv := wakeUp_asleep hp
      rcases ho.pc i hin hit with heq | ⟨hemb,_⟩
      · rw [heq]
        exact h.resting i p hin hcv
      · have hag := h.resting i p hin hcv
        rw [hemb] at hag
        cases hag
  flagged := by
    intro p hp hbr hfl
    by_cases hpt : p = t
    · subst hpt
      exact hself.flagged hbr hfl
    by_cases hin : p < s.nthreads
    · obtain ⟨hbr',heq⟩ := hasBroadcast_other h.exits ho hin hpt hbr
      rw [ho.exited p hpt]
      exact h.flagged p hin hbr' (heq ▸ hfl)
    · rw [hasBroadcast,ho.new p (by omega) hp] at hbr
      cases hbr
  nobody := by
    intro i p hi hbr hp
    by_cases hit : i = t
    · subst hit
      rw [hself.sleepy p hp] at hbr
      cases hbr
    obtain ⟨hin,hs,hwoken⟩ := hp.back ho hi hit
    by_cases hpt : p = t
    · subst hpt
      rcases hself.broadcast hbr with hbr' | ⟨hw,hno⟩
      · exact h.nobody i p hin hbr' hs
      · rcases hs with hs | hs | hs
        · exact (hno i hin).1 hs
        · exact (hno i hin).2 hs
        · rcases hwoken hs hw with hs' | hs'
          · exact (hno i hin).1 hs'
          · exact (hno i hin).2 hs'
    · exact h.nobody i p hin
        (hasBroadcast_other h.exits ho (h.sleepy_known hin hs) hpt hbr).1 hs

theorem hasBroadcast_of_pc (hu : (s.threads t).pc.unpublished = false)
    (hov : (s.threads t).pc.over = false) : hasBroadcast s t = false := by
  simp [hasBroadcast,hu,hov]

theorem ActorNotified.aloof
    (hs : ∀ p, ¬ Sleepy s' t p) (hb : hasBroadcast s' t = false) : ActorNotified s t wake s' where
  resting := fun p hp => absurd (.inr (.inr hp)) (hs p)
  sleepy := fun p hp => absurd hp (hs p)
  flagged := fun h => by rw [hb] at h; cases h
  broadcast := fun h => by rw [hb] at h; cases h

theorem ActorNotified.waiter (h : Notified s)
    (ho : Others s t wake s') (hb : hasBroadcast s' t = false)
    (hrest : ∀ q, (s'.threads t).asleep = some (.cv q) → (s'.threads t).pc = .waitAgain q)
    (hs : ∀ q, Sleepy s' t q → q = p) (hp : p < s.nthreads) (hnb : hasBroadcast s p = false) :
    ActorNotified s t wake s' where
  resting := hrest
  sleepy := by
    intro q hq
    obtain rfl := hs q hq
    by_cases hqt : q = t
    · subst hqt
      exact hb
    · cases hbr : hasBroadcast s' q with
      | false => rfl
      | true => rw [(hasBroadcast_other h.exits ho hp hqt hbr).1] at hnb; cases hnb
  flagged := fun h => by rw [hb] at h; cases h
  broadcast := fun h => by rw [hb] at h; cases h

theorem ActorNotified.startCall (h : Notified s) (ht : t < s.nthreads)
    (hpc : (s.threads t).pc = .user) (hasleep : (s.threads t).asleep = none) (c : Call) :
    ActorNotified s t none (startCall s t c) := by
  have hself := startCall_self hpc c
  have hnone := (h.exits.quiet ht (by rw [hpc]; rfl) (by rw [hpc]; rfl)).1
  refine .aloof (fun p hp => ?_) ?_
  · simp only [Sleepy,hself,hasleep] at hp
    rcases hp with hp | hp | hp
    · exact Call.start_not_found p (by rw [hp]; exact ⟨rfl,by simp⟩)
    · exact Call.start_not_found p (by rw [hp]; exact ⟨rfl,by simp⟩)
    · cases hp
  · cases c with
    | fork e => cases e <;> exact hasBroadcast_of_pc (by rw [hself]; rfl) (by rw [hself]; rfl)
    | threadFork | exit => exact hasBroadcast_of_pc (by rw [hself]; rfl) (by rw [hself]; rfl)
    | threadExit =>
      have harg : (Proc.startCall s t .threadExit).exitArg t = none := hnone
      rw [hasBroadcast,hself,harg]
      rfl
    | waitpid w =>
      refine hasBroadcast_of_pc ?_ ?_ <;> rw [hself] <;> simp only [Call.start] <;> split <;> rfl

theorem ActorNotified.leaving (h : Notified s) (ht : t < s.nthreads) (hs : ∀ p, ¬ Sleepy s' t p)
    (hb : hasBroadcast s' t = true → hasBroadcast s t = true)
    (hfl : (s'.threads t).pc.flagging = true ∨ (s'.table t).exited = true ∨
      (s.threads t).pc.flagging = false ∧ (s'.table t).exited = (s.table t).exited) :
    ActorNotified s t wake s' where
  resting := fun p hp => absurd (.inr (.inr hp)) (hs p)
  sleepy := fun p hp => absurd hp (hs p)
  flagged := by
    intro hbr hno
    rcases hfl with hfl | hfl | ⟨hold,hsame⟩
    · rw [hno] at hfl
      cases hfl
    · exact hfl
    · rw [hsame]
      exact h.flagged t ht (hb hbr) hold
  broadcast := fun hbr => .inl (hb hbr)

theorem ActorNotified.apply (h : Notified s) (ht : t < s.nthreads)
    {pc : Pc} {e : Effect} (hpc : (s.threads t).pc = pc) (hx : Exec s t pc e)
    (hcast : ∀ c, pc = .exitBroadcast c → ∀ i, i < s.nthreads →
      (s.threads i).pc ≠ .waitAcquire (s.threads t).pid ∧
      (s.threads i).pc ≠ .waitSleep (s.threads t).pid)
    (htest : ∀ p, pc = .waitExited p → (s.threads p).pc.flagging = false) :
    ActorNotified s t e.wake (e.apply s t) := by
  have ho := apply_others h.booked ht hx
  have hself := apply_self e s t
  have hpid := h.booked.pid t ht
  have hnb : ∀ p, Sleepy s t p → p < s.nthreads ∧ hasBroadcast s p = false := by
    intro p hp
    refine ⟨h.sleepy_known ht hp,?_⟩
    cases hb : hasBroadcast s p with
    | false => rfl
    | true => exact absurd hp (h.nobody t p ht hb)
  cases hx with
  | @isRunning p hrun =>
    have hp := h.known t p ht (by rw [hpc]; exact ⟨rfl,by simp⟩)
    refine .waiter h ho (p := p) (hasBroadcast_of_pc (by rw [hself]; rfl) (by rw [hself]; rfl))
      (by simp) (fun q hq => ?_) hp ?_
    · simp only [Sleepy,hself] at hq
      rcases hq with hq | hq | hq <;> cases hq
      rfl
    · cases hb : hasBroadcast s p with
      | false => rfl
      | true =>
        rw [h.flagged p hp hb (htest p rfl)] at hrun
        cases hrun
  | @acquire p _ | @acquireBlocks p | @sleep p =>
    obtain ⟨hp,hb⟩ := hnb p (by simp [Sleepy,hpc])
    refine .waiter h ho (p := p) (hasBroadcast_of_pc (by rw [hself]; rfl) (by rw [hself]; rfl))
      (by simp) (fun q hq => ?_) hp hb
    simp only [Sleepy,hself] at hq
    rcases hq with hq | hq | hq <;> cases hq
    rfl
  | refuse | isThread | isUnwaited | isOther | isNoParent | hasExited | code | again
  | againBlocks | release | status | mark | exitAcquire | exitBlocks =>
    refine .aloof (fun q hq => ?_) (hasBroadcast_of_pc (by rw [hself]; rfl) (by rw [hself]; rfl))
    simp only [Sleepy,hself] at hq
    rcases hq with hq | hq | hq <;> cases hq
  | @broadcast c =>
    refine ⟨by simp,fun q hq => ?_,fun _ hfl => ?_,
      fun _ => .inr ⟨by rw [hpid],fun i hi => ?_⟩⟩
    · simp only [Sleepy,hself] at hq
      rcases hq with hq | hq | hq <;> cases hq
    · rw [hself] at hfl
      cases hfl
    · have hno := hcast c rfl i hi
      rwa [hpid] at hno
  | exitRelease =>
    refine .leaving h ht (by simp [Sleepy]) (fun _ => ?_) (.inl (by rw [hself]; rfl))
    simp [hasBroadcast,hpc,Pc.unpublished]
  | flag =>
    refine .leaving h ht (by simp [Sleepy]) (fun _ => ?_) (.inr (.inl ?_))
    · simp [hasBroadcast,hpc,Pc.unpublished]
    · simp [Effect.apply,hpid]
  | exitCode =>
    refine .leaving h ht (by simp [Sleepy]) (fun _ => ?_) (.inr (.inr ⟨by rw [hpc]; rfl,?_⟩))
    · simp [hasBroadcast,hpc,Pc.unpublished]
    · simp [Effect.apply,hpid]
  | threadExit =>
    refine .leaving h ht (by simp [Sleepy]) (fun hb => ?_)
      (.inr (.inr ⟨by rw [hpc]; rfl,rfl⟩))
    rw [hasBroadcast,hself] at hb
    rw [hasBroadcast,hpc]
    exact hb

theorem Notified.step (h : Notified s) {a : Act} (hc : a.Timely s)
    (hs : Proc.step s a = some s') : Notified s' := by
  have hb := (h.toBase.step hs).1
  obtain ⟨t,c,rfl,ht,hpc,ha,rfl⟩ | ⟨t,_,_,e,rfl,ht,ha,he,rfl⟩ | ⟨t,_,_,rfl,ht,ha,hf⟩ := step_cases hs
  · exact h.of_others hb (startCall_others h.booked ht c) (.startCall h ht hpc ha c)
  · have hex := effect_exec he
    exact h.of_others hb (apply_others h.booked ht hex) (.apply h ht rfl hex hc.1 hc.2)
  · obtain ⟨ho,_,⟨pc,hpc,hthr⟩,_⟩ := forked_others h.booked ht (forkStep_forked h.booked hf)
    refine h.of_others hb ho (.aloof (fun p hp => ?_) (hasBroadcast_of_pc ?_ ?_))
    · simp only [Sleepy,hthr,ha] at hp
      have haw := Pc.awaits_of_forking hpc
      rcases hp with rfl | rfl | hp
      · cases haw
      · cases haw
      · cases hp
    · rw [hthr]
      rcases hpc with rfl | hpc
      · rfl
      · cases pc <;> simp_all [Pc.forking,Pc.unpublished]
    · rw [hthr]
      rcases hpc with rfl | hpc
      · rfl
      · cases pc <;> simp_all [Pc.forking,Pc.over]

theorem threadBootstrap_notified : Notified threadBootstrap where
  toBase := threadBootstrap_base
  resting := by
    intro t p ht hp
    rw [threadBootstrap_asleep] at hp
    cases hp
  flagged := by
    intro p hp hb
    rw [hasBroadcast,threadBootstrap_thread hp] at hb
    cases hb
  nobody := by
    intro t p ht _ hp
    rw [Sleepy,threadBootstrap_thread ht] at hp
    rcases hp with hp | hp | hp <;> cases hp

/-- No waiter sleeps on exitcv of a process that has broadcast, when broadcasts and
tests of exited are timely. -/
theorem no_sleeper_after_broadcast {acts : List Act} {s : State}
    (hc : Along step (fun s a => a.Timely s) threadBootstrap acts)
    (hr : run step threadBootstrap acts = some s) (t p : Nat) (ht : t < s.nthreads)
    (hb : hasBroadcast s p = true) : (s.threads t).asleep ≠ some (.cv p) := by
  have hinv : Notified s := run_keeps (fun u a w hu ha hw => hu.step ha hw)
    threadBootstrap_notified hc hr
  exact fun ha => hinv.nobody t p ht hb (.inr (.inr ha))

def Act.isTimely (s : State) : Act → Bool
  | .go t _ _ =>
    match (s.threads t).pc with
    | .exitBroadcast _ => (List.range s.nthreads).all fun i =>
        (s.threads i).pc != .waitAcquire (s.threads t).pid &&
        (s.threads i).pc != .waitSleep (s.threads t).pid
    | .waitExited p => !(s.threads p).pc.flagging
    | _ => true
  | .call _ _ => true

theorem Act.Timely.of_test (s : State) (a : Act) (h : a.isTimely s = true) : a.Timely s := by
  cases a with
  | call t c => exact True.intro
  | go t fails junk =>
    refine ⟨fun c hc i hi => ?_,fun p hp => ?_⟩
    · simp only [Act.isTimely,hc,List.all_eq_true,List.mem_range] at h
      simpa using h i hi
    · simpa [Act.isTimely,hp] using h

/-- The parent is asleep before the child exits. -/
theorem sleeper_is_woken : ∃ s, run step threadBootstrap
      (startFirst ++ forkOnce ++ (waitFor 1 2 :: goes 1 7) ++ (.call 2 (.exit 7) :: goes 2 6)) =
        some s ∧
    hasBroadcast s 2 = true ∧ (s.threads 1).asleep ≠ some (.cv 2) := by
  have hread : (run step threadBootstrap
      (startFirst ++ forkOnce ++ (waitFor 1 2 :: goes 1 7) ++
        (.call 2 (.exit 7) :: goes 2 6))).map
      (fun s => (s.nthreads,hasBroadcast s 2)) = some (3,true) := by
    decide +kernel
  obtain ⟨s,hs,hv⟩ := Option.map_eq_some_iff.mp hread
  simp only [Prod.mk.injEq] at hv
  have htimely : checkAlong step (fun s a => a.isTimely s) threadBootstrap
      (startFirst ++ forkOnce ++ (waitFor 1 2 :: goes 1 7) ++
        (.call 2 (.exit 7) :: goes 2 6)) = true := by
    decide +kernel
  exact ⟨s,hs,hv.2,no_sleeper_after_broadcast
    (Along.of_check Act.Timely.of_test htimely) hs 1 2 (by omega) hv.2⟩

/-- The child exits between the parent's test of exited and its cv_wait. -/
theorem sleeper_is_lost : ∃ s, run step threadBootstrap
      (startFirst ++ forkOnce ++ (waitFor 1 2 :: goes 1 5) ++ (.call 2 (.exit 7) :: goes 2 6) ++
        goes 1 2) = some s ∧
    hasBroadcast s 2 = true ∧ (s.threads 2).pc = .dead ∧
    (s.threads 1).asleep = some (.cv 2) := by
  have hread : (run step threadBootstrap
      (startFirst ++ forkOnce ++ (waitFor 1 2 :: goes 1 5) ++ (.call 2 (.exit 7) :: goes 2 6) ++
        goes 1 2)).map
      (fun s => (hasBroadcast s 2,(s.threads 2).pc,(s.threads 1).asleep)) =
      some (true,.dead,some (.cv 2)) := by
    decide +kernel
  obtain ⟨s,hs,hv⟩ := Option.map_eq_some_iff.mp hread
  simp only [Prod.mk.injEq] at hv
  exact ⟨s,hs,hv⟩

end MipsOs.Proc
