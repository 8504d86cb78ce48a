import MipsOs.ProcessTable

/-! The exit status a waiter stores. -/

set_option autoImplicit false
namespace MipsOs.Proc
open Function Runs

def Pc.exiting : Pc → Option Int
  | .exitAcquire c | .exitBroadcast c | .exitRelease c | .exitFlag c | .exitCode c => some c
  | _ => none

def Pc.unpublished : Pc → Bool
  | .exitRelease _ | .exitFlag _ | .exitCode _ => true
  | _ => false

def Pc.over : Pc → Bool
  | .threadExit | .dead => true
  | _ => false

def Settled (s : State) (p : Nat) : Prop :=
  (s.threads p).pc.over = true ∧ s.exitArg p = some (s.table p).exitcode

/-- What the table and the exiting threads say of each other. -/
structure Exits (s : State) : Prop where
  fresh : ∀ p, s.nthreads ≤ p → s.exitArg p = none ∧ (s.table p).exited = false
  arg : ∀ p c, p < s.nthreads → (s.threads p).pc.exiting = some c → s.exitArg p = some c
  once : ∀ p c, p < s.nthreads → s.exitArg p = some c → (s.threads p).pc.exiting = some c ∨
    (s.threads p).pc.over = true
  exited : ∀ p, p < s.nthreads → (s.table p).exited = true →
    (s.threads p).pc.unpublished = true ∨ Settled s p

variable {s s' : State} {t p : Nat} {wake : Option Addr} {pc : Pc} {e : Effect} {a : Act}

theorem Exits.quiet (h : Exits s) (ht : t < s.nthreads)
    (hx : (s.threads t).pc.exiting = none) (ho : (s.threads t).pc.over = false) :
    s.exitArg t = none ∧ (s.table t).exited = false := by
  have hnone : s.exitArg t = none := by
    cases ha : s.exitArg t with
    | none => rfl
    | some c =>
      rcases h.once t c ht ha with hc | hc
      · rw [hx] at hc
        cases hc
      · rw [ho] at hc
        cases hc
  refine ⟨hnone,?_⟩
  cases he : (s.table t).exited with
  | false => rfl
  | true =>
    rcases h.exited t ht he with hu | hs
    · cases hpc : (s.threads t).pc <;> simp_all [Pc.unpublished,Pc.exiting]
    · have harg := hs.2
      rw [hnone] at harg
      cases harg

/-- What processes have published stays published. -/
structure Keeps (s s' : State) : Prop where
  unpublished : ∀ p, p < s.nthreads → (s.threads p).pc.unpublished = true →
    (s'.threads p).pc.unpublished = true ∨ Settled s' p
  settled : ∀ p, p < s.nthreads → Settled s p → Settled s' p
  exitArg : ∀ p v, p < s.nthreads → s.exitArg p = some v → s'.exitArg p = some v

theorem Exits.of_others (h : Exits s) (ho : Others s t wake s') (ht : t < s.nthreads)
    (harg : ∀ c, (s'.threads t).pc.exiting = some c → s'.exitArg t = some c)
    (honce : ∀ c, s'.exitArg t = some c → (s'.threads t).pc.exiting = some c ∨
      (s'.threads t).pc.over = true)
    (hexited : (s'.table t).exited = true → (s'.threads t).pc.unpublished = true ∨ Settled s' t) :
    Exits s' := by
  have hnew : ∀ p, s.nthreads ≤ p → s'.exitArg p = none ∧ (s'.table p).exited = false := by
    intro p hp
    have hpt : p ≠ t := by omega
    rw [ho.exitArg p hpt,ho.exited p hpt]
    exact h.fresh p hp
  refine ⟨fun p hp => hnew p (Nat.le_trans ho.grows hp),fun p c hp hc => ?_,
    fun p c hp hc => ?_,fun p hp he => ?_⟩
  · by_cases hpt : p = t
    · subst hpt
      exact harg c hc
    by_cases hlt : p < s.nthreads
    · rw [ho.exitArg p hpt]
      rcases ho.pc p hlt hpt with heq | ⟨_,heq | heq⟩
      · rw [heq] at hc
        exact h.arg p c hlt hc
      · rw [heq] at hc
        cases hc
      · rw [heq] at hc
        cases hc
    · rw [ho.new p (by omega) hp] at hc
      cases hc
  · by_cases hpt : p = t
    · subst hpt
      exact honce c hc
    by_cases hlt : p < s.nthreads
    · rw [ho.exitArg p hpt] at hc
      have hold := h.once p c hlt hc
      rcases ho.pc p hlt hpt with heq | ⟨hemb,_⟩
      · rw [heq]
        exact hold
      · rw [hemb] at hold
        rcases hold with hold | hold <;> cases hold
    · rw [(hnew p (by omega)).1] at hc
      cases hc
  · by_cases hpt : p = t
    · subst hpt
      exact hexited he
    by_cases hlt : p < s.nthreads
    · rw [ho.exited p hpt] at he
      rcases ho.pc p hlt hpt with heq | ⟨hemb,_⟩
      · rcases h.exited p hlt he with hu | hset
        · exact .inl (heq ▸ hu)
        · refine .inr ⟨heq ▸ hset.1,?_⟩
          rw [ho.exitArg p hpt,ho.exitcode p hpt]
          exact hset.2
      · have hq := h.quiet hlt (by rw [hemb]; rfl) (by rw [hemb]; rfl)
        rw [hq.2] at he
        cases he
    · rw [(hnew p (by omega)).2] at he
      cases he

theorem Keeps.of_others (ho : Others s t wake s') (hun : (s.threads t).pc.unpublished = true →
      (s'.threads t).pc.unpublished = true ∨ Settled s' t) (hset : Settled s t → Settled s' t)
    (harg : ∀ v, s.exitArg t = some v → s'.exitArg t = some v) : Keeps s s' := by
  refine ⟨fun p hp hu => ?_,fun p hp hs => ?_,fun p v hp hv => ?_⟩
  · by_cases hpt : p = t
    · subst hpt
      exact hun hu
    rcases ho.pc p hp hpt with heq | ⟨hemb,_⟩
    · exact .inl (heq ▸ hu)
    · rw [hemb] at hu
      cases hu
  · by_cases hpt : p = t
    · subst hpt
      exact hset hs
    refine ⟨?_,?_⟩
    · rcases ho.pc p hp hpt with heq | ⟨hemb,_⟩
      · exact heq ▸ hs.1
      · have hover := hs.1
        rw [hemb] at hover
        cases hover
    · rw [ho.exitArg p hpt,ho.exitcode p hpt]
      exact hs.2
  · by_cases hpt : p = t
    · subst hpt
      exact harg v hv
    · rw [ho.exitArg p hpt]
      exact hv

theorem Exits.uninvolved (h : Exits s) (ho : Others s t wake s') (ht : t < s.nthreads)
    (hx : (s.threads t).pc.exiting = none) (hov : (s.threads t).pc.over = false)
    (hx' : (s'.threads t).pc.exiting = none) (harg : s'.exitArg t = s.exitArg t)
    (hexited : (s'.table t).exited = (s.table t).exited) : Exits s' ∧ Keeps s s' := by
  obtain ⟨hnone,hfalse⟩ := h.quiet ht hx hov
  rw [hnone] at harg
  rw [hfalse] at hexited
  refine ⟨h.of_others ho ht (fun c hc => ?_) (fun c hc => ?_) (fun he => ?_),
    Keeps.of_others ho (fun hu => ?_) (fun hs => ?_) (fun v hv => ?_)⟩
  · rw [hx'] at hc
    cases hc
  · rw [harg] at hc
    cases hc
  · rw [hexited] at he
    cases he
  · cases hpc : (s.threads t).pc <;> simp_all [Pc.unpublished,Pc.exiting]
  · rw [hs.1] at hov
    cases hov
  · rw [hnone] at hv
    cases hv

theorem Exits.startCall (hb : Booked s) (h : Exits s) (ht : t < s.nthreads)
    (hpc : (s.threads t).pc = .user) (c : Call) :
    Exits (startCall s t c) ∧ Keeps s (startCall s t c) := by
  have ho := startCall_others hb ht c
  have hself := startCall_self hpc c
  have hx : (s.threads t).pc.exiting = none := by rw [hpc]; rfl
  have hov : (s.threads t).pc.over = false := by rw [hpc]; rfl
  cases c with
  | exit c =>
    obtain ⟨hnone,hfalse⟩ := h.quiet ht hx hov
    have harg : (Proc.startCall s t (.exit c)).exitArg t = some c := by
      simp [Proc.startCall,hb.pid t ht]
    have hex : ((Proc.startCall s t (.exit c)).threads t).pc.exiting = some c := by
      rw [hself]
      rfl
    refine ⟨h.of_others ho ht (fun c' hc => ?_) (fun c' hc => ?_) (fun he => ?_),
      Keeps.of_others ho (fun hu => ?_) (fun hs => ?_) (fun v hv => ?_)⟩
    · rw [harg,← hex,hc]
    · rw [harg] at hc
      exact .inl (hex.trans hc)
    · have he' : (s.table t).exited = true := he
      rw [hfalse] at he'
      cases he'
    · rw [hpc] at hu
      cases hu
    · rw [hs.1] at hov
      cases hov
    · rw [hnone] at hv
      cases hv
  | fork e =>
    refine h.uninvolved ho ht hx hov ?_ ?_ ?_ <;> cases e
    · rw [hself]; rfl
    · rw [hself]; rfl
    · rfl
    · rfl
    · rfl
    · rfl
  | threadFork | threadExit => exact h.uninvolved ho ht hx hov (by rw [hself]; rfl) rfl rfl
  | waitpid w =>
    obtain ⟨_,htab,_⟩ := startCall_threads s t (.waitpid w)
    refine h.uninvolved ho ht hx hov ?_ ?_ (by rw [htab])
    · rw [hself]
      simp only [Call.start]
      split <;> rfl
    · simp only [Proc.startCall]
      split <;> rfl

theorem Exits.forked (hb : Booked s) (h : Exits s) (ht : t < s.nthreads)
    (hf : Forked s t s') : Exits s' ∧ Keeps s s' := by
  obtain ⟨ho,hfork,⟨pc,hpc,hthr⟩,htab,harg,_⟩ := forked_others hb ht hf
  refine h.uninvolved ho ht ?_ ?_ ?_ (by rw [harg]) (htab t).1
  · cases hp : (s.threads t).pc <;> simp_all [Pc.forking,Pc.exiting]
  · cases hp : (s.threads t).pc <;> simp_all [Pc.forking,Pc.over]
  · rw [hthr]
    rcases hpc with rfl | hpc
    · rfl
    · cases pc <;> simp_all [Pc.forking,Pc.exiting]

theorem Exec.waiting (h : Exec s t pc e)
    (hp : pc.awaits = some p) : pc.exiting = none ∧ pc.over = false ∧ e.pc.exiting = none ∧
      ∀ i, ((e.apply s t).table i).exited = (s.table i).exited ∧
        ((e.apply s t).table i).exitcode = (s.table i).exitcode := by
  have hup : ∀ q en, en.exited = (s.table q).exited → en.exitcode = (s.table q).exitcode →
      ∀ i, (update s.table q en i).exited = (s.table i).exited ∧
        (update s.table q en i).exitcode = (s.table i).exitcode := by
    intro q en he hc i
    by_cases hi : i = q
    · subst hi
      simp [he,hc]
    · simp [hi]
  cases h with
  | refuse hq =>
    refine ⟨?_,?_,rfl,fun i => ⟨rfl,rfl⟩⟩ <;> cases pc <;> first | rfl | cases hq
  | acquire | sleep | again | release | mark => exact ⟨rfl,rfl,rfl,hup _ _ rfl rfl⟩
  | exitAcquire | exitBlocks | broadcast | exitRelease | flag | exitCode | threadExit => cases hp
  | _ => exact ⟨rfl,rfl,rfl,fun i => ⟨rfl,rfl⟩⟩

theorem Exits.underway (h : Exits s) (ho : Others s t wake s') (ht : t < s.nthreads) {c : Int}
    (hx : (s.threads t).pc.exiting = some c) (hx' : (s'.threads t).pc.exiting = some c)
    (harg : s'.exitArg t = s.exitArg t) (hexited : (s'.table t).exited = (s.table t).exited ∨
      (s'.threads t).pc.unpublished = true)
    (hun : (s.threads t).pc.unpublished = true → (s'.threads t).pc.unpublished = true) :
    Exits s' ∧ Keeps s s' := by
  have hc := h.arg t c ht hx
  have hov : (s.threads t).pc.over = false := by
    cases hpc : (s.threads t).pc <;> simp_all [Pc.exiting,Pc.over]
  refine ⟨h.of_others ho ht (fun c' hc' => ?_) (fun c' hc' => ?_) (fun he => ?_),
    Keeps.of_others ho (fun hu => .inl (hun hu)) (fun hs => ?_) (fun v hv => harg ▸ hv)⟩
  · rw [harg,hc,← hx',hc']
  · rw [harg,hc] at hc'
    exact .inl (hx'.trans hc')
  · rcases hexited with hsame | hu
    · rcases h.exited t ht (hsame ▸ he) with hu | hs
      · exact .inl (hun hu)
      · rw [hs.1] at hov
        cases hov
    · exact .inl hu
  · rw [hs.1] at hov
    cases hov

theorem Exits.apply (hb : Booked s) (h : Exits s) (ht : t < s.nthreads)
    (hpc : (s.threads t).pc = pc) (hx : Exec s t pc e) :
    Exits (e.apply s t) ∧ Keeps s (e.apply s t) := by
  have ho := apply_others hb ht hx
  have hpid := hb.pid t ht
  cases hp : pc.awaits with
  | some p =>
    obtain ⟨hex,hov,hex',htab⟩ := hx.waiting hp
    exact h.uninvolved ho ht (by rw [hpc]; exact hex) (by rw [hpc]; exact hov)
      (by rw [apply_self]; exact hex') rfl (htab t).1
  | none =>
    cases hx with
    | exitAcquire =>
      refine h.underway ho ht (by rw [hpc]; rfl) (by rw [apply_self]; rfl) rfl (.inl ?_)
        (by rw [hpc]; intro hu; cases hu)
      simp [Effect.apply,hpid]
    | exitBlocks | broadcast =>
      exact h.underway ho ht (by rw [hpc]; rfl) (by rw [apply_self]; rfl) rfl (.inl rfl)
        (by rw [hpc]; intro hu; cases hu)
    | exitRelease | flag =>
      exact h.underway ho ht (by rw [hpc]; rfl) (by rw [apply_self]; rfl) rfl
        (.inr (by rw [apply_self]; rfl)) fun _ => by rw [apply_self]; rfl
    | exitCode =>
      rename_i c
      have harg := h.arg t c ht (by rw [hpc]; rfl)
      have hset : Settled (Effect.apply { pc := .threadExit, entry := some ((s.threads t).pid,
          { s.table (s.threads t).pid with exitcode := c }) } s t) t := by
        refine ⟨by rw [apply_self]; rfl,?_⟩
        simp [Effect.apply,hpid,harg]
      refine ⟨h.of_others ho ht (fun c' hc' => ?_) (fun _ _ => .inr hset.1) (fun _ => .inr hset),
        Keeps.of_others ho (fun _ => .inr hset) (fun _ => hset) fun v hv => hv⟩
      rw [apply_self] at hc'
      cases hc'
    | threadExit =>
      have hset : Settled s t → Settled (Effect.apply { pc := .dead } s t) t := fun hs =>
        ⟨by rw [apply_self]; rfl,hs.2⟩
      refine ⟨h.of_others ho ht (fun c' hc' => ?_) (fun _ _ => .inr (by rw [apply_self]; rfl))
        (fun he => ?_),Keeps.of_others ho (fun hu => ?_) hset fun v hv => hv⟩
      · rw [apply_self] at hc'
        cases hc'
      · rcases h.exited t ht he with hu | hs
        · rw [hpc] at hu
          cases hu
        · exact .inr (hset hs)
      · rw [hpc] at hu
        cases hu
    | refuse hq =>
      rw [hp] at hq
      cases hq
    | _ => cases hp

theorem Exits.step (hb : Booked s) (h : Exits s)
    (hs : Proc.step s a = some s') : Exits s' ∧ Keeps s s' := by
  obtain ⟨t,c,rfl,ht,hpc,_,rfl⟩ | ⟨t,_,_,e,rfl,ht,_,he,rfl⟩ | ⟨t,_,_,rfl,ht,_,hf⟩ := step_cases hs
  · exact h.startCall hb ht hpc c
  · exact h.apply hb ht rfl (effect_exec he)
  · exact h.forked hb ht (forkStep_forked hb hf)

/-- Inside sys_waitpid for `p`, past the test that there is such a process. -/
def Pc.found (p : Nat) (pc : Pc) : Prop := pc.awaits = some p ∧ pc ≠ .waitThread p

theorem Exec.found (h : Exec s t pc e)
    (hp : e.pc.found p) : pc.found p ∨ (s.table p).processthread.isSome = true := by
  have haw := h.awaits hp.1
  cases h with
  | @isThread q hq =>
    cases haw
    exact .inr hq
  | acquireBlocks | againBlocks => exact .inl hp
  | refuse => cases hp.1
  | _ => exact .inl ⟨haw,by simp⟩

theorem Others.waiter_cases (ho : Others s t wake s')
    {i : Nat} (hi : i < s'.nthreads) (hp : (s'.threads i).pc.awaits = some p) (hit : i ≠ t) :
    i < s.nthreads ∧ (s'.threads i).pc = (s.threads i).pc := by
  by_cases hin : i < s.nthreads
  · rcases ho.pc i hin hit with heq | ⟨_,heq | heq⟩
    · exact ⟨hin,heq⟩
    · rw [heq] at hp
      cases hp
    · rw [heq] at hp
      cases hp
  · rw [ho.new i (by omega) hi] at hp
    cases hp

theorem Call.start_not_found {c : Call} (p : Nat) : ¬ (c.start.getD .user).found p := by
  rintro ⟨haw,hne⟩
  obtain ⟨w,rfl,hw⟩ := Call.start_awaits haw
  simp only [Call.start] at haw hne
  cases hargs : waitpidArgs w with
  | some e => simp [hargs,Pc.awaits] at haw
  | none =>
    simp only [hargs,Option.isSome_none,Bool.false_eq_true,if_false,Option.getD_some,ne_eq,
      Pc.waitThread.injEq] at hne
    omega

/-- What holds in every reachable state, whatever the schedule. -/
structure Base (s : State) : Prop where
  booked : Booked s
  exits : Exits s
  known : ∀ t p, t < s.nthreads → (s.threads t).pc.found p → p < s.nthreads

theorem Base.step (h : Base s) (hs : Proc.step s a = some s') : Base s' ∧ Keeps s s' := by
  obtain ⟨hx,hk⟩ := h.exits.step h.booked hs
  refine ⟨⟨step_booked s a s' h.booked hs,hx,fun i p hi hp => ?_⟩,hk⟩
  have hother : ∀ t wake, Others s t wake s' → i ≠ t → p < s'.nthreads := by
    intro t wake ho hit
    obtain ⟨hin,heq⟩ := ho.waiter_cases hi hp.1 hit
    exact Nat.lt_of_lt_of_le (h.known i p hin (heq ▸ hp)) ho.grows
  obtain ⟨t,c,rfl,ht,hpc,_,rfl⟩ | ⟨t,_,_,e,rfl,ht,_,he,rfl⟩ | ⟨t,_,_,rfl,ht,_,hf⟩ := step_cases hs
  · by_cases hit : i = t
    · subst hit
      rw [startCall_self hpc] at hp
      exact absurd hp (Call.start_not_found p)
    · exact hother t none (startCall_others h.booked ht c) hit
  · have hex := effect_exec he
    by_cases hit : i = t
    · subst hit
      rw [apply_self] at hp
      rcases hex.found hp with hold | hthr
      · exact h.known i p ht hold
      · exact (h.booked.thread p).mp hthr
    · exact hother t e.wake (apply_others h.booked ht hex) hit
  · obtain ⟨ho,_,⟨pc,hpc,hthr⟩,_⟩ := forked_others h.booked ht (forkStep_forked h.booked hf)
    by_cases hit : i = t
    · subst hit
      have haw := hp.1
      rw [hthr,Pc.awaits_of_forking hpc] at haw
      cases haw
    · exact hother t none ho hit

/-- The next statements lead to a read of the exit code of `p`. -/
def Pc.reads (p : Nat) (pc : Pc) : Prop :=
  pc = .waitCode p ∨ pc = .waitRelease p ∨ pc = .waitStatus p

/-- No thread inside sys_waitpid for a process runs while that process is between
its cv_broadcast and its store of exitcode. -/
def Act.Unhurried (s : State) : Act → Prop
  | .go t _ _ => ∀ p, (s.threads t).pc.awaits = some p → (s.threads p).pc.unpublished = false
  | .call _ _ => True

/-- Waiters that have got past cv_wait, or have found exited set, read what the
process passed to sys_exit. -/
structure Agreement (s : State) : Prop extends Base s where
  again : ∀ t p, t < s.nthreads → (s.threads t).pc = .waitAgain p →
    (s.threads t).asleep = some (.cv p) ∨ (s.threads p).pc.unpublished = true ∨ Settled s p
  reader : ∀ t p, t < s.nthreads → (s.threads t).pc.reads p → Settled s p
  mark : ∀ t p v, t < s.nthreads → (s.threads t).pc = .waitMark p v →
    p < s.nthreads ∧ s.exitArg p = some v
  stored : ∀ r v, r ∈ s.returns → r.result = .ok v →
    ∃ p : Nat, r.pid = p ∧ p < s.nthreads ∧ s.exitArg p = some v

structure ActorAgrees (s : State) (t : Nat) (wake : Option Addr) (s' : State) : Prop where
  again : ∀ p, (s'.threads t).pc = .waitAgain p →
    (s'.threads t).asleep = some (.cv p) ∨ (s'.threads p).pc.unpublished = true ∨ Settled s' p
  reader : ∀ p, (s'.threads t).pc.reads p → Settled s' p
  mark : ∀ p v, (s'.threads t).pc = .waitMark p v → p < s.nthreads ∧ s'.exitArg p = some v
  wakes : ∀ p, wake = some (.cv p) → (s'.threads p).pc.unpublished = true
  returns : ∀ r, r ∈ s'.returns → r ∈ s.returns ∨ ∀ v, r.result = .ok v →
    ∃ p : Nat, r.pid = p ∧ p < s.nthreads ∧ s'.exitArg p = some v

theorem Pc.reads.awaits (h : pc.reads p) : pc.awaits = some p := by
  rcases h with rfl | rfl | rfl <;> rfl

theorem Agreement.of_others (h : Agreement s)
    (hb : Base s') (hk : Keeps s s') (ho : Others s t wake s')
    (hself : ActorAgrees s t wake s') : Agreement s' where
  toBase := hb
  again := by
    intro i p hi hp
    by_cases hit : i = t
    · subst hit
      exact hself.again p hp
    · obtain ⟨hin,heq⟩ := ho.waiter_cases hi (p := p) (by rw [hp]; rfl) hit
      rw [heq] at hp
      have hpn := h.known i p hin (by rw [hp]; exact ⟨rfl,by simp⟩)
      rcases h.again i p hin hp with hcv | hun | hset
      · rw [ho.asleep i hin hit]
        by_cases hw : wake = some (.cv p)
        · exact .inr (.inl (hself.wakes p hw))
        · left
          have hne : ¬ ((s.threads i).asleep.isSome = true ∧ (s.threads i).asleep = wake) := by
            rw [hcv]
            exact fun hh => hw hh.2.symm
          rw [wakeUp,if_neg hne,hcv]
      · exact .inr (hk.unpublished p hpn hun)
      · exact .inr (.inr (hk.settled p hpn hset))
  reader := by
    intro i p hi hp
    by_cases hit : i = t
    · subst hit
      exact hself.reader p hp
    · obtain ⟨hin,heq⟩ := ho.waiter_cases hi hp.awaits hit
      have hp' : (s.threads i).pc.reads p := heq ▸ hp
      have hfound : (s.threads i).pc.found p := by
        refine ⟨hp'.awaits,?_⟩
        rcases hp' with h1 | h1 | h1 <;> rw [h1] <;> simp
      exact hk.settled p (h.known i p hin hfound) (h.reader i p hin hp')
  mark := by
    intro i p v hi hp
    by_cases hit : i = t
    · subst hit
      exact (hself.mark p v hp).imp_left fun hlt => Nat.lt_of_lt_of_le hlt ho.grows
    · obtain ⟨hin,heq⟩ := ho.waiter_cases hi (p := p) (by rw [hp]; rfl) hit
      obtain ⟨hpn,harg⟩ := h.mark i p v hin (heq ▸ hp)
      exact ⟨Nat.lt_of_lt_of_le hpn ho.grows,hk.exitArg p v hpn harg⟩
  stored := by
    intro r v hr hv
    rcases hself.returns r hr with hold | hnew
    · obtain ⟨p,hp,hpn,harg⟩ := h.stored r v hold hv
      exact ⟨p,hp,Nat.lt_of_lt_of_le hpn ho.grows,hk.exitArg p v hpn harg⟩
    · obtain ⟨p,hp,hpn,harg⟩ := hnew v hv
      exact ⟨p,hp,Nat.lt_of_lt_of_le hpn ho.grows,harg⟩

theorem ActorAgrees.outside (hp : ∀ p, ¬ (s'.threads t).pc.found p)
    (hwake : ∀ p, wake = some (.cv p) → (s'.threads p).pc.unpublished = true)
    (hret : ∀ r, r ∈ s'.returns → r ∈ s.returns ∨ ∀ v, r.result = .ok v →
      ∃ p : Nat, r.pid = p ∧ p < s.nthreads ∧ s'.exitArg p = some v) : ActorAgrees s t wake s' where
  again := fun p h => absurd ⟨by rw [h]; rfl,by rw [h]; simp⟩ (hp p)
  reader := fun p h => absurd ⟨h.awaits,by rcases h with h | h | h <;> rw [h] <;> simp⟩ (hp p)
  mark := fun p v h => absurd ⟨by rw [h]; rfl,by rw [h]; simp⟩ (hp p)
  wakes := hwake
  returns := hret

theorem ActorAgrees.startCall (hpc : (s.threads t).pc = .user) (c : Call) :
    ActorAgrees s t none (startCall s t c) := by
  refine .outside (fun p hp => ?_) (by simp) (fun r hr => ?_)
  · rw [startCall_self hpc] at hp
    exact Call.start_not_found p hp
  · cases c with
    | waitpid w =>
      simp only [Proc.startCall] at hr
      split at hr
      · rw [List.mem_append,List.mem_singleton] at hr
        rcases hr with hr | rfl
        · exact .inl hr
        · exact .inr (by simp)
      · exact .inl hr
    | fork e => cases e <;> exact .inl hr
    | threadFork | exit _ | threadExit => exact .inl hr

theorem ActorAgrees.inside
    (hpc : (s'.threads t).pc = pc) (hp : pc.awaits = some p) (hlt : p < s.nthreads)
    (hagain : pc = .waitAgain p → (s'.threads t).asleep = some (.cv p) ∨
      (s'.threads p).pc.unpublished = true ∨ Settled s' p)
    (hread : pc.reads p → Settled s' p) (hmark : ∀ v, pc = .waitMark p v → s'.exitArg p = some v)
    (hwake : ∀ q, wake ≠ some (.cv q)) (hret : s'.returns = s.returns) :
    ActorAgrees s t wake s' := by
  have hsame : ∀ q, (s'.threads t).pc.awaits = some q → q = p := by
    intro q hq
    rw [hpc,hp] at hq
    exact (Option.some.inj hq).symm
  refine ⟨fun q hq => ?_,fun q hq => ?_,fun q v hq => ?_,fun q hq => absurd hq (hwake q),
    fun r hr => .inl (hret ▸ hr)⟩
  · obtain rfl := hsame q (by rw [hq]; rfl)
    exact hagain (hpc.symm.trans hq)
  · obtain rfl := hsame q hq.awaits
    exact hread (hpc ▸ hq)
  · obtain rfl := hsame q (by rw [hq]; rfl)
    exact ⟨hlt,hmark v (hpc.symm.trans hq)⟩

theorem ActorAgrees.apply (h : Agreement s) (ht : t < s.nthreads)
    (hasleep : (s.threads t).asleep = none) (hpc : (s.threads t).pc = pc) (hx : Exec s t pc e)
    (hc : ∀ p, pc.awaits = some p → (s.threads p).pc.unpublished = false)
    (hk : Keeps s (e.apply s t)) : ActorAgrees s t e.wake (e.apply s t) := by
  have hself : ((e.apply s t).threads t).pc = e.pc := by rw [apply_self]
  have hfound : ∀ p, pc.found p → p < s.nthreads := fun p hp => h.known t p ht (hpc ▸ hp)
  -- a waiter that may go on finds the code published
  have hread : ∀ p, pc.awaits = some p →
      ((s.threads p).pc.unpublished = true ∨ Settled s p) → Settled s p := by
    intro p hp hor
    rcases hor with hun | hset
    · rw [hc p hp] at hun
      cases hun
    · exact hset
  have hsettled : ∀ p, pc.reads p → Settled s p := fun p hp => h.reader t p ht (hpc ▸ hp)
  have hagain : ∀ p, pc = .waitAgain p → Settled s p := by
    rintro p rfl
    refine hread p rfl ?_
    rcases h.again t p ht hpc with hcv | hor
    · rw [hasleep] at hcv
      cases hcv
    · exact hor
  have hout : e.pc.awaits = none → ∀ p, ¬ ((e.apply s t).threads t).pc.found p := by
    intro hnone p hp
    rw [hself,Pc.found,hnone] at hp
    cases hp.1
  cases hx with
  | refuse =>
    refine .outside (hout rfl) (by simp) fun r hr => ?_
    simp only [Effect.apply,Option.toList_some,List.mem_append,List.mem_singleton] at hr
    exact hr.imp_right fun hr v => by simp [hr]
  | @isThread p hthr =>
    exact .inside (p := p) hself rfl ((h.booked.thread p).mp hthr) (by simp) (by simp [Pc.reads])
      (by simp) (by simp) (by simp [Effect.apply])
  | @isUnwaited p | @isOther p | @isNoParent p | @isRunning p _ | @acquire p _
  | @acquireBlocks p =>
    exact .inside (p := p) hself rfl (hfound p ⟨rfl,by simp⟩) (by simp) (by simp [Pc.reads])
      (by simp) (by simp) (by simp [Effect.apply])
  | @hasExited p hex =>
    have hp := hfound p ⟨rfl,by simp⟩
    have hset := hk.settled p hp (hread p rfl (h.exits.exited p hp hex))
    exact .inside (p := p) hself rfl hp (by simp) (fun _ => hset) (by simp) (by simp)
      (by simp [Effect.apply])
  | @sleep p =>
    exact .inside (p := p) hself rfl (hfound p ⟨rfl,by simp⟩)
      (fun _ => .inl (by rw [apply_self])) (by simp [Pc.reads]) (by simp) (by simp)
      (by simp [Effect.apply])
  | @again p _ =>
    have hp := hfound p ⟨rfl,by simp⟩
    exact .inside (p := p) hself rfl hp (by simp) (fun _ => hk.settled p hp (hagain p rfl))
      (by simp) (by simp) (by simp [Effect.apply])
  | @againBlocks p =>
    have hp := hfound p ⟨rfl,by simp⟩
    exact .inside (p := p) hself rfl hp (fun _ => .inr (.inr (hk.settled p hp (hagain p rfl))))
      (by simp [Pc.reads]) (by simp) (by simp) (by simp [Effect.apply])
  | @release p =>
    have hp := hfound p ⟨rfl,by simp⟩
    exact .inside (p := p) hself rfl hp (by simp)
      (fun _ => hk.settled p hp (hsettled p (.inr (.inl rfl)))) (by simp) (by simp)
      (by simp [Effect.apply])
  | @status p =>
    have hset := hsettled p (.inr (.inr rfl))
    refine .inside (p := p) hself rfl (hfound p ⟨rfl,by simp⟩) (by simp) (by simp [Pc.reads])
      (fun v hv => ?_) (by simp) (by simp [Effect.apply])
    cases hv
    exact hset.2
  | @code p =>
    have hset := hsettled p (.inl rfl)
    refine .outside (hout rfl) (by simp) fun r hr => ?_
    simp only [Effect.apply,Option.toList_some,List.mem_append,List.mem_singleton] at hr
    refine hr.imp_right fun hr v hv => ?_
    subst hr
    cases hv
    exact ⟨p,rfl,hfound p ⟨rfl,by simp⟩,hset.2⟩
  | @mark p v =>
    refine .outside (hout rfl) (by simp) fun r hr => ?_
    simp only [Effect.apply,Option.toList_some,List.mem_append,List.mem_singleton] at hr
    refine hr.imp_right fun hr v hv => ?_
    subst hr
    cases hv
    exact ⟨p,rfl,h.mark t p v ht hpc⟩
  | broadcast =>
    refine .outside (hout rfl) (fun q hq => ?_) fun r hr => .inl (by simpa [Effect.apply] using hr)
    have hqt : q = t := by
      rw [h.booked.pid t ht] at hq
      simpa using hq.symm
    rw [hqt,apply_self]
    rfl
  | exitAcquire | exitBlocks | exitRelease | flag | exitCode | threadExit =>
    exact .outside (hout rfl) (by simp) fun r hr => .inl (by simpa [Effect.apply] using hr)

theorem Agreement.step (h : Agreement s) (hc : a.Unhurried s)
    (hs : Proc.step s a = some s') : Agreement s' := by
  obtain ⟨hb,hk⟩ := h.toBase.step hs
  obtain ⟨t,c,rfl,ht,hpc,_,rfl⟩ | ⟨t,_,_,e,rfl,ht,ha,he,rfl⟩ | ⟨t,_,_,rfl,ht,_,hf⟩ := step_cases hs
  · exact h.of_others hb hk (startCall_others h.booked ht c) (.startCall hpc c)
  · have hex := effect_exec he
    exact h.of_others hb hk (apply_others h.booked ht hex) (.apply h ht ha rfl hex hc hk)
  · obtain ⟨ho,_,⟨pc,hpc,hthr⟩,_,_,hret⟩ := forked_others h.booked ht (forkStep_forked h.booked hf)
    refine h.of_others hb hk ho (.outside (fun p hp => ?_) (by simp) fun r hr => .inl (hret ▸ hr))
    have haw := hp.1
    rw [hthr,Pc.awaits_of_forking hpc] at haw
    cases haw

theorem threadBootstrap_exits : Exits threadBootstrap where
  fresh := by
    intro p hp
    refine ⟨rfl,?_⟩
    rw [threadBootstrap_table]
    split <;> rfl
  arg := by
    intro p c hp hc
    rw [threadBootstrap_thread hp] at hc
    cases hc
  once := by
    intro p c hp hc
    cases hc
  exited := by
    intro p hp he
    rw [threadBootstrap_table] at he
    split at he <;> cases he

theorem threadBootstrap_base : Base threadBootstrap where
  booked := threadBootstrap_booked
  exits := threadBootstrap_exits
  known := by
    intro t p ht hp
    rw [threadBootstrap_thread ht] at hp
    cases hp.1

theorem threadBootstrap_agreement : Agreement threadBootstrap where
  toBase := threadBootstrap_base
  again := by
    intro t p ht hp
    rw [threadBootstrap_thread ht] at hp
    cases hp
  reader := by
    intro t p ht hp
    rw [threadBootstrap_thread ht] at hp
    cases hp.awaits
  mark := by
    intro t p v ht hp
    rw [threadBootstrap_thread ht] at hp
    cases hp
  stored := by
    intro r v hr
    cases hr

/-- Every sys_waitpid that returns 0 has stored what the process passed to
sys_exit, when no waiter for a process runs between that process's broadcast and
its store of the code. -/
theorem waitpid_stores_exit_code {acts : List Act} {s : State}
    (hc : Along step (fun s a => a.Unhurried s) threadBootstrap acts)
    (hr : run step threadBootstrap acts = some s) (r : Return) (v : Int)
    (hmem : r ∈ s.returns) (hok : r.result = .ok v) :
    ∃ p : Nat, r.pid = p ∧ s.exitArg p = some v := by
  have hinv : Agreement s := run_keeps (fun u a w hu ha hw => hu.step ha hw)
    threadBootstrap_agreement hc hr
  obtain ⟨p,hp,_,harg⟩ := hinv.stored r v hmem hok
  exact ⟨p,hp,harg⟩

def Act.isUnhurried (s : State) : Act → Bool
  | .go t _ _ => (s.threads t).pc.awaits.all fun p => !(s.threads p).pc.unpublished
  | .call _ _ => true

theorem Act.Unhurried.of_test (s : State) (a : Act) (h : a.isUnhurried s = true) :
    a.Unhurried s := by
  cases a with
  | call t c => exact True.intro
  | go t fails junk =>
    intro p hp
    simpa [Act.isUnhurried,hp] using h

def State.statuses (s : State) : List (Int × Int) :=
  s.returns.filterMap fun r => match r.result with
    | .ok v => some (r.pid,v)
    | .error _ => none

theorem mem_statuses {p v : Int} (h : (p,v) ∈ s.statuses) :
    ∃ r ∈ s.returns, r.pid = p ∧ r.result = .ok v := by
  obtain ⟨r,hr,heq⟩ := List.mem_filterMap.mp h
  split at heq
  · cases heq
    exact ⟨r,hr,rfl,‹_›⟩
  · cases heq

/-- The parent sleeps, the child exits with 7, then the parent goes on. -/
def waitThenExit : List Act := startFirst ++ forkOnce ++ (waitFor 1 2 :: goes 1 7) ++
  (.call 2 (.exit 7) :: goes 2 6) ++ goes 1 4

theorem parent_gets_seven : ∃ s, run step threadBootstrap waitThenExit = some s ∧
    s.statuses = [(2,7)] ∧ ∃ p : Nat, (2 : Int) = p ∧ s.exitArg p = some 7 := by
  have hread : (run step threadBootstrap waitThenExit).map (·.statuses) = some [(2,7)] := by
    decide +kernel
  obtain ⟨s,hs,hst⟩ := Option.map_eq_some_iff.mp hread
  have hok : checkAlong step (fun s a => a.isUnhurried s) threadBootstrap waitThenExit =
      true := by
    decide +kernel
  obtain ⟨r,hr,hp,hv⟩ := mem_statuses (s := s) (p := 2) (v := 7) (by rw [hst]; simp)
  have hstored := waitpid_stores_exit_code
    (Along.of_check Act.Unhurried.of_test hok) hs r 7 hr hv
  rw [hp] at hstored
  exact ⟨s,hs,hst,hstored⟩

/-- The parent goes on right after the child's lock_release. -/
theorem parent_gets_stale_code : ∃ s, run step threadBootstrap
      (startFirst ++ forkOnce ++ (waitFor 1 2 :: goes 1 7) ++ (.call 2 (.exit 7) :: goes 2 3) ++
        goes 1 4) = some s ∧
    s.statuses = [(2,0)] ∧ s.exitArg 2 = some 7 := by
  have hread : (run step threadBootstrap
      (startFirst ++ forkOnce ++ (waitFor 1 2 :: goes 1 7) ++ (.call 2 (.exit 7) :: goes 2 3) ++
        goes 1 4)).map (fun s => (s.statuses,s.exitArg 2)) = some ([(2,0)],some 7) := by
    decide +kernel
  obtain ⟨s,hs,hv⟩ := Option.map_eq_some_iff.mp hread
  simp only [Prod.mk.injEq] at hv
  exact ⟨s,hs,hv⟩

end MipsOs.Proc
