import Mathlib.Data.List.Perm.Subperm
import MipsOs.Process

/-! The process table over whole runs, and sys_waitpid against sys_exit and sys_fork. -/

set_option autoImplicit false
namespace MipsOs.Proc
open Function Runs

/-- The books of the table: threads take the entries in order and none is ever
given back; a thread that is being forked has one parent. -/
structure Booked (s : State) : Prop where
  le : s.nthreads ≤ totalProcesses
  pid : ∀ t, t < s.nthreads → (s.threads t).pid = t
  occupied : ∀ i, (s.table i).occupied = true ↔ i < s.nthreads
  thread : ∀ i, (s.table i).processthread.isSome = true ↔ i < s.nthreads
  count : s.noprocesses = min s.nthreads 2
  embryo : ∀ t sc c, t < s.nthreads → (s.threads t).pc = .forkStart sc c →
    c < s.nthreads ∧ c ≠ t ∧ (s.threads c).pc = .embryo ∧ (s.threads c).asleep = none
  parent : ∀ t t' sc sc' c, t < s.nthreads → t' < s.nthreads →
    (s.threads t).pc = .forkStart sc c → (s.threads t').pc = .forkStart sc' c → t = t'

variable {s s' : State}

theorem firstSlot_booked (h : Booked s) :
    firstSlot (searchFrom s) s.table =
      if s.nthreads < totalProcesses then some s.nthreads else none := by
  have hfree : ∀ i, (decide (searchFrom s ≤ i) && !(s.table i).occupied &&
      (s.table i).processthread.isNone) = true ↔ s.nthreads ≤ i := by
    intro i
    have hocc := h.occupied i
    have hthr := h.thread i
    have hfrom : s.nthreads ≤ i → searchFrom s ≤ i := by
      have hc := h.count
      unfold searchFrom
      split <;> omega
    rw [← Option.not_isSome]
    cases ho : (s.table i).occupied <;> cases hp : (s.table i).processthread.isSome <;> simp_all
    omega
  unfold firstSlot
  split
  · rename_i hlt
    rw [List.find?_eq_some_iff_getElem]
    refine ⟨(hfree s.nthreads).mpr (Nat.le_refl _),s.nthreads,by simpa using hlt,by simp,?_⟩
    intro j hj
    rw [List.getElem_range,Bool.not_eq_true',Bool.eq_false_iff]
    intro hc
    have hle := (hfree j).mp hc
    omega
  · rename_i hge
    rw [List.find?_eq_none]
    intro i hi hc
    have hle := (hfree i).mp hc
    rw [List.mem_range] at hi
    omega

theorem Booked.threads (h : Booked s) (hn : s'.nthreads = s.nthreads)
    (hnp : s'.noprocesses = s.noprocesses)
    (htab : ∀ i, (s'.table i).occupied = (s.table i).occupied ∧
      (s'.table i).processthread = (s.table i).processthread)
    (hpid : ∀ i, (s'.threads i).pid = (s.threads i).pid)
    (hstart : ∀ i sc c, (s'.threads i).pc = .forkStart sc c → (s.threads i).pc = .forkStart sc c)
    (hemb : ∀ i sc c, (s'.threads i).pc = .forkStart sc c → i < s.nthreads →
      (s'.threads c).pc = .embryo ∧ (s'.threads c).asleep = none) : Booked s' where
  le := hn ▸ h.le
  pid := by
    intro t ht
    rw [hpid]
    exact h.pid t (hn ▸ ht)
  occupied := by
    intro i
    rw [(htab i).1,hn]
    exact h.occupied i
  thread := by
    intro i
    rw [(htab i).2,hn]
    exact h.thread i
  count := by
    rw [hnp,hn]
    exact h.count
  embryo := by
    intro t sc c ht hpc
    obtain ⟨hc,hne,_⟩ := h.embryo t sc c (hn ▸ ht) (hstart t sc c hpc)
    exact ⟨hn ▸ hc,hne,hemb t sc c hpc (hn ▸ ht)⟩
  parent := fun t t' sc sc' c ht ht' hpc hpc' =>
    h.parent t t' sc sc' c (hn ▸ ht) (hn ▸ ht') (hstart t sc c hpc) (hstart t' sc' c hpc')

variable {t : Nat} {pc : Pc} {sc : Bool} {acts : List Act} {a : Act}

section

variable (h : Booked s)

include h

theorem Booked.apply {e : Effect} (hx : Exec s t (s.threads t).pc e) : Booked (e.apply s t) := by
  obtain ⟨hold,hnew⟩ := hx.forking
  have hstart : ∀ i sc c, ((e.apply s t).threads i).pc = .forkStart sc c →
      (s.threads i).pc = .forkStart sc c := by
    intro i sc c hi
    by_cases hit : i = t
    · subst hit
      simp only [apply_self] at hi
      rw [hi] at hnew
      cases hnew
    · simpa [apply_of_ne e s hit] using hi
  refine h.threads rfl rfl hx.entry (apply_pid e s t) hstart ?_
  intro i sc c hi hn
  obtain ⟨_,_,hemb,hasl⟩ := h.embryo i sc c hn (hstart i sc c hi)
  have hct : c ≠ t := by
    rintro rfl
    rw [hemb] at hold
    cases hold
  rw [apply_of_ne e s hct]
  exact ⟨by simpa using hemb,by simp [wakeUp,hasl]⟩

theorem Booked.setPc (hold : (s.threads t).pc ≠ .embryo) (hnew : ∀ sc c, pc ≠ .forkStart sc c) :
    Booked (s.setPc t pc) := by
  have hstart : ∀ i sc c, ((s.setPc t pc).threads i).pc = .forkStart sc c →
      (s.threads i).pc = .forkStart sc c := by
    intro i sc c hi
    by_cases hit : i = t
    · subst hit
      simp only [setPc_self] at hi
      exact absurd hi (hnew sc c)
    · rwa [setPc_of_ne s pc hit] at hi
  refine h.threads rfl rfl (fun _ => ⟨rfl,rfl⟩) (setPc_pid s t pc) hstart ?_
  intro i sc c hi hn
  obtain ⟨_,_,hemb,hasl⟩ := h.embryo i sc c hn (hstart i sc c hi)
  have hct : c ≠ t := by
    rintro rfl
    exact hold hemb
  rw [setPc_of_ne s pc hct]
  exact ⟨hemb,hasl⟩

theorem Booked.congr (hthr : s'.threads = s.threads) (htab : s'.table = s.table)
    (hn : s'.nthreads = s.nthreads) (hnp : s'.noprocesses = s.noprocesses) : Booked s' := by
  refine h.threads hn hnp (fun i => by rw [htab]; exact ⟨rfl,rfl⟩) (fun i => by rw [hthr])
    (fun i sc c hi => by rwa [hthr] at hi) ?_
  intro i sc c hi hin
  rw [hthr] at hi ⊢
  exact (h.embryo i sc c hin hi).2.2

theorem Booked.startCall (hpc : (s.threads t).pc = .user) (c : Call) :
    Booked (startCall s t c) := by
  obtain ⟨hthr,htab,hn,hnp⟩ := startCall_threads s t c
  cases hc : c.start with
  | none =>
    rw [hc] at hthr
    exact h.congr hthr htab hn hnp
  | some pc =>
    rw [hc] at hthr
    exact (h.setPc (by rw [hpc]; simp) (Call.start_ne hc)).congr hthr htab hn hnp

def State.newThread (s : State) : State :=
  { s with
    noprocesses := min (s.nthreads + 1) 2
    table := update s.table s.nthreads { s.table s.nthreads with
      occupied := true, owner := none, processthread := some s.nthreads, waiting := false }
    threads := update s.threads s.nthreads ⟨s.nthreads,.embryo,none⟩
    nthreads := s.nthreads + 1 }

theorem threadCreate_booked : threadCreate s =
    if s.nthreads < totalProcesses then (some s.nthreads,s.newThread) else (none,s) := by
  have hc := h.count
  unfold threadCreate
  rw [firstSlot_booked h]
  by_cases hroom : s.nthreads < totalProcesses
  · have hnp : (if s.noprocesses < 2 then s.noprocesses + 1 else s.noprocesses) =
        min (s.nthreads + 1) 2 := by
      split <;> omega
    simp only [hnp,hroom,if_true]
    rfl
  · have hnp : ¬ s.noprocesses < 2 := by
      simp only [totalProcesses] at hroom
      omega
    simp [hnp,hroom]

/-- The outcomes of a statement of thread_fork and sys_fork. -/
inductive Forked (s : State) (t : Nat) : State → Prop
  | failed {sc : Bool} (hpc : (s.threads t).pc = .forkCreate sc) : Forked s t (s.setPc t .user)
  | created {sc : Bool} (hpc : (s.threads t).pc = .forkCreate sc)
      (room : s.nthreads < totalProcesses) :
      Forked s t (s.newThread.setPc t (.forkStart sc s.nthreads))
  | started {sc : Bool} {child : Nat} {pc pc' : Pc} (hpc : (s.threads t).pc = .forkStart sc child)
      (hchild : pc = .user ∨ pc = .dead) (hparent : pc' = .user ∨ pc' = .forkParent child) :
      Forked s t ((s.setPc child pc).setPc t pc')
  | parent {child pid : Nat} (hpc : (s.threads t).pc = .forkParent child) :
      Forked s t { s.setPc t .user with
        table := if pid < totalProcesses then
            update s.table pid { s.table pid with parentPID := (s.threads t).pid }
          else s.table }

theorem forkStep_forked {junk : Nat} {fails : Bool} (hf : forkStep s t fails junk = some s') :
    Forked s t s' := by
  unfold forkStep at hf
  split at hf
  · rename_i sc hpc
    split at hf
    · cases hf
      exact .failed hpc
    · rw [threadCreate_booked h] at hf
      by_cases hroom : s.nthreads < totalProcesses
      · simp only [hroom,if_true,Option.some.injEq] at hf
        subst hf
        exact .created hpc hroom
      · simp only [hroom,if_false,Option.some.injEq] at hf
        subst hf
        exact .failed hpc
  · rename_i sc child hpc
    split at hf
    · cases hf
      exact .started hpc (.inr rfl) (.inl rfl)
    · cases hf
      refine .started hpc (.inl rfl) ?_
      cases sc
      · exact .inl rfl
      · exact .inr rfl
  · rename_i child hpc
    cases hf
    exact .parent hpc
  · cases hf

theorem Booked.newThread (hroom : s.nthreads < totalProcesses) (ht : t < s.nthreads)
    (hpc : (s.threads t).pc = .forkCreate sc) :
    Booked (s.newThread.setPc t (.forkStart sc s.nthreads)) := by
  have hne : s.nthreads ≠ t := by omega
  have hself : (s.newThread.setPc t (.forkStart sc s.nthreads)).threads s.nthreads =
      ⟨s.nthreads,.embryo,none⟩ := by
    rw [setPc_of_ne _ _ hne]
    simp [State.newThread]
  have hold : ∀ i, i < s.nthreads → i ≠ t →
      (s.newThread.setPc t (.forkStart sc s.nthreads)).threads i = s.threads i := by
    intro i hi hit
    have hin : i ≠ s.nthreads := by omega
    rw [setPc_of_ne _ _ hit]
    simp [State.newThread,hin]
  have hstart : ∀ i sc' c, i < s.nthreads + 1 →
      ((s.newThread.setPc t (.forkStart sc s.nthreads)).threads i).pc = .forkStart sc' c →
      (i = t ∧ c = s.nthreads) ∨
        (i < s.nthreads ∧ i ≠ t ∧ (s.threads i).pc = .forkStart sc' c ∧ c < s.nthreads) := by
    intro i sc' c hi hpci
    by_cases hit : i = t
    · subst hit
      simp only [setPc_self,Pc.forkStart.injEq] at hpci
      exact .inl ⟨rfl,hpci.2.symm⟩
    · by_cases hin : i = s.nthreads
      · subst hin
        rw [hself] at hpci
        cases hpci
      · have hlt : i < s.nthreads := by omega
        rw [hold i hlt hit] at hpci
        exact .inr ⟨hlt,hit,hpci,(h.embryo i sc' c hlt hpci).1⟩
  constructor
  · exact hroom
  · intro i hi
    by_cases hin : i = s.nthreads
    · subst hin
      rw [hself]
    · rw [setPc_pid]
      have hlt : i < s.nthreads := Nat.lt_of_le_of_ne (Nat.le_of_lt_succ hi) hin
      simp [State.newThread,hin,h.pid i hlt]
  · intro i
    have hi := h.occupied i
    by_cases hin : i = s.nthreads
    · subst hin
      simp [State.newThread,State.setPc]
    · simp only [State.newThread,State.setPc,update_of_ne hin]
      rw [hi]
      omega
  · intro i
    have hi := h.thread i
    by_cases hin : i = s.nthreads
    · subst hin
      simp [State.newThread,State.setPc]
    · simp only [State.newThread,State.setPc,update_of_ne hin]
      rw [hi]
      omega
  · rfl
  · intro i sc' c hi hpci
    obtain ⟨rfl,rfl⟩ | ⟨hlt,hit,hpci',hc⟩ := hstart i sc' c hi hpci
    · rw [hself]
      exact ⟨Nat.lt_succ_self _,hne,rfl,rfl⟩
    · obtain ⟨_,hci,hemb,hasl⟩ := h.embryo i sc' c hlt hpci'
      have hct : c ≠ t := by
        rintro rfl
        rw [hpc] at hemb
        cases hemb
      rw [hold c hc hct]
      exact ⟨Nat.lt_succ_of_lt hc,hci,hemb,hasl⟩
  · intro i i' sc₁ sc₂ c hi hi' hpci hpci'
    obtain ⟨rfl,rfl⟩ | ⟨hlt,hit,hpci₁,hc⟩ := hstart i sc₁ c hi hpci
    · obtain ⟨rfl,_⟩ | ⟨_,_,_,hc'⟩ := hstart i' sc₂ _ hi' hpci'
      · rfl
      · omega
    · obtain ⟨_,rfl⟩ | ⟨hlt',_,hpci₂,_⟩ := hstart i' sc₂ c hi' hpci'
      · omega
      · exact h.parent i i' sc₁ sc₂ c hlt hlt' hpci₁ hpci₂

theorem Booked.started (ht : t < s.nthreads) {child : Nat} {pc' : Pc}
    (hpc : (s.threads t).pc = .forkStart sc child) (hchild : ∀ sc c, pc ≠ .forkStart sc c)
    (hparent : ∀ sc c, pc' ≠ .forkStart sc c) :
    Booked ((s.setPc child pc).setPc t pc') := by
  obtain ⟨_,hct,_⟩ := h.embryo t sc child ht hpc
  have hstart : ∀ i sc' c, (((s.setPc child pc).setPc t pc').threads i).pc = .forkStart sc' c →
      i ≠ t ∧ i ≠ child ∧ (s.threads i).pc = .forkStart sc' c := by
    intro i sc' c hi
    by_cases hit : i = t
    · subst hit
      simp only [setPc_self] at hi
      exact absurd hi (hparent sc' c)
    · rw [setPc_of_ne _ _ hit] at hi
      by_cases hic : i = child
      · subst hic
        simp only [setPc_self] at hi
        exact absurd hi (hchild sc' c)
      · rw [setPc_of_ne _ _ hic] at hi
        exact ⟨hit,hic,hi⟩
  refine h.threads rfl rfl (fun _ => ⟨rfl,rfl⟩) (fun i => by simp)
    (fun i sc' c hi => (hstart i sc' c hi).2.2) ?_
  intro i sc' c hi hn
  obtain ⟨hit,_,hpci⟩ := hstart i sc' c hi
  obtain ⟨_,_,hemb,hasl⟩ := h.embryo i sc' c hn hpci
  have hc1 : c ≠ t := by
    rintro rfl
    rw [hpc] at hemb
    cases hemb
  have hc2 : c ≠ child := by
    rintro rfl
    exact hit (h.parent i t sc' sc c hn ht hpci hpc)
  rw [setPc_of_ne _ _ hc1,setPc_of_ne _ _ hc2]
  exact ⟨hemb,hasl⟩

theorem Booked.forked (ht : t < s.nthreads) (hf : Forked s t s') : Booked s' := by
  cases hf with
  | failed hpc => exact h.setPc (by rw [hpc]; simp) (by simp)
  | created hpc room => exact h.newThread room ht hpc
  | started hpc hchild hparent =>
    refine h.started ht hpc ?_ ?_
    · rcases hchild with rfl | rfl <;> simp
    · rcases hparent with rfl | rfl <;> simp
  | parent hpc =>
    have hset : Booked (s.setPc t .user) := h.setPc (by rw [hpc]; simp) (by simp)
    refine hset.threads rfl rfl (fun i => ?_) (fun _ => rfl) (fun _ _ _ hi => hi)
      fun i sc c hi hn => (hset.embryo i sc c hn hi).2.2
    simp only
    split
    · rename_i pid _
      by_cases hi : i = pid
      · subst hi
        simp [State.setPc]
      · simp [State.setPc,hi]
    · exact ⟨rfl,rfl⟩

end

theorem step_booked (s : State) (a : Act) (s' : State) (h : Booked s) (hs : step s a = some s') :
    Booked s' := by
  obtain ⟨t,c,rfl,_,hpc,_,rfl⟩ | ⟨t,_,_,e,rfl,_,_,he,rfl⟩ | ⟨t,_,_,rfl,ht,_,hf⟩ := step_cases hs
  · exact h.startCall hpc c
  · exact h.apply (effect_exec he)
  · exact h.forked ht (forkStep_forked h hf)

theorem threadBootstrap_table (i : Nat) : threadBootstrap.table i =
    if i = 0 then ⟨some 0,true,false,0,false,0,none⟩ else ⟨none,false,false,0,false,0,none⟩ := by
  have h : threadBootstrap.table = initProcesstable.newThread.table := rfl
  rw [h]
  simp only [State.newThread,initProcesstable,update_apply]

theorem threadBootstrap_asleep (i : Nat) : (threadBootstrap.threads i).asleep = none := by
  have h : threadBootstrap = initProcesstable.newThread.setPc 0 .user := rfl
  rw [h,setPc_asleep]
  simp only [State.newThread,initProcesstable,update_apply]
  split <;> rfl

theorem threadBootstrap_booked : Booked threadBootstrap where
  le := by decide
  pid := by
    intro t ht
    have h0 : t = 0 := Nat.lt_one_iff.mp ht
    subst h0
    rfl
  occupied := by
    intro i
    have hn : i < threadBootstrap.nthreads ↔ i = 0 := Nat.lt_one_iff
    rw [hn,threadBootstrap_table]
    split <;> simp_all
  thread := by
    intro i
    have hn : i < threadBootstrap.nthreads ↔ i = 0 := Nat.lt_one_iff
    rw [hn,threadBootstrap_table]
    split <;> simp_all
  count := rfl
  embryo := by
    intro t sc c ht hpc
    have h0 : t = 0 := Nat.lt_one_iff.mp ht
    subst h0
    cases hpc
  parent := by
    intro t t' sc sc' c ht ht'
    have h0 : t = 0 := Nat.lt_one_iff.mp ht
    have h0' : t' = 0 := Nat.lt_one_iff.mp ht'
    omega

theorem run_booked {s : State} (h : run step threadBootstrap acts = some s) : Booked s :=
  run_keeps (C := fun _ _ => True) (fun s a s' hs _ hstep => step_booked s a s' hs hstep)
    threadBootstrap_booked (Along.trivial _ _ _) h

/-- thread_create finds an entry exactly as long as fewer than 128 threads were
created since boot, dead or alive; PIDs are never shared. -/
theorem slot_found_iff {acts : List Act} {s : State}
    (h : run step threadBootstrap acts = some s) :
    ((threadCreate s).1 ≠ none ↔ s.nthreads < totalProcesses) ∧
    ∀ t t', t < s.nthreads → t' < s.nthreads → (s.threads t).pc ≠ .dead →
      (s.threads t').pc ≠ .dead → (s.threads t).pid = (s.threads t').pid → t = t' := by
  have hb := run_booked h
  refine ⟨?_,fun t t' ht ht' _ _ hpid => ?_⟩
  · rw [threadCreate_booked hb]
    split <;> simp_all
  · rwa [hb.pid t ht,hb.pid t' ht'] at hpid

def waitedFor (s : State) (p : Nat) : Bool :=
  s.returns.any fun r => decide (r.pid = p) && r.result.isOk

def live (s : State) (t : Nat) : Bool :=
  decide ((s.threads t).pc ≠ .dead) ||
    (s.table (s.threads t).pid).exited && !waitedFor s (s.threads t).pid

def liveCount (s : State) : Nat := ((List.range s.nthreads).filter (live s)).length

structure Gone (s : State) : Prop where
  booked : Booked s
  enough : 5 ≤ s.nthreads
  gone : ∀ i ∈ [2,3,4], (s.threads i).pc = .dead ∧ waitedFor s i = true

theorem Gone.liveCount_add (h : Gone s) : liveCount s + 3 ≤ s.nthreads := by
  have hnot : ∀ i ∈ [2,3,4], i ∉ (List.range s.nthreads).filter (live s) := by
    intro i hi hm
    obtain ⟨hlt,hl⟩ := List.mem_filter.mp hm
    obtain ⟨hdead,hw⟩ := h.gone i hi
    simp [live,hdead,h.booked.pid i (List.mem_range.mp hlt),hw] at hl
  have hnodup : ([2,3,4] ++ (List.range s.nthreads).filter (live s)).Nodup :=
    List.nodup_append.mpr ⟨by decide,List.nodup_range.filter _,fun i hi j hj he =>
      hnot i hi (he ▸ hj)⟩
  have hsub : [2,3,4] ++ (List.range s.nthreads).filter (live s) ⊆ List.range s.nthreads := by
    refine List.append_subset.mpr ⟨fun i hi => ?_,List.filter_subset_self _⟩
    have henough := h.enough
    simp only [List.mem_cons,List.not_mem_nil,or_false] at hi
    rw [List.mem_range]
    omega
  have hlen := (List.subperm_of_subset hnodup hsub).length_le
  simp only [List.length_append,List.length_range,List.length_cons,List.length_nil] at hlen
  rw [liveCount]
  omega

theorem Gone.step (h : Gone s) (hs : Proc.step s a = some s')
    (hn : s.nthreads ≤ s'.nthreads) (hthr : ∀ i ∈ [2,3,4], s'.threads i = s.threads i)
    (hret : s'.returns = s.returns) : Gone s' where
  booked := step_booked s a s' h.booked hs
  enough := Nat.le_trans h.enough hn
  gone i hi := by
    rw [hthr i hi,waitedFor,hret]
    exact h.gone i hi

/-- A run that never has more than 125 live processes. -/
def Leg (s : State) (acts : List Act) (s' : State) : Prop :=
  run step s acts = some s' ∧ Along step (fun u _ => liveCount u ≤ 125) s acts

theorem Gone.leg_cons {u : State} (h : Gone s)
    (hle : s.nthreads ≤ totalProcesses) (hs : Proc.step s a = some u) (hl : Leg u acts s') :
    Leg s (a :: acts) s' := by
  have hlive := h.liveCount_add
  simp only [totalProcesses] at hle
  exact ⟨run_cons.mpr ⟨u,hs,hl.1⟩,Along.cons (by omega) hs hl.2⟩

def startFirst : List Act := [.call 0 .threadFork,.go 0 false 0,.go 0 false 0]

theorem Gone.fork (h : Gone s) (hroom : s.nthreads < totalProcesses)
    (hmain : s.threads 0 = ⟨0,.user,none⟩) : ∃ s', Leg s startFirst s' ∧ Gone s' ∧
      s'.threads 0 = ⟨0,.user,none⟩ ∧ s'.nthreads = s.nthreads + 1 := by
  have hpos : 0 < s.nthreads := Nat.lt_of_lt_of_le (by omega) h.enough
  have hne : ∀ i ∈ [2,3,4], i ≠ 0 ∧ i ≠ s.nthreads := by
    intro i hi
    have henough := h.enough
    simp only [List.mem_cons,List.not_mem_nil,or_false] at hi
    omega
  have h0s : Proc.step s (.call 0 .threadFork) = some (s.setPc 0 (.forkCreate false)) := by
    simp [Proc.step,hpos,hmain,startCall]
  have h1 : Gone (s.setPc 0 (.forkCreate false)) :=
    h.step h0s (Nat.le_refl _) (fun i hi => setPc_of_ne _ _ (hne i hi).1) rfl
  have h1s : Proc.step (s.setPc 0 (.forkCreate false)) (.go 0 false 0) =
      some ((s.setPc 0 (.forkCreate false)).newThread.setPc 0 (.forkStart false s.nthreads)) := by
    have hn : (s.setPc 0 (.forkCreate false)).nthreads = s.nthreads := rfl
    simp [Proc.step,hmain,effect,forkStep,threadCreate_booked h1.booked,hn,hpos,hroom]
  have h2 := h1.step h1s (Nat.le_succ _) (fun i hi => by
    rw [setPc_of_ne _ _ (hne i hi).1]
    exact update_of_ne (hne i hi).2 _ _) rfl
  have h2s : Proc.step ((s.setPc 0 (.forkCreate false)).newThread.setPc 0
      (.forkStart false s.nthreads)) (.go 0 false 0) =
      some ((((s.setPc 0 (.forkCreate false)).newThread.setPc 0 (.forkStart false s.nthreads)).setPc
        s.nthreads .user).setPc 0 .user) := by
    simp [Proc.step,State.newThread,hmain,effect,forkStep,Nat.ne_of_lt hpos,State.setPc]
  have h3 := h2.step h2s (Nat.le_refl _) (fun i hi => by
    rw [setPc_of_ne _ _ (hne i hi).1,setPc_of_ne _ _ (hne i hi).2]) rfl
  refine ⟨_,h.leg_cons (Nat.le_of_lt hroom) h0s (h1.leg_cons (Nat.le_of_lt hroom) h1s
    (h2.leg_cons hroom h2s ⟨rfl,True.intro⟩)),h3,?_,rfl⟩
  simp [State.newThread,State.setPc,hmain,Nat.ne_of_lt hpos]

/-- Thread 1 forks child `n+2`, which exits; then it waits for the child. -/
def forkExitWait (n : Nat) : List Act :=
  (.call 1 (.fork none) :: List.replicate 3 (.go 1 false 0)) ++
  (.call (n+2) (.exit 0) :: List.replicate 6 (.go (n+2) false 0)) ++
  (.call 1 (.waitpid ⟨(n+2 : Nat),4,0,none⟩) :: List.replicate 6 (.go 1 false 0))

theorem children_gone : ∃ acts s, Leg threadBootstrap acts s ∧ Gone s ∧
    s.threads 0 = ⟨0,.user,none⟩ ∧ s.nthreads = 5 := by
  have hrun : ((run step threadBootstrap
      (startFirst ++ forkExitWait 0 ++ forkExitWait 1 ++ forkExitWait 2)).any fun s =>
      decide (s.threads 0 = ⟨0,.user,none⟩ ∧ s.nthreads = 5 ∧
        ∀ i ∈ [2,3,4], (s.threads i).pc = .dead ∧ waitedFor s i = true)) = true := by
    decide +kernel
  have hlive : checkAlong step (fun s _ => decide (liveCount s ≤ 125)) threadBootstrap
      (startFirst ++ forkExitWait 0 ++ forkExitWait 1 ++ forkExitWait 2) = true := by
    decide +kernel
  obtain ⟨s,hs,h⟩ := some_of_any hrun
  obtain ⟨hmain,hn,hgone⟩ := of_decide_eq_true h
  exact ⟨_,s,⟨hs,.of_check (fun _ _ h => of_decide_eq_true h) hlive⟩,
    ⟨run_booked hs,Nat.le_of_eq hn.symm,hgone⟩,hmain,hn⟩

theorem forks_gone (n : Nat) (hn : n + 5 ≤ totalProcesses) :
    ∃ acts s, Leg threadBootstrap acts s ∧ Gone s ∧ s.threads 0 = ⟨0,.user,none⟩ ∧
      s.nthreads = n + 5 := by
  induction n with
  | zero =>
    obtain ⟨acts,s,hl,hs,hmain,h5⟩ := children_gone
    exact ⟨acts,s,hl,hs,hmain,by rw [h5]⟩
  | succ n ih =>
    obtain ⟨acts,s,hl,hs,hmain,hn5⟩ := ih (by omega)
    obtain ⟨s',hl',hs',hmain',hn'⟩ := hs.fork (by omega) hmain
    exact ⟨acts ++ startFirst,s',
      ⟨run_append.mpr ⟨s,hl.1,hl'.1⟩,hl.2.join hl.1 hl'.2⟩,hs',hmain',by omega⟩

theorem slot_found_after_first : ∃ s, run step threadBootstrap startFirst = some s ∧
    s.nthreads = 2 ∧ (threadCreate s).1 ≠ none := by
  obtain ⟨s,hs,hn⟩ := some_of_any
    (by decide : ((run step threadBootstrap startFirst).any fun s =>
      decide (s.nthreads = 2)) = true)
  have hn := of_decide_eq_true hn
  exact ⟨s,hs,hn,(slot_found_iff hs).1.mpr (by rw [hn]; decide)⟩

/-- Three processes have exited and been waited for, 125 are alive, and all 128 entries are used
up. -/
theorem slots_run_out : ∃ acts s, run step threadBootstrap acts = some s ∧
    Along step (fun u _ => liveCount u ≤ 125) threadBootstrap acts ∧ liveCount s ≤ 125 ∧
    (threadCreate s).1 = none := by
  obtain ⟨acts,s,hl,hs,-,hn⟩ := forks_gone 123 (by decide)
  have hlive := hs.liveCount_add
  refine ⟨acts,s,hl.1,hl.2,by omega,?_⟩
  rw [threadCreate_booked hs.booked,hn]
  rfl

/-- What a step of thread `t` leaves of the others: they stay where they are, but
for a child that is started, and only sleepers on `wake` stir; what they have
published about their exit stays. -/
structure Others (s : State) (t : Nat) (wake : Option Addr) (s' : State) : Prop where
  grows : s.nthreads ≤ s'.nthreads
  pid : ∀ i, i < s.nthreads → (s'.threads i).pid = (s.threads i).pid
  pc : ∀ i, i < s.nthreads → i ≠ t → (s'.threads i).pc = (s.threads i).pc ∨
    (s.threads i).pc = .embryo ∧ ((s'.threads i).pc = .user ∨ (s'.threads i).pc = .dead)
  asleep : ∀ i, i < s.nthreads → i ≠ t →
    (s'.threads i).asleep = (wakeUp wake (s.threads i)).asleep
  new : ∀ i, s.nthreads ≤ i → i < s'.nthreads → s'.threads i = ⟨i,.embryo,none⟩
  exited : ∀ i, i ≠ t → (s'.table i).exited = (s.table i).exited
  exitcode : ∀ i, i ≠ t → (s'.table i).exitcode = (s.table i).exitcode
  exitArg : ∀ i, i ≠ t → s'.exitArg i = s.exitArg i

@[simp] theorem wakeUp_none (th : Thread) : wakeUp none th = th := by
  unfold wakeUp
  split
  · rename_i h
    rw [h.2] at h
    cases h.1
  · rfl

theorem setPc_others (s : State) (t : Nat) (pc : Pc) : Others s t none (s.setPc t pc) where
  grows := Nat.le_refl _
  pid := fun i _ => setPc_pid s t pc i
  pc := fun i _ hi => .inl (by rw [setPc_of_ne s pc hi])
  asleep := fun i _ _ => by rw [setPc_asleep,wakeUp_none]
  new := fun i hi hi' => absurd hi' (Nat.not_lt.mpr hi)
  exited := fun _ _ => rfl
  exitcode := fun _ _ => rfl
  exitArg := fun _ _ => rfl

variable {s s' : State} {t p : Nat} {pc : Pc} {e : Effect}

theorem startCall_others (hb : Booked s) (ht : t < s.nthreads) (c : Call) :
    Others s t none (startCall s t c) := by
  have hset := setPc_others s t
  cases c with
  | fork e =>
    cases e with
    | some e => exact ⟨Nat.le_refl _,fun _ _ => rfl,fun _ _ _ => .inl rfl,by simp [startCall],
        fun i hi hi' => absurd hi' (Nat.not_lt.mpr hi),fun _ _ => rfl,fun _ _ => rfl,fun _ _ => rfl⟩
    | none => exact hset _
  | threadFork | threadExit => exact hset _
  | exit c =>
    have h := hset (.exitAcquire c)
    refine ⟨h.grows,h.pid,h.pc,h.asleep,h.new,h.exited,h.exitcode,fun i hi => ?_⟩
    simp [startCall,hb.pid t ht,hi]
  | waitpid w =>
    simp only [startCall]
    split
    · exact ⟨Nat.le_refl _,fun _ _ => rfl,fun _ _ _ => .inl rfl,by simp,
        fun i hi hi' => absurd hi' (Nat.not_lt.mpr hi),fun _ _ => rfl,fun _ _ => rfl,fun _ _ => rfl⟩
    · exact hset _

theorem startCall_self (hpc : (s.threads t).pc = .user) (c : Call) :
    (startCall s t c).threads t = { s.threads t with pc := c.start.getD .user } := by
  obtain ⟨hthr,_⟩ := startCall_threads s t c
  rw [hthr]
  cases c.start with
  | none => simp [← hpc]
  | some pc => simp

theorem apply_others (hb : Booked s) (ht : t < s.nthreads)
    (hx : Exec s t pc e) : Others s t e.wake (e.apply s t) := by
  have htab : ∀ i, i ≠ t → ((e.apply s t).table i).exited = (s.table i).exited ∧
      ((e.apply s t).table i).exitcode = (s.table i).exitcode := by
    intro i hi
    have hup : ∀ p en, (p = t ∨ en.exited = (s.table p).exited ∧
        en.exitcode = (s.table p).exitcode) →
        (update s.table p en i).exited = (s.table i).exited ∧
        (update s.table p en i).exitcode = (s.table i).exitcode := by
      intro p en hp
      by_cases hip : i = p
      · subst hip
        rcases hp with hp | hp
        · exact absurd hp hi
        · simpa using hp
      · simp [hip]
    have hpid := hb.pid t ht
    cases hx with
    | acquire | sleep | again | release | mark => exact hup _ _ (.inr ⟨rfl,rfl⟩)
    | exitAcquire | exitRelease | flag | exitCode => exact hup _ _ (.inl hpid)
    | _ => exact ⟨rfl,rfl⟩
  exact {
    grows := Nat.le_refl _
    pid := fun i _ => apply_pid e s t i
    pc := fun i _ hi => .inl (by rw [apply_of_ne e s hi,wakeUp_pc])
    asleep := fun i _ hi => by rw [apply_of_ne e s hi]
    new := fun i hi hi' => absurd hi' (Nat.not_lt.mpr hi)
    exited := fun i hi => (htab i hi).1
    exitcode := fun i hi => (htab i hi).2
    exitArg := fun _ _ => rfl }

theorem forked_others (hb : Booked s) (ht : t < s.nthreads)
    (hf : Forked s t s') : Others s t none s' ∧ (s.threads t).pc.forking = true ∧
      (∃ pc, (pc = .user ∨ pc.forking = true) ∧ s'.threads t = { s.threads t with pc := pc }) ∧
      (∀ i, (s'.table i).exited = (s.table i).exited ∧
        (s'.table i).exitcode = (s.table i).exitcode) ∧
      s'.exitArg = s.exitArg ∧ s'.returns = s.returns := by
  cases hf with
  | failed hpc =>
    exact ⟨setPc_others s t .user,by rw [hpc]; rfl,⟨.user,.inl rfl,by simp⟩,fun _ => ⟨rfl,rfl⟩,
      rfl,rfl⟩
  | created hpc room =>
    rename_i sc
    have hne : t ≠ s.nthreads := by omega
    have htab : ∀ i, (s.newThread.table i).exited = (s.table i).exited ∧
        (s.newThread.table i).exitcode = (s.table i).exitcode := by
      intro i
      by_cases hi : i = s.nthreads
      · subst hi
        simp [State.newThread]
      · simp [State.newThread,hi]
    have hold : ∀ i, i < s.nthreads → s.newThread.threads i = s.threads i := by
      intro i hi
      simp [State.newThread,show i ≠ s.nthreads by omega]
    refine ⟨⟨Nat.le_succ _,fun i hi => ?_,fun i hi hit => .inl ?_,fun i hi hit => ?_,
      fun i hi hi' => ?_,fun i _ => (htab i).1,fun i _ => (htab i).2,fun _ _ => rfl⟩,
      by rw [hpc]; rfl,⟨.forkStart sc s.nthreads,.inr rfl,?_⟩,htab,rfl,rfl⟩
    · rw [setPc_pid,hold i hi]
    · rw [setPc_of_ne _ _ hit,hold i hi]
    · rw [setPc_asleep,hold i hi,wakeUp_none]
    · have hi'' : i < s.nthreads + 1 := hi'
      have hin : i = s.nthreads := by omega
      subst hin
      rw [setPc_of_ne _ _ (Ne.symm hne)]
      simp [State.newThread]
    · rw [setPc_self,hold t ht]
  | started hpc hchild hparent =>
    rename_i sc child pc pc'
    obtain ⟨_,hct,hemb,_⟩ := hb.embryo t sc child ht hpc
    refine ⟨⟨Nat.le_refl _,fun i _ => by simp,fun i _ hit => ?_,fun i _ _ => by simp,
      fun i hi hi' => absurd hi' (Nat.not_lt.mpr hi),fun _ _ => rfl,fun _ _ => rfl,fun _ _ => rfl⟩,
      by rw [hpc]; rfl,⟨pc',?_,?_⟩,fun _ => ⟨rfl,rfl⟩,rfl,rfl⟩
    · rw [setPc_of_ne _ _ hit]
      by_cases hic : i = child
      · subst hic
        rw [setPc_self]
        exact .inr ⟨hemb,hchild⟩
      · exact .inl (by rw [setPc_of_ne _ _ hic])
    · rcases hparent with rfl | rfl
      · exact .inl rfl
      · exact .inr rfl
    · rw [setPc_self,setPc_of_ne _ _ (Ne.symm hct)]
  | parent hpc =>
    rename_i child pid
    have h := setPc_others s t .user
    have htab : ∀ i, ((if pid < totalProcesses then update s.table pid
        { s.table pid with parentPID := (s.threads t).pid } else s.table) i).exited =
          (s.table i).exited ∧
        ((if pid < totalProcesses then update s.table pid
        { s.table pid with parentPID := (s.threads t).pid } else s.table) i).exitcode =
          (s.table i).exitcode := by
      intro i
      split
      · by_cases hi : i = pid
        · subst hi
          simp
        · simp [hi]
      · exact ⟨rfl,rfl⟩
    exact ⟨⟨h.grows,h.pid,h.pc,h.asleep,h.new,fun i _ => (htab i).1,fun i _ => (htab i).2,
      fun _ _ => rfl⟩,by rw [hpc]; rfl,⟨.user,.inl rfl,by simp⟩,htab,rfl,rfl⟩

/-- The process with PID `a` sleeps inside a sys_waitpid for `b`. -/
def Blocked (s : State) (a b : Nat) : Prop :=
  ∃ t, t < s.nthreads ∧ (s.threads t).pid = a ∧ (s.threads t).asleep.isSome = true ∧
    (s.threads t).pc.awaits = some b

/-- A process waits only for processes created after itself. -/
def Act.WaitsDown (s : State) : Act → Prop
  | .call t (.waitpid w) => ((s.threads t).pid : Int) < w.pid
  | _ => True

/-- Every thread inside sys_waitpid asks for a larger PID than its own. -/
def Downward (s : State) : Prop :=
  ∀ t p, t < s.nthreads → (s.threads t).pc.awaits = some p → (s.threads t).pid < p

theorem Exec.awaits (h : Exec s t pc e) (hp : e.pc.awaits = some p) : pc.awaits = some p := by
  cases h with
  | refuse | code | mark | exitAcquire | exitBlocks | broadcast | exitRelease | flag | exitCode
  | threadExit => cases hp
  | _ => exact hp

theorem waitpidArgs_nonneg {w : WaitArgs} (h : waitpidArgs w = none) : 0 ≤ w.pid := by
  by_contra hneg
  have hlt : w.pid < 0 := by omega
  simp only [waitpidArgs,hlt,true_or,if_true] at h
  split at h
  · cases h
  · split at h <;> cases h

theorem Call.start_awaits {c : Call} (hp : (c.start.getD .user).awaits = some p) :
    ∃ w, c = .waitpid w ∧ w.pid = p := by
  cases c with
  | waitpid w =>
    refine ⟨w,rfl,?_⟩
    simp only [Call.start] at hp
    cases hw : waitpidArgs w with
    | some e => simp [hw,Pc.awaits] at hp
    | none =>
      have hnn := waitpidArgs_nonneg hw
      simp only [hw,Option.isSome_none,Bool.false_eq_true,if_false,Option.getD_some,Pc.awaits,
        Option.some.injEq] at hp
      omega
  | fork e => cases e <;> cases hp
  | threadFork | exit _ | threadExit => cases hp

theorem Pc.awaits_of_forking (h : pc = .user ∨ pc.forking = true) : pc.awaits = none := by
  rcases h with rfl | h
  · rfl
  · cases pc <;> first | rfl | cases h

theorem Downward.of_others {wake : Option Addr} (h : Downward s) (ho : Others s t wake s')
    (hself : ∀ p, (s'.threads t).pc.awaits = some p → (s.threads t).pid < p)
    (ht : t < s.nthreads) : Downward s' := by
  intro i p hi hp
  by_cases hit : i = t
  · subst hit
    rw [ho.pid i ht]
    exact hself p hp
  by_cases hin : i < s.nthreads
  · rw [ho.pid i hin]
    rcases ho.pc i hin hit with heq | ⟨_,heq | heq⟩
    · rw [heq] at hp
      exact h i p hin hp
    · rw [heq] at hp
      cases hp
    · rw [heq] at hp
      cases hp
  · rw [ho.new i (by omega) hi] at hp
    cases hp

theorem Downward.step (hb : Booked s) (h : Downward s) {a : Act}
    (hc : a.WaitsDown s) (hs : Proc.step s a = some s') : Downward s' := by
  obtain ⟨t,c,rfl,ht,hpc,_,rfl⟩ | ⟨t,_,_,e,rfl,ht,_,he,rfl⟩ | ⟨t,_,_,rfl,ht,_,hf⟩ := step_cases hs
  · refine h.of_others (startCall_others hb ht c) (fun p hp => ?_) ht
    rw [startCall_self hpc] at hp
    obtain ⟨w,rfl,hw⟩ := Call.start_awaits hp
    have hlt : ((s.threads t).pid : Int) < w.pid := hc
    omega
  · have hx := effect_exec he
    refine h.of_others (apply_others hb ht hx) (fun p hp => ?_) ht
    rw [apply_self] at hp
    exact h t p ht (hx.awaits hp)
  · obtain ⟨ho,_,⟨pc,hpc,hthr⟩,_⟩ := forked_others hb ht (forkStep_forked hb hf)
    refine h.of_others ho (fun p hp => ?_) ht
    rw [hthr,Pc.awaits_of_forking hpc] at hp
    cases hp

theorem Blocked.lt (h : Downward s) {a b : Nat} (hab : Blocked s a b) : a < b := by
  obtain ⟨t,ht,rfl,_,hp⟩ := hab
  exact h t b ht hp

theorem threadBootstrap_thread (ht : t < threadBootstrap.nthreads) :
    threadBootstrap.threads t = ⟨0,.user,none⟩ := by
  have h0 : t = 0 := Nat.lt_one_iff.mp ht
  subst h0
  rfl

/-- No cycle of processes blocked on each other, when every process waits only for
later ones. -/
theorem blocked_acyclic {acts : List Act} {s : State}
    (hc : Along step (fun s a => a.WaitsDown s) threadBootstrap acts)
    (hr : run step threadBootstrap acts = some s) (a : Nat) :
    ¬ Relation.TransGen (Blocked s) a a := by
  have hinv : Booked s ∧ Downward s := run_keeps (I := fun s => Booked s ∧ Downward s)
    (fun u x v hu hx hv => ⟨step_booked u x v hu.1 hv,hu.2.step hu.1 hx hv⟩)
    ⟨threadBootstrap_booked,fun t p ht hp => by
      rw [threadBootstrap_thread ht] at hp
      cases hp⟩ hc hr
  intro hcyc
  have hlt : ∀ b, Relation.TransGen (Blocked s) a b → a < b := by
    intro b hb
    induction hb with
    | single h => exact h.lt hinv.2
    | tail _ h ih => exact Nat.lt_trans ih (h.lt hinv.2)
  exact Nat.lt_irrefl a (hlt a hcyc)

instance (s : State) : (a : Act) → Decidable (a.WaitsDown s)
  | .call t (.waitpid w) => inferInstanceAs (Decidable (((s.threads t).pid : Int) < w.pid))
  | .call _ (.fork _) | .call _ .threadFork | .call _ (.exit _) | .call _ .threadExit
  | .go _ _ _ => isTrue True.intro

def goes (t n : Nat) : List Act := List.replicate n (.go t false 0)

def forkOnce : List Act := .call 1 (.fork none) :: goes 1 3

def waitFor (t p : Nat) : Act := .call t (.waitpid ⟨p,4,0,none⟩)

def siblingsWait : List Act :=
  startFirst ++ forkOnce ++ forkOnce ++ (waitFor 2 3 :: goes 2 7) ++ (waitFor 3 2 :: goes 3 7)

/-- Two children of process 1 wait for each other. -/
theorem siblings_block_each_other : ∃ s, run step threadBootstrap siblingsWait = some s ∧
    Relation.TransGen (Blocked s) 2 2 := by
  have hread : (run step threadBootstrap siblingsWait).map
      (fun s => (s.nthreads,s.threads 2,s.threads 3)) =
      some (4,⟨2,.waitAgain 3,some (.cv 3)⟩,⟨3,.waitAgain 2,some (.cv 2)⟩) := by
    decide +kernel
  obtain ⟨s,hs,hv⟩ := Option.map_eq_some_iff.mp hread
  simp only [Prod.mk.injEq] at hv
  obtain ⟨hn,h2,h3⟩ := hv
  have h23 : Blocked s 2 3 := ⟨2,by omega,by rw [h2],by rw [h2]; rfl,by rw [h2]; rfl⟩
  have h32 : Blocked s 3 2 := ⟨3,by omega,by rw [h3],by rw [h3]; rfl,by rw [h3]; rfl⟩
  exact ⟨s,hs,.tail (.single h23) h32⟩

theorem parent_waits_acyclic : ∃ s,
    run step threadBootstrap (startFirst ++ forkOnce ++ (waitFor 1 2 :: goes 1 7)) = some s ∧
    Blocked s 1 2 ∧ ∀ a, ¬ Relation.TransGen (Blocked s) a a := by
  have hread : (run step threadBootstrap
      (startFirst ++ forkOnce ++ (waitFor 1 2 :: goes 1 7))).map
      (fun s => (s.nthreads,s.threads 1)) = some (3,⟨1,.waitAgain 2,some (.cv 2)⟩) := by
    decide +kernel
  obtain ⟨s,hs,hv⟩ := Option.map_eq_some_iff.mp hread
  simp only [Prod.mk.injEq] at hv
  obtain ⟨hn,h1⟩ := hv
  have hdown : checkAlong step (fun s a => decide (a.WaitsDown s)) threadBootstrap
      (startFirst ++ forkOnce ++ (waitFor 1 2 :: goes 1 7)) = true := by
    decide +kernel
  exact ⟨s,hs,⟨1,by omega,by rw [h1],by rw [h1]; rfl,by rw [h1]; rfl⟩,
    blocked_acyclic (Along.of_check (fun _ _ h => of_decide_eq_true h) hdown) hs⟩

end MipsOs.Proc
