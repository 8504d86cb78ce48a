import Mathlib.Data.List.Nodup
import MipsOs.ThreadCode

/-! Where the threads are. Every thread that has not exited is running, in the run
queue or in the sleepers array, and what it has to do there is well formed. -/

set_option autoImplicit false
namespace MipsOs.Threads
open Function Runs

section Places

variable {k k' : Kernel} {t : Tid}

def Kernel.seated (k : Kernel) : List Tid := k.curthread.toList ++ k.ready ++ k.asleep

/-- Every thread is in exactly one place. -/
structure Placed (k : Kernel) : Prop where
  seats : ∀ x, k.seated.count x = if x < k.created ∧ x ∉ k.exited then 1 else 0
  graves : ∀ x, k.dead.count x = if x ∈ k.exited ∧ x ∉ k.destroyed then 1 else 0
  exited : ∀ x ∈ k.exited, x < k.created
  destroyed : ∀ x ∈ k.destroyed, x ∈ k.exited
  total : k.seated.length = k.numthreads
  number : k.numthreads + k.exited.length = k.created

theorem Placed.of_perm (h : Placed k) (hs : k'.seated.Perm k.seated) (hd : k'.dead = k.dead)
    (he : k'.exited = k.exited) (hx : k'.destroyed = k.destroyed) (hc : k'.created = k.created)
    (hn : k'.numthreads = k.numthreads) : Placed k' where
  seats x := by rw [hs.count_eq,hc,he]; exact h.seats x
  graves x := by rw [hd,he,hx]; exact h.graves x
  exited := by rw [he,hc]; exact h.exited
  destroyed := by rw [hx,he]; exact h.destroyed
  total := by rw [hs.length_eq,hn]; exact h.total
  number := by rw [hn,he,hc]; exact h.number

theorem Placed.nodup (h : Placed k) : k.seated.Nodup := by
  rw [List.nodup_iff_count_le_one]
  intro x
  rw [h.seats x]
  split <;> omega

theorem Placed.cur_live (h : Placed k) (ht : k.curthread = some t) :
    t < k.created ∧ t ∉ k.exited := by
  by_contra hc
  have hmem : t ∈ k.seated := by simp [Kernel.seated,ht]
  have hz := h.seats t
  rw [if_neg hc] at hz
  exact List.count_eq_zero.mp hz hmem

theorem Placed.cur_not_parked (h : Placed k) (ht : k.curthread = some t) :
    t ∉ k.ready ++ k.asleep := by
  have hn := h.nodup
  rw [Kernel.seated,ht,List.append_assoc] at hn
  exact (List.nodup_cons.mp hn).1

theorem Placed.cur_not_dead (h : Placed k) (ht : k.curthread = some t) : t ∉ k.dead := by
  have hg := h.graves t
  rw [if_neg fun hx => (h.cur_live ht).2 hx.1] at hg
  exact List.count_eq_zero.mp hg

theorem Moved.placed {ws left : List Tid} (hm : Moved ws left k k') (h : Placed k)
    (hp : (ws ++ left).Perm k.asleep) : Placed k' := by
  have hrest := hm.rest
  refine h.of_perm ?_ (by rw [hrest]; rfl) (by rw [hrest]) (by rw [hrest]) (by rw [hrest])
    (by rw [hrest])
  have hcur : k'.curthread = k.curthread := by rw [hrest]
  rw [Kernel.seated,Kernel.seated,hm.ready,hm.asleep,hcur,List.append_assoc,List.append_assoc,
    List.append_assoc]
  exact (hp.append_left _).append_left _

theorem Picked.placed (hk : Picked k k') (hcur : k.curthread = none) (h : Placed k) :
    Placed k' := by
  cases hk with
  | idle _ => exact h
  | next hr _ =>
    refine h.of_perm ?_ rfl rfl rfl rfl rfl
    rw [Kernel.seated,Kernel.seated,hr,hcur]
    exact List.Perm.refl _

end Places

section Statements

variable {k k' : Kernel} {t : Tid} {rest : List Instr}

/-- How a thread can be left, with curspl at `lvl` when it goes on. -/
structure Thread.Left (lvl : Nat) (th : Thread) : Prop where
  sound : Sound lvl th.spls th.code
  pending : pending th.code = true
  opens : opens th.code = true

def Parked (k : Kernel) : Prop := ∀ x ∈ k.ready ++ k.asleep, (k.thread x).Left splHigh

/-- Between two statements of the running thread. -/
structure BaseIn (t : Tid) (rest : List Instr) (k : Kernel) : Prop where
  cur : k.curthread = some t
  sound : Sound k.curspl (k.thread t).spls rest
  parked : Parked k
  placed : Placed k

/-- When interrupts are on, or a thread has been switched to, or the processor idles. -/
structure Base (k : Kernel) : Prop where
  running : ∀ t, k.curthread = some t → (k.thread t).Left k.curspl
  idle : k.curthread = none → k.curspl = splHigh
  parked : Parked k
  placed : Placed k

variable {th : Thread} {code : List Instr} {ws left : List Tid} {i : Instr}

theorem Parked.update (h : Parked k) (ht : t ∉ k.ready ++ k.asleep) :
    Parked { k with thread := Function.update k.thread t th } := by
  intro x hx
  have hne : x ≠ t := fun he => ht (he ▸ hx)
  show (Function.update k.thread t th x).Left splHigh
  rw [update_of_ne hne]
  exact h x hx

theorem BaseIn.own (h : BaseIn t rest k) {lvl : Nat}
    {menuth : Option Tid} (hs : Sound lvl th.spls code) :
    BaseIn t code { k with
      curspl := lvl, thread := update k.thread t th, menuth := menuth } where
  cur := h.cur
  sound := by
    show Sound lvl (update k.thread t th t).spls code
    rw [update_self]
    exact hs
  parked := h.parked.update (h.placed.cur_not_parked h.cur)
  placed := h.placed.of_perm (List.Perm.refl _) rfl rfl rfl rfl rfl

theorem BaseIn.data (h : BaseIn t rest k)
    (hs : Sound k.curspl (k.thread t).spls code) (count : Nat → Int)
    (owner : Nat → Option Tid) (log : List Event) :
    BaseIn t code { k with count := count, owner := owner, log := log } :=
  ⟨h.cur,hs,h.parked,h.placed.of_perm (List.Perm.refl _) rfl rfl rfl rfl rfl⟩

theorem Moved.parked (hm : Moved ws left k k') (h : Parked k)
    (hp : (ws ++ left).Perm k.asleep) : Parked k' := by
  intro x hx
  have hth : k'.thread = k.thread := by rw [hm.rest]
  rw [hm.ready,hm.asleep,List.append_assoc] at hx
  rw [hth]
  exact h x (((hp.append_left _).mem_iff).mp hx)

theorem Moved.baseIn (hm : Moved ws left k k')
    (h : BaseIn t rest k) (hp : (ws ++ left).Perm k.asleep)
    (hs : Sound k.curspl (k.thread t).spls code) : BaseIn t code k' where
  cur := by rw [hm.rest]; exact h.cur
  sound := by rw [hm.rest]; exact hs
  parked := hm.parked h.parked hp
  placed := hm.placed h.placed hp

theorem Picked.base (hk : Picked k k') (hcur : k.curthread = none) (hspl : k.curspl = splHigh)
    (hp : Parked k) (hpl : Placed k) : Base k' := by
  refine ⟨fun t ht => ?_,fun hnone => ?_,?_,hk.placed hcur hpl⟩
  · cases hk with
    | idle _ =>
      rw [hcur] at ht
      cases ht
    | next hr _ =>
      cases ht
      show Thread.Left k.curspl _
      rw [hspl]
      exact hp t (by rw [hr]; simp)
  · cases hk with
    | idle _ => exact hspl
    | next _ _ => cases hnone
  · cases hk with
    | idle _ => exact hp
    | next hr _ =>
      intro x hx
      refine hp x ?_
      rw [hr]
      exact List.mem_cons_of_mem _ hx

theorem BaseIn.exorcised (h : BaseIn t rest k)
    (hs : Sound k.curspl (k.thread t).spls code) : BaseIn t code k.exorcised := by
  refine ⟨h.cur,hs,h.parked,⟨h.placed.seats,fun x => ?_,h.placed.exited,fun x hx => ?_,
    h.placed.total,h.placed.number⟩⟩
  · have hz : k.exorcised.dead = [] := PtrArray.arraySetsize_zero_toList _
    rw [hz,List.count_nil,if_neg]
    rintro ⟨hx,hd⟩
    have hd : x ∉ k.dead.reverse ++ k.destroyed := hd
    simp only [List.mem_append,List.mem_reverse,not_or] at hd
    have hg := h.placed.graves x
    rw [if_pos ⟨hx,hd.2⟩,List.count_eq_zero.mpr hd.1] at hg
    omega
  · have hx : x ∈ k.dead.reverse ++ k.destroyed := hx
    rcases List.mem_append.mp hx with hx | hx
    · have hg := h.placed.graves x
      have hpos : 0 < k.dead.count x := List.count_pos_iff.mpr (List.mem_reverse.mp hx)
      by_contra hne
      rw [if_neg fun hc => hne hc.1] at hg
      omega
    · exact h.placed.destroyed x hx

theorem forked_seated (k : Kernel) : k.forked.seated.Perm (k.created :: k.seated) := by
  rw [Kernel.seated,forked_ready,Kernel.seated]
  show (k.curthread.toList ++ (k.ready ++ [k.created]) ++ k.asleep).Perm _
  simp only [List.append_assoc,List.singleton_append]
  rw [← List.append_assoc,← List.append_assoc]
  exact List.perm_middle

theorem Placed.forked (h : Placed k) : Placed k.forked where
  seats x := by
    rw [(forked_seated k).count_eq]
    by_cases hx : x = k.created
    · subst hx
      have hne : k.created ∉ k.exited := fun he => Nat.lt_irrefl _ (h.exited _ he)
      have hold : k.seated.count k.created = 0 := by
        rw [h.seats,if_neg fun hc => Nat.lt_irrefl _ hc.1]
      have hnew : k.created < k.forked.created ∧ k.created ∉ k.forked.exited :=
        ⟨Nat.lt_succ_self _,hne⟩
      rw [List.count_cons_self,hold,if_pos hnew]
    · have hlt : x < k.forked.created ↔ x < k.created :=
        ⟨fun hl => (Nat.lt_succ_iff_lt_or_eq.mp hl).resolve_right hx,Nat.lt_succ_of_lt⟩
      rw [List.count_cons_of_ne fun he => hx he.symm,h.seats x]
      exact if_congr (and_congr_left fun _ => hlt.symm) rfl rfl
  graves := h.graves
  exited x hx := Nat.lt_succ_of_lt (h.exited x hx)
  destroyed := h.destroyed
  total := by
    rw [(forked_seated k).length_eq,List.length_cons,h.total]
    rfl
  number := by
    have hn := h.number
    show k.numthreads + 1 + k.exited.length = k.created + 1
    omega

theorem BaseIn.forked (h : BaseIn t rest k)
    (hs : Sound k.curspl (k.thread t).spls code) : BaseIn t code k.forked := by
  have hlive : ∀ x ∈ k.seated, x < k.created := by
    intro x hx
    by_contra hc
    have hz := h.placed.seats x
    rw [if_neg fun hx => hc hx.1] at hz
    exact List.count_eq_zero.mp hz hx
  have hold : ∀ x ∈ k.seated, k.forked.thread x = k.thread x := fun x hx =>
    update_of_ne (Nat.ne_of_lt (hlive x hx)) _ _
  refine ⟨h.cur,?_,fun x hx => ?_,h.placed.forked⟩
  · show Sound k.curspl (k.forked.thread t).spls code
    rw [hold t (by simp [Kernel.seated,h.cur])]
    exact hs
  · rw [forked_ready] at hx
    by_cases hx' : x = k.created
    · subst hx'
      have hth : k.forked.thread k.created = newThread := update_self _ _ _
      rw [hth]
      exact ⟨.spl0 rfl rfl .nil,rfl,rfl⟩
    · have hmem : x ∈ k.ready ++ k.asleep := by
        have hx : x ∈ k.ready ++ [k.created] ++ k.asleep := hx
        simpa [hx'] using hx
      rw [hold x (by rw [Kernel.seated,List.append_assoc]; exact List.mem_append_right _ hmem)]
      exact h.parked x hmem

theorem seated_cur (hcur : k.curthread = some t) : k.seated = t :: (k.ready ++ k.asleep) := by
  rw [Kernel.seated,hcur,List.append_assoc]
  rfl

theorem Placed.slept (h : Placed k) (hcur : k.curthread = some t) (addr : Addr)
    (code : List Instr) : Placed (k.slept t addr code) := by
  refine h.of_perm ?_ rfl rfl rfl rfl rfl
  rw [seated_cur hcur,Kernel.seated,slept_asleep,← List.append_assoc]
  exact List.perm_append_singleton t _

theorem Placed.yielded (h : Placed k) (hcur : k.curthread = some t) (code : List Instr) :
    Placed (k.yielded t code) := by
  refine h.of_perm ?_ rfl rfl rfl rfl rfl
  rw [seated_cur hcur,Kernel.seated,yielded_ready]
  show (k.ready ++ [t] ++ k.asleep).Perm _
  rw [List.append_assoc]
  exact List.perm_middle

theorem Placed.buried (h : Placed k) (hcur : k.curthread = some t) : Placed (k.buried t) := by
  obtain ⟨hlt,hne⟩ := h.cur_live hcur
  have hseat : (k.buried t).seated = k.ready ++ k.asleep := rfl
  have htotal := h.total
  have hnumber := h.number
  rw [seated_cur hcur,List.length_cons] at htotal
  refine ⟨fun x => ?_,fun x => ?_,fun x hx => ?_,fun x hx => ?_,?_,?_⟩
  · have hs := h.seats x
    rw [seated_cur hcur] at hs
    rw [hseat]
    show _ = if x < k.created ∧ x ∉ t :: k.exited then 1 else 0
    by_cases hx : x = t
    · subst hx
      rw [List.count_cons_self,if_pos ⟨hlt,hne⟩] at hs
      rw [if_neg fun hc => hc.2 List.mem_cons_self]
      omega
    · rw [List.count_cons_of_ne fun he => hx he.symm] at hs
      rw [hs]
      exact if_congr (and_congr_right fun _ => by simp [hx]) rfl rfl
  · have hg := h.graves x
    have hdest : x ∈ k.destroyed → x ∈ k.exited := h.destroyed x
    rw [buried_dead,List.count_append,hg]
    show _ = if x ∈ t :: k.exited ∧ x ∉ k.destroyed then 1 else 0
    by_cases hx : x = t
    · subst hx
      rw [if_neg fun hc => hne hc.1,if_pos ⟨List.mem_cons_self,fun hd => hne (hdest hd)⟩]
      simp
    · have hz : [t].count x = 0 := List.count_eq_zero.mpr (by simpa using hx)
      rw [hz,Nat.add_zero]
      exact if_congr (and_congr_left fun _ => by simp [hx]) rfl rfl
  · rcases List.mem_cons.mp hx with rfl | hx
    · exact hlt
    · exact h.exited x hx
  · exact List.mem_cons_of_mem t (h.destroyed x hx)
  · rw [hseat]
    show _ = k.numthreads - 1
    omega
  · show k.numthreads - 1 + (k.exited.length + 1) = k.created
    omega

theorem Parked.parks (h : Parked k) (hth : k'.thread = Function.update k.thread t th)
    (hmem : ∀ x ∈ k'.ready ++ k'.asleep, x ∈ t :: (k.ready ++ k.asleep))
    (hf : th.Left splHigh) : Parked k' := by
  intro x hx
  rw [hth]
  by_cases hxt : x = t
  · rw [hxt,update_self]
    exact hf
  · rw [update_of_ne hxt]
    exact h x ((List.mem_cons.mp (hmem x hx)).resolve_left hxt)

theorem Parked.slept (h : Parked k) {addr : Addr}
    (hf : Thread.Left splHigh ⟨some addr,.exorcise :: .awake :: code,(k.thread t).spls,k.clock⟩) :
    Parked (k.slept t addr code) := by
  refine h.parks rfl (fun x hx => ?_) hf
  rw [slept_asleep] at hx
  have hx : x ∈ k.ready ++ (k.asleep ++ [t]) := hx
  grind

theorem Parked.yielded (h : Parked k)
    (hf : Thread.Left splHigh { k.thread t with code := .exorcise :: code }) :
    Parked (k.yielded t code) := by
  refine h.parks rfl (fun x hx => ?_) hf
  rw [yielded_ready] at hx
  have hx : x ∈ k.ready ++ [t] ++ k.asleep := hx
  grind

theorem BaseIn.does (h : BaseIn t (i :: rest) k) :
    Safe (exec t rest k i) (Does t rest k i) (Fails t k i) := by
  refine exec_does h.cur h.sound (h.placed.cur_not_dead h.cur) ?_
  rw [← h.placed.total,seated_cur h.cur]
  exact Nat.succ_pos _

theorem BaseIn.keeps {pr : Progress} (h : BaseIn t (i :: rest) k)
    (hd : Does t rest k i pr) : pr.Keeps (BaseIn t rest) Base := by
  have hpark := h.placed.cur_not_parked h.cur
  cases hd with
  | own _ _ hs => exact h.own hs
  | pass _ hs | noFork hs => exact ⟨h.cur,hs,h.parked,h.placed⟩
  | exorcise hs => exact h.exorcised hs
  | wakeup hs hm | onewakeup hs hm => exact hm.baseIn h (woken_perm _ _ _) hs
  | fork _ hs => exact h.forked hs
  | decCount _ hs | incCount _ hs _ | setOwner hs | clearOwner _ hs _ _ => exact h.data hs _ _ _
  | @sleep _ addr code _ hi hspl hs hpick =>
    have hp : pending (.exorcise :: .awake :: code) = true := by
      cases hi with
      | sleep | count | owner => exact h.sound.pending_rest (by simp)
    exact hpick.base rfl hspl (h.parked.slept ⟨hs,hp,rfl⟩) (h.placed.slept h.cur addr code)
  | yield hspl hs hpick =>
    have hp : pending (.exorcise :: rest) = true := h.sound.pending_rest (by simp)
    exact hpick.base rfl hspl (h.parked.yielded ⟨hs,hp,rfl⟩) (h.placed.yielded h.cur rest)
  | exit hspl hpick =>
    refine hpick.base rfl hspl ?_ (h.placed.buried h.cur)
    intro x hx
    have hne : x ≠ t := fun he => hpark (he ▸ hx)
    have hth : (k.buried t).thread x = k.thread x := update_of_ne hne _ _
    rw [hth]
    exact h.parked x hx

theorem BaseIn.stop (h : BaseIn t rest k) (hp : pending rest = true) (ho : opens rest = true) :
    Base (k.left t rest) := by
  refine ⟨fun x hx => ?_,fun hx => ?_,h.parked.update (h.placed.cur_not_parked h.cur),
    h.placed.of_perm (List.Perm.refl _) rfl rfl rfl rfl rfl⟩
  · have hx : k.curthread = some x := hx
    rw [h.cur] at hx
    cases hx
    show Thread.Left k.curspl (update k.thread t { k.thread t with code := rest } t)
    rw [update_self]
    exact ⟨h.sound,hp,ho⟩
  · have hx : k.curthread = none := hx
    rw [h.cur] at hx
    cases hx

end Statements

section Steps

variable {k k' : Kernel} {t : Tid}

/-- Panics that need the calls on a semaphore or lock to be examined. -/
def OfSynch (p : Panic) : Prop := p = .countP ∨ p = .countV ∨ p = .notOwner

variable {i : Instr} {p : Panic} {rest code : List Instr} {O : Kernel → Prop} {E : Panic → Prop}
  {a : Act} {r : Run}

theorem Fails.ofSynch (h : Fails t k i p) : OfSynch p := by
  cases h with
  | countP _ => exact .inl rfl
  | countV _ => exact .inr (.inl rfl)
  | notOwner _ => exact .inr (.inr rfl)

theorem Does.pending {k₁ : Kernel}
    (hs : Sound k₁.curspl (k₁.thread t).spls (i :: rest)) (hd : Does t rest k₁ i (.went k))
    (hz : k.curspl = 0) : Threads.pending rest = true := by
  refine hs.pending_rest fun hi => ?_
  subst hi
  cases hd with
  | own _ hl _ => exact absurd ((Prod.mk.inj hl).1.symm.trans hz) (by decide)
  | pass hp _ => cases hp

/-- An invariant that rests on where the threads are: what holds while thread `t` runs, and what
holds when it has stopped. -/
theorem BaseIn.extend {I : List Instr → Kernel → Prop}
    (hdoes : ∀ i rest k pr, BaseIn t (i :: rest) k → I (i :: rest) k → Does t rest k i pr →
      pr.Keeps (I rest) O)
    (hfails : ∀ i rest k p, BaseIn t (i :: rest) k → I (i :: rest) k → Fails t k i p → E p)
    (hend : ∀ rest k, BaseIn t rest k → I rest k → rest = [] ∨ k.curspl = 0 →
      O (k.left t rest)) (hb : BaseIn t code k) (h : I code k) :
    Safe (burst t code k) (fun k' => Base k' ∧ O k') E := by
  refine burst_keeps (I := fun code k => BaseIn t code k ∧ I code k) (fun i rest k hk => ?_)
    (fun rest k hk he => ⟨hk.1.stop ?_ ?_,hend rest k hk.1 hk.2 (he.imp id fun ⟨_,_,_,_,hz⟩ => hz)⟩)
    ⟨hb,h⟩
  · refine hk.1.does.mono (fun pr hd => ?_) fun p hp => hfails i rest k p hk.1 hk.2 hp
    have hbase := hk.1.keeps hd
    have hin := hdoes i rest k pr hk.1 hk.2 hd
    cases pr with
    | went | switched => exact ⟨hbase,hin⟩
  · rcases he with rfl | ⟨i,k₁,hin,hx,hz⟩
    · rfl
    · have hd := hin.1.does
      rw [hx] at hd
      exact Does.pending hin.1.sound hd hz
  · rcases he with rfl | ⟨_,_,_,_,hz⟩
    · rfl
    · have hs := hk.1.sound
      rw [hz] at hs
      exact opens_of_sound hs

def Irq.wakes : Irq → Option Addr
  | .hardclock true => some lbolt
  | .wakeup a => some (.other a)
  | _ => none

/-- What a handler does in the idle loop. -/
inductive IdleDoes (k : Kernel) : Irq → Kernel → Prop
  | nothing : IdleDoes k (.hardclock false) k
  | wakeup {i : Irq} {addr : Addr} {k' : Kernel} (hi : i.wakes = some addr)
      (hm : Moved (woken (k.sleepsOn addr) false k.asleep)
        (notWoken (k.sleepsOn addr) false k.asleep) k k') : IdleDoes k i k'
  | V {s : Nat} {k' : Kernel} (hc : 0 < increment (k.count s))
      (hm : Moved (woken (k.sleepsOn (.sem s)) false k.asleep)
        (notWoken (k.sleepsOn (.sem s)) false k.asleep) (k.raised s) k') : IdleDoes k (.V s) k'

theorem idle_ok (h : idleExec k i = .ok k') : idle (i :: rest) k = idle rest k' := by
  rw [idle,h]

theorem idle_does (hspl : k.curspl = splHigh) (i : Irq) :
    Safe (idle i.code k) (IdleDoes k i)
      fun p => p = .countV ∧ ∃ s, i = .V s ∧ ¬ 0 < increment (k.count s) := by
  cases i with
  | hardclock second =>
    cases second with
    | false => exact .nothing
    | true =>
      obtain ⟨k',hk,hm⟩ := threadWakeup_spec (splHigh_pos hspl) lbolt
      rw [Irq.code,hardclock,if_pos rfl,List.singleton_append,
        idle_ok (i := .wakeup lbolt) hk]
      exact .wakeup rfl hm
  | V s =>
    rw [Irq.code,Threads.V,idle_ok rfl]
    by_cases hc : 0 < increment (k.count s)
    · have hspl' : 0 < (k.raised s).curspl := splHigh_pos hspl
      obtain ⟨k',hk,hm⟩ := threadWakeup_spec hspl' (.sem s)
      rw [idle_ok (i := .incCount s) (incCount_eq hc),idle_ok (i := .wakeup (.sem s)) hk]
      exact .V hc hm
    · rw [idle,show idleExec k (.incCount s) = _ from incCount_overflow hc]
      exact ⟨rfl,s,rfl,hc⟩
  | wakeup a =>
    obtain ⟨k',hk,hm⟩ := threadWakeup_spec (splHigh_pos hspl) (.other a)
    rw [Irq.code,idle_ok rfl,idle_ok (i := .wakeup (.other a)) hk]
    exact .wakeup rfl hm

theorem Moved.base {ws left : List Tid} (hm : Moved ws left k k') (h : Base k)
    (hcur : k.curthread = none) (hp : (ws ++ left).Perm k.asleep) : Base k' := by
  have hcur' : k'.curthread = none := by rw [hm.rest]; exact hcur
  have hspl' : k'.curspl = splHigh := by rw [hm.rest]; exact h.idle hcur
  refine ⟨fun t ht => ?_,fun _ => hspl',hm.parked h.parked hp,hm.placed h.placed hp⟩
  rw [hcur'] at ht
  cases ht

theorem Base.idleKeeps {i : Irq} (h : Base k) (hcur : k.curthread = none) (hd : IdleDoes k i k') :
    Base k' := by
  cases hd with
  | nothing => exact h
  | wakeup _ hm => exact hm.base h hcur (woken_perm _ _ _)
  | @V s _ _ hm =>
    have hr : Base (k.raised s) := ⟨h.running,h.idle,h.parked,
      h.placed.of_perm (List.Perm.refl _) rfl rfl rfl rfl rfl⟩
    exact hm.base hr hcur (woken_perm _ _ _)

/-- Code that an action hands to the current thread. -/
inductive Starts (k : Kernel) (t : Tid) : Act → List Instr → Prop
  | call (c : Call) (hz : k.curspl = 0) (hc : (k.thread t).code = []) :
      Starts k t (.call c) (c.code (k.menuth == some t))
  | run (hc : (k.thread t).code ≠ []) : Starts k t .run (k.thread t).code
  | irq (i : Irq) (hz : k.curspl = 0) : Starts k t (.irq i) (trap i.code ++ (k.thread t).code)

theorem perform_cases (h : perform k a = some r) :
    (∃ t code, k.curthread = some t ∧ Starts k t a code ∧ r = burst t code k) ∨
    (k.curthread = none ∧ ((∃ i, a = .irq i ∧ r = idle i.code k) ∨
      (a = .dispatch ∧ k.ready ≠ [] ∧ r = scheduler k))) := by
  unfold perform at h
  split at h
  · next t c hcur =>
    split at h
    · next hc => cases h; exact .inl ⟨t,_,hcur,.call c hc.1 hc.2,rfl⟩
    · cases h
  · next t hcur =>
    split at h
    · next hc => cases h; exact .inl ⟨t,_,hcur,.run hc,rfl⟩
    · cases h
  · next t i hcur =>
    split at h
    · next hc => cases h; exact .inl ⟨t,_,hcur,.irq i hc,rfl⟩
    · cases h
  · next i hcur => cases h; exact .inr ⟨hcur,.inl ⟨i,rfl,rfl⟩⟩
  · next hcur =>
    split at h
    · cases h
    · next he =>
      cases h
      exact .inr ⟨hcur,.inr ⟨rfl,fun hr => he (k.runqueue.qEmpty_iff.mpr hr),rfl⟩⟩
  · cases h

theorem step_eq_some (h : step k a = some k') : perform k a = some (.ok k') := by
  unfold step at h
  split at h
  · next hp => cases h; exact hp
  · cases h

theorem Base.starts (h : Base k) (hcur : k.curthread = some t)
    (ha : Starts k t a code) : BaseIn t code k := by
  obtain ⟨hs,hp,ho⟩ := h.running t hcur
  refine ⟨hcur,?_,h.parked,h.placed⟩
  cases ha with
  | call c hz hc =>
    rw [hz,hc] at hs
    have hspls : (k.thread t).spls = [] := by
      cases hl : (k.thread t).spls with
      | nil => rfl
      | cons x xs =>
        rw [hl] at hs
        cases hs
    rw [hz,hspls]
    exact sound_call _ c
  | run hc => exact hs
  | irq i hz =>
    rw [hz] at hs ⊢
    exact sound_irq i ho hp hs

theorem opens_of_starts (hl : opens (k.thread t).code = true)
    (ha : Starts k t a code) : opens code = true := by
  cases ha with
  | call c _ _ => cases c <;> rfl
  | run _ => exact hl
  | irq i _ => rfl

theorem Base.dispatch (h : Base k) (hcur : k.curthread = none) :
    ∃ k', scheduler k = .ok k' ∧ Picked k k' ∧ Base k' := by
  have hspl := h.idle hcur
  obtain ⟨k',hk,hp⟩ := scheduler_spec (splHigh_pos hspl)
  exact ⟨k',hk,hp,hp.base hcur hspl h.parked h.placed⟩

theorem Base.extend {I : Tid → List Instr → Kernel → Prop}
    (h : Base k) (hr : Threads.perform k a = some r)
    (hstart : ∀ t code, k.curthread = some t → Starts k t a code → I t code k)
    (hdoes : ∀ t i rest k pr, BaseIn t (i :: rest) k → I t (i :: rest) k → Does t rest k i pr →
      pr.Keeps (I t rest) O)
    (hfails : ∀ t i rest k p, BaseIn t (i :: rest) k → I t (i :: rest) k → Fails t k i p → E p)
    (hend : ∀ t rest k, BaseIn t rest k → I t rest k → rest = [] ∨ k.curspl = 0 →
      O (k.left t rest))
    (hidle : ∀ i k', a = .irq i → k.curthread = none → IdleDoes k i k' → O k')
    (hidleFails : ∀ s, a = .irq (.V s) → k.curthread = none → ¬ 0 < increment (k.count s) →
      E .countV)
    (hpick : ∀ k', a = .dispatch → k.curthread = none → Picked k k' → O k') :
    Safe r (fun k' => Base k' ∧ O k') E := by
  rcases perform_cases hr with ⟨t,code,hcur,ha,rfl⟩ | ⟨hcur,⟨i,rfl,rfl⟩ | ⟨ha,_,rfl⟩⟩
  · exact BaseIn.extend (hdoes t) (hfails t) (hend t) (h.starts hcur ha) (hstart t code hcur ha)
  · refine (idle_does (h.idle hcur) i).mono (fun k' hd => ?_) ?_
    · exact ⟨h.idleKeeps hcur hd,hidle i k' rfl hcur hd⟩
    · rintro p ⟨rfl,s,rfl,hc⟩
      exact hidleFails s rfl hcur hc
  · obtain ⟨k',hk,hp,hb⟩ := h.dispatch hcur
    rw [hk]
    exact ⟨hb,hpick k' ha hcur hp⟩

theorem Base.perform (h : Base k) (hr : perform k a = some r) : Safe r Base OfSynch := by
  refine (h.extend (I := fun _ _ _ => True) (O := fun _ => True) hr
    (fun _ _ _ _ => True.intro) (fun _ _ _ _ pr _ _ _ => ?_) (fun _ _ _ _ _ _ _ hf => hf.ofSynch)
    (fun _ _ _ _ _ _ => True.intro) (fun _ _ _ _ _ => True.intro)
    (fun _ _ _ _ => .inr (.inl rfl)) fun _ _ _ _ => True.intro).mono (fun _ hk => hk.1) fun _ hp => hp
  cases pr with
  | went | switched => exact True.intro

theorem Base.step (h : Base k) (hk : step k a = some k') : Base k' :=
  h.perform (step_eq_some hk)

theorem boot_base (initialCount : Nat → Nat) : Base (boot initialCount) := by
  refine ⟨fun t _ => ⟨.nil,rfl,rfl⟩,nofun,nofun,⟨fun x => ?_,fun x => ?_,nofun,nofun,rfl,rfl⟩⟩
  · show [0].count x = if x < 1 ∧ x ∉ [] then 1 else 0
    by_cases hx : x = 0
    · subst hx
      rfl
    · rw [List.count_eq_zero.mpr (by simpa using hx),if_neg]
      rintro ⟨hlt,_⟩
      exact hx (Nat.lt_one_iff.mp hlt)
  · exact (if_neg fun hc => List.not_mem_nil hc.1).symm

theorem reachable_base {initialCount : Nat → Nat} {acts : List Act}
    (h : run Threads.step (boot initialCount) acts = some k) : Base k :=
  run_keeps (C := fun _ _ => True) (fun _ _ _ hb _ hs => Base.step hb hs)
    (boot_base initialCount) (Along.trivial _ _ _) h

end Steps

section Everywhere

variable {k : Kernel} {initialCount : Nat → Nat} {acts : List Act}

theorem indicator_pos {p : Prop} [Decidable p] : 0 < (if p then 1 else 0) ↔ p := by
  split <;> simp [*]

theorem Placed.seated_iff (h : Placed k) (x : Tid) :
    x ∈ k.seated ↔ x < k.created ∧ x ∉ k.exited := by
  rw [← List.count_pos_iff,h.seats x,indicator_pos]

theorem Placed.dead_iff (h : Placed k) (x : Tid) :
    x ∈ k.dead ↔ x ∈ k.exited ∧ x ∉ k.destroyed := by
  rw [← List.count_pos_iff,h.graves x,indicator_pos]

def Kernel.living (k : Kernel) : List Tid :=
  (List.range k.created).filter fun x => decide (x ∉ k.exited)

theorem Placed.living (h : Placed k) : k.living.length = k.numthreads := by
  rw [← h.total]
  refine ((List.perm_ext_iff_of_nodup (List.nodup_range.filter _) h.nodup).mpr fun x => ?_).length_eq
  rw [h.seated_iff,List.mem_filter,List.mem_range,decide_eq_true_eq]

/-- In every state a thread that has not exited is in exactly one place, a thread that has exited
and not been destroyed is once among the zombies, a destroyed one nowhere; numthreads is the
number of threads; and no assertion of the thread system fails. -/
theorem each_thread_in_one_place
    (h : run Threads.step (boot initialCount) acts = some k) :
    (∀ x, x < k.created → x ∉ k.exited →
      (k.curthread.toList ++ k.ready ++ k.asleep).count x = 1 ∧ x ∉ k.dead) ∧
    (∀ x ∈ k.exited, x ∉ k.destroyed →
      k.dead.count x = 1 ∧ x ∉ k.curthread.toList ++ k.ready ++ k.asleep) ∧
    (∀ x ∈ k.destroyed, x ∉ k.dead ∧ x ∉ k.curthread.toList ++ k.ready ++ k.asleep) ∧
    k.numthreads = k.living.length ∧
    ∀ a p, perform k a = some (.error p) → p = .countP ∨ p = .countV ∨ p = .notOwner := by
  have hb := reachable_base h
  have hpl := hb.placed
  refine ⟨fun x hx hne => ⟨?_,fun hd => hne ((hpl.dead_iff x).mp hd).1⟩,
    fun x hx hne => ⟨?_,fun hs => ?_⟩,fun x hx => ⟨fun hd => ((hpl.dead_iff x).mp hd).2 hx,fun hs => ?_⟩,
    hpl.living.symm,
    fun a p hp => hb.perform hp⟩
  · exact (hpl.seats x).trans (if_pos ⟨hx,hne⟩)
  · exact (hpl.graves x).trans (if_pos ⟨hx,hne⟩)
  · exact ((hpl.seated_iff x).mp hs).2 hx
  · exact ((hpl.seated_iff x).mp hs).2 (hpl.destroyed x hx)

def forkAndExit : List Act := [.call .fork,.call .yield,.run,.call .exit,.run]

theorem each_thread_in_one_place_forked : ∃ k,
    run Threads.step (boot fun _ => 0) forkAndExit = some k ∧ k.exited = [1] ∧
      k.numthreads = k.living.length := by
  have h : ((run Threads.step (boot fun _ => 0) forkAndExit).any fun k =>
      decide (k.exited = [1])) = true := by decide +kernel
  obtain ⟨k,hk,he⟩ := some_of_any h
  exact ⟨k,hk,of_decide_eq_true he,(each_thread_in_one_place hk).2.2.2.1⟩

end Everywhere

end MipsOs.Threads
