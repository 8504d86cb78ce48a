import MipsOs.PageFault

/-! The machine as its processes see it: every process has an address space, one of them is current,
and user accesses go through the TLB. Runs handed out to the kernel heap are remembered by the
address alloc_kpages returned. What one process can do to the memory of another, and what it can
learn from pages it has not written: the frames that getppages hands out keep their bytes. -/

set_option autoImplicit false
namespace MipsOs.Vm
open Runs
open Option (bind_eq_some_iff)

structure Machine where
  mmu : Mmu
  mem : Nat → UInt8
  procs : Nat → Option AddrSpace
  cur : Nat
  kpages : List (Nat × Nat)

/-- What the kernel does for the heap and for the current process. `create` is
as_create followed by as_activate, as in sys_execv. -/
inductive Act where
  | kalloc (npages : Nat) (u : Uninit)
  | kfree (addr : Nat)
  | switch (p : Nat)
  | create
  | define (vaddr sz : Nat)
  | prepare (n : RegionName) (u : Uninit)
  | fault (ft : FaultType) (addr : Nat) (c : Chance)
  | store (vaddr : Nat) (b : UInt8)
  | sbrk (amount p : Int)
  | destroy

def Machine.setProc (s : Machine) (as : Option AddrSpace) : Machine :=
  { s with procs := fun p => if p = s.cur then as else s.procs p }

def kvaddrToPaddr (va : Nat) : Nat := toU32 ((va : Int) - 0x80000000)

def step (s : Machine) : Act → Option Machine
  | .kalloc npages u =>
    if npages = 0 then none
    else
      let (va,f) := allocKpages npages u s.mmu.frames
      some { s with
        mmu := { s.mmu with frames := f }
        kpages := if va = 0 then s.kpages else s.kpages ++ [(va,npages)] }
  | .kfree addr => some { s with
      mmu := { s.mmu with frames := freeKpages addr s.mmu.frames }
      kpages := s.kpages.filter fun k => k.1 != addr }
  | .switch p => some { s with
      cur := p
      mmu := if (s.procs p).isSome then asActivate s.mmu else s.mmu }
  | .create =>
    match s.procs s.cur with
    | none => some { s.setProc (some asCreate) with mmu := asActivate s.mmu }
    | some _ => none
  | .define vaddr sz => do
    let as ← s.procs s.cur
    match asDefineRegion as vaddr sz with
    | .ok as => some (s.setProc (some as))
    | .error _ => some s
  | .prepare n u => do
    let as ← s.procs s.cur
    let r ← as.get n
    if r.unbacked && n != .heap then
      let (_,r,f) := loadRegion r u s.mmu.frames
      some { s.setProc (some (as.set n r)) with mmu := { s.mmu with frames := f } }
    else none
  | .fault ft addr c => do
    let as ← s.procs s.cur
    if as.loaded then
      match vmFault ft addr (some as) c s.mmu with
      | .ok (_,as,m) => some { s.setProc as with mmu := m }
      | .error _ => none
    else none
  | .store vaddr b => do
    let _ ← s.procs s.cur
    let e ← s.mmu.tlb.find? fun e => e.valid && e.vpage == pageOf vaddr
    some { s with mem := fun a => if a = e.ppage + vaddr % pageSize then b else s.mem a }
  | .sbrk amount p => do
    let as ← s.procs s.cur
    let heap ← as.heap
    let (_,_,heap) := sysSbrk amount p heap s.mmu.frames
    some (s.setProc (some (as.set .heap heap)))
  | .destroy => do
    let as ← s.procs s.cur
    match asDestroy as s.mmu.frames with
    | .ok f => some { s.setProc none with mmu := { s.mmu with frames := f } }
    | .error _ => none

/-- The state vm_bootstrap leaves: no process has an address space yet, and
start.S has made every TLB entry invalid. -/
def boot (f : Frames) (mem : Nat → UInt8) : Machine where
  mmu := asActivate ⟨vmBootstrap f,[],0⟩
  mem := mem
  procs := fun _ => none
  cur := 0
  kpages := []

abbrev smallMachine : Machine := boot smallMemory fun _ => 0

/-- The owners of handed-out runs: an allocation of the kernel heap, or a slot of
a region of some process. -/
inductive Holder where
  | kernel (i : Nat)
  | user (p : Nat) (n : RegionName) (sl : Slot)
  deriving DecidableEq, Repr

def runOf (s : Machine) : Holder → Option (Nat × Nat)
  | .kernel i => s.kpages[i]?.map fun k => (kvaddrToPaddr k.1,k.2)
  | .user p n sl => (s.procs p).bind fun as => (as.get n).bind fun r => r.runAt sl

/-- Live runs are pairwise disjoint and each of their frames is marked. -/
structure Exclusive (s : Machine) : Prop where
  disjoint : ∀ h h' b n b' n', h ≠ h' → runOf s h = some (b,n) → runOf s h' = some (b',n') →
    ∀ j j', j < n → j' < n' → b + j * pageSize ≠ b' + j' * pageSize
  marked : ∀ h b n, runOf s h = some (b,n) → ∀ j, j < n →
    Marked s.mmu.frames (b + j * pageSize)

/-- The condition under which the allocator keeps its books: an allocation finds
its frames in front of a further one, and marks are only wiped when every live
run belongs to what is being released. -/
def Act.Sound (s : Machine) : Act → Prop
  | .kalloc npages _ => Fits s.mmu.frames.coremap npages
  | .kfree addr => ∀ h x, runOf s h = some x → ∃ i n, h = .kernel i ∧ s.kpages[i]? = some (addr,n)
  | .prepare n _ => ∀ as r, s.procs s.cur = some as → as.get n = some r →
      Fits s.mmu.frames.coremap r.numofpages
  | .fault _ addr _ => ∀ as, s.procs s.cur = some as → takesFrame as (pageOf addr) = true →
      Fits s.mmu.frames.coremap 1
  | .destroy => ∀ h x, runOf s h = some x → ∃ n sl, h = .user s.cur n sl
  | _ => True

structure Machine.Inv (s : Machine) : Prop where
  layout : Layout s.mmu.frames
  exclusive : Exclusive s
  wf : ∀ p as, s.procs p = some as → as.Wf
  tlb : ∀ as, s.procs s.cur = some as → ∀ t ∈ s.mmu.tlb, t.valid = true → as.Frame t.ppage

@[simp] theorem setProc_procs_self (s : Machine) (as : Option AddrSpace) :
    (s.setProc as).procs s.cur = as := if_pos rfl

variable {p b n pa addr vaddr : Nat} {s s' : Machine} {f : Frames} {as as' : AddrSpace} {m : Mmu}
  {u : Uninit}

theorem setProc_procs_of_ne (s : Machine) (as : Option AddrSpace) (h : p ≠ s.cur) :
    (s.setProc as).procs p = s.procs p := if_neg h

theorem Exclusive.mono (h : Exclusive s) (hrun : ∀ hd x, runOf s' hd = some x → runOf s hd = some x)
    (hmark : ∀ pa, Marked s.mmu.frames pa → Marked s'.mmu.frames pa) : Exclusive s' where
  disjoint := fun hd hd' b n b' n' hne hb hb' =>
    h.disjoint hd hd' b n b' n' hne (hrun _ _ hb) (hrun _ _ hb')
  marked := fun hd b n hb j hj => hmark _ (h.marked hd b n (hrun _ _ hb) j hj)

theorem Exclusive.grow (h : Exclusive s)
    (hout : HandsOut s.mmu.frames n b s'.mmu.frames) (new : Holder)
    (hrun : ∀ hd x, runOf s' hd = some x → runOf s hd = some x ∨ hd = new ∧ x = (b,n)) :
    Exclusive s' := by
  have hfresh : ∀ hd b' n', runOf s hd = some (b',n') → ∀ j j', j < n → j' < n' →
      b + j * pageSize ≠ b' + j' * pageSize := by
    intro hd b' n' hold j j' hj hj' heq
    exact hout.fresh j hj (heq ▸ h.marked hd b' n' hold j' hj')
  constructor
  · intro hd hd' b₁ n₁ b₂ n₂ hne h₁ h₂ j j' hj hj'
    rcases hrun _ _ h₁ with h₁ | ⟨rfl,h₁⟩ <;> rcases hrun _ _ h₂ with h₂ | ⟨rfl,h₂⟩
    · exact h.disjoint hd hd' b₁ n₁ b₂ n₂ hne h₁ h₂ j j' hj hj'
    · cases h₂
      exact (hfresh hd b₁ n₁ h₁ j' j hj' hj).symm
    · cases h₁
      exact hfresh hd' b₂ n₂ h₂ j j' hj hj'
    · exact absurd rfl hne
  · intro hd b₁ n₁ h₁ j hj
    rw [hout.marked]
    rcases hrun _ _ h₁ with h₁ | ⟨_,h₁⟩
    · exact .inl (h.marked hd b₁ n₁ h₁ j hj)
    · cases h₁
      exact .inr ⟨j,hj,rfl⟩

theorem Exclusive.of_none (h : ∀ hd, runOf s hd = none) : Exclusive s where
  disjoint := by simp [h]
  marked := by simp [h]

theorem boot_inv (hle : f.firstpaddr ≤ f.lastpaddr)
    (hmax : f.lastpaddr ≤ 508 * 2^20) (mem : Nat → UInt8) : (boot f mem).Inv where
  layout := vmBootstrap_layout hle hmax
  exclusive := Exclusive.of_none fun hd => by cases hd <;> rfl
  wf := by simp [boot]
  tlb := by simp [boot]

theorem AddrSpace.Frame.mono (h : ∀ n sl x, ((as.get n).bind fun r => r.runAt sl) = some x →
      ((as'.get n).bind fun r => r.runAt sl) = some x) (hf : as.Frame pa) : as'.Frame pa := by
  obtain ⟨n,r,hr,sl,b,k,j,hrun,hj,rfl⟩ := hf
  have hx := h n sl (b,k) (by rw [hr]; exact hrun)
  obtain ⟨r',hr',hrun'⟩ := bind_eq_some_iff.mp hx
  exact ⟨n,r',hr',sl,b,k,j,hrun',hj,rfl⟩

theorem Machine.Inv.sameRuns (h : s.Inv) (has : s.procs s.cur = some as) (hwf : as'.Wf)
    (hrun : ∀ n sl, ((as'.get n).bind fun r => r.runAt sl) = (as.get n).bind fun r => r.runAt sl)
    (hframes : m.frames = s.mmu.frames) (htlb : ∀ t ∈ m.tlb, t ∈ s.mmu.tlb ∨ as'.Frame t.ppage) :
    Machine.Inv { s.setProc (some as') with mmu := m } where
  layout := hframes ▸ h.layout
  exclusive := by
    refine h.exclusive.mono (fun hd x hx => ?_) (fun _ hm => hframes ▸ hm)
    cases hd with
    | kernel i => exact hx
    | user p n sl =>
      by_cases hp : p = s.cur
      · subst hp
        simpa [runOf,has,hrun] using hx
      · simpa [runOf,setProc_procs_of_ne s (some as') hp] using hx
  wf := by
    intro p a ha
    by_cases hp : p = s.cur
    · subst hp
      simp only [setProc_procs_self,Option.some.injEq] at ha
      exact ha ▸ hwf
    · simp only [setProc_procs_of_ne s _ hp] at ha
      exact h.wf p a ha
  tlb := by
    intro a ha t ht hv
    have ha' : (s.setProc (some as')).procs s.cur = some a := ha
    rw [setProc_procs_self] at ha'
    cases ha'
    rcases htlb t ht with ht | hf
    · exact (h.tlb as has t ht hv).mono fun n sl x hx => by rw [hrun]; exact hx
    · exact hf

theorem Machine.Inv.gains (h : s.Inv) {n : RegionName}
    {r r' : Region} {sl : Slot} {k : Nat} (has : s.procs s.cur = some as)
    (hr : as.get n = some r) (hg : Gains r sl b k r') (hout : HandsOut s.mmu.frames k b m.frames)
    (htlb : ∀ t ∈ m.tlb, t ∈ s.mmu.tlb ∨ (as.set n r').Frame t.ppage) :
    Machine.Inv { s.setProc (some (as.set n r')) with mmu := m } where
  layout := hout.layout
  exclusive := by
    refine h.exclusive.grow hout (.user s.cur n sl) (fun hd x hx => ?_)
    cases hd with
    | kernel i => exact .inl hx
    | user p n' sl' =>
      by_cases hp : p = s.cur
      · subst hp
        by_cases hn : n' = n
        · subst hn
          simp only [runOf,setProc_procs_self,Option.bind_some,AddrSpace.get_set_self,has,hr]
            at hx ⊢
          exact (hg.back sl' x hx).imp_right fun ⟨hsl,hxb⟩ => ⟨by rw [hsl],hxb⟩
        · left
          simpa [runOf,has,AddrSpace.get_set_of_ne as r' hn] using hx
      · left
        simpa [runOf,setProc_procs_of_ne s _ hp] using hx
  wf := by
    intro p a ha
    by_cases hp : p = s.cur
    · subst hp
      simp only [setProc_procs_self,Option.some.injEq] at ha
      subst ha
      exact (h.wf s.cur as has).replace hr hg.wf hg.pages
    · simp only [setProc_procs_of_ne s _ hp] at ha
      exact h.wf p a ha
  tlb := by
    intro a ha t ht hv
    have ha' : (s.setProc (some (as.set n r'))).procs s.cur = some a := ha
    rw [setProc_procs_self] at ha'
    cases ha'
    rcases htlb t ht with ht | hf
    · refine (h.tlb as has t ht hv).mono fun n' sl' x hx => ?_
      by_cases hn : n' = n
      · subst hn
        simp only [hr,Option.bind_some,AddrSpace.get_set_self] at hx ⊢
        exact hg.keep sl' x hx
      · rw [AddrSpace.get_set_of_ne as r' hn]
        exact hx
    · exact hf

theorem kvaddrToPaddr_paddrToKvaddr (h : pa < 2^32) : kvaddrToPaddr (paddrToKvaddr pa) = pa := by
  unfold kvaddrToPaddr paddrToKvaddr toU32
  omega

theorem allocKpages_fits (h : Layout f) (hfit : Fits f.coremap n)
    (u : Uninit) : ∃ pa f', allocKpages n u f = (paddrToKvaddr pa,f') ∧ HandsOut f n pa f' := by
  have hn := h.fits_lt hfit
  have hu : toU32 (n : Int) = n := by
    rw [toU32_of_nonneg (by omega) (by omega)]
    omega
  have hout := getppages_fits h hfit u
  refine ⟨_,_,?_,hout⟩
  simp [allocKpages,hu,hout.nonzero]

section

variable (h : s.Inv)

include h

theorem Machine.Inv.kalloc {npages : Nat} (hfit : Fits s.mmu.frames.coremap npages)
    (hs : step s (.kalloc npages u) = some s') :
    s'.Inv := by
  obtain ⟨pa,f',heq,hout⟩ := allocKpages_fits h.layout hfit u
  simp only [step,heq] at hs
  split at hs
  · cases hs
  cases hs
  refine ⟨hout.layout,?_,h.wf,h.tlb⟩
  have hpa : pa < 2^32 := Nat.lt_of_le_of_lt (Nat.le_add_right _ _) hout.below
  refine h.exclusive.grow hout (.kernel s.kpages.length) (fun hd x hx => ?_)
  cases hd with
  | user p n sl => exact .inl hx
  | kernel i =>
    simp only [runOf] at hx ⊢
    split at hx
    · exact .inl hx
    · rw [List.getElem?_append] at hx
      split at hx
      · exact .inl hx
      · right
        obtain ⟨k,hk,rfl⟩ := Option.map_eq_some_iff.mp hx
        rw [List.getElem?_singleton] at hk
        split at hk
        · obtain rfl := Option.some.inj hk
          refine ⟨by congr 1; omega,?_⟩
          simp [kvaddrToPaddr_paddrToKvaddr hpa]
        · cases hk

theorem Machine.Inv.kfree (hall : ∀ hd x, runOf s hd = some x → ∃ i n, hd = .kernel i ∧ s.kpages[i]?
    = some (addr,n)) (hs : step s (.kfree addr) = some s') : s'.Inv := by
  cases hs
  refine ⟨h.layout.clearCoremap,Exclusive.of_none fun hd => ?_,h.wf,h.tlb⟩
  cases hd with
  | user p n sl =>
    cases hx : runOf s (.user p n sl) with
    | none => exact hx
    | some x =>
      obtain ⟨i,k,hk,_⟩ := hall _ x hx
      cases hk
  | kernel i =>
    have hempty : s.kpages.filter (fun k => k.1 != addr) = [] := by
      rw [List.filter_eq_nil_iff]
      intro k hk
      obtain ⟨j,hj⟩ := List.mem_iff_getElem?.mp hk
      obtain ⟨j',n,hjj,hkn⟩ := hall (.kernel j) (kvaddrToPaddr k.1,k.2) (by simp [runOf,hj])
      cases hjj
      rw [hj] at hkn
      cases hkn
      simp
    simp [runOf,hempty]

theorem Machine.Inv.activate (p : Nat) :
    Machine.Inv { s with cur := p, mmu := asActivate s.mmu } where
  layout := h.layout
  exclusive := h.exclusive.mono (fun _ _ hx => hx) (fun _ hm => hm)
  wf := h.wf
  tlb := by
    intro as _ t ht hv
    obtain ⟨i,_,rfl⟩ := List.mem_map.mp ht
    cases hv

theorem Machine.Inv.switch (hs : step s (.switch p) = some s') : s'.Inv := by
  cases hs
  split
  · exact h.activate p
  · rename_i hp
    refine ⟨h.layout,h.exclusive.mono (fun _ _ hx => hx) (fun _ hm => hm),h.wf,?_⟩
    intro as has
    exact absurd (by rw [has]; rfl) hp

theorem Machine.Inv.create (hs : step s .create = some s') : s'.Inv := by
  simp only [step] at hs
  split at hs
  · rename_i hnone
    cases hs
    refine ⟨h.layout,?_,?_,?_⟩
    · refine h.exclusive.mono (fun hd x hx => ?_) (fun _ hm => hm)
      cases hd with
      | kernel i => exact hx
      | user p n sl =>
        by_cases hp : p = s.cur
        · subst hp
          cases n <;> simp [runOf,AddrSpace.get,asCreate] at hx
        · simpa [runOf,setProc_procs_of_ne s _ hp] using hx
    · intro p a ha
      by_cases hp : p = s.cur
      · subst hp
        simp only [setProc_procs_self,Option.some.injEq] at ha
        exact ha ▸ asCreate_wf
      · simp only [setProc_procs_of_ne s _ hp] at ha
        exact h.wf p a ha
    · intro as _ t ht hv
      obtain ⟨i,_,rfl⟩ := List.mem_map.mp ht
      cases hv
  · cases hs

theorem Machine.Inv.define {sz : Nat} (hs : step s (.define vaddr sz) = some s') : s'.Inv := by
  simp only [step,Option.bind_eq_bind] at hs
  obtain ⟨as,has,hs⟩ := bind_eq_some_iff.mp hs
  cases hd : asDefineRegion as vaddr sz with
  | error e =>
    rw [hd] at hs
    cases hs
    exact h
  | ok as' =>
    rw [hd] at hs
    cases hs
    obtain ⟨hwf,hrun⟩ := asDefineRegion_spec (h.wf s.cur as has) hd
    exact h.sameRuns has hwf hrun rfl fun t ht => .inl ht

theorem Machine.Inv.prepare {n : RegionName}
    (hfit : ∀ as r, s.procs s.cur = some as → as.get n = some r → Fits s.mmu.frames.coremap
    r.numofpages) (hs : step s (.prepare n u) = some s') : s'.Inv := by
  simp only [step,Option.bind_eq_bind] at hs
  obtain ⟨as,has,hs⟩ := bind_eq_some_iff.mp hs
  obtain ⟨r,hr,hs⟩ := bind_eq_some_iff.mp hs
  split at hs
  · rename_i hcond
    obtain ⟨pa,f',heq,hout,hwf⟩ := loadRegion_fits ((h.wf s.cur as has).regions n r hr) h.layout
      (hfit as r has hr) u
    rw [heq] at hs
    cases hs
    simp only [Bool.and_eq_true] at hcond
    exact h.gains (m := { s.mmu with frames := f' }) has hr (Gains.loaded hcond.1 hwf) hout
      fun t ht => .inl ht
  · cases hs

theorem Machine.Inv.fault {ft : FaultType} {c : Chance}
    (hfit : ∀ as, s.procs s.cur = some as → takesFrame as (pageOf addr) = true
    → Fits s.mmu.frames.coremap 1) (hs : step s (.fault ft addr c) = some s') : s'.Inv := by
  simp only [step,Option.bind_eq_bind] at hs
  obtain ⟨as,has,hs⟩ := bind_eq_some_iff.mp hs
  split at hs
  · rename_i hl
    split at hs
    · rename_i e as' m hf
      cases hs
      have hwf := h.wf s.cur as has
      obtain ⟨a,rfl,hstep⟩ := vmFault_spec hwf hl h.layout (hfit as has) hf
      rcases hstep.space with ⟨rfl,hframes⟩ | ⟨n,r,r',sl,b,hr,rfl,hg,hout⟩
      · exact h.sameRuns has hwf (fun _ _ => rfl) hframes hstep.tlb
      · exact h.gains has hr hg hout hstep.tlb
    · cases hs
  · cases hs

theorem Machine.Inv.store {b : UInt8} (hs : step s (.store vaddr b) = some s') : s'.Inv := by
  simp only [step,Option.bind_eq_bind] at hs
  obtain ⟨as,_,hs⟩ := bind_eq_some_iff.mp hs
  obtain ⟨e,_,hs⟩ := bind_eq_some_iff.mp hs
  cases hs
  exact ⟨h.layout,h.exclusive.mono (fun _ _ hx => hx) (fun _ hm => hm),h.wf,h.tlb⟩

theorem Machine.Inv.sbrk {amount p : Int} (hs : step s (.sbrk amount p) = some s') : s'.Inv := by
  simp only [step,Option.bind_eq_bind] at hs
  obtain ⟨as,has,hs⟩ := bind_eq_some_iff.mp hs
  obtain ⟨heap,hh,hs⟩ := bind_eq_some_iff.mp hs
  obtain ⟨brk,hbrk,-⟩ := sysSbrk_brk amount p heap s.mmu.frames
  rw [hbrk] at hs
  cases hs
  have hwf := h.wf s.cur as has
  have hr := hwf.regions .heap heap hh
  refine h.sameRuns has (hwf.replace (n := .heap) hh ?_ rfl) (fun n sl => ?_) rfl
    fun t ht => .inl ht
  · exact ⟨hr.valigned,hr.covered,hr.paligned,hr.below,hr.ptes⟩
  · by_cases hn : n = .heap
    · subst hn
      have hget : as.get .heap = some heap := hh
      rw [AddrSpace.get_set_self,hget]
      cases sl <;> rfl
    · rw [AddrSpace.get_set_of_ne as _ hn]

theorem Machine.Inv.destroy (hall : ∀ hd x, runOf s hd = some x → ∃ n sl, hd = .user s.cur n sl)
    (hs : step s .destroy = some s') : s'.Inv := by
  simp only [step,Option.bind_eq_bind] at hs
  obtain ⟨as,has,hs⟩ := bind_eq_some_iff.mp hs
  split at hs
  · rename_i f hd
    cases hs
    have hf : f = clearCoremap s.mmu.frames := by
      unfold asDestroy at hd
      split at hd
      · cases hd
        rfl
      · cases hd
    subst hf
    refine ⟨h.layout.clearCoremap,Exclusive.of_none fun hd => ?_,?_,?_⟩
    · cases hx : runOf s hd with
      | none =>
        cases hd with
        | kernel i => exact hx
        | user p n sl =>
          by_cases hp : p = s.cur
          · subst hp
            simp [runOf]
          · simpa [runOf,setProc_procs_of_ne s _ hp] using hx
      | some x =>
        obtain ⟨n,sl,rfl⟩ := hall hd x hx
        simp [runOf]
    · intro p a ha
      by_cases hp : p = s.cur
      · subst hp
        simp at ha
      · simp only [setProc_procs_of_ne s _ hp] at ha
        exact h.wf p a ha
    · intro a ha
      have ha' : (s.setProc none).procs s.cur = some a := ha
      simp at ha'
  · cases hs

end

theorem step_inv (s : Machine) (a : Act) (s' : Machine) (h : s.Inv) (hc : a.Sound s)
    (hs : step s a = some s') : s'.Inv := by
  cases a with
  | kalloc npages u => exact h.kalloc hc hs
  | kfree addr => exact h.kfree hc hs
  | switch p => exact h.switch hs
  | create => exact h.create hs
  | define vaddr sz => exact h.define hs
  | prepare n u => exact h.prepare hc hs
  | fault ft addr c => exact h.fault hc hs
  | store vaddr b => exact h.store hs
  | sbrk amount p => exact h.sbrk hs
  | destroy => exact h.destroy hc hs

theorem run_inv (hle : f.firstpaddr ≤ f.lastpaddr) (hmax : f.lastpaddr ≤ 508 * 2^20)
    {mem : Nat → UInt8} {acts : List Act}
    (hc : Along step (fun s a => a.Sound s) (boot f mem) acts)
    (hr : run step (boot f mem) acts = some s) : s.Inv :=
  run_keeps step_inv (boot_inv hle hmax mem) hc hr

/-- Frames are owned exclusively in every run whose allocations find room and
whose releases happen while nothing else is live. -/
theorem frames_exclusive {f : Frames} (hle : f.firstpaddr ≤ f.lastpaddr)
    (hmax : f.lastpaddr ≤ 508 * 2^20) (mem : Nat → UInt8) (acts : List Act) (s : Machine)
    (hc : Along step (fun s a => a.Sound s) (boot f mem) acts)
    (hr : run step (boot f mem) acts = some s) : Exclusive s :=
  (run_inv hle hmax hc hr).exclusive

theorem frames_exclusive_after_free : ∃ s,
    run step smallMachine
      [.kalloc 2 zeroed,.kfree 0x80011000,.kalloc 1 zeroed,.kalloc 1 zeroed,.create] = some s ∧
      Exclusive s := by
  have hsome : (run step smallMachine
      [.kalloc 2 zeroed,.kfree 0x80011000,.kalloc 1 zeroed,.kalloc 1 zeroed,.create]).isSome =
        true := rfl
  obtain ⟨s,hs⟩ := Option.isSome_iff_exists.mp hsome
  refine ⟨s,hs,frames_exclusive (f := smallMemory) (by decide) (by decide) _ _ _ ?_ hs⟩
  refine .cons ⟨0,by decide,by decide⟩ rfl (.cons ?_ rfl (.cons ⟨0,by decide,by decide⟩ rfl
    (.cons ⟨1,by decide,by decide⟩ rfl (.cons trivial rfl trivial))))
  rintro (i | ⟨p,n,sl⟩) x hx
  · cases i with
    | zero => exact ⟨0,2,rfl,rfl⟩
    | succ i => cases hx
  · cases hx

/-- free_kpages of one allocation unmarks another, whose frame is then handed out
a second time. -/
theorem frames_not_exclusive_after_free : ∃ s,
    run step smallMachine
      [.kalloc 1 zeroed,.kalloc 1 zeroed,.kfree 0x80011000,.kalloc 1 zeroed,.kalloc 1 zeroed] =
        some s ∧ ¬ Exclusive s := by
  refine ⟨_,rfl,fun h => ?_⟩
  exact h.disjoint (.kernel 0) (.kernel 2) 0x12000 1 0x12000 1 (by decide) rfl rfl 0 0
    (by decide) (by decide) rfl

def readByte (s : Machine) (q vaddr : Nat) : Option UInt8 := do
  let as ← s.procs q
  let pa ← translatePage as (pageOf vaddr)
  some (s.mem (pa + vaddr % pageSize))

def Act.alone : Act → Bool
  | .switch _ => false
  | _ => true

variable {pa q : Nat} {s u : Machine} {b : AddrSpace} {a : Act}

theorem AddrSpace.Wf.frame_aligned {as : AddrSpace} (h : as.Wf) (hf : as.Frame pa) :
    pa % pageSize = 0 := by
  obtain ⟨n,r,hr,sl,b,k,j,hrun,_,rfl⟩ := hf
  have hb : b % pageSize = 0 := by
    have hwf := h.regions n r hr
    cases sl with
    | whole =>
      simp only [Region.runAt] at hrun
      split at hrun
      · cases hrun
      · cases hrun
        exact hwf.paligned
    | page i =>
      obtain ⟨e,he,hx⟩ := bind_eq_some_iff.mp hrun
      split at hx
      · rename_i ha
        cases hx
        exact (hwf.ptes e (List.mem_of_getElem? he) ha).paligned
      · cases hx
  simp only [pageSize] at hb ⊢
  omega

theorem Machine.Inv.frame_disjoint (h : s.Inv) {p : Nat} (hpq : p ≠ q)
    {a : AddrSpace} (ha : s.procs p = some a) (hb : s.procs q = some b)
    (hfa : a.Frame pa) : ¬ b.Frame pa := by
  rintro ⟨n,r,hr,sl,c,k,j,hrun,hj,heq⟩
  obtain ⟨n',r',hr',sl',c',k',j',hrun',hj',rfl⟩ := hfa
  refine h.exclusive.disjoint (.user p n' sl') (.user q n sl) c' k' c k ?_ ?_ ?_ j' j hj' hj heq
  · intro hh
    cases hh
    exact hpq rfl
  · simpa [runOf,ha,hr'] using hrun'
  · simpa [runOf,hb,hr] using hrun

theorem pageOf_add_offset (h : pa % pageSize = 0) (vaddr : Nat) :
    pageOf (pa + vaddr % pageSize) = pa := by
  simp only [pageOf,pageSize] at h ⊢
  omega

def target (s : Machine) (vaddr : Nat) : Option Nat := do
  let _ ← s.procs s.cur
  let e ← s.mmu.tlb.find? fun e => e.valid && e.vpage == pageOf vaddr
  some (e.ppage + vaddr % pageSize)

def written (s : Machine) (mem : Nat → UInt8) : Act → Nat → UInt8
  | .store vaddr b => fun x => if target s vaddr = some x then b else mem x
  | _ => mem

theorem step_withMem (s : Machine) (mem : Nat → UInt8) (a : Act) :
    step { s with mem := mem } a = (step s a).map fun u => { u with mem := written s mem a } := by
  cases a with
  | kalloc | create =>
    simp only [step]
    split <;> rfl
  | kfree | switch => rfl
  | define | destroy =>
    simp only [step]
    cases s.procs s.cur with
    | none => rfl
    | some as =>
      simp only [Option.bind_eq_bind,Option.bind_some]
      split <;> rfl
  | prepare n u =>
    simp only [step]
    cases s.procs s.cur with
    | none => rfl
    | some as =>
      simp only [Option.bind_eq_bind,Option.bind_some]
      cases as.get n with
      | none => rfl
      | some r =>
        simp only [Option.bind_some]
        split <;> rfl
  | fault ft addr c =>
    simp only [step]
    cases s.procs s.cur with
    | none => rfl
    | some as =>
      simp only [Option.bind_eq_bind,Option.bind_some]
      split
      · split <;> rfl
      · rfl
  | store vaddr b =>
    simp only [step]
    cases has : s.procs s.cur with
    | none => rfl
    | some as =>
      simp only [Option.bind_eq_bind,Option.bind_some]
      cases he : s.mmu.tlb.find? fun e => e.valid && e.vpage == pageOf vaddr with
      | none => rfl
      | some e =>
        simp only [written,target,has,he,Option.bind_eq_bind,Option.bind_some,Option.map_some,
          Option.some.injEq,Machine.mk.injEq,true_and,and_true]
        funext x
        simp only [eq_comm]
  | sbrk amount p =>
    simp only [step]
    cases s.procs s.cur with
    | none => rfl
    | some as =>
      simp only [Option.bind_eq_bind,Option.bind_some]
      cases as.heap <;> rfl

theorem step_mem (h : step s a = some u) : u.mem = written s s.mem a := by
  have hself := step_withMem s s.mem a
  rw [h] at hself
  exact congrArg Machine.mem (Option.some.inj hself)

theorem step_alone {s' : Machine} (ha : a.alone = true) (hs : step s a = some s') :
    s'.cur = s.cur ∧ (∀ q, q ≠ s.cur → s'.procs q = s.procs q) ∧
    (s'.mem = s.mem ∨ ∃ as e vaddr, s.procs s.cur = some as ∧ e ∈ s.mmu.tlb ∧ e.valid = true ∧
      ∀ x, x ≠ e.ppage + vaddr % pageSize → s'.mem x = s.mem x) := by
  have hset : ∀ as q, q ≠ s.cur → (s.setProc as).procs q = s.procs q :=
    fun as q hq => setProc_procs_of_ne s as hq
  cases a with
  | switch p => cases ha
  | kalloc npages u =>
    simp only [step] at hs
    split at hs
    · cases hs
    · cases hs
      exact ⟨rfl,fun _ _ => rfl,.inl rfl⟩
  | kfree addr =>
    cases hs
    exact ⟨rfl,fun _ _ => rfl,.inl rfl⟩
  | create =>
    simp only [step] at hs
    split at hs
    · cases hs
      exact ⟨rfl,hset _,.inl rfl⟩
    · cases hs
  | define vaddr sz =>
    simp only [step,Option.bind_eq_bind] at hs
    obtain ⟨as,_,hs⟩ := bind_eq_some_iff.mp hs
    split at hs
    · cases hs
      exact ⟨rfl,hset _,.inl rfl⟩
    · cases hs
      exact ⟨rfl,fun _ _ => rfl,.inl rfl⟩
  | prepare n u =>
    simp only [step,Option.bind_eq_bind] at hs
    obtain ⟨as,_,hs⟩ := bind_eq_some_iff.mp hs
    obtain ⟨r,_,hs⟩ := bind_eq_some_iff.mp hs
    split at hs
    · cases hs
      exact ⟨rfl,hset _,.inl rfl⟩
    · cases hs
  | fault ft addr c =>
    simp only [step,Option.bind_eq_bind] at hs
    obtain ⟨as,_,hs⟩ := bind_eq_some_iff.mp hs
    split at hs
    · split at hs
      · cases hs
        exact ⟨rfl,hset _,.inl rfl⟩
      · cases hs
    · cases hs
  | store vaddr b =>
    simp only [step,Option.bind_eq_bind] at hs
    obtain ⟨as,has,hs⟩ := bind_eq_some_iff.mp hs
    obtain ⟨e,he,hs⟩ := bind_eq_some_iff.mp hs
    cases hs
    have hv := List.find?_some he
    simp only [Bool.and_eq_true] at hv
    exact ⟨rfl,fun _ _ => rfl,.inr ⟨as,e,vaddr,has,List.mem_of_find?_eq_some he,hv.1,
      fun x hx => if_neg hx⟩⟩
  | sbrk amount p =>
    simp only [step,Option.bind_eq_bind] at hs
    obtain ⟨as,_,hs⟩ := bind_eq_some_iff.mp hs
    obtain ⟨heap,_,hs⟩ := bind_eq_some_iff.mp hs
    cases hs
    exact ⟨rfl,hset _,.inl rfl⟩
  | destroy =>
    simp only [step,Option.bind_eq_bind] at hs
    obtain ⟨as,_,hs⟩ := bind_eq_some_iff.mp hs
    split at hs
    · cases hs
      exact ⟨rfl,hset _,.inl rfl⟩
    · cases hs

/-- Between `s` and `u` the same process was current and the frames of the
address space `b` of process `q` kept their bytes. -/
structure Untouched (q : Nat) (b : AddrSpace) (s u : Machine) : Prop where
  inv : u.Inv
  cur : u.cur = s.cur
  space : u.procs q = some b
  bytes : ∀ x, b.Frame (pageOf x) → u.mem x = s.mem x

theorem Untouched.step {v : Machine} (hq : q ≠ s.cur)
    (h : Untouched q b s u) (hc : a.Sound u) (ha : a.alone = true)
    (hs : Vm.step u a = some v) : Untouched q b s v := by
  obtain ⟨hcur,hprocs,hmem⟩ := step_alone ha hs
  have hne : q ≠ u.cur := h.cur ▸ hq
  refine ⟨step_inv u a v h.inv hc hs,hcur.trans h.cur,(hprocs q hne).trans h.space,fun x hx => ?_⟩
  rw [← h.bytes x hx]
  rcases hmem with hmem | ⟨as,e,vaddr,has,he,hv,hother⟩
  · rw [hmem]
  · have hframe := h.inv.tlb as has e he hv
    refine hother x fun hxe => ?_
    rw [hxe,pageOf_add_offset ((h.inv.wf u.cur as has).frame_aligned hframe)] at hx
    exact h.inv.frame_disjoint (Ne.symm hne) has h.space hframe hx

theorem readByte_kept (hb : s.procs q = some b)
    (hwf : b.Wf) (hl : b.loaded = true) (hspace : u.procs q = some b)
    (hbytes : ∀ x, b.Frame (pageOf x) → u.mem x = s.mem x) (vaddr : Nat) :
    readByte u q vaddr = readByte s q vaddr := by
  simp only [readByte,hb,hspace,Option.bind_eq_bind,Option.bind_some]
  cases ht : translatePage b (pageOf vaddr) with
  | none => rfl
  | some pa =>
    obtain ⟨hf,ha⟩ := translatePage_frame hwf hl (pageOf_aligned vaddr) ht
    simp only [Option.bind_some]
    rw [hbytes _ (by rw [pageOf_add_offset ha]; exact hf)]

/-- Sound steps of one process, and its as_destroy as the last of them, leave
every byte alone that another loaded process reads. -/
theorem other_process_bytes_kept {f : Frames} (hle : f.firstpaddr ≤ f.lastpaddr)
    (hmax : f.lastpaddr ≤ 508 * 2^20) (mem : Nat → UInt8) (history acts : List Act)
    (s t : Machine) (q : Nat) (b : AddrSpace)
    (hs : run step (boot f mem) history = some s) (ht : run step s acts = some t)
    (hc : Along step (fun s a => a.Sound s) (boot f mem) (history ++ acts))
    (halone : ∀ a ∈ acts, a.alone = true) (hq : q ≠ s.cur) (hb : s.procs q = some b)
    (hl : b.loaded = true) :
    (∀ vaddr, readByte t q vaddr = readByte s q vaddr) ∧
    ∀ t', step t .destroy = some t' → ∀ vaddr, readByte t' q vaddr = readByte s q vaddr := by
  obtain ⟨hhist,hacts⟩ := hc.append
  have hinv := run_inv hle hmax hhist hs
  have hkept : Untouched q b s t := run_keeps (I := Untouched q b s)
    (fun u a v hu hca hstep => hu.step hq hca.1 hca.2 hstep) ⟨hinv,rfl,hb,fun _ _ => rfl⟩
    ((hacts s hs).and halone) ht
  have hwf := hinv.wf q b hb
  refine ⟨readByte_kept hb hwf hl hkept.space hkept.bytes,fun t' ht' => ?_⟩
  obtain ⟨_,hprocs,_⟩ := step_alone rfl ht'
  have hmem' : t'.mem = t.mem := step_mem ht'
  refine readByte_kept hb hwf hl ((hprocs q (hkept.cur ▸ hq)).trans hkept.space) fun x hx => ?_
  rw [hmem']
  exact hkept.bytes x hx

def loadSmall : List Act :=
  [.create,.define 0x400000 4096,.define 0x10000000 4096,.prepare .text zeroed,
    .prepare .data zeroed,.prepare .stack zeroed]

def twoLoaded : List Act := [.switch 1] ++ loadSmall ++ [.switch 0] ++ loadSmall

def storeOnStack : List Act := [.fault .write 0x7ffff000 ⟨zeroed,0,0⟩,.store 0x7ffff004 7]

/-- An executable condition that implies soundness of allocations. -/
def Act.hasRoom (s : Machine) : Act → Bool
  | .kalloc npages _ => room npages
  | .prepare n _ => ((s.procs s.cur).bind (·.get n)).all fun r => room r.numofpages
  | .fault .. => room 1
  | .kfree _ | .destroy => false
  | _ => true
where
  room (n : Nat) : Bool := (List.range s.mmu.frames.coremap.length).any fun k =>
    decide (FreeRun s.mmu.frames.coremap n k ∧ k + n < s.mmu.frames.coremap.length)

theorem Act.hasRoom.fits {n : Nat} (h : Act.hasRoom.room s n = true) :
    Fits s.mmu.frames.coremap n := by
  obtain ⟨k,_,hk⟩ := List.any_eq_true.mp h
  exact ⟨k,of_decide_eq_true hk⟩

theorem Act.Sound.of_hasRoom (s : Machine) (a : Act) (h : a.hasRoom s = true) : a.Sound s := by
  cases a with
  | kalloc npages u => exact Act.hasRoom.fits h
  | prepare n u =>
    intro as r has hr
    simp only [Act.hasRoom,has,Option.bind_some,hr,Option.all_some] at h
    exact Act.hasRoom.fits h
  | fault ft addr c => exact fun _ _ _ => Act.hasRoom.fits h
  | kfree | destroy => cases h
  | switch | create | define | store | sbrk => exact trivial

theorem stack_store_keeps_other : ∃ s t,
    run step smallMachine twoLoaded = some s ∧
    run step s storeOnStack = some t ∧
    readByte t 1 0x7ffff004 = readByte s 1 0x7ffff004 := by
  have hsome : (run step smallMachine
      (twoLoaded ++ storeOnStack)).isSome = true := by
    decide +kernel
  obtain ⟨t,hst⟩ := Option.isSome_iff_exists.mp hsome
  obtain ⟨s,hs,ht⟩ := run_append.mp hst
  have hstate : ((run step smallMachine twoLoaded).all fun s =>
      s.cur == 0 && (s.procs 1).any (·.loaded)) = true := by
    decide +kernel
  rw [hs] at hstate
  simp only [Option.all_some,Bool.and_eq_true,beq_iff_eq] at hstate
  obtain ⟨hcur,hone⟩ := hstate
  obtain ⟨b,hb⟩ : ∃ b, s.procs 1 = some b := by
    cases hb : s.procs 1 with
    | none => simp [hb] at hone
    | some b => exact ⟨b,rfl⟩
  have hl : b.loaded = true := by simpa [hb] using hone
  have hroom : checkAlong step (fun s a => a.hasRoom s) smallMachine
      (twoLoaded ++ storeOnStack) = true := by
    decide +kernel
  exact ⟨s,t,hs,ht,(other_process_bytes_kept (by decide) (by decide) _ twoLoaded storeOnStack s t 1 b
    hs ht (Along.of_check Act.Sound.of_hasRoom hroom) (by decide) (by omega) hb hl).1 _⟩

/-- sys_execv of one process destroys its address space, which frees the other
process's frames; the new image gets them and a store to its stack lands there. -/
theorem execv_overwrites_other : ∃ s t,
    run step smallMachine twoLoaded = some s ∧
    run step s (.destroy :: loadSmall ++ storeOnStack) = some t ∧
    readByte s 1 0x7ffff004 = some 0 ∧ readByte t 1 0x7ffff004 = some 7 := by
  have hread : ((run step smallMachine twoLoaded).bind fun s =>
      (run step s (.destroy :: loadSmall ++ storeOnStack)).bind fun t =>
        some (readByte s 1 0x7ffff004,readByte t 1 0x7ffff004)) = some (some 0,some 7) := by
    decide +kernel
  obtain ⟨s,hs,h⟩ := bind_eq_some_iff.mp hread
  obtain ⟨t,ht,h⟩ := bind_eq_some_iff.mp h
  simp only [Option.some.injEq,Prod.mk.injEq] at h
  exact ⟨s,t,hs,ht,h⟩

variable {x : Nat}

theorem step_store {vaddr : Nat} {b : UInt8} (h : step s (.store vaddr b) = some u)
    (c : UInt8) : step s (.store vaddr c) =
      some { u with mem := written s s.mem (.store vaddr c) } := by
  simp only [step,Option.bind_eq_bind] at h
  obtain ⟨as,has,h⟩ := bind_eq_some_iff.mp h
  obtain ⟨e,he,h⟩ := bind_eq_some_iff.mp h
  cases h
  simp only [step,written,target,has,he,Option.bind_eq_bind,Option.bind_some,Option.some.injEq,
    Machine.mk.injEq,true_and,and_true]
  funext x
  simp only [eq_comm]

/-- The actions of two runs differ at most in a byte that another process than `q` stores. -/
def DataOnly (q : Nat) (s : Machine) (a a' : Act) : Prop :=
  a = a' ∨ s.cur ≠ q ∧ ∃ vaddr b b', a = .store vaddr b ∧ a' = .store vaddr b'

def Spares (q x : Nat) (s : Machine) : Act → Prop
  | .store vaddr _ => s.cur ≠ q → target s vaddr ≠ some x
  | _ => True

/-- Two machines that differ in memory only, and not at `x`. -/
def AgreeAt (x : Nat) (s t : Machine) : Prop := t = { s with mem := t.mem } ∧ t.mem x = s.mem x

theorem written_agree {mem mem' : Nat → UInt8} (h : mem' x = mem x)
    (a : Act) : written s mem' a x = written s mem a x := by
  cases a with
  | store vaddr b => simp only [written,h]
  | _ => exact h

theorem AgreeAt.step {q : Nat} {t : Machine} {a' : Act} (h : AgreeAt x s t)
    (hd : DataOnly q s a a') (hx : Spares q x s a) (hs : Vm.step s a = some u) :
    ∃ v, Vm.step t a' = some v ∧ AgreeAt x u v := by
  obtain ⟨ht,hmem⟩ := h
  rcases hd with rfl | ⟨hq,vaddr,b,b',rfl,rfl⟩
  · refine ⟨{ u with mem := written s t.mem a },?_,rfl,?_⟩
    · rw [ht,step_withMem,hs]
      rfl
    · rw [step_mem hs]
      exact written_agree hmem a
  · have hne : target s vaddr ≠ some x := hx hq
    refine ⟨{ u with mem := written s t.mem (.store vaddr b') },?_,rfl,?_⟩
    · rw [ht,step_withMem,step_store hs b']
      rfl
    · rw [step_mem hs]
      simp only [written,if_neg hne]
      exact hmem

/-- Two runs that differ only in what other processes have stored give a process the same byte, if
no other process has stored to the place where it has that byte. -/
theorem fresh_page_same_bytes {f : Frames} {mem : Nat → UInt8} {acts acts' : List Act}
    {s : Machine} {q vaddr pa : Nat} {as : AddrSpace}
    (hdata : Paired step (DataOnly q) (boot f mem) acts acts')
    (hs : run step (boot f mem) acts = some s) (has : s.procs q = some as)
    (hpa : translatePage as (pageOf vaddr) = some pa)
    (hclean : Along step (Spares q (pa + vaddr % pageSize)) (boot f mem) acts) :
    ∃ s', run step (boot f mem) acts' = some s' ∧
      readByte s' q vaddr = readByte s q vaddr := by
  obtain ⟨s',hs',heq,hbyte⟩ := run_paired (R := AgreeAt (pa + vaddr % pageSize))
    (fun _ _ _ _ _ hr he hu => hr.step he.1 he.2 hu) ⟨rfl,rfl⟩ (hdata.along hclean) hs
  refine ⟨s',hs',?_⟩
  have has' : s'.procs q = some as := by
    rw [heq]
    exact has
  simp only [readByte,has,has',Option.bind_eq_bind,Option.bind_some,hpa]
  rw [hbyte]

/-- Process 1 runs and stores the byte `b` at `vaddr` before it exits; process 0 then faults a page
of its on-demand stack in. -/
def before (vaddr : Nat) : List Act :=
  [.switch 1] ++ loadSmall ++ [.fault .write vaddr ⟨zeroed,0,0⟩]

def after : List Act :=
  [.destroy,.switch 0] ++ loadSmall ++ [.fault .read 0x7ffe7000 ⟨zeroed,0,0⟩]

def passOn (vaddr : Nat) (b : UInt8) : List Act := before vaddr ++ .store vaddr b :: after

theorem passOn_dataOnly (vaddr : Nat) (mem : Nat → UInt8)
    (hcur : ((run step (boot smallMemory mem) (before vaddr)).all (·.cur == 1)) = true)
    (b b' : UInt8) : Paired step (DataOnly 0) (boot smallMemory mem) (passOn vaddr b)
      (passOn vaddr b') := by
  refine Paired.append (.refl (fun _ _ => .inl rfl) _ _) fun u hu => ?_
  rw [hu] at hcur
  have hone : u.cur = 1 := by simpa using hcur
  exact ⟨.inr ⟨by omega,vaddr,b,b',rfl,rfl⟩,fun w _ => .refl (fun _ _ => .inl rfl) _ _⟩

/-- The byte goes to the stack run, which is not where process 0 gets its page. -/
theorem fresh_page_same_bytes_stackRun : ∃ s s',
    run step smallMachine (passOn 0x7ffff004 7) = some s ∧
    run step smallMachine (passOn 0x7ffff004 9) = some s' ∧
    readByte s 0 0x7ffe7004 ≠ none ∧ readByte s' 0 0x7ffe7004 = readByte s 0 0x7ffe7004 := by
  have hstate : ((run step smallMachine (passOn 0x7ffff004 7)).any fun s =>
      (readByte s 0 0x7ffe7004).isSome && (s.procs 0).any fun as =>
        translatePage as (pageOf 0x7ffe7004) == some 0x2b000) = true := by
    decide +kernel
  have hclean : checkAlong step (fun s a => match a with
      | .store vaddr _ => target s vaddr != some (0x2b000 + 0x7ffe7004 % pageSize)
      | _ => true) smallMachine (passOn 0x7ffff004 7) = true := by
    decide +kernel
  obtain ⟨s,hs,h⟩ := some_of_any hstate
  obtain ⟨hsome,h⟩ := Bool.and_eq_true_iff.mp h
  obtain ⟨as,has,hpa⟩ := some_of_any h
  have hspares : Along step (Spares 0 (0x2b000 + 0x7ffe7004 % pageSize))
      smallMachine (passOn 0x7ffff004 7) := by
    refine .of_check (fun s a ha => ?_) hclean
    cases a with
    | store vaddr b => exact fun _ => by simpa using ha
    | _ => trivial
  obtain ⟨s',hs',hread⟩ := fresh_page_same_bytes
    (passOn_dataOnly 0x7ffff004 (fun _ => 0) (by decide +kernel) 7 9) hs has
    (eq_of_beq hpa) hspares
  exact ⟨s,s',hs,hs',Option.isSome_iff_ne_none.mp hsome,hread⟩

/-- The process that exits leaves its byte to the one that comes after it. -/
theorem exited_process_leaks : ∃ s s',
    Paired step (DataOnly 0) smallMachine (passOn 0x7ffe7004 7)
      (passOn 0x7ffe7004 9) ∧
    run step smallMachine (passOn 0x7ffe7004 7) = some s ∧
    run step smallMachine (passOn 0x7ffe7004 9) = some s' ∧
    readByte s 0 0x7ffe7004 = some 7 ∧ readByte s' 0 0x7ffe7004 = some 9 := by
  have hread : ((run step smallMachine (passOn 0x7ffe7004 7)).bind fun s =>
      (run step smallMachine (passOn 0x7ffe7004 9)).bind fun s' =>
        some (readByte s 0 0x7ffe7004,readByte s' 0 0x7ffe7004)) = some (some 7,some 9) := by
    decide +kernel
  obtain ⟨s,hs,h⟩ := bind_eq_some_iff.mp hread
  obtain ⟨s',hs',h⟩ := bind_eq_some_iff.mp h
  simp only [Option.some.injEq,Prod.mk.injEq] at h
  exact ⟨s,s',passOn_dataOnly _ _ (by decide +kernel) 7 9,hs,hs',h⟩

end MipsOs.Vm
