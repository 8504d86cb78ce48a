import Mathlib.Data.List.Perm.Subperm
import MipsOs.TlbConsistency

/-! What vm_fault and sys_sbrk promise their callers: which addresses can be faulted in, what a
fault that fails leaves behind, and where the break can be moved. -/

set_option autoImplicit false
namespace MipsOs.Vm
open Runs

theorem ok_of_toOption {ε α : Type} {x : Except ε α} {a : α} (h : x.toOption = some a) :
    x = .ok a := by
  cases x with
  | error e => cases h
  | ok b =>
    cases h
    rfl

theorem asActivate_not_full (m : Mmu) : ¬ Full (asActivate m).tlb := by
  intro hfull
  have hv := hfull ⟨(0x80000 + 0) * pageSize,0,false,false⟩
    (List.mem_map.mpr ⟨0,by decide,rfl⟩)
  cases hv

section Room

variable {as : AddrSpace} {fa : Nat} {c : Chance} {m : Mmu}

theorem placeOf_nowhere {text data heap stack : Region} :
    placeOf text data heap stack fa = .nowhere ↔ regionAt text data heap stack fa = none := by
  unfold placeOf regionAt
  split_ifs <;> simp

/-- The level is restored, and if an error is reported nothing else has changed. -/
def Clean (e : Option Errno) (as as' : Option AddrSpace) (m m' : Mmu) : Prop :=
  m'.curspl = m.curspl ∧ (e ≠ none → as' = as ∧ m'.tlb = m.tlb ∧ m'.frames = m.frames)

/-- What makes for a clean fault when the TLB is full and write_into_TLB returns what it happens
to: no entry is taken in a page table for nothing, and no return passes by the last splx. -/
def Place.Spared (fa : Nat) (c : Chance) (m : Mmu) : Place → Prop
  | .nowhere => True
  | .run _ => c.runReturn = 1 → m.curspl = splHigh
  | .tableOnly _ r => (∃ i, searchPagetable fa r.pagetable 0 = .missing i) → c.tlbReturn = 1
  | .tableThenRun _ r => c.tlbReturn = 1 ∧ searchPagetable fa r.pagetable 0 ≠ .full ∨
    (c.runReturn = 1 → m.curspl = splHigh) ∧
      ((∃ i, searchPagetable fa r.pagetable 0 = .missing i) → c.runReturn = 1)

theorem faultAt_room {e : Option Errno} {as' : AddrSpace} {m' : Mmu} {place : Place}
    (hfa : fa % pageSize = 0) (hp : place.For as fa) (hroom : ¬ Full m.tlb)
    (h : faultAt as fa m.curspl c { m with curspl := splHigh } place = (e,as',m')) :
    Clean e (some as) (some as') m m' := by
  obtain ⟨hspl,hres⟩ := (faultAt_fault hfa hp h).2 (.inr hroom)
  refine ⟨hspl,fun he => ?_⟩
  rcases hres with ⟨rfl,-⟩ | ⟨-,-,rfl,htlb,hframes⟩
  · exact absurd rfl he
  · exact ⟨rfl,htlb,hframes⟩

section Full

variable (r : Region) (fa : Nat) (c : Chance) (spl : Nat) (hfull : Full m.tlb)

include hfull

theorem writeIntoTLB_full {pa : Nat} : writeIntoTLB fa pa spl c m = (c.tlbReturn,m) := by
  have hnone : m.tlb.findIdx? (fun e => !e.valid) = none :=
    List.findIdx?_eq_none_iff.mpr fun e he => by rw [hfull e he]; rfl
  rw [writeIntoTLB,hnone]

theorem faultViaRun_full : faultViaRun r fa spl c m =
    if c.runReturn = 1 then (none,m) else (some .EFAULT,{ m with curspl := spl }) := by
  rw [faultViaRun,writeIntoTLB_full fa _ spl hfull]

theorem accessPagetable_full : ∃ r' f,
    accessPagetable r fa spl c m =
      (if c.tlbReturn = 1 ∧ searchPagetable fa r.pagetable 0 ≠ .full then 1 else 0,r',
        { m with frames := f }) ∧
    ((∃ i, searchPagetable fa r.pagetable 0 = .missing i) ∧ r' ≠ r ∨
      (¬ ∃ i, searchPagetable fa r.pagetable 0 = .missing i) ∧ r' = r ∧ f = m.frames) := by
  rw [accessPagetable]
  cases hs : searchPagetable fa r.pagetable 0 with
  | full => exact ⟨r,m.frames,by simp,.inr ⟨by simp,rfl,rfl⟩⟩
  | found e =>
    refine ⟨r,m.frames,?_,.inr ⟨by simp,rfl,rfl⟩⟩
    simp only [writeIntoTLB_full fa c spl hfull]
    simp
  | missing i =>
    obtain ⟨d,hd,hfree⟩ := searchPagetable_missing hs
    have hlt : i < r.pagetable.length := (List.getElem?_eq_some_iff.mp hd).1
    rcases hg : getppages 1 c.frames m.frames with ⟨p,f⟩
    refine ⟨{ r with pagetable := r.pagetable.set i ⟨true,roundDown fa pageSize,
      (roundDown fa pageSize + pageSize) % 2^32,p,(p + pageSize) % 2^32⟩ },f,?_,
      .inl ⟨⟨i,rfl⟩,fun hr => ?_⟩⟩
    · simp only [writeIntoTLB_full (m := { m with frames := f }) fa c spl hfull]
      simp
    · have hpt : (r.pagetable.set i _)[i]? = r.pagetable[i]? :=
        congrArg (fun r : Region => r.pagetable[i]?) hr
      rw [List.getElem?_set_self hlt] at hpt
      rw [← Option.some.inj (hpt.trans hd)] at hfree
      cases hfree

end Full

theorem AddrSpace.set_eq_self {n : RegionName} {r r' : Region} (h : as.get n = some r) :
    as.set n r' = as ↔ r' = r := by
  refine ⟨fun heq => Option.some.inj ?_,fun heq => heq ▸ AddrSpace.set_get_self h⟩
  rw [← AddrSpace.get_set_self as n r',heq,h]

theorem faultAt_full {e : Option Errno} {as' : AddrSpace} {m' : Mmu} {place : Place}
    (hp : place.For as fa) (hfull : Full m.tlb)
    (h : faultAt as fa m.curspl c { m with curspl := splHigh } place = (e,as',m')) :
    Clean e (some as) (some as') m m' ↔ place.Spared fa c m := by
  have hfull' : Full ({ m with curspl := splHigh } : Mmu).tlb := hfull
  cases place with
  | nowhere =>
    cases h
    exact iff_of_true ⟨rfl,fun _ => ⟨rfl,rfl,rfl⟩⟩ trivial
  | run r =>
    simp only [faultAt,faultViaRun_full r fa c _ hfull'] at h
    split at h <;> cases h <;> simp_all [Clean,Place.Spared,eq_comm]
  | tableOnly n r =>
    obtain ⟨r',f,hacc,hr⟩ := accessPagetable_full r fa c m.curspl hfull'
    simp only [faultAt,hacc] at h
    cases h
    simp only [Clean,Place.Spared,true_and,Option.some.injEq,AddrSpace.set_eq_self hp]
    by_cases hret : c.tlbReturn = 1 ∧ searchPagetable fa r.pagetable 0 ≠ .full
    · simp [hret]
    · rcases hr with ⟨⟨i,hi⟩,hne⟩ | ⟨hno,rfl,rfl⟩
      · simp_all
      · simp_all
  | tableThenRun n r =>
    obtain ⟨r',f,hacc,hr⟩ := accessPagetable_full r fa c m.curspl hfull'
    have hrun := faultViaRun_full r fa c m.curspl (m := { m with curspl := splHigh, frames := f })
      hfull
    simp only [faultAt,hacc,hrun] at h
    by_cases hret : c.tlbReturn = 1 ∧ searchPagetable fa r.pagetable 0 ≠ .full
    · simp only [if_pos hret,if_true] at h
      cases h
      exact iff_of_true ⟨rfl,fun he => (he rfl).elim⟩ (.inl hret)
    · simp only [Place.Spared,hret,false_or]
      by_cases hone : c.runReturn = 1
      · simp only [if_neg hret,if_pos hone] at h
        cases h
        exact ⟨fun hc => ⟨fun _ => hc.1.symm,fun _ => hone⟩,
          fun hc => ⟨(hc.1 hone).symm,fun he => (he rfl).elim⟩⟩
      · simp only [if_neg hret,if_neg hone] at h
        cases h
        rcases hr with ⟨hmiss,hne⟩ | ⟨hno,rfl,rfl⟩
        · refine iff_of_false (fun hc => hne ?_) fun hc => hone (hc.2 hmiss)
          exact (AddrSpace.set_eq_self hp.1).mp (Option.some.inj (hc.2 (by simp)).1)
        · exact iff_of_true ⟨rfl,fun _ => ⟨congrArg some (AddrSpace.set_get_self hp.1),rfl,rfl⟩⟩
            ⟨fun h => (hone h).elim,fun h => (hno h).elim⟩

end Room

/-- A fault leaves no trace just if the TLB has a free slot or the full one does not matter; a thread
without an address space must have had the interrupts off. -/
theorem vmFault_fails_cleanly {ft : FaultType} {addr : Nat} {as as' : Option AddrSpace}
    {c : Chance} {m m' : Mmu} {e : Option Errno}
    (h : vmFault ft addr as c m = .ok (e,as',m')) :
    Clean e as as' m m' ↔ (ft = .read ∨ ft = .write → match as with
      | none => m.curspl = splHigh
      | some a => Full m.tlb → ∀ text ∈ a.text, ∀ data ∈ a.data, ∀ heap ∈ a.heap,
        ∀ stack ∈ a.stack,
          (placeOf text data heap stack (pageOf addr)).Spared (pageOf addr) c m) := by
  cases ft with
  | readonly => cases h
  | other code =>
    cases h
    exact iff_of_true ⟨rfl,fun _ => ⟨rfl,rfl,rfl⟩⟩ (by simp)
  | read | write =>
    rcases as with _ | ⟨_ | text,_ | data,_ | heap,_ | stack⟩
    case none =>
      cases h
      simp [Clean,eq_comm]
    case some.some.some.some.some =>
      rcases hf : faultAt (.of text data heap stack) (pageOf addr) m.curspl c
        { m with curspl := splHigh } (placeOf text data heap stack (pageOf addr)) with ⟨e₁,a,m₁⟩
      rw [vmFault_eq (by simp) addr text data heap stack hf] at h
      cases h
      have hplace := placeOf_for (.of text data heap stack) rfl rfl rfl rfl
        (pageOf addr)
      by_cases hfull : Full m.tlb
      · simpa [hfull] using faultAt_full hplace hfull hf
      · simpa [hfull] using faultAt_room (pageOf_aligned addr) hplace hfull hf
    all_goals cases h

def takenTlb : List TlbEntry :=
  (List.range numTlb).map fun i => ⟨0x20000000 + i * pageSize,0x10000,true,true⟩

/-- With all slots taken the frame and the page-table entry are kept although EFAULT is reported,
and a thread without an address space returns with interrupts off. -/
theorem failed_fault_leaves_traces : ∃ as f r,
    loadImage 1 smallBooted = some (as,f) ∧
    vmFault .read 0x400000 (some as) ⟨zeroed,0,0⟩ ⟨f,takenTlb,0⟩ = .ok r ∧
    (r.1 = some .EFAULT ∧ r.2.1 ≠ some as ∧ r.2.2.frames ≠ f) ∧
    vmFault .read 0x400000 none ⟨zeroed,0,0⟩ ⟨f,takenTlb,0⟩ =
      .ok (some .EFAULT,none,⟨f,takenTlb,splHigh⟩) := by
  have hrun : ((loadImage 1 smallBooted).any fun x =>
      (vmFault .read 0x400000 (some x.1) ⟨zeroed,0,0⟩ ⟨x.2,takenTlb,0⟩).toOption.any fun r =>
        decide (r.1 = some .EFAULT ∧ r.2.1 ≠ some x.1 ∧ r.2.2.frames ≠ x.2)) = true := by
    decide +kernel
  obtain ⟨⟨as,f⟩,himg,h⟩ := some_of_any hrun
  obtain ⟨r,hr,hres⟩ := some_of_any h
  exact ⟨as,f,r,himg,ok_of_toOption hr,of_decide_eq_true hres,rfl⟩

/-- An address below the text, with interrupts at level 3. -/
theorem vmFault_fails_cleanly_belowText : ∃ as f r,
    loadImage 1 smallBooted = some (as,f) ∧
    vmFault .read 0x1000 (some as) ⟨zeroed,0,0⟩ (asActivate ⟨f,[],3⟩) = .ok r ∧
    r.1 = some .EFAULT ∧ r.2.2.curspl = 3 ∧ r.2.1 = some as ∧ r.2.2.frames = f := by
  have hrun : ((loadImage 1 smallBooted).any fun x =>
      (vmFault .read 0x1000 (some x.1) ⟨zeroed,0,0⟩ (asActivate ⟨x.2,[],3⟩)).toOption.any fun r =>
        decide (r.1 = some .EFAULT)) = true := by
    decide +kernel
  obtain ⟨⟨as,f⟩,himg,h⟩ := some_of_any hrun
  obtain ⟨r,hr,hres⟩ := some_of_any h
  have hv := ok_of_toOption hr
  have hclean := (vmFault_fails_cleanly hv).mpr fun _ hfull => (asActivate_not_full _ hfull).elim
  have hsome : r.1 = some .EFAULT := of_decide_eq_true hres
  obtain ⟨has,-,hframes⟩ := hclean.2 (by simp [hsome])
  exact ⟨as,f,r,himg,hv,hsome,hclean.1,has,hframes⟩

section StackTable

variable {fa i k : Nat} {es : List Pte}

/-- An entry of the stack's page table is for one page of the area below the stack proper. -/
structure InStackArea (e : Pte) : Prop where
  low : stackOdVstart ≤ e.vstart
  high : e.vstart < userStack - dumbvmStackpages * pageSize
  aligned : e.vstart % pageSize = 0
  onePage : e.vend = e.vstart + pageSize

/-- The entries in use come first, and they are for different pages. -/
structure StackTable (es : List Pte) : Prop where
  slots : es.length = pagetableSize
  filled : es.Pairwise fun a b => b.allocated = true → a.allocated = true ∧ a.vstart ≠ b.vstart
  pages : ∀ e ∈ es, e.allocated = true → InStackArea e

theorem StackTable.empty : StackTable emptyPagetable where
  slots := List.length_replicate
  filled := List.pairwise_replicate.mpr (.inr (by simp))
  pages e he ha := by
    rw [emptyPagetable_free e he] at ha
    cases ha

theorem StackTable.not_full (h : StackTable es) : searchPagetable fa es 0 ≠ .full := by
  intro hs
  have hall : ∀ e ∈ es, e.allocated = true := fun e he => (searchPagetable_full hs e he).1
  have hnodup : (es.map Pte.vstart).Nodup := by
    rw [List.Nodup,List.pairwise_map]
    exact h.filled.imp_of_mem fun _ hb hab => (hab (hall _ hb)).2
  have hsub : es.map Pte.vstart ⊆
      (List.range (pagetableSize - dumbvmStackpages)).map fun i => stackOdVstart + i * pageSize := by
    intro v hv
    obtain ⟨e,he,rfl⟩ := List.mem_map.mp hv
    obtain ⟨hlow,hhigh,hal,-⟩ := h.pages e he (hall e he)
    simp only [stackOdVstart,userStack,pageSize,pagetableSize,dumbvmStackpages] at hlow hhigh hal
    simp only [List.mem_map,List.mem_range,stackOdVstart,userStack,pageSize,pagetableSize,
      dumbvmStackpages]
    exact ⟨(e.vstart - 0x7fe00000) / 4096,by omega,by omega⟩
  have hle := (List.subperm_of_subset hnodup hsub).length_le
  simp [h.slots,pagetableSize,dumbvmStackpages] at hle

theorem StackTable.add (h : StackTable es) (hs : searchPagetable fa es 0 = .missing i)
    (hfa : fa % pageSize = 0) (hlow : stackOdVstart ≤ fa)
    (hhigh : fa < userStack - dumbvmStackpages * pageSize) (pa pend : Nat) :
    StackTable (es.set i (newPte fa pa pend)) := by
  obtain ⟨used,d,rest,rfl,rfl,hfree,hused⟩ := searchPagetable_missing_append hs
  have hnew : InStackArea (newPte fa pa pend) := by
    refine ⟨hlow,hhigh,hfa,Nat.mod_eq_of_lt ?_⟩
    simp only [userStack,pageSize,dumbvmStackpages] at hhigh ⊢
    omega
  have hset : (used ++ d :: rest).set (0 + used.length) (newPte fa pa pend) =
      used ++ newPte fa pa pend :: rest := by
    simp
  obtain ⟨hu,hr,hur⟩ := List.pairwise_append.mp h.filled
  obtain ⟨hd,hrest⟩ := List.pairwise_cons.mp hr
  -- behind a free entry nothing is in use
  have hempty : ∀ b ∈ rest, b.allocated ≠ true := by
    intro b hb hba
    have hda := (hd b hb hba).1
    rw [hfree] at hda
    cases hda
  rw [hset]
  refine ⟨by simpa using h.slots,?_,fun e he ha => ?_⟩
  · refine List.pairwise_append.mpr ⟨hu,List.pairwise_cons.mpr ⟨fun b hb hba => ?_,hrest⟩,?_⟩
    · exact absurd hba (hempty b hb)
    · intro a ha b hb hba
      rcases List.mem_cons.mp hb with rfl | hb
      · refine ⟨(hused a ha).1,fun heq => ?_⟩
        have hcov : Pte.covers fa a = true := by
          have hone := (h.pages a (by simp [ha]) (hused a ha).1).onePage
          rw [covers_iff,hone,heq]
          exact ⟨(hused a ha).1,Nat.le_refl _,Nat.lt_add_of_pos_right (by decide)⟩
        rw [(hused a ha).2] at hcov
        cases hcov
      · exact absurd hba (hempty b hb)
  · rcases List.mem_append.mp he with he | he
    · exact h.pages e (by simp [he]) ha
    · rcases List.mem_cons.mp he with rfl | he
      · exact hnew
      · exact h.pages e (by simp [he]) ha

end StackTable

section Placed

variable {as : AddrSpace} {fa : Nat}

/-- Where the regions of an address space lie. -/
structure Placed (as : AddrSpace) : Prop where
  starts : ∀ n r, as.get n = some r → r.vstart % pageSize = 0
  heap : ∀ r, as.heap = some r → r.vend = r.vstart
  stack : ∀ r, as.stack = some r → r.vstart = userStack - dumbvmStackpages * pageSize ∧
    r.vend = userStack ∧ StackTable r.pagetable

theorem asDefineRegion_placed {vtext sztext vdata szdata : Nat} {a b : AddrSpace}
    (ht : asDefineRegion asCreate vtext sztext = .ok a)
    (hd : asDefineRegion a vdata szdata = .ok b) : Placed b := by
  cases ht
  cases hd
  refine ⟨fun n r hr => ?_,fun r hr => ?_,fun r hr => ?_⟩
  · cases n with
    | text | data =>
      obtain rfl := Option.some.inj hr
      exact pageOf_aligned _
    | heap =>
      obtain rfl := Option.some.inj hr
      simp only [roundUp,pageSize]
      omega
    | stack =>
      obtain rfl := Option.some.inj hr
      decide
  · obtain rfl := Option.some.inj hr
    rfl
  · obtain rfl := Option.some.inj hr
    exact ⟨rfl,rfl,.empty⟩

theorem Placed.congr {as' : AddrSpace} (h : Placed as)
    (hs : ∀ n, (as'.get n).map Region.shape = (as.get n).map Region.shape) : Placed as' := by
  refine ⟨fun n r hr => ?_,fun r hr => ?_,fun r hr => ?_⟩
  · obtain ⟨q,hq,hv,-⟩ := region_of_shape hs hr
    exact hv ▸ h.starts n q hq
  · obtain ⟨q,hq,hv,he,-⟩ := region_of_shape (n := .heap) hs hr
    rw [← hv,← he]
    exact h.heap q hq
  · obtain ⟨q,hq,hv,he,-,hp⟩ := region_of_shape (n := .stack) hs hr
    rw [← hv,← he,← hp]
    exact h.stack q hq

variable {place : Place} {n : RegionName} {r text data heap stack : Region}

theorem placeOf_stack (h : (placeOf text data heap stack fa).Table .stack r) :
    r = stack ∧ stackOdVstart ≤ fa ∧ fa < stack.vend ∧ ¬ (stack.vstart ≤ fa ∧ fa < stack.vend) := by
  unfold placeOf at h
  split_ifs at h with ht hd hs hh ho hb <;> simp [Place.Table] at h
  exact ⟨h.symm,ho.1,ho.2,hs⟩

theorem Placed.setPte {i : Nat} (h : Placed (.of text data heap stack))
    (hpl : (placeOf text data heap stack fa).Table n r)
    (hr : (AddrSpace.of text data heap stack).get n = some r)
    (hs : searchPagetable fa r.pagetable 0 = .missing i) (hfa : fa % pageSize = 0) (pa pend : Nat) :
    Placed (AddrSpace.set (.of text data heap stack) n
      (r.setPte i (newPte fa pa pend))) := by
  refine ⟨fun n' q hq => ?_,fun q hq => ?_,fun q hq => ?_⟩
  · by_cases hn : n' = n
    · subst hn
      rw [AddrSpace.get_set_self] at hq
      cases hq
      exact h.starts n' r hr
    · rw [AddrSpace.get_set_of_ne _ _ hn] at hq
      exact h.starts n' q hq
  · cases n with
    | heap =>
      cases hq
      exact h.heap r hr
    | text | data | stack => exact h.heap q hq
  · cases n with
    | stack =>
      obtain ⟨rfl,hlow,hhigh,hout⟩ := placeOf_stack hpl
      obtain ⟨hv,he,htab⟩ := h.stack r rfl
      cases hq
      exact ⟨hv,he,htab.add hs hfa hlow (by omega) pa pend⟩
    | text | data | heap => exact h.stack q hq

theorem Loaded.placed (h : Loaded as) : Placed as := by
  induction h with
  | load text data prepare =>
    exact (asDefineRegion_placed text data).congr (asPrepareLoad_shape prepare)
  | @fault as as' ft addr c m m' e _ hf ih =>
    rcases vmFault_fault hf with ⟨-,ha,-⟩ | ⟨text,data,heap,stack,a,rfl,ha,hplace,hat⟩
    · cases ha
      exact ih
    · cases ha
      rcases hat.space hplace with ⟨rfl,-⟩ | ⟨n,r,i,pa,hpl,hr,hs,-,rfl⟩
      · exact ih
      · exact ih.setPte hpl hr hs (pageOf_aligned addr) pa _
  | @sbrk as heap f amount p _ heq ih =>
    obtain ⟨brk,hbrk,-⟩ := sysSbrk_brk amount p heap f
    rw [hbrk]
    refine ⟨fun n r hr => ?_,fun r hr => ?_,fun r hr => ih.stack r hr⟩
    · cases n with
      | heap =>
        cases hr
        exact ih.starts .heap heap heq
      | text => exact ih.starts .text r hr
      | data => exact ih.starts .data r hr
      | stack => exact ih.starts .stack r hr
    · cases hr
      exact ih.heap heap heq

end Placed

section Valid

variable {as : AddrSpace} {c : Chance} {m : Mmu}

/-- The addresses a process may use: text, data and stack, the area its stack can grow into, and
the heap up to the break. -/
def AddrSpace.Valid (as : AddrSpace) (addr : Nat) : Prop :=
  (∃ n r, n ≠ .heap ∧ as.get n = some r ∧ r.vstart ≤ addr ∧ addr < r.vend) ∨
  (stackOdVstart ≤ addr ∧ addr < userStack) ∨
  ∃ r, as.heap = some r ∧ r.vstart ≤ addr ∧ addr < r.vendActual

/-- The page table has the page, or an entry left for it. -/
def Region.HasRoom (r : Region) (page : Nat) : Prop :=
  (∃ e ∈ r.pagetable, e.allocated = false) ∨ r.pteFor page ≠ none

theorem Region.HasRoom.not_full {r : Region} {page : Nat} (h : r.HasRoom page) :
    searchPagetable page r.pagetable 0 ≠ .full := by
  intro hs
  rcases h with ⟨e,he,hfree⟩ | hsome
  · have hused := (searchPagetable_full hs e he).1
    rw [hfree] at hused
    cases hused
  · exact hsome (searchPagetable_full_find? hs)

theorem pageOf_within {v low high : Nat} (hlow : low % pageSize = 0) (hge : low ≤ v)
    (hlt : v < high) : low ≤ pageOf v ∧ pageOf v < high := by
  simp only [pageOf,pageSize] at hlow ⊢
  omega

variable {text data heap stack : Region} {ft : FaultType} {s u : AddrSpace × Mmu} {a : TlbAct}

/-- A page is in one of the regions exactly when one of its addresses is valid. -/
theorem Placed.regionAt_none (h : Placed (.of text data heap stack)) (addr : Nat) :
    regionAt text data heap stack (pageOf addr) = none ↔
      ∀ b, pageOf b = pageOf addr → ¬ AddrSpace.Valid (.of text data heap stack) b := by
  have hstack := (h.stack stack rfl).2.1
  constructor
  · intro hnone b hb hvalid
    rw [← hb] at hnone
    unfold regionAt at hnone
    split_ifs at hnone with ht hd hs hh ho hbrk
    rcases hvalid with ⟨n,r,hn,hr,hge,hlt⟩ | ⟨hge,hlt⟩ | ⟨r,hr,hge,hlt⟩
    · have hin := pageOf_within (h.starts n r hr) hge hlt
      cases n with
      | text =>
        cases hr
        exact ht hin
      | data =>
        cases hr
        exact hd hin
      | heap => exact hn rfl
      | stack =>
        cases hr
        exact hs hin
    · exact ho (hstack ▸ pageOf_within (by decide) hge hlt)
    · cases hr
      exact hbrk (pageOf_within (h.starts .heap heap rfl) hge hlt)
  · intro hno
    have hpage := hno (pageOf addr) (pageOf_of_aligned (pageOf_aligned addr))
    have hheap := h.heap heap rfl
    unfold regionAt
    split_ifs with ht hd hs hh ho hbrk
    · exact absurd (.inl ⟨.text,text,by simp,rfl,ht⟩) hpage
    · exact absurd (.inl ⟨.data,data,by simp,rfl,hd⟩) hpage
    · exact absurd (.inl ⟨.stack,stack,by simp,rfl,hs⟩) hpage
    · omega
    · exact absurd (.inr (.inl (hstack ▸ ho))) hpage
    · exact absurd (.inr (.inr ⟨heap,rfl,hbrk⟩)) hpage
    · rfl

/-- What is missing for a page in one of the regions can only be an entry in the heap's table. -/
theorem Placed.served {fa : Nat} (h : Placed (.of text data heap stack))
    (hin : regionAt text data heap stack fa ≠ none)
    (hheap : regionAt text data heap stack fa = some .heap → heap.HasRoom fa) :
    (placeOf text data heap stack fa).Served fa := by
  unfold placeOf
  unfold regionAt at hin hheap
  split_ifs at hin hheap ⊢
  · exact trivial
  · exact trivial
  · exact trivial
  · exact trivial
  · exact (h.stack stack rfl).2.2.not_full
  · exact (hheap rfl).not_full
  · exact hin rfl

theorem tlbStep_loaded (hl : Loaded s.1) (h : tlbStep s a = some u) : Loaded u.1 := by
  cases a with
  | activate =>
    cases h
    exact hl
  | fault ft addr c =>
    obtain ⟨e,hf⟩ := tlbStep_fault h
    exact hl.fault hf

theorem run_loaded (hl : Loaded as) {acts : List TlbAct}
    (hrun : run tlbStep (as,m) acts = some s) : Loaded s.1 :=
  run_keeps (C := fun _ _ => True) (I := fun s : AddrSpace × Mmu => Loaded s.1)
    (fun _ _ _ h _ hstep => tlbStep_loaded h hstep) hl (.trivial _ _ _) hrun

/-- After any faults of its process: a fault on a valid address is served if there is a free TLB
slot and, for a page of the heap, room in the heap's page table; a fault on a page without valid
addresses is refused. -/
theorem valid_addresses_fault_in (hl : Loaded as) {acts : List TlbAct} {s : AddrSpace × Mmu}
    (hrun : run tlbStep (as,m) acts = some s) {ft : FaultType}
    (hft : ft = .read ∨ ft = .write) (addr : Nat) (c : Chance) :
    (s.1.Valid addr → ¬ Full s.2.tlb →
      (s.1.regionAt (pageOf addr) = some .heap →
        ∀ heap, s.1.heap = some heap → heap.HasRoom (pageOf addr)) →
      ∃ as' m', vmFault ft addr (some s.1) c s.2 = .ok (none,some as',m')) ∧
    ((∀ b, pageOf b = pageOf addr → ¬ s.1.Valid b) →
      ∃ as' m', vmFault ft addr (some s.1) c s.2 = .ok (some .EFAULT,some as',m')) := by
  have hs := run_loaded hl hrun
  obtain ⟨as',m'⟩ := s
  obtain ⟨text,data,heap,stack,rfl,-⟩ := AddrSpace.loaded_iff.mp hs.loaded
  have hpl := hs.placed
  have hplace := placeOf_for (.of text data heap stack) rfl rfl rfl rfl
    (pageOf addr)
  refine ⟨fun hvalid hslot hheap => ?_,fun hno => ?_⟩
  · rcases hf : faultAt (.of text data heap stack) (pageOf addr) m'.curspl c
      { m' with curspl := splHigh } (placeOf text data heap stack (pageOf addr)) with ⟨e,a,m₁⟩
    have hin : regionAt text data heap stack (pageOf addr) ≠ none := fun hnone =>
      (hpl.regionAt_none addr).mp hnone addr rfl hvalid
    rcases ((faultAt_fault (pageOf_aligned addr) hplace hf).2 (.inr hslot)).2 with
      ⟨rfl,-⟩ | ⟨-,hnot,-⟩
    · exact ⟨a,m₁,vmFault_eq hft addr text data heap stack hf⟩
    · exact absurd (hpl.served hin fun hat => hheap hat heap rfl) hnot
  · have hnowhere := placeOf_nowhere.mpr ((hpl.regionAt_none addr).mpr hno)
    have hf : faultAt (.of text data heap stack) (pageOf addr) m'.curspl c
        { m' with curspl := splHigh } (placeOf text data heap stack (pageOf addr)) =
        (some .EFAULT,(.of text data heap stack),m') := by
      rw [hnowhere]
      rfl
    exact ⟨_,_,vmFault_eq hft addr text data heap stack hf⟩

/-- Two pages of text are touched, then one in the area the stack can grow into, and one below
the text. -/
theorem valid_addresses_fault_in_stackArea : ∃ as f s,
    loadImage 3 smallBooted = some (as,f) ∧
    run tlbStep (as,asActivate ⟨f,[],0⟩) (touchPages 2) = some s ∧
    (∃ as' m', vmFault .write 0x7fe00123 (some s.1) ⟨zeroed,0,0⟩ s.2 = .ok (none,some as',m')) ∧
    ∃ as' m', vmFault .write 0x1000 (some s.1) ⟨zeroed,0,0⟩ s.2 = .ok (some .EFAULT,some as',m') := by
  have hrun : ((loadImage 3 smallBooted).any fun x =>
      (run tlbStep (x.1,asActivate ⟨x.2,[],0⟩) (touchPages 2)).any fun s =>
        decide (s.1.regionAt 0x7fe00000 = some .stack ∧ s.1.regionAt 0x1000 = none) &&
        s.2.tlb.any fun t => !t.valid) = true := by
    decide +kernel
  obtain ⟨⟨as,f⟩,himg,h⟩ := some_of_any hrun
  obtain ⟨s,hs,h⟩ := some_of_any h
  obtain ⟨hat,hfree⟩ := Bool.and_eq_true_iff.mp h
  obtain ⟨hstack,hnone⟩ := of_decide_eq_true hat
  obtain ⟨t,ht,hv⟩ := List.any_eq_true.mp hfree
  have hl := loadImage_loaded himg
  have hslot : ¬ Full s.2.tlb := fun hfull => by simp [hfull t ht] at hv
  have hpage : pageOf 0x7fe00123 = 0x7fe00000 := by decide
  refine ⟨as,f,s,himg,hs,(valid_addresses_fault_in hl hs (.inr rfl) 0x7fe00123 _).1
    (.inr (.inl (by decide))) hslot (fun hheap => ?_),
    (valid_addresses_fault_in hl hs (.inr rfl) 0x1000 _).2 ?_⟩
  · rw [hpage,hstack] at hheap
    cases hheap
  · have hls := run_loaded hl hs
    obtain ⟨as',m'⟩ := s
    obtain ⟨text,data,heap,stack,rfl,-⟩ := AddrSpace.loaded_iff.mp hls.loaded
    exact (hls.placed.regionAt_none 0x1000).mp hnone

/-- With a full TLB every fault fails, unless write_into_TLB happens to return 1. -/
theorem vmFault_full (hl : Loaded as) (hft : ft = .read ∨ ft = .write)
    (addr : Nat) (hfull : Full m.tlb) (hret : c.tlbReturn ≠ 1 ∧ c.runReturn ≠ 1) :
    ∃ as' m', vmFault ft addr (some as) c m = .ok (some .EFAULT,some as',m') := by
  obtain ⟨text,data,heap,stack,rfl,-⟩ := AddrSpace.loaded_iff.mp hl.loaded
  rcases hf : faultAt (.of text data heap stack) (pageOf addr) m.curspl c
    { m with curspl := splHigh } (placeOf text data heap stack (pageOf addr)) with ⟨e,a,m'⟩
  have herr := (faultAt_fault (pageOf_aligned addr) (placeOf_for _ rfl rfl rfl rfl _) hf).1.1
  have hok := vmFault_eq hft addr text data heap stack hf
  rcases herr with rfl | rfl
  · obtain ⟨a',-,hfault⟩ := vmFault_faulted hl.tidy hok
    rcases hfault.tlb with ⟨t,-,-,-,hins⟩ | ⟨-,hnone⟩
    · exact absurd hfull hins.not_full
    · rcases (hnone rfl).2 with h1 | h1
      · exact absurd h1 hret.1
      · exact absurd h1 hret.2
  · exact ⟨a,m',hok⟩

theorem tlbStep_free (hboot : s.2.frames.beforeVM = false)
    (hfree : 2 ≤ freeFrames s.2.frames) (h : tlbStep s a = some u) :
    u.2.frames.beforeVM = false ∧ freeFrames s.2.frames ≤ freeFrames u.2.frames + 1 := by
  cases a with
  | activate =>
    cases h
    exact ⟨hboot,Nat.le_succ _⟩
  | fault ft addr c =>
    obtain ⟨e,hf⟩ := tlbStep_fault h
    rcases vmFault_fault hf with ⟨-,-,hm⟩ | ⟨text,data,heap,stack,a,-,-,hplace,hat⟩
    · rw [hm]
      exact ⟨hboot,Nat.le_succ _⟩
    · rcases hat.space hplace with ⟨-,heq⟩ | ⟨n,r,i,pa,-,-,-,heq,-⟩
      · rw [heq]
        exact ⟨hboot,Nat.le_succ _⟩
      · have hget := freeFrames_getppages hboot hfree c.frames
        rwa [heq] at hget

/-- With so many frames at the start there are two at each of the calls, and after them. -/
theorem two_free_along (acts : List TlbAct)
    (hboot : s.2.frames.beforeVM = false) (h : acts.length + 2 ≤ freeFrames s.2.frames) :
    Along tlbStep (fun s _ => 2 ≤ freeFrames s.2.frames) s acts ∧
      ∀ u, run tlbStep s acts = some u → 2 ≤ freeFrames u.2.frames := by
  induction acts generalizing s with
  | nil =>
    refine ⟨trivial,fun u hu => ?_⟩
    cases hu
    simpa using h
  | cons a acts ih =>
    simp only [List.length_cons] at h
    have hnext : ∀ u, tlbStep s a = some u → u.2.frames.beforeVM = false ∧
        acts.length + 2 ≤ freeFrames u.2.frames := by
      intro u hu
      obtain ⟨hb,hle⟩ := tlbStep_free hboot (by omega) hu
      exact ⟨hb,by omega⟩
    refine ⟨⟨by omega,fun u hu => (ih (hnext u hu).1 (hnext u hu).2).1⟩,fun t ht => ?_⟩
    obtain ⟨u,hu,hr⟩ := run_cons.mp ht
    exact (ih (hnext u hu).1 (hnext u hu).2).2 t hr

/-- Sixty-five pages of text, touched one after the other with frames to spare: the last page is
refused, because the TLB has 64 slots and none is ever given up. -/
theorem last_page_refused : ∃ as f s as' m',
    loadImage 65 (vmBootstrap mediumMemory) = some (as,f) ∧
    Along tlbStep (fun s a => misses s a = true ∧ 2 ≤ freeFrames s.2.frames)
      (as,asActivate ⟨f,[],0⟩) (touchPages 64) ∧
    run tlbStep (as,asActivate ⟨f,[],0⟩) (touchPages 64) = some s ∧
    (s.1.Valid 0x440000 ∧ misses s (.fault .read 0x440000 ⟨zeroed,0,0⟩) = true ∧
      2 ≤ freeFrames s.2.frames) ∧
    vmFault .read 0x440000 (some s.1) ⟨zeroed,0,0⟩ s.2 = .ok (some .EFAULT,some as',m') := by
  obtain ⟨as,f,s,himg,⟨hboot,hfree⟩,hal,hs,ht⟩ := touched_all
  have hlen : (touchPages 64).length = 64 := by simp [touchPages]
  obtain ⟨hal',hend⟩ := two_free_along (s := (as,asActivate ⟨f,[],0⟩)) (touchPages 64)
    hboot (by rw [hlen]; exact hfree)
  have hls := run_loaded (loadImage_loaded himg) hs
  obtain ⟨as',m',hf⟩ := vmFault_full (c := ⟨zeroed,0,0⟩) hls (.inl rfl) 0x440000 ht.full (by decide)
  have hvalid : s.1.Valid 0x440000 := by
    obtain ⟨text,data,heap,stack,heq,hlow,hhigh⟩ := ht.bounds
    rw [heq]
    exact .inl ⟨.text,text,by simp,rfl,by omega,by omega⟩
  exact ⟨as,f,s,as',m',himg,hal.both hal',hs,⟨hvalid,ht.last_misses _ _,hend s hs⟩,hf⟩

end Valid

/-- The calls by which a process uses its memory. Each call of sbrk finds a coremap and a value in
num_empty_cm's counter. -/
inductive VmCall where
  | tlb (a : TlbAct)
  | sbrk (amount p : Int) (f : Frames)

def vmStep (s : AddrSpace × Mmu) : VmCall → Option (AddrSpace × Mmu)
  | .tlb a => tlbStep s a
  | .sbrk amount p f =>
    s.1.heap.map fun heap => (s.1.set .heap (sysSbrk amount p heap f).2.2,s.2)

def BreakInBounds (as : AddrSpace) : Prop :=
  ∀ heap, as.heap = some heap → heap.vstart ≤ heap.vendActual ∧ heap.vendActual ≤ stackOdVstart

theorem sysSbrk_inBounds {heap : Region} (amount p : Int) (f : Frames)
    (h : heap.vstart ≤ heap.vendActual ∧ heap.vendActual ≤ stackOdVstart) :
    (sysSbrk amount p heap f).2.2.vstart ≤ (sysSbrk amount p heap f).2.2.vendActual ∧
      (sysSbrk amount p heap f).2.2.vendActual ≤ stackOdVstart := by
  simp only [sysSbrk]
  split
  · exact h
  · next hge =>
    split
    · exact h
    · next hle =>
      split
      · exact h
      · exact ⟨Nat.le_of_not_lt hge,Nat.le_of_not_lt hle⟩

theorem tlbStep_inBounds {s u : AddrSpace × Mmu} {a : TlbAct} (h : BreakInBounds s.1)
    (hstep : tlbStep s a = some u) : BreakInBounds u.1 := by
  cases a with
  | activate =>
    cases hstep
    exact h
  | fault ft addr c =>
    obtain ⟨e,hf⟩ := tlbStep_fault hstep
    obtain ⟨as,m⟩ := s
    obtain ⟨as',m'⟩ := u
    rcases vmFault_fault hf with ⟨-,heq,-⟩ | ⟨text,data,heap,stack,a,rfl,heq,hplace,hat⟩
    · cases heq
      exact h
    · cases heq
      rcases hat.space hplace with ⟨rfl,-⟩ | ⟨n,r,i,pa,-,hr,-,-,rfl⟩
      · exact h
      · intro q hq
        cases n with
        | heap =>
          cases hq
          exact h r hr
        | text | data | stack => exact h q hq

theorem vmStep_inBounds {s u : AddrSpace × Mmu} {call : VmCall} (h : BreakInBounds s.1)
    (hstep : vmStep s call = some u) : BreakInBounds u.1 := by
  cases call with
  | tlb a => exact tlbStep_inBounds h hstep
  | sbrk amount p f =>
    obtain ⟨heap,hheap,rfl⟩ := Option.map_eq_some_iff.mp hstep
    intro q hq
    cases hq
    exact sysSbrk_inBounds amount p f (h heap hheap)

/-- The contract of sbrk, with the break reckoned over the integers. -/
structure SbrkContract (amount : Int) (heap : Region) (free : Nat)
    (r : Option Errno × Option Int × Region) : Prop where
  einval : r.1 = some .EINVAL ↔ heap.vendActual + amount < heap.vstart
  enomem : r.1 = some .ENOMEM ↔ ¬ heap.vendActual + amount < heap.vstart ∧
    (heap.vendActual + amount > stackOdVstart ∨ amount > 4096 * free)
  success : r.1 = none ↔ ¬ heap.vendActual + amount < heap.vstart ∧
    ¬ (heap.vendActual + amount > stackOdVstart ∨ amount > 4096 * free)
  moved : r.1 = none → r.2 = (some (heap.vendActual : Int),
    { heap with vendActual := (heap.vendActual + amount).toNat })
  kept : r.1 ≠ none → r.2.2 = heap

/-- sys_sbrk keeps its contract just if the new break is not negative and, where the break could go
there, the size that num_empty_cm gives, with what its counter starts from, decides as the true one
does. That the break stays in its bounds depends on none of this. -/
theorem sysSbrk_contract (heap : Region) (hstart : heap.vstart ≤ heap.vendActual)
    (hbrk : heap.vendActual ≤ stackOdVstart) (f : Frames) (amount p : Int)
    (hamount : -2^31 ≤ amount ∧ amount < 2^31) :
    (SbrkContract amount heap (freeFrames f) (sysSbrk amount p heap f) ↔
      0 ≤ heap.vendActual + amount ∧ (heap.vstart ≤ heap.vendActual + amount →
        heap.vendActual + amount ≤ stackOdVstart →
        (amount > toInt32 (toU32 ((p + freeFrames f) * 4096)) ↔ amount > 4096 * freeFrames f))) ∧
    ∀ (as : AddrSpace) (m : Mmu) (calls : List VmCall) (s : AddrSpace × Mmu), BreakInBounds as →
      run vmStep (as,m) calls = some s → BreakInBounds s.1 := by
  refine ⟨?_,fun as m calls s h hrun => run_keeps (C := fun _ _ => True)
    (I := fun s : AddrSpace × Mmu => BreakInBounds s.1)
    (fun _ _ _ h _ hstep => vmStep_inBounds h hstep) h (.trivial _ _ _) hrun⟩
  have htop : stackOdVstart < 2^31 := by decide
  rcases Int.lt_or_le (heap.vendActual + amount) 0 with hneg | hnew
  · -- the sum wraps, and is above the stack's limit
    have hbreak : toU32 (heap.vendActual + amount) = (heap.vendActual + amount + 2^32).toNat :=
      toU32_of_neg hneg (by omega)
    refine iff_of_false (fun h => ?_) fun h => by omega
    have herr : (sysSbrk amount p heap f).1 = some .ENOMEM := by
      rw [sysSbrk,hbreak,if_neg (by omega),if_pos (by omega)]
    exact (h.enomem.mp herr).1 (by omega)
  have hbreak : toU32 (heap.vendActual + amount) = (heap.vendActual + amount).toNat :=
    toU32_of_nonneg hnew (by omega)
  have hold : toInt32 heap.vendActual = heap.vendActual := toInt32_of_lt (by omega)
  have hlow : (heap.vendActual + amount).toNat < heap.vstart ↔
      heap.vendActual + amount < heap.vstart := by omega
  have hhigh : (heap.vendActual + amount).toNat > stackOdVstart ↔
      heap.vendActual + amount > stackOdVstart := by omega
  have hsize : numEmptyCm p f * pageSize = (p + freeFrames f) * 4096 := by
    simp [numEmptyCm,freeFrames,List.countP_eq_length_filter,pageSize]
  simp only [sysSbrk,hbreak,hold,hlow,hhigh,hsize,hnew,true_and]
  split_ifs with h1 h2 h3
  · exact iff_of_true ⟨by simp [h1],by simp [h1],by simp [h1],by simp,by simp⟩ (by omega)
  · exact iff_of_true ⟨by simp [h1],by simp [h1,h2],by simp [h2],by simp,by simp⟩ (by omega)
  · refine ⟨fun h _ _ => iff_of_true h3 ((h.enomem.mp rfl).2.resolve_left h2),fun h => ?_⟩
    have hmany := (h (by omega) (by omega)).mp h3
    exact ⟨by simp [h1],by simp [h1,hmany],by simp [hmany],by simp,by simp⟩
  · refine ⟨fun h _ _ => iff_of_false h3 fun hmany => (h.success.mp rfl).2 (.inr hmany),fun h => ?_⟩
    have hfew : ¬ amount > 4096 * freeFrames f := mt (h (by omega) (by omega)).mpr h3
    exact ⟨by simp [h1],by simp [h2,hfew],by simp [h1,h2,hfew],by simp,by simp⟩

def emptyHeap : Region := ⟨0x10002000,0x10002000,0,0,0,[],0x10002000⟩

/-- A break that would be negative wraps round to the top of memory: ENOMEM instead of EINVAL. And
from a counter that starts below 0 there seems to be no memory. -/
theorem sbrk_wrong_error :
    ¬ SbrkContract (-0x20000000) emptyHeap (freeFrames smallBooted)
      (sysSbrk (-0x20000000) 0 emptyHeap smallBooted) ∧
    ¬ SbrkContract 0 emptyHeap (freeFrames smallBooted)
      (sysSbrk 0 (-1000) emptyHeap smallBooted) := by
  refine ⟨fun h => ?_,fun h => ?_⟩
  · have herr : (sysSbrk (-0x20000000) 0 emptyHeap smallBooted).1 =
        some .ENOMEM := by
      decide +kernel
    exact (h.enomem.mp herr).1 (by decide)
  · have herr : (sysSbrk 0 (-1000) emptyHeap smallBooted).1 = some .ENOMEM := by
      decide +kernel
    rcases (h.enomem.mp herr).2 with hhigh | hmany
    · exact absurd hhigh (by decide)
    · omega

theorem sysSbrk_contract_onePage :
    SbrkContract 4096 emptyHeap (freeFrames smallBooted)
      (sysSbrk 4096 0 emptyHeap smallBooted) ∧
    (sysSbrk 4096 0 emptyHeap smallBooted).1 = none := by
  have hsize : freeFrames smallBooted = 63 := by decide +kernel
  refine ⟨(sysSbrk_contract emptyHeap (by decide) (by decide) smallBooted 4096 0
    (by decide)).1.mpr ⟨by decide,fun _ _ => ?_⟩,by decide +kernel⟩
  rw [hsize]
  decide

end MipsOs.Vm
