import MipsOs.MachineMemory
import MipsOs.SbrkPromise

/-! What a process can still reach after sys_sbrk has moved the break down. -/

set_option autoImplicit false
namespace MipsOs.Vm
open Runs
open Option (bind_eq_some_iff)

/-- The page is below the limit, or it belongs to another region than the heap. -/
def AddrSpace.Elsewhere (as : AddrSpace) (limit page : Nat) : Prop :=
  page < limit ∨ ∃ n, n ≠ .heap ∧ as.regionAt page = some n

def Machine.brk (s : Machine) : Nat :=
  ((s.procs s.cur).bind AddrSpace.heap).elim 0 Region.vendActual

/-- The call of sys_sbrk that leads from `s` to `s'` and leaves the break at `brk` takes the pages
from there on away from process `q`: no valid TLB entry and no entry of the heap's page table is for
one of them, and whatever happens later, they do not show a byte they held before. -/
structure AccessGone (q brk : Nat) (s s' : Machine) : Prop where
  tlb : ∀ as, s'.procs q = some as → ∀ t ∈ s'.mmu.tlb, t.valid = true → as.Elsewhere brk t.vpage
  table : ∀ as r, s'.procs q = some as → as.heap = some r →
    ∀ e ∈ r.pagetable, e.allocated = true → e.vstart < brk
  bytes : ∀ as vaddr b, s.procs q = some as → as.regionAt (pageOf vaddr) = some .heap →
    brk ≤ pageOf vaddr → readByte s q vaddr = some b →
    ∀ later u, run step s' later = some u → readByte u q vaddr ≠ some b

/-- Process `q` touches heap pages below the limit only. -/
def TouchesBelow (q limit : Nat) (s : Machine) : Act → Prop
  | .fault _ addr _ => ∀ as, s.cur = q → s.procs q = some as → as.Elsewhere limit (pageOf addr) ∨
      as.regionAt (pageOf addr) = none
  | _ => True

def touchesBelowTest (q limit : Nat) (s : Machine) : Act → Bool
  | .fault _ addr _ => decide (s.cur ≠ q) || (s.procs q).all fun as =>
      decide (pageOf addr < limit) || decide (as.regionAt (pageOf addr) ≠ some .heap)
  | _ => true

theorem touchesBelow_of_test {q limit : Nat} (s : Machine) (a : Act)
    (h : touchesBelowTest q limit s a = true) : TouchesBelow q limit s a := by
  cases a with
  | fault ft addr c =>
    intro as hcur has
    simp only [touchesBelowTest,hcur,has,Option.all_some] at h
    rcases hreg : as.regionAt (pageOf addr) with _ | n
    · exact .inr rfl
    · left
      simp only [hreg,ne_eq,not_true_eq_false,decide_false,Bool.false_or,Bool.or_eq_true,
        decide_eq_true_eq,Option.some.injEq] at h
      exact h.imp_right fun hn => ⟨n,hn,hreg⟩
  | _ => trivial

structure Pte.Below (limit : Nat) (e : Pte) : Prop where
  aligned : e.vstart % pageSize = 0
  onePage : e.vend ≤ e.vstart + pageSize
  low : e.vstart < limit

structure Region.Low (limit : Nat) (r : Region) : Prop where
  noRun : r.vend = r.vstart
  ptes : ∀ e ∈ r.pagetable, e.allocated = true → e.Below limit

/-- The TLB entries and page-table entries of process `q` for its heap are for pages below the
limit. -/
structure Low (q limit : Nat) (s : Machine) : Prop where
  table : ∀ as r, s.procs q = some as → as.heap = some r → r.Low limit
  tlb : ∀ as, s.cur = q → s.procs q = some as → ∀ t ∈ s.mmu.tlb, t.valid = true →
    as.Elsewhere limit t.vpage

section Regions

variable {as as' : AddrSpace} {page limit : Nat}

theorem regionAt_shape (h : ∀ n, (as'.get n).map Region.shape = (as.get n).map Region.shape) :
    as'.regionAt page = as.regionAt page := by
  obtain ⟨text,data,heap,stack⟩ := as
  obtain ⟨text',data',heap',stack'⟩ := as'
  have ht := h .text
  have hd := h .data
  have hh := h .heap
  have hs := h .stack
  simp only [AddrSpace.get] at ht hd hh hs
  cases text <;> cases text' <;> simp at ht <;> cases data <;> cases data' <;> simp at hd <;>
    cases heap <;> cases heap' <;> simp at hh <;> cases stack <;> cases stack' <;> simp at hs <;>
    simp_all [AddrSpace.regionAt,regionAt,Region.shape]

variable {heap text data stack : Region} {n : RegionName}

/-- The break decides about heap pages only. -/
theorem regionAt_brk (hh : as.heap = some heap) (hn : n ≠ .heap)
    (h : as.regionAt page = some n) (brk : Nat) :
    (as.set .heap { heap with vendActual := brk }).regionAt page = some n := by
  obtain ⟨_ | text,_ | data,_ | heap',_ | stack⟩ := as <;> try cases h
  cases hh
  simp only [AddrSpace.regionAt,regionAt,AddrSpace.set] at h ⊢
  split_ifs at h ⊢ <;> simp_all

theorem placeOf_heap_regionAt {r : Region} {fa : Nat}
    (h : (placeOf text data heap stack fa).Table .heap r) :
    regionAt text data heap stack fa = some .heap := by
  unfold placeOf at h
  unfold regionAt
  split_ifs at h ⊢ <;> simp_all [Place.Table]

theorem AddrSpace.Elsewhere.of_region (h : as.Elsewhere limit page)
    (hn : as.regionAt page = some n) : page < limit ∨ n ≠ .heap := by
  rcases h with hlow | ⟨n',hne,hn'⟩
  · exact .inl hlow
  · rw [hn] at hn'
    cases hn'
    exact .inr hne

end Regions

section Faults

variable {fa spl : Nat} {c : Chance} {m : Mmu}

end Faults

section Steps

variable {q limit : Nat} {s u : Machine}

theorem Low.change {as as' : AddrSpace} {m : Mmu} (h : Low q limit s) (has : s.procs q = some as)
    (hcur : s.cur = q)
    (htable : (∀ r, as.heap = some r → r.Low limit) → ∀ r, as'.heap = some r → r.Low limit)
    (htlb : ∀ t ∈ m.tlb, t.valid = true → (∀ n, n ≠ .heap → as.regionAt t.vpage = some n →
      as'.regionAt t.vpage = some n) ∧ t ∈ s.mmu.tlb ∨ as'.Elsewhere limit t.vpage) :
    Low q limit { s.setProc (some as') with mmu := m } := by
  subst hcur
  have hnew : ∀ a, (s.setProc (some as')).procs s.cur = some a → a = as' := by
    intro a ha
    rw [setProc_procs_self] at ha
    exact (Option.some.inj ha).symm
  refine ⟨fun a r ha hr => ?_,fun a _ ha t ht hv => ?_⟩
  · obtain rfl := hnew a ha
    exact htable (fun q => h.table as q has) r hr
  · obtain rfl := hnew a ha
    rcases htlb t ht hv with ⟨hsame,ht'⟩ | hels
    · rcases h.tlb as rfl has t ht' hv with hlow | ⟨n,hn,hreg⟩
      · exact .inl hlow
      · exact .inr ⟨n,hn,hsame n hn hreg⟩
    · exact hels

theorem Low.of_none (hnone : u.procs q = none) : Low q limit u where
  table := by simp [hnone]
  tlb := by simp [hnone]

theorem Low.same (h : Low q limit s) (hcur : u.cur = s.cur) (hp : u.procs q = s.procs q)
    (htlb : u.mmu.tlb = s.mmu.tlb) : Low q limit u where
  table := hp ▸ h.table
  tlb := by
    rw [hcur,hp,htlb]
    exact h.tlb

theorem asActivate_invalid {m : Mmu} {t : TlbEntry} (ht : t ∈ (asActivate m).tlb) :
    t.valid = false := by
  obtain ⟨i,-,rfl⟩ := List.mem_map.mp ht
  rfl

theorem Low.fault {ft : FaultType} {addr : Nat} {c : Chance} (h : Low s.cur limit s)
    (hc : TouchesBelow s.cur limit s (.fault ft addr c))
    (hs : step s (.fault ft addr c) = some u) : Low s.cur limit u := by
  simp only [step,Option.bind_eq_bind] at hs
  obtain ⟨as,has,hs⟩ := bind_eq_some_iff.mp hs
  split at hs
  · split at hs
    · next e as₁ m hf =>
      cases hs
      rcases vmFault_fault hf with ⟨-,rfl,rfl⟩ | ⟨text,data,heap,stack,a,rfl,rfl,hplace,hat⟩
      · exact h.change has rfl id fun t ht _ => .inl ⟨fun _ _ hn => hn,ht⟩
      have hfa := pageOf_aligned addr
      have hspace := hat.space hplace
      have hregion : ∀ page, a.regionAt page = regionAt text data heap stack page := by
        intro page
        rcases hspace with ⟨rfl,-⟩ | ⟨n,r,i,pa,-,hr,-,-,rfl⟩
        · rfl
        · exact regionAt_setPte hr i _ page
      refine h.change has rfl (fun hlow r' hr' => ?_) fun t ht _ => ?_
      · rcases hspace with ⟨rfl,-⟩ | ⟨n,r,i,pa,hpl,hr,-,-,rfl⟩
        · exact hlow r' hr'
        · cases n with
          | heap =>
            obtain rfl := Option.some.inj hr'
            obtain ⟨hrun,hptes⟩ := hlow r hr
            refine ⟨hrun,fun e he halloc => ?_⟩
            rcases List.mem_or_eq_of_mem_set he with he | rfl
            · exact hptes e he halloc
            · -- the new entry is for a heap page, and the process touches none from the limit on
              have hheap := placeOf_heap_regionAt hpl
              rcases hc _ rfl has with hels | hnone
              · exact ⟨hfa,Nat.mod_le _ _,(hels.of_region hheap).resolve_right (by simp)⟩
              · cases hnone.symm.trans hheap
          | text | data | stack => exact hlow r' hr'
      · rcases hat.mem ht with ht | ⟨hnot,hpage⟩
        · exact .inl ⟨fun n _ hn => (hregion _).trans hn,ht⟩
        · right
          obtain ⟨n,hn⟩ := Option.ne_none_iff_exists'.mp (mt placeOf_nowhere.mpr hnot)
          rw [AddrSpace.Elsewhere,hregion,hpage]
          rcases hc _ rfl has with hels | hnone
          · exact hels
          · cases hnone.symm.trans hn
    · cases hs
  · cases hs

theorem Low.define {vaddr sz : Nat} (h : Low s.cur limit s)
    (hs : step s (.define vaddr sz) = some u) : Low s.cur limit u := by
  simp only [step,Option.bind_eq_bind] at hs
  obtain ⟨as,has,hs⟩ := bind_eq_some_iff.mp hs
  split at hs
  · next as' hd =>
    cases hs
    have hfresh : ∀ r', as'.heap = some r' → as.heap = some r' ∨
        r'.vend = r'.vstart ∧ r'.pagetable = emptyPagetable := by
      intro r' hr'
      unfold asDefineRegion at hd
      obtain ⟨_ | text,_ | data,heap,stack⟩ := as <;> cases hd
      · exact .inl hr'
      · exact .inl hr'
      · obtain rfl := Option.some.inj hr'
        exact .inr ⟨rfl,rfl⟩
    -- a space with a region to be defined has no page that belongs anywhere
    have hregion : ∀ page n, as.regionAt page ≠ some n := by
      intro page n hn
      obtain ⟨_ | text,_ | data,heap,stack⟩ := as
      · cases hn
      · cases hn
      · cases hn
      · cases hd
    refine h.change (m := s.mmu) has rfl (fun hlow r' hr' => ?_) fun t ht _ =>
      .inl ⟨fun n _ hn => absurd hn (hregion _ n),ht⟩
    rcases hfresh r' hr' with hr | ⟨hrun,hempty⟩
    · exact hlow r' hr
    · refine ⟨hrun,fun e he halloc => ?_⟩
      rw [hempty] at he
      rw [emptyPagetable_free e he] at halloc
      cases halloc
  · cases hs
    exact h

theorem Low.prepare {n : RegionName} {init : Uninit} (h : Low s.cur limit s)
    (hs : step s (.prepare n init) = some u) : Low s.cur limit u := by
  simp only [step,Option.bind_eq_bind] at hs
  obtain ⟨as,has,hs⟩ := bind_eq_some_iff.mp hs
  obtain ⟨r,hr,hs⟩ := bind_eq_some_iff.mp hs
  split at hs
  · rcases hl : loadRegion r init s.mmu.frames with ⟨e,r',f⟩
    rw [hl] at hs
    cases hs
    have hshape : ∀ n', ((as.set n r').get n').map Region.shape = (as.get n').map Region.shape := by
      intro n'
      by_cases hn : n' = n
      · subst hn
        rw [AddrSpace.get_set_self,hr,Option.map_some,Option.map_some,loadRegion_shape hl]
      · rw [AddrSpace.get_set_of_ne _ _ hn]
    refine h.change has rfl (fun hlow q hq => ?_) fun t ht _ =>
      .inl ⟨fun n' _ hn' => (regionAt_shape hshape).trans hn',ht⟩
    obtain ⟨q',hq',hst,hend,-,htab⟩ := region_of_shape (n := .heap) hshape hq
    obtain ⟨hrun,hptes⟩ := hlow q' hq'
    exact ⟨by rw [← hst,← hend,hrun],htab ▸ hptes⟩
  · cases hs

theorem Low.sbrk {amount p : Int} (h : Low s.cur limit s)
    (hs : step s (.sbrk amount p) = some u) : Low s.cur limit u := by
  simp only [step,Option.bind_eq_bind] at hs
  obtain ⟨as,has,hs⟩ := bind_eq_some_iff.mp hs
  obtain ⟨heap,hheap,hs⟩ := bind_eq_some_iff.mp hs
  cases hs
  obtain ⟨brk,hbrk,-⟩ := sysSbrk_brk amount p heap s.mmu.frames
  rw [hbrk]
  refine h.change (m := s.mmu) has rfl (fun hlow r hr => ?_) fun t ht _ =>
    .inl ⟨fun n hn hreg => regionAt_brk hheap hn hreg brk,ht⟩
  obtain rfl := Option.some.inj hr
  exact ⟨(hlow heap hheap).noRun,(hlow heap hheap).ptes⟩

theorem low_step {a : Act} (h : Low q limit s) (hc : TouchesBelow q limit s a)
    (hs : step s a = some u) : Low q limit u := by
  by_cases halone : a.alone = true
  · obtain ⟨hcur,hothers,-⟩ := step_alone halone hs
    by_cases hq : q = s.cur
    · subst hq
      cases a with
      | switch p => cases halone
      | fault ft addr c => exact h.fault hc hs
      | define vaddr sz => exact h.define hs
      | prepare n init => exact h.prepare hs
      | sbrk amount p => exact h.sbrk hs
      | kalloc npages init =>
        simp only [step] at hs
        split at hs
        · cases hs
        · cases hs
          exact h.same rfl rfl rfl
      | kfree addr =>
        cases hs
        exact h.same rfl rfl rfl
      | store vaddr b =>
        simp only [step,Option.bind_eq_bind] at hs
        obtain ⟨as,-,hs⟩ := bind_eq_some_iff.mp hs
        obtain ⟨e,-,hs⟩ := bind_eq_some_iff.mp hs
        cases hs
        exact h.same rfl rfl rfl
      | create =>
        simp only [step] at hs
        split at hs
        · cases hs
          refine ⟨fun as r ha hr => ?_,fun as _ _ t ht hv => ?_⟩
          · have ha' : (s.setProc (some asCreate)).procs s.cur = some as := ha
            rw [setProc_procs_self] at ha'
            cases ha'
            cases hr
          · rw [asActivate_invalid ht] at hv
            cases hv
        · cases hs
      | destroy =>
        simp only [step,Option.bind_eq_bind] at hs
        obtain ⟨as,-,hs⟩ := bind_eq_some_iff.mp hs
        split at hs
        · cases hs
          exact .of_none (setProc_procs_self s none)
        · cases hs
    · have hp := hothers q hq
      exact ⟨hp ▸ h.table,fun _ hcur' => absurd (hcur'.symm.trans hcur) hq⟩
  · cases a with
    | switch p =>
      cases hs
      refine ⟨h.table,fun as hcur hp t ht hv => ?_⟩
      cases hcur
      have hsome : (s.procs p).isSome = true := by
        have hp' : s.procs p = some as := hp
        simp [hp']
      simp only [hsome,if_true] at ht
      rw [asActivate_invalid ht] at hv
      cases hv
    | _ => exact absurd rfl halone

theorem low_run {f : Frames} {mem : Nat → UInt8} {acts : List Act}
    (hc : Along step (TouchesBelow q limit) (boot f mem) acts)
    (hrun : run step (boot f mem) acts = some s) : Low q limit s :=
  run_keeps (fun _ _ _ h hc hs => low_step h hc hs) (.of_none rfl) hc hrun

theorem Low.readByte_none {as : AddrSpace} {vaddr : Nat} (h : Low q limit s)
    (has : s.procs q = some as) (hheap : as.regionAt (pageOf vaddr) = some .heap)
    (hge : limit ≤ pageOf vaddr) : readByte s q vaddr = none := by
  obtain ⟨_ | text,_ | data,_ | heap,_ | stack⟩ := as <;> try cases hheap
  obtain ⟨hrun,hptes⟩ := h.table _ heap has rfl
  obtain ⟨hplace,-⟩ := placeOf_heap hheap hrun
  have hsearch : ∀ e, searchPagetable (pageOf vaddr) heap.pagetable 0 ≠ .found e := by
    intro e he
    obtain ⟨hmem,halloc,hlow,hhigh⟩ := searchPagetable_found he
    obtain ⟨haligned,hone,hbelow⟩ := hptes e hmem halloc
    have hfa := pageOf_aligned vaddr
    simp only [pageSize] at *
    omega
  have htrans : translatePage (.of text data heap stack) (pageOf vaddr) = none := by
    simp only [translatePage,hplace]
  simp [readByte,has,htrans]

/-- sys_sbrk takes the pages from the new break on away, if the process has never touched one of
them. -/
theorem shrink_takes_access_away {f : Frames} {mem : Nat → UInt8} {acts : List Act}
    {s s' : Machine} {amount p : Int} (hrun : run step (boot f mem) acts = some s)
    (hcall : step s (.sbrk amount p) = some s')
    (hbelow : Along step (TouchesBelow s.cur s'.brk) (boot f mem) acts) :
    AccessGone s.cur s'.brk s s' := by
  have hlow := low_run hbelow hrun
  have hlow' := hlow.sbrk hcall
  obtain ⟨hcur,-⟩ := step_alone (a := .sbrk amount p) rfl hcall
  refine ⟨fun a ha t ht hv => hlow'.tlb a hcur ha t ht hv,fun a r ha hr e he halloc =>
    ((hlow'.table a r ha hr).ptes e he halloc).low,fun a vaddr b ha hreg hge hb => ?_⟩
  rw [hlow.readByte_none ha hreg hge] at hb
  cases hb

def heapUser : List Act :=
  loadSmall ++ [.sbrk 8192 0,.fault .write 0x10002000 ⟨zeroed,0,0⟩,.store 0x10002004 7]

/-- The second page is given back. -/
theorem shrink_takes_access_away_untouched : ∃ s s',
    run step smallMachine heapUser = some s ∧ s.brk = 0x10004000 ∧
    step s (.sbrk (-4096) 0) = some s' ∧ s'.brk = 0x10003000 ∧
    AccessGone s.cur 0x10003000 s s' := by
  have hrun : ((run step smallMachine heapUser).any fun s =>
      decide (s.brk = 0x10004000 ∧ s.cur = 0) && (step s (.sbrk (-4096) 0)).any fun s' =>
        decide (s'.brk = 0x10003000)) = true := by
    decide +kernel
  have hbelow : checkAlong step (touchesBelowTest 0 0x10003000)
      smallMachine heapUser = true := by
    decide +kernel
  obtain ⟨s,hs,h⟩ := some_of_any hrun
  obtain ⟨hstate,h⟩ := Bool.and_eq_true_iff.mp h
  obtain ⟨hbrk,hcur⟩ := of_decide_eq_true hstate
  obtain ⟨s',hs',h⟩ := some_of_any h
  have hbrk' := of_decide_eq_true h
  have hgone := shrink_takes_access_away hs hs' (by
    rw [hcur,hbrk']
    exact .of_check touchesBelow_of_test hbelow)
  exact ⟨s,s',hs,hbrk,hs',hbrk',hbrk' ▸ hgone⟩

/-- When the first page is given back as well, the process can still store to it, and it finds its
bytes there when it gets the page again. -/
theorem shrink_leaves_access : ∃ s s' u,
    run step smallMachine heapUser = some s ∧
    readByte s s.cur 0x10002004 = some 7 ∧
    step s (.sbrk (-8192) 0) = some s' ∧ s'.brk = 0x10002000 ∧
    (∃ t ∈ s'.mmu.tlb, t.valid = true ∧ t.vpage = 0x10002000) ∧
    target s' 0x10002004 ≠ none ∧
    (∃ as r, s'.procs s.cur = some as ∧ as.heap = some r ∧ r.pteFor 0x10002000 ≠ none) ∧
    run step s' [.sbrk 8192 0] = some u ∧ readByte u s.cur 0x10002004 = some 7 := by
  have hrun : ((run step smallMachine heapUser).any fun s =>
      decide (readByte s s.cur 0x10002004 = some 7) && (step s (.sbrk (-8192) 0)).any fun s' =>
        (decide (s'.brk = 0x10002000) &&
          (s'.mmu.tlb.any fun t => t.valid && decide (t.vpage = 0x10002000)) &&
          (target s' 0x10002004).isSome &&
          (s'.procs s.cur).any fun as => as.heap.any fun r => (r.pteFor 0x10002000).isSome) &&
        (run step s' [.sbrk 8192 0]).any fun u =>
          decide (readByte u s.cur 0x10002004 = some 7)) = true := by
    decide +kernel
  obtain ⟨s,hs,h⟩ := some_of_any hrun
  obtain ⟨hbyte,h⟩ := Bool.and_eq_true_iff.mp h
  obtain ⟨s',hs',h⟩ := some_of_any h
  obtain ⟨hstate,h⟩ := Bool.and_eq_true_iff.mp h
  obtain ⟨u,hu,hagain⟩ := some_of_any h
  simp only [Bool.and_eq_true,decide_eq_true_eq] at hstate
  obtain ⟨⟨⟨hbrk,htlb⟩,htarget⟩,hspace⟩ := hstate
  obtain ⟨t,ht,hvalid⟩ := List.any_eq_true.mp htlb
  obtain ⟨as,has,hspace⟩ := some_of_any hspace
  obtain ⟨r,hr,hpte⟩ := some_of_any hspace
  refine ⟨s,s',u,hs,of_decide_eq_true hbyte,hs',hbrk,⟨t,ht,by simpa using hvalid⟩,
    Option.isSome_iff_ne_none.mp htarget,⟨as,r,has,hr,Option.isSome_iff_ne_none.mp hpte⟩,hu,
    of_decide_eq_true hagain⟩

end Steps

end MipsOs.Vm
