import MipsOs.PageFault

/-! as_copy, and where the pages of an address space are: the entries of its page tables and the
contiguous runs of its regions, and what one vm_fault does to them and to the TLB. -/

set_option autoImplicit false
namespace MipsOs.Vm

/-- The results of the calls of kmalloc in as_copy. The structure of a region is
not initialised: its page table pointer is wherever the heap left it, `none` for
an address that cannot be written, and so is the field vend_actual. -/
structure CopyChance where
  space : Bool
  region : RegionName → Option (Option (List Pte))
  vendActual : RegionName → Nat
  frames : RegionName → Uninit

/-- copy_pagetables. The entries land where the new region's pointer happens to
point. -/
def copyPagetables (old : Region) (new : Option (List Pte)) : Except Stop (List Pte) :=
  match new with
  | none => .error .wildPointer
  | some _ => .ok old.pagetable

/-- The block of as_copy that makes one region, up to its page table. Only the
heap's vend_actual is assigned. -/
def copyRegion (old : AddrSpace) (n : RegionName) (c : CopyChance) : Except Stop Region :=
  match c.region n,old.get n with
  | some table,some r => do
    let pagetable ← copyPagetables r table
    .ok { r with
      pagetable := pagetable
      vendActual := if n = .heap then r.vendActual else c.vendActual n }
  | _,_ => .error .nullPointer

def memmove (dst src len : Nat) (mem : Nat → UInt8) : Nat → UInt8 :=
  fun a => if dst ≤ a ∧ a < dst + len then mem (a - dst + src) else mem a

def copyRuns (old new : AddrSpace) (mem : Nat → UInt8) : Except Stop (Nat → UInt8) :=
  match old.data,old.text,old.heap,old.stack,new.data,new.text,new.heap,new.stack with
  | some od,some ot,some oh,some os,some nd,some nt,some nh,some ns =>
    if nd.pstart = 0 then .error (.panic "new->data->pstart != 0")
    else if nt.pstart = 0 then .error (.panic "new->text->pstart != 0")
    else if ns.pstart = 0 then .error (.panic "new->stack->pstart != 0")
    else
      let mem := memmove nd.pstart od.pstart (od.numofpages * pageSize) mem
      let mem := memmove nt.pstart ot.pstart (ot.numofpages * pageSize) mem
      let mem := memmove nh.pstart oh.pstart (oh.numofpages * pageSize) mem
      .ok (memmove ns.pend os.pend (os.numofpages * pageSize) mem)
  | _,_,_,_,_,_,_,_ => .error .nullPointer

/-- What as_copy leaves: its result, the address space stored through ret, the
frame table and the memory. -/
structure Copied where
  result : Option Errno
  ret : Option AddrSpace
  frames : Frames
  mem : Nat → UInt8

/-- as_copy. `f` is the frame table once the calls of kmalloc are done. -/
def asCopy (old : AddrSpace) (c : CopyChance) (f : Frames) (mem : Nat → UInt8) :
    Except Stop Copied := do
  if c.space = false then
    return ⟨some .ENOMEM,none,f,mem⟩
  let data ← copyRegion old .data c
  let text ← copyRegion old .text c
  let stack ← copyRegion old .stack c
  let heap ← copyRegion old .heap c
  let (e,new,f) ← asPrepareLoad ⟨some text,some data,some heap,some stack⟩ c.frames f
  if e.isSome then
    let f ← asDestroy new f
    return ⟨some .ENOMEM,none,f,mem⟩
  let mem ← copyRuns old new mem
  return ⟨none,some new,f,mem⟩

/-- An address space some process has been running in: both regions defined,
loaded without error, then any faults and any moves of the break. -/
inductive Loaded : AddrSpace → Prop
  | load {vtext sztext vdata szdata : Nat} {a b as : AddrSpace} {u : RegionName → Uninit}
      {f f' : Frames} (text : asDefineRegion asCreate vtext sztext = .ok a)
      (data : asDefineRegion a vdata szdata = .ok b)
      (prepare : asPrepareLoad b u f = .ok (none,as,f')) : Loaded as
  | fault {as as' : AddrSpace} {ft : FaultType} {addr : Nat} {c : Chance} {m m' : Mmu}
      {e : Option Errno} (before : Loaded as)
      (fault : vmFault ft addr (some as) c m = .ok (e,some as',m')) : Loaded as'
  | sbrk {as : AddrSpace} {heap : Region} {f : Frames} (amount p : Int) (before : Loaded as)
      (heap_eq : as.heap = some heap) : Loaded (as.set .heap (sysSbrk amount p heap f).2.2)

/-- Same bounds and break, same bytes behind every mapped page, no common frame. -/
structure PrivateCopy (old : AddrSpace) (mem : Nat → UInt8) (new : AddrSpace)
    (mem' : Nat → UInt8) : Prop where
  bounds : ∀ n, (new.get n).map (fun r => (r.vstart,r.vend,r.numofpages)) =
    (old.get n).map fun r => (r.vstart,r.vend,r.numofpages)
  brk : new.heap.map Region.vendActual = old.heap.map Region.vendActual
  bytes : ∀ fa pa, fa % pageSize = 0 → translatePage old fa = some pa →
    ∃ pa', translatePage new fa = some pa' ∧ ∀ i, i < pageSize → mem' (pa' + i) = mem (pa + i)
  disjoint : ∀ pa, new.Frame pa → ¬ old.Frame pa

/-- No assertion is tripped, and either ENOMEM comes back or a private copy. -/
def CopySpec (old : AddrSpace) (mem : Nat → UInt8) : Except Stop Copied → Prop
  | .error _ => False
  | .ok out => out.result = some .ENOMEM ∨
      out.result = none ∧ ∃ new, out.ret = some new ∧ PrivateCopy old mem new out.mem

variable {old as as' : AddrSpace} {n : RegionName} {c : CopyChance} {r r' : Region} {f f' : Frames}

theorem copyRegion_backing (hr : old.get n = some r) (h : copyRegion old n c = .ok r') :
    r'.pstart = r.pstart ∧ r'.pend = r.pend := by
  unfold copyRegion at h
  rw [hr] at h
  cases hk : c.region n with
  | none => simp [hk] at h
  | some table =>
    cases table with
    | none => simp [hk,copyPagetables,bind,Except.bind] at h
    | some t =>
      simp only [hk,copyPagetables,bind,Except.bind,Except.ok.injEq] at h
      subst h
      exact ⟨rfl,rfl⟩

theorem asPrepareLoad_backed {text : Region} (data heap stack : Region) (h : text.unbacked = false)
    (u : RegionName → Uninit) (f : Frames) :
    asPrepareLoad (.of text data heap stack) u f =
      .error (.panic "as->text->pstart == 0 && as->text->pend == 0") := by
  simp [asPrepareLoad,h]

theorem asCopy_stops (hl : old.loaded = true)
    (hc : c.space = true) (f : Frames) (mem : Nat → UInt8) : ∃ e, asCopy old c f mem = .error e := by
  obtain ⟨text,data,heap,stack,rfl,ht,_⟩ := AddrSpace.loaded_iff.mp hl
  simp only [asCopy,hc,Bool.true_eq_false,if_false,bind,Except.bind]
  cases hd : copyRegion (.of text data heap stack) .data c with
  | error e => exact ⟨e,rfl⟩
  | ok data' =>
  cases htx : copyRegion (.of text data heap stack) .text c with
  | error e => exact ⟨e,rfl⟩
  | ok text' =>
  cases hs : copyRegion (.of text data heap stack) .stack c with
  | error e => exact ⟨e,rfl⟩
  | ok stack' =>
  cases hh : copyRegion (.of text data heap stack) .heap c with
  | error e => exact ⟨e,rfl⟩
  | ok heap' =>
    have hback : text'.unbacked = false := by
      simp [Region.unbacked,(copyRegion_backing rfl htx).1,ht]
    simp only [asPrepareLoad_backed data' heap' stack' hback]
    exact ⟨_,rfl⟩

theorem AddrSpace.loaded_set (h : as.loaded = true)
    (hr : as.get n = some r) (hp : r'.pstart = r.pstart) : (as.set n r').loaded = true := by
  obtain ⟨text,data,heap,stack,rfl,ht,hd,hs⟩ := AddrSpace.loaded_iff.mp h
  rw [AddrSpace.loaded_iff]
  cases n with
  | text =>
    cases hr
    exact ⟨r',data,heap,stack,rfl,hp ▸ ht,hd,hs⟩
  | data =>
    cases hr
    exact ⟨text,r',heap,stack,rfl,ht,hp ▸ hd,hs⟩
  | heap => exact ⟨text,data,r',stack,rfl,ht,hd,hs⟩
  | stack =>
    cases hr
    exact ⟨text,data,heap,r',rfl,ht,hd,hp ▸ hs⟩

theorem vmFault_loaded {ft : FaultType} {addr : Nat} {c : Chance} {m m' : Mmu}
    {e : Option Errno} (hl : as.loaded = true)
    (h : vmFault ft addr (some as) c m = .ok (e,some as',m')) : as'.loaded = true := by
  rcases vmFault_fault h with ⟨-,ha,-⟩ | ⟨text,data,heap,stack,a,rfl,ha,hplace,hf⟩
  · cases ha
    exact hl
  · cases ha
    rcases hf.space hplace with ⟨rfl,-⟩ | ⟨n,r,i,p,-,hr,-,-,rfl⟩
    · exact hl
    · exact AddrSpace.loaded_set hl hr rfl

theorem loadRegion_pstart {u : Uninit} (h : loadRegion r u f = (none,r',f')) : r'.pstart ≠ 0 := by
  simp only [loadRegion] at h
  split at h
  · cases h
  · rename_i hp
    cases h
    exact hp

theorem asPrepareLoad_ok {u : RegionName → Uninit}
    (h : asPrepareLoad as u f = .ok (none,as',f')) :
    ∃ text data heap stack text' data' stack' ft fd, as = .of text data heap stack ∧
      loadRegion text (u .text) f = (none,text',ft) ∧
      loadRegion data (u .data) ft = (none,data',fd) ∧
      loadRegion stack (u .stack) fd = (none,stack',f') ∧ as' = .of text' data' heap stack' := by
  obtain ⟨text?,data?,heap?,stack?⟩ := as
  unfold asPrepareLoad at h
  split at h
  · next text data heap stack ht hd hh hs =>
    cases ht; cases hd; cases hh; cases hs
    split_ifs at h
    rcases ht : loadRegion text (u .text) f with ⟨et,text',ft⟩
    rcases hd : loadRegion data (u .data) ft with ⟨ed,data',fd⟩
    rcases hs : loadRegion stack (u .stack) fd with ⟨es,stack',fs⟩
    cases et with
    | some e => simp [ht] at h
    | none =>
    cases ed with
    | some e => simp [ht,hd] at h
    | none =>
      simp only [ht,hd,hs,Option.isSome_none,Bool.false_eq_true,if_false,Except.ok.injEq,
        Prod.mk.injEq] at h
      obtain ⟨rfl,rfl,rfl⟩ := h
      exact ⟨text,data,heap,stack,text',data',stack',ft,fd,rfl,ht,hd,hs,rfl⟩
  · cases h

theorem asPrepareLoad_loaded {u : RegionName → Uninit}
    (h : asPrepareLoad as u f = .ok (none,as',f')) : as'.loaded = true := by
  obtain ⟨_,_,heap,_,text',data',stack',_,_,-,ht,hd,hs,rfl⟩ := asPrepareLoad_ok h
  rw [AddrSpace.loaded_iff]
  exact ⟨text',data',heap,stack',rfl,loadRegion_pstart ht,loadRegion_pstart hd,
    loadRegion_pstart hs⟩

theorem Loaded.loaded (h : Loaded as) : as.loaded = true := by
  induction h with
  | load _ _ prepare => exact asPrepareLoad_loaded prepare
  | fault _ hf ih => exact vmFault_loaded ih hf
  | sbrk amount p _ heq ih =>
    obtain ⟨brk,hbrk,-⟩ := sysSbrk_brk amount p _ _
    rw [hbrk]
    exact AddrSpace.loaded_set (n := .heap) ih heq rfl

/-- as_copy meets its contract exactly when it cannot even get the structure. -/
theorem asCopy_spec_iff {old : AddrSpace} (h : Loaded old) (c : CopyChance) (f : Frames)
    (mem : Nat → UInt8) : CopySpec old mem (asCopy old c f mem) ↔ c.space = false := by
  constructor
  · intro hspec
    cases hc : c.space with
    | false => rfl
    | true =>
      obtain ⟨e,he⟩ := asCopy_stops h.loaded hc f mem
      rw [he] at hspec
      exact hspec.elim
  · intro hc
    simp only [asCopy,hc,if_true]
    exact .inl rfl

/-- One page of text at 0x400000 and one of data at 0x10000000, loaded on a
machine of 64 pages. -/
theorem loaded_exists : ∃ old, Loaded old :=
  ⟨_,.load (u := fun _ => zeroed) (f := vmBootstrap smallMemory)
    (rfl : asDefineRegion asCreate 0x400000 4096 = _) (rfl : asDefineRegion _ 0x10000000 4096 = _) rfl⟩

theorem asCopy_without_heap : ∃ old, Loaded old ∧ CopySpec old (fun _ => 0) (asCopy old
    ⟨false,fun _ => none,fun _ => 0,fun _ => zeroed⟩ smallBooted fun _ => 0) := by
  obtain ⟨old,h⟩ := loaded_exists
  exact ⟨old,h,(asCopy_spec_iff h _ _ _).mpr rfl⟩

def roomyHeap : CopyChance := ⟨true,fun _ => some (some emptyPagetable),fun _ => 0,fun _ => zeroed⟩

/-- as_prepare_load stops on the backing that was copied. -/
theorem asCopy_trips_assertion : ∃ old, Loaded old ∧
    asCopy old roomyHeap smallBooted (fun _ => 0) =
      .error (.panic "as->text->pstart == 0 && as->text->pend == 0") ∧
    ¬ CopySpec old (fun _ => 0) (asCopy old roomyHeap smallBooted fun _ => 0) := by
  obtain ⟨old,h⟩ := loaded_exists
  obtain ⟨text,data,heap,stack,rfl,ht,_⟩ := AddrSpace.loaded_iff.mp h.loaded
  have hback : Region.unbacked { text with vendActual := 0 } = false := by
    simp [Region.unbacked,ht]
  have hstop := asPrepareLoad_backed { data with vendActual := 0 } heap
    { stack with vendActual := 0 } hback (fun _ => zeroed) smallBooted
  have hcopy : asCopy (.of text data heap stack) roomyHeap
      smallBooted (fun _ => 0) =
      .error (.panic "as->text->pstart == 0 && as->text->pend == 0") := by
    change (asPrepareLoad ⟨some { text with vendActual := 0 },some { data with vendActual := 0 },
      some heap,some { stack with vendActual := 0 }⟩ (fun _ => zeroed)
      smallBooted).bind _ = _
    rw [hstop]
    rfl
  exact ⟨_,h,hcopy,by rw [hcopy]; exact id⟩

/-- The frame that a page of the region belongs in: that of its page-table entry, or else the one
at its place in the contiguous run. -/
def Region.frameOf (r : Region) (page : Nat) : Nat :=
  match r.pteFor page with
  | some e => pageOf (toU32 ((page : Int) - e.vstart + e.pstart))
  | none => pageOf (runPaddr r page)

def regionAt (text data heap stack : Region) (page : Nat) : Option RegionName :=
  if text.vstart ≤ page ∧ page < text.vend then some .text
  else if data.vstart ≤ page ∧ page < data.vend then some .data
  else if stack.vstart ≤ page ∧ page < stack.vend then some .stack
  else if heap.vstart ≤ page ∧ page < heap.vend then some .heap
  else if stackOdVstart ≤ page ∧ page < stack.vend then some .stack
  else if heap.vstart ≤ page ∧ page < heap.vendActual then some .heap
  else none

def AddrSpace.regionAt (as : AddrSpace) (page : Nat) : Option RegionName :=
  match as.text,as.data,as.heap,as.stack with
  | some text,some data,some heap,some stack => Vm.regionAt text data heap stack page
  | _,_,_,_ => none

/-- The TLB entry translates as the address space does. -/
def AddrSpace.Maps (as : AddrSpace) (t : TlbEntry) : Prop :=
  ∃ n r, as.regionAt t.vpage = some n ∧ as.get n = some r ∧ t.ppage = r.frameOf t.vpage

section Tables

variable {fa i k : Nat} {es : List Pte} {e d : Pte}

theorem covers_free (h : e.allocated = false) : Pte.covers fa e = false := by
  simp [Pte.covers,h]

theorem find?_set_covers (hd : es[i]? = some d) (hfree : d.allocated = false)
    (hc : Pte.covers fa e = false) :
    (es.set i e).find? (Pte.covers fa) = es.find? (Pte.covers fa) := by
  induction es generalizing i with
  | nil => cases hd
  | cons x es ih =>
    cases i with
    | zero =>
      cases hd
      rw [List.set_cons_zero,List.find?_cons_of_neg (by simp [hc]),
        List.find?_cons_of_neg (by simp [covers_free hfree])]
    | succ i =>
      rw [List.set_cons_succ,List.find?_cons,List.find?_cons,ih hd]

end Tables

section Spaces

variable {fa : Nat} {as as' : AddrSpace} {n : RegionName} {r : Region} {f f' : Frames}

theorem newPte_covers_ne {page : Nat} (pa pend : Nat) (hfa : fa % pageSize = 0)
    (hp : page % pageSize = 0) (hne : page ≠ fa) : Pte.covers page (newPte fa pa pend) = false := by
  rw [← Bool.not_eq_true,covers_iff]
  rintro ⟨-,hge,hlt⟩
  have hle : page < fa + pageSize := Nat.lt_of_lt_of_le hlt (Nat.mod_le _ _)
  simp only [newPte,pageSize] at hge hle hfa hp
  omega

/-- What a page table of an address space can look like: no address in it is at the very end of
memory, and the contiguous runs of stack and heap have no entries in theirs. -/
structure Tidy (as : AddrSpace) : Prop where
  ends : ∀ n r, n = .text ∨ n = .data → as.get n = some r → r.vend % pageSize = 0 ∧ r.vend < 2^32
  stack : ∀ r, as.stack = some r → r.vend ≤ userStack
  brk : ∀ r, as.heap = some r → r.vendActual ≤ r.vstart ∨ r.vendActual ≤ stackOdVstart
  noPte : ∀ n r, n = .stack ∨ n = .heap → as.get n = some r → ∀ page, page % pageSize = 0 →
    r.vstart ≤ page → page < r.vend → r.pteFor page = none

def Region.shape (r : Region) : Nat × Nat × Nat × List Pte :=
  (r.vstart,r.vend,r.vendActual,r.pagetable)

theorem region_of_shape (hs : ∀ n, (as'.get n).map Region.shape = (as.get n).map Region.shape)
    (hr : as'.get n = some r) : ∃ q, as.get n = some q ∧ q.vstart = r.vstart ∧
      q.vend = r.vend ∧ q.vendActual = r.vendActual ∧ q.pagetable = r.pagetable := by
  have hn := hs n
  rw [hr] at hn
  obtain ⟨q,hq,he⟩ := Option.map_eq_some_iff.mp hn.symm
  simp only [Region.shape,Prod.mk.injEq] at he
  exact ⟨q,hq,he⟩

theorem Tidy.congr (h : Tidy as)
    (hs : ∀ n, (as'.get n).map Region.shape = (as.get n).map Region.shape) : Tidy as' := by
  refine ⟨fun n r hn hr => ?_,fun r hr => ?_,fun r hr => ?_,fun n r hn hr page hp hge hlt => ?_⟩
  · obtain ⟨q,hq,_,hend,_⟩ := region_of_shape hs hr
    exact hend ▸ h.ends n q hn hq
  · obtain ⟨q,hq,_,hend,_⟩ := region_of_shape (n := .stack) hs hr
    exact hend ▸ h.stack q hq
  · obtain ⟨q,hq,hst,_,hact,_⟩ := region_of_shape (n := .heap) hs hr
    exact hst ▸ hact ▸ h.brk q hq
  · obtain ⟨q,hq,hst,hend,_,htab⟩ := region_of_shape hs hr
    have hnone := h.noPte n q hn hq page hp (hst ▸ hge) (hend ▸ hlt)
    rwa [Region.pteFor,htab] at hnone

theorem Tidy.setPte (h : Tidy as) {i : Nat}
    {d : Pte} (hr : as.get n = some r) (hd : r.pagetable[i]? = some d) (hfree : d.allocated = false)
    (hfa : fa % pageSize = 0)
    (hout : n = .stack ∨ n = .heap → ¬ (r.vstart ≤ fa ∧ fa < r.vend)) (pa pend : Nat) :
    Tidy (as.set n (r.setPte i (newPte fa pa pend))) := by
  have hback : ∀ m q, (as.set n (r.setPte i (newPte fa pa pend))).get m = some q →
      m = n ∧ q = r.setPte i (newPte fa pa pend) ∨ as.get m = some q := by
    intro m q hq
    by_cases hm : m = n
    · subst hm
      rw [AddrSpace.get_set_self] at hq
      exact .inl ⟨rfl,(Option.some.inj hq).symm⟩
    · rw [AddrSpace.get_set_of_ne _ _ hm] at hq
      exact .inr hq
  refine ⟨fun m q hm hq => ?_,fun q hq => ?_,fun q hq => ?_,fun m q hm hq page hp hge hlt => ?_⟩
  · rcases hback m q hq with ⟨rfl,rfl⟩ | hq
    · exact h.ends m r hm hr
    · exact h.ends m q hm hq
  · rcases hback .stack q hq with ⟨rfl,rfl⟩ | hq
    · exact h.stack r hr
    · exact h.stack q hq
  · rcases hback .heap q hq with ⟨rfl,rfl⟩ | hq
    · exact h.brk r hr
    · exact h.brk q hq
  · rcases hback m q hq with ⟨rfl,rfl⟩ | hq
    · have hne : page ≠ fa := fun he => hout hm (he ▸ ⟨hge,hlt⟩)
      have hcov := newPte_covers_ne pa pend hfa hp hne
      exact (find?_set_covers hd hfree hcov).trans (h.noPte m r hm hr page hp hge hlt)
    · exact h.noPte m q hm hq page hp hge hlt

theorem asDefineRegion_tidy {vtext sztext vdata szdata : Nat} {a b : AddrSpace}
    (ht : asDefineRegion asCreate vtext sztext = .ok a)
    (hd : asDefineRegion a vdata szdata = .ok b) : Tidy b := by
  have hempty : ∀ page, emptyPagetable.find? (Pte.covers page) = none := by
    intro page
    rw [List.find?_eq_none]
    intro e he
    simp [covers_free (emptyPagetable_free e he)]
  have hend : ∀ v sz : Nat, (pageOf v + pageOf sz) % 2^32 % pageSize = 0 ∧
      (pageOf v + pageOf sz) % 2^32 < 2^32 := by
    intro v sz
    simp only [pageOf,pageSize]
    omega
  cases ht
  cases hd
  refine ⟨fun n r hn hr => ?_,fun r hr => ?_,fun r hr => ?_,fun n r hn hr page _ _ _ => ?_⟩
  · rcases hn with rfl | rfl
    · cases hr
      exact hend _ _
    · cases hr
      exact hend _ _
  · cases hr
    exact Nat.le_refl _
  · obtain rfl := Option.some.inj hr
    exact .inl (Nat.le_refl _)
  · rcases hn with rfl | rfl
    · obtain rfl := Option.some.inj hr
      exact hempty page
    · obtain rfl := Option.some.inj hr
      exact hempty page

theorem loadRegion_shape {r' : Region} {u : Uninit} {e : Option Errno}
    (h : loadRegion r u f = (e,r',f')) : r'.shape = r.shape := by
  simp only [loadRegion] at h
  split at h
  · cases h
    rfl
  · cases h
    rfl

theorem asPrepareLoad_shape {u : RegionName → Uninit}
    (h : asPrepareLoad as u f = .ok (none,as',f')) (n : RegionName) :
    (as'.get n).map Region.shape = (as.get n).map Region.shape := by
  obtain ⟨_,_,_,_,_,_,_,_,_,rfl,ht,hd,hs,rfl⟩ := asPrepareLoad_ok h
  cases n with
  | text => simp [AddrSpace.get,loadRegion_shape ht]
  | data => simp [AddrSpace.get,loadRegion_shape hd]
  | heap => rfl
  | stack => simp [AddrSpace.get,loadRegion_shape hs]

theorem Tidy.sbrk (h : Tidy as) {heap : Region} (hh : as.heap = some heap)
    (amount p : Int) (f : Frames) : Tidy (as.set .heap (sysSbrk amount p heap f).2.2) := by
  obtain ⟨brk,hbrk,hle⟩ := sysSbrk_brk amount p heap f
  rw [hbrk]
  refine ⟨fun n r hn hr => ?_,fun r hr => h.stack r hr,fun r hr => ?_,
    fun n r hn hr page hp hge hlt => ?_⟩
  · rcases hn with rfl | rfl
    · exact h.ends .text r (.inl rfl) hr
    · exact h.ends .data r (.inr rfl) hr
  · cases hr
    rcases hle with rfl | hle
    · exact h.brk heap hh
    · exact .inr hle
  · rcases hn with rfl | rfl
    · exact h.noPte .stack r (.inl rfl) hr page hp hge hlt
    · cases hr
      exact h.noPte .heap heap (.inr rfl) hh page hp hge hlt

end Spaces

section Faults

variable {as : AddrSpace} {fa spl : Nat} {c : Chance} {m m' : Mmu}

def Place.At (as : AddrSpace) (fa : Nat) : Place → Prop
  | .tableThenRun n r => as.get n = some r ∧ as.regionAt fa = some n ∧ fa + pageSize < 2^32 ∧
      (n = .text ∨ n = .data)
  | .run r => ∃ n, as.get n = some r ∧ as.regionAt fa = some n ∧ r.pteFor fa = none
  | .tableOnly n r => as.get n = some r ∧ as.regionAt fa = some n ∧ fa + pageSize < 2^32 ∧
      ¬ (r.vstart ≤ fa ∧ fa < r.vend)
  | .nowhere => True

theorem placeOf_at {text data heap stack : Region}
    (h : Tidy (.of text data heap stack)) (hfa : fa % pageSize = 0) :
    (placeOf text data heap stack fa).At (.of text data heap stack) fa := by
  have hend : ∀ r : Region, r.vend % pageSize = 0 ∧ r.vend < 2^32 → fa < r.vend →
      fa + pageSize < 2^32 := by
    intro r hr hlt
    simp only [pageSize] at hr hfa ⊢
    omega
  have hstack := h.stack stack rfl
  have hbrk := h.brk heap rfl
  have hsz : fa + pageSize < 2^32 ∨ userStack ≤ fa := by
    simp only [pageSize,userStack]
    omega
  unfold placeOf
  split
  · next hin =>
    exact ⟨rfl,by simp only [AddrSpace.regionAt,regionAt,if_pos hin],
      hend text (h.ends .text text (.inl rfl) rfl) hin.2,.inl rfl⟩
  next hnt =>
  split
  · next hin =>
    exact ⟨rfl,by simp only [AddrSpace.regionAt,regionAt,if_neg hnt,if_pos hin],
      hend data (h.ends .data data (.inr rfl) rfl) hin.2,.inr rfl⟩
  next hnd =>
  split
  · next hin =>
    exact ⟨.stack,rfl,by simp only [AddrSpace.regionAt,regionAt,if_neg hnt,if_neg hnd,if_pos hin],
      h.noPte .stack stack (.inl rfl) rfl fa hfa hin.1 hin.2⟩
  next hns =>
  split
  · next hin =>
    refine ⟨.heap,rfl,?_,h.noPte .heap heap (.inr rfl) rfl fa hfa hin.1 hin.2⟩
    simp only [AddrSpace.regionAt,regionAt,if_neg hnt,if_neg hnd,if_neg hns,if_pos hin]
  next hnh =>
  split
  · next hin =>
    refine ⟨rfl,?_,hsz.resolve_right (by omega),hns⟩
    simp only [AddrSpace.regionAt,regionAt,if_neg hnt,if_neg hnd,if_neg hns,if_neg hnh,if_pos hin]
  next hno =>
  split
  · next hin =>
    have hlow : stackOdVstart ≤ userStack := by decide
    refine ⟨rfl,?_,hsz.resolve_right (by omega),hnh⟩
    simp only [AddrSpace.regionAt,regionAt,if_neg hnt,if_neg hnd,if_neg hns,if_neg hnh,if_neg hno,
      if_pos hin]
  · exact trivial

variable {tlb tlb' : List TlbEntry} {ret : Int} {r r' : Region} {n : RegionName} {e : Option Errno}
  {as' : AddrSpace}

/-- A page table is as before or has one entry more, for the page. -/
def NewEntry (r : Region) (fa : Nat) (r' : Region) : Prop :=
  ∃ i d pa pend, r.pagetable[i]? = some d ∧ d.allocated = false ∧
    r' = r.setPte i (newPte fa pa pend)

theorem regionAt_setPte (hr : as.get n = some r) (i : Nat) (e : Pte)
    (page : Nat) : (as.set n (r.setPte i e)).regionAt page = as.regionAt page := by
  obtain ⟨text,data,heap,stack⟩ := as
  cases n with
  | text =>
    cases hr
    cases data <;> cases heap <;> cases stack <;> rfl
  | data =>
    cases hr
    cases text <;> cases heap <;> cases stack <;> rfl
  | heap =>
    cases hr
    cases text <;> cases data <;> cases stack <;> rfl
  | stack =>
    cases hr
    cases text <;> cases data <;> cases heap <;> rfl

/-- What vm_fault does for an address space: a page table may get an entry for the page, and the
page is entered in the TLB unless that is full. -/
structure Faulted (as : AddrSpace) (tlb : List TlbEntry) (fa : Nat) (c : Chance)
    (e : Option Errno) (as' : AddrSpace) (tlb' : List TlbEntry) : Prop where
  space : as' = as ∨ ∃ n r r', as.get n = some r ∧ NewEntry r fa r' ∧ as' = as.set n r' ∧
    (n = .stack ∨ n = .heap → ¬ (r.vstart ≤ fa ∧ fa < r.vend))
  tlb : (∃ t, t.vpage = fa ∧ t.valid = true ∧ as'.Maps t ∧ Installs tlb t tlb') ∨
    tlb' = tlb ∧ (e = none → Full tlb ∧ (c.tlbReturn = 1 ∨ c.runReturn = 1))

theorem Place.At.table {place : Place} (h : place.At as fa) (hpl : place.Table n r) :
    as.get n = some r ∧ as.regionAt fa = some n ∧ fa + pageSize < 2^32 ∧
      (n = .stack ∨ n = .heap → ¬ (r.vstart ≤ fa ∧ fa < r.vend)) := by
  rcases hpl with rfl | rfl
  · obtain ⟨hr,hat,hend,hn⟩ := h
    refine ⟨hr,hat,hend,?_⟩
    rcases hn with rfl | rfl <;> simp
  · exact ⟨h.1,h.2.1,h.2.2.1,fun _ => h.2.2.2⟩

theorem Place.At.run {place : Place} (h : place.At as fa) (hpl : place.Run fa r) :
    ∃ n, as.get n = some r ∧ as.regionAt fa = some n ∧ r.pteFor fa = none := by
  rcases hpl with rfl | ⟨n,rfl,hs⟩
  · exact h
  · exact ⟨n,h.1,h.2.1,searchPagetable_full_find? hs⟩

theorem TableStep.newEntry {u : Uninit} {f f' : Frames} (h : TableStep fa u r f r' f') :
    r' = r ∨ NewEntry r fa r' := by
  rcases h with ⟨rfl,-⟩ | ⟨i,p,hs,-,rfl⟩
  · exact .inl rfl
  · obtain ⟨d,hd,hfree⟩ := searchPagetable_missing hs
    exact .inr ⟨i,d,p,_,hd,hfree,rfl⟩

theorem Fault.faulted {place : Place} (h : Fault as fa c m place e as' m') (hp : place.At as fa) :
    Faulted as m.tlb fa c e as' m'.tlb := by
  obtain ⟨-,⟨n,r,r',hpl,rfl,hacc,htlb⟩ | ⟨rfl,-,htlb⟩⟩ := h
  · obtain ⟨hr,hat,hend,hout⟩ := hp.table hpl
    constructor
    · rcases hacc.newEntry with rfl | hnew
      · exact .inl (AddrSpace.set_get_self hr)
      · exact .inr ⟨n,r,r',hr,hnew,rfl,hout⟩
    · refine htlb.imp_left ?_
      rintro ⟨pa,⟨pte,-,-,-,-,rfl,hpte⟩,hi⟩
      refine ⟨_,rfl,rfl,⟨n,r',?_,AddrSpace.get_set_self as n r',?_⟩,hi⟩
      · rcases hacc with ⟨rfl,-⟩ | ⟨i,p,-,-,rfl⟩
        · rwa [AddrSpace.set_get_self hr]
        · rwa [regionAt_setPte hr]
      · rw [Region.frameOf,hpte hend]
  · refine ⟨.inl rfl,htlb.imp_left ?_⟩
    rintro ⟨r,hpl,hi⟩
    obtain ⟨n,hr,hat,hnone⟩ := hp.run hpl
    exact ⟨_,rfl,rfl,⟨n,r,hat,hr,by rw [Region.frameOf,hnone]⟩,hi⟩

theorem vmFault_faulted {ft : FaultType} {addr : Nat} {as' : Option AddrSpace}
    (ht : Tidy as) (h : vmFault ft addr (some as) c m = .ok (e,as',m')) :
    ∃ a, as' = some a ∧ Faulted as m.tlb (pageOf addr) c e a m'.tlb := by
  rcases vmFault_fault h with ⟨rfl,rfl,rfl⟩ | ⟨text,data,heap,stack,a,rfl,rfl,-,hf⟩
  · exact ⟨as,rfl,.inl rfl,.inr ⟨rfl,by simp⟩⟩
  · exact ⟨a,rfl,hf.faulted (placeOf_at ht (pageOf_aligned addr))⟩

theorem Faulted.tidy
    (h : Faulted as tlb fa c e as' tlb') (hfa : fa % pageSize = 0) (ht : Tidy as) : Tidy as' := by
  rcases h.space with rfl | ⟨n,r,r',hr,⟨i,d,pa,pend,hd,hfree,rfl⟩,rfl,hout⟩
  · exact ht
  · exact ht.setPte hr hd hfree hfa hout pa pend

end Faults

theorem Loaded.tidy {as : AddrSpace} (h : Loaded as) : Tidy as := by
  induction h with
  | load text data prepare =>
    exact (asDefineRegion_tidy text data).congr (asPrepareLoad_shape prepare)
  | fault _ hf ih =>
    obtain ⟨a,ha,hfault⟩ := vmFault_faulted ih hf
    cases ha
    exact hfault.tidy (pageOf_aligned _) ih
  | sbrk amount p _ heq ih => exact ih.sbrk heq amount p _

end MipsOs.Vm
