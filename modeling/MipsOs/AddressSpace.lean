import MipsOs.Coremap

/-! Address spaces, page tables and the TLB: the rest of kern/vm/addrspace.c.
Pointers to regions are options. A TLB entry is kept by its fields (tlb.h)
rather than as two packed words. -/

set_option autoImplicit false
namespace MipsOs.Vm

def pagetableSize : Nat := 512
def numTlb : Nat := 64
def userStack : Nat := 0x80000000
def dumbvmStackpages : Nat := 24

def stackOdVstart : Nat := userStack - pageSize * pagetableSize

def pageOf (a : Nat) : Nat := a - a % pageSize

structure Pte where
  allocated : Bool
  vstart : Nat
  vend : Nat
  pstart : Nat
  pend : Nat
  deriving DecidableEq, Repr

structure Region where
  vstart : Nat
  vend : Nat
  numofpages : Nat
  pstart : Nat
  pend : Nat
  pagetable : List Pte
  vendActual : Nat
  deriving DecidableEq, Repr

inductive RegionName where
  | text | data | heap | stack
  deriving DecidableEq, Repr

structure AddrSpace where
  text : Option Region
  data : Option Region
  heap : Option Region
  stack : Option Region
  deriving DecidableEq, Repr

abbrev AddrSpace.of (text data heap stack : Region) : AddrSpace :=
  ⟨some text,some data,some heap,some stack⟩

def AddrSpace.get (as : AddrSpace) : RegionName → Option Region
  | .text => as.text
  | .data => as.data
  | .heap => as.heap
  | .stack => as.stack

def AddrSpace.set (as : AddrSpace) (n : RegionName) (r : Region) : AddrSpace :=
  match n with
  | .text => { as with text := some r }
  | .data => { as with data := some r }
  | .heap => { as with heap := some r }
  | .stack => { as with stack := some r }

structure TlbEntry where
  vpage : Nat
  ppage : Nat
  dirty : Bool
  valid : Bool
  deriving DecidableEq, Repr

structure Mmu where
  frames : Frames
  tlb : List TlbEntry
  curspl : Nat

def splHigh : Nat := 15

/-- What a path that leaves defined behaviour finds: the locals of getppages and
the values of write_into_TLB when it runs off its end, for the call in
access_pagetable and for the one at the end of vm_fault. -/
structure Chance where
  frames : Uninit
  tlbReturn : Int
  runReturn : Int

inductive Stop where
  | panic (msg : String)
  | nullPointer
  | wildPointer
  deriving DecidableEq, Repr

def asCreate : AddrSpace := ⟨none,none,none,none⟩

/-- Every slot is filled with the pair TLBHI_INVALID(i), TLBLO_INVALID(). -/
def asActivate (m : Mmu) : Mmu :=
  { m with tlb := (List.range numTlb).map fun i => ⟨(0x80000+i)*pageSize,0,false,false⟩ }

def emptyPagetable : List Pte := List.replicate pagetableSize ⟨false,0,0,0,0⟩

/-- as_define_region. The flags are not used by the code. The first call
defines text, the second data, heap and stack; the heap starts one page above
the end of data. -/
def asDefineRegion (as : AddrSpace) (vaddr sz : Nat) : Except Errno AddrSpace :=
  let sz := (sz + vaddr % pageSize) % 2^32
  let vaddr := pageOf vaddr
  let sz := pageOf ((sz + pageSize - 1) % 2^32)
  let npages := sz / pageSize
  let vend := (vaddr + sz) % 2^32
  match as.text,as.data with
  | none,_ => .ok { as with text := some ⟨vaddr,vend,npages,0,0,emptyPagetable,0⟩ }
  | some _,none =>
    let heapStart := roundUp vend pageSize
    .ok { as with
      data := some ⟨vaddr,vend,npages,0,0,emptyPagetable,0⟩
      heap := some ⟨heapStart,heapStart,0,0,0,emptyPagetable,heapStart⟩
      stack := some ⟨userStack - dumbvmStackpages * pageSize,userStack,dumbvmStackpages,
        0,0,emptyPagetable,0⟩ }
  | some _,some _ => .error .EUNIMP

/-- Frames for one region, as as_prepare_load takes them for text, data and
stack. The end is only recorded when getppages did not return 0. -/
def loadRegion (r : Region) (u : Uninit) (f : Frames) : Option Errno × Region × Frames :=
  let (pa,f) := getppages r.numofpages u f
  if pa = 0 then (some .ENOMEM,{ r with pstart := 0 },f)
  else (none,{ r with pstart := pa, pend := (pa + r.numofpages * pageSize) % 2^32 },f)

def Region.unbacked (r : Region) : Bool := r.pstart == 0 && r.pend == 0

def asPrepareLoad (as : AddrSpace) (u : RegionName → Uninit) (f : Frames) :
    Except Stop (Option Errno × AddrSpace × Frames) :=
  match as.text,as.data,as.heap,as.stack with
  | some text,some data,some heap,some stack =>
    if !text.unbacked then .error (.panic "as->text->pstart == 0 && as->text->pend == 0")
    else if !data.unbacked then .error (.panic "as->data->pstart == 0 && as->data->pend == 0")
    else if !heap.unbacked then .error (.panic "as->heap->pstart == 0 && as->heap->pend == 0")
    else if !stack.unbacked then .error (.panic "as->stack->pstart == 0 && as->stack->pend == 0")
    else
      let (e,text,f) := loadRegion text (u .text) f
      let as := { as with text := some text }
      if e.isSome then .ok (e,as,f)
      else
        let (e,data,f) := loadRegion data (u .data) f
        let as := { as with data := some data }
        if e.isSome then .ok (e,as,f)
        else
          let (e,stack,f) := loadRegion stack (u .stack) f
          .ok (e,{ as with stack := some stack },f)
  | _,_,_,_ => .error .nullPointer

/-- The first slot whose valid bit is off is filled; with all of them valid the
function has no return statement. -/
def writeIntoTLB (faultaddress paddr spl : Nat) (c : Chance) (m : Mmu) : Int × Mmu :=
  match m.tlb.findIdx? fun e => !e.valid with
  | some i =>
    (1,{ m with tlb := m.tlb.set i ⟨pageOf faultaddress,pageOf paddr,true,true⟩, curspl := spl })
  | none => (c.tlbReturn,m)

inductive Search where
  | missing (i : Nat)
  | found (e : Pte)
  | full
  deriving DecidableEq, Repr

def searchPagetable (faultaddress : Nat) : List Pte → Nat → Search
  | [], _ => .full
  | e :: es, i =>
    if e.allocated = false then .missing i
    else if e.vstart ≤ faultaddress ∧ faultaddress < e.vend then .found e
    else searchPagetable faultaddress es (i+1)

def accessPagetable (r : Region) (faultaddress spl : Nat) (c : Chance) (m : Mmu) :
    Int × Region × Mmu :=
  match searchPagetable faultaddress r.pagetable 0 with
  | .found e =>
    let paddr := toU32 ((faultaddress : Int) - e.vstart + e.pstart)
    let (ret,m) := writeIntoTLB faultaddress paddr spl c m
    (if ret = 1 then 1 else 0,r,m)
  | .missing i =>
    let newVstart := roundDown faultaddress pageSize
    let newVend := (newVstart + pageSize) % 2^32
    let (newPstart,f) := getppages 1 c.frames m.frames
    let newPend := (newPstart + pageSize) % 2^32
    let r := { r with
      pagetable := r.pagetable.set i ⟨true,newVstart,newVend,newPstart,newPend⟩ }
    let paddr := toU32 ((faultaddress : Int) - newVstart + newPstart)
    let (ret,m) := writeIntoTLB faultaddress paddr spl c { m with frames := f }
    (if ret = 1 then 1 else 0,r,m)
  | .full => (0,r,m)

/-- The branch of vm_fault that a page-aligned address takes. Text and data go
through the page table and fall back on the contiguous run; the on-demand stack
area and the heap below its break have a page table only. -/
inductive Place where
  | tableThenRun (n : RegionName) (r : Region)
  | run (r : Region)
  | tableOnly (n : RegionName) (r : Region)
  | nowhere

def placeOf (text data heap stack : Region) (faultaddress : Nat) : Place :=
  if text.vstart ≤ faultaddress ∧ faultaddress < text.vend then .tableThenRun .text text
  else if data.vstart ≤ faultaddress ∧ faultaddress < data.vend then .tableThenRun .data data
  else if stack.vstart ≤ faultaddress ∧ faultaddress < stack.vend then .run stack
  else if heap.vstart ≤ faultaddress ∧ faultaddress < heap.vend then .run heap
  else if stackOdVstart ≤ faultaddress ∧ faultaddress < stack.vend then .tableOnly .stack stack
  else if heap.vstart ≤ faultaddress ∧ faultaddress < heap.vendActual then .tableOnly .heap heap
  else .nowhere

def runPaddr (r : Region) (faultaddress : Nat) : Nat :=
  toU32 ((faultaddress : Int) - r.vstart + r.pstart)

inductive FaultType where
  | read | write | readonly | other (code : Nat)
  deriving DecidableEq, Repr

/-- The tail of vm_fault that installs the page of a region's contiguous run. -/
def faultViaRun (r : Region) (faultaddress spl : Nat) (c : Chance) (m : Mmu) :
    Option Errno × Mmu :=
  let c := { c with tlbReturn := c.runReturn }
  let (ret,m) := writeIntoTLB faultaddress (runPaddr r faultaddress) spl c m
  if ret = 1 then (none,m) else (some .EFAULT,{ m with curspl := spl })

def faultAt (as : AddrSpace) (faultaddress spl : Nat) (c : Chance) (m : Mmu) :
    Place → Option Errno × AddrSpace × Mmu
  | .tableThenRun n r =>
    let (ret,r',m) := accessPagetable r faultaddress spl c m
    if ret = 1 then (none,as.set n r',{ m with curspl := spl })
    else
      let (e,m) := faultViaRun r faultaddress spl c m
      (e,as.set n r',m)
  | .run r =>
    let (e,m) := faultViaRun r faultaddress spl c m
    (e,as,m)
  | .tableOnly n r =>
    let (ret,r',m) := accessPagetable r faultaddress spl c m
    (if ret = 1 then none else some .EFAULT,as.set n r',{ m with curspl := spl })
  | .nowhere => (some .EFAULT,as,{ m with curspl := spl })

/-- vm_fault for the address space `as` of the current thread. The early return
for a thread without address space leaves the interrupt level raised. -/
def vmFault (ft : FaultType) (addr : Nat) (as : Option AddrSpace) (c : Chance) (m : Mmu) :
    Except Stop (Option Errno × Option AddrSpace × Mmu) :=
  let spl := m.curspl
  let m := { m with curspl := splHigh }
  let faultaddress := pageOf addr
  match ft with
  | .readonly => .error (.panic "dumbvm: got VM_FAULT_READONLY\n")
  | .other _ => .ok (some .EINVAL,as,{ m with curspl := spl })
  | .read | .write =>
    match as with
    | none => .ok (some .EFAULT,none,m)
    | some a =>
      match a.text,a.data,a.heap,a.stack with
      | some text,some data,some heap,some stack =>
        let (e,a,m) := faultAt a faultaddress spl c m (placeOf text data heap stack faultaddress)
        .ok (e,some a,m)
      | _,_,_,_ => .error .nullPointer

/-- as_destroy: the whole coremap is cleared, then the structure is taken apart.
A region pointer that was never set is dereferenced. -/
def asDestroy (as : AddrSpace) (f : Frames) : Except Stop Frames :=
  match as.text,as.data,as.heap,as.stack with
  | some _,some _,some _,some _ => .ok (freeCoremap f)
  | _,_,_,_ => .error .nullPointer

/-- num_empty_cm counts from the uninitialised value `p`. -/
def numEmptyCm (p : Int) (f : Frames) : Int :=
  p + (f.coremap.filter fun e => !e.allocated).length

/-- sys_sbrk. `p` is the uninitialised counter of num_empty_cm. The comparisons
are unsigned, since vaddr_t is; the last one is signed. The second component is
what is stored through retval, if anything. -/
def sysSbrk (amount p : Int) (heap : Region) (f : Frames) : Option Errno × Option Int × Region :=
  let newBreak := toU32 (heap.vendActual + amount)
  if newBreak < heap.vstart then (some .EINVAL,none,heap)
  else if newBreak > stackOdVstart then (some .ENOMEM,some (-1),heap)
  else if amount > toInt32 (toU32 (numEmptyCm p f * pageSize)) then (some .ENOMEM,some (-1),heap)
  else (none,some (toInt32 heap.vendActual),{ heap with vendActual := newBreak })

def translatePage (as : AddrSpace) (faultaddress : Nat) : Option Nat :=
  match as.text,as.data,as.heap,as.stack with
  | some text,some data,some heap,some stack =>
    match placeOf text data heap stack faultaddress with
    | .tableThenRun _ r =>
      match searchPagetable faultaddress r.pagetable 0 with
      | .found e => some (toU32 ((faultaddress : Int) - e.vstart + e.pstart))
      | .missing _ => none
      | .full => some (runPaddr r faultaddress)
    | .run r => some (runPaddr r faultaddress)
    | .tableOnly _ r =>
      match searchPagetable faultaddress r.pagetable 0 with
      | .found e => some (toU32 ((faultaddress : Int) - e.vstart + e.pstart))
      | _ => none
    | .nowhere => none
  | _,_,_,_ => none

def takesFrame (as : AddrSpace) (faultaddress : Nat) : Bool :=
  match as.text,as.data,as.heap,as.stack with
  | some text,some data,some heap,some stack =>
    match placeOf text data heap stack faultaddress with
    | .tableThenRun _ r | .tableOnly _ r =>
      match searchPagetable faultaddress r.pagetable 0 with
      | .missing _ => true
      | _ => false
    | _ => false
  | _,_,_,_ => false

/-- Every region is there and as_prepare_load has backed the three it backs. -/
def AddrSpace.loaded (as : AddrSpace) : Bool :=
  match as.text,as.data,as.heap,as.stack with
  | some text,some data,some _,some stack =>
    text.pstart != 0 && data.pstart != 0 && stack.pstart != 0
  | _,_,_,_ => false

inductive Slot where
  | whole
  | page (i : Nat)
  deriving DecidableEq, Repr

def Region.runAt (r : Region) : Slot → Option (Nat × Nat)
  | .whole => if r.pstart = 0 then none else some (r.pstart,r.numofpages)
  | .page i => r.pagetable[i]?.bind fun e => if e.allocated then some (e.pstart,1) else none

def Region.Frame (r : Region) (pa : Nat) : Prop :=
  ∃ sl b k j, r.runAt sl = some (b,k) ∧ j < k ∧ pa = b + j * pageSize

def AddrSpace.Frame (as : AddrSpace) (pa : Nat) : Prop :=
  ∃ n r, as.get n = some r ∧ r.Frame pa

structure Pte.Wf (e : Pte) : Prop where
  valigned : e.vstart % pageSize = 0
  onePage : e.vend ≤ e.vstart + pageSize
  paligned : e.pstart % pageSize = 0
  below : e.pstart < 2^32

structure Region.Wf (r : Region) : Prop where
  valigned : r.vstart % pageSize = 0
  covered : r.vend ≤ r.vstart + r.numofpages * pageSize
  paligned : r.pstart % pageSize = 0
  below : r.pstart + r.numofpages * pageSize < 2^32
  ptes : ∀ e ∈ r.pagetable, e.allocated = true → e.Wf

/-- The heap has no contiguous run, and heap and stack come with data. -/
structure AddrSpace.Wf (as : AddrSpace) : Prop where
  regions : ∀ n r, as.get n = some r → r.Wf
  heap : ∀ r, as.heap = some r → r.numofpages = 0
  together : as.data = none → as.heap = none ∧ as.stack = none

@[simp] theorem AddrSpace.get_set_self (as : AddrSpace) (n : RegionName) (r : Region) :
    (as.set n r).get n = some r := by
  cases n <;> rfl

variable {n : RegionName} {as : AddrSpace} {r : Region}

theorem AddrSpace.get_set_of_ne (as : AddrSpace) {m : RegionName} (r : Region) (h : m ≠ n) :
    (as.set n r).get m = as.get m := by
  cases n <;> cases m <;> first | rfl | exact absurd rfl h

theorem AddrSpace.set_get_self (h : as.get n = some r) : as.set n r = as := by
  cases n <;> simp only [AddrSpace.get] at h <;> simp only [AddrSpace.set,← h]

theorem AddrSpace.Wf.set (h : as.Wf) (hr : r.Wf) (hheap : n = .heap → r.numofpages = 0)
    (hdata : as.data = none → n = .text ∨ n = .data) : (as.set n r).Wf where
  regions := by
    intro m q hq
    by_cases hm : m = n
    · subst m
      simp only [AddrSpace.get_set_self,Option.some.injEq] at hq
      exact hq ▸ hr
    · rw [AddrSpace.get_set_of_ne as r hm] at hq
      exact h.regions m q hq
  heap := by
    intro q hq
    have hq' : (as.set n r).get .heap = some q := hq
    by_cases hn : n = .heap
    · subst n
      simp only [AddrSpace.get_set_self,Option.some.injEq] at hq'
      exact hq' ▸ hheap rfl
    · rw [AddrSpace.get_set_of_ne as r (Ne.symm hn)] at hq'
      exact h.heap q hq'
  together := by
    cases n with
    | text => exact h.together
    | data => intro hd; cases hd
    | heap | stack => intro hd; simpa using hdata hd

theorem AddrSpace.Wf.replace (h : as.Wf) {q : Region}
    (hq : as.get n = some q) (hr : r.Wf) (hheap : r.numofpages = q.numofpages) :
    (as.set n r).Wf := by
  refine h.set hr (fun hn => ?_) (fun hd => ?_)
  · subst hn
    rw [hheap]
    exact h.heap q hq
  · have ht := h.together hd
    cases n <;> simp_all [AddrSpace.get]

theorem asCreate_wf : asCreate.Wf where
  regions := by rintro (_ | _ | _ | _) r h <;> simp [asCreate,AddrSpace.get] at h
  heap := by simp [asCreate]
  together := fun _ => ⟨rfl,rfl⟩

theorem emptyPagetable_free : ∀ e ∈ emptyPagetable, e.allocated = false := by
  intro e he
  rw [List.eq_of_mem_replicate he]

theorem Region.Wf.fresh {vstart vend npages : Nat} (brk : Nat) (hv : vstart % pageSize = 0)
    (hend : vend ≤ vstart + npages * pageSize) (hn : npages * pageSize < 2^32) :
    (Region.mk vstart vend npages 0 0 emptyPagetable brk).Wf where
  valigned := hv
  covered := hend
  paligned := rfl
  below := by simpa using hn
  ptes := by
    intro e he ha
    simp [emptyPagetable_free e he] at ha

theorem Region.runAt_fresh (vstart vend npages brk : Nat) (sl : Slot) :
    (Region.mk vstart vend npages 0 0 emptyPagetable brk).runAt sl = none := by
  cases sl with
  | whole => rfl
  | page i =>
    cases he : emptyPagetable[i]? with
    | none => simp [Region.runAt,he]
    | some e => simp [Region.runAt,he,emptyPagetable_free e (List.mem_of_getElem? he)]

end MipsOs.Vm
