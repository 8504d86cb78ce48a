import Mathlib.Data.List.Nodup
import MipsOs.PageTables

/-! The page table of a region as a map from pages to frames: access_pagetable of
kern/vm/addrspace.c along sequences of calls, and free_pagetable. -/

set_option autoImplicit false
namespace MipsOs.Vm

def freePte : Pte := ⟨false,0,0,0,0⟩

def AddrSpace.clearPte (as : AddrSpace) (n : RegionName) (i : Nat) : AddrSpace :=
  match as.get n with
  | some r => as.set n { r with pagetable := r.pagetable.set i freePte }
  | none => as

/-- A loop from index `i` on, with `k` left to go. It stops where the entry of the tested table is
not allocated. -/
def freeLoop (tested cleared : RegionName) : Nat → Nat → AddrSpace → AddrSpace
  | 0, _, as => as
  | k+1, i, as =>
    if ((as.get tested).bind (·.pagetable[i]?)).any Pte.allocated then
      freeLoop tested cleared k (i+1) (as.clearPte cleared i)
    else as

/-- The loops of free_pagetable. The last two test the heap's table as well. -/
def clearTables (as : AddrSpace) : AddrSpace :=
  let as := freeLoop .stack .stack pagetableSize 0 as
  let as := freeLoop .heap .heap pagetableSize 0 as
  let as := freeLoop .heap .text pagetableSize 0 as
  freeLoop .heap .data pagetableSize 0 as

/-- A table whose pointer is NULL is shown as an empty one. -/
def freePagetable (as : AddrSpace) : Except Stop AddrSpace :=
  match as.text,as.data,as.heap,as.stack with
  | some _,some _,some _,some _ =>
    let as := clearTables as
    let drop := Option.map fun r : Region => { r with pagetable := [] }
    .ok ⟨drop as.text,drop as.data,drop as.heap,drop as.stack⟩
  | _,_,_,_ => .error .nullPointer

def AddrSpace.Cleared (as : AddrSpace) : Prop :=
  ∀ n r, as.get n = some r → r.pagetable = emptyPagetable

/-- The entries `used` are allocated, and behind them none is. -/
structure Prefixed (used es : List Pte) : Prop where
  table : es = used ++ List.replicate (pagetableSize - used.length) freePte
  allocated : ∀ e ∈ used, e.allocated = true
  size : used.length ≤ pagetableSize

variable {as : AddrSpace} {n : RegionName} {r text data heap stack : Region}
  {used ut ud uh us : List Pte}

theorem freeLoop_own {k i : Nat} (h : as.get n = some r)
    (ht : r.pagetable = List.replicate i freePte ++ (used ++ List.replicate k freePte))
    (hu : ∀ e ∈ used, e.allocated = true) : freeLoop n n (used.length + k) i as =
      as.set n { r with pagetable := List.replicate (i + (used.length + k)) freePte } := by
  induction used generalizing i as r with
  | nil =>
    have hr : { r with pagetable := List.replicate (i + (0 + k)) freePte } = r := by
      rw [Nat.zero_add,← List.replicate_append_replicate,← List.nil_append (.replicate k _),← ht]
    rw [List.length_nil,hr,AddrSpace.set_get_self h]
    cases k with
    | zero => rfl
    | succ k => simp [freeLoop,h,ht,List.replicate_succ,freePte]
  | cons e used ih =>
    have he : e.allocated = true := hu e List.mem_cons_self
    have hset : r.pagetable.set i freePte =
        List.replicate (i+1) freePte ++ (used ++ List.replicate k freePte) := by
      simp [ht,List.replicate_succ']
    rw [List.length_cons,Nat.add_right_comm,freeLoop,if_pos (by simp [h,ht,he]),AddrSpace.clearPte,h]
    refine (ih (r := { r with pagetable := r.pagetable.set i freePte }) ?_ hset ?_).trans ?_
    · exact AddrSpace.get_set_self _ _ _
    · exact fun e he => hu e (List.mem_cons_of_mem _ he)
    · rw [show i + (used.length + k + 1) = i + 1 + (used.length + k) by omega]
      cases n <;> rfl

theorem Prefixed.freeLoop (hp : Prefixed used r.pagetable) (h : as.get n = some r) :
    Vm.freeLoop n n pagetableSize 0 as = as.set n { r with pagetable := emptyPagetable } := by
  have hsize := hp.size
  have hk : used.length + (pagetableSize - used.length) = pagetableSize := by omega
  have hloop := freeLoop_own (i := 0) h hp.table hp.allocated
  rwa [hk,Nat.zero_add] at hloop

/-- A loop that tests a cleared table does nothing. -/
theorem freeLoop_cleared (cleared n : RegionName) (as : AddrSpace) (r : Region) :
    freeLoop n cleared pagetableSize 0 (as.set n { r with pagetable := emptyPagetable }) =
      as.set n { r with pagetable := emptyPagetable } := by
  refine if_neg fun hany => ?_
  rw [AddrSpace.get_set_self,Option.bind_some] at hany
  obtain ⟨e,he,ha⟩ := some_of_any hany
  rw [emptyPagetable_free e (List.mem_of_getElem? he)] at ha
  cases ha

theorem Prefixed.empty_iff (h : Prefixed used r.pagetable) :
    r.pagetable = emptyPagetable ↔ used = [] := by
  constructor
  · intro hr
    rw [List.eq_nil_iff_forall_not_mem]
    intro e he
    have hmem : e ∈ emptyPagetable := hr ▸ h.table ▸ List.mem_append_left _ he
    cases (emptyPagetable_free e hmem).symm.trans (h.allocated e he)
  · rintro rfl
    exact h.table

theorem clearTables_eq (hh : Prefixed uh heap.pagetable) (hs : Prefixed us stack.pagetable) :
    clearTables (.of text data heap stack) =
      ⟨some text,some data,some { heap with pagetable := emptyPagetable },
        some { stack with pagetable := emptyPagetable }⟩ := by
  have hstack : freeLoop .stack .stack pagetableSize 0 (.of text data heap stack) =
      ⟨some text,some data,some heap,some { stack with pagetable := emptyPagetable }⟩ :=
    hs.freeLoop rfl
  rw [clearTables,hstack,hh.freeLoop (n := .heap) rfl,freeLoop_cleared,freeLoop_cleared]
  rfl

/-- The stack's and the heap's entries are cleared and the others are not. -/
theorem free_pagetable_clears (ht : Prefixed ut text.pagetable) (hd : Prefixed ud data.pagetable)
    (hh : Prefixed uh heap.pagetable) (hs : Prefixed us stack.pagetable) :
    (clearTables (.of text data heap stack)).Cleared ↔ ut = [] ∧ ud = [] := by
  rw [clearTables_eq hh hs,← ht.empty_iff,← hd.empty_iff]
  constructor
  · exact fun h => ⟨h .text text rfl,h .data data rfl⟩
  · rintro ⟨htext,hdata⟩ n r hr
    cases n <;> cases hr
    · exact htext
    · exact hdata
    · rfl
    · rfl

def onePte : List Pte := [⟨true,0x400000,0x401000,0x22000,0x23000⟩]

def regionWith (used : List Pte) : Region :=
  ⟨0x400000,0x401000,1,0x20000,0x21000,
    used ++ List.replicate (pagetableSize - used.length) freePte,0⟩

theorem regionWith_prefixed :
    Prefixed onePte (regionWith onePte).pagetable ∧ Prefixed [] (regionWith []).pagetable :=
  ⟨⟨rfl,by decide,by decide⟩,⟨rfl,by decide,by decide⟩⟩

theorem free_pagetable_clears_heap : (clearTables ⟨some (regionWith []),some (regionWith []),
    some (regionWith onePte),some (regionWith onePte)⟩).Cleared := by
  obtain ⟨hone,hnone⟩ := regionWith_prefixed
  exact (free_pagetable_clears hnone hnone hone hone).mpr ⟨rfl,rfl⟩

/-- With one entry in every table, the ones of text and data stay. -/
theorem text_and_data_stay_allocated :
    let as := clearTables ⟨some (regionWith onePte),some (regionWith onePte),
      some (regionWith onePte),some (regionWith onePte)⟩
    Prefixed onePte (regionWith onePte).pagetable ∧ as.text = some (regionWith onePte) ∧
      as.data = some (regionWith onePte) ∧ ¬ as.Cleared := by
  obtain ⟨hone,-⟩ := regionWith_prefixed
  intro as
  have heq : as = _ := clearTables_eq hone hone
  refine ⟨hone,by rw [heq],by rw [heq],fun h => ?_⟩
  cases hone.empty_iff.mp (h .text (regionWith onePte) (by rw [heq]; rfl))

/-- A call of access_pagetable. Anything may have happened to the frames and the TLB since the call
before it. -/
structure Access where
  faultaddress : Nat
  spl : Nat
  chance : Chance
  mmu : Mmu

namespace Access

/-- What getppages(1) answers if it is called. -/
def newPage (a : Access) : Nat × Frames := getppages 1 a.chance.frames a.mmu.frames

def act (a : Access) (r : Region) : Option (Region × Int × Mmu) :=
  let (ret,r',m) := accessPagetable r a.faultaddress a.spl a.chance a.mmu
  some (r',ret,m)

/-- The answer of a call that hands the physical address to write_into_TLB. -/
def enter (a : Access) (paddr : Nat) (m : Mmu) : Int × Mmu :=
  let (ret,m) := writeIntoTLB a.faultaddress paddr a.spl a.chance m
  (if ret = 1 then 1 else 0,m)

end Access

namespace PageMap

abbrev Pages : Type := List (Nat × Nat)

def Takes (l : Pages) (a : Access) : Prop :=
  l.lookup a.faultaddress = none ∧ l.length < pagetableSize

instance decidableTakes (l : Pages) (a : Access) : Decidable (Takes l a) :=
  inferInstanceAs (Decidable (_ ∧ _))

/-- Pages with their frames, in the order in which they came. Only a page without a frame gets one,
as long as there is room. -/
def pageMap : DataType Pages Access (Int × Mmu) where
  answer l a x := x = match l.lookup a.faultaddress with
    | some pa => a.enter pa a.mmu
    | none => if l.length < pagetableSize
        then a.enter a.newPage.1 { a.mmu with frames := a.newPage.2 } else (0,a.mmu)
  next l a _ := if Takes l a then l ++ [(a.faultaddress,a.newPage.1)] else l

/-- The address is one of a page, which is not the last one there is, and getppages returns a
paddr_t it has not returned for this table before. -/
def Allowed (_ : Region) (l : Pages) (a : Access) : Prop :=
  a.faultaddress % pageSize = 0 ∧ a.faultaddress + pageSize < 2^32 ∧
    (Takes l a → a.newPage.1 < 2^32 ∧ a.newPage.1 ∉ l.map Prod.snd)

instance decidableAllowed (r : Region) (l : Pages) (a : Access) : Decidable (Allowed r l a) :=
  inferInstanceAs (Decidable (_ ∧ _))

def pteOf (p : Nat × Nat) : Pte := ⟨true,p.1,p.1 + pageSize,p.2,(p.2 + pageSize) % 2^32⟩

/-- The allocated entries come first, each of them for one page, and no page or frame occurs
twice. -/
structure Shows (r : Region) (l : Pages) : Prop where
  table : r.pagetable = l.map pteOf ++ List.replicate (pagetableSize - l.length) freePte
  size : l.length ≤ pagetableSize
  pages : (l.map Prod.fst).Nodup
  frames : (l.map Prod.snd).Nodup
  aligned : ∀ p ∈ l, p.1 % pageSize = 0
  paddr : ∀ p ∈ l, p.2 < 2^32

variable {r : Region} {l : Pages} {a : Access} {fa pa k i : Nat}

theorem search_behind (hfa : fa % pageSize = 0) (hl : ∀ p ∈ l, p.1 % pageSize = 0)
    (h : l.lookup fa = none) (es : List Pte) :
    searchPagetable fa (l.map pteOf ++ es) i = searchPagetable fa es (i + l.length) := by
  induction l generalizing i with
  | nil => rfl
  | cons p l ih =>
    obtain ⟨v,b⟩ := p
    have hv := hl (v,b) List.mem_cons_self
    have he : fa ≠ v := fun he => by simp [he] at h
    have hout : ¬ (v ≤ fa ∧ fa < v + pageSize) := by
      simp only [pageSize] at hfa hv ⊢
      omega
    have hrest : l.lookup fa = none := by simpa [List.lookup_cons,beq_false_of_ne he] using h
    have hnext := ih (i := i+1) (fun q hq => hl q (List.mem_cons_of_mem _ hq)) hrest
    have hlen : i + 1 + l.length = i + (l.length + 1) := by omega
    simpa [searchPagetable,pteOf,hout,hlen] using hnext

theorem search_found (hfa : fa % pageSize = 0) (hl : ∀ p ∈ l, p.1 % pageSize = 0)
    (h : l.lookup fa = some pa) (es : List Pte) :
    searchPagetable fa (l.map pteOf ++ es) i = .found (pteOf (fa,pa)) := by
  obtain ⟨l₁,l₂,rfl,hne⟩ := List.lookup_eq_some_iff.mp h
  have hnone : l₁.lookup fa = none := List.lookup_eq_none_iff.mpr hne
  rw [List.map_append,List.append_assoc,
    search_behind hfa (fun p hp => hl p (List.mem_append_left _ hp)) hnone]
  simp [searchPagetable,pteOf,pageSize]

theorem not_mem_of_lookup (h : l.lookup fa = none) : fa ∉ l.map Prod.fst := by
  intro hmem
  obtain ⟨p,hp,rfl⟩ := List.mem_map.mp hmem
  simpa using List.lookup_eq_none_iff.mp h p hp

theorem mem_of_lookup (h : l.lookup fa = some pa) : (fa,pa) ∈ l := by
  obtain ⟨l₁,l₂,rfl,_⟩ := List.lookup_eq_some_iff.mp h
  exact List.mem_append_right l₁ List.mem_cons_self

/-- The word that the entry of a page gives for the address of the page. -/
theorem toU32_page (fa : Nat) (h : pa < 2^32) : toU32 ((fa : Int) - fa + pa) = pa := by
  rw [Int.sub_self,Int.zero_add,toU32_natCast h]

section

variable (h : Shows r l) (ha : Allowed r l a)

include h ha

theorem Shows.act_found (hl : l.lookup a.faultaddress = some pa) :
    a.act r = some (r,a.enter pa a.mmu) := by
  have hs := search_found (i := 0) ha.1 h.aligned hl
    (List.replicate (pagetableSize - l.length) freePte)
  have haddr := toU32_page a.faultaddress (h.paddr _ (mem_of_lookup hl))
  simp only [Access.act,accessPagetable,h.table,hs,pteOf,haddr]
  rfl

theorem Shows.act_full (hl : l.lookup a.faultaddress = none) (hfull : ¬ l.length < pagetableSize) :
    a.act r = some (r,0,a.mmu) := by
  have hnone : pagetableSize - l.length = 0 := by omega
  have hs := search_behind (i := 0) ha.1 h.aligned hl []
  simp only [Access.act,accessPagetable,h.table,hnone,List.replicate_zero,hs]
  rfl

theorem Shows.act_takes (ht : Takes l a) : ∃ r',
    a.act r = some (r',a.enter a.newPage.1 { a.mmu with frames := a.newPage.2 }) ∧
      Shows r' (l ++ [(a.faultaddress,a.newPage.1)]) := by
  obtain ⟨hfa,hend,hnew⟩ := ha
  obtain ⟨hpa,hfresh⟩ := hnew ht
  obtain ⟨hl,hroom⟩ := ht
  obtain ⟨k,hk⟩ : ∃ k, pagetableSize - l.length = k + 1 := ⟨pagetableSize - l.length - 1,by omega⟩
  have hs : searchPagetable a.faultaddress (l.map pteOf ++ List.replicate (k+1) freePte) 0 =
      .missing (0 + l.length) := search_behind hfa h.aligned hl _
  have haddr := toU32_page a.faultaddress hpa
  have hround : roundDown a.faultaddress pageSize = a.faultaddress := by simp [roundDown,hfa]
  have hvend : (a.faultaddress + pageSize) % 2^32 = a.faultaddress + pageSize :=
    Nat.mod_eq_of_lt hend
  have hset : (l.map pteOf ++ List.replicate (k+1) freePte).set (0 + l.length)
      (pteOf (a.faultaddress,a.newPage.1)) = (l ++ [(a.faultaddress,a.newPage.1)]).map pteOf ++
        List.replicate k freePte := by
    rw [List.set_append_right _ _ (by simp)]
    simp [List.replicate_succ]
  refine ⟨{ r with pagetable := _ },?_,⟨hset.trans ?_,?_,?_,?_,?_,?_⟩⟩
  · simp only [Access.newPage] at haddr
    simp only [Access.act,accessPagetable,h.table,hk,hs,hround,hvend,haddr]
    rfl
  · simp only [List.length_append,List.length_singleton]
    rw [← Nat.sub_sub,hk]
    rfl
  · simp only [List.length_append,List.length_singleton]
    omega
  · rw [List.map_append,List.map_singleton,← List.concat_eq_append]
    exact h.pages.concat (not_mem_of_lookup hl)
  · rw [List.map_append,List.map_singleton,← List.concat_eq_append]
    exact h.frames.concat hfresh
  · intro p hp
    rcases List.mem_append.mp hp with hp | hp
    · exact h.aligned p hp
    · rw [List.mem_singleton.mp hp]
      exact hfa
  · intro p hp
    rcases List.mem_append.mp hp with hp | hp
    · exact h.paddr p hp
    · rw [List.mem_singleton.mp hp]
      exact hpa

theorem Shows.act : ∃ r' x, a.act r = some (r',x) ∧ pageMap.answer l a x ∧
    Shows r' (pageMap.next l a x) := by
  by_cases ht : Takes l a
  · obtain ⟨r',hr,hshows⟩ := h.act_takes ha ht
    refine ⟨r',_,hr,?_,?_⟩
    · simp [pageMap,ht.1,ht.2]
    · simpa [pageMap,ht] using hshows
  · cases hl : l.lookup a.faultaddress with
    | some pa =>
      refine ⟨r,_,h.act_found ha hl,?_,?_⟩
      · simp [pageMap,hl]
      · simpa [pageMap,ht] using h
    | none =>
      have hfull : ¬ l.length < pagetableSize := fun hlt => ht ⟨hl,hlt⟩
      refine ⟨r,_,h.act_full ha hl hfull,?_,?_⟩
      · simp [pageMap,hl,hfull]
      · simpa [pageMap,ht] using h

end

theorem shows_empty (hr : r.pagetable = emptyPagetable) : Shows r [] where
  table := hr
  size := Nat.zero_le _
  pages := List.nodup_nil
  frames := List.nodup_nil
  aligned := by simp
  paddr := by simp

theorem lookup_next {v : Nat} (h : l.lookup v = some pa) (a : Access) (x : Int × Mmu) :
    (pageMap.next l a x).lookup v = some pa := by
  simp only [pageMap]
  split
  · rw [List.lookup_append,h]
    rfl
  · exact h

/-- A page table is a map from pages to frames, and a page keeps its frame. -/
theorem page_table_is_map (hr : r.pagetable = emptyPagetable) (calls : List Access)
    (hcalls : pageMap.Legal (fun r a => a.act r) Allowed r [] calls) :
    pageMap.Agrees (fun r a => a.act r) Shows r [] calls ∧
    ∀ l v pa a x, l.lookup v = some pa → (pageMap.next l a x).lookup v = some pa :=
  ⟨DataType.agrees (R := Shows) (fun _ _ h => h) (fun _ _ _ h ha => h.act ha) (shows_empty hr)
    hcalls,fun _ _ _ a x h => lookup_next h a x⟩

def afterPages : Nat → Frames
  | 0 => vmBootstrap smallMemory
  | n+1 => (getppages 1 zeroed (afterPages n)).2

/-- An access when `n` frames have been handed out. -/
def accessAt (v n : Nat) : Access := ⟨v,0,⟨zeroed,1,1⟩,⟨afterPages n,[⟨0,0,false,false⟩],0⟩⟩

def textOf (pagetable : List Pte) : Region := ⟨0x400000,0x402000,2,0,0,pagetable,0⟩

theorem page_table_is_map_twoPages :
    pageMap.Agrees (fun r a => a.act r) Shows (textOf emptyPagetable) []
      [accessAt 0x400000 0,accessAt 0x401000 1,accessAt 0x400000 2] :=
  (page_table_is_map rfl _ (by decide +kernel)).1

/-- The entry for the last page of all ends at address 0, and is not found again. -/
theorem last_page_entered_twice : (((accessAt 0xfffff000 0).act (textOf emptyPagetable)).bind
    fun x => (accessAt 0xfffff000 1).act x.1).map (fun y => y.1.pagetable.take 2) =
      some [⟨true,0xfffff000,0,0x11000,0x12000⟩,⟨true,0xfffff000,0,0x12000,0x13000⟩] := by
  decide +kernel

end PageMap

end MipsOs.Vm
