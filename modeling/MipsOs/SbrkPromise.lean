import MipsOs.VmContracts

/-! What sys_sbrk promises: the heap pages that have yet to be faulted in, against the free frames
and the entries that the heap's page table has left. -/

set_option autoImplicit false
namespace MipsOs.Vm
open Runs

def Region.firstPages (r : Region) (n : Nat) : List Nat :=
  (List.range n).map fun i => r.vstart + i * pageSize

def Region.unmapped (r : Region) (n : Nat) : List Nat :=
  (r.firstPages n).filter fun page => (r.pteFor page).isNone

/-- How many pages [vstart, break) touches. -/
def Region.heapSize (r : Region) : Nat := (r.vendActual - r.vstart + pageSize - 1) / pageSize

/-- The heap pages that have to be faulted in when all of them are touched. -/
def Region.unfaulted (r : Region) : List Nat := r.unmapped r.heapSize

def grant (f : Frames) (heap : Region) (amount : Int) : Option Region :=
  match sysSbrk amount 0 heap f with
  | (none,_,heap) => some heap
  | _ => none

section Pages

variable {r : Region} {n k page : Nat}

theorem mem_firstPages : page ∈ r.firstPages n ↔ ∃ i, i < n ∧ page = r.vstart + i * pageSize := by
  simp only [Region.firstPages,List.mem_map,List.mem_range]
  exact exists_congr fun i => and_congr_right fun _ => eq_comm

theorem firstPages_nodup : (r.firstPages n).Nodup := by
  rw [List.Nodup,Region.firstPages,List.pairwise_map]
  refine List.Pairwise.imp (fun hne heq => hne ?_) List.nodup_range
  simp only [pageSize] at heq
  omega

theorem firstPages_add : r.firstPages (n + k) =
    r.firstPages n ++ (List.range k).map fun i => r.vstart + (n + i) * pageSize := by
  simp [Region.firstPages,List.range_add]

theorem unmapped_mono (h : n ≤ k) : (r.unmapped n).length ≤ (r.unmapped k).length := by
  obtain ⟨d,rfl⟩ := Nat.exists_eq_add_of_le h
  simp [Region.unmapped,firstPages_add]

theorem unmapped_add_le : (r.unmapped (n + k)).length ≤ (r.unmapped n).length + k := by
  simp only [Region.unmapped,firstPages_add,List.filter_append,List.length_append]
  have hle := List.length_filter_le (fun page => (r.pteFor page).isNone)
    ((List.range k).map fun i => r.vstart + (n + i) * pageSize)
  simp only [List.length_map,List.length_range] at hle
  omega

theorem firstPages_congr {q : Region} (h : q.vstart = r.vstart) :
    q.firstPages n = r.firstPages n := by
  simp [Region.firstPages,h]

theorem unmapped_congr {q : Region} (h : q.vstart = r.vstart) (ht : q.pagetable = r.pagetable) :
    q.unmapped n = r.unmapped n := by
  simp [Region.unmapped,firstPages_congr h,Region.pteFor,ht]

theorem length_filter_newPage {l : List Nat} {p q : Nat → Bool} (hl : l.Nodup) (hpage : page ∈ l)
    (hp : p page = true) (hq : q page = false) (hsame : ∀ x ∈ l, x ≠ page → q x = p x) :
    (l.filter q).length + 1 = (l.filter p).length := by
  obtain ⟨l₁,l₂,rfl⟩ := List.append_of_mem hpage
  rw [List.nodup_append,List.nodup_cons] at hl
  obtain ⟨-,⟨h₂,-⟩,h₁⟩ := hl
  have hleft : l₁.filter q = l₁.filter p := by
    refine List.filter_congr fun x hx => hsame x (by simp [hx]) fun he => ?_
    exact h₁ x hx page (by simp) he
  have hright : l₂.filter q = l₂.filter p := by
    refine List.filter_congr fun x hx => hsame x (by simp [hx]) fun he => ?_
    exact h₂ (he ▸ hx)
  simp only [List.filter_append,List.filter_cons,hp,hq,hleft,hright,List.length_append]
  simp
  omega

end Pages

section Table

/-- The entries in use come first, and the pages that the table has no entry for, among as many
as it has entries, find one. -/
structure HeapTable (r : Region) : Prop where
  aligned : r.vstart % pageSize = 0
  slots : r.pagetable.length = pagetableSize
  packed : r.pagetable.Pairwise fun a b => b.allocated = true → a.allocated = true
  room : r.pagetable.countP Pte.allocated + (r.unmapped pagetableSize).length ≤ pagetableSize

variable {r : Region} {fa i pa pend : Nat}

theorem HeapTable.congr {q : Region} (h : HeapTable r) (hv : q.vstart = r.vstart)
    (ht : q.pagetable = r.pagetable) : HeapTable q where
  aligned := hv ▸ h.aligned
  slots := ht ▸ h.slots
  packed := ht ▸ h.packed
  room := by
    rw [ht,unmapped_congr hv ht]
    exact h.room

theorem HeapTable.pteFor_missing (h : HeapTable r)
    (hs : searchPagetable fa r.pagetable 0 = .missing i) : r.pteFor fa = none := by
  obtain ⟨used,d,rest,heq,-,hfree,hused⟩ := searchPagetable_missing_append hs
  have hp := h.packed
  rw [heq,List.pairwise_append,List.pairwise_cons] at hp
  rw [Region.pteFor,heq,List.find?_eq_none]
  intro e he
  rcases List.mem_append.mp he with he | he
  · simp [(hused e he).2]
  · rcases List.mem_cons.mp he with rfl | he
    · simp [covers_free hfree]
    · have hrest : e.allocated = false := by
        by_contra ha
        rw [hp.2.1.1 e he (by simpa using ha)] at hfree
        cases hfree
      simp [covers_free hrest]

theorem pteFor_setPte {page : Nat} (hs : searchPagetable fa r.pagetable 0 = .missing i)
    (hfa : fa % pageSize = 0) (hp : page % pageSize = 0) (hne : page ≠ fa) :
    (r.setPte i (newPte fa pa pend)).pteFor page = r.pteFor page := by
  obtain ⟨d,hd,hfree⟩ := searchPagetable_missing hs
  exact find?_set_covers hd hfree (newPte_covers_ne pa pend hfa hp hne)

section

variable (h : HeapTable r) (hs : searchPagetable fa r.pagetable 0 = .missing i)
  (hend : fa + pageSize < 2^32)

include h hs hend

theorem HeapTable.unmapped_setPte {n : Nat} (hpage : fa ∈ r.firstPages n) (pa pend : Nat) :
    ((r.setPte i (newPte fa pa pend)).unmapped n).length + 1 = (r.unmapped n).length := by
  have haligned : ∀ page ∈ r.firstPages n, page % pageSize = 0 := by
    intro page hp
    obtain ⟨j,-,rfl⟩ := mem_firstPages.mp hp
    rw [Nat.add_mul_mod_self_right]
    exact h.aligned
  have hnew : (r.setPte i (newPte fa pa pend)).pteFor fa = some (newPte fa pa pend) :=
    searchPagetable_missing_find? hs (newPte_covers hend)
  refine length_filter_newPage (l := r.firstPages n) firstPages_nodup hpage ?_ ?_ fun x hx hne => ?_
  · simp [h.pteFor_missing hs]
  · simp [hnew]
  · rw [pteFor_setPte hs (haligned fa hpage) (haligned x hx) hne]

theorem HeapTable.setPte (hpage : fa ∈ r.firstPages pagetableSize) :
    HeapTable (r.setPte i (newPte fa pa pend)) where
  aligned := h.aligned
  slots := by simp [Region.setPte,h.slots]
  packed := by
    obtain ⟨used,d,rest,heq,hi,hfree,hused⟩ := searchPagetable_missing_append hs
    have hset : (r.setPte i (newPte fa pa pend)).pagetable = used ++ newPte fa pa pend :: rest := by
      simp [Region.setPte,heq,hi]
    have hp := h.packed
    rw [heq,List.pairwise_append,List.pairwise_cons] at hp
    rw [hset,List.pairwise_append,List.pairwise_cons]
    exact ⟨hp.1,⟨fun _ _ _ => rfl,hp.2.1.2⟩,fun a ha b _ _ => (hused a ha).1⟩
  room := by
    have hless := h.unmapped_setPte hs hend hpage pa pend
    obtain ⟨used,d,rest,heq,hi,hfree,-⟩ := searchPagetable_missing_append hs
    have hset : (r.setPte i (newPte fa pa pend)).pagetable = used ++ newPte fa pa pend :: rest := by
      simp [Region.setPte,heq,hi]
    have hcount : (r.setPte i (newPte fa pa pend)).pagetable.countP Pte.allocated =
        r.pagetable.countP Pte.allocated + 1 := by
      rw [hset,heq]
      simp only [List.countP_append,List.countP_cons,hfree,newPte]
      simp
      omega
    have hroom := h.room
    omega

end

theorem HeapTable.hasRoom (h : HeapTable r) (hpage : fa ∈ r.firstPages pagetableSize) :
    r.HasRoom fa := by
  by_cases hmap : r.pteFor fa = none
  · left
    have hmem : fa ∈ r.unmapped pagetableSize := by
      simp [Region.unmapped,hpage,hmap]
    have hpos := List.length_pos_of_mem hmem
    have hlt : r.pagetable.countP Pte.allocated < r.pagetable.length := by
      have hroom := h.room
      rw [h.slots]
      omega
    by_contra hall
    simp only [not_exists,not_and,Bool.not_eq_false] at hall
    rw [List.countP_eq_length.mpr hall] at hlt
    exact Nat.lt_irrefl _ hlt
  · exact .inr hmap

end Table

section Grant

variable {f : Frames} {heap heap' : Region} {amount : Int}

section

variable (hbrk : heap.vendActual ≤ heap.vstart ∨ heap.vendActual ≤ stackOdVstart)
  (hfree : freeFrames f * pageSize < 2^31) (hamount : -2^31 ≤ amount ∧ amount < 2^31)
  (h : grant f heap amount = some heap')

include hbrk hfree hamount h

theorem grant_spec :
    ∃ brk : Nat, heap' = { heap with vendActual := brk } ∧ (brk : Int) = heap.vendActual + amount ∧
      heap.vstart ≤ brk ∧ brk ≤ stackOdVstart ∧ amount ≤ 4096 * freeFrames f := by
  have htop : stackOdVstart < 2^31 := by decide
  have hcount : toInt32 (toU32 (numEmptyCm 0 f * pageSize)) = 4096 * freeFrames f := by
    have hsize : numEmptyCm 0 f * pageSize = ((freeFrames f * pageSize : Nat) : Int) := by
      simp [numEmptyCm,freeFrames,List.countP_eq_length_filter]
    rw [hsize,toU32_of_nonneg (by omega) (by omega),Int.toNat_natCast,toInt32_of_lt hfree]
    simp only [pageSize]
    omega
  simp only [grant,sysSbrk,hcount] at h
  split_ifs at h with hlow hhigh hmany
  cases h
  refine ⟨_,rfl,?_,by omega,by omega,by omega⟩
  have hrange : (toU32 (heap.vendActual + amount) : Int) = (heap.vendActual + amount) % 2^32 := by
    simp only [toU32]
    omega
  omega

theorem grant_unfaulted (hnone : 0 < amount → heap.unfaulted = [])
    (hle : heap.unfaulted.length ≤ freeFrames f) : heap'.unfaulted.length ≤ freeFrames f := by
  obtain ⟨brk,rfl,hmove,hlow,hhigh,hmany⟩ := grant_spec hbrk hfree hamount h
  have hsame : ∀ n, Region.unmapped { heap with vendActual := brk } n = heap.unmapped n :=
    fun n => unmapped_congr rfl rfl
  rw [Region.unfaulted,hsame]
  by_cases hgrow : 0 < amount
  · -- the new pages are no more than the amount needs
    have hsize : Region.heapSize { heap with vendActual := brk } ≤
        heap.heapSize + freeFrames f := by
      simp only [Region.heapSize,pageSize]
      omega
    have hmono := unmapped_mono (r := heap) hsize
    have hadd := unmapped_add_le (r := heap) (n := heap.heapSize) (k := freeFrames f)
    have hzero : (heap.unmapped heap.heapSize).length = 0 := by
      rw [← Region.unfaulted,hnone hgrow,List.length_nil]
    omega
  · have hsize : Region.heapSize { heap with vendActual := brk } ≤ heap.heapSize := by
      simp only [Region.heapSize,pageSize]
      omega
    exact (unmapped_mono hsize).trans hle

end

/-- The condition on a call: the heap grows only when there is nothing left to be faulted in, and
to no more pages than its table has entries. -/
def Modest (f : Frames) (heap : Region) (amount : Int) : Prop :=
  (-2^31 ≤ amount ∧ amount < 2^31) ∧ (0 < amount → heap.unfaulted = []) ∧
  ∀ heap', grant f heap amount = some heap' → heap'.heapSize ≤ pagetableSize

/-- What successful calls keep. -/
structure Kept (f : Frames) (heap : Region) : Prop where
  brk : heap.vendActual ≤ heap.vstart ∨ heap.vendActual ≤ stackOdVstart
  size : heap.heapSize ≤ pagetableSize
  table : HeapTable heap
  few : heap.unfaulted.length ≤ freeFrames f

theorem grant_kept (hfree : freeFrames f * pageSize < 2^31) (hk : Kept f heap)
    (hm : Modest f heap amount) (h : grant f heap amount = some heap') : Kept f heap' := by
  obtain ⟨hamount,hnone,hsize⟩ := hm
  have hfew := grant_unfaulted hk.brk hfree hamount h hnone hk.few
  obtain ⟨brk,rfl,-,-,hhigh,-⟩ := grant_spec hk.brk hfree hamount h
  exact ⟨.inr hhigh,hsize _ h,hk.table.congr rfl rfl,hfew⟩

end Grant

section Touch

variable {fa : Nat}

variable {n : Nat} {f : Frames} {r text data stack : Region} {a : TlbAct}

theorem mem_firstPages_of_lt (hr : r.vstart % pageSize = 0)
    (hfa : fa % pageSize = 0) (hlow : r.vstart ≤ fa) (hhigh : fa < r.vendActual)
    (hsize : r.heapSize ≤ n) : fa ∈ r.firstPages n := by
  refine mem_firstPages.mpr ⟨(fa - r.vstart) / pageSize,?_,?_⟩
  · simp only [Region.heapSize,pageSize] at *
    omega
  · simp only [pageSize] at *
    omega

theorem placeOf_heap {heap : Region}
    (h : regionAt text data heap stack fa = some .heap) (hv : heap.vend = heap.vstart) :
    placeOf text data heap stack fa = .tableOnly .heap heap ∧ heap.vstart ≤ fa ∧
      fa < heap.vendActual := by
  unfold regionAt at h
  unfold placeOf
  split_ifs at h ⊢ <;> simp_all
  omega

theorem placeOf_heapTable {heap : Region}
    (h : (placeOf text data heap stack fa).Table .heap r) :
    r = heap ∧ heap.vstart ≤ fa ∧ fa < heap.vendActual := by
  unfold placeOf at h
  split_ifs at h with ht hd hs hh ho hb <;> simp [Place.Table] at h
  exact ⟨h.symm,hb⟩

structure Touching (heap : Region) (s : AddrSpace × Mmu) : Prop where
  boot : s.2.frames.beforeVM = false
  alone : ∀ page ∈ heap.firstPages heap.heapSize, s.1.regionAt page = some .heap
  kept : ∃ r, s.1.heap = some r ∧ r.vstart = heap.vstart ∧ r.vend = r.vstart ∧
    r.vendActual = heap.vendActual ∧ Kept s.2.frames r

def TlbAct.InHeap (heap : Region) : TlbAct → Prop
  | .activate => True
  | .fault _ addr _ => heap.vstart ≤ addr ∧ addr < heap.vendActual

/-- A page without an entry finds an entry and a free frame. -/
def Backed (s : AddrSpace × Mmu) : TlbAct → Prop
  | .activate => True
  | .fault _ addr _ => ∃ r, s.1.heap = some r ∧ r.HasRoom (pageOf addr) ∧
      (r.pteFor (pageOf addr) = none → 0 < freeFrames s.2.frames)

variable {heap : Region} {s u : AddrSpace × Mmu}

theorem heapPage_of_mem (addr : Nat) (hr : r.vstart % pageSize = 0)
    (hlow : r.vstart ≤ addr) (hhigh : addr < r.vendActual) :
    pageOf addr ∈ r.firstPages r.heapSize := by
  obtain ⟨hge,hlt⟩ := pageOf_within hr hlow hhigh
  exact mem_firstPages_of_lt hr (pageOf_aligned addr) hge hlt (Nat.le_refl _)

theorem Touching.backed (h : Touching heap s) (ha : a.InHeap heap) : Backed s a := by
  cases a with
  | activate => trivial
  | fault ft addr c =>
    obtain ⟨r,hr,hv,-,hbrk,hk⟩ := h.kept
    have hpage : pageOf addr ∈ r.firstPages r.heapSize :=
      heapPage_of_mem addr hk.table.aligned (hv ▸ ha.1) (hbrk ▸ ha.2)
    refine ⟨r,hr,hk.table.hasRoom ?_,fun hnone => ?_⟩
    · obtain ⟨i,hi,heq⟩ := mem_firstPages.mp hpage
      exact mem_firstPages.mpr ⟨i,Nat.lt_of_lt_of_le hi hk.size,heq⟩
    · have hmem : pageOf addr ∈ r.unfaulted := by
        simp [Region.unfaulted,Region.unmapped,hpage,hnone]
      exact Nat.lt_of_lt_of_le (List.length_pos_of_mem hmem) hk.few

theorem Kept.setPte {i pa pend : Nat} (h : Kept f r)
    (hboot : f.beforeVM = false) (hs : searchPagetable fa r.pagetable 0 = .missing i)
    (hfa : fa % pageSize = 0) (hlow : r.vstart ≤ fa) (hhigh : fa < r.vendActual) (c : Chance) :
    Kept (getppages 1 c.frames f).2 (r.setPte i (newPte fa pa pend)) := by
  have hmem := mem_firstPages_of_lt h.table.aligned hfa hlow hhigh (Nat.le_refl _)
  have htable := mem_firstPages_of_lt h.table.aligned hfa hlow hhigh h.size
  have hend : fa + pageSize < 2^32 := by
    have htop : stackOdVstart + pageSize < 2^32 := by decide
    have hbrk := h.brk
    omega
  have hless := h.table.unmapped_setPte hs hend hmem pa pend
  refine ⟨h.brk,h.size,h.table.setPte hs hend htable,?_⟩
  have hfew := h.few
  rw [Region.unfaulted] at hfew
  show ((r.setPte i (newPte fa pa pend)).unmapped r.heapSize).length ≤ _
  by_cases htwo : 2 ≤ freeFrames f
  · have hone := (freeFrames_getppages hboot htwo c.frames).2
    omega
  · omega

theorem Touching.step (h : Touching heap s) (ha : a.InHeap heap)
    (hstep : tlbStep s a = some u) : Touching heap u := by
  cases a with
  | activate =>
    cases hstep
    exact ⟨h.boot,h.alone,h.kept⟩
  | fault ft addr c =>
    obtain ⟨as,m⟩ := s
    obtain ⟨as',m'⟩ := u
    obtain ⟨e,hf⟩ := tlbStep_fault hstep
    rcases vmFault_fault hf with ⟨-,hsp,hm⟩ | ⟨text,data,r,stack,a,rfl,hsp,hfor,hat⟩
    · cases hsp
      cases hm
      exact h
    · cases hsp
      obtain ⟨q,hq,hv,hvend,hbrk,hk⟩ := h.kept
      obtain rfl : r = q := Option.some.inj hq
      have hpage := heapPage_of_mem addr hk.table.aligned (hv ▸ ha.1) (hbrk ▸ ha.2)
      have hregion : regionAt text data r stack (pageOf addr) = some .heap := by
        refine h.alone (pageOf addr) ?_
        rwa [Region.heapSize,← hv,← hbrk,← firstPages_congr hv]
      obtain ⟨hplace,hlow,hhigh⟩ := placeOf_heap hregion hvend
      -- the table gets one entry and the frames lose one, or neither changes
      rcases hat.space hfor with ⟨rfl,hframes⟩ | ⟨n,q,i,pa,hpl,-,hs,hframes,rfl⟩
      · refine ⟨?_,h.alone,r,rfl,hv,hvend,hbrk,?_⟩
        · exact hframes ▸ h.boot
        · exact hframes ▸ hk
      · rw [hplace] at hpl
        obtain hpl | hpl := hpl <;> cases hpl
        have hframes : m'.frames = _ := (congrArg Prod.snd hframes).symm
        refine ⟨?_,fun page hp => ?_,_,rfl,hv,hvend,hbrk,?_⟩
        · have hboot : m.frames.beforeVM = false := h.boot
          simp [hframes,getppages,hboot]
        · rw [regionAt_setPte (n := .heap) rfl]
          exact h.alone page hp
        · exact hframes ▸ hk.setPte h.boot hs (pageOf_aligned addr) hlow hhigh c

theorem touches_backed (touches : List TlbAct) (h : Touching heap s)
    (ht : ∀ a ∈ touches, a.InHeap heap) : Along tlbStep Backed s touches := by
  induction touches generalizing s with
  | nil => trivial
  | cons a touches ih =>
    have ha := ht a List.mem_cons_self
    exact ⟨h.backed ha,fun u hu => ih (h.step ha hu) fun b hb => ht b (List.mem_cons_of_mem a hb)⟩

end Touch

def loadProgram (vtext sztext vdata szdata : Nat) (u : RegionName → Uninit) (f : Frames) :
    Option (AddrSpace × Frames) :=
  match asDefineRegion asCreate vtext sztext with
  | .ok a =>
    match asDefineRegion a vdata szdata with
    | .ok b =>
      match asPrepareLoad b u f with
      | .ok (none,as,f) => some (as,f)
      | _ => none
    | .error _ => none
  | .error _ => none

/-- The break stays within as many pages as the table has entries. -/
def LowBreak (s : AddrSpace × Mmu) : VmCall → Prop
  | .tlb _ => True
  | .sbrk amount p f => ∀ heap, s.1.heap = some heap →
      (sysSbrk amount p heap f).2.2.heapSize ≤ pagetableSize

/-- An address space whose break has stayed low. -/
structure Used (as : AddrSpace) : Prop where
  loaded : Loaded as
  table : ∀ r, as.heap = some r → r.heapSize ≤ pagetableSize ∧ HeapTable r

theorem HeapTable.fresh {r : Region} (hv : r.vstart % pageSize = 0)
    (ht : r.pagetable = emptyPagetable) : HeapTable r where
  aligned := hv
  slots := by rw [ht]; exact List.length_replicate
  packed := by
    rw [ht]
    exact List.pairwise_replicate.mpr (.inr (by simp))
  room := by
    have hzero : r.pagetable.countP Pte.allocated = 0 := by
      rw [ht,List.countP_eq_zero]
      intro e he
      simp [emptyPagetable_free e he]
    have hle := List.length_filter_le (fun page => (r.pteFor page).isNone)
      (r.firstPages pagetableSize)
    rw [hzero]
    simpa [Region.unmapped,Region.firstPages] using hle

theorem loadProgram_used {vtext sztext vdata szdata : Nat} {u : RegionName → Uninit}
    {f f' : Frames} {as : AddrSpace}
    (h : loadProgram vtext sztext vdata szdata u f = some (as,f')) : Used as := by
  unfold loadProgram at h
  split at h
  · next a ha =>
    split at h
    · next b hb =>
      split at h
      · next as₁ f₁ hp =>
        cases h
        have hl := Loaded.load ha hb hp
        refine ⟨hl,fun r hr => ?_⟩
        obtain ⟨q,hq,hst,-,hact,htab⟩ := region_of_shape (n := .heap) (asPrepareLoad_shape hp) hr
        cases ha
        cases hb
        obtain rfl := Option.some.inj hq
        refine ⟨?_,.fresh (hl.placed.starts .heap r hr) htab.symm⟩
        simp only [Region.heapSize,← hst,← hact]
        simp [pageSize]
      · cases h
    · cases h
  · cases h

theorem vmStep_used {s u : AddrSpace × Mmu} {call : VmCall} (h : Used s.1) (hlow : LowBreak s call)
    (hstep : vmStep s call = some u) : Used u.1 := by
  cases call with
  | sbrk amount p f =>
    obtain ⟨heap,hheap,rfl⟩ := Option.map_eq_some_iff.mp hstep
    refine ⟨.sbrk amount p h.loaded hheap,fun r hr => ?_⟩
    obtain rfl := Option.some.inj hr
    obtain ⟨brk,hbrk,-⟩ := sysSbrk_brk amount p heap f
    have hsize := hlow heap hheap
    rw [hbrk] at hsize ⊢
    exact ⟨hsize,(h.table heap hheap).2.congr rfl rfl⟩
  | tlb a =>
    have hl := tlbStep_loaded h.loaded hstep
    cases a with
    | activate =>
      cases hstep
      exact h
    | fault ft addr c =>
      obtain ⟨as,m⟩ := s
      obtain ⟨as',m'⟩ := u
      obtain ⟨e,hf⟩ := tlbStep_fault hstep
      refine ⟨hl,fun r hr => ?_⟩
      rcases vmFault_fault hf with ⟨-,hsp,-⟩ | ⟨text,data,heap,stack,a,rfl,hsp,hplace,hat⟩
      · cases hsp
        exact h.table r hr
      · cases hsp
        rcases hat.space hplace with ⟨rfl,-⟩ | ⟨n,q,i,pa,hpl,-,hs,-,rfl⟩
        · exact h.table r hr
        · cases n with
          | heap =>
            obtain ⟨rfl,hge,hlt⟩ := placeOf_heapTable hpl
            obtain ⟨hsize,htab⟩ := h.table q rfl
            obtain rfl := Option.some.inj hr
            have hend : pageOf addr + pageSize < 2^32 := by
              have htop : stackOdVstart + pageSize < 2^32 := by decide
              have hbrk := h.loaded.tidy.brk q rfl
              omega
            exact ⟨hsize,htab.setPte hs hend
              (mem_firstPages_of_lt htab.aligned (pageOf_aligned addr) hge hlt hsize)⟩
          | text | data | stack => exact h.table r hr

/-- Successful calls of sys_sbrk do not promise more pages than there are free frames and entries
left in the heap's page table, and every heap page that is touched afterwards finds both: as long
as the heap grows only when all its pages have been faulted in, its pages never were more than
the table has entries, and it does not run into another region. -/
theorem sbrk_keeps_promise {vtext sztext vdata szdata : Nat} {init : RegionName → Uninit}
    {f f' : Frames} {as : AddrSpace} {m : Mmu} {before : List VmCall} {s : AddrSpace × Mmu}
    {heap heap' : Region} {amounts : List Int}
    (hload : loadProgram vtext sztext vdata szdata init f = some (as,f'))
    (hrun : run vmStep (as,m) before = some s)
    (hlow : Along vmStep LowBreak (as,m) before) (hboot : s.2.frames.beforeVM = false)
    (hfree : freeFrames s.2.frames * pageSize < 2^31) (hheap : s.1.heap = some heap)
    (hfew : heap.unfaulted.length ≤ freeFrames s.2.frames)
    (hcalls : run (grant s.2.frames) heap amounts = some heap')
    (hmodest : Along (grant s.2.frames) (Modest s.2.frames) heap amounts)
    (halone : ∀ page ∈ heap'.firstPages heap'.heapSize,
      (s.1.set .heap heap').regionAt page = some .heap) :
    (heap'.unfaulted.length ≤ freeFrames s.2.frames ∧
      heap'.unfaulted.length ≤ heap'.pagetable.countP fun e => !e.allocated) ∧
    ∀ touches : List TlbAct, (∀ a ∈ touches, a.InHeap heap') →
      Along tlbStep Backed (s.1.set .heap heap',s.2) touches := by
  have hused : Used s.1 := run_keeps (I := fun s : AddrSpace × Mmu => Used s.1)
    (fun _ _ _ h hc hstep => vmStep_used h hc hstep) (loadProgram_used hload) hlow hrun
  obtain ⟨hsize,htab⟩ := hused.table heap hheap
  have hstart : Kept s.2.frames heap ∧ heap.vend = heap.vstart :=
    ⟨⟨hused.loaded.tidy.brk heap hheap,hsize,htab,hfew⟩,hused.loaded.placed.heap heap hheap⟩
  have hend : Kept s.2.frames heap' ∧ heap'.vend = heap'.vstart := by
    refine run_keeps (I := fun r => Kept s.2.frames r ∧ r.vend = r.vstart)
      (fun r amount r' hr hm hg => ?_) hstart hmodest hcalls
    refine ⟨grant_kept hfree hr.1 hm hg,?_⟩
    obtain ⟨brk,rfl,-⟩ := grant_spec hr.1.brk hfree hm.1 hg
    exact hr.2
  obtain ⟨hk,hvend⟩ := hend
  refine ⟨⟨hk.few,?_⟩,fun touches ht =>
    touches_backed touches ⟨hboot,halone,heap',rfl,rfl,hvend,rfl,hk⟩ ht⟩
  have hsplit := List.length_eq_countP_add_countP Pte.allocated (l := heap'.pagetable)
  have hroom := hk.table.room
  have hmono := unmapped_mono (r := heap') hk.size
  rw [hk.table.slots] at hsplit
  rw [Region.unfaulted]
  simp only [Bool.not_eq_true,Bool.decide_eq_false] at hsplit
  omega

theorem unfaulted_untouched {r : Region} (h : (r.pagetable.all fun e => !e.allocated) = true) :
    r.unfaulted = r.firstPages r.heapSize := by
  rw [Region.unfaulted,Region.unmapped,List.filter_eq_self]
  intro page _
  rw [Region.pteFor,Option.isNone_iff_eq_none,List.find?_eq_none]
  intro e he
  have hfree : e.allocated = false := by simpa using List.all_eq_true.mp h e he
  simp [covers_free hfree]

def onePager (f : Frames) : Option (AddrSpace × Frames) :=
  loadProgram 0x400000 pageSize 0x10000000 pageSize (fun _ => zeroed) f

def askForAll (f : Frames) (n : Nat) : List Int := List.replicate n (freeFrames f * pageSize : Nat)

/-- Calls that each ask for all of the free memory succeed one after the other: after two of them
more pages are promised than there are frames, after 14 more than the table has entries. -/
theorem sbrk_promises_too_much : ∃ as f heap heap₁ heap₂,
    onePager smallBooted = some (as,f) ∧ as.heap = some heap ∧
    run (grant f) heap (askForAll f 2) = some heap₁ ∧
    freeFrames f < heap₁.unfaulted.length ∧
    run (grant f) heap (askForAll f 14) = some heap₂ ∧
    pagetableSize < heap₂.unfaulted.length := by
  have hrun : ((onePager smallBooted).any fun x => x.1.heap.any fun heap =>
      (run (grant x.2) heap (askForAll x.2 2)).any (fun heap₁ =>
        (heap₁.pagetable.all fun e => !e.allocated) && decide (freeFrames x.2 < heap₁.heapSize)) &&
      (run (grant x.2) heap (askForAll x.2 14)).any fun heap₂ =>
        (heap₂.pagetable.all fun e => !e.allocated) &&
          decide (pagetableSize < heap₂.heapSize)) = true := by
    decide +kernel
  obtain ⟨⟨as,f⟩,hload,h⟩ := some_of_any hrun
  obtain ⟨heap,hheap,h⟩ := some_of_any h
  obtain ⟨h₁,h₂⟩ := Bool.and_eq_true_iff.mp h
  obtain ⟨heap₁,hcalls₁,h₁⟩ := some_of_any h₁
  obtain ⟨heap₂,hcalls₂,h₂⟩ := some_of_any h₂
  obtain ⟨hempty₁,hmany₁⟩ := Bool.and_eq_true_iff.mp h₁
  obtain ⟨hempty₂,hmany₂⟩ := Bool.and_eq_true_iff.mp h₂
  refine ⟨as,f,heap,heap₁,heap₂,hload,hheap,hcalls₁,?_,hcalls₂,?_⟩
  · simpa [unfaulted_untouched hempty₁,Region.firstPages] using hmany₁
  · simpa [unfaulted_untouched hempty₂,Region.firstPages] using hmany₂

/-- Two pages for a program that has just been loaded. -/
theorem sbrk_keeps_promise_twoPages : ∃ as f heap heap',
    onePager smallBooted = some (as,f) ∧ as.heap = some heap ∧
    run (grant f) heap [8192] = some heap' ∧ heap'.unfaulted = [0x10002000,0x10003000] ∧
    heap'.unfaulted.length ≤ freeFrames f ∧
    Along tlbStep Backed (as.set .heap heap',asActivate ⟨f,[],0⟩)
      [.fault .write 0x10003004 ⟨zeroed,0,0⟩,.fault .read 0x10002000 ⟨zeroed,0,0⟩] := by
  have hrun : ((onePager smallBooted).any fun x =>
      (!x.2.beforeVM && decide (freeFrames x.2 * pageSize < 2^31)) && x.1.heap.any fun heap =>
        ((heap.pagetable.all fun e => !e.allocated) && decide (heap.heapSize = 0)) &&
        (grant x.2 heap 8192).any fun heap' =>
          ((heap'.pagetable.all fun e => !e.allocated) && decide (heap'.heapSize = 2 ∧
            heap'.vstart = 0x10002000 ∧ heap'.vendActual = 0x10004000)) &&
          (heap'.firstPages 2).all fun page =>
            decide ((x.1.set .heap heap').regionAt page = some .heap)) = true := by
    decide +kernel
  obtain ⟨⟨as,f⟩,hload,h⟩ := some_of_any hrun
  obtain ⟨hframes,h⟩ := Bool.and_eq_true_iff.mp h
  obtain ⟨hboot,hfree⟩ := Bool.and_eq_true_iff.mp hframes
  obtain ⟨heap,hheap,h⟩ := some_of_any h
  obtain ⟨hfresh,h⟩ := Bool.and_eq_true_iff.mp h
  obtain ⟨hempty,hsize⟩ := Bool.and_eq_true_iff.mp hfresh
  obtain ⟨heap',hcall,h⟩ := some_of_any h
  obtain ⟨hgrown,halone⟩ := Bool.and_eq_true_iff.mp h
  obtain ⟨hempty',hgrown⟩ := Bool.and_eq_true_iff.mp hgrown
  obtain ⟨hsize',hlow,hhigh⟩ := of_decide_eq_true hgrown
  have hnone : heap.unfaulted = [] := by
    rw [unfaulted_untouched hempty,of_decide_eq_true hsize]
    rfl
  have hpages : heap'.unfaulted = [0x10002000,0x10003000] := by
    rw [unfaulted_untouched hempty',hsize',Region.firstPages,hlow]
    rfl
  have hcalls : run (grant f) heap [8192] = some heap' :=
    run_cons.mpr ⟨heap',hcall,rfl⟩
  have hmodest : Along (grant f) (Modest f) heap [8192] := by
    refine Along.cons ⟨by decide,fun _ => hnone,fun r hr => ?_⟩ hcall trivial
    rw [hcall] at hr
    obtain rfl := Option.some.inj hr
    rw [hsize']
    decide
  have hregion : ∀ page ∈ heap'.firstPages heap'.heapSize,
      (as.set .heap heap').regionAt page = some .heap := by
    intro page hp
    rw [hsize'] at hp
    exact of_decide_eq_true (List.all_eq_true.mp halone page hp)
  have hnothing : run vmStep (as,asActivate ⟨f,[],0⟩) [] = some (as,asActivate ⟨f,[],0⟩) := rfl
  have hbooted : f.beforeVM = false := by simpa using hboot
  have hpromise := sbrk_keeps_promise hload hnothing trivial hbooted
    (of_decide_eq_true hfree) hheap (by simp [hnone]) hcalls hmodest hregion
  refine ⟨as,f,heap,heap',hload,hheap,hcalls,hpages,hpromise.1.1,hpromise.2 _ ?_⟩
  simp [TlbAct.InHeap,hlow,hhigh]

end MipsOs.Vm
