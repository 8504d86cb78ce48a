import MipsOs.AddressSpace

/-! What the operations on one address space can do to its regions, to the frame
table and to the TLB. -/

set_option autoImplicit false
namespace MipsOs.Vm

variable {as as' : AddrSpace} {r r' : Region} {f : Frames} {fa k i pa spl addr : Nat}
  {es : List Pte} {e d : Pte} {c : Chance} {m m' : Mmu} {n : RegionName} {ft : FaultType}

/-- The regions a call of as_define_region adds were not there before, are
well formed and hold no frames. -/
theorem asDefineRegion_spec {vaddr sz : Nat} (h : as.Wf)
    (hd : asDefineRegion as vaddr sz = .ok as') :
    as'.Wf ∧ ∀ n sl, ((as'.get n).bind fun r => r.runAt sl) =
      (as.get n).bind fun r => r.runAt sl := by
  have hv : pageOf vaddr % pageSize = 0 := by
    simp only [pageOf,pageSize]
    omega
  generalize hs : pageOf (((sz + vaddr % pageSize) % 2^32 + pageSize - 1) % 2^32) = size
  have hsz : size / pageSize * pageSize = size ∧ size < 2^32 := by
    subst hs
    simp only [pageOf,pageSize]
    omega
  have hend : (pageOf vaddr + size) % 2^32 ≤ pageOf vaddr + size / pageSize * pageSize := by
    rw [hsz.1]
    exact Nat.mod_le _ _
  have hbelow : size / pageSize * pageSize < 2^32 := by
    rw [hsz.1]
    exact hsz.2
  have hfresh := Region.Wf.fresh 0 hv hend hbelow
  unfold asDefineRegion at hd
  simp only [hs] at hd
  cases ht : as.text with
  | none =>
    simp only [ht,Except.ok.injEq] at hd
    subst hd
    refine ⟨h.set (n := .text) hfresh (by simp) (fun _ => .inl rfl),fun n sl => ?_⟩
    cases n with
    | text => simp [AddrSpace.get,ht,Region.runAt_fresh]
    | data | heap | stack => rfl
  | some t =>
    cases hda : as.data with
    | some d => simp [ht,hda] at hd
    | none =>
      simp only [ht,hda,Except.ok.injEq] at hd
      subst hd
      generalize hp : roundUp ((pageOf vaddr + size) % 2^32) pageSize = heapStart
      have hheap : heapStart % pageSize = 0 := by
        subst hp
        simp only [roundUp,pageSize]
        omega
      have hdata := h.set (n := .data) hfresh (by simp) (fun _ => .inr rfl)
      have hwith := hdata.set (n := .heap) (Region.Wf.fresh heapStart hheap
        (Nat.le_add_right _ (0*pageSize)) (by decide)) (fun _ => rfl) (by simp [AddrSpace.set])
      have hstack : Region.Wf ⟨userStack - dumbvmStackpages * pageSize,userStack,dumbvmStackpages,
          0,0,emptyPagetable,0⟩ := Region.Wf.fresh 0 (by decide) (by decide) (by decide)
      have hall := hwith.set (n := .stack) hstack (by simp) (by simp [AddrSpace.set])
      refine ⟨by simpa only [AddrSpace.set,ht] using hall,fun n sl => ?_⟩
      · have hnone := h.together hda
        cases n <;> simp [AddrSpace.get,ht,hda,hnone,Region.runAt_fresh]

theorem sysSbrk_brk (amount p : Int) (heap : Region) (f : Frames) :
    ∃ brk, (sysSbrk amount p heap f).2.2 = { heap with vendActual := brk } ∧
      (brk = heap.vendActual ∨ brk ≤ stackOdVstart) := by
  simp only [sysSbrk]
  split
  · exact ⟨heap.vendActual,rfl,.inl rfl⟩
  split
  · exact ⟨heap.vendActual,rfl,.inl rfl⟩
  · next hle =>
    split
    · exact ⟨heap.vendActual,rfl,.inl rfl⟩
    · exact ⟨_,rfl,.inr (Nat.le_of_not_lt hle)⟩

theorem loadRegion_fits (hr : r.Wf) (h : Layout f)
    (hfit : Fits f.coremap r.numofpages) (u : Uninit) :
    ∃ pa f', loadRegion r u f =
        (none,{ r with pstart := pa, pend := (pa + r.numofpages * pageSize) % 2^32 },f') ∧
      HandsOut f r.numofpages pa f' ∧
      Region.Wf { r with pstart := pa, pend := (pa + r.numofpages * pageSize) % 2^32 } := by
  have hout := getppages_fits h hfit u
  refine ⟨(getppages r.numofpages u f).1,(getppages r.numofpages u f).2,?_,hout,?_⟩
  · simp [loadRegion,hout.nonzero]
  · exact {
      valigned := hr.valigned
      covered := hr.covered
      paligned := hout.aligned
      below := hout.below
      ptes := hr.ptes }

def Pte.covers (page : Nat) (e : Pte) : Bool :=
  e.allocated && decide (e.vstart ≤ page ∧ page < e.vend)

theorem covers_iff :
    Pte.covers fa e = true ↔ e.allocated = true ∧ e.vstart ≤ fa ∧ fa < e.vend := by
  simp [Pte.covers]

/-- The search passes over entries in use for other pages. -/
theorem searchPagetable_split (fa : Nat) (es : List Pte) (k : Nat) :
    ∃ used rest, es = used ++ rest ∧
      (∀ e ∈ used, e.allocated = true ∧ Pte.covers fa e = false) ∧
      (rest = [] ∧ searchPagetable fa es k = .full ∨ ∃ d tail, rest = d :: tail ∧
        (d.allocated = false ∧ searchPagetable fa es k = .missing (k + used.length) ∨
          Pte.covers fa d = true ∧ searchPagetable fa es k = .found d)) := by
  induction es generalizing k with
  | nil => exact ⟨[],[],rfl,by simp,.inl ⟨rfl,rfl⟩⟩
  | cons d es ih =>
    unfold searchPagetable
    split
    · next hd => exact ⟨[],d :: es,rfl,by simp,.inr ⟨d,es,rfl,.inl ⟨hd,rfl⟩⟩⟩
    · next hd =>
      have hd : d.allocated = true := by simpa using hd
      split
      · next hc =>
        exact ⟨[],d :: es,rfl,by simp,.inr ⟨d,es,rfl,.inr ⟨covers_iff.mpr ⟨hd,hc⟩,rfl⟩⟩⟩
      · next hc =>
        obtain ⟨used,rest,rfl,hused,hs⟩ := ih (k+1)
        refine ⟨d :: used,rest,rfl,?_,?_⟩
        · exact List.forall_mem_cons.mpr ⟨⟨hd,by simp [Pte.covers,hc]⟩,hused⟩
        · rwa [List.length_cons,Nat.add_comm used.length,← Nat.add_assoc]

theorem searchPagetable_full (h : searchPagetable fa es k = .full) :
    ∀ e ∈ es, e.allocated = true ∧ Pte.covers fa e = false := by
  obtain ⟨used,rest,rfl,hused,⟨rfl,-⟩ | ⟨d,tail,-,⟨-,hs⟩ | ⟨-,hs⟩⟩⟩ := searchPagetable_split fa es k
  · rwa [List.append_nil]
  · cases hs.symm.trans h
  · cases hs.symm.trans h

theorem searchPagetable_missing_append (h : searchPagetable fa es k = .missing i) :
    ∃ used d rest, es = used ++ d :: rest ∧ i = k + used.length ∧ d.allocated = false ∧
      ∀ e ∈ used, e.allocated = true ∧ Pte.covers fa e = false := by
  obtain ⟨used,rest,rfl,hused,⟨-,hs⟩ | ⟨d,tail,rfl,⟨hd,hs⟩ | ⟨-,hs⟩⟩⟩ :=
    searchPagetable_split fa es k
  · cases hs.symm.trans h
  · cases hs.symm.trans h
    exact ⟨used,d,tail,rfl,rfl,hd,hused⟩
  · cases hs.symm.trans h

theorem searchPagetable_found_append (h : searchPagetable fa es k = .found e) :
    ∃ used rest, es = used ++ e :: rest ∧ Pte.covers fa e = true ∧
      ∀ d ∈ used, d.allocated = true ∧ Pte.covers fa d = false := by
  obtain ⟨used,rest,rfl,hused,⟨-,hs⟩ | ⟨d,tail,rfl,⟨-,hs⟩ | ⟨hc,hs⟩⟩⟩ :=
    searchPagetable_split fa es k
  · cases hs.symm.trans h
  · cases hs.symm.trans h
  · cases hs.symm.trans h
    exact ⟨used,tail,rfl,hc,hused⟩

theorem searchPagetable_missing (h : searchPagetable fa es k = .missing i) :
    ∃ e, es[i-k]? = some e ∧ e.allocated = false := by
  obtain ⟨used,d,rest,rfl,rfl,hd,-⟩ := searchPagetable_missing_append h
  exact ⟨d,by simp,hd⟩

theorem searchPagetable_found (h : searchPagetable fa es k = .found e) :
    e ∈ es ∧ e.allocated = true ∧ e.vstart ≤ fa ∧ fa < e.vend := by
  obtain ⟨used,rest,rfl,hc,-⟩ := searchPagetable_found_append h
  exact ⟨by simp,covers_iff.mp hc⟩

def Region.pteFor (r : Region) (page : Nat) : Option Pte := r.pagetable.find? (Pte.covers page)

theorem find?_covers {used rest : List Pte}
    (h : ∀ d ∈ used, d.allocated = true ∧ Pte.covers fa d = false) (hc : Pte.covers fa e = true) :
    (used ++ e :: rest).find? (Pte.covers fa) = some e := by
  have hnone : used.find? (Pte.covers fa) = none :=
    List.find?_eq_none.mpr fun d hd => by simp [(h d hd).2]
  rw [List.find?_append,hnone,List.find?_cons_of_pos hc,Option.none_or]

theorem searchPagetable_found_find? (h : searchPagetable fa es k = .found e) :
    es.find? (Pte.covers fa) = some e := by
  obtain ⟨used,rest,rfl,hc,hused⟩ := searchPagetable_found_append h
  exact find?_covers hused hc

theorem searchPagetable_full_find? (h : searchPagetable fa es k = .full) :
    es.find? (Pte.covers fa) = none :=
  List.find?_eq_none.mpr fun e he => by simp [(searchPagetable_full h e he).2]

theorem searchPagetable_missing_find? (h : searchPagetable fa es k = .missing i)
    (hc : Pte.covers fa e = true) : (es.set (i-k) e).find? (Pte.covers fa) = some e := by
  obtain ⟨used,d,rest,rfl,rfl,-,hused⟩ := searchPagetable_missing_append h
  rw [show k + used.length - k = used.length by omega,List.set_append_right _ _ (Nat.le_refl _),
    Nat.sub_self]
  exact find?_covers hused hc

theorem Pte.Wf.paddr_eq (h : e.Wf) (hfa : fa % pageSize = 0)
    (hge : e.vstart ≤ fa) (hlt : fa < e.vstart + pageSize) :
    toU32 ((fa : Int) - e.vstart + e.pstart) = e.pstart := by
  have hv := h.valigned
  have hb := h.below
  simp only [pageSize] at hfa hv hlt
  have hz : (fa : Int) - e.vstart = 0 := by omega
  rw [hz,toU32_of_nonneg (by omega) (by omega)]
  omega

theorem Region.Wf.runPaddr_eq (h : r.Wf) (hfa : fa % pageSize = 0)
    (hge : r.vstart ≤ fa) (hlt : fa < r.vend) :
    ∃ j, j < r.numofpages ∧ runPaddr r fa = r.pstart + j * pageSize := by
  have hv := h.valigned
  have hb := h.below
  have hc := h.covered
  simp only [pageSize] at hfa hv hb hc ⊢
  refine ⟨(fa - r.vstart) / 4096,by omega,?_⟩
  unfold runPaddr
  rw [toU32_of_nonneg (by omega) (by omega)]
  omega

def Place.For (as : AddrSpace) (fa : Nat) : Place → Prop
  | .tableThenRun n r => as.get n = some r ∧ r.vstart ≤ fa ∧ fa < r.vend
  | .run r => ∃ n, as.get n = some r ∧ r.vstart ≤ fa ∧ fa < r.vend
  | .tableOnly n r => as.get n = some r
  | .nowhere => True

theorem placeOf_for (as : AddrSpace) {text data heap stack : Region} (ht : as.text = some text)
    (hd : as.data = some data) (hh : as.heap = some heap) (hs : as.stack = some stack)
    (fa : Nat) : (placeOf text data heap stack fa).For as fa := by
  unfold placeOf
  split
  · exact ⟨ht,‹_›⟩
  split
  · exact ⟨hd,‹_›⟩
  split
  · exact ⟨.stack,hs,‹_›⟩
  split
  · exact ⟨.heap,hh,‹_›⟩
  split
  · exact hs
  split
  · exact hh
  · exact trivial

theorem Region.Frame.of_run {j : Nat} (hp : r.pstart ≠ 0) (hj : j < r.numofpages) :
    r.Frame (r.pstart + j * pageSize) :=
  ⟨.whole,r.pstart,r.numofpages,j,by simp [Region.runAt,hp],hj,rfl⟩

theorem Region.Frame.of_page (he : e ∈ r.pagetable)
    (ha : e.allocated = true) : r.Frame e.pstart := by
  obtain ⟨i,hi⟩ := List.mem_iff_getElem?.mp he
  exact ⟨.page i,e.pstart,1,0,by simp [Region.runAt,hi,ha],by decide,by simp⟩

def Region.setPte (r : Region) (i : Nat) (e : Pte) : Region :=
  { r with pagetable := r.pagetable.set i e }

theorem Region.Wf.setPte (h : r.Wf) (i : Nat) (he : e.Wf) : (r.setPte i e).Wf where
  valigned := h.valigned
  covered := h.covered
  paligned := h.paligned
  below := h.below
  ptes := by
    intro d hd ha
    rcases List.mem_or_eq_of_mem_set hd with hd | rfl
    · exact h.ptes d hd ha
    · exact he

theorem Region.runAt_setPte_of_ne {sl : Slot}
    (h : sl ≠ .page i) : (r.setPte i e).runAt sl = r.runAt sl := by
  cases sl with
  | whole => rfl
  | page j =>
    have hij : i ≠ j := fun hij => h (hij ▸ rfl)
    simp [Region.runAt,Region.setPte,List.getElem?_set_ne hij]

theorem Region.runAt_setPte_self (hd : r.pagetable[i]? = some d) (ha : e.allocated = true) :
    (r.setPte i e).runAt (.page i) = some (e.pstart,1) := by
  have hi := (List.getElem?_eq_some_iff.mp hd).1
  simp [Region.runAt,Region.setPte,hi,ha]

/-- A region `r'` holds what `r` held and the run `(b,k)` in slot `sl`. -/
structure Gains (r : Region) (sl : Slot) (b k : Nat) (r' : Region) : Prop where
  wf : r'.Wf
  pages : r'.numofpages = r.numofpages
  back : ∀ sl' x, r'.runAt sl' = some x → r.runAt sl' = some x ∨ sl' = sl ∧ x = (b,k)
  keep : ∀ sl' x, r.runAt sl' = some x → r'.runAt sl' = some x

theorem Gains.loaded (hr : r.unbacked = true) {pend : Nat}
    (hwf : Region.Wf { r with pstart := pa, pend := pend }) :
    Gains r .whole pa r.numofpages { r with pstart := pa, pend := pend } := by
  have hz : r.pstart = 0 := by simp_all [Region.unbacked]
  refine ⟨hwf,rfl,fun sl x hx => ?_,fun sl x hx => ?_⟩
  · cases sl with
    | page i => exact .inl hx
    | whole =>
      simp only [Region.runAt] at hx
      split at hx
      · cases hx
      · cases hx
        exact .inr ⟨rfl,rfl⟩
  · cases sl with
    | page i => exact hx
    | whole => simp [Region.runAt,hz] at hx

theorem Gains.setPte (hr : r.Wf) (free : r.pagetable[i]? = some d) (unused : d.allocated = false)
    (used : e.allocated = true) (he : e.Wf) : Gains r (.page i) e.pstart 1 (r.setPte i e) := by
  refine ⟨hr.setPte i he,rfl,fun sl x hx => ?_,fun sl x hx => ?_⟩
  · by_cases hsl : sl = .page i
    · subst hsl
      rw [Region.runAt_setPte_self free used] at hx
      cases hx
      exact .inr ⟨rfl,rfl⟩
    · rw [Region.runAt_setPte_of_ne hsl] at hx
      exact .inl hx
  · rw [Region.runAt_setPte_of_ne]
    · exact hx
    · rintro rfl
      simp [Region.runAt,free,unused] at hx

theorem pageOf_aligned (a : Nat) : pageOf a % pageSize = 0 := by
  simp only [pageOf,pageSize]
  omega

theorem pageOf_of_aligned {a : Nat} (h : a % pageSize = 0) : pageOf a = a := by
  simp [pageOf,h]

def newPte (fa pa pend : Nat) : Pte := ⟨true,fa,(fa + pageSize) % 2^32,pa,pend⟩

theorem newPte_covers {pend : Nat} (h : fa + pageSize < 2^32) :
    Pte.covers fa (newPte fa pa pend) = true := by
  rw [covers_iff]
  refine ⟨rfl,Nat.le_refl fa,?_⟩
  show fa < (fa + pageSize) % 2^32
  rw [Nat.mod_eq_of_lt h]
  simp [pageSize]

/-- An entry in use says that the page is at `pa`. An entry for the very last page ends at 0, and
is not found again. -/
def Region.Entry (r : Region) (fa pa : Nat) : Prop :=
  ∃ e ∈ r.pagetable, e.allocated = true ∧ e.vstart ≤ fa ∧ (fa < e.vend ∨ fa = e.vstart) ∧
    pa = toU32 ((fa : Int) - e.vstart + e.pstart) ∧ (fa + pageSize < 2^32 → r.pteFor fa = some e)

theorem Region.Entry.frame (h : r.Entry fa pa) (hr : r.Wf) (hfa : fa % pageSize = 0) :
    r.Frame (pageOf pa) := by
  obtain ⟨e,he,ha,hge,hlt,rfl,-⟩ := h
  have hwf := hr.ptes e he ha
  have hend : fa < e.vstart + pageSize := by
    have hone := hwf.onePage
    simp only [pageSize] at hone ⊢
    omega
  rw [hwf.paddr_eq hfa hge hend,pageOf_of_aligned hwf.paligned]
  exact .of_page he ha

/-- A page table is as before, or a frame has gone into an entry for the page. -/
def TableStep (fa : Nat) (u : Uninit) (r : Region) (f : Frames) (r' : Region) (f' : Frames) :
    Prop :=
  r' = r ∧ f' = f ∨ ∃ i p, searchPagetable fa r.pagetable 0 = .missing i ∧
    getppages 1 u f = (p,f') ∧ r' = r.setPte i (newPte fa p ((p + pageSize) % 2^32))

def Installs (tlb : List TlbEntry) (t : TlbEntry) (tlb' : List TlbEntry) : Prop :=
  ∃ k d, tlb[k]? = some d ∧ d.valid = false ∧ tlb' = tlb.set k t

def Full (tlb : List TlbEntry) : Prop := ∀ t ∈ tlb, t.valid = true

section Tlb

variable {tlb tlb' : List TlbEntry} {t : TlbEntry} {ret : Int} {err : Option Errno} {place : Place}

theorem Installs.not_full (h : Installs tlb t tlb') : ¬ Full tlb := by
  intro hfull
  obtain ⟨k,d,hk,hfree,-⟩ := h
  rw [hfull d (List.mem_of_getElem? hk)] at hfree
  cases hfree

theorem Installs.mem {x : TlbEntry} (h : Installs tlb t tlb') (hx : x ∈ tlb') :
    x ∈ tlb ∨ x = t := by
  obtain ⟨k,d,-,-,rfl⟩ := h
  exact List.mem_or_eq_of_mem_set hx

theorem writeIntoTLB_cases (hfa : fa % pageSize = 0)
    (h : writeIntoTLB fa pa spl c m = (ret,m')) :
    ret = 1 ∧ Installs m.tlb ⟨fa,pageOf pa,true,true⟩ m'.tlb ∧ m'.frames = m.frames ∧
        m'.curspl = spl ∨
      Full m.tlb ∧ ret = c.tlbReturn ∧ m' = m := by
  unfold writeIntoTLB at h
  split at h
  · next i hi =>
    cases h
    obtain ⟨hlt,hfree,-⟩ := List.findIdx?_eq_some_iff_getElem.mp hi
    refine .inl ⟨rfl,⟨i,m.tlb[i],List.getElem?_eq_getElem hlt,by simpa using hfree,?_⟩,rfl,rfl⟩
    rw [pageOf_of_aligned hfa]
  · next hnone =>
    cases h
    refine .inr ⟨fun t ht => ?_,rfl,rfl⟩
    simpa using List.findIdx?_eq_none_iff.mp hnone t ht

theorem faultViaRun_cases (hfa : fa % pageSize = 0) (h : faultViaRun r fa spl c m = (err,m')) :
    m'.frames = m.frames ∧ (err = none ∨ err = some .EFAULT) ∧
    ((err = none ∧ m'.curspl = spl) ∧
        Installs m.tlb ⟨fa,pageOf (runPaddr r fa),true,true⟩ m'.tlb ∨
      Full m.tlb ∧ m'.tlb = m.tlb ∧ (err = none ↔ c.runReturn = 1)) := by
  unfold faultViaRun at h
  rcases hw : writeIntoTLB fa (runPaddr r fa) spl { c with tlbReturn := c.runReturn } m
    with ⟨ret,m₁⟩
  simp only [hw] at h
  rcases writeIntoTLB_cases hfa hw with ⟨rfl,hins,hf,hspl⟩ | ⟨hfull,rfl,rfl⟩
  · cases h
    exact ⟨hf,.inl rfl,.inl ⟨⟨rfl,hspl⟩,hins⟩⟩
  · split at h
    · next hone =>
      cases h
      exact ⟨rfl,.inl rfl,.inr ⟨hfull,rfl,iff_of_true rfl hone⟩⟩
    · next hone =>
      cases h
      exact ⟨rfl,.inr rfl,.inr ⟨hfull,rfl,iff_of_false (by simp) hone⟩⟩

theorem accessPagetable_cases (hfa : fa % pageSize = 0)
    (h : accessPagetable r fa spl c m = (ret,r',m')) :
    TableStep fa c.frames r m.frames r' m'.frames ∧
    (((ret = 1 ∧ searchPagetable fa r.pagetable 0 ≠ .full) ∧
        ∃ pa, r'.Entry fa pa ∧ Installs m.tlb ⟨fa,pageOf pa,true,true⟩ m'.tlb) ∨
      m'.tlb = m.tlb ∧ Full m.tlb ∧ (ret = 1 → c.tlbReturn = 1) ∨
      ret = 0 ∧ r' = r ∧ m' = m ∧ searchPagetable fa r.pagetable 0 = .full) := by
  -- the entry found in the table after the access is the one written
  have hwrite : ∀ {q : Region} {p : Nat} {f : Frames}, q.Entry fa p →
      (let out := writeIntoTLB fa p spl c { m with frames := f }
      ((if out.1 = 1 then 1 else 0),q,out.2)) = (ret,r',m') → r' = q ∧ m'.frames = f ∧
      (ret = 1 ∧ Installs m.tlb ⟨fa,pageOf p,true,true⟩ m'.tlb ∨
        m'.tlb = m.tlb ∧ Full m.tlb ∧ (ret = 1 → c.tlbReturn = 1)) := by
    intro q p f _ hout
    rcases hw : writeIntoTLB fa p spl c { m with frames := f } with ⟨w,m₂⟩
    simp only [hw,Prod.mk.injEq] at hout
    obtain ⟨rfl,rfl,rfl⟩ := hout
    rcases writeIntoTLB_cases hfa hw with ⟨rfl,hins,hf,-⟩ | ⟨hfull,rfl,rfl⟩
    · exact ⟨rfl,hf,.inl ⟨rfl,hins⟩⟩
    · exact ⟨rfl,rfl,.inr ⟨rfl,hfull,fun h1 => by by_contra hne; simp [hne] at h1⟩⟩
  unfold accessPagetable at h
  split at h
  · next e hs =>
    obtain ⟨hmem,ha,hge,hlt⟩ := searchPagetable_found hs
    have hent : r.Entry fa _ :=
      ⟨e,hmem,ha,hge,.inl hlt,rfl,fun _ => searchPagetable_found_find? hs⟩
    obtain ⟨rfl,hf,htlb⟩ := hwrite hent h
    exact ⟨.inl ⟨rfl,hf⟩,htlb.imp (And.imp (⟨·,by simp [hs]⟩) fun hi => ⟨_,hent,hi⟩) .inl⟩
  · next i hs =>
    obtain ⟨d,hd,-⟩ := searchPagetable_missing hs
    have hround : roundDown fa pageSize = fa := by simp [roundDown,hfa]
    rw [hround] at h
    rcases hg : getppages 1 c.frames m.frames with ⟨p,f⟩
    rw [hg] at h
    have hent : (r.setPte i (newPte fa p ((p + pageSize) % 2^32))).Entry fa
        (toU32 ((fa : Int) - fa + p)) :=
      ⟨_,List.mem_set (List.getElem?_eq_some_iff.mp hd).1 _,rfl,Nat.le_refl fa,.inr rfl,rfl,
        fun hend => searchPagetable_missing_find? hs (newPte_covers hend)⟩
    obtain ⟨rfl,hf,htlb⟩ := hwrite hent h
    exact ⟨.inr ⟨i,p,hs,hf ▸ hg,rfl⟩,
      htlb.imp (And.imp (⟨·,by simp [hs]⟩) fun hi => ⟨_,hent,hi⟩) .inl⟩
  · next hs =>
    cases h
    exact ⟨.inl ⟨rfl,rfl⟩,.inr (.inr ⟨rfl,rfl,rfl,hs⟩)⟩

def Place.Table (n : RegionName) (r : Region) (place : Place) : Prop :=
  place = .tableThenRun n r ∨ place = .tableOnly n r

/-- The contiguous run is used at once, or because the table is full. -/
def Place.Run (fa : Nat) (r : Region) (place : Place) : Prop :=
  place = .run r ∨ ∃ n, place = .tableThenRun n r ∧ searchPagetable fa r.pagetable 0 = .full

/-- What vm_fault does: a page table may get an entry for the page, and the page is entered in the
TLB unless that is full. -/
def Fault (as : AddrSpace) (fa : Nat) (c : Chance) (m : Mmu) (place : Place) (err : Option Errno)
    (as' : AddrSpace) (m' : Mmu) : Prop :=
  (err = none ∨ err = some .EFAULT) ∧
  ((∃ n r r', place.Table n r ∧ as' = as.set n r' ∧ TableStep fa c.frames r m.frames r' m'.frames ∧
      ((∃ pa, r'.Entry fa pa ∧ Installs m.tlb ⟨fa,pageOf pa,true,true⟩ m'.tlb) ∨
        m'.tlb = m.tlb ∧ (err = none → Full m.tlb ∧ (c.tlbReturn = 1 ∨ c.runReturn = 1)))) ∨
    as' = as ∧ m'.frames = m.frames ∧
      ((∃ r, place.Run fa r ∧ Installs m.tlb ⟨fa,pageOf (runPaddr r fa),true,true⟩ m'.tlb) ∨
        m'.tlb = m.tlb ∧ (err = none → Full m.tlb ∧ (c.tlbReturn = 1 ∨ c.runReturn = 1))))

/-- The page tables have what vm_fault needs for the page. -/
def Place.Served (fa : Nat) : Place → Prop
  | .tableThenRun _ _ | .run _ => True
  | .tableOnly _ r => searchPagetable fa r.pagetable 0 ≠ .full
  | .nowhere => False

/-- With a free TLB slot, only what is missing in the tables makes vm_fault fail, and then it
changes nothing. -/
def Answered (as : AddrSpace) (fa spl : Nat) (m : Mmu) (place : Place) (err : Option Errno)
    (as' : AddrSpace) (m' : Mmu) : Prop :=
  place = .nowhere ∨ ¬ Full m.tlb → m'.curspl = spl ∧ (err = none ∧ place.Served fa ∨
    err = some .EFAULT ∧ ¬ place.Served fa ∧ as' = as ∧ m'.tlb = m.tlb ∧ m'.frames = m.frames)

theorem faultViaRun_fault (hfa : fa % pageSize = 0) (hpl : place.Run fa r)
    (h : faultViaRun r fa spl c m = (err,m')) :
    Fault as fa c m place err as m' ∧ Answered as fa spl m place err as m' := by
  obtain ⟨hf,herr,htlb⟩ := faultViaRun_cases hfa h
  rcases htlb with ⟨⟨rfl,hspl⟩,hins⟩ | ⟨hfull,htlb,hret⟩
  · refine ⟨⟨herr,.inr ⟨rfl,hf,.inl ⟨r,hpl,hins⟩⟩⟩,fun _ => ⟨hspl,.inl ⟨rfl,?_⟩⟩⟩
    rcases hpl with rfl | ⟨n,rfl,-⟩ <;> trivial
  · refine ⟨⟨herr,.inr ⟨rfl,hf,.inr ⟨htlb,fun hnone => ⟨hfull,.inr (hret.mp hnone)⟩⟩⟩⟩,?_⟩
    rintro (rfl | hroom)
    · rcases hpl with hpl | ⟨n,hpl,-⟩ <;> cases hpl
    · exact absurd hfull hroom

theorem faultAt_fault (hfa : fa % pageSize = 0) (hp : place.For as fa)
    (h : faultAt as fa spl c m place = (err,as',m')) :
    Fault as fa c m place err as' m' ∧ Answered as fa spl m place err as' m' := by
  cases place with
  | tableThenRun n r =>
    rcases hacc : accessPagetable r fa spl c m with ⟨ret,r',m₁⟩
    obtain ⟨hstep,hcase⟩ := accessPagetable_cases hfa hacc
    simp only [faultAt,hacc] at h
    split at h
    · next hone =>
      cases h
      refine ⟨⟨.inl rfl,.inl ⟨n,r,r',.inl rfl,rfl,hstep,?_⟩⟩,fun _ => ⟨rfl,.inl ⟨rfl,trivial⟩⟩⟩
      rcases hcase with ⟨-,hent⟩ | ⟨htlb,hfull,hret⟩ | ⟨rfl,-⟩
      · exact .inl hent
      · exact .inr ⟨htlb,fun _ => ⟨hfull,.inl (hret hone)⟩⟩
      · cases hone
    · next hne =>
      -- the contiguous run is tried after the table has failed
      rcases hrun : faultViaRun r fa spl c m₁ with ⟨e₁,m₂⟩
      rw [hrun] at h
      cases h
      rcases hcase with ⟨hone,-⟩ | ⟨htlb,hfull,-⟩ | ⟨-,rfl,rfl,hs⟩
      · exact absurd hone.1 hne
      · obtain ⟨hf,herr,⟨-,hins⟩ | ⟨-,htlb',hret⟩⟩ := faultViaRun_cases hfa hrun
        · exact absurd hfull (htlb ▸ hins.not_full)
        · exact ⟨⟨herr,.inl ⟨n,r,r',.inl rfl,rfl,hf ▸ hstep,
            .inr ⟨htlb'.trans htlb,fun hno => ⟨hfull,.inr (hret.mp hno)⟩⟩⟩⟩,
            fun hroom => absurd hfull (hroom.resolve_left nofun)⟩
      · rw [AddrSpace.set_get_self hp.1]
        exact faultViaRun_fault hfa (.inr ⟨n,rfl,hs⟩) hrun
  | run r =>
    rcases hrun : faultViaRun r fa spl c m with ⟨e₁,m₂⟩
    simp only [faultAt,hrun] at h
    cases h
    exact faultViaRun_fault hfa (.inl rfl) hrun
  | tableOnly n r =>
    rcases hacc : accessPagetable r fa spl c m with ⟨ret,r',m₁⟩
    obtain ⟨hstep,hcase⟩ := accessPagetable_cases hfa hacc
    simp only [faultAt,hacc,Prod.mk.injEq] at h
    obtain ⟨rfl,rfl,rfl⟩ := h
    have herr : (if ret = 1 then none else some Errno.EFAULT) = none → ret = 1 := by
      split <;> simp_all
    refine ⟨⟨by split <;> simp,.inl ⟨n,r,r',.inr rfl,rfl,hstep,?_⟩⟩,fun hroom => ⟨rfl,?_⟩⟩
    · rcases hcase with ⟨-,hent⟩ | ⟨htlb,hfull,hret⟩ | ⟨rfl,-,rfl,-⟩
      · exact .inl hent
      · exact .inr ⟨htlb,fun hnone => ⟨hfull,.inl (hret (herr hnone))⟩⟩
      · exact .inr ⟨rfl,by simp⟩
    · rcases hcase with ⟨⟨rfl,hs⟩,-⟩ | ⟨-,hfull,-⟩ | ⟨rfl,rfl,rfl,hs⟩
      · exact .inl ⟨rfl,hs⟩
      · exact absurd hfull (hroom.resolve_left nofun)
      · exact .inr ⟨rfl,not_not.mpr hs,AddrSpace.set_get_self hp,rfl,rfl⟩
  | nowhere =>
    cases h
    exact ⟨⟨.inr rfl,.inr ⟨rfl,rfl,.inr ⟨rfl,by simp⟩⟩⟩,fun _ => ⟨rfl,.inr ⟨rfl,id,rfl,rfl,rfl⟩⟩⟩

theorem Place.For.region (h : place.For as fa) (hpl : place.Table n r) : as.get n = some r := by
  rcases hpl with rfl | rfl
  · exact h.1
  · exact h

theorem Place.For.run (h : place.For as fa) (hpl : place.Run fa r) :
    ∃ n, as.get n = some r ∧ r.vstart ≤ fa ∧ fa < r.vend := by
  rcases hpl with rfl | ⟨n,rfl,-⟩
  · exact h
  · exact ⟨n,h⟩

/-- The address space and the frames, without the TLB. -/
theorem Fault.space (h : Fault as fa c m place err as' m') (hp : place.For as fa) :
    as' = as ∧ m'.frames = m.frames ∨ ∃ n r i p, place.Table n r ∧ as.get n = some r ∧
      searchPagetable fa r.pagetable 0 = .missing i ∧ getppages 1 c.frames m.frames =
        (p,m'.frames) ∧ as' = as.set n (r.setPte i (newPte fa p ((p + pageSize) % 2^32))) := by
  obtain ⟨-,⟨n,r,r',hpl,rfl,⟨rfl,hf⟩ | ⟨i,p,hs,hg,rfl⟩,-⟩ | ⟨rfl,hf,-⟩⟩ := h
  · exact .inl ⟨AddrSpace.set_get_self (hp.region hpl),hf⟩
  · exact .inr ⟨n,r,i,p,hpl,hp.region hpl,hs,hg,rfl⟩
  · exact .inl ⟨rfl,hf⟩

theorem Fault.mem (h : Fault as fa c m place err as' m') (ht : t ∈ m'.tlb) :
    t ∈ m.tlb ∨ place ≠ .nowhere ∧ t.vpage = fa := by
  obtain ⟨-,⟨n,r,r',hpl,-,-,⟨pa,-,hi⟩ | ⟨htlb,-⟩⟩ | ⟨-,-,⟨r,hpl,hi⟩ | ⟨htlb,-⟩⟩⟩ := h
  · refine (hi.mem ht).imp_right ?_
    rintro rfl
    rcases hpl with rfl | rfl <;> simp
  · exact .inl (htlb ▸ ht)
  · refine (hi.mem ht).imp_right ?_
    rintro rfl
    rcases hpl with rfl | ⟨n,rfl,-⟩ <;> simp
  · exact .inl (htlb ▸ ht)

end Tlb

theorem AddrSpace.loaded_iff : as.loaded = true ↔
    ∃ text data heap stack, as = .of text data heap stack ∧
      text.pstart ≠ 0 ∧ data.pstart ≠ 0 ∧ stack.pstart ≠ 0 := by
  obtain ⟨text,data,heap,stack⟩ := as
  cases text <;> cases data <;> cases heap <;> cases stack <;>
    simp [AddrSpace.loaded,and_assoc]

/-- A loaded region that covers an address is backed: the heap, which is not,
covers none. -/
theorem AddrSpace.Wf.run_frame (h : as.Wf) (hl : as.loaded = true) (hr : as.get n = some r)
    (hfa : fa % pageSize = 0) (hge : r.vstart ≤ fa) (hlt : fa < r.vend) :
    r.Frame (runPaddr r fa) ∧ runPaddr r fa % pageSize = 0 := by
  obtain ⟨text,data,heap,stack,rfl,ht,hd,hs⟩ := AddrSpace.loaded_iff.mp hl
  have hwf := h.regions n r hr
  obtain ⟨j,hj,hp⟩ := hwf.runPaddr_eq hfa hge hlt
  have hnz : r.pstart ≠ 0 := by
    cases n with
    | text => cases hr; exact ht
    | data => cases hr; exact hd
    | stack => cases hr; exact hs
    | heap =>
      have hz := h.heap r hr
      omega
  have ha := hwf.paligned
  rw [hp]
  refine ⟨Region.Frame.of_run hnz hj,?_⟩
  simp only [pageSize] at ha ⊢
  omega

/-- What a fault does for a loaded address space: one access to the table of one
of its regions, and TLB entries only for frames of the address space. -/
structure FaultStep (as : AddrSpace) (m : Mmu) (as' : AddrSpace) (m' : Mmu) : Prop where
  space : (as' = as ∧ m'.frames = m.frames) ∨ ∃ n r r' sl b, as.get n = some r ∧
    as' = as.set n r' ∧ Gains r sl b 1 r' ∧ HandsOut m.frames 1 b m'.frames
  tlb : ∀ t ∈ m'.tlb, t ∈ m.tlb ∨ as'.Frame t.ppage

theorem TableStep.gains {u : Uninit} {f' : Frames} (h : TableStep fa u r f r' f') (hr : r.Wf)
    (hfa : fa % pageSize = 0) (hlay : Layout f)
    (hfit : ∀ i, searchPagetable fa r.pagetable 0 = .missing i → Fits f.coremap 1) :
    r'.Wf ∧ (r' = r ∧ f' = f ∨ ∃ sl b, Gains r sl b 1 r' ∧ HandsOut f 1 b f') := by
  rcases h with ⟨rfl,rfl⟩ | ⟨i,p,hs,hg,rfl⟩
  · exact ⟨hr,.inl ⟨rfl,rfl⟩⟩
  · obtain ⟨d,hd,hfree⟩ := searchPagetable_missing hs
    have hout := getppages_fits hlay (hfit i hs) u
    rw [hg] at hout
    have hwf : (newPte fa p ((p + pageSize) % 2^32)).Wf :=
      ⟨hfa,Nat.mod_le _ _,hout.aligned,Nat.lt_of_le_of_lt (Nat.le_add_right _ _) hout.below⟩
    have hgain := Gains.setPte hr hd hfree rfl hwf
    exact ⟨hgain.wf,.inr ⟨.page i,p,hgain,hout⟩⟩

theorem Fault.step {err : Option Errno} {place : Place} (h : Fault as fa c m place err as' m')
    (hwf : as.Wf) (hl : as.loaded = true) (hfa : fa % pageSize = 0) (hlay : Layout m.frames)
    (hp : place.For as fa) (hfit : ∀ n r i, place.Table n r →
      searchPagetable fa r.pagetable 0 = .missing i → Fits m.frames.coremap 1) :
    FaultStep as m as' m' := by
  obtain ⟨-,⟨n,r,r',hpl,rfl,hacc,htlb⟩ | ⟨rfl,hf,htlb⟩⟩ := h
  · have hr := hp.region hpl
    obtain ⟨hr',hgain⟩ := hacc.gains (hwf.regions n r hr) hfa hlay fun i => hfit n r i hpl
    constructor
    · rcases hgain with ⟨rfl,hf⟩ | ⟨sl,b,hg,hout⟩
      · exact .inl ⟨AddrSpace.set_get_self hr,hf⟩
      · exact .inr ⟨n,r,r',sl,b,hr,rfl,hg,hout⟩
    · intro t ht
      rcases htlb with ⟨p,hent,hi⟩ | ⟨htlb,-⟩
      · refine (hi.mem ht).imp_right ?_
        rintro rfl
        exact ⟨n,r',AddrSpace.get_set_self as n r',hent.frame hr' hfa⟩
      · exact .inl (htlb ▸ ht)
  · refine ⟨.inl ⟨rfl,hf⟩,fun t ht => ?_⟩
    rcases htlb with ⟨r,hpl,hi⟩ | ⟨htlb,-⟩
    · obtain ⟨n,hr,hge,hlt⟩ := hp.run hpl
      obtain ⟨hframe,halign⟩ := hwf.run_frame hl hr hfa hge hlt
      refine (hi.mem ht).imp_right ?_
      rintro rfl
      exact ⟨n,r,hr,(pageOf_of_aligned halign).symm ▸ hframe⟩
    · exact .inl (htlb ▸ ht)

theorem vmFault_eq (hft : ft = .read ∨ ft = .write) (addr : Nat)
    (text data heap stack : Region) {e : Option Errno} {a : AddrSpace} {m' : Mmu}
    (h : faultAt (.of text data heap stack) (pageOf addr) m.curspl c
      { m with curspl := splHigh } (placeOf text data heap stack (pageOf addr)) = (e,a,m')) :
    vmFault ft addr (some (.of text data heap stack)) c m = .ok (e,some a,m') := by
  rcases hft with rfl | rfl <;> simp only [vmFault,h]

/-- What a call of vm_fault that returns has done for an address space. -/
theorem vmFault_ok {e : Option Errno} {as' : Option AddrSpace}
    (h : vmFault ft addr (some as) c m = .ok (e,as',m')) :
    (e = some .EINVAL ∧ as' = some as ∧ m' = m) ∨
    ∃ text data heap stack a, as = .of text data heap stack ∧ as' = some a ∧
      faultAt as (pageOf addr) m.curspl c { m with curspl := splHigh }
        (placeOf text data heap stack (pageOf addr)) = (e,a,m') := by
  cases ft with
  | readonly => cases h
  | other code =>
    cases h
    exact .inl ⟨rfl,rfl,rfl⟩
  | read | write =>
    obtain ⟨_ | text,_ | data,_ | heap,_ | stack⟩ := as
    case some.some.some.some =>
      rcases hf : faultAt (.of text data heap stack) (pageOf addr) m.curspl c
        { m with curspl := splHigh } (placeOf text data heap stack (pageOf addr)) with ⟨e₁,a,m₁⟩
      rw [vmFault_eq (by simp) addr text data heap stack hf] at h
      cases h
      exact .inr ⟨text,data,heap,stack,a,rfl,rfl,hf⟩
    all_goals cases h

theorem vmFault_fault {e : Option Errno} {as' : Option AddrSpace}
    (h : vmFault ft addr (some as) c m = .ok (e,as',m')) :
    (e = some .EINVAL ∧ as' = some as ∧ m' = m) ∨
    ∃ text data heap stack a, as = .of text data heap stack ∧ as' = some a ∧
      (placeOf text data heap stack (pageOf addr)).For as (pageOf addr) ∧
      Fault as (pageOf addr) c m (placeOf text data heap stack (pageOf addr)) e a m' := by
  refine (vmFault_ok h).imp_right ?_
  rintro ⟨text,data,heap,stack,a,rfl,rfl,hf⟩
  have hplace := placeOf_for (.of text data heap stack) rfl rfl rfl rfl
    (pageOf addr)
  exact ⟨text,data,heap,stack,a,rfl,rfl,hplace,
    (faultAt_fault (m := { m with curspl := splHigh }) (pageOf_aligned addr) hplace hf).1⟩

theorem vmFault_spec
    {e : Option Errno} {as' : Option AddrSpace} (hwf : as.Wf) (hl : as.loaded = true)
    (hlay : Layout m.frames) (hfit : takesFrame as (pageOf addr) = true → Fits m.frames.coremap 1)
    (h : vmFault ft addr (some as) c m = .ok (e,as',m')) :
    ∃ a, as' = some a ∧ FaultStep as m a m' := by
  rcases vmFault_fault h with ⟨-,rfl,rfl⟩ | ⟨text,data,heap,stack,a,rfl,rfl,hplace,hf⟩
  · exact ⟨_,rfl,.inl ⟨rfl,rfl⟩,fun _ => .inl⟩
  · refine ⟨a,rfl,hf.step hwf hl (pageOf_aligned addr) hlay hplace ?_⟩
    rintro n r i (hpl | hpl) hi <;> exact hfit (by simp [takesFrame,hpl,hi])

theorem translatePage_frame (hwf : as.Wf) (hl : as.loaded = true)
    (hfa : fa % pageSize = 0) (h : translatePage as fa = some pa) :
    as.Frame pa ∧ pa % pageSize = 0 := by
  obtain ⟨text,data,heap,stack,rfl,_⟩ := AddrSpace.loaded_iff.mp hl
  have hplace := placeOf_for (.of text data heap stack) rfl rfl rfl rfl fa
  have hfound : ∀ n r e, (AddrSpace.of text data heap stack).get n = some r →
      searchPagetable fa r.pagetable 0 = .found e →
      toU32 ((fa : Int) - e.vstart + e.pstart) = pa →
      AddrSpace.Frame (.of text data heap stack) pa ∧ pa % pageSize = 0 := by
    intro n r e hr hs hp
    obtain ⟨hmem,ha,hge,hlt⟩ := searchPagetable_found hs
    have he := (hwf.regions n r hr).ptes e hmem ha
    rw [he.paddr_eq hfa hge (Nat.lt_of_lt_of_le hlt he.onePage)] at hp
    subst hp
    exact ⟨⟨n,r,hr,Region.Frame.of_page hmem ha⟩,he.paligned⟩
  have hrun : ∀ n r, (AddrSpace.of text data heap stack).get n = some r →
      r.vstart ≤ fa → fa < r.vend → runPaddr r fa = pa →
      AddrSpace.Frame (.of text data heap stack) pa ∧ pa % pageSize = 0 := by
    rintro n r hr hge hlt rfl
    obtain ⟨hframe,halign⟩ := hwf.run_frame hl hr hfa hge hlt
    exact ⟨⟨n,r,hr,hframe⟩,halign⟩
  simp only [translatePage] at h
  cases hpl : placeOf text data heap stack fa with
  | tableThenRun n r =>
    rw [hpl] at hplace h
    obtain ⟨hr,hge,hlt⟩ := hplace
    cases hs : searchPagetable fa r.pagetable 0 with
    | found e => exact hfound n r e hr hs (by simpa [hs] using h)
    | missing i => simp [hs] at h
    | full => exact hrun n r hr hge hlt (by simpa [hs] using h)
  | run r =>
    rw [hpl] at hplace h
    obtain ⟨n,hr,hge,hlt⟩ := hplace
    exact hrun n r hr hge hlt (by simpa using h)
  | tableOnly n r =>
    rw [hpl] at hplace h
    cases hs : searchPagetable fa r.pagetable 0 with
    | found e => exact hfound n r e hplace hs (by simpa [hs] using h)
    | missing | full => simp [hs] at h
  | nowhere => simp [hpl] at h

end MipsOs.Vm
