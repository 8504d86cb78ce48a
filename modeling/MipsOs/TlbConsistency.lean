import MipsOs.PageTables

/-! The TLB while one address space runs: which page each valid entry is for, and which frame. -/

set_option autoImplicit false
namespace MipsOs.Vm
open Runs

section Running

def Distinct (tlb : List TlbEntry) : Prop :=
  ∀ (i j : Nat) (a b : TlbEntry), tlb[i]? = some a → tlb[j]? = some b →
    a.valid = true → b.valid = true → a.vpage = b.vpage → i = j

/-- The calls that change the TLB while one address space runs. -/
inductive TlbAct where
  | activate
  | fault (ft : FaultType) (addr : Nat) (c : Chance)

def tlbStep (s : AddrSpace × Mmu) : TlbAct → Option (AddrSpace × Mmu)
  | .activate => some (s.1,asActivate s.2)
  | .fault ft addr c =>
    match vmFault ft addr (some s.1) c s.2 with
    | .ok (_,some as,m) => some (as,m)
    | _ => none

variable {s u : AddrSpace × Mmu} {ft : FaultType} {addr : Nat} {t : TlbEntry}
  {text data heap stack : Region}

theorem tlbStep_fault {c : Chance} (h : tlbStep s (.fault ft addr c) = some u) :
    ∃ e, vmFault ft addr (some s.1) c s.2 = .ok (e,some u.1,u.2) := by
  simp only [tlbStep] at h
  split at h
  · next e as m hf =>
    cases h
    exact ⟨e,hf⟩
  · cases h

def misses (s : AddrSpace × Mmu) : TlbAct → Bool
  | .activate => true
  | .fault _ addr _ => s.2.tlb.all fun t => !(t.valid && t.vpage == pageOf addr)

theorem misses_iff {c : Chance} :
    misses s (.fault ft addr c) = true ↔
      ∀ t ∈ s.2.tlb, t.valid = true → t.vpage ≠ pageOf addr := by
  rw [misses,List.all_eq_true]
  refine forall₂_congr fun t _ => ?_
  cases t.valid <;> simp

/-- What holds while an address space runs. -/
structure Consistent (as : AddrSpace) (tlb : List TlbEntry) : Prop where
  tidy : Tidy as
  distinct : Distinct tlb
  aligned : ∀ t ∈ tlb, t.valid = true → t.vpage % pageSize = 0
  mapped : ∀ t ∈ tlb, t.valid = true → as.Maps t

theorem consistent_activate {as : AddrSpace} (h : Tidy as) (m : Mmu) :
    Consistent as (asActivate m).tlb := by
  have hinv : ∀ t ∈ (asActivate m).tlb, t.valid = false := by
    intro t ht
    obtain ⟨i,-,rfl⟩ := List.mem_map.mp ht
    rfl
  refine ⟨h,fun i j a b ha hb hva => ?_,fun t ht hv => ?_,fun t ht hv => ?_⟩
  · rw [hinv a (List.mem_of_getElem? ha)] at hva
    cases hva
  · rw [hinv t ht] at hv
    cases hv
  · rw [hinv t ht] at hv
    cases hv

variable {as as' : AddrSpace} {tlb tlb' : List TlbEntry} {fa : Nat} {c : Chance}
  {e : Option Errno}

theorem Distinct.installs (h : Distinct tlb)
    (hmiss : ∀ x ∈ tlb, x.valid = true → x.vpage ≠ t.vpage) (hi : Installs tlb t tlb') :
    Distinct tlb' := by
  obtain ⟨k,d,hk,-,rfl⟩ := hi
  intro i j a b ha hb hva hvb hab
  rw [List.getElem?_set] at ha hb
  split at ha
  · next hki =>
    split at hb
    · next hkj => exact hki.symm.trans hkj
    · split at ha
      · cases ha
        exact absurd hab.symm (hmiss b (List.mem_of_getElem? hb) hvb)
      · cases ha
  · split at hb
    · split at hb
      · cases hb
        exact absurd hab (hmiss a (List.mem_of_getElem? ha) hva)
      · cases hb
    · exact h i j a b ha hb hva hvb hab

theorem Faulted.maps_other (h : Faulted as tlb fa c e as' tlb')
    (hfa : fa % pageSize = 0) (ht : t.vpage % pageSize = 0) (hne : t.vpage ≠ fa)
    (hm : as.Maps t) : as'.Maps t := by
  rcases h.space with rfl | ⟨n,r,r',hr,hnew,rfl,-⟩
  · exact hm
  · obtain ⟨k,q,hat,hq,hpp⟩ := hm
    obtain ⟨i,d,pa,pend,hd,hfree,rfl⟩ := hnew
    rw [← regionAt_setPte hr] at hat
    by_cases hk : k = n
    · subst hk
      cases hr.symm.trans hq
      refine ⟨k,_,hat,AddrSpace.get_set_self as k _,?_⟩
      have hpte : (r.setPte i (newPte fa pa pend)).pteFor t.vpage = r.pteFor t.vpage :=
        find?_set_covers hd hfree (newPte_covers_ne pa pend hfa ht hne)
      rw [hpp,Region.frameOf,Region.frameOf,hpte]
      rfl
    · exact ⟨k,q,hat,(AddrSpace.get_set_of_ne as _ hk).trans hq,hpp⟩

theorem Faulted.consistent (h : Faulted as tlb fa c e as' tlb') (hfa : fa % pageSize = 0)
    (hmiss : ∀ t ∈ tlb, t.valid = true → t.vpage ≠ fa) (hc : Consistent as tlb) :
    Consistent as' tlb' := by
  have hkeep : ∀ t ∈ tlb, t.valid = true → as'.Maps t := fun t ht hv =>
    h.maps_other hfa (hc.aligned t ht hv) (hmiss t ht hv) (hc.mapped t ht hv)
  rcases h.tlb with ⟨t,hpage,hval,hmap,hins⟩ | ⟨rfl,-⟩
  · subst hpage
    refine ⟨h.tidy hfa hc.tidy,hc.distinct.installs hmiss hins,fun x hx hv => ?_,
      fun x hx hv => ?_⟩
    · rcases hins.mem hx with hx | rfl
      · exact hc.aligned x hx hv
      · exact hfa
    · rcases hins.mem hx with hx | rfl
      · exact hkeep x hx hv
      · exact hmap
  · exact ⟨h.tidy hfa hc.tidy,hc.distinct,hc.aligned,hkeep⟩

theorem tlbStep_consistent {a : TlbAct} (h : Consistent s.1 s.2.tlb)
    (hmiss : misses s a = true) (hs : tlbStep s a = some u) : Consistent u.1 u.2.tlb := by
  cases a with
  | activate =>
    cases hs
    exact consistent_activate h.tidy s.2
  | fault ft addr c =>
    obtain ⟨e,hf⟩ := tlbStep_fault hs
    obtain ⟨a,ha,hfault⟩ := vmFault_faulted h.tidy hf
    cases ha
    exact hfault.consistent (pageOf_aligned addr) (misses_iff.mp hmiss) h

/-- While an address space runs, no two valid TLB entries are for one page and each of them
translates as the page tables say; and a fault that is handled leaves an entry for its page, if
there is a free slot or write_into_TLB happens not to return 1 without one. -/
theorem tlb_consistent {as : AddrSpace} (hl : Loaded as) (m : Mmu) {acts : List TlbAct}
    {s : AddrSpace × Mmu}
    (hmiss : Along tlbStep (fun s a => misses s a = true) (as,asActivate m) acts)
    (hrun : run tlbStep (as,asActivate m) acts = some s) :
    Distinct s.2.tlb ∧ (∀ t ∈ s.2.tlb, t.valid = true → s.1.Maps t) ∧
    ∀ ft addr c as' m', misses s (.fault ft addr c) = true →
      (c.tlbReturn ≠ 1 ∧ c.runReturn ≠ 1 ∨ ∃ t ∈ s.2.tlb, t.valid = false) →
      vmFault ft addr (some s.1) c s.2 = .ok (none,as',m') →
      ∃ t ∈ m'.tlb, t.valid = true ∧ t.vpage = pageOf addr := by
  have hend : Consistent s.1 s.2.tlb :=
    run_keeps (I := fun s => Consistent s.1 s.2.tlb)
      (fun _ _ _ h hm hs => tlbStep_consistent h hm hs) (consistent_activate hl.tidy m) hmiss hrun
  refine ⟨hend.distinct,hend.mapped,fun ft addr c as' m' _ hroom hf => ?_⟩
  obtain ⟨a,-,hfault⟩ := vmFault_faulted hend.tidy hf
  rcases hfault.tlb with ⟨t,hpage,hval,-,k,d,hk,-,htlb⟩ | ⟨-,hfull⟩
  · have hlt := (List.getElem?_eq_some_iff.mp hk).1
    exact ⟨t,htlb ▸ List.mem_set hlt t,hval,hpage⟩
  · obtain ⟨hfull,hret⟩ := hfull rfl
    rcases hroom with ⟨h1,h2⟩ | ⟨t,ht,hv⟩
    · exact (hret.elim h1 h2).elim
    · rw [hfull t ht] at hv
      cases hv

def loadImage (pages : Nat) (f : Frames) : Option (AddrSpace × Frames) :=
  match asDefineRegion asCreate 0x400000 (pages * pageSize) with
  | .ok a =>
    match asDefineRegion a 0x10000000 pageSize with
    | .ok b =>
      match asPrepareLoad b (fun _ => zeroed) f with
      | .ok (none,as,f) => some (as,f)
      | _ => none
    | .error _ => none
  | .error _ => none

theorem loadImage_loaded {pages : Nat} {f f' : Frames} {as : AddrSpace}
    (h : loadImage pages f = some (as,f')) : Loaded as := by
  unfold loadImage at h
  split at h
  · next a ha =>
    split at h
    · next b hb =>
      split at h
      · next as₁ f₁ hp =>
        cases h
        exact .load ha hb hp
      · cases h
    · cases h
  · cases h

def touchPages (n : Nat) : List TlbAct :=
  (List.range n).map fun i => .fault .read (0x400000 + i * pageSize) ⟨zeroed,0,0⟩

theorem tlb_consistent_threePages : ∃ as f s,
    loadImage 3 smallBooted = some (as,f) ∧
    run tlbStep (as,asActivate ⟨f,[],0⟩) (touchPages 3) = some s ∧
    (s.2.tlb.filter (·.valid)).length = 3 ∧ Distinct s.2.tlb := by
  have hrun : ((loadImage 3 smallBooted).any fun x =>
      checkAlong tlbStep misses (x.1,asActivate ⟨x.2,[],0⟩) (touchPages 3) &&
      (run tlbStep (x.1,asActivate ⟨x.2,[],0⟩) (touchPages 3)).any fun s =>
        (s.2.tlb.filter (·.valid)).length == 3) = true := by
    decide +kernel
  obtain ⟨⟨as,f⟩,himg,h⟩ := some_of_any hrun
  obtain ⟨hmiss,h⟩ := Bool.and_eq_true_iff.mp h
  obtain ⟨s,hs,hlen⟩ := some_of_any h
  exact ⟨as,f,s,himg,hs,eq_of_beq hlen,
    (tlb_consistent (loadImage_loaded himg) _ (.of_check (fun _ _ h => h) hmiss) hs).1⟩

/-- A fault in the text region is handled if there is a free slot, or if the last write_into_TLB
happens to return 1. -/
theorem vmFault_text {m : Mmu} (data heap stack : Region)
    (hin : text.vstart ≤ pageOf addr ∧ pageOf addr < text.vend)
    (hroom : ¬ Full m.tlb ∨ c.runReturn = 1) :
    ∃ as' m', vmFault .read addr (some (.of text data heap stack)) c m =
      .ok (none,some as',m') := by
  have hplace : placeOf text data heap stack (pageOf addr) = .tableThenRun .text text := if_pos hin
  rcases hacc : accessPagetable text (pageOf addr) m.curspl c { m with curspl := splHigh }
    with ⟨ret,r',m₁⟩
  obtain ⟨-,hcase⟩ := accessPagetable_cases (pageOf_aligned addr) hacc
  simp only [vmFault,hplace,faultAt,hacc]
  split
  · exact ⟨_,_,rfl⟩
  · next hne =>
    rcases hrun : faultViaRun text (pageOf addr) m.curspl c m₁ with ⟨e,m₂⟩
    have htlb : m₁.tlb = m.tlb := by
      rcases hcase with ⟨⟨hone,-⟩,-⟩ | ⟨htlb,-⟩ | ⟨-,-,rfl,-⟩
      · exact absurd hone hne
      · exact htlb
      · rfl
    have hnone : e = none := by
      rcases (faultViaRun_cases (pageOf_aligned addr) hrun).2.2 with ⟨hnone,-⟩ | ⟨hfull,-,hret⟩
      · exact hnone.1
      · exact hret.mpr (hroom.resolve_left (not_not.mpr (htlb ▸ hfull)))
    exact ⟨_,_,by rw [hnone]⟩

/-- After faults on the first `n` pages of a text of 65 pages at 0x400000. -/
structure Touched (n : Nat) (s : AddrSpace × Mmu) : Prop where
  consistent : Consistent s.1 s.2.tlb
  bounds : ∃ text data heap stack, s.1 = .of text data heap stack ∧
    text.vstart = 0x400000 ∧ text.vend = 0x441000
  slots : s.2.tlb.length = numTlb
  used : s.2.tlb.countP TlbEntry.valid = n
  pages : ∀ t ∈ s.2.tlb, t.valid = true → t.vpage < 0x400000 + n * pageSize

theorem countP_installs (ht : t.valid = true) (h : Installs tlb t tlb') :
    tlb'.length = tlb.length ∧ tlb'.countP TlbEntry.valid = tlb.countP TlbEntry.valid + 1 := by
  obtain ⟨k,d,hk,hfree,rfl⟩ := h
  obtain ⟨hlt,hd⟩ := List.getElem?_eq_some_iff.mp hk
  refine ⟨List.length_set,?_⟩
  rw [List.countP_set hlt,hd,hfree,ht]
  simp

theorem full_of_countP (h : tlb.countP TlbEntry.valid = tlb.length) : Full tlb :=
  List.countP_eq_length.mp h

theorem Faulted.bounds
    (h : Faulted (.of text data heap stack) tlb fa c e as' tlb') :
    ∃ text' data' heap' stack', as' = ⟨some text',some data',some heap',some stack'⟩ ∧
      text'.vstart = text.vstart ∧ text'.vend = text.vend := by
  rcases h.space with rfl | ⟨n,r,r',hr,⟨i,d,pa,pend,-,-,rfl⟩,rfl,-⟩
  · exact ⟨text,data,heap,stack,rfl,rfl,rfl⟩
  · cases n with
    | text =>
      cases hr
      exact ⟨_,data,heap,stack,rfl,rfl,rfl⟩
    | data => exact ⟨text,_,heap,stack,rfl,rfl,rfl⟩
    | heap => exact ⟨text,data,_,stack,rfl,rfl,rfl⟩
    | stack => exact ⟨text,data,heap,_,rfl,rfl,rfl⟩

theorem Touched.next {n : Nat} (h : Touched n s) (hn : n < numTlb) :
    ∃ u, tlbStep s (.fault .read (0x400000 + n * pageSize) ⟨zeroed,0,0⟩) = some u ∧
      misses s (.fault .read (0x400000 + n * pageSize) ⟨zeroed,0,0⟩) = true ∧
      Touched (n+1) u := by
  obtain ⟨as,m⟩ := s
  obtain ⟨text,data,heap,stack,rfl,hlow,hhigh⟩ := h.bounds
  have hpage : pageOf (0x400000 + n * pageSize) = 0x400000 + n * pageSize :=
    pageOf_of_aligned (by simp only [pageSize]; omega)
  have hin : text.vstart ≤ pageOf (0x400000 + n * pageSize) ∧
      pageOf (0x400000 + n * pageSize) < text.vend := by
    rw [hpage,hlow,hhigh]
    simp only [pageSize,numTlb] at hn ⊢
    omega
  have hfree : ¬ Full m.tlb := by
    intro hfull
    have hall := List.countP_eq_length.mpr hfull
    have hused := h.used
    have hslots := h.slots
    simp only at hused hslots
    omega
  have hmiss : ∀ t ∈ m.tlb, t.valid = true → t.vpage ≠ pageOf (0x400000 + n * pageSize) := by
    intro t ht hv
    have hlt := h.pages t ht hv
    rw [hpage]
    omega
  have hnext : 0x400000 + n * pageSize < 0x400000 + (n+1) * pageSize := by
    simp only [pageSize]
    omega
  obtain ⟨as',m',hf⟩ := vmFault_text data heap stack (c := ⟨zeroed,0,0⟩) hin (.inl hfree)
  obtain ⟨a,ha,hfault⟩ := vmFault_faulted h.consistent.tidy hf
  cases ha
  refine ⟨(as',m'),by simp only [tlbStep,hf],misses_iff.mpr hmiss,?_⟩
  obtain ⟨text',data',heap',stack',hs,hv,he⟩ := hfault.bounds
  rcases hfault.tlb with ⟨t,htp,htv,-,hins⟩ | ⟨-,hfull⟩
  · obtain ⟨hlen,hcount⟩ := countP_installs htv hins
    refine ⟨hfault.consistent (pageOf_aligned _) hmiss h.consistent,
      ⟨text',data',heap',stack',hs,hv.trans hlow,he.trans hhigh⟩,hlen.trans h.slots,
      hcount.trans (congrArg (· + 1) h.used),fun x hx hxv => ?_⟩
    obtain ⟨k,d,-,-,htlb⟩ := hins
    rcases List.mem_or_eq_of_mem_set (htlb ▸ hx) with hx | rfl
    · exact Nat.lt_of_lt_of_le (h.pages x hx hxv) (Nat.le_of_lt hnext)
    · rw [htp,hpage]
      exact hnext
  · exact absurd (hfull rfl).1 hfree

theorem touchPages_run (h : Touched 0 s) :
    ∀ n, n ≤ numTlb → ∃ u, run tlbStep s (touchPages n) = some u ∧
      Along tlbStep (fun s a => misses s a = true) s (touchPages n) ∧ Touched n u := by
  intro n
  induction n with
  | zero => exact fun _ => ⟨s,rfl,trivial,h⟩
  | succ n ih =>
    intro hn
    obtain ⟨u,hu,hal,ht⟩ := ih (by omega)
    obtain ⟨w,hw,hm,ht'⟩ := ht.next (by omega)
    have happ : touchPages (n+1) = touchPages n ++
        [.fault .read (0x400000 + n * pageSize) ⟨zeroed,0,0⟩] := by
      simp [touchPages,List.range_succ]
    rw [happ]
    exact ⟨w,run_append.mpr ⟨u,hu,run_cons.mpr ⟨w,hw,rfl⟩⟩,
      hal.join hu (.cons hm hw trivial),ht'⟩

def mediumMemory : Frames := ⟨0x10000,0x110000,true,0,[]⟩

/-- The first 64 pages of such a text fill the TLB; the last page is not in it. -/
theorem touched_all : ∃ as f s, loadImage 65 (vmBootstrap mediumMemory) = some (as,f) ∧
    (f.beforeVM = false ∧ 66 ≤ freeFrames f) ∧
    Along tlbStep (fun s a => misses s a = true) (as,asActivate ⟨f,[],0⟩) (touchPages 64) ∧
    run tlbStep (as,asActivate ⟨f,[],0⟩) (touchPages 64) = some s ∧ Touched 64 s := by
  have himg : ((loadImage 65 (vmBootstrap mediumMemory)).any fun x =>
      x.1.text.any (fun text => text.vstart == 0x400000 && text.vend == 0x441000) &&
      x.1.data.isSome && x.1.heap.isSome && x.1.stack.isSome &&
      decide (x.2.beforeVM = false ∧ 66 ≤ freeFrames x.2)) = true := by
    decide +kernel
  obtain ⟨⟨as,f⟩,himg,hb⟩ := some_of_any himg
  obtain ⟨hb,hframes⟩ := Bool.and_eq_true_iff.mp hb
  have hbounds : ∃ text data heap stack, as = .of text data heap stack ∧
      text.vstart = 0x400000 ∧ text.vend = 0x441000 := by
    obtain ⟨text,data,heap,stack⟩ := as
    simp only [Bool.and_eq_true,Option.any_eq_true,Option.isSome_iff_exists,beq_iff_eq] at hb
    obtain ⟨⟨⟨⟨t,rfl,hlow,hhigh⟩,d,rfl⟩,hp,rfl⟩,s,rfl⟩ := hb
    exact ⟨t,d,hp,s,rfl,hlow,hhigh⟩
  have hstart : Touched 0 (as,asActivate ⟨f,[],0⟩) := by
    refine ⟨consistent_activate (loadImage_loaded himg).tidy _,hbounds,by simp [asActivate],?_,?_⟩
    · rw [List.countP_eq_zero]
      intro t ht
      obtain ⟨i,-,rfl⟩ := List.mem_map.mp ht
      simp
    · intro t ht hv
      obtain ⟨i,-,rfl⟩ := List.mem_map.mp ht
      exact absurd hv Bool.false_ne_true
  obtain ⟨s,hs,hal,ht⟩ := touchPages_run hstart 64 (Nat.le_refl _)
  exact ⟨as,f,s,himg,of_decide_eq_true hframes,hal,hs,ht⟩

theorem Touched.full (h : Touched 64 s) : Full s.2.tlb :=
  full_of_countP (h.used.trans h.slots.symm)

theorem Touched.last_missing (h : Touched 64 s) : ∀ t ∈ s.2.tlb, t.vpage ≠ 0x440000 := by
  intro t hmem
  have hlt := h.pages t hmem (h.full t hmem)
  simp only [pageSize] at hlt
  omega

theorem Touched.last_misses (h : Touched 64 s) (ft : FaultType)
    (c : Chance) : misses s (.fault ft 0x440000 c) = true := by
  have hpage : pageOf 0x440000 = 0x440000 := by decide
  exact misses_iff.mpr fun t hmem _ => hpage ▸ h.last_missing t hmem

/-- With all 64 slots taken, write_into_TLB runs off its end; if 1 is what the caller then finds as
its value, vm_fault reports success and there is no entry for the page. -/
theorem full_tlb_drops_page : ∃ as f s as' m',
    loadImage 65 (vmBootstrap mediumMemory) = some (as,f) ∧
    Along tlbStep (fun s a => misses s a = true) (as,asActivate ⟨f,[],0⟩) (touchPages 64) ∧
    run tlbStep (as,asActivate ⟨f,[],0⟩) (touchPages 64) = some s ∧
    misses s (.fault .read 0x440000 ⟨zeroed,1,1⟩) = true ∧
    vmFault .read 0x440000 (some s.1) ⟨zeroed,1,1⟩ s.2 = .ok (none,as',m') ∧
    ∀ t ∈ m'.tlb, t.vpage ≠ 0x440000 := by
  obtain ⟨as,f,s,himg,-,hal,hs,ht⟩ := touched_all
  have hpage : pageOf 0x440000 = 0x440000 := by decide
  obtain ⟨text,data,heap,stack,heq,hlow,hhigh⟩ := ht.bounds
  obtain ⟨as',m',hf⟩ := vmFault_text data heap stack (c := ⟨zeroed,1,1⟩) (m := s.2)
    (by rw [hpage,hlow,hhigh]; decide) (.inr rfl)
  rw [← heq] at hf
  refine ⟨as,f,s,_,m',himg,hal,hs,ht.last_misses .read _,hf,?_⟩
  obtain ⟨a,-,hfault⟩ := vmFault_faulted ht.consistent.tidy hf
  rcases hfault.tlb with ⟨t,-,-,-,hins⟩ | ⟨htlb,-⟩
  · exact absurd ht.full hins.not_full
  · rw [htlb]
    exact ht.last_missing

end Running

end MipsOs.Vm
