import MipsOs.KheapFree
import MipsOs.MachineMemory

/-! Every sequence of requests keeps the heap sound, as long as no page is carved at the very end of
the address space, where the end of a page is address 0. The frames behind the blocks. -/

set_option autoImplicit false
namespace MipsOs.Kheap
open Prog Runs
open Vm (Frames Uninit Layout Marked Fits HandsOut paddrToKvaddr vmBootstrap smallMemory smallBooted
  zeroed)

/-- Every page of the heap is a frame that is marked as allocated, and the frames are in the memory
that kseg0 shows. -/
structure Backed (s : Heap) (f : Frames) : Prop where
  layout : Layout f
  kseg0 : f.pageFrameStart + f.coremap.length * pageSize ≤ 2^29
  held : ∀ e ∈ s.held, ∀ j < e.2, ∃ pa, Marked f pa ∧ e.1 + j * pageSize = paddrToKvaddr pa

variable {s : Heap} {live : List (Nat × Nat)} {f f' : Frames} {n pa sz x : Nat}

theorem frame_spec (h : Layout f) (hk : f.pageFrameStart + f.coremap.length * pageSize ≤ 2^29)
    (hm : Marked f pa) : pa % pageSize = 0 ∧ pa + pageSize ≤ 2^29 ∧
      paddrToKvaddr pa = pa + 0x80000000 := by
  obtain ⟨i,rfl⟩ := h.marked_cases hm
  obtain ⟨e,he,_⟩ := (h.marked_index i).mp hm
  have hi := (List.getElem?_eq_some_iff.mp he).1
  have ha := h.aligned
  simp only [paddrToKvaddr,Vm.pageSize,pageSize] at *
  omega

section Run

variable (hb : Backed s f) (hout : HandsOut f n pa f')

include hb hout

theorem run_spec {j : Nat} (hj : j < n) :
    pa + j * pageSize + pageSize ≤ 2^29 ∧
      paddrToKvaddr (pa + j * pageSize) = pa + j * pageSize + 0x80000000 := by
  have hk := hb.kseg0
  rw [← hout.start,← hout.length] at hk
  exact (frame_spec hout.layout hk ((hout.marked _).mpr (.inr ⟨j,hj,rfl⟩))).2

theorem run_fresh (hh : Held s.held) (hn : 0 < n) : fresh s.held n (paddrToKvaddr pa) = true := by
  have hpa := (run_spec hb hout hn).2
  have hlast := (run_spec hb hout (j := n-1) (by omega)).1
  have haligned := hout.aligned
  rw [Nat.zero_mul,Nat.add_zero] at hpa
  refine decide_eq_true ⟨?_,?_,?_,fun e he => ?_⟩
  · omega
  · simp only [Vm.pageSize,pageSize] at *
    omega
  · simp only [pageSize] at *
    omega
  obtain ⟨_,hal,_,hpos⟩ := hh.pages e he
  by_contra hover
  rcases Nat.le_total e.1 (paddrToKvaddr pa) with hle | hle
  · obtain ⟨pa',hm,heq⟩ := hb.held e he ((paddrToKvaddr pa - e.1) / pageSize) (by
      simp only [pageSize] at *
      omega)
    have hkv := (frame_spec hb.layout hb.kseg0 hm).2.2
    refine hout.fresh 0 hn ?_
    rw [Nat.zero_mul,Nat.add_zero,show pa = pa' by simp only [Vm.pageSize,pageSize] at *; omega]
    exact hm
  · obtain ⟨pa',hm,heq⟩ := hb.held e he 0 hpos
    have hkv := (frame_spec hb.layout hb.kseg0 hm).2.2
    refine hout.fresh ((e.1 - paddrToKvaddr pa) / pageSize) ?_ ?_
    · simp only [pageSize] at *
      omega
    · rw [show pa + _ = pa' by simp only [Vm.pageSize,pageSize] at *; omega]
      exact hm

end Run

def OnFrame (pa x : Nat) : Prop := paddrToKvaddr pa ≤ x ∧ x < paddrToKvaddr pa + pageSize

theorem run_byte (hb : Backed s f) (hout : HandsOut f n pa f') (hx : paddrToKvaddr pa ≤ x)
    (hlt : x < paddrToKvaddr pa + n * pageSize) :
    ∃ pa', OnFrame pa' x ∧ ¬ Marked f pa' ∧ Marked f' pa' := by
  have hj : (x - paddrToKvaddr pa) / pageSize < n := by
    simp only [pageSize] at *
    omega
  have hpa := (run_spec hb hout (Nat.zero_lt_of_lt hj)).2
  rw [Nat.zero_mul,Nat.add_zero] at hpa
  have hkv := (run_spec hb hout hj).2
  refine ⟨_,?_,hout.fresh _ hj,(hout.marked _).mpr (.inr ⟨_,hj,rfl⟩)⟩
  simp only [OnFrame,Vm.pageSize,pageSize] at *
  omega

/-- A page with blocks of the right size has a free one. -/
def Spare (s : Heap) (sz : Nat) : Prop :=
  ∃ b p, blocktype sz s = .ok b s ∧ findFree b npagerefs (s.sizebases b) s = .ok (some p) s

theorem kmalloc_spare (hsmall : sz < largestSubpageSize) (h : Spare s sz) (answer answer' : Nat) :
    kmalloc sz answer s = kmalloc sz answer' s := by
  obtain ⟨b,p,hb,hfind⟩ := h
  have hrun : ∀ a, kmalloc sz a s = doalloc p s := by
    intro a
    rw [kmalloc,if_neg (Nat.not_le.mpr hsmall),subpageKmalloc,bind_ok hb,get_bind,bind_ok hfind]
  rw [hrun,hrun]

theorem small_byte {answer p : Nat} {s' : Heap} (hb : Backed s f)
    (hsmall : sz < largestSubpageSize) (hgiven : Given s live sz answer p s') (hx : p ≤ x)
    (hlt : x < p + sz) : (∃ pa, OnFrame pa x ∧ Marked f pa) ∨
      answer ≠ 0 ∧ answer ≤ x ∧ x < answer + pageSize := by
  obtain ⟨_,_,_,hrep,_⟩ := hgiven.inv
  obtain ⟨e,he,hin,hend⟩ := hrep.within List.mem_cons_self
  have hsz := hrep.sz_le List.mem_cons_self
  have hcase : e ∈ s.held ∨ e = (answer,1) := by
    rcases hgiven.held with hsame | hmore
    · exact .inl (hsame ▸ he)
    · rw [hmore,asked,if_neg (Nat.not_le.mpr hsmall)] at he
      exact (List.mem_cons.mp he).symm
  rcases hcase with hold | rfl
  · obtain ⟨pa,hm,hkv⟩ := hb.held e hold ((x - e.1) / pageSize) (by
      simp only [pageSize] at *
      omega)
    refine .inl ⟨pa,?_,hm⟩
    simp only [OnFrame,pageSize] at *
    omega
  · exact .inr ⟨(hrep.held.pages _ he).1,by omega,by omega⟩

theorem booted_backed : Backed (init fun _ => 0).heap smallBooted where
  layout := Vm.vmBootstrap_layout (by decide) (by decide)
  kseg0 := by decide +kernel
  held := nofun

/-- No page for small blocks is taken from the end of the address space. -/
def Act.offLastPage : Act → Prop
  | .kmalloc sz answer => sz < largestSubpageSize → answer ≠ lastPage
  | .kfree _ => True
  | .store _ _ => True

def stops (w : World) (a : Act) : Option Panic :=
  match perform w a with
  | some (.error p) => some p
  | _ => none

structure InUse (w : World) (all : List Nat) (same : Nat → List Nat) (p : Nat) : Prop where
  allbase : all.count p = 1
  sizebases : ∀ b < nsizes,
    (same b).count p = if b = (w.heap.pagerefs p).blocktype then 1 else 0
  freelist : ∃ fl, Chain (memNext w.heap.mem) (w.heap.pagerefs p).freelist fl ∧ fl.Nodup ∧
    fl.length = (w.heap.pagerefs p).nfree ∧
    ∀ a ∈ fl, (w.heap.pagerefs p).OnGrid a ∧ ∀ b ∈ w.live,
      a + size (w.heap.pagerefs p).blocktype ≤ b.1 ∨ b.1 + blockSize b.2 ≤ a
  offset : (w.heap.pagerefs p).freelistOffset = invalidOffset ↔ (w.heap.pagerefs p).nfree = 0

/-- What is promised of a heap. A block occupies `blockSize` bytes. -/
structure Sound (w : World) : Prop where
  disjoint : w.live.Pairwise fun b b' =>
    b.1 + blockSize b.2 ≤ b'.1 ∨ b'.1 + blockSize b'.2 ≤ b.1
  blocks : ∀ b ∈ w.live, b.2 ≤ blockSize b.2 ∧ b.1 % 16 = 0 ∧
    ∃ e ∈ w.heap.held, e.1 ≤ b.1 ∧ b.1 + blockSize b.2 ≤ e.1 + e.2 * pageSize
  lists : ∃ all same, Chain (fun p => (w.heap.pagerefs p).nextAll) w.heap.allbase all ∧
    (∀ b < nsizes, Chain (fun p => (w.heap.pagerefs p).nextSamesize) (w.heap.sizebases b) (same b)) ∧
    ∀ p < npagerefs, w.heap.used p = true → InUse w all same p
  null : ∀ sz answer s, sz ≤ 2^32 - pageSize → (Act.kmalloc sz answer).offLastPage →
    kmalloc sz answer w.heap = .ok 0 s → s = w.heap
  keeps : ∀ sz answer a s, sz ≤ 2^32 - pageSize → (Act.kmalloc sz answer).offLastPage →
    kmalloc sz answer w.heap = .ok a s → ∀ e ∈ w.heap.held, e ∈ s.held
  release : ∀ b ∈ w.live, ∃ s, kfree b.1 w.heap = .ok () s ∧
    ∀ p < npagerefs, w.heap.used p = true →
      (((w.heap.pagerefs p).pageaddr,1) ∉ s.held ↔
        LastOf w.live b.1 ((w.heap.pagerefs p).pageaddr,1))
  returns : ∀ a, a.offLastPage → stops w a = none

section States

variable {w w' : World} {all : List Nat} {same free : Nat → List Nat} {a : Act}

theorem Rep.inUse (h : Rep w.heap w.live all same free) {p : Nat} (hp : p ∈ all) :
    InUse w all same p := by
  have hpage := h.page p hp
  refine ⟨?_,fun b hb => ?_,⟨free p,hpage.chain,hpage.chain.nodup,hpage.nfree,fun a ha => ?_⟩,
    hpage.offset_invalid⟩
  · rw [List.count_eq_one_of_mem h.allbase.nodup hp]
  · rw [(h.sizebases b hb).nodup.count]
    refine if_congr ?_ rfl rfl
    rw [h.sorted b hb p,and_iff_right hp]
    exact eq_comm
  · refine ⟨hpage.onGrid ha,fun b hb => h.block_apart hp (hpage.onGrid ha) hb ?_⟩
    rintro rfl
    exact ((hpage.blocks b.1).mp ha).2 (List.mem_map_of_mem hb)

theorem perform_spec (h : Inv w.heap w.live) (ha : a.offLastPage) {r : Except Panic World}
    (hr : perform w a = some r) : ∃ w', r = .ok w' ∧ Inv w'.heap w'.live := by
  cases a with
  | kmalloc sz answer =>
    rw [perform] at hr
    by_cases hsz : sz ≤ 2^32 - pageSize
    · rw [if_pos hsz] at hr
      cases hr
      rcases kmalloc_spec h hsz ha with hnull | ⟨p,s,hrun,hgiven⟩
      · rw [hnull]
        exact ⟨_,rfl,h⟩
      · rw [hrun]
        refine ⟨_,rfl,?_⟩
        rw [if_neg hgiven.start]
        exact hgiven.inv
    · rw [if_neg hsz] at hr
      cases hr
  | kfree ptr =>
    rw [perform] at hr
    by_cases hptr : ptr = 0 ∨ ptr ∈ w.live.map Prod.fst
    · rw [if_pos hptr] at hr
      cases hr
      by_cases hlive : ptr ∈ w.live.map Prod.fst
      · obtain ⟨b,hb,rfl⟩ := List.mem_map.mp hlive
        obtain ⟨s,hrun,hfreed⟩ := kfree_spec h hb
        rw [hrun]
        exact ⟨_,rfl,hfreed.inv⟩
      · -- kfree of NULL does nothing, and no block is at 0.
        obtain rfl := hptr.resolve_right hlive
        have hkeep : without w.live 0 = w.live := by
          refine List.filter_eq_self.mpr fun b hb => decide_eq_true ?_
          rintro hzero
          exact hlive (hzero ▸ List.mem_map_of_mem hb)
        refine ⟨⟨w.heap,without w.live 0⟩,rfl,?_⟩
        change Inv w.heap (without w.live 0)
        rw [hkeep]
        exact h
    · rw [if_neg hptr] at hr
      cases hr
  | store addr v =>
    rw [perform] at hr
    by_cases hm : w.mayStore addr
    · rw [if_pos hm] at hr
      cases hr
      exact ⟨_,rfl,h.store hm⟩
    · rw [if_neg hm] at hr
      cases hr

theorem step_inv (h : Inv w.heap w.live) (ha : a.offLastPage) (hs : step w a = some w') :
    Inv w'.heap w'.live := by
  rw [step] at hs
  cases hp : perform w a with
  | none =>
    rw [hp] at hs
    cases hs
  | some r =>
    obtain ⟨v,rfl,hv⟩ := perform_spec h ha hp
    rw [hp] at hs
    cases hs
    exact hv

theorem Inv.sound (h : Inv w.heap w.live) : Sound w := by
  obtain ⟨all,same,free,hrep,hbusy⟩ := id h
  refine ⟨?_,fun b hb => ⟨hrep.sz_le hb,hrep.aligned hb,hrep.within hb⟩,
    ⟨all,same,hrep.allbase,hrep.sizebases,fun p hp hu => hrep.inUse ((hrep.used p hp).mp hu)⟩,
    fun sz answer s hsz ha hrun => ?_,fun sz answer p s hsz ha hrun e he => ?_,fun b hb => ?_,
    fun a ha => ?_⟩
  · have hne : w.live.Pairwise fun b b' => b.1 ≠ b'.1 := List.pairwise_map.mp hrep.starts
    exact hne.imp_of_mem fun hb hb' hne => hrep.disjoint hb hb' hne
  · rcases kmalloc_spec h hsz ha with hnull | ⟨p,t,hok,hgiven⟩
    · rw [hnull] at hrun
      cases hrun
      rfl
    · rw [hok] at hrun
      cases hrun
      exact (hgiven.start rfl).elim
  · rcases kmalloc_spec h hsz ha with hnull | ⟨q,t,hok,hgiven⟩
    · rw [hnull] at hrun
      cases hrun
      exact he
    · rw [hok] at hrun
      cases hrun
      rcases hgiven.held with hsame | hmore
      · rwa [hsame]
      · rw [hmore]
        exact List.mem_cons_of_mem _ he
  · obtain ⟨s,hrun,hfreed⟩ := kfree_spec h hb
    refine ⟨s,hrun,fun p hp hu => ?_⟩
    exact hfreed.released _ (hrep.page p ((hrep.used p hp).mp hu)).held
  · rw [stops]
    cases hp : perform w a with
    | none => rfl
    | some r =>
      obtain ⟨v,rfl,_⟩ := perform_spec h ha hp
      rfl

end States

section Runs

variable {mem : Nat → Nat} {acts : List Act} {w : World}

theorem heap_sound (ha : ∀ a ∈ acts, a.offLastPage)
    (h : run step (init mem) acts = some w) : Sound w := by
  have hall := (Along.trivial step (init mem) acts).and ha
  refine Inv.sound ?_
  exact run_keeps (I := fun w => Inv w.heap w.live)
    (fun _ _ _ hi hc hs => step_inv hi hc.2 hs) (inv_init mem) hall h

def someRequests : List Act :=
  [.kmalloc 1000 0x80400000,.kmalloc 600 0,.kmalloc 5000 0x80410000,.store 0x80410010 7,
    .kfree 0x80400c00]

theorem heap_sound_someRequests : ∃ w,
    run step (init fun _ => 0) someRequests = some w ∧
    w.live = [(0x80410000,5000),(0x80400800,600)] ∧ Sound w := by
  have h : ((run step (init fun _ => 0) someRequests).any fun w =>
      decide (w.live = [(0x80410000,5000),(0x80400800,600)])) = true := by decide +kernel
  obtain ⟨w,hw,he⟩ := some_of_any h
  refine ⟨w,hw,of_decide_eq_true he,heap_sound (fun a ha => ?_) hw⟩
  simp only [someRequests,List.mem_cons,List.not_mem_nil,or_false] at ha
  rcases ha with rfl | rfl | rfl | rfl | rfl
  · exact fun _ => by decide
  · exact fun _ => by decide
  · exact fun _ => by decide
  · exact True.intro
  · exact True.intro

/-- The end of the last page is address 0, so kfree does not find the page: the free of its first
block hands the page to free_kpages while the other blocks are in use. -/
theorem last_page_released : ∃ w,
    run step (init fun _ => 0) [.kmalloc 1024 lastPage,.kmalloc 1024 0,.kmalloc 1024 0,
      .kmalloc 1024 0,.kfree lastPage] = some w ∧
    w.heap.held = [] ∧ w.heap.used 0 = true ∧
    w.live = [(lastPage + 1024,1024),(lastPage + 2048,1024),(lastPage + 3072,1024)] := by
  have h : ((run step (init fun _ => 0) [.kmalloc 1024 lastPage,.kmalloc 1024 0,
      .kmalloc 1024 0,.kmalloc 1024 0,.kfree lastPage]).any fun w =>
      decide (w.heap.held = [] ∧ w.heap.used 0 = true ∧
        w.live = [(lastPage + 1024,1024),(lastPage + 2048,1024),(lastPage + 3072,1024)])) =
      true := by decide +kernel
  obtain ⟨w,hw,he⟩ := some_of_any h
  exact ⟨w,hw,of_decide_eq_true he⟩

end Runs

end MipsOs.Kheap
