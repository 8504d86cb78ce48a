import MipsOs.Kheap

/-! kmalloc keeps the lists of the heap. The block comes from the free list of a
page, which may have been carved for it, or is a range of pages. -/

set_option autoImplicit false
namespace MipsOs.Kheap
open Prog Function

variable {s : Heap} {live : List (Nat × Nat)} {all : List Nat} {same free : Nat → List Nat}
  {p : Nat}

theorem update_proj {β : Type} {refs : Nat → PageRef} {ref : PageRef} (f : PageRef → β)
    (hf : f ref = f (refs p)) (q : Nat) : f (update refs p ref q) = f (refs q) := by
  by_cases hq : q = p
  · subst hq
    rw [update_self,hf]
  · rw [update_of_ne hq]

/-- The free list of one page changes, and with it the blocks of the page that have been given
out. -/
theorem Rep.change (h : Rep s live all same free) {ref : PageRef} {m : Nat → Nat}
    {live' : List (Nat × Nat)} {fl : List Nat}
    (hsame : ref.nextSamesize = (s.pagerefs p).nextSamesize)
    (hall : ref.nextAll = (s.pagerefs p).nextAll)
    (hpab : ref.pageaddrAndBlocktype = (s.pagerefs p).pageaddrAndBlocktype)
    (hmem : ∀ q ∈ all, q ≠ p → ∀ a ∈ free q, m a = s.mem a)
    (hlive : ∀ q ∈ all, q ≠ p → ∀ a, (s.pagerefs q).OnGrid a →
      (a ∈ live'.map Prod.fst ↔ a ∈ live.map Prod.fst))
    (hserved : ∀ b ∈ live', Small s all b ∨ Big s all b) (hstarts : (live'.map Prod.fst).Nodup)
    (hpage : Page { s with mem := m } live' ref fl) :
    Rep { s with pagerefs := update s.pagerefs p ref, mem := m } live' all same
      (update free p fl) := by
  have hproj : ∀ q, (update s.pagerefs p ref q).pageaddrAndBlocktype =
      (s.pagerefs q).pageaddrAndBlocktype := update_proj PageRef.pageaddrAndBlocktype hpab
  have haddr := fun q => PageRef.pageaddr_congr (hproj q)
  have htype := fun q => PageRef.blocktype_congr (hproj q)
  refine ⟨?_,?_,h.used,h.bound,?_,?_,?_,h.held,?_,hstarts⟩
  · exact h.allbase.congr fun q _ => update_proj PageRef.nextAll hall q
  · exact fun b hb => (h.sizebases b hb).congr fun q _ => update_proj PageRef.nextSamesize hsame q
  · intro b hb q
    rw [htype]
    exact h.sorted b hb q
  · intro q hq
    by_cases hqp : q = p
    · subst hqp
      simp only [update_self]
      exact hpage.frame rfl rfl rfl hpage.held (fun _ _ => rfl) fun _ _ => Iff.rfl
    · simp only [update_of_ne hqp]
      exact (h.page q hq).frame rfl rfl rfl (h.page q hq).held (hmem q hq hqp) (hlive q hq hqp)
  · intro q hq r hr
    rw [haddr,haddr]
    exact h.apart q hq r hr
  · intro b hb
    rcases hserved b hb with ⟨hlt,q,hq,hgrid,hsize⟩ | ⟨hbig,hle,hheld,hnot⟩
    · refine .inl ⟨hlt,q,hq,(PageRef.onGrid_congr (hproj q) b.1).mpr hgrid,?_⟩
      rw [htype]
      exact hsize
    · refine .inr ⟨hbig,hle,hheld,fun q hq => ?_⟩
      rw [haddr]
      exact hnot q hq

theorem Rep.take (h : Rep s live all same free) (hp : p ∈ all) {a : Nat} {fl : List Nat}
    (hfl : free p = a :: fl) {sz : Nat} (hsz : sz < largestSubpageSize)
    (hsize : blockSize sz = size (s.pagerefs p).blocktype) {ref : PageRef}
    (hpab : ref.pageaddrAndBlocktype = (s.pagerefs p).pageaddrAndBlocktype)
    (hsame : ref.nextSamesize = (s.pagerefs p).nextSamesize)
    (hall : ref.nextAll = (s.pagerefs p).nextAll) (hnfree : ref.nfree = (s.pagerefs p).nfree - 1)
    (hhead : ref.freelist = fl.head?) :
    Rep (s.setRef p ref) ((a,sz) :: live) all same (update free p fl) := by
  have hpage := h.page p hp
  rw [hfl] at hpage
  have hgrid := hpage.onGrid List.mem_cons_self
  have hnot : a ∉ live.map Prod.fst := ((hpage.blocks a).mp List.mem_cons_self).2
  have hnodup := List.nodup_cons.mp hpage.chain.nodup
  have haddr := PageRef.pageaddr_congr hpab
  refine h.change (m := s.mem) hsame hall hpab (fun _ _ _ _ _ => rfl) ?_ ?_ ?_ ?_
  · intro q hq hqp x hx
    have hxa : x ≠ a := by
      rintro rfl
      exact hqp (h.page_unique hq hp hx ⟨hgrid.1,hgrid.2.1⟩)
    rw [List.map_cons,List.mem_cons]
    exact or_iff_right hxa
  · intro b hb
    rcases List.mem_cons.mp hb with rfl | hb
    · exact .inl ⟨hsz,p,hp,hgrid,hsize⟩
    · exact h.served b hb
  · exact List.nodup_cons.mpr ⟨hnot,h.starts⟩
  · refine ⟨?_,?_,?_,?_,?_,fun x => ?_⟩
    · rw [PageRef.blocktype_congr hpab]
      exact hpage.type
    · rw [haddr]
      exact hpage.held
    · rw [haddr]
      exact hpage.low
    · have htail := hpage.chain.tail
      rw [hhead,← htail.head]
      exact htail
    · have hlen := hpage.nfree
      rw [List.length_cons] at hlen
      omega
    · have hx := hpage.blocks x
      rw [PageRef.onGrid_congr hpab,List.map_cons,List.mem_cons,not_or]
      rw [List.mem_cons] at hx
      constructor
      · intro hmem
        obtain ⟨hg,hl⟩ := hx.mp (.inr hmem)
        refine ⟨hg,?_,hl⟩
        rintro rfl
        exact hnodup.1 hmem
      · rintro ⟨hg,hxa,hl⟩
        exact (hx.mpr ⟨hg,hl⟩).resolve_left hxa

theorem sub32_of_le {a b : Nat} (hle : b ≤ a) (hlt : a < 2^32) : sub32 a b = a - b := by
  unfold sub32
  omega

theorem u16_of_lt {n : Nat} (hlt : n < pageSize) : u16 n = n := by
  unfold u16
  simp only [pageSize] at hlt
  omega

theorem doalloc_spec (h : Rep s live all same free) (hp : p ∈ all)
    (hfree : 0 < (s.pagerefs p).nfree) {sz : Nat} (hsz : sz < largestSubpageSize)
    (hsize : blockSize sz = size (s.pagerefs p).blocktype) :
    ∃ a fl ref, doalloc p s = .ok a (s.setRef p ref) ∧ a ≠ 0 ∧
      ref.pageaddrAndBlocktype = (s.pagerefs p).pageaddrAndBlocktype ∧
      (s.pagerefs p).OnGrid a ∧
      Rep (s.setRef p ref) ((a,sz) :: live) all same (update free p fl) := by
  have hpage := h.page p hp
  obtain ⟨a,fl,hfl⟩ : ∃ a fl, free p = a :: fl := by
    refine List.exists_cons_of_length_pos ?_
    rw [hpage.nfree]
    exact hfree
  rw [hfl] at hpage
  have hlow := hpage.low
  obtain ⟨hoffset,ha⟩ := hpage.first
  have hgrid := hpage.onGrid List.mem_cons_self
  have hfla : add32 (s.pagerefs p).pageaddr (s.pagerefs p).freelistOffset = a := by
    rw [ha]
    exact Nat.mod_eq_of_lt (by omega)
  have hzero : a ≠ 0 := by
    have hstart := (h.held.pages _ hpage.held).1
    omega
  have hlen := hpage.nfree
  rw [List.length_cons] at hlen
  have hnext := hpage.chain.tail.head
  rw [memNext] at hnext
  rw [doalloc,get_bind,assert_bind _ _ _ hoffset,hfla]
  by_cases hfl0 : s.mem a = 0
  · rw [if_pos hfl0] at hnext
    have hnil : fl = [] := List.head?_eq_none_iff.mp hnext.symm
    have hn0 : (s.pagerefs p).nfree - 1 = 0 := by
      rw [hnil,List.length_nil] at hlen
      omega
    simp only [hfl0,ne_eq,not_true_eq_false,if_false]
    rw [assert_bind _ _ _ hn0]
    refine ⟨a,fl,_,rfl,hzero,rfl,hgrid,h.take hp hfl hsz hsize rfl rfl rfl rfl ?_⟩
    rw [← hnext,PageRef.freelist,if_pos rfl]
  · rw [if_neg hfl0] at hnext
    obtain ⟨rest,hcons⟩ : ∃ rest, fl = s.mem a :: rest := List.head?_eq_some_iff.mp hnext.symm
    have hgrid' : (s.pagerefs p).OnGrid (s.mem a) :=
      hpage.onGrid (List.mem_cons_of_mem a (by rw [hcons]; exact List.mem_cons_self))
    obtain ⟨hle,hlt,_⟩ := hgrid'
    have hsub : sub32 (s.mem a) (s.pagerefs p).pageaddr = s.mem a - (s.pagerefs p).pageaddr :=
      sub32_of_le hle (by omega)
    have hoff : sub32 (s.mem a) (s.pagerefs p).pageaddr < pageSize := by omega
    have hn0 : 0 < (s.pagerefs p).nfree - 1 := by
      rw [hcons,List.length_cons] at hlen
      omega
    have hvalid : s.mem a - (s.pagerefs p).pageaddr ≠ invalidOffset := by
      simp only [pageSize,invalidOffset] at hoff ⊢
      omega
    simp only [ne_eq,hfl0,not_false_eq_true,if_true]
    rw [assert_bind _ _ _ hn0,assert_bind _ _ _ hoff]
    refine ⟨a,fl,_,rfl,hzero,rfl,hgrid,h.take hp hfl hsz hsize rfl rfl rfl rfl ?_⟩
    rw [← hnext,PageRef.freelist,u16_of_lt hoff,hsub,if_neg hvalid]
    change some ((s.pagerefs p).pageaddr + _) = _
    rw [Nat.add_sub_cancel' hle]

section Carve

def downFrom (page sz n : Nat) : List Nat :=
  ((List.range n).map fun m => page + m * sz).reverse

theorem downFrom_succ (page sz n : Nat) :
    downFrom page sz (n+1) = (page + n * sz) :: downFrom page sz n := by
  simp [downFrom,List.range_succ]

theorem carveLoop_spec {fla sz : Nat} (hsz : 0 < sz) (n : Nat) {i : Nat} (hi : 0 < i)
    (hend : fla + (i + n) * sz ≤ 2^32) (t : Heap) :
    ∃ mem, carveLoop fla sz n i t = .ok () { t with mem := mem } ∧
      (∀ k, i ≤ k → k < i + n → mem (fla + k * sz) = fla + (k-1) * sz) ∧
      ∀ a, (∀ k, i ≤ k → k < i + n → a ≠ fla + k * sz) → mem a = t.mem a := by
  induction n generalizing i t with
  | zero => exact ⟨t.mem,rfl,fun k hle hlt => absurd hlt (by omega),fun _ _ => rfl⟩
  | succ n ih =>
    have hmul : i * sz < (i + (n + 1)) * sz := Nat.mul_lt_mul_of_pos_right (by omega) hsz
    have hpred : (i - 1) * sz + sz = i * sz := by
      rw [← Nat.succ_mul]
      congr 1
      omega
    have hfl : add32 fla (i * sz) = fla + i * sz := Nat.mod_eq_of_lt (by omega)
    have hnext : add32 fla ((i-1) * sz) = fla + (i-1) * sz := Nat.mod_eq_of_lt (by omega)
    have hne : fla + i * sz ≠ fla + (i-1) * sz := by omega
    have hend' : fla + (i + 1 + n) * sz ≤ 2^32 := by
      rw [show i + 1 + n = i + (n + 1) by omega]
      exact hend
    obtain ⟨mem,hrun,hset,hother⟩ := ih (Nat.succ_pos i) hend' (t.store (fla + i * sz)
      (fla + (i-1) * sz))
    refine ⟨mem,?_,fun k hle hlt => ?_,fun a ha => ?_⟩
    · rw [carveLoop,hfl,hnext,modify_bind,assert_bind _ _ _ hne,hrun]
      rfl
    · rcases Nat.lt_or_eq_of_le hle with hlt' | rfl
      · exact hset k hlt' (by omega)
      · rw [hother]
        · exact update_self _ _ _
        · intro k hk _ heq
          have hmul' : i * sz < k * sz := Nat.mul_lt_mul_of_pos_right (by omega) hsz
          omega
    · rw [hother a fun k hk hk' => ha k (by omega) (by omega)]
      exact update_of_ne (ha i (Nat.le_refl i) (by omega)) _ _

variable {mem : Nat → Nat} {page b : Nat}

theorem chain_downFrom {z : Nat} (hpage : page ≠ 0) (n : Nat) (hfirst : mem page = 0)
    (hlinks : ∀ k, 1 ≤ k → k ≤ n → mem (page + k * z) = page + (k-1) * z) :
    Chain (memNext mem) (some (page + n * z)) (downFrom page z (n+1)) := by
  induction n with
  | zero =>
    rw [downFrom_succ]
    refine .cons ?_
    rw [Nat.zero_mul,Nat.add_zero,memNext,if_pos hfirst]
    exact .nil
  | succ n ih =>
    rw [downFrom_succ]
    refine .cons ?_
    have hlink := hlinks (n+1) (by omega) (by omega)
    rw [Nat.add_sub_cancel] at hlink
    rw [memNext,hlink,if_neg (by omega)]
    exact ih fun k hk hk' => hlinks k hk (by omega)

def carved (t : Heap) (pr page blktype : Nat) (mem : Nat → Nat) : Heap :=
  { t with
    pagerefs := update t.pagerefs pr
      ⟨t.sizebases blktype,t.allbase,mkpab page blktype,
        (pageSize / size blktype - 1) * size blktype,pageSize / size blktype⟩
    sizebases := update t.sizebases blktype (some pr)
    allbase := some pr
    mem := mem }

theorem carve_spec (t : Heap) (pr : Nat) (hb : b < nsizes) (hpage : page ≠ 0)
    (hlow : page + pageSize < 2^32) :
    ∃ mem, carve pr page b t = .ok () (carved t pr page b mem) ∧
      Chain (memNext mem) (some (page + (pageSize / size b - 1) * size b))
        (downFrom page (size b) (pageSize / size b)) ∧
      ∀ a, a < page ∨ page + pageSize ≤ a → mem a = t.mem a := by
  obtain ⟨hpos,_,_,htotal,htwo,hmany⟩ := size_spec hb
  have hn : u16 (pageSize / size b) = pageSize / size b :=
    u16_of_lt (by simp only [pageSize] at *; omega)
  have hlast : (pageSize / size b - 1) * size b + size b = pageSize := by
    rw [← Nat.succ_mul,Nat.succ_eq_add_one,Nat.sub_add_cancel (by omega)]
    exact htotal
  have hend : page + (1 + (pageSize / size b - 1)) * size b ≤ 2^32 := by
    rw [Nat.add_sub_cancel' (by omega),htotal]
    omega
  obtain ⟨mem,hrun,hset,hother⟩ :=
    carveLoop_spec (show 0 < size b by omega) (pageSize / size b - 1) Nat.one_pos hend
      (t.store page 0)
  have hfla : add32 page ((pageSize / size b - 1) * size b) =
      page + (pageSize / size b - 1) * size b := Nat.mod_eq_of_lt (by omega)
  have hoffset : u16 (sub32 (page + (pageSize / size b - 1) * size b) page) =
      (pageSize / size b - 1) * size b := by
    rw [sub32_of_le (by omega) (by omega),Nat.add_sub_cancel_left,u16_of_lt (by omega)]
  have hinner : ∀ k, 1 ≤ k → k < 1 + (pageSize / size b - 1) →
      page < page + k * size b ∧ page + k * size b < page + pageSize := by
    intro k hk hlt
    have hle : k * size b ≤ (pageSize / size b - 1) * size b :=
      Nat.mul_le_mul_right _ (by omega)
    have hge : 1 * size b ≤ k * size b := Nat.mul_le_mul_right _ hk
    omega
  refine ⟨mem,?_,?_,fun a ha => ?_⟩
  · rw [carve]
    simp only [hn]
    rw [modify_bind,bind_ok hrun,assert_bind _ _ _ (by rw [hn,hfla,hoffset]),hfla,hoffset]
    rfl
  · have hfirst : mem page = 0 := by
      rw [hother page fun k hk hlt => by have := hinner k hk hlt; omega]
      exact update_self _ _ _
    have hchain := chain_downFrom (z := size b) hpage (pageSize / size b - 1) hfirst
      fun k hk hle => hset k hk (by omega)
    rw [Nat.sub_add_cancel (by omega)] at hchain
    exact hchain
  · rw [hother a fun k hk hlt => by have := hinner k hk hlt; omega]
    exact update_of_ne (by omega) _ _

theorem Rep.carved (h : Rep s live all same free) (hp : p < npagerefs)
    (hu : s.used p = false) (hf : fresh s.held 1 page = true) (hlow : page + pageSize < 2^32)
    (hb : b < nsizes) (hchain : Chain (memNext mem) (some (page + (pageSize / size b - 1) * size b))
      (downFrom page (size b) (pageSize / size b)))
    (hmem : ∀ a, a < page ∨ page + pageSize ≤ a → mem a = s.mem a) :
    Rep (carved { s.mark p true with held := (page,1) :: s.held } p page b mem) live (p :: all)
      (update same b (p :: same b))
      (update free p (downFrom page (size b) (pageSize / size b))) := by
  obtain ⟨hzero,haligned,_,hapart⟩ := of_decide_eq_true hf
  obtain ⟨hpos,_,_,htotal,htwo,_⟩ := size_spec hb
  have hnew : p ∉ all := fun hall => by
    rw [(h.used p hp).mpr hall] at hu
    cases hu
  have hne : ∀ q ∈ all, q ≠ p := by
    rintro q hq rfl
    exact hnew hq
  have hne' : ∀ b' < nsizes, ∀ q ∈ same b', q ≠ p := fun b' hb' q hq =>
    hne q ((h.sorted b' hb' q).mp hq).1
  -- The new pageref, and the others, which are as before.
  obtain ⟨ref,href⟩ : ∃ ref : PageRef, ref = ⟨s.sizebases b,s.allbase,mkpab page b,
    (pageSize / size b - 1) * size b,pageSize / size b⟩ := ⟨_,rfl⟩
  obtain ⟨haddr,htype⟩ : ref.pageaddr = page ∧ ref.blocktype = b :=
    unpack (by rw [href]) haligned (by omega) hb
  generalize ht : Kheap.carved { s.mark p true with held := (page,1) :: s.held } p page b mem = t
  have hself : t.pagerefs p = ref := by
    rw [← ht,href]
    exact update_self _ _ _
  have hother : ∀ q, q ≠ p → t.pagerefs q = s.pagerefs q := fun q hq => by
    rw [← ht]
    exact update_of_ne hq _ _
  have hbases : t.sizebases = update s.sizebases b (some p) := by rw [← ht]; rfl
  have hheld : t.held = (page,1) :: s.held := by rw [← ht]; rfl
  have htmem : t.mem = mem := by rw [← ht]; rfl
  have hpageapart : ∀ q ∈ all, (s.pagerefs q).pageaddr + pageSize ≤ page ∨
      page + pageSize ≤ (s.pagerefs q).pageaddr := by
    intro q hq
    have hap := hapart _ (h.page q hq).held
    simp only [Nat.one_mul] at hap
    exact hap.symm
  refine ⟨?_,?_,?_,List.forall_mem_cons.mpr ⟨hp,h.bound⟩,?_,?_,?_,?_,?_,h.starts⟩
  · rw [← ht]
    refine h.allbase.push ?_ fun q hq => ?_
    · rw [ht,hself,href]
    · rw [ht,hother q (hne q hq)]
  · intro b' hb'
    rw [hbases]
    by_cases hbb : b' = b
    · subst hbb
      rw [update_self,update_self]
      refine (h.sizebases b' hb').push ?_ fun q hq => ?_
      · rw [hself,href]
      · rw [hother q (hne' b' hb' q hq)]
    · rw [update_of_ne hbb,update_of_ne hbb]
      exact (h.sizebases b' hb').congr fun q hq => by rw [hother q (hne' b' hb' q hq)]
  · intro q hq
    have hmark : t.used q = if q = p then true else s.used q := by
      rw [← ht]
      exact used_mark s p q true
    rw [List.mem_cons,hmark]
    by_cases hqp : q = p
    · simp [hqp]
    · rw [if_neg hqp,h.used q hq]
      exact (or_iff_right hqp).symm
  · intro b' hb' q
    rw [List.mem_cons]
    by_cases hqp : q = p
    · subst hqp
      rw [hself,htype]
      by_cases hbb : b' = b
      · subst hbb
        simp
      · rw [update_of_ne hbb]
        refine iff_of_false (fun hq => hne' b' hb' q hq rfl) fun hq => hbb hq.2.symm
    · rw [hother q hqp,or_iff_right hqp,← h.sorted b' hb' q]
      by_cases hbb : b' = b
      · subst hbb
        rw [update_self,List.mem_cons,or_iff_right hqp]
      · rw [update_of_ne hbb]
  · refine List.forall_mem_cons.mpr ⟨?_,fun q hq => ?_⟩
    · rw [hself,update_self]
      refine ⟨?_,?_,?_,?_,?_,fun a => ?_⟩
      · rw [htype]
        exact hb
      · rw [haddr,hheld]
        exact List.mem_cons_self
      · rw [haddr]
        exact hlow
      · have hoffset : (pageSize / size b - 1) * size b ≠ invalidOffset := by
          have hlt : (pageSize / size b - 1) * size b < pageSize / size b * size b :=
            Nat.mul_lt_mul_of_pos_right (by omega) (by omega)
          rw [htotal] at hlt
          simp only [pageSize,invalidOffset] at *
          omega
        rw [PageRef.freelist,haddr,href,if_neg hoffset,htmem]
        exact hchain
      · rw [href,downFrom,List.length_reverse,List.length_map,List.length_range]
      · have hgrid : a ∈ downFrom page (size b) (pageSize / size b) ↔ ref.OnGrid a := by
          rw [← mem_grid (by rw [htype]; exact hb),PageRef.grid,PageRef.total,haddr,htype,downFrom,
            List.mem_reverse]
        rw [hgrid]
        refine (and_iff_left_of_imp fun ha => h.not_fresh hf ?_).symm
        rw [PageRef.OnGrid,haddr] at ha
        rw [Nat.one_mul]
        exact ⟨ha.1,ha.2.1⟩
    · have hpage := h.page q hq
      rw [hother q (hne q hq),update_of_ne (hne q hq)]
      refine hpage.frame rfl rfl rfl (hheld ▸ List.mem_cons_of_mem _ hpage.held) (fun a ha => ?_)
        fun _ _ => Iff.rfl
      have hgrid := hpage.onGrid ha
      have hle := hgrid.1
      have hlt := hgrid.2.1
      have hap := hpageapart q hq
      rw [htmem]
      exact hmem a (by omega)
  · have hdiff : ∀ q ∈ all, (t.pagerefs q).pageaddr ≠ (t.pagerefs p).pageaddr := by
      intro q hq heq
      have hap := hpageapart q hq
      rw [hother q (hne q hq),hself,haddr] at heq
      simp only [pageSize] at hap
      omega
    refine List.forall_mem_cons.mpr ⟨?_,fun q hq => ?_⟩
    · exact List.forall_mem_cons.mpr ⟨fun _ => rfl,fun r hr heq => absurd heq.symm (hdiff r hr)⟩
    · refine List.forall_mem_cons.mpr ⟨fun heq => absurd heq (hdiff q hq),fun r hr => ?_⟩
      rw [hother q (hne q hq),hother r (hne r hr)]
      exact h.apart q hq r hr
  · rw [hheld]
    exact h.held.cons Nat.one_pos hf
  · intro x hx
    rcases h.served x hx with ⟨hlt,q,hq,hgrid,hsize⟩ | ⟨hbig,hle,hin,hnot⟩
    · refine .inl ⟨hlt,q,List.mem_cons_of_mem p hq,?_⟩
      rw [hother q (hne q hq)]
      exact ⟨hgrid,hsize⟩
    · refine .inr ⟨hbig,hle,hheld ▸ List.mem_cons_of_mem _ hin,
        List.forall_mem_cons.mpr ⟨?_,fun q hq => ?_⟩⟩
      · rw [hself,haddr]
        rintro rfl
        refine h.not_fresh hf (a := x.1) ⟨Nat.le_refl _,?_⟩ (List.mem_map_of_mem hx)
        simp only [pageSize]
        omega
      · rw [hother q (hne q hq)]
        exact hnot q hq

end Carve

section Kmalloc

theorem findFree_spec (h : Rep s live all same free) {b : Nat} (hb : b < nsizes) :
    findFree b npagerefs (s.sizebases b) s =
      .ok ((same b).find? fun q => decide (0 < (s.pagerefs q).nfree)) s := by
  have hlen := h.length_le (h.sizebases b hb).nodup fun q hq => ((h.sorted b hb q).mp hq).1
  refine Chain.walk (f := fun n o => findFree b n o s) (g := fun r => .ok r s)
    (h.sizebases b hb) hlen ?_ ?_
  · intro n
    cases n with
    | zero | succ => rfl
  · intro n q hq
    have htype := ((h.sorted b hb q).mp hq).2
    change findFree b (n+1) (some q) s = _
    rw [findFree,get_bind,assert_bind _ _ _ htype]
    by_cases hfree : 0 < (s.pagerefs q).nfree
    · rw [if_pos hfree,if_pos (decide_eq_true hfree)]
      rfl
    · rw [if_neg hfree,if_neg (by simpa using hfree)]

variable {a sz answer : Nat}

theorem Busy.doalloc {p : Nat} {ref : PageRef} (hbusy : ∀ q ∈ all, q ≠ p →
      ∃ b ∈ live, (s.pagerefs q).OnGrid b.1)
    (hpab : ref.pageaddrAndBlocktype = (s.pagerefs p).pageaddrAndBlocktype)
    (hgrid : (s.pagerefs p).OnGrid a) : Busy (s.setRef p ref) ((a,sz) :: live) all := by
  intro q hq
  have hproj : ((s.setRef p ref).pagerefs q).pageaddrAndBlocktype =
      (s.pagerefs q).pageaddrAndBlocktype := update_proj PageRef.pageaddrAndBlocktype hpab q
  have hon := PageRef.onGrid_congr hproj
  by_cases hqp : q = p
  · subst hqp
    exact ⟨_,List.mem_cons_self,(hon a).mpr hgrid⟩
  · obtain ⟨b,hb,hgrid⟩ := hbusy q hq hqp
    exact ⟨b,List.mem_cons_of_mem _ hb,(hon _).mpr hgrid⟩

theorem Rep.big (h : Rep s live all same free) (hbig : largestSubpageSize ≤ sz)
    (hle : sz ≤ 2^32 - pageSize) (hf : fresh s.held (npages sz) a = true) :
    Rep { s with held := (a,npages sz) :: s.held } ((a,sz) :: live) all same free := by
  obtain ⟨hpos,hsz⟩ := npages_spec hbig hle
  obtain ⟨_,_,_,hapart⟩ := of_decide_eq_true hf
  have hstart : a < a + npages sz * pageSize :=
    Nat.lt_add_of_pos_right (Nat.mul_pos hpos (by decide))
  have hpage : ∀ q ∈ all, ¬ ((s.pagerefs q).pageaddr ≤ a ∧
      a < (s.pagerefs q).pageaddr + pageSize) := by
    intro q hq hon
    have hap := hapart _ (h.page q hq).held
    simp only [Nat.one_mul] at hap
    omega
  refine ⟨h.allbase,h.sizebases,h.used,h.bound,h.sorted,fun q hq => ?_,h.apart,
    h.held.cons hpos hf,fun b hb => ?_,?_⟩
  · refine (h.page q hq).frame rfl rfl rfl (List.mem_cons_of_mem _ (h.page q hq).held)
      (fun _ _ => rfl) fun x hx => ?_
    have hxa : x ≠ a := by
      rintro rfl
      exact hpage q hq ⟨hx.1,hx.2.1⟩
    rw [List.map_cons,List.mem_cons]
    exact or_iff_right hxa
  · rcases List.mem_cons.mp hb with rfl | hb
    · refine .inr ⟨hbig,?_,List.mem_cons_self,fun q hq heq => ?_⟩
      · rw [blockSize_big hbig]
        exact hsz
      · have heq : (s.pagerefs q).pageaddr = a := heq
        exact hpage q hq ⟨Nat.le_of_eq heq,by simp only [pageSize]; omega⟩
    · rcases h.served b hb with hsmall | ⟨hbig',hle',hheld,hnot⟩
      · exact .inl hsmall
      · exact .inr ⟨hbig',hle',List.mem_cons_of_mem _ hheld,hnot⟩
  · exact List.nodup_cons.mpr ⟨h.not_fresh hf ⟨Nat.le_refl a,hstart⟩,h.starts⟩

/-- The number of pages that kmalloc asks for, if it asks. -/
def asked (sz : Nat) : Nat := if largestSubpageSize ≤ sz then npages sz else 1

/-- The block that a request gets, if the heap is not left as it was. -/
structure Given (s : Heap) (live : List (Nat × Nat)) (sz answer a : Nat) (s' : Heap) : Prop where
  start : a ≠ 0
  inv : Inv s' ((a,sz) :: live)
  held : s'.held = s.held ∨ s'.held = (answer,asked sz) :: s.held

theorem subpageKmalloc_spec (h : Inv s live) (hsz : sz < largestSubpageSize)
    (hanswer : answer ≠ lastPage) :
    subpageKmalloc sz answer s = .ok 0 s ∨
      ∃ a s', subpageKmalloc sz answer s = .ok a s' ∧ Given s live sz answer a s' := by
  obtain ⟨all,same,free,hrep,hbusy⟩ := h
  obtain ⟨b,hbt,hb,_,hsize⟩ := blocktype_spec hsz s
  rw [subpageKmalloc,bind_ok hbt,get_bind,bind_ok (findFree_spec hrep hb)]
  cases hfind : (same b).find? fun q => decide (0 < (s.pagerefs q).nfree) with
  | some p =>
    have hfound := List.find?_some hfind
    have hfree : 0 < (s.pagerefs p).nfree := of_decide_eq_true hfound
    obtain ⟨hp,htype⟩ := (hrep.sorted b hb p).mp (List.mem_of_find?_eq_some hfind)
    obtain ⟨a,fl,ref,hrun,hzero,hpab,hgrid,hrep'⟩ :=
      doalloc_spec hrep hp hfree hsz (hsize.trans (by rw [htype]))
    refine .inr ⟨a,_,hrun,hzero,⟨all,same,_,hrep',?_⟩,.inl rfl⟩
    exact Busy.doalloc (fun q hq _ => hbusy q hq) hpab hgrid
  | none =>
    simp only
    rcases allocpageref_spec s with hnone | ⟨p,hsome,hp,hu⟩
    · exact .inl (by rw [bind_ok hnone]; rfl)
    rw [bind_ok hsome]
    rcases allocKpages_spec (s.mark p true) 1 answer with hfail | ⟨hf,hok⟩
    · -- The pageref goes back, and nothing has changed.
      refine .inl ?_
      have hused : (s.mark p true).used p = true := by rw [used_mark,if_pos rfl]
      simp only
      rw [bind_ok hfail,if_pos rfl,bind_ok (freepageref_spec hp hused),mark_unmark hu]
      rfl
    · obtain ⟨hzero,haligned,hend,_⟩ := of_decide_eq_true hf
      have hlow : answer + pageSize < 2^32 := by
        simp only [lastPage,pageSize] at *
        omega
      obtain ⟨mem,hcarve,hchain,hmem⟩ := carve_spec
        { s.mark p true with held := (answer,1) :: s.held } p hb hzero hlow
      have hrep' := hrep.carved hp hu hf hlow hb hchain hmem
      obtain ⟨href,htype⟩ : _ ∧ _ := unpack (q := (carved
        { s.mark p true with held := (answer,1) :: s.held } p answer b mem).pagerefs p)
        (by simp only [carved,update_self]) haligned (by omega) hb
      have hnfree : ((carved { s.mark p true with held := (answer,1) :: s.held } p answer b
          mem).pagerefs p).nfree = pageSize / size b := by
        simp only [carved,update_self]
      have htwo := (size_spec hb).2.2.2.2.1
      obtain ⟨a,fl,ref,hrun,ha,hpab,hgrid,hrep''⟩ := doalloc_spec hrep' List.mem_cons_self
        (by rw [hnfree]; omega) hsz (hsize.trans (by rw [htype]))
      refine .inr ⟨a,_,?_,ha,⟨p :: all,_,_,hrep'',?_⟩,.inr ?_⟩
      · simp only
        rw [bind_ok hok,if_neg hzero]
        exact (bind_ok hcarve).trans hrun
      · refine Busy.doalloc (fun q hq hqp => ?_) hpab hgrid
        obtain ⟨x,hx,hon⟩ := hbusy q ((List.mem_cons.mp hq).resolve_left hqp)
        refine ⟨x,hx,?_⟩
        simp only [carved,update_of_ne hqp]
        exact hon
      · rw [asked,if_neg (by omega)]
        rfl

theorem kmalloc_spec (h : Inv s live) (hle : sz ≤ 2^32 - pageSize)
    (hanswer : sz < largestSubpageSize → answer ≠ lastPage) :
    kmalloc sz answer s = .ok 0 s ∨
      ∃ a s', kmalloc sz answer s = .ok a s' ∧ Given s live sz answer a s' := by
  rw [kmalloc]
  by_cases hbig : largestSubpageSize ≤ sz
  · rw [if_pos hbig]
    rcases allocKpages_spec s (npages sz) answer with hfail | ⟨hf,hok⟩
    · exact .inl hfail
    · obtain ⟨all,same,free,hrep,hbusy⟩ := h
      have hzero := (of_decide_eq_true hf).1
      refine .inr ⟨answer,_,hok,hzero,⟨all,same,free,hrep.big hbig hle hf,fun q hq => ?_⟩,
        .inr (by rw [asked,if_pos hbig])⟩
      obtain ⟨b,hb,hgrid⟩ := hbusy q hq
      exact ⟨b,List.mem_cons_of_mem _ hb,hgrid⟩
  · rw [if_neg hbig]
    have hsz := Nat.lt_of_not_le hbig
    exact subpageKmalloc_spec h hsz (hanswer hsz)

end Kmalloc

end MipsOs.Kheap
