import MipsOs.KheapAlloc

/-! kfree keeps the lists of the heap. A block goes back to the free list of its
page; a page without other blocks in use is taken off the lists and released. -/

set_option autoImplicit false
namespace MipsOs.Kheap
open Prog Function

variable {s : Heap} {live : List (Nat × Nat)} {all : List Nat} {same free : Nat → List Nat}
  {p ptr : Nat}

theorem findPage_spec (h : Rep s live all same free) (ptr : Nat) :
    findPage ptr npagerefs s.allbase s = .ok (all.find? fun q =>
      decide ((s.pagerefs q).pageaddr ≤ ptr ∧ ptr < (s.pagerefs q).pageaddr + pageSize)) s := by
  refine Chain.walk (f := fun n o => findPage ptr n o s) (g := fun r => .ok r s) h.allbase
    (h.length_le h.allbase.nodup fun _ hq => hq) ?_ ?_
  · intro n
    cases n with
    | zero | succ => rfl
  · intro n q hq
    have hpage := h.page q hq
    have hend : add32 (s.pagerefs q).pageaddr pageSize = (s.pagerefs q).pageaddr + pageSize :=
      Nat.mod_eq_of_lt hpage.low
    change findPage ptr (n+1) (some q) s = _
    rw [findPage,get_bind,assert_bind _ _ _ hpage.type]
    by_cases hon : (s.pagerefs q).pageaddr ≤ ptr ∧ ptr < (s.pagerefs q).pageaddr + pageSize
    · rw [if_pos (by rw [hend]; exact hon),if_pos (decide_eq_true hon)]
      rfl
    · rw [if_neg (by rw [hend]; exact hon),if_neg (by rw [decide_eq_false hon]; decide)]

theorem Rep.onPage (h : Rep s live all same free) (hp : p ∈ all) {b : Nat × Nat} (hb : b ∈ live)
    (hon : (s.pagerefs p).pageaddr ≤ b.1 ∧ b.1 < (s.pagerefs p).pageaddr + pageSize) :
    (s.pagerefs p).OnGrid b.1 ∧ blockSize b.2 = size (s.pagerefs p).blocktype := by
  rcases h.served b hb with ⟨_,q,hq,hgrid,hsize⟩ | ⟨_,_,hheld,hnot⟩
  · obtain rfl := h.page_unique hq hp hgrid hon
    exact ⟨hgrid,hsize⟩
  · have hpos := (h.held.pages _ hheld).2.2.2
    have hstart : b.1 < b.1 + npages b.2 * pageSize :=
      Nat.lt_add_of_pos_right (Nat.mul_pos hpos (by decide))
    have heq := h.pageRange hp hon hheld ⟨Nat.le_refl _,hstart⟩
    exact (hnot p hp (Prod.mk.inj heq).1.symm).elim

section Push

def without (live : List (Nat × Nat)) (ptr : Nat) : List (Nat × Nat) :=
  live.filter fun b => decide (b.1 ≠ ptr)

variable {b : Nat × Nat}

theorem mem_without : b ∈ without live ptr ↔ b ∈ live ∧ b.1 ≠ ptr := by
  rw [without,List.mem_filter,decide_eq_true_iff]

theorem start_without {a : Nat} :
    a ∈ (without live ptr).map Prod.fst ↔ a ∈ live.map Prod.fst ∧ a ≠ ptr := by
  constructor
  · intro ha
    obtain ⟨b,hb,rfl⟩ := List.mem_map.mp ha
    obtain ⟨hb,hne⟩ := mem_without.mp hb
    exact ⟨List.mem_map_of_mem hb,hne⟩
  · rintro ⟨ha,hne⟩
    obtain ⟨b,hb,rfl⟩ := List.mem_map.mp ha
    exact List.mem_map_of_mem (mem_without.mpr ⟨hb,hne⟩)

theorem starts_without (h : (live.map Prod.fst).Nodup) :
    ((without live ptr).map Prod.fst).Nodup :=
  (List.filter_sublist.map Prod.fst).nodup h

theorem fillDeadbeef_spec (s : Heap) (n : Nat) (hend : ptr + 4 * n ≤ 2^32) :
    ∃ mem, fillDeadbeef ptr n s = { s with mem := mem } ∧
      ∀ a, a < ptr ∨ ptr + 4 * n ≤ a → mem a = s.mem a := by
  induction n with
  | zero => exact ⟨s.mem,rfl,fun _ _ => rfl⟩
  | succ n ih =>
    obtain ⟨mem,hfill,hmem⟩ := ih (by omega)
    have hadd : add32 ptr (4*n) = ptr + 4*n := Nat.mod_eq_of_lt (by omega)
    refine ⟨update mem (ptr + 4*n) 0xdeadbeef,?_,fun a ha => ?_⟩
    · rw [fillDeadbeef,hfill,hadd]
      rfl
    · rw [update_of_ne (by omega),hmem a (by omega)]

section

variable (h : Rep s live all same free) (hp : p ∈ all) (hb : b ∈ live)
  (hgrid : (s.pagerefs p).OnGrid b.1) (hsize : blockSize b.2 = size (s.pagerefs p).blocktype)

include h hp hb hgrid hsize

theorem Rep.giveBack {ref : PageRef} {mem : Nat → Nat}
    (hsame : ref.nextSamesize = (s.pagerefs p).nextSamesize)
    (hall : ref.nextAll = (s.pagerefs p).nextAll)
    (hpab : ref.pageaddrAndBlocktype = (s.pagerefs p).pageaddrAndBlocktype)
    (hhead : ref.freelist = some b.1) (hnfree : ref.nfree = (s.pagerefs p).nfree + 1)
    (hlink : memNext mem b.1 = (s.pagerefs p).freelist)
    (hmem : ∀ a, a < b.1 ∨ b.1 + size (s.pagerefs p).blocktype ≤ a → mem a = s.mem a) :
    Rep { s with pagerefs := update s.pagerefs p ref, mem := mem } (without live b.1) all
      same (update free p (b.1 :: free p)) := by
  have haddr := PageRef.pageaddr_congr hpab
  -- The free blocks are apart from the one that is given back.
  have hkeep : ∀ q ∈ all, ∀ a ∈ free q, mem a = s.mem a := by
    intro q hq a ha
    have hpage := h.page q hq
    obtain ⟨hpos,_⟩ := size_spec hpage.type
    have hne : a ≠ b.1 := by
      rintro rfl
      exact ((hpage.blocks b.1).mp ha).2 (List.mem_map_of_mem hb)
    have hap := h.block_apart hq (hpage.onGrid ha) hb hne
    rw [hsize] at hap
    exact hmem a (by omega)
  have hpage := h.page p hp
  refine h.change hsame hall hpab (fun q hq _ => hkeep q hq) ?_ ?_ (starts_without h.starts) ?_
  · intro q hq hqp a ha
    have hne : a ≠ b.1 := by
      rintro rfl
      exact hqp (h.page_unique hq hp ha ⟨hgrid.1,hgrid.2.1⟩)
    rw [start_without]
    exact and_iff_left hne
  · exact fun x hx => h.served x (mem_without.mp hx).1
  · refine ⟨?_,?_,?_,?_,?_,fun a => ?_⟩
    · rw [PageRef.blocktype_congr hpab]
      exact hpage.type
    · rw [haddr]
      exact hpage.held
    · rw [haddr]
      exact hpage.low
    · rw [hhead]
      refine hpage.chain.push hlink fun a ha => ?_
      change memNext mem a = _
      rw [memNext,memNext,hkeep p hp a ha]
    · rw [List.length_cons,hpage.nfree,hnfree]
    · rw [PageRef.onGrid_congr hpab,List.mem_cons,hpage.blocks a,start_without]
      by_cases hab : a = b.1
      · subst hab
        simp [hgrid]
      · simp [hab]

theorem pushBlock_spec :
    ∃ s', pushBlock p (b.1 - (s.pagerefs p).pageaddr)
        (fillDeadbeef b.1 (size (s.pagerefs p).blocktype / 4) s) = s' ∧
      (∀ q, (s'.pagerefs q).pageaddrAndBlocktype = (s.pagerefs q).pageaddrAndBlocktype) ∧
      s'.held = s.held ∧
      Rep s' (without live b.1) all same (update free p (b.1 :: free p)) := by
  have hpage := h.page p hp
  have hlow := hpage.low
  have hend := OnGrid.end_le hpage.type hgrid
  obtain ⟨hpos,_,hsixteen,_,_,hmany⟩ := size_spec hpage.type
  obtain ⟨hle,hlt,_⟩ := id hgrid
  obtain ⟨mem,hfill,hmem⟩ := fillDeadbeef_spec s (size (s.pagerefs p).blocktype / 4)
    (show b.1 + 4 * (size (s.pagerefs p).blocktype / 4) ≤ 2^32 by omega)
  have hadd : add32 (s.pagerefs p).pageaddr (b.1 - (s.pagerefs p).pageaddr) = b.1 := by
    unfold add32
    omega
  have hoffset : b.1 - (s.pagerefs p).pageaddr < pageSize := by omega
  have hnfree : u16 ((s.pagerefs p).nfree + 1) = (s.pagerefs p).nfree + 1 := by
    have hle := hpage.nfree_le
    refine u16_of_lt ?_
    simp only [PageRef.total] at hle
    have hbound : (256 : Nat) + 1 < pageSize := by decide
    omega
  have hvalid : b.1 - (s.pagerefs p).pageaddr ≠ invalidOffset := by
    simp only [pageSize,invalidOffset] at hoffset ⊢
    omega
  obtain ⟨next,hnext⟩ : ∃ next, next = if (s.pagerefs p).freelistOffset = invalidOffset then 0
    else add32 (s.pagerefs p).pageaddr (s.pagerefs p).freelistOffset := ⟨_,rfl⟩
  have hlink : memNext (update mem b.1 next) b.1 = (s.pagerefs p).freelist := by
    rw [memNext,update_self,PageRef.freelist,hnext]
    by_cases hinv : (s.pagerefs p).freelistOffset = invalidOffset
    · rw [if_pos hinv,if_pos rfl,if_pos hinv]
    · -- The list is not empty, so its first block is a block of the page.
      obtain ⟨a,fl,hfl⟩ : ∃ a fl, free p = a :: fl := by
        refine List.exists_cons_of_length_pos ?_
        rw [hpage.nfree]
        exact Nat.pos_of_ne_zero fun h0 => hinv (hpage.offset_invalid.mpr h0)
      rw [hfl] at hpage
      have hoff := hpage.first.1
      have hstart := (h.held.pages _ hpage.held).1
      have hadd' : add32 (s.pagerefs p).pageaddr (s.pagerefs p).freelistOffset =
          (s.pagerefs p).pageaddr + (s.pagerefs p).freelistOffset :=
        Nat.mod_eq_of_lt (by omega)
      have hne : (s.pagerefs p).pageaddr + (s.pagerefs p).freelistOffset ≠ 0 := by omega
      rw [if_neg hinv,if_neg hinv,hadd',if_neg hne]
  have hkeep : ∀ a, a < b.1 ∨ b.1 + size (s.pagerefs p).blocktype ≤ a →
      update mem b.1 next a = s.mem a := by
    intro a ha
    have hne : a ≠ b.1 := by omega
    rw [update_of_ne hne]
    exact hmem a (by omega)
  rw [hfill]
  refine ⟨_,rfl,update_proj PageRef.pageaddrAndBlocktype rfl,rfl,?_⟩
  rw [pushBlock]
  simp only [hadd,u16_of_lt hoffset,hnfree,← hnext]
  refine h.giveBack hp hb hgrid hsize rfl rfl rfl ?_ rfl hlink hkeep
  rw [PageRef.freelist,if_neg hvalid]
  exact congrArg some (Nat.add_sub_cancel' hle)

end

end Push

theorem Heap.setRef_self (s : Heap) (q : Nat) (ref : PageRef) :
    (s.setRef q ref).pagerefs q = ref := update_self _ _ _

theorem Heap.setRef_of_ne {q x : Nat} {ref : PageRef} (hx : x ≠ q) :
    (s.setRef q ref).pagerefs x = s.pagerefs x := update_of_ne hx _ _

theorem findGuy_spec {link : PageRef → Option Nat} {o : Option Nat} {l : List Nat}
    (h : Chain (fun q => link (s.pagerefs q)) o l) (hp : p ∈ l) {n : Nat} (hlen : l.length ≤ n)
    (guy : Guy) :
    (∃ post, l = p :: post ∧ findGuy link p n guy o s = .ok (some guy) s) ∨
    ∃ pre q post, l = pre ++ q :: p :: post ∧ findGuy link p n guy o s = .ok (some (.next q)) s := by
  induction h generalizing n guy with
  | nil => cases hp
  | @cons x l h ih =>
    obtain ⟨m,rfl⟩ : ∃ m, n = m + 1 := ⟨n-1,by rw [List.length_cons] at hlen; omega⟩
    rw [findGuy,get_bind]
    by_cases hx : x = p
    · subst hx
      rw [if_pos rfl]
      exact .inl ⟨l,rfl,rfl⟩
    · rw [if_neg hx]
      have hp : p ∈ l := (List.mem_cons.mp hp).resolve_left (Ne.symm hx)
      have hlen : l.length ≤ m := by
        rw [List.length_cons] at hlen
        omega
      rcases ih hp hlen (.next x) with ⟨post,rfl,hrun⟩ | ⟨pre,q,post,rfl,hrun⟩
      · exact .inr ⟨[],x,post,rfl,hrun⟩
      · exact .inr ⟨x :: pre,q,post,rfl,hrun⟩

theorem erase_middle {pre post : List Nat} {q : Nat} (h : (pre ++ q :: p :: post).Nodup) :
    (pre ++ q :: p :: post).erase p = pre ++ q :: post := by
  have hsplit : pre ++ q :: p :: post = (pre ++ [q]) ++ p :: post := by simp
  rw [hsplit] at h ⊢
  have hnot : p ∉ pre ++ [q] := fun hmem =>
    (List.disjoint_of_nodup_append h) hmem List.mem_cons_self
  rw [List.erase_append_right _ hnot,List.erase_cons_head,List.append_assoc]
  rfl

structure Relinked (s s' : Heap) : Prop where
  mem : s'.mem = s.mem
  held : s'.held = s.held
  inuse : s'.pagerefsInuse = s.pagerefsInuse
  pab : ∀ q, (s'.pagerefs q).pageaddrAndBlocktype = (s.pagerefs q).pageaddrAndBlocktype
  offset : ∀ q, (s'.pagerefs q).freelistOffset = (s.pagerefs q).freelistOffset
  nfree : ∀ q, (s'.pagerefs q).nfree = (s.pagerefs q).nfree

theorem Relinked.trans {t u : Heap} (h : Relinked s t) (h' : Relinked t u) : Relinked s u where
  mem := h'.mem.trans h.mem
  held := h'.held.trans h.held
  inuse := h'.inuse.trans h.inuse
  pab q := (h'.pab q).trans (h.pab q)
  offset q := (h'.offset q).trans (h.offset q)
  nfree q := (h'.nfree q).trans (h.nfree q)

theorem Relinked.setRef {ref : PageRef} {q : Nat}
    (hpab : ref.pageaddrAndBlocktype = (s.pagerefs q).pageaddrAndBlocktype)
    (hoffset : ref.freelistOffset = (s.pagerefs q).freelistOffset)
    (hnfree : ref.nfree = (s.pagerefs q).nfree) : Relinked s (s.setRef q ref) where
  mem := rfl
  held := rfl
  inuse := rfl
  pab := update_proj PageRef.pageaddrAndBlocktype hpab
  offset := update_proj PageRef.freelistOffset hoffset
  nfree := update_proj PageRef.nfree hnfree

theorem removeSamesize_spec (h : Rep s live all same free) (hp : p ∈ all) :
    ∃ s', removeSamesize p (s.pagerefs p).blocktype s = .ok () s' ∧ Relinked s s' ∧
      Chain (fun q => (s'.pagerefs q).nextAll) s'.allbase all ∧
      ∀ b < nsizes, Chain (fun q => (s'.pagerefs q).nextSamesize) (s'.sizebases b)
        ((same b).erase p) := by
  obtain ⟨b,hbt⟩ : ∃ b, b = (s.pagerefs p).blocktype := ⟨_,rfl⟩
  have hb : b < nsizes := by
    rw [hbt]
    exact (h.page p hp).type
  have hmem : p ∈ same b := (h.sorted b hb p).mpr ⟨hp,hbt.symm⟩
  have hchain := h.sizebases b hb
  have hlen := h.length_le hchain.nodup fun q hq => ((h.sorted b hb q).mp hq).1
  -- The page is on one list only.
  have hother : ∀ b' < nsizes, b' ≠ b → (same b').erase p = same b' := fun b' hb' hne =>
    List.erase_of_not_mem fun hq => hne (((h.sorted b' hb' p).mp hq).2.symm.trans hbt.symm)
  rw [← hbt,removeSamesize,get_bind]
  rcases findGuy_spec hchain hmem hlen .base with ⟨post,hl,hrun⟩ | ⟨pre,q,post,hl,hrun⟩
  · rw [bind_ok hrun]
    refine ⟨_,rfl,⟨rfl,rfl,rfl,fun _ => rfl,fun _ => rfl,fun _ => rfl⟩,h.allbase,fun b' hb' => ?_⟩
    by_cases hbb : b' = b
    · subst hbb
      rw [hl] at hchain ⊢
      rw [List.erase_cons_head]
      have hbase : (s.setSizebase b' (s.pagerefs p).nextSamesize).sizebases b' =
        (s.pagerefs p).nextSamesize := update_self _ _ _
      rw [hbase]
      exact hchain.tail
    · rw [hother b' hb' hbb]
      have hbase : (s.setSizebase b (s.pagerefs p).nextSamesize).sizebases b' = s.sizebases b' :=
        update_of_ne hbb _ _
      rw [hbase]
      exact h.sizebases b' hb'
  · rw [bind_ok hrun]
    refine ⟨s.setRef q { s.pagerefs q with nextSamesize := (s.pagerefs p).nextSamesize },rfl,
      .setRef rfl rfl rfl,?_,fun b' hb' => ?_⟩
    · exact h.allbase.congr fun x _ => update_proj PageRef.nextAll (by rfl) x
    · have hqmem : q ∈ same b := by
        rw [hl]
        exact List.mem_append_right pre List.mem_cons_self
      by_cases hbb : b' = b
      · subst hbb
        have herase := erase_middle (hl ▸ hchain.nodup)
        rw [← hl] at herase
        rw [herase]
        rw [hl] at hchain
        refine hchain.unlink ?_ fun z hz => ?_
        · rw [Heap.setRef_self]
        · rw [Heap.setRef_of_ne hz]
      · rw [hother b' hb' hbb]
        refine (h.sizebases b' hb').congr fun x hx => ?_
        have hxq : x ≠ q := by
          rintro rfl
          exact hbb (((h.sorted b' hb' x).mp hx).2.symm.trans ((h.sorted b hb x).mp hqmem).2)
        rw [Heap.setRef_of_ne hxq]

theorem removeAll_spec (hchain : Chain (fun q => (s.pagerefs q).nextAll) s.allbase all)
    (hlen : all.length ≤ npagerefs) (hp : p ∈ all) :
    ∃ s', removeAll p s = .ok () s' ∧ Relinked s s' ∧ s'.sizebases = s.sizebases ∧
      (∀ q, (s'.pagerefs q).nextSamesize = (s.pagerefs q).nextSamesize) ∧
      Chain (fun q => (s'.pagerefs q).nextAll) s'.allbase (all.erase p) := by
  rw [removeAll,get_bind]
  rcases findGuy_spec hchain hp hlen .base with ⟨post,rfl,hrun⟩ | ⟨pre,q,post,rfl,hrun⟩
  · rw [bind_ok hrun,List.erase_cons_head]
    exact ⟨_,rfl,⟨rfl,rfl,rfl,fun _ => rfl,fun _ => rfl,fun _ => rfl⟩,rfl,fun _ => rfl,hchain.tail⟩
  · rw [bind_ok hrun,erase_middle hchain.nodup]
    refine ⟨s.setRef q { s.pagerefs q with nextAll := (s.pagerefs p).nextAll },rfl,
      .setRef rfl rfl rfl,rfl,update_proj PageRef.nextSamesize (by rfl),?_⟩
    refine hchain.unlink ?_ fun z hz => ?_
    · rw [Heap.setRef_self]
    · rw [Heap.setRef_of_ne hz]

theorem removeLists_spec (h : Rep s live all same free) (hp : p ∈ all) :
    ∃ s', removeLists p (s.pagerefs p).blocktype s = .ok () s' ∧ Relinked s s' ∧
      Chain (fun q => (s'.pagerefs q).nextAll) s'.allbase (all.erase p) ∧
      ∀ b < nsizes, Chain (fun q => (s'.pagerefs q).nextSamesize) (s'.sizebases b)
        ((same b).erase p) := by
  obtain ⟨t,hrun,hlinked,hall,hsame⟩ := removeSamesize_spec h hp
  have hlen := h.length_le h.allbase.nodup fun _ hq => hq
  obtain ⟨u,hrun',hlinked',hbases,hnext,hall'⟩ := removeAll_spec hall hlen hp
  refine ⟨u,?_,hlinked.trans hlinked',hall',fun b hb => ?_⟩
  · rw [removeLists,assert_bind _ _ _ (h.page p hp).type,bind_ok hrun]
    exact hrun'
  · rw [hbases]
    exact (hsame b hb).congr fun q _ => hnext q

section Release

variable {t : Heap} {b : Nat × Nat}

section

variable (h : Rep s live all same free)

include h

theorem Rep.drop (hp : p ∈ all) (hunused : ∀ a, (s.pagerefs p).OnGrid a → a ∉ live.map Prod.fst)
    (ht : Relinked s t) (hall : Chain (fun q => (t.pagerefs q).nextAll) t.allbase (all.erase p))
    (hsame : ∀ b < nsizes, Chain (fun q => (t.pagerefs q).nextSamesize) (t.sizebases
    b) ((same b).erase p)) :
    Rep ((t.released (s.pagerefs p).pageaddr).mark p false) live (all.erase p)
      (fun b => (same b).erase p) free := by
  have hmem : ∀ q, q ∈ all.erase p ↔ q ≠ p ∧ q ∈ all := fun q => h.allbase.nodup.mem_erase_iff
  have haddr := fun q => PageRef.pageaddr_congr (ht.pab q)
  have htype := fun q => PageRef.blocktype_congr (ht.pab q)
  have hgrid := fun q => PageRef.onGrid_congr (ht.pab q)
  have hheld : ∀ e ∈ s.held, e.1 ≠ (s.pagerefs p).pageaddr →
      e ∈ (t.released (s.pagerefs p).pageaddr).held := fun e he hne =>
    mem_released.mpr ⟨by rw [ht.held]; exact he,hne⟩
  refine ⟨hall,hsame,?_,?_,?_,?_,?_,?_,?_,h.starts⟩
  · intro q hq
    rw [used_mark,hmem]
    by_cases hqp : q = p
    · simp [hqp]
    · rw [if_neg hqp,and_iff_right hqp,← h.used q hq]
      change (t.pagerefsInuse _).getLsbD _ = true ↔ (s.pagerefsInuse _).getLsbD _ = true
      rw [ht.inuse]
  · exact fun q hq => h.bound q ((hmem q).mp hq).2
  · intro b hb q
    rw [(h.sizebases b hb).nodup.mem_erase_iff,hmem,h.sorted b hb q,and_assoc]
    change _ ↔ _ ∧ _ ∧ (t.pagerefs q).blocktype = b
    rw [htype]
  · intro q hq
    obtain ⟨hqp,hq⟩ := (hmem q).mp hq
    have hpage := h.page q hq
    refine hpage.frame (ht.pab q) (ht.offset q) (ht.nfree q) ?_ (fun a _ => ?_) fun _ _ => Iff.rfl
    · exact hheld _ hpage.held fun heq => hqp (h.apart q hq p hp heq)
    · exact congrFun ht.mem a
  · intro q hq r hr
    change (t.pagerefs q).pageaddr = (t.pagerefs r).pageaddr → _
    rw [haddr,haddr]
    exact h.apart q ((hmem q).mp hq).2 r ((hmem r).mp hr).2
  · have hfilter := h.held.filter fun e => decide (e.1 ≠ (s.pagerefs p).pageaddr)
    rw [← ht.held] at hfilter
    exact hfilter
  · intro b hb
    rcases h.served b hb with ⟨hlt,q,hq,hon,hsize⟩ | ⟨hbig,hle,hin,hnot⟩
    · have hqp : q ≠ p := by
        rintro rfl
        exact hunused b.1 hon (List.mem_map_of_mem hb)
      refine .inl ⟨hlt,q,(hmem q).mpr ⟨hqp,hq⟩,(hgrid q b.1).mpr hon,?_⟩
      exact hsize.trans (congrArg size (htype q).symm)
    · refine .inr ⟨hbig,hle,hheld _ hin (hnot p hp).symm,fun q hq => ?_⟩
      have hne := hnot q ((hmem q).mp hq).2
      rw [← haddr q] at hne
      exact hne

theorem Rep.dropBig (hpage : ∀ q ∈ all, ¬ ((s.pagerefs q).pageaddr ≤ ptr ∧ ptr < (s.pagerefs
    q).pageaddr + pageSize)) :
    Rep (s.released ptr) (without live ptr) all same free := by
  have hstart : ∀ q ∈ all, (s.pagerefs q).pageaddr ≠ ptr := by
    rintro q hq rfl
    exact hpage q hq ⟨Nat.le_refl _,by simp only [pageSize]; omega⟩
  refine ⟨h.allbase,h.sizebases,h.used,h.bound,h.sorted,fun q hq => ?_,h.apart,h.held.filter _,
    fun b hb => ?_,starts_without h.starts⟩
  · refine (h.page q hq).frame rfl rfl rfl ?_ (fun _ _ => rfl) fun a ha => ?_
    · exact mem_released.mpr ⟨(h.page q hq).held,hstart q hq⟩
    · have hne : a ≠ ptr := by
        rintro rfl
        exact hpage q hq ⟨ha.1,ha.2.1⟩
      rw [start_without]
      exact and_iff_left hne
  · obtain ⟨hb,hne⟩ := mem_without.mp hb
    rcases h.served b hb with hsmall | ⟨hbig,hle,hheld,hnot⟩
    · exact .inl hsmall
    · exact .inr ⟨hbig,hle,mem_released.mpr ⟨hheld,hne⟩,hnot⟩

/-- The block at `ptr` is the last one in a range of pages. -/
def LastOf (live : List (Nat × Nat)) (ptr : Nat) (e : Nat × Nat) : Prop :=
  (e.1 ≤ ptr ∧ ptr < e.1 + e.2 * pageSize) ∧
    ∀ b ∈ live, e.1 ≤ b.1 → b.1 < e.1 + e.2 * pageSize → b.1 = ptr

/-- What is left when the block at `ptr` is given back: of the pages, those that it was the last
block of are released. -/
structure Freed (s : Heap) (live : List (Nat × Nat)) (ptr : Nat) (s' : Heap) : Prop where
  inv : Inv s' (without live ptr)
  released : ∀ e ∈ s.held, e ∉ s'.held ↔ LastOf live ptr e
  kept : ∀ e ∈ s'.held, e ∈ s.held

theorem Rep.lastOf_iff (hp : p ∈ all) (hon : (s.pagerefs p).OnGrid ptr) :
    LastOf live ptr ((s.pagerefs p).pageaddr,1) ↔
      ∀ a, (s.pagerefs p).OnGrid a → a ∉ (without live ptr).map Prod.fst := by
  rw [LastOf,Nat.one_mul]
  constructor
  · intro hlast a ha hmem
    obtain ⟨hmem,hne⟩ := start_without.mp hmem
    obtain ⟨b,hb,rfl⟩ := List.mem_map.mp hmem
    exact hne (hlast.2 b hb ha.1 ha.2.1)
  · intro hnone
    refine ⟨⟨hon.1,hon.2.1⟩,fun b hb hle hlt => ?_⟩
    by_contra hne
    refine hnone b.1 (h.onPage hp hb ⟨hle,hlt⟩).1 ?_
    exact start_without.mpr ⟨List.mem_map_of_mem hb,hne⟩

theorem Rep.find_page (hp : p ∈ all) (hon : (s.pagerefs p).OnGrid ptr) : (all.find? fun q =>
      decide ((s.pagerefs q).pageaddr ≤ ptr ∧ ptr < (s.pagerefs q).pageaddr + pageSize)) =
      some p := by
  cases hfind : all.find? fun q =>
      decide ((s.pagerefs q).pageaddr ≤ ptr ∧ ptr < (s.pagerefs q).pageaddr + pageSize) with
  | none =>
    have hnone := List.find?_eq_none.mp hfind p hp
    exact absurd (decide_eq_true ⟨hon.1,hon.2.1⟩) hnone
  | some q =>
    have hfound := List.find?_some hfind
    have hq := List.mem_of_find?_eq_some hfind
    rw [h.page_unique hp hq hon (of_decide_eq_true hfound)]

theorem releasePage_spec (hp : p ∈ all) :
    ∃ t all' same', releasePage p (s.pagerefs p).blocktype (s.pagerefs p).pageaddr s = .ok () t ∧
      Rep t live all' same' free ∧
      (∀ q ∈ all', q ∈ all ∧ (q = p → ∃ x ∈ live, (s.pagerefs p).OnGrid x.1)) ∧
      (∀ q, (t.pagerefs q).pageaddrAndBlocktype = (s.pagerefs q).pageaddrAndBlocktype) ∧
      (∀ e ∈ t.held, e ∈ s.held) ∧
      ∀ e ∈ s.held, e ∉ t.held ↔ e.1 = (s.pagerefs p).pageaddr ∧
        ∀ a, (s.pagerefs p).OnGrid a → a ∉ live.map Prod.fst := by
  have hpage := h.page p hp
  have hnfree := hpage.nfree_le
  have hfull := hpage.full
  rw [PageRef.total] at hnfree hfull
  rw [releasePage,get_bind,assert_bind _ _ _ hnfree]
  by_cases hall : (s.pagerefs p).nfree = pageSize / size (s.pagerefs p).blocktype
  · have hunused := hfull.mp hall
    obtain ⟨t,hrun,hlinked,hallbase,hsame⟩ := removeLists_spec h hp
    have hin : ((s.pagerefs p).pageaddr,1) ∈ t.held := by
      rw [hlinked.held]
      exact hpage.held
    have hused : (t.released (s.pagerefs p).pageaddr).used p = true := by
      have hu := (h.used p (h.bound p hp)).mpr hp
      rw [Heap.used,← hlinked.inuse] at hu
      exact hu
    refine ⟨_,all.erase p,_,?_,h.drop hp hunused hlinked hallbase hsame,?_,hlinked.pab,?_,?_⟩
    · rw [if_pos hall,bind_ok hrun,bind_ok (freeKpages_spec hin)]
      exact freepageref_spec (h.bound p hp) hused
    · intro q hq
      obtain ⟨hqp,hq⟩ := h.allbase.nodup.mem_erase_iff.mp hq
      exact ⟨hq,fun heq => (hqp heq).elim⟩
    · intro e he
      have hmem := (mem_released.mp he).1
      rw [hlinked.held] at hmem
      exact hmem
    · intro e he
      have hmem : e ∈ t.held := by
        rw [hlinked.held]
        exact he
      exact (not_mem_released hmem).trans (and_iff_left hunused).symm
  · refine ⟨s,all,same,?_,h,fun q hq => ⟨hq,fun _ => ?_⟩,fun _ => rfl,fun _ he => he,fun e he => ?_⟩
    · rw [if_neg hall]
      rfl
    · have hsome := mt hfull.mpr hall
      push Not at hsome
      obtain ⟨a,ha,hmem⟩ := hsome
      obtain ⟨x,hx,rfl⟩ := List.mem_map.mp hmem
      exact ⟨x,hx,ha⟩
    · exact iff_of_false (fun hn => hn he) fun hl => hall (hfull.mpr hl.2)

end

theorem kfree_small (h : Rep s live all same free) (hbusy : Busy s live all)
    (hb : b ∈ live) (hp : p ∈ all) (hon : (s.pagerefs p).OnGrid b.1)
    (hsize : blockSize b.2 = size (s.pagerefs p).blocktype) :
    ∃ s', subpageKfree b.1 s = .ok true s' ∧ Freed s live b.1 s' := by
  have hpage := h.page p hp
  have hlow := hpage.low
  have hle := hon.1
  have hlt := hon.2.1
  have hsub : sub32 b.1 (s.pagerefs p).pageaddr = b.1 - (s.pagerefs p).pageaddr :=
    sub32_of_le hle (by omega)
  have hoffset : b.1 - (s.pagerefs p).pageaddr < pageSize ∧
      (b.1 - (s.pagerefs p).pageaddr) % size (s.pagerefs p).blocktype = 0 :=
    ⟨by omega,Nat.mod_eq_zero_of_dvd hon.2.2⟩
  obtain ⟨t,hpush,hpab,hheld,hrep⟩ := pushBlock_spec h hp hb hon hsize
  obtain ⟨u,all',same',hrun,hrep',hsub',hpab',hkept,hreleased⟩ := releasePage_spec hrep hp
  rw [PageRef.blocktype_congr (hpab p),PageRef.pageaddr_congr (hpab p)] at hrun
  refine ⟨u,?_,⟨all',same',_,hrep',fun q hq => ?_⟩,fun e he => ?_,fun e he => ?_⟩
  · rw [subpageKfree,get_bind,bind_ok (findPage_spec h b.1),h.find_page hp hon]
    simp only [hsub]
    rw [freeBlock,assert_bind _ _ _ hoffset,modify_bind,modify_to hpush,bind_ok hrun]
    rfl
  · obtain ⟨hq,hself⟩ := hsub' q hq
    have hgrid := PageRef.onGrid_congr ((hpab' q).trans (hpab q))
    by_cases hqp : q = p
    · subst hqp
      obtain ⟨x,hx,hxon⟩ := hself rfl
      exact ⟨x,hx,(PageRef.onGrid_congr (hpab' q) x.1).mpr hxon⟩
    · obtain ⟨x,hx,hxon⟩ := hbusy q hq
      refine ⟨x,mem_without.mpr ⟨hx,fun heq => ?_⟩,(hgrid x.1).mpr hxon⟩
      rw [heq] at hxon
      exact hqp (h.page_unique hq hp hxon ⟨hon.1,hon.2.1⟩)
  · rw [hreleased e (by rw [hheld]; exact he),PageRef.pageaddr_congr (hpab p)]
    have hlast := h.lastOf_iff hp hon
    constructor
    · rintro ⟨heq,hnone⟩
      rw [h.held.start he hpage.held heq]
      exact hlast.mpr fun a ha => hnone a ((PageRef.onGrid_congr (hpab p) a).mpr ha)
    · intro hl
      have heq := h.pageRange hp ⟨hon.1,hon.2.1⟩ he hl.1
      rw [heq] at hl
      refine ⟨congrArg Prod.fst heq,fun a ha => ?_⟩
      exact hlast.mp hl a ((PageRef.onGrid_congr (hpab p) a).mp ha)
  · rw [← hheld]
    exact hkept e he

theorem kfree_big (h : Rep s live all same free) (hbusy : Busy s live all)
    (hb : b ∈ live) (hbig : Big s all b) : ∃ s', kfree b.1 s = .ok () s' ∧ Freed s live b.1 s' := by
  obtain ⟨hlarge,_,hin,hnot⟩ := hbig
  obtain ⟨hzero,haligned,_,hpos⟩ := h.held.pages _ hin
  have hstart : b.1 ≤ b.1 ∧ b.1 < b.1 + npages b.2 * pageSize :=
    ⟨Nat.le_refl _,Nat.lt_add_of_pos_right (Nat.mul_pos hpos (by decide))⟩
  have hpage : ∀ q ∈ all,
      ¬ ((s.pagerefs q).pageaddr ≤ b.1 ∧ b.1 < (s.pagerefs q).pageaddr + pageSize) := by
    intro q hq hon
    exact hnot q hq (Prod.mk.inj (h.pageRange hq hon hin hstart)).1.symm
  have hnone : (all.find? fun q => decide ((s.pagerefs q).pageaddr ≤ b.1 ∧
      b.1 < (s.pagerefs q).pageaddr + pageSize)) = none :=
    List.find?_eq_none.mpr fun q hq hdec => hpage q hq (of_decide_eq_true hdec)
  have hsub : subpageKfree b.1 s = .ok false s := by
    rw [subpageKfree,get_bind,bind_ok (findPage_spec h b.1),hnone]
    rfl
  refine ⟨s.released b.1,?_,⟨all,same,free,h.dropBig hpage,fun q hq => ?_⟩,fun e he => ?_,
    fun e he => (mem_released.mp he).1⟩
  · rw [kfree,if_neg hzero,bind_ok hsub,if_pos rfl,assert_bind _ _ _ haligned]
    exact freeKpages_spec hin
  · obtain ⟨x,hx,hxon⟩ := hbusy q hq
    refine ⟨x,mem_without.mpr ⟨hx,fun heq => ?_⟩,hxon⟩
    exact hpage q hq ⟨heq ▸ hxon.1,heq ▸ hxon.2.1⟩
  · refine (not_mem_released he).trans ⟨fun heq => ?_,fun hl => ?_⟩
    · rw [h.held.start he hin heq]
      refine ⟨hstart,fun x hx hle hlt => ?_⟩
      -- Another block would be apart from this one.
      by_contra hne
      have hap := h.disjoint hx hb hne
      have hxpos := h.blockSize_pos hx
      rw [blockSize_big hlarge] at hap
      simp only at hle hlt
      omega
    · have heq := h.held.unique he hin hl.1 hstart
      rw [heq]

theorem kfree_spec (h : Inv s live) (hb : b ∈ live) :
    ∃ s', kfree b.1 s = .ok () s' ∧ Freed s live b.1 s' := by
  obtain ⟨all,same,free,hrep,hbusy⟩ := h
  rcases hrep.served b hb with ⟨_,p,hp,hon,hsize⟩ | hbig
  · obtain ⟨s',hrun,hfreed⟩ := kfree_small hrep hbusy hb hp hon hsize
    have hzero : b.1 ≠ 0 := by
      have hstart := (hrep.held.pages _ (hrep.page p hp).held).1
      have hle := hon.1
      omega
    refine ⟨s',?_,hfreed⟩
    rw [kfree,if_neg hzero,bind_ok hrun]
    rfl
  · exact kfree_big hrep hbusy hb hbig

end Release

end MipsOs.Kheap
