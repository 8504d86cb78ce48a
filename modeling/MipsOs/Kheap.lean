import Mathlib.Data.List.Pairwise
import Mathlib.Data.List.Perm.Subperm
import Mathlib.Data.Nat.Bitwise
import MipsOs.Chain
import MipsOs.Prog

/-! The kernel heap, kern/lib/kheap.c. Requests below half a page are served from
pages that are carved into blocks of one size; the free blocks of a page are
linked through their first words, and the pages through their pagerefs. Each block
of a page in use is on its free list or has been given out. -/

set_option autoImplicit false
namespace MipsOs.Kheap
open Prog Function

def pageSize : Nat := 4096

def pageFrame : Nat := 0xfffff000

def nsizes : Nat := 8

def sizes : List Nat := [16,32,64,128,256,512,1024,2048]

def size (blktype : Nat) : Nat := sizes.getD blktype 0

def largestSubpageSize : Nat := 2048

def npagerefs : Nat := 256

def inuseWords : Nat := 8

def invalidOffset : Nat := 0xffff

def lastPage : Nat := 2^32 - pageSize

def add32 (a b : Nat) : Nat := (a + b) % 2^32

def sub32 (a b : Nat) : Nat := (a + 2^32 - b) % 2^32

def u16 (n : Nat) : Nat := n % 2^16

structure PageRef where
  nextSamesize : Option Nat
  nextAll : Option Nat
  pageaddrAndBlocktype : Nat
  freelistOffset : Nat
  nfree : Nat
  deriving DecidableEq, Repr

namespace PageRef

def pageaddr (pr : PageRef) : Nat := pr.pageaddrAndBlocktype &&& pageFrame

def blocktype (pr : PageRef) : Nat := pr.pageaddrAndBlocktype &&& (2^32 - 1 - pageFrame)

end PageRef

def mkpab (pa blk : Nat) : Nat := (pa &&& pageFrame) ||| (blk &&& (2^32 - 1 - pageFrame))

/-- A pointer to a pageref is its index. Memory is a word at each address; `held` are the pages
obtained from alloc_kpages and not given back, with their number. -/
structure Heap where
  pagerefs : Nat → PageRef
  pagerefsInuse : Nat → BitVec 32
  sizebases : Nat → Option Nat
  allbase : Option Nat
  mem : Nat → Nat
  held : List (Nat × Nat)

/-- Assertions, panics, and what would be a loop without end or a page given back that is not
held. -/
inductive Panic where
  | inuseFull | freepageref | removeLists | blocktype | corrupt | freelistOffset | nfree
  | freelistNext | carve | invalidAddr | bigFree | notHeld | endless
  deriving DecidableEq, Repr

abbrev Code := Prog Heap Empty Panic

open Prog Function

namespace Heap

def setRef (s : Heap) (i : Nat) (pr : PageRef) : Heap :=
  { s with pagerefs := update s.pagerefs i pr }

def store (s : Heap) (addr v : Nat) : Heap := { s with mem := update s.mem addr v }

def setInuse (s : Heap) (i : Nat) (w : BitVec 32) : Heap :=
  { s with pagerefsInuse := update s.pagerefsInuse i w }

def setSizebase (s : Heap) (blktype : Nat) (p : Option Nat) : Heap :=
  { s with sizebases := update s.sizebases blktype p }

end Heap

/-- What is assumed of alloc_kpages: pages that are aligned, in the address space, and apart from
those still held. -/
def fresh (held : List (Nat × Nat)) (npages a : Nat) : Bool :=
  decide (a ≠ 0 ∧ a % pageSize = 0 ∧ a + npages * pageSize ≤ 2^32 ∧
    ∀ e ∈ held, a + npages * pageSize ≤ e.1 ∨ e.1 + e.2 * pageSize ≤ a)

def allocKpages (npages answer : Nat) : Code Nat := do
  let s ← get
  if fresh s.held npages answer = true then
    modify fun s => { s with held := (answer,npages) :: s.held }
    pure answer
  else
    pure 0

def freeKpages (addr : Nat) : Code Unit := do
  let s ← get
  assert (addr ∈ s.held.map Prod.fst) .notHeld
  modify fun s => { s with held := s.held.filter fun e => decide (e.1 ≠ addr) }

def clearBit (w : BitVec 32) : Nat → Nat → Option Nat
  | 0, _ => none
  | n+1, j => if w &&& (1#32 <<< j) = 0#32 then some j else clearBit w n (j+1)

def allocpagerefFrom : Nat → Nat → Code (Option Nat)
  | 0, _ => pure none
  | n+1, i => do
    let s ← get
    let w := s.pagerefsInuse i
    if w = 0xffffffff#32 then allocpagerefFrom n (i+1)
    else
      match clearBit w 32 0 with
      | none => halt .inuseFull
      | some j =>
        modify fun s => s.setInuse i (w ||| (1#32 <<< j))
        pure (some (i*32 + j))

def allocpageref : Code (Option Nat) := allocpagerefFrom inuseWords 0

def freepageref (p : Nat) : Code Unit := do
  assert (p < npagerefs) .freepageref
  let s ← get
  let w := s.pagerefsInuse (p / 32)
  assert (w &&& (1#32 <<< (p % 32)) ≠ 0#32) .freepageref
  modify fun s => s.setInuse (p / 32) (w &&& ~~~(1#32 <<< (p % 32)))

/-- The place of a pointer to a pageref: the base of a list, or the link in a pageref. -/
inductive Guy where
  | base
  | next (p : Nat)
  deriving DecidableEq, Repr

/-- A loop of remove_lists, up to the pointer to `pr`. A list has at most NPAGEREFS entries. -/
def findGuy (link : PageRef → Option Nat) (pr : Nat) : Nat → Guy → Option Nat → Code (Option Guy)
  | _, _, none => pure none
  | 0, _, some _ => halt .endless
  | n+1, guy, some p => do
    let s ← get
    if p = pr then pure (some guy) else findGuy link pr n (.next p) (link (s.pagerefs p))

def removeSamesize (pr blktype : Nat) : Code Unit := do
  let s ← get
  match ← findGuy PageRef.nextSamesize pr npagerefs .base (s.sizebases blktype) with
  | none => pure ()
  | some .base => modify fun s => s.setSizebase blktype (s.pagerefs pr).nextSamesize
  | some (.next p) =>
    modify fun s => s.setRef p
      { s.pagerefs p with nextSamesize := (s.pagerefs pr).nextSamesize }

def removeAll (pr : Nat) : Code Unit := do
  let s ← get
  match ← findGuy PageRef.nextAll pr npagerefs .base s.allbase with
  | none => pure ()
  | some .base => modify fun s => { s with allbase := (s.pagerefs pr).nextAll }
  | some (.next p) =>
    modify fun s => s.setRef p { s.pagerefs p with nextAll := (s.pagerefs pr).nextAll }

def removeLists (pr blktype : Nat) : Code Unit := do
  assert (blktype < nsizes) .removeLists
  removeSamesize pr blktype
  removeAll pr

/-- The smallest block type that is large enough. -/
def blocktypeFrom (sz : Nat) : Nat → Nat → Code Nat
  | 0, _ => halt .blocktype
  | n+1, i => if sz ≤ size i then pure i else blocktypeFrom sz n (i+1)

def blocktype (sz : Nat) : Code Nat := blocktypeFrom sz nsizes 0

def findFree (blktype : Nat) : Nat → Option Nat → Code (Option Nat)
  | _, none => pure none
  | 0, some _ => halt .endless
  | n+1, some pr => do
    let s ← get
    assert ((s.pagerefs pr).blocktype = blktype) .corrupt
    if 0 < (s.pagerefs pr).nfree then pure (some pr)
    else findFree blktype n (s.pagerefs pr).nextSamesize

def doalloc (pr : Nat) : Code Nat := do
  let s ← get
  let ref := s.pagerefs pr
  assert (ref.freelistOffset < pageSize) .freelistOffset
  let fla := add32 ref.pageaddr ref.freelistOffset
  let fl := s.mem fla
  let nfree := ref.nfree - 1
  if fl ≠ 0 then
    assert (0 < nfree) .nfree
    assert (sub32 fl ref.pageaddr < pageSize) .freelistNext
    modify fun s => s.setRef pr
      { ref with nfree := nfree, freelistOffset := u16 (sub32 fl ref.pageaddr) }
  else
    assert (nfree = 0) .nfree
    modify fun s => s.setRef pr { ref with nfree := nfree, freelistOffset := invalidOffset }
  pure fla

/-- The loop that links the blocks of a new page, from block `i` on. -/
def carveLoop (fla sz : Nat) : Nat → Nat → Code Unit
  | 0, _ => pure ()
  | n+1, i => do
    let fl := add32 fla (i * sz)
    let next := add32 fla ((i-1) * sz)
    modify fun s => s.store fl next
    assert (fl ≠ next) .carve
    carveLoop fla sz n (i+1)

/-- A new page gets its pageref and its free list, and goes on both lists. -/
def carve (pr prpage blktype : Nat) : Code Unit := do
  let nfree := u16 (pageSize / size blktype)
  modify fun s => s.store prpage 0
  carveLoop prpage (size blktype) (nfree - 1) 1
  let fla := add32 prpage ((nfree - 1) * size blktype)
  let offset := u16 (sub32 fla prpage)
  assert (offset = (nfree - 1) * size blktype) .carve
  modify fun s => s.setRef pr
    ⟨s.sizebases blktype,s.allbase,mkpab prpage blktype,offset,nfree⟩
  modify fun s => s.setSizebase blktype (some pr)
  modify fun s => { s with allbase := some pr }

def subpageKmalloc (sz answer : Nat) : Code Nat := do
  let blktype ← blocktype sz
  let s ← get
  match ← findFree blktype npagerefs (s.sizebases blktype) with
  | some pr => doalloc pr
  | none =>
    match ← allocpageref with
    | none => pure 0
    | some pr =>
      let prpage ← allocKpages 1 answer
      if prpage = 0 then
        freepageref pr
        pure 0
      else
        carve pr prpage blktype
        doalloc pr

def npages (sz : Nat) : Nat := add32 sz (pageSize - 1) / pageSize

/-- kmalloc, with the answer that alloc_kpages will give if it is asked. -/
def kmalloc (sz answer : Nat) : Code Nat :=
  if largestSubpageSize ≤ sz then allocKpages (npages sz) answer else subpageKmalloc sz answer

def fillDeadbeef (ptr : Nat) : Nat → Heap → Heap
  | 0, s => s
  | n+1, s => (fillDeadbeef ptr n s).store (add32 ptr (4*n)) 0xdeadbeef

def findPage (ptraddr : Nat) : Nat → Option Nat → Code (Option Nat)
  | _, none => pure none
  | 0, some _ => halt .endless
  | n+1, some pr => do
    let s ← get
    assert ((s.pagerefs pr).blocktype < nsizes) .corrupt
    if (s.pagerefs pr).pageaddr ≤ ptraddr ∧ ptraddr < add32 (s.pagerefs pr).pageaddr pageSize then
      pure (some pr)
    else findPage ptraddr n (s.pagerefs pr).nextAll

def pushBlock (pr offset : Nat) (s : Heap) : Heap :=
  let ref := s.pagerefs pr
  let next := if ref.freelistOffset = invalidOffset then 0
    else add32 ref.pageaddr ref.freelistOffset
  (s.store (add32 ref.pageaddr offset) next).setRef pr
    { ref with freelistOffset := u16 offset, nfree := u16 (ref.nfree + 1) }

/-- The end of subpage_kfree: a page whose blocks are all free is released. -/
def releasePage (pr blktype prpage : Nat) : Code Unit := do
  let s ← get
  assert ((s.pagerefs pr).nfree ≤ pageSize / size blktype) .nfree
  if (s.pagerefs pr).nfree = pageSize / size blktype then
    removeLists pr blktype
    freeKpages prpage
    freepageref pr

def freeBlock (ptraddr pr blktype prpage offset : Nat) : Code Bool := do
  assert (offset < pageSize ∧ offset % size blktype = 0) .invalidAddr
  modify (fillDeadbeef ptraddr (size blktype / 4))
  modify (pushBlock pr offset)
  releasePage pr blktype prpage
  pure true

/-- Tells whether the address is on one of the pages. -/
def subpageKfree (ptraddr : Nat) : Code Bool := do
  let s ← get
  match ← findPage ptraddr npagerefs s.allbase with
  | none => pure false
  | some pr =>
    let ref := s.pagerefs pr
    freeBlock ptraddr pr ref.blocktype ref.pageaddr (sub32 ptraddr ref.pageaddr)

def kfree (ptr : Nat) : Code Unit :=
  if ptr = 0 then pure ()
  else do
    if (← subpageKfree ptr) = false then
      assert (ptr % pageSize = 0) .bigFree
      freeKpages ptr

def blockSize (sz : Nat) : Nat :=
  if largestSubpageSize ≤ sz then npages sz * pageSize
  else (sizes.find? fun n => decide (sz ≤ n)).getD 0

/-- The blocks that the heap has given out, each with the size that was asked for. -/
structure World where
  heap : Heap
  live : List (Nat × Nat)

inductive Act where
  | kmalloc (sz answer : Nat)
  /-- A pointer that kmalloc has returned, or NULL. -/
  | kfree (ptr : Nat)
  /-- A store into a block that has been given out, or outside the pages of the heap. -/
  | store (addr v : Nat)
  deriving DecidableEq, Repr

def World.mayStore (w : World) (addr : Nat) : Prop :=
  (∃ b ∈ w.live, b.1 ≤ addr ∧ addr < b.1 + b.2) ∨
  ∀ e ∈ w.heap.held, addr < e.1 ∨ e.1 + e.2 * pageSize ≤ addr

instance (w : World) (addr : Nat) : Decidable (w.mayStore addr) :=
  inferInstanceAs (Decidable (_ ∨ _))

def World.alloc (w : World) (sz : Nat) : Outcome Heap Empty Panic Nat → Except Panic World
  | .ok p s => .ok ⟨s,if p = 0 then w.live else (p,sz) :: w.live⟩
  | .err e _ => e.elim
  | .panic p => .error p

def World.free (w : World) (ptr : Nat) : Outcome Heap Empty Panic Unit → Except Panic World
  | .ok _ s => .ok ⟨s,w.live.filter fun b => decide (b.1 ≠ ptr)⟩
  | .err e _ => e.elim
  | .panic p => .error p

def perform (w : World) : Act → Option (Except Panic World)
  | .kmalloc sz answer =>
    if sz ≤ 2^32 - pageSize then some (w.alloc sz (kmalloc sz answer w.heap)) else none
  | .kfree ptr =>
    if ptr = 0 ∨ ptr ∈ w.live.map Prod.fst then some (w.free ptr (kfree ptr w.heap)) else none
  | .store addr v => if w.mayStore addr then some (.ok ⟨w.heap.store addr v,w.live⟩) else none

def step (w : World) (a : Act) : Option World :=
  match perform w a with
  | some (.ok w') => some w'
  | _ => none

def init (mem : Nat → Nat) : World :=
  ⟨⟨fun _ => ⟨none,none,0,0,0⟩,fun _ => 0#32,fun _ => none,none,mem,[]⟩,[]⟩

section Sizes

theorem size_spec {b : Nat} (hb : b < nsizes) :
    16 ≤ size b ∧ size b ≤ 2048 ∧ size b % 16 = 0 ∧ pageSize / size b * size b = pageSize ∧
      2 ≤ pageSize / size b ∧ pageSize / size b ≤ 256 := by
  have h : ∀ b < nsizes, 16 ≤ size b ∧ size b ≤ 2048 ∧ size b % 16 = 0 ∧
      pageSize / size b * size b = pageSize ∧ 2 ≤ pageSize / size b ∧ pageSize / size b ≤ 256 := by
    decide
  exact h b hb

variable {sz : Nat}

theorem blocktypeFrom_spec (s : Heap) {n i : Nat} (hn : i + n = nsizes)
    (hsz : sz ≤ size (nsizes - 1)) (hi : i < nsizes) :
    ∃ b, blocktypeFrom sz n i s = .ok b s ∧ b < nsizes ∧ sz ≤ size b ∧
      (sizes.drop i).find? (fun m => decide (sz ≤ m)) = some (size b) := by
  induction n generalizing i with
  | zero =>
    have hi' : i = nsizes := hn
    omega
  | succ n ih =>
    have hlen : i < sizes.length := hi
    have hdrop : sizes.drop i = size i :: sizes.drop (i+1) := by
      rw [List.drop_eq_getElem_cons hlen]
      congr 1
      exact (List.getD_eq_getElem _ _ hlen).symm
    rw [blocktypeFrom,hdrop]
    by_cases hle : sz ≤ size i
    · rw [if_pos hle,List.find?_cons_of_pos (by simpa using hle)]
      exact ⟨i,rfl,hi,hle,rfl⟩
    · rw [if_neg hle,List.find?_cons_of_neg (by simpa using hle)]
      have hne : i ≠ nsizes - 1 := by
        rintro rfl
        exact hle hsz
      exact ih (by omega) (by omega)

theorem blocktype_spec (hsz : sz < largestSubpageSize) (s : Heap) :
    ∃ b, blocktype sz s = .ok b s ∧ b < nsizes ∧ sz ≤ size b ∧ blockSize sz = size b := by
  have hle : sz ≤ size (nsizes - 1) := Nat.le_of_lt hsz
  obtain ⟨b,hb,hlt,hsz',hfind⟩ := blocktypeFrom_spec s (Nat.zero_add nsizes) hle (by decide)
  refine ⟨b,hb,hlt,hsz',?_⟩
  have hfind : sizes.find? (fun m => decide (sz ≤ m)) = some (size b) := hfind
  rw [blockSize,if_neg (Nat.not_le.mpr hsz),hfind]
  rfl

theorem npages_spec (hsz : largestSubpageSize ≤ sz) (hle : sz ≤ 2^32 - pageSize) :
    0 < npages sz ∧ sz ≤ npages sz * pageSize := by
  simp only [npages,add32,pageSize,largestSubpageSize] at *
  rw [Nat.mod_eq_of_lt (by omega)]
  omega

theorem blockSize_big (h : largestSubpageSize ≤ sz) :
    blockSize sz = npages sz * pageSize := if_pos h

end Sizes

theorem and_low (x : Nat) : x &&& (2^32 - 1 - pageFrame) = x % pageSize :=
  Nat.and_two_pow_sub_one_eq_mod x 12

theorem and_pageFrame {x : Nat} (hx : x < 2^32) : x &&& pageFrame = x / pageSize * pageSize := by
  have hframe : pageFrame = (2^20 - 1) <<< 12 := by decide
  have hshift : x &&& pageFrame = ((x >>> 12) &&& (2^20 - 1)) <<< 12 := by
    rw [hframe]
    refine Nat.eq_of_testBit_eq fun i => ?_
    simp only [Nat.testBit_and,Nat.testBit_shiftLeft,Nat.testBit_shiftRight]
    by_cases hi : 12 ≤ i
    · simp [hi]
    · simp [hi]
  rw [hshift,Nat.and_two_pow_sub_one_eq_mod,Nat.shiftRight_eq_div_pow,Nat.shiftLeft_eq,
    Nat.mod_eq_of_lt (by omega)]
  rfl

theorem mkpab_eq {pa blk : Nat} (hpa : pa % pageSize = 0) (hlt : pa < 2^32) (hblk : blk < nsizes) :
    mkpab pa blk = pa + blk := by
  have hpage : pa / pageSize * pageSize = pa := by
    simp only [pageSize] at *
    omega
  have hlow : blk % pageSize = blk := by
    simp only [pageSize,nsizes] at *
    omega
  have hor := Nat.two_pow_add_eq_or_of_lt (i := 12) (b := blk)
    (by simp only [nsizes] at hblk; omega) (pa / pageSize)
  rw [mkpab,and_low,and_pageFrame hlt,hpage,hlow]
  have hmul : 2^12 * (pa / pageSize) = pa := by
    rw [Nat.mul_comm]
    exact hpage
  rw [hmul] at hor
  exact hor.symm

theorem unpack {q : PageRef} {pa blk : Nat} (h : q.pageaddrAndBlocktype = mkpab pa blk)
    (hpa : pa % pageSize = 0) (hlt : pa < 2^32) (hblk : blk < nsizes) :
    q.pageaddr = pa ∧ q.blocktype = blk := by
  rw [mkpab_eq hpa hlt hblk] at h
  have hsum : pa + blk < 2^32 := by
    simp only [pageSize,nsizes] at *
    omega
  refine ⟨?_,?_⟩
  · rw [PageRef.pageaddr,h,and_pageFrame hsum]
    simp only [pageSize,nsizes] at *
    omega
  · rw [PageRef.blocktype,h,and_low]
    simp only [pageSize,nsizes] at *
    omega

section InUse

def Heap.used (s : Heap) (p : Nat) : Bool := (s.pagerefsInuse (p / 32)).getLsbD (p % 32)

theorem getLsbD_bit (j i : Nat) (hi : i < 32) : (1#32 <<< j).getLsbD i = decide (i = j) := by
  rw [BitVec.getLsbD_shiftLeft,BitVec.getLsbD_one]
  by_cases hij : i = j
  · subst hij
    simp [hi]
  · have hne : ¬ (j ≤ i ∧ i - j = 0) := by omega
    simp only [hij,decide_false]
    by_cases hlt : i < j
    · simp [hlt]
    · have hne' : ¬ i - j = 0 := by omega
      simp [hne']

variable {w : BitVec 32} {j n p : Nat} {s : Heap}

theorem and_bit (hj : j < 32) : w &&& (1#32 <<< j) = 0#32 ↔ w.getLsbD j = false := by
  constructor
  · intro h
    have hb := congrArg (fun v => v.getLsbD j) h
    simp only [BitVec.getLsbD_and,getLsbD_bit j j hj,decide_true,Bool.and_true,
      BitVec.getLsbD_zero] at hb
    exact hb
  · intro h
    refine BitVec.eq_of_getLsbD_eq fun i hi => ?_
    rw [BitVec.getLsbD_and,getLsbD_bit j i hi,BitVec.getLsbD_zero]
    by_cases hij : i = j
    · rw [hij,h]
      rfl
    · simp [hij]

theorem clearBit_spec (hn : j + n = 32)
    (hlow : ∀ i < j, w.getLsbD i = true) (hw : w ≠ 0xffffffff#32) :
    ∃ i, clearBit w n j = some i ∧ i < 32 ∧ w.getLsbD i = false := by
  induction n generalizing j with
  | zero =>
    -- All bits are set.
    refine (hw (BitVec.eq_of_getLsbD_eq fun i hi => ?_)).elim
    have hones : 0xffffffff#32 = BitVec.allOnes 32 := by decide
    rw [hlow i (by omega),hones,BitVec.getLsbD_allOnes]
    exact (decide_eq_true hi).symm
  | succ n ih =>
    have hj : j < 32 := by omega
    rw [clearBit]
    by_cases hb : w.getLsbD j = false
    · rw [if_pos ((and_bit hj).mpr hb)]
      exact ⟨j,rfl,hj,hb⟩
    · rw [if_neg fun h => hb ((and_bit hj).mp h)]
      refine ih (by omega) fun i hi => ?_
      rcases Nat.lt_succ_iff_lt_or_eq.mp hi with hlt | rfl
      · exact hlow i hlt
      · exact Bool.eq_true_of_not_eq_false hb

def Heap.mark (s : Heap) (p : Nat) (v : Bool) : Heap :=
  s.setInuse (p / 32) (if v = true then s.pagerefsInuse (p / 32) ||| (1#32 <<< (p % 32))
    else s.pagerefsInuse (p / 32) &&& ~~~(1#32 <<< (p % 32)))

theorem used_mark (s : Heap) (p q : Nat) (v : Bool) :
    (s.mark p v).used q = if q = p then v else s.used q := by
  have hq : q % 32 < 32 := Nat.mod_lt _ (by decide)
  rw [Heap.used,Heap.mark,Heap.setInuse]
  by_cases hw : q / 32 = p / 32
  · have heq : q % 32 = p % 32 ↔ q = p := by omega
    simp only [hw,update_self]
    cases v with
    | true =>
      rw [if_pos rfl,BitVec.getLsbD_or,getLsbD_bit _ _ hq,Heap.used,hw]
      by_cases hqp : q = p
      · simp [hqp]
      · simp [hqp,heq]
    | false =>
      rw [if_neg Bool.false_ne_true,BitVec.getLsbD_and,BitVec.getLsbD_not,getLsbD_bit _ _ hq,
        Heap.used,hw]
      by_cases hqp : q = p
      · simp [hqp]
      · simp [hqp,heq,hq]
  · have hqp : q ≠ p := by
      rintro rfl
      exact hw rfl
    rw [if_neg hqp,Heap.used]
    simp only [update_of_ne hw]

theorem allocpagerefFrom_spec (s : Heap) {i : Nat} (hn : i + n = inuseWords) :
    allocpagerefFrom n i s = .ok none s ∨
      ∃ p, allocpagerefFrom n i s = .ok (some p) (s.mark p true) ∧ p < npagerefs ∧
        s.used p = false := by
  induction n generalizing i with
  | zero => exact .inl rfl
  | succ n ih =>
    rw [allocpagerefFrom,get_bind]
    by_cases hw : s.pagerefsInuse i = 0xffffffff#32
    · simp only [hw,if_true]
      exact ih (by omega)
    · obtain ⟨j,hj,hlt,hbit⟩ := clearBit_spec (Nat.zero_add 32) nofun hw
      have hdiv : (i * 32 + j) / 32 = i := by omega
      have hmod : (i * 32 + j) % 32 = j := by omega
      simp only [hw,if_false,hj,modify_bind]
      refine .inr ⟨i * 32 + j,?_,?_,?_⟩
      · rw [Heap.mark,hdiv,hmod,if_pos rfl]
        rfl
      · simp only [inuseWords,npagerefs] at *
        omega
      · rw [Heap.used,hdiv,hmod]
        exact hbit

theorem allocpageref_spec (s : Heap) :
    allocpageref s = .ok none s ∨
      ∃ p, allocpageref s = .ok (some p) (s.mark p true) ∧ p < npagerefs ∧ s.used p = false :=
  allocpagerefFrom_spec s (Nat.zero_add inuseWords)

theorem freepageref_spec (hp : p < npagerefs) (hu : s.used p = true) :
    freepageref p s = .ok () (s.mark p false) := by
  have hlt : p % 32 < 32 := Nat.mod_lt _ (by decide)
  have hbit : s.pagerefsInuse (p / 32) &&& (1#32 <<< (p % 32)) ≠ 0#32 := by
    intro h
    have hf := (and_bit hlt).mp h
    rw [Heap.used] at hu
    rw [hu] at hf
    cases hf
  rw [freepageref,assert_bind _ _ _ hp,get_bind,assert_bind _ _ _ hbit,Heap.mark,
    if_neg Bool.false_ne_true]
  rfl

theorem mark_unmark (hu : s.used p = false) : (s.mark p true).mark p false = s := by
  have hlt : p % 32 < 32 := Nat.mod_lt _ (by decide)
  have hw : (s.pagerefsInuse (p / 32) ||| (1#32 <<< (p % 32))) &&& ~~~(1#32 <<< (p % 32)) =
      s.pagerefsInuse (p / 32) := by
    refine BitVec.eq_of_getLsbD_eq fun i hi => ?_
    rw [BitVec.getLsbD_and,BitVec.getLsbD_or,BitVec.getLsbD_not,getLsbD_bit _ _ hi]
    by_cases hip : i = p % 32
    · rw [Heap.used] at hu
      rw [hip,hu]
      simp
    · simp [hip,hi]
  simp only [Heap.mark,Heap.setInuse,if_pos,Bool.false_eq_true,if_false,update_self,
    update_idem,hw,update_eq_self]

end InUse

section Held

def Apart (e e' : Nat × Nat) : Prop :=
  e.1 + e.2 * pageSize ≤ e'.1 ∨ e'.1 + e'.2 * pageSize ≤ e.1

instance : Std.Symm Apart := ⟨fun _ _ h => Or.symm h⟩

structure Held (held : List (Nat × Nat)) : Prop where
  apart : held.Pairwise Apart
  pages : ∀ e ∈ held, e.1 ≠ 0 ∧ e.1 % pageSize = 0 ∧ e.1 + e.2 * pageSize ≤ 2^32 ∧ 0 < e.2

variable {held : List (Nat × Nat)} {e e' : Nat × Nat} {a n addr : Nat} {s : Heap}

theorem Held.unique (h : Held held)
    (he : e ∈ held) (he' : e' ∈ held) (ha : e.1 ≤ a ∧ a < e.1 + e.2 * pageSize)
    (ha' : e'.1 ≤ a ∧ a < e'.1 + e'.2 * pageSize) : e = e' := by
  by_contra hne
  rcases h.apart.forall he he' hne with hle | hle
  · omega
  · omega

theorem Held.start (h : Held held) (he : e ∈ held)
    (he' : e' ∈ held) (heq : e.1 = e'.1) : e = e' := by
  have hpos := (h.pages e he).2.2.2
  have hpos' := (h.pages e' he').2.2.2
  refine h.unique (a := e.1) he he' ⟨Nat.le_refl _,?_⟩ ⟨Nat.le_of_eq heq.symm,?_⟩
  · simp only [pageSize]
    omega
  · simp only [pageSize]
    omega

theorem Held.cons (h : Held held) (hn : 0 < n)
    (hf : fresh held n a = true) : Held ((a,n) :: held) := by
  obtain ⟨hzero,haligned,hend,hapart⟩ := of_decide_eq_true hf
  refine ⟨List.pairwise_cons.mpr ⟨hapart,h.apart⟩,fun e he => ?_⟩
  rcases List.mem_cons.mp he with rfl | he
  · exact ⟨hzero,haligned,hend,hn⟩
  · exact h.pages e he

theorem Held.filter (h : Held held) (p : Nat × Nat → Bool) : Held (held.filter p) :=
  ⟨h.apart.filter p,fun e he => h.pages e ((List.mem_filter.mp he).1)⟩

def Heap.released (s : Heap) (addr : Nat) : Heap :=
  { s with held := s.held.filter fun e => decide (e.1 ≠ addr) }

theorem mem_released : e ∈ (s.released addr).held ↔ e ∈ s.held ∧ e.1 ≠ addr := by
  rw [Heap.released,List.mem_filter,decide_eq_true_iff]

theorem not_mem_released (he : e ∈ s.held) : e ∉ (s.released addr).held ↔ e.1 = addr := by
  rw [mem_released,and_iff_right he]
  exact not_not

theorem freeKpages_spec (h : (addr,n) ∈ s.held) : freeKpages addr s = .ok () (s.released addr) := by
  rw [freeKpages,get_bind,assert_bind _ _ _ (List.mem_map_of_mem h)]
  rfl

theorem allocKpages_spec (s : Heap) (n answer : Nat) :
    allocKpages n answer s = .ok 0 s ∨ fresh s.held n answer = true ∧
      allocKpages n answer s = .ok answer { s with held := (answer,n) :: s.held } := by
  rw [allocKpages,get_bind]
  by_cases hf : fresh s.held n answer = true
  · rw [if_pos hf]
    exact .inr ⟨hf,rfl⟩
  · rw [if_neg hf]
    exact .inl rfl

end Held

section Grid

namespace PageRef

def total (pr : PageRef) : Nat := pageSize / size pr.blocktype

def OnGrid (pr : PageRef) (a : Nat) : Prop :=
  pr.pageaddr ≤ a ∧ a < pr.pageaddr + pageSize ∧ size pr.blocktype ∣ a - pr.pageaddr

def grid (pr : PageRef) : List Nat :=
  (List.range pr.total).map fun m => pr.pageaddr + m * size pr.blocktype

variable {pr pr' : PageRef}

section

variable (h : pr'.pageaddrAndBlocktype = pr.pageaddrAndBlocktype)

include h

theorem pageaddr_congr : pr'.pageaddr = pr.pageaddr := by
  rw [pageaddr,pageaddr,h]

theorem blocktype_congr : pr'.blocktype = pr.blocktype := by
  rw [blocktype,blocktype,h]

theorem onGrid_congr (a : Nat) :
    pr'.OnGrid a ↔ pr.OnGrid a := by
  rw [OnGrid,OnGrid,pageaddr_congr h,blocktype_congr h]

end

end PageRef

variable {pr : PageRef} {a a' : Nat}

theorem OnGrid.end_le (ht : pr.blocktype < nsizes) (h : pr.OnGrid a) :
    a + size pr.blocktype ≤ pr.pageaddr + pageSize := by
  obtain ⟨hle,hlt,hdvd⟩ := h
  obtain ⟨_,_,_,htotal,_,_⟩ := size_spec ht
  have hpage : size pr.blocktype ∣ pageSize := ⟨_,by rw [Nat.mul_comm]; exact htotal.symm⟩
  have hrest := Nat.le_of_dvd (by omega) (Nat.dvd_sub hpage hdvd)
  omega

theorem OnGrid.apart (h : pr.OnGrid a) (h' : pr.OnGrid a') (hlt : a < a') :
    a + size pr.blocktype ≤ a' := by
  have hdvd := Nat.dvd_sub h'.2.2 h.2.2
  have hle := h.1
  have hdiff : a' - pr.pageaddr - (a - pr.pageaddr) = a' - a := by omega
  rw [hdiff] at hdvd
  have hsize := Nat.le_of_dvd (by omega) hdvd
  omega

theorem mem_grid (ht : pr.blocktype < nsizes) : a ∈ pr.grid ↔ pr.OnGrid a := by
  obtain ⟨hpos,_,_,htotal,_,_⟩ := size_spec ht
  constructor
  · intro h
    obtain ⟨m,hm,rfl⟩ := List.mem_map.mp h
    have hm := List.mem_range.mp hm
    refine ⟨Nat.le_add_right _ _,?_,⟨m,?_⟩⟩
    · have hlt := Nat.mul_lt_mul_of_pos_right hm (show 0 < size pr.blocktype by omega)
      rw [PageRef.total,htotal] at hlt
      omega
    · rw [Nat.add_sub_cancel_left,Nat.mul_comm]
  · rintro ⟨hle,hlt,m,hm⟩
    refine List.mem_map.mpr ⟨m,List.mem_range.mpr ?_,?_⟩
    · refine Nat.lt_of_mul_lt_mul_left (a := size pr.blocktype) ?_
      rw [← hm,PageRef.total,Nat.mul_comm,htotal]
      omega
    · rw [Nat.mul_comm,← hm]
      omega

theorem nodup_grid (ht : pr.blocktype < nsizes) : pr.grid.Nodup := by
  obtain ⟨hpos,_⟩ := size_spec ht
  refine List.Nodup.map (fun m n h => ?_) List.nodup_range
  exact Nat.eq_of_mul_eq_mul_right (show 0 < size pr.blocktype by omega) (Nat.add_left_cancel h)

theorem length_grid : pr.grid.length = pr.total := by
  rw [PageRef.grid,List.length_map,List.length_range]

end Grid

section Pages

def memNext (mem : Nat → Nat) (a : Nat) : Option Nat := if mem a = 0 then none else some (mem a)

def PageRef.freelist (pr : PageRef) : Option Nat :=
  if pr.freelistOffset = invalidOffset then none else some (pr.pageaddr + pr.freelistOffset)

structure Page (s : Heap) (live : List (Nat × Nat)) (pr : PageRef) (fl : List Nat) : Prop where
  type : pr.blocktype < nsizes
  held : (pr.pageaddr,1) ∈ s.held
  low : pr.pageaddr + pageSize < 2^32
  chain : Chain (memNext s.mem) pr.freelist fl
  nfree : fl.length = pr.nfree
  blocks : ∀ a, a ∈ fl ↔ pr.OnGrid a ∧ a ∉ live.map Prod.fst

variable {s s' : Heap} {live live' : List (Nat × Nat)} {pr pr' : PageRef} {fl : List Nat} {a : Nat}

namespace Page

section

variable (h : Page s live pr fl)

include h

theorem frame (hpab : pr'.pageaddrAndBlocktype = pr.pageaddrAndBlocktype)
    (hoffset : pr'.freelistOffset = pr.freelistOffset) (hnfree : pr'.nfree = pr.nfree)
    (hheld : (pr.pageaddr,1) ∈ s'.held) (hmem : ∀ a ∈ fl, s'.mem a = s.mem a)
    (hlive : ∀ a, pr.OnGrid a → (a ∈ live'.map Prod.fst ↔ a ∈ live.map Prod.fst)) :
    Page s' live' pr' fl := by
  have haddr := PageRef.pageaddr_congr hpab
  refine ⟨?_,?_,?_,?_,?_,fun a => ?_⟩
  · rw [PageRef.blocktype_congr hpab]
    exact h.type
  · rw [haddr]
    exact hheld
  · rw [haddr]
    exact h.low
  · have hhead : pr'.freelist = pr.freelist := by
      rw [PageRef.freelist,PageRef.freelist,haddr,hoffset]
    rw [hhead]
    refine h.chain.congr fun a ha => ?_
    rw [memNext,memNext,hmem a ha]
  · rw [hnfree]
    exact h.nfree
  · rw [h.blocks a,PageRef.onGrid_congr hpab a]
    exact and_congr_right fun ha => not_congr (hlive a ha).symm

theorem onGrid (ha : a ∈ fl) : pr.OnGrid a := ((h.blocks a).mp ha).1

theorem subperm : fl.Subperm pr.grid :=
  List.subperm_of_subset h.chain.nodup fun _ ha => (mem_grid h.type).mpr (h.onGrid ha)

theorem nfree_le : pr.nfree ≤ pr.total := by
  rw [← h.nfree,← length_grid]
  exact h.subperm.length_le

theorem full :
    pr.nfree = pr.total ↔ ∀ a, pr.OnGrid a → a ∉ live.map Prod.fst := by
  rw [← h.nfree,← length_grid]
  constructor
  · intro hlen a ha
    have hperm := h.subperm.perm_of_length_le (Nat.le_of_eq hlen.symm)
    exact ((h.blocks a).mp (hperm.mem_iff.mpr ((mem_grid h.type).mpr ha))).2
  · intro hfree
    refine Nat.le_antisymm h.subperm.length_le (List.Subperm.length_le ?_)
    refine List.subperm_of_subset (nodup_grid h.type) fun a ha => ?_
    have ha := (mem_grid h.type).mp ha
    exact (h.blocks a).mpr ⟨ha,hfree a ha⟩

end

theorem first (h : Page s live pr (a :: fl)) :
    pr.freelistOffset < pageSize ∧ a = pr.pageaddr + pr.freelistOffset := by
  have hgrid := h.onGrid List.mem_cons_self
  have hhead := h.chain.head
  rw [PageRef.freelist] at hhead
  by_cases hinv : pr.freelistOffset = invalidOffset
  · rw [if_pos hinv] at hhead
    cases hhead
  · rw [if_neg hinv] at hhead
    cases hhead
    have hlt := hgrid.2.1
    exact ⟨by omega,rfl⟩

theorem offset_invalid (h : Page s live pr fl) :
    pr.freelistOffset = invalidOffset ↔ pr.nfree = 0 := by
  have hn := h.nfree
  cases fl with
  | nil =>
    refine iff_of_true ?_ hn.symm
    have hhead := h.chain.head
    rw [PageRef.freelist] at hhead
    by_contra hinv
    rw [if_neg hinv] at hhead
    cases hhead
  | cons a fl =>
    have hlt := h.first.1
    refine iff_of_false (fun hinv => ?_) ?_
    · rw [hinv] at hlt
      exact absurd hlt (by decide)
    · rw [List.length_cons] at hn
      omega

end Page

end Pages

def Small (s : Heap) (all : List Nat) (b : Nat × Nat) : Prop :=
  b.2 < largestSubpageSize ∧
    ∃ p ∈ all, (s.pagerefs p).OnGrid b.1 ∧ blockSize b.2 = size (s.pagerefs p).blocktype

def Big (s : Heap) (all : List Nat) (b : Nat × Nat) : Prop :=
  largestSubpageSize ≤ b.2 ∧ b.2 ≤ blockSize b.2 ∧ (b.1,npages b.2) ∈ s.held ∧
    ∀ p ∈ all, (s.pagerefs p).pageaddr ≠ b.1

/-- The heap with its lists: all pages, the pages of each block type, and the free list of each
page. -/
structure Rep (s : Heap) (live : List (Nat × Nat)) (all : List Nat) (same free : Nat → List Nat) :
    Prop where
  allbase : Chain (fun p => (s.pagerefs p).nextAll) s.allbase all
  sizebases : ∀ b < nsizes,
    Chain (fun p => (s.pagerefs p).nextSamesize) (s.sizebases b) (same b)
  used : ∀ p < npagerefs, s.used p = true ↔ p ∈ all
  bound : ∀ p ∈ all, p < npagerefs
  sorted : ∀ b < nsizes, ∀ p, p ∈ same b ↔ p ∈ all ∧ (s.pagerefs p).blocktype = b
  page : ∀ p ∈ all, Page s live (s.pagerefs p) (free p)
  apart : ∀ p ∈ all, ∀ q ∈ all, (s.pagerefs p).pageaddr = (s.pagerefs q).pageaddr → p = q
  held : Held s.held
  served : ∀ b ∈ live, Small s all b ∨ Big s all b
  starts : (live.map Prod.fst).Nodup

def Busy (s : Heap) (live : List (Nat × Nat)) (all : List Nat) : Prop :=
  ∀ p ∈ all, ∃ b ∈ live, (s.pagerefs p).OnGrid b.1

def Inv (s : Heap) (live : List (Nat × Nat)) : Prop :=
  ∃ all same free, Rep s live all same free ∧ Busy s live all

namespace Rep

variable {s : Heap} {live : List (Nat × Nat)} {all : List Nat} {same free : Nat → List Nat}

theorem length_le (h : Rep s live all same free) {l : List Nat} (hnodup : l.Nodup)
    (hsub : ∀ p ∈ l, p ∈ all) : l.length ≤ npagerefs := by
  have hrange : l.Subperm (List.range npagerefs) :=
    List.subperm_of_subset hnodup fun p hp => List.mem_range.mpr (h.bound p (hsub p hp))
  have hle := hrange.length_le
  rwa [List.length_range] at hle

variable {p a : Nat} {b : Nat × Nat}

section

variable (h : Rep s live all same free)

include h

theorem pageRange (hp : p ∈ all)
    (ha : (s.pagerefs p).pageaddr ≤ a ∧ a < (s.pagerefs p).pageaddr + pageSize) {e : Nat × Nat}
    (he : e ∈ s.held) (hae : e.1 ≤ a ∧ a < e.1 + e.2 * pageSize) :
    e = ((s.pagerefs p).pageaddr,1) :=
  h.held.unique he (h.page p hp).held hae ⟨ha.1,by rw [Nat.one_mul]; exact ha.2⟩

theorem page_unique {q : Nat} (hp : p ∈ all) (hq : q ∈ all) (ha : (s.pagerefs p).OnGrid a)
    (ha' : (s.pagerefs q).pageaddr ≤ a ∧ a < (s.pagerefs q).pageaddr + pageSize) : p = q := by
  have heq := h.pageRange hq ha' (h.page p hp).held ⟨ha.1,by rw [Nat.one_mul]; exact ha.2.1⟩
  exact h.apart p hp q hq (congrArg Prod.fst heq)

theorem sz_le (hb : b ∈ live) : b.2 ≤ blockSize b.2 := by
  rcases h.served b hb with ⟨hsmall,_⟩ | ⟨_,hle,_⟩
  · obtain ⟨_,_,_,hle,hsize⟩ := blocktype_spec hsmall s
    rw [hsize]
    exact hle
  · exact hle

theorem block_apart (hp : p ∈ all) (ha : (s.pagerefs p).OnGrid a) (hb : b ∈ live) (hne : a ≠ b.1) :
    a + size (s.pagerefs p).blocktype ≤ b.1 ∨ b.1 + blockSize b.2 ≤ a := by
  have hend := OnGrid.end_le (h.page p hp).type ha
  have hle := ha.1
  rcases h.served b hb with ⟨_,q,hq,hgrid,hsize⟩ | ⟨hbig,_,hheld,hnot⟩
  · by_cases hpq : p = q
    · subst hpq
      rw [hsize]
      rcases Nat.lt_or_gt_of_ne hne with hlt | hlt
      · exact .inl (OnGrid.apart ha hgrid hlt)
      · exact .inr (OnGrid.apart hgrid ha hlt)
    · have hentry : ((s.pagerefs p).pageaddr,1) ≠ ((s.pagerefs q).pageaddr,1) := fun heq =>
        hpq (h.apart p hp q hq (congrArg Prod.fst heq))
      have hend' := OnGrid.end_le (h.page q hq).type hgrid
      have hle' := hgrid.1
      rw [hsize]
      rcases h.held.apart.forall (h.page p hp).held (h.page q hq).held hentry with hap | hap
      · simp only [Nat.one_mul] at hap
        omega
      · simp only [Nat.one_mul] at hap
        omega
  · have hentry : ((s.pagerefs p).pageaddr,1) ≠ (b.1,npages b.2) := fun heq =>
      hnot p hp (congrArg Prod.fst heq)
    rw [blockSize_big hbig]
    rcases h.held.apart.forall (h.page p hp).held hheld hentry with hap | hap
    · simp only [Nat.one_mul] at hap
      omega
    · simp only at hap
      omega

theorem disjoint {b' : Nat × Nat} (hb : b ∈ live) (hb' : b' ∈ live) (hne : b.1 ≠ b'.1) :
    b.1 + blockSize b.2 ≤ b'.1 ∨ b'.1 + blockSize b'.2 ≤ b.1 := by
  rcases h.served b hb with ⟨_,p,hp,hgrid,hsize⟩ | ⟨hbig,_,hheld,hnot⟩
  · rw [hsize]
    exact h.block_apart hp hgrid hb' hne
  rcases h.served b' hb' with ⟨_,p,hp,hgrid,hsize⟩ | ⟨hbig',_,hheld',_⟩
  · rw [hsize]
    exact (h.block_apart hp hgrid hb hne.symm).symm
  · rw [blockSize_big hbig,blockSize_big hbig']
    have hentry : (b.1,npages b.2) ≠ (b'.1,npages b'.2) := fun heq => hne (Prod.mk.inj heq).1
    have hap := h.held.apart.forall hheld hheld' hentry
    exact hap

theorem blockSize_pos (hb : b ∈ live) : 0 < blockSize b.2 := by
  rcases h.served b hb with ⟨_,p,hp,_,hsize⟩ | ⟨hbig,_,hheld,_⟩
  · obtain ⟨hpos,_⟩ := size_spec (h.page p hp).type
    omega
  · have hpos := (h.held.pages _ hheld).2.2.2
    rw [blockSize_big hbig]
    exact Nat.mul_pos hpos (by decide)

theorem within (hb : b ∈ live) :
    ∃ e ∈ s.held, e.1 ≤ b.1 ∧ b.1 + blockSize b.2 ≤ e.1 + e.2 * pageSize := by
  rcases h.served b hb with ⟨_,p,hp,hgrid,hsize⟩ | ⟨hbig,_,hheld,_⟩
  · refine ⟨_,(h.page p hp).held,hgrid.1,?_⟩
    rw [hsize,Nat.one_mul]
    exact OnGrid.end_le (h.page p hp).type hgrid
  · refine ⟨_,hheld,Nat.le_refl _,?_⟩
    rw [blockSize_big hbig]

theorem not_fresh {n page : Nat} (hf : fresh s.held n page = true)
    (ha : page ≤ a ∧ a < page + n * pageSize) :
    a ∉ live.map Prod.fst := by
  intro hlive
  obtain ⟨b,hb,rfl⟩ := List.mem_map.mp hlive
  obtain ⟨_,_,_,hapart⟩ := of_decide_eq_true hf
  obtain ⟨e,he,hle,hend⟩ := h.within hb
  have hpos := h.blockSize_pos hb
  have hap := hapart e he
  omega

theorem aligned (hb : b ∈ live) : b.1 % 16 = 0 := by
  rcases h.served b hb with ⟨_,p,hp,hgrid,_⟩ | ⟨_,_,hheld,_⟩
  · obtain ⟨_,_,hsize,_⟩ := size_spec (h.page p hp).type
    have hpage := (h.held.pages _ (h.page p hp).held).2.1
    have hdvd := Nat.dvd_trans (Nat.dvd_of_mod_eq_zero hsize) hgrid.2.2
    have hle := hgrid.1
    simp only [pageSize] at hpage
    omega
  · have hpage := (h.held.pages _ hheld).2.1
    simp only [pageSize] at hpage
    omega

theorem write {mem : Nat → Nat} (hmem : ∀ p ∈ all, ∀ a ∈ free p, mem a = s.mem a) :
    Rep { s with mem := mem } live all same free where
  allbase := h.allbase
  sizebases := h.sizebases
  used := h.used
  bound := h.bound
  sorted := h.sorted
  page p hp := (h.page p hp).frame rfl rfl rfl (h.page p hp).held (hmem p hp) fun _ _ => Iff.rfl
  apart := h.apart
  held := h.held
  served := h.served
  starts := h.starts

end

end Rep

/-- The owner of a block may write to it, and anybody outside the heap. -/
theorem Inv.store {w : World} (h : Inv w.heap w.live) {addr v : Nat} (hm : w.mayStore addr) :
    Inv (w.heap.store addr v) w.live := by
  obtain ⟨all,same,free,hrep,hbusy⟩ := h
  refine ⟨all,same,free,hrep.write fun p hp a ha => Function.update_of_ne ?_ _ _,hbusy⟩
  have hpage := hrep.page p hp
  have hgrid := hpage.onGrid ha
  rintro rfl
  rcases hm with ⟨b,hb,hle,hlt⟩ | hout
  · have hne : a ≠ b.1 := by
      rintro rfl
      exact ((hpage.blocks b.1).mp ha).2 (List.mem_map_of_mem hb)
    have hsz := hrep.sz_le hb
    rcases hrep.block_apart hp hgrid hb hne with hap | hap
    · omega
    · omega
  · have hheld := hout _ hpage.held
    have hle := hgrid.1
    have hlt := hgrid.2.1
    simp only [Nat.one_mul] at hheld
    omega

theorem inv_init (mem : Nat → Nat) : Inv (init mem).heap (init mem).live := by
  refine ⟨[],fun _ => [],fun _ => [],?_,nofun⟩
  exact {
    allbase := .nil
    sizebases := fun _ _ => .nil
    used := fun p _ => by
      rw [Heap.used]
      simp [init]
    bound := nofun
    sorted := fun b _ p => by simp
    page := nofun
    apart := nofun
    held := ⟨List.Pairwise.nil,nofun⟩
    served := nofun
    starts := List.nodup_nil }

end MipsOs.Kheap
