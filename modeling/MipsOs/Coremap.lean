import Mathlib.Tactic.Linarith
import MipsOs.Runs
import MipsOs.Types

/-! Physical frames: kern/arch/mips/mips/ram.c and the frame allocator of
kern/vm/addrspace.c. Addresses and unsigned counters are naturals with their
reductions modulo 2^32 written out; signed counters are integers. -/

set_option autoImplicit false
namespace MipsOs.Vm

def pageSize : Nat := 4096

structure CoremapEntry where
  allocated : Bool
  paddrBase : Nat
  deriving DecidableEq, Repr

/-- sizeof(struct coremapEntry): an int and a paddr_t. -/
def sizeofCoremapEntry : Nat := 8

/-- The globals of ram.c and of the frame allocator. The global NPAGES is
assigned by getppages and read nowhere. -/
structure Frames where
  firstpaddr : Nat
  lastpaddr : Nat
  beforeVM : Bool
  pageFrameStart : Nat
  coremap : List CoremapEntry
  deriving DecidableEq, Repr

def roundDown (address size : Nat) : Nat := address - address % size

/-- ROUND_UP. An address that is already aligned moves up by a whole `size`. -/
def roundUp (address size : Nat) : Nat := (address - address % size + size) % 2^32

def ramStealmem (npages : Nat) (f : Frames) : Nat × Frames :=
  let size := npages * pageSize % 2^32
  if (f.firstpaddr + size) % 2^32 > f.lastpaddr then (0,f)
  else (f.firstpaddr,{ f with firstpaddr := (f.firstpaddr + size) % 2^32 })

/-- ram_getsize hands all remaining memory over and forgets it. -/
def ramGetsize (f : Frames) : Nat × Nat × Frames :=
  (f.firstpaddr,f.lastpaddr,{ f with firstpaddr := 0, lastpaddr := 0 })

def freshCoremap (start : Nat) (numCoremapEntry : Int) : List CoremapEntry :=
  (List.range numCoremapEntry.toNat).map fun i => ⟨false,(start + i * pageSize) % 2^32⟩

/-- coremapSize: one entry for each whole page between `low` and `high`. -/
def coremapSize (low high : Nat) : Int :=
  let divisibleAddr := toInt32 (roundDown (toU32 (high - low)) pageSize)
  let nFramesPre := divisibleAddr.tdiv pageSize
  toInt32 (toU32 (nFramesPre * sizeofCoremapEntry))

def pageFrameStartPa (low high : Nat) : Nat :=
  roundUp (toU32 (low + coremapSize low high)) pageSize

/-- totalPageFrameNum. The difference is taken unsigned and then read as an int,
so it is negative when the coremap alone does not fit below `high`. -/
def totalPageFrameNum (low high : Nat) : Int :=
  let totalPageFrameSize := toInt32 (roundDown (toU32 (high - pageFrameStartPa low high)) pageSize)
  totalPageFrameSize.tdiv pageSize

def vmBootstrap (f : Frames) : Frames :=
  let (low,high,f) := ramGetsize f
  { f with
    pageFrameStart := pageFrameStartPa low high
    coremap := freshCoremap (pageFrameStartPa low high) (totalPageFrameNum low high)
    beforeVM := false }

/-- What an uninitialised local of getppages holds, and what a read of the
coremap outside its bounds finds there. -/
structure Uninit where
  startPageFrameInd : Int
  endPageFrameInd : Int
  outside : Int → Nat

/-- The search loop of getppages from index `i` on. The second component is
the pair (startPageFrameInd, endPageFrameInd) when the loop assigned it, which
it does only when it comes round once more after the count has reached 0. -/
def scan (npages : Nat) : List CoremapEntry → Nat → Int → Int × Option (Int × Int)
  | [], _, consecutiveCount => (consecutiveCount,none)
  | e :: es, i, consecutiveCount =>
    if consecutiveCount = 0 then (consecutiveCount,some ((i : Int) - npages,(i : Int) - 1))
    else if e.allocated = false then scan npages es (i+1) (consecutiveCount-1)
    else scan npages es (i+1) (toInt32 npages)

/-- The loop `for (i = start; i <= stop; i++) coremap[i].allocated = 1`. Stores outside
the table hit memory that is not part of it. -/
def markRange (start stop : Int) (cm : List CoremapEntry) : List CoremapEntry :=
  cm.mapIdx fun i e => if start ≤ i ∧ (i : Int) ≤ stop then { e with allocated := true } else e

def paddrBaseAt (u : Uninit) (cm : List CoremapEntry) (i : Int) : Nat :=
  if i < 0 then u.outside i else
  match cm[i.toNat]? with
  | some e => e.paddrBase
  | none => u.outside i

def getppages (npages : Nat) (u : Uninit) (f : Frames) : Nat × Frames :=
  if f.beforeVM then ramStealmem npages f
  else
    let (consecutiveCount,assigned) := scan npages f.coremap 0 (toInt32 npages)
    let (start,stop) := assigned.getD (u.startPageFrameInd,u.endPageFrameInd)
    let cm := if consecutiveCount ≠ 0 then f.coremap else markRange start stop f.coremap
    (paddrBaseAt u cm start,{ f with coremap := cm })

def paddrToKvaddr (paddr : Nat) : Nat := (paddr + 0x80000000) % 2^32

def allocKpages (npages : Int) (u : Uninit) (f : Frames) : Nat × Frames :=
  let (pa,f) := getppages (toU32 npages) u f
  if pa = 0 then (0,f) else (paddrToKvaddr pa,f)

def clearCoremap (f : Frames) : Frames :=
  { f with coremap := f.coremap.map fun e => { e with allocated := false } }

/-- free_kpages does not look at the address it is given. -/
def freeKpages (_addr : Nat) (f : Frames) : Frames := clearCoremap f

def freeCoremap (f : Frames) : Frames := clearCoremap f

def FreeRun (cm : List CoremapEntry) (n k : Nat) : Prop :=
  k + n ≤ cm.length ∧ ∀ j, j < n → ∃ e, cm[k+j]? = some e ∧ e.allocated = false

/-- Some run of `n` free frames is followed by at least one further frame. -/
def Fits (cm : List CoremapEntry) (n : Nat) : Prop := ∃ k, FreeRun cm n k ∧ k + n < cm.length

instance (cm : List CoremapEntry) (i : Nat) :
    Decidable (∃ e, cm[i]? = some e ∧ e.allocated = false) :=
  decidable_of_iff ((cm[i]?.any fun e => !e.allocated) = true) (by cases cm[i]? <;> simp)

instance (cm : List CoremapEntry) (n k : Nat) : Decidable (FreeRun cm n k) :=
  inferInstanceAs (Decidable (_ ∧ _))

/-- What the loop knows on reaching index `i` with `c` frames still to find:
the last `n - c` frames were free, and no earlier position starts a run. -/
structure Scanned (cm : List CoremapEntry) (n i c : Nat) : Prop where
  le : c ≤ n
  back : n ≤ i + c
  free : ∀ j, i + c ≤ j + n → j < i → ∃ e, cm[j]? = some e ∧ e.allocated = false
  first : ∀ k, k + n < i + c → ¬ FreeRun cm n k

theorem Scanned.start (cm : List CoremapEntry) (n : Nat) : Scanned cm n 0 n where
  le := Nat.le_refl n
  back := by omega
  free := by omega
  first := by omega

variable {cm : List CoremapEntry} {n i c k low high : Nat} {e : CoremapEntry} {f : Frames}

theorem Scanned.take (h : Scanned cm n i (c+1)) (he : cm[i]? = some e) (hf : e.allocated = false) :
    Scanned cm n (i+1) c where
  le := by have := h.le; omega
  back := by have := h.back; omega
  free := by
    intro j hj hi
    by_cases hji : j = i
    · subst j
      exact ⟨e,he,hf⟩
    · exact h.free j (by omega) (by omega)
  first := fun k hk => h.first k (by omega)

/-- Passing an allocated frame: every run not yet excluded would contain it. -/
theorem Scanned.restart (h : Scanned cm n i (c+1))
    (he : cm[i]? = some e) (hf : e.allocated = true) : Scanned cm n (i+1) n where
  le := Nat.le_refl n
  back := by omega
  free := by omega
  first := by
    intro k hk hrun
    by_cases hki : k + n < i + (c+1)
    · exact h.first k hki hrun
    · have hle := h.le
      obtain ⟨d,hd,hdf⟩ := hrun.2 (i-k) (by omega)
      have hi : k + (i-k) = i := by omega
      rw [hi,he] at hd
      cases hd
      simp [hf] at hdf

theorem Scanned.found (h : Scanned cm n i c) (hc : c = 0) : ∃ k, FreeRun cm n k := by
  have hback := h.back
  cases n with
  | zero => exact ⟨0,by omega,by omega⟩
  | succ n =>
    obtain ⟨e,he,-⟩ := h.free (i-1) (by omega) (by omega)
    have hlt := (List.getElem?_eq_some_iff.mp he).1
    exact ⟨i-(n+1),by omega,fun j hj => h.free (i-(n+1)+j) (by omega) (by omega)⟩

theorem scan_of_scanned (hn : n < 2^31)
    (es : List CoremapEntry) (hes : cm.drop i = es) (h : Scanned cm n i c) :
    (∃ k, FreeRun cm n k ∧ k + n < cm.length ∧ (∀ m, m < k → ¬ FreeRun cm n m) ∧
      scan n es i c = (0,some ((k : Int),(k : Int) + n - 1))) ∨
    (¬ Fits cm n ∧ (scan n es i c).2 = none ∧
      ((scan n es i c).1 = 0 ↔ ∃ k, FreeRun cm n k)) := by
  induction es generalizing i c with
  | nil =>
    right
    have hlen : cm.length ≤ i := List.drop_eq_nil_iff.mp hes
    refine ⟨?_,rfl,fun hc => h.found (by simpa [scan] using hc),fun ⟨k,hk⟩ => ?_⟩
    · rintro ⟨k,hk,hkl⟩
      exact h.first k (by omega) hk
    · by_contra hc
      have hc' : c ≠ 0 := by simpa [scan] using hc
      have hle := hk.1
      exact h.first k (by omega) hk
  | cons e es ih =>
    have he : cm[i]? = some e := by
      rw [← List.head?_drop,hes]
      rfl
    have hi : i < cm.length := (List.getElem?_eq_some_iff.mp he).1
    have htail : cm.drop (i+1) = es := by
      rw [← List.tail_drop,hes]
      rfl
    cases c with
    | zero =>
      left
      have hb := h.back
      refine ⟨i-n,⟨by omega,fun j hj => ?_⟩,by omega,fun m hm => h.first m (by omega),?_⟩
      · exact h.free (i-n+j) (by omega) (by omega)
      · have hk : ((i-n : Nat) : Int) = (i : Int) - n := by omega
        simp only [scan,Nat.cast_zero,if_true,hk]
        congr 2
        congr 1
        omega
    | succ c =>
      have hc : ((c+1 : Nat) : Int) ≠ 0 := by omega
      cases hf : e.allocated with
      | false =>
        have hs : scan n (e :: es) i ((c+1 : Nat) : Int) = scan n es (i+1) c := by
          simp only [scan,hc,hf,if_true,if_false]
          congr 1
          omega
        rw [hs]
        exact ih htail (h.take he hf)
      | true =>
        have hs : scan n (e :: es) i ((c+1 : Nat) : Int) = scan n es (i+1) n := by
          simp [scan,hf,toInt32_of_lt hn]
          omega
        rw [hs]
        exact ih htail (h.restart he hf)

/-- The search loop assigns its two indices exactly when some run fits in front
of a further frame, and then they delimit the lowest run. -/
theorem scan_spec (hn : n < 2^31) (cm : List CoremapEntry) :
    (∃ k, FreeRun cm n k ∧ k + n < cm.length ∧ (∀ m, m < k → ¬ FreeRun cm n m) ∧
      scan n cm 0 (toInt32 n) = (0,some ((k : Int),(k : Int) + n - 1))) ∨
    (¬ Fits cm n ∧ (scan n cm 0 (toInt32 n)).2 = none ∧
      ((scan n cm 0 (toInt32 n)).1 = 0 ↔ ∃ k, FreeRun cm n k)) := by
  rw [toInt32_of_lt hn]
  exact scan_of_scanned hn cm rfl (Scanned.start cm n)

/-- The table describes consecutive page frames of the 32-bit address space,
the first of which is not page 0. -/
structure Layout (f : Frames) : Prop where
  booted : f.beforeVM = false
  pos : 0 < f.pageFrameStart
  aligned : f.pageFrameStart % pageSize = 0
  below : f.pageFrameStart + f.coremap.length * pageSize < 2^32
  base : ∀ i e, f.coremap[i]? = some e → e.paddrBase = f.pageFrameStart + i * pageSize

def Marked (f : Frames) (pa : Nat) : Prop :=
  ∃ e ∈ f.coremap, e.paddrBase = pa ∧ e.allocated = true

theorem Layout.marked_index (h : Layout f) (i : Nat) :
    Marked f (f.pageFrameStart + i * pageSize) ↔
      ∃ e, f.coremap[i]? = some e ∧ e.allocated = true := by
  constructor
  · rintro ⟨e,he,hb,ha⟩
    obtain ⟨j,hj⟩ := List.mem_iff_getElem?.mp he
    have hbase := h.base j e hj
    have hij : j = i := by
      simp only [pageSize] at hb hbase
      omega
    exact ⟨e,hij ▸ hj,ha⟩
  · rintro ⟨e,he,ha⟩
    exact ⟨e,List.mem_of_getElem? he,h.base i e he,ha⟩

theorem Layout.marked_cases (h : Layout f) {pa : Nat} (hm : Marked f pa) :
    ∃ i, pa = f.pageFrameStart + i * pageSize := by
  obtain ⟨e,he,hb,_⟩ := hm
  obtain ⟨i,hi⟩ := List.mem_iff_getElem?.mp he
  exact ⟨i,by rw [← hb,h.base i e hi]⟩

theorem Layout.free_not_marked (h : Layout f) (hr : FreeRun f.coremap n k) {j : Nat} (hj : j < n) :
    ¬ Marked f (f.pageFrameStart + k * pageSize + j * pageSize) := by
  rw [Nat.add_assoc,← Nat.add_mul,h.marked_index]
  rintro ⟨e,he,ha⟩
  obtain ⟨d,hd,hf⟩ := hr.2 j hj
  rw [he] at hd
  cases hd
  simp [ha] at hf

theorem getElem?_markRange (start stop : Int) (cm : List CoremapEntry) (i : Nat) :
    (markRange start stop cm)[i]? = cm[i]?.map fun e =>
      if start ≤ i ∧ (i : Int) ≤ stop then { e with allocated := true } else e := by
  simp [markRange]

theorem Layout.markRange (h : Layout f) (start stop : Int) :
    Layout { f with coremap := markRange start stop f.coremap } where
  booted := h.booted
  pos := h.pos
  aligned := h.aligned
  below := by simpa [Vm.markRange] using h.below
  base := by
    intro i e he
    rw [getElem?_markRange] at he
    obtain ⟨d,hd,rfl⟩ := Option.map_eq_some_iff.mp he
    rw [← h.base i d hd]
    split <;> rfl

theorem Layout.marked_markRange (h : Layout f) (hk : k + n ≤ f.coremap.length) (pa : Nat) :
    Marked { f with coremap := Vm.markRange k ((k : Int) + n - 1) f.coremap } pa ↔
      Marked f pa ∨ ∃ j, j < n ∧ pa = f.pageFrameStart + k * pageSize + j * pageSize := by
  have h' := h.markRange (k : Int) ((k : Int) + n - 1)
  constructor
  · intro hm
    obtain ⟨i,rfl⟩ := h'.marked_cases hm
    obtain ⟨e,he,ha⟩ := (h'.marked_index i).mp hm
    rw [getElem?_markRange] at he
    obtain ⟨d,hd,rfl⟩ := Option.map_eq_some_iff.mp he
    by_cases hin : (k : Int) ≤ i ∧ (i : Int) ≤ (k : Int) + n - 1
    · right
      refine ⟨i-k,by omega,?_⟩
      have hi : k + (i-k) = i := by omega
      rw [Nat.add_assoc,← Nat.add_mul,hi]
    · left
      rw [if_neg hin] at ha
      exact (h.marked_index i).mpr ⟨d,hd,ha⟩
  · rintro (hm | ⟨j,hj,rfl⟩)
    · obtain ⟨i,rfl⟩ := h.marked_cases hm
      obtain ⟨e,he,ha⟩ := (h.marked_index i).mp hm
      refine (h'.marked_index i).mpr ⟨_,by rw [getElem?_markRange,he]; rfl,?_⟩
      split
      · rfl
      · exact ha
    · rw [Nat.add_assoc,← Nat.add_mul]
      have hlt : k + j < f.coremap.length := by omega
      refine (h'.marked_index (k+j)).mpr ⟨_,by
        rw [getElem?_markRange,List.getElem?_eq_getElem hlt]; rfl,?_⟩
      have hin : (k : Int) ≤ ((k+j : Nat) : Int) ∧ ((k+j : Nat) : Int) ≤ (k : Int) + n - 1 := by
        omega
      simp only [if_pos hin]

/-- What a call that finds room hands out: `n` frames from `base` on, all of
them free before and allocated after, and no other mark changed. -/
structure HandsOut (f : Frames) (n base : Nat) (f' : Frames) : Prop where
  layout : Layout f'
  start : f'.pageFrameStart = f.pageFrameStart
  length : f'.coremap.length = f.coremap.length
  nonzero : base ≠ 0
  aligned : base % pageSize = 0
  below : base + n * pageSize < 2^32
  fresh : ∀ j, j < n → ¬ Marked f (base + j * pageSize)
  marked : ∀ pa, Marked f' pa ↔ Marked f pa ∨ ∃ j, j < n ∧ pa = base + j * pageSize

theorem Layout.fits_lt (h : Layout f) (hfit : Fits f.coremap n) : n < 2^20 := by
  obtain ⟨k,_,hk⟩ := hfit
  have hb := h.below
  simp only [pageSize] at hb
  omega

theorem paddrBaseAt_markRange (u : Uninit) (start stop : Int) (cm : List CoremapEntry) (i : Int) :
    paddrBaseAt u (markRange start stop cm) i = paddrBaseAt u cm i := by
  rw [paddrBaseAt,paddrBaseAt,getElem?_markRange]
  cases cm[i.toNat]? with
  | none => rfl
  | some e =>
    rw [Option.map_some]
    dsimp only
    split
    · rfl
    · split <;> rfl

theorem paddrBaseAt_eq (u : Uninit) (he : cm[k]? = some e) : paddrBaseAt u cm k = e.paddrBase := by
  have hneg : ¬ ((k : Int) < 0) := by omega
  simp only [paddrBaseAt,if_neg hneg,Int.toNat_natCast,he]

theorem getppages_lowest (hboot : f.beforeVM = false) (hn : n < 2^31)
    (hfit : Fits f.coremap n) (u : Uninit) :
    ∃ k e, FreeRun f.coremap n k ∧ k + n < f.coremap.length ∧
      (∀ m, m < k → ¬ FreeRun f.coremap n m) ∧ f.coremap[k]? = some e ∧
      getppages n u f = (e.paddrBase,
        { f with coremap := markRange k ((k : Int) + n - 1) f.coremap }) := by
  obtain ⟨k,hrun,hk,hfirst,hscan⟩ | ⟨hno,_⟩ := scan_spec hn f.coremap
  · have hlt : k < f.coremap.length := by omega
    have hget := List.getElem?_eq_getElem hlt
    refine ⟨k,f.coremap[k],hrun,hk,hfirst,hget,?_⟩
    simp [getppages,hboot,hscan,paddrBaseAt_markRange,paddrBaseAt_eq u hget]
  · exact absurd hfit hno

theorem getppages_fits (h : Layout f) (hfit : Fits f.coremap n) (u : Uninit) :
    HandsOut f n (getppages n u f).1 (getppages n u f).2 := by
  have hn : n < 2^31 := Nat.lt_trans (h.fits_lt hfit) (by decide)
  obtain ⟨k,e,hrun,hk,-,hget,heq⟩ := getppages_lowest h.booted hn hfit u
  have hp := h.pos
  have ha := h.aligned
  have hb := h.below
  simp only [pageSize] at ha hb
  rw [heq,h.base k e hget]
  exact {
    layout := h.markRange (k : Int) ((k : Int) + n - 1)
    start := rfl
    length := by simp [markRange]
    nonzero := by simp only; omega
    aligned := by simp only [pageSize]; omega
    below := by simp only [pageSize]; omega
    fresh := fun j hj => h.free_not_marked hrun hj
    marked := h.marked_markRange hrun.1 }

theorem Layout.clearCoremap (h : Layout f) : Layout (clearCoremap f) where
  booted := h.booted
  pos := h.pos
  aligned := h.aligned
  below := by simpa [Vm.clearCoremap] using h.below
  base := by
    intro i e he
    simp only [Vm.clearCoremap,List.getElem?_map] at he
    obtain ⟨d,hd,rfl⟩ := Option.map_eq_some_iff.mp he
    exact h.base i d hd

section

variable (hle : low ≤ high) (hmax : high ≤ 508 * 2^20)

include hle hmax

theorem coremapSize_eq :
    coremapSize low high = ((high-low)/4096*8 : Nat) := by
  have hd : toU32 ((high : Int) - low) = high-low := by
    rw [toU32_of_nonneg (by omega) (by omega)]
    omega
  have hr : roundDown (high-low) pageSize = (high-low)/4096*4096 := by
    simp only [roundDown,pageSize]
    omega
  have hq : ((((high-low)/4096*4096 : Nat) : Int)).tdiv ((pageSize : Nat) : Int) =
      ((high-low)/4096 : Nat) := by
    rw [← Int.ofNat_tdiv]
    simp [pageSize]
  have hs : toU32 ((((high-low)/4096 : Nat) : Int) * (sizeofCoremapEntry : Nat)) =
      (high-low)/4096*8 := by
    simp only [sizeofCoremapEntry]
    rw [toU32_of_nonneg (by omega) (by omega)]
    omega
  have hi : toInt32 ((high-low)/4096*4096) = ((high-low)/4096*4096 : Nat) :=
    toInt32_of_lt (by omega)
  have hj : toInt32 ((high-low)/4096*8) = ((high-low)/4096*8 : Nat) :=
    toInt32_of_lt (by omega)
  simp only [coremapSize]
  rw [hd,hr,hi,hq,hs,hj]

theorem pageFrameStartPa_eq :
    pageFrameStartPa low high = ((low + (high-low)/4096*8)/4096+1)*4096 := by
  unfold pageFrameStartPa
  rw [coremapSize_eq hle hmax,toU32_of_nonneg (by omega) (by omega)]
  simp only [roundUp,pageSize]
  omega

theorem totalPageFrameNum_eq :
    totalPageFrameNum low high = ((high : Int) - pageFrameStartPa low high) / 4096 := by
  have hs := pageFrameStartPa_eq hle hmax
  unfold totalPageFrameNum
  generalize pageFrameStartPa low high = start at hs
  by_cases hlt : start ≤ high
  · have hd : toU32 ((high : Int) - start) = high-start := by
      rw [toU32_of_nonneg (by omega) (by omega)]
      omega
    rw [hd,toInt32_of_lt (by simp only [roundDown]; omega),← Int.ofNat_tdiv]
    simp only [roundDown,pageSize]
    omega
  · have hd : toU32 ((high : Int) - start) = 2^32 - (start-high) := by
      rw [toU32_of_neg (by omega) (by omega)]
      omega
    obtain ⟨c,hc⟩ : ∃ c : Nat, roundDown (2^32 - (start-high)) pageSize = 2^32 - c * 4096 ∧
        c = (start - high + 4095) / 4096 := by
      refine ⟨_,?_,rfl⟩
      simp only [roundDown,pageSize]
      omega
    have hneg : toInt32 (2^32 - c * 4096) = -((c * 4096 : Nat) : Int) := by
      rw [toInt32_of_ge (by omega) (by omega)]
      omega
    rw [hd,hc.1,hneg]
    simp only [pageSize]
    rw [Int.neg_tdiv,← Int.ofNat_tdiv,Nat.mul_div_cancel c (by decide)]
    omega

theorem totalPageFrameNum_le :
    pageFrameStartPa low high + (totalPageFrameNum low high).toNat * 4096 ≤
      high + 2 * 2^20 := by
  have hs := pageFrameStartPa_eq hle hmax
  rw [totalPageFrameNum_eq hle hmax]
  omega

end

/-- vm_bootstrap on any machine ram_bootstrap accepts: at most 508 megabytes,
first free address not above the last one. -/
theorem vmBootstrap_layout (hle : f.firstpaddr ≤ f.lastpaddr)
    (hmax : f.lastpaddr ≤ 508 * 2^20) : Layout (vmBootstrap f) where
  booted := rfl
  pos := by
    simp only [vmBootstrap,ramGetsize,pageFrameStartPa_eq hle hmax]
    omega
  aligned := by
    simp only [vmBootstrap,ramGetsize,pageFrameStartPa_eq hle hmax,pageSize]
    omega
  below := by
    have htop := totalPageFrameNum_le hle hmax
    simp only [vmBootstrap,ramGetsize,freshCoremap,List.length_map,List.length_range,pageSize]
    omega
  base := by
    intro i e he
    have htop := totalPageFrameNum_le hle hmax
    simp only [vmBootstrap,ramGetsize,freshCoremap,List.getElem?_map] at he ⊢
    obtain ⟨j,hj,rfl⟩ := Option.map_eq_some_iff.mp he
    obtain ⟨hi,rfl⟩ := List.getElem?_eq_some_iff.mp hj
    simp only [List.length_range,List.getElem_range] at hi ⊢
    simp only [pageSize]
    omega

/-- What vm_bootstrap has to make of the memory from `low` to `high`, with the coremap at `low`. -/
structure Arranged (low high : Nat) (num : Int) (cm : List CoremapEntry) : Prop where
  entries : cm.length = num.toNat
  aligned : ∀ e ∈ cm, e.paddrBase % pageSize = 0
  inside : ∀ e ∈ cm, low ≤ e.paddrBase ∧ e.paddrBase + pageSize ≤ high
  behindTable : ∀ e ∈ cm, low + num * sizeofCoremapEntry ≤ e.paddrBase
  apart : ∀ (i j : Nat) (d e : CoremapEntry), cm[i]? = some d → cm[j]? = some e → i ≠ j →
    d.paddrBase + pageSize ≤ e.paddrBase ∨ e.paddrBase + pageSize ≤ d.paddrBase
  waste : (high - low - coremapSize low high) / pageSize - 1 ≤ num
  tooSmall : num ≤ 0 ↔ high - low < pageSize + sizeofCoremapEntry

/-- vm_bootstrap with memory that begins and ends with a page. -/
theorem coremap_arranged (hlow : f.firstpaddr % pageSize = 0) (hhigh : f.lastpaddr % pageSize = 0)
    (hle : f.firstpaddr ≤ f.lastpaddr) (hmax : f.lastpaddr ≤ 508 * 2^20) :
    Arranged f.firstpaddr f.lastpaddr (totalPageFrameNum f.firstpaddr f.lastpaddr)
      (vmBootstrap f).coremap := by
  have hlayout := vmBootstrap_layout hle hmax
  have hsize := coremapSize_eq hle hmax
  have hstart := pageFrameStartPa_eq hle hmax
  have hnum := totalPageFrameNum_eq hle hmax
  have hlen : (vmBootstrap f).coremap.length =
      (totalPageFrameNum f.firstpaddr f.lastpaddr).toNat := by
    simp [vmBootstrap,ramGetsize,freshCoremap]
  have hbase : ∀ i e, (vmBootstrap f).coremap[i]? = some e →
      e.paddrBase = pageFrameStartPa f.firstpaddr f.lastpaddr + i * 4096 ∧
        i < (totalPageFrameNum f.firstpaddr f.lastpaddr).toNat := fun i e he =>
    ⟨hlayout.base i e he,hlen ▸ (List.getElem?_eq_some_iff.mp he).1⟩
  simp only [pageSize] at hlow hhigh
  generalize pageFrameStartPa f.firstpaddr f.lastpaddr = start at hstart hnum hbase
  generalize totalPageFrameNum f.firstpaddr f.lastpaddr = num at hnum hlen hbase ⊢
  have hmem : ∀ e ∈ (vmBootstrap f).coremap, ∃ i, e.paddrBase = start + i * 4096 ∧ i < num.toNat :=
    fun e he => (List.mem_iff_getElem?.mp he).imp fun i hi => hbase i e hi
  refine ⟨hlen,fun e he => ?_,fun e he => ?_,fun e he => ?_,fun i j d e hd he hij => ?_,?_,?_⟩
  · obtain ⟨i,hi⟩ := hmem e he
    simp only [pageSize]
    omega
  · obtain ⟨i,hi⟩ := hmem e he
    simp only [pageSize]
    omega
  · obtain ⟨i,hi⟩ := hmem e he
    simp only [sizeofCoremapEntry]
    omega
  · have hi := hbase i d hd
    have hj := hbase j e he
    simp only [pageSize]
    omega
  · rw [hsize]
    simp only [pageSize]
    omega
  · simp only [pageSize,sizeofCoremapEntry]
    omega

def freeFrames (f : Frames) : Nat := f.coremap.countP fun e => !e.allocated

theorem fits_of_two_free (h : 2 ≤ freeFrames f) : Fits f.coremap 1 := by
  have hfirst : ∀ cm : List CoremapEntry, 2 ≤ cm.countP (fun e => !e.allocated) →
      ∃ k e, k + 1 < cm.length ∧ cm[k]? = some e ∧ e.allocated = false := by
    intro cm
    induction cm with
    | nil => simp
    | cons e es ih =>
      intro h
      cases he : e.allocated with
      | false =>
        have hes : 0 < es.countP fun e => !e.allocated := by
          rw [List.countP_cons_of_pos (by simp [he])] at h
          omega
        have hlen := Nat.lt_of_lt_of_le hes List.countP_le_length
        exact ⟨0,e,by simpa using hlen,rfl,he⟩
      | true =>
        rw [List.countP_cons_of_neg (by simp [he])] at h
        obtain ⟨k,d,hk,hd,hfree⟩ := ih h
        exact ⟨k+1,d,by simpa using hk,hd,hfree⟩
  obtain ⟨k,e,hk,he,hfree⟩ := hfirst f.coremap h
  refine ⟨k,⟨by omega,fun j hj => ⟨e,?_,hfree⟩⟩,hk⟩
  rwa [Nat.lt_one_iff.mp hj]

theorem markRange_one (he : cm[k]? = some e) :
    markRange k ((k : Int) + (1 : Nat) - 1) cm = cm.set k { e with allocated := true } := by
  apply List.ext_getElem?
  intro i
  rw [getElem?_markRange,List.getElem?_set]
  have hlt := (List.getElem?_eq_some_iff.mp he).1
  have hiff : ((k : Int) ≤ i ∧ (i : Int) ≤ (k : Int) + (1 : Nat) - 1) ↔ k = i := by omega
  simp only [hiff]
  by_cases hki : k = i
  · subst hki
    rw [he]
    simp [hlt]
  · simp [hki]

theorem freeFrames_getppages (hboot : f.beforeVM = false) (h : 2 ≤ freeFrames f)
    (u : Uninit) : (getppages 1 u f).2.beforeVM = false ∧
      freeFrames f ≤ freeFrames (getppages 1 u f).2 + 1 := by
  obtain ⟨k,e,-,-,-,hget,heq⟩ := getppages_lowest hboot (by decide) (fits_of_two_free h) u
  rw [heq,markRange_one hget]
  refine ⟨hboot,?_⟩
  have hlt := (List.getElem?_eq_some_iff.mp hget).1
  simp only [freeFrames,List.countP_set hlt]
  split <;> omega

theorem scan_negative (hn : toInt32 n < 0) (es : List CoremapEntry) (i : Nat) {c : Int}
    (hc : c < 0) : (scan n es i c).1 < 0 ∧ (scan n es i c).2 = none := by
  induction es generalizing i c with
  | nil => exact ⟨hc,rfl⟩
  | cons e es ih =>
    simp only [scan,if_neg (Int.ne_of_lt hc)]
    split
    · exact ih (i+1) (by omega)
    · exact ih (i+1) hn

theorem getppages_no_run (hboot : f.beforeVM = false) (hn : n < 2^32)
    (hno : ∀ k, ¬ FreeRun f.coremap n k) (u : Uninit) :
    getppages n u f = (paddrBaseAt u f.coremap u.startPageFrameInd,f) := by
  have hscan : (scan n f.coremap 0 (toInt32 n)).1 ≠ 0 ∧
      (scan n f.coremap 0 (toInt32 n)).2 = none := by
    by_cases hlt : n < 2^31
    · obtain ⟨k,hrun,-⟩ | ⟨-,hnone,hzero⟩ := scan_spec hlt f.coremap
      · exact absurd hrun (hno k)
      · exact ⟨fun hc => (hzero.mp hc).elim hno,hnone⟩
    · have hneg : toInt32 n < 0 := by
        rw [toInt32_of_ge (Nat.le_of_not_lt hlt) hn]
        omega
      have h := scan_negative hneg f.coremap 0 hneg
      exact ⟨Int.ne_of_lt h.1,h.2⟩
  cases f
  simp_all [getppages]

/-- The only run ends at the last frame: what the two indices that were never assigned lead to is
marked and handed out. -/
theorem getppages_last_run (hboot : f.beforeVM = false) (hn : n < 2^31) (hfit : ¬ Fits f.coremap n)
    (hrun : ∃ k, FreeRun f.coremap n k) (u : Uninit) :
    getppages n u f = (paddrBaseAt u f.coremap u.startPageFrameInd,
      { f with coremap := markRange u.startPageFrameInd u.endPageFrameInd f.coremap }) := by
  obtain ⟨k,hk,hend,-⟩ | ⟨-,hnone,hzero⟩ := scan_spec hn f.coremap
  · exact absurd ⟨k,hk,hend⟩ hfit
  · simp [getppages,hboot,hnone,hzero.mpr hrun,paddrBaseAt_markRange]

/-- The lowest run is handed out and its frames are marked; without a run nothing is. -/
def FirstFit (n : Nat) (f : Frames) (r : Nat × Frames) : Prop :=
  (∀ k, FreeRun f.coremap n k → (∀ m, m < k → ¬ FreeRun f.coremap n m) →
    ∃ e cm, f.coremap[k]? = some e ∧ r = (e.paddrBase,{ f with coremap := cm }) ∧
      ∀ i : Nat, cm[i]? = f.coremap[i]?.map fun e =>
        if k ≤ i ∧ i < k + n then { e with allocated := true } else e) ∧
  ((∀ k, ¬ FreeRun f.coremap n k) → r = (0,f))

/-- The indices that were never assigned delimit the run at the end by chance, as far as its frames
and the other free ones go. -/
def LuckyEnd (n : Nat) (u : Uninit) (cm : List CoremapEntry) : Prop :=
  ∃ k e, FreeRun cm n k ∧ k + n = cm.length ∧ cm[k]? = some e ∧
    paddrBaseAt u cm u.startPageFrameInd = e.paddrBase ∧
    ∀ (i : Nat) d, cm[i]? = some d → d.allocated = false →
      (u.startPageFrameInd ≤ i ∧ (i : Int) ≤ u.endPageFrameInd ↔ k ≤ i)

theorem FirstFit.of_fits (hboot : f.beforeVM = false) (hn : n < 2^31)
    (hfit : Fits f.coremap n) (u : Uninit) : FirstFit n f (getppages n u f) := by
  obtain ⟨k',e,hrun',-,hfirst',hget,heq⟩ := getppages_lowest hboot hn hfit u
  refine ⟨fun k hrun hfirst => ?_,fun hno => (hno k' hrun').elim⟩
  have hk : k' = k := by
    rcases Nat.lt_trichotomy k' k with hlt | heq | hlt
    · exact absurd hrun' (hfirst k' hlt)
    · exact heq
    · exact absurd hrun (hfirst' k hlt)
  subst hk
  refine ⟨e,_,hget,heq,fun i => ?_⟩
  rw [getElem?_markRange]
  have hiff : ((k' : Int) ≤ i ∧ (i : Int) ≤ (k' : Int) + n - 1) ↔ k' ≤ i ∧ i < k' + n := by omega
  simp only [hiff]

theorem firstFit_last_run (hboot : f.beforeVM = false) (hn : n < 2^31)
    (hfit : ¬ Fits f.coremap n) (hrun : ∃ k, FreeRun f.coremap n k) (u : Uninit) :
    FirstFit n f (getppages n u f) ↔ LuckyEnd n u f.coremap := by
  rw [getppages_last_run hboot hn hfit hrun u]
  have hend : ∀ k, FreeRun f.coremap n k → k + n = f.coremap.length := fun k hk => by
    have hle := hk.1
    by_contra hne
    exact hfit ⟨k,hk,by omega⟩
  obtain ⟨k,hk⟩ := hrun
  have hkend := hend k hk
  constructor
  · intro h
    obtain ⟨e,cm,he,heq,hcm⟩ := h.1 k hk fun m hm hrun => by have := hend m hrun; omega
    obtain ⟨hbase,hframes⟩ := Prod.mk.inj heq
    have hcm' : markRange _ _ _ = cm := congrArg Frames.coremap hframes
    refine ⟨k,e,hk,hkend,he,hbase,fun i d hd hfree => ?_⟩
    have hi := (List.getElem?_eq_some_iff.mp hd).1
    have hlast : i < k + n := by omega
    have hmark := hcm i
    rw [← hcm',getElem?_markRange,hd] at hmark
    have hflag := congrArg CoremapEntry.allocated (Option.some.inj hmark)
    rw [← decide_eq_decide,Bool.decide_and]
    simpa [apply_ite CoremapEntry.allocated,hfree,hlast] using hflag
  · rintro ⟨k',e,hk',hend',he,hbase,hmarks⟩
    refine ⟨fun k'' hk'' _ => ?_,fun hno => (hno k hk).elim⟩
    obtain rfl : k'' = k' := by have := hend k'' hk''; omega
    refine ⟨e,_,he,by rw [hbase],fun i => ?_⟩
    rw [getElem?_markRange]
    cases hd : f.coremap[i]? with
    | none => rfl
    | some d =>
      have hi := (List.getElem?_eq_some_iff.mp hd).1
      have hlast : i < k'' + n := by omega
      rw [Option.map_some,Option.map_some]
      cases hflag : d.allocated with
      | false => simp only [hmarks i d hd hflag,hlast,and_true]
      | true =>
        obtain ⟨base,flag⟩ := d
        cases hflag
        simp

def oneFrame : Frames := vmBootstrap ⟨0x10000,0x12000,true,0,[]⟩

def chance (start : Int) : Uninit := ⟨start,3,fun _ => 0xdeadbeef⟩

def smallMemory : Frames := ⟨0x10000,0x50000,true,0,[]⟩

abbrev smallBooted : Frames := vmBootstrap smallMemory

def zeroed : Uninit := ⟨0,0,fun _ => 0⟩

theorem coremap_arranged_small :
    Arranged 0x10000 0x50000 (totalPageFrameNum 0x10000 0x50000) smallBooted.coremap :=
  coremap_arranged (f := smallMemory) (by decide) (by decide) (by decide) (by decide)

end MipsOs.Vm
