import Mathlib.Data.List.Basic
import MipsOs.Runs
import MipsOs.Types

/-! Queues of pointers in a ring buffer, kern/lib/queue.c. One slot of the ring
stays empty. kmalloc is counted, and succeeds. -/

set_option autoImplicit false
namespace MipsOs
open Function

structure PtrQueue (α : Type) where
  size : Nat
  nextread : Nat
  nextwrite : Nat
  data : Nat → α
  read_lt : nextread < size
  write_lt : nextwrite < size

namespace PtrQueue

variable {α : Type}

theorem runqueue_size : 0 < 32 := by decide

def qCreate (size : Nat) (data : Nat → α) (h : 0 < size) : PtrQueue α := ⟨size,0,0,data,h,h⟩

variable (q : PtrQueue α)

theorem size_pos : 0 < q.size := Nat.lt_of_le_of_lt (Nat.zero_le _) q.read_lt

def qEmpty : Bool := q.nextwrite == q.nextread

def put (ptr : α) : PtrQueue α :=
  ⟨q.size,q.nextread,(q.nextwrite + 1) % q.size,update q.data q.nextwrite ptr,q.read_lt,
    Nat.mod_lt _ q.size_pos⟩

def full : Bool := (q.nextwrite + 1) % q.size == q.nextread

/-- The loop that finds the new size in q_grow. It takes fewer rounds than its bound. -/
def nsize : Nat → Nat → Nat → Nat
  | 0, _, m => m
  | n+1, target, m => if m < target then nsize n target (m * 2) else m

def copy (old : PtrQueue α) : Nat → Nat → PtrQueue α → PtrQueue α
  | 0, _, q => q
  | n+1, i, q => if i = old.nextwrite then q
    else copy old n ((i + 1) % old.size) (q.put (old.data i))

theorem le_nsize (n target m : Nat) : m ≤ nsize n target m := by
  induction n generalizing m with
  | zero => exact Nat.le_refl m
  | succ n ih =>
    simp only [nsize]
    split
    · exact Nat.le_trans (by omega) (ih _)
    · exact Nat.le_refl m

theorem target_le_nsize {n target m : Nat} (hm : 0 < m) (h : target ≤ m + n) :
    target ≤ nsize n target m := by
  induction n generalizing m with
  | zero => exact h
  | succ n ih =>
    simp only [nsize]
    split
    · exact ih (by omega) (by omega)
    · omega

def grown (targetsize : Nat) : PtrQueue α :=
  qCreate (nsize targetsize targetsize q.size) q.data
    (Nat.lt_of_lt_of_le q.size_pos (le_nsize _ _ _))

def qGrow (targetsize : Nat) : PtrQueue α × Nat :=
  (q.copy q.size q.nextread (q.grown targetsize),1)

def qPreallocate (size : Nat) : PtrQueue α × Nat :=
  if q.size < size then q.qGrow size else (q,0)

def qAddtail (ptr : α) : PtrQueue α × Nat :=
  if q.full = true then ((q.qGrow (q.size + 1)).1.put ptr,(q.qGrow (q.size + 1)).2)
  else (q.put ptr,0)

def qRemhead : Option (α × PtrQueue α) :=
  if q.qEmpty = true then none
  else some (q.data q.nextread,⟨q.size,(q.nextread + 1) % q.size,q.nextwrite,q.data,
    Nat.mod_lt _ q.size_pos,q.write_lt⟩)

def upto (i : Nat) : Nat :=
  if i ≤ q.nextwrite then q.nextwrite - i else q.nextwrite + q.size - i

def entries (i n : Nat) : List α :=
  (List.range n).map fun k => q.data ((i + k) % q.size)

def toList : List α := q.entries q.nextread (q.upto q.nextread)

theorem wrap {a n : Nat} (h : a < n) : (a + 1) % n = if a + 1 = n then 0 else a + 1 := by
  split
  · next he => rw [he,Nat.mod_self]
  · exact Nat.mod_eq_of_lt (by omega)

theorem add_mod_ring {a k n : Nat} (ha : a < n) (hk : k < n) :
    (a + k) % n = if a + k < n then a + k else a + k - n := by
  split
  · exact Nat.mod_eq_of_lt (by assumption)
  · rw [Nat.mod_eq_sub_mod (by omega),Nat.mod_eq_of_lt (by omega)]

theorem upto_lt {i : Nat} (hi : i < q.size) : q.upto i < q.size := by
  have hw := q.write_lt
  unfold upto
  split <;> omega

theorem length_toList : q.toList.length = q.upto q.nextread := by
  simp [toList,entries]

theorem qEmpty_iff : q.qEmpty = true ↔ q.toList = [] := by
  have hr := q.read_lt
  rw [← List.length_eq_zero_iff,length_toList,qEmpty,beq_iff_eq,upto]
  split <;> omega

theorem full_iff : q.full = true ↔ q.toList.length + 1 = q.size := by
  have hr := q.read_lt
  have hw := q.write_lt
  rw [length_toList,full,beq_iff_eq,wrap hw,upto]
  split <;> split <;> omega

theorem length_lt : q.toList.length < q.size := by
  rw [length_toList]
  exact q.upto_lt q.read_lt

theorem put_toList {q : PtrQueue α} (h : ¬ q.full = true) (ptr : α) :
    (q.put ptr).toList = q.toList ++ [ptr] := by
  have hr := q.read_lt
  have hw := q.write_lt
  have hlt := q.length_lt
  rw [full_iff,length_toList] at h
  rw [length_toList] at hlt
  have hup : (q.put ptr).upto q.nextread = q.upto q.nextread + 1 := by
    simp only [upto,put,wrap hw] at h ⊢
    split_ifs at h ⊢ <;> omega
  have hend : (q.nextread + q.upto q.nextread) % q.size = q.nextwrite := by
    rw [add_mod_ring hr hlt]
    unfold upto
    split_ifs <;> omega
  show (q.put ptr).entries q.nextread ((q.put ptr).upto q.nextread) = _
  rw [hup,entries,List.range_succ,List.map_append]
  congr 1
  · refine List.map_congr_left fun k hk => ?_
    have hk := List.mem_range.mp hk
    refine update_of_ne (fun he => ?_) _ _
    have he : (q.nextread + k) % q.size = q.nextwrite := he
    rw [← hend,add_mod_ring hr (by omega),add_mod_ring hr hlt] at he
    split_ifs at he <;> omega
  · show [update q.data q.nextwrite ptr ((q.nextread + q.upto q.nextread) % q.size)] = [ptr]
    rw [hend,update_self]

theorem entries_succ {i : Nat} (hi : i < q.size) (n : Nat) :
    q.entries i (n + 1) = q.data i :: q.entries ((i + 1) % q.size) n := by
  simp only [entries,List.range_succ_eq_map,List.map_cons,List.map_map,Nat.add_zero,
    Nat.mod_eq_of_lt hi]
  congr 1
  refine List.map_congr_left fun k _ => ?_
  simp only [comp]
  congr 1
  rw [Nat.mod_add_mod]
  congr 1
  omega

theorem upto_next {i : Nat} (hi : i < q.size) (hne : i ≠ q.nextwrite) :
    q.upto i = q.upto ((i + 1) % q.size) + 1 := by
  have hw := q.write_lt
  rw [wrap hi]
  unfold upto
  split_ifs <;> omega

theorem qRemhead_toList {q r : PtrQueue α} {x : α} (h : q.qRemhead = some (x,r)) :
    q.toList = x :: r.toList ∧ r.size = q.size := by
  unfold qRemhead at h
  split at h
  · cases h
  · next hne =>
    cases h
    have hne : q.nextread ≠ q.nextwrite := fun he => hne (by simp [qEmpty,he])
    refine ⟨?_,rfl⟩
    rw [toList,q.upto_next q.read_lt hne,q.entries_succ q.read_lt]
    rfl

theorem qRemhead_isSome {q : PtrQueue α} (h : q.toList ≠ []) : ∃ x r, q.qRemhead = some (x,r) := by
  unfold qRemhead
  rw [if_neg fun he => h (q.qEmpty_iff.mp he)]
  exact ⟨_,_,rfl⟩

theorem put_size (ptr : α) : (q.put ptr).size = q.size := rfl

/-- Whenever the loop adds an entry the new ring is not full, so it is not grown again. -/
theorem copy_room (old : PtrQueue α) {i : Nat} {q : PtrQueue α} (hi : i < old.size)
    (hne : i ≠ old.nextwrite) (hroom : q.toList.length + old.upto i < q.size) :
    ¬ q.full = true ∧ (q.put (old.data i)).toList.length + old.upto ((i + 1) % old.size) <
      (q.put (old.data i)).size := by
  have hup := old.upto_next hi hne
  have hfull : ¬ q.full = true := by
    rw [full_iff]
    omega
  refine ⟨hfull,?_⟩
  rw [put_toList hfull,put_size,List.length_append,List.length_singleton]
  omega

theorem copy_toList (old : PtrQueue α) {n i : Nat} {q : PtrQueue α} (hi : i < old.size)
    (hn : old.upto i < n) (hroom : q.toList.length + old.upto i < q.size) :
    (old.copy n i q).toList = q.toList ++ old.entries i (old.upto i) ∧
      (old.copy n i q).size = q.size := by
  induction n generalizing i q with
  | zero => omega
  | succ n ih =>
    rw [copy]
    by_cases he : i = old.nextwrite
    · rw [if_pos he]
      have hz : old.upto i = 0 := by
        rw [upto,if_pos (Nat.le_of_eq he)]
        omega
      simp [hz,entries]
    · have hup := old.upto_next hi he
      obtain ⟨hfull,hrest⟩ := old.copy_room hi he hroom
      rw [if_neg he]
      obtain ⟨hlist,hsize⟩ := ih (Nat.mod_lt _ old.size_pos) (by omega) hrest
      rw [hlist,hsize,put_toList hfull,hup,old.entries_succ hi]
      simp [put_size]

theorem qGrow_toList (targetsize : Nat) :
    (q.qGrow targetsize).1.toList = q.toList ∧ q.size ≤ (q.qGrow targetsize).1.size ∧
      targetsize ≤ (q.qGrow targetsize).1.size := by
  have hsize : q.size ≤ (q.grown targetsize).size := le_nsize _ _ _
  have htarget : targetsize ≤ (q.grown targetsize).size :=
    target_le_nsize q.size_pos (by omega)
  have hempty : (q.grown targetsize).toList = [] := rfl
  have hlt := q.upto_lt q.read_lt
  obtain ⟨hlist,hs⟩ := q.copy_toList (n := q.size) (q := q.grown targetsize) q.read_lt hlt
    (by rw [hempty]; simp; omega)
  refine ⟨?_,?_,?_⟩
  · rw [qGrow,hlist,hempty,List.nil_append]
    rfl
  · rw [qGrow,hs]
    exact hsize
  · rw [qGrow,hs]
    exact htarget

theorem qPreallocate_toList (size : Nat) :
    (q.qPreallocate size).1.toList = q.toList ∧ q.size ≤ (q.qPreallocate size).1.size ∧
      size ≤ (q.qPreallocate size).1.size := by
  unfold qPreallocate
  split
  · exact q.qGrow_toList size
  · next h => exact ⟨rfl,Nat.le_refl _,Nat.le_of_not_lt h⟩

theorem qAddtail_toList (ptr : α) :
    (q.qAddtail ptr).1.toList = q.toList ++ [ptr] ∧ q.size ≤ (q.qAddtail ptr).1.size := by
  unfold qAddtail
  split
  · obtain ⟨hlist,hle,hsize⟩ := q.qGrow_toList (q.size + 1)
    have hlt := q.length_lt
    refine ⟨?_,hle⟩
    rw [put_toList (by rw [full_iff,hlist]; omega),hlist]
  · next h => exact ⟨put_toList h ptr,Nat.le_refl _⟩

theorem qAddtail_kmallocs (ptr : α) :
    (q.qAddtail ptr).2 = if q.toList.length + 1 = q.size then 1 else 0 := by
  unfold qAddtail
  by_cases h : q.full = true
  · rw [if_pos h,if_pos (q.full_iff.mp h)]
    rfl
  · rw [if_neg h,if_neg fun he => h (q.full_iff.mpr he)]

theorem qAddtail_size {q : PtrQueue α} (h : q.toList.length + 1 ≠ q.size) (ptr : α) :
    (q.qAddtail ptr).1.size = q.size := by
  rw [qAddtail,if_neg fun he => h (q.full_iff.mp he)]
  rfl

/-- q_addtail as the loop of q_grow calls it, where it must not grow the queue again. -/
def addNested (ptr : α) : Option (PtrQueue α) :=
  if q.full = true then none else some (q.put ptr)

def copyNested (old : PtrQueue α) : Nat → Nat → PtrQueue α → Option (PtrQueue α)
  | 0, i, q => if i = old.nextwrite then some q else none
  | n+1, i, q => if i = old.nextwrite then some q
    else (q.addNested (old.data i)).bind (copyNested old n ((i + 1) % old.size))

/-- q_grow with what kmalloc answers: the contents of a new block, or NULL. An int that is doubled
too often fails the assertion of the loop. -/
def growWith (targetsize : Nat) (kmalloc : Option (Nat → α)) :
    Option (PtrQueue α × Option Errno) :=
  if nsize targetsize targetsize q.size < 2^31 then
    match kmalloc with
    | none => some (q,some .ENOMEM)
    | some ndata => (q.copyNested q.size q.nextread (qCreate (nsize targetsize targetsize q.size)
        ndata (Nat.lt_of_lt_of_le q.size_pos (le_nsize _ _ _)))).map fun r => (r,none)
  else none

def preallocateWith (size : Nat) (kmalloc : Option (Nat → α)) :
    Option (PtrQueue α × Option Errno) :=
  if q.size < size then q.growWith size kmalloc else some (q,none)

def addtailWith (ptr : α) (kmalloc : Option (Nat → α)) :
    Option (PtrQueue α × Option Errno) :=
  if q.full = true then
    match q.growWith (q.size + 1) kmalloc with
    | some (r,none) => some (r.put ptr,none)
    | r => r
  else some (q.put ptr,none)

inductive Act (α : Type) where
  | addtail (ptr : α) (kmalloc : Option (Nat → α))
  | remhead
  | preallocate (size : Nat) (kmalloc : Option (Nat → α))

def act : Act α → Option (PtrQueue α × Option Errno × Option α)
  | .addtail ptr kmalloc => (q.addtailWith ptr kmalloc).map fun r => (r.1,r.2,none)
  | .remhead => q.qRemhead.map fun r => (r.2,none,some r.1)
  | .preallocate size kmalloc => (q.preallocateWith size kmalloc).map fun r => (r.1,r.2,none)

def fifo (α : Type) : DataType (List α) (Act α) (Option Errno × Option α) where
  answer
    | l, .remhead, r => r = (none,l.head?)
    | _, .addtail _ k, r | _, .preallocate _ k, r =>
      r = (none,none) ∨ k = none ∧ r = (some .ENOMEM,none)
  next
    | l, .addtail ptr _, (none,_) => l ++ [ptr]
    | l, .remhead, _ => l.tail
    | l, _, _ => l

/-- The queue is not empty when an element is asked for, and stays smaller than 2^29. -/
def Allowed (l : List α) : Act α → Prop
  | .addtail _ _ => q.full = true → nsize (q.size + 1) (q.size + 1) q.size < 2^29
  | .remhead => 0 < l.length
  | .preallocate size _ => q.size < size → nsize size size q.size < 2^29

instance decidableAllowed (l : List α) : ∀ a, Decidable (Allowed q l a)
  | .addtail _ _ => inferInstanceAs
      (Decidable (q.full = true → nsize (q.size + 1) (q.size + 1) q.size < 2^29))
  | .remhead => inferInstanceAs (Decidable (0 < l.length))
  | .preallocate size _ => inferInstanceAs
      (Decidable (q.size < size → nsize size size q.size < 2^29))

structure Shows (l : List α) : Prop where
  contents : q.toList = l
  empty : q.qEmpty = true ↔ l = []

theorem copyNested_eq (old : PtrQueue α) {n i : Nat} {q : PtrQueue α} (hi : i < old.size)
    (hn : old.upto i ≤ n) (hroom : q.toList.length + old.upto i < q.size) :
    old.copyNested n i q = some (old.copy n i q) := by
  induction n generalizing i q with
  | zero =>
    have he : i = old.nextwrite := by
      by_contra hne
      have := old.upto_next hi hne
      omega
    exact if_pos he
  | succ n ih =>
    rw [copyNested,copy]
    by_cases he : i = old.nextwrite
    · rw [if_pos he,if_pos he]
    · have hup := old.upto_next hi he
      obtain ⟨hfull,hrest⟩ := old.copy_room hi he hroom
      rw [if_neg he,if_neg he,addNested,if_neg hfull]
      exact ih (Nat.mod_lt _ old.size_pos) (by omega) hrest

/-- q_grow keeps the contents, and does not grow the queue while it does so. -/
theorem growWith_spec {target : Nat} (h : nsize target target q.size < 2^31)
    (ndata : Nat → α) : ∃ r, q.growWith target (some ndata) = some (r,none) ∧
      r.toList = q.toList ∧ target ≤ r.size := by
  have hle := le_nsize target target q.size
  have hlt := q.upto_lt q.read_lt
  have hnew : ∀ new : PtrQueue α, new.size = nsize target target q.size → new.toList = [] →
      q.copyNested q.size q.nextread new = some (q.copy q.size q.nextread new) ∧
      (q.copy q.size q.nextread new).toList = q.toList ∧
      target ≤ (q.copy q.size q.nextread new).size := by
    intro new hsize hempty
    have hroom : new.toList.length + q.upto q.nextread < new.size := by
      rw [hempty,hsize,List.length_nil]
      omega
    obtain ⟨hlist,hs⟩ := q.copy_toList q.read_lt hlt hroom
    refine ⟨q.copyNested_eq q.read_lt (Nat.le_of_lt hlt) hroom,?_,?_⟩
    · rw [hlist,hempty,List.nil_append]
      rfl
    · rw [hs,hsize]
      exact target_le_nsize q.size_pos (by omega)
  obtain ⟨hcopy,hlist,hsize⟩ := hnew (qCreate _ ndata _) rfl rfl
  exact ⟨_,by rw [growWith,if_pos h,hcopy]; rfl,hlist,hsize⟩

theorem growWith_none {q : PtrQueue α} {m : Nat} (h : nsize m m q.size < 2^31) :
    q.growWith m none = some (q,some .ENOMEM) := by
  rw [growWith,if_pos h]

theorem act_fifo {q : PtrQueue α} {a : Act α} (h : Allowed q q.toList a) :
    ∃ r x, q.act a = some (r,x) ∧ (fifo α).answer q.toList a x ∧
      r.toList = (fifo α).next q.toList a x := by
  cases a with
  | addtail ptr k =>
    by_cases hfull : q.full = true
    · have hsmall : nsize (q.size + 1) (q.size + 1) q.size < 2^31 :=
        Nat.lt_trans (h hfull) (by decide)
      cases k with
      | none =>
        refine ⟨q,(some .ENOMEM,none),?_,.inr ⟨rfl,rfl⟩,rfl⟩
        simp [act,addtailWith,hfull,growWith_none hsmall]
      | some ndata =>
        obtain ⟨r,hr,hlist,hsize⟩ := q.growWith_spec hsmall ndata
        have hlt := q.length_lt
        refine ⟨r.put ptr,(none,none),by simp [act,addtailWith,hfull,hr],.inl rfl,?_⟩
        rw [put_toList (by rw [full_iff,hlist]; omega),hlist]
        rfl
    · exact ⟨q.put ptr,(none,none),by simp [act,addtailWith,hfull],.inl rfl,put_toList hfull ptr⟩
  | remhead =>
    obtain ⟨x,r,hr⟩ := qRemhead_isSome (List.ne_nil_of_length_pos h)
    have hlist := (qRemhead_toList hr).1
    refine ⟨r,(none,some x),by simp [act,hr],?_,?_⟩
    · rw [hlist]
      rfl
    · rw [hlist]
      rfl
  | preallocate size k =>
    by_cases hgrow : q.size < size
    · have hsmall : nsize size size q.size < 2^31 := Nat.lt_trans (h hgrow) (by decide)
      cases k with
      | none =>
        refine ⟨q,(some .ENOMEM,none),?_,.inr ⟨rfl,rfl⟩,rfl⟩
        simp [act,preallocateWith,hgrow,growWith_none hsmall]
      | some ndata =>
        obtain ⟨r,hr,hlist,_⟩ := q.growWith_spec hsmall ndata
        exact ⟨r,(none,none),by simp [act,preallocateWith,hgrow,hr],.inl rfl,hlist⟩
    · exact ⟨q,(none,none),by simp [act,preallocateWith,hgrow],.inl rfl,rfl⟩

/-- The queue is a list whatever kmalloc answers, and a call that returns ENOMEM leaves it alone. -/
theorem queue_refines_fifo {size : Nat} (hsize : 0 < size) (data : Nat → α) (acts : List (Act α))
    (h : (fifo α).Legal act Allowed (qCreate size data hsize) [] acts) :
    (fifo α).Agrees act Shows (qCreate size data hsize) [] acts := by
  have hview : ∀ (q : PtrQueue α) (l : List α), q.toList = l → Shows q l := by
    rintro q l rfl
    exact ⟨rfl,q.qEmpty_iff⟩
  refine DataType.agrees hview (fun q l a hR ha => ?_) rfl h
  subst hR
  exact act_fifo ha

/-- A ring of two entries, which wraps round and is grown. -/
theorem queue_refines_fifo_two : (fifo Nat).Agrees act Shows
    (qCreate 2 (fun _ => 0) (by decide)) []
    [.addtail 7 none,.addtail 8 none,.remhead,.addtail 9 none,.addtail 5 (some fun _ => 1),
      .preallocate 5 (some fun _ => 2),.remhead,.remhead] :=
  queue_refines_fifo _ _ _ (by decide)

end PtrQueue

end MipsOs
