import Mathlib.Data.List.Basic
import MipsOs.Runs
import MipsOs.Types

/-! Arrays of pointers, kern/lib/array.c. A function that may allocate also hands
back how often it has called kmalloc, which succeeds here. -/

set_option autoImplicit false
namespace MipsOs
open Function

/-- Entries from `num` on are never read. -/
structure PtrArray (α : Type) where
  num : Nat
  max : Nat
  v : Nat → α
  num_le : num ≤ max

namespace PtrArray

variable {α : Type}

def arrayCreate (v : Nat → α) : PtrArray α := ⟨0,0,v,Nat.le_refl 0⟩

variable (a : PtrArray α)

def arrayGetguy (index : Nat) : Option α :=
  if index < a.num then some (a.v index) else none

/-- The loop of array_preallocate. It takes fewer rounds than its bound. -/
def newmax : Nat → Nat → Nat → Nat
  | 0, _, m => m
  | n+1, nguys, m => if m < nguys then newmax n nguys ((m + 1) * 2) else m

theorem le_newmax (n nguys m : Nat) : m ≤ newmax n nguys m := by
  induction n generalizing m with
  | zero => exact Nat.le_refl m
  | succ n ih =>
    simp only [newmax]
    split
    · exact Nat.le_trans (by omega) (ih _)
    · exact Nat.le_refl m

theorem nguys_le_newmax {n nguys m : Nat} (h : nguys ≤ m + n) : nguys ≤ newmax n nguys m := by
  induction n generalizing m with
  | zero => exact h
  | succ n ih =>
    simp only [newmax]
    split
    · exact ih (by omega)
    · omega

def arrayPreallocate (nguys : Nat) : PtrArray α × Nat :=
  (⟨a.num,newmax nguys nguys a.max,a.v,Nat.le_trans a.num_le (le_newmax _ _ _)⟩,1)

/-- An array that becomes empty gives its storage back if that is large. -/
def arraySetsize (nguys : Nat) : PtrArray α × Nat :=
  if h : a.max < nguys then
    (⟨nguys,newmax nguys nguys a.max,a.v,nguys_le_newmax (Nat.le_add_left _ _)⟩,
      (a.arrayPreallocate nguys).2)
  else if nguys = 0 ∧ 16 < a.max then (⟨0,0,a.v,Nat.le_refl 0⟩,0)
  else (⟨nguys,a.max,a.v,Nat.le_of_not_lt h⟩,0)

def arrayAdd (guy : α) : PtrArray α × Nat :=
  let b := a.arraySetsize (a.num + 1)
  (⟨b.1.num,b.1.max,update b.1.v a.num guy,b.1.num_le⟩,b.2)

def arrayRemove (index : Nat) : PtrArray α :=
  ⟨a.num - 1,a.max,fun k => if index ≤ k ∧ k + 1 < a.num then a.v (k + 1) else a.v k,
    Nat.le_trans (Nat.sub_le _ _) a.num_le⟩

def toList : List α := (List.range a.num).map a.v

@[simp] theorem length_toList : a.toList.length = a.num := by
  simp [toList]

theorem getElem?_toList (i : Nat) : a.toList[i]? = a.arrayGetguy i := by
  simp only [toList,arrayGetguy,List.getElem?_map]
  by_cases hi : i < a.num
  · rw [List.getElem?_range hi,if_pos hi]
    rfl
  · rw [List.getElem?_eq_none (by simpa using hi),if_neg hi]
    rfl

@[simp] theorem arrayPreallocate_toList (nguys : Nat) :
    (a.arrayPreallocate nguys).1.toList = a.toList := rfl

theorem le_arrayPreallocate_max (nguys : Nat) :
    nguys ≤ (a.arrayPreallocate nguys).1.max := nguys_le_newmax (Nat.le_add_left _ _)

theorem arraySetsize_num (nguys : Nat) :
    (a.arraySetsize nguys).1.num = nguys := by
  unfold arraySetsize
  split
  · rfl
  · split
    · next h => exact h.1.symm
    · rfl

theorem arraySetsize_v (nguys : Nat) : (a.arraySetsize nguys).1.v = a.v := by
  unfold arraySetsize
  split
  · rfl
  · split <;> rfl

theorem arraySetsize_zero_toList : (a.arraySetsize 0).1.toList = [] := by
  rw [toList,arraySetsize_num]
  rfl

theorem arrayAdd_toList (guy : α) :
    (a.arrayAdd guy).1.toList = a.toList ++ [guy] := by
  have hnum : (a.arrayAdd guy).1.num = a.num + 1 := arraySetsize_num a _
  have hv : (a.arrayAdd guy).1.v = update a.v a.num guy := by
    rw [← arraySetsize_v a (a.num + 1)]
    rfl
  rw [toList,hnum,hv,List.range_succ,List.map_append,toList]
  congr 1
  · refine List.map_congr_left fun k hk => ?_
    have hlt : k < a.num := List.mem_range.mp hk
    exact update_of_ne (by omega) _ _
  · simp

theorem arrayAdd_kmallocs (guy : α) :
    (a.arrayAdd guy).2 = if a.num < a.max then 0 else 1 := by
  have hle := a.num_le
  simp only [arrayAdd,arraySetsize]
  by_cases h : a.num < a.max
  · rw [dif_neg (by omega),if_neg (by omega),if_pos h]
  · rw [dif_pos (by omega),if_neg h]
    rfl

theorem arrayAdd_max {a : PtrArray α} (h : a.num < a.max) (guy : α) :
    (a.arrayAdd guy).1.max = a.max := by
  simp only [arrayAdd,arraySetsize]
  rw [dif_neg (by omega),if_neg (by omega)]

theorem le_arrayAdd_max (guy : α) : a.max ≤ (a.arrayAdd guy).1.max := by
  simp only [arrayAdd,arraySetsize]
  split
  · exact le_newmax _ _ _
  · exact Nat.le_of_eq (by rw [if_neg (by omega)])

theorem arrayRemove_getguy {index : Nat} (h : index < a.num) (k : Nat) :
    (a.arrayRemove index).arrayGetguy k =
      if k < index then a.arrayGetguy k else a.arrayGetguy (k + 1) := by
  show (if k < a.num - 1 then some (if index ≤ k ∧ k + 1 < a.num then a.v (k + 1) else a.v k)
    else none) = _
  simp only [arrayGetguy]
  by_cases hk : k < index
  · have hin : ¬ (index ≤ k ∧ k + 1 < a.num) := by omega
    rw [if_pos hk,if_neg hin,if_pos (by omega),if_pos (by omega)]
  · rw [if_neg hk]
    by_cases hn : k + 1 < a.num
    · have hin : index ≤ k ∧ k + 1 < a.num := by omega
      rw [if_pos hn,if_pos hin,if_pos (by omega)]
    · rw [if_neg hn,if_neg (by omega)]

theorem arrayRemove_toList {index : Nat} (h : index < a.num) :
    (a.arrayRemove index).toList = a.toList.eraseIdx index := by
  refine List.ext_getElem? fun k => ?_
  rw [List.getElem?_eraseIdx,getElem?_toList,getElem?_toList,getElem?_toList,
    arrayRemove_getguy a h]

theorem newmax_le (n nguys m : Nat) : newmax n nguys m ≤ Nat.max m (2 * nguys) := by
  induction n generalizing m with
  | zero => exact Nat.le_max_left _ _
  | succ n ih =>
    simp only [newmax]
    split
    · exact Nat.le_trans (ih _) (Nat.max_le.mpr
        ⟨Nat.le_trans (by omega) (Nat.le_max_right _ _),Nat.le_max_right _ _⟩)
    · exact Nat.le_max_left _ _

end PtrArray

/-- struct array, with the size of the block that v points to, `none` if v is NULL. -/
structure StoredArray (α : Type) where
  num : Nat
  max : Nat
  slots : Option Nat
  v : Nat → α

/-- What kmalloc answers: the contents of a new block, or NULL. -/
abbrev NewBlock (α : Type) : Type := Option (Nat → α)

namespace StoredArray

variable {α : Type}

/-- array_create; there is nothing behind a NULL pointer that is looked at. -/
def arrayCreate (v : Nat → α) : StoredArray α := ⟨0,0,none,v⟩

section

variable (a : StoredArray α)

/-- An access that is not inside the block does not return, and neither does one for which an
assertion fails. -/
def arrayGetguy (index : Nat) : Option α :=
  if a.num ≤ a.max ∧ index < a.num ∧ index < a.slots.getD 0 then some (a.v index) else none

def store (index : Nat) (ptr : α) : Option (StoredArray α) :=
  if index < a.slots.getD 0 then some { a with v := update a.v index ptr } else none

def arrayPreallocate (nguys : Nat) (kmalloc : NewBlock α) :
    Option (StoredArray α × Option Errno) :=
  if a.num ≤ a.max then
    let newmax := PtrArray.newmax nguys nguys a.max
    match kmalloc with
    | none => some (a,some .ENOMEM)
    | some newv => some (⟨a.num,newmax,some (newmax * 4 % 2^32 / 4),
        fun i => if i < a.num then a.v i else newv i⟩,none)
  else none

def arraySetsize (nguys : Nat) (kmalloc : NewBlock α) :
    Option (StoredArray α × Option Errno) :=
  if a.num ≤ a.max then
    if a.max < nguys then
      match a.arrayPreallocate nguys kmalloc with
      | some (b,none) => some ({ b with num := nguys },none)
      | r => r
    else if nguys = 0 ∧ 16 < a.max then
      if a.slots = none then none else some ({ a with slots := none, max := 0, num := 0 },none)
    else some ({ a with num := nguys },none)
  else none

def arraySetguy (index : Nat) (ptr : α) : Option (StoredArray α) :=
  if a.num ≤ a.max ∧ index < a.num then a.store index ptr else none

def arrayAdd (guy : α) (kmalloc : NewBlock α) :
    Option (StoredArray α × Option Errno) :=
  match a.arraySetsize (a.num + 1) kmalloc with
  | some (b,none) => (b.store a.num guy).map fun c => (c,none)
  | r => r

def arrayRemove (index : Nat) : Option (StoredArray α) :=
  if a.num ≤ a.max ∧ index < a.num ∧ a.num ≤ a.slots.getD 0 then
    some { a with
      num := a.num - 1
      v := fun k => if index ≤ k ∧ k + 1 < a.num then a.v (k + 1) else a.v k }
  else none

inductive Act (α : Type) where
  | add (guy : α) (kmalloc : NewBlock α)
  | remove (index : Nat)
  | setguy (index : Nat) (ptr : α)
  | setsize (nguys : Nat) (kmalloc : NewBlock α)
  | preallocate (nguys : Nat) (kmalloc : NewBlock α)

def act : Act α → Option (StoredArray α × Option Errno)
  | .add guy kmalloc => a.arrayAdd guy kmalloc
  | .remove index => (a.arrayRemove index).map fun b => (b,none)
  | .setguy index ptr => (a.arraySetguy index ptr).map fun b => (b,none)
  | .setsize nguys kmalloc => a.arraySetsize nguys kmalloc
  | .preallocate nguys kmalloc => a.arrayPreallocate nguys kmalloc

def Act.kmalloc : Act α → NewBlock α
  | .add _ k | .setsize _ k | .preallocate _ k => k
  | _ => none

def Act.allocates : Act α → Bool
  | .remove _ | .setguy _ _ => false
  | _ => true

/-- Lists; an element that has not been set is `none`. -/
def lists (α : Type) : DataType (List (Option α)) (Act α) (Option Errno) where
  answer _ a r := r = none ∨ a.allocates = true ∧ a.kmalloc = none ∧ r = some .ENOMEM
  next
    | l, _, some _ => l
    | l, .add guy _, none => l ++ [some guy]
    | l, .remove index, none => l.eraseIdx index
    | l, .setguy index ptr, none => l.set index (some ptr)
    | l, .setsize nguys _, none => l.take nguys ++ List.replicate (nguys - l.length) none
    | l, .preallocate _ _, none => l

def Allowed (_ : StoredArray α) (l : List (Option α)) : Act α → Prop
  | .add _ _ => l.length + 1 < 2^29
  | .remove index | .setguy index _ => index < l.length
  | .setsize nguys _ | .preallocate nguys _ => nguys < 2^29

instance decidableAllowed (b : StoredArray α) (l : List (Option α)) :
    ∀ a, Decidable (Allowed b l a)
  | .add _ _ => inferInstanceAs (Decidable (l.length + 1 < 2^29))
  | .remove index | .setguy index _ => inferInstanceAs (Decidable (index < l.length))
  | .setsize nguys _ | .preallocate nguys _ => inferInstanceAs (Decidable (nguys < 2^29))

/-- The array holds the list, in a block of max slots. -/
structure Shows (l : List (Option α)) : Prop where
  num : a.num = l.length
  num_le : a.num ≤ a.max
  slots : a.slots.getD 0 = a.max
  returns : ∀ i < l.length, ∃ x, a.arrayGetguy i = some x
  guys : ∀ i x, l[i]? = some (some x) → a.arrayGetguy i = some x

structure Represents (l : List (Option α)) : Prop where
  num : a.num = l.length
  num_le : a.num ≤ a.max
  slots : a.slots.getD 0 = a.max
  small : a.max < 2^30
  guys : ∀ i x, l[i]? = some (some x) → a.v i = x

end

variable {a : StoredArray α} {l : List (Option α)} {n i : Nat}

section

variable (h : Represents a l)

include h

theorem Represents.shows : Shows a l := by
  have hget : ∀ i < l.length, a.arrayGetguy i = some (a.v i) := fun i hi => by
    have hnum := h.num
    have hle := h.num_le
    rw [arrayGetguy,h.slots,if_pos (by omega)]
  refine ⟨h.num,h.num_le,h.slots,fun i hi => ⟨_,hget i hi⟩,fun i x hx => ?_⟩
  rw [hget i (List.getElem?_eq_some_iff.mp hx).1,h.guys i x hx]

theorem Represents.preallocate (hn : n < 2^29) (newv : Nat → α) :
    ∃ b, a.arrayPreallocate n (some newv) = some (b,none) ∧ Represents b l ∧ n ≤ b.max := by
  have hnum := h.num
  have hle := h.num_le
  have hsmall := h.small
  have hmax : PtrArray.newmax n n a.max < 2^30 :=
    Nat.lt_of_le_of_lt (PtrArray.newmax_le _ _ _) (Nat.max_lt.mpr ⟨hsmall,by omega⟩)
  refine ⟨_,if_pos hle,⟨hnum,?_,?_,hmax,fun i x hx => ?_⟩,
    PtrArray.nguys_le_newmax (Nat.le_add_left _ _)⟩
  · exact Nat.le_trans hle (PtrArray.le_newmax _ _ _)
  · show PtrArray.newmax n n a.max * 4 % 2^32 / 4 = PtrArray.newmax n n a.max
    omega
  · have hi : i < a.num := by
      rw [hnum]
      exact (List.getElem?_eq_some_iff.mp hx).1
    exact (if_pos hi).trans (h.guys i x hx)

theorem Represents.resize (hn : n ≤ a.max) :
    Represents { a with num := n } (l.take n ++ List.replicate (n - l.length) none) := by
  refine ⟨?_,hn,h.slots,h.small,fun i x hx => h.guys i x ?_⟩
  · show n = _
    rw [List.length_append,List.length_take,List.length_replicate]
    omega
  · rw [List.getElem?_append] at hx
    split at hx
    · rw [List.getElem?_take] at hx
      split at hx
      · exact hx
      · cases hx
    · rw [List.getElem?_replicate] at hx
      split at hx
      · cases hx
      · cases hx

theorem Represents.store (hi : i < l.length) (x : α) :
    ∃ b, a.store i x = some b ∧ Represents b (l.set i (some x)) := by
  have hnum := h.num
  have hle := h.num_le
  refine ⟨_,if_pos (by rw [h.slots]; omega),⟨?_,hle,h.slots,h.small,fun j y hy => ?_⟩⟩
  · rw [List.length_set]
    exact hnum
  · rw [List.getElem?_set] at hy
    split at hy
    · next he =>
      subst he
      cases hy
      exact update_self _ _ _
    · next hne => exact (update_of_ne (Ne.symm hne) _ _).trans (h.guys j y hy)

theorem Represents.setsize (hn : n < 2^29) (k : NewBlock α) :
    (∃ b, a.arraySetsize n k = some (b,none) ∧
      Represents b (l.take n ++ List.replicate (n - l.length) none)) ∨
    k = none ∧ a.arraySetsize n k = some (a,some .ENOMEM) := by
  rw [arraySetsize,if_pos h.num_le]
  by_cases hgrow : a.max < n
  · rw [if_pos hgrow]
    cases k with
    | none => exact .inr ⟨rfl,by rw [arrayPreallocate,if_pos h.num_le]⟩
    | some newv =>
      obtain ⟨b,hb,hrep,hmax⟩ := h.preallocate hn newv
      rw [hb]
      exact .inl ⟨_,rfl,hrep.resize hmax⟩
  · rw [if_neg hgrow]
    by_cases hdrop : n = 0 ∧ 16 < a.max
    · have hslots : a.slots ≠ none := by
        intro he
        have hs := h.slots
        rw [he] at hs
        have hz : 0 = a.max := hs
        omega
      rw [if_pos hdrop,if_neg hslots,hdrop.1]
      refine .inl ⟨_,rfl,⟨by simp,Nat.le_refl 0,rfl,Nat.two_pow_pos 30,fun i x hx => ?_⟩⟩
      simp at hx
    · rw [if_neg hdrop]
      exact .inl ⟨_,rfl,h.resize (Nat.le_of_not_lt hgrow)⟩

theorem Represents.remove (hi : i < l.length) :
    ∃ b, a.arrayRemove i = some b ∧ Represents b (l.eraseIdx i) := by
  have hnum := h.num
  have hle := h.num_le
  refine ⟨_,if_pos (by rw [h.slots]; omega),⟨?_,?_,h.slots,h.small,fun j x hx => ?_⟩⟩
  · show a.num - 1 = _
    rw [List.length_eraseIdx,if_pos hi,hnum]
  · show a.num - 1 ≤ a.max
    omega
  · have hj : j < l.length - 1 := by
      have := (List.getElem?_eq_some_iff.mp hx).1
      rwa [List.length_eraseIdx,if_pos hi] at this
    rw [List.getElem?_eraseIdx] at hx
    show (if i ≤ j ∧ j + 1 < a.num then a.v (j + 1) else a.v j) = x
    split at hx
    · rw [if_neg (by omega)]
      exact h.guys j x hx
    · rw [if_pos (by omega)]
      exact h.guys (j + 1) x hx

theorem Represents.act {c : Act α} (hc : Allowed a l c) :
    ∃ b r, a.act c = some (b,r) ∧ (lists α).answer l c r ∧
      Represents b ((lists α).next l c r) := by
  cases c with
  | add guy k =>
    have hlen := h.num
    rcases h.setsize hc k with ⟨b,hb,hrep⟩ | ⟨hk,hfail⟩
    · obtain ⟨d,hd,hset⟩ := hrep.store (i := l.length) (by simp) guy
      rw [← hlen] at hb hd
      refine ⟨d,none,by simp [StoredArray.act,arrayAdd,hb,hd],.inl rfl,?_⟩
      have hlist : (l.take (l.length + 1) ++ List.replicate (l.length + 1 - l.length) none).set
          l.length (some guy) = l ++ [some guy] := by
        simp [List.take_of_length_le]
      rw [hlist] at hset
      exact hset
    · rw [← hlen] at hfail
      exact ⟨a,some .ENOMEM,by simp [StoredArray.act,arrayAdd,hfail],.inr ⟨rfl,hk,rfl⟩,h⟩
  | remove i =>
    obtain ⟨b,hb,hrep⟩ := h.remove hc
    exact ⟨b,none,by simp [StoredArray.act,hb],.inl rfl,hrep⟩
  | setguy i x =>
    obtain ⟨b,hb,hrep⟩ := h.store hc x
    have hin : a.num ≤ a.max ∧ i < a.num := ⟨h.num_le,by rw [h.num]; exact hc⟩
    exact ⟨b,none,by simp [StoredArray.act,arraySetguy,hin,hb],.inl rfl,hrep⟩
  | setsize n k =>
    rcases h.setsize hc k with ⟨b,hb,hrep⟩ | ⟨hk,hfail⟩
    · exact ⟨b,none,hb,.inl rfl,hrep⟩
    · exact ⟨a,some .ENOMEM,hfail,.inr ⟨rfl,hk,rfl⟩,h⟩
  | preallocate n k =>
    cases k with
    | none =>
      exact ⟨a,some .ENOMEM,by simp [StoredArray.act,arrayPreallocate,h.num_le],
        .inr ⟨rfl,rfl,rfl⟩,h⟩
    | some newv =>
      obtain ⟨b,hb,hrep,_⟩ := h.preallocate hc newv
      exact ⟨b,none,hb,.inl rfl,hrep⟩

end

/-- An array is a list whatever kmalloc answers, and a call that returns ENOMEM leaves it alone. -/
theorem array_refines_list (v : Nat → α) (acts : List (Act α))
    (h : (lists α).Legal act Allowed (arrayCreate v) [] acts) :
    (lists α).Agrees act Shows (arrayCreate v) [] acts := by
  refine DataType.agrees (R := Represents) (fun a l hR => hR.shows) (fun a l c hR => hR.act) ?_ h
  exact ⟨rfl,Nat.le_refl 0,rfl,Nat.two_pow_pos 30,fun i x hx => by simp at hx⟩

/-- Three elements, an array that grows, and a kmalloc that fails. -/
theorem array_refines_list_three : (lists Nat).Agrees act Shows (arrayCreate fun _ => 0) []
    [.add 7 (some fun _ => 1),.setsize 3 (some fun _ => 2),.setguy 2 8,.preallocate 9 none,
      .remove 1,.setsize 0 none] :=
  array_refines_list _ _ (by decide)

end StoredArray

end MipsOs
