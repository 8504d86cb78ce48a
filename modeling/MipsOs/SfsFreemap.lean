import MipsOs.SfsMount

/-! The freemap that sfs_domount creates, and the accesses to its storage. The memory behind the
storage can hold anything: what never looks there does not depend on it, and leaves it alone. -/

set_option autoImplicit false
namespace MipsOs
open Bytes Function

namespace Bitmap

variable {b : Bitmap} {i : Nat}

/-- The same bitmap with other memory behind its storage. -/
def behind (m : Nat → Byte) (b : Bitmap) : Bitmap :=
  { b with v := fun k => if k < words b.nbits then b.v k else m k }

section

variable (m : Nat → Byte)

include m

@[simp] theorem behind_nbits (b : Bitmap) : (b.behind m).nbits = b.nbits := rfl

theorem behind_v {k : Nat} (h : k < words b.nbits) : (b.behind m).v k = b.v k :=
  if_pos h

theorem isset_behind (h : i / bitsPerWord < words b.nbits) :
    (b.behind m).isset i = b.isset i := by
  simp only [isset,behind_v m h]

theorem store_behind {k : Nat} (h : k < words b.nbits) (w : Byte) :
    (⟨b.nbits,update (b.behind m).v k w⟩ : Bitmap) =
      behind m ⟨b.nbits,update b.v k w⟩ := by
  simp only [behind,Bitmap.mk.injEq,true_and]
  funext j
  by_cases hj : j = k
  · subst hj
    rw [update_self,if_pos h,update_self]
  · rw [update_of_ne hj,update_of_ne hj]

theorem setBit_behind (h : i / bitsPerWord < words b.nbits) :
    (b.behind m).setBit i = (b.setBit i).behind m := by
  simp only [setBit,behind_v m h]
  exact store_behind m h _

theorem clearBit_behind (h : i / bitsPerWord < words b.nbits) :
    (b.behind m).clearBit i = (b.clearBit i).behind m := by
  simp only [clearBit,behind_v m h]
  exact store_behind m h _

theorem unmark_behind (h : i < b.nbits → i / bitsPerWord < words b.nbits) :
    (b.behind m).unmark i = (b.unmark i).map (behind m) := by
  unfold unmark
  by_cases hi : i < b.nbits
  · rw [behind_nbits,if_pos hi,if_pos hi,isset_behind m (h hi),clearBit_behind m (h hi)]
    split <;> rfl
  · rw [behind_nbits,if_neg hi,if_neg hi]
    rfl

end

theorem allocOffset_lt {w : Byte} {o n k : Nat} (h : allocOffset w o n = some k) : k < o + n := by
  induction n generalizing o with
  | zero => cases h
  | succ n ih =>
    rw [allocOffset] at h
    split at h
    · cases h
      omega
    · have := ih h
      omega

theorem allocWord_behind (m : Nat → Byte) (ix n : Nat) (h : ix + n ≤ words b.nbits) :
    (b.behind m).allocWord ix n =
      (b.allocWord ix n).map (Option.map fun p => (p.1,p.2.behind m)) := by
  induction n generalizing ix with
  | zero => rfl
  | succ n ih =>
    rw [allocWord,allocWord,behind_v m (by omega)]
    by_cases hfull : b.v ix ≠ wordAllbits
    · rw [if_pos hfull,if_pos hfull]
      cases ho : allocOffset (b.v ix) 0 bitsPerWord with
      | none => rfl
      | some offset =>
        have hlt : offset < 8 := by
          have := allocOffset_lt ho
          rwa [Nat.zero_add] at this
        have hword : (ix * bitsPerWord + offset) / bitsPerWord < words b.nbits := by
          rw [bitsPerWord]
          omega
        simp only [behind_nbits,setBit_behind m hword]
        split <;> rfl
    · rw [if_neg hfull,if_neg hfull]
      exact ih (ix + 1) (by omega)

theorem alloc_behind (m : Nat → Byte) (b : Bitmap) :
    (b.behind m).alloc = b.alloc.map (Option.map fun p => (p.1,p.2.behind m)) :=
  allocWord_behind m 0 (words b.nbits) (by rw [Nat.zero_add])

end Bitmap

namespace Sfs
open Prog

section Accesses

def Fs.behind (m : Nat → Byte) (s : Fs) : Fs := { s with freemap := s.freemap.behind m }

/-- The storage of the freemap has a place for every block of the volume. -/
structure Covers (s : Fs) : Prop where
  bits : s.super.nblocks ≤ s.freemap.nbits
  words : ∀ i, i < s.freemap.nbits → i / Bitmap.bitsPerWord < Bitmap.words s.freemap.nbits
  map : sfsBitblocks s.super.nblocks * sfsBlocksize = Bitmap.words s.freemap.nbits

variable {s t : Fs} {b : Nat}

theorem sfsBused_behind (h : Covers s) (m : Nat → Byte) (b : Nat) :
    sfsBused b (s.behind m) = (sfsBused b s).after (Fs.behind m) := by
  rw [sfsBused,get_bind,get_bind]
  by_cases hb : b ≥ s.super.nblocks
  · rw [if_pos hb,if_pos (show b ≥ (s.behind m).super.nblocks from hb)]
    rfl
  · have hset : (s.behind m).freemap.isset b = s.freemap.isset b :=
      Bitmap.isset_behind m (h.words b (by have := h.bits; omega))
    rw [if_neg hb,if_neg (show ¬ b ≥ (s.behind m).super.nblocks from hb),hset]
    rfl

theorem sfsBfree_behind (h : Covers s) (m : Nat → Byte) (b : Nat) :
    sfsBfree b (s.behind m) = (sfsBfree b s).after (Fs.behind m) := by
  have hunmark : (s.behind m).freemap.unmark b = (s.freemap.unmark b).map (Bitmap.behind m) :=
    Bitmap.unmark_behind m (h.words b)
  rw [sfsBfree,get_bind,get_bind,hunmark]
  cases s.freemap.unmark b <;> rfl

theorem sfsWblock_behind (m : Nat → Byte) (data : Buffer) (b : Nat) (s : Fs) :
    sfsWblock data b (s.behind m) = (sfsWblock data b s).after (Fs.behind m) := by
  obtain ⟨f,hf⟩ := sfsWblock_onDevice data b
  rw [hf]
  exact Outcome.after_zoom rfl (fun _ => rfl) f

def Fs.setFreemap (s : Fs) (freemap : Bitmap) : Fs :=
  { s with freemap := freemap, freemapdirty := true }

theorem sfsBalloc_some {diskblock : Nat} {freemap : Bitmap}
    (h : s.freemap.alloc = .ok (some (diskblock,freemap))) : sfsBalloc s =
      if diskblock ≥ s.super.nblocks then .panic (.ballocInvalid diskblock)
      else (sfsClearblock diskblock >>= fun _ => pure diskblock) (s.setFreemap freemap) := by
  rw [sfsBalloc,get_bind,h]
  simp only [modify_bind]
  by_cases hb : diskblock ≥ s.super.nblocks
  · rw [if_pos hb,if_pos hb]
    rfl
  · rw [if_neg hb,if_neg hb,Fs.setFreemap]

theorem sfsBalloc_behind (m : Nat → Byte) (s : Fs) :
    sfsBalloc (s.behind m) = (sfsBalloc s).after (Fs.behind m) := by
  have halloc : (s.behind m).freemap.alloc =
      s.freemap.alloc.map (Option.map fun p => (p.1,p.2.behind m)) :=
    Bitmap.alloc_behind m s.freemap
  cases h : s.freemap.alloc with
  | error a =>
    rw [h] at halloc
    rw [sfsBalloc,get_bind,get_bind,halloc,h]
    rfl
  | ok r =>
    rw [h] at halloc
    cases r with
    | none =>
      rw [sfsBalloc,get_bind,get_bind,halloc,h]
      rfl
    | some p =>
      have hsuper : (s.behind m).super = s.super := rfl
      have hset : (s.behind m).setFreemap (p.2.behind m) = (s.setFreemap p.2).behind m := rfl
      rw [sfsBalloc_some halloc,sfsBalloc_some h,hsuper,hset]
      split
      · rfl
      · exact Outcome.after_bind (sfsWblock_behind m zeros p.1 (s.setFreemap p.2)) fun _ _ _ => rfl

end Accesses

section Mounting

variable {s t : Fs}

variable {nbits : Nat} {b : Bitmap} {sup : Super}

theorem create_nbits (h : Bitmap.create nbits = .ok b) : b.nbits = nbits := by
  unfold Bitmap.create at h
  simp only at h
  split at h
  · split at h
    · cases h
      rfl
    · cases h
  · cases h
    rfl

theorem create_behind (h : Bitmap.create nbits = .ok b) {k : Nat}
    (hk : Bitmap.words nbits ≤ k) : b.v k = 0 := by
  unfold Bitmap.create at h
  simp only at h
  split at h
  · next hlt =>
    split at h
    · cases h
      exact update_of_ne (by omega) _ _
    · cases h
  · cases h
    rfl

/-- What sfs_domount has set up once the bitmap is created. -/
structure Created (sup : Super) (s : Fs) : Prop where
  super : s.super = sup
  nbits : s.freemap.nbits = sfsBitmapsize sup.nblocks
  behind : sfsBitblocks sup.nblocks * sfsBlocksize = Bitmap.words (sfsBitmapsize sup.nblocks) →
    ∀ k, Bitmap.words (sfsBitmapsize sup.nblocks) ≤ k → s.freemap.v k = 0

theorem kmalloc_gives (s : Fs) :
    (kmalloc s).Gives fun _ t => ∃ ks, t = { s with kmallocs := ks } := by
  intro a t h
  unfold kmalloc at h
  split at h
  · cases h
    exact ⟨_,rfl⟩
  · split at h
    · cases h
      exact ⟨_,rfl⟩
    · cases h

theorem mountBitmap_gives (s : Fs) : (mountBitmap s).Gives fun _ t => Created s.super t := by
  rw [mountBitmap]
  refine (kmalloc_gives s).bind fun _ t ht => ?_
  obtain ⟨ks,rfl⟩ := ht
  refine (kmalloc_gives _).bind fun _ t ht => ?_
  obtain ⟨ks',rfl⟩ := ht
  rw [get_bind]
  cases hc : Bitmap.create (sfsBitmapsize s.super.nblocks) with
  | error a =>
    exact Outcome.Gives.panic _
  | ok freemap =>
    intro _ t ht
    cases ht
    exact ⟨rfl,create_nbits hc,fun _ k hk => create_behind hc hk⟩

theorem mapioBlock_gives {j : Nat} (h : Created sup s) (hj : j < sfsBitblocks sup.nblocks) :
    (mapioBlock .read j s).Gives fun _ t => Created sup t := by
  rw [mapioBlock]
  obtain ⟨f,hf⟩ := sfsRblock_onDevice (sfsMapLocation + j)
  rw [hf]
  refine (Outcome.Gives.zoom f s).bind fun blk t ht => ?_
  obtain ⟨d,rfl⟩ := ht
  intro _ t ht
  cases ht
  refine ⟨h.super,h.nbits,fun hmap k hk => ?_⟩
  have hend : (j + 1) * sfsBlocksize ≤ sfsBitblocks sup.nblocks * sfsBlocksize :=
    Nat.mul_le_mul_right _ hj
  rw [Nat.succ_mul] at hend
  show splice s.freemap.v (j * sfsBlocksize) sfsBlocksize blk 0 k = 0
  rw [splice_outside (by omega)]
  exact h.behind hmap k hk

theorem sfsMapio_gives (h : Created sup s) : (sfsMapio .read s).Gives fun _ t => Created sup t := by
  rw [sfsMapio,get_bind,h.super]
  refine Outcome.Gives.loop (f := fun j _ => mapioBlock .read j) (I := fun _ _ t => Created sup t)
    _ h fun j _ t _ hj ht => mapioBlock_gives ht (by omega)

theorem sfsDomount_gives (s : Fs) :
    (sfsDomount s).Gives fun _ t => Created t.super t := by
  rw [sfsDomount]
  refine (kmalloc_gives s).bind fun _ t ht => ?_
  obtain ⟨ks,rfl⟩ := ht
  refine (kmalloc_gives _).bind fun _ t ht => ?_
  obtain ⟨ks',rfl⟩ := ht
  rw [modify_bind]
  obtain ⟨f,hf⟩ := sfsRblock_onDevice sfsSbLocation
  rw [hf]
  refine (Outcome.Gives.zoom f _).bind fun blk t ht => ?_
  obtain ⟨d,rfl⟩ := ht
  split
  · exact Outcome.Gives.fail _
  · rw [modify_bind]
    refine (mountBitmap_gives _).bind fun _ t ht => ?_
    refine (sfsMapio_gives ht).bind fun _ u hu => ?_
    intro _ w hw
    cases hw
    refine ⟨rfl,?_,?_⟩
    · rw [hu.nbits,hu.super]
    · rw [hu.super]
      exact hu.behind

theorem Created.covers (h : Created s.super s) (hn : s.super.nblocks ≤ 2^32 - 4096) : Covers s := by
  have hsize : sfsBitmapsize s.super.nblocks = (s.super.nblocks + 4095) / 4096 * 4096 := by
    unfold sfsBitmapsize sfsRoundup sfsBlockbits
    rw [Nat.mod_eq_of_lt (by omega)]
    rfl
  have hwords : Bitmap.words (sfsBitmapsize s.super.nblocks) =
      (s.super.nblocks + 4095) / 4096 * 512 := by
    rw [hsize,Bitmap.words,Bitmap.bitsPerWord,Nat.mod_eq_of_lt (by omega)]
    omega
  refine ⟨?_,fun i hi => ?_,?_⟩
  · rw [h.nbits,hsize]
    omega
  · rw [h.nbits] at hi ⊢
    rw [hwords,Bitmap.bitsPerWord]
    rw [hsize] at hi
    omega
  · rw [h.nbits,hwords,sfsBitblocks,hsize,sfsBlocksize,sfsBlockbits,
      Nat.mul_div_cancel _ (by decide)]

/-- The freemap of a mounted volume covers it just if the number of blocks is at most 2^32 - 4096:
whatever happens to the volume afterwards, sfs_bused, sfs_bfree and sfs_balloc stay in the storage
of the freemap, and sfs_mapio has filled just that storage. -/
theorem freemap_covers_volume (hmount : sfsDomount s = .ok () t) :
    ((∀ b, b < t.super.nblocks → b < t.freemap.nbits ∧
      b / Bitmap.bitsPerWord < Bitmap.words t.freemap.nbits) ∧
    sfsBitblocks t.super.nblocks * sfsBlocksize = Bitmap.words t.freemap.nbits ∧
    (∀ k, Bitmap.words t.freemap.nbits ≤ k → t.freemap.v k = 0) ∧
    ∀ u : Fs, u.super = t.super → u.freemap.nbits = t.freemap.nbits → ∀ m b,
      sfsBused b (u.behind m) = (sfsBused b u).after (Fs.behind m) ∧
      sfsBfree b (u.behind m) = (sfsBfree b u).after (Fs.behind m) ∧
      sfsBalloc (u.behind m) = (sfsBalloc u).after (Fs.behind m)) ↔
    t.super.nblocks ≤ 2^32 - 4096 := by
  have hcreated := sfsDomount_gives s () t hmount
  refine ⟨fun h => ?_,fun hn => ?_⟩
  · by_contra hn
    have hbits := (h.1 (2^32 - 4096) (by omega)).1
    rw [hcreated.nbits,sfsBitmapsize,sfsRoundup,sfsBlockbits] at hbits
    omega
  have hcovers := hcreated.covers hn
  refine ⟨fun b hb => ?_,hcovers.map,fun k hk => ?_,fun u hsuper hnbits m b => ?_⟩
  · have hbits := hcovers.bits
    exact ⟨by omega,hcovers.words b (by omega)⟩
  · have hmap := hcovers.map
    rw [hcreated.nbits] at hmap hk
    exact hcreated.behind hmap k hk
  · have hu : Covers u := by
      refine ⟨?_,?_,?_⟩
      · rw [hsuper,hnbits]
        exact hcovers.bits
      · rw [hnbits]
        exact hcovers.words
      · rw [hsuper,hnbits]
        exact hcovers.map
    exact ⟨sfsBused_behind hu m b,sfsBfree_behind hu m b,sfsBalloc_behind m u⟩

/-- A disk of eight sectors with a superblock that tells of `n` blocks. -/
def diskTelling (n : Nat) : Device :=
  ⟨8,fun b => if b = sfsSbLocation then clip (encodeSuper ⟨sfsMagic,n,zeros⟩) else zeros,[]⟩

theorem freemap_covers_volume_five : ∃ t, sfsDomount (Fs.blank (diskTelling 5)) = .ok () t ∧
    t.super.nblocks = 5 ∧ 4 < t.freemap.nbits ∧ 4 / 8 < Bitmap.words t.freemap.nbits := by
  have h : (sfsDomount (Fs.blank (diskTelling 5))).test
      (fun _ t => t.super.nblocks == 5) = true := by
    decide +kernel
  obtain ⟨_,t,ht,h⟩ := Outcome.test_eq_true h
  have hn : t.super.nblocks = 5 := beq_iff_eq.mp h
  have hcovers := (freemap_covers_volume ht).mpr (by omega)
  exact ⟨t,ht,hn,hcovers.1 4 (by omega)⟩

/-- The rounding wraps: the volume is mounted with a freemap of no bits, and whether block 1 is in
use is read from the memory behind it. -/
theorem freemap_without_bits : ∃ t, sfsDomount (Fs.blank (diskTelling (2^32 - 1))) = .ok () t ∧
    t.super.nblocks = 2^32 - 1 ∧ t.freemap.nbits = 0 ∧ Bitmap.words t.freemap.nbits = 0 ∧
    sfsBused 1 (t.behind fun _ => 0) = .ok false (t.behind fun _ => 0) ∧
    sfsBused 1 (t.behind fun _ => 255) = .ok true (t.behind fun _ => 255) := by
  have h : (sfsDomount (Fs.blank (diskTelling (2^32 - 1)))).test (fun _ t =>
      decide (t.super.nblocks = 2^32 - 1 ∧ t.freemap.nbits = 0)) = true := by
    decide +kernel
  obtain ⟨_,t,ht,h⟩ := Outcome.test_eq_true h
  obtain ⟨hn,hbits⟩ := of_decide_eq_true h
  have hwords : Bitmap.words t.freemap.nbits = 0 := by rw [hbits]; rfl
  have hused : ∀ w : Byte, sfsBused 1 (t.behind fun _ => w) =
      .ok (w &&& Bitmap.mask 1 != 0) (t.behind fun _ => w) := by
    intro w
    have hlt : ¬ 1 ≥ (t.behind fun _ => w).super.nblocks := by
      show ¬ 1 ≥ t.super.nblocks
      omega
    have hbyte : (t.behind fun _ => w).freemap.v 0 = w := if_neg (by rw [hwords]; omega)
    rw [sfsBused,get_bind,if_neg hlt,Bitmap.isset]
    simp only [Bitmap.bitsPerWord,Nat.reduceDiv,hbyte]
    rfl
  exact ⟨t,ht,hn,hbits,hwords,hused 0,hused 255⟩

end Mounting

end Sfs

end MipsOs
