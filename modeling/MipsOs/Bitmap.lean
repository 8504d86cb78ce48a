import Mathlib.Data.Finset.Basic
import MipsOs.Bytes
import MipsOs.Runs

/-! Arrays of bits, kern/lib/bitmap.c. What lies behind the storage of a bitmap
is the memory that follows it, so reading there gives some value. -/

set_option autoImplicit false
namespace MipsOs
open Bytes Function

inductive BitmapAssertion where
  | leftover | zero | index | clear | set
  deriving DecidableEq, Repr

structure Bitmap where
  nbits : Nat
  v : Nat → Byte

namespace Bitmap

def bitsPerWord : Nat := 8

def wordAllbits : Byte := 0xff

def mask (offset : Nat) : Byte := 1 <<< offset

/-- DIVROUNDUP(nbits, BITS_PER_WORD), the size of the storage. -/
def words (nbits : Nat) : Nat := (nbits + bitsPerWord - 1) % 2^32 / bitsPerWord

/-- The bits of the last word from `overbits` on. -/
def leftover (overbits : Nat) : Byte :=
  (List.range' overbits (bitsPerWord - overbits)).foldl (fun w j => w ||| mask j) 0

def create (nbits : Nat) : Except BitmapAssertion Bitmap :=
  let words := words nbits
  if nbits / bitsPerWord < words then
    let ix := words - 1
    let overbits := nbits - ix * bitsPerWord
    if nbits / bitsPerWord = words - 1 ∧ 0 < overbits ∧ overbits < bitsPerWord then
      .ok ⟨nbits,update zeros ix (leftover overbits)⟩
    else .error .leftover
  else .ok ⟨nbits,zeros⟩

def allocOffset (w : Byte) : Nat → Nat → Option Nat
  | _, 0 => none
  | offset, n+1 => if w &&& mask offset = 0 then some offset else allocOffset w (offset+1) n

def setBit (b : Bitmap) (index : Nat) : Bitmap :=
  let ix := index / bitsPerWord
  { b with v := update b.v ix (b.v ix ||| mask (index % bitsPerWord)) }

def clearBit (b : Bitmap) (index : Nat) : Bitmap :=
  let ix := index / bitsPerWord
  { b with v := update b.v ix (b.v ix &&& ~~~(mask (index % bitsPerWord))) }

def allocWord (b : Bitmap) : Nat → Nat → Except BitmapAssertion (Option (Nat × Bitmap))
  | _, 0 => .ok none
  | ix, n+1 =>
    if b.v ix ≠ wordAllbits then
      match allocOffset (b.v ix) 0 bitsPerWord with
      | none => .error .zero
      | some offset =>
        let index := ix * bitsPerWord + offset
        if index < b.nbits then .ok (some (index,b.setBit index)) else .error .index
    else allocWord b (ix+1) n

def alloc (b : Bitmap) : Except BitmapAssertion (Option (Nat × Bitmap)) :=
  allocWord b 0 (words b.nbits)

def isset (b : Bitmap) (index : Nat) : Bool :=
  b.v (index / bitsPerWord) &&& mask (index % bitsPerWord) != 0

def mark (b : Bitmap) (index : Nat) : Except BitmapAssertion Bitmap :=
  if index < b.nbits then
    if b.isset index then .error .clear else .ok (b.setBit index)
  else .error .index

def unmark (b : Bitmap) (index : Nat) : Except BitmapAssertion Bitmap :=
  if index < b.nbits then
    if b.isset index then .ok (b.clearBit index) else .error .set
  else .error .index

variable {w : Byte} {o n : Nat} {b : Bitmap}

theorem and_mask (h : o < 8) : w &&& mask o = 0 ↔ w.getLsbD o = false := by
  have hm : mask o = BitVec.twoPow 8 o := by
    rw [mask,BitVec.twoPow_eq]
    rfl
  rw [hm,BitVec.and_twoPow]
  cases hb : w.getLsbD o with
  | false => simp
  | true =>
    simp only [if_true,Bool.true_eq_false,iff_false]
    intro hz
    have hbit : (BitVec.twoPow 8 o).getLsbD o = true := by simp [h]
    rw [hz] at hbit
    simp at hbit

theorem isset_eq (b : Bitmap) (i : Nat) : b.isset i = (b.v (i / 8)).getLsbD (i % 8) := by
  have hlt : i % 8 < 8 := Nat.mod_lt _ (by decide)
  have h := and_mask (w := b.v (i / 8)) hlt
  simp only [isset,bitsPerWord]
  cases hb : (b.v (i / 8)).getLsbD (i % 8) with
  | false => simp [h.mpr hb]
  | true =>
    have hne : b.v (i / 8) &&& mask (i % 8) ≠ 0 := by
      intro hz
      rw [h.mp hz] at hb
      cases hb
    simpa using hne

theorem getLsbD_mask (ho : o < 8) (j : Nat) : (mask o).getLsbD j = decide (j = o) := by
  have hm : mask o = BitVec.twoPow 8 o := by
    rw [mask,BitVec.twoPow_eq]
    rfl
  rw [hm,BitVec.getLsbD_twoPow]
  simp only [ho,decide_true,Bool.true_and]
  exact decide_eq_decide.mpr ⟨Eq.symm,Eq.symm⟩

theorem isset_setBit (b : Bitmap) (i j : Nat) :
    (b.setBit i).isset j = (decide (j = i) || b.isset j) := by
  rw [isset_eq,isset_eq]
  simp only [setBit,bitsPerWord]
  by_cases hw : j / 8 = i / 8
  · rw [hw,update_self,BitVec.getLsbD_or,
      getLsbD_mask (Nat.mod_lt _ (by decide)),Bool.or_comm]
    congr 1
    exact decide_eq_decide.mpr ⟨fun h => by omega,fun h => by rw [h]⟩
  · rw [update_of_ne hw]
    have hne : j ≠ i := fun h => hw (by rw [h])
    simp [hne]

theorem isset_clearBit (b : Bitmap) (i j : Nat) :
    (b.clearBit i).isset j = (!decide (j = i) && b.isset j) := by
  rw [isset_eq,isset_eq]
  simp only [clearBit,bitsPerWord]
  by_cases hw : j / 8 = i / 8
  · have hlt : j % 8 < 8 := Nat.mod_lt _ (by decide)
    rw [hw,update_self,BitVec.getLsbD_and,BitVec.getLsbD_not,
      getLsbD_mask (Nat.mod_lt _ (by decide)),Bool.and_comm]
    simp only [hlt,decide_true,Bool.true_and]
    congr 2
    exact decide_eq_decide.mpr ⟨fun h => by omega,fun h => by rw [h]⟩
  · rw [update_of_ne hw]
    have hne : j ≠ i := fun h => hw (by rw [h])
    simp [hne]

theorem allocOffset_some {r : Nat} (hn : o + n ≤ 8) (h : allocOffset w o n = some r) :
    o ≤ r ∧ r < o + n ∧ w.getLsbD r = false ∧ ∀ j, o ≤ j → j < r → w.getLsbD j = true := by
  induction n generalizing o with
  | zero => cases h
  | succ n ih =>
    unfold allocOffset at h
    split at h
    · next hz =>
      cases h
      exact ⟨Nat.le_refl _,by omega,(and_mask (by omega)).mp hz,fun j _ _ => by omega⟩
    · next hz =>
      obtain ⟨hle,hlt,hr,hbelow⟩ := ih (by omega) h
      have ho : w.getLsbD o = true := by
        rw [and_mask (by omega)] at hz
        simpa using hz
      refine ⟨by omega,by omega,hr,fun j hj hjr => ?_⟩
      rcases Nat.eq_or_lt_of_le hj with rfl | hj
      · exact ho
      · exact hbelow j hj hjr

theorem allocOffset_none (hn : o + n ≤ 8) (h : allocOffset w o n = none) :
    ∀ j, o ≤ j → j < o + n → w.getLsbD j = true := by
  induction n generalizing o with
  | zero => exact fun j _ _ => by omega
  | succ n ih =>
    unfold allocOffset at h
    split at h
    · cases h
    · next hz =>
      rw [and_mask (by omega)] at hz
      intro j hj hlt
      rcases Nat.eq_or_lt_of_le hj with rfl | hj
      · simpa using hz
      · exact ih (by omega) h j hj (by omega)

theorem eq_allbits (h : ∀ j, j < 8 → w.getLsbD j = true) : w = wordAllbits := by
  apply BitVec.eq_of_getLsbD_eq
  intro j hj
  rw [h j hj]
  have hall : ∀ j, j < 8 → wordAllbits.getLsbD j = true := by decide
  exact (hall j hj).symm

structure Padded (b : Bitmap) : Prop where
  room : b.nbits + 7 < 2^32
  padding : ∀ i, b.nbits ≤ i → i < 8 * words b.nbits → b.isset i = true

theorem words_eq (h : n + 7 < 2^32) : words n = (n + 7) / 8 := by
  unfold words bitsPerWord
  rw [Nat.mod_eq_of_lt (by omega)]
  omega

theorem allocWord_spec (h : b.Padded) {ix : Nat} (hn : ix + n = words b.nbits)
    (hfull : ∀ j, j < 8 * ix → b.isset j = true) :
    (allocWord b ix n = .ok none ∧ ∀ j, j < b.nbits → b.isset j = true) ∨
    ∃ r, allocWord b ix n = .ok (some (r,b.setBit r)) ∧ r < b.nbits ∧ b.isset r = false ∧
      ∀ j, j < r → b.isset j = true := by
  induction n generalizing ix with
  | zero =>
    refine .inl ⟨rfl,fun j hj => hfull j ?_⟩
    have hw := words_eq h.room
    omega
  | succ n ih =>
    unfold allocWord
    by_cases hw : b.v ix = wordAllbits
    · rw [if_neg (not_not.mpr hw)]
      refine ih (by omega) fun j hj => ?_
      by_cases hlt : j < 8 * ix
      · exact hfull j hlt
      · have hdiv : j / 8 = ix := by omega
        have hall : ∀ j, j < 8 → wordAllbits.getLsbD j = true := by decide
        rw [isset_eq,hdiv,hw]
        exact hall _ (Nat.mod_lt _ (by decide))
    · rw [if_pos hw]
      cases hs : allocOffset (b.v ix) 0 bitsPerWord with
      | none => exact (hw (eq_allbits fun j hj =>
          allocOffset_none (by decide) hs j (Nat.zero_le j) (by simpa [bitsPerWord] using hj))).elim
      | some o =>
        obtain ⟨_,hlt,hclear,hbelow⟩ := allocOffset_some (by decide) hs
        have hlt : o < 8 := by simpa [bitsPerWord] using hlt
        have hdiv : (ix * 8 + o) / 8 = ix := by omega
        have hmod : (ix * 8 + o) % 8 = o := by omega
        have hr : b.isset (ix * 8 + o) = false := by rw [isset_eq,hdiv,hmod,hclear]
        have hin : ix * 8 + o < b.nbits := by
          by_contra hge
          rw [h.padding _ (by omega) (by omega)] at hr
          cases hr
        refine .inr ⟨ix * 8 + o,?_,hin,hr,fun j hj => ?_⟩
        · simp [bitsPerWord,hin]
        · by_cases hjl : j < 8 * ix
          · exact hfull j hjl
          · have hjd : j / 8 = ix := by omega
            rw [isset_eq,hjd]
            exact hbelow _ (Nat.zero_le _) (by omega)

theorem alloc_spec (h : b.Padded) :
    (b.alloc = .ok none ∧ ∀ j, j < b.nbits → b.isset j = true) ∨
    ∃ r, b.alloc = .ok (some (r,b.setBit r)) ∧ r < b.nbits ∧ b.isset r = false ∧
      ∀ j, j < r → b.isset j = true :=
  allocWord_spec h (by omega) fun j hj => by omega

theorem Padded.setBit (h : b.Padded) (i : Nat) : (b.setBit i).Padded where
  room := h.room
  padding j hj hlt := by rw [isset_setBit,h.padding j hj hlt,Bool.or_true]

theorem unmark_eq {i : Nat} (hi : i < b.nbits) (hs : b.isset i = true) :
    b.unmark i = .ok (b.clearBit i) := by
  simp [unmark,hi,hs]

section Sets

theorem leftover_bits {j : Nat} (ho : o < 8) (hj : j < 8) :
    (leftover o).getLsbD j = decide (o ≤ j) := by
  have hall : ∀ o < 8, ∀ j < 8, (leftover o).getLsbD j = decide (o ≤ j) := by decide
  exact hall o ho j hj

theorem isset_zeros (n i : Nat) : isset ⟨n,zeros⟩ i = false := by
  rw [isset_eq]
  exact BitVec.getLsbD_zero

theorem create_spec (h : n + 7 < 2^32) : ∃ b, create n = .ok b ∧ b.nbits = n ∧ b.Padded ∧
    ∀ i < n, b.isset i = false := by
  have hw := words_eq h
  unfold create
  by_cases hmod : n % 8 = 0
  · have hnot : ¬ n / bitsPerWord < words n := by
      rw [hw,bitsPerWord]
      omega
    refine ⟨⟨n,zeros⟩,if_neg hnot,rfl,⟨h,fun i hi hlt => ?_⟩,fun i _ => isset_zeros n i⟩
    have hi : n ≤ i := hi
    have hlt : i < 8 * words n := hlt
    omega
  · have hix : words n - 1 = n / 8 := by omega
    have hover : n - n / 8 * 8 = n % 8 := by omega
    have hisset : ∀ i, isset ⟨n,update zeros (n / 8) (leftover (n % 8))⟩ i =
        decide (i / 8 = n / 8 ∧ n % 8 ≤ i % 8) := by
      intro i
      rw [isset_eq]
      by_cases hi : i / 8 = n / 8
      · simp only [hi,update_self,true_and]
        exact leftover_bits (by omega) (by omega)
      · simp only [hi,false_and,decide_false]
        rw [update_of_ne hi]
        exact BitVec.getLsbD_zero
    refine ⟨⟨n,update zeros (n / 8) (leftover (n % 8))⟩,?_,rfl,⟨h,fun i hi hlt => ?_⟩,
      fun i hi => ?_⟩
    · simp only [bitsPerWord,hix,hover]
      have hin : True ∧ 0 < n % 8 ∧ n % 8 < 8 := ⟨True.intro,by omega,by omega⟩
      rw [if_pos (by omega),if_pos hin]
    · have hi : n ≤ i := hi
      have hlt : i < 8 * words n := hlt
      rw [hisset]
      exact decide_eq_true (by omega)
    · rw [hisset]
      exact decide_eq_false (by omega)

inductive Act where
  | alloc
  | mark (index : Nat)
  | unmark (index : Nat)

/-- Only bitmap_alloc hands something back, and ENOSPC is `none`. A call whose assertion fails does
not return. -/
def act (b : Bitmap) : Act → Option (Bitmap × Option Nat)
  | .alloc =>
    match b.alloc with
    | .ok (some (index,b')) => some (b',some index)
    | .ok none => some (b,none)
    | .error _ => none
  | .mark index => (b.mark index).toOption.map fun b' => (b',none)
  | .unmark index => (b.unmark index).toOption.map fun b' => (b',none)

/-- Sets of indices, with the lowest one below `nbits` that is not in the set to be handed out. -/
def indices (nbits : Nat) : DataType (Finset Nat) Act (Option Nat) where
  answer
    | s, .alloc, some i => i < nbits ∧ i ∉ s ∧ ∀ j < i, j ∈ s
    | s, .alloc, none => ∀ i < nbits, i ∈ s
    | _, _, r => r = none
  next
    | s, .alloc, some i => insert i s
    | s, .alloc, none => s
    | s, .mark i, _ => insert i s
    | s, .unmark i, _ => s.erase i

def Allowed (nbits : Nat) (_ : Bitmap) (s : Finset Nat) : Act → Prop
  | .alloc => True
  | .mark i => i < nbits ∧ i ∉ s
  | .unmark i => i < nbits ∧ i ∈ s

instance decidableAllowed (nbits : Nat) (b : Bitmap) (s : Finset Nat) :
    ∀ a, Decidable (Allowed nbits b s a)
  | .alloc => isTrue True.intro
  | .mark i => inferInstanceAs (Decidable (i < nbits ∧ i ∉ s))
  | .unmark i => inferInstanceAs (Decidable (i < nbits ∧ i ∈ s))

/-- bitmap_isset tells the members of the set, and the padding is set. -/
structure Shows (nbits : Nat) (b : Bitmap) (s : Finset Nat) : Prop where
  bits : ∀ i < nbits, b.isset i = true ↔ i ∈ s
  padding : ∀ i, nbits ≤ i → i < 8 * words nbits → b.isset i = true

structure Represents (nbits : Nat) (b : Bitmap) (s : Finset Nat) : Prop where
  size : b.nbits = nbits
  padded : b.Padded
  bits : ∀ i < nbits, b.isset i = true ↔ i ∈ s

variable {nbits : Nat} {s : Finset Nat}

theorem Represents.insert (h : Represents nbits b s) (i : Nat) :
    Represents nbits (b.setBit i) (insert i s) where
  size := h.size
  padded := h.padded.setBit i
  bits j hj := by simp [isset_setBit,h.bits j hj]

theorem Represents.erase (h : Represents nbits b s) {i : Nat} (hi : i < nbits) :
    Represents nbits (b.clearBit i) (s.erase i) where
  size := h.size
  padded := by
    refine ⟨h.padded.room,fun j hj hlt => ?_⟩
    have hne : j ≠ i := by
      have hj : b.nbits ≤ j := hj
      have hsize := h.size
      omega
    rw [isset_clearBit,h.padded.padding j hj hlt]
    simp [hne]
  bits j hj := by simp [isset_clearBit,h.bits j hj]

theorem Represents.act (h : Represents nbits b s) {a : Act} (ha : Allowed nbits b s a) :
    ∃ b' r, b.act a = some (b',r) ∧ (indices nbits).answer s a r ∧
      Represents nbits b' ((indices nbits).next s a r) := by
  have hsize := h.size
  cases a with
  | alloc =>
    rcases alloc_spec h.padded with ⟨hall,hfull⟩ | ⟨i,hi,hlt,hclear,hbelow⟩
    · exact ⟨b,none,by simp [Bitmap.act,hall],fun i hi => (h.bits i hi).mp (hfull i (by omega)),h⟩
    · refine ⟨b.setBit i,some i,by simp [Bitmap.act,hi],⟨by omega,fun hmem => ?_,fun j hj => ?_⟩,
        h.insert i⟩
      · rw [(h.bits i (by omega)).mpr hmem] at hclear
        cases hclear
      · exact (h.bits j (by omega)).mp (hbelow j hj)
  | mark i =>
    have hclear : b.isset i = false := by
      rw [Bool.eq_false_iff]
      exact fun hset => ha.2 ((h.bits i ha.1).mp hset)
    have hmark : b.mark i = .ok (b.setBit i) := by simp [mark,hsize,ha.1,hclear]
    exact ⟨b.setBit i,none,by simp [Bitmap.act,hmark,Except.toOption],rfl,h.insert i⟩
  | unmark i =>
    have hunmark := unmark_eq (by rw [hsize]; exact ha.1) ((h.bits i ha.1).mpr ha.2)
    exact ⟨b.clearBit i,none,by simp [Bitmap.act,hunmark,Except.toOption],rfl,h.erase ha.1⟩

/-- A bitmap is a set of indices, and no assertion of its functions fails. -/
theorem bitmap_refines_set {nbits : Nat} (h : nbits < 2^32 - 7) : ∃ b, create nbits = .ok b ∧
    ∀ acts, (indices nbits).Legal act (Allowed nbits) b ∅ acts →
      (indices nbits).Agrees act (Shows nbits) b ∅ acts := by
  obtain ⟨b,hb,hsize,hpadded,hclear⟩ := create_spec (n := nbits) (by omega)
  refine ⟨b,hb,fun acts hacts => DataType.agrees (fun c s hR => ?_) (fun c s a hR => hR.act)
    (R := Represents nbits) ⟨hsize,hpadded,fun i hi => ?_⟩ hacts⟩
  · have hsize := hR.size
    subst hsize
    exact ⟨hR.bits,hR.padded.padding⟩
  · simp [hclear i hi]

theorem bitmap_refines_set_ten : ∃ b, create 10 = .ok b ∧
    (indices 10).Agrees act (Shows 10) b ∅ [.alloc,.mark 9,.alloc,.unmark 0,.alloc] := by
  have hlt : 10 < 2^32 - 7 := by decide
  obtain ⟨b,hb,h⟩ := bitmap_refines_set hlt
  refine ⟨b,hb,h _ ?_⟩
  obtain rfl := Except.ok.inj hb
  decide

end Sets

end Bitmap

end MipsOs
