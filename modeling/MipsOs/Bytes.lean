import Mathlib.Tactic.Ring

/-! Byte buffers as functions from offsets, copying between them, and
big-endian numbers inside them. -/

set_option autoImplicit false
namespace MipsOs.Bytes

abbrev Byte : Type := BitVec 8

abbrev Buffer : Type := Nat → Byte

def zeros : Buffer := fun _ => 0

def splice (dst : Buffer) (i n : Nat) (src : Buffer) (k : Nat) : Buffer := fun j =>
  if i ≤ j ∧ j < i + n then src (j - i + k) else dst j

variable {dst src b c : Buffer} {i n k j : Nat}

theorem splice_inside (h : i ≤ j) (h' : j < i + n) : splice dst i n src k j = src (j - i + k) := by
  simp [splice,h,h']

theorem splice_outside (h : j < i ∨ i + n ≤ j) : splice dst i n src k j = dst j := by
  simp only [splice,ite_eq_right_iff,and_imp]
  omega

@[simp] theorem splice_nothing (dst src : Buffer) (i k : Nat) : splice dst i 0 src k = dst := by
  funext j
  exact splice_outside (by omega)

theorem splice_one (dst src : Buffer) (i k : Nat) :
    splice dst i 1 src k = fun j => if j = i then src k else dst j := by
  funext j
  by_cases hj : j = i
  · subst hj
    rw [splice_inside (Nat.le_refl _) (Nat.lt_succ_self _),Nat.sub_self,Nat.zero_add,if_pos rfl]
  · rw [splice_outside (by omega),if_neg hj]

theorem splice_congr (src' : Buffer)
    (h : ∀ j, j < n → src (k+j) = src' (k+j)) : splice dst i n src k = splice dst i n src' k := by
  funext j
  by_cases hj : i ≤ j ∧ j < i + n
  · rw [splice_inside hj.1 hj.2,splice_inside hj.1 hj.2,Nat.add_comm (j - i) k]
    exact h (j - i) (by omega)
  · rw [splice_outside (by omega),splice_outside (by omega)]

theorem splice_splice (dst src : Buffer) (i n m k : Nat) :
    splice (splice dst i n src k) (i+n) m src (k+n) = splice dst i (n+m) src k := by
  funext j
  by_cases hin : i + n ≤ j ∧ j < i + n + m
  · rw [splice_inside hin.1 hin.2,splice_inside (by omega) (by omega)]
    congr 1
    omega
  · rw [splice_outside (by omega)]
    by_cases hj : i ≤ j ∧ j < i + n
    · rw [splice_inside hj.1 hj.2,splice_inside hj.1 (by omega)]
    · rw [splice_outside (by omega),splice_outside (by omega)]

def be32Byte (n j : Nat) : Byte := BitVec.ofNat 8 (n / 256 ^ (3 - j))

def be32 (b : Buffer) (i : Nat) : Nat :=
  (b i).toNat * 256 ^ 3 + (b (i+1)).toNat * 256 ^ 2 + (b (i+2)).toNat * 256 + (b (i+3)).toNat

def be16Byte (n j : Nat) : Byte := BitVec.ofNat 8 (n / 256 ^ (1 - j))

def be16 (b : Buffer) (i : Nat) : Nat := (b i).toNat * 256 + (b (i+1)).toNat

theorem be32_lt (b : Buffer) (i : Nat) : be32 b i < 2^32 := by
  have h0 := (b i).isLt
  have h1 := (b (i+1)).isLt
  have h2 := (b (i+2)).isLt
  have h3 := (b (i+3)).isLt
  unfold be32
  omega

theorem be16_lt (b : Buffer) (i : Nat) : be16 b i < 2^16 := by
  have h0 := (b i).isLt
  have h1 := (b (i+1)).isLt
  unfold be16
  omega

theorem be32_eq (hn : n < 2^32) (h : ∀ j, j < 4 → b (i+j) = be32Byte n j) : be32 b i = n := by
  have h0 := h 0 (by omega)
  have h1 := h 1 (by omega)
  have h2 := h 2 (by omega)
  have h3 := h 3 (by omega)
  simp only [Nat.add_zero] at h0
  simp only [be32,h0,h1,h2,h3,be32Byte,BitVec.toNat_ofNat]
  omega

theorem be16_eq (hn : n < 2^16) (h : ∀ j, j < 2 → b (i+j) = be16Byte n j) : be16 b i = n := by
  have h0 := h 0 (by omega)
  have h1 := h 1 (by omega)
  simp only [Nat.add_zero] at h0
  simp only [be16,h0,h1,be16Byte,BitVec.toNat_ofNat]
  omega

theorem be32_congr (h : ∀ j, j < 4 → b (i+j) = c (k+j)) : be32 b i = be32 c k := by
  have h0 := h 0 (by omega)
  simp only [Nat.add_zero] at h0
  simp only [be32,h0,h 1 (by omega),h 2 (by omega),h 3 (by omega)]

theorem be16_congr (h : ∀ j, j < 2 → b (i+j) = c (k+j)) : be16 b i = be16 c k := by
  have h0 := h 0 (by omega)
  simp only [Nat.add_zero] at h0
  simp only [be16,h0,h 1 (by omega)]

theorem be32_zero (h : ∀ j, j < 4 → b (i+j) = 0) : be32 b i = 0 :=
  be32_eq (by decide) fun j hj => by rw [h j hj]; simp [be32Byte]

theorem be16_zero (h : ∀ j, j < 2 → b (i+j) = 0) : be16 b i = 0 :=
  be16_eq (by decide) fun j hj => by rw [h j hj]; simp [be16Byte]

end MipsOs.Bytes
