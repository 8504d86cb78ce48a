import Mathlib.Algebra.Group.Int.Defs
import Mathlib.Algebra.Group.Nat.Defs
import Mathlib.Data.Int.Basic

/-! Error codes of kern/include/kern/errno.h, and conversions between int and the unsigned 32-bit
types. -/

set_option autoImplicit false
namespace MipsOs

inductive Errno where
  | EINVAL | EFAULT | ENAMETOOLONG | ENOMEM | EIO | ENOENT | ENOTDIR | EISDIR | EEXIST
  | EXDEV | EAGAIN | ESPIPE | EUNIMP | ENXIO | ENODEV | EBUSY | EIOCTL | ENOTEMPTY
  | ERANGE | ENOSPC | EMFILE | ENFILE | ENOSYS | ENOEXEC | E2BIG | EBADF
  deriving DecidableEq, Repr

def Errno.code : Errno → Nat
  | .EINVAL => 1
  | .EFAULT => 2
  | .ENAMETOOLONG => 3
  | .ENOMEM => 4
  | Errno.EIO => 5
  | .ENOENT => 6
  | .ENOTDIR => 7
  | .EISDIR => 8
  | .EEXIST => 9
  | .EXDEV => 10
  | .EAGAIN => 11
  | .ESPIPE => 12
  | .EUNIMP => 13
  | Errno.ENXIO => 14
  | .ENODEV => 15
  | .EBUSY => 16
  | .EIOCTL => 17
  | .ENOTEMPTY => 18
  | .ERANGE => 19
  | .ENOSPC => 20
  | .EMFILE => 21
  | .ENFILE => 22
  | .ENOSYS => 23
  | .ENOEXEC => 24
  | .E2BIG => 25
  | .EBADF => 26

/-- Conversion of an unsigned 32-bit value to int. -/
def toInt32 (n : Nat) : Int := Int.bmod n (2^32)

/-- Conversion of an int to an unsigned 32-bit value. -/
def toU32 (i : Int) : Nat := (i % 2^32).toNat

variable {i : Int} {n : Nat}

theorem toU32_of_lt (h0 : 0 ≤ i) (h : i < 2^32) : (toU32 i : Int) = i := by
  unfold toU32
  omega

theorem toInt32_of_lt (h : n < 2^31) : toInt32 n = n := by
  unfold toInt32
  rw [Int.bmod_def]
  omega

theorem toInt32_of_ge (h : 2^31 ≤ n) (hlt : n < 2^32) : toInt32 n = n - 2^32 := by
  unfold toInt32
  rw [Int.bmod_def]
  omega

theorem toU32_of_nonneg (h : 0 ≤ i) (hlt : i < 2^32) : toU32 i = i.toNat := by
  unfold toU32
  omega

theorem toU32_of_neg (h : i < 0) (hge : -2^32 ≤ i) : toU32 i = (i + 2^32).toNat := by
  unfold toU32
  omega

theorem toU32_natCast (h : n < 2^32) : toU32 (n : Int) = n := by
  unfold toU32
  omega

theorem toU32_tdiv (h : n < 2^32) (m : Nat) : toU32 ((n : Int).tdiv m) = n / m := by
  have hle := Nat.div_le_self n m
  rw [Int.tdiv_eq_ediv_of_nonneg (by omega),← Int.natCast_ediv,toU32_natCast (by omega)]

theorem toU32_tmod (h : n < 2^32) (m : Nat) : toU32 ((n : Int).tmod m) = n % m := by
  have hle := Nat.mod_le n m
  rw [Int.tmod_eq_emod_of_nonneg (by omega),← Int.natCast_emod,toU32_natCast (by omega)]

end MipsOs
