import Mathlib.Algebra.Group.Int.Defs
import Mathlib.Algebra.Group.Nat.Defs
import Mathlib.Tactic.Common

/-!
# UInt32 — `uint32_t` arithmetic on natural numbers
-/

namespace Mozi
namespace Foundation

/-- A value stored in a `uint32_t`. -/
def u32 (n : Nat) : Nat :=
  n % 2 ^ 32

/-- `a - b` in `uint32_t`. -/
def sub32 (a b : Nat) : Nat :=
  u32 (2 ^ 32 - b + a)

theorem zero_lt_u32 : 0 < 2 ^ 32 := by decide

theorem one_lt_u32 : 1 < 2 ^ 32 := by decide

theorem two_lt_u32 : 2 < 2 ^ 32 := by decide

theorem u32_lt (n : Nat) : u32 n < 2 ^ 32 :=
  Nat.mod_lt n zero_lt_u32

theorem u32_of_lt {n : Nat} (h : n < 2 ^ 32) : u32 n = n :=
  Nat.mod_eq_of_lt h

theorem sub32_of_le {a b : Nat} (hle : b ≤ a) (ha : a < 2 ^ 32) : sub32 a b = a - b := by
  unfold sub32 u32
  omega

end Foundation
end Mozi
