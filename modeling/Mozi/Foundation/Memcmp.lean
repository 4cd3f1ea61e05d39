import Mathlib.Algebra.Group.Int.Defs
import Mathlib.Algebra.Group.Nat.Defs
import Mathlib.Data.List.Lex
import Mathlib.Tactic.Common

/-!
# Memcmp — comparing blocks of bytes

`memcmp` decides the lexicographic order of two blocks of one length, and that order is the order of
the numbers the blocks spell with the first byte as the most significant one.  `StrictTotal` says
what a `<` and an `==` on the same values owe each other.
-/

namespace Mozi
namespace Foundation

/-- `lt` is a strict total order and `eq` its equality: one of the three cases holds, and no two. -/
structure StrictTotal {α : Type*} (lt eq : α → α → Bool) : Prop where
  exactlyOne : ∀ a b, (lt a b).toNat + (eq a b).toNat + (lt b a).toNat = 1
  trans : ∀ a b c, lt a b = true → lt b c = true → lt a c = true

/-- The difference of the first two bytes that are not the same. -/
def memcmp : List UInt8 → List UInt8 → Int
  | a :: as, b :: bs => if a = b then memcmp as bs else (a.toNat : Int) - b.toNat
  | _, _ => 0

variable {as bs : List UInt8}

theorem memcmp_cons_self {a : UInt8} : memcmp (a :: as) (a :: bs) = memcmp as bs := by
  simp [memcmp]

theorem memcmp_cons_ne {a b : UInt8} (hne : a ≠ b) :
    memcmp (a :: as) (b :: bs) = (a.toNat : Int) - b.toNat := by
  simp [memcmp, hne]

theorem toNat_ne {a b : UInt8} (hne : a ≠ b) : a.toNat ≠ b.toNat :=
  fun h => hne (UInt8.toNat_inj.1 h)

/-! ## The sign -/

theorem memcmp_eq_zero (hlen : as.length = bs.length) : memcmp as bs = 0 ↔ as = bs := by
  induction as generalizing bs with
  | nil =>
      have hnil : bs = [] := List.eq_nil_of_length_eq_zero hlen.symm
      simp [hnil, memcmp]
  | cons a as ih =>
      rcases bs with _ | ⟨b, bs⟩
      · simp at hlen
      have hlen' : as.length = bs.length := by simpa using hlen
      by_cases hab : a = b
      · subst hab
        rw [memcmp_cons_self, ih hlen']
        simp
      · rw [memcmp_cons_ne hab]
        have := toNat_ne hab
        simp only [List.cons.injEq, hab, false_and, iff_false]
        omega

theorem memcmp_neg (hlen : as.length = bs.length) : memcmp as bs < 0 ↔ as < bs := by
  induction as generalizing bs with
  | nil =>
      have hnil : bs = [] := List.eq_nil_of_length_eq_zero hlen.symm
      simp [hnil, memcmp]
  | cons a as ih =>
      rcases bs with _ | ⟨b, bs⟩
      · simp at hlen
      have hlen' : as.length = bs.length := by simpa using hlen
      rw [List.cons_lt_cons_iff]
      by_cases hab : a = b
      · subst hab
        rw [memcmp_cons_self, ih hlen']
        simp
      · rw [memcmp_cons_ne hab, UInt8.lt_iff_toNat_lt]
        simp only [hab, false_and, or_false]
        omega

/-- The other order of the arguments gives the other sign. -/
theorem memcmp_swap (as bs : List UInt8) : memcmp bs as = -memcmp as bs := by
  induction as generalizing bs with
  | nil =>
      cases bs <;> simp [memcmp]
  | cons a as ih =>
      rcases bs with _ | ⟨b, bs⟩
      · simp [memcmp]
      by_cases hab : a = b
      · subst hab
        rw [memcmp_cons_self, memcmp_cons_self, ih]
      · rw [memcmp_cons_ne hab, memcmp_cons_ne (Ne.symm hab)]
        omega

/-- A comparison of two blocks each: the second blocks count where the first ones are the same. -/
theorem memcmp_append (hlen : as.length = bs.length) (cs ds : List UInt8) :
    memcmp (as ++ cs) (bs ++ ds) =
      if memcmp as bs = 0 then memcmp cs ds else memcmp as bs := by
  induction as generalizing bs with
  | nil =>
      have hnil : bs = [] := List.eq_nil_of_length_eq_zero hlen.symm
      simp [hnil, memcmp]
  | cons a as ih =>
      rcases bs with _ | ⟨b, bs⟩
      · simp at hlen
      have hlen' : as.length = bs.length := by simpa using hlen
      simp only [List.cons_append]
      by_cases hab : a = b
      · subst hab
        rw [memcmp_cons_self, memcmp_cons_self, ih hlen']
      · have := toNat_ne hab
        rw [memcmp_cons_ne hab, memcmp_cons_ne hab, if_neg (by omega)]

/-! ## Numbers -/

/-- The number that the bytes spell, the most significant one first. -/
def bigEndian : List UInt8 → Nat
  | [] => 0
  | b :: bs => b.toNat * 256 ^ bs.length + bigEndian bs

theorem bigEndian_cons (b : UInt8) (bs : List UInt8) :
    bigEndian (b :: bs) = b.toNat * 256 ^ bs.length + bigEndian bs := rfl

theorem bigEndian_lt (bs : List UInt8) : bigEndian bs < 256 ^ bs.length := by
  induction bs with
  | nil => simp [bigEndian]
  | cons b bs ih =>
      rw [bigEndian_cons, List.length_cons, Nat.pow_succ]
      have hb : b.toNat + 1 ≤ 256 := b.toNat_lt
      have := Nat.mul_le_mul_right (256 ^ bs.length) hb
      rw [Nat.add_mul] at this
      omega

/-- The bytes are compared as their numbers are. -/
theorem memcmp_neg_iff_bigEndian (hlen : as.length = bs.length) :
    memcmp as bs < 0 ↔ bigEndian as < bigEndian bs := by
  induction as generalizing bs with
  | nil =>
      have hnil : bs = [] := List.eq_nil_of_length_eq_zero hlen.symm
      simp [hnil, memcmp]
  | cons a as ih =>
      rcases bs with _ | ⟨b, bs⟩
      · simp at hlen
      have hlen' : as.length = bs.length := by simpa using hlen
      rw [bigEndian_cons, bigEndian_cons, ← hlen']
      by_cases hab : a = b
      · subst hab
        rw [memcmp_cons_self, ih hlen']
        omega
      · -- The first byte outweighs the rest of both blocks.
        rw [memcmp_cons_ne hab]
        have ha := bigEndian_lt as
        have hb := bigEndian_lt bs
        rw [← hlen'] at hb
        rcases Nat.lt_or_gt_of_ne (toNat_ne hab) with hlt | hgt
        · have := Nat.mul_le_mul_right (256 ^ as.length) (Nat.succ_le_of_lt hlt)
          rw [Nat.succ_mul] at this
          omega
        · have := Nat.mul_le_mul_right (256 ^ as.length) (Nat.succ_le_of_lt hgt)
          rw [Nat.succ_mul] at this
          omega

end Foundation
end Mozi
