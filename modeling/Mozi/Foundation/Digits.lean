import Mozi.Foundation.InputStream

/-!
# Digits — numbers printed and read back

The digits `std::ostream` prints for a number, `Nat.toDigits`, are digits of the same base, and the
fold with which `num_get` reads them gives the number back.
-/

namespace Mozi
namespace Foundation

variable {base v : Nat}

theorem digitVal_digitChar (hbase : base ≤ 16) {d : Nat} (hd : d < base) :
    digitVal base (Nat.digitChar d) = some d := by
  have hall : ∀ base < 17, ∀ d < base, digitVal base (Nat.digitChar d) = some d := by decide
  exact hall base (by omega) d hd

theorem toDigits_isSome (hone : 1 < base) (hbase : base ≤ 16) (v : Nat) :
    ∀ c ∈ Nat.toDigits base v, (digitVal base c).isSome = true := by
  induction v using Nat.strongRecOn with
  | ind v ih =>
      intro c hc
      -- The induction follows the division by the base.
      rw [Nat.toDigits_eq_if hone] at hc
      split_ifs at hc with hlt
      · rw [List.mem_singleton] at hc
        simp [hc, digitVal_digitChar hbase hlt]
      · rcases List.mem_append.1 hc with hc | hc
        · exact ih (v / base) (Nat.div_lt_self (by omega) hone) c hc
        · rw [List.mem_singleton] at hc
          simp [hc, digitVal_digitChar hbase (Nat.mod_lt v (by omega))]

/-- The digits that are printed are read as the same number. -/
theorem foldl_toDigits (hone : 1 < base) (hbase : base ≤ 16) (v : Nat) :
    (Nat.toDigits base v).foldl (fun acc c => acc * base + (digitVal base c).getD 0) 0 = v := by
  induction v using Nat.strongRecOn with
  | ind v ih =>
      rw [Nat.toDigits_eq_if hone]
      split_ifs with hlt
      · simp [digitVal_digitChar hbase hlt]
      · rw [List.foldl_append, ih (v / base) (Nat.div_lt_self (by omega) hone)]
        simp only [List.foldl_cons, List.foldl_nil,
          digitVal_digitChar hbase (Nat.mod_lt v (by omega)), Option.getD_some]
        calc
          v / base * base + v % base = base * (v / base) + v % base := by rw [Nat.mul_comm]
          _ = v := Nat.div_add_mod v base

/-! ## Decimal numbers -/

def isDecDigit (c : Char) : Bool :=
  (digitVal 10 c).isSome

/-- A digit is a digit of every larger base, with the same value. -/
theorem digitVal_mono {base' d : Nat} {c : Char} (hle : base ≤ base')
    (h : digitVal base c = some d) : digitVal base' c = some d := by
  unfold digitVal at h ⊢
  rcases Option.filter_eq_some_iff.1 h with ⟨hd, hlt⟩
  refine Option.filter_eq_some_iff.2 ⟨hd, ?_⟩
  have hlt' : d < base := by simpa using hlt
  simpa using Nat.lt_of_lt_of_le hlt' hle

theorem hex_of_dec {c : Char} (h : isDecDigit c = true) : isHexDigit c = true := by
  obtain ⟨d, hd⟩ := Option.isSome_iff_exists.1 h
  exact Option.isSome_iff_exists.2 ⟨d, digitVal_mono (by decide) hd⟩

/-- The decimal digits are the characters from `0` to `9`. -/
theorem exists_of_isDecDigit {c : Char} (h : isDecDigit c = true) :
    ∃ k < 10, c = Char.ofNat (48 + k) := by
  obtain ⟨d, hd⟩ := Option.isSome_iff_exists.1 h
  unfold digitVal at hd
  rcases Option.filter_eq_some_iff.1 hd with ⟨hval, hlt⟩
  have hlt' : d < 10 := by simpa using hlt
  split_ifs at hval with hdec hlower hupper
  · have h0 : 48 ≤ c.toNat := hdec.1
    have h9 : c.toNat ≤ 57 := hdec.2
    refine ⟨c.toNat - 48, by omega, ?_⟩
    rw [Nat.add_sub_cancel' h0, Char.ofNat_toNat]
  · -- The letters have values from 10 on.
    have hvalue : c.toNat - 97 + 10 = d := Option.some.inj hval
    omega
  · have hvalue : c.toNat - 65 + 10 = d := Option.some.inj hval
    omega

/-- The value of a text of decimal digits. -/
def decValue (ds : List Char) : Nat :=
  ds.foldl (fun acc c => acc * 10 + (digitVal 10 c).getD 0) 0

theorem decValue_toDigits (v : Nat) : decValue (Nat.toDigits 10 v) = v :=
  foldl_toDigits (by decide) (by decide) v

theorem isDecDigit_toDigits (v : Nat) : ∀ c ∈ Nat.toDigits 10 v, isDecDigit c = true :=
  toDigits_isSome (by decide) (by decide) v

namespace InputStream

variable {ds cs : List Char} {width : Nat}

/-- A text that starts with a digit has no sign. -/
theorem readSign_digits (hne : ds ≠ []) (hds : ∀ c ∈ ds, isDecDigit c = true) :
    readSign (ds ++ cs) = (false, ds ++ cs) := by
  obtain ⟨d, ds, rfl⟩ := List.exists_cons_of_ne_nil hne
  exact readSign_hex (hex_of_dec (hds d (by simp)))

/-- `>> v` at a decimal number that fits the type. -/
theorem getUnsigned_digits (hne : ds ≠ []) (hds : ∀ c ∈ ds, isDecDigit c = true)
    (hcs : ∀ c, cs.head? = some c → isDecDigit c = false) (hlt : decValue ds < 2 ^ width)
    (v : Option Nat) :
    getUnsigned width 10 ⟨ds ++ cs, false, false⟩ v =
      (some (decValue ds), ⟨cs, cs.isEmpty, false⟩) := by
  have hsentry : sentry ⟨ds ++ cs, false, false⟩ = (true, ⟨ds ++ cs, false, false⟩) := by
    obtain ⟨d, ds, rfl⟩ := List.exists_cons_of_ne_nil hne
    exact sentry_cons (not_isSpace_of_hex (hex_of_dec (hds d (by simp))))
  have hlen : 0 < ds.length := List.length_pos_iff.2 hne
  have hread : readUnsigned width 10 (ds ++ cs) = (decValue ds, false, cs) := by
    simp only [readUnsigned, readSign_digits hne hds, Nat.reduceEqDiff, if_false,
      readDigits_append hds hcs, Nat.zero_add]
    rw [if_neg (by omega), if_neg]
    · rfl
    · have hvalue : ds.foldl (fun acc c => acc * 10 + (digitVal 10 c).getD 0) 0 = decValue ds :=
        rfl
      omega
  simp only [getUnsigned, hsentry, hread]

end InputStream

end Foundation
end Mozi
