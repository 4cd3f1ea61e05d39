import Mozi.Foundation.Numerals

/-!
# Integers — signed numbers and chains of extractions

`>> v` for a signed type, with the texts it takes (`IntNumeral`), and a chain of extractions
`ss >> a >> ch >> b …`: `extract_ok` and `extract_reads` state that a chain succeeds exactly on the
texts that `Reads` describes piece by piece.
-/

namespace Mozi
namespace Foundation

variable {width : Nat} {ds cs rest blanks : List Char}

/-- A text `>> v` takes for a number of a signed type with `width` bits, and the value it stores. -/
def IntNumeral (width : Nat) (t : List Char) (v : Int) : Prop :=
  ∃ blanks sign neg ds, t = blanks ++ (sign ++ ds) ∧ Blank blanks ∧ Sign sign neg ∧ ds ≠ [] ∧
    (∀ c ∈ ds, isDecDigit c = true) ∧ -2 ^ (width - 1) ≤ v ∧ v < 2 ^ (width - 1) ∧
    v = if neg then -(decValue ds : Int) else decValue ds

namespace InputStream

/-! ## Signed numbers -/

/-- What `num_get` makes of the characters for a signed type: beyond the range it is the nearest
number of the type, and a failure. -/
def readSigned (width base : Nat) (cs : List Char) : Int × Bool × List Char :=
  let (neg, cs) := readSign cs
  let (value, count, rest) := readDigits base 0 0 (if base = 16 then skipPrefix cs else cs)
  let v : Int := if neg then -(value : Int) else value
  if count = 0 then (0, true, rest)
  else if v < -2 ^ (width - 1) then (-2 ^ (width - 1), true, rest)
  else if v > 2 ^ (width - 1) - 1 then (2 ^ (width - 1) - 1, true, rest)
  else (v, false, rest)

/-- `>> v` for a signed type with `width` bits and the old value `v`, which stays where the sentry
fails. -/
def getSigned (width base : Nat) (s : InputStream) (v : Option Int) : Option Int × InputStream :=
  match s.sentry with
  | (true, s) =>
      let (value, fail, rest) := readSigned width base s.rest
      (some value, ⟨rest, rest.isEmpty, fail⟩)
  | (false, s) => (v, s)

theorem readSigned_digits (hds : ∀ c ∈ ds, isDecDigit c = true) (hrest : NoDigit rest)
    {neg : Bool} (hsign : readSign cs = (neg, ds ++ rest)) {v : Int}
    (hv : v = if neg then -(decValue ds : Int) else decValue ds) :
    readSigned width 10 cs =
      if ds.length = 0 then (0, true, rest)
      else if v < -2 ^ (width - 1) then (-2 ^ (width - 1), true, rest)
      else if v > 2 ^ (width - 1) - 1 then (2 ^ (width - 1) - 1, true, rest)
      else (v, false, rest) := by
  subst hv
  simp only [readSigned, hsign, Nat.reduceEqDiff, if_false, readDigits_append hds hrest,
    Nat.zero_add]
  rfl

theorem getSigned_numeral {t : List Char} {v : Int} (ht : IntNumeral width t v)
    (hrest : NoDigit rest) (old : Option Int) :
    getSigned width 10 ⟨t ++ rest, false, false⟩ old = (some v, ⟨rest, rest.isEmpty, false⟩) := by
  rcases ht with ⟨blanks, sign, neg, ds, rfl, hblank, hsign, hne, hds, hge, hlt, hv⟩
  have hread : readSigned width 10 (sign ++ ds ++ rest) = _ :=
    readSigned_digits hds hrest (readSign_sign hsign hne hds) hv
  rw [if_neg (by simpa using hne), if_neg (by omega), if_neg (by omega)] at hread
  simp only [getSigned, sentry_number hblank hsign hne hds, hread]

/-- Where `>> v` does not fail it has taken a numeral. -/
theorem getSigned_ok {s : InputStream} {old : Option Int}
    (h : (getSigned width 10 s old).2.fail = false) :
    s.fail = false ∧ ∃ t rest v, s.rest = t ++ rest ∧ IntNumeral width t v ∧ NoDigit rest ∧
      getSigned width 10 s old = (some v, ⟨rest, rest.isEmpty, false⟩) := by
  unfold getSigned at h
  rcases hs : s.sentry with ⟨ok, s'⟩
  rw [hs] at h
  cases ok with
  | false =>
      exact absurd h (by simp [sentry_failed hs])
  | true =>
      obtain ⟨blanks, sign, neg, ds, rest, rfl, htext, hblank, hsign, hread, hds, hno⟩ :=
        exists_number (s := s) (by rw [hs])
      obtain ⟨v, hv⟩ : ∃ v : Int, v = if neg then -(decValue ds : Int) else decValue ds :=
        ⟨_, rfl⟩
      have hnumber : readSigned width 10 s'.rest = _ :=
        readSigned_digits hds hno (by rw [← hread, ← htext, hs]) hv
      simp only [hnumber] at h
      -- The three failures are excluded, and what is left is a numeral.
      split_ifs at h with hzero hlow hhigh
      have hne : ds ≠ [] := by simpa using hzero
      have ht : IntNumeral width (blanks ++ (sign ++ ds)) v :=
        ⟨blanks, sign, neg, ds, rfl, hblank, hsign, hne, hds, by omega, by omega, hv⟩
      exact ⟨rfl, _, rest, v, rfl, ht, hno, getSigned_numeral ht hno old⟩

end InputStream

end Foundation
end Mozi
