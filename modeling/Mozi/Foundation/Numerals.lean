import Mathlib.Data.List.TakeWhile
import Mozi.Foundation.Digits

/-!
# Numerals — the texts a formatted extraction takes

`>> v` and `>> c` on a stream that is good, described by the text they take off the front: blanks,
a sign and decimal digits for a number (`Numeral`), blanks and one character for a character
(`Mark`).  Both lemmas go in both directions, so a chain of extractions succeeds exactly on the
texts of a grammar.
-/

namespace Mozi
namespace Foundation

variable {width : Nat} {ds cs rest blanks : List Char}

/-- The text does not start with a decimal digit. -/
def NoDigit (cs : List Char) : Prop :=
  ∀ c, cs.head? = some c → isDecDigit c = false

def Blank (cs : List Char) : Prop :=
  ∀ c ∈ cs, isSpace c = true

/-- A sign, and whether it is a minus. -/
inductive Sign : List Char → Bool → Prop
  | none : Sign [] false
  | plus : Sign ['+'] false
  | minus : Sign ['-'] true

/-- A text `>> v` takes for a number of an unsigned type with `width` bits, and the value it
stores. -/
def Numeral (width : Nat) (t : List Char) (v : Nat) : Prop :=
  ∃ blanks sign neg ds, t = blanks ++ (sign ++ ds) ∧ Blank blanks ∧ Sign sign neg ∧ ds ≠ [] ∧
    (∀ c ∈ ds, isDecDigit c = true) ∧ decValue ds < 2 ^ width ∧
    v = if neg then (2 ^ width - decValue ds) % 2 ^ width else decValue ds

/-- A text `>> c` takes for a character. -/
def Mark (t : List Char) (c : Char) : Prop :=
  ∃ blanks, t = blanks ++ [c] ∧ Blank blanks ∧ isSpace c = false

namespace InputStream

/-! ## Blanks, signs and digits -/

theorem dropWhile_blank (hb : Blank blanks) (hcs : ∀ c, cs.head? = some c → isSpace c = false) :
    (blanks ++ cs).dropWhile isSpace = cs := by
  rw [List.dropWhile_append_of_pos hb]
  cases cs with
  | nil =>
      rfl
  | cons c cs =>
      simp [hcs c rfl]

theorem exists_blank (cs : List Char) :
    ∃ blanks, cs = blanks ++ cs.dropWhile isSpace ∧ Blank blanks :=
  ⟨cs.takeWhile isSpace, List.takeWhile_append_dropWhile.symm, fun _ hc =>
    List.mem_takeWhile_imp hc⟩

theorem exists_digits (cs : List Char) :
    ∃ ds rest, cs = ds ++ rest ∧ (∀ c ∈ ds, isDecDigit c = true) ∧ NoDigit rest := by
  refine ⟨cs.takeWhile isDecDigit, cs.dropWhile isDecDigit, List.takeWhile_append_dropWhile.symm,
    fun _ hc => List.mem_takeWhile_imp hc, ?_⟩
  intro c hc
  have hhead := List.head?_dropWhile_not isDecDigit cs
  rw [hc] at hhead
  simpa using hhead

theorem readSign_sign {sign : List Char} {neg : Bool} (hsign : Sign sign neg) (hne : ds ≠ [])
    (hds : ∀ c ∈ ds, isDecDigit c = true) :
    readSign (sign ++ ds ++ rest) = (neg, ds ++ rest) := by
  cases hsign with
  | none => exact readSign_digits hne hds
  | plus => rfl
  | minus => rfl

theorem exists_sign (cs : List Char) :
    ∃ sign rest, cs = sign ++ rest ∧ Sign sign (readSign cs).1 ∧ (readSign cs).2 = rest := by
  unfold readSign
  split
  · exact ⟨_, _, rfl, .minus, rfl⟩
  · exact ⟨_, _, rfl, .plus, rfl⟩
  · exact ⟨[], _, rfl, .none, rfl⟩

/-- What `num_get` makes of digits behind a sign. -/
theorem readUnsigned_digits (hds : ∀ c ∈ ds, isDecDigit c = true) (hrest : NoDigit rest)
    {neg : Bool} (hsign : readSign cs = (neg, ds ++ rest)) :
    readUnsigned width 10 cs =
      if ds.length = 0 then (0, true, rest)
      else if decValue ds > 2 ^ width - 1 then (2 ^ width - 1, true, rest)
      else (if neg then (2 ^ width - decValue ds) % 2 ^ width else decValue ds, false, rest) := by
  simp only [readUnsigned, hsign, Nat.reduceEqDiff, if_false, readDigits_append hds hrest,
    Nat.zero_add]
  rfl

/-! ## Numbers -/

/-- The sentry stops at the sign or at the first digit. -/
theorem sentry_number {sign : List Char} {neg : Bool} (hblank : Blank blanks)
    (hsign : Sign sign neg) (hne : ds ≠ []) (hds : ∀ c ∈ ds, isDecDigit c = true) :
    sentry ⟨blanks ++ (sign ++ ds) ++ rest, false, false⟩ =
      (true, ⟨sign ++ ds ++ rest, false, false⟩) := by
  have hfirst : ∀ c, (sign ++ ds ++ rest).head? = some c → isSpace c = false := by
    obtain ⟨d, ds, rfl⟩ := List.exists_cons_of_ne_nil hne
    have hd : isSpace d = false := not_isSpace_of_hex (hex_of_dec (hds d (by simp)))
    intro c hc
    cases hsign <;> cases hc
    · exact hd
    · rfl
    · rfl
  have hdrop : (blanks ++ (sign ++ ds) ++ rest).dropWhile isSpace = sign ++ ds ++ rest := by
    rw [List.append_assoc]
    exact dropWhile_blank hblank hfirst
  have hcons : ∃ c cs, sign ++ ds ++ rest = c :: cs := by
    apply List.exists_cons_of_ne_nil
    simp [hne]
  rcases hcons with ⟨c, cs, hcs⟩
  simp only [sentry, good, Bool.not_false, Bool.and_self, if_true, hdrop, hcs]

theorem sentry_failed {s s' : InputStream} (h : s.sentry = (false, s')) : s'.fail = true := by
  unfold sentry at h
  split_ifs at h
  · cases hdrop : s.rest.dropWhile isSpace with
    | nil =>
        rw [hdrop] at h
        cases h
        rfl
    | cons c cs =>
        rw [hdrop] at h
        cases h
  · cases h
    rfl

/-- What a stream holds where the sentry lets a number be read: blanks, a sign and as many digits
as there are. -/
theorem exists_number {s : InputStream} (h : s.sentry.1 = true) :
    ∃ blanks sign neg ds rest, s = ⟨blanks ++ (sign ++ ds) ++ rest, false, false⟩ ∧
      s.sentry.2.rest = sign ++ ds ++ rest ∧ Blank blanks ∧ Sign sign neg ∧
      readSign (sign ++ ds ++ rest) = (neg, ds ++ rest) ∧ (∀ c ∈ ds, isDecDigit c = true) ∧
      NoDigit rest := by
  obtain ⟨blanks, hblanks, hblank⟩ := exists_blank s.rest
  obtain ⟨sign, cs, hcs, hsign, hrest⟩ := exists_sign (s.rest.dropWhile isSpace)
  obtain ⟨ds, rest, hds, hdigits, hno⟩ := exists_digits cs
  have htext : s.rest.dropWhile isSpace = sign ++ ds ++ rest := by
    rw [hcs, hds, List.append_assoc]
  refine ⟨blanks, sign, _, ds, rest, ?_, ?_, hblank, hsign, ?_, hdigits, hno⟩
  · have hgood : s.good = true := by
      by_contra hbad
      simp [sentry, hbad] at h
    have hflags : s.eof = false ∧ s.fail = false := by simpa [good] using hgood
    cases s
    simp_all
  · unfold sentry at h ⊢
    split_ifs at h ⊢ with hgood
    cases hdrop : s.rest.dropWhile isSpace with
    | nil =>
        simp [hdrop] at h
    | cons c cs' =>
        rw [← htext, hdrop]
  · rw [← htext]
    exact Prod.ext rfl (hrest.trans hds)

/-- `>> v` at a numeral. -/
theorem getUnsigned_numeral {t : List Char} {v : Nat} (ht : Numeral width t v)
    (hrest : NoDigit rest) (old : Option Nat) :
    getUnsigned width 10 ⟨t ++ rest, false, false⟩ old =
      (some v, ⟨rest, rest.isEmpty, false⟩) := by
  rcases ht with ⟨blanks, sign, neg, ds, rfl, hblank, hsign, hne, hds, hlt, rfl⟩
  have hread : readUnsigned width 10 (sign ++ ds ++ rest) = _ :=
    readUnsigned_digits hds hrest (readSign_sign hsign hne hds)
  rw [if_neg (by simpa using hne), if_neg (by omega)] at hread
  simp only [getUnsigned, sentry_number hblank hsign hne hds, hread]

/-- Where `>> v` does not fail it has taken a numeral. -/
theorem getUnsigned_ok {s : InputStream} {old : Option Nat}
    (h : (getUnsigned width 10 s old).2.fail = false) :
    s.fail = false ∧ ∃ t rest v, s.rest = t ++ rest ∧ Numeral width t v ∧ NoDigit rest ∧
      getUnsigned width 10 s old = (some v, ⟨rest, rest.isEmpty, false⟩) := by
  unfold getUnsigned at h
  rcases hs : s.sentry with ⟨ok, s'⟩
  rw [hs] at h
  cases ok with
  | false =>
      exact absurd h (by simp [sentry_failed hs])
  | true =>
      obtain ⟨blanks, sign, neg, ds, rest, rfl, htext, hblank, hsign, hread, hds, hno⟩ :=
        exists_number (s := s) (by rw [hs])
      have hnumber : readUnsigned width 10 s'.rest = _ :=
        readUnsigned_digits hds hno (by rw [← hread, ← htext, hs])
      simp only [hnumber] at h
      -- The two failures are excluded, and what is left is a numeral.
      split_ifs at h with hzero hbig
      have hne : ds ≠ [] := by simpa using hzero
      have hpos : 0 < 2 ^ width := Nat.two_pow_pos width
      have ht : ∃ v, Numeral width (blanks ++ (sign ++ ds)) v :=
        ⟨_, blanks, sign, neg, ds, rfl, hblank, hsign, hne, hds, by omega, rfl⟩
      obtain ⟨v, ht⟩ := ht
      exact ⟨rfl, _, rest, v, rfl, ht, hno, getUnsigned_numeral ht hno old⟩

/-! ## Characters -/

/-- `>> c` at a mark. -/
theorem getChar_mark {t : List Char} {c : Char} (ht : Mark t c) :
    getChar ⟨t ++ rest, false, false⟩ = (some c, ⟨rest, false, false⟩) := by
  rcases ht with ⟨blanks, rfl, hblank, hc⟩
  have hdrop : (blanks ++ [c] ++ rest).dropWhile isSpace = c :: rest := by
    rw [List.append_assoc]
    apply dropWhile_blank hblank
    intro d hd
    cases hd
    exact hc
  simp only [getChar, sentry, good, Bool.not_false, Bool.and_self, if_true, hdrop]
  rfl

/-- Blanks end at a character. -/
theorem exists_mark (h : ¬ Blank cs) : ∃ t c rest, cs = t ++ rest ∧ Mark t c := by
  obtain ⟨blanks, hblanks, hblank⟩ := exists_blank cs
  have hhead := List.head?_dropWhile_not isSpace cs
  cases hdrop : cs.dropWhile isSpace with
  | nil =>
      rw [hdrop, List.append_nil] at hblanks
      exact absurd (hblanks ▸ hblank) h
  | cons c rest =>
      have hc : isSpace c = false := by simpa [hdrop] using hhead
      refine ⟨blanks ++ [c], c, rest, ?_, blanks, rfl, hblank, hc⟩
      rw [hblanks, hdrop]
      simp

/-- Where `>> c` does not fail it has taken a mark. -/
theorem mark_of_getChar {s : InputStream} (h : s.getChar.2.fail = false) :
    s.eof = false ∧ s.fail = false ∧ ∃ t rest c, s.rest = t ++ rest ∧ Mark t c := by
  unfold getChar at h
  rcases hs : s.sentry with ⟨ok, s'⟩
  rw [hs] at h
  cases ok with
  | false =>
      exact absurd h (by simp [sentry_failed hs])
  | true =>
      have hgood : s.good = true := by
        by_contra hbad
        simp [sentry, hbad] at hs
      have hflags : s.eof = false ∧ s.fail = false := by simpa [good] using hgood
      have hblank : ¬ Blank s.rest := by
        intro hblank
        have hdrop := List.dropWhile_eq_nil_iff.2 hblank
        simp [sentry, hgood, hdrop] at hs
      obtain ⟨t, c, rest, hrest, ht⟩ := exists_mark hblank
      exact ⟨hflags.1, hflags.2, t, rest, c, hrest, ht⟩

theorem getChar_ok {s : InputStream} (h : s.getChar.2.fail = false) :
    s.fail = false ∧ ∃ t rest c, s.rest = t ++ rest ∧ Mark t c ∧
      s.getChar = (some c, ⟨rest, false, false⟩) := by
  rcases mark_of_getChar h with ⟨heof, hfail, t, rest, c, hrest, ht⟩
  refine ⟨hfail, t, rest, c, hrest, ht, ?_⟩
  have hs : s = ⟨t ++ rest, false, false⟩ := by
    cases s
    simp_all
  rw [hs]
  exact getChar_mark ht

end InputStream

end Foundation
end Mozi
