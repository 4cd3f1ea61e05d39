import Mozi.Foundation.UInt32
import Mathlib.Data.List.Basic

/-!
# InputStream — formatted input from a string

A model of `std::istream` on a string buffer: the characters that are left and the two state bits
`eof` and `fail`.  The module provides

* `getChar` and `getUInt32`, the extraction of a character and of an unsigned number;
* `getUntil`, the unformatted `get(streambuf, delim)`;
* what they do on a stream that is good, at its end, or has failed.
-/

namespace Mozi
namespace Foundation

/-! ## Characters -/

def isSpace (c : Char) : Bool :=
  c == ' ' || ('\t' ≤ c && c ≤ '\r')

/-- The value of a digit in a base up to 16, in either case. -/
def digitVal (base : Nat) (c : Char) : Option Nat :=
  let d :=
    if '0' ≤ c ∧ c ≤ '9' then some (c.toNat - '0'.toNat)
    else if 'a' ≤ c ∧ c ≤ 'f' then some (c.toNat - 'a'.toNat + 10)
    else if 'A' ≤ c ∧ c ≤ 'F' then some (c.toNat - 'A'.toNat + 10)
    else none
  d.filter fun d => decide (d < base)

def isHexDigit (c : Char) : Bool :=
  (digitVal 16 c).isSome

theorem not_isSpace_of_hex {c : Char} (h : isHexDigit c = true) : isSpace c = false := by
  cases hs : isSpace c with
  | false =>
      rfl
  | true =>
      -- The digits come after the blanks in the character set.
      exfalso
      simp only [isSpace, Bool.or_eq_true, Bool.and_eq_true, beq_iff_eq, decide_eq_true_eq] at hs
      have hle : ¬ '0' ≤ c ∧ ¬ 'a' ≤ c ∧ ¬ 'A' ≤ c := by
        rcases hs with rfl | ⟨_, hc⟩
        · decide
        · have hlt : c.toNat ≤ 13 := hc
          refine ⟨fun h => ?_, fun h => ?_, fun h => ?_⟩
          · have : 48 ≤ c.toNat := h
            omega
          · have : 97 ≤ c.toNat := h
            omega
          · have : 65 ≤ c.toNat := h
            omega
      simp [isHexDigit, digitVal, hle.1, hle.2.1, hle.2.2] at h

theorem ne_of_hex {c d : Char} (h : isHexDigit c = true) (hd : isHexDigit d = false) : c ≠ d := by
  rintro rfl
  rw [h] at hd
  cases hd

/-- A hexadecimal digit is less than 16. -/
theorem digitVal_lt {base d : Nat} {c : Char} (h : digitVal base c = some d) : d < base := by
  have := Option.filter_eq_some_iff.1 h
  simpa using this.2

/-! ## The stream -/

structure InputStream where
  rest : List Char
  eof : Bool
  fail : Bool
deriving DecidableEq

namespace InputStream

/-- A stream on a string. -/
def ofText (text : List Char) : InputStream :=
  ⟨text, false, false⟩

def good (s : InputStream) : Bool :=
  !s.eof && !s.fail

def clear (s : InputStream) : InputStream :=
  { s with eof := false, fail := false }

/-- `rdbuf()->in_avail()`: the characters left in the buffer. -/
def inAvail (s : InputStream) : Nat :=
  s.rest.length

/-- The sentry of a formatted extraction: it skips blanks, and fails at the end of the buffer. -/
def sentry (s : InputStream) : Bool × InputStream :=
  if s.good then
    match s.rest.dropWhile isSpace with
    | [] => (false, ⟨[], true, true⟩)
    | c :: cs => (true, ⟨c :: cs, false, false⟩)
  else
    (false, { s with fail := true })

/-- `>> c`; the character itself is `none` where the sentry fails. -/
def getChar (s : InputStream) : Option Char × InputStream :=
  match s.sentry with
  | (true, s) => (s.rest.head?, { s with rest := s.rest.tail })
  | (false, s) => (none, s)

/-- `get(streambuf, delim)`: the characters up to the delimiter, which stays in the buffer. -/
def getUntil (s : InputStream) (delim : Char) : List Char × InputStream :=
  if s.good then
    let value := s.rest.takeWhile (· != delim)
    let rest := s.rest.dropWhile (· != delim)
    (value, ⟨rest, rest.isEmpty, value.isEmpty⟩)
  else
    ([], { s with fail := true })

/-! ## Numbers -/

/-- The digits at the front: their value on top of `acc`, how many they are, and the rest. -/
def readDigits (base : Nat) : Nat → Nat → List Char → Nat × Nat × List Char
  | acc, count, [] => (acc, count, [])
  | acc, count, c :: cs =>
      match digitVal base c with
      | some d => readDigits base (acc * base + d) (count + 1) cs
      | none => (acc, count, c :: cs)

/-- An optional sign: is it a minus? -/
def readSign : List Char → Bool × List Char
  | '-' :: cs => (true, cs)
  | '+' :: cs => (false, cs)
  | cs => (false, cs)

/-- The prefix `0x`, which a hexadecimal number may have. -/
def skipPrefix : List Char → List Char
  | '0' :: 'x' :: cs => cs
  | '0' :: 'X' :: cs => cs
  | cs => cs

/-- What `num_get` makes of the characters: the value, whether it is a failure, and the rest.
Without a digit the value is 0, above the range it is the largest one, and a minus sign negates it
modulo `2 ^ 32`. -/
def readNumber (base : Nat) (cs : List Char) : Nat × Bool × List Char :=
  let (neg, cs) := readSign cs
  let (value, count, rest) := readDigits base 0 0 (if base = 16 then skipPrefix cs else cs)
  if count = 0 then (0, true, rest)
  else if value > 2 ^ 32 - 1 then (2 ^ 32 - 1, true, rest)
  else (if neg then u32 (2 ^ 32 - value) else value, false, rest)

/-- `>> v` for a `uint32_t` with the old value `v`, which stays where the sentry fails. -/
def getUInt32 (base : Nat) (s : InputStream) (v : Option Nat) : Option Nat × InputStream :=
  match s.sentry with
  | (true, s) =>
      let (value, fail, rest) := readNumber base s.rest
      (some value, ⟨rest, rest.isEmpty, fail⟩)
  | (false, s) => (v, s)

/-- `readNumber` for a target type of any width. -/
def readUnsigned (width base : Nat) (cs : List Char) : Nat × Bool × List Char :=
  let (neg, cs) := readSign cs
  let (value, count, rest) := readDigits base 0 0 (if base = 16 then skipPrefix cs else cs)
  if count = 0 then (0, true, rest)
  else if value > 2 ^ width - 1 then (2 ^ width - 1, true, rest)
  else (if neg then (2 ^ width - value) % 2 ^ width else value, false, rest)

/-- `>> v` for an unsigned type with `width` bits. -/
def getUnsigned (width base : Nat) (s : InputStream) (v : Option Nat) :
    Option Nat × InputStream :=
  match s.sentry with
  | (true, s) =>
      let (value, fail, rest) := readUnsigned width base s.rest
      (some value, ⟨rest, rest.isEmpty, fail⟩)
  | (false, s) => (v, s)

/-! ## Good streams -/

variable {c : Char} {cs ds : List Char}

theorem sentry_cons (hc : isSpace c = false) :
    sentry ⟨c :: cs, false, false⟩ = (true, ⟨c :: cs, false, false⟩) := by
  simp [sentry, good, hc]

theorem getChar_cons (hc : isSpace c = false) :
    getChar ⟨c :: cs, false, false⟩ = (some c, ⟨cs, false, false⟩) := by
  simp [getChar, sentry_cons hc]

/-- A digit is no sign. -/
theorem readSign_hex (hc : isHexDigit c = true) : readSign (c :: cs) = (false, c :: cs) := by
  have hminus : c ≠ '-' := ne_of_hex hc (by decide)
  have hplus : c ≠ '+' := ne_of_hex hc (by decide)
  unfold readSign
  split
  · rename_i h
    exact absurd (List.cons.inj h).1 hminus
  · rename_i h
    exact absurd (List.cons.inj h).1 hplus
  · rfl

/-- Nothing is read from a stream that has failed. -/
theorem getUInt32_failed {s : InputStream} {base : Nat} (h : s.fail = true) (v : Option Nat) :
    getUInt32 base s v = (v, s) := by
  cases s
  cases h
  simp [getUInt32, sentry, good]

theorem getChar_failed {s : InputStream} (h : s.fail = true) : s.getChar = (none, s) := by
  cases s
  cases h
  simp [getChar, sentry, good]

/-- The digits of a number end where a character is no digit. -/
theorem readDigits_append {base : Nat} (hds : ∀ c ∈ ds, (digitVal base c).isSome = true)
    (hcs : ∀ c, cs.head? = some c → (digitVal base c).isSome = false) (acc count : Nat) :
    readDigits base acc count (ds ++ cs) =
      (ds.foldl (fun acc c => acc * base + (digitVal base c).getD 0) acc, count + ds.length,
        cs) := by
  induction ds generalizing acc count with
  | nil =>
      cases cs with
      | nil =>
          rfl
      | cons c cs =>
          have hc : digitVal base c = none := by simpa using hcs c rfl
          simp [readDigits, hc]
  | cons d ds ih =>
      obtain ⟨v, hv⟩ := Option.isSome_iff_exists.1 (hds d (List.mem_cons_self ..))
      have hrest := ih (fun c hc => hds c (List.mem_cons_of_mem d hc)) (acc * base + v) (count + 1)
      simp only [List.cons_append, readDigits, hv, hrest, List.foldl_cons, Option.getD_some,
        List.length_cons, Prod.mk.injEq, true_and, and_true]
      omega

end InputStream

end Foundation
end Mozi
