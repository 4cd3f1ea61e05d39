import Mathlib.Computability.RegularExpressions
import Mozi.Foundation.Numerals
import Mozi.Rtps.Locator.IPLocator

/-!
# IPv4 — IPv4 text of a locator

`setIPv4` from a text, `isIPv4` and `toIPv4String` of `ip_locator.cc`, and the language of
`IPv4_REGEX`: four decimal fields of one to three digits, each at most 255, with points between
them (`isIPv4_iff`).
-/

namespace Mozi
namespace Rtps

open Foundation

def LOCATOR_KIND_UDPv4 : Int := 1

def LOCATOR_KIND_TCPv4 : Int := 4

namespace IPLocator

/-! ## The source -/

/-- `a`, `b`, `c`, `d` and the stream after the extractions. -/
structure Quad where
  a : Option Nat
  b : Option Nat
  c : Option Nat
  d : Option Nat
  ss : InputStream

/-- `ss >> a >> ch >> b >> ch >> c >> ch >> d`; `ch` is never looked at. -/
def extractQuad (ss : InputStream) : Quad :=
  let (a, ss) := ss.getUInt32 10 none
  let (_, ss) := ss.getChar
  let (b, ss) := ss.getUInt32 10 none
  let (_, ss) := ss.getChar
  let (c, ss) := ss.getUInt32 10 none
  let (_, ss) := ss.getChar
  let (d, ss) := ss.getUInt32 10 none
  ⟨a, b, c, d, ss⟩

/-- `locator.address[12] = (octet)a;` and so on. -/
def setOctets (locator : Locator_t) (a b c d : Nat) : Locator_t :=
  let address := locator.address.set 12 (UInt8.ofNat a)
  let address := address.set 13 (UInt8.ofNat b)
  let address := address.set 14 (UInt8.ofNat c)
  let address := address.set 15 (UInt8.ofNat d)
  { locator with address := address }

/-- `setIPv4(locator, ipv4)` -/
def setIPv4 (locator : Locator_t) (ipv4 : List Char) : Bool × Locator_t :=
  if locator.kind ≠ LOCATOR_KIND_TCPv4 ∧ locator.kind ≠ LOCATOR_KIND_UDPv4 then
    (false, locator)
  else
    let quad := extractQuad (.ofText ipv4)
    match quad.ss.fail, quad.a, quad.b, quad.c, quad.d with
    | false, some a, some b, some c, some d =>
        if a > 255 ∨ b > 255 ∨ c > 255 ∨ d > 255 then
          (false, locator)
        else
          (quad.ss.inAvail == 0, setOctets locator a b c d)
    | _, _, _, _, _ => (false, locator)

def toIPv4String (locator : Locator_t) : List Char :=
  Nat.toDigits 10 (byteAt locator.address 12) ++ ['.'] ++
    Nat.toDigits 10 (byteAt locator.address 13) ++ ['.'] ++
    Nat.toDigits 10 (byteAt locator.address 14) ++ ['.'] ++
    Nat.toDigits 10 (byteAt locator.address 15)

/-- A bracket expression. -/
def oneOf (cs : List Char) : RegularExpression Char :=
  cs.foldr (fun c r => .char c + r) 0

/-- `r?` -/
def optional (r : RegularExpression Char) : RegularExpression Char :=
  1 + r

def decDigits : List Char :=
  ['0', '1', '2', '3', '4', '5', '6', '7', '8', '9']

/-- `25[0-5]|2[0-4][0-9]|[01]?[0-9][0-9]?` -/
def IPv4_FIELD : RegularExpression Char :=
  .char '2' * .char '5' * oneOf ['0', '1', '2', '3', '4', '5'] +
    .char '2' * oneOf ['0', '1', '2', '3', '4'] * oneOf decDigits +
    optional (oneOf ['0', '1']) * oneOf decDigits * optional (oneOf decDigits)

def IPv4_REGEX : RegularExpression Char :=
  (IPv4_FIELD * .char '.') ^ 3 * IPv4_FIELD

def isIPv4 (address : List Char) : Bool :=
  IPv4_REGEX.rmatch address

/-! ## The fields -/

/-- One to three decimal digits with a value of at most 255. -/
def Octet (t : List Char) (v : Nat) : Prop :=
  t ≠ [] ∧ t.length ≤ 3 ∧ (∀ c ∈ t, isDecDigit c = true) ∧ decValue t = v ∧ v ≤ 255

theorem mem_oneOf {cs t : List Char} : t ∈ (oneOf cs).matches' ↔ ∃ c ∈ cs, t = [c] := by
  induction cs with
  | nil =>
      simp [oneOf]
  | cons c cs ih =>
      have hcons : oneOf (c :: cs) = .char c + oneOf cs := rfl
      have hchar : t ∈ (RegularExpression.char c).matches' ↔ t = [c] := Iff.rfl
      rw [hcons, RegularExpression.matches'_add, Language.mem_add, ih, hchar]
      simp

theorem mem_optional {r : RegularExpression Char} {t : List Char} :
    t ∈ (optional r).matches' ↔ t = [] ∨ t ∈ r.matches' := by
  simp [optional, Language.mem_add]

theorem isDecDigit_of_mem {l : List Char} (hl : l.all isDecDigit = true) {c : Char}
    (hc : c ∈ l) : isDecDigit c = true :=
  List.all_eq_true.1 hl c hc

theorem mem_decDigits {c : Char} : c ∈ decDigits ↔ isDecDigit c = true := by
  constructor
  · intro hc
    exact isDecDigit_of_mem (l := decDigits) (by decide) hc
  · intro hc
    obtain ⟨k, hk, rfl⟩ := exists_of_isDecDigit hc
    exact (by decide : ∀ k < 10, Char.ofNat (48 + k) ∈ decDigits) k hk

/-- The digits up to a bound. -/
theorem mem_digits_of_le {c : Char} (hc : isDecDigit c = true) :
    (c ∈ ['0', '1'] ↔ decValue [c] ≤ 1) ∧ (c = '2' ↔ decValue [c] = 2) ∧
      (c ∈ ['0', '1', '2', '3', '4'] ↔ decValue [c] ≤ 4) ∧ (c = '5' ↔ decValue [c] = 5) ∧
      (c ∈ ['0', '1', '2', '3', '4', '5'] ↔ decValue [c] ≤ 5) ∧ decValue [c] ≤ 9 := by
  obtain ⟨k, hk, rfl⟩ := exists_of_isDecDigit hc
  clear hc
  revert k
  decide

/-- The texts of a field, by the alternatives of the expression. -/
theorem mem_field {t : List Char} : t ∈ IPv4_FIELD.matches' ↔
    (∃ c ∈ ['0', '1', '2', '3', '4', '5'], t = ['2', '5', c]) ∨
      (∃ b ∈ ['0', '1', '2', '3', '4'], ∃ c ∈ decDigits, t = ['2', b, c]) ∨
      (∃ a, (a = [] ∨ ∃ x ∈ ['0', '1'], a = [x]) ∧ ∃ b ∈ decDigits,
        ∃ c, (c = [] ∨ ∃ y ∈ decDigits, c = [y]) ∧ t = a ++ [b] ++ c) := by
  have hchar : ∀ (c : Char) (t : List Char),
      t ∈ (RegularExpression.char c).matches' ↔ t = [c] := fun _ _ => Iff.rfl
  rw [IPv4_FIELD, RegularExpression.matches'_add, RegularExpression.matches'_add,
    Language.mem_add, Language.mem_add, or_assoc]
  simp only [RegularExpression.matches'_mul, Language.mem_mul, hchar, mem_oneOf, mem_optional]
  refine or_congr ?_ (or_congr ?_ ?_)
  · constructor
    · rintro ⟨_, ⟨_, rfl, _, rfl, rfl⟩, _, ⟨c, hc, rfl⟩, rfl⟩
      exact ⟨c, hc, rfl⟩
    · rintro ⟨c, hc, rfl⟩
      exact ⟨_, ⟨_, rfl, _, rfl, rfl⟩, _, ⟨c, hc, rfl⟩, rfl⟩
  · constructor
    · rintro ⟨_, ⟨_, rfl, _, ⟨b, hb, rfl⟩, rfl⟩, _, ⟨c, hc, rfl⟩, rfl⟩
      exact ⟨b, hb, c, hc, rfl⟩
    · rintro ⟨b, hb, c, hc, rfl⟩
      exact ⟨_, ⟨_, rfl, _, ⟨b, hb, rfl⟩, rfl⟩, _, ⟨c, hc, rfl⟩, rfl⟩
  · constructor
    · rintro ⟨_, ⟨a, ha, _, ⟨b, hb, rfl⟩, rfl⟩, c, hc, rfl⟩
      exact ⟨a, ha, b, hb, c, hc, rfl⟩
    · rintro ⟨a, ha, b, hb, c, hc, rfl⟩
      exact ⟨_, ⟨a, ha, _, ⟨b, hb, rfl⟩, rfl⟩, c, hc, rfl⟩

theorem decValue_two (a b : Char) : decValue [a, b] = decValue [a] * 10 + decValue [b] := by
  simp [decValue]

theorem decValue_three (a b c : Char) :
    decValue [a, b, c] = decValue [a] * 100 + decValue [b] * 10 + decValue [c] := by
  simp only [decValue, List.foldl_cons, List.foldl_nil]
  omega

/-- A field of the expression reads as at most 255. -/
theorem octet_of_mem_field {t : List Char} (ht : t ∈ IPv4_FIELD.matches') :
    Octet t (decValue t) := by
  rcases mem_field.1 ht with ⟨c, hc, rfl⟩ | ⟨b, hb, c, hc, rfl⟩ | ⟨a, ha, b, hb, c, hc, rfl⟩
  · have hdigit : isDecDigit c = true :=
      isDecDigit_of_mem (l := ['0', '1', '2', '3', '4', '5']) (by decide) hc
    have hvalue : decValue [c] ≤ 5 := (mem_digits_of_le hdigit).2.2.2.2.1.1 hc
    refine ⟨by simp, by simp, ?_, rfl, ?_⟩
    · simpa [hdigit] using (by decide : isDecDigit '2' = true ∧ isDecDigit '5' = true)
    · rw [decValue_three, show decValue ['2'] = 2 from rfl, show decValue ['5'] = 5 from rfl]
      omega
  · have hdigit : isDecDigit b = true :=
      isDecDigit_of_mem (l := ['0', '1', '2', '3', '4']) (by decide) hb
    have hvalue : decValue [b] ≤ 4 := (mem_digits_of_le hdigit).2.2.1.1 hb
    have hlast := (mem_digits_of_le (mem_decDigits.1 hc)).2.2.2.2.2
    refine ⟨by simp, by simp, ?_, rfl, ?_⟩
    · simpa [hdigit, mem_decDigits.1 hc] using (by decide : isDecDigit '2' = true)
    · rw [decValue_three, show decValue ['2'] = 2 from rfl]
      omega
  · -- A first digit of at most 1, where there is one, and one or two digits behind it.
    have hb' := mem_decDigits.1 hb
    have hbv := (mem_digits_of_le hb').2.2.2.2.2
    rcases ha with rfl | ⟨x, hx, rfl⟩ <;> rcases hc with rfl | ⟨y, hy, rfl⟩
    · refine ⟨by simp, by simp, by simpa using hb', rfl, ?_⟩
      simp only [List.nil_append, List.append_nil]
      omega
    · have hy' := mem_decDigits.1 hy
      have hyv := (mem_digits_of_le hy').2.2.2.2.2
      refine ⟨by simp, by simp, by simpa using ⟨hb', hy'⟩, rfl, ?_⟩
      have htwo := decValue_two b y
      simp only [List.nil_append, List.cons_append]
      omega
    · have hx' : isDecDigit x = true :=
        isDecDigit_of_mem (l := ['0', '1']) (by decide) hx
      have hxv := (mem_digits_of_le hx').1.1 hx
      refine ⟨by simp, by simp, by simpa using ⟨hx', hb'⟩, rfl, ?_⟩
      have htwo := decValue_two x b
      simp only [List.append_nil, List.cons_append, List.nil_append]
      omega
    · have hx' : isDecDigit x = true :=
        isDecDigit_of_mem (l := ['0', '1']) (by decide) hx
      have hxv := (mem_digits_of_le hx').1.1 hx
      have hy' := mem_decDigits.1 hy
      have hyv := (mem_digits_of_le hy').2.2.2.2.2
      refine ⟨by simp, by simp, by simpa using ⟨hx', hb', hy'⟩, rfl, ?_⟩
      have hthree := decValue_three x b y
      simp only [List.cons_append, List.nil_append]
      omega

/-- A decimal number of one to three digits and at most 255 is a field of the expression. -/
theorem Octet.mem_field {t : List Char} {v : Nat} (ht : Octet t v) :
    t ∈ IPv4_FIELD.matches' := by
  rcases ht with ⟨hne, hlen, hds, rfl, hle⟩
  rw [IPLocator.mem_field]
  match t, hne, hlen, hds, hle with
  | [b], _, _, hds, _ =>
      exact Or.inr (Or.inr ⟨[], Or.inl rfl, b, mem_decDigits.2 (hds b (by simp)), [],
        Or.inl rfl, rfl⟩)
  | [b, c], _, _, hds, _ =>
      exact Or.inr (Or.inr ⟨[], Or.inl rfl, b, mem_decDigits.2 (hds b (by simp)), [c],
        Or.inr ⟨c, mem_decDigits.2 (hds c (by simp)), rfl⟩, rfl⟩)
  | [a, b, c], _, _, hds, hle =>
      have ha := mem_digits_of_le (hds a (by simp))
      have hb := mem_digits_of_le (hds b (by simp))
      have hc := mem_digits_of_le (hds c (by simp))
      have hbd := mem_decDigits.2 (hds b (by simp))
      have hcd := mem_decDigits.2 (hds c (by simp))
      rw [decValue_three] at hle
      -- The first digit is at most 1, or the number starts with 2 and the others decide.
      by_cases hone : decValue [a] ≤ 1
      · exact Or.inr (Or.inr ⟨[a], Or.inr ⟨a, ha.1.2 hone, rfl⟩, b, hbd, [c],
          Or.inr ⟨c, hcd, rfl⟩, rfl⟩)
      · obtain rfl : a = '2' := ha.2.1.2 (by omega)
        have htwo : decValue ['2'] = 2 := rfl
        by_cases hfour : decValue [b] ≤ 4
        · exact Or.inr (Or.inl ⟨b, hb.2.2.1.2 hfour, c, hcd, rfl⟩)
        · obtain rfl : b = '5' := hb.2.2.2.1.2 (by omega)
          have hfive : decValue ['5'] = 5 := rfl
          exact Or.inl ⟨c, hc.2.2.2.2.1.2 (by omega), rfl⟩

/-! ## The language -/

/-- Four decimal fields with points between them, and their numbers. -/
def DottedQuad (s : List Char) (a b c d : Nat) : Prop :=
  ∃ ta tb tc td, s = ta ++ ['.'] ++ tb ++ ['.'] ++ tc ++ ['.'] ++ td ∧
    Octet ta a ∧ Octet tb b ∧ Octet tc c ∧ Octet td d

/-- `isIPv4` accepts the dotted quads and nothing else. -/
theorem isIPv4_iff (s : List Char) :
    isIPv4 s = true ↔ ∃ a b c d, DottedQuad s a b c d := by
  have hpoint : ∀ t : List Char, t ∈ (RegularExpression.char '.').matches' ↔ t = ['.'] :=
    fun _ => Iff.rfl
  rw [isIPv4, RegularExpression.rmatch_iff_matches', IPv4_REGEX]
  simp only [RegularExpression.matches'_mul, RegularExpression.matches'_pow, pow_succ, pow_zero,
    one_mul, Language.mem_mul, hpoint]
  constructor
  · rintro ⟨_, ⟨_, ⟨_, ⟨ta, ha, _, rfl, rfl⟩, _, ⟨tb, hb, _, rfl, rfl⟩, rfl⟩, _,
      ⟨tc, hc, _, rfl, rfl⟩, rfl⟩, td, hd, rfl⟩
    exact ⟨_, _, _, _, ta, tb, tc, td, by simp, octet_of_mem_field ha, octet_of_mem_field hb,
      octet_of_mem_field hc, octet_of_mem_field hd⟩
  · rintro ⟨a, b, c, d, ta, tb, tc, td, rfl, ha, hb, hc, hd⟩
    exact ⟨_, ⟨_, ⟨_, ⟨ta, ha.mem_field, _, rfl, rfl⟩, _, ⟨tb, hb.mem_field, _, rfl, rfl⟩, rfl⟩,
      _, ⟨tc, hc.mem_field, _, rfl, rfl⟩, rfl⟩, td, hd.mem_field, by simp⟩

end IPLocator

end Rtps
end Mozi
