import Mozi.Foundation.Extractions
import Mozi.Rtps.Locator.IPv4

/-!
# IPv4Acceptance — which texts `setIPv4` and `isIPv4` agree on

`setIPv4` accepts whatever four extractions of a number and three of a character take to the end
of the text: blanks, signs (a minus negates modulo `2 ^ 32`), any number of leading zeros and any
character between the numbers, since `ch` is never compared with a point.  `isIPv4` accepts the
dotted quads.  `setIPv4_agrees_iff` states that they disagree on exactly the loose texts, those of
the first kind that are not of the second.
-/

namespace Mozi
namespace Rtps
namespace IPLocator

open Foundation InputStream

variable {s p rest : List Char} {locator : Locator_t} {a b c d : Nat}

/-! ## The texts the extractions take -/

/-- A text `>> ch` takes between two numbers: it does not go on with the digits before it. -/
def Separator (p : List Char) : Prop :=
  NoDigit p ∧ ∃ c, Mark p c

/-- A text the seven extractions take to its end, and the numbers they store. -/
def StreamQuad (s : List Char) (a b c d : Nat) : Prop :=
  ∃ ta pa tb pb tc pc td, s = ta ++ (pa ++ (tb ++ (pb ++ (tc ++ (pc ++ td))))) ∧
    Numeral 32 ta a ∧ Separator pa ∧ Numeral 32 tb b ∧ Separator pb ∧ Numeral 32 tc c ∧
    Separator pc ∧ Numeral 32 td d

/-- Whether a text starts with a digit is decided by its first part. -/
theorem noDigit_append (hne : p ≠ []) : NoDigit (p ++ rest) ↔ NoDigit p := by
  cases p with
  | nil => exact absurd rfl hne
  | cons c p => simp [NoDigit]

/-- `ss >> a >> ch >> b >> ch >> c >> ch >> d` -/
def quad : List Extraction :=
  [.number, .mark, .number, .mark, .number, .mark, .number]

theorem extract_quad (ss : InputStream) :
    extract (getUInt32 10) quad ss =
      ([(extractQuad ss).a, (extractQuad ss).b, (extractQuad ss).c, (extractQuad ss).d],
        (extractQuad ss).ss) := by
  simp only [quad, extract, extractQuad]

theorem extracts_getUInt32 : Extracts (getUInt32 10) (Numeral 32) :=
  extracts_getUnsigned 32

/-- The texts of the chain that have no rest. -/
theorem streamQuad_iff : StreamQuad s a b c d ↔ Reads (Numeral 32) quad s [a, b, c, d] [] := by
  constructor
  · rintro ⟨ta, pa, tb, pb, tc, pc, td, rfl, ha, ⟨hna, ca, hma⟩, hb, ⟨hnb, cb, hmb⟩, hc,
      ⟨hnc, cc, hmc⟩, hd⟩
    have hlast : Reads (Numeral 32) [.number] td [d] [] := by
      have h : Reads (Numeral 32) [.number] (td ++ []) [d] [] :=
        .number hd (by simp [NoDigit]) .done
      rwa [List.append_nil] at h
    exact .number ha ((noDigit_append (mark_ne_nil hma)).2 hna) <| .mark hma <|
      .number hb ((noDigit_append (mark_ne_nil hmb)).2 hnb) <| .mark hmb <|
      .number hc ((noDigit_append (mark_ne_nil hmc)).2 hnc) <| .mark hmc hlast
  · intro h
    obtain ⟨ta, ra, rfl, ha, hna, h⟩ := reads_number.1 h
    obtain ⟨pa, rb, ca, rfl, hma, h⟩ := reads_mark.1 h
    obtain ⟨tb, rb, rfl, hb, hnb, h⟩ := reads_number.1 h
    obtain ⟨pb, rc, cb, rfl, hmb, h⟩ := reads_mark.1 h
    obtain ⟨tc, rc, rfl, hc, hnc, h⟩ := reads_number.1 h
    obtain ⟨pc, rd, cc, rfl, hmc, h⟩ := reads_mark.1 h
    obtain ⟨td, rd, rfl, hd, _, h⟩ := reads_number.1 h
    obtain ⟨_, rfl⟩ := reads_done.1 h
    refine ⟨ta, pa, tb, pb, tc, pc, td, by rw [List.append_nil], ha, ⟨?_, ca, hma⟩, hb,
      ⟨?_, cb, hmb⟩, hc, ⟨?_, cc, hmc⟩, hd⟩
    · exact (noDigit_append (mark_ne_nil hma)).1 hna
    · exact (noDigit_append (mark_ne_nil hmb)).1 hnb
    · exact (noDigit_append (mark_ne_nil hmc)).1 hnc

/-- Where the extractions do not fail they have read a text of the chain. -/
theorem reads_of_extractQuad (hfail : (extractQuad (.ofText s)).ss.fail = false)
    (ha : (extractQuad (.ofText s)).a = some a) (hb : (extractQuad (.ofText s)).b = some b)
    (hc : (extractQuad (.ofText s)).c = some c) (hd : (extractQuad (.ofText s)).d = some d) :
    Reads (Numeral 32) quad s [a, b, c, d] (extractQuad (.ofText s)).ss.rest := by
  have hfail' : (extract (getUInt32 10) quad (.ofText s)).2.fail = false := by
    rw [extract_quad]
    exact hfail
  obtain ⟨_, vs, hreads, hvs⟩ := extract_ok extracts_getUInt32 hfail'
  simp only [extract_quad, ha, hb, hc, hd] at hreads hvs
  have hvalues : vs = [a, b, c, d] := by
    apply List.map_injective_iff.2 (Option.some_injective Nat)
    exact hvs.symm
  rwa [hvalues] at hreads

/-! ## What `setIPv4` does -/

def isV4 (locator : Locator_t) : Prop :=
  locator.kind = LOCATOR_KIND_UDPv4 ∨ locator.kind = LOCATOR_KIND_TCPv4

/-- The four numbers at the end of the address. -/
def octets (locator : Locator_t) : List Nat :=
  [byteAt locator.address 12, byteAt locator.address 13, byteAt locator.address 14,
    byteAt locator.address 15]

def AllOctets (a b c d : Nat) : Prop :=
  a ≤ 255 ∧ b ≤ 255 ∧ c ≤ 255 ∧ d ≤ 255

theorem octets_setOctets (h : AllOctets a b c d) :
    octets (setOctets locator a b c d) = [a, b, c, d] := by
  rcases h with ⟨ha, hb, hc, hd⟩
  have hmod : ∀ n ≤ 255, n % 256 = n := fun n hn => Nat.mod_eq_of_lt (by omega)
  simp [octets, byteAt, setOctets, hmod a ha, hmod b hb, hmod c hc, hmod d hd]

theorem setIPv4_reads (hkind : isV4 locator) (h : Reads (Numeral 32) quad s [a, b, c, d] rest)
    (hle : AllOctets a b c d) :
    setIPv4 locator s = (rest.length == 0, setOctets locator a b c d) := by
  have hkind' : ¬ (locator.kind ≠ LOCATOR_KIND_TCPv4 ∧ locator.kind ≠ LOCATOR_KIND_UDPv4) := by
    rintro ⟨htcp, hudp⟩
    exact hkind.elim hudp htcp
  have hle' : ¬ (a > 255 ∨ b > 255 ∨ c > 255 ∨ d > 255) := by
    rcases hle with ⟨ha, hb, hc, hd⟩
    omega
  obtain ⟨eof, hextract⟩ := extract_reads extracts_getUInt32 h false (by simp)
  have hquad := hextract
  simp only [extract_quad, List.map_cons, List.map_nil, Prod.mk.injEq, List.cons.injEq,
    and_true] at hquad
  obtain ⟨⟨ha, hb, hc, hd⟩, hss⟩ := hquad
  simp only [setIPv4, if_neg hkind', InputStream.ofText, ha, hb, hc, hd, hss, if_neg hle', inAvail]

/-- On every other text nothing is stored. -/
theorem setIPv4_untouched (h : ¬ ∃ a b c d rest, Reads (Numeral 32) quad s [a, b, c, d] rest ∧
    AllOctets a b c d) : setIPv4 locator s = (false, locator) := by
  unfold setIPv4
  split
  · rfl
  · dsimp only
    split
    · rename_i hfail ha hb hc hd
      split
      · rfl
      · rename_i hle
        refine absurd ⟨_, _, _, _, _, reads_of_extractQuad hfail ha hb hc hd, ?_⟩ h
        unfold AllOctets
        omega
    · rfl

theorem setIPv4_streamQuad (hkind : isV4 locator) (h : StreamQuad s a b c d)
    (hle : AllOctets a b c d) : setIPv4 locator s = (true, setOctets locator a b c d) :=
  setIPv4_reads hkind (streamQuad_iff.1 h) hle

/-- `setIPv4` accepts the texts the extractions take to the end, with numbers of at most 255. -/
theorem setIPv4_iff (hkind : isV4 locator) :
    (setIPv4 locator s).1 = true ↔ ∃ a b c d, StreamQuad s a b c d ∧ AllOctets a b c d := by
  constructor
  · intro h
    by_cases hreads : ∃ a b c d rest, Reads (Numeral 32) quad s [a, b, c, d] rest ∧
        AllOctets a b c d
    · obtain ⟨a, b, c, d, rest, hquad, hle⟩ := hreads
      rw [setIPv4_reads hkind hquad hle] at h
      have hrest : rest = [] := by simpa using h
      subst hrest
      exact ⟨a, b, c, d, streamQuad_iff.2 hquad, hle⟩
    · rw [setIPv4_untouched hreads] at h
      cases h
  · rintro ⟨a, b, c, d, hquad, hle⟩
    rw [setIPv4_streamQuad hkind hquad hle]

/-! ## Dotted quads -/

theorem Octet.numeral {t : List Char} {v : Nat} (h : Octet t v) : Numeral 32 t v := by
  rcases h with ⟨hne, _, hds, rfl, hle⟩
  refine ⟨[], [], false, t, rfl, by simp [Blank], .none, hne, hds, ?_, rfl⟩
  exact Nat.lt_of_le_of_lt hle (by decide)

theorem separator_point : Separator ['.'] :=
  ⟨by simp [NoDigit]; decide, '.', [], rfl, by simp [Blank], by decide⟩

theorem DottedQuad.streamQuad (h : DottedQuad s a b c d) :
    StreamQuad s a b c d ∧ AllOctets a b c d := by
  rcases h with ⟨ta, tb, tc, td, rfl, ha, hb, hc, hd⟩
  refine ⟨⟨ta, ['.'], tb, ['.'], tc, ['.'], td, by simp, ha.numeral, separator_point, hb.numeral,
    separator_point, hc.numeral, separator_point, hd.numeral⟩, ?_⟩
  exact ⟨ha.2.2.2.2, hb.2.2.2.2, hc.2.2.2.2, hd.2.2.2.2⟩

theorem octet_toDigits {v : Nat} (h : v ≤ 255) : Octet (Nat.toDigits 10 v) v := by
  refine ⟨Nat.toDigits_ne_nil, ?_, isDecDigit_toDigits v, decValue_toDigits v, h⟩
  exact (Nat.length_toDigits_le_iff (by decide) (by decide)).2 (by omega)

/-- What is printed for an address is a dotted quad. -/
theorem dottedQuad_toIPv4String (locator : Locator_t) :
    DottedQuad (toIPv4String locator) (byteAt locator.address 12) (byteAt locator.address 13)
      (byteAt locator.address 14) (byteAt locator.address 15) := by
  have hbyte : ∀ i, byteAt locator.address i ≤ 255 := by
    intro i
    have h : byteAt locator.address i < 256 := UInt8.toNat_lt _
    omega
  exact ⟨_, _, _, _, rfl, octet_toDigits (hbyte 12), octet_toDigits (hbyte 13),
    octet_toDigits (hbyte 14), octet_toDigits (hbyte 15)⟩

/-! ## Agreement -/

/-- `setIPv4` and `isIPv4` agree on a text: one accepts it where the other does, the numbers stored
are the ones of the text, and printed they are read back into any locator. -/
structure AgreesWithValidator (locator : Locator_t) (s : List Char) : Prop where
  accepts : (setIPv4 locator s).1 = true ↔ isIPv4 s = true
  stores : (setIPv4 locator s).1 = true → ∃ a b c d, DottedQuad s a b c d ∧
    octets (setIPv4 locator s).2 = [a, b, c, d]
  reproduces : (setIPv4 locator s).1 = true → ∀ other, isV4 other →
    (setIPv4 other (toIPv4String (setIPv4 locator s).2)).1 = true ∧
      octets (setIPv4 other (toIPv4String (setIPv4 locator s).2)).2 = octets (setIPv4 locator s).2

/-- A text of four numbers of at most 255 as the extractions read them that is not written as a
dotted quad. -/
def Loose (s : List Char) : Prop :=
  (∃ a b c d, StreamQuad s a b c d ∧ AllOctets a b c d) ∧ ¬ ∃ a b c d, DottedQuad s a b c d

/-- `setIPv4` agrees with `isIPv4` on a text exactly if the text is not loose. -/
theorem setIPv4_agrees_iff (hkind : isV4 locator) :
    AgreesWithValidator locator s ↔ ¬ Loose s := by
  constructor
  · rintro hagrees ⟨hstream, hnot⟩
    have haccepted := (setIPv4_iff hkind).2 hstream
    exact hnot ((isIPv4_iff s).1 (hagrees.accepts.1 haccepted))
  · intro hloose
    have hdotted : (setIPv4 locator s).1 = true → ∃ a b c d, DottedQuad s a b c d := by
      intro h
      by_contra hnot
      exact hloose ⟨(setIPv4_iff hkind).1 h, hnot⟩
    refine ⟨⟨?_, ?_⟩, ?_, ?_⟩
    · intro h
      exact (isIPv4_iff s).2 (hdotted h)
    · intro h
      obtain ⟨a, b, c, d, hquad⟩ := (isIPv4_iff s).1 h
      exact (setIPv4_iff hkind).2 ⟨a, b, c, d, hquad.streamQuad⟩
    · intro h
      obtain ⟨a, b, c, d, hquad⟩ := hdotted h
      refine ⟨a, b, c, d, hquad, ?_⟩
      rw [setIPv4_streamQuad hkind hquad.streamQuad.1 hquad.streamQuad.2]
      exact octets_setOctets hquad.streamQuad.2
    · intro _ other hother
      -- What is printed is a dotted quad, whatever the text was.
      have hquad := (dottedQuad_toIPv4String (setIPv4 locator s).2).streamQuad
      rw [setIPv4_streamQuad hother hquad.1 hquad.2]
      exact ⟨rfl, octets_setOctets hquad.2⟩

/-- A new locator. -/
def newLocator : Locator_t :=
  { kind := LOCATOR_KIND_UDPv4
    port := 0
    address := LOCATOR_ADDRESS_INVALID }

/-- `127.0.0.1` is a dotted quad. -/
theorem setIPv4_agrees_iff_localhost :
    AgreesWithValidator newLocator ['1', '2', '7', '.', '0', '.', '0', '.', '1'] := by
  apply (setIPv4_agrees_iff (Or.inl rfl)).2
  rintro ⟨_, hnot⟩
  refine hnot ⟨127, 0, 0, 1, ['1', '2', '7'], ['0'], ['0'], ['1'], rfl, ?_, ?_, ?_, ?_⟩ <;>
    exact ⟨by decide, by decide, fun _ hc => isDecDigit_of_mem (by decide) hc, by decide, by decide⟩

/-- A text without a point: `setIPv4` accepts it and `isIPv4` does not. -/
theorem setIPv4_accepts_commas :
    setIPv4 newLocator ['1', ',', '2', ',', '3', ',', '4'] =
        (true, setOctets newLocator 1 2 3 4) ∧
      isIPv4 ['1', ',', '2', ',', '3', ',', '4'] = false := by
  refine ⟨by decide, ?_⟩
  cases h : isIPv4 ['1', ',', '2', ',', '3', ',', '4'] with
  | false =>
      rfl
  | true =>
      obtain ⟨_, _, _, _, ta, tb, tc, td, heq, _⟩ := (isIPv4_iff _).1 h
      have hpoint : '.' ∈ ['1', ',', '2', ',', '3', ',', '4'] := by
        rw [heq]
        simp
      exact absurd hpoint (by decide)

end IPLocator
end Rtps
end Mozi
