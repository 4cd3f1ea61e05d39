import Mozi.Rtps.Locator.IPv6Zones
import Mozi.Rtps.Locator.Wan

/-!
# Rejection — what a rejected text leaves

`setWan`, `setLanID` and the range check of `setIPv4` return before the first byte is stored.
`setIPv4` looks for the end of the text only after it has stored the numbers, and `setIPv6` clears
the address before it extracts anything: `rejectsUntouched_iff` lists the texts for which neither
matters.
-/

namespace Mozi
namespace Rtps
namespace IPLocator

open Foundation InputStream

variable {locator : Locator_t} {text : List Char} {shiftOut : Nat → Nat} {c : Int}

/-- The call returns, and a locator whose text it rejects is as it was. -/
def Untouched (locator : Locator_t) (result : Option (Bool × Locator_t)) : Prop :=
  ∃ ok l, result = some (ok, l) ∧ (ok = false → l = locator)

/-- Every setter that takes a text leaves the locator alone when it rejects the text. -/
structure RejectsUntouched (shiftOut : Nat → Nat) (c : Int) (locator : Locator_t)
    (text : List Char) : Prop where
  ipv4 : Untouched locator (some (setIPv4 locator text))
  ipv6 : Untouched locator (setIPv6 shiftOut locator text)
  wan : Untouched locator (some (setWan locator text))
  lan : Untouched locator (some (setLanID c locator text))

theorem untouched_some {result : Bool × Locator_t} :
    Untouched locator (some result) ↔ (result.1 = false → result.2 = locator) := by
  constructor
  · rintro ⟨ok, l, h, hl⟩
    cases h
    exact hl
  · exact fun h => ⟨result.1, result.2, rfl, h⟩

/-! ## `setIPv4` -/

/-- Four octets with more text behind them. -/
def QuadWithRest (text : List Char) : Prop :=
  ∃ a b c d rest, Reads (Numeral 32) quad text [a, b, c, d] rest ∧ AllOctets a b c d ∧ rest ≠ []

/-- Some address has other octets than those that are stored. -/
theorem exists_other_octets (a b c d : Nat) (kind : Int) (port : Nat) :
    ∃ address, setOctets ⟨kind, port, address⟩ a b c d ≠ ⟨kind, port, address⟩ := by
  obtain ⟨x, hx⟩ : ∃ x : UInt8, UInt8.ofNat a ≠ x := by
    by_cases hzero : UInt8.ofNat a = 0
    · exact ⟨1, by rw [hzero]; decide⟩
    · exact ⟨0, hzero⟩
  refine ⟨Vector.replicate 16 x, fun h => hx ?_⟩
  have hbyte := congrArg (fun l : Locator_t => l.address[12]) h
  simpa [setOctets] using hbyte

theorem setIPv4_untouched_iff (kind : Int) (port : Nat) :
    (∀ address, Untouched ⟨kind, port, address⟩ (some (setIPv4 ⟨kind, port, address⟩ text))) ↔
      (kind = LOCATOR_KIND_UDPv4 ∨ kind = LOCATOR_KIND_TCPv4 → ¬ QuadWithRest text) := by
  constructor
  · rintro h hkind ⟨a, b, c, d, rest, hreads, hle, hrest⟩
    obtain ⟨address, hne⟩ := exists_other_octets a b c d kind port
    have hkind' : isV4 ⟨kind, port, address⟩ := hkind
    have hset := setIPv4_reads hkind' hreads hle
    have hlength : (rest.length == 0) = false := by simpa using hrest
    rw [hlength] at hset
    have h' := untouched_some.1 (h address)
    rw [hset] at h'
    exact hne (h' rfl)
  · intro h address
    rw [untouched_some]
    by_cases hreads : ∃ a b c d rest, Reads (Numeral 32) quad text [a, b, c, d] rest ∧
        AllOctets a b c d
    · intro hfalse
      by_cases hkind : kind = LOCATOR_KIND_UDPv4 ∨ kind = LOCATOR_KIND_TCPv4
      · obtain ⟨a, b, c, d, rest, hquad, hle⟩ := hreads
        have hkind' : isV4 ⟨kind, port, address⟩ := hkind
        rw [setIPv4_reads hkind' hquad hle] at hfalse
        have hrest : rest ≠ [] := by simpa using hfalse
        exact absurd ⟨a, b, c, d, rest, hquad, hle, hrest⟩ (h hkind)
      · have hother : kind ≠ LOCATOR_KIND_TCPv4 ∧ kind ≠ LOCATOR_KIND_UDPv4 := by
          rw [not_or] at hkind
          exact ⟨hkind.2, hkind.1⟩
        rw [setIPv4, if_pos hother]
    · rw [setIPv4_untouched hreads]
      exact fun _ => rfl

/-! ## `setIPv6` -/

/-- Some address is not the one that is left. -/
theorem exists_other_address (address : Vector UInt8 16) : ∃ other, address ≠ other := by
  by_cases hzero : address = Vector.replicate 16 0
  · exact ⟨Vector.replicate 16 1, by rw [hzero]; decide⟩
  · exact ⟨_, hzero⟩

theorem setIPv6_untouched_iff (kind : Int) (port : Nat) :
    (∀ address,
        Untouched ⟨kind, port, address⟩ (setIPv6 shiftOut ⟨kind, port, address⟩ text)) ↔
      (kind = LOCATOR_KIND_TCPv6 ∨ kind = LOCATOR_KIND_UDPv6 → IPv6isCorrect text = true →
        ReadToEnd shiftOut text) := by
  constructor
  · intro h hkind hcorrect
    rw [← accepts_iff hcorrect]
    have hkind' : ∀ address, IPv6Kind ⟨kind, port, address⟩ := fun _ => hkind
    cases hextract : extractGroups shiftOut text with
    | none =>
        obtain ⟨ok, l, hresult, _⟩ := h LOCATOR_ADDRESS_INVALID
        rw [setIPv6_correct (hkind' _) hcorrect, hextract] at hresult
        cases hresult
    | some p =>
        -- The address that is left does not depend on the one before.
        obtain ⟨other, hne⟩ := exists_other_address p.2.address
        obtain ⟨ok, l, hresult, hl⟩ := h other
        rw [setIPv6_correct (hkind' _) hcorrect, hextract] at hresult
        cases hresult
        by_contra hnot
        have hfalse : (p.1 && p.2.ss.inAvail == 0) = false := by
          by_contra htrue
          have hboth : p.1 = true ∧ p.2.ss.rest = [] := by
            simpa [inAvail] using htrue
          exact hnot ⟨p.2, by rw [hextract, ← hboth.1], hboth.2⟩
        exact hne (congrArg Locator_t.address (hl hfalse))
  · intro h address
    by_cases hkind : kind = LOCATOR_KIND_TCPv6 ∨ kind = LOCATOR_KIND_UDPv6
    · by_cases hcorrect : IPv6isCorrect text = true
      · obtain ⟨r, hr, hrest⟩ := (accepts_iff hcorrect).2 (h hkind hcorrect)
        refine ⟨true, { kind, port, address := r.address }, ?_, by simp⟩
        have hkind' : IPv6Kind ⟨kind, port, address⟩ := hkind
        rw [setIPv6_correct hkind' hcorrect, hr]
        simp [inAvail, hrest]
      · refine ⟨false, ⟨kind, port, address⟩, ?_, fun _ => rfl⟩
        simp [setIPv6, hcorrect]
    · refine ⟨false, ⟨kind, port, address⟩, ?_, fun _ => rfl⟩
      rw [not_or] at hkind
      simp [setIPv6, hkind.1, hkind.2]

/-! ## All setters -/

/-- The setters leave every address alone when they reject a text, unless four octets are followed
by more text, or the text passes the check of an IPv6 address and is not read to the end. -/
theorem rejectsUntouched_iff (shiftOut : Nat → Nat) (c kind : Int) (port : Nat)
    (text : List Char) :
    (∀ address, RejectsUntouched shiftOut c ⟨kind, port, address⟩ text) ↔
      (kind = LOCATOR_KIND_UDPv4 ∨ kind = LOCATOR_KIND_TCPv4 → ¬ QuadWithRest text) ∧
      (kind = LOCATOR_KIND_TCPv6 ∨ kind = LOCATOR_KIND_UDPv6 → IPv6isCorrect text = true →
        ReadToEnd shiftOut text) := by
  rw [← setIPv4_untouched_iff kind port, ← setIPv6_untouched_iff kind port]
  constructor
  · exact fun h => ⟨fun address => (h address).ipv4, fun address => (h address).ipv6⟩
  · rintro ⟨hipv4, hipv6⟩ address
    refine ⟨hipv4 address, hipv6 address, ?_, ?_⟩
    · exact untouched_some.2 setWan_rejected
    · exact untouched_some.2 setLanID_rejected

/-- A text behind the last number, and a `::` in the middle: both are rejected, and the address is
not what it was. -/
theorem rejected_overwrites :
    setIPv4 newLocator "1.2.3.4x".toList = (false, setOctets newLocator 1 2 3 4) ∧
      setOctets newLocator 1 2 3 4 ≠ newLocator ∧
      (setIPv6 id ⟨LOCATOR_KIND_UDPv6, 7400, Vector.replicate 16 255⟩ "1::2".toList).map
        (fun r => (r.1, r.2.address.toList)) =
          some (false, [0, 1, 0, 0, 0, 0, 0, 0, 0, 0, 0, 0, 0, 0, 0, 0]) := by
  refine ⟨by decide, by decide, by decide⟩

end IPLocator
end Rtps
end Mozi
