import Mozi.Rtps.Locator.IPv6Parser
import Mozi.Rtps.Locator.Ports
import Mozi.Rtps.Locator.TCPv4Address

/-!
# Accessors — the other functions over the address of a locator

The setters that take octets, groups or another locator, the getters and the tests of
`ip_locator.cc`, `createLocator`, and the two functions that choose by the kind between the texts of
the families.  A pointer to bytes is the function that reads them.

For each setter that takes a text there is a lemma on what it does to the locators of one kind: it
rejects the text for all of them, or stores the same bytes in all of them.
-/

namespace Mozi
namespace Rtps
namespace IPLocator

open Foundation InputStream

/-- `locator.address[i]`; no function reads behind the address. -/
def octetAt (locator : Locator_t) (i : Nat) : UInt8 :=
  locator.address[i]?.getD 0

/-! ## Setters -/

def setIPv4_addr (locator : Locator_t) (addr : Nat → UInt8) : Bool × Locator_t :=
  if locator.kind ≠ LOCATOR_KIND_TCPv4 ∧ locator.kind ≠ LOCATOR_KIND_UDPv4 then
    (false, locator)
  else
    (true, setOctets locator (addr 0).toNat (addr 1).toNat (addr 2).toNat (addr 3).toNat)

def setIPv4_octets (locator : Locator_t) (o1 o2 o3 o4 : UInt8) : Bool × Locator_t :=
  if locator.kind ≠ LOCATOR_KIND_TCPv4 ∧ locator.kind ≠ LOCATOR_KIND_UDPv4 then
    (false, locator)
  else
    (true, setOctets locator o1.toNat o2.toNat o3.toNat o4.toNat)

/-- The pointer `&locator.address[12]`. -/
def getIPv4 (locator : Locator_t) (i : Nat) : UInt8 :=
  octetAt locator (12 + i)

/-- The kind of `orig_locator` is not looked at. -/
def setIPv4_locator (dest_locator orig_locator : Locator_t) : Bool × Locator_t :=
  if dest_locator.kind ≠ LOCATOR_KIND_TCPv4 ∧ dest_locator.kind ≠ LOCATOR_KIND_UDPv4 then
    (false, dest_locator)
  else
    setIPv4_addr dest_locator (getIPv4 orig_locator)

/-- The two octets of each group; the kind is not looked at. -/
def setIPv6_groups (locator : Locator_t) (groups : Vector UInt16 8) : Bool × Locator_t :=
  let octets := Vector.ofFn fun i : Fin 16 =>
    let group := groups[i.val / 2]
    if i.val % 2 = 0 then (group >>> 8).toUInt8 else group.toUInt8
  (true, { locator with address := octets })

/-- The kind is not looked at. -/
def setWan_octets (locator : Locator_t) (o1 o2 o3 o4 : UInt8) : Bool × Locator_t :=
  (true, setWanOctets locator o1.toNat o2.toNat o3.toNat o4.toNat)

/-- What the setter of the text returns is dropped. -/
def createLocator (shiftOut : Nat → Nat) (kindin : Int) (address : List Char) (portin : Nat)
    (locator : Locator_t) : Option Locator_t :=
  let locator := { locator with kind := kindin }
  let locator := { locator with port := portin }
  let locator := invalidate locator
  if kindin = LOCATOR_KIND_TCPv4 ∨ kindin = LOCATOR_KIND_UDPv4 then
    some (setIPv4 locator address).2
  else if kindin = LOCATOR_KIND_TCPv6 ∨ kindin = LOCATOR_KIND_UDPv6 then
    (setIPv6 shiftOut locator address).map Prod.snd
  else
    some locator

def ip (shiftOut : Nat → Nat) (locator : Locator_t) (ip : List Char) :
    Option (Bool × Locator_t) :=
  if locator.kind = LOCATOR_KIND_TCPv4 ∨ locator.kind = LOCATOR_KIND_UDPv4 then
    some (setIPv4 locator ip)
  else if locator.kind = LOCATOR_KIND_TCPv6 ∨ locator.kind = LOCATOR_KIND_UDPv6 then
    setIPv6 shiftOut locator ip
  else
    some (false, locator)

/-! ## Getters -/

def ip_to_string (locator : Locator_t) : List Char :=
  if locator.kind = LOCATOR_KIND_TCPv4 ∨ locator.kind = LOCATOR_KIND_UDPv4 then
    toIPv4String locator
  else if locator.kind = LOCATOR_KIND_TCPv6 ∨ locator.kind = LOCATOR_KIND_UDPv6 then
    toIPv6string locator
  else
    []

def getIPv6 (locator : Locator_t) : Vector UInt8 16 :=
  locator.address

def getWan (locator : Locator_t) (i : Nat) : UInt8 :=
  octetAt locator (8 + i)

def getLanID (locator : Locator_t) (i : Nat) : UInt8 :=
  octetAt locator (0 + i)

/-- The four bytes that are copied to `dest`. -/
def copyIPv4 (locator : Locator_t) (i : Nat) : UInt8 :=
  octetAt locator (12 + i)

def copyIPv6 (locator : Locator_t) : Vector UInt8 16 :=
  locator.address

/-! ## Tests -/

/-- `isEmpty(locator, index)`: `aux_locator.address` is that of `LOCATOR_INVALID`. -/
def isEmptyFrom (locator : Locator_t) (index : Nat) : Bool :=
  (List.range' index (16 - index)).all fun i =>
    octetAt locator i == LOCATOR_ADDRESS_INVALID[i]?.getD 0

def isEmpty (locator : Locator_t) : Bool :=
  if locator.kind = LOCATOR_KIND_TCPv4 ∨ locator.kind = LOCATOR_KIND_UDPv4 then
    isEmptyFrom locator 12
  else
    isEmptyFrom locator 0

def hasIPv4 (locator : Locator_t) : Bool :=
  if ¬ (locator.kind = LOCATOR_KIND_UDPv4 ∨ locator.kind = LOCATOR_KIND_TCPv4) then false
  else !isEmpty locator

def hasIPv6 (locator : Locator_t) : Bool :=
  if ¬ (locator.kind = LOCATOR_KIND_TCPv6 ∨ locator.kind = LOCATOR_KIND_UDPv6) then false
  else !isEmpty locator

def hasWan (locator : Locator_t) : Bool :=
  locator.kind == LOCATOR_KIND_TCPv4 &&
    (octetAt locator 8 != 0 || octetAt locator 9 != 0 || octetAt locator 10 != 0 ||
      octetAt locator 11 != 0)

def ip_equals_wan (locator : Locator_t) : Bool :=
  hasWan locator && octetAt locator 8 == octetAt locator 12 &&
    octetAt locator 9 == octetAt locator 13 && octetAt locator 10 == octetAt locator 14 &&
    octetAt locator 11 == octetAt locator 15

def isLocal (locator : Locator_t) : Bool :=
  if locator.kind = LOCATOR_KIND_UDPv4 ∨ locator.kind = LOCATOR_KIND_TCPv4 then
    octetAt locator 12 == 127 && octetAt locator 13 == 0 && octetAt locator 14 == 0 &&
      octetAt locator 15 == 1
  else
    locator.address == #v[0, 0, 0, 0, 0, 0, 0, 0, 0, 0, 0, 0, 0, 0, 0, 1]

def isAny (locator : Locator_t) : Bool :=
  if locator.kind = LOCATOR_KIND_UDPv4 ∨ locator.kind = LOCATOR_KIND_TCPv4 then
    octetAt locator 12 == 0 && octetAt locator 13 == 0 && octetAt locator 14 == 0 &&
      octetAt locator 15 == 0
  else
    locator.address == #v[0, 0, 0, 0, 0, 0, 0, 0, 0, 0, 0, 0, 0, 0, 0, 0]

/-! ## What the setters of texts do -/

theorem setIPv4_cases (kind : Int) (text : List Char) :
    (∀ l : Locator_t, l.kind = kind → setIPv4 l text = (false, l)) ∨
      ∃ ok a b c d, ∀ l : Locator_t, l.kind = kind → setIPv4 l text = (ok, setOctets l a b c d) := by
  by_cases hkind : kind = LOCATOR_KIND_TCPv4 ∨ kind = LOCATOR_KIND_UDPv4
  · by_cases hreads : ∃ a b c d rest, Reads (Numeral 32) quad text [a, b, c, d] rest ∧
        AllOctets a b c d
    · obtain ⟨a, b, c, d, rest, hquad, hle⟩ := hreads
      refine Or.inr ⟨rest.length == 0, a, b, c, d, fun l hl => ?_⟩
      subst hl
      exact setIPv4_reads hkind.symm hquad hle
    · exact Or.inl fun l _ => setIPv4_untouched hreads
  · refine Or.inl fun l hl => ?_
    subst hl
    exact if_pos (not_or.1 hkind)

theorem setWan_cases (text : List Char) :
    (∀ l : Locator_t, setWan l text = (false, l)) ∨
      ∃ a b c d, ∀ l : Locator_t, setWan l text = (true, setWanOctets l a b c d) := by
  unfold setWan
  dsimp only
  split
  · rename_i a b c d _ _
    exact Or.inr ⟨a, b, c, d, fun _ => rfl⟩
  · exact Or.inl fun _ => rfl

theorem setLanID_cases (c kind : Int) (text : List Char) :
    (∀ l : Locator_t, l.kind = kind → setLanID c l text = (false, l)) ∨
      ∃ o₀ o₁ o₂ o₃ o₄ o₅ o₆ o₇, ∀ l : Locator_t, l.kind = kind →
        setLanID c l text = (true, setLanOctets l o₀ o₁ o₂ o₃ o₄ o₅ o₆ o₇) := by
  by_cases hkind : kind = LOCATOR_KIND_TCPv4
  · subst hkind
    by_cases hreads : ∃ vs rest, Reads (IntNumeral 32) lanChain text vs rest
    · have hfail := (extract_iff extracts_getInt).2 hreads
      obtain ⟨_, vs, hvs, hvars⟩ := extract_ok extracts_getInt hfail
      have hlength : vs.length = 7 := hvs.length_eq
      match vs, hlength, hvars with
      | [a, b, d, e, f, g, h], _, hvars =>
          refine Or.inr ⟨a, b, c, d, e, f, g, h, fun l hl => ?_⟩
          unfold setLanID
          rw [if_pos hl]
          dsimp only
          rw [hfail, hvars]
          rfl
    · refine Or.inl fun l hl => ?_
      have hfalse : (setLanID c l text).1 = false :=
        Bool.eq_false_iff.2 fun h => hreads ((setLanID_iff hl).1 h)
      exact Prod.ext hfalse (setLanID_rejected hfalse)
  · refine Or.inl fun l hl => ?_
    subst hl
    exact if_neg hkind

theorem setIPv6_cases (shiftOut : Nat → Nat) (kind : Int) (text : List Char) :
    (∀ l : Locator_t, l.kind = kind → setIPv6 shiftOut l text = some (false, l)) ∨
      (∀ l : Locator_t, l.kind = kind → setIPv6 shiftOut l text = none) ∨
      ∃ ok address, ∀ l : Locator_t, l.kind = kind →
        setIPv6 shiftOut l text = some (ok, { l with address }) := by
  by_cases hkind : kind = LOCATOR_KIND_TCPv6 ∨ kind = LOCATOR_KIND_UDPv6
  · cases hcorrect : IPv6isCorrect text with
    | false =>
        refine Or.inl fun l hl => ?_
        subst hl
        unfold setIPv6
        rw [if_neg (by rw [not_and_or, not_not, not_not]; exact hkind), if_pos (by simp [hcorrect])]
    | true =>
        cases hgroups : extractGroups shiftOut text with
        | none =>
            refine Or.inr (Or.inl fun l hl => ?_)
            subst hl
            rw [setIPv6_correct hkind hcorrect, hgroups, Option.map_none]
        | some p =>
            refine Or.inr (Or.inr ⟨p.1 && p.2.ss.inAvail == 0, p.2.address, fun l hl => ?_⟩)
            subst hl
            rw [setIPv6_correct hkind hcorrect, hgroups, Option.map_some]
  · refine Or.inl fun l hl => ?_
    subst hl
    exact if_pos (not_or.1 hkind)

end IPLocator
end Rtps
end Mozi
