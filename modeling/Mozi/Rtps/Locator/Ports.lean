import Mozi.Rtps.Locator.IPv4

/-!
# Ports — the two halves of a port word

`setLogicalPort`, `setPhysicalPort`, `toPhysicalLocator` and the functions over them in
`ip_locator.cc`.  `setPhysicalPort` stores into the low half of the port word, on a little-endian
target.  `setLogicalPort` stores nothing: it returns the high half, so every law about a port that
it is to set holds only where the high half has the value already.

`getLogicalPort` is declared in `ip_locator.h` only, and read as the half that `setLogicalPort`
takes.
-/

namespace Mozi
namespace Rtps
namespace IPLocator

/-! ## The source -/

/-- `reinterpret_cast<const uint16_t*>(&port)[i]` -/
def half (word i : Nat) : UInt16 :=
  UInt16.ofNat (word / 2 ^ (16 * i))

/-- A store to that half. -/
def setHalf (word i : Nat) (v : UInt16) : Nat :=
  word - (half word i).toNat * 2 ^ (16 * i) + v.toNat * 2 ^ (16 * i)

/-- The parameter is not used. -/
def setLogicalPort (locator : Locator_t) (_port : UInt16) : Bool × Locator_t :=
  (half locator.port 1 != 0, locator)

def getLogicalPort (locator : Locator_t) : UInt16 :=
  half locator.port 1

def setPhysicalPort (locator : Locator_t) (port : UInt16) : Bool × Locator_t :=
  (port != 0, { locator with port := setHalf locator.port 0 port })

def getPhysicalPort (locator : Locator_t) : UInt16 :=
  half locator.port 0

def toPhysicalLocator (locator : Locator_t) : Locator_t :=
  (setLogicalPort locator 0).2

def isUDP (locator : Locator_t) : Prop :=
  locator.kind = LOCATOR_KIND_UDPv4 ∨ locator.kind = LOCATOR_KIND_UDPv6

def isTCP (locator : Locator_t) : Prop :=
  locator.kind = LOCATOR_KIND_TCPv4 ∨ locator.kind = LOCATOR_KIND_TCPv6

instance (locator : Locator_t) : Decidable (isUDP locator) :=
  inferInstanceAs (Decidable (_ ∨ _))

instance (locator : Locator_t) : Decidable (isTCP locator) :=
  inferInstanceAs (Decidable (_ ∨ _))

def setPortRTPS (locator : Locator_t) (port : UInt16) : Bool × Locator_t :=
  if isUDP locator then setPhysicalPort locator port
  else if isTCP locator then setLogicalPort locator port
  else (false, locator)

def getPortRTPS (locator : Locator_t) : UInt16 :=
  if isUDP locator then getPhysicalPort locator
  else if isTCP locator then getLogicalPort locator
  else 0

/-- `memcmp` of the whole address, or of its last four bytes. -/
def compareAddress (loc1 loc2 : Locator_t) (fullAddress : Bool) : Bool :=
  if loc1.kind ≠ loc2.kind then false
  else if !fullAddress ∧ (loc1.kind = LOCATOR_KIND_UDPv4 ∨ loc1.kind = LOCATOR_KIND_TCPv4) then
    loc1.address.toList.drop 12 == loc2.address.toList.drop 12
  else
    loc1.address == loc2.address

def compareAddressAndPhysicalPort (loc1 loc2 : Locator_t) : Bool :=
  compareAddress loc1 loc2 true && getPhysicalPort loc1 == getPhysicalPort loc2

variable {locator : Locator_t} {p q : UInt16}

/-! ## The halves of a word -/

theorem half_zero_setHalf (word : Nat) (v : UInt16) : half (setHalf word 0 v) 0 = v := by
  have hv := v.toNat_lt
  apply UInt16.toNat_inj.1
  simp only [half, setHalf, UInt16.toNat_ofNat']
  omega

theorem half_one_setHalf (word : Nat) (v : UInt16) :
    half (setHalf word 0 v) 1 = half word 1 := by
  have hv := v.toNat_lt
  apply UInt16.toNat_inj.1
  simp only [half, setHalf, UInt16.toNat_ofNat']
  omega

/-! ## The setters -/

@[simp] theorem getPhysicalPort_setPhysicalPort :
    getPhysicalPort (setPhysicalPort locator p).2 = p :=
  half_zero_setHalf locator.port p

@[simp] theorem getLogicalPort_setPhysicalPort :
    getLogicalPort (setPhysicalPort locator p).2 = getLogicalPort locator :=
  half_one_setHalf locator.port p

@[simp] theorem setLogicalPort_locator : (setLogicalPort locator q).2 = locator := rfl

@[simp] theorem toPhysicalLocator_eq : toPhysicalLocator locator = locator := rfl

theorem not_isUDP_of_isTCP (h : isTCP locator) : ¬ isUDP locator := by
  unfold isTCP at h
  unfold isUDP
  rcases h with h | h <;> rw [h] <;> decide

theorem compareAddressAndPhysicalPort_self :
    compareAddressAndPhysicalPort locator locator = true := by
  simp [compareAddressAndPhysicalPort, compareAddress]

/-- The RTPS port of a UDP locator is the physical one, which is set. -/
theorem getPortRTPS_of_isUDP (h : isUDP locator) :
    getPortRTPS (setPortRTPS locator p).2 = p := by
  have hset : setPortRTPS locator p = setPhysicalPort locator p := if_pos h
  have hkind : isUDP (setPhysicalPort locator p).2 := h
  rw [hset, getPortRTPS, if_pos hkind, getPhysicalPort_setPhysicalPort]

/-- The one of a TCP locator is the logical one, which stays. -/
theorem getPortRTPS_of_isTCP (h : isTCP locator) :
    getPortRTPS (setPortRTPS locator p).2 = getLogicalPort locator := by
  have hudp := not_isUDP_of_isTCP h
  rw [setPortRTPS, if_neg hudp, if_pos h, setLogicalPort_locator, getPortRTPS, if_neg hudp,
    if_pos h]

/-! ## When the halves are set -/

/-- The kind and the address. -/
def SameRest (l l' : Locator_t) : Prop :=
  l.kind = l'.kind ∧ l.address = l'.address

/-- The port word has two halves that are set and read independently. -/
structure IndependentHalves (locator : Locator_t) (p q : UInt16) : Prop where
  /-- both halves are read back, whichever is set first -/
  reads : ∀ l, l = (setLogicalPort (setPhysicalPort locator p).2 q).2 ∨
      l = (setPhysicalPort (setLogicalPort locator q).2 p).2 →
    getPhysicalPort l = p ∧ getLogicalPort l = q
  physical : getLogicalPort (setPhysicalPort locator p).2 = getLogicalPort locator ∧
    SameRest (setPhysicalPort locator p).2 locator
  logical : getPhysicalPort (setLogicalPort locator q).2 = getPhysicalPort locator ∧
    SameRest (setLogicalPort locator q).2 locator
  rtps : isUDP locator ∨ isTCP locator → getPortRTPS (setPortRTPS locator p).2 = p
  toPhysical : getLogicalPort (toPhysicalLocator locator) = 0 ∧
    compareAddressAndPhysicalPort (toPhysicalLocator locator) locator = true

/-- The laws hold where the high half is 0 already and 0 is what is to be stored in it. -/
theorem independentHalves_iff (locator : Locator_t) (p q : UInt16) :
    IndependentHalves locator p q ↔
      locator.port / 2 ^ 16 % 2 ^ 16 = 0 ∧ q = 0 ∧ (isTCP locator → p = 0) := by
  have hhigh : getLogicalPort locator = 0 ↔ locator.port / 2 ^ 16 % 2 ^ 16 = 0 := by
    rw [getLogicalPort, half, ← UInt16.toNat_inj, UInt16.toNat_ofNat']
    rfl
  rw [← hhigh]
  constructor
  · intro h
    have hzero : getLogicalPort locator = 0 := h.toPhysical.1
    have hq : getLogicalPort locator = q := by
      simpa using (h.reads _ (Or.inl rfl)).2
    refine ⟨hzero, hq.symm.trans hzero, fun htcp => ?_⟩
    have hp := h.rtps (Or.inr htcp)
    rw [getPortRTPS_of_isTCP htcp] at hp
    exact hp.symm.trans hzero
  · rintro ⟨hzero, rfl, htcp⟩
    refine
      { reads := ?_
        physical := ⟨getLogicalPort_setPhysicalPort, rfl, rfl⟩
        logical := ⟨rfl, rfl, rfl⟩
        rtps := ?_
        toPhysical := ⟨hzero, compareAddressAndPhysicalPort_self⟩ }
    · rintro l (rfl | rfl)
      · exact ⟨getPhysicalPort_setPhysicalPort, getLogicalPort_setPhysicalPort.trans hzero⟩
      · exact ⟨getPhysicalPort_setPhysicalPort, getLogicalPort_setPhysicalPort.trans hzero⟩
    · rintro (hudp | hkind)
      · exact getPortRTPS_of_isUDP hudp
      · rw [getPortRTPS_of_isTCP hkind, hzero, htcp hkind]

/-- A TCPv4 locator does not take the RTPS port 7400. -/
theorem logical_port_not_set :
    ¬ ∀ (locator : Locator_t) (p q : UInt16), IndependentHalves locator p q := by
  intro h
  have hrtps := (h ⟨LOCATOR_KIND_TCPv4, 0, LOCATOR_ADDRESS_INVALID⟩ 7400 0).rtps
    (Or.inr (Or.inl rfl))
  exact absurd hrtps (by decide)

end IPLocator
end Rtps
end Mozi
