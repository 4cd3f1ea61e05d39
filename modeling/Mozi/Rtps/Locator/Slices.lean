import Mozi.Rtps.Locator.Setters

/-!
# Slices — which setters a reader of a locator can tell apart

The getters, printers and tests of `ip_locator.cc` with the parts of a locator that they read,
which may depend on its kind.  In a run of any setters on a locator each of them answers at the end
as if only those setters had run that may write to what it reads (`query_slice`).
-/

namespace Mozi
namespace Rtps
namespace IPLocator

open Foundation

variable {shiftOut : Nat → Nat}

/-! ## Queries -/

inductive Query where
  | getIPv4
  | copyIPv4
  | toIPv4String
  | hasIPv4
  | getIPv6
  | copyIPv6
  | toIPv6string
  | hasIPv6
  | ip_to_string
  | getLogicalPort
  | getPhysicalPort
  | getPortRTPS
  | getWan
  | toWanstring
  | hasWan
  | getLanID
  | toLanIDstring
  | ip_equals_wan
  | isLocal
  | isAny
  | isEmpty
  | isEmptyFrom (index : Nat)
  | compareAddress (other : Locator_t) (fullAddress : Bool)
  | compareAddressAndPhysicalPort (other : Locator_t)
  /-- what a setter would return -/
  | result (s : Setter)

inductive Answer where
  | octets (bytes : List UInt8)
  | text (cs : List Char)
  | port (p : UInt16)
  | flag (b : Bool)
  | result (b : Option Bool)
deriving DecidableEq

namespace Query

def answer (shiftOut : Nat → Nat) (l : Locator_t) : Query → Answer
  | .getIPv4 => .octets ((List.range 4).map (IPLocator.getIPv4 l))
  | .copyIPv4 => .octets ((List.range 4).map (IPLocator.copyIPv4 l))
  | .toIPv4String => .text (IPLocator.toIPv4String l)
  | .hasIPv4 => .flag (IPLocator.hasIPv4 l)
  | .getIPv6 => .octets (IPLocator.getIPv6 l).toList
  | .copyIPv6 => .octets (IPLocator.copyIPv6 l).toList
  | .toIPv6string => .text (IPLocator.toIPv6string l)
  | .hasIPv6 => .flag (IPLocator.hasIPv6 l)
  | .ip_to_string => .text (IPLocator.ip_to_string l)
  | .getLogicalPort => .port (IPLocator.getLogicalPort l)
  | .getPhysicalPort => .port (IPLocator.getPhysicalPort l)
  | .getPortRTPS => .port (IPLocator.getPortRTPS l)
  | .getWan => .octets ((List.range 4).map (IPLocator.getWan l))
  | .toWanstring => .text (IPLocator.toWanstring l)
  | .hasWan => .flag (IPLocator.hasWan l)
  | .getLanID => .octets ((List.range 8).map (IPLocator.getLanID l))
  | .toLanIDstring => .text (IPLocator.toLanIDstring l)
  | .ip_equals_wan => .flag (IPLocator.ip_equals_wan l)
  | .isLocal => .flag (IPLocator.isLocal l)
  | .isAny => .flag (IPLocator.isAny l)
  | .isEmpty => .flag (IPLocator.isEmpty l)
  | .isEmptyFrom index => .flag (IPLocator.isEmptyFrom l index)
  | .compareAddress other full => .flag (IPLocator.compareAddress l other full)
  | .compareAddressAndPhysicalPort other => .flag (IPLocator.compareAddressAndPhysicalPort l other)
  | .result s => .result ((s.apply shiftOut l).map Prod.fst)

/-- The octets that a query about the address reads, which may depend on the kind. -/
def octets (kind : Int) : Query → Nat × Nat
  | .getIPv4 | .copyIPv4 | .toIPv4String => (12, 16)
  | .getIPv6 | .copyIPv6 | .toIPv6string => (0, 16)
  | .getWan | .toWanstring => (8, 12)
  | .getLanID => (0, 8)
  | .hasIPv4 => if kind = LOCATOR_KIND_UDPv4 ∨ kind = LOCATOR_KIND_TCPv4 then (12, 16) else (0, 0)
  | .hasIPv6 => if kind = LOCATOR_KIND_TCPv6 ∨ kind = LOCATOR_KIND_UDPv6 then (0, 16) else (0, 0)
  | .ip_to_string =>
      if kind = LOCATOR_KIND_TCPv4 ∨ kind = LOCATOR_KIND_UDPv4 then (12, 16)
      else if kind = LOCATOR_KIND_TCPv6 ∨ kind = LOCATOR_KIND_UDPv6 then (0, 16)
      else (0, 0)
  | .hasWan => if kind = LOCATOR_KIND_TCPv4 then (8, 12) else (0, 0)
  | .ip_equals_wan => if kind = LOCATOR_KIND_TCPv4 then (8, 16) else (0, 0)
  | .toLanIDstring => if kind = LOCATOR_KIND_TCPv4 then (0, 8) else (0, 0)
  | .isLocal | .isAny | .isEmpty =>
      if kind = LOCATOR_KIND_UDPv4 ∨ kind = LOCATOR_KIND_TCPv4 then (12, 16) else (0, 16)
  | .isEmptyFrom index => (index, 16)
  | .compareAddress other full =>
      if kind ≠ other.kind then (0, 0)
      else if !full ∧ (kind = LOCATOR_KIND_UDPv4 ∨ kind = LOCATOR_KIND_TCPv4) then (12, 16)
      else (0, 16)
  | .compareAddressAndPhysicalPort other => if kind ≠ other.kind then (0, 0) else (0, 16)
  | _ => (0, 0)

/-- The port is read by the port functions and by what `setLogicalPort` returns. -/
def ports (kind : Int) : Query → Bool × Bool
  | .getPhysicalPort => (true, false)
  | .getLogicalPort => (false, true)
  | .getPortRTPS =>
      if kind = LOCATOR_KIND_UDPv4 ∨ kind = LOCATOR_KIND_UDPv6 then (true, false)
      else (false, decide (kind = LOCATOR_KIND_TCPv4 ∨ kind = LOCATOR_KIND_TCPv6))
  | .result s => (false, s.returnsPort kind)
  | .compareAddressAndPhysicalPort other => (decide (kind = other.kind), false)
  | _ => (false, false)

def reads (kind : Int) (q : Query) : Footprint where
  low := (q.octets kind).1
  high := (q.octets kind).2
  physical := (q.ports kind).1
  logical := (q.ports kind).2
  kind := true

end Query

/-! ## What a query reads -/

variable {l m : Locator_t} {q : Query}

/-- The locators agree on what the query reads. -/
def SameFor (q : Query) (l m : Locator_t) : Prop :=
  Agree Cell.value (fun cell => (q.reads l.kind).has cell = true) l m

theorem SameFor.kind (h : SameFor q l m) : l.kind = m.kind :=
  h .kind rfl

/-- The octets from `low` up to `high` are the same. -/
def SameOctets (low high : Nat) (l m : Locator_t) : Prop :=
  ∀ i, low ≤ i → i < high → octetAt l i = octetAt m i

theorem SameFor.octets (h : SameFor q l m) {low high : Nat} (hq : q.octets l.kind = (low, high))
    (hbound : high ≤ 16) : SameOctets low high l m := by
  intro i hlow hhigh
  have hcell : ((octetAt l i).toNat : Int) = (octetAt m i).toNat := by
    refine h (.octet ⟨i, by omega⟩) (decide_eq_true ?_)
    unfold Query.reads
    rw [hq]
    exact ⟨hlow, hhigh⟩
  exact UInt8.toNat_inj.1 (Int.ofNat_inj.1 hcell)

theorem SameFor.physical (h : SameFor q l m) (hq : (q.ports l.kind).1 = true) :
    half l.port 0 = half m.port 0 := by
  have hcell : ((half l.port 0).toNat : Int) = (half m.port 0).toNat := h (.half 0) hq
  exact UInt16.toNat_inj.1 (Int.ofNat_inj.1 hcell)

theorem SameFor.logical (h : SameFor q l m) (hq : (q.ports l.kind).2 = true) :
    half l.port 1 = half m.port 1 := by
  have hcell : ((half l.port 1).toNat : Int) = (half m.port 1).toNat := h (.half 1) hq
  exact UInt16.toNat_inj.1 (Int.ofNat_inj.1 hcell)

theorem octetAt_eq {i : Nat} (hi : i < 16) : octetAt l i = l.address[i] := by
  simp [octetAt, hi]

namespace SameOctets

variable {low high : Nat}

theorem mono (h : SameOctets low high l m) {low' high' : Nat} (hlow : low ≤ low')
    (hhigh : high' ≤ high) : SameOctets low' high' l m :=
  fun i hl hh => h i (by omega) (by omega)

theorem byteAt (h : SameOctets low high l m) {i : Nat} (hlow : low ≤ i) (hhigh : i < high) :
    byteAt l.address i = byteAt m.address i :=
  congrArg UInt8.toNat (h i hlow hhigh)

theorem address (h : SameOctets 0 16 l m) : l.address = m.address := by
  ext i hi
  rw [← octetAt_eq hi, ← octetAt_eq hi, h i (by omega) hi]

theorem drop (h : SameOctets low 16 l m) :
    l.address.toList.drop low = m.address.toList.drop low := by
  refine List.ext_getElem (by simp) fun i hl _ => ?_
  have hi : low + i < 16 := by
    rw [List.length_drop, Vector.length_toList] at hl
    omega
  have hoctet := h (low + i) (by omega) hi
  rw [octetAt_eq hi, octetAt_eq hi] at hoctet
  simpa using hoctet

/-- What is read behind a pointer into the address. -/
theorem behind (h : SameOctets low high l m) {n : Nat} (hn : low + n ≤ high) :
    (List.range n).map (fun i => octetAt l (low + i)) =
      (List.range n).map fun i => octetAt m (low + i) := by
  refine List.map_congr_left fun i hi => ?_
  have hlt := List.mem_range.1 hi
  exact h (low + i) (by omega) (by omega)

theorem toIPv4String (h : SameOctets 12 16 l m) : toIPv4String l = toIPv4String m := by
  unfold IPLocator.toIPv4String
  rw [h.byteAt (i := 12) (by omega) (by omega), h.byteAt (i := 13) (by omega) (by omega),
    h.byteAt (i := 14) (by omega) (by omega), h.byteAt (i := 15) (by omega) (by omega)]

theorem printOctets (h : SameOctets low high l m) {indices : List Nat}
    (hin : ∀ i ∈ indices, low ≤ i ∧ i < high) : printOctets l indices = printOctets m indices := by
  have hmap : (indices.map fun i => Nat.toDigits 10 (IPLocator.byteAt l.address i)) =
      indices.map fun i => Nat.toDigits 10 (IPLocator.byteAt m.address i) := by
    refine List.map_congr_left fun i hi => ?_
    obtain ⟨hlow, hhigh⟩ := hin i hi
    rw [h.byteAt hlow hhigh]
  unfold IPLocator.printOctets
  rw [hmap]

theorem toIPv6string (h : SameOctets 0 16 l m) : toIPv6string l = toIPv6string m := by
  unfold IPLocator.toIPv6string
  rw [h.address]

theorem isEmptyFrom {index : Nat} (h : SameOctets index 16 l m) :
    isEmptyFrom l index = isEmptyFrom m index := by
  unfold IPLocator.isEmptyFrom
  rw [Bool.eq_iff_iff, List.all_eq_true, List.all_eq_true]
  refine forall₂_congr fun i hi => ?_
  rw [List.mem_range'_1] at hi
  rw [h i hi.1 (by omega)]

/-- The four octets that the tests of an IPv4 address look at. -/
theorem quad (h : SameOctets low (low + 4) l m) :
    octetAt l low = octetAt m low ∧ octetAt l (low + 1) = octetAt m (low + 1) ∧
      octetAt l (low + 2) = octetAt m (low + 2) ∧ octetAt l (low + 3) = octetAt m (low + 3) :=
  ⟨h low (by omega) (by omega), h (low + 1) (by omega) (by omega),
    h (low + 2) (by omega) (by omega), h (low + 3) (by omega) (by omega)⟩

end SameOctets

/-! ## Answers -/

/-- Whether the kind is one of two, and what the two branches compute. -/
theorem ite_congr_kind {β : Type} {p : Int → Prop} [DecidablePred p] (hkind : l.kind = m.kind)
    {x x' y y' : β} (hx : p l.kind → x = x') (hy : ¬ p l.kind → y = y') :
    (if p l.kind then x else y) = if p m.kind then x' else y' := by
  rw [← hkind]
  by_cases hp : p l.kind
  · rw [if_pos hp, if_pos hp, hx hp]
  · rw [if_neg hp, if_neg hp, hy hp]

theorem isEmpty_congr (hkind : l.kind = m.kind)
    (hv4 : l.kind = LOCATOR_KIND_UDPv4 ∨ l.kind = LOCATOR_KIND_TCPv4 → SameOctets 12 16 l m)
    (hother : ¬ (l.kind = LOCATOR_KIND_UDPv4 ∨ l.kind = LOCATOR_KIND_TCPv4) →
      SameOctets 0 16 l m) : isEmpty l = isEmpty m :=
  ite_congr_kind (p := fun k => k = LOCATOR_KIND_TCPv4 ∨ k = LOCATOR_KIND_UDPv4) hkind
    (fun hp => (hv4 hp.symm).isEmptyFrom) fun hp => (hother fun h => hp h.symm).isEmptyFrom

theorem hasWan_congr (hkind : l.kind = m.kind)
    (h : l.kind = LOCATOR_KIND_TCPv4 → SameOctets 8 12 l m) : hasWan l = hasWan m := by
  unfold hasWan
  rw [← hkind]
  by_cases htcp : l.kind = LOCATOR_KIND_TCPv4
  · obtain ⟨h8, h9, h10, h11⟩ := (h htcp).quad
    rw [h8, h9, h10, h11]
  · have hne : (l.kind == LOCATOR_KIND_TCPv4) = false := beq_false_of_ne htcp
    rw [hne, Bool.false_and, Bool.false_and]

theorem ip_equals_wan_congr (hkind : l.kind = m.kind)
    (h : l.kind = LOCATOR_KIND_TCPv4 → SameOctets 8 16 l m) :
    ip_equals_wan l = ip_equals_wan m := by
  have hwan : hasWan l = hasWan m :=
    hasWan_congr hkind fun htcp => (h htcp).mono (by omega) (by omega)
  unfold ip_equals_wan
  rw [← hwan]
  by_cases htcp : l.kind = LOCATOR_KIND_TCPv4
  · have hfirst : SameOctets 8 12 l m := (h htcp).mono (by omega) (by omega)
    have hlast : SameOctets 12 16 l m := (h htcp).mono (by omega) (by omega)
    obtain ⟨h8, h9, h10, h11⟩ := hfirst.quad
    obtain ⟨h12, h13, h14, h15⟩ := hlast.quad
    rw [h8, h9, h10, h11, h12, h13, h14, h15]
  · have hno : hasWan l = false := by simp [hasWan, htcp]
    rw [hno]
    rfl

theorem compareAddress_congr {other : Locator_t} {fullAddress : Bool} (hkind : l.kind = m.kind)
    (hv4 : l.kind = other.kind → SameOctets 12 16 l m)
    (hfull : l.kind = other.kind → ¬ (!fullAddress ∧
      (l.kind = LOCATOR_KIND_UDPv4 ∨ l.kind = LOCATOR_KIND_TCPv4)) → SameOctets 0 16 l m) :
    compareAddress l other fullAddress = compareAddress m other fullAddress := by
  unfold compareAddress
  refine ite_congr_kind (p := fun k => k ≠ other.kind) hkind (fun _ => rfl) fun hsame => ?_
  have heq := not_not.1 hsame
  refine ite_congr_kind
    (p := fun k => !fullAddress ∧ (k = LOCATOR_KIND_UDPv4 ∨ k = LOCATOR_KIND_TCPv4)) hkind
    (fun _ => ?_) fun hp => ?_
  · rw [(hv4 heq).drop]
  · rw [(hfull heq hp).address]

/-- What a setter returns depends on the kind, and on a half of the port where it reads that. -/
theorem result_congr {s : Setter} (h : SameFor (.result s) l m) :
    (s.apply shiftOut l).map Prod.fst = (s.apply shiftOut m).map Prod.fst := by
  have hkind := h.kind
  rcases s.acts shiftOut l.kind with ⟨ok, g, hg, heq⟩ | ⟨hport, heq⟩
  · have hl : s.apply shiftOut l = (g l).map fun l' => (ok, l') := heq l rfl
    have hm : s.apply shiftOut m = (g m).map fun l' => (ok, l') := heq m hkind.symm
    have hagree : Agree Cell.value (· = .kind) l m := by
      rintro _ rfl
      exact hkind
    rw [hl, hm]
    cases hgl : g l with
    | none =>
        rw [(hg.eq_none_iff hagree).1 hgl]
    | some l' =>
        obtain ⟨m', hm', -⟩ := hg.cong hagree hgl
        rw [hm']
        rfl
  · rw [heq l rfl, heq m hkind.symm, h.logical hport]
    rfl

theorem answer_congr (h : SameFor q l m) : q.answer shiftOut l = q.answer shiftOut m := by
  have hkind := h.kind
  cases q with
  | getIPv4 =>
      exact congrArg Answer.octets ((h.octets rfl (by omega)).behind (by omega))
  | copyIPv4 =>
      exact congrArg Answer.octets ((h.octets rfl (by omega)).behind (by omega))
  | toIPv4String =>
      exact congrArg Answer.text (h.octets rfl (by omega)).toIPv4String
  | hasIPv4 =>
      refine congrArg Answer.flag (ite_congr_kind
        (p := fun k => ¬ (k = LOCATOR_KIND_UDPv4 ∨ k = LOCATOR_KIND_TCPv4)) hkind (fun _ => rfl) ?_)
      intro hp
      have hv4 := not_not.1 hp
      rw [isEmpty_congr hkind (fun _ => h.octets (if_pos hv4) (by omega)) fun hne => absurd hv4 hne]
  | getIPv6 =>
      exact congrArg (fun v => Answer.octets v.toList) (h.octets rfl (by omega)).address
  | copyIPv6 =>
      exact congrArg (fun v => Answer.octets v.toList) (h.octets rfl (by omega)).address
  | toIPv6string =>
      exact congrArg Answer.text (h.octets rfl (by omega)).toIPv6string
  | hasIPv6 =>
      refine congrArg Answer.flag (ite_congr_kind
        (p := fun k => ¬ (k = LOCATOR_KIND_TCPv6 ∨ k = LOCATOR_KIND_UDPv6)) hkind (fun _ => rfl) ?_)
      intro hp
      have hall : SameOctets 0 16 l m := h.octets (if_pos (not_not.1 hp)) (by omega)
      rw [isEmpty_congr hkind (fun _ => hall.mono (by omega) (by omega)) fun _ => hall]
  | ip_to_string =>
      refine congrArg Answer.text (ite_congr_kind
        (p := fun k => k = LOCATOR_KIND_TCPv4 ∨ k = LOCATOR_KIND_UDPv4) hkind ?_ fun hv4 => ?_)
      · intro hv4
        exact (h.octets (if_pos hv4) (by omega)).toIPv4String
      · refine ite_congr_kind (p := fun k => k = LOCATOR_KIND_TCPv6 ∨ k = LOCATOR_KIND_UDPv6) hkind
          (fun hv6 => ?_) fun _ => rfl
        exact (h.octets ((if_neg hv4).trans (if_pos hv6)) (by omega)).toIPv6string
  | getLogicalPort =>
      exact congrArg Answer.port (h.logical rfl)
  | getPhysicalPort =>
      exact congrArg Answer.port (h.physical rfl)
  | getPortRTPS =>
      refine congrArg Answer.port (ite_congr_kind
        (p := fun k => k = LOCATOR_KIND_UDPv4 ∨ k = LOCATOR_KIND_UDPv6) hkind ?_ fun hudp => ?_)
      · intro hudp
        exact h.physical (congrArg Prod.fst (if_pos hudp))
      · refine ite_congr_kind (p := fun k => k = LOCATOR_KIND_TCPv4 ∨ k = LOCATOR_KIND_TCPv6) hkind
          (fun htcp => ?_) fun _ => rfl
        exact h.logical ((congrArg Prod.snd (if_neg hudp)).trans (decide_eq_true htcp))
  | getWan =>
      exact congrArg Answer.octets ((h.octets rfl (by omega)).behind (by omega))
  | toWanstring =>
      exact congrArg Answer.text ((h.octets rfl (by omega)).printOctets (by decide))
  | hasWan =>
      exact congrArg Answer.flag (hasWan_congr hkind fun htcp => h.octets (if_pos htcp) (by omega))
  | getLanID =>
      exact congrArg Answer.octets ((h.octets rfl (by omega)).behind (by omega))
  | toLanIDstring =>
      refine congrArg Answer.text (ite_congr_kind (p := fun k => k ≠ LOCATOR_KIND_TCPv4) hkind
        (fun _ => rfl) fun htcp => ?_)
      exact (h.octets (if_pos (not_not.1 htcp)) (by omega)).printOctets (by decide)
  | ip_equals_wan =>
      exact congrArg Answer.flag (ip_equals_wan_congr hkind fun htcp => h.octets (if_pos htcp) (by omega))
  | isLocal =>
      refine congrArg Answer.flag (ite_congr_kind
        (p := fun k => k = LOCATOR_KIND_UDPv4 ∨ k = LOCATOR_KIND_TCPv4) hkind ?_ fun hp => ?_)
      · intro hp
        obtain ⟨h12, h13, h14, h15⟩ := (h.octets (if_pos hp) (by omega)).quad
        rw [h12, h13, h14, h15]
      · rw [(h.octets (if_neg hp) (by omega)).address]
  | isAny =>
      refine congrArg Answer.flag (ite_congr_kind
        (p := fun k => k = LOCATOR_KIND_UDPv4 ∨ k = LOCATOR_KIND_TCPv4) hkind ?_ fun hp => ?_)
      · intro hp
        obtain ⟨h12, h13, h14, h15⟩ := (h.octets (if_pos hp) (by omega)).quad
        rw [h12, h13, h14, h15]
      · rw [(h.octets (if_neg hp) (by omega)).address]
  | isEmpty =>
      exact congrArg Answer.flag (isEmpty_congr hkind (fun hp => h.octets (if_pos hp) (by omega))
        fun hp => h.octets (if_neg hp) (by omega))
  | isEmptyFrom index =>
      exact congrArg Answer.flag (h.octets rfl (by omega)).isEmptyFrom
  | compareAddress other fullAddress =>
      refine congrArg Answer.flag (compareAddress_congr hkind (fun hsame => ?_) fun hsame hp => ?_)
      · by_cases hp : !fullAddress ∧ (l.kind = LOCATOR_KIND_UDPv4 ∨ l.kind = LOCATOR_KIND_TCPv4)
        · exact h.octets ((if_neg (not_not.2 hsame)).trans (if_pos hp)) (by omega)
        · exact (h.octets ((if_neg (not_not.2 hsame)).trans (if_neg hp)) (by omega)).mono (by omega)
            (by omega)
      · exact h.octets ((if_neg (not_not.2 hsame)).trans (if_neg hp)) (by omega)
  | compareAddressAndPhysicalPort other =>
      have hcompare : compareAddress l other true = compareAddress m other true := by
        refine compareAddress_congr hkind (fun hsame => ?_) fun hsame _ => ?_
        · exact (h.octets (if_neg (not_not.2 hsame)) (by omega)).mono (by omega) (by omega)
        · exact h.octets (if_neg (not_not.2 hsame)) (by omega)
      refine congrArg Answer.flag ?_
      unfold IPLocator.compareAddressAndPhysicalPort
      rw [hcompare]
      by_cases hsame : l.kind = other.kind
      · have hport : getPhysicalPort l = getPhysicalPort m := h.physical (decide_eq_true hsame)
        rw [hport]
      · have hno : compareAddress m other true = false := if_pos (by rw [← hkind]; exact hsame)
        rw [hno, Bool.false_and, Bool.false_and]
  | result s =>
      exact congrArg Answer.result (result_congr h)

/-- In a run of setters every query is answered at the end as after those setters alone that may
write to what it reads. -/
theorem query_slice {tr : List Setter} {l l' : Locator_t}
    (h : (locators shiftOut).exec l tr = some l') (q : Query) :
    ∃ m, (locators shiftOut).exec l (tr.filter fun s => s.writes.meets (q.reads l'.kind)) = some m ∧
      q.answer shiftOut m = q.answer shiftOut l' := by
  have hcontrol : ∀ cell, cell = Cell.kind → (q.reads l'.kind).has cell = true := by
    rintro _ rfl
    rfl
  obtain ⟨m, hm, hsame⟩ := CellWise.exec_slice stores_step hcontrol
    (fun s cell hw hr => Footprint.meets_of_has hw hr) (.refl l) h
  exact ⟨m, hm, (answer_congr hsame).symm⟩

/-- The WAN address of a TCPv4 locator does not depend on the other setters. -/
theorem query_slice_wan :
    ∃ m, (locators id).exec tcpLocator [.setWan_octets 8 8 4 4] = some m ∧
      Query.getWan.answer id m = .octets [8, 8, 4, 4] := by
  obtain ⟨m, hm, hanswer⟩ := query_slice (show (locators id).exec tcpLocator
    [.setIPv4_octets 10 0 0 1, .setWan_octets 8 8 4 4, .setPhysicalPort 7400,
      .setIPv4_octets 10 0 0 2] = some _ from rfl) .getWan
  exact ⟨m, hm, hanswer.trans (by decide)⟩

end IPLocator
end Rtps
end Mozi
