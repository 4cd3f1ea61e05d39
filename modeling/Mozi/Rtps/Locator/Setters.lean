import Mozi.Foundation.Slicing
import Mozi.Rtps.Locator.Accessors

/-!
# Setters — what the setters of a locator write

The LAN identifier, the WAN address and the IPv4 address of a locator share one array, which the
IPv6 functions use as a whole, and two ports share one word.  On the locators of one kind each
setter of `ip_locator.cc` returns one result and stores one thing, in its own part
(`Setter.acts`), except that the setters of the logical port return what is there.
-/

namespace Mozi
namespace Rtps
namespace IPLocator

open Foundation

/-! ## Cells -/

inductive Cell where
  | kind
  /-- one half of the port word -/
  | half (i : Fin 2)
  | octet (i : Fin 16)
deriving DecidableEq

def Cell.value : Cell → Locator_t → Int
  | .kind, l => l.kind
  | .half i, l => (IPLocator.half l.port i.val).toNat
  | .octet i, l => (octetAt l i.val).toNat

/-- Octets from `low` up to `high`, halves of the port word, and the kind. -/
structure Footprint where
  low : Nat := 0
  high : Nat := 0
  physical : Bool := false
  logical : Bool := false
  kind : Bool := false

namespace Footprint

def has (F : Footprint) : Cell → Bool
  | .kind => F.kind
  | .half 0 => F.physical
  | .half 1 => F.logical
  | .octet i => decide (F.low ≤ i.val ∧ i.val < F.high)

def meets (F G : Footprint) : Bool :=
  decide (max F.low G.low < min F.high G.high) || F.physical && G.physical ||
    F.logical && G.logical || F.kind && G.kind

theorem meets_of_has {F G : Footprint} {cell : Cell} (hF : F.has cell = true)
    (hG : G.has cell = true) : F.meets G = true := by
  unfold meets
  match cell with
  | .kind =>
      have hFk : F.kind = true := hF
      have hGk : G.kind = true := hG
      simp [hFk, hGk]
  | .half 0 =>
      have hFp : F.physical = true := hF
      have hGp : G.physical = true := hG
      simp [hFp, hGp]
  | .half 1 =>
      have hFl : F.logical = true := hF
      have hGl : G.logical = true := hG
      simp [hFl, hGl]
  | .octet i =>
      have hFo : F.low ≤ i.val ∧ i.val < F.high := of_decide_eq_true hF
      have hGo : G.low ≤ i.val ∧ i.val < G.high := of_decide_eq_true hG
      have hlt : max F.low G.low < min F.high G.high := by omega
      simp [hlt]

end Footprint

/-! ## Setters -/

inductive Setter where
  | createLocator (kindin : Int) (address : List Char) (portin : Nat)
  | setIPv4_addr (addr : Nat → UInt8)
  | setIPv4_octets (o1 o2 o3 o4 : UInt8)
  | setIPv4 (ipv4 : List Char)
  | setIPv4_locator (orig_locator : Locator_t)
  | setIPv6_groups (groups : Vector UInt16 8)
  | setIPv6 (ipv6 : List Char)
  | ip (text : List Char)
  | setLogicalPort (port : UInt16)
  | setPhysicalPort (port : UInt16)
  | setPortRTPS (port : UInt16)
  | setWan_octets (o1 o2 o3 o4 : UInt8)
  | setWan (wan : List Char)
  /-- `c` is the value of the variable that nothing is extracted into -/
  | setLanID (c : Int) (lanId : List Char)
  | setIPv4address (c : Int) (lan wan ipv4 : List Char)

namespace Setter

/-- What the setter returns and leaves; `createLocator` returns nothing. -/
def apply (shiftOut : Nat → Nat) (locator : Locator_t) : Setter → Option (Bool × Locator_t)
  | .createLocator kindin address portin =>
      (IPLocator.createLocator shiftOut kindin address portin locator).map fun l => (true, l)
  | .setIPv4_addr addr => some (IPLocator.setIPv4_addr locator addr)
  | .setIPv4_octets o1 o2 o3 o4 => some (IPLocator.setIPv4_octets locator o1 o2 o3 o4)
  | .setIPv4 ipv4 => some (IPLocator.setIPv4 locator ipv4)
  | .setIPv4_locator orig_locator => some (IPLocator.setIPv4_locator locator orig_locator)
  | .setIPv6_groups groups => some (IPLocator.setIPv6_groups locator groups)
  | .setIPv6 ipv6 => IPLocator.setIPv6 shiftOut locator ipv6
  | .ip text => IPLocator.ip shiftOut locator text
  | .setLogicalPort port => some (IPLocator.setLogicalPort locator port)
  | .setPhysicalPort port => some (IPLocator.setPhysicalPort locator port)
  | .setPortRTPS port => some (IPLocator.setPortRTPS locator port)
  | .setWan_octets o1 o2 o3 o4 => some (IPLocator.setWan_octets locator o1 o2 o3 o4)
  | .setWan wan => some (IPLocator.setWan locator wan)
  | .setLanID c lanId => some (IPLocator.setLanID c locator lanId)
  | .setIPv4address c lan wan ipv4 => some (IPLocator.setIPv4address c locator lan wan ipv4)

/-- What the setter may write to. -/
def writes : Setter → Footprint
  | .createLocator .. => ⟨0, 16, true, true, true⟩
  | .setIPv4_addr _ | .setIPv4_octets .. | .setIPv4 _ | .setIPv4_locator _ =>
      { low := 12, high := 16 }
  | .setIPv6_groups _ | .setIPv6 _ | .ip _ | .setIPv4address .. => { high := 16 }
  | .setLogicalPort _ => {}
  | .setPhysicalPort _ | .setPortRTPS _ => { physical := true }
  | .setWan_octets .. | .setWan _ => { low := 8, high := 12 }
  | .setLanID .. => { high := 8 }

end Setter

/-- The setters that return whether the high half of the port is set. -/
def Setter.returnsPort (kind : Int) : Setter → Bool
  | .setLogicalPort _ => true
  | .setPortRTPS _ => decide (kind = LOCATOR_KIND_TCPv4 ∨ kind = LOCATOR_KIND_TCPv6)
  | _ => false

/-- A locator under its setters; `none` is what `setIPv6` does not define. -/
def locators (shiftOut : Nat → Nat) : Machine Locator_t Setter where
  step l s := (s.apply shiftOut l).map Prod.snd

/-! ## What one setter does -/

variable {shiftOut : Nat → Nat} {w : Cell → Bool}

/-- The kind alone decides what a setter stores. -/
abbrev Stores (w : Cell → Bool) (g : Locator_t → Option Locator_t) : Prop :=
  CellWise Cell.value (· = .kind) w g

theorem agree_kind {l m : Locator_t} (h : Agree Cell.value (· = .kind) l m) : m.kind = l.kind :=
  (h .kind rfl).symm

/-- Where the kind decides on what is done, it is enough to look at each kind. -/
theorem stores_of_kind {g : Locator_t → Option Locator_t}
    (h : ∀ kind, ∃ g', Stores w g' ∧ ∀ l : Locator_t, l.kind = kind → g l = g' l) : Stores w g := by
  refine .piecewise fun l => ?_
  obtain ⟨g', hg', heq⟩ := h l.kind
  exact ⟨g', hg', fun m hagree => heq m (agree_kind hagree)⟩

theorem stores_octet (i : Fin 16) (x : UInt8) (hw : w (.octet i) = true) :
    Stores w fun l => some { l with address := l.address.set i.val x i.isLt } := by
  refine .of_cells fun cell => ?_
  match cell with
  | .kind => exact Or.inl fun _ => rfl
  | .half j => exact Or.inl fun _ => rfl
  | .octet j =>
      by_cases hij : i = j
      · subst hij
        exact Or.inr ⟨hw, x.toNat, fun l => by simp [Cell.value, octetAt]⟩
      · have hne : i.val ≠ j.val := fun h => hij (Fin.ext h)
        exact Or.inl fun l => by simp [Cell.value, octetAt, hne]

theorem stores_address (address : Vector UInt8 16) (hw : ∀ i, w (.octet i) = true) :
    Stores w fun l => some { l with address } := by
  refine .of_cells fun cell => ?_
  match cell with
  | .kind => exact Or.inl fun _ => rfl
  | .half j => exact Or.inl fun _ => rfl
  | .octet j => exact Or.inr ⟨hw j, (address[j.val]?.getD 0).toNat, fun _ => rfl⟩

theorem stores_setOctets (a b c d : Nat) (hw : ∀ i : Fin 16, 12 ≤ i.val → w (.octet i) = true) :
    Stores w fun l => some (setOctets l a b c d) :=
  (stores_octet 12 _ (hw 12 (by decide))).bind ((stores_octet 13 _ (hw 13 (by decide))).bind
    ((stores_octet 14 _ (hw 14 (by decide))).bind (stores_octet 15 _ (hw 15 (by decide)))))

theorem stores_physical (port : UInt16) (hw : w (.half 0) = true) :
    Stores w fun l => some (setPhysicalPort l port).2 := by
  refine .of_cells fun cell => ?_
  match cell with
  | .kind => exact Or.inl fun _ => rfl
  | .octet _ => exact Or.inl fun _ => rfl
  | .half 0 =>
      refine Or.inr ⟨hw, port.toNat, fun l => ?_⟩
      exact congrArg (fun x : UInt16 => (x.toNat : Int)) (half_zero_setHalf l.port port)
  | .half 1 =>
      refine Or.inl fun l => ?_
      exact congrArg (fun x : UInt16 => (x.toNat : Int)) (half_one_setHalf l.port port)

theorem stores_const (l' : Option Locator_t) (hw : ∀ cell, w cell = true) :
    Stores w fun _ => l' := by
  cases l' with
  | none => exact .undefined
  | some l' => exact .of_cells fun cell => Or.inr ⟨hw cell, cell.value l', fun _ => rfl⟩

/-- On the locators of one kind the function returns one result and stores one thing. -/
def Acts (w : Cell → Bool) (kind : Int) (f : Locator_t → Option (Bool × Locator_t)) : Prop :=
  ∃ ok g, Stores w g ∧ ∀ l : Locator_t, l.kind = kind → f l = (g l).map fun l' => (ok, l')

namespace Acts

variable {kind : Int} {f f' : Locator_t → Option (Bool × Locator_t)}

theorem rejects (h : ∀ l : Locator_t, l.kind = kind → f l = some (false, l)) : Acts w kind f :=
  ⟨false, _, .keep, h⟩

theorem undefined (h : ∀ l : Locator_t, l.kind = kind → f l = none) : Acts w kind f :=
  ⟨false, _, .undefined, h⟩

theorem returns {ok : Bool} {g : Locator_t → Locator_t} (hg : Stores w fun l => some (g l))
    (h : ∀ l : Locator_t, l.kind = kind → f l = some (ok, g l)) : Acts w kind f :=
  ⟨ok, _, hg, h⟩

theorem congr (h : Acts w kind f) (heq : ∀ l : Locator_t, l.kind = kind → f' l = f l) :
    Acts w kind f' := by
  obtain ⟨ok, g, hg, hf⟩ := h
  exact ⟨ok, g, hg, fun l hl => (heq l hl).trans (hf l hl)⟩

/-- A setter that rejects the locators of some kinds. -/
theorem guard {p : Int → Prop} [DecidablePred p] {ok : Bool} {g : Locator_t → Locator_t}
    (hg : Stores w fun l => some (g l)) :
    Acts w kind fun l => some (if p l.kind then (false, l) else (ok, g l)) := by
  by_cases hp : p kind
  · exact .rejects fun l hl => by rw [hl, if_pos hp]
  · exact .returns hg fun l hl => by rw [hl, if_neg hp]

end Acts

theorem acts_setIPv4 (kind : Int) (ipv4 : List Char)
    (hw : ∀ i : Fin 16, 12 ≤ i.val → w (.octet i) = true) :
    Acts w kind fun l => some (setIPv4 l ipv4) := by
  rcases setIPv4_cases kind ipv4 with hrejects | ⟨ok, a, b, c, d, hstores⟩
  · exact .rejects fun l hl => by rw [hrejects l hl]
  · exact .returns (stores_setOctets a b c d hw) fun l hl => by rw [hstores l hl]

theorem stores_setWanOctets (a b c d : Int)
    (hw : ∀ i : Fin 16, 8 ≤ i.val ∧ i.val < 12 → w (.octet i) = true) :
    Stores w fun l => some (setWanOctets l a b c d) :=
  (stores_octet 8 _ (hw 8 (by decide))).bind ((stores_octet 9 _ (hw 9 (by decide))).bind
    ((stores_octet 10 _ (hw 10 (by decide))).bind (stores_octet 11 _ (hw 11 (by decide)))))

theorem stores_setLanOctets (a b c d e f g h : Int)
    (hw : ∀ i : Fin 16, i.val < 8 → w (.octet i) = true) :
    Stores w fun l => some (setLanOctets l a b c d e f g h) :=
  (stores_octet 0 _ (hw 0 (by decide))).bind ((stores_octet 1 _ (hw 1 (by decide))).bind
    ((stores_octet 2 _ (hw 2 (by decide))).bind ((stores_octet 3 _ (hw 3 (by decide))).bind
      ((stores_octet 4 _ (hw 4 (by decide))).bind ((stores_octet 5 _ (hw 5 (by decide))).bind
        ((stores_octet 6 _ (hw 6 (by decide))).bind (stores_octet 7 _ (hw 7 (by decide)))))))))

theorem acts_setIPv6 (shiftOut : Nat → Nat) (kind : Int) (ipv6 : List Char) (hw : ∀ i, w (.octet i) = true) :
    Acts w kind fun l => setIPv6 shiftOut l ipv6 := by
  rcases setIPv6_cases shiftOut kind ipv6 with hrejects | hnone | ⟨ok, address, hstores⟩
  · exact .rejects hrejects
  · exact .undefined hnone
  · exact .returns (stores_address address hw) hstores

theorem acts_ip (kind : Int) (text : List Char) (hw : ∀ i, w (.octet i) = true) :
    Acts w kind fun l => ip shiftOut l text := by
  by_cases hv4 : kind = LOCATOR_KIND_TCPv4 ∨ kind = LOCATOR_KIND_UDPv4
  · refine (acts_setIPv4 kind text fun i _ => hw i).congr fun l hl => ?_
    subst hl
    exact if_pos hv4
  · by_cases hv6 : kind = LOCATOR_KIND_TCPv6 ∨ kind = LOCATOR_KIND_UDPv6
    · refine (acts_setIPv6 shiftOut kind text hw).congr fun l hl => ?_
      subst hl
      exact (if_neg hv4).trans (if_pos hv6)
    · refine .rejects fun l hl => ?_
      subst hl
      exact (if_neg hv4).trans (if_neg hv6)

section Address

variable {c : Int} {l l₁ l₂ l₃ : Locator_t} {lan wan ipv4 : List Char}

theorem setIPv4address_lan (hlan : setLanID c l lan = (false, l₁)) :
    setIPv4address c l lan wan ipv4 = (false, invalidate l₁) := by
  unfold setIPv4address
  rw [hlan]
  rfl

theorem setIPv4address_wan (hlan : setLanID c l lan = (true, l₁))
    (hwan : setWan l₁ wan = (false, l₂)) :
    setIPv4address c l lan wan ipv4 = (false, invalidate l₂) := by
  unfold setIPv4address
  rw [hlan]
  dsimp only
  rw [hwan]
  rfl

theorem setIPv4address_ipv4 (hlan : setLanID c l lan = (true, l₁))
    (hwan : setWan l₁ wan = (true, l₂)) (hipv4 : setIPv4 l₂ ipv4 = (false, l₃)) :
    setIPv4address c l lan wan ipv4 = (false, invalidate l₃) := by
  unfold setIPv4address
  rw [hlan]
  dsimp only
  rw [hwan]
  dsimp only
  rw [hipv4]
  rfl

theorem setIPv4address_all (hlan : setLanID c l lan = (true, l₁))
    (hwan : setWan l₁ wan = (true, l₂)) (hipv4 : setIPv4 l₂ ipv4 = (true, l₃)) :
    setIPv4address c l lan wan ipv4 = (true, l₃) := by
  unfold setIPv4address
  rw [hlan]
  dsimp only
  rw [hwan]
  dsimp only
  rw [hipv4]
  rfl

@[simp] theorem invalidate_setOctets (l : Locator_t) (a b c d : Nat) :
    invalidate (setOctets l a b c d) = invalidate l := rfl

@[simp] theorem invalidate_setWanOctets (l : Locator_t) (a b c d : Int) :
    invalidate (setWanOctets l a b c d) = invalidate l := rfl

@[simp] theorem invalidate_setLanOctets (l : Locator_t) (a b c d e f g h : Int) :
    invalidate (setLanOctets l a b c d e f g h) = invalidate l := rfl

end Address

/-- What is rejected at any of the three texts leaves a cleared address. -/
theorem acts_setIPv4address (c kind : Int) (lan wan ipv4 : List Char)
    (hw : ∀ i, w (.octet i) = true) :
    Acts w kind fun l => some (setIPv4address c l lan wan ipv4) := by
  have hclear : (∀ l : Locator_t, l.kind = kind →
      setIPv4address c l lan wan ipv4 = (false, invalidate l)) →
      Acts w kind fun l => some (setIPv4address c l lan wan ipv4) := by
    intro h
    exact ⟨false, _, stores_address LOCATOR_ADDRESS_INVALID hw, fun l hl => congrArg some (h l hl)⟩
  rcases setLanID_cases c kind lan with hlan | ⟨o₀, o₁, o₂, o₃, o₄, o₅, o₆, o₇, hlan⟩
  · exact hclear fun l hl => setIPv4address_lan (hlan l hl)
  rcases setWan_cases wan with hwan | ⟨p₀, p₁, p₂, p₃, hwan⟩
  · refine hclear fun l hl => ?_
    rw [setIPv4address_wan (hlan l hl) (hwan _), invalidate_setLanOctets]
  -- The kind is still that of the locator.
  have hset : ∀ l : Locator_t, l.kind = kind →
      (setWanOctets (setLanOctets l o₀ o₁ o₂ o₃ o₄ o₅ o₆ o₇) p₀ p₁ p₂ p₃).kind = kind :=
    fun l hl => hl
  rcases setIPv4_cases kind ipv4 with hipv4 | ⟨ok, a, b, c', d, hipv4⟩
  · refine hclear fun l hl => ?_
    rw [setIPv4address_ipv4 (hlan l hl) (hwan _) (hipv4 _ (hset l hl)), invalidate_setWanOctets,
      invalidate_setLanOctets]
  cases ok with
  | false =>
      refine hclear fun l hl => ?_
      rw [setIPv4address_ipv4 (hlan l hl) (hwan _) (hipv4 _ (hset l hl)), invalidate_setOctets,
        invalidate_setWanOctets, invalidate_setLanOctets]
  | true =>
      have hlanStores := stores_setLanOctets o₀ o₁ o₂ o₃ o₄ o₅ o₆ o₇ fun i _ => hw i
      have hwanStores := stores_setWanOctets p₀ p₁ p₂ p₃ fun i _ => hw i
      have hall := hlanStores.bind (hwanStores.bind (stores_setOctets a b c' d fun i _ => hw i))
      exact ⟨true, _, hall, fun l hl =>
        congrArg some (setIPv4address_all (hlan l hl) (hwan _) (hipv4 _ (hset l hl)))⟩

theorem acts_addr (kind : Int) (addr : Nat → UInt8)
    (hw : ∀ i : Fin 16, 12 ≤ i.val → w (.octet i) = true) :
    Acts w kind fun l => some (setIPv4_addr l addr) :=
  .guard (p := fun k => k ≠ LOCATOR_KIND_TCPv4 ∧ k ≠ LOCATOR_KIND_UDPv4)
    (stores_setOctets _ _ _ _ hw)

/-- The second check of the kind finds what the first has found. -/
theorem setIPv4_locator_eq (l orig_locator : Locator_t) :
    setIPv4_locator l orig_locator = setIPv4_addr l (getIPv4 orig_locator) := by
  unfold setIPv4_locator setIPv4_addr
  split_ifs
  · rfl
  · rfl

theorem acts_setWan (kind : Int) (wan : List Char)
    (hw : ∀ i : Fin 16, 8 ≤ i.val ∧ i.val < 12 → w (.octet i) = true) :
    Acts w kind fun l => some (setWan l wan) := by
  rcases setWan_cases wan with hrejects | ⟨a, b, c, d, hstores⟩
  · exact .rejects fun l _ => congrArg some (hrejects l)
  · exact ⟨true, _, stores_setWanOctets a b c d hw, fun l _ => congrArg some (hstores l)⟩

theorem acts_setLanID (c kind : Int) (lanId : List Char)
    (hw : ∀ i : Fin 16, i.val < 8 → w (.octet i) = true) :
    Acts w kind fun l => some (setLanID c l lanId) := by
  rcases setLanID_cases c kind lanId with hrejects | ⟨o₀, o₁, o₂, o₃, o₄, o₅, o₆, o₇, hstores⟩
  · exact .rejects fun l hl => congrArg some (hrejects l hl)
  · exact ⟨true, _, stores_setLanOctets o₀ o₁ o₂ o₃ o₄ o₅ o₆ o₇ hw,
      fun l hl => congrArg some (hstores l hl)⟩

theorem acts_createLocator (kind kindin : Int) (address : List Char) (portin : Nat)
    (hw : ∀ cell, w cell = true) :
    Acts w kind fun l =>
      (createLocator shiftOut kindin address portin l).map fun l' => (true, l') :=
  ⟨true, _, stores_const (createLocator shiftOut kindin address portin
    ⟨0, 0, LOCATOR_ADDRESS_INVALID⟩) hw, fun _ _ => rfl⟩

/-- The setters that return the high half of the port store nothing, where they do. -/
theorem Setter.acts (shiftOut : Nat → Nat) (s : Setter) (kind : Int) :
    Acts s.writes.has kind (fun l => s.apply shiftOut l) ∨
      s.returnsPort kind = true ∧
        ∀ l : Locator_t, l.kind = kind → s.apply shiftOut l = some (half l.port 1 != 0, l) := by
  have hquad : ∀ i : Fin 16, 12 ≤ i.val → ({ low := 12, high := 16 } : Footprint).has (.octet i) :=
    fun i hi => decide_eq_true ⟨hi, i.isLt⟩
  have hall : ∀ i : Fin 16, ({ high := 16 } : Footprint).has (.octet i) = true :=
    fun i => decide_eq_true ⟨Nat.zero_le _, i.isLt⟩
  have hwan : ∀ i : Fin 16, 8 ≤ i.val ∧ i.val < 12 →
      ({ low := 8, high := 12 } : Footprint).has (.octet i) = true :=
    fun i hi => decide_eq_true hi
  cases s with
  | createLocator kindin address portin =>
      refine Or.inl (acts_createLocator kind kindin address portin fun cell => ?_)
      match cell with
      | .kind => rfl
      | .half 0 => rfl
      | .half 1 => rfl
      | .octet i => exact hall i
  | setIPv4_addr addr =>
      exact Or.inl (acts_addr kind addr hquad)
  | setIPv4_octets o1 o2 o3 o4 =>
      exact Or.inl (.guard (p := fun k => k ≠ LOCATOR_KIND_TCPv4 ∧ k ≠ LOCATOR_KIND_UDPv4)
        (stores_setOctets _ _ _ _ hquad))
  | setIPv4 ipv4 =>
      exact Or.inl (acts_setIPv4 kind ipv4 hquad)
  | setIPv4_locator orig_locator =>
      exact Or.inl ((acts_addr kind (getIPv4 orig_locator) hquad).congr fun l _ =>
        congrArg some (setIPv4_locator_eq l orig_locator))
  | setIPv6_groups groups =>
      exact Or.inl ⟨true, _, stores_address _ hall, fun l _ => rfl⟩
  | setIPv6 ipv6 =>
      exact Or.inl (acts_setIPv6 shiftOut kind ipv6 hall)
  | ip text =>
      exact Or.inl (acts_ip kind text hall)
  | setLogicalPort port =>
      exact Or.inr ⟨rfl, fun _ _ => rfl⟩
  | setPhysicalPort port =>
      exact Or.inl ⟨_, _, stores_physical port rfl, fun l _ => rfl⟩
  | setPortRTPS port =>
      by_cases hudp : kind = LOCATOR_KIND_UDPv4 ∨ kind = LOCATOR_KIND_UDPv6
      · refine Or.inl ⟨port != 0, _, stores_physical port rfl, fun l hl => ?_⟩
        subst hl
        exact congrArg some (if_pos hudp)
      · by_cases htcp : kind = LOCATOR_KIND_TCPv4 ∨ kind = LOCATOR_KIND_TCPv6
        · refine Or.inr ⟨decide_eq_true htcp, fun l hl => ?_⟩
          subst hl
          exact congrArg some ((if_neg hudp).trans (if_pos htcp))
        · refine Or.inl (.rejects fun l hl => ?_)
          subst hl
          exact congrArg some ((if_neg hudp).trans (if_neg htcp))
  | setWan_octets o1 o2 o3 o4 =>
      exact Or.inl ⟨true, _, stores_setWanOctets o1.toNat o2.toNat o3.toNat o4.toNat hwan,
        fun l _ => rfl⟩
  | setWan wan =>
      exact Or.inl (acts_setWan kind wan hwan)
  | setLanID c lanId =>
      exact Or.inl (acts_setLanID c kind lanId fun i hi => decide_eq_true ⟨Nat.zero_le _, hi⟩)
  | setIPv4address c lan wan ipv4 =>
      exact Or.inl (acts_setIPv4address c kind lan wan ipv4 hall)

theorem stores_step (s : Setter) :
    Stores s.writes.has fun l => (locators shiftOut).step l s := by
  refine stores_of_kind fun kind => ?_
  rcases s.acts shiftOut kind with ⟨ok, g, hg, heq⟩ | ⟨-, heq⟩
  · refine ⟨g, hg, fun l hl => ?_⟩
    have happly : s.apply shiftOut l = (g l).map fun l' => (ok, l') := heq l hl
    have hmap : (s.apply shiftOut l).map Prod.snd = g l := by
      rw [happly, Option.map_map]
      exact Option.map_id'
    exact hmap
  · refine ⟨_, .keep, fun l hl => ?_⟩
    have hmap : (s.apply shiftOut l).map Prod.snd = some l := by
      rw [heq l hl, Option.map_some]
    exact hmap

end IPLocator
end Rtps
end Mozi
