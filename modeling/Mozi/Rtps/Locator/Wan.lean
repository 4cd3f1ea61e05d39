import Mozi.Rtps.Locator.IPv4Acceptance

/-!
# Wan — the WAN address and the LAN identifier of a locator

`setWan`, `setLanID` and their printers of `ip_locator.cc`.  Neither setter checks the numbers, and
neither looks at the characters between them or behind the last one.
-/

namespace Mozi
namespace Rtps
namespace IPLocator

open Foundation InputStream

/-- `(octet)x` of an `int` -/
def octet (x : Int) : UInt8 :=
  UInt8.ofNat (x % 256).toNat

/-- `>> x` for an `int` -/
def getInt : InputStream → Option Int → Option Int × InputStream :=
  getSigned 32 10

/-! ## WAN -/

/-- `locator.address[8] = (octet)a;` and so on. -/
def setWanOctets (locator : Locator_t) (a b c d : Int) : Locator_t :=
  let address := locator.address.set 8 (octet a)
  let address := address.set 9 (octet b)
  let address := address.set 10 (octet c)
  let address := address.set 11 (octet d)
  { locator with address := address }

def setWan (locator : Locator_t) (wan : List Char) : Bool × Locator_t :=
  let (vars, ss) := extract getInt quad (.ofText wan)
  match ss.fail, vars with
  | false, [some a, some b, some c, some d] => (true, setWanOctets locator a b c d)
  | _, _ => (false, locator)

/-- Bytes printed as numbers with points between them. -/
def printOctets (locator : Locator_t) (indices : List Nat) : List Char :=
  ['.'].intercalate (indices.map fun i => Nat.toDigits 10 (byteAt locator.address i))

def toWanstring (locator : Locator_t) : List Char :=
  printOctets locator [8, 9, 10, 11]

/-! ## LAN -/

/-- `ss >> a >> ch >> b >> ch >> d >> ch >> e >> ch >> f >> ch >> g >> h`: nothing is extracted
into `c`, and no character between `g` and `h`.  The source spells the fifth `ch` as `cg`. -/
def lanChain : List Extraction :=
  [.number, .mark, .number, .mark, .number, .mark, .number, .mark, .number, .mark, .number,
    .number]

/-- `locator.address[0] = (octet)a;` and so on. -/
def setLanOctets (locator : Locator_t) (a b c d e f g h : Int) : Locator_t :=
  let address := locator.address.set 0 (octet a)
  let address := address.set 1 (octet b)
  let address := address.set 2 (octet c)
  let address := address.set 3 (octet d)
  let address := address.set 4 (octet e)
  let address := address.set 5 (octet f)
  let address := address.set 6 (octet g)
  let address := address.set 7 (octet h)
  { locator with address := address }

/-- `c` is what the variable holds that has no value. -/
def setLanID (c : Int) (locator : Locator_t) (lanId : List Char) : Bool × Locator_t :=
  if locator.kind = LOCATOR_KIND_TCPv4 then
    let (vars, ss) := extract getInt lanChain (.ofText lanId)
    match ss.fail, vars with
    | false, [some a, some b, some d, some e, some f, some g, some h] =>
        (true, setLanOctets locator a b c d e f g h)
    | _, _ => (false, locator)
  else
    (false, locator)

def toLanIDstring (locator : Locator_t) : List Char :=
  if locator.kind ≠ LOCATOR_KIND_TCPv4 then []
  else printOctets locator [0, 1, 2, 3, 4, 5, 6, 7]

/-! ## The texts they accept -/

variable {locator : Locator_t} {text rest : List Char} {c : Int}

theorem extracts_getInt : Extracts getInt (IntNumeral 32) :=
  extracts_getSigned 32

/-- `setWan` accepts what its chain reads, whatever is behind it. -/
theorem setWan_iff : (setWan locator text).1 = true ↔
    ∃ vs rest, Reads (IntNumeral 32) quad text vs rest := by
  rw [← extract_iff extracts_getInt]
  unfold setWan
  dsimp only
  constructor
  · intro h
    split at h
    · rename_i hfail _
      exact hfail
    · cases h
  · intro h
    obtain ⟨_, vs, hreads, hvs⟩ := extract_ok extracts_getInt h
    have hlength : vs.length = 4 := hreads.length_eq
    match vs, hlength, hvs with
    | [a, b, c, d], _, hvs =>
        rw [h, hvs]
        rfl

/-- A text that is rejected changes nothing. -/
theorem setWan_rejected (h : (setWan locator text).1 = false) :
    (setWan locator text).2 = locator := by
  unfold setWan at h ⊢
  dsimp only at h ⊢
  split at h
  · cases h
  · rfl

theorem setLanID_iff (hkind : locator.kind = LOCATOR_KIND_TCPv4) :
    (setLanID c locator text).1 = true ↔
      ∃ vs rest, Reads (IntNumeral 32) lanChain text vs rest := by
  rw [← extract_iff extracts_getInt]
  unfold setLanID
  rw [if_pos hkind]
  dsimp only
  constructor
  · intro h
    split at h
    · rename_i hfail _
      exact hfail
    · cases h
  · intro h
    obtain ⟨_, vs, hreads, hvs⟩ := extract_ok extracts_getInt h
    have hlength : vs.length = 7 := hreads.length_eq
    match vs, hlength, hvs with
    | [a, b, d, e, f, g, h'], _, hvs =>
        rw [h, hvs]
        rfl

theorem setLanID_rejected (h : (setLanID c locator text).1 = false) :
    (setLanID c locator text).2 = locator := by
  unfold setLanID at h ⊢
  split_ifs at h ⊢
  · dsimp only at h ⊢
    split at h
    · cases h
    · rfl
  · rfl

end IPLocator
end Rtps
end Mozi
