import Mozi.Foundation.InputStream

/-!
# IPLocator — IPv6 text of a locator

`core/communication/transport/dds/rtps/common/locator/locator.h` and `ip_locator.cc`:
`IPv6isCorrect`, `setIPv6` and `toIPv6string`.  `none` is a write outside `address` or the use of a
variable that has no value yet.  Loop headers `for (; i < 16)` are read as `for (; i < 16;)`; the
warnings in the log are left out.
-/

namespace Mozi
namespace Rtps

open Foundation

/-! ## Locators -/

structure Locator_t where
  kind : Int
  port : Nat
  address : Vector UInt8 16
deriving DecidableEq

def LOCATOR_KIND_UDPv6 : Int := 2

def LOCATOR_KIND_TCPv6 : Int := 8

/-- `LOCATOR_ADDRESS_INVALID` -/
def LOCATOR_ADDRESS_INVALID : Vector UInt8 16 :=
  Vector.replicate 16 0

namespace IPLocator

/-! ## `IPv6isCorrect` -/

/-- `IPv6_QUARTET_REGEX` -/
def quartet (cs : List Char) : Bool :=
  cs.all isHexDigit && decide (cs.length ≤ 4)

/-- `find("::")` -/
def findColons : List Char → Option Nat
  | [] => none
  | c :: cs =>
      if c = ':' ∧ cs.head? = some ':' then some 0
      else (findColons cs).map (· + 1)

/-- `while (count-- >= 0)`: one round for each field between the colons. -/
def fieldsCorrect : Nat → InputStream → Bool
  | 0, _ => true
  | rounds + 1, s =>
      let (sb_value, s) := s.getUntil ':'
      if !quartet sb_value then false
      else
        let s := if sb_value.isEmpty then s.clear else s
        fieldsCorrect rounds s.getChar.2

def IPv6isCorrect (ipv6 : List Char) : Bool :=
  let address := ipv6.takeWhile (· != '%')
  let count := address.count ':'
  if count < 2 ∨ count > 8 then false
  else if count = 8 ∧ address.head? ≠ some ':' ∧ address.getLast? ≠ some ':' then false
  else if (findColons address).any fun ind =>
      (findColons (address.drop (ind + 1))).isSome then false
  else if address.head? = some ':' ∧ address[1]? ≠ some ':' then false
  else if address.getLast? = some ':' ∧ address[address.length - 2]? ≠ some ':' then false
  else fieldsCorrect (count + 1) (.ofText address)

/-! ## `setIPv6` -/

/-- A value stored in a `uint16_t`. -/
def u16 (x : Int) : Nat :=
  (x % 2 ^ 16).toNat

/-- The numbers of bytes that `::` stands for. -/
structure Zeros where
  initial_zeros : Nat
  final_zeros : Nat
  position_zeros : Nat
  number_zeros : Nat

/-- The loop over `find(':', aux + 1)`: `aux` is the index of the next character. -/
def scanColons (count : Int) : List Char → Nat → Nat → Nat → Zeros
  | [], _, _, position_zeros => ⟨0, 0, position_zeros, 0⟩
  | c :: cs, aux, aux_prev, position_zeros =>
      if c = ':' then
        -- `break` at the second of two neighbouring colons.
        if aux_prev + 1 = aux then ⟨0, 0, position_zeros, u16 ((7 - (count - 1)) * 2)⟩
        else scanColons count cs (aux + 1) aux (u16 (position_zeros + 2))
      else scanColons count cs (aux + 1) aux_prev position_zeros

def zerosOf (ipv6 : List Char) (count : Int) : Zeros :=
  if ipv6.head? = some ':' then
    if ipv6.getLast? = some ':' then ⟨16, 0, 0, 0⟩
    else ⟨u16 ((7 - (count - 2)) * 2), 0, 0, 0⟩
  else if ipv6.getLast? = some ':' then ⟨0, u16 ((7 - (count - 2)) * 2), 0, 0⟩
  else scanColons count ipv6 0 ipv6.length 0

/-- The variables of the extraction loops; `input_aux` has no value before the first extraction. -/
structure Reader where
  ss : InputStream
  input_aux : Option Nat
  i : Nat
  address : Vector UInt8 16

/-- `address[i++] = x` -/
def putByte (r : Reader) (x : Nat) : Option Reader :=
  if h : r.i < 16 then some { r with address := r.address.set r.i (UInt8.ofNat x), i := r.i + 1 }
  else none

/-- `ss >> punct` -/
def readPunct (r : Reader) : Reader :=
  { r with ss := r.ss.getChar.2 }

/-- `ss >> input_aux` -/
def readInput (r : Reader) : Reader :=
  let (input_aux, ss) := r.ss.getUInt32 16 r.input_aux
  { r with ss := ss, input_aux := input_aux }

/-- `for (; i < stop;) address[i++] = 0;` -/
def putZeros (stop : Int) : Nat → Reader → Option Reader
  | 0, _ => none
  | rounds + 1, r =>
      if (r.i : Int) < stop then do
        let r ← putByte r 0
        putZeros stop rounds r
      else
        some r

/-- The two bytes of a group. -/
def putGroup (r : Reader) (input_aux : Nat) : Option Reader := do
  let r ← putByte r (input_aux >>> 8)
  putByte r (input_aux &&& 0xFF)

/-- `for (; i < stop;)` with the extraction `read` and the check `overflow`, which makes
`setIPv6` return `false`. -/
def readGroups (read : Reader → Reader) (overflow : Nat → Bool) (stop : Int) :
    Nat → Reader → Option (Bool × Reader)
  | 0, _ => none
  | rounds + 1, r =>
      if (r.i : Int) < stop then do
        let r := read r
        let input_aux ← r.input_aux
        if overflow input_aux then some (false, r)
        else do
          let r ← putGroup r input_aux
          readGroups read overflow stop rounds r
      else
        some (true, r)

/-- `ss >> punct >> input_aux` -/
def punctInput (r : Reader) : Reader :=
  readInput (readPunct r)

/-- `ss >> input_aux >> punct` -/
def inputPunct (r : Reader) : Reader :=
  readPunct (readInput r)

/-- The branch of `initial_zeros`.  `input_aux >> 65535` shifts by more than the width of the
operand, which has no defined value: `shiftOut` is what it gives. -/
def parseInitial (shiftOut : Nat → Nat) (initial_zeros : Nat) (r : Reader) :
    Option (Bool × Reader) := do
  let r ← putZeros initial_zeros 17 r
  let r := readPunct r
  -- The siblings of this check compare with 65536.
  let (ok, r) ← readGroups punctInput (fun v => shiftOut v != 0) 16 9 r
  if ok && initial_zeros == 16 then some (true, readPunct r) else some (ok, r)

/-- The branch of `final_zeros`. -/
def parseFinal (z : Zeros) (r : Reader) : Option (Bool × Reader) := do
  let (ok, r) ← readGroups inputPunct (fun v => decide (v ≥ 65536)) (16 - z.final_zeros) 9 r
  if ok then do
    -- This loop is for `::` in the middle, but `final_zeros` is 0 there.
    let r ← putZeros (z.position_zeros + z.number_zeros) 17 r
    readGroups punctInput (fun v => decide (v ≥ 65535)) 16 9 r
  else
    some (false, r)

/-- The last branch. -/
def parseGroups (r : Reader) : Option (Bool × Reader) := do
  let r := readInput r
  let input_aux ← r.input_aux
  let r ← putGroup r input_aux
  readGroups punctInput (fun v => decide (v ≥ 65536)) 16 9 r

def setIPv6 (shiftOut : Nat → Nat) (locator : Locator_t) (ipv6 : List Char) :
    Option (Bool × Locator_t) :=
  if locator.kind ≠ LOCATOR_KIND_TCPv6 ∧ locator.kind ≠ LOCATOR_KIND_UDPv6 then
    some (false, locator)
  else if !IPv6isCorrect ipv6 then
    some (false, locator)
  else do
    let z := zerosOf ipv6 (u16 (ipv6.count ':'))
    let r : Reader := ⟨.ofText ipv6, none, 0, LOCATOR_ADDRESS_INVALID⟩
    let (ok, r) ←
      if z.initial_zeros ≠ 0 then parseInitial shiftOut z.initial_zeros r
      else if z.final_zeros ≠ 0 then parseFinal z r
      else parseGroups r
    some (ok && r.ss.inAvail == 0, { locator with address := r.address })

/-! ## `toIPv6string` -/

/-- The variables of the first loop. -/
structure Blocks where
  max_block_index : Nat
  max_block_size : Nat
  actual_block_index : Nat
  actual_block_size : Nat
  compress : Bool

/-- The body of the first loop; `zero` says that the bytes `i` and `i + 1` are 0. -/
def scanBlock (zero : Nat → Bool) (b : Blocks) (i : Nat) : Blocks :=
  if zero i then
    if b.compress then { b with actual_block_size := b.actual_block_size + 1 }
    else { b with compress := true, actual_block_index := i, actual_block_size := 1 }
  else if b.compress then
    if b.actual_block_size > b.max_block_size then
      { b with
        compress := false
        -- The size for the index: the code after the loop assigns `actual_block_index`.
        max_block_index := b.actual_block_size
        max_block_size := b.actual_block_size }
    else { b with compress := false }
  else b

/-- `for (int i = 0; i != 16; i += 2)` -/
def blockIndices : List Nat :=
  [0, 2, 4, 6, 8, 10, 12, 14]

/-- The index and the size of the block to elide. -/
def maxBlock (zero : Nat → Bool) : Nat × Nat :=
  let b := blockIndices.foldl (scanBlock zero) ⟨0, 0, 0, 0, false⟩
  if b.compress && decide (b.actual_block_size > b.max_block_size) then
    (b.actual_block_index, b.actual_block_size)
  else
    (b.max_block_index, b.max_block_size)

/-- The body of the second loop: the size that is left, and the text so far. -/
def printBlock (field : Nat → List Char) (compress : Bool) (max_block_index : Nat)
    (st : Nat × List Char) (i : Nat) : Nat × List Char :=
  let (max_block_size, ss) := st
  if compress && decide (i ≥ max_block_index) && decide (max_block_size > 0) then
    (max_block_size - 1, if max_block_size - 1 = 0 then ss ++ [':'] else ss)
  else if i ≠ 14 then
    (max_block_size, ss ++ field i ++ [':'])
  else
    (max_block_size, ss ++ field i)

/-- The text of the groups `field i`, with the elided block. -/
def printBlocks (field : Nat → List Char) (max_block_index max_block_size : Nat) : List Char :=
  let compress := decide (max_block_size ≥ 2)
  -- A point where the text needs a colon.
  let ss := if compress && max_block_index == 0 then ['.'] else []
  (blockIndices.foldl (printBlock field compress max_block_index) (max_block_size, ss)).2

/-- Byte `i` of an address; the loops read bytes 0 to 15 only. -/
def byteAt (address : Vector UInt8 16) (i : Nat) : Nat :=
  (address[i]?.getD 0).toNat

def toIPv6string (locator : Locator_t) : List Char :=
  let zero i := byteAt locator.address i == 0 && byteAt locator.address (i + 1) == 0
  let field i := Nat.toDigits 16 ((byteAt locator.address i <<< 8) + byteAt locator.address (i + 1))
  let (max_block_index, max_block_size) := maxBlock zero
  printBlocks field max_block_index max_block_size

end IPLocator

end Rtps
end Mozi
