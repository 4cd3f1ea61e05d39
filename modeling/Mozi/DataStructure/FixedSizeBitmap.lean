import Mozi.Foundation.BitArray
import Mozi.Foundation.Loop
import Mozi.Foundation.UInt32

/-!
# FixedSizeBitmap — a window of items with one bit each

`core/common/data_structure/fixed_size_bitmap.h`, `BitmapRange` with `NBITS = 256`, hence
`NITEMS = 8`.  `none` is a failed assertion of the item type or an access to `bitmap_` outside its
eight words.  In `addRange` the second `offset` is read as `n_bits`; the `std::copy` of
`shift_map_right` is read as copying words towards higher indices.
-/

namespace Mozi
namespace DataStructure

open Foundation BitArray

/-- What `BitmapRange` uses of its item type: the comparisons, `operator+` with a `uint32_t`, and
the function object `Diff`, whose result is stored in a `uint32_t`. -/
class RangeItem (T : Type) where
  ge : T → T → Bool
  gt : T → T → Bool
  add : T → Nat → Option T
  diff : T → T → Option Nat

structure BitmapRange (T : Type) where
  base_ : T
  range_max_ : T
  bitmap_ : Vector (BitVec 32) 8
  num_bits_ : Nat
deriving DecidableEq

namespace BitmapRange

open RangeItem

variable {T : Type} [DecidableEq T] [RangeItem T]

/-! ## Array algorithms -/

/-- The index of the `k`-th element after `bitmap_.rbegin()`. -/
def rbegin (k : Nat) : Nat :=
  if k < 8 then 7 - k else 8

/-- `std::fill_n` with value 0; `idx k` is the index of the `k`-th element. -/
def fillN (idx : Nat → Nat) : Nat → Vector (BitVec 32) 8 → Option (Vector (BitVec 32) 8)
  | 0, b => some b
  | k + 1, b => do
      let b ← fillN idx k b
      write b (idx k) 0#32

/-- `std::copy` of some words, one after another: the `k`-th one from `src k` to `dst k`. -/
def copyN (src dst : Nat → Nat) : Nat → Vector (BitVec 32) 8 → Option (Vector (BitVec 32) 8)
  | 0, b => some b
  | k + 1, b => do
      let b ← copyN src dst k b
      let x ← b[src k]?
      write b (dst k) x

/-! ## Private helpers -/

/-- The loop of `calc_maximum_bit_set`, from index `i` down to `min_index`. -/
def maximumBitSet (b : Vector (BitVec 32) 8) (min_index : Nat) : Nat → Option Nat
  | 0 => some 0
  | i + 1 =>
      if i + 1 > min_index then do
        let bits ← b[i]?
        if bits ≠ 0#32 then
          -- Bits are counted from the most significant one, so the last one set is the largest.
          let bits := bits &&& ~~~(bits - 1#32)
          let offset := bits.clz.toNat + 1
          some ((i <<< 5) + offset)
        else
          maximumBitSet b min_index i
      else
        some 0

def calcMaximumBitSet (s : BitmapRange T) (starting_index min_index : Nat) :
    Option (BitmapRange T) := do
  let num_bits ← maximumBitSet s.bitmap_ min_index starting_index
  some { s with num_bits_ := num_bits }

/-- `bitmap_[i] = (bitmap_[n] << n_bits) | (bitmap_[n + 1] >> overflow_bits)`, `i` and `n`
counting up. -/
def shiftLeftLoop (n_bits : Nat) :
    Nat → Nat → Nat → Vector (BitVec 32) 8 → Option (Vector (BitVec 32) 8)
  | 0, _, _, b => some b
  | rounds + 1, i, n, b => do
      let x ← b[n]?
      let y ← b[n + 1]?
      let b ← write b i ((x <<< n_bits) ||| (y >>> (32 - n_bits)))
      shiftLeftLoop n_bits rounds (i + 1) (n + 1) b

def shiftMapLeft (s : BitmapRange T) (n_bits : Nat) : Option (BitmapRange T) :=
  if n_bits ≥ s.num_bits_ then
    some { s with num_bits_ := 0, bitmap_ := Vector.replicate 8 0#32 }
  else do
    let num_bits := s.num_bits_ - n_bits
    let n_items := n_bits >>> 5
    let n_bits := n_bits &&& 31
    -- A shift by whole words needs no bits of the neighbour.
    if n_bits = 0 then do
      let b ← copyN (n_items + ·) id (8 - n_items) s.bitmap_
      let b ← fillN rbegin n_items b
      some { s with num_bits_ := num_bits, bitmap_ := b }
    else do
      let b ← shiftLeftLoop n_bits (7 - n_items) 0 n_items s.bitmap_
      let x : BitVec 32 ← b[7]?
      let b ← write b (7 - n_items) (x <<< n_bits)
      let b ← fillN rbegin n_items b
      some { s with num_bits_ := num_bits, bitmap_ := b }

/-- `bitmap_[i] = (bitmap_[n] >> n_bits) | (bitmap_[n + 1] >> overflow_bits)`, `i` and `n`
counting down while `n > 0`. -/
def shiftRightLoop (n_bits : Nat) :
    Nat → Nat → Vector (BitVec 32) 8 → Option (Vector (BitVec 32) 8)
  | 0, _, b => some b
  | n + 1, i, b => do
      let x ← b[n + 1]?
      let y ← b[n + 2]?
      let b ← write b i ((x >>> n_bits) ||| (y >>> (32 - n_bits)))
      shiftRightLoop n_bits n (i - 1) b

def shiftMapRight (s : BitmapRange T) (n_bits : Nat) : Option (BitmapRange T) :=
  if n_bits ≥ 256 then
    some { s with num_bits_ := 0, bitmap_ := Vector.replicate 8 0#32 }
  else do
    let new_num_bits := s.num_bits_ + n_bits
    let n_items := n_bits >>> 5
    let n_bits := n_bits &&& 31
    let b ←
      if n_bits = 0 then do
        let b ← copyN (fun k => 7 - n_items - k) (7 - ·) (8 - n_items) s.bitmap_
        -- `rbegin`, as in `shift_map_left`, although the free words are the first ones.
        fillN rbegin n_items b
      else do
        let b ← shiftRightLoop n_bits (7 - n_items) 7 s.bitmap_
        let x : BitVec 32 ← b[0]?
        -- `<<`, where the loop above shifts to the right.
        let b ← write b n_items (x <<< n_bits)
        fillN id n_items b
    -- `num_bits_` grows also where no bit is set.
    let s := { s with num_bits_ := new_num_bits, bitmap_ := b }
    if new_num_bits > 256 then calcMaximumBitSet s 8 n_items else some s

/-! ## Constructors and the base -/

/-- `BitmapRange(base, max_bits)` -/
def newCapped (base : T) (max_bits : Nat) : Option (BitmapRange T) := do
  let range_max ← add base (min max_bits 255)
  some ⟨base, range_max, Vector.replicate 8 0#32, 0⟩

/-- `BitmapRange(base)` -/
def new (base : T) : Option (BitmapRange T) :=
  newCapped base 255

/-- `base(base, max_bits)` -/
def baseCapped (s : BitmapRange T) (base : T) (max_bits : Nat) : Option (BitmapRange T) := do
  let range_max ← add base (min max_bits 255)
  some { s with
    base_ := base, range_max_ := range_max, num_bits_ := 0, bitmap_ := Vector.replicate 8 0#32 }

/-- `base(base)` -/
def base (s : BitmapRange T) (base : T) : Option (BitmapRange T) := do
  let range_max ← add base 255
  some { s with
    base_ := base, range_max_ := range_max, num_bits_ := 0, bitmap_ := Vector.replicate 8 0#32 }

def updateBase (s : BitmapRange T) (base : T) : Option (BitmapRange T) :=
  if base = s.base_ then
    some s
  else do
    let s ←
      if gt base s.base_ then do
        let n_bits ← diff base s.base_
        shiftMapLeft s n_bits
      else do
        let n_bits ← diff s.base_ base
        shiftMapRight s n_bits
    -- The window gets its full width again, also if it was capped.
    let range_max ← add base 255
    some { s with base_ := base, range_max_ := range_max }

/-! ## Readers -/

def empty (s : BitmapRange T) : Bool :=
  s.num_bits_ == 0

def max (s : BitmapRange T) : Option T :=
  add s.base_ (sub32 s.num_bits_ 1)

/-- The loop of `min`: `item` is the item of the first bit of word `i`. -/
def minLoop (s : BitmapRange T) : Nat → Nat → T → Option T
  | 0, _, _ => some s.base_
  | n_longs + 1, i, item => do
      let bits ← s.bitmap_[i]?
      if bits ≠ 0#32 then
        add item bits.clz.toNat
      else do
        let item ← add item 32
        minLoop s n_longs (i + 1) item

def min (s : BitmapRange T) : Option T :=
  minLoop s ((s.num_bits_ + 31) / 32) 0 s.base_

def isSet (s : BitmapRange T) (item : T) : Option Bool :=
  if ge item s.base_ && ge s.range_max_ item then do
    let diff ← diff item s.base_
    -- A position at or past `num_bits_` is not set.
    if diff < s.num_bits_ then do
      let bits ← s.bitmap_[diff >>> 5]?
      let diff := diff &&& 31
      some (bits &&& (1#32 <<< (31 - diff)) != 0#32)
    else
      some false
  else
    some false

/-- The body of `while (bits)` of `for_each`: `bits` and the items visited so far, in order. -/
def visitBit (item : T) (st : BitVec 32 × List T) : Option (BitVec 32 × List T) := do
  let offset := st.1.clz.toNat
  let bit := 31 ^^^ offset
  let x ← add item offset
  some (st.1 &&& ~~~(1#32 <<< bit), st.2 ++ [x])

/-- `while (bits)` of `for_each`; 33 rounds are enough for 32 bits. -/
def visitBits (item : T) (bits : BitVec 32) (visited : List T) : Option (List T) := do
  let st ← whileM (fun st => st.1 != 0#32) (visitBit item) 33 (bits, visited)
  some st.2

/-- The loop of `for_each` over the words. -/
def forEachLoop (b : Vector (BitVec 32) 8) : Nat → Nat → T → List T → Option (List T)
  | 0, _, _, visited => some visited
  | n_longs + 1, i, item, visited => do
      let bits ← b[i]?
      let visited ← visitBits item bits visited
      let item ← add item 32
      forEachLoop b n_longs (i + 1) item visited

/-- The items `for_each` calls its function with, in order. -/
def forEach (s : BitmapRange T) : Option (List T) :=
  forEachLoop s.bitmap_ ((s.num_bits_ + 31) / 32) 0 s.base_ []

/-! ## Members -/

def add (s : BitmapRange T) (item : T) : Option (Bool × BitmapRange T) :=
  if ge item s.base_ && ge s.range_max_ item then do
    let diff ← diff item s.base_
    let num_bits := Nat.max (u32 (diff + 1)) s.num_bits_
    let pos := diff >>> 5
    let diff := diff &&& 31
    let bits ← s.bitmap_[pos]?
    let b ← write s.bitmap_ pos (bits ||| (1#32 <<< (31 - diff)))
    some (true, { s with num_bits_ := num_bits, bitmap_ := b })
  else
    some (false, s)

/-- The variables of the loop of `addRange`. -/
structure RangeLoop where
  pos : Nat
  n_bits : Nat
  mask : BitVec 32
  bits_in_mask : Nat
  bitmap_ : Vector (BitVec 32) 8

/-- The body of `while (n_bits >= bits_in_mask)` of `addRange`. -/
def addWord (st : RangeLoop) : Option RangeLoop := do
  let bits ← st.bitmap_[st.pos]?
  let b ← write st.bitmap_ st.pos (bits ||| st.mask)
  some ⟨st.pos + 1, st.n_bits - st.bits_in_mask, BitVec.allOnes 32, 32, b⟩

/-- `while (n_bits >= bits_in_mask)`; the ninth round has no word to write to. -/
def addWords (st : RangeLoop) : Option RangeLoop :=
  whileM (fun st => decide (st.n_bits ≥ st.bits_in_mask)) addWord 9 st

/-- `if (n_bits > 0)` after the loop: the first bits of one more word. -/
def addPart (st : RangeLoop) : Option (Vector (BitVec 32) 8) :=
  if st.n_bits > 0 then do
    let bits ← st.bitmap_[st.pos]?
    write st.bitmap_ st.pos
      (bits ||| (st.mask &&& (BitVec.allOnes 32 <<< (st.bits_in_mask - st.n_bits))))
  else
    some st.bitmap_

def addRange (s : BitmapRange T) (from_ to_ : T) : Option (BitmapRange T) := do
  let limit ← RangeItem.add s.base_ 256
  let min := if ge s.base_ from_ then s.base_ else from_
  let max := if ge to_ limit then limit else to_
  if ge min max then
    some s
  else do
    let offset ← diff min s.base_
    let n_bits ← diff max min
    let num_bits := Nat.max s.num_bits_ (u32 (offset + n_bits))
    let pos := offset >>> 5
    let offset := offset &&& 31
    let mask := BitVec.allOnes 32 >>> offset
    let st ← addWords ⟨pos, n_bits, mask, 32 - offset, s.bitmap_⟩
    let b ← addPart st
    some { s with num_bits_ := num_bits, bitmap_ := b }

def remove (s : BitmapRange T) (item : T) : Option (BitmapRange T) := do
  let max_value ← s.max
  if ge item s.base_ && ge max_value item then do
    let diff ← diff item s.base_
    let pos := diff >>> 5
    let diff := diff &&& 31
    let bits ← s.bitmap_[pos]?
    let b ← write s.bitmap_ pos (bits &&& ~~~(1#32 <<< (31 - diff)))
    let s := { s with bitmap_ := b }
    -- The last bit may be gone: search for the new end.
    if item = max_value then calcMaximumBitSet s (pos + 1) 0 else some s
  else
    some s

/-- The words that `memcpy` loads after `fill(0u)`; `bitmap i` is word `i` of the argument. -/
def loadWords (num_items : Nat) (bitmap : Nat → BitVec 32) : Vector (BitVec 32) 8 :=
  Vector.ofFn fun i => if i < num_items then bitmap i else 0#32

/-- The bits of the last word that are cut off, counted by `num_bits & 31u`. -/
def trimLastWord (num_bits num_items : Nat) (b : Vector (BitVec 32) 8) :
    Option (Vector (BitVec 32) 8) :=
  let shift := num_bits &&& 31
  if 0 < num_bits ∧ shift ≠ 0 then do
    let bits ← b[num_items - 1]?
    write b (num_items - 1) (bits &&& ~~~(BitVec.allOnes 32 >>> shift))
  else
    some b

def setBitmap (s : BitmapRange T) (num_bits : Nat) (bitmap : Nat → BitVec 32) :
    Option (BitmapRange T) := do
  let num_items := (Nat.min num_bits 256 + 31) / 32
  let b ← trimLastWord num_bits num_items (loadWords num_items bitmap)
  calcMaximumBitSet { s with num_bits_ := Nat.min num_bits 256, bitmap_ := b } num_items 0

end BitmapRange

end DataStructure
end Mozi
