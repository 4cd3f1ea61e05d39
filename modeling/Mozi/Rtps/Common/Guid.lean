import Mozi.Foundation.ThrowingStream

/-!
# Guid — identifiers and their text operators

`core/communication/transport/dds/rtps/common/guid.h` and `entity_id.h`.  The stream operators are
read with the names their misspelt ones denote (`exceptions`, `GuidPrefix::unknown`).
-/

namespace Mozi
namespace Rtps

open Foundation Reading

abbrev EntityId := Vector UInt8 4

abbrev GuidPrefix := Vector UInt8 12

structure GUID where
  guid_prefix : GuidPrefix
  entity_id : EntityId
deriving DecidableEq

/-- `ENTITY_ID_UNKNOWN` -/
def EntityId.unknown : EntityId :=
  Vector.replicate 4 0

def GuidPrefix.unknown : GuidPrefix :=
  Vector.replicate 12 0

/-- `c_Guid_Unknown` -/
def GUID.unknown : GUID :=
  { guid_prefix := GuidPrefix.unknown
    entity_id := EntityId.unknown }

/-! ## `operator<<` -/

/-- A byte in the base of the stream. -/
def hexText (v : UInt8) : List Char :=
  Nat.toDigits 16 v.toNat

/-- `std::setw(2)` with the fill character `0`. -/
def setw2 (text : List Char) : List Char :=
  List.replicate (2 - text.length) '0' ++ text

def GuidPrefix.print (guiP : GuidPrefix) : List Char :=
  (guiP.toList.map fun v => setw2 (hexText v)).intersperse ['.'] |>.flatten

def EntityId.print (id : EntityId) : List Char :=
  (id.toList.map hexText).intersperse ['.'] |>.flatten

def GUID.print (guid : GUID) : List Char :=
  if guid ≠ GUID.unknown then
    guid.guid_prefix.print ++ ['|'] ++ guid.entity_id.print
  else
    ['|', 'G', 'U', 'I', 'D', ' ', 'U', 'N', 'K', 'N', 'O', 'W', 'N', '|']

/-! ## `operator>>` -/

section Fields

variable {n : Nat}

/-- `value[i] = static_cast<octet>(hex)`; a value that was not read has made the stream throw. -/
def store (i : Nat) (hex : Option Nat) : Reading (Vector UInt8 n) Unit := fun e =>
  .ok ((), { e with value := e.value.setIfInBounds i (UInt8.ofNat (hex.getD 0)) })

def above255 (hex : Option Nat) : Bool :=
  hex.any fun v => decide (v > 255)

/-- `if (hex > 255) setstate(failbit)` and the store. -/
def storeChecked (i : Nat) (hex : Option Nat) : Reading (Vector UInt8 n) Unit := do
  if above255 hex then
    setstate
  store i hex

/-- The body of the field loops: `>> point >> hex`, the check and the store. -/
def readField (read : Reading (Vector UInt8 n) (Option Nat)) (i : Nat) :
    Reading (Vector UInt8 n) Unit := do
  let point ← readChar
  let hex ← read
  if point ≠ some '.' ∨ above255 hex then
    setstate
  store i hex

def readFields (read : Reading (Vector UInt8 n) (Option Nat)) :
    List Nat → Reading (Vector UInt8 n) Unit
  | [] => pure ()
  | i :: is => do
      readField read i
      readFields read is

end Fields

/-- `hex` is an `unsigned char` here, and the loop starts at 0. -/
def GuidPrefix.extractFields : Reading GuidPrefix Unit := do
  setBase 16
  let hex ← readUChar
  storeChecked 0 hex
  readFields readUChar [0, 1, 2, 3, 4, 5, 6, 7, 8, 9, 10, 11]
  setBase 10

def GuidPrefix.extract : Reading GuidPrefix Unit :=
  guarded GuidPrefix.extractFields (assign GuidPrefix.unknown)

/-- The first extraction is missing: `junk` is what the variable `hex` holds without it. -/
def EntityId.extractFields (junk : UInt16) : Reading EntityId Unit := do
  storeChecked 0 (some junk.toNat)
  readFields (readUnsigned 16) [1, 2, 3]
  setBase 10

def EntityId.extract (junk : UInt16) : Reading EntityId Unit :=
  guarded (EntityId.extractFields junk) (pure ())

def GUID.extractFields (junk : UInt16) : Reading GUID Unit := do
  focus GUID.guid_prefix (fun p guid => { guid with guid_prefix := p }) GuidPrefix.extract
  let sep ← readChar
  focus GUID.entity_id (fun id guid => { guid with entity_id := id }) (EntityId.extract junk)
  if sep ≠ some '|' then
    setstate

def GUID.extract (junk : UInt16) : Reading GUID Unit :=
  guarded (GUID.extractFields junk) (assign GUID.unknown)

end Rtps
end Mozi
