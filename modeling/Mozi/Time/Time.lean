/-!
# Time — points in time and the spans between them

`core/time/time.cc` and `duration.cc`, without the clocks, the texts and the functions over
`double`.  A `Time` is an unsigned number of nanoseconds and wraps; a `Duration` is a signed one,
and an overflow of its arithmetic is not defined (`none`).  `Time::IsZero`, which assigns to a
member in a `const` function, is left out.
-/

namespace Mozi

structure Duration where
  nanoseconds_ : BitVec 64
deriving DecidableEq

structure Time where
  nanoseconds_ : BitVec 64
deriving DecidableEq

namespace Duration

/-! ## Duration -/

def ofNanoseconds (nanoseconds : BitVec 64) : Duration :=
  ⟨nanoseconds⟩

/-- `Duration(int nanoseconds)` -/
def ofInt (nanoseconds : BitVec 32) : Duration :=
  ⟨nanoseconds.signExtend 64⟩

/-- `Duration(uint32_t seconds, uint32_t nanoseconds)` -/
def ofParts (seconds nanoseconds : BitVec 32) : Duration :=
  ⟨seconds.setWidth 64 * 1000000000#64 + nanoseconds.setWidth 64⟩

def ToNanosecond (d : Duration) : BitVec 64 :=
  d.nanoseconds_

def IsZero (d : Duration) : Bool :=
  d.nanoseconds_ == 0#64

def add (d rhs : Duration) : Option Duration :=
  if d.nanoseconds_.saddOverflow rhs.nanoseconds_ then none
  else some ⟨d.nanoseconds_ + rhs.nanoseconds_⟩

def sub (d rhs : Duration) : Option Duration :=
  if d.nanoseconds_.ssubOverflow rhs.nanoseconds_ then none
  else some ⟨d.nanoseconds_ - rhs.nanoseconds_⟩

def neg (d : Duration) : Option Duration :=
  if d.nanoseconds_.negOverflow then none
  else some ⟨-d.nanoseconds_⟩

def eq (d rhs : Duration) : Bool :=
  d.nanoseconds_ == rhs.nanoseconds_

def ne (d rhs : Duration) : Bool :=
  d.nanoseconds_ != rhs.nanoseconds_

def gt (d rhs : Duration) : Bool :=
  rhs.nanoseconds_.slt d.nanoseconds_

def lt (d rhs : Duration) : Bool :=
  d.nanoseconds_.slt rhs.nanoseconds_

def ge (d rhs : Duration) : Bool :=
  rhs.nanoseconds_.sle d.nanoseconds_

def le (d rhs : Duration) : Bool :=
  d.nanoseconds_.sle rhs.nanoseconds_

end Duration

namespace Time

/-! ## Time -/

def ofNanoseconds (nanoseconds : BitVec 64) : Time :=
  ⟨nanoseconds⟩

/-- `Time(int seconds)`: the product is unsigned. -/
def ofInt (seconds : BitVec 32) : Time :=
  ⟨seconds.signExtend 64 * 1000000000#64⟩

/-- `Time(uint32_t seconds, uint32_t nanoseconds)` -/
def ofParts (seconds nanoseconds : BitVec 32) : Time :=
  ⟨seconds.setWidth 64 * 1000000000#64 + nanoseconds.setWidth 64⟩

def ToNanosecond (t : Time) : BitVec 64 :=
  t.nanoseconds_

/-- `operator-(const Time& rhs)` -/
def diff (t rhs : Time) : Duration :=
  .ofNanoseconds (t.nanoseconds_ - rhs.nanoseconds_)

/-- `operator+(const Duration& rhs)`: the span is converted to an unsigned number. -/
def add (t : Time) (rhs : Duration) : Time :=
  .ofNanoseconds (t.nanoseconds_ + rhs.ToNanosecond)

/-- `operator-(const Duration& rhs)` -/
def sub (t : Time) (rhs : Duration) : Time :=
  .ofNanoseconds (t.nanoseconds_ - rhs.ToNanosecond)

def eq (t rhs : Time) : Bool :=
  t.nanoseconds_ == rhs.nanoseconds_

def ne (t rhs : Time) : Bool :=
  t.nanoseconds_ != rhs.nanoseconds_

def gt (t rhs : Time) : Bool :=
  rhs.nanoseconds_.ult t.nanoseconds_

def lt (t rhs : Time) : Bool :=
  t.nanoseconds_.ult rhs.nanoseconds_

def ge (t rhs : Time) : Bool :=
  rhs.nanoseconds_.ule t.nanoseconds_

def le (t rhs : Time) : Bool :=
  t.nanoseconds_.ule rhs.nanoseconds_

end Time
end Mozi
