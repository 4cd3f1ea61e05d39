import Mathlib.Logic.Function.Basic
import Mozi.Foundation.Machine
import Mozi.Time.Time

/-!
# ExactRuns — when the arithmetic of times and durations is exact

Variables of both types under the constructors of `time.cc` and `duration.cc` from integers and the
operators that take no `double`, beside the same run on integers.  A run follows the integers
exactly as long as every duration that it computes fits into 64 bits (`runs_exact_iff`): the times
may wrap on the way, and are right at the end where the integer is one that a `Time` can hold.
-/

namespace Mozi
namespace Time

open Foundation

/-! ## Variables -/

/-- The variables of both types, by number. -/
structure Variables (T D : Type) where
  time : Nat → T
  duration : Nat → D

namespace Variables

variable {T D : Type}

def setTime (v : Variables T D) (i : Nat) (t : T) : Variables T D :=
  { v with time := Function.update v.time i t }

def setDuration (v : Variables T D) (k : Nat) (d : D) : Variables T D :=
  { v with duration := Function.update v.duration k d }

end Variables

/-- A statement: `i` and `j` are times, `k`, `l` and `m` durations. -/
inductive Statement where
  /-- `i = Time(uint64_t)` -/
  | time (i : Nat) (nanoseconds : BitVec 64)
  /-- `i = Time(int)` -/
  | timeOfInt (i : Nat) (seconds : BitVec 32)
  /-- `i = Time(uint32_t, uint32_t)` -/
  | timeOfParts (i : Nat) (seconds nanoseconds : BitVec 32)
  /-- `k = Duration(int64_t)` -/
  | duration (k : Nat) (nanoseconds : BitVec 64)
  /-- `k = Duration(int)` -/
  | durationOfInt (k : Nat) (nanoseconds : BitVec 32)
  /-- `k = Duration(uint32_t, uint32_t)` -/
  | durationOfParts (k : Nat) (seconds nanoseconds : BitVec 32)
  /-- `i = j` -/
  | copyTime (i j : Nat)
  /-- `k = l` -/
  | copyDuration (k l : Nat)
  /-- `i = j + k`, and `i += k` where `j` is `i` -/
  | addTo (i j k : Nat)
  /-- `i = j - k` -/
  | subFrom (i j k : Nat)
  /-- `k = i - j` -/
  | difference (k i j : Nat)
  /-- `k = l + m` -/
  | sum (k l m : Nat)
  /-- `k = l - m` -/
  | minus (k l m : Nat)
  /-- `k = -l` -/
  | negate (k l : Nat)

/-- What the code computes. -/
def clocks : Machine (Variables Time Duration) Statement where
  step v
    | .time i nanoseconds => some (v.setTime i (.ofNanoseconds nanoseconds))
    | .timeOfInt i seconds => some (v.setTime i (.ofInt seconds))
    | .timeOfParts i seconds nanoseconds => some (v.setTime i (.ofParts seconds nanoseconds))
    | .duration k nanoseconds => some (v.setDuration k (.ofNanoseconds nanoseconds))
    | .durationOfInt k nanoseconds => some (v.setDuration k (.ofInt nanoseconds))
    | .durationOfParts k seconds nanoseconds =>
        some (v.setDuration k (.ofParts seconds nanoseconds))
    | .copyTime i j => some (v.setTime i (v.time j))
    | .copyDuration k l => some (v.setDuration k (v.duration l))
    | .addTo i j k => some (v.setTime i ((v.time j).add (v.duration k)))
    | .subFrom i j k => some (v.setTime i ((v.time j).sub (v.duration k)))
    | .difference k i j => some (v.setDuration k ((v.time i).diff (v.time j)))
    | .sum k l m => ((v.duration l).add (v.duration m)).map (v.setDuration k)
    | .minus k l m => ((v.duration l).sub (v.duration m)).map (v.setDuration k)
    | .negate k l => (v.duration l).neg.map (v.setDuration k)

/-! ## Integers -/

/-- The value that the statement stores, a time or a duration. -/
def Statement.value (w : Variables Int Int) : Statement → Int
  | .time _ nanoseconds => nanoseconds.toNat
  | .timeOfInt _ seconds => seconds.toInt * 1000000000
  | .timeOfParts _ seconds nanoseconds => seconds.toNat * 1000000000 + nanoseconds.toNat
  | .duration _ nanoseconds => nanoseconds.toInt
  | .durationOfInt _ nanoseconds => nanoseconds.toInt
  | .durationOfParts _ seconds nanoseconds => seconds.toNat * 1000000000 + nanoseconds.toNat
  | .copyTime _ j => w.time j
  | .copyDuration _ l => w.duration l
  | .addTo _ j k => w.time j + w.duration k
  | .subFrom _ j k => w.time j - w.duration k
  | .difference _ i j => w.time i - w.time j
  | .sum _ l m => w.duration l + w.duration m
  | .minus _ l m => w.duration l - w.duration m
  | .negate _ l => -w.duration l

/-- The variable that it stores the value in: a time on the left, a duration on the right. -/
def Statement.target : Statement → Nat ⊕ Nat
  | .time i _ | .timeOfInt i _ | .timeOfParts i _ _ | .copyTime i _ | .addTo i _ _
  | .subFrom i _ _ => .inl i
  | .duration k _ | .durationOfInt k _ | .durationOfParts k _ _ | .copyDuration k _
  | .difference k _ _ | .sum k _ _ | .minus k _ _ | .negate k _ => .inr k

/-- What is meant. -/
def integers : Machine (Variables Int Int) Statement where
  step w s :=
    match s.target with
    | .inl i => some (w.setTime i (s.value w))
    | .inr k => some (w.setDuration k (s.value w))

/-- A duration holds the integer: it is at least `-2 ^ 63` and below `2 ^ 63`. -/
def Fits (x : Int) : Prop :=
  -9223372036854775808 ≤ x ∧ x < 9223372036854775808

/-- The durations are the integers and the times are the integers modulo `2 ^ 64`. -/
structure Follows (v : Variables Time Duration) (w : Variables Int Int) : Prop where
  time : ∀ i, (v.time i).nanoseconds_ = BitVec.ofInt 64 (w.time i)
  duration : ∀ k, (v.duration k).nanoseconds_.toInt = w.duration k

/-- The statement does not store a duration that does not fit. -/
def StoresFitting (w : Variables Int Int) (s : Statement) : Prop :=
  ∀ k, s.target = .inr k → Fits (s.value w)

/-! ## One statement -/

variable {v : Variables Time Duration} {w : Variables Int Int}

theorem toInt_ofInt_iff (x : Int) : (BitVec.ofInt 64 x).toInt = x ↔ Fits x := by
  constructor
  · intro h
    rw [← h]
    exact ⟨BitVec.le_toInt _, BitVec.toInt_lt⟩
  · rintro ⟨hlow, hhigh⟩
    exact BitVec.toInt_ofInt_eq_self (by decide) hlow hhigh

/-- Seconds and nanoseconds of 32 bits. -/
theorem parts_eq (seconds nanoseconds : BitVec 32) :
    seconds.setWidth 64 * 1000000000#64 + nanoseconds.setWidth 64 =
      BitVec.ofInt 64 (seconds.toNat * 1000000000 + nanoseconds.toNat) := by
  rw [BitVec.ofInt_add, BitVec.ofInt_mul, BitVec.ofInt_natCast, BitVec.ofInt_natCast,
    BitVec.ofNat_toNat, BitVec.ofNat_toNat]
  rfl

theorem ofInt_sub (x y : Int) :
    BitVec.ofInt 64 (x - y) = BitVec.ofInt 64 x - BitVec.ofInt 64 y := by
  rw [Int.sub_eq_add_neg, BitVec.ofInt_add, BitVec.ofInt_neg, BitVec.sub_eq_add_neg]

theorem seconds_eq (seconds : BitVec 32) :
    seconds.signExtend 64 * 1000000000#64 = BitVec.ofInt 64 (seconds.toInt * 1000000000) := by
  rw [BitVec.ofInt_mul]
  rfl

namespace Follows

theorem setTime (h : Follows v w) {i : Nat} {t : Time} {x : Int}
    (ht : t.nanoseconds_ = BitVec.ofInt 64 x) : Follows (v.setTime i t) (w.setTime i x) where
  time := by
    intro j
    by_cases hij : j = i
    · subst hij
      simpa [Variables.setTime] using ht
    · simpa [Variables.setTime, hij] using h.time j
  duration := h.duration

theorem setDuration_iff (h : Follows v w) {k : Nat} {d : Duration} {x : Int}
    (hd : d.nanoseconds_ = BitVec.ofInt 64 x) :
    Follows (v.setDuration k d) (w.setDuration k x) ↔ Fits x := by
  rw [← toInt_ofInt_iff, ← hd]
  constructor
  · intro hafter
    simpa [Variables.setDuration] using hafter.duration k
  · intro hx
    refine ⟨h.time, fun l => ?_⟩
    by_cases hkl : l = k
    · subst hkl
      simpa [Variables.setDuration] using hx
    · simpa [Variables.setDuration, hkl] using h.duration l

/-- The bits of a duration. -/
theorem bits (h : Follows v w) (k : Nat) :
    (v.duration k).nanoseconds_ = BitVec.ofInt 64 (w.duration k) := by
  rw [← h.duration k, BitVec.ofInt_toInt]

end Follows

theorem storesFitting_time {s : Statement} {i : Nat} (hs : s.target = .inl i) :
    StoresFitting w s := by
  intro k hk
  rw [hs] at hk
  cases hk

theorem storesFitting_duration {s : Statement} {k : Nat} (hs : s.target = .inr k) :
    StoresFitting w s ↔ Fits (s.value w) := by
  constructor
  · intro h
    exact h k hs
  · intro h l _
    exact h

/-- A result of signed arithmetic: what is stored, and where nothing is. -/
def Computes (d : Option Duration) (x : Int) : Prop :=
  (∀ d', d = some d' → d'.nanoseconds_ = BitVec.ofInt 64 x) ∧ (d = none → ¬ Fits x)

theorem computes_none {x : Int} (h : ¬ Fits x) : Computes none x :=
  ⟨fun _ hd => absurd hd (by simp), fun _ => h⟩

theorem computes_some {d : Duration} {x : Int} (h : d.nanoseconds_ = BitVec.ofInt 64 x) :
    Computes (some d) x :=
  ⟨fun d' hd => by cases hd; exact h, fun hd => absurd hd (by simp)⟩

/-- What is computed for a duration: nothing where the signed result overflows. -/
theorem exists_setDuration_iff (h : Follows v w) {k : Nat} {d : Option Duration} {x : Int}
    (hd : Computes d x) :
    (∃ v', d.map (v.setDuration k) = some v' ∧ Follows v' (w.setDuration k x)) ↔ Fits x := by
  cases d with
  | none =>
      refine iff_of_false ?_ (hd.2 rfl)
      rintro ⟨v', hv', -⟩
      cases hv'
  | some d =>
      rw [← h.setDuration_iff (k := k) (hd.1 d rfl)]
      constructor
      · rintro ⟨v', hv', hfollows⟩
        cases hv'
        exact hfollows
      · intro hfollows
        exact ⟨_, rfl, hfollows⟩

theorem add_computes (d e : Duration) :
    Computes (d.add e) (d.nanoseconds_.toInt + e.nanoseconds_.toInt) := by
  unfold Duration.add
  split_ifs with hover
  · refine computes_none fun hfits => ?_
    simp only [BitVec.saddOverflow, Bool.or_eq_true, decide_eq_true_eq] at hover
    unfold Fits at hfits
    omega
  · refine computes_some ?_
    rw [BitVec.ofInt_add, BitVec.ofInt_toInt, BitVec.ofInt_toInt]

theorem sub_computes (d e : Duration) :
    Computes (d.sub e) (d.nanoseconds_.toInt - e.nanoseconds_.toInt) := by
  unfold Duration.sub
  split_ifs with hover
  · refine computes_none fun hfits => ?_
    simp only [BitVec.ssubOverflow, Bool.or_eq_true, decide_eq_true_eq] at hover
    unfold Fits at hfits
    omega
  · refine computes_some ?_
    rw [ofInt_sub, BitVec.ofInt_toInt, BitVec.ofInt_toInt]

theorem neg_computes (d : Duration) : Computes d.neg (-d.nanoseconds_.toInt) := by
  unfold Duration.neg
  split_ifs with hover
  · refine computes_none fun hfits => ?_
    simp only [BitVec.negOverflow, beq_iff_eq] at hover
    unfold Fits at hfits
    omega
  · refine computes_some ?_
    rw [BitVec.ofInt_neg, BitVec.ofInt_toInt]

/-- The code stays with the integers exactly where it does not store a duration that does not
fit. -/
def Stays (v : Variables Time Duration) (w : Variables Int Int) (s : Statement) : Prop :=
  ∀ w', integers.step w s = some w' →
    ((∃ v', clocks.step v s = some v' ∧ Follows v' w') ↔ StoresFitting w s)

/-- A time may wrap, so nothing can go wrong where one is stored. -/
theorem stays_time {s : Statement} {i : Nat} {t : Time} (h : Follows v w) (hs : s.target = .inl i)
    (hv : clocks.step v s = some (v.setTime i t))
    (ht : t.nanoseconds_ = BitVec.ofInt 64 (s.value w)) : Stays v w s := by
  intro w' hw
  have hinteger : integers.step w s = some (w.setTime i (s.value w)) := by
    simp [integers, hs]
  rw [hinteger] at hw
  cases hw
  exact iff_of_true ⟨_, hv, h.setTime ht⟩ (storesFitting_time hs)

theorem stays_duration {s : Statement} {k : Nat} {d : Option Duration} (h : Follows v w)
    (hs : s.target = .inr k) (hv : clocks.step v s = d.map (v.setDuration k))
    (hd : Computes d (s.value w)) : Stays v w s := by
  intro w' hw
  have hinteger : integers.step w s = some (w.setDuration k (s.value w)) := by
    simp [integers, hs]
  rw [hinteger] at hw
  cases hw
  rw [storesFitting_duration hs, hv]
  exact exists_setDuration_iff h hd

theorem step_stays (h : Follows v w) (s : Statement) : Stays v w s := by
  cases s with
  | time i nanoseconds =>
      refine stays_time h rfl rfl ?_
      exact (BitVec.setWidth_eq nanoseconds).symm.trans (BitVec.ofNat_toNat 64 nanoseconds).symm
  | timeOfInt i seconds =>
      exact stays_time h rfl rfl (seconds_eq seconds)
  | timeOfParts i seconds nanoseconds =>
      exact stays_time h rfl rfl (parts_eq seconds nanoseconds)
  | duration k nanoseconds =>
      exact stays_duration h rfl rfl
        (computes_some (BitVec.ofInt_toInt (x := nanoseconds)).symm)
  | durationOfInt k nanoseconds =>
      exact stays_duration h rfl rfl (computes_some rfl)
  | durationOfParts k seconds nanoseconds =>
      exact stays_duration h rfl rfl (computes_some (parts_eq seconds nanoseconds))
  | copyTime i j =>
      exact stays_time h rfl rfl (h.time j)
  | copyDuration k l =>
      exact stays_duration h rfl rfl (computes_some (h.bits l))
  | addTo i j k =>
      -- The bits of a negative duration are added, which subtracts modulo 2 ^ 64.
      have hsum : ((v.time j).add (v.duration k)).nanoseconds_ =
          BitVec.ofInt 64 (w.time j + w.duration k) := by
        rw [BitVec.ofInt_add, ← h.time j, ← h.bits k]
        rfl
      exact stays_time h rfl rfl hsum
  | subFrom i j k =>
      have hdifference : ((v.time j).sub (v.duration k)).nanoseconds_ =
          BitVec.ofInt 64 (w.time j - w.duration k) := by
        rw [ofInt_sub, ← h.time j, ← h.bits k]
        rfl
      exact stays_time h rfl rfl hdifference
  | difference k i j =>
      -- No check here: a difference that does not fit is stored as another number.
      have hdifference : ((v.time i).diff (v.time j)).nanoseconds_ =
          BitVec.ofInt 64 (w.time i - w.time j) := by
        rw [ofInt_sub, ← h.time i, ← h.time j]
        rfl
      exact stays_duration h rfl rfl (computes_some hdifference)
  | sum k l m =>
      have hcomputes := add_computes (v.duration l) (v.duration m)
      rw [h.duration, h.duration] at hcomputes
      exact stays_duration h rfl rfl hcomputes
  | minus k l m =>
      have hcomputes := sub_computes (v.duration l) (v.duration m)
      rw [h.duration, h.duration] at hcomputes
      exact stays_duration h rfl rfl hcomputes
  | negate k l =>
      have hcomputes := neg_computes (v.duration l)
      rw [h.duration] at hcomputes
      exact stays_duration h rfl rfl hcomputes

/-! ## Readings -/

/-- A time holds the integer: it is not negative and below `2 ^ 64`. -/
def Holds (x : Int) : Prop :=
  0 ≤ x ∧ x < 18446744073709551616

/-- The results of the six comparison operators are those of the integers. -/
structure Compares (x y : Int) (eq ne gt lt ge le : Bool) : Prop where
  eq : eq = true ↔ x = y
  ne : ne = true ↔ x ≠ y
  gt : gt = true ↔ x > y
  lt : lt = true ↔ x < y
  ge : ge = true ↔ x ≥ y
  le : le = true ↔ x ≤ y

def ComparesTimes (t rhs : Time) (x y : Int) : Prop :=
  Compares x y (t.eq rhs) (t.ne rhs) (t.gt rhs) (t.lt rhs) (t.ge rhs) (t.le rhs)

def ComparesDurations (d rhs : Duration) (x y : Int) : Prop :=
  Compares x y (d.eq rhs) (d.ne rhs) (d.gt rhs) (d.lt rhs) (d.ge rhs) (d.le rhs)

/-- The numbers and the comparisons that the code reads off are those of the integers. -/
structure Reads (v : Variables Time Duration) (w : Variables Int Int) : Prop where
  time : ∀ i, Holds (w.time i) → ((v.time i).ToNanosecond.toNat : Int) = w.time i
  compareTimes : ∀ i j, Holds (w.time i) → Holds (w.time j) →
    ComparesTimes (v.time i) (v.time j) (w.time i) (w.time j)
  duration : ∀ k, (v.duration k).ToNanosecond.toInt = w.duration k
  compareDurations : ∀ k l,
    ComparesDurations (v.duration k) (v.duration l) (w.duration k) (w.duration l)
  isZero : ∀ k, (v.duration k).IsZero = true ↔ w.duration k = 0

theorem Follows.toNat (h : Follows v w) {i : Nat} (hi : Holds (w.time i)) :
    ((v.time i).nanoseconds_.toNat : Int) = w.time i := by
  obtain ⟨hlow, hhigh⟩ := hi
  rw [h.time i, BitVec.toNat_ofInt]
  omega

theorem comparesTimes {t rhs : Time} {x y : Int} (ht : (t.nanoseconds_.toNat : Int) = x)
    (hrhs : (rhs.nanoseconds_.toNat : Int) = y) : ComparesTimes t rhs x y where
  eq := by
    rw [Time.eq, beq_iff_eq, ← BitVec.toNat_inj]
    omega
  ne := by
    rw [Time.ne, bne_iff_ne, ne_eq, ← BitVec.toNat_inj]
    omega
  gt := by
    rw [Time.gt, BitVec.ult_iff_lt, BitVec.lt_def]
    omega
  lt := by
    rw [Time.lt, BitVec.ult_iff_lt, BitVec.lt_def]
    omega
  ge := by
    rw [Time.ge, BitVec.ule_iff_le, BitVec.le_def]
    omega
  le := by
    rw [Time.le, BitVec.ule_iff_le, BitVec.le_def]
    omega

theorem comparesDurations {d rhs : Duration} {x y : Int} (hd : d.nanoseconds_.toInt = x)
    (hrhs : rhs.nanoseconds_.toInt = y) : ComparesDurations d rhs x y where
  eq := by
    rw [Duration.eq, beq_iff_eq, ← BitVec.toInt_inj, hd, hrhs]
  ne := by
    rw [Duration.ne, bne_iff_ne, ne_eq, ← BitVec.toInt_inj, hd, hrhs]
  gt := by
    rw [Duration.gt, BitVec.slt_iff_toInt_lt, hd, hrhs]
  lt := by
    rw [Duration.lt, BitVec.slt_iff_toInt_lt, hd, hrhs]
  ge := by
    rw [Duration.ge, BitVec.sle_iff_toInt_le, hd, hrhs]
  le := by
    rw [Duration.le, BitVec.sle_iff_toInt_le, hd, hrhs]

theorem Follows.reads (h : Follows v w) : Reads v w where
  time := fun i hi => h.toNat hi
  compareTimes := fun i j hi hj => comparesTimes (h.toNat hi) (h.toNat hj)
  duration := h.duration
  compareDurations := fun k l => comparesDurations (h.duration k) (h.duration l)
  isZero := by
    intro k
    unfold Duration.IsZero
    rw [beq_iff_eq, ← BitVec.toInt_inj, h.duration k]
    rfl

/-! ## Runs -/

/-- The variables as the default constructors leave them. -/
def zeroes : Variables Time Duration :=
  ⟨fun _ => ⟨0⟩, fun _ => ⟨0⟩⟩

def integerZeroes : Variables Int Int :=
  ⟨fun _ => 0, fun _ => 0⟩

theorem follows_zeroes : Follows zeroes integerZeroes :=
  ⟨fun _ => rfl, fun _ => rfl⟩

theorem integers_step (w : Variables Int Int) (s : Statement) :
    ∃ w', integers.step w s = some w' := by
  cases htarget : s.target with
  | inl i => exact ⟨w.setTime i (s.value w), by simp [integers, htarget]⟩
  | inr k => exact ⟨w.setDuration k (s.value w), by simp [integers, htarget]⟩

/-- A run of times and durations is defined and exact all the way if and only if every duration
that it computes fits: then every time that can hold its integer does, every duration does, and all
comparisons are right, whatever has wrapped before. -/
theorem runs_exact_iff (tr : List Statement) :
    (∀ tr₁ w, tr₁ <+: tr → integers.exec integerZeroes tr₁ = some w →
      ∃ v, clocks.exec zeroes tr₁ = some v ∧ Follows v w ∧ Reads v w) ↔
      integers.Along StoresFitting integerZeroes tr := by
  have htrivial : integers.Along (fun _ _ => True) integerZeroes tr :=
    integers.along_of_forall_mem (Q := fun _ => True) fun _ _ => trivial
  obtain ⟨w', hw', -⟩ := integers.exec_total (I := fun _ => True)
    (fun w s _ _ => (integers_step w s).imp fun _ h => ⟨h, trivial⟩) trivial htrivial
  rw [← clocks.stays_iff_along (fun v w s w' h => step_stays h s w') follows_zeroes hw']
  refine forall₄_congr fun tr₁ w _ _ => exists_congr fun v => and_congr_right fun _ => ?_
  exact ⟨fun h => h.1, fun h => ⟨h, h.reads⟩⟩

end Time
end Mozi
