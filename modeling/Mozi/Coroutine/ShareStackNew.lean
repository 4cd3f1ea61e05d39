import Mathlib.Algebra.Order.Group.Nat
import Mozi.Coroutine.Mzco

/-!
# ShareStackNew — how a share stack is made

`mz_share_stack_new2` of `core/coroutine/detail/mzco.cc`: the size is rounded up to pages with one
more page as a guard, the memory is mapped, and the addresses the coroutines use are derived from
it.  `none` is a failed assertion, a failed allocation included.

The test for a size that does not end at a page is written `sz & (u_pgsz - 1 != 0)`, where the
comparison binds closer than `&`: it looks at the lowest bit of the size.
-/

namespace Mozi
namespace Coroutine

open Foundation

/-! ## The code -/

/-- `mz_share_stack_t` as it is returned, with no owner. -/
structure MzShareStack where
  ptr : Nat
  sz : Nat
  align_highptr : Nat
  align_retptr : Nat
  align_validsz : Nat
  align_limit : Nat
  guard_page_enabled : Bool
  real_ptr : Nat
  real_sz : Nat

/-- The answers of the system. -/
structure System where
  /-- `sysconf(_SC_PAGESIZE)` -/
  pagesize : Int
  /-- `malloc(sizeof(mz_share_stack_t))` is not a null pointer -/
  object : Bool
  /-- the mapping of this size, `none` for `MAP_FAILED` -/
  mmap : Nat → Option Nat
  /-- `mprotect` returns 0 -/
  mprotect : Bool
  /-- the block of this size, `none` for a null pointer -/
  malloc : Nat → Option Nat

/-- The size after the defaults. -/
def defaultSize (sz : Nat) : Nat :=
  let sz := if sz = 0 then 1024 * 1024 * 2 else sz
  if sz < 4096 then 4096 else sz

/-- The assertions about the page size. -/
def checkPageSize (pgsz : Int) : Option Nat :=
  if 0 < pgsz ∧ (pgsz.toNat - 1) &&& pgsz.toNat = 0 ∧
      (pgsz.toNat * 2) % 2 ^ 64 / 2 = pgsz.toNat then
    some pgsz.toNat
  else
    none

/-- The branch for a size that is taken to end inside a page. -/
def roundToPages (u_pgsz sz : Nat) : Option Nat :=
  let new_sz := sz &&& (2 ^ 64 - 1 - (u_pgsz - 1))
  let next_sz := (new_sz + u_pgsz * 2) % 2 ^ 64
  if u_pgsz ≤ new_sz ∧ new_sz ≤ next_sz ∧ sz / u_pgsz + 2 = next_sz / u_pgsz then
    some next_sz
  else
    none

/-- The branch for a size that is taken to end at a page. -/
def addPage (u_pgsz sz : Nat) : Option Nat :=
  let new_sz := (sz + u_pgsz) % 2 ^ 64
  if sz ≤ new_sz ∧ sz / u_pgsz + 1 = new_sz / u_pgsz then
    some new_sz
  else
    none

/-- The size to be mapped. -/
def guardedSize (u_pgsz sz : Nat) : Option Nat :=
  if sz ≤ u_pgsz then
    some (u_pgsz * 2 % 2 ^ 64)
  else
    (if sz &&& (u_pgsz - 1 != 0).toNat ≠ 0 then roundToPages u_pgsz sz
      else addPage u_pgsz sz).bind fun sz =>
        if 1 < sz / u_pgsz ∧ sz &&& (u_pgsz - 1) = 0 then some sz else none

/-- `u_p`, in `uintptr_t`. -/
def highptr (ptr sz : Nat) : Nat :=
  (2 ^ 64 + sz - 8 * 2 + ptr) % 2 ^ 64 / 16 * 16

/-- The derived addresses, and the address of `mz_funcp_protector_asm` at `align_retptr`. -/
def alignStack (p : MzShareStack) (mem : Memory) (protector : List UInt8) :
    Option (MzShareStack × Memory) :=
  let u_p := highptr p.ptr p.sz
  let align_retptr := (2 ^ 64 + u_p - 8) % 2 ^ 64
  if 16 + 8 * 2 + 8 < p.sz then
    some
      ({ p with
          align_highptr := u_p
          align_retptr := align_retptr
          align_limit := p.sz - 16 - 8 * 2 },
        mem.store align_retptr protector)
  else
    none

/-- `memset(p, 0, sizeof(mz_share_stack_t))` -/
def MzShareStack.zero : MzShareStack :=
  ⟨0, 0, 0, 0, 0, 0, false, 0, 0⟩

/-- The stack behind a guard page. -/
def newGuarded (sys : System) (mem : Memory) (protector : List UInt8) (sz : Nat) :
    Option (MzShareStack × Memory) :=
  (checkPageSize sys.pagesize).bind fun u_pgsz =>
    (guardedSize u_pgsz sz).bind fun sz =>
      if sys.object then
        (sys.mmap sz).bind fun real_ptr =>
          if sys.mprotect ∧ u_pgsz * 2 % 2 ^ 64 ≤ sz then
            alignStack
              { MzShareStack.zero with
                real_ptr := real_ptr
                guard_page_enabled := true
                ptr := (real_ptr + u_pgsz) % 2 ^ 64
                real_sz := sz
                sz := sz - u_pgsz }
              mem protector
          else
            none
      else
        none

/-- The stack from `malloc`. -/
def newUnguarded (sys : System) (mem : Memory) (protector : List UInt8) (sz : Nat) :
    Option (MzShareStack × Memory) :=
  if sys.object then
    (sys.malloc sz).bind fun ptr =>
      alignStack { MzShareStack.zero with sz := sz, ptr := ptr } mem protector
  else
    none

def mz_share_stack_new2 (sys : System) (mem : Memory) (protector : List UInt8) (sz : Nat)
    (guard_page_enabled : Bool) : Option (MzShareStack × Memory) :=
  if guard_page_enabled then
    newGuarded sys mem protector (defaultSize sz)
  else
    newUnguarded sys mem protector (defaultSize sz)

/-! ## Pages -/

section Pages

variable {k n : Nat}

/-- Clearing the bits below a page rounds down. -/
theorem and_page_mask (hk : k ≤ 64) (hn : n < 2 ^ 64) :
    n &&& (2 ^ 64 - 1 - (2 ^ k - 1)) = n / 2 ^ k * 2 ^ k := by
  have hmask : 2 ^ 64 - 1 - (2 ^ k - 1) = (2 ^ (64 - k) - 1) * 2 ^ k := by
    have hpos : 0 < 2 ^ k := Nat.two_pow_pos k
    rw [Nat.sub_mul, ← Nat.pow_add, Nat.sub_add_cancel hk]
    omega
  have hhigh : ∀ i, 64 ≤ i → n.testBit i = false := by
    intro i hi
    exact Nat.testBit_lt_two_pow (Nat.lt_of_lt_of_le hn (Nat.pow_le_pow_right Nat.two_pos hi))
  refine Nat.eq_of_testBit_eq ?_
  intro i
  rw [hmask, Nat.testBit_and, Nat.testBit_mul_two_pow, Nat.testBit_mul_two_pow,
    Nat.testBit_two_pow_sub_one, Nat.testBit_div_two_pow]
  by_cases hki : k ≤ i
  · rw [Nat.sub_add_cancel hki]
    by_cases hi : i < 64
    · have hlt : i - k < 64 - k := by omega
      simp [hki, hlt]
    · simp [hhigh i (by omega)]
  · simp [hki]

theorem two_mul_page_lt (hk : k < 63) : 2 ^ k * 2 < 2 ^ 64 := by
  rw [← Nat.pow_succ]
  exact Nat.pow_lt_pow_right (by decide) (by omega)

theorem checkPageSize_two_pow (hk : k < 63) : checkPageSize (2 ^ k : Nat) = some (2 ^ k) := by
  have hpos : 0 < 2 ^ k := Nat.two_pow_pos k
  have hand : (2 ^ k - 1) &&& 2 ^ k = 0 := by
    rw [Nat.and_comm, Nat.and_two_pow_sub_one_eq_mod, Nat.mod_self]
  have hshift : 2 ^ k * 2 % 2 ^ 64 / 2 = 2 ^ k := by
    rw [Nat.mod_eq_of_lt (two_mul_page_lt hk), Nat.mul_div_cancel _ Nat.two_pos]
  unfold checkPageSize
  rw [Int.toNat_natCast, if_pos ⟨by omega, hand, hshift⟩]

/-- The least whole pages that hold `n` bytes, and a page more. -/
def pagesFor (u_pgsz n : Nat) : Nat :=
  (n + u_pgsz - 1) / u_pgsz * u_pgsz + u_pgsz

variable {u_pgsz : Nat}

theorem dvd_pagesFor (u_pgsz n : Nat) : u_pgsz ∣ pagesFor u_pgsz n :=
  Nat.dvd_add (Nat.dvd_mul_left _ _) (Nat.dvd_refl _)

theorem le_pagesFor (hpos : 0 < u_pgsz) (n : Nat) : n + u_pgsz ≤ pagesFor u_pgsz n := by
  have hdiv := Nat.div_add_mod (n + u_pgsz - 1) u_pgsz
  have hmod := Nat.mod_lt (n + u_pgsz - 1) hpos
  rw [Nat.mul_comm] at hdiv
  unfold pagesFor
  omega

theorem two_pages_le (hpos : 0 < u_pgsz) (hn : 0 < n) : u_pgsz * 2 ≤ pagesFor u_pgsz n := by
  have hone : 1 ≤ (n + u_pgsz - 1) / u_pgsz := (Nat.one_le_div_iff hpos).2 (by omega)
  have hpage : u_pgsz ≤ (n + u_pgsz - 1) / u_pgsz * u_pgsz := Nat.le_mul_of_pos_left _ hone
  unfold pagesFor
  omega

theorem pagesFor_of_le (hn : 0 < n) (hle : n ≤ u_pgsz) : pagesFor u_pgsz n = u_pgsz * 2 := by
  have hone : (n + u_pgsz - 1) / u_pgsz = 1 :=
    Nat.div_eq_of_lt_le (by omega) (by omega)
  unfold pagesFor
  rw [hone]
  omega

theorem pagesFor_of_dvd (hpos : 0 < u_pgsz) (hdvd : u_pgsz ∣ n) :
    pagesFor u_pgsz n = n + u_pgsz := by
  obtain ⟨q, rfl⟩ := hdvd
  have hq : (u_pgsz * q + u_pgsz - 1) / u_pgsz = q := by
    rw [Nat.add_sub_assoc hpos, Nat.mul_add_div hpos, Nat.div_eq_of_lt (by omega), Nat.add_zero]
  unfold pagesFor
  rw [hq, Nat.mul_comm]

theorem pagesFor_of_not_dvd (hpos : 0 < u_pgsz) (hdvd : ¬ u_pgsz ∣ n) :
    pagesFor u_pgsz n = n / u_pgsz * u_pgsz + u_pgsz * 2 := by
  have hmod : 0 < n % u_pgsz := Nat.pos_of_ne_zero fun h => hdvd (Nat.dvd_of_mod_eq_zero h)
  have hlt := Nat.mod_lt n hpos
  have hdiv := Nat.div_add_mod n u_pgsz
  have hsplit : n + u_pgsz - 1 = u_pgsz * (n / u_pgsz + 1) + (n % u_pgsz - 1) := by
    rw [Nat.mul_add, Nat.mul_one]
    omega
  have hrest : (n % u_pgsz - 1) / u_pgsz = 0 := Nat.div_eq_of_lt (by omega)
  have hq : (n + u_pgsz - 1) / u_pgsz = n / u_pgsz + 1 := by
    rw [hsplit, Nat.mul_add_div hpos, hrest, Nat.add_zero]
  unfold pagesFor
  rw [hq, Nat.add_mul]
  omega

/-! ## The size that is mapped -/

theorem roundToPages_eq (hk : k < 63) (hn : n < 2 ^ 64) (hlarge : 2 ^ k < n)
    (hdvd : ¬ 2 ^ k ∣ n) (hfits : pagesFor (2 ^ k) n < 2 ^ 64) :
    roundToPages (2 ^ k) n = some (pagesFor (2 ^ k) n) := by
  have hpos : 0 < 2 ^ k := Nat.two_pow_pos k
  have hone : 1 ≤ n / 2 ^ k := (Nat.one_le_div_iff hpos).2 (Nat.le_of_lt hlarge)
  have hpage : 2 ^ k ≤ n / 2 ^ k * 2 ^ k := Nat.le_mul_of_pos_left _ hone
  have hnext := pagesFor_of_not_dvd hpos hdvd
  have hdiv : pagesFor (2 ^ k) n / 2 ^ k = n / 2 ^ k + 2 := by
    rw [hnext, Nat.mul_comm (2 ^ k) 2, ← Nat.add_mul, Nat.mul_div_cancel _ hpos]
  simp only [roundToPages, and_page_mask (Nat.le_of_lt (Nat.lt_succ_of_lt hk)) hn]
  rw [← hnext, Nat.mod_eq_of_lt hfits, hdiv, if_pos ⟨hpage, by omega, rfl⟩]

theorem addPage_eq (hpos : 0 < u_pgsz) (hfits : n + u_pgsz < 2 ^ 64) :
    addPage u_pgsz n = some (n + u_pgsz) := by
  simp only [addPage]
  rw [Nat.mod_eq_of_lt hfits, Nat.add_div_right n hpos, if_pos ⟨by omega, rfl⟩]

/-- The sizes the rounding gets right: no more than a page, odd, or whole pages. -/
def Rounds (u_pgsz n : Nat) : Prop :=
  n ≤ u_pgsz ∨ n % 2 = 1 ∨ u_pgsz ∣ n

instance (u_pgsz n : Nat) : Decidable (Rounds u_pgsz n) :=
  inferInstanceAs (Decidable (_ ∨ _))

theorem guardedSize_eq (hk0 : 0 < k) (hk : k < 63) (hn0 : 0 < n) (hn : n < 2 ^ 64)
    (hfits : pagesFor (2 ^ k) n < 2 ^ 64) :
    guardedSize (2 ^ k) n = if Rounds (2 ^ k) n then some (pagesFor (2 ^ k) n) else none := by
  have hpos : 0 < 2 ^ k := Nat.two_pow_pos k
  have heven : 2 ∣ 2 ^ k := Nat.pow_dvd_pow 2 hk0
  have htwo : 2 ≤ 2 ^ k := Nat.le_of_dvd hpos heven
  unfold guardedSize
  by_cases hle : n ≤ 2 ^ k
  · have hrounds : Rounds (2 ^ k) n := Or.inl hle
    rw [if_pos hle, if_pos hrounds, pagesFor_of_le hn0 hle,
      Nat.mod_eq_of_lt (two_mul_page_lt hk)]
  · rw [if_neg hle]
    -- The comparison is true, so the test is for an odd size.
    have htest : n &&& (2 ^ k - 1 != 0).toNat = n % 2 := by
      have hne : (2 ^ k - 1 != 0) = true := bne_iff_ne.2 (by omega)
      rw [hne, Bool.toNat_true, Nat.and_one_is_mod]
    have hlarge : 2 ^ k < n := Nat.lt_of_not_le hle
    have hroom := le_pagesFor hpos n
    have hadd : addPage (2 ^ k) n = some (n + 2 ^ k) := addPage_eq hpos (by omega)
    have hpages : 1 < pagesFor (2 ^ k) n / 2 ^ k := by
      rw [Nat.lt_div_iff_mul_lt hpos]
      omega
    rw [htest]
    by_cases hodd : n % 2 = 1
    · have hdvd : ¬ 2 ^ k ∣ n := by
        intro h
        have := Nat.dvd_trans heven h
        omega
      have hrounds : Rounds (2 ^ k) n := Or.inr (Or.inl hodd)
      rw [if_pos (by omega), roundToPages_eq hk hn hlarge hdvd hfits, Option.bind_some,
        if_pos hrounds, Nat.and_two_pow_sub_one_eq_mod,
        if_pos ⟨hpages, Nat.mod_eq_zero_of_dvd (dvd_pagesFor _ _)⟩]
    · rw [if_neg (by omega), hadd, Option.bind_some, Nat.and_two_pow_sub_one_eq_mod,
        Nat.add_mod_right]
      by_cases hdvd : 2 ^ k ∣ n
      · have hrounds : Rounds (2 ^ k) n := Or.inr (Or.inr hdvd)
        rw [if_pos hrounds, ← pagesFor_of_dvd hpos hdvd,
          if_pos ⟨hpages, Nat.mod_eq_zero_of_dvd hdvd⟩]
      · have hrounds : ¬ Rounds (2 ^ k) n := by
          rintro (h | h | h)
          · exact hle h
          · exact hodd h
          · exact hdvd h
        rw [if_neg hrounds, if_neg fun h => hdvd (Nat.dvd_of_mod_eq_zero h.2)]

theorem defaultSize_ge (sz : Nat) : 4096 ≤ defaultSize sz := by
  simp only [defaultSize]
  split_ifs <;> omega

theorem defaultSize_lt {sz : Nat} (h : sz < 2 ^ 64) : defaultSize sz < 2 ^ 64 := by
  simp only [defaultSize]
  split_ifs <;> omega

end Pages

/-! ## Sizes with a guard page -/

/-- Whole pages are mapped, at least two, and what is left without the guard page is at least what
was asked for. -/
structure Honours (u_pgsz sz : Nat) (p : MzShareStack) : Prop where
  pages : u_pgsz ∣ p.real_sz
  two_pages : u_pgsz * 2 ≤ p.real_sz
  usable : p.sz = p.real_sz - u_pgsz
  large : defaultSize sz ≤ p.sz

theorem alignStack_some {p : MzShareStack} (hlarge : 16 + 8 * 2 + 8 < p.sz) (mem : Memory)
    (protector : List UInt8) :
    ∃ t mem', alignStack p mem protector = some (t, mem') ∧ t.real_sz = p.real_sz ∧
      t.sz = p.sz := by
  unfold alignStack
  rw [if_pos hlarge]
  exact ⟨_, _, rfl, rfl, rfl⟩

variable {k sz real_ptr : Nat} {sys : System}

/-- With a page size `2 ^ k` and a size that fits, every assertion holds and the size is honoured
exactly if the rounding gets the size right. -/
theorem share_stack_size_iff (hk : 12 ≤ k) (hk' : k < 63) (hsz : sz < 2 ^ 64)
    (hfits : pagesFor (2 ^ k) (defaultSize sz) < 2 ^ 64) (hpage : sys.pagesize = (2 ^ k : Nat))
    (hobject : sys.object = true) (hprotect : sys.mprotect = true)
    (hmap : sys.mmap (pagesFor (2 ^ k) (defaultSize sz)) = some real_ptr)
    (mem : Memory) (protector : List UInt8) :
    (∃ p mem', mz_share_stack_new2 sys mem protector sz true = some (p, mem') ∧
      Honours (2 ^ k) sz p) ↔ Rounds (2 ^ k) (defaultSize sz) := by
  have hpos : 0 < 2 ^ k := Nat.two_pow_pos k
  have hdefault := defaultSize_ge sz
  have hroom := le_pagesFor hpos (defaultSize sz)
  have hguarded := guardedSize_eq (by omega) hk' (by omega) (defaultSize_lt hsz) hfits
  simp only [mz_share_stack_new2, if_true, newGuarded, hpage, checkPageSize_two_pow hk',
    Option.bind_some, hguarded]
  by_cases hrounds : Rounds (2 ^ k) (defaultSize sz)
  · have htwo := two_pages_le hpos (n := defaultSize sz) (by omega)
    have hmapped : sys.object = true ∧ sys.mprotect = true ∧
        2 ^ k * 2 % 2 ^ 64 ≤ pagesFor (2 ^ k) (defaultSize sz) :=
      ⟨hobject, hprotect, by rwa [Nat.mod_eq_of_lt (two_mul_page_lt hk')]⟩
    rw [if_pos hrounds, Option.bind_some, if_pos hmapped.1, hmap, Option.bind_some,
      if_pos hmapped.2]
    refine iff_of_true ?_ hrounds
    obtain ⟨t, mem', ht, hreal, hused⟩ := alignStack_some
      (p := { MzShareStack.zero with
        real_ptr := real_ptr
        guard_page_enabled := true
        ptr := (real_ptr + 2 ^ k) % 2 ^ 64
        real_sz := pagesFor (2 ^ k) (defaultSize sz)
        sz := pagesFor (2 ^ k) (defaultSize sz) - 2 ^ k }) (by simp only; omega) mem protector
    refine ⟨t, mem', ht, ?_, ?_, ?_, ?_⟩
    · rw [hreal]
      exact dvd_pagesFor _ _
    · rw [hreal]
      exact htwo
    · rw [hreal, hused]
    · rw [hused]
      show defaultSize sz ≤ pagesFor (2 ^ k) (defaultSize sz) - 2 ^ k
      omega
  · rw [if_neg hrounds]
    simp [hrounds]

/-- A system with pages of 4096 bytes and 4 GiB of memory. -/
def smallPages : System where
  pagesize := 4096
  object := true
  mmap := fun n => if n ≤ 2 ^ 32 then some 0x7f0000000000 else none
  mprotect := true
  malloc := fun n => if n ≤ 2 ^ 32 then some 0x600000000010 else none

theorem share_stack_size_odd :
    (∃ p mem', mz_share_stack_new2 smallPages (fun _ => 0) [0] 5001 true = some (p, mem') ∧
      Honours (2 ^ 12) 5001 p) ↔ Rounds (2 ^ 12) (defaultSize 5001) :=
  share_stack_size_iff (by decide) (by decide) (by decide) (by decide) rfl rfl rfl
    (show smallPages.mmap (pagesFor (2 ^ 12) (defaultSize 5001)) = some 0x7f0000000000 from rfl)
    (fun _ => 0) [0]

/-- An even size that does not end at a page fails the assertion about the rounded size. -/
theorem share_stack_even_fails :
    mz_share_stack_new2 smallPages (fun _ => 0) [0] 5000 true = none ∧
      pagesFor (2 ^ 12) (defaultSize 5000) < 2 ^ 64 ∧
      ¬ ∃ p mem', mz_share_stack_new2 smallPages (fun _ => 0) [0] 5000 true = some (p, mem') ∧
        Honours (2 ^ 12) 5000 p := by
  have hnone : mz_share_stack_new2 smallPages (fun _ => 0) [0] 5000 true = none := rfl
  refine ⟨hnone, by decide, ?_⟩
  rintro ⟨p, mem', hsome, -⟩
  rw [hnone] at hsome
  cases hsome

end Coroutine
end Mozi
