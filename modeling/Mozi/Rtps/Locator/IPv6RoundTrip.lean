import Mozi.Foundation.Digits
import Mozi.Rtps.Locator.IPv6Parser
import Mozi.Rtps.Locator.IPv6Printing

/-!
# IPv6RoundTrip — reading back what `toIPv6string` prints

An address without two neighbouring zero groups is printed as eight groups and read back.  Any other
address is not: the text starts with a point, ends with a single colon, has `::` in the middle, or
has `::` at the end after a group that the parser repeats.  The main result is `roundTrip_iff`.
-/

namespace Mozi
namespace Rtps

open Foundation IPLocator IPv6Text

/-! ## Printed groups -/

/-- The group that is printed for a number. -/
def printedGroup (v : Nat) (h : v < 65536) : Group where
  digits := Nat.toDigits 16 v
  hex := toDigits_isSome (by decide) (by decide) v
  ne_nil := Nat.toDigits_ne_nil
  length_le := (Nat.length_toDigits_le_iff (by decide) (by decide)).2 h

theorem value_printedGroup (v : Nat) (h : v < 65536) : (printedGroup v h).value = v :=
  foldl_toDigits (by decide) (by decide) v

/-! ## The groups of an address -/

theorem byteAt_lt (address : Vector UInt8 16) (i : Nat) : byteAt address i < 256 :=
  UInt8.toNat_lt _

theorem field_lt (address : Vector UInt8 16) (i : Nat) :
    (byteAt address i <<< 8) + byteAt address (i + 1) < 65536 := by
  have hhigh := byteAt_lt address i
  have hlow := byteAt_lt address (i + 1)
  rw [Nat.shiftLeft_eq]
  omega

/-- The group that is printed for the bytes `i` and `i + 1`. -/
def fieldGroup (address : Vector UInt8 16) (i : Nat) : Group :=
  printedGroup ((byteAt address i <<< 8) + byteAt address (i + 1)) (field_lt address i)

/-- Both bytes are zero. -/
def zeroAt (address : Vector UInt8 16) (i : Nat) : Bool :=
  byteAt address i == 0 && byteAt address (i + 1) == 0

variable {shiftOut : Nat → Nat} {address : Vector UInt8 16} {locator locator' : Locator_t}

theorem zeroAt_iff (i : Nat) : zeroAt address i = true ↔ (fieldGroup address i).value = 0 := by
  rw [fieldGroup, value_printedGroup, Nat.shiftLeft_eq, zeroAt, Bool.and_eq_true, beq_iff_eq,
    beq_iff_eq]
  omega

theorem toIPv6string_eq (locator : Locator_t) :
    toIPv6string locator =
      printBlocks (fun i => (fieldGroup locator.address i).digits)
        (maxBlock (zeroAt locator.address)).1 (maxBlock (zeroAt locator.address)).2 :=
  rfl

/-- The groups hold the bytes of the address: the induction is on the number of groups. -/
theorem groupBytes_groupsAt (n : Nat) :
    groupBytes ((groupsAt (fieldGroup address) 0 n).map Group.value) =
      (List.range (2 * n)).map fun i => address[i]?.getD 0 := by
  induction n with
  | zero =>
      rfl
  | succ n ih =>
      have hbytes : groupBytes [(fieldGroup address (2 * n)).value] =
          [address[2 * n]?.getD 0, address[2 * n + 1]?.getD 0] := by
        have hlow := byteAt_lt address (2 * n + 1)
        rw [fieldGroup, value_printedGroup, Nat.shiftLeft_eq]
        simp only [groupBytes, List.flatMap_cons, List.flatMap_nil, List.append_nil]
        rw [show (byteAt address (2 * n) * 2 ^ 8 + byteAt address (2 * n + 1)) / 256 =
            byteAt address (2 * n) by omega,
          show (byteAt address (2 * n) * 2 ^ 8 + byteAt address (2 * n + 1)) % 256 =
            byteAt address (2 * n + 1) by omega]
        simp [byteAt]
      rw [groupsAt_concat, List.map_append, groupBytes_append, ih, Nat.zero_add,
        show 2 * (n + 1) = 2 * n + 1 + 1 by omega, List.range_succ, List.range_succ]
      simp [hbytes]

theorem groupBytes_address (address : Vector UInt8 16) :
    groupBytes ((groupsAt (fieldGroup address) 0 8).map Group.value) = address.toList := by
  rw [groupBytes_groupsAt]
  apply List.ext_getElem
  · simp
  · intro i hi hi'
    simp at hi
    simp [hi]

/-! ## Texts that are rejected -/

/-- A single colon at the end. -/
theorem IPv6isCorrect_cut {gs : List Group} (hgs : gs ≠ []) :
    IPv6isCorrect (joinGroups gs ++ [':']) = false := by
  have htake : (joinGroups gs ++ [':']).takeWhile (· != '%') = joinGroups gs ++ [':'] := by
    rw [List.takeWhile_eq_self_iff]
    intro c hc
    have hne : c ≠ '%' := by
      rcases List.mem_append.1 hc with hc | hc
      · exact ne_percent_joinGroups gs c hc
      · rw [List.mem_singleton] at hc
        subst hc
        decide
    simpa using hne
  have hlast : (joinGroups gs ++ [':']).getLast? = some ':' := by simp
  have hprev : (joinGroups gs ++ [':'])[(joinGroups gs ++ [':']).length - 2]? ≠ some ':' := by
    have hpos := List.length_pos_iff.2 (joinGroups_ne_nil hgs)
    rw [List.length_append, List.length_singleton,
      show (joinGroups gs).length + 1 - 2 = (joinGroups gs).length - 1 by omega,
      List.getElem?_append_left (by omega), ← List.getLast?_eq_getElem?]
    exact getLast_joinGroups gs
  unfold IPv6isCorrect
  rw [htake]
  dsimp only
  split_ifs with hcount hends hpair hfirst hcut
  · rfl
  · rfl
  · rfl
  · rfl
  · rfl
  · exact absurd ⟨hlast, hprev⟩ hcut

theorem setIPv6_incorrect {ipv6 : List Char} (h : IPv6isCorrect ipv6 = false) :
    setIPv6 shiftOut locator ipv6 = some (false, locator) := by
  unfold setIPv6
  rw [h]
  simp

/-! ## The round trip -/

/-- `setIPv6` gives the address back. -/
def RoundTrip (shiftOut : Nat → Nat) (locator locator' : Locator_t) : Prop :=
  setIPv6 shiftOut locator' (toIPv6string locator) =
    some (true, { locator' with address := locator.address })

theorem not_roundTrip {l : Locator_t}
    (h : setIPv6 shiftOut locator' (toIPv6string locator) = some (false, l)) :
    ¬ RoundTrip shiftOut locator locator' := by
  intro htrip
  rw [RoundTrip, h] at htrip
  cases htrip

/-- Eight groups are read back. -/
theorem roundTrip_groups (hkind : IPv6Kind locator')
    (hsize : (maxBlock (zeroAt locator.address)).2 < 2) : RoundTrip shiftOut locator locator' := by
  obtain ⟨address, hset, haddress⟩ := setIPv6_groups shiftOut hkind
    (length_groupsAt (f := fieldGroup locator.address) 0 8)
  have heq : address = locator.address := by
    apply Vector.toList_inj.1
    rw [haddress, groupBytes_address]
  rw [heq] at hset
  rw [RoundTrip, toIPv6string_eq, printBlocks_groups hsize]
  exact hset

/-- `::` after a group that differs from one of the groups left out: the parser repeats the
first. -/
theorem not_roundTrip_back (hkind : IPv6Kind locator') {left k : Nat} (hpos : 1 ≤ left)
    (hk : left ≤ k) (hk8 : k < 8)
    (hdiffer : zeroAt locator.address (2 * k) ≠ zeroAt locator.address (2 * (left - 1)))
    (htext : toIPv6string locator =
      joinGroups (groupsAt (fieldGroup locator.address) 0 left) ++ [':', ':']) :
    ¬ RoundTrip shiftOut locator locator' := by
  let f := fieldGroup locator.address
  have hne : groupsAt f 0 left ≠ [] := by
    rw [← List.length_pos_iff, length_groupsAt]
    exact hpos
  have hle : (groupsAt f 0 left).length + ([] : List Group).length ≤ 7 := by
    rw [length_groupsAt, List.length_nil]
    omega
  have hchars : (elided (groupsAt f 0 left) [] hle).chars = toIPv6string locator := htext.symm
  have hgetLast : (groupsAt f 0 left).getLast hne = f (2 * (left - 1)) := by
    obtain ⟨m, rfl⟩ : ∃ m, left = m + 1 := ⟨left - 1, by omega⟩
    simp [groupsAt_concat]
  rcases Nat.lt_or_ge ((groupsAt f 0 left).getLast hne).value 65535 with hlt | hge
  · obtain ⟨address, hset, haddress⟩ := setIPv6_back shiftOut hkind hle hne hlt
    rw [hchars] at hset
    intro htrip
    rw [RoundTrip, hset] at htrip
    have heq : address = locator.address := by simpa using htrip
    -- The groups after the printed ones are all the last of these.
    rw [heq, ← groupBytes_address, length_groupsAt] at haddress
    have hvalues := groupBytes_injective (map_value_lt _)
      (map_value_append_lt _ (Group.value_lt _) _) haddress
    rw [show 8 = left + (8 - left) by omega, ← groupsAt_append, List.map_append,
      show left + (8 - left) - left = 8 - left by omega] at hvalues
    have hrest := List.append_cancel_left hvalues
    have hmem : (f (2 * k)).value ∈
        (groupsAt f (0 + 2 * left) (8 - left)).map Group.value := by
      apply List.mem_map_of_mem
      apply List.mem_map_of_mem
      exact List.mem_range'.2 ⟨k - left, by omega, by omega⟩
    rw [hrest] at hmem
    have hsame : (f (2 * k)).value = (f (2 * (left - 1))).value := by
      rw [← hgetLast]
      exact List.eq_of_mem_replicate hmem
    apply hdiffer
    rw [Bool.eq_iff_iff, zeroAt_iff, zeroAt_iff]
    change (f (2 * k)).value = 0 ↔ (f (2 * (left - 1))).value = 0
    rw [hsame]
  · obtain ⟨address, hset⟩ := setIPv6_back_overflow shiftOut hkind hle hne hge
    rw [hchars] at hset
    exact not_roundTrip hset

/-- The block at the end of the address. -/
theorem not_roundTrip_last (hkind : IPv6Kind locator') {index size : Nat}
    (hblock : LastBlock (zeroAt locator.address) index size) (hsize : 2 ≤ size)
    (htext : toIPv6string locator =
      printBlocks (fun i => (fieldGroup locator.address i).digits) index size) :
    ¬ RoundTrip shiftOut locator locator' := by
  have hindex := hblock.index_eq
  have hle := hblock.size_le
  by_cases hall : size = 8
  · -- The text of the zero address is `.:`.
    subst hall
    subst hindex
    have hdot : toIPv6string locator = ['.', ':'] := htext
    apply not_roundTrip
    rw [hdot]
    exact setIPv6_incorrect (by decide)
  · -- The group before the block is not zero, the first one in it is.
    have hfirst := hblock.run (8 - size) (Nat.le_refl _) (by omega)
    have hbefore : zeroAt locator.address (2 * (8 - size - 1)) = false := by
      rcases hblock.before with h | h
      · exact absurd h hall
      · rw [show 8 - size - 1 = 7 - size by omega]
        exact h
    apply not_roundTrip_back hkind (show 1 ≤ 8 - size by omega) (Nat.le_refl _) (by omega)
    · rw [hfirst, hbefore]
      simp
    · rw [htext, printBlocks_elided hsize (show (index + 1) / 2 = 8 - size by omega) (by omega)
        (by omega), show 8 - (8 - size) - size = 0 by omega]
      rfl

/-- A block before another group: the index is the size, so that the text has `::` in the middle,
or the block goes beyond the end of the address, or ends there. -/
theorem not_roundTrip_inner (hkind : IPv6Kind locator') {index size : Nat}
    (hblock : InnerBlock (zeroAt locator.address) index size) (hsize : 2 ≤ size)
    (htext : toIPv6string locator =
      printBlocks (fun i => (fieldGroup locator.address i).digits) index size) :
    ¬ RoundTrip shiftOut locator locator' := by
  have hindex := hblock.index_eq
  obtain ⟨start, hlt, hrun, hend⟩ := hblock.block
  obtain ⟨left, hleft⟩ : ∃ left, (index + 1) / 2 = left := ⟨_, rfl⟩
  have hnonempty : ∀ a n, 1 ≤ n → groupsAt (fieldGroup locator.address) a n ≠ [] := by
    intro a n hn
    rw [← List.length_pos_iff, length_groupsAt]
    exact hn
  rcases Nat.lt_trichotomy (left + size) 8 with hmiddle | hback | hcut
  · -- Groups are left on both sides.
    rw [printBlocks_elided hsize hleft (by omega) (by omega)] at htext
    obtain ⟨address, hset⟩ := setIPv6_middle shiftOut hkind
      (show (groupsAt (fieldGroup locator.address) 0 left).length +
        (groupsAt (fieldGroup locator.address) (2 * (left + size)) (8 - left - size)).length ≤ 7 by
          rw [length_groupsAt, length_groupsAt]
          omega)
      (hnonempty 0 left (by omega)) (hnonempty _ _ (by omega))
    apply not_roundTrip
    rw [htext]
    exact hset
  · -- Only a block of five groups ends with the address, and the third group is in it.
    have hsize5 : size = 5 := by omega
    have hleft3 : left = 3 := by omega
    have hthird := hrun 2 (by omega) (by omega)
    apply not_roundTrip_back hkind (show 1 ≤ left by omega) (show left ≤ start + size by omega) hlt
    · rw [hend, hleft3, hthird]
      simp
    · rw [htext, printBlocks_elided hsize hleft (by omega) (by omega),
        show 8 - left - size = 0 by omega]
      rfl
  · -- The block is not over at the end, and its colon is never printed.
    rw [printBlocks_cut hsize hleft (by omega) (by omega) hcut] at htext
    apply not_roundTrip
    rw [htext]
    exact setIPv6_incorrect (IPv6isCorrect_cut (hnonempty 0 left (by omega)))

/-- The addresses that are read back are those without two neighbouring zero groups. -/
theorem roundTrip_iff (hkind : IPv6Kind locator') :
    RoundTrip shiftOut locator locator' ↔ ¬ ZeroPair (zeroAt locator.address) := by
  obtain ⟨hpair, hblock⟩ := maxBlock_spec (zeroAt locator.address)
  have htext := toIPv6string_eq locator
  rw [← hpair]
  constructor
  · intro htrip hsize
    rcases hblock hsize with hlast | hinner
    · exact not_roundTrip_last hkind hlast hsize htext htrip
    · exact not_roundTrip_inner hkind hinner hsize htext htrip
  · intro hsize
    exact roundTrip_groups hkind (Nat.lt_of_not_le hsize)

/-- The address `2001:db8:0:1:2:3:4:5`. -/
theorem roundTrip_one_zero :
    RoundTrip (fun v => v >>> 31)
      ⟨LOCATOR_KIND_UDPv6, 0, #v[0x20, 1, 0x0d, 0xb8, 0, 0, 0, 1, 0, 2, 0, 3, 0, 4, 0, 5]⟩
      udpLocator :=
  (roundTrip_iff (Or.inr rfl)).2 (by decide)

/-- The address of the loopback interface is printed as `0:0:0:0:`, which is rejected. -/
theorem loopback_not_read_back :
    ¬ RoundTrip (fun v => v >>> 31)
      ⟨LOCATOR_KIND_UDPv6, 0, #v[0, 0, 0, 0, 0, 0, 0, 0, 0, 0, 0, 0, 0, 0, 0, 1]⟩ udpLocator := by
  apply not_roundTrip (l := udpLocator)
  decide

end Rtps
end Mozi
