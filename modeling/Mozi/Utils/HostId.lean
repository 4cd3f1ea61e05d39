import Mathlib.Data.Char
import Mathlib.Data.Finset.Sort
import Mathlib.Data.List.Lex
import Mathlib.Data.List.TakeWhile
import Mozi.Foundation.Digits
import Mozi.Foundation.Terminated

/-!
# HostId — the addresses that identify a host

`core/communication/utils/host_id.cc`.  `getMangledIp` goes over the records that
`ioctl(SIOCGIFCONF)` wrote into the buffer.  The counter of its loop goes down in every round, the
record pointer goes on only after an IPv4 record, so the rest of the rounds look at the first other
record again: what is listed are the IPv4 addresses before it.
-/

namespace Mozi
namespace Utils

open Foundation

/-! ## The source -/

/-- What is read of a `struct ifreq`.  `ifr_flags` and `ifr_addr` are members of one union:
`ifr_flags` reads the address family. -/
structure ifreq where
  ifr_flags : UInt16
  sin_addr : Vector UInt8 4
deriving DecidableEq

def AF_INET : UInt16 := 2

def inet_ntoa (sin_addr : Vector UInt8 4) : List Char :=
  (sin_addr.toList.map fun b => Nat.toDigits 10 b.toNat).intersperse ['.'] |>.flatten

/-- The loop with `i` rounds to go and `if_req` pointing at the first of these records.  A
`std::set` is the finite set of its elements. -/
def scan : Nat → List ifreq → Finset (List Char) → Option (Finset (List Char))
  | 0, _, sorted_ips => some sorted_ips
  | _ + 1, [], _ => none
  | i + 1, r :: rest, sorted_ips =>
      if r.ifr_flags = AF_INET then
        scan i rest (insert (inet_ntoa r.sin_addr) sorted_ips)
      else
        scan i (r :: rest) sorted_ips

/-- The set is read in its order. -/
def getMangledIp (ifc : List ifreq) : Option (List Char) :=
  (scan ifc.length ifc ∅).map fun sorted_ips =>
    terminated '/' (sorted_ips.sort (· ≤ ·))

/-! ## What the id is for -/

def IsIPv4 (r : ifreq) : Prop :=
  r.ifr_flags = AF_INET

instance (r : ifreq) : Decidable (IsIPv4 r) :=
  inferInstanceAs (Decidable (_ = _))

/-- The id of a host lists the IPv4 addresses of its interfaces: sorted, each one once, each
followed by `/`. -/
def Lists (ifc : List ifreq) (id : List Char) : Prop :=
  ∃ ips : List (List Char), ips.Pairwise (· < ·) ∧
    (∀ ip, ip ∈ ips ↔ ∃ r ∈ ifc, IsIPv4 r ∧ inet_ntoa r.sin_addr = ip) ∧
    id = terminated '/' ips

def ListsEveryInterface (ifc : List ifreq) : Prop :=
  ∃ id, getMangledIp ifc = some id ∧ Lists ifc id

def SameInEveryOrder (ifc : List ifreq) : Prop :=
  ∀ ifc' : List ifreq, ifc'.Perm ifc → getMangledIp ifc' = getMangledIp ifc

/-! ## Addresses and their texts -/

theorem mark_notMem_toDigits {c : Char} (hc : isDecDigit c = false) (v : Nat) :
    c ∉ Nat.toDigits 10 v := by
  intro hmem
  have := isDecDigit_toDigits v c hmem
  rw [hc] at this
  exact absurd this (by decide)

/-- With one more dot the text is the digits of the four bytes, each followed by a dot. -/
theorem inet_ntoa_dot (a : Vector UInt8 4) :
    inet_ntoa a ++ ['.'] = terminated '.' (a.toList.map fun b => Nat.toDigits 10 b.toNat) := by
  have hne : (a.toList.map fun b => Nat.toDigits 10 b.toNat) ≠ [] := by
    intro hnil
    have := congrArg List.length hnil
    simp at this
  exact intersperse_mark hne

theorem slash_notMem (a : Vector UInt8 4) : '/' ∉ inet_ntoa a := by
  intro hmem
  have hwritten := List.mem_append_left ['.'] hmem
  rw [inet_ntoa_dot, mem_terminated] at hwritten
  obtain ⟨text, htext, hslash | hdot⟩ := hwritten
  · obtain ⟨b, -, rfl⟩ := List.mem_map.1 htext
    exact mark_notMem_toDigits (by decide) b.toNat hslash
  · exact absurd hdot (by decide)

theorem inet_ntoa_inj {a b : Vector UInt8 4} (h : inet_ntoa a = inet_ntoa b) : a = b := by
  have hdots : ∀ v : Vector UInt8 4,
      ∀ text ∈ v.toList.map fun b => Nat.toDigits 10 b.toNat, '.' ∉ text := by
    intro v text htext
    obtain ⟨b, -, rfl⟩ := List.mem_map.1 htext
    exact mark_notMem_toDigits (by decide) b.toNat
  have hwritten : terminated '.' (a.toList.map fun b => Nat.toDigits 10 b.toNat) =
      terminated '.' (b.toList.map fun b => Nat.toDigits 10 b.toNat) := by
    rw [← inet_ntoa_dot, ← inet_ntoa_dot, h]
  have hdigits := terminated_inj (hdots a) (hdots b) hwritten
  have hbyte : Function.Injective fun b : UInt8 => Nat.toDigits 10 b.toNat := by
    intro x y hxy
    have hval := congrArg decValue hxy
    simp only [decValue_toDigits] at hval
    exact UInt8.toNat_inj.1 hval
  exact Vector.toList_inj.1 (List.map_injective_iff.2 hbyte hdigits)

/-! ## The loop -/

variable {ifc ifc' : List ifreq}

/-- The records before the first one that is not IPv4. -/
def leading (ifc : List ifreq) : List ifreq :=
  ifc.takeWhile fun r => decide (IsIPv4 r)

def texts (ifc : List ifreq) : Finset (List Char) :=
  (ifc.map fun r => inet_ntoa r.sin_addr).toFinset

theorem leading_eq_self (h : ∀ r ∈ ifc, IsIPv4 r) : leading ifc = ifc :=
  List.takeWhile_eq_self_iff.2 fun r hr => decide_eq_true (h r hr)

/-- From a record that is not IPv4 on the rounds change nothing. -/
theorem scan_stuck {r : ifreq} (hr : ¬ IsIPv4 r) (rest : List ifreq) (i : Nat)
    (sorted_ips : Finset (List Char)) : scan i (r :: rest) sorted_ips = some sorted_ips := by
  induction i with
  | zero => rfl
  | succ i ih =>
      have hround : scan (i + 1) (r :: rest) sorted_ips = scan i (r :: rest) sorted_ips :=
        if_neg hr
      rw [hround, ih]

theorem scan_length (ifc : List ifreq) (sorted_ips : Finset (List Char)) :
    scan ifc.length ifc sorted_ips = some (sorted_ips ∪ texts (leading ifc)) := by
  induction ifc generalizing sorted_ips with
  | nil => simp [scan, texts, leading]
  | cons r rest ih =>
      by_cases hr : IsIPv4 r
      · have hleading : leading (r :: rest) = r :: leading rest :=
          List.takeWhile_cons_of_pos (decide_eq_true hr)
        have hround : scan (r :: rest).length (r :: rest) sorted_ips =
            scan rest.length rest (insert (inet_ntoa r.sin_addr) sorted_ips) :=
          if_pos hr
        rw [hround, ih, hleading]
        simp [texts, Finset.insert_union, Finset.union_insert]
      · have hleading : leading (r :: rest) = [] :=
          List.takeWhile_cons_of_neg (by simpa using hr)
        rw [scan_stuck hr, hleading]
        simp [texts]

theorem getMangledIp_eq (ifc : List ifreq) :
    getMangledIp ifc = some (terminated '/' ((texts (leading ifc)).sort (· ≤ ·))) := by
  rw [getMangledIp, scan_length, Finset.empty_union, Option.map_some]

theorem mem_texts {ip : List Char} : ip ∈ texts ifc ↔ ∃ r ∈ ifc, inet_ntoa r.sin_addr = ip := by
  simp [texts]

theorem slash_notMem_texts {ip : List Char} (h : ip ∈ texts ifc) : '/' ∉ ip := by
  obtain ⟨r, -, rfl⟩ := mem_texts.1 h
  exact slash_notMem r.sin_addr

theorem mem_leading {r : ifreq} (h : r ∈ leading ifc) : r ∈ ifc ∧ IsIPv4 r :=
  ⟨(List.takeWhile_subset _) h, by simpa using List.mem_takeWhile_imp h⟩

/-- The ids of two lists are the same where the addresses before the first other record are. -/
theorem getMangledIp_inj :
    getMangledIp ifc = getMangledIp ifc' ↔ texts (leading ifc) = texts (leading ifc') := by
  constructor
  · intro h
    rw [getMangledIp_eq, getMangledIp_eq, Option.some_inj] at h
    have hlists := terminated_inj
      (fun ip hip => slash_notMem_texts ((Finset.mem_sort _).1 hip))
      (fun ip hip => slash_notMem_texts ((Finset.mem_sort _).1 hip)) h
    ext ip
    rw [← Finset.mem_sort (· ≤ ·), hlists, Finset.mem_sort]
  · intro h
    rw [getMangledIp_eq, getMangledIp_eq, h]

/-! ## When every interface is listed -/

/-- Every IPv4 address of the list stands before the first record of another family. -/
def LeadingHasAll (ifc : List ifreq) : Prop :=
  ∀ r ∈ ifc, IsIPv4 r → ∃ r' ∈ leading ifc, r'.sin_addr = r.sin_addr

theorem listsEveryInterface_iff : ListsEveryInterface ifc ↔ LeadingHasAll ifc := by
  have hsorted : ((texts (leading ifc)).sort (· ≤ ·)).Pairwise (· < ·) :=
    (Finset.sortedLT_sort _).pairwise
  constructor
  · rintro ⟨id, hid, ips, -, hmem, rfl⟩ r hr hv4
    rw [getMangledIp_eq, Option.some_inj] at hid
    have hips : (texts (leading ifc)).sort (· ≤ ·) = ips := by
      refine terminated_inj (fun ip hip => slash_notMem_texts ((Finset.mem_sort _).1 hip))
        (fun ip hip => ?_) hid
      obtain ⟨r', -, -, rfl⟩ := (hmem ip).1 hip
      exact slash_notMem r'.sin_addr
    have hlisted := (hmem (inet_ntoa r.sin_addr)).2 ⟨r, hr, hv4, rfl⟩
    rw [← hips, Finset.mem_sort] at hlisted
    obtain ⟨r', hr', htext⟩ := mem_texts.1 hlisted
    exact ⟨r', hr', inet_ntoa_inj htext⟩
  · intro h
    refine ⟨_, getMangledIp_eq ifc, _, hsorted, fun ip => ?_, rfl⟩
    rw [Finset.mem_sort, mem_texts]
    constructor
    · rintro ⟨r, hr, rfl⟩
      exact ⟨r, (mem_leading hr).1, (mem_leading hr).2, rfl⟩
    · rintro ⟨r, hr, hv4, rfl⟩
      obtain ⟨r', hr', haddr⟩ := h r hr hv4
      exact ⟨r', hr', by rw [haddr]⟩

/-- All records or none are IPv4. -/
def Unmixed (ifc : List ifreq) : Prop :=
  (∀ r ∈ ifc, IsIPv4 r) ∨ ∀ r ∈ ifc, ¬ IsIPv4 r

theorem leading_eq_nil (h : ∀ r ∈ ifc, ¬ IsIPv4 r) : leading ifc = [] :=
  List.eq_nil_iff_forall_not_mem.2 fun r hr => h r (mem_leading hr).1 (mem_leading hr).2

/-- A record in front that is not IPv4 hides every address, an IPv4 record in front is listed. -/
theorem sameInEveryOrder_iff : SameInEveryOrder ifc ↔ Unmixed ifc := by
  constructor
  · intro hsame
    by_contra hmixed
    obtain ⟨hother, hv4⟩ := not_or.1 hmixed
    push Not at hother hv4
    obtain ⟨r, hr, hrOther⟩ := hother
    obtain ⟨q, hq, hqv4⟩ := hv4
    have hfront : ∀ x ∈ ifc, texts (leading (x :: ifc.erase x)) = texts (leading ifc) :=
      fun x hx => getMangledIp_inj.1 (hsame _ (List.perm_cons_erase hx).symm)
    have hnone : leading (r :: ifc.erase r) = [] :=
      List.takeWhile_cons_of_neg (by simpa using hrOther)
    have hsome : leading (q :: ifc.erase q) = q :: leading (ifc.erase q) :=
      List.takeWhile_cons_of_pos (decide_eq_true hqv4)
    have hdiff := (hfront r hr).trans (hfront q hq).symm
    rw [hnone, hsome] at hdiff
    simp [texts] at hdiff
    exact absurd hdiff.symm (Finset.insert_ne_empty _ _)
  · intro h ifc' hperm
    have hmem : ∀ r, r ∈ ifc' ↔ r ∈ ifc := fun r => hperm.mem_iff
    rw [getMangledIp_inj]
    rcases h with hall | hnone
    · rw [leading_eq_self hall, leading_eq_self fun r hr => hall r ((hmem r).1 hr)]
      ext ip
      simp only [mem_texts, hmem]
    · rw [leading_eq_nil hnone, leading_eq_nil fun r hr => hnone r ((hmem r).1 hr)]

/-- The id lists every IPv4 interface exactly where each address stands before the first record of
another family, and it is the same for every order of the records exactly where they are all IPv4
or none is. -/
theorem hostId_iff (ifc : List ifreq) :
    (ListsEveryInterface ifc ↔ LeadingHasAll ifc) ∧ (SameInEveryOrder ifc ↔ Unmixed ifc) :=
  ⟨listsEveryInterface_iff, sameInEveryOrder_iff⟩

/-- An IPv6 record before the IPv4 loopback: the id is empty, the other way round it is not. -/
theorem loopback_not_listed :
    ¬ ListsEveryInterface [⟨10, #v[0, 0, 0, 0]⟩, ⟨2, #v[127, 0, 0, 1]⟩] ∧
      ¬ SameInEveryOrder [⟨10, #v[0, 0, 0, 0]⟩, ⟨2, #v[127, 0, 0, 1]⟩] := by
  rw [listsEveryInterface_iff, sameInEveryOrder_iff]
  unfold LeadingHasAll Unmixed
  decide

end Utils
end Mozi
