import Mozi.Rtps.Locator.Wan

/-!
# TCPv4Address — the combined setter of a TCPv4 locator

`setIPv4address` of `ip_locator.cc` stores a LAN identifier, a WAN address and an IPv4 address, or
clears the address where one of the texts is rejected.  No text of eight numbers with points
between them is read by `setLanID`, so `setIPv4address` rejects every address that is written as
one; `readsExactly_iff` adds the texts that are accepted although they are none.
-/

namespace Mozi
namespace Rtps
namespace IPLocator

open Foundation InputStream

variable {locator : Locator_t} {lan wan ipv4 text : List Char} {c : Int} {vs : List Nat}

/-! ## The source -/

/-- `LOCATOR_ADDRESS_INVALID(locator.address)` -/
def invalidate (locator : Locator_t) : Locator_t :=
  { locator with address := LOCATOR_ADDRESS_INVALID }

/-- The setters run from left to right, up to the first that returns `false`. -/
def setIPv4address (c : Int) (dest_locator : Locator_t) (lan wan ipv4 : List Char) :
    Bool × Locator_t :=
  let (lanSet, dest_locator) := setLanID c dest_locator lan
  if !lanSet then (false, invalidate dest_locator)
  else
    let (wanSet, dest_locator) := setWan dest_locator wan
    if !wanSet then (false, invalidate dest_locator)
    else
      let (ipv4Set, dest_locator) := setIPv4 dest_locator ipv4
      if !ipv4Set then (false, invalidate dest_locator)
      else (true, dest_locator)

/-! ## Readable addresses -/

/-- A decimal number of at most 255. -/
def DecOctet (t : List Char) (v : Nat) : Prop :=
  t ≠ [] ∧ (∀ d ∈ t, isDecDigit d = true) ∧ decValue t = v ∧ v ≤ 255

/-- Numbers of at most 255 with points between them. -/
def Dotted (text : List Char) (vs : List Nat) : Prop :=
  ∃ fs, text = ['.'].intercalate fs ∧ List.Forall₂ DecOctet fs vs

/-- The three texts are eight, four and four numbers. -/
structure ReadableAddress (lan wan ipv4 : List Char) (ls ws qs : List Nat) : Prop where
  lan : Dotted lan ls ∧ ls.length = 8
  wan : Dotted wan ws ∧ ws.length = 4
  ipv4 : Dotted ipv4 qs ∧ qs.length = 4

/-- The numbers printed with points between them. -/
def printNumbers (vs : List Nat) : List Char :=
  ['.'].intercalate (vs.map (Nat.toDigits 10))

/-- What the setter returns and leaves is what the three texts say. -/
structure ReadsExactly (c : Int) (locator : Locator_t) (lan wan ipv4 : List Char) : Prop where
  accepts : (setIPv4address c locator lan wan ipv4).1 = true ↔
    ∃ ls ws qs, ReadableAddress lan wan ipv4 ls ws qs
  restores : ∀ ls ws qs, ReadableAddress lan wan ipv4 ls ws qs →
    toLanIDstring (setIPv4address c locator lan wan ipv4).2 = printNumbers ls ∧
      toWanstring (setIPv4address c locator lan wan ipv4).2 = printNumbers ws ∧
      toIPv4String (setIPv4address c locator lan wan ipv4).2 = printNumbers qs
  clears : (setIPv4address c locator lan wan ipv4).1 = false →
    (setIPv4address c locator lan wan ipv4).2.address = LOCATOR_ADDRESS_INVALID

/-! ## What the setter accepts -/

/-- The texts that the three chains of extractions read. -/
def ChainsRead (lan wan ipv4 : List Char) : Prop :=
  (∃ vs rest, Reads (IntNumeral 32) lanChain lan vs rest) ∧
    (∃ vs rest, Reads (IntNumeral 32) quad wan vs rest) ∧
    ∃ a b c d, StreamQuad ipv4 a b c d ∧ AllOctets a b c d

theorem setLanID_kind : (setLanID c locator text).2.kind = locator.kind := by
  unfold setLanID
  split_ifs
  · dsimp only
    split
    · rfl
    · rfl
  · rfl

theorem setWan_kind : (setWan locator text).2.kind = locator.kind := by
  unfold setWan
  dsimp only
  split
  · rfl
  · rfl

theorem setIPv4address_true :
    (setIPv4address c locator lan wan ipv4).1 = true ↔
      (setLanID c locator lan).1 = true ∧ (setWan (setLanID c locator lan).2 wan).1 = true ∧
        (setIPv4 (setWan (setLanID c locator lan).2 wan).2 ipv4).1 = true := by
  unfold setIPv4address
  dsimp only
  constructor
  · intro h
    split_ifs at h with hlan hwan hipv4
    exact ⟨by simpa using hlan, by simpa using hwan, by simpa using hipv4⟩
  · rintro ⟨hlan, hwan, hipv4⟩
    simp [hlan, hwan, hipv4]

theorem setIPv4address_iff (hkind : locator.kind = LOCATOR_KIND_TCPv4) :
    (setIPv4address c locator lan wan ipv4).1 = true ↔ ChainsRead lan wan ipv4 := by
  have hkind' : isV4 (setWan (setLanID c locator lan).2 wan).2 :=
    Or.inr (setWan_kind.trans (setLanID_kind.trans hkind))
  rw [setIPv4address_true, setLanID_iff hkind, setWan_iff, setIPv4_iff hkind', ChainsRead]

/-- A rejected address is cleared. -/
theorem setIPv4address_clears (h : (setIPv4address c locator lan wan ipv4).1 = false) :
    (setIPv4address c locator lan wan ipv4).2.address = LOCATOR_ADDRESS_INVALID := by
  unfold setIPv4address at h ⊢
  dsimp only at h ⊢
  split_ifs at h ⊢
  · rfl
  · rfl
  · rfl

/-! ## Eight numbers -/

theorem DecOctet.intNumeral {t : List Char} {v : Nat} (h : DecOctet t v) :
    IntNumeral 32 t v := by
  obtain ⟨hne, hds, rfl, hle⟩ := h
  exact ⟨[], [], false, t, rfl, by simp [Blank], .none, hne, hds, by omega, by omega, rfl⟩

theorem noDigit_point (cs : List Char) : NoDigit ('.' :: cs) := by
  intro d hd
  cases hd
  decide

/-- A number and the point behind it. -/
theorem extract_field {t : List Char} {v : Nat} (ht : DecOctet t v) (es : List Extraction)
    (cs : List Char) :
    (extract getInt (.number :: .mark :: es) ⟨t ++ '.' :: cs, false, false⟩).2 =
      (extract getInt es ⟨cs, false, false⟩).2 := by
  have hnumber := extracts_getInt.take ht.intNumeral (noDigit_point cs)
  have hpoint : getChar ⟨'.' :: cs, false, false⟩ = (some '.', ⟨cs, false, false⟩) :=
    getChar_cons (by decide)
  simp only [extract, hnumber, List.isEmpty_cons, hpoint]

/-- No number starts with a point. -/
theorem extract_point {t : List Char} {v : Nat} (ht : DecOctet t v) (cs : List Char) :
    (extract getInt [.number, .number] ⟨t ++ '.' :: cs, false, false⟩).2.fail = true := by
  have hnumber := extracts_getInt.take ht.intNumeral (noDigit_point cs)
  have hspace : isSpace '.' = false := by decide
  have hdigit : digitVal 10 '.' = none := by decide
  have hpoint : getInt ⟨'.' :: cs, false, false⟩ none = (some 0, ⟨'.' :: cs, false, true⟩) := by
    simp [getInt, getSigned, sentry_cons hspace, readSigned, readSign, readDigits, hdigit]
  simp only [extract, hnumber, List.isEmpty_cons, hpoint]

theorem intercalate_cons (f f' : List Char) (fs : List (List Char)) :
    ['.'].intercalate (f :: f' :: fs) = f ++ '.' :: ['.'].intercalate (f' :: fs) := by
  simp [List.intercalate, List.intersperse]

/-- There is a point between two numbers. -/
theorem Dotted.count_points (h : Dotted text vs) (hne : vs ≠ []) :
    text.count '.' + 1 = vs.length := by
  obtain ⟨fs, rfl, hfs⟩ := h
  have hnone : ∀ {f v}, DecOctet f v → f.count '.' = 0 := by
    intro f v hf
    refine List.count_eq_zero.2 fun hpoint => ?_
    exact absurd (hf.2.1 '.' hpoint) (by decide)
  induction hfs with
  | nil =>
      exact absurd rfl hne
  | @cons f v fs vs hf hfs ih =>
      cases hfs with
      | nil =>
          simp [List.intercalate, hnone hf]
      | @cons f' v' fs vs hf' hfs =>
          rw [intercalate_cons, List.count_append, hnone hf, List.count_cons_self,
            List.length_cons, ← ih (by simp)]
          omega

/-- `lanChain` with `n` separated numbers before the last two. -/
def unseparated : Nat → List Extraction
  | 0 => [.number, .number]
  | n + 1 => .number :: .mark :: unseparated n

/-- The last number is read where the point behind the one before it is: the induction is on the
numbers that are separated. -/
theorem extract_unseparated {n : Nat} {fs : List (List Char)}
    (hfs : List.Forall₂ DecOctet fs vs) (hlen : n + 2 ≤ fs.length) :
    (extract getInt (unseparated n) ⟨['.'].intercalate fs, false, false⟩).2.fail = true := by
  induction n generalizing fs vs with
  | zero =>
      match fs, hfs, hlen with
      | f :: f' :: fs, .cons hf _, _ =>
          rw [intercalate_cons]
          exact extract_point hf _
  | succ n ih =>
      match fs, hfs, hlen with
      | f :: f' :: fs, .cons hf hfs, hlen =>
          rw [intercalate_cons, unseparated, extract_field hf]
          exact ih hfs (by simpa using hlen)

theorem setLanID_dotted (h : Dotted lan vs) (hlen : vs.length = 8) :
    (setLanID c locator lan).1 = false := by
  obtain ⟨fs, rfl, hfs⟩ := h
  have hlength : 5 + 2 ≤ fs.length := by
    rw [hfs.length_eq, hlen]
    decide
  have hchain : lanChain = unseparated 5 := rfl
  have hfail : (extract getInt lanChain (.ofText (['.'].intercalate fs))).2.fail = true := by
    rw [hchain, InputStream.ofText]
    exact extract_unseparated hfs hlength
  unfold setLanID
  split_ifs
  · simp only [hfail]
  · rfl

theorem decOctet_toDigits {v : Nat} (h : v ≤ 255) : DecOctet (Nat.toDigits 10 v) v :=
  ⟨Nat.toDigits_ne_nil, isDecDigit_toDigits v, decValue_toDigits v, h⟩

theorem dotted_printOctets (locator : Locator_t) (indices : List Nat) :
    Dotted (printOctets locator indices) (indices.map (byteAt locator.address)) := by
  refine ⟨_, rfl, ?_⟩
  rw [List.forall₂_map_left_iff, List.forall₂_map_right_iff, List.forall₂_same]
  intro i _
  have hbyte : byteAt locator.address i < 256 := UInt8.toNat_lt _
  exact decOctet_toDigits (by omega)

/-- What is printed for a LAN identifier is not read back into any locator. -/
theorem setIPv4address_printed {other : Locator_t} (hkind : other.kind = LOCATOR_KIND_TCPv4) :
    setIPv4address c locator (toLanIDstring other) wan ipv4 = (false, invalidate locator) := by
  have hprinted : toLanIDstring other = printOctets other [0, 1, 2, 3, 4, 5, 6, 7] := by
    rw [toLanIDstring, if_neg (by simpa using hkind)]
  have hfalse : (setLanID c locator (toLanIDstring other)).1 = false := by
    rw [hprinted]
    exact setLanID_dotted (dotted_printOctets other _) rfl
  have hsame := setLanID_rejected hfalse
  simp [setIPv4address, hfalse, hsame]

/-! ## Exact addresses -/

/-- `setIPv4address` does what the texts say exactly if they are no address and its chains do not
read them either. -/
theorem readsExactly_iff (hkind : locator.kind = LOCATOR_KIND_TCPv4) :
    ReadsExactly c locator lan wan ipv4 ↔
      (¬ ∃ ls ws qs, ReadableAddress lan wan ipv4 ls ws qs) ∧ ¬ ChainsRead lan wan ipv4 := by
  have haccepts : (setIPv4address c locator lan wan ipv4).1 = true ↔ _ := setIPv4address_iff hkind
  constructor
  · intro h
    have hnot : ¬ ∃ ls ws qs, ReadableAddress lan wan ipv4 ls ws qs := by
      intro hreadable
      have hchains := haccepts.1 (h.accepts.2 hreadable)
      obtain ⟨ls, ws, qs, hls⟩ := hreadable
      have hfalse : (setLanID c locator lan).1 = false := setLanID_dotted hls.lan.1 hls.lan.2
      rw [(setLanID_iff hkind).2 hchains.1] at hfalse
      cases hfalse
    exact ⟨hnot, fun hchains => hnot (h.accepts.1 (haccepts.2 hchains))⟩
  · rintro ⟨hnot, hchains⟩
    refine ⟨?_, ?_, setIPv4address_clears⟩
    · rw [haccepts]
      exact iff_of_false hchains hnot
    · intro ls ws qs hreadable
      exact absurd ⟨ls, ws, qs, hreadable⟩ hnot

/-- A locator of the kind. -/
def tcpLocator : Locator_t :=
  ⟨LOCATOR_KIND_TCPv4, 7400, #v[1, 2, 3, 4, 5, 6, 7, 8, 9, 10, 11, 12, 127, 0, 0, 1]⟩

/-- Three numbers are no LAN identifier, and they are rejected. -/
theorem readsExactly_iff_short : ReadsExactly 77 tcpLocator "1.2.3".toList "9.10.11.12".toList
    "127.0.0.1".toList := by
  refine (readsExactly_iff rfl).2 ⟨?_, ?_⟩
  · rintro ⟨ls, ws, qs, hreadable⟩
    have hnumbers : ls.length = 8 := hreadable.lan.2
    have hpoints := hreadable.lan.1.count_points (List.ne_nil_of_length_eq_add_one hnumbers)
    rw [hnumbers] at hpoints
    exact absurd hpoints (by decide)
  · intro hchains
    have haccepted := (setIPv4address_iff (show tcpLocator.kind = LOCATOR_KIND_TCPv4 from rfl)
      (c := 77)).2 hchains
    exact absurd haccepted (by decide)

/-- The texts printed for a locator are rejected, and a LAN identifier of seven numbers is accepted
and stored with whatever `c` held. -/
theorem setIPv4address_rejects_printed :
    setIPv4address 77 tcpLocator (toLanIDstring tcpLocator) (toWanstring tcpLocator)
        (toIPv4String tcpLocator) = (false, invalidate tcpLocator) ∧
      (setIPv4address 77 tcpLocator "1.2.3.4.5.6 7".toList "300.0.0.1".toList
        "127.0.0.1".toList).1 = true ∧
      (setIPv4address 77 tcpLocator "1.2.3.4.5.6 7".toList "300.0.0.1".toList
        "127.0.0.1".toList).2.address =
          #v[1, 2, 77, 3, 4, 5, 6, 7, 44, 0, 0, 1, 127, 0, 0, 1] := by
  refine ⟨by decide, by decide, by decide⟩

end IPLocator
end Rtps
end Mozi
