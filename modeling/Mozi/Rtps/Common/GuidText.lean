import Mozi.Rtps.Common.Guid
import Mozi.Foundation.Digits

/-!
# GuidText — which identifiers survive their own text

`operator>>` against `operator<<` for `GuidPrefix`, `EntityId` and `GUID`.  Each extraction meets a
character that is no dot at the place of the first dot, and throws: after one character of the
prefix, and before the first one of the entity id.
-/

namespace Mozi
namespace Rtps

open Foundation Reading InputStream

/-! ## Fields -/

section Fields

variable {n : Nat} {e : Extraction (Vector UInt8 n)} {c : Char} {cs : List Char}

theorem storeChecked_ok {i v : Nat} (hv : v ≤ 255) :
    storeChecked i (some v) e =
      .ok ((), { e with value := e.value.setIfInBounds i (UInt8.ofNat v) }) := by
  have habove : above255 (some v) = false := by
    simp [above255]
    omega
  simp [storeChecked, habove, store]

theorem storeChecked_error {i v : Nat} (hv : 255 < v) (ht : e.throwing = true) :
    storeChecked i (some v) e = .error { e with input := { e.input with fail := true } } := by
  have habove : above255 (some v) = true := by
    simpa [above255] using hv
  unfold storeChecked
  rw [habove]
  exact bind_error (setstate_throws ht)

/-- A field that does not start with a dot. -/
theorem readField_error {read : Reading (Vector UInt8 n) (Option Nat)} (hread : Keeps read)
    (i : Nat) (hc : isSpace c = false) (hdot : c ≠ '.') (ht : e.throwing = true)
    (hinput : e.input = ⟨c :: cs, false, false⟩) :
    ∃ e', readField read i e = .error e' ∧ e'.throwing = true ∧ e'.input.fail = true ∧
      e'.value = e.value := by
  have hpoint := readChar_cons hc hinput
  unfold readField
  rw [bind_ok hpoint]
  rcases hread { e with input := ⟨cs, false, false⟩ } ht with
    ⟨hex, e', hok, ht', hvalue⟩ | ⟨e', herror, ht', hfail, hvalue⟩
  · refine ⟨{ e' with input := { e'.input with fail := true } }, ?_, ht', rfl, hvalue⟩
    rw [bind_ok hok, if_pos (Or.inl (by simpa using hdot))]
    exact bind_error (setstate_throws ht')
  · exact ⟨e', bind_error herror, ht', hfail, hvalue⟩

end Fields

/-! ## Texts whose first character is no dot -/

variable {c d : Char} {cs : List Char} {junk : UInt16}

/-- The second character stands where the loop, which starts at 0, expects a dot. -/
theorem GuidPrefix.extractFields_error {e : Extraction GuidPrefix} (hc : isSpace c = false)
    (hd : isSpace d = false) (hdot : d ≠ '.') (ht : e.throwing = true)
    (hinput : e.input = ⟨c :: d :: cs, false, false⟩) (hbyte : c.toNat ≤ 255) :
    ∃ e', GuidPrefix.extractFields e = .error e' ∧ e'.throwing = true ∧
      e'.input.fail = true := by
  have hbase : setBase 16 e = .ok ((), { e with base := 16 }) := rfl
  have hhex := readUChar_cons (e := { e with base := 16 }) hc hinput
  obtain ⟨e', herror, ht', hfail, _⟩ :=
    readField_error
      (e := ⟨⟨d :: cs, false, false⟩, e.throwing, 16,
        e.value.setIfInBounds 0 (UInt8.ofNat c.toNat)⟩) keeps_readUChar 0 hd hdot ht rfl
  refine ⟨e', ?_, ht', hfail⟩
  unfold GuidPrefix.extractFields
  rw [bind_ok hbase, bind_ok hhex, bind_ok (storeChecked_ok hbyte)]
  exact bind_error (bind_error herror)

theorem GuidPrefix.extract_eq {e : Extraction GuidPrefix} (hc : isSpace c = false)
    (hd : isSpace d = false) (hdot : d ≠ '.')
    (hinput : e.input = ⟨c :: d :: cs, false, false⟩) (hbyte : c.toNat ≤ 255) :
    ∃ e', GuidPrefix.extract e = (if e.throwing then .error e' else .ok ((), e')) ∧
      e'.throwing = e.throwing ∧ e'.input.fail = true ∧ e'.value = GuidPrefix.unknown := by
  obtain ⟨e', hbody, ht, hfail⟩ :=
    GuidPrefix.extractFields_error (e := { e with throwing := true }) hc hd hdot rfl hinput hbyte
  have hhandler : assign GuidPrefix.unknown e' =
      .ok ((), { e' with value := GuidPrefix.unknown }) := rfl
  have hguarded := guarded_fails hc hinput hbody hhandler hfail
  refine ⟨⟨e'.input, e.throwing, e'.base, GuidPrefix.unknown⟩, ?_, rfl, hfail, rfl⟩
  rw [GuidPrefix.extract, hguarded]
  cases e.throwing <;> rfl

/-- The failure of the prefix is rethrown at the end of its operator. -/
theorem GUID.extract_eq (junk : UInt16) {e : Extraction GUID} (hc : isSpace c = false)
    (hd : isSpace d = false) (hdot : d ≠ '.') (ht : e.throwing = false)
    (hinput : e.input = ⟨c :: d :: cs, false, false⟩) (hbyte : c.toNat ≤ 255) :
    ∃ e', GUID.extract junk e = .ok ((), e') ∧ e'.value = GUID.unknown := by
  obtain ⟨f, hprefix, hthrowing, hfail, _⟩ :=
    GuidPrefix.extract_eq (e := ⟨e.input, true, e.base, e.value.guid_prefix⟩) hc hd hdot
      hinput hbyte
  have hbody :
      GUID.extractFields junk { e with throwing := true } =
        .error ⟨f.input, f.throwing, f.base, { e.value with guid_prefix := f.value }⟩ := by
    unfold GUID.extractFields
    apply bind_error
    rw [if_pos rfl] at hprefix
    simp [focus, hprefix]
  have hhandler :
      assign GUID.unknown ⟨f.input, f.throwing, f.base, { e.value with guid_prefix := f.value }⟩ =
        .ok ((), ⟨f.input, f.throwing, f.base, GUID.unknown⟩) := rfl
  have hguarded := guarded_fails hc hinput hbody hhandler hfail
  refine ⟨⟨f.input, false, f.base, GUID.unknown⟩, ?_, rfl⟩
  rw [GUID.extract, hguarded, ht]
  rfl

/-- What the operator leaves of an entity id: the junk in the first field, if it is a byte. -/
def EntityId.left (junk : UInt16) (id : EntityId) : EntityId :=
  if junk.toNat ≤ 255 then id.setIfInBounds 0 (UInt8.ofNat junk.toNat) else id

theorem EntityId.left_unknown (junk : UInt16) :
    EntityId.left junk EntityId.unknown =
      #v[if junk.toNat ≤ 255 then UInt8.ofNat junk.toNat else 0, 0, 0, 0] := by
  unfold EntityId.left
  split <;> rfl

theorem EntityId.extractFields_error (junk : UInt16) {e : Extraction EntityId}
    (hc : isSpace c = false) (hdot : c ≠ '.') (ht : e.throwing = true)
    (hinput : e.input = ⟨c :: cs, false, false⟩) :
    ∃ e', EntityId.extractFields junk e = .error e' ∧ e'.throwing = true ∧
      e'.input.fail = true ∧ e'.value = EntityId.left junk e.value := by
  unfold EntityId.extractFields EntityId.left
  split
  case isTrue hbyte =>
    obtain ⟨e', herror, ht', hfail, hvalue⟩ :=
      readField_error
        (e := { e with value := e.value.setIfInBounds 0 (UInt8.ofNat junk.toNat) })
        (keeps_readUnsigned 16) 1 hc hdot ht hinput
    refine ⟨e', ?_, ht', hfail, hvalue⟩
    rw [bind_ok (storeChecked_ok hbyte)]
    exact bind_error (bind_error herror)
  case isFalse hbyte =>
    exact ⟨_, bind_error (storeChecked_error (by omega) ht), ht, rfl, rfl⟩

theorem EntityId.extract_eq (junk : UInt16) {e : Extraction EntityId}
    (hc : isSpace c = false) (hdot : c ≠ '.') (ht : e.throwing = false)
    (hinput : e.input = ⟨c :: cs, false, false⟩) :
    ∃ e', EntityId.extract junk e = .ok ((), e') ∧ e'.value = EntityId.left junk e.value := by
  obtain ⟨e', hbody, ht', hfail, hvalue⟩ :=
    EntityId.extractFields_error junk (e := { e with throwing := true }) hc hdot rfl
      hinput
  have hhandler : (pure () : Reading EntityId Unit) e' = .ok ((), e') := rfl
  have hguarded := guarded_fails hc hinput hbody hhandler hfail
  refine ⟨{ e' with throwing := false }, ?_, hvalue⟩
  rw [EntityId.extract, hguarded, ht]
  rfl

/-! ## Printed texts -/

theorem isHexDigit_hexText {v : UInt8} : ∀ c ∈ hexText v, isHexDigit c = true :=
  toDigits_isSome (by decide) (by decide) v.toNat

theorem toNat_le_of_hex (h : isHexDigit c = true) : c.toNat ≤ 255 := by
  by_contra hlarge
  have hle : ¬ c ≤ '9' ∧ ¬ c ≤ 'f' ∧ ¬ c ≤ 'F' := by
    refine ⟨fun h => ?_, fun h => ?_, fun h => ?_⟩
    · have : c.toNat ≤ 57 := h
      omega
    · have : c.toNat ≤ 102 := h
      omega
    · have : c.toNat ≤ 70 := h
      omega
  simp [isHexDigit, digitVal, hle.1, hle.2.1, hle.2.2] at h

theorem hexText_cons (v : UInt8) : ∃ c cs, hexText v = c :: cs ∧ isHexDigit c = true := by
  obtain ⟨c, cs, h⟩ := List.exists_cons_of_ne_nil (Nat.toDigits_ne_nil (b := 16) (n := v.toNat))
  exact ⟨c, cs, h, isHexDigit_hexText (v := v) c (by simp [hexText, h])⟩

theorem setw2_cons (v : UInt8) :
    ∃ c d cs, setw2 (hexText v) = c :: d :: cs ∧ isHexDigit c = true ∧ isHexDigit d = true := by
  have hall := isHexDigit_hexText (v := v)
  obtain ⟨c, cs, htext, hc⟩ := hexText_cons v
  rw [htext] at hall ⊢
  cases cs with
  | nil =>
      exact ⟨'0', c, [], rfl, by decide, hc⟩
  | cons d cs =>
      exact ⟨c, d, cs, by simp [setw2], hc, hall d (by simp)⟩

/-- The first field of a list of fields starts its text. -/
theorem flatten_intersperse_cons (sep field : List Char) (fields : List (List Char)) :
    ∃ rest, ((field :: fields).intersperse sep).flatten = field ++ rest := by
  cases fields with
  | nil =>
      exact ⟨[], by simp⟩
  | cons next fields =>
      exact ⟨sep ++ ((next :: fields).intersperse sep).flatten, by simp⟩

theorem Vector.exists_toList_cons {α : Type} {n : Nat} (v : Vector α (n + 1)) :
    ∃ a as, v.toList = a :: as :=
  List.exists_cons_of_ne_nil fun h => by simpa [h] using v.length_toList

theorem GuidPrefix.print_cons (p : GuidPrefix) :
    ∃ c d cs, p.print = c :: d :: cs ∧ isHexDigit c = true ∧ isHexDigit d = true := by
  obtain ⟨v, vs, hv⟩ := Vector.exists_toList_cons p
  obtain ⟨c, d, cs, hfield, hc, hd⟩ := setw2_cons v
  obtain ⟨rest, hrest⟩ :=
    flatten_intersperse_cons ['.'] (setw2 (hexText v)) (vs.map fun v => setw2 (hexText v))
  refine ⟨c, d, cs ++ rest, ?_, hc, hd⟩
  rw [GuidPrefix.print, hv, List.map_cons, hrest, hfield]
  rfl

theorem EntityId.print_cons (id : EntityId) :
    ∃ c cs, id.print = c :: cs ∧ isHexDigit c = true := by
  obtain ⟨v, vs, hv⟩ := Vector.exists_toList_cons id
  obtain ⟨c, cs, hfield, hc⟩ := hexText_cons v
  obtain ⟨rest, hrest⟩ := flatten_intersperse_cons ['.'] (hexText v) (vs.map hexText)
  refine ⟨c, cs ++ rest, ?_, hc⟩
  rw [EntityId.print, hv, List.map_cons, hrest, hfield]
  rfl

/-- Neither the two digits of a prefix nor the bar of the unknown identifier are followed by a
dot. -/
theorem GUID.print_cons (guid : GUID) :
    ∃ c d cs, guid.print = c :: d :: cs ∧ isSpace c = false ∧ isSpace d = false ∧ d ≠ '.' ∧
      c.toNat ≤ 255 := by
  unfold GUID.print
  split
  · obtain ⟨c, d, cs, htext, hc, hd⟩ := GuidPrefix.print_cons guid.guid_prefix
    exact ⟨c, d, _, by rw [htext]; rfl, not_isSpace_of_hex hc, not_isSpace_of_hex hd,
      ne_of_hex hd (by decide), toNat_le_of_hex hc⟩
  · exact ⟨'|', 'G', _, rfl, by decide⟩

/-! ## Round trips -/

theorem GuidPrefix.extractText_print (p : GuidPrefix) :
    extractText GuidPrefix.extract GuidPrefix.unknown p.print = GuidPrefix.unknown := by
  obtain ⟨c, d, cs, htext, hc, hd⟩ := GuidPrefix.print_cons p
  obtain ⟨e', hextract, _, _, hvalue⟩ :=
    GuidPrefix.extract_eq (e := ⟨.ofText p.print, false, 10, GuidPrefix.unknown⟩)
      (not_isSpace_of_hex hc) (not_isSpace_of_hex hd) (ne_of_hex hd (by decide))
      (congrArg InputStream.ofText htext) (toNat_le_of_hex hc)
  simp [extractText, hextract, hvalue]

theorem GUID.extractText_print (guid : GUID) :
    extractText (GUID.extract junk) GUID.unknown guid.print = GUID.unknown := by
  obtain ⟨c, d, cs, htext, hc, hd, hdot, hbyte⟩ := GUID.print_cons guid
  obtain ⟨e', hextract, hvalue⟩ :=
    GUID.extract_eq junk (e := ⟨.ofText guid.print, false, 10, GUID.unknown⟩) hc hd
      hdot rfl (congrArg InputStream.ofText htext) hbyte
  simp [extractText, hextract, hvalue]

theorem EntityId.extractText_print (id : EntityId) :
    extractText (EntityId.extract junk) EntityId.unknown id.print =
      EntityId.left junk EntityId.unknown := by
  obtain ⟨c, cs, htext, hc⟩ := EntityId.print_cons id
  obtain ⟨e', hextract, hvalue⟩ :=
    EntityId.extract_eq junk (e := ⟨.ofText id.print, false, 10, EntityId.unknown⟩)
      (not_isSpace_of_hex hc) (ne_of_hex hc (by decide)) rfl (congrArg InputStream.ofText htext)
  simp [extractText, hextract, hvalue]

/-- Only the unknown identifiers survive, and of the entity ids the one that the junk left by the
missing extraction happens to spell. -/
theorem guid_text_exact (guid : GUID) (p : GuidPrefix) (id : EntityId) (junk : UInt16) :
    (extractText (GUID.extract junk) GUID.unknown guid.print = guid ↔ guid = GUID.unknown) ∧
      (extractText GuidPrefix.extract GuidPrefix.unknown p.print = p ↔
        p = GuidPrefix.unknown) ∧
      (extractText (EntityId.extract junk) EntityId.unknown id.print = id ↔
        id = #v[if junk.toNat ≤ 255 then UInt8.ofNat junk.toNat else 0, 0, 0, 0]) := by
  rw [GUID.extractText_print, GuidPrefix.extractText_print, EntityId.extractText_print,
    EntityId.left_unknown]
  exact ⟨eq_comm, eq_comm, eq_comm⟩

/-- A prefix that ends in 1 is read back as the unknown one. -/
theorem guid_text_lost :
    ¬ ∀ (guid : GUID) (p : GuidPrefix) (id : EntityId) (junk : UInt16),
      extractText (GUID.extract junk) GUID.unknown guid.print = guid ∧
        extractText GuidPrefix.extract GuidPrefix.unknown p.print = p ∧
        extractText (EntityId.extract junk) EntityId.unknown id.print = id := by
  intro h
  have hprefix := (h GUID.unknown #v[0, 0, 0, 0, 0, 0, 0, 0, 0, 0, 0, 1] EntityId.unknown 0).2.1
  rw [GuidPrefix.extractText_print] at hprefix
  exact absurd hprefix (by decide)

end Rtps
end Mozi
