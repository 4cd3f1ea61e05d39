import Mozi.Foundation.HexExtractions
import Mozi.Rtps.Locator.IPv6Text

/-!
# IPv6Extraction — the extraction loops of `setIPv6`

What one extraction does at a group, at a colon, and on a stream that has failed, and from that what
the loops leave in the address: `Filled r vs` says that the groups `vs` are stored, and `Ready s cs`
that the characters `cs` are left on a stream without a failure.
-/

namespace Mozi
namespace Rtps

open Foundation InputStream IPLocator IPv6Text

/-! ## One extraction -/

/-- The end of a group: the end of the text or a colon. -/
def GroupEnd (cs : List Char) : Prop :=
  cs = [] ∨ ∃ ds, cs = ':' :: ds

theorem GroupEnd.colonGroups (gs : List Group) {tail : List Char} (h : GroupEnd tail) :
    GroupEnd (colonGroups gs ++ tail) := by
  cases gs with
  | nil =>
      exact h
  | cons g gs =>
      exact Or.inr ⟨_, by rw [colonGroups_cons]; rfl⟩

/-- The digits of a group end with it, and no prefix can stand before them. -/
theorem hexDigits_group (g : Group) {cs : List Char} (hcs : GroupEnd cs) :
    HexDigits [] g.digits cs := by
  refine ⟨.none, g.hex, ?_, ?_⟩
  · intro c hc
    rcases hcs with rfl | ⟨ds, rfl⟩
    · cases hc
    · cases hc
      decide
  · intro _ _
    rcases hcs with rfl | ⟨ds, rfl⟩
    · simp
    · simp

/-- `>> input_aux` at a group. -/
theorem getUInt32_group (g : Group) {cs : List Char} (hcs : GroupEnd cs) (v : Option Nat) :
    getUInt32 16 ⟨g.digits ++ cs, false, false⟩ v = (some g.value, ⟨cs, cs.isEmpty, false⟩) := by
  have hread := getUInt32_pieces (show Blank [] by simp [Blank]) .none (hexDigits_group g hcs)
    g.ne_nil rfl v
  have hlen : g.digits.length ≠ 0 := by simpa using g.ne_nil
  have hlt : hexValue g.digits < 65536 := g.value_lt
  rw [if_neg hlen, if_neg (by omega)] at hread
  exact hread

/-- `>> input_aux` at a colon fails and stores 0. -/
theorem getUInt32_colon (cs : List Char) (v : Option Nat) :
    getUInt32 16 ⟨':' :: cs, false, false⟩ v = (some 0, ⟨':' :: cs, false, true⟩) := by
  have hspace : isSpace ':' = false := by decide
  have hdigit : digitVal 16 ':' = none := by decide
  simp [getUInt32, sentry_cons hspace, readNumber, readSign, skipPrefix, readDigits, hdigit]

/-- `>> input_aux` at the end fails and stores nothing. -/
theorem getUInt32_end (v : Option Nat) :
    getUInt32 16 ⟨[], false, false⟩ v = (v, ⟨[], true, true⟩) :=
  rfl

/-! ## The address -/

/-- The groups `vs` are stored at the front of the address. -/
structure Filled (r : Reader) (vs : List Nat) : Prop where
  index : r.i = 2 * vs.length
  stored : r.address.toList.take r.i = groupBytes vs

theorem groupBytes_append (vs ws : List Nat) :
    groupBytes (vs ++ ws) = groupBytes vs ++ groupBytes ws :=
  List.flatMap_append

/-- A group is determined by its two bytes. -/
theorem groupBytes_injective {vs ws : List Nat} (hvs : ∀ v ∈ vs, v < 65536)
    (hws : ∀ w ∈ ws, w < 65536) (h : groupBytes vs = groupBytes ws) : vs = ws := by
  induction vs generalizing ws with
  | nil =>
      cases ws with
      | nil =>
          rfl
      | cons w ws =>
          cases h
  | cons v vs ih =>
      cases ws with
      | nil =>
          cases h
      | cons w ws =>
          have hv := hvs v (List.mem_cons_self ..)
          have hw := hws w (List.mem_cons_self ..)
          simp only [groupBytes, List.flatMap_cons, List.cons_append, List.nil_append,
            List.cons.injEq] at h
          obtain ⟨hhigh, hlow, hrest⟩ := h
          have hhigh' := congrArg UInt8.toNat hhigh
          have hlow' := congrArg UInt8.toNat hlow
          simp only [UInt8.toNat_ofNat'] at hhigh' hlow'
          rw [ih (fun x hx => hvs x (List.mem_cons_of_mem v hx))
            (fun x hx => hws x (List.mem_cons_of_mem w hx)) hrest]
          congr 1
          omega

theorem putByte_spec {r : Reader} {bs : List UInt8} (hi : r.i < 16)
    (hstored : r.address.toList.take r.i = bs) (x : Nat) :
    ∃ r', putByte r x = some r' ∧ r'.i = r.i + 1 ∧ r'.ss = r.ss ∧ r'.input_aux = r.input_aux ∧
      r'.address.toList.take r'.i = bs ++ [UInt8.ofNat x] := by
  refine ⟨_, dif_pos hi, rfl, rfl, rfl, ?_⟩
  simp only [Vector.toList_set]
  rw [List.take_add_one, List.take_set_of_le (Nat.le_refl _), hstored]
  simp [hi]

theorem putGroup_spec {r : Reader} {vs : List Nat} (h : Filled r vs) (hlen : vs.length < 8)
    (v : Nat) :
    ∃ r', putGroup r v = some r' ∧ Filled r' (vs ++ [v]) ∧ r'.ss = r.ss ∧
      r'.input_aux = r.input_aux := by
  have hindex := h.index
  obtain ⟨r₁, hr₁, hi₁, hss₁, haux₁, hst₁⟩ := putByte_spec (by omega) h.stored (v >>> 8)
  obtain ⟨r₂, hr₂, hi₂, hss₂, haux₂, hst₂⟩ := putByte_spec (by omega) hst₁ (v &&& 0xFF)
  refine ⟨r₂, by simp [putGroup, hr₁, hr₂], ⟨?_, ?_⟩, hss₂.trans hss₁, haux₂.trans haux₁⟩
  · rw [List.length_append, List.length_singleton]
    omega
  · rw [hst₂, groupBytes_append, Nat.shiftRight_eq_div_pow,
      show v &&& 0xFF = v % 256 from Nat.and_two_pow_sub_one_eq_mod v 8]
    simp [groupBytes]

theorem Filled.address_eq {r : Reader} {vs : List Nat} (h : Filled r vs) (hlen : vs.length = 8) :
    r.address.toList = groupBytes vs := by
  have hindex := h.index
  rw [← h.stored, List.take_of_length_le]
  rw [Vector.length_toList]
  omega

/-- The loop that stores zeros. -/
theorem putZeros_spec {r : Reader} {k rounds : Nat} (hk : r.i + k ≤ 16) (hrounds : k < rounds)
    (hstored : r.address.toList.take r.i = List.replicate r.i 0) :
    ∃ r', putZeros ((r.i + k : Nat) : Int) rounds r = some r' ∧ r'.i = r.i + k ∧ r'.ss = r.ss ∧
      r'.input_aux = r.input_aux ∧ r'.address.toList.take r'.i = List.replicate r'.i 0 := by
  induction k generalizing r rounds with
  | zero =>
      obtain ⟨n, rfl⟩ : ∃ n, rounds = n + 1 := ⟨rounds - 1, by omega⟩
      exact ⟨r, by simp [putZeros], rfl, rfl, rfl, hstored⟩
  | succ k ih =>
      obtain ⟨n, rfl⟩ : ∃ n, rounds = n + 1 := ⟨rounds - 1, by omega⟩
      obtain ⟨r₁, hr₁, hi₁, hss₁, haux₁, hst₁⟩ := putByte_spec (by omega) hstored 0
      obtain ⟨r₂, hr₂, hi₂, hss₂, haux₂, hst₂⟩ := ih (r := r₁) (by omega)
        (show k < n by omega) (by rw [hst₁, hi₁, List.replicate_succ']; rfl)
      refine ⟨r₂, ?_, by omega, hss₂.trans hss₁, haux₂.trans haux₁, hst₂⟩
      rw [putZeros, if_pos (by omega), hr₁, show r.i + (k + 1) = r₁.i + k by omega]
      exact hr₂

theorem groupBytes_replicate (n : Nat) :
    groupBytes (List.replicate n 0) = List.replicate (2 * n) 0 := by
  induction n with
  | zero =>
      rfl
  | succ n ih =>
      rw [List.replicate_succ, show 2 * (n + 1) = 2 * n + 1 + 1 by omega, List.replicate_succ,
        List.replicate_succ, ← ih]
      rfl

/-! ## The loops over the groups -/

/-- The characters `cs` are left and the last extraction did not fail.  The end of the buffer may
have been seen. -/
structure Ready (s : InputStream) (cs : List Char) : Prop where
  rest : s.rest = cs
  fail : s.fail = false
  eof : s.eof = true → cs = []

theorem Ready.eq_cons {s : InputStream} {c : Char} {cs : List Char} (h : Ready s (c :: cs)) :
    s = ⟨c :: cs, false, false⟩ := by
  rcases s with ⟨rest, eof, fail⟩
  have hrest : rest = c :: cs := h.rest
  have hfail : fail = false := h.fail
  have heof : eof = false := by
    cases eof with
    | false =>
        rfl
    | true =>
        cases h.eof rfl
  rw [hrest, hfail, heof]

/-- One round: the extraction gives a value that passes the check, and the value is stored. -/
theorem readGroups_step {read : Reader → Reader} {overflow : Nat → Bool} {stop : Int} {r : Reader}
    {vs : List Nat} {v : Nat} (n : Nat) (hstop : (r.i : Int) < stop) (hlen : vs.length < 8)
    (hread : Filled (read r) vs) (haux : (read r).input_aux = some v)
    (hover : overflow v = false) :
    ∃ r', readGroups read overflow stop (n + 1) r = readGroups read overflow stop n r' ∧
      Filled r' (vs ++ [v]) ∧ r'.ss = (read r).ss ∧ r'.input_aux = some v := by
  obtain ⟨r', hr', hfilled, hss, haux'⟩ := putGroup_spec hread hlen v
  refine ⟨r', ?_, hfilled, hss, haux'.trans haux⟩
  rw [readGroups, if_pos hstop]
  simp [haux, hover, hr']

theorem readGroups_overflow {read : Reader → Reader} {overflow : Nat → Bool} {stop : Int}
    {r : Reader} {v : Nat} (n : Nat) (hstop : (r.i : Int) < stop)
    (haux : (read r).input_aux = some v) (hover : overflow v = true) :
    readGroups read overflow stop (n + 1) r = some (false, read r) := by
  rw [readGroups, if_pos hstop]
  simp [haux, hover]

theorem readGroups_stop {read : Reader → Reader} {overflow : Nat → Bool} {stop : Int} {r : Reader}
    (n : Nat) (hstop : stop ≤ r.i) : readGroups read overflow stop (n + 1) r = some (true, r) := by
  rw [readGroups, if_neg (by omega)]

theorem filled_of_same {r r' : Reader} {vs : List Nat} (h : Filled r vs) (hi : r'.i = r.i)
    (haddress : r'.address = r.address) : Filled r' vs :=
  ⟨hi.trans h.index, by rw [hi, haddress]; exact h.stored⟩

theorem punctInput_filled {r : Reader} {vs : List Nat} (h : Filled r vs) :
    Filled (punctInput r) vs :=
  filled_of_same h rfl rfl

theorem inputPunct_filled {r : Reader} {vs : List Nat} (h : Filled r vs) :
    Filled (inputPunct r) vs :=
  filled_of_same h rfl rfl

/-- A colon and a group. -/
theorem punctInput_group {r : Reader} (g : Group) {cs : List Char} (hcs : GroupEnd cs)
    (h : Ready r.ss (':' :: (g.digits ++ cs))) :
    (punctInput r).input_aux = some g.value ∧ Ready (punctInput r).ss cs := by
  have hspace : isSpace ':' = false := by decide
  have hchar : r.ss.getChar.2 = ⟨g.digits ++ cs, false, false⟩ := by
    rw [h.eq_cons, getChar_cons hspace]
  simp only [punctInput, readInput, readPunct, hchar, getUInt32_group g hcs]
  exact ⟨trivial, rfl, rfl, fun heof => by simpa using heof⟩

/-- A group and a colon. -/
theorem inputPunct_group {r : Reader} (g : Group) {cs : List Char}
    (h : Ready r.ss (g.digits ++ ':' :: cs)) :
    (inputPunct r).input_aux = some g.value ∧ Ready (inputPunct r).ss cs := by
  have hspace : isSpace ':' = false := by decide
  have hss : r.ss = ⟨g.digits ++ ':' :: cs, false, false⟩ := by
    obtain ⟨c, ds, hd, _⟩ := g.exists_cons
    rw [hd, List.cons_append] at h ⊢
    exact h.eq_cons
  simp only [inputPunct, readPunct, readInput, hss, getUInt32_group g (Or.inr ⟨cs, rfl⟩)]
  simp only [List.isEmpty_cons, getChar_cons hspace]
  exact ⟨trivial, rfl, rfl, fun heof => by simp at heof⟩

/-- The rounds over groups that each follow a colon: the induction is on the groups, and every
round stores one of them. -/
theorem readGroups_colonGroups {overflow : Nat → Bool} {gs : List Group} {tail : List Char}
    {r : Reader} {vs : List Nat} (n : Nat) (htail : GroupEnd tail)
    (hover : ∀ g ∈ gs, overflow g.value = false) (h : Filled r vs)
    (hss : Ready r.ss (colonGroups gs ++ tail)) (hlen : vs.length + gs.length ≤ 8) :
    ∃ r', readGroups punctInput overflow 16 (gs.length + n) r =
        readGroups punctInput overflow 16 n r' ∧
      Filled r' (vs ++ gs.map Group.value) ∧ Ready r'.ss tail := by
  induction gs generalizing r vs with
  | nil =>
      exact ⟨r, by rw [List.length_nil, Nat.zero_add], by simpa using h, hss⟩
  | cons g gs ih =>
      rw [List.length_cons] at hlen
      have hindex := h.index
      rw [colonGroups_cons, List.cons_append, List.append_assoc] at hss
      -- One round for `g`, and the rounds for the groups after it.
      obtain ⟨haux, hrest⟩ := punctInput_group g (htail.colonGroups gs) hss
      obtain ⟨r₁, hr₁, hfilled, hss₁, _⟩ := readGroups_step (gs.length + n)
        (show (r.i : Int) < 16 by omega) (by omega) (punctInput_filled h) haux
        (hover g (List.mem_cons_self ..))
      obtain ⟨r₂, hr₂, hfilled₂, hrest₂⟩ := ih (fun g' hg' => hover g' (List.mem_cons_of_mem g hg'))
        hfilled (by rw [hss₁]; exact hrest) (by simp; omega)
      refine ⟨r₂, ?_, by simpa using hfilled₂, hrest₂⟩
      calc
        readGroups punctInput overflow 16 ((g :: gs).length + n) r
            = readGroups punctInput overflow 16 (gs.length + n + 1) r := by
              rw [List.length_cons, Nat.add_right_comm]
        _ = readGroups punctInput overflow 16 (gs.length + n) r₁ := hr₁
        _ = readGroups punctInput overflow 16 n r₂ := hr₂

/-- A group that does not pass the check ends the loop. -/
theorem readGroups_colonGroups_overflow {overflow : Nat → Bool} {gs : List Group} {r : Reader}
    {vs : List Nat} (n : Nat) (hover : ∃ g ∈ gs, overflow g.value = true) (h : Filled r vs)
    (hss : Ready r.ss (colonGroups gs)) (hlen : vs.length + gs.length ≤ 8) :
    ∃ r', readGroups punctInput overflow 16 (gs.length + n) r = some (false, r') := by
  induction gs generalizing r vs with
  | nil =>
      simp at hover
  | cons g gs ih =>
      rw [List.length_cons] at hlen
      have hindex := h.index
      rw [colonGroups_cons] at hss
      have hend := GroupEnd.colonGroups gs (Or.inl rfl)
      rw [List.append_nil] at hend
      obtain ⟨haux, hrest⟩ := punctInput_group g hend hss
      rw [List.length_cons, Nat.add_right_comm]
      cases hg : overflow g.value with
      | true =>
          exact ⟨_, readGroups_overflow _ (by omega) haux hg⟩
      | false =>
          obtain ⟨r₁, hr₁, hfilled, hss₁, _⟩ := readGroups_step (gs.length + n)
            (show (r.i : Int) < 16 by omega) (by omega) (punctInput_filled h) haux hg
          obtain ⟨r₂, hr₂⟩ := ih
            (by
              obtain ⟨g', hg', htrue⟩ := hover
              rcases List.mem_cons.1 hg' with rfl | hg'
              · rw [hg] at htrue
                cases htrue
              · exact ⟨g', hg', htrue⟩)
            hfilled (by rw [hss₁]; exact hrest) (by simp; omega)
          exact ⟨r₂, hr₁.trans hr₂⟩

/-- The rounds over groups that are each followed by a colon. -/
theorem readGroups_groupColons {overflow : Nat → Bool} {gs : List Group} {tail : List Char}
    {r : Reader} {vs : List Nat} {stop : Int} (n : Nat) (hgs : gs ≠ [])
    (hover : ∀ g ∈ gs, overflow g.value = false) (h : Filled r vs)
    (hss : Ready r.ss (joinGroups gs ++ ':' :: tail)) (hlen : vs.length + gs.length ≤ 8)
    (hstop : 2 * (vs.length + gs.length : Nat) ≤ stop) :
    ∃ r', readGroups inputPunct overflow stop (gs.length + n) r =
        readGroups inputPunct overflow stop n r' ∧
      Filled r' (vs ++ gs.map Group.value) ∧ Ready r'.ss tail ∧
      r'.input_aux = (gs.getLast hgs).value := by
  induction gs generalizing r vs with
  | nil =>
      exact absurd rfl hgs
  | cons g gs ih =>
      rw [List.length_cons] at hlen hstop
      have hindex := h.index
      have hlt : (r.i : Int) < stop := by omega
      rw [List.length_cons, Nat.add_right_comm]
      -- The last group is followed by the colon before `tail`.
      by_cases hnil : gs = []
      · subst hnil
        have hss' : Ready r.ss (g.digits ++ ':' :: tail) := by
          simpa [joinGroups, colonGroups] using hss
        obtain ⟨haux, hrest⟩ := inputPunct_group g hss'
        obtain ⟨r₁, hr₁, hfilled, hss₁, haux₁⟩ := readGroups_step n hlt (by omega)
          (inputPunct_filled h) haux (hover g (List.mem_cons_self ..))
        refine ⟨r₁, ?_, by simpa using hfilled, by rw [hss₁]; exact hrest, haux₁⟩
        rw [List.length_nil, Nat.zero_add]
        exact hr₁
      · rw [joinGroups_cons g hnil, List.append_assoc, List.cons_append] at hss
        obtain ⟨haux, hrest⟩ := inputPunct_group g hss
        obtain ⟨r₁, hr₁, hfilled, hss₁, _⟩ := readGroups_step (gs.length + n) hlt (by omega)
          (inputPunct_filled h) haux (hover g (List.mem_cons_self ..))
        obtain ⟨r₂, hr₂, hfilled₂, hrest₂, haux₂⟩ := ih hnil
          (fun g' hg' => hover g' (List.mem_cons_of_mem g hg')) hfilled
          (by rw [hss₁]; exact hrest) (by simp; omega) (by simp; omega)
        refine ⟨r₂, ?_, by simpa using hfilled₂, hrest₂, ?_⟩
        · calc
            readGroups inputPunct overflow stop (gs.length + n + 1) r
                = readGroups inputPunct overflow stop (gs.length + n) r₁ := hr₁
            _ = readGroups inputPunct overflow stop n r₂ := hr₂
        · rw [haux₂, List.getLast_cons hnil]

/-- On a stream that has failed the loop stores the old value until the address is full, and reads
nothing. -/
theorem readGroups_failed {overflow : Nat → Bool} {r : Reader} {vs : List Nat} {v k : Nat}
    (n : Nat) (hover : overflow v = false) (h : Filled r vs) (hfail : r.ss.fail = true)
    (haux : r.input_aux = some v) (hlen : vs.length + k = 8) :
    ∃ r', readGroups punctInput overflow 16 (k + (n + 1)) r = some (true, r') ∧
      Filled r' (vs ++ List.replicate k v) ∧ r'.ss = r.ss := by
  induction k generalizing r vs with
  | zero =>
      have hindex := h.index
      refine ⟨r, ?_, by simpa using h, rfl⟩
      rw [Nat.zero_add]
      exact readGroups_stop n (by omega)
  | succ k ih =>
      have hindex := h.index
      -- Both extractions leave a failed stream and the variable as they are.
      have hread : punctInput r = r := by
        simp only [punctInput, readInput, readPunct, getChar_failed hfail, getUInt32_failed hfail]
      obtain ⟨r₁, hr₁, hfilled, hss₁, haux₁⟩ := readGroups_step (k + (n + 1))
        (show (r.i : Int) < 16 by omega) (by omega) (punctInput_filled h)
        (by rw [hread]; exact haux) hover
      rw [hread] at hss₁
      obtain ⟨r₂, hr₂, hfilled₂, hss₂⟩ := ih hfilled (by rw [hss₁]; exact hfail) haux₁
        (by simp; omega)
      refine ⟨r₂, ?_, ?_, hss₂.trans hss₁⟩
      · calc
          readGroups punctInput overflow 16 (k + 1 + (n + 1)) r
              = readGroups punctInput overflow 16 (k + (n + 1) + 1) r := by
                rw [Nat.add_right_comm]
          _ = readGroups punctInput overflow 16 (k + (n + 1)) r₁ := hr₁
          _ = some (true, r₂) := hr₂
      · simpa [List.replicate_succ] using hfilled₂

end Rtps
end Mozi
