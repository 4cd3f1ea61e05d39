import Mozi.Rtps.Locator.IPv6Extraction

/-!
# IPv6Parser — what `setIPv6` computes

The branches of `setIPv6` on the texts of IPv6 addresses, one lemma for each position of `::`:

* eight groups are stored as they are;
* `::` at the front is expanded, unless the overlong shift of a group is not zero;
* `::` at the end repeats the last group, since the extraction at the end of the text leaves the
  old value;
* `::` in the middle takes the branch for eight groups, and the extraction fails at the second
  colon.

The main result is `computes_iff`.
-/

namespace Mozi
namespace Rtps

open Foundation InputStream IPLocator IPv6Text

/-- The kinds that `setIPv6` accepts. -/
def IPv6Kind (locator : Locator_t) : Prop :=
  locator.kind = LOCATOR_KIND_TCPv6 ∨ locator.kind = LOCATOR_KIND_UDPv6

/-! ## The branches -/

/-- The variables before the extraction. -/
def startReader (ipv6 : List Char) : Reader :=
  ⟨.ofText ipv6, none, 0, LOCATOR_ADDRESS_INVALID⟩

/-- The branch that `setIPv6` takes. -/
def extractGroups (shiftOut : Nat → Nat) (ipv6 : List Char) : Option (Bool × Reader) :=
  let z := zerosOf ipv6 (u16 (ipv6.count ':'))
  if z.initial_zeros ≠ 0 then parseInitial shiftOut z.initial_zeros (startReader ipv6)
  else if z.final_zeros ≠ 0 then parseFinal z (startReader ipv6)
  else parseGroups (startReader ipv6)

variable {shiftOut : Nat → Nat} {locator : Locator_t}

/-- A text that passes the check is extracted, whatever the address was. -/
theorem setIPv6_correct (hkind : IPv6Kind locator) {ipv6 : List Char}
    (hcorrect : IPv6isCorrect ipv6 = true) :
    setIPv6 shiftOut locator ipv6 = (extractGroups shiftOut ipv6).map fun p =>
      (p.1 && p.2.ss.inAvail == 0, { locator with address := p.2.address }) := by
  unfold setIPv6
  rw [if_neg (by rintro ⟨htcp, hudp⟩; exact hkind.elim htcp hudp), if_neg (by simp [hcorrect])]
  unfold extractGroups startReader
  dsimp only
  rw [Option.map_eq_bind]
  split_ifs <;> rfl

theorem setIPv6_chars (hkind : IPv6Kind locator) {t : IPv6Text} {ok : Bool} {r : Reader}
    (h : extractGroups shiftOut t.chars = some (ok, r)) :
    setIPv6 shiftOut locator t.chars =
      some (ok && r.ss.inAvail == 0, { locator with address := r.address }) := by
  rw [setIPv6_correct hkind (IPv6isCorrect_chars t), h]
  rfl

/-- The text is consumed and the groups fill the address. -/
theorem setIPv6_true (hkind : IPv6Kind locator) {t : IPv6Text} {r : Reader} {vs : List Nat}
    (h : extractGroups shiftOut t.chars = some (true, r)) (hfilled : Filled r vs)
    (hlen : vs.length = 8) (hrest : r.ss.rest = []) :
    ∃ address, setIPv6 shiftOut locator t.chars = some (true, { locator with address }) ∧
      address.toList = groupBytes vs := by
  refine ⟨r.address, ?_, hfilled.address_eq hlen⟩
  rw [setIPv6_chars hkind h]
  simp [inAvail, hrest]

theorem setIPv6_false (hkind : IPv6Kind locator) {t : IPv6Text} {ok : Bool} {r : Reader}
    (h : extractGroups shiftOut t.chars = some (ok, r)) (hfalse : ok = false ∨ r.ss.rest ≠ []) :
    ∃ address, setIPv6 shiftOut locator t.chars = some (false, { locator with address }) := by
  refine ⟨r.address, ?_⟩
  rw [setIPv6_chars hkind h]
  rcases hfalse with rfl | hrest
  · rfl
  · simp [inAvail, hrest]

/-! ## The elided bytes -/

theorem scanColons_zeros (count : Int) (cs : List Char) (aux aux_prev position_zeros : Nat) :
    (scanColons count cs aux aux_prev position_zeros).initial_zeros = 0 ∧
      (scanColons count cs aux aux_prev position_zeros).final_zeros = 0 := by
  induction cs generalizing aux aux_prev position_zeros with
  | nil =>
      exact ⟨rfl, rfl⟩
  | cons c cs ih =>
      unfold scanColons
      split_ifs with hc hprev
      · exact ⟨rfl, rfl⟩
      · exact ih ..
      · exact ih ..

/-- A text with a digit at both ends is left to the last branch. -/
theorem extractGroups_inner {cs : List Char} (hhead : cs.head? ≠ some ':')
    (hlast : cs.getLast? ≠ some ':') :
    extractGroups shiftOut cs = parseGroups (startReader cs) := by
  obtain ⟨hinitial, hfinal⟩ := scanColons_zeros (u16 (cs.count ':')) cs 0 cs.length 0
  simp [extractGroups, zerosOf, hhead, hlast, hinitial, hfinal]

/-- Between two groups `::` changes nothing. -/
theorem extractGroups_middle {left right : List Group} (h : left.length + right.length ≤ 7)
    (hleft : left ≠ []) (hright : right ≠ []) :
    extractGroups shiftOut (elided left right h).chars =
      parseGroups (startReader (elided left right h).chars) := by
  refine extractGroups_inner ?_ ?_
  · exact fun hhead => hleft (head_elided.1 hhead)
  · exact fun hlast => hright (getLast_elided.1 hlast)

theorem count_elided_nil_left {right : List Group} {h : ([] : List Group).length + right.length ≤ 7}
    (hright : right ≠ []) : (elided [] right h).chars.count ':' = right.length + 1 := by
  have hcount := (elided [] right h).count_chars
  have hpos := List.length_pos_iff.2 hright
  rw [fields, List.length_append, List.length_cons, length_fieldsOf, length_fieldsOf] at hcount
  simp only [List.length_nil] at hcount
  omega

theorem count_elided_nil_right {left : List Group} {h : left.length + ([] : List Group).length ≤ 7}
    (hleft : left ≠ []) : (elided left [] h).chars.count ':' = left.length + 1 := by
  have hcount := (elided left [] h).count_chars
  have hpos := List.length_pos_iff.2 hleft
  rw [fields, List.length_append, List.length_cons, length_fieldsOf, length_fieldsOf] at hcount
  simp only [List.length_nil] at hcount
  omega

/-- The bytes that `::` stands for where `n` groups are given. -/
theorem u16_zeros {n : Nat} (hn : n ≤ 7) :
    u16 ((7 - ((u16 ((n + 1 : Nat) : Int) : Int) - 2)) * 2) = 16 - 2 * n := by
  unfold u16
  omega

theorem extractGroups_front {right : List Group} {h : ([] : List Group).length + right.length ≤ 7}
    (hright : right ≠ []) :
    extractGroups shiftOut (elided [] right h).chars =
      parseInitial shiftOut (16 - 2 * right.length) (startReader (elided [] right h).chars) := by
  have hhead : (elided [] right h).chars.head? = some ':' := head_elided.2 rfl
  have hlast : (elided [] right h).chars.getLast? ≠ some ':' :=
    fun hl => hright (getLast_elided.1 hl)
  have hle : right.length ≤ 7 := by simpa using h
  have hne : 16 - 2 * right.length ≠ 0 := by omega
  simp only [extractGroups, zerosOf, if_pos hhead, if_neg hlast, count_elided_nil_left hright,
    u16_zeros hle, if_pos hne]

theorem extractGroups_back {left : List Group} {h : left.length + ([] : List Group).length ≤ 7}
    (hleft : left ≠ []) :
    extractGroups shiftOut (elided left [] h).chars =
      parseFinal ⟨0, 16 - 2 * left.length, 0, 0⟩ (startReader (elided left [] h).chars) := by
  have hhead : (elided left [] h).chars.head? ≠ some ':' := fun hh => hleft (head_elided.1 hh)
  have hlast : (elided left [] h).chars.getLast? = some ':' := getLast_elided.2 rfl
  have hle : left.length ≤ 7 := by simpa using h
  have hne : 16 - 2 * left.length ≠ 0 := by omega
  simp only [extractGroups, zerosOf, if_neg hhead, if_pos hlast, count_elided_nil_right hleft,
    u16_zeros hle]
  rw [if_neg (by simp), if_pos hne]

theorem ready_start (cs : List Char) : Ready (startReader cs).ss cs :=
  ⟨rfl, rfl, fun heof => by cases heof⟩

theorem filled_start (cs : List Char) : Filled (startReader cs) [] :=
  ⟨rfl, rfl⟩

/-! ## Eight groups -/

/-- The check for a group of more than 16 bits. -/
def overflows (v : Nat) : Bool :=
  decide (v ≥ 65536)

theorem value_not_overflows (g : Group) : overflows g.value = false := by
  have := g.value_lt
  simpa [overflows] using this

theorem parseGroups_first (g : Group) {cs : List Char} (hcs : GroupEnd cs) :
    ∃ r, parseGroups (startReader (g.digits ++ cs)) =
        readGroups punctInput overflows 16 9 r ∧
      Filled r [g.value] ∧ Ready r.ss cs := by
  have hread : getUInt32 16 (startReader (g.digits ++ cs)).ss none =
      (some g.value, ⟨cs, cs.isEmpty, false⟩) := getUInt32_group g hcs none
  have hfilled : Filled (readInput (startReader (g.digits ++ cs))) [] :=
    filled_of_same (filled_start (g.digits ++ cs)) rfl rfl
  obtain ⟨r, hr, hr', hss, _⟩ := putGroup_spec hfilled (by simp) g.value
  refine ⟨r, ?_, hr', ?_⟩
  · have haux : (readInput (startReader (g.digits ++ cs))).input_aux = some g.value :=
      congrArg Prod.fst hread
    simp only [parseGroups, haux, Option.bind_eq_bind, Option.bind_some, hr]
    rfl
  · have hss' : r.ss = ⟨cs, cs.isEmpty, false⟩ := hss.trans (congrArg Prod.snd hread)
    rw [hss']
    exact ⟨rfl, rfl, fun heof => by simpa using heof⟩

theorem parseGroups_groups {gs : List Group} (h : gs.length = 8) :
    ∃ r, parseGroups (startReader (joinGroups gs)) = some (true, r) ∧
      Filled r (gs.map Group.value) ∧ r.ss.rest = [] := by
  obtain ⟨g, gs, rfl⟩ : ∃ g gs', gs = g :: gs' := List.exists_cons_of_length_eq_add_one h
  have hseven : gs.length = 7 := by simpa using h
  have hend : GroupEnd (colonGroups gs) := by
    simpa using GroupEnd.colonGroups gs (Or.inl rfl)
  obtain ⟨r₁, hr₁, hfilled₁, hready₁⟩ := parseGroups_first g hend
  obtain ⟨r₂, hr₂, hfilled₂, hready₂⟩ := readGroups_colonGroups 2 (Or.inl rfl)
    (fun g' _ => value_not_overflows g') hfilled₁ (by simpa using hready₁) (by simp; omega)
  refine ⟨r₂, ?_, by simpa using hfilled₂, hready₂.rest⟩
  have hindex : r₂.i = 16 := by
    rw [hfilled₂.index]
    simp [hseven]
  calc
    parseGroups (startReader (joinGroups (g :: gs)))
        = readGroups punctInput overflows 16 (gs.length + 2) r₁ := by
          rw [hseven]
          exact hr₁
    _ = readGroups punctInput overflows 16 2 r₂ := hr₂
    _ = some (true, r₂) := readGroups_stop 1 (by omega)

/-! ## `::` in the middle -/

/-- The extraction fails at the second colon, which stays in the buffer. -/
theorem parseGroups_middle {left right : List Group} (h : left.length + right.length ≤ 7)
    (hleft : left ≠ []) (hright : right ≠ []) :
    ∃ r, parseGroups (startReader (joinGroups left ++ ':' :: ':' :: joinGroups right)) =
        some (true, r) ∧ r.ss.rest ≠ [] := by
  obtain ⟨g, gs, rfl⟩ := List.exists_cons_of_ne_nil hleft
  have hpos := List.length_pos_iff.2 hright
  rw [List.length_cons] at h
  have htail : GroupEnd (':' :: ':' :: joinGroups right) := Or.inr ⟨_, rfl⟩
  obtain ⟨r₁, hr₁, hfilled₁, hready₁⟩ := parseGroups_first g (htail.colonGroups gs)
  obtain ⟨m, hm⟩ : ∃ m, gs.length + m = 6 := ⟨6 - gs.length, by omega⟩
  obtain ⟨r₂, hr₂, hfilled₂, hready₂⟩ := readGroups_colonGroups (m + 1 + 1 + 1) htail
    (fun g' _ => value_not_overflows g') hfilled₁ hready₁ (by simp; omega)
  -- The first colon is the punctuation, and no number starts with the second one.
  have hspace : isSpace ':' = false := by decide
  have hread : getUInt32 16 (readPunct r₂).ss (readPunct r₂).input_aux =
      (some 0, ⟨':' :: joinGroups right, false, true⟩) := by
    simp only [readPunct, hready₂.eq_cons, getChar_cons hspace, getUInt32_colon]
  have hindex := hfilled₂.index
  have hlen : ([g.value] ++ gs.map Group.value ++ [0]).length + m = 8 := by
    simp
    omega
  obtain ⟨r₃, hr₃, hfilled₃, hss₃, haux₃⟩ := readGroups_step (m + 1 + 1)
    (show (r₂.i : Int) < 16 by simp at hindex; omega) (by simp; omega) (punctInput_filled hfilled₂)
    (congrArg Prod.fst hread) (show overflows 0 = false by decide)
  have hss₃' : r₃.ss = ⟨':' :: joinGroups right, false, true⟩ :=
    hss₃.trans (congrArg Prod.snd hread)
  -- From there on every round stores 0.
  obtain ⟨r₄, hr₄, _, hss₄⟩ := readGroups_failed 1 (show overflows 0 = false by decide) hfilled₃
    (by rw [hss₃']) haux₃ hlen
  refine ⟨r₄, ?_, by simp [hss₄, hss₃']⟩
  calc
    parseGroups (startReader (joinGroups (g :: gs) ++ ':' :: ':' :: joinGroups right))
        = readGroups punctInput overflows 16 9 r₁ := by
          rw [joinGroups, List.append_assoc]
          exact hr₁
    _ = readGroups punctInput overflows 16 (gs.length + (m + 1 + 1 + 1)) r₁ := by
          rw [show 9 = gs.length + (m + 1 + 1 + 1) by omega]
    _ = readGroups punctInput overflows 16 (m + 1 + 1 + 1) r₂ := hr₂
    _ = readGroups punctInput overflows 16 (m + 1 + 1) r₃ := hr₃
    _ = some (true, r₄) := hr₄

/-! ## `::` at the front -/

/-- The zeros are stored, and the first colon is read. -/
theorem parseInitial_zeros {n : Nat} (hn : n ≤ 8) (cs : List Char) :
    ∃ r, putZeros ((16 - 2 * n : Nat) : Int) 17 (startReader (':' :: cs)) = some r ∧
      Filled (readPunct r) (List.replicate (8 - n) 0) ∧ (readPunct r).input_aux = none ∧
      Ready (readPunct r).ss cs := by
  have hspace : isSpace ':' = false := by decide
  obtain ⟨r, hr, hi, hss, haux, hstored⟩ := putZeros_spec (r := startReader (':' :: cs))
    (show 0 + (16 - 2 * n) ≤ 16 by omega) (show 16 - 2 * n < 17 by omega) rfl
  have hindex : r.i = 2 * (8 - n) := by
    rw [hi, show (startReader (':' :: cs)).i = 0 from rfl]
    omega
  refine ⟨r, ?_, ⟨?_, ?_⟩, haux, ?_⟩
  · rw [← hr, show (startReader (':' :: cs)).i = 0 from rfl, Nat.zero_add]
  · rw [List.length_replicate]
    exact hindex
  · rw [groupBytes_replicate, ← hindex]
    exact hstored
  · have hchar : (readPunct r).ss = ⟨cs, false, false⟩ := by
      rw [readPunct, hss]
      exact congrArg Prod.snd (getChar_cons hspace)
    rw [hchar]
    exact ⟨rfl, rfl, fun heof => by cases heof⟩

theorem colonGroups_eq_cons {gs : List Group} (hgs : gs ≠ []) :
    ':' :: joinGroups gs = colonGroups gs := by
  cases gs with
  | nil =>
      exact absurd rfl hgs
  | cons g gs =>
      rw [colonGroups_cons, joinGroups]

/-- The condition `input_aux >> 65535`. -/
def shiftOverflows (shiftOut : Nat → Nat) (v : Nat) : Bool :=
  shiftOut v != 0

/-- The overlong shift decides about every group. -/
theorem parseInitial_front {right : List Group} (h : right.length ≤ 7) (hright : right ≠ []) :
    ((∀ g ∈ right, shiftOut g.value = 0) →
      ∃ r, parseInitial shiftOut (16 - 2 * right.length)
          (startReader (':' :: ':' :: joinGroups right)) = some (true, r) ∧
        Filled r (List.replicate (8 - right.length) 0 ++ right.map Group.value) ∧
        r.ss.rest = []) ∧
    ((∃ g ∈ right, shiftOut g.value ≠ 0) →
      ∃ r, parseInitial shiftOut (16 - 2 * right.length)
          (startReader (':' :: ':' :: joinGroups right)) = some (false, r)) := by
  obtain ⟨r₁, hr₁, hfilled₁, _, hready₁⟩ :=
    parseInitial_zeros (show right.length ≤ 8 by omega) (':' :: joinGroups right)
  rw [colonGroups_eq_cons hright] at hr₁ hready₁
  have hpos := List.length_pos_iff.2 hright
  have hne : (16 - 2 * right.length == 16) = false := by
    simp
    omega
  obtain ⟨m, hm⟩ : ∃ m, right.length + (m + 1) = 9 := ⟨8 - right.length, by omega⟩
  have hlen : (List.replicate (8 - right.length) 0).length + right.length ≤ 8 := by
    simp
    omega
  rw [colonGroups_eq_cons hright]
  constructor
  · intro hshift
    obtain ⟨r₂, hr₂, hfilled₂, hready₂⟩ := readGroups_colonGroups (m + 1) (Or.inl rfl)
      (show ∀ g ∈ right, shiftOverflows shiftOut g.value = false by
        simpa [shiftOverflows] using hshift)
      hfilled₁ (by simpa using hready₁) hlen
    refine ⟨r₂, ?_, hfilled₂, hready₂.rest⟩
    have hindex : r₂.i = 16 := by
      rw [hfilled₂.index]
      simp
      omega
    have hloop : readGroups punctInput (shiftOverflows shiftOut) 16 9 (readPunct r₁) =
        some (true, r₂) := by
      rw [← hm, hr₂]
      exact readGroups_stop m (by omega)
    unfold shiftOverflows at hloop
    simp [parseInitial, hr₁, hloop, hne]
  · intro hshift
    obtain ⟨r₂, hr₂⟩ := readGroups_colonGroups_overflow (m + 1)
      (show ∃ g ∈ right, shiftOverflows shiftOut g.value = true by
        simpa [shiftOverflows] using hshift)
      hfilled₁ hready₁ hlen
    refine ⟨r₂, ?_⟩
    rw [hm] at hr₂
    unfold shiftOverflows at hr₂
    simp [parseInitial, hr₁, hr₂]

/-- `::` alone: the second colon is read after the loop. -/
theorem parseInitial_colons :
    ∃ r, parseInitial shiftOut 16 (startReader [':', ':']) = some (true, r) ∧
      Filled r (List.replicate 8 0) ∧ r.ss.rest = [] := by
  have hspace : isSpace ':' = false := by decide
  obtain ⟨r₁, hr₁, hfilled₁, _, hready₁⟩ := parseInitial_zeros (Nat.zero_le 8) [':']
  have hindex := hfilled₁.index
  have hloop : readGroups punctInput (fun v => shiftOut v != 0) 16 9 (readPunct r₁) =
      some (true, readPunct r₁) := readGroups_stop 8 (by simp at hindex; omega)
  refine ⟨readPunct (readPunct r₁), ?_, filled_of_same hfilled₁ rfl rfl, ?_⟩
  · simp at hr₁
    simp [parseInitial, hr₁, hloop]
  · rw [readPunct, hready₁.eq_cons, getChar_cons hspace]

/-! ## `::` at the end -/

/-- The check of the loop after `::`. -/
def repeatOverflows (v : Nat) : Bool :=
  decide (v ≥ 65535)

/-- The groups before `::` fill the address up to where the zeros would start, and the next group
is read at the end of the text, so `input_aux` keeps the last one. -/
theorem parseFinal_groups {left : List Group} (h : left.length ≤ 7) (hleft : left ≠ []) :
    ∃ r, parseFinal ⟨0, 16 - 2 * left.length, 0, 0⟩
        (startReader (joinGroups left ++ [':', ':'])) =
          readGroups punctInput repeatOverflows 16 9 r ∧
      Filled r (left.map Group.value) ∧
      (punctInput r).input_aux = some (left.getLast hleft).value ∧
      (punctInput r).ss = ⟨[], true, true⟩ := by
  have hpos := List.length_pos_iff.2 hleft
  have hspace : isSpace ':' = false := by decide
  obtain ⟨m, hm⟩ : ∃ m, left.length + (m + 1) = 9 := ⟨8 - left.length, by omega⟩
  obtain ⟨r₁, hr₁, hfilled₁, hready₁, haux₁⟩ := readGroups_groupColons (m + 1) hleft
    (fun g _ => value_not_overflows g) (filled_start _) (ready_start _) (by simp; omega)
    (show 2 * ((([] : List Nat).length + left.length : Nat) : Int) ≤
      16 - ((16 - 2 * left.length : Nat) : Int) by simp; omega)
  rw [List.nil_append] at hfilled₁
  have hindex := hfilled₁.index
  have hfirst : readGroups inputPunct overflows (16 - ((16 - 2 * left.length : Nat) : Int)) 9
      (startReader (joinGroups left ++ [':', ':'])) = some (true, r₁) := by
    rw [← hm, hr₁]
    exact readGroups_stop m (by simp at hindex; omega)
  have hzeros : putZeros (((0 : Nat) : Int) + ((0 : Nat) : Int)) 17 r₁ = some r₁ := by
    rw [putZeros, if_neg (by omega)]
  -- The second colon is the punctuation; `>> input_aux` comes to the end of the text.
  have hread : getUInt32 16 (readPunct r₁).ss (readPunct r₁).input_aux =
      (some (left.getLast hleft).value, ⟨[], true, true⟩) := by
    rw [readPunct, hready₁.eq_cons, getChar_cons hspace, getUInt32_end, haux₁]
  refine ⟨r₁, ?_, hfilled₁, congrArg Prod.fst hread, congrArg Prod.snd hread⟩
  unfold parseFinal
  change (readGroups inputPunct overflows (16 - ((16 - 2 * left.length : Nat) : Int)) 9 _
    >>= _) = _
  rw [hfirst]
  change (putZeros (((0 : Nat) : Int) + ((0 : Nat) : Int)) 17 r₁ >>=
    readGroups punctInput repeatOverflows 16 9) = _
  rw [hzeros]
  rfl

/-- The last group is stored until the address is full, unless it is `ffff`. -/
theorem parseFinal_back {left : List Group} (h : left.length ≤ 7) (hleft : left ≠ []) :
    ((left.getLast hleft).value < 65535 →
      ∃ r, parseFinal ⟨0, 16 - 2 * left.length, 0, 0⟩
          (startReader (joinGroups left ++ [':', ':'])) = some (true, r) ∧
        Filled r (left.map Group.value ++
          List.replicate (8 - left.length) (left.getLast hleft).value) ∧
        r.ss.rest = []) ∧
    (65535 ≤ (left.getLast hleft).value →
      ∃ r, parseFinal ⟨0, 16 - 2 * left.length, 0, 0⟩
          (startReader (joinGroups left ++ [':', ':'])) = some (false, r)) := by
  obtain ⟨r₁, hparse, hfilled₁, haux, hend⟩ := parseFinal_groups h hleft
  have hindex := hfilled₁.index
  have hlt : (r₁.i : Int) < 16 := by
    simp at hindex
    omega
  rw [hparse]
  constructor
  · intro hvalue
    have hover : repeatOverflows (left.getLast hleft).value = false := by
      simpa [repeatOverflows] using hvalue
    obtain ⟨r₂, hr₂, hfilled₂, hss₂, haux₂⟩ := readGroups_step 8 hlt (by simp; omega)
      (punctInput_filled hfilled₁) haux hover
    have hss₂' : r₂.ss = ⟨[], true, true⟩ := hss₂.trans hend
    obtain ⟨k, hk⟩ : ∃ k, left.length + (k + 1) = 8 := ⟨7 - left.length, by omega⟩
    obtain ⟨r₃, hr₃, hfilled₃, hss₃⟩ := readGroups_failed (left.length) hover hfilled₂
      (by rw [hss₂']) haux₂ (show _ + k = 8 by simp; omega)
    refine ⟨r₃, ?_, ?_, by rw [hss₃, hss₂']⟩
    · rw [hr₂, show 8 = k + (left.length + 1) by omega]
      exact hr₃
    · rw [show 8 - left.length = k + 1 by omega, List.replicate_succ]
      simpa using hfilled₃
  · intro hvalue
    refine ⟨punctInput r₁, readGroups_overflow 8 hlt haux ?_⟩
    simpa [repeatOverflows] using hvalue

/-! ## The result of `setIPv6` -/

variable (shiftOut)

theorem setIPv6_groups (hkind : IPv6Kind locator) {gs : List Group} (h : gs.length = 8) :
    ∃ address,
      setIPv6 shiftOut locator (groups gs h).chars = some (true, { locator with address }) ∧
      address.toList = groupBytes (gs.map Group.value) := by
  obtain ⟨r, hr, hfilled, hrest⟩ := parseGroups_groups h
  have hextract : extractGroups shiftOut (groups gs h).chars = some (true, r) := by
    calc
      extractGroups shiftOut (groups gs h).chars
          = parseGroups (startReader (joinGroups gs)) :=
            extractGroups_inner (head_joinGroups gs) (getLast_joinGroups gs)
      _ = some (true, r) := hr
  exact setIPv6_true hkind hextract hfilled (by simpa using h) hrest

theorem setIPv6_middle (hkind : IPv6Kind locator) {left right : List Group}
    (h : left.length + right.length ≤ 7) (hleft : left ≠ []) (hright : right ≠ []) :
    ∃ address, setIPv6 shiftOut locator (elided left right h).chars =
      some (false, { locator with address }) := by
  obtain ⟨r, hr, hrest⟩ := parseGroups_middle h hleft hright
  have hextract : extractGroups shiftOut (elided left right h).chars = some (true, r) := by
    calc
      extractGroups shiftOut (elided left right h).chars
          = parseGroups (startReader (elided left right h).chars) :=
            extractGroups_middle h hleft hright
      _ = some (true, r) := hr
  exact setIPv6_false hkind hextract (Or.inr hrest)

theorem setIPv6_front (hkind : IPv6Kind locator) {right : List Group}
    (h : ([] : List Group).length + right.length ≤ 7)
    (hshift : ∀ g ∈ right, shiftOut g.value = 0) :
    ∃ address, setIPv6 shiftOut locator (elided [] right h).chars =
        some (true, { locator with address }) ∧
      address.toList = (elided [] right h).bytes := by
  have hle : right.length ≤ 7 := by simpa using h
  by_cases hright : right = []
  · subst hright
    obtain ⟨r, hr, hfilled, hrest⟩ := parseInitial_colons
    exact setIPv6_true hkind hr hfilled rfl hrest
  · obtain ⟨r, hr, hfilled, hrest⟩ := (parseInitial_front hle hright).1 hshift
    have hvalues : (elided [] right h).values =
        List.replicate (8 - right.length) 0 ++ right.map Group.value := rfl
    rw [bytes, hvalues]
    exact setIPv6_true hkind ((extractGroups_front hright).trans hr) hfilled (by simp; omega) hrest

theorem setIPv6_front_overflow (hkind : IPv6Kind locator) {right : List Group}
    (h : ([] : List Group).length + right.length ≤ 7) (hshift : ∃ g ∈ right, shiftOut g.value ≠ 0) :
    ∃ address, setIPv6 shiftOut locator (elided [] right h).chars =
      some (false, { locator with address }) := by
  have hle : right.length ≤ 7 := by simpa using h
  have hright : right ≠ [] := by
    obtain ⟨g, hg, _⟩ := hshift
    exact List.ne_nil_of_mem hg
  obtain ⟨r, hr⟩ := (parseInitial_front hle hright).2 hshift
  exact setIPv6_false hkind ((extractGroups_front hright).trans hr) (Or.inl rfl)

theorem setIPv6_back (hkind : IPv6Kind locator) {left : List Group}
    (h : left.length + ([] : List Group).length ≤ 7) (hleft : left ≠ [])
    (hvalue : (left.getLast hleft).value < 65535) :
    ∃ address, setIPv6 shiftOut locator (elided left [] h).chars =
        some (true, { locator with address }) ∧
      address.toList = groupBytes (left.map Group.value ++
        List.replicate (8 - left.length) (left.getLast hleft).value) := by
  have hle : left.length ≤ 7 := by simpa using h
  obtain ⟨r, hr, hfilled, hrest⟩ := (parseFinal_back hle hleft).1 hvalue
  exact setIPv6_true hkind ((extractGroups_back hleft).trans hr) hfilled (by simp; omega) hrest

theorem setIPv6_back_overflow (hkind : IPv6Kind locator) {left : List Group}
    (h : left.length + ([] : List Group).length ≤ 7) (hleft : left ≠ [])
    (hvalue : 65535 ≤ (left.getLast hleft).value) :
    ∃ address, setIPv6 shiftOut locator (elided left [] h).chars =
      some (false, { locator with address }) := by
  have hle : left.length ≤ 7 := by simpa using h
  obtain ⟨r, hr⟩ := (parseFinal_back hle hleft).2 hvalue
  exact setIPv6_false hkind ((extractGroups_back hleft).trans hr) (Or.inl rfl)

/-! ## The address of a text -/

variable {shiftOut}

/-- `setIPv6` returns `true` and stores the address that the text denotes. -/
def Computes (shiftOut : Nat → Nat) (locator : Locator_t) (t : IPv6Text) : Prop :=
  ∃ address, setIPv6 shiftOut locator t.chars = some (true, { locator with address }) ∧
    address.toList = t.bytes

/-- No `::`, or `::` at the front before groups whose overlong shift is 0, or `::` at the end after
a group that is 0. -/
def Readable (shiftOut : Nat → Nat) : IPv6Text → Prop
  | .groups _ _ => True
  | .elided [] right _ => ∀ g ∈ right, shiftOut g.value = 0
  | .elided (g :: gs) [] _ => ((g :: gs).getLast (List.cons_ne_nil g gs)).value = 0
  | .elided (_ :: _) (_ :: _) _ => False

theorem map_value_lt (gs : List Group) : ∀ v ∈ gs.map Group.value, v < 65536 := by
  intro v hv
  obtain ⟨g, _, rfl⟩ := List.mem_map.1 hv
  exact g.value_lt

theorem map_value_append_lt (gs : List Group) {v : Nat} (hv : v < 65536) (n : Nat) :
    ∀ w ∈ gs.map Group.value ++ List.replicate n v, w < 65536 := by
  intro w hw
  rcases List.mem_append.1 hw with hw | hw
  · exact map_value_lt gs w hw
  · rw [List.eq_of_mem_replicate hw]
    exact hv

theorem not_computes {t : IPv6Text}
    (h : ∃ address, setIPv6 shiftOut locator t.chars = some (false, { locator with address })) :
    ¬ Computes shiftOut locator t := by
  rintro ⟨address', htrue, _⟩
  obtain ⟨address, hfalse⟩ := h
  rw [hfalse] at htrue
  cases htrue

/-- The last group repeated is the reference expansion where the group is 0. -/
theorem computes_back_iff (hkind : IPv6Kind locator) {left : List Group}
    (h : left.length + ([] : List Group).length ≤ 7) (hleft : left ≠ []) :
    Computes shiftOut locator (elided left [] h) ↔ (left.getLast hleft).value = 0 := by
  have hle : left.length ≤ 7 := by simpa using h
  have hvalues : (elided left [] h).values =
      left.map Group.value ++ List.replicate (8 - left.length) 0 := by
    simp [values]
  rcases Nat.lt_or_ge (left.getLast hleft).value 65535 with hlt | hge
  · obtain ⟨address, hset, haddress⟩ := setIPv6_back shiftOut hkind h hleft hlt
    constructor
    · rintro ⟨address', hset', haddress'⟩
      have heq : address = address' := by
        rw [hset] at hset'
        simpa using hset'
      subst heq
      -- The parser repeats the last group, and the text stands for zeros.
      have hbytes : left.map Group.value ++
          List.replicate (8 - left.length) (left.getLast hleft).value =
            left.map Group.value ++ List.replicate (8 - left.length) 0 := by
        apply groupBytes_injective
        · exact map_value_append_lt left (Group.value_lt _) _
        · exact map_value_append_lt left (by decide) _
        · rw [← haddress, haddress', bytes, hvalues]
      have hreplicate := List.append_cancel_left hbytes
      rw [show 8 - left.length = 7 - left.length + 1 by omega] at hreplicate
      exact (List.cons.inj hreplicate).1
    · intro hzero
      refine ⟨address, hset, ?_⟩
      rw [haddress, bytes, hvalues, hzero]
  · constructor
    · -- A last group that fails the check is not 0.
      intro hcomputes
      exact absurd hcomputes (not_computes (setIPv6_back_overflow shiftOut hkind h hleft hge))
    · intro hzero
      omega

/-- `setIPv6` computes the address of exactly the readable texts. -/
theorem computes_iff (hkind : IPv6Kind locator) (t : IPv6Text) :
    Computes shiftOut locator t ↔ Readable shiftOut t := by
  match t with
  | .groups gs h =>
      exact ⟨fun _ => trivial, fun _ => setIPv6_groups shiftOut hkind h⟩
  | .elided [] right h =>
      constructor
      · intro hcomputes g hg
        by_contra hshift
        exact not_computes (setIPv6_front_overflow shiftOut hkind h ⟨g, hg, hshift⟩) hcomputes
      · exact setIPv6_front shiftOut hkind h
  | .elided (g :: gs) [] h =>
      exact computes_back_iff hkind h (List.cons_ne_nil g gs)
  | .elided (g :: gs) (g' :: gs') h =>
      constructor
      · exact not_computes
          (setIPv6_middle shiftOut hkind h (List.cons_ne_nil g gs) (List.cons_ne_nil g' gs'))
      · exact False.elim

/-- A locator of an IPv6 kind. -/
def udpLocator : Locator_t :=
  ⟨LOCATOR_KIND_UDPv6, 0, LOCATOR_ADDRESS_INVALID⟩

/-- A group of one digit. -/
def digitGroup (c : Char) (h : isHexDigit c = true) : Group :=
  ⟨[c], by simpa using h, by simp, by simp⟩

/-- The text `::1`, with a shift that takes its count modulo 32. -/
theorem computes_loopback :
    Computes (fun v => v >>> 31) udpLocator
      (elided [] [digitGroup '1' (by decide)] (by decide)) := by
  apply (computes_iff (Or.inr rfl) _).2
  intro g hg
  rw [List.mem_singleton] at hg
  subst hg
  decide

/-- The text `1::2` is rejected. -/
theorem middle_colons_rejected :
    ¬ Computes (fun v => v >>> 31) udpLocator
      (elided [digitGroup '1' (by decide)] [digitGroup '2' (by decide)] (by decide)) := by
  apply not_computes
  refine ⟨#v[0, 1, 0, 0, 0, 0, 0, 0, 0, 0, 0, 0, 0, 0, 0, 0], ?_⟩
  decide

end Rtps
end Mozi
