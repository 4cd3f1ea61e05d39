import Mozi.Rtps.Locator.IPv6Acceptance

/-!
# IPv6Chains — the branches of `setIPv6` as chains of extractions

Each branch of `setIPv6` runs a fixed chain of extractions over the text, and accepts where the
chain exhausts it: `accepts_groups`, `accepts_final` and `accepts_initial`.  Since no number takes
a colon or a `%`, a text with more of them than the chain has characters is rejected.
-/

namespace Mozi
namespace Rtps

open Foundation InputStream IPLocator IPv6Text

variable {shiftOut : Nat → Nat} {cs : List Char}

/-- The branch that `setIPv6` takes reads the text to its end. -/
def Accepts (shiftOut : Nat → Nat) (cs : List Char) : Prop :=
  ∃ r, extractGroups shiftOut cs = some (true, r) ∧ r.ss.rest = []

/-! ## Chains -/

/-- `>> punct >> input_aux`, `n` times -/
def markNumbers (ok : Nat → Bool) : Nat → List Checked
  | 0 => []
  | n + 1 => .mark :: .number ok :: markNumbers ok n

/-- `>> input_aux >> punct`, `n` times, before the extractions `es` -/
def numberMarks (ok : Nat → Bool) : Nat → List Checked → List Checked
  | 0, es => es
  | n + 1, es => .number ok :: .mark :: numberMarks ok n es

theorem marks_markNumbers (ok : Nat → Bool) (n : Nat) :
    (markNumbers ok n).countP Checked.isMark = n := by
  induction n with
  | zero =>
      rfl
  | succ n ih =>
      rw [markNumbers, List.countP_cons_of_pos (by rfl),
        List.countP_cons_of_neg (by simp [Checked.isMark]), ih]

theorem marks_numberMarks (ok : Nat → Bool) (n : Nat) (es : List Checked) :
    (numberMarks ok n es).countP Checked.isMark = n + es.countP Checked.isMark := by
  induction n with
  | zero =>
      rw [numberMarks, Nat.zero_add]
  | succ n ih =>
      rw [numberMarks, List.countP_cons_of_neg (by simp [Checked.isMark]),
        List.countP_cons_of_pos (by rfl), ih]
      omega

/-! ## The loops -/

theorem readGroups_none {read : Reader → Reader} {overflow : Nat → Bool} {stop : Int} {r : Reader}
    (n : Nat) (hstop : (r.i : Int) < stop) (haux : (read r).input_aux = none) :
    readGroups read overflow stop (n + 1) r = none := by
  rw [readGroups, if_pos hstop]
  simp [haux]

/-- One round: the check of the number that is read, and the rounds after it. -/
theorem readGroups_round {read : Reader → Reader} {overflow ok : Nat → Bool}
    (hok : ∀ v, ok v = !overflow v) {n : Nat} {r : Reader} {vs : List Nat} {stop : Int}
    {P : Reader → Prop} {Q : Option Nat → InputStream → Prop} (hstop : (r.i : Int) < stop)
    (hlen : vs.length < 8) (h : Filled (read r) vs)
    (hrest : ∀ r₁ v, Filled r₁ (vs ++ [v]) →
      ((∃ r', readGroups read overflow stop n r₁ = some (true, r') ∧ P r') ↔
        Q r₁.input_aux r₁.ss)) :
    (∃ r', readGroups read overflow stop (n + 1) r = some (true, r') ∧ P r') ↔
      (read r).input_aux.any ok = true ∧ Q (read r).input_aux (read r).ss := by
  cases haux : (read r).input_aux with
  | none =>
      rw [readGroups_none _ hstop haux]
      simp
  | some v =>
      rw [Option.any_some, hok]
      cases hover : overflow v with
      | true =>
          rw [readGroups_overflow _ hstop haux hover]
          simp
      | false =>
          obtain ⟨r₁, hr₁, hfilled, hss, haux₁⟩ := readGroups_step n hstop hlen h haux hover
          have hafter := hrest r₁ v hfilled
          rw [haux₁, hss] at hafter
          rw [hr₁, hafter]
          simp

/-- The loop that ends with the address exhausts the text with its chain: the induction is on the
groups that are still free. -/
theorem readGroups_punct {overflow ok : Nat → Bool} (hok : ∀ v, ok v = !overflow v) {k : Nat}
    (n : Nat) {r : Reader} {vs : List Nat} (h : Filled r vs) (hlen : vs.length + k = 8) :
    (∃ r', readGroups punctInput overflow 16 (k + (n + 1)) r = some (true, r') ∧
        r'.ss.rest = []) ↔
      exhausts (markNumbers ok k) r.input_aux r.ss := by
  induction k generalizing r vs with
  | zero =>
      have hindex := h.index
      rw [Nat.zero_add, readGroups_stop n (by omega)]
      constructor
      · rintro ⟨r', hr, hrest⟩
        cases hr
        exact hrest
      · intro hrest
        exact ⟨r, rfl, hrest⟩
  | succ k ih =>
      have hindex := h.index
      have hstop : (r.i : Int) < 16 := by omega
      have hrounds : k + 1 + (n + 1) = k + (n + 1) + 1 := by omega
      rw [hrounds]
      refine readGroups_round hok hstop (by omega) (punctInput_filled h) ?_
      intro r₁ v hfilled
      exact ih hfilled (by simp; omega)

/-- The loop that ends at `stop` leaves the rest of the chain to what comes after it. -/
theorem readGroups_input {overflow ok : Nat → Bool} (hok : ∀ v, ok v = !overflow v) {k : Nat}
    (n : Nat) {r : Reader} {vs : List Nat} {stop : Int} {es : List Checked} {P : Reader → Prop}
    (h : Filled r vs) (hlen : vs.length + k ≤ 8) (hle : stop ≤ 2 * (vs.length + k : Nat))
    (hge : k ≠ 0 → stop = 2 * (vs.length + k : Nat))
    (hP : ∀ r' ws, Filled r' ws → ws.length = vs.length + k →
      (P r' ↔ exhausts es r'.input_aux r'.ss)) :
    (∃ r', readGroups inputPunct overflow stop (k + (n + 1)) r = some (true, r') ∧ P r') ↔
      exhausts (numberMarks ok k es) r.input_aux r.ss := by
  induction k generalizing r vs with
  | zero =>
      have hindex := h.index
      rw [Nat.zero_add, readGroups_stop n (by omega), numberMarks, ← hP r vs h rfl]
      constructor
      · rintro ⟨r', hr, hrest⟩
        cases hr
        exact hrest
      · intro hrest
        exact ⟨r, rfl, hrest⟩
  | succ k ih =>
      have hindex := h.index
      have hend := hge (by omega)
      have hstop : (r.i : Int) < stop := by omega
      have hrounds : k + 1 + (n + 1) = k + (n + 1) + 1 := by omega
      rw [hrounds]
      refine readGroups_round hok hstop (by omega) (inputPunct_filled h) ?_
      intro r₁ v hfilled
      have hlength : (vs ++ [v]).length + k = vs.length + (k + 1) := by
        simp
        omega
      exact ih hfilled (by omega) (by omega) (fun _ => by omega)
        fun r' ws hws hlen' => hP r' ws hws (by omega)

/-! ## The branches -/

/-- The checks of the branches, on the numbers that pass. -/
def inRange (v : Nat) : Bool :=
  !overflows v

def noRepeat (v : Nat) : Bool :=
  !repeatOverflows v

def noShift (shiftOut : Nat → Nat) (v : Nat) : Bool :=
  !shiftOverflows shiftOut v

/-- The chain of the last branch; its first number is not checked. -/
def groupsChain : List Checked :=
  .number (fun _ => true) :: markNumbers inRange 7

theorem marks_groupsChain : groupsChain.countP Checked.isMark = 7 := by
  rw [groupsChain, List.countP_cons_of_neg (by simp [Checked.isMark]), marks_markNumbers]

theorem accepts_groups (h : extractGroups shiftOut cs = parseGroups (startReader cs)) :
    Accepts shiftOut cs ↔ exhausts groupsChain none (.ofText cs) := by
  have hfilled : Filled (readInput (startReader cs)) [] :=
    filled_of_same (filled_start cs) rfl rfl
  rw [Accepts, h]
  show _ ↔ (readInput (startReader cs)).input_aux.any (fun _ => true) = true ∧
    exhausts (markNumbers inRange 7) (readInput (startReader cs)).input_aux
      (readInput (startReader cs)).ss
  cases haux : (readInput (startReader cs)).input_aux with
  | none =>
      simp [parseGroups, haux]
  | some v =>
      obtain ⟨r, hr, hr', hss, haux'⟩ := putGroup_spec hfilled (by simp) v
      have hparse : parseGroups (startReader cs) = readGroups punctInput overflows 16 9 r := by
        simp only [parseGroups, haux, Option.bind_eq_bind, Option.bind_some, hr]
        rfl
      have hok : ∀ v, inRange v = !overflows v := fun _ => rfl
      have hrest := readGroups_punct hok (k := 7) 1 hr' (by simp)
      rw [haux', hss, haux] at hrest
      rw [hparse, hrest]
      simp

/-- The chain of the branch for `::` at the end, which reads `k` groups before the colons. -/
def finalChain (k : Nat) : List Checked :=
  numberMarks inRange k (markNumbers noRepeat (8 - k))

theorem marks_finalChain {k : Nat} (hk : k ≤ 8) :
    (finalChain k).countP Checked.isMark = 8 := by
  rw [finalChain, marks_numberMarks, marks_markNumbers]
  omega

theorem parseFinal_true {final_zeros : Nat} {r : Reader} :
    (∃ r', parseFinal ⟨0, final_zeros, 0, 0⟩ r = some (true, r') ∧ r'.ss.rest = []) ↔
      ∃ r₁, readGroups inputPunct overflows (16 - final_zeros) 9 r = some (true, r₁) ∧
        ∃ r', readGroups punctInput repeatOverflows 16 9 r₁ = some (true, r') ∧
          r'.ss.rest = [] := by
  have hparse : parseFinal ⟨0, final_zeros, 0, 0⟩ r =
      readGroups inputPunct overflows (16 - final_zeros) 9 r >>= fun p =>
        if p.1 then readGroups punctInput repeatOverflows 16 9 p.2 else some (false, p.2) := by
    have hzeros : ∀ r₁, putZeros (((0 : Nat) : Int) + ((0 : Nat) : Int)) 17 r₁ = some r₁ := by
      intro r₁
      rw [putZeros, if_neg (by omega)]
    unfold parseFinal
    simp only [hzeros, Option.bind_eq_bind, Option.bind_some]
    rfl
  rw [hparse]
  cases readGroups inputPunct overflows (16 - final_zeros) 9 r with
  | none =>
      simp
  | some p =>
      obtain ⟨ok, r₁⟩ := p
      cases ok with
      | false =>
          simp
      | true =>
          simp

theorem accepts_final {final_zeros k : Nat}
    (h : extractGroups shiftOut cs = parseFinal ⟨0, final_zeros, 0, 0⟩ (startReader cs))
    (hk : k ≤ 8) (hle : (16 - final_zeros : Int) ≤ 2 * k)
    (hge : k ≠ 0 → (16 - final_zeros : Int) = 2 * k) :
    Accepts shiftOut cs ↔ exhausts (finalChain k) none (.ofText cs) := by
  rw [Accepts, h, parseFinal_true]
  have hrounds : 9 = k + (8 - k + 1) := by omega
  rw [hrounds]
  refine readGroups_input (fun _ => rfl) (8 - k) (filled_start cs) (by simpa using hk)
    (by simpa using hle) (by simpa using hge) ?_
  intro r' ws hws hlen
  have hlen' : ws.length = k := by simpa using hlen
  have hrounds' : k + (8 - k + 1) = 8 - k + (k + 1) := by omega
  rw [hrounds']
  exact readGroups_punct (fun _ => rfl) k hws (by omega)

/-- The chain of the branch for `::` at the front, which stores `m` zero groups. -/
def initialChain (shiftOut : Nat → Nat) (m : Nat) : List Checked :=
  .mark :: markNumbers (noShift shiftOut) (8 - m)

theorem marks_initialChain {m : Nat} (hm : m ≤ 8) :
    (initialChain shiftOut m).countP Checked.isMark = 9 - m := by
  rw [initialChain, List.countP_cons_of_pos (by rfl), marks_markNumbers]
  omega

theorem accepts_initial {m : Nat} (hm : m < 8)
    (h : extractGroups shiftOut (':' :: cs) =
      parseInitial shiftOut (2 * m) (startReader (':' :: cs))) :
    Accepts shiftOut (':' :: cs) ↔
      exhausts (initialChain shiftOut m) none (.ofText (':' :: cs)) := by
  have hspace : isSpace ':' = false := by decide
  obtain ⟨r, hr, hfilled, haux, hready⟩ := parseInitial_zeros (n := 8 - m) (by omega) cs
  have hlen : 8 - (8 - m) = m := by omega
  have hzeros : 16 - 2 * (8 - m) = 2 * m := by omega
  rw [hlen] at hfilled
  rw [hzeros] at hr
  have hss : (readPunct r).ss = ⟨cs, (readPunct r).ss.eof, false⟩ := by
    rw [← hready.rest, ← hready.fail]
  have hne : (2 * m == 16) = false := by
    simp
    omega
  have hok : ∀ v, noShift shiftOut v = !shiftOverflows shiftOut v := fun _ => rfl
  have hloop := readGroups_punct hok (k := 8 - m) m hfilled
    (by simp; omega)
  rw [haux, hss, exhausts_eof hready.eof] at hloop
  show _ ↔ exhausts (markNumbers (noShift shiftOut) (8 - m)) none (getChar ⟨':' :: cs, false, false⟩).2
  rw [getChar_cons hspace, ← hloop, Accepts, h]
  have hrounds : 8 - m + (m + 1) = 9 := by omega
  rw [hrounds]
  unfold parseInitial
  rw [hr]
  simp only [Option.bind_eq_bind, Option.bind_some, hne, Bool.and_false]
  unfold shiftOverflows
  cases readGroups punctInput (fun v => shiftOut v != 0) 16 9 (readPunct r) with
  | none =>
      simp
  | some p =>
      obtain ⟨ok, r'⟩ := p
      simp

/-- Where all bytes are zeros the loop has no round, and one more character is read behind it. -/
theorem accepts_colons
    (h : extractGroups shiftOut (':' :: cs) = parseInitial shiftOut 16 (startReader (':' :: cs))) :
    Accepts shiftOut (':' :: cs) ↔ exhausts [.mark, .mark] none (.ofText (':' :: cs)) := by
  have hspace : isSpace ':' = false := by decide
  obtain ⟨r, hr, hfilled, _, hready⟩ := parseInitial_zeros (Nat.zero_le 8) cs
  have hindex := hfilled.index
  have hloop : readGroups punctInput (fun v => shiftOut v != 0) 16 9 (readPunct r) =
      some (true, readPunct r) := readGroups_stop 8 (by simp at hindex; omega)
  have hparse : parseInitial shiftOut 16 (startReader (':' :: cs)) =
      some (true, readPunct (readPunct r)) := by
    simp at hr
    simp [parseInitial, hr, hloop]
  have hss : (readPunct r).ss = ⟨cs, (readPunct r).ss.eof, false⟩ := by
    rw [← hready.rest, ← hready.fail]
  have hrest : exhausts [.mark] none _ ↔ exhausts [.mark] none _ := exhausts_eof hready.eof
  rw [← hss] at hrest
  show _ ↔ exhausts [.mark] none (getChar ⟨':' :: cs, false, false⟩).2
  rw [getChar_cons hspace, ← hrest, Accepts, h, hparse]
  constructor
  · rintro ⟨r', hr', hempty⟩
    cases hr'
    exact hempty
  · intro hempty
    exact ⟨_, rfl, hempty⟩

/-- More zeros than there are bytes are stored beyond the address. -/
theorem putZeros_beyond {stop : Int} (hstop : 16 < stop) {rounds : Nat} {r : Reader}
    (hi : r.i ≤ 16) (hrounds : 16 < r.i + rounds) : putZeros stop rounds r = none := by
  induction rounds generalizing r with
  | zero =>
      rfl
  | succ rounds ih =>
      rw [putZeros, if_pos (by omega)]
      by_cases hlt : r.i < 16
      · rw [putByte, dif_pos hlt]
        show putZeros stop rounds _ = none
        exact ih (by simp; omega) (by simp; omega)
      · rw [putByte, dif_neg hlt]
        rfl

theorem not_accepts_beyond {initial_zeros : Nat} (hbeyond : 16 < initial_zeros)
    (h : extractGroups shiftOut cs = parseInitial shiftOut initial_zeros (startReader cs)) :
    ¬ Accepts shiftOut cs := by
  rintro ⟨r, hr, _⟩
  have hzeros : putZeros (initial_zeros : Int) 17 (startReader cs) = none :=
    putZeros_beyond (by omega) (Nat.zero_le 16) (show 16 < 0 + 17 by decide)
  rw [h, parseInitial, hzeros] at hr
  cases hr

/-! ## Colons and percent signs -/

/-- A colon or a `%`. -/
def special (c : Char) : Bool :=
  c == ':' || c == '%'

theorem noNumeral_special : NoNumeral special where
  space c hc := by
    have hcolon : c ≠ ':' := by
      rintro rfl
      exact absurd hc (by decide)
    have hpercent : c ≠ '%' := by
      rintro rfl
      exact absurd hc (by decide)
    simp [special, hcolon, hpercent]
  hex c hc := by
    have hcolon : c ≠ ':' := ne_of_hex hc (by decide)
    have hpercent : c ≠ '%' := ne_of_hex hc (by decide)
    simp [special, hcolon, hpercent]
  sign := by decide
  pre := by decide

theorem special_count (cs : List Char) : cs.countP special = cs.count ':' + cs.count '%' := by
  induction cs with
  | nil =>
      rfl
  | cons c cs ih =>
      rw [List.countP_cons, List.count_cons, List.count_cons, ih]
      by_cases hcolon : c = ':'
      · subst hcolon
        simp [special]
        omega
      · by_cases hpercent : c = '%'
        · subst hpercent
          simp [special]
          omega
        · simp [special, hcolon, hpercent]

/-- An accepted text has no more of them than the chain of its branch has characters. -/
theorem special_le {es : List Checked} (h : exhausts es none (.ofText cs)) :
    cs.count ':' + cs.count '%' ≤ es.countP Checked.isMark := by
  rw [← special_count]
  exact exhausts_count noNumeral_special h

end Rtps
end Mozi
