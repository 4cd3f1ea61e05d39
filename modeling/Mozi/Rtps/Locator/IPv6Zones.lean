import Mozi.Rtps.Locator.IPv6Chains

/-!
# IPv6Zones — which texts `setIPv6` reads to the end

`setIPv6` checks a text only up to a `%`, but counts the colons of all of it and extracts from all
of it.  `accepts_iff` lists the texts that pass both: of those with a zone only three to seven
groups can, and never a text with eight groups or a `::`.
-/

namespace Mozi
namespace Rtps

open Foundation InputStream IPLocator IPv6Text

variable {shiftOut : Nat → Nat} {cs tail : List Char} {es : List Checked} {v : Option Nat}
  {ok : Nat → Bool}

/-! ## Groups in a chain -/

theorem exhausts_group (g : Group) (hcs : GroupEnd cs) :
    exhausts (.number ok :: es) v ⟨g.digits ++ cs, false, false⟩ ↔
      ok g.value = true ∧ exhausts es (some g.value) ⟨cs, false, false⟩ := by
  rw [exhausts, getUInt32_group g hcs, Option.any_some, exhausts_eof (by simp)]

theorem exhausts_colon :
    exhausts (.mark :: es) v ⟨':' :: cs, false, false⟩ ↔ exhausts es v ⟨cs, false, false⟩ := by
  rw [exhausts, getChar_cons (by decide)]

/-- No number starts with a colon. -/
theorem not_exhausts_colon : ¬ exhausts (.number ok :: es) v ⟨':' :: cs, false, false⟩ := by
  rw [exhausts, getUInt32_colon, exhausts_bad (by rfl)]
  rintro ⟨_, hrest, _⟩
  cases hrest

/-- The variable after some groups. -/
def lastValue (gs : List Group) (v : Option Nat) : Option Nat :=
  gs.foldl (fun _ g => some g.value) v

/-- The groups that each follow a colon: the induction is on the groups. -/
theorem exhausts_colonGroups {gs : List Group} (htail : GroupEnd tail) (n : Nat) :
    exhausts (markNumbers ok (gs.length + n)) v ⟨colonGroups gs ++ tail, false, false⟩ ↔
      (∀ g ∈ gs, ok g.value = true) ∧
        exhausts (markNumbers ok n) (lastValue gs v) ⟨tail, false, false⟩ := by
  induction gs generalizing v with
  | nil =>
      simp [colonGroups, lastValue]
  | cons g gs ih =>
      have hlength : (g :: gs).length + n = gs.length + n + 1 := by
        rw [List.length_cons]
        omega
      rw [hlength, markNumbers, colonGroups_cons, List.cons_append, List.append_assoc,
        exhausts_colon, exhausts_group g (htail.colonGroups gs), ih, List.forall_mem_cons,
        and_assoc]
      rfl

theorem inRange_value (g : Group) : inRange g.value = true := by
  simp [inRange, value_not_overflows]

theorem lastValue_inRange (gs : List Group) (g : Group) :
    (lastValue gs (some g.value)).any inRange = true := by
  induction gs generalizing g with
  | nil =>
      exact inRange_value g
  | cons g' gs ih =>
      exact ih g'

theorem allPass_markNumbers (hv : v.any ok = true) (n : Nat) : AllPass (markNumbers ok n) v := by
  induction n with
  | zero =>
      simp [markNumbers, AllPass]
  | succ n ih =>
      rw [markNumbers, allPass_mark, allPass_number]
      exact ⟨hv, ih⟩

/-- A second colon is where a number is expected: the induction is on the groups before it. -/
theorem not_exhausts_numberMarks {left : List Group} {k : Nat} (hleft : left ≠ [])
    (hk : left.length < k) :
    ¬ exhausts (numberMarks ok k es) v ⟨joinGroups left ++ ':' :: ':' :: tail, false, false⟩ := by
  induction left generalizing k v with
  | nil =>
      exact absurd rfl hleft
  | cons g left ih =>
      obtain ⟨k, rfl⟩ : ∃ n, k = n + 1 := ⟨k - 1, by omega⟩
      rw [List.length_cons] at hk
      rw [numberMarks]
      by_cases hnil : left = []
      · subst hnil
        have htext : joinGroups [g] = g.digits := by simp [joinGroups, colonGroups]
        obtain ⟨k, rfl⟩ : ∃ n, k = n + 1 := ⟨k - 1, by omega⟩
        rw [htext, exhausts_group g (Or.inr ⟨_, rfl⟩), exhausts_colon, numberMarks]
        rintro ⟨_, h⟩
        exact not_exhausts_colon h
      · rw [joinGroups_cons g hnil, List.append_assoc, List.cons_append,
          exhausts_group g (Or.inr ⟨_, rfl⟩), exhausts_colon]
        rintro ⟨_, h⟩
        exact ih hnil (by omega) h

/-! ## Texts without a zone -/

/-- Three to eight groups are read, and the last one is repeated until the address is full. -/
theorem accepts_joinGroups {gs : List Group} (hge : 3 ≤ gs.length) (hle : gs.length ≤ 8) :
    Accepts shiftOut (joinGroups gs) := by
  rw [accepts_groups (extractGroups_inner (head_joinGroups gs) (getLast_joinGroups gs))]
  obtain ⟨g, gs, rfl⟩ := List.exists_cons_of_ne_nil (show gs ≠ [] by rintro rfl; simp at hge)
  rw [List.length_cons] at hle
  obtain ⟨n, hn⟩ : ∃ n, gs.length + n = 7 := ⟨7 - gs.length, by omega⟩
  have hend : GroupEnd (colonGroups gs) := by
    simpa using GroupEnd.colonGroups gs (Or.inl rfl)
  rw [groupsChain, joinGroups, InputStream.ofText, exhausts_group g hend, ← hn]
  refine ⟨rfl, ?_⟩
  rw [← List.append_nil (colonGroups gs), exhausts_colonGroups (Or.inl rfl)]
  refine ⟨fun g' _ => inRange_value g', ?_⟩
  rw [exhausts_blank (by simp [Blank]) (fun _ => rfl)]
  exact allPass_markNumbers (lastValue_inRange gs g) n

theorem accepts_front {right : List Group} (h : ([] : List Group).length + right.length ≤ 7) :
    Accepts shiftOut (elided [] right h).chars ↔ ∀ g ∈ right, shiftOut g.value = 0 := by
  have hle : right.length ≤ 7 := by simpa using h
  by_cases hright : right = []
  · subst hright
    obtain ⟨r, hr, _, hrest⟩ := @parseInitial_colons shiftOut
    refine ⟨by simp, fun _ => ⟨r, hr, hrest⟩⟩
  · have hbranch := @extractGroups_front shiftOut right h hright
    constructor
    · rintro ⟨r, hr, _⟩ g hg
      by_contra hshift
      obtain ⟨r', hr'⟩ := (parseInitial_front hle hright).2 ⟨g, hg, hshift⟩
      rw [hbranch.trans hr'] at hr
      cases hr
    · intro hshift
      obtain ⟨r, hr, _, hrest⟩ := (parseInitial_front hle hright).1 hshift
      exact ⟨r, hbranch.trans hr, hrest⟩

theorem accepts_back {left : List Group} (h : left.length + ([] : List Group).length ≤ 7)
    (hleft : left ≠ []) :
    Accepts shiftOut (elided left [] h).chars ↔ (left.getLast hleft).value ≠ 65535 := by
  have hle : left.length ≤ 7 := by simpa using h
  have hlt := (left.getLast hleft).value_lt
  have hbranch := @extractGroups_back shiftOut left h hleft
  constructor
  · rintro ⟨r, hr, _⟩ hvalue
    obtain ⟨r', hr'⟩ := (parseFinal_back hle hleft).2 (by omega)
    rw [hbranch.trans hr'] at hr
    cases hr
  · intro hvalue
    obtain ⟨r, hr, _, hrest⟩ := (parseFinal_back hle hleft).1 (by omega)
    exact ⟨r, hbranch.trans hr, hrest⟩

theorem not_accepts_middle {left right : List Group} (h : left.length + right.length ≤ 7)
    (hleft : left ≠ []) (hright : right ≠ []) :
    ¬ Accepts shiftOut (elided left right h).chars := by
  obtain ⟨r, hr, hrest⟩ := parseGroups_middle h hleft hright
  rintro ⟨r', hr', hrest'⟩
  rw [extractGroups_middle h hleft hright, chars, hr] at hr'
  cases hr'
  exact hrest hrest'

/-! ## Texts with a zone -/

/-- The bytes for `::` by the colons, of which nine or more are out of range. -/
def elidedBytes (count : Nat) : Nat :=
  u16 ((7 - ((u16 (count : Int) : Int) - 2)) * 2)

theorem elidedBytes_eq {count : Nat} (hge : 1 ≤ count) (hle : count ≤ 8) :
    elidedBytes count = 18 - 2 * count := by
  unfold elidedBytes u16
  omega

theorem elidedBytes_even (count : Nat) : elidedBytes count % 2 = 0 := by
  unfold elidedBytes u16
  omega

theorem zerosOf_front (hhead : cs.head? = some ':') :
    zerosOf cs (u16 (cs.count ':')) =
      ⟨if cs.getLast? = some ':' then 16 else elidedBytes (cs.count ':'), 0, 0, 0⟩ := by
  unfold zerosOf
  rw [if_pos hhead]
  split_ifs <;> rfl

/-- A text that is read as eight groups has no more special characters than they have marks. -/
theorem not_accepts_groups (hextract : extractGroups shiftOut cs = parseGroups (startReader cs))
    (hmany : 7 < cs.count ':' + cs.count '%') : ¬ Accepts shiftOut cs := by
  intro haccepts
  have hle := special_le ((accepts_groups hextract).1 haccepts)
  rw [marks_groupsChain] at hle
  omega

/-- A text that starts with a colon is not read to the end: the chain has as many characters as the
text has colons, or stores zeros beyond the address. -/
theorem not_accepts_front (hzone : '%' ∈ cs) (hhead : cs.head? = some ':')
    (hcount : 2 ≤ cs.count ':') : ¬ Accepts shiftOut cs := by
  have hpercent : 0 < cs.count '%' := List.count_pos_iff.2 hzone
  obtain ⟨cs, rfl⟩ := List.head?_eq_some_iff.1 hhead
  obtain ⟨iz, hiz⟩ : ∃ iz, iz = if (':' :: cs).getLast? = some ':' then 16
      else elidedBytes ((':' :: cs).count ':') := ⟨_, rfl⟩
  have hextract : extractGroups shiftOut (':' :: cs) =
      if iz ≠ 0 then parseInitial shiftOut iz (startReader (':' :: cs))
      else parseGroups (startReader (':' :: cs)) := by
    unfold extractGroups
    rw [zerosOf_front hhead, ← hiz]
    simp
  intro haccepts
  by_cases hsixteen : iz = 16
  · subst hsixteen
    rw [if_pos (by decide)] at hextract
    have hle := special_le ((accepts_colons hextract).1 haccepts)
    have hmarks : [Checked.mark, .mark].countP Checked.isMark = 2 := rfl
    omega
  · have hzeros : iz = elidedBytes ((':' :: cs).count ':') := by
      rw [hiz] at hsixteen ⊢
      split_ifs at hsixteen ⊢
      · exact absurd rfl hsixteen
      · rfl
    have heven := elidedBytes_even ((':' :: cs).count ':')
    have hsmall : 8 < (':' :: cs).count ':' ∨ iz = 18 - 2 * (':' :: cs).count ':' := by
      rcases Nat.lt_or_ge 8 ((':' :: cs).count ':') with hlt | hge
      · exact Or.inl hlt
      · exact Or.inr (hzeros.trans (elidedBytes_eq (by omega) hge))
    by_cases hzero : iz = 0
    · rw [if_neg (by simpa using hzero)] at hextract
      exact not_accepts_groups hextract (by omega) haccepts
    · rw [if_pos hzero] at hextract
      by_cases hbeyond : 16 < iz
      · exact not_accepts_beyond hbeyond hextract haccepts
      · obtain ⟨m, rfl⟩ : ∃ m, iz = 2 * m := ⟨iz / 2, by omega⟩
        have hle := special_le ((accepts_initial (by omega) hextract).1 haccepts)
        rw [marks_initialChain (by omega)] at hle
        omega

/-- The chain for a text with a zone that ends with a colon, or does not. -/
theorem accepts_zone_inner (hhead : cs.head? ≠ some ':') (hlast : cs.getLast? ≠ some ':') :
    Accepts shiftOut cs ↔ exhausts groupsChain none (.ofText cs) :=
  accepts_groups (extractGroups_inner hhead hlast)

theorem accepts_zone_final (hzone : '%' ∈ cs) (hhead : cs.head? ≠ some ':')
    (hlast : cs.getLast? = some ':') :
    Accepts shiftOut cs ↔
      cs.count ':' ≤ 7 ∧ exhausts (finalChain (cs.count ':' - 1)) none (.ofText cs) := by
  have hpercent : 0 < cs.count '%' := List.count_pos_iff.2 hzone
  have hcolon : 0 < cs.count ':' := List.count_pos_iff.2 (List.mem_of_getLast? hlast)
  have hextract : extractGroups shiftOut cs =
      if elidedBytes (cs.count ':') ≠ 0 then
        parseFinal ⟨0, elidedBytes (cs.count ':'), 0, 0⟩ (startReader cs)
      else parseGroups (startReader cs) := by
    unfold extractGroups zerosOf
    rw [if_neg hhead, if_pos hlast]
    simp only [ne_eq, not_true_eq_false, if_false]
    rfl
  have heven := elidedBytes_even (cs.count ':')
  rcases Nat.lt_or_ge (cs.count ':') 9 with hlt | hge
  · have hbytes := elidedBytes_eq hcolon (show cs.count ':' ≤ 8 by omega)
    rw [if_pos (by omega)] at hextract
    have hfinal := accepts_final (k := cs.count ':' - 1) hextract (by omega) (by omega)
      fun _ => by omega
    rw [hfinal]
    constructor
    · intro h
      have hle := special_le h
      rw [marks_finalChain (by omega)] at hle
      exact ⟨by omega, h⟩
    · exact fun h => h.2
  · -- Nine colons and a `%` are more than any chain has characters.
    refine iff_of_false ?_ fun h => by omega
    intro haccepts
    by_cases hzero : elidedBytes (cs.count ':') = 0
    · rw [if_neg (by simpa using hzero)] at hextract
      exact not_accepts_groups hextract (by omega) haccepts
    · rw [if_pos hzero] at hextract
      have hfinal := accepts_final (k := (16 - elidedBytes (cs.count ':')) / 2) hextract (by omega)
        (by omega) fun _ => by omega
      have hle := special_le (hfinal.1 haccepts)
      rw [marks_finalChain (by omega)] at hle
      omega

theorem getLast_zone {A z : List Char} (hlast : (A ++ '%' :: z).getLast? = some ':') :
    0 < z.count ':' := by
  rw [List.getLast?_append_of_ne_nil _ (by simp)] at hlast
  have hmem := List.mem_of_getLast? hlast
  rw [List.mem_cons] at hmem
  exact List.count_pos_iff.2 (hmem.resolve_left (by decide))

/-- A `::` behind a group is not read to the end. -/
theorem not_accepts_left {left : List Group} {z : List Char} (hleft : left ≠ [])
    (hcs : cs = joinGroups left ++ ':' :: ':' :: (tail ++ '%' :: z)) : ¬ Accepts shiftOut cs := by
  have hzone : '%' ∈ cs := by simp [hcs]
  have hpercent : 0 < cs.count '%' := List.count_pos_iff.2 hzone
  have hpos := List.length_pos_of_ne_nil hleft
  have hcount : cs.count ':' = left.length + 1 + (tail ++ '%' :: z).count ':' := by
    rw [hcs, List.count_append, count_joinGroups, List.count_cons_self, List.count_cons_self]
    omega
  have hhead : cs.head? ≠ some ':' := by
    obtain ⟨g, gs, rfl⟩ := List.exists_cons_of_ne_nil hleft
    rw [hcs, joinGroups, List.append_assoc]
    exact g.head_append _
  intro haccepts
  by_cases hlast : cs.getLast? = some ':'
  · obtain ⟨hseven, h⟩ := (accepts_zone_final hzone hhead hlast).1 haccepts
    have hz : 0 < (tail ++ '%' :: z).count ':' := by
      have hlast' : (joinGroups left ++ ':' :: ':' :: tail ++ '%' :: z).getLast? = some ':' := by
        rw [← hlast, hcs]
        simp
      have := getLast_zone hlast'
      rw [List.count_append, List.count_cons]
      omega
    have hk : left.length < cs.count ':' - 1 := by omega
    have hchain : exhausts (numberMarks inRange (cs.count ':' - 1)
        (markNumbers noRepeat (8 - (cs.count ':' - 1)))) none
        ⟨joinGroups left ++ ':' :: ':' :: (tail ++ '%' :: z), false, false⟩ := by
      rw [← hcs]
      exact h
    exact not_exhausts_numberMarks hleft hk hchain
  · have h := (accepts_zone_inner hhead hlast).1 haccepts
    have hle := special_le h
    rw [marks_groupsChain] at hle
    obtain ⟨g, gs, rfl⟩ := List.exists_cons_of_ne_nil hleft
    rw [List.length_cons] at hcount
    have hend : GroupEnd (':' :: ':' :: (tail ++ '%' :: z)) := Or.inr ⟨_, rfl⟩
    obtain ⟨n, hn⟩ : ∃ n, 7 = gs.length + (n + 1) := ⟨6 - gs.length, by omega⟩
    rw [groupsChain, hcs, joinGroups, InputStream.ofText, List.append_assoc,
      exhausts_group g (hend.colonGroups gs), hn, exhausts_colonGroups hend, markNumbers,
      exhausts_colon] at h
    exact not_exhausts_colon h.2.2

/-- Eight groups with a zone are not read to the end. -/
theorem not_accepts_eight {gs : List Group} {z : List Char} (hgs : gs.length = 8)
    (hcs : cs = joinGroups gs ++ '%' :: z) : ¬ Accepts shiftOut cs := by
  have hzone : '%' ∈ cs := by simp [hcs]
  have hpercent : 0 < cs.count '%' := List.count_pos_iff.2 hzone
  have hcount : cs.count ':' = 7 + z.count ':' := by
    rw [hcs, List.count_append, count_joinGroups, hgs, List.count_cons_of_ne (by decide)]
  have hhead : cs.head? ≠ some ':' := by
    obtain ⟨g, gs, rfl⟩ := List.exists_cons_of_ne_nil (show gs ≠ [] by rintro rfl; simp at hgs)
    rw [hcs, joinGroups, List.append_assoc]
    exact g.head_append _
  intro haccepts
  by_cases hlast : cs.getLast? = some ':'
  · have hseven := ((accepts_zone_final hzone hhead hlast).1 haccepts).1
    have hz := getLast_zone (hcs ▸ hlast)
    omega
  · have hle := special_le ((accepts_zone_inner hhead hlast).1 haccepts)
    rw [marks_groupsChain] at hle
    omega

/-! ## The texts -/

/-- The zone of three to seven groups that the other extractions take to its end: `cs` is the whole
text.  A colon at the end is mistaken for the end of a `::`. -/
def ZoneTaken (cs : List Char) : Prop :=
  if cs.getLast? = some ':' then
    cs.count ':' ≤ 7 ∧ Taken (finalChain (cs.count ':' - 1)) none cs
  else
    Taken groupsChain none cs

/-- The texts that `IPv6isCorrect` accepts and `setIPv6` reads to the end. -/
inductive ReadToEnd (shiftOut : Nat → Nat) : List Char → Prop
  | groups (gs : List Group) :
      3 ≤ gs.length → gs.length ≤ 8 → ReadToEnd shiftOut (joinGroups gs)
  | front (right : List Group) :
      right.length ≤ 7 → (∀ g ∈ right, shiftOut g.value = 0) →
        ReadToEnd shiftOut (':' :: ':' :: joinGroups right)
  | back (left : List Group) (hleft : left ≠ []) :
      left.length ≤ 7 → (left.getLast hleft).value ≠ 65535 →
        ReadToEnd shiftOut (joinGroups left ++ [':', ':'])
  | zone (gs : List Group) (z : List Char) :
      3 ≤ gs.length → gs.length ≤ 7 → ZoneTaken (joinGroups gs ++ '%' :: z) →
        ReadToEnd shiftOut (joinGroups gs ++ '%' :: z)

theorem accepts_few {gs : List Group} {z : List Char} (hge : 3 ≤ gs.length) :
    Accepts shiftOut (joinGroups gs ++ '%' :: z) ↔ ZoneTaken (joinGroups gs ++ '%' :: z) := by
  have hzone : '%' ∈ joinGroups gs ++ '%' :: z := by simp
  have hhead : (joinGroups gs ++ '%' :: z).head? ≠ some ':' := by
    obtain ⟨g, gs, rfl⟩ := List.exists_cons_of_ne_nil (show gs ≠ [] by rintro rfl; simp at hge)
    rw [joinGroups, List.append_assoc]
    exact g.head_append _
  unfold ZoneTaken
  split_ifs with hlast
  · rw [accepts_zone_final hzone hhead hlast, InputStream.ofText, exhausts_iff]
  · rw [accepts_zone_inner hhead hlast, InputStream.ofText, exhausts_iff]

theorem ReadToEnd.accepts (h : ReadToEnd shiftOut cs) : Accepts shiftOut cs := by
  cases h with
  | groups gs hge hle =>
      exact accepts_joinGroups hge hle
  | front right hle hshift =>
      exact (accepts_front (by simpa using hle)).2 hshift
  | back left hleft hle hvalue =>
      exact (accepts_back (by simpa using hle) hleft).2 hvalue
  | zone gs z hge hle htaken =>
      exact (accepts_few hge).2 htaken

/-- The text before a `%`, and the zone behind it. -/
theorem exists_zone (hzone : '%' ∈ cs) :
    ∃ z, cs = cs.takeWhile (· != '%') ++ '%' :: z := by
  have hdrop := List.head?_dropWhile_not (· != '%') cs
  cases hrest : cs.dropWhile (· != '%') with
  | nil =>
      have hne := List.dropWhile_eq_nil_iff.1 hrest '%' hzone
      simp at hne
  | cons c z =>
      rw [hrest] at hdrop
      obtain rfl : c = '%' := by simpa using hdrop
      exact ⟨z, by rw [← hrest, List.takeWhile_append_dropWhile]⟩

/-- With a zone only three to seven groups are left. -/
theorem readToEnd_of_zone (hzone : '%' ∈ cs) (hcorrect : IPv6isCorrect cs = true)
    (h : Accepts shiftOut cs) : ReadToEnd shiftOut cs := by
  have hcount := ((IPv6isCorrect_eq_true cs).1 hcorrect).count_ge
  obtain ⟨z, hcs⟩ := exists_zone hzone
  rcases (IPv6isCorrect_iff cs).1 hcorrect with ⟨t, ht⟩ | ⟨gs, hge, hle, hgs⟩
  · rw [← ht] at hcs hcount
    exfalso
    cases t with
    | groups gs hlength =>
        exact not_accepts_eight hlength hcs h
    | elided left right hlength =>
        cases left with
        | nil =>
            have hhead : cs.head? = some ':' := by
              rw [hcs]
              rfl
            have hcolons : 2 ≤ cs.count ':' := by
              rw [hcs, List.count_append]
              omega
            exact not_accepts_front hzone hhead hcolons h
        | cons g gs =>
            have hsplit :
                cs = joinGroups (g :: gs) ++ ':' :: ':' :: (joinGroups right ++ '%' :: z) := by
              rw [hcs, chars, List.append_assoc]
              rfl
            exact not_accepts_left (List.cons_ne_nil g gs) hsplit h
  · rw [hcs, ← hgs] at h ⊢
    exact .zone gs z hge hle ((accepts_few hge).1 h)

theorem readToEnd_of_text {t : IPv6Text} (h : Accepts shiftOut t.chars) :
    ReadToEnd shiftOut t.chars := by
  cases t with
  | groups gs hlength =>
      exact .groups gs (by omega) (by omega)
  | elided left right hlength =>
      cases left with
      | nil =>
          exact .front right (by simpa using hlength) ((accepts_front hlength).1 h)
      | cons g gs =>
          cases right with
          | nil =>
              have hvalue := (accepts_back hlength (List.cons_ne_nil g gs)).1 h
              exact .back (g :: gs) (List.cons_ne_nil g gs) (by simpa using hlength) hvalue
          | cons g' gs' =>
              exact absurd h
                (not_accepts_middle hlength (List.cons_ne_nil g gs) (List.cons_ne_nil g' gs'))

theorem readToEnd_of_accepts (hcorrect : IPv6isCorrect cs = true) (h : Accepts shiftOut cs) :
    ReadToEnd shiftOut cs := by
  by_cases hzone : '%' ∈ cs
  · exact readToEnd_of_zone hzone hcorrect h
  · have hself : cs.takeWhile (· != '%') = cs := by
      rw [List.takeWhile_eq_self_iff]
      intro c hc
      have hne : c ≠ '%' := by
        rintro rfl
        exact hzone hc
      simpa using hne
    have htext := (IPv6isCorrect_iff cs).1 hcorrect
    rw [hself] at htext
    rcases htext with ⟨t, rfl⟩ | ⟨gs, hge, hle, rfl⟩
    · exact readToEnd_of_text h
    · exact .groups gs hge (by omega)

/-- Of the texts that pass the check, `setIPv6` reads these to the end and no others. -/
theorem accepts_iff (hcorrect : IPv6isCorrect cs = true) :
    Accepts shiftOut cs ↔ ReadToEnd shiftOut cs :=
  ⟨readToEnd_of_accepts hcorrect, ReadToEnd.accepts⟩

end Rtps
end Mozi
