import Mozi.Rtps.Locator.IPv6Parser

/-!
# IPv6Acceptance — what `IPv6isCorrect` accepts

The converse of `IPv6isCorrect_chars`.  Without a `::` the number of groups is only bounded by the
count of the colons, so three to seven groups are accepted as well as eight.
-/

namespace Mozi
namespace Rtps

open Foundation IPLocator

/-! ## Fields of a text -/

/-- Every text is cut into fields by its colons. -/
theorem exists_fields (cs : List Char) :
    ∃ fs : List (List Char), fs ≠ [] ∧ joinFields fs = cs ∧ ∀ f ∈ fs, ∀ c ∈ f, c ≠ ':' := by
  induction cs with
  | nil =>
      exact ⟨[[]], by simp, rfl, by simp⟩
  | cons c cs ih =>
      obtain ⟨fs, hne, rfl, hcolon⟩ := ih
      by_cases hc : c = ':'
      · subst hc
        refine ⟨[] :: fs, by simp, by rw [joinFields_cons [] hne]; rfl, ?_⟩
        intro f hf
        rcases List.mem_cons.1 hf with rfl | hf
        · simp
        · exact hcolon f hf
      · cases fs with
        | nil =>
            exact absurd rfl hne
        | cons f fs =>
            refine ⟨(c :: f) :: fs, by simp, by simp [joinFields], ?_⟩
            intro g hg d hd
            rcases List.mem_cons.1 hg with rfl | hg
            · rcases List.mem_cons.1 hd with rfl | hd
              · exact hc
              · exact hcolon f (List.mem_cons_self ..) d hd
            · exact hcolon g (List.mem_cons_of_mem f hg) d hd

/-- There is one colon less than there are fields. -/
theorem count_joinFields {fs : List (List Char)} (hne : fs ≠ [])
    (hcolon : ∀ f ∈ fs, ∀ c ∈ f, c ≠ ':') : (joinFields fs).count ':' + 1 = fs.length := by
  induction fs with
  | nil =>
      exact absurd rfl hne
  | cons f fs ih =>
      have hf : f.count ':' = 0 :=
        List.count_eq_zero.2 fun h => hcolon f (List.mem_cons_self ..) ':' h rfl
      cases fs with
      | nil =>
          simp [joinFields, hf]
      | cons f' fs =>
          have hrest := ih (by simp) fun g hg => hcolon g (List.mem_cons_of_mem f hg)
          rw [joinFields_cons f (by simp), List.count_append, List.count_cons_self, hf,
            List.length_cons, ← hrest]
          omega

/-! ## Neighbouring colons -/

theorem findColons_of_append (f : List Char) {cs : List Char} (h : findColons (f ++ cs) = none) :
    findColons cs = none := by
  induction f with
  | nil =>
      exact h
  | cons c f ih =>
      rw [List.cons_append, findColons] at h
      split_ifs at h
      exact ih (by simpa using h)

theorem findColons_after_colon {cs : List Char} (h : findColons (':' :: cs) = none) :
    cs.head? ≠ some ':' ∧ findColons cs = none := by
  rw [findColons] at h
  split_ifs at h with hpair
  exact ⟨fun hhead => hpair ⟨rfl, hhead⟩, by simpa using h⟩

/-- The first `::` has no other one before it, and no colon right before it. -/
theorem findColons_split {cs : List Char} {ind : Nat} (h : findColons cs = some ind) :
    ∃ l r, cs = l ++ ':' :: ':' :: r ∧ l.length = ind ∧ findColons l = none ∧
      l.getLast? ≠ some ':' := by
  induction cs generalizing ind with
  | nil =>
      cases h
  | cons c cs ih =>
      rw [findColons] at h
      split_ifs at h with hpair
      · obtain ⟨rfl, hhead⟩ := hpair
        obtain ⟨r, rfl⟩ := List.head?_eq_some_iff.1 hhead
        exact ⟨[], r, rfl, Option.some.inj h, rfl, by simp⟩
      · obtain ⟨j, hj, rfl⟩ := Option.map_eq_some_iff.1 h
        obtain ⟨l, r, rfl, hlength, hnone, hlast⟩ := ih hj
        refine ⟨c :: l, r, rfl, by rw [List.length_cons, hlength], ?_, ?_⟩
        · cases l with
          | nil =>
              simp [findColons]
          | cons d l =>
              have hcd : ¬ (c = ':' ∧ d = ':') := by simpa using hpair
              rw [findColons]
              simp [hcd, hnone]
        · cases l with
          | nil =>
              have hc : c ≠ ':' := by simpa using hpair
              simpa using hc
          | cons d l =>
              simpa using hlast

/-- Where no colon stands at an end or beside another one, every field has a character. -/
theorem field_ne_nil {fs : List (List Char)} (htext : joinFields fs ≠ [])
    (hhead : (joinFields fs).head? ≠ some ':') (hlast : (joinFields fs).getLast? ≠ some ':')
    (hpair : findColons (joinFields fs) = none) : ∀ f ∈ fs, f ≠ [] := by
  induction fs with
  | nil =>
      simp
  | cons f fs ih =>
      cases fs with
      | nil =>
          intro g hg
          rw [List.mem_singleton.1 hg]
          simpa [joinFields] using htext
      | cons f' fs =>
          rw [joinFields_cons f (by simp)] at hhead hlast hpair
          obtain ⟨hnext, hnone⟩ := findColons_after_colon (findColons_of_append f hpair)
          -- The colon behind `f` is not the last character.
          have hmore : joinFields (f' :: fs) ≠ [] := by
            intro hnil
            rw [hnil] at hlast
            simp at hlast
          have hlast' : (joinFields (f' :: fs)).getLast? ≠ some ':' := by
            rw [← List.singleton_append, ← List.append_assoc,
              List.getLast?_append_of_ne_nil _ hmore] at hlast
            exact hlast
          intro g hg
          rcases List.mem_cons.1 hg with rfl | hg
          · rintro rfl
            exact hhead rfl
          · exact ih hmore hnext hlast' hnone g hg

/-- Fields of one to four hexadecimal digits are groups. -/
theorem exists_groups {fs : List (List Char)} (hquartet : ∀ f ∈ fs, quartet f = true)
    (hne : ∀ f ∈ fs, f ≠ []) : ∃ gs : List Group, gs.map Group.digits = fs := by
  induction fs with
  | nil =>
      exact ⟨[], rfl⟩
  | cons f fs ih =>
      obtain ⟨gs, hgs⟩ := ih (fun g hg => hquartet g (List.mem_cons_of_mem f hg))
        fun g hg => hne g (List.mem_cons_of_mem f hg)
      have hf := hquartet f (List.mem_cons_self ..)
      simp only [quartet, Bool.and_eq_true, List.all_eq_true, decide_eq_true_eq] at hf
      exact ⟨⟨f, hf.1, hne f (List.mem_cons_self ..), hf.2⟩ :: gs, by rw [List.map_cons, hgs]⟩

/-- A part of a text between the colons of `::` and the ends. -/
theorem exists_joinGroups {fs : List (List Char)} (hne : fs ≠ [])
    (hcolon : ∀ f ∈ fs, ∀ c ∈ f, c ≠ ':') (hquartet : ∀ f ∈ fs, quartet f = true)
    (hhead : (joinFields fs).head? ≠ some ':') (hlast : (joinFields fs).getLast? ≠ some ':')
    (hpair : findColons (joinFields fs) = none) :
    ∃ gs : List Group, joinGroups gs = joinFields fs ∧
      (gs.length = fs.length ∨ gs = [] ∧ fs.length = 1) := by
  by_cases htext : joinFields fs = []
  · refine ⟨[], htext.symm, Or.inr ⟨rfl, ?_⟩⟩
    have hcount := count_joinFields hne hcolon
    rw [htext] at hcount
    simpa using hcount.symm
  · obtain ⟨gs, rfl⟩ := exists_groups hquartet (field_ne_nil htext hhead hlast hpair)
    refine ⟨gs, ?_, Or.inl (by simp)⟩
    have hgs : gs ≠ [] := by simpa using hne
    rw [← joinFields_fieldsOf, fieldsOf, if_neg (by simpa using hgs)]

/-! ## Acceptance -/

/-- Three to seven groups without a `::`. -/
def FewGroups (cs : List Char) : Prop :=
  ∃ gs : List Group, 3 ≤ gs.length ∧ gs.length ≤ 7 ∧ joinGroups gs = cs

/-- What is accepted without a `::`. -/
theorem groups_of_accepted {cs : List Char} (hpair : findColons cs = none)
    (hcount : 2 ≤ cs.count ':' ∧ cs.count ':' ≤ 8)
    (hends : cs.head? ≠ some ':' ∧ cs.getLast? ≠ some ':') (height : cs.count ':' ≠ 8)
    (hfields : fieldsCorrect (cs.count ':' + 1) (.ofText cs) = true) :
    (∃ t : IPv6Text, t.chars = cs) ∨ FewGroups cs := by
  obtain ⟨fs, hne, rfl, hcolon⟩ := exists_fields cs
  have hlength := count_joinFields hne hcolon
  rw [hlength, fieldsCorrect_joinFields hne hcolon] at hfields
  obtain ⟨gs, hgs, hgsLength⟩ := exists_joinGroups hne hcolon hfields hends.1 hends.2 hpair
  have hthree : 3 ≤ gs.length ∧ gs.length ≤ 8 := by
    rcases hgsLength with h | ⟨-, h⟩ <;> omega
  rcases Nat.lt_or_ge gs.length 8 with hlt | hge
  · exact Or.inr ⟨gs, hthree.1, by omega, hgs⟩
  · exact Or.inl ⟨.groups gs (by omega), hgs⟩

theorem joinGroups_eq_nil {gs : List Group} : joinGroups gs = [] ↔ gs = [] := by
  cases gs with
  | nil =>
      simp [joinGroups]
  | cons g gs =>
      simpa using joinGroups_ne_nil (show g :: gs ≠ [] by simp)

/-- The groups beside a `::`, by the colons: an empty part is one field too. -/
theorem elided_length {left right : List Group} {n m count : Nat} (hn : 0 < n) (hm : 0 < m)
    (hleft : left.length = n ∨ left = [] ∧ n = 1) (hright : right.length = m ∨ right = [] ∧ m = 1)
    (hlength : count + 1 = n + (m + 1)) (hcount : count ≤ 8)
    (hempty : count = 8 → left = [] ∨ right = []) : left.length + right.length ≤ 7 := by
  rcases hleft with hl | ⟨rfl, hl⟩ <;> rcases hright with hr | ⟨rfl, hr⟩
  · have hseven : count ≠ 8 := by
      intro h
      rcases hempty h with rfl | rfl
      · exact hn.ne hl
      · exact hm.ne hr
    omega
  · rw [List.length_nil]
    omega
  · rw [List.length_nil]
    omega
  · simp

/-- What is accepted with a `::`. -/
theorem elided_of_accepted {l r : List Char} (hl : findColons l = none)
    (hlast : l.getLast? ≠ some ':') (hr : findColons (':' :: r) = none)
    (hhead : l.head? ≠ some ':') (hrlast : r.getLast? ≠ some ':')
    (hcount : (l ++ ':' :: ':' :: r).count ':' ≤ 8)
    (height : (l ++ ':' :: ':' :: r).count ':' = 8 → l = [] ∨ r = [])
    (hfields : fieldsCorrect ((l ++ ':' :: ':' :: r).count ':' + 1)
      (.ofText (l ++ ':' :: ':' :: r)) = true) :
    ∃ t : IPv6Text, t.chars = l ++ ':' :: ':' :: r := by
  obtain ⟨fs, hfs, rfl, hfsColon⟩ := exists_fields l
  obtain ⟨fs', hfs', rfl, hfsColon'⟩ := exists_fields r
  -- The fields of the text: those of the two parts, and the empty one between the colons.
  have hjoin : joinFields (fs ++ [] :: fs') = joinFields fs ++ ':' :: ':' :: joinFields fs' := by
    rw [joinFields_append hfs (by simp), joinFields_cons [] hfs']
    rfl
  have hcolon : ∀ f ∈ fs ++ [] :: fs', ∀ c ∈ f, c ≠ ':' := by
    intro f hf
    rcases List.mem_append.1 hf with hf | hf
    · exact hfsColon f hf
    · rcases List.mem_cons.1 hf with rfl | hf
      · simp
      · exact hfsColon' f hf
  have hlength := count_joinFields (show fs ++ [] :: fs' ≠ [] by simp) hcolon
  rw [← hjoin] at hcount height hfields ⊢
  rw [hlength, fieldsCorrect_joinFields (by simp) hcolon] at hfields
  obtain ⟨hnext, hr⟩ := findColons_after_colon hr
  obtain ⟨left, hleft, hleftLength⟩ := exists_joinGroups hfs hfsColon
    (fun f hf => hfields f (List.mem_append_left _ hf)) hhead hlast hl
  obtain ⟨right, hright, hrightLength⟩ := exists_joinGroups hfs' hfsColon'
    (fun f hf => hfields f (List.mem_append_right _ (List.mem_cons_of_mem _ hf))) hnext hrlast hr
  -- Eight colons need an empty part, which has a field but no group.
  have hseven : left.length + right.length ≤ 7 := by
    rw [List.length_append, List.length_cons] at hlength
    have hempty : (joinFields (fs ++ [] :: fs')).count ':' = 8 → left = [] ∨ right = [] := by
      intro h
      rcases height h with h | h
      · exact Or.inl (joinGroups_eq_nil.1 (hleft.trans h))
      · exact Or.inr (joinGroups_eq_nil.1 (hright.trans h))
    exact elided_length (List.length_pos_of_ne_nil hfs) (List.length_pos_of_ne_nil hfs') hleftLength
       hrightLength hlength hcount hempty
  exact ⟨.elided left right hseven, by rw [IPv6Text.chars, hleft, hright, hjoin]⟩

/-- Without a `::` the last two characters are not both colons. -/
theorem findColons_last {cs : List Char} (h : findColons cs = none) (hlength : 2 ≤ cs.length)
    (hlast : cs.getLast? = some ':') : cs[cs.length - 2]? ≠ some ':' := by
  obtain ⟨ds, rfl⟩ := List.getLast?_eq_some_iff.1 hlast
  rcases List.eq_nil_or_concat' ds with rfl | ⟨ds, d, rfl⟩
  · simp at hlength
  · rw [List.append_assoc] at h
    have hpair := findColons_of_append ds h
    intro hd
    simp at hd
    subst hd
    simp [findColons] at hpair

/-- Without a `::` a colon does not follow a colon at the front. -/
theorem findColons_head {cs : List Char} (h : findColons cs = none) (hhead : cs.head? = some ':') :
    cs[1]? ≠ some ':' := by
  obtain ⟨ds, rfl⟩ := List.head?_eq_some_iff.1 hhead
  intro hnext
  refine (findColons_after_colon h).1 ?_
  simpa [List.head?_eq_getElem?] using hnext

/-- The part before a `::` does not start with a colon. -/
theorem head_of_split {l r : List Char} (hl : findColons l = none) (hlast : l.getLast? ≠ some ':')
    (hhead : (l ++ ':' :: ':' :: r).head? = some ':' → (l ++ ':' :: ':' :: r)[1]? = some ':') :
    l.head? ≠ some ':' := by
  intro hc
  cases l with
  | nil =>
      cases hc
  | cons c l =>
      cases l with
      | nil =>
          exact hlast hc
      | cons d l =>
          have hnext := hhead (by simpa using hc)
          exact findColons_head hl hc (by simpa using hnext)

/-- The part behind a `::` does not end with a colon. -/
theorem last_of_split {l r : List Char} (hr : findColons (':' :: r) = none)
    (hlast : (l ++ ':' :: ':' :: r).getLast? = some ':' →
      (l ++ ':' :: ':' :: r)[(l ++ ':' :: ':' :: r).length - 2]? = some ':') :
    r.getLast? ≠ some ':' := by
  intro hc
  obtain ⟨r', rfl⟩ := List.getLast?_eq_some_iff.1 hc
  have hlast' : (l ++ ':' :: ':' :: (r' ++ [':'])).getLast? = some ':' := by
    have hsplit : l ++ ':' :: ':' :: (r' ++ [':']) = (l ++ ':' :: ':' :: r') ++ [':'] := by simp
    rw [hsplit, List.getLast?_concat]
  have hprev := hlast hlast'
  -- The last but one character of the text is the one of the second colon and the part behind it.
  have hsplit : l ++ ':' :: ':' :: (r' ++ [':']) = (l ++ [':']) ++ ':' :: (r' ++ [':']) := by simp
  have hlength : (l ++ ':' :: ':' :: (r' ++ [':'])).length - 2 = (l ++ [':']).length + r'.length := by
    simp only [List.length_append, List.length_cons, List.length_nil]
    omega
  rw [hlength, hsplit, List.getElem?_append_right (Nat.le_add_right ..),
    Nat.add_sub_cancel_left] at hprev
  have hend : (':' :: (r' ++ [':'])).length - 2 = r'.length := by
    simp only [List.length_append, List.length_cons, List.length_nil]
    omega
  refine findColons_last hr ?_ (by simp [List.getLast?_cons]) (hend ▸ hprev)
  simp only [List.length_append, List.length_cons, List.length_nil]
  omega

theorem nil_of_head {l r : List Char} (hl : l.head? ≠ some ':')
    (hhead : (l ++ r).head? = some ':') : l = [] := by
  cases l with
  | nil =>
      rfl
  | cons c l =>
      exact absurd hhead hl

theorem nil_of_last {l r : List Char} (hr : r.getLast? ≠ some ':')
    (hlast : (l ++ ':' :: ':' :: r).getLast? = some ':') : r = [] := by
  by_contra hne
  have hsplit : l ++ ':' :: ':' :: r = (l ++ [':', ':']) ++ r := by simp
  rw [hsplit, List.getLast?_append_of_ne_nil _ hne] at hlast
  exact hr hlast

theorem length_of_count {cs : List Char} (h : 2 ≤ cs.count ':') : 2 ≤ cs.length :=
  h.trans List.count_le_length

/-- The accepted texts: the addresses, and three to seven groups without a `::`. -/
theorem Checks.text {cs : List Char} (h : Checks cs) :
    (∃ t : IPv6Text, t.chars = cs) ∨ FewGroups cs := by
  cases hind : findColons cs with
  | none =>
      have hhead : cs.head? ≠ some ':' := fun hc => findColons_head hind hc (h.head hc)
      have hlast : cs.getLast? ≠ some ':' := fun hc =>
        findColons_last hind (length_of_count h.count_ge) hc (h.last hc)
      refine groups_of_accepted hind ⟨h.count_ge, h.count_le⟩ ⟨hhead, hlast⟩ ?_ h.fields
      intro hc
      rcases h.eight hc with hc | hc
      · exact hhead hc
      · exact hlast hc
  | some ind =>
      obtain ⟨l, r, rfl, hlength, hl, hlast⟩ := findColons_split hind
      have hr : findColons (':' :: r) = none := by
        have hsecond := h.second ind hind
        rwa [← hlength, ← List.drop_drop, List.drop_left] at hsecond
      refine Or.inl (elided_of_accepted hl hlast hr ?_ ?_ h.count_le ?_ h.fields)
      · exact head_of_split hl hlast h.head
      · exact last_of_split hr h.last
      · intro hc
        rcases h.eight hc with hend | hend
        · exact Or.inl (nil_of_head (head_of_split hl hlast h.head) hend)
        · exact Or.inr (nil_of_last (last_of_split hr h.last) hend)

theorem FewGroups.checks {cs : List Char} (h : FewGroups cs) : Checks cs := by
  obtain ⟨gs, hthree, hseven, rfl⟩ := h
  exact checks_joinGroups hthree (by omega)

/-- Addresses are accepted, three to seven groups without a `::`, and nothing else. -/
theorem IPv6isCorrect_iff (cs : List Char) :
    IPv6isCorrect cs = true ↔
      (∃ t : IPv6Text, t.chars = cs.takeWhile (· != '%')) ∨
        FewGroups (cs.takeWhile (· != '%')) := by
  rw [IPv6isCorrect_eq_true]
  constructor
  · exact Checks.text
  · rintro (⟨t, ht⟩ | h)
    · rw [← ht]
      exact t.checks
    · exact h.checks

/-- Three to seven groups are no address. -/
theorem FewGroups.not_text {cs : List Char} (h : FewGroups cs) :
    ¬ ∃ t : IPv6Text, t.chars = cs := by
  obtain ⟨gs, hthree, hseven, rfl⟩ := h
  rintro ⟨t, ht⟩
  cases t with
  | groups gs' height =>
      have hcount := congrArg (List.count ':') ht
      rw [IPv6Text.chars, count_joinGroups, count_joinGroups] at hcount
      omega
  | elided left right hle =>
      have hpair := findColons_pair (getLast_joinGroups left) (findColons_joinGroups left)
        (joinGroups right)
      rw [IPv6Text.chars] at ht
      rw [ht, findColons_joinGroups] at hpair
      cases hpair

/-- `isIPv6` -/
def IPLocator.isIPv6 (address : List Char) : Bool :=
  IPv6isCorrect address

/-- A text is judged by the grammar unless it is three to seven groups without a `::`. -/
theorem IPv6isCorrect_exact_iff (cs : List Char) :
    (IPv6isCorrect cs = true ↔ ∃ t : IPv6Text, t.chars = cs.takeWhile (· != '%')) ↔
      ¬ FewGroups (cs.takeWhile (· != '%')) := by
  rw [IPv6isCorrect_iff]
  constructor
  · intro h hfew
    exact hfew.not_text (h.1 (Or.inr hfew))
  · intro hfew
    simp [hfew]

/-- Three groups are accepted, and `setIPv6` repeats the last one in the other bytes. -/
theorem IPv6isCorrect_three_groups :
    IPv6isCorrect "1:2:3".toList = true ∧ isIPv6 "1:2:3".toList = true ∧
      (¬ ∃ t : IPv6Text, t.chars = "1:2:3".toList.takeWhile (· != '%')) ∧
      (setIPv6 id ⟨LOCATOR_KIND_UDPv6, 7400, LOCATOR_ADDRESS_INVALID⟩ "1:2:3".toList).map
          (fun r => r.2.address.toList) = some [0, 1, 0, 2, 0, 3, 0, 3, 0, 3, 0, 3, 0, 3, 0, 3] := by
  refine ⟨by decide, by decide, FewGroups.not_text ?_, by decide⟩
  exact ⟨[digitGroup '1' (by decide), digitGroup '2' (by decide), digitGroup '3' (by decide)],
    by decide, by decide, rfl⟩

end Rtps
end Mozi
