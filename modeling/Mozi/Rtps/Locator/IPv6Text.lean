import Mozi.Rtps.Locator.IPLocator
import Mathlib.Data.List.TakeWhile

/-!
# IPv6Text — the texts of IPv6 addresses

The grammar the parser is meant for, with the reference expansion of a text to 16 bytes:
`IPv6Text.chars` is the text and `IPv6Text.bytes` the address it denotes.  The main result is
`IPv6isCorrect_chars`: `IPv6isCorrect` accepts every text of the grammar.
-/

namespace Mozi
namespace Rtps

open Foundation

/-- One to four hexadecimal digits. -/
structure Group where
  digits : List Char
  hex : ∀ c ∈ digits, isHexDigit c = true
  ne_nil : digits ≠ []
  length_le : digits.length ≤ 4

namespace Group

/-- The number that the digits denote. -/
def value (g : Group) : Nat :=
  g.digits.foldl (fun acc c => acc * 16 + (digitVal 16 c).getD 0) 0

theorem foldl_lt (cs : List Char) (acc : Nat) :
    cs.foldl (fun acc c => acc * 16 + (digitVal 16 c).getD 0) acc < (acc + 1) * 16 ^ cs.length := by
  induction cs generalizing acc with
  | nil =>
      simp
  | cons c cs ih =>
      have hd : (digitVal 16 c).getD 0 < 16 := by
        cases hc : digitVal 16 c with
        | none =>
            simp
        | some d =>
            exact digitVal_lt hc
      calc
        (c :: cs).foldl (fun acc c => acc * 16 + (digitVal 16 c).getD 0) acc
            < (acc * 16 + (digitVal 16 c).getD 0 + 1) * 16 ^ cs.length := ih _
        _ ≤ ((acc + 1) * 16) * 16 ^ cs.length := Nat.mul_le_mul_right _ (by omega)
        _ = (acc + 1) * 16 ^ (c :: cs).length := by
            rw [List.length_cons, Nat.pow_succ, Nat.mul_assoc, Nat.mul_comm 16]

theorem value_lt (g : Group) : g.value < 65536 := by
  have hlt := foldl_lt g.digits 0
  have hle : 16 ^ g.digits.length ≤ 16 ^ 4 := Nat.pow_le_pow_right (by decide) g.length_le
  unfold value
  omega

theorem exists_cons (g : Group) : ∃ c cs, g.digits = c :: cs ∧ isHexDigit c = true := by
  cases hd : g.digits with
  | nil =>
      exact absurd hd g.ne_nil
  | cons c cs =>
      exact ⟨c, cs, rfl, g.hex c (by simp [hd])⟩

theorem ne_colon (g : Group) {c : Char} (hc : c ∈ g.digits) : c ≠ ':' :=
  ne_of_hex (g.hex c hc) (by decide)

theorem head_append (g : Group) (cs : List Char) : (g.digits ++ cs).head? ≠ some ':' := by
  obtain ⟨c, ds, hd, hc⟩ := g.exists_cons
  simpa [hd] using ne_of_hex hc (show isHexDigit ':' = false by decide)

theorem getLast_append (g : Group) (cs : List Char) : (cs ++ g.digits).getLast? ≠ some ':' := by
  intro h
  rw [List.getLast?_append_of_ne_nil _ g.ne_nil] at h
  exact g.ne_colon (List.mem_of_getLast? h) rfl

end Group

/-! ## Texts -/

/-- Groups, each after a colon. -/
def colonGroups (gs : List Group) : List Char :=
  gs.flatMap fun g => ':' :: g.digits

/-- Groups with a colon between any two of them. -/
def joinGroups : List Group → List Char
  | [] => []
  | g :: gs => g.digits ++ colonGroups gs

/-- Eight groups, or up to seven groups with one `::` for the zero groups left out. -/
inductive IPv6Text where
  | groups (gs : List Group) (h : gs.length = 8)
  | elided (left right : List Group) (h : left.length + right.length ≤ 7)

namespace IPv6Text

def chars : IPv6Text → List Char
  | .groups gs _ => joinGroups gs
  | .elided left right _ => joinGroups left ++ ':' :: ':' :: joinGroups right

/-- The eight numbers that a text denotes. -/
def values : IPv6Text → List Nat
  | .groups gs _ => gs.map Group.value
  | .elided left right _ =>
      left.map Group.value ++ List.replicate (8 - left.length - right.length) 0 ++
        right.map Group.value

/-- The two bytes of each number, the high one first. -/
def groupBytes (vs : List Nat) : List UInt8 :=
  vs.flatMap fun v => [UInt8.ofNat (v / 256), UInt8.ofNat (v % 256)]

/-- The reference expansion. -/
def bytes (t : IPv6Text) : List UInt8 :=
  groupBytes t.values

end IPv6Text

open IPLocator

/-! ## Colons -/

theorem head_joinGroups (gs : List Group) : (joinGroups gs).head? ≠ some ':' := by
  cases gs with
  | nil =>
      simp [joinGroups]
  | cons g gs =>
      exact g.head_append _

theorem colonGroups_cons (g : Group) (gs : List Group) :
    colonGroups (g :: gs) = ':' :: (g.digits ++ colonGroups gs) := by
  simp [colonGroups]

theorem joinGroups_ne_nil {gs : List Group} (hgs : gs ≠ []) : joinGroups gs ≠ [] := by
  cases gs with
  | nil =>
      exact absurd rfl hgs
  | cons g gs =>
      have := g.ne_nil
      simp [joinGroups, this]

theorem joinGroups_cons (g : Group) {gs : List Group} (hgs : gs ≠ []) :
    joinGroups (g :: gs) = g.digits ++ ':' :: joinGroups gs := by
  cases gs with
  | nil =>
      exact absurd rfl hgs
  | cons g' gs =>
      rw [joinGroups, colonGroups_cons, joinGroups]

/-- Groups each followed by a colon, and one more group. -/
theorem flatMap_digits_append (gs : List Group) (g : Group) :
    (gs.flatMap fun g => g.digits ++ [':']) ++ g.digits = joinGroups (gs ++ [g]) := by
  induction gs with
  | nil =>
      simp [joinGroups, colonGroups]
  | cons g' gs ih =>
      rw [List.cons_append, joinGroups_cons g' (by simp), ← ih]
      simp

theorem flatMap_digits {gs : List Group} (hgs : gs ≠ []) :
    (gs.flatMap fun g => g.digits ++ [':']) = joinGroups gs ++ [':'] := by
  rcases List.eq_nil_or_concat' gs with rfl | ⟨gs, g, rfl⟩
  · exact absurd rfl hgs
  · rw [← flatMap_digits_append, List.flatMap_append]
    simp

theorem getLast_joinGroups (gs : List Group) : (joinGroups gs).getLast? ≠ some ':' := by
  cases gs with
  | nil =>
      simp [joinGroups]
  | cons g gs =>
      rcases List.eq_nil_or_concat' gs with rfl | ⟨gs, g', rfl⟩
      · simpa [joinGroups, colonGroups] using g.getLast_append []
      · have h := g'.getLast_append (g.digits ++ colonGroups gs ++ [':'])
        simpa [joinGroups, colonGroups] using h

theorem findColons_append {f cs : List Char} (hf : ∀ c ∈ f, c ≠ ':') (h : findColons cs = none) :
    findColons (f ++ cs) = none := by
  induction f with
  | nil =>
      exact h
  | cons c f ih =>
      have hc := hf c (List.mem_cons_self ..)
      simp [findColons, hc, ih fun d hd => hf d (List.mem_cons_of_mem c hd)]

theorem findColons_colon {cs : List Char} (hhead : cs.head? ≠ some ':')
    (h : findColons cs = none) : findColons (':' :: cs) = none := by
  simp [findColons, hhead, h]

theorem findColons_colonGroups (gs : List Group) : findColons (colonGroups gs) = none := by
  induction gs with
  | nil =>
      rfl
  | cons g gs ih =>
      rw [colonGroups_cons]
      exact findColons_colon (g.head_append _) (findColons_append (fun c hc => g.ne_colon hc) ih)

theorem findColons_joinGroups (gs : List Group) : findColons (joinGroups gs) = none := by
  cases gs with
  | nil =>
      rfl
  | cons g gs =>
      exact findColons_append (fun c hc => g.ne_colon hc) (findColons_colonGroups gs)

/-- The first `::` after a text without one. -/
theorem findColons_pair {cs : List Char} (hlast : cs.getLast? ≠ some ':')
    (h : findColons cs = none) (ds : List Char) :
    findColons (cs ++ ':' :: ':' :: ds) = some cs.length := by
  induction cs with
  | nil =>
      simp [findColons]
  | cons c cs ih =>
      simp only [findColons] at h
      split_ifs at h with hpair
      have hrest : findColons cs = none := by simpa using h
      -- The last character before the pair is no colon, so the pair is found at its own place.
      cases cs with
      | nil =>
          have hc : c ≠ ':' := by simpa using hlast
          simp [findColons, hc]
      | cons d cs =>
          have hcd : ¬ (c = ':' ∧ d = ':') := by simpa using hpair
          have hind := ih (by simpa using hlast) hrest
          simp only [List.cons_append] at hind ⊢
          rw [findColons]
          simp [hcd, hind]

theorem count_digits (g : Group) : g.digits.count ':' = 0 :=
  List.count_eq_zero.2 fun h => g.ne_colon h rfl

theorem count_colonGroups (gs : List Group) : (colonGroups gs).count ':' = gs.length := by
  induction gs with
  | nil =>
      rfl
  | cons g gs ih =>
      rw [colonGroups_cons, List.count_cons_self, List.count_append, count_digits, ih,
        List.length_cons]
      omega

theorem count_joinGroups (gs : List Group) : (joinGroups gs).count ':' = gs.length - 1 := by
  cases gs with
  | nil =>
      rfl
  | cons g gs =>
      rw [joinGroups, List.count_append, count_digits, count_colonGroups, List.length_cons]
      omega

theorem ne_percent_joinGroups (gs : List Group) : ∀ c ∈ joinGroups gs, c ≠ '%' := by
  have hhex : ∀ (g : Group) (c : Char), c ∈ g.digits → c ≠ '%' :=
    fun g c hc => ne_of_hex (g.hex c hc) (by decide)
  intro c hc
  cases gs with
  | nil =>
      simp [joinGroups] at hc
  | cons g gs =>
      simp only [joinGroups, colonGroups, List.mem_append, List.mem_flatMap, List.mem_cons] at hc
      rcases hc with hc | ⟨g', _, rfl | hc⟩
      · exact hhex g c hc
      · decide
      · exact hhex g' c hc

/-! ## The fields -/

/-- Fields with a colon between any two of them. -/
def joinFields : List (List Char) → List Char
  | [] => []
  | f :: fs => f ++ fs.flatMap (':' :: ·)

theorem joinFields_cons (f : List Char) {fs : List (List Char)} (hfs : fs ≠ []) :
    joinFields (f :: fs) = f ++ ':' :: joinFields fs := by
  cases fs with
  | nil =>
      exact absurd rfl hfs
  | cons f' fs =>
      simp [joinFields]

theorem joinFields_append {fs fs' : List (List Char)} (hfs : fs ≠ []) (hfs' : fs' ≠ []) :
    joinFields (fs ++ fs') = joinFields fs ++ ':' :: joinFields fs' := by
  induction fs with
  | nil =>
      exact absurd rfl hfs
  | cons f fs ih =>
      cases fs with
      | nil =>
          rw [List.singleton_append, joinFields_cons f hfs']
          simp [joinFields]
      | cons f' fs =>
          rw [List.cons_append, joinFields_cons f (by simp), ih (by simp),
            joinFields_cons f (by simp)]
          simp

/-- The fields of some groups; no group at all still is a field, the empty one. -/
def fieldsOf (gs : List Group) : List (List Char) :=
  if gs.isEmpty then [[]] else gs.map Group.digits

theorem fieldsOf_ne_nil (gs : List Group) : fieldsOf gs ≠ [] := by
  cases gs <;> simp [fieldsOf]

theorem joinFields_fieldsOf (gs : List Group) : joinFields (fieldsOf gs) = joinGroups gs := by
  cases gs with
  | nil =>
      rfl
  | cons g gs =>
      simp [fieldsOf, joinFields, joinGroups, colonGroups, List.flatMap_map]

def IPv6Text.fields : IPv6Text → List (List Char)
  | .groups gs _ => fieldsOf gs
  | .elided left right _ => fieldsOf left ++ [] :: fieldsOf right

theorem joinFields_fields (t : IPv6Text) : joinFields t.fields = t.chars := by
  cases t with
  | groups gs h =>
      exact joinFields_fieldsOf gs
  | elided left right h =>
      rw [IPv6Text.fields, joinFields_append (fieldsOf_ne_nil left) (by simp),
        joinFields_cons [] (fieldsOf_ne_nil right), joinFields_fieldsOf, joinFields_fieldsOf]
      rfl

theorem quartet_fieldsOf (gs : List Group) : ∀ f ∈ fieldsOf gs, quartet f = true := by
  intro f hf
  cases gs with
  | nil =>
      have hnil : f = [] := by simpa [fieldsOf] using hf
      subst hnil
      rfl
  | cons g gs =>
      obtain ⟨g', _, rfl⟩ := List.mem_map.1 (show f ∈ (g :: gs).map Group.digits from hf)
      simp only [quartet, Bool.and_eq_true, List.all_eq_true, decide_eq_true_eq]
      exact ⟨g'.hex, g'.length_le⟩

theorem quartet_fields (t : IPv6Text) : ∀ f ∈ t.fields, quartet f = true := by
  intro f hf
  cases t with
  | groups gs h =>
      exact quartet_fieldsOf gs f hf
  | elided left right h =>
      rcases List.mem_append.1 hf with hf | hf
      · exact quartet_fieldsOf left f hf
      · rcases List.mem_cons.1 hf with rfl | hf
        · rfl
        · exact quartet_fieldsOf right f hf

theorem quartet_ne_colon {f : List Char} (h : quartet f = true) : ∀ c ∈ f, c ≠ ':' := by
  intro c hc
  simp only [quartet, Bool.and_eq_true, List.all_eq_true] at h
  exact ne_of_hex (h.1 c hc) (by decide)

/-- A field ends at the colon behind it or with the text. -/
theorem takeWhile_field {f cs : List Char} (hf : ∀ c ∈ f, c ≠ ':')
    (hcs : cs = [] ∨ ∃ ds, cs = ':' :: ds) :
    (f ++ cs).takeWhile (· != ':') = f ∧ (f ++ cs).dropWhile (· != ':') = cs := by
  constructor
  · rw [List.takeWhile_append_of_pos fun c hc => by simpa using hf c hc]
    rcases hcs with rfl | ⟨ds, rfl⟩ <;> simp
  · rw [List.dropWhile_append_of_pos fun c hc => by simpa using hf c hc]
    rcases hcs with rfl | ⟨ds, rfl⟩ <;> simp

/-- One round reads a field and the colon behind it: `get` with an empty result fails, and `clear`
makes the stream good again. -/
theorem fieldsCorrect_cons {f : List Char} (hf : ∀ c ∈ f, c ≠ ':') (rounds : Nat)
    (cs : List Char) :
    fieldsCorrect (rounds + 1) (.ofText (f ++ ':' :: cs)) =
      (quartet f && fieldsCorrect rounds (.ofText cs)) := by
  obtain ⟨htw, hdw⟩ := takeWhile_field hf (Or.inr ⟨cs, rfl⟩)
  have hspace : isSpace ':' = false := by decide
  simp only [fieldsCorrect, InputStream.ofText, InputStream.getUntil, InputStream.good, htw, hdw]
  cases hq : quartet f with
  | false =>
      simp [hq]
  | true =>
      by_cases hnil : f = []
      · subst hnil
        simp [hq, InputStream.clear, InputStream.getChar_cons hspace]
      · have hempty : f.isEmpty = false := by simpa using hnil
        simp [hq, hempty, InputStream.getChar_cons hspace]

/-- The loop accepts the fields of at most four digits: the induction is on the fields, of which the
last one ends with the text. -/
theorem fieldsCorrect_joinFields {fs : List (List Char)} (hne : fs ≠ [])
    (hcolon : ∀ f ∈ fs, ∀ c ∈ f, c ≠ ':') :
    fieldsCorrect fs.length (.ofText (joinFields fs)) = true ↔ ∀ f ∈ fs, quartet f = true := by
  induction fs with
  | nil =>
      exact absurd rfl hne
  | cons f fs ih =>
      have hf := hcolon f (List.mem_cons_self ..)
      cases fs with
      | nil =>
          obtain ⟨htw, _⟩ := takeWhile_field hf (Or.inl (show ([] : List Char) = [] from rfl))
          rw [List.append_nil] at htw
          simp [fieldsCorrect, joinFields, InputStream.ofText, InputStream.getUntil,
            InputStream.good, htw]
      | cons f' fs =>
          have hrest := ih (by simp) fun g hg => hcolon g (List.mem_cons_of_mem f hg)
          rw [joinFields_cons f (by simp), List.length_cons, fieldsCorrect_cons hf,
            Bool.and_eq_true, hrest]
          simp

/-! ## `IPv6isCorrect` -/

namespace IPv6Text

theorem takeWhile_chars (t : IPv6Text) : t.chars.takeWhile (· != '%') = t.chars := by
  rw [List.takeWhile_eq_self_iff]
  intro c hc
  have hne : c ≠ '%' := by
    cases t with
    | groups gs h =>
        exact ne_percent_joinGroups gs c hc
    | elided left right h =>
        rcases List.mem_append.1 hc with hc | hc
        · exact ne_percent_joinGroups left c hc
        · rcases List.mem_cons.1 hc with rfl | hc
          · decide
          · rcases List.mem_cons.1 hc with rfl | hc
            · decide
            · exact ne_percent_joinGroups right c hc
  simpa using hne

theorem length_fieldsOf (gs : List Group) : (fieldsOf gs).length = max gs.length 1 := by
  cases gs with
  | nil =>
      rfl
  | cons g gs =>
      simp [fieldsOf]

/-- There is one colon less than there are fields. -/
theorem count_chars (t : IPv6Text) : t.chars.count ':' + 1 = t.fields.length := by
  cases t with
  | groups gs h =>
      rw [chars, fields, count_joinGroups, length_fieldsOf]
      omega
  | elided left right h =>
      rw [chars, fields, List.count_append, List.count_cons_self, List.count_cons_self,
        count_joinGroups, count_joinGroups, List.length_append, List.length_cons, length_fieldsOf,
        length_fieldsOf]
      omega

theorem head_elided {left right : List Group} {h : left.length + right.length ≤ 7} :
    (elided left right h).chars.head? = some ':' ↔ left = [] := by
  cases left with
  | nil =>
      simp [chars, joinGroups]
  | cons g gs =>
      have := g.head_append (colonGroups gs ++ ':' :: ':' :: joinGroups right)
      simpa [chars, joinGroups] using this

theorem getLast_elided {left right : List Group} {h : left.length + right.length ≤ 7} :
    (elided left right h).chars.getLast? = some ':' ↔ right = [] := by
  cases right with
  | nil =>
      simp [chars, joinGroups]
  | cons g gs =>
      have hne : joinGroups (g :: gs) ≠ [] := joinGroups_ne_nil (by simp)
      have hlast : (elided left (g :: gs) h).chars.getLast? = (joinGroups (g :: gs)).getLast? := by
        rw [chars, ← List.singleton_append (x := ':') (l := ':' :: _),
          ← List.singleton_append (x := ':') (l := joinGroups _), ← List.append_assoc,
          ← List.append_assoc, List.getLast?_append_of_ne_nil _ hne]
      rw [hlast]
      simpa using getLast_joinGroups (g :: gs)

end IPv6Text

/-- The single checks of `IPv6isCorrect` on the text before a `%`. -/
structure Checks (address : List Char) : Prop where
  count_ge : 2 ≤ address.count ':'
  count_le : address.count ':' ≤ 8
  eight : address.count ':' = 8 → address.head? = some ':' ∨ address.getLast? = some ':'
  second : ∀ ind, findColons address = some ind → findColons (address.drop (ind + 1)) = none
  head : address.head? = some ':' → address[1]? = some ':'
  last : address.getLast? = some ':' → address[address.length - 2]? = some ':'
  fields : fieldsCorrect (address.count ':' + 1) (.ofText address) = true

theorem IPv6isCorrect_eq_true (cs : List Char) :
    IPv6isCorrect cs = true ↔ Checks (cs.takeWhile (· != '%')) := by
  unfold IPv6isCorrect
  dsimp only
  constructor
  · intro h
    split_ifs at h with hcount height hsecond hhead hlast
    refine ⟨by omega, by omega, ?_, ?_, ?_, ?_, h⟩
    · intro hc
      by_contra hends
      rw [not_or] at hends
      exact height ⟨hc, hends⟩
    · intro ind hind
      simpa [hind] using hsecond
    · intro hc
      by_contra hnext
      exact hhead ⟨hc, hnext⟩
    · intro hc
      by_contra hprev
      exact hlast ⟨hc, hprev⟩
  · intro h
    have hge := h.count_ge
    have hle := h.count_le
    rw [if_neg (by omega), if_neg ?_, if_neg ?_, if_neg fun hc => hc.2 (h.head hc.1),
      if_neg fun hc => hc.2 (h.last hc.1), h.fields]
    · cases hind : findColons (cs.takeWhile (· != '%')) with
      | none =>
          simp
      | some ind =>
          simp [h.second ind hind]
    · rintro ⟨height, hhead, hlast⟩
      rcases h.eight height with hc | hc
      · exact hhead hc
      · exact hlast hc

/-- Three groups or more, and no more than eight. -/
theorem checks_joinGroups {gs : List Group} (hge : 3 ≤ gs.length) (hle : gs.length ≤ 8) :
    Checks (joinGroups gs) where
  count_ge := by
    rw [count_joinGroups]
    omega
  count_le := by
    rw [count_joinGroups]
    omega
  eight := by
    rw [count_joinGroups]
    omega
  second := by
    intro ind hind
    rw [findColons_joinGroups] at hind
    cases hind
  head hc := absurd hc (head_joinGroups gs)
  last hc := absurd hc (getLast_joinGroups gs)
  fields := by
    have hlength : (joinGroups gs).count ':' + 1 = (fieldsOf gs).length := by
      rw [count_joinGroups, IPv6Text.length_fieldsOf]
      omega
    rw [hlength, ← joinFields_fieldsOf]
    exact (fieldsCorrect_joinFields (fieldsOf_ne_nil gs) fun f hf =>
      quartet_ne_colon (quartet_fieldsOf gs f hf)).2 (quartet_fieldsOf gs)

/-- Two to eight colons; eight only with `::` at one of the ends. -/
theorem count_elided {left right : List Group} {h : left.length + right.length ≤ 7} :
    2 ≤ (IPv6Text.elided left right h).chars.count ':' ∧
      (IPv6Text.elided left right h).chars.count ':' ≤ 8 ∧
      ((IPv6Text.elided left right h).chars.count ':' = 8 → left = [] ∨ right = []) := by
  have hcount := (IPv6Text.elided left right h).count_chars
  rw [IPv6Text.fields, List.length_append, List.length_cons, IPv6Text.length_fieldsOf,
    IPv6Text.length_fieldsOf] at hcount
  refine ⟨by omega, by omega, ?_⟩
  intro height
  rcases Nat.eq_zero_or_pos left.length with hl | hl
  · exact Or.inl (List.length_eq_zero_iff.1 hl)
  · refine Or.inr (List.length_eq_zero_iff.1 ?_)
    omega

theorem checks_elided {left right : List Group} {h : left.length + right.length ≤ 7} :
    Checks (IPv6Text.elided left right h).chars where
  count_ge := count_elided.1
  count_le := count_elided.2.1
  eight := by
    rw [IPv6Text.head_elided, IPv6Text.getLast_elided]
    exact count_elided.2.2
  second := by
    intro ind hind
    have hpair : findColons (IPv6Text.elided left right h).chars = some (joinGroups left).length :=
      findColons_pair (getLast_joinGroups left) (findColons_joinGroups left) _
    rw [hpair] at hind
    cases hind
    rw [IPv6Text.chars, ← List.drop_drop, List.drop_left]
    exact findColons_colon (head_joinGroups right) (findColons_joinGroups right)
  head := by
    intro hhead
    rw [IPv6Text.head_elided] at hhead
    subst hhead
    rfl
  last := by
    intro hlast
    rw [IPv6Text.getLast_elided] at hlast
    subst hlast
    simp [IPv6Text.chars, joinGroups]
  fields := by
    have hcount := (IPv6Text.elided left right h).count_chars
    have hne : (IPv6Text.elided left right h).fields ≠ [] := by simp [IPv6Text.fields]
    rw [hcount, ← joinFields_fields]
    exact (fieldsCorrect_joinFields hne fun f hf =>
      quartet_ne_colon (quartet_fields _ f hf)).2 (quartet_fields _)

theorem IPv6Text.checks (t : IPv6Text) : Checks t.chars := by
  cases t with
  | groups gs h =>
      exact checks_joinGroups (by omega) (by omega)
  | elided left right h =>
      exact checks_elided

/-- `IPv6isCorrect` accepts the texts of IPv6 addresses. -/
theorem IPv6isCorrect_chars (t : IPv6Text) : IPv6isCorrect t.chars = true := by
  rw [IPv6isCorrect_eq_true, t.takeWhile_chars]
  exact t.checks

end Rtps
end Mozi
