import Mozi.Foundation.Numerals

/-!
# HexExtractions — texts taken to the end

A chain `ss >> std::hex >> v >> ch >> v …` into one variable, with a check of every number.  The
chain need not succeed: an extraction at the end of the text leaves the variable as it is.
`exhausts` states that the chain passes its checks and leaves nothing of the text, and `Taken`
describes these texts piece by piece (`exhausts_iff`).
-/

namespace Mozi
namespace Foundation
namespace InputStream

/-- `>> v` with a check of the number, or `>> ch`. -/
inductive Checked where
  | number (ok : Nat → Bool)
  | mark

variable {es : List Checked} {v old : Option Nat} {cs ds rest blanks sign : List Char}

/-- The chain leaves nothing, and every check passes. -/
def exhausts : List Checked → Option Nat → InputStream → Prop
  | [], _, s => s.rest = []
  | .number ok :: es, v, s =>
      (s.getUInt32 16 v).1.any ok = true ∧
        exhausts es (s.getUInt32 16 v).1 (s.getUInt32 16 v).2
  | .mark :: es, v, s => exhausts es v s.getChar.2

/-- The value passes every check of the chain. -/
def AllPass (es : List Checked) (v : Option Nat) : Prop :=
  ∀ ok, .number ok ∈ es → v.any ok = true

theorem allPass_number {ok : Nat → Bool} :
    AllPass (.number ok :: es) v ↔ v.any ok = true ∧ AllPass es v := by
  simp [AllPass]

theorem allPass_mark : AllPass (.mark :: es) v ↔ AllPass es v := by
  simp [AllPass]

/-! ## The end of the stream -/

theorem getUInt32_bad {s : InputStream} (hs : s.good = false) (v : Option Nat) :
    getUInt32 16 s v = (v, { s with fail := true }) := by
  simp [getUInt32, sentry, hs]

theorem getChar_bad {s : InputStream} (hs : s.good = false) :
    s.getChar = (none, { s with fail := true }) := by
  simp [getChar, sentry, hs]

/-- Nothing is taken from a stream that is not good any more. -/
theorem exhausts_bad {s : InputStream} (hs : s.good = false) :
    exhausts es v s ↔ s.rest = [] ∧ AllPass es v := by
  induction es generalizing s with
  | nil =>
      simp [exhausts, AllPass]
  | cons e es ih =>
      have hbad : ({ s with fail := true } : InputStream).good = false := by simp [good]
      cases e with
      | number ok =>
          rw [exhausts, getUInt32_bad hs, ih hbad, allPass_number]
          constructor
          · rintro ⟨hok, hrest, hall⟩
            exact ⟨hrest, hok, hall⟩
          · rintro ⟨hrest, hok, hall⟩
            exact ⟨hok, hrest, hall⟩
      | mark =>
          rw [exhausts, getChar_bad hs, ih hbad, allPass_mark]

theorem sentry_blank (hcs : Blank cs) : sentry ⟨cs, false, false⟩ = (false, ⟨[], true, true⟩) := by
  have hdrop : cs.dropWhile isSpace = [] := by
    rw [List.dropWhile_eq_nil_iff]
    exact hcs
  simp [sentry, good, hdrop]

/-- The end of the text is found behind blanks. -/
theorem exhausts_blank (hcs : Blank cs) (hes : es = [] → cs = []) :
    exhausts es v ⟨cs, false, false⟩ ↔ AllPass es v := by
  cases es with
  | nil =>
      simp [exhausts, AllPass, hes rfl]
  | cons e es =>
      have hbad : (⟨[], true, true⟩ : InputStream).good = false := rfl
      cases e with
      | number ok =>
          have hread : getUInt32 16 ⟨cs, false, false⟩ v = (v, ⟨[], true, true⟩) := by
            simp [getUInt32, sentry_blank hcs]
          simp [exhausts, hread, exhausts_bad hbad, allPass_number]
      | mark =>
          have hread : getChar ⟨cs, false, false⟩ = (none, ⟨[], true, true⟩) := by
            simp [getChar, sentry_blank hcs]
          simp [exhausts, hread, exhausts_bad hbad, allPass_mark]

/-- Whether the end of the buffer has been seen does not matter. -/
theorem exhausts_eof {eof : Bool} (heof : eof = true → cs = []) :
    exhausts es v ⟨cs, eof, false⟩ ↔ exhausts es v ⟨cs, false, false⟩ := by
  cases eof with
  | false =>
      rfl
  | true =>
      obtain rfl := heof rfl
      rw [exhausts_bad (by rfl), exhausts_blank (by simp [Blank]) (by simp)]
      simp

/-! ## Characters that no number takes -/

theorem countP_dropWhile {p q : Char → Bool} (hq : ∀ c, q c = true → p c = false) (cs : List Char) :
    (cs.dropWhile q).countP p = cs.countP p := by
  induction cs with
  | nil =>
      rfl
  | cons c cs ih =>
      rw [List.dropWhile_cons]
      split_ifs with hc
      · rw [ih, List.countP_cons_of_neg (by simp [hq c hc])]
      · rfl

theorem countP_readDigits {p : Char → Bool} (hp : ∀ c, isHexDigit c = true → p c = false)
    (cs : List Char) (acc count : Nat) :
    (readDigits 16 acc count cs).2.2.countP p = cs.countP p := by
  induction cs generalizing acc count with
  | nil =>
      rfl
  | cons c cs ih =>
      rw [readDigits]
      cases hd : digitVal 16 c with
      | none =>
          rfl
      | some d =>
          have hc : p c = false := hp c (by simp [isHexDigit, hd])
          rw [ih, List.countP_cons_of_neg (by simp [hc])]

/-- A character that is none of those a number is written with. -/
structure NoNumeral (p : Char → Bool) : Prop where
  space : ∀ c, isSpace c = true → p c = false
  hex : ∀ c, isHexDigit c = true → p c = false
  sign : p '+' = false ∧ p '-' = false
  pre : p 'x' = false ∧ p 'X' = false

theorem NoNumeral.countP_readSign {p : Char → Bool} (hp : NoNumeral p) (cs : List Char) :
    (readSign cs).2.countP p = cs.countP p := by
  unfold readSign
  split
  · rw [List.countP_cons_of_neg (by simp [hp.sign])]
  · rw [List.countP_cons_of_neg (by simp [hp.sign])]
  · rfl

theorem NoNumeral.countP_skipPrefix {p : Char → Bool} (hp : NoNumeral p) (cs : List Char) :
    (skipPrefix cs).countP p = cs.countP p := by
  have hzero : p '0' = false := hp.hex '0' (by decide)
  unfold skipPrefix
  split
  · rw [List.countP_cons_of_neg (by simp [hzero]), List.countP_cons_of_neg (by simp [hp.pre])]
  · rw [List.countP_cons_of_neg (by simp [hzero]), List.countP_cons_of_neg (by simp [hp.pre])]
  · rfl

theorem NoNumeral.countP_sentry {p : Char → Bool} (hp : NoNumeral p) (s : InputStream) :
    s.sentry.2.rest.countP p = s.rest.countP p := by
  have hdrop := countP_dropWhile hp.space s.rest
  unfold sentry
  split_ifs with hgood
  · cases h : s.rest.dropWhile isSpace with
    | nil =>
        rw [h] at hdrop
        exact hdrop
    | cons c cs =>
        rw [h] at hdrop
        exact hdrop
  · rfl

theorem NoNumeral.countP_getUInt32 {p : Char → Bool} (hp : NoNumeral p) (s : InputStream)
    (v : Option Nat) : (s.getUInt32 16 v).2.rest.countP p = s.rest.countP p := by
  rw [← hp.countP_sentry s]
  unfold getUInt32
  rcases s.sentry with ⟨ok, s'⟩
  cases ok with
  | false =>
      rfl
  | true =>
      have hdigits :
          (readDigits 16 0 0 (skipPrefix (readSign s'.rest).2)).2.2.countP p =
            s'.rest.countP p := by
        rw [countP_readDigits hp.hex, hp.countP_skipPrefix, hp.countP_readSign]
      have hrest : (readNumber 16 s'.rest).2.2.countP p = s'.rest.countP p := by
        simp only [readNumber, if_true]
        split_ifs <;> exact hdigits
      exact hrest

/-- `>> ch` takes at most one of them. -/
theorem NoNumeral.countP_getChar {p : Char → Bool} (hp : NoNumeral p) (s : InputStream) :
    s.rest.countP p ≤ s.getChar.2.rest.countP p + 1 := by
  rw [← hp.countP_sentry s]
  unfold getChar
  rcases s.sentry with ⟨ok, s'⟩
  cases ok with
  | false =>
      exact Nat.le_succ _
  | true =>
      show s'.rest.countP p ≤ s'.rest.tail.countP p + 1
      cases s'.rest with
      | nil =>
          simp
      | cons c cs =>
          rw [List.countP_cons, List.tail_cons]
          split_ifs <;> omega

def Checked.isMark : Checked → Bool
  | .number _ => false
  | .mark => true

/-- A text that is taken to the end has no more of them than the chain has characters. -/
theorem exhausts_count {p : Char → Bool} (hp : NoNumeral p) {s : InputStream}
    (h : exhausts es v s) : s.rest.countP p ≤ es.countP Checked.isMark := by
  induction es generalizing v s with
  | nil =>
      have hrest : s.rest = [] := h
      simp [hrest]
  | cons e es ih =>
      cases e with
      | number ok =>
          have hrest := ih h.2
          rw [hp.countP_getUInt32] at hrest
          rw [List.countP_cons_of_neg (by simp [Checked.isMark])]
          exact hrest
      | mark =>
          have hrest := ih h
          have hmark := hp.countP_getChar s
          rw [List.countP_cons_of_pos (by rfl)]
          omega

/-! ## The texts -/

/-- The value of a text of hexadecimal digits. -/
def hexValue (ds : List Char) : Nat :=
  ds.foldl (fun acc c => acc * 16 + (digitVal 16 c).getD 0) 0

/-- The prefix of a hexadecimal number. -/
inductive HexPrefix : List Char → Prop
  | none : HexPrefix []
  | lower : HexPrefix ['0', 'x']
  | upper : HexPrefix ['0', 'X']

/-- The digits before `rest` are all there are, and a 0 that an `x` follows is no digit. -/
structure HexDigits (pre ds rest : List Char) : Prop where
  hexPrefix : HexPrefix pre
  digits : ∀ c ∈ ds, isHexDigit c = true
  stop : ∀ c, rest.head? = some c → isHexDigit c = false
  zero : pre = [] → ds = ['0'] → rest.head? ≠ some 'x' ∧ rest.head? ≠ some 'X'

/-- A text that `>> v` takes for a number before `rest`, and the value it stores. -/
def HexNumeral (t rest : List Char) (v : Nat) : Prop :=
  ∃ blanks sign neg pre ds, t = blanks ++ (sign ++ (pre ++ ds)) ∧ Blank blanks ∧ Sign sign neg ∧
    HexDigits pre ds rest ∧ ds ≠ [] ∧ hexValue ds < 2 ^ 32 ∧
    v = if neg then u32 (2 ^ 32 - hexValue ds) else hexValue ds

/-- A text that `>> v` takes to its end without finding a number of the type: a sign or a prefix
alone, or a number that is too large.  The value is the one that is stored. -/
def HexBroken (t : List Char) (v : Nat) : Prop :=
  ∃ blanks sign neg pre ds, t = blanks ++ (sign ++ (pre ++ ds)) ∧ Blank blanks ∧ Sign sign neg ∧
    HexDigits pre ds [] ∧ sign ++ (pre ++ ds) ≠ [] ∧
    (ds = [] ∧ v = 0 ∨ 2 ^ 32 ≤ hexValue ds ∧ v = 2 ^ 32 - 1)

/-- The pieces of a text that a chain takes to its end, for a variable with the value `v`. -/
inductive Taken : List Checked → Option Nat → List Char → Prop
  | blank {es : List Checked} {v : Option Nat} {cs : List Char} :
      Blank cs → (es = [] → cs = []) → AllPass es v → Taken es v cs
  | mark {es : List Checked} {v : Option Nat} {t cs : List Char} {c : Char} :
      Mark t c → Taken es v cs → Taken (.mark :: es) v (t ++ cs)
  | number {es : List Checked} {v : Option Nat} {t cs : List Char} {w : Nat} {ok : Nat → Bool} :
      HexNumeral t cs w → ok w = true → Taken es (some w) cs → Taken (.number ok :: es) v (t ++ cs)
  | broken {es : List Checked} {v : Option Nat} {t : List Char} {w : Nat} {ok : Nat → Bool} :
      HexBroken t w → ok w = true → AllPass es (some w) → Taken (.number ok :: es) v t

/-! ## Hexadecimal numbers -/

theorem not_zero_x (h : HexDigits [] ds rest) {x : Char} (hx : x = 'x' ∨ x = 'X') :
    ds ++ rest ≠ '0' :: x :: cs := by
  intro heq
  cases ds with
  | nil =>
      have hzero := h.stop '0' (by rw [show rest = _ from heq]; rfl)
      exact absurd hzero (by decide)
  | cons d ds =>
      obtain ⟨rfl, htail⟩ := List.cons.inj heq
      cases ds with
      | nil =>
          obtain ⟨hlower, hupper⟩ := h.zero rfl rfl
          rw [show rest = _ from htail] at hlower hupper
          rcases hx with rfl | rfl
          · exact hlower rfl
          · exact hupper rfl
      | cons d ds =>
          obtain ⟨rfl, _⟩ := List.cons.inj htail
          have hd := h.digits d (by simp)
          rcases hx with rfl | rfl
          · exact absurd hd (by decide)
          · exact absurd hd (by decide)

theorem skipPrefix_digits {pre : List Char} (h : HexDigits pre ds rest) :
    skipPrefix (pre ++ (ds ++ rest)) = ds ++ rest := by
  have hpre := h.hexPrefix
  cases hpre with
  | lower =>
      rfl
  | upper =>
      rfl
  | none =>
      rw [List.nil_append]
      unfold skipPrefix
      split
      · rename_i heq
        exact absurd heq (not_zero_x h (Or.inl rfl))
      · rename_i heq
        exact absurd heq (not_zero_x h (Or.inr rfl))
      · rfl

/-- What `num_get` makes of the digits behind a sign and a prefix. -/
theorem readNumber_hex {pre : List Char} {neg : Bool} (h : HexDigits pre ds rest)
    (hsign : readSign cs = (neg, pre ++ (ds ++ rest))) :
    readNumber 16 cs =
      if ds.length = 0 then (0, true, rest)
      else if hexValue ds > 2 ^ 32 - 1 then (2 ^ 32 - 1, true, rest)
      else (if neg then u32 (2 ^ 32 - hexValue ds) else hexValue ds, false, rest) := by
  simp only [readNumber, hsign, if_true, skipPrefix_digits h,
    readDigits_append h.digits h.stop, Nat.zero_add]
  rfl

/-- The first character of a number is a sign or a digit. -/
theorem head_number {neg : Bool} {pre : List Char} (hsign : Sign sign neg)
    (h : HexDigits pre ds rest) (hne : sign ++ (pre ++ ds) ≠ []) :
    ∃ c cs, sign ++ (pre ++ (ds ++ rest)) = c :: cs ∧ isSpace c = false := by
  cases hsign with
  | plus =>
      exact ⟨'+', _, rfl, by decide⟩
  | minus =>
      exact ⟨'-', _, rfl, by decide⟩
  | none =>
      have hpre := h.hexPrefix
      cases hpre with
      | lower =>
          exact ⟨'0', _, rfl, by decide⟩
      | upper =>
          exact ⟨'0', _, rfl, by decide⟩
      | none =>
          obtain ⟨d, ds', rfl⟩ := List.exists_cons_of_ne_nil (show ds ≠ [] from hne)
          exact ⟨d, _, rfl, not_isSpace_of_hex (h.digits d (by simp))⟩

theorem readSign_number {neg : Bool} {pre : List Char} (hsign : Sign sign neg)
    (h : HexDigits pre ds rest) (hne : sign ++ (pre ++ ds) ≠ []) :
    readSign (sign ++ (pre ++ (ds ++ rest))) = (neg, pre ++ (ds ++ rest)) := by
  cases hsign with
  | plus =>
      rfl
  | minus =>
      rfl
  | none =>
      have hpre := h.hexPrefix
      cases hpre with
      | lower =>
          rfl
      | upper =>
          rfl
      | none =>
          obtain ⟨d, ds', rfl⟩ := List.exists_cons_of_ne_nil (show ds ≠ [] from hne)
          exact readSign_hex (h.digits d (by simp))

theorem sentry_append (hblank : Blank blanks) {c : Char} (hc : isSpace c = false) :
    sentry ⟨blanks ++ c :: cs, false, false⟩ = (true, ⟨c :: cs, false, false⟩) := by
  have hdrop : (blanks ++ c :: cs).dropWhile isSpace = c :: cs := by
    apply dropWhile_blank hblank
    intro d hd
    cases hd
    exact hc
  simp [sentry, good, hdrop]

/-- `>> v` at the pieces of a number. -/
theorem getUInt32_pieces {neg : Bool} {pre : List Char} (hblank : Blank blanks)
    (hsign : Sign sign neg) (h : HexDigits pre ds rest) (hne : sign ++ (pre ++ ds) ≠ []) {w : Nat}
    (hw : w = if neg then u32 (2 ^ 32 - hexValue ds) else hexValue ds) (old : Option Nat) :
    getUInt32 16 ⟨blanks ++ (sign ++ (pre ++ (ds ++ rest))), false, false⟩ old =
      if ds.length = 0 then (some 0, ⟨rest, rest.isEmpty, true⟩)
      else if hexValue ds > 2 ^ 32 - 1 then (some (2 ^ 32 - 1), ⟨rest, rest.isEmpty, true⟩)
      else (some w, ⟨rest, rest.isEmpty, false⟩) := by
  subst hw
  have hread := readNumber_hex h (readSign_number hsign h hne)
  obtain ⟨c, cs, htext, hc⟩ := head_number hsign h hne
  rw [htext] at hread ⊢
  simp only [getUInt32, sentry_append hblank hc, hread]
  split_ifs <;> rfl

theorem exists_prefix (cs : List Char) : ∃ pre, cs = pre ++ skipPrefix cs ∧ HexPrefix pre := by
  unfold skipPrefix
  split
  · exact ⟨_, rfl, .lower⟩
  · exact ⟨_, rfl, .upper⟩
  · exact ⟨[], rfl, .none⟩

/-- As much of a text as is a prefix and digits. -/
theorem exists_hexDigits (cs : List Char) :
    ∃ pre ds rest, cs = pre ++ (ds ++ rest) ∧ HexDigits pre ds rest := by
  obtain ⟨pre, hpre, hprefix⟩ := exists_prefix cs
  refine ⟨pre, (skipPrefix cs).takeWhile isHexDigit, (skipPrefix cs).dropWhile isHexDigit, ?_,
    hprefix, fun c hc => List.mem_takeWhile_imp hc, ?_, ?_⟩
  · rw [List.takeWhile_append_dropWhile]
    exact hpre
  · intro c hc
    have hhead := List.head?_dropWhile_not isHexDigit (skipPrefix cs)
    rw [hc] at hhead
    simpa using hhead
  · -- Without a prefix the text is what is left, so an `x` behind a 0 would be a prefix.
    rintro rfl hds
    rw [List.nil_append] at hpre
    have hcs : cs = '0' :: (skipPrefix cs).dropWhile isHexDigit := by
      calc
        cs = skipPrefix cs := hpre
        _ = (skipPrefix cs).takeWhile isHexDigit ++ (skipPrefix cs).dropWhile isHexDigit :=
          List.takeWhile_append_dropWhile.symm
        _ = _ := by rw [hds]; rfl
    have hlength : ∀ x tail, (skipPrefix cs).dropWhile isHexDigit = x :: tail →
        skipPrefix ('0' :: x :: tail) ≠ tail := by
      intro x tail htail heq
      rw [htail] at hcs
      rw [← hcs, ← hpre, hcs] at heq
      have hlen := congrArg List.length heq
      simp only [List.length_cons] at hlen
      omega
    constructor <;>
    · intro hx
      obtain ⟨tail, htail⟩ := List.head?_eq_some_iff.1 hx
      exact hlength _ tail htail rfl

/-- Blanks, or a character that no number starts with, or the pieces of a number. -/
theorem hex_cases (cs : List Char) :
    Blank cs ∨
      (∃ rest, rest ≠ [] ∧ ∀ old,
        getUInt32 16 ⟨cs, false, false⟩ old = (some 0, ⟨rest, false, true⟩)) ∨
      ∃ blanks sign neg pre ds rest, cs = blanks ++ (sign ++ (pre ++ (ds ++ rest))) ∧
        Blank blanks ∧ Sign sign neg ∧ HexDigits pre ds rest ∧ sign ++ (pre ++ ds) ≠ [] := by
  obtain ⟨blanks, hcs, hblank⟩ := exists_blank cs
  obtain ⟨sign, tail, htext, hsign, hread⟩ := exists_sign (cs.dropWhile isSpace)
  obtain ⟨pre, ds, rest, rfl, hdigits⟩ := exists_hexDigits tail
  by_cases hne : sign ++ (pre ++ ds) = []
  · obtain ⟨rfl, hpre⟩ := List.append_eq_nil_iff.1 hne
    obtain ⟨rfl, rfl⟩ := List.append_eq_nil_iff.1 hpre
    simp only [List.nil_append] at htext hread
    cases rest with
    | nil =>
        rw [htext, List.append_nil] at hcs
        exact Or.inl (hcs ▸ hblank)
    | cons c rest =>
        refine Or.inr (Or.inl ⟨c :: rest, by simp, ?_⟩)
        intro old
        have hc : isSpace c = false := by
          have hhead := List.head?_dropWhile_not isSpace cs
          rw [htext] at hhead
          simpa using hhead
        have hsigned : readSign (c :: rest) = (_, [] ++ ([] ++ c :: rest)) :=
          Prod.ext rfl (htext ▸ hread)
        have hnumber := readNumber_hex hdigits hsigned
        rw [hcs, htext]
        simp only [getUInt32, sentry_append hblank hc, hnumber, List.length_nil, if_true,
          List.isEmpty_cons]
  · refine Or.inr (Or.inr ⟨blanks, sign, _, pre, ds, rest, ?_, hblank, hsign, hdigits, hne⟩)
    rw [← htext]
    exact hcs

/-! ## Exhausted texts -/

/-- The induction is on the chain: what an extraction leaves is a good stream again, or has come to
its end. -/
theorem taken_of_exhausts (h : exhausts es v ⟨cs, false, false⟩) : Taken es v cs := by
  induction es generalizing v cs with
  | nil =>
      obtain rfl : cs = [] := h
      exact .blank (by simp [Blank]) (fun _ => rfl) (by simp [AllPass])
  | cons e es ih =>
      by_cases hblank : Blank cs
      · exact .blank hblank (by simp) ((exhausts_blank hblank (by simp)).1 h)
      · cases e with
        | number ok =>
            rcases hex_cases cs with hblank' | ⟨rest, hne, hread⟩ |
              ⟨blanks, sign, neg, pre, ds, rest, rfl, hbefore, hsign, hdigits, hne⟩
            · exact absurd hblank' hblank
            · rw [exhausts, hread, exhausts_bad (by rfl)] at h
              exact absurd h.2.1 hne
            · obtain ⟨w, hw⟩ : ∃ w, w = if neg then u32 (2 ^ 32 - hexValue ds) else hexValue ds :=
                ⟨_, rfl⟩
              rw [exhausts, getUInt32_pieces hbefore hsign hdigits hne hw] at h
              split_ifs at h with hzero hlarge
              · rw [exhausts_bad (by simp [good])] at h
                obtain ⟨hok, rfl, hall⟩ := h
                obtain rfl := List.length_eq_zero_iff.1 hzero
                exact .broken ⟨blanks, sign, neg, pre, [], by simp, hbefore, hsign, hdigits, hne,
                  Or.inl ⟨rfl, rfl⟩⟩ hok hall
              · rw [exhausts_bad (by simp [good])] at h
                obtain ⟨hok, rfl, hall⟩ := h
                exact .broken ⟨blanks, sign, neg, pre, ds, by simp, hbefore, hsign, hdigits, hne,
                  Or.inr ⟨by omega, rfl⟩⟩ hok hall
              · have hnumber : HexNumeral (blanks ++ (sign ++ (pre ++ ds))) rest w :=
                  ⟨blanks, sign, neg, pre, ds, rfl, hbefore, hsign, hdigits,
                    by simpa using hzero, by omega, hw⟩
                have htext : blanks ++ (sign ++ (pre ++ (ds ++ rest))) =
                    blanks ++ (sign ++ (pre ++ ds)) ++ rest := by simp
                rw [htext]
                exact .number hnumber h.1 (ih ((exhausts_eof (by simp)).1 h.2))
        | mark =>
            obtain ⟨t, c, tail, rfl, hmark⟩ := exists_mark hblank
            rw [exhausts, getChar_mark hmark] at h
            exact .mark hmark (ih h)

theorem exhausts_of_taken (h : Taken es v cs) : exhausts es v ⟨cs, false, false⟩ := by
  induction h with
  | blank hblank hes hall =>
      exact (exhausts_blank hblank hes).2 hall
  | mark hmark _ ih =>
      rw [exhausts, getChar_mark hmark]
      exact ih
  | number hnumber hok _ ih =>
      obtain ⟨blanks, sign, neg, pre, ds, rfl, hblank, hsign, hdigits, hne, hlt, hw⟩ := hnumber
      have hlength : ds.length ≠ 0 := by simpa using hne
      have hread := getUInt32_pieces hblank hsign hdigits (by simp [hne]) hw
      rw [exhausts]
      simp only [List.append_assoc, hread]
      rw [if_neg hlength, if_neg (by omega)]
      exact ⟨hok, (exhausts_eof (by simp)).2 ih⟩
  | broken hbroken hok hall =>
      obtain ⟨blanks, sign, neg, pre, ds, rfl, hblank, hsign, hdigits, hne, hvalue⟩ := hbroken
      have hread := getUInt32_pieces hblank hsign hdigits hne rfl
      rw [List.append_nil] at hread
      rw [exhausts, hread]
      rcases hvalue with ⟨rfl, rfl⟩ | ⟨hlarge, rfl⟩
      · rw [if_pos (by rfl), exhausts_bad (by rfl)]
        exact ⟨hok, rfl, hall⟩
      · have hlength : ds.length ≠ 0 := by
          intro hzero
          obtain rfl := List.length_eq_zero_iff.1 hzero
          exact absurd hlarge (by decide)
        rw [if_neg hlength, if_pos (by omega), exhausts_bad (by rfl)]
        exact ⟨hok, rfl, hall⟩

/-- A chain exhausts the texts of its pieces. -/
theorem exhausts_iff : exhausts es v ⟨cs, false, false⟩ ↔ Taken es v cs :=
  ⟨taken_of_exhausts, exhausts_of_taken⟩

end InputStream
end Foundation
end Mozi
