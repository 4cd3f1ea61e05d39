import Mozi.Foundation.Integers

/-!
# Extractions — chains `ss >> a >> ch >> b …`

A chain of extractions of numbers and characters, whatever the type of the numbers.  `Reads`
describes the texts piece by piece; `extract_ok` and `extract_reads` state that a chain succeeds on
exactly these, and with their numbers.
-/

namespace Mozi
namespace Foundation
namespace InputStream

/-- `>> v` for a number, or `>> ch`. -/
inductive Extraction where
  | number
  | mark
deriving DecidableEq

variable {V : Type} {read : InputStream → Option V → Option V × InputStream}
  {Number : List Char → V → Prop} {es : List Extraction} {cs rest : List Char} {vs : List V}

/-- The extractions of a chain; `read` extracts a number, and no variable has a value before. -/
def extract (read : InputStream → Option V → Option V × InputStream) :
    List Extraction → InputStream → List (Option V) × InputStream
  | [], s => ([], s)
  | .number :: es, s =>
      let (v, s) := read s none
      let (vs, s) := extract read es s
      (v :: vs, s)
  | .mark :: es, s => extract read es s.getChar.2

/-- The chain takes the pieces of a text, with these numbers, and leaves a rest. -/
inductive Reads (Number : List Char → V → Prop) :
    List Extraction → List Char → List V → List Char → Prop
  | done {rest : List Char} : Reads Number [] rest [] rest
  | number {es : List Extraction} {t cs rest : List Char} {v : V} {vs : List V} :
      Number t v → NoDigit cs → Reads Number es cs vs rest →
        Reads Number (.number :: es) (t ++ cs) (v :: vs) rest
  | mark {es : List Extraction} {t cs rest : List Char} {c : Char} {vs : List V} :
      Mark t c → Reads Number es cs vs rest → Reads Number (.mark :: es) (t ++ cs) vs rest

theorem reads_done {text : List Char} :
    Reads Number [] text vs rest ↔ vs = [] ∧ text = rest := by
  constructor
  · intro h
    cases h
    exact ⟨rfl, rfl⟩
  · rintro ⟨rfl, rfl⟩
    exact .done

theorem reads_number {text : List Char} {v : V} :
    Reads Number (.number :: es) text (v :: vs) rest ↔
      ∃ t cs, text = t ++ cs ∧ Number t v ∧ NoDigit cs ∧ Reads Number es cs vs rest := by
  constructor
  · intro h
    cases h with
    | number ht hno h =>
        exact ⟨_, _, rfl, ht, hno, h⟩
  · rintro ⟨t, cs, rfl, ht, hno, h⟩
    exact .number ht hno h

theorem reads_mark {text : List Char} :
    Reads Number (.mark :: es) text vs rest ↔
      ∃ t cs c, text = t ++ cs ∧ Mark t c ∧ Reads Number es cs vs rest := by
  constructor
  · intro h
    cases h with
    | mark ht h =>
        exact ⟨_, _, _, rfl, ht, h⟩
  · rintro ⟨t, cs, c, rfl, ht, h⟩
    exact .mark ht h

theorem Reads.length_eq {text : List Char} (h : Reads Number es text vs rest) :
    vs.length = es.count .number := by
  induction h with
  | done =>
      rfl
  | number _ _ _ ih =>
      rw [List.length_cons, List.count_cons_self, ih]
  | mark _ _ ih =>
      rw [List.count_cons_of_ne (by decide), ih]

/-- `read` extracts the numbers that `Number` describes, and fails on every other text. -/
structure Extracts (read : InputStream → Option V → Option V × InputStream)
    (Number : List Char → V → Prop) : Prop where
  ne_nil : ∀ {t v}, Number t v → t ≠ []
  take : ∀ {t v rest}, Number t v → NoDigit rest →
    read ⟨t ++ rest, false, false⟩ none = (some v, ⟨rest, rest.isEmpty, false⟩)
  ok : ∀ {s}, (read s none).2.fail = false → s.fail = false ∧ ∃ t rest v, s.rest = t ++ rest ∧
    Number t v ∧ NoDigit rest ∧ read s none = (some v, ⟨rest, rest.isEmpty, false⟩)

theorem extracts_getUnsigned (width : Nat) :
    Extracts (getUnsigned width 10) (Numeral width) where
  ne_nil := by
    rintro t v ⟨blanks, sign, neg, ds, rfl, _, _, hne, _⟩
    simp [hne]
  take ht hrest := getUnsigned_numeral ht hrest none
  ok h := getUnsigned_ok h

theorem extracts_getSigned (width : Nat) :
    Extracts (getSigned width 10) (IntNumeral width) where
  ne_nil := by
    rintro t v ⟨blanks, sign, neg, ds, rfl, _, _, hne, _⟩
    simp [hne]
  take ht hrest := getSigned_numeral ht hrest none
  ok h := getSigned_ok h

theorem mark_ne_nil {t : List Char} {c : Char} (h : Mark t c) : t ≠ [] := by
  rcases h with ⟨blanks, rfl, _⟩
  simp

/-- A chain that does not fail has taken its pieces one by one: the induction is on the chain, and
the stream between two extractions has not failed either. -/
theorem extract_ok (hread : Extracts read Number) {s : InputStream}
    (h : (extract read es s).2.fail = false) :
    s.fail = false ∧ ∃ vs, Reads Number es s.rest vs (extract read es s).2.rest ∧
      (extract read es s).1 = vs.map some := by
  induction es generalizing s with
  | nil =>
      exact ⟨h, [], .done, rfl⟩
  | cons e es ih =>
      cases e with
      | number =>
          obtain ⟨hfail, vs, hreads, hvs⟩ := ih (s := (read s none).2) h
          obtain ⟨hs, t, rest, v, htext, ht, hno, hv⟩ := hread.ok hfail
          refine ⟨hs, v :: vs, ?_, ?_⟩
          · rw [htext]
            refine .number ht hno ?_
            simpa only [extract, hv] using hreads
          · rw [List.map_cons, ← hvs]
            simp only [extract, hv]
      | mark =>
          obtain ⟨hfail, vs, hreads, hvs⟩ := ih (s := s.getChar.2) h
          obtain ⟨hs, t, rest, c, htext, ht, hc⟩ := getChar_ok hfail
          refine ⟨hs, vs, ?_, hvs⟩
          rw [htext]
          refine .mark ht ?_
          simpa only [extract, hc] using hreads

/-- A chain takes the pieces that stand for it. -/
theorem extract_reads (hread : Extracts read Number) (h : Reads Number es cs vs rest) :
    ∀ eof : Bool, (eof = true → cs = []) →
      ∃ eof', extract read es ⟨cs, eof, false⟩ = (vs.map some, ⟨rest, eof', false⟩) := by
  induction h with
  | done =>
      intro eof _
      exact ⟨eof, rfl⟩
  | @number es t cs rest v vs ht hno _ ih =>
      intro eof heof
      have hfalse : eof = false := by
        by_contra htrue
        exact hread.ne_nil ht (List.append_eq_nil_iff.1 (heof (by simpa using htrue))).1
      subst hfalse
      obtain ⟨eof', hrest⟩ := ih cs.isEmpty (by simp)
      exact ⟨eof', by simp only [extract, hread.take ht hno, hrest, List.map_cons]⟩
  | @mark es t cs rest c vs ht _ ih =>
      intro eof heof
      have hfalse : eof = false := by
        by_contra htrue
        exact mark_ne_nil ht (List.append_eq_nil_iff.1 (heof (by simpa using htrue))).1
      subst hfalse
      obtain ⟨eof', hrest⟩ := ih false (by simp)
      exact ⟨eof', by simp only [extract, getChar_mark ht, hrest]⟩

/-- A chain succeeds on the texts of its grammar. -/
theorem extract_iff (hread : Extracts read Number) {text : List Char} :
    (extract read es (.ofText text)).2.fail = false ↔ ∃ vs rest, Reads Number es text vs rest := by
  constructor
  · intro h
    obtain ⟨_, vs, hreads, _⟩ := extract_ok hread h
    exact ⟨vs, _, hreads⟩
  · rintro ⟨vs, rest, hreads⟩
    obtain ⟨eof, h⟩ := extract_reads hread hreads false (by simp)
    rw [InputStream.ofText, h]

end InputStream
end Foundation
end Mozi
