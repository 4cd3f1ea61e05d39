import Mozi.Foundation.InputStream

/-!
# ThrowingStream — extraction operators that catch `ios_base::failure`

An extraction operator works on a stream and on the object it fills.  Where the exception mask of
the stream contains `failbit`, an operation that sets the bit throws, and whatever it has stored by
then stays.  `Reading α β` is such a computation: it ends with a result or with a failure, and in
both cases leaves the stream and the object of type `α` as they are.
-/

namespace Mozi
namespace Foundation

/-- A stream with its exception mask and its base, and the object under extraction. -/
structure Extraction (α : Type) where
  input : InputStream
  /-- `exceptions()` contains `failbit` -/
  throwing : Bool
  /-- the `basefield` -/
  base : Nat
  value : α

abbrev Reading (α β : Type) :=
  StateT (Extraction α) (Except (Extraction α)) β

namespace Reading

variable {α β γ : Type}

/-! ## Operations -/

/-- What a stream does when its state or its mask has changed. -/
def check (b : β) : Reading α β := fun e =>
  if e.throwing && e.input.fail then .error e else .ok (b, e)

/-- `setstate(failbit)` -/
def setstate : Reading α Unit := fun e =>
  check () { e with input := { e.input with fail := true } }

/-- `exceptions()` -/
def mask : Reading α Bool := fun e =>
  .ok (e.throwing, e)

/-- `exceptions(mask)` -/
def exceptions (throwing : Bool) : Reading α Unit := fun e =>
  check () { e with throwing := throwing }

/-- `>> std::hex`, `>> std::dec` -/
def setBase (base : Nat) : Reading α Unit := fun e =>
  .ok ((), { e with base := base })

/-- `sentry s(input)` -/
def sentry : Reading α Bool := fun e =>
  let (ok, input) := e.input.sentry
  check ok { e with input := input }

/-- `>> c`; `none` where nothing is stored. -/
def readChar : Reading α (Option Char) := fun e =>
  let (c, input) := e.input.getChar
  check c { e with input := input }

/-- `>> c` for an `unsigned char`: a character, not a number. -/
def readUChar : Reading α (Option Nat) := fun e =>
  let (c, input) := e.input.getChar
  check (c.map Char.toNat) { e with input := input }

/-- `>> v` for an unsigned type with `width` bits. -/
def readUnsigned (width : Nat) : Reading α (Option Nat) := fun e =>
  let (v, input) := e.input.getUnsigned width e.base none
  check v { e with input := input }

def assign (value : α) : Reading α Unit := fun e =>
  .ok ((), { e with value := value })

/-- `try body catch (ios_base::failure&) handler` -/
def attempt (body handler : Reading α Unit) : Reading α Unit := fun e =>
  match body e with
  | .ok r => .ok r
  | .error e => handler e

/-- The frame of an extraction operator: the sentry, the exception mask that `body` needs, the
handler, and the old mask again, which throws where it contains a bit that is set. -/
def guarded (body handler : Reading α Unit) : Reading α Unit := do
  if ← sentry then
    let excp_mask ← mask
    attempt
      (do
        exceptions true
        body)
      handler
    exceptions excp_mask

/-- Extraction into a part of the object. -/
def focus (get : α → β) (set : β → α → α) (x : Reading β γ) : Reading α γ := fun e =>
  let put (f : Extraction β) : Extraction α :=
    ⟨f.input, f.throwing, f.base, set f.value e.value⟩
  match x ⟨e.input, e.throwing, e.base, get e.value⟩ with
  | .ok (c, f) => .ok (c, put f)
  | .error f => .error (put f)

/-- What the operator leaves in a fresh object, from a stream on a text. -/
def extractText (x : Reading α Unit) (fresh : α) (text : List Char) : α :=
  match x ⟨.ofText text, false, 10, fresh⟩ with
  | .ok (_, e) => e.value
  | .error e => e.value

/-! ## Rules -/

variable {x : Reading α β} {f : β → Reading α γ} {e e' : Extraction α} {b : β}

theorem bind_ok (h : x e = .ok (b, e')) : (x >>= f) e = f b e' := by
  simp [bind, StateT.bind, Except.bind, h]

theorem bind_error (h : x e = .error e') : (x >>= f) e = .error e' := by
  simp [bind, StateT.bind, Except.bind, h]

theorem attempt_error {body handler : Reading α Unit} (h : body e = .error e') :
    attempt body handler e = handler e' := by
  simp [attempt, h]

theorem check_ok (h : e.throwing = false ∨ e.input.fail = false) (b : β) :
    check b e = .ok (b, e) := by
  rcases h with h | h <;> simp [check, h]

/-- The operation changes the state of the stream only, and fails with `failbit` set. -/
def Keeps (x : Reading α β) : Prop :=
  ∀ e, e.throwing = true →
    (∃ b e', x e = .ok (b, e') ∧ e'.throwing = true ∧ e'.value = e.value) ∨
      ∃ e', x e = .error e' ∧ e'.throwing = true ∧ e'.input.fail = true ∧ e'.value = e.value

theorem keeps_check {input : InputStream} (b : β) (ht : e.throwing = true) :
    (∃ b' e', check b { e with input := input } = .ok (b', e') ∧ e'.throwing = true ∧
        e'.value = e.value) ∨
      ∃ e', check b { e with input := input } = .error e' ∧ e'.throwing = true ∧
        e'.input.fail = true ∧ e'.value = e.value := by
  cases hf : input.fail with
  | false =>
      exact Or.inl ⟨b, { e with input := input }, by simp [check, hf], ht, rfl⟩
  | true =>
      exact Or.inr ⟨{ e with input := input }, by simp [check, ht, hf], ht, hf, rfl⟩

theorem keeps_readUChar : Keeps (readUChar (α := α)) :=
  fun _ ht => keeps_check _ ht

theorem keeps_readUnsigned (width : Nat) : Keeps (readUnsigned (α := α) width) :=
  fun _ ht => keeps_check _ ht

theorem setstate_throws (ht : e.throwing = true) :
    setstate e = .error { e with input := { e.input with fail := true } } := by
  simp [setstate, check, ht]

/-- `>> c` at a character that is no blank. -/
theorem readChar_cons {c : Char} {cs : List Char} (hc : isSpace c = false)
    (hinput : e.input = ⟨c :: cs, false, false⟩) :
    readChar e = .ok (some c, { e with input := ⟨cs, false, false⟩ }) := by
  have hget : InputStream.getChar ⟨c :: cs, false, false⟩ = _ := InputStream.getChar_cons hc
  simp only [readChar, hinput, hget]
  exact check_ok (Or.inr rfl) _

theorem readUChar_cons {c : Char} {cs : List Char} (hc : isSpace c = false)
    (hinput : e.input = ⟨c :: cs, false, false⟩) :
    readUChar e = .ok (some c.toNat, { e with input := ⟨cs, false, false⟩ }) := by
  have hget : InputStream.getChar ⟨c :: cs, false, false⟩ = _ := InputStream.getChar_cons hc
  simp only [readUChar, hinput, hget]
  exact check_ok (Or.inr rfl) _

theorem sentry_cons {c : Char} {cs : List Char} (hc : isSpace c = false)
    (hinput : e.input = ⟨c :: cs, false, false⟩) : sentry e = .ok (true, e) := by
  have hsentry : InputStream.sentry ⟨c :: cs, false, false⟩ = _ := InputStream.sentry_cons hc
  simp only [sentry, hinput, hsentry]
  rw [← hinput]
  exact check_ok (Or.inr (by simp [hinput])) _

/-- The body fails and the handler returns: the old mask decides how the operator ends. -/
theorem guarded_fails {body handler : Reading α Unit} {c : Char} {cs : List Char}
    {e'' : Extraction α} (hc : isSpace c = false) (hinput : e.input = ⟨c :: cs, false, false⟩)
    (hbody : body { e with throwing := true } = .error e')
    (hhandler : handler e' = .ok ((), e'')) (hfail : e''.input.fail = true) :
    guarded body handler e =
      if e.throwing then .error { e'' with throwing := true }
      else .ok ((), { e'' with throwing := false }) := by
  have hexceptions : exceptions true e = .ok ((), { e with throwing := true }) := by
    simp [exceptions, check, hinput]
  have hattempt :
      attempt (exceptions true >>= fun _ => body) handler e = .ok ((), e'') := by
    rw [attempt_error ((bind_ok hexceptions).trans hbody), hhandler]
  have hmask : mask e = .ok (e.throwing, e) := rfl
  unfold guarded
  rw [bind_ok (sentry_cons hc hinput), if_pos rfl, bind_ok hmask, bind_ok hattempt]
  cases e.throwing <;> simp [exceptions, check, hfail]

end Reading

end Foundation
end Mozi
