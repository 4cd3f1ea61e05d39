import Mathlib.Tactic.Common
import Mozi.Foundation.ByteOrder

/-!
# Cdr — encodings whose padding depends on the offset

A `Writer` gives the bytes that an encoder writes when it begins at an offset.  `Advances` relates a
writer to a function on `size_t` that computes the offset after it, modulo 2^64; the relation is
composed along the encoding as the writers are.
-/

namespace Mozi
namespace Foundation
namespace Cdr

abbrev Writer := Nat → List UInt8

/-! ## Writers -/

def bytes (bs : List UInt8) : Writer := fun _ => bs

/-- Zeros up to the next multiple of 4. -/
def pad : Writer := fun a => List.replicate ((4 - a % 4) % 4) 0

def seq (w v : Writer) : Writer := fun a => w a ++ v (a + (w a).length)

def uint32 (n : Nat) : Writer :=
  seq pad (bytes (littleEndian (UInt32.ofNat n)).toList)

/-- A length and as many bytes. -/
def block (bs : List UInt8) : Writer :=
  seq (uint32 bs.length) (bytes bs)

def all : List Writer → Writer
  | [] => bytes []
  | w :: ws => seq w (all ws)

variable {w v : Writer} {ws : List Writer} {f g : UInt64 → UInt64}

@[simp] theorem seq_nil : seq (bytes []) w = w := by
  funext a
  simp [seq, bytes]

/-! ## The offset modulo 4 -/

/-- What is written depends on the offset modulo 4 only. -/
def Periodic (w : Writer) : Prop :=
  ∀ a b, a % 4 = b % 4 → w a = w b

theorem periodic_bytes (bs : List UInt8) : Periodic (bytes bs) :=
  fun _ _ _ => rfl

theorem periodic_pad : Periodic pad := by
  intro a b hab
  rw [pad, pad, hab]

theorem Periodic.seq (hw : Periodic w) (hv : Periodic v) : Periodic (seq w v) := by
  intro a b hab
  have hmod : (a + (w a).length) % 4 = (b + (w a).length) % 4 := by
    rw [Nat.add_mod, hab, ← Nat.add_mod]
  rw [Cdr.seq, Cdr.seq, ← hw a b hab, hv _ _ hmod]

theorem periodic_uint32 (n : Nat) : Periodic (uint32 n) :=
  periodic_pad.seq (periodic_bytes _)

theorem periodic_block (bs : List UInt8) : Periodic (block bs) :=
  (periodic_uint32 _).seq (periodic_bytes bs)

theorem periodic_all (h : ∀ w ∈ ws, Periodic w) : Periodic (all ws) := by
  induction ws with
  | nil => exact periodic_bytes []
  | cons w ws ih =>
      exact (h w List.mem_cons_self).seq (ih fun v hv => h v (List.mem_cons_of_mem w hv))

/-! ## Offsets in a `size_t` -/

/-- `f` takes the offset before the writer to the one after it. -/
def Advances (w : Writer) (f : UInt64 → UInt64) : Prop :=
  ∀ n, f (UInt64.ofNat n) = UInt64.ofNat (n + (w n).length)

theorem Advances.seq (hw : Advances w f) (hv : Advances v g) :
    Advances (seq w v) (fun c => g (f c)) := by
  intro n
  simp only [hw n, hv (n + (w n).length), Cdr.seq, List.length_append, Nat.add_assoc]

theorem advances_bytes (bs : List UInt8) :
    Advances (bytes bs) (· + UInt64.ofNat bs.length) := by
  intro n
  simp only [bytes, UInt64.ofNat_add]

theorem length_pad (a : Nat) : (pad a).length = (4 - a % 4) % 4 := by
  simp [pad]

theorem length_uint32 (n a : Nat) : (uint32 n a).length = (4 - a % 4) % 4 + 4 := by
  simp [uint32, seq, bytes, length_pad]

/-- The bytes that a `size_t` difference counts. -/
theorem Advances.length (h : Advances w f) (a : UInt64) :
    f a - a = UInt64.ofNat (w a.toNat).length := by
  have hat := h a.toNat
  rw [UInt64.ofNat_toNat, UInt64.ofNat_add, UInt64.ofNat_toNat] at hat
  rw [hat, UInt64.add_comm, UInt64.add_sub_cancel]

end Cdr
end Foundation
end Mozi
