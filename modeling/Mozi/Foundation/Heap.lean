import Mathlib.Data.List.Basic
import Mathlib.Logic.Function.Basic

/-!
# Heap — blocks from an allocator

A heap maps the address of a live block to its bytes.  `calloc` and `realloc` get the answer of the
allocator as an argument: a refusal, or the address of the new block with the bytes that are found
behind the ones `realloc` keeps.  An operation gives `none` where it uses an address that is not
the one of a live block, where it leaves a block, or where the answer is an address in use.
-/

namespace Mozi
namespace Foundation

abbrev Heap := Nat → Option (List UInt8)

/-- The answer of the allocator to one request. -/
structure Heap.Reply where
  /-- `none` for a null pointer -/
  block : Option Nat
  /-- the bytes of the block before anything is written -/
  fresh : Nat → UInt8

namespace Heap

variable {h h' : Heap} {p q n off : Nat} {reply : Reply} {bytes : List UInt8}

/-! ## Allocation -/

def calloc (h : Heap) (n : Nat) (reply : Reply) : Option (Option Nat × Heap) :=
  match reply.block with
  | none => some (none, h)
  | some p =>
      if h p = none then
        some (some p, Function.update h p (some (List.replicate n 0)))
      else
        none

/-- The bytes of a block after it got a new size. -/
def resize (bytes : List UInt8) (n : Nat) (fresh : Nat → UInt8) : List UInt8 :=
  bytes.take n ++ ((List.range n).drop bytes.length).map fresh

def realloc (h : Heap) (p n : Nat) (reply : Reply) : Option (Option Nat × Heap) :=
  match h p with
  | none => none
  | some bytes =>
      match reply.block with
      | none => some (none, h)
      | some q =>
          -- The block stays where it is or moves to a free place.
          if q = p ∨ h q = none then
            some (some q, Function.update (Function.update h p none) q
              (some (resize bytes n reply.fresh)))
          else
            none

def free (h : Heap) (p : Nat) : Option Heap :=
  match h p with
  | none => none
  | some _ => some (Function.update h p none)

/-- A write of bytes into a block. -/
def write (h : Heap) (p off : Nat) (xs : List UInt8) : Option Heap :=
  match h p with
  | none => none
  | some bytes =>
      if off + xs.length ≤ bytes.length then
        some (Function.update h p
          (some (bytes.take off ++ (xs ++ bytes.drop (off + xs.length)))))
      else
        none

/-! ## What an operation does -/

@[simp] theorem length_resize (bytes : List UInt8) (n : Nat) (fresh : Nat → UInt8) :
    (resize bytes n fresh).length = n := by
  simp only [resize, List.length_append, List.length_take, List.length_map, List.length_drop,
    List.length_range]
  omega

theorem take_resize (hn : bytes.length ≤ n) (fresh : Nat → UInt8) :
    (resize bytes n fresh).take bytes.length = bytes := by
  simp [resize, List.take_of_length_le hn]

theorem calloc_cases {d : Option Nat} (hrun : h.calloc n reply = some (d, h')) :
    d = reply.block ∧ (d = none → h' = h) ∧
      ∀ p, d = some p → h p = none ∧ h' p = some (List.replicate n 0) := by
  unfold calloc at hrun
  cases hblock : reply.block with
  | none =>
      simp only [hblock, Option.some.injEq, Prod.mk.injEq] at hrun
      rcases hrun with ⟨rfl, rfl⟩
      simp
  | some p =>
      simp only [hblock, Option.ite_none_right_eq_some, Option.some.injEq, Prod.mk.injEq] at hrun
      rcases hrun with ⟨hfree, rfl, rfl⟩
      refine ⟨rfl, by simp, ?_⟩
      rintro q hq
      cases hq
      exact ⟨hfree, Function.update_self ..⟩

theorem realloc_cases {d : Option Nat} (hrun : h.realloc p n reply = some (d, h')) :
    d = reply.block ∧ ∃ bytes, h p = some bytes ∧ (d = none → h' = h) ∧
      ∀ q, d = some q → h' q = some (resize bytes n reply.fresh) := by
  unfold realloc at hrun
  cases hlive : h p with
  | none =>
      simp [hlive] at hrun
  | some bytes =>
      cases hblock : reply.block with
      | none =>
          simp only [hlive, hblock, Option.some.injEq, Prod.mk.injEq] at hrun
          rcases hrun with ⟨rfl, rfl⟩
          exact ⟨rfl, bytes, rfl, by simp, by simp⟩
      | some q =>
          simp only [hlive, hblock, Option.ite_none_right_eq_some, Option.some.injEq,
            Prod.mk.injEq] at hrun
          rcases hrun with ⟨-, rfl, rfl⟩
          refine ⟨rfl, bytes, rfl, by simp, ?_⟩
          rintro r hr
          cases hr
          exact Function.update_self ..

theorem write_cases {xs : List UInt8} (hrun : h.write p off xs = some h') :
    ∃ bytes, h p = some bytes ∧ off + xs.length ≤ bytes.length ∧
      h' p = some (bytes.take off ++ (xs ++ bytes.drop (off + xs.length))) := by
  unfold write at hrun
  cases hlive : h p with
  | none =>
      simp [hlive] at hrun
  | some bytes =>
      simp only [hlive, Option.ite_none_right_eq_some, Option.some.injEq] at hrun
      rcases hrun with ⟨hroom, rfl⟩
      exact ⟨bytes, rfl, hroom, Function.update_self ..⟩

theorem length_write {xs : List UInt8} (hroom : off + xs.length ≤ bytes.length) :
    (bytes.take off ++ (xs ++ bytes.drop (off + xs.length))).length = bytes.length := by
  simp only [List.length_append, List.length_take, List.length_drop]
  omega

/-! ## Moves

What a call may do to a heap that held the block at `d` for its caller and holds the one at `d'`
afterwards. -/

/-- The other blocks stay, the new block was free, and the old one is freed. -/
structure Moves (h h' : Heap) (d d' : Option Nat) : Prop where
  frame : ∀ a, d ≠ some a → d' ≠ some a → h' a = h a
  fresh : ∀ a, d' = some a → d = some a ∨ h a = none
  freed : ∀ a, d = some a → d' = some a ∨ h' a = none

namespace Moves

variable {h₁ h₂ : Heap} {d d₁ d₂ : Option Nat}

theorem refl (h : Heap) (d : Option Nat) : Moves h h d d :=
  ⟨fun _ _ _ => rfl, fun _ hd => Or.inl hd, fun _ hd => Or.inl hd⟩

theorem trans (hm : Moves h h₁ d d₁) (hn : Moves h₁ h₂ d₁ d₂) : Moves h h₂ d d₂ where
  frame a hd hd₂ := by
    by_cases hd₁ : d₁ = some a
    · -- The block between them came and went.
      have hbefore := (hm.fresh a hd₁).resolve_left hd
      have hafter := (hn.freed a hd₁).resolve_left hd₂
      rw [hbefore, hafter]
    · rw [hn.frame a hd₁ hd₂, hm.frame a hd hd₁]
  fresh a hd₂ := by
    rcases hn.fresh a hd₂ with hd₁ | hfree
    · exact hm.fresh a hd₁
    · by_cases hd : d = some a
      · exact Or.inl hd
      · by_cases hd₁ : d₁ = some a
        · exact hm.fresh a hd₁
        · exact Or.inr ((hm.frame a hd hd₁).symm.trans hfree)
  freed a hd := by
    rcases hm.freed a hd with hd₁ | hfree
    · exact hn.freed a hd₁
    · by_cases hd₁ : d₁ = some a
      · exact hn.freed a hd₁
      · by_cases hd₂ : d₂ = some a
        · exact Or.inl hd₂
        · exact Or.inr ((hn.frame a hd₁ hd₂).trans hfree)

end Moves

theorem calloc_moves {d : Option Nat} (hrun : h.calloc n reply = some (d, h')) :
    Moves h h' none d := by
  unfold calloc at hrun
  cases hblock : reply.block with
  | none =>
      simp only [hblock, Option.some.injEq, Prod.mk.injEq] at hrun
      obtain ⟨rfl, rfl⟩ := hrun
      exact Moves.refl h none
  | some q =>
      simp only [hblock, Option.ite_none_right_eq_some, Option.some.injEq, Prod.mk.injEq] at hrun
      obtain ⟨hfree, rfl, rfl⟩ := hrun
      refine ⟨?_, ?_, by simp⟩
      · intro a _ ha
        exact Function.update_of_ne (fun heq => ha (by rw [heq])) _ _
      · rintro a ha
        cases ha
        exact Or.inr hfree

theorem realloc_moves (hrun : h.realloc p n reply = some (some q, h')) :
    Moves h h' (some p) (some q) := by
  unfold realloc at hrun
  cases hlive : h p with
  | none =>
      simp [hlive] at hrun
  | some bytes =>
      cases hblock : reply.block with
      | none =>
          simp [hlive, hblock] at hrun
      | some r =>
          simp only [hlive, hblock, Option.ite_none_right_eq_some, Option.some.injEq,
            Prod.mk.injEq] at hrun
          obtain ⟨hplace, rfl, rfl⟩ := hrun
          refine ⟨?_, ?_, ?_⟩
          · intro a hp hq
            rw [Function.update_of_ne (fun heq => hq (by rw [heq])),
              Function.update_of_ne (fun heq => hp (by rw [heq]))]
          · rintro a ha
            cases ha
            rcases hplace with rfl | hfree
            · exact Or.inl rfl
            · exact Or.inr hfree
          · rintro a ha
            cases ha
            by_cases heq : p = r
            · exact Or.inl (by rw [heq])
            · exact Or.inr (by rw [Function.update_of_ne heq, Function.update_self])

theorem free_moves (hrun : h.free p = some h') : Moves h h' (some p) none := by
  unfold free at hrun
  cases hlive : h p with
  | none =>
      simp [hlive] at hrun
  | some bytes =>
      simp only [hlive, Option.some.injEq] at hrun
      subst hrun
      refine ⟨?_, by simp, ?_⟩
      · intro a ha _
        exact Function.update_of_ne (fun heq => ha (by rw [heq])) _ _
      · rintro a ha
        cases ha
        exact Or.inr (Function.update_self ..)

theorem write_moves {xs : List UInt8} (hrun : h.write p off xs = some h') :
    Moves h h' (some p) (some p) := by
  unfold write at hrun
  cases hlive : h p with
  | none =>
      simp [hlive] at hrun
  | some bytes =>
      simp only [hlive, Option.ite_none_right_eq_some, Option.some.injEq] at hrun
      obtain ⟨-, rfl⟩ := hrun
      refine ⟨?_, fun _ ha => Or.inl ha, fun _ ha => Or.inl ha⟩
      intro a ha _
      exact Function.update_of_ne (fun heq => ha (by rw [heq])) _ _

/-- A live block can be freed. -/
theorem free_of_live (hlive : h p ≠ none) : ∃ h', h.free p = some h' := by
  obtain ⟨bytes, hbytes⟩ := Option.ne_none_iff_exists'.1 hlive
  exact ⟨_, by rw [free, hbytes]⟩

end Heap

end Foundation
end Mozi
