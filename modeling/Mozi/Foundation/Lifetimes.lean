import Mathlib.Data.List.Basic
import Mathlib.Order.BooleanAlgebra.Set
import Mathlib.Tactic.Common

/-!
# Lifetimes — the objects that are constructed at places

A ledger lists the objects constructed so far, the newest one first, with the number of times the
destructor has run on each of them.  A destructor that is called on a place runs on the newest
object there; a call on a place where no object was ever constructed is stray.

* `Settled` says that the objects at the places of a set are the living ones, every place has at
  most one of them, and every other object was destroyed once;
* `Settled.construct`, `Settled.destroy` and `Settled.destroyAll` keep it along the events;
* `Settled.destroyed_once` is the verdict where nothing lives any more.
-/

namespace Mozi
namespace Foundation

universe u

structure LivedObject (α : Type u) where
  place : α
  /-- how often the destructor has run on the object -/
  destroyed : Nat

structure Ledger (α : Type u) where
  /-- the newest object first -/
  objects : List (LivedObject α)
  /-- the places without any object on which the destructor was called -/
  stray : List α

namespace Ledger

variable {α : Type u} [DecidableEq α]

def empty : Ledger α :=
  { objects := []
    stray := [] }

def construct (l : Ledger α) (a : α) : Ledger α :=
  { l with objects := ⟨a, 0⟩ :: l.objects }

/-- One more run of the destructor on the newest object at a place. -/
def destroyAt (a : α) : List (LivedObject α) → Option (List (LivedObject α))
  | [] => none
  | o :: os =>
      if o.place = a then some ({ o with destroyed := o.destroyed + 1 } :: os)
      else (destroyAt a os).map fun os => o :: os

def destroy (l : Ledger α) (a : α) : Ledger α :=
  match destroyAt a l.objects with
  | some objects => { l with objects := objects }
  | none => { l with stray := l.stray ++ [a] }

def destroyAll (l : Ledger α) (places : List α) : Ledger α :=
  places.foldl destroy l

/-- Every object was destroyed once, and nothing else. -/
def DestroyedOnce (l : Ledger α) : Prop :=
  (∀ o ∈ l.objects, o.destroyed = 1) ∧ l.stray = []

/-! ## Settled ledgers -/

/-- The newest object at each living place lives, and every other object is destroyed. -/
def SettledObjects (alive : Set α) : List (LivedObject α) → Prop
  | [] => alive = ∅
  | o :: os =>
      (o.destroyed = 1 ∧ o.place ∉ alive ∧ SettledObjects alive os) ∨
        (o.destroyed = 0 ∧ o.place ∈ alive ∧ SettledObjects (alive \ {o.place}) os)

def Settled (alive : Set α) (l : Ledger α) : Prop :=
  SettledObjects alive l.objects ∧ l.stray = []

variable {alive : Set α} {l : Ledger α} {a : α}

omit [DecidableEq α] in
theorem settled_empty : Settled (∅ : Set α) empty :=
  ⟨rfl, rfl⟩

omit [DecidableEq α] in
theorem Settled.construct (h : Settled alive l) (ha : a ∉ alive) :
    Settled (insert a alive) (l.construct a) := by
  refine ⟨Or.inr ⟨rfl, Set.mem_insert a alive, ?_⟩, h.2⟩
  have hrest : insert a alive \ {a} = alive := Set.insert_sdiff_self_of_notMem ha
  rw [hrest]
  exact h.1

/-- The object at a living place is the one that is destroyed. -/
theorem SettledObjects.destroyAt {os : List (LivedObject α)} (h : SettledObjects alive os)
    (ha : a ∈ alive) :
    ∃ os', Ledger.destroyAt a os = some os' ∧ SettledObjects (alive \ {a}) os' := by
  induction os generalizing alive with
  | nil =>
      rw [SettledObjects] at h
      rw [h] at ha
      exact absurd ha (Set.notMem_empty a)
  | cons o os ih =>
      by_cases hplace : o.place = a
      · subst hplace
        rcases h with ⟨-, hdead, -⟩ | ⟨hzero, -, hrest⟩
        · exact absurd ha hdead
        · refine ⟨{ o with destroyed := o.destroyed + 1 } :: os,
            by rw [Ledger.destroyAt, if_pos rfl], Or.inl ⟨?_, ?_, hrest⟩⟩
          · exact congrArg (· + 1) hzero
          · exact fun hmem => hmem.2 rfl
      · rcases h with ⟨hone, hdead, hrest⟩ | ⟨hzero, hlive, hrest⟩
        · obtain ⟨os', hos', hsettled⟩ := ih hrest ha
          refine ⟨o :: os', by rw [Ledger.destroyAt, if_neg hplace, hos']; rfl, Or.inl ?_⟩
          exact ⟨hone, fun hmem => hdead hmem.1, hsettled⟩
        · obtain ⟨os', hos', hsettled⟩ := ih hrest ⟨ha, fun heq => hplace heq.symm⟩
          refine ⟨o :: os', by rw [Ledger.destroyAt, if_neg hplace, hos']; rfl, Or.inr ?_⟩
          refine ⟨hzero, ⟨hlive, hplace⟩, ?_⟩
          rwa [Set.sdiff_sdiff_comm]

theorem Settled.destroy (h : Settled alive l) (ha : a ∈ alive) :
    Settled (alive \ {a}) (l.destroy a) := by
  obtain ⟨os', hos', hsettled⟩ := h.1.destroyAt ha
  rw [Ledger.destroy, hos']
  exact ⟨hsettled, h.2⟩

/-- Destroying what lives, place by place. -/
theorem Settled.destroyAll {places : List α} (h : Settled alive l) (hnodup : places.Nodup)
    (hplaces : ∀ a, a ∈ places ↔ a ∈ alive) : Settled (∅ : Set α) (l.destroyAll places) := by
  induction places generalizing alive l with
  | nil =>
      have hnone : alive = ∅ := by
        ext a
        simp [← hplaces a]
      rwa [hnone] at h
  | cons a places ih =>
      obtain ⟨hnot, hnodup⟩ := List.nodup_cons.1 hnodup
      refine ih (h.destroy ((hplaces a).1 List.mem_cons_self)) hnodup ?_
      intro b
      rw [Set.mem_sdiff, ← hplaces b, List.mem_cons, Set.mem_singleton_iff]
      constructor
      · intro hb
        exact ⟨Or.inr hb, fun heq => hnot (heq ▸ hb)⟩
      · rintro ⟨heq | hb, hne⟩
        · exact absurd heq hne
        · exact hb

omit [DecidableEq α] in
theorem SettledObjects.destroyed_once {os : List (LivedObject α)}
    (h : SettledObjects (∅ : Set α) os) : ∀ o ∈ os, o.destroyed = 1 := by
  induction os with
  | nil =>
      simp
  | cons o os ih =>
      rcases h with ⟨hone, -, hrest⟩ | ⟨-, hlive, -⟩
      · exact List.forall_mem_cons.2 ⟨hone, ih hrest⟩
      · exact absurd hlive (Set.notMem_empty o.place)

omit [DecidableEq α] in
/-- Where nothing lives any more, every object was destroyed once. -/
theorem Settled.destroyed_once (h : Settled (∅ : Set α) l) : l.DestroyedOnce :=
  ⟨h.1.destroyed_once, h.2⟩

end Ledger

end Foundation
end Mozi
