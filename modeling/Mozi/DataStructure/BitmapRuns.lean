import Mozi.DataStructure.BitmapMutators
import Mozi.Foundation.Machine

/-!
# BitmapRuns — sequences of operations on a window

The operations of `BitmapRange` as a machine.  `Op.Keeps` is the condition under which an operation
keeps the window well formed; what it leaves out is

* `updateBase` to a lower base that shifts by 1 to 255 places (`shift_map_right`);
* `addRange` and `setBitmap` that set a bit above `range_max_`;
* `remove` on an empty set, whose `max()` wraps, of an item far above the base.
-/

namespace Mozi
namespace DataStructure

open Foundation BitArray

namespace BitmapRange

open LawfulRangeItem

variable {T : Type}

/-- The public operations that change a `BitmapRange`. -/
inductive Op (T : Type) where
  | base (base : T)
  | baseCapped (base : T) (max_bits : Nat)
  | updateBase (base : T)
  | add (item : T)
  | addRange (from_ to_ : T)
  | remove (item : T)
  | setBitmap (num_bits : Nat) (bitmap : Nat → BitVec 32)

/-- One operation. -/
def step [DecidableEq T] [RangeItem T] (s : BitmapRange T) : Op T → Option (BitmapRange T)
  | .base b => s.base b
  | .baseCapped b max_bits => s.baseCapped b max_bits
  | .updateBase b => s.updateBase b
  | .add item => (s.add item).map Prod.snd
  | .addRange from_ to_ => s.addRange from_ to_
  | .remove item => s.remove item
  | .setBitmap num_bits bitmap => s.setBitmap num_bits bitmap

def machine [DecidableEq T] [RangeItem T] : Machine (BitmapRange T) (Op T) :=
  ⟨step⟩

variable [RangeItem T] [LawfulRangeItem T]

/-- The new window `base .. base + 256` stays below the largest item. -/
def Op.Windowed : Op T → Prop
  | .base b => val b + 256 ≤ limit T
  | .baseCapped b _ => val b + 256 ≤ limit T
  | .updateBase b => val b + 256 ≤ limit T
  | _ => True

/-- The result of a constructor. -/
def Constructed (s : BitmapRange T) : Prop :=
  ∃ base : T, val base + 256 ≤ limit T ∧
    (new base = some s ∨ ∃ max_bits, newCapped base max_bits = some s)

theorem Constructed.wf {s : BitmapRange T} (h : Constructed s) : Wf s := by
  rcases h with ⟨base, hwindow, hs | ⟨max_bits, hs⟩⟩
  · rcases newCapped_spec hwindow 255 with ⟨t, ht, hwf, _⟩
    rw [new, ht, Option.some.injEq] at hs
    exact hs ▸ hwf
  · rcases newCapped_spec hwindow max_bits with ⟨t, ht, hwf, _⟩
    rw [ht, Option.some.injEq] at hs
    exact hs ▸ hwf

/-- The operation does not reach one of the defects listed above. -/
def Op.Keeps (s : BitmapRange T) : Op T → Prop
  | .updateBase b =>
      val b < val s.base_ → distance32 s.base_ b = 0 ∨ 256 ≤ distance32 s.base_ b
  | .addRange from_ to_ =>
      ∀ x : Int, val s.base_ ≤ x → val from_ ≤ x → x < val to_ → x < val s.base_ + 256 →
        x ≤ val s.range_max_
  | .remove item =>
      s.num_bits_ = 0 → ∃ m, s.max = some m ∧
        (val s.base_ ≤ val item → val item ≤ val m → val item < val s.base_ + 256)
  | .setBitmap num_bits bitmap =>
      ∀ p : Nat, p < loadedBits num_bits → (bitmap (p / 32)).getMsbD (p % 32) = true →
        val s.base_ + p ≤ val s.range_max_
  | _ => True

variable [DecidableEq T]

/-- The step lemma: an operation that meets its condition returns a well-formed window. -/
theorem step_wf {s : BitmapRange T} (h : Wf s) {op : Op T} (hwindow : op.Windowed)
    (hkeeps : op.Keeps s) : ∃ t, machine.step s op = some t ∧ Wf t := by
  cases op with
  | base base =>
      rcases base_spec (s := s) hwindow with ⟨t, ht, hwf, _⟩
      exact ⟨t, ht, hwf⟩
  | baseCapped base max_bits =>
      rcases baseCapped_spec (s := s) hwindow max_bits with ⟨t, ht, hwf, _⟩
      exact ⟨t, ht, hwf⟩
  | updateBase base =>
      -- Down, nowhere, or up.
      rcases Int.lt_trichotomy (val base) (val s.base_) with hlt | heq | hgt
      · exact updateBase_down_wf h hlt (hkeeps hlt) hwindow
      · exact ⟨s, by simp [machine, step, updateBase, val_injective heq], h⟩
      · exact updateBase_up_wf h hgt hwindow
  | add item =>
      by_cases hin : val s.base_ ≤ val item ∧ val item ≤ val s.range_max_
      · obtain ⟨p, hp⟩ : ∃ p : Nat, val item = val s.base_ + p :=
          Int.exists_add_of_le (by omega)
        rcases add_inside h hp hin.2 with ⟨t, ht, hwf, _⟩
        exact ⟨t, by simp [machine, step, ht], hwf⟩
      · exact ⟨s, by simp [machine, step, add_outside hin], h⟩
  | addRange from_ to_ =>
      exact addRange_wf h hkeeps
  | remove item =>
      exact remove_wf h hkeeps
  | setBitmap num_bits bitmap =>
      exact setBitmap_wf h hkeeps

/-- The run lemma: a run whose operations meet their condition ends in a well-formed window. -/
theorem exec_wf {s : BitmapRange T} (h : Wf s) {ops : List (Op T)}
    (hwindow : ∀ op ∈ ops, op.Windowed) (hkeeps : machine.Along (fun s op => op.Keeps s) s ops) :
    ∃ t, machine.exec s ops = some t ∧ Wf t := by
  have halong := (machine.along_of_forall_mem (s := s) hwindow).and machine hkeeps
  exact machine.exec_total (I := Wf) (P := fun s op => op.Windowed ∧ op.Keeps s)
    (fun s op hwf hop => step_wf hwf hop.1 hop.2) h halong

end BitmapRange

end DataStructure
end Mozi
