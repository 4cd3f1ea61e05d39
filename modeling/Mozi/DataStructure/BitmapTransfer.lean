import Mozi.DataStructure.BitmapMutators

/-!
# BitmapTransfer — bitmaps that come from a message

`getBitmap` and `setBitmap`.  The received count is clamped to 256 bits, but the last word is cut by
the low bits of the raw count: a count above 256 that is no multiple of 32 cuts bits off the last
word.  What `getBitmap` returns is loaded without loss.
-/

namespace Mozi
namespace DataStructure

open Foundation BitArray

namespace BitmapRange

variable {T : Type}

/-- The three results of `getBitmap`. -/
structure Transfer where
  num_bits : Nat
  bitmap : Vector (BitVec 32) 8
  num_longs_used : Nat

def getBitmap (s : BitmapRange T) : Transfer where
  num_bits := s.num_bits_
  bitmap := s.bitmap_
  num_longs_used := (s.num_bits_ + 31) / 32

/-! ## What is loaded -/

/-- The declared bits are loaded, and `num_bits_` ends them. -/
def LoadsExactly (s : BitmapRange T) (num_bits : Nat) (bitmap : Nat → BitVec 32) : Prop :=
  ∃ t, s.setBitmap num_bits bitmap = some t ∧ t.base_ = s.base_ ∧ t.range_max_ = s.range_max_ ∧
    (∀ p, bit t.bitmap_ p = true ↔
      p < Nat.min num_bits 256 ∧ (bitmap (p / 32)).getMsbD (p % 32) = true) ∧
    EndsAt t.bitmap_ t.num_bits_

/-- No declared bit is cut off the last word. -/
def Uncut (num_bits : Nat) (bitmap : Nat → BitVec 32) : Prop :=
  num_bits ≤ 256 ∨ 32 ∣ num_bits ∨
    ∀ p, 224 + num_bits % 32 ≤ p → p < 256 → (bitmap (p / 32)).getMsbD (p % 32) = false

/-- Only the words that are declared are read. -/
theorem setBitmap_congr (s : BitmapRange T) {num_bits : Nat} {bitmap bitmap' : Nat → BitVec 32}
    (h : ∀ i, i < (Nat.min num_bits 256 + 31) / 32 → bitmap i = bitmap' i) :
    s.setBitmap num_bits bitmap = s.setBitmap num_bits bitmap' := by
  have hload : loadWords ((Nat.min num_bits 256 + 31) / 32) bitmap =
      loadWords ((Nat.min num_bits 256 + 31) / 32) bitmap' := by
    unfold loadWords
    congr 1
    funext i
    split_ifs with hi
    · exact h i hi
    · rfl
  simp only [setBitmap, hload]

theorem loadedBits_of_le {num_bits : Nat} (h : num_bits ≤ 256) : loadedBits num_bits = num_bits := by
  unfold loadedBits
  rw [show Nat.min num_bits 256 = num_bits from Nat.min_eq_left h]
  split_ifs <;> omega

theorem loadedBits_of_ge {num_bits : Nat} (h : 256 ≤ num_bits) :
    loadedBits num_bits = if num_bits % 32 = 0 then 256 else 224 + num_bits % 32 := by
  unfold loadedBits
  rw [show Nat.min num_bits 256 = 256 from Nat.min_eq_right h]

/-- The bits that are loaded are the declared ones if no set bit is cut off. -/
theorem loaded_iff_uncut (num_bits : Nat) (bitmap : Nat → BitVec 32) :
    (∀ p, p < Nat.min num_bits 256 → (bitmap (p / 32)).getMsbD (p % 32) = true →
      p < loadedBits num_bits) ↔ Uncut num_bits bitmap := by
  unfold Uncut
  rcases Nat.le_total num_bits 256 with hle | hge
  · rw [loadedBits_of_le hle, show Nat.min num_bits 256 = num_bits from Nat.min_eq_left hle]
    exact iff_of_true (fun _ hp _ => hp) (Or.inl hle)
  · rw [loadedBits_of_ge hge, show Nat.min num_bits 256 = 256 from Nat.min_eq_right hge]
    by_cases hmod : num_bits % 32 = 0
    · rw [if_pos hmod]
      exact iff_of_true (fun _ hp _ => hp) (Or.inr (Or.inl (Nat.dvd_of_mod_eq_zero hmod)))
    · rw [if_neg hmod]
      constructor
      · intro hall
        refine Or.inr (Or.inr fun p hcut hp => ?_)
        by_contra hset
        have := hall p hp (by simpa using hset)
        omega
      · rintro (hle | hdvd | hnone) p hp hset
        · omega
        · exact absurd (Nat.mod_eq_zero_of_dvd hdvd) hmod
        · by_contra hcut
          rw [hnone p (by omega) hp] at hset
          cases hset

theorem loadedBits_le (num_bits : Nat) : loadedBits num_bits ≤ Nat.min num_bits 256 := by
  rcases Nat.le_total num_bits 256 with hle | hge
  · rw [loadedBits_of_le hle, show Nat.min num_bits 256 = num_bits from Nat.min_eq_left hle]
  · rw [loadedBits_of_ge hge, show Nat.min num_bits 256 = 256 from Nat.min_eq_right hge]
    split_ifs <;> omega

theorem loadsExactly_iff (s : BitmapRange T) (num_bits : Nat) (bitmap : Nat → BitVec 32) :
    LoadsExactly s num_bits bitmap ↔ Uncut num_bits bitmap := by
  obtain ⟨t, ht, hbase, hmax, hends, hbits⟩ := setBitmap_bits s num_bits bitmap
  have hset : ∀ p, bit t.bitmap_ p = true ↔
      p < loadedBits num_bits ∧ (bitmap (p / 32)).getMsbD (p % 32) = true := by
    intro p
    rw [hbits, Bool.and_eq_true, decide_eq_true_eq]
  have hle := loadedBits_le num_bits
  rw [← loaded_iff_uncut]
  constructor
  · rintro ⟨u, hu, -, -, hexact, -⟩ p hp hword
    obtain rfl : t = u := Option.some.inj (ht.symm.trans hu)
    exact ((hset p).1 ((hexact p).2 ⟨hp, hword⟩)).1
  · intro hloaded
    refine ⟨t, ht, hbase, hmax, fun p => ?_, hends⟩
    rw [hset]
    exact ⟨fun h => ⟨by omega, h.2⟩, fun h => ⟨hloaded p h.1 h.2, h.2⟩⟩

/-! ## The round trip -/

/-- A bitmap that ends at `num_bits_` is reproduced by what `getBitmap` returns. -/
theorem setBitmap_getBitmap {s : BitmapRange T} (h : EndsAt s.bitmap_ s.num_bits_)
    (t : BitmapRange T) :
    t.setBitmap s.getBitmap.num_bits (word s.getBitmap.bitmap) =
      some { t with num_bits_ := s.num_bits_, bitmap_ := s.bitmap_ } := by
  have h256 : s.num_bits_ ≤ 256 := h.le
  obtain ⟨u, hu, hbase, hmax, hset, hends⟩ :=
    (loadsExactly_iff t s.num_bits_ (word s.bitmap_)).2 (Or.inl h256)
  rw [show Nat.min s.num_bits_ 256 = s.num_bits_ from Nat.min_eq_left h256] at hset
  have hbits : ∀ p, bit u.bitmap_ p = true ↔ bit s.bitmap_ p = true := by
    intro p
    rw [hset]
    exact ⟨fun hp => hp.2, fun hp => ⟨h.bits_lt p hp, hp⟩⟩
  have hbitmap : u.bitmap_ = s.bitmap_ := bit_ext fun p => by
    rw [Bool.eq_iff_iff]
    exact hbits p
  have hnum : u.num_bits_ = s.num_bits_ := hends.unique h hbits
  refine hu.trans ?_
  rw [← hbase, ← hmax, ← hbitmap, ← hnum]

/-- `setBitmap` loads exactly the declared bits just where none is cut off, and it always loads what
`getBitmap` returns from a set whose bits end at `num_bits_`. -/
theorem setBitmap_exact_iff (s : BitmapRange T) (num_bits : Nat) (bitmap : Nat → BitVec 32) :
    (LoadsExactly s num_bits bitmap ↔ Uncut num_bits bitmap) ∧
      (EndsAt s.bitmap_ s.num_bits_ → ∀ t : BitmapRange T,
        t.setBitmap s.getBitmap.num_bits (word s.getBitmap.bitmap) =
          some { t with num_bits_ := s.num_bits_, bitmap_ := s.bitmap_ }) :=
  ⟨loadsExactly_iff s num_bits bitmap, fun h t => setBitmap_getBitmap h t⟩

/-- An empty set. -/
def noBits : BitmapRange (BitVec 32) :=
  ⟨100#32, 355#32, Vector.replicate 8 0#32, 0⟩

/-- Forty bits are loaded, and what `getBitmap` returns for them is loaded again. -/
theorem setBitmap_exact_forty :
    LoadsExactly noBits 40 (fun _ => BitVec.allOnes 32) ∧
      ∃ t, noBits.setBitmap 40 (fun _ => BitVec.allOnes 32) = some t ∧ t.num_bits_ = 40 ∧
        noBits.setBitmap t.getBitmap.num_bits (word t.getBitmap.bitmap) = some t := by
  have hload : LoadsExactly noBits 40 fun _ => BitVec.allOnes 32 :=
    (setBitmap_exact_iff noBits 40 fun _ => BitVec.allOnes 32).1.2 (Or.inl (by decide))
  obtain ⟨t, ht, hnum⟩ : ∃ t, noBits.setBitmap 40 (fun _ => BitVec.allOnes 32) = some t ∧
      t.num_bits_ = 40 := ⟨_, rfl, rfl⟩
  refine ⟨hload, t, ht, hnum, ?_⟩
  obtain ⟨u, hu, hbase, hmax, -, hends⟩ := hload
  obtain rfl : t = u := Option.some.inj (ht.symm.trans hu)
  rw [(setBitmap_exact_iff t 40 fun _ => BitVec.allOnes 32).2 hends noBits, ← hbase, ← hmax]

/-- A count of 257 with eight full words: the last 31 bits are lost. -/
theorem setBitmap_cuts :
    (∃ t, noBits.setBitmap 257 (fun _ => BitVec.allOnes 32) = some t ∧ t.num_bits_ = 225 ∧
      bit t.bitmap_ 255 = false) ∧
      ¬ LoadsExactly noBits 257 (fun _ => BitVec.allOnes 32) := by
  refine ⟨⟨_, rfl, rfl, rfl⟩, ?_⟩
  rintro ⟨t, ht, -, -, hbits, -⟩
  have hset := (hbits 255).2 ⟨by decide, by decide⟩
  cases ht
  revert hset
  decide

end BitmapRange

end DataStructure
end Mozi
