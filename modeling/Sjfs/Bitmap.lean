import Sjfs.Blocks
import Sjfs.Lib.Bitmap

/-!
# The inode bitmap

`inodes_bitmaps_cache` and the four places of `kernel_space_module/sjfs.c` that look at its bits:
the free-inode scan of `sjfs_iops_create`, its marking of the number it chose, the clearing in
`sjfs_iops_unlink`, and the root check of `sjfs_fill_super`. Each place computes byte and bit on its
own:

* the scan tests bit `m % 8` of byte `m / 8` for the number `m`;
* marking and clearing use bit `n % 8` of byte `n - n % 8`, so a number past the first eight has
  another bit there than in the scan (`slot`);
* the root check looks at bit 7 of byte 0, the scan at bit 0 for the root's number.

Inode numbers are those `sjfs_iops_create` gives out: values of its `int inode_number` that are not
negative, for which `inode_byte` does not wrap.

Results:
1. `used_mark`, `used_clear`: what a marking and a clearing look like to the scan.
2. `bitset_iff`: exactly when the three paths are those of one bitset.
-/

namespace Sjfs

open Lib

/-! ## The code -/

/-- The test of the scan for the inode number `m`, which it reaches as `i = m / 8`, `j = m % 8`. -/
def used (cache : Block) (m : Nat) : Bool := cache.test (m / 8) (m % 8)

/-- `inode_bit`. -/
def inodeBit (ino : Nat) : Nat := ino % 8

/-- `inode_byte`. -/
def inodeByte (ino : Nat) : Nat := ino - inodeBit ino

/-- `inodes_bitmaps_cache[inode_byte] |= (1 << inode_bit)`; `none` when the byte is outside the
cache. -/
def mark (cache : Block) (ino : Nat) : Option Block := cache.setBit (inodeByte ino) (inodeBit ino)

/-- `inodes_bitmaps_cache[inode_byte] &= ~(1 << inode_bit)`; `none` when the byte is outside the
cache. -/
def clear (cache : Block) (ino : Nat) : Option Block :=
  cache.clearBit (inodeByte ino) (inodeBit ino)

/-- The root check of `sjfs_fill_super` passes: `*inodes_bitmaps_cache >> 7` is not 0. -/
def rootCheck (cache : Block) : Bool := (cache.get 0).toNat >>> 7 != 0

/-! ## Marking and clearing, as the scan sees them -/

/-- The number for which the scan tests the bit that marking and clearing use for `n`. -/
def slot (n : Nat) : Nat := 64 * (n / 8) + n % 8

theorem slot_eq_iff (n : Nat) : slot n = n ↔ n < 8 := by
  unfold slot
  omega

theorem inodeBit_lt (n : Nat) : inodeBit n < 8 := Nat.mod_lt n (by decide)

theorem inodeByte_lt_iff (n : Nat) : inodeByte n < 1024 ↔ n < 1024 := by
  unfold inodeByte inodeBit
  omega

/-- The scan looks at the bit of `n` when it tests `slot n`, and for no other number. -/
theorem scans_iff (m n : Nat) : (m / 8 = inodeByte n ∧ m % 8 = inodeBit n) ↔ m = slot n := by
  unfold inodeByte inodeBit slot
  omega

theorem mark_isSome_iff (b : Block) (n : Nat) : (∃ b', mark b n = some b') ↔ n < 1024 := by
  unfold mark
  simp only [Bytes.setBit_eq_some_iff, exists_and_left, exists_eq, and_true]
  exact inodeByte_lt_iff n

theorem clear_isSome_iff (b : Block) (n : Nat) : (∃ b', clear b n = some b') ↔ n < 1024 := by
  unfold clear
  simp only [Bytes.clearBit_eq_some_iff, exists_and_left, exists_eq, and_true]
  exact inodeByte_lt_iff n

theorem used_mark {b b' : Block} {n : Nat} (h : mark b n = some b') (m : Nat) :
    used b' m = true ↔ m = slot n ∨ used b m = true := by
  unfold used
  rw [Bytes.test_setBit h (inodeBit_lt n), scans_iff]

theorem used_clear {b b' : Block} {n : Nat} (h : clear b n = some b') (m : Nat) :
    used b' m = true ↔ m ≠ slot n ∧ used b m = true := by
  unfold used
  rw [Bytes.test_clearBit h (inodeBit_lt n) _ (Nat.mod_lt m (by decide)), scans_iff]

/-! ## One bitset -/

/-- The scan, the marking and the clearing agree about the numbers `n` and `m`: marking and clearing
`n` stay inside the cache and, to the scan, add `n` and remove `n`. -/
def Bitset (b : Block) (n m : Nat) : Prop :=
  (∃ b', mark b n = some b' ∧ (used b' m = true ↔ m = n ∨ used b m = true)) ∧
  (∃ b', clear b n = some b' ∧ (used b' m = true ↔ m ≠ n ∧ used b m = true))

/-- The bitmap is a bitset in its first byte. Past it, marking `n` adds `slot n` and not `n`, which
shows at these two numbers, and from 1024 on it is not in the cache. -/
theorem bitset_iff (b : Block) (n m : Nat) :
    Bitset b n m ↔ n < 1024 ∧ (n < 8 ∨ (m ≠ n ∧ m ≠ slot n)) := by
  constructor
  · rintro ⟨⟨b₁, h₁, hmark⟩, b₂, h₂, hclear⟩
    refine ⟨(mark_isSome_iff b n).mp ⟨b₁, h₁⟩, ?_⟩
    rw [used_mark h₁] at hmark
    rw [used_clear h₂] at hclear
    rw [← slot_eq_iff]
    -- at `n` and at `slot n` one of the two updates shows a wrong bit, whatever `b` has there
    by_cases hused : used b m = true <;> simp only [hused] at hmark hclear <;> grind
  · rintro ⟨hlt, hcase⟩
    obtain ⟨b₁, h₁⟩ := (mark_isSome_iff b n).mpr hlt
    obtain ⟨b₂, h₂⟩ := (clear_isSome_iff b n).mpr hlt
    have hsame : m = slot n ↔ m = n := by
      rcases hcase with hsmall | ⟨hne, hne'⟩
      · rw [(slot_eq_iff n).mpr hsmall]
      · exact iff_of_false hne' hne
    refine ⟨⟨b₁, h₁, ?_⟩, b₂, h₂, ?_⟩
    · rw [used_mark h₁, hsame]
    · rw [used_clear h₂, ne_eq, hsame]

/-- A number that was just marked is free to the next scan: in an empty bitmap, marking 8 sets a bit
that the scan takes for the number 64. -/
theorem marked_eight_seen_free :
    (∃ b', mark Bytes.zero 8 = some b' ∧ used b' 8 = false ∧ used b' 64 = true) ∧
    ¬ ∀ b n m, n < inodesPerBitmap → m < inodesPerBitmap → Bitset b n m := by
  obtain ⟨b', hb'⟩ := (mark_isSome_iff Bytes.zero 8).mpr (by decide)
  have hzero : ∀ m, used Bytes.zero m = false := fun m => Bytes.test_zero (m / 8) (m % 8)
  have hmark : ∀ m, used b' m = true ↔ m = 64 := fun m => by
    rw [used_mark hb', hzero]
    simp [slot]
  refine ⟨⟨b', hb', ?_, (hmark 64).mpr rfl⟩, fun h => ?_⟩
  · rw [← Bool.not_eq_true, hmark]
    decide
  · obtain ⟨⟨b₁, h₁, hiff⟩, _⟩ := h Bytes.zero 8 8 (by decide) (by decide)
    rw [hb'] at h₁
    cases h₁
    rw [hmark, hzero] at hiff
    simp at hiff

/-! ## The bits that marking and clearing use -/

/-- The bit that `sjfs_iops_create` sets and `sjfs_iops_unlink` clears for `n`. -/
def held (cache : Block) (n : Nat) : Bool := cache.test (inodeByte n) (inodeBit n)

theorem sameBit_iff (m n : Nat) :
    (inodeByte m = inodeByte n ∧ inodeBit m = inodeBit n) ↔ m = n := by
  unfold inodeByte inodeBit
  omega

theorem held_mark {b b' : Block} {n : Nat} (h : mark b n = some b') (m : Nat) :
    held b' m = true ↔ m = n ∨ held b m = true := by
  unfold held
  rw [Bytes.test_setBit h (inodeBit_lt n), sameBit_iff]

theorem held_clear {b b' : Block} {n : Nat} (h : clear b n = some b') (m : Nat) :
    held b' m = true ↔ m ≠ n ∧ held b m = true := by
  unfold held
  rw [Bytes.test_clearBit h (inodeBit_lt n) _ (inodeBit_lt m), sameBit_iff]

theorem lt_of_held {b : Block} {n : Nat} (h : held b n = true) : n < 1024 := by
  by_contra hge
  have hbyte : 1024 ≤ inodeByte n := by
    have := inodeByte_lt_iff n
    omega
  unfold held at h
  rw [Bytes.test_of_le b hbyte] at h
  cases h

end Sjfs
