import Sjfs.Lib.CMemory

/-!
# Bits of a byte sequence

The three things C code does with a bitmap of bytes: test bit `j` of byte `i`, set it, and clear it.
Byte and bit are separate arguments; how a number is split into them is up to the caller. Setting or
clearing a bit of a byte that is not there has no result.
-/

namespace Sjfs.Lib

/-! ## One byte -/

/-- `(v >> j) & 1`. -/
def bit (v : UInt8) (j : Nat) : Bool := (v.toNat >>> j) &&& 1 != 0

/-- `v |= (1 << j)`. -/
def orBit (v : UInt8) (j : Nat) : UInt8 := v ||| UInt8.ofNat (1 <<< j)

/-- `v &= ~(1 << j)`. -/
def andNotBit (v : UInt8) (j : Nat) : UInt8 := v &&& ~~~ UInt8.ofNat (1 <<< j)

theorem bit_eq_testBit (v : UInt8) (j : Nat) : bit v j = v.toNat.testBit j := by
  unfold bit Nat.testBit
  rw [Nat.and_comm]

/-- A byte with one bit set. -/
theorem toNat_mask {j : Nat} (hj : j < 8) : (UInt8.ofNat (1 <<< j)).toNat = 2 ^ j := by
  have hlt : 2 ^ j < 2 ^ 8 := Nat.pow_lt_pow_right (by decide) hj
  rw [Nat.one_shiftLeft, UInt8.toNat_ofNat', Nat.mod_eq_of_lt hlt]

theorem bit_orBit (v : UInt8) {j : Nat} (hj : j < 8) (k : Nat) :
    bit (orBit v j) k = true ↔ k = j ∨ bit v k = true := by
  rw [bit_eq_testBit, bit_eq_testBit, orBit, UInt8.toNat_or, toNat_mask hj, Nat.testBit_or,
    Nat.testBit_two_pow, Bool.or_eq_true, decide_eq_true_iff, or_comm, eq_comm]

theorem bit_andNotBit (v : UInt8) {j k : Nat} (hj : j < 8) (hk : k < 8) :
    bit (andNotBit v j) k = true ↔ k ≠ j ∧ bit v k = true := by
  have hlt : 2 ^ j < 2 ^ 8 := Nat.pow_lt_pow_right (by decide) hj
  have hnot : (~~~ UInt8.ofNat (1 <<< j)).toNat = 2 ^ 8 - (2 ^ j + 1) := by
    rw [UInt8.toNat_not, toNat_mask hj]
    show 2 ^ 8 - 1 - 2 ^ j = _
    omega
  rw [bit_eq_testBit, bit_eq_testBit, andNotBit, UInt8.toNat_and, hnot, Nat.testBit_and,
    Nat.testBit_two_pow_sub_succ hlt, Nat.testBit_two_pow]
  simp only [hk, decide_true, Bool.true_and, Bool.and_eq_true, Bool.not_eq_true',
    decide_eq_false_iff_not]
  rw [and_comm, ne_comm]

/-! ## Many bytes -/

namespace Bytes

variable {n : Nat}

/-- Bit `j` of byte `i`. -/
def test (b : Bytes n) (i j : Nat) : Bool := bit (b.get i) j

/-- `b[i] |= (1 << j)`. -/
def setBit (b : Bytes n) (i j : Nat) : Option (Bytes n) :=
  if i < n then some (b.set i (orBit (b.get i) j)) else none

/-- `b[i] &= ~(1 << j)`. -/
def clearBit (b : Bytes n) (i j : Nat) : Option (Bytes n) :=
  if i < n then some (b.set i (andNotBit (b.get i) j)) else none

theorem test_zero (i j : Nat) : (zero : Bytes n).test i j = false := by
  simp [test, bit]

theorem setBit_eq_some_iff {b : Bytes n} {i j : Nat} {b' : Bytes n} :
    b.setBit i j = some b' ↔ i < n ∧ b' = b.set i (orBit (b.get i) j) := by
  unfold setBit
  split <;> simp_all [eq_comm]

theorem clearBit_eq_some_iff {b : Bytes n} {i j : Nat} {b' : Bytes n} :
    b.clearBit i j = some b' ↔ i < n ∧ b' = b.set i (andNotBit (b.get i) j) := by
  unfold clearBit
  split <;> simp_all [eq_comm]

theorem test_of_le (b : Bytes n) {i : Nat} (h : n ≤ i) (j : Nat) : b.test i j = false := by
  have hget : b.get i = 0 := dif_neg (by omega)
  simp [test, hget, bit]

theorem test_set (b : Bytes n) {i : Nat} (hi : i < n) (v : UInt8) (k l : Nat) :
    (b.set i v).test k l = if k = i then bit v l else b.test k l := by
  unfold test
  by_cases hk : k < n
  · rw [get_set b hk]
    split <;> rfl
  · have hne : k ≠ i := by omega
    rw [if_neg hne]
    exact (test_of_le _ (by omega) l).trans (test_of_le b (by omega) l).symm

theorem test_setBit {b b' : Bytes n} {i j : Nat} (h : b.setBit i j = some b') (hj : j < 8)
    (k l : Nat) : b'.test k l = true ↔ (k = i ∧ l = j) ∨ b.test k l = true := by
  obtain ⟨hi, rfl⟩ := setBit_eq_some_iff.mp h
  rw [test_set b hi]
  split
  · next hk =>
    subst hk
    rw [bit_orBit _ hj]
    simp [test]
  · next hk => simp [hk]

theorem test_clearBit {b b' : Bytes n} {i j : Nat} (h : b.clearBit i j = some b') (hj : j < 8)
    (k : Nat) {l : Nat} (hl : l < 8) :
    b'.test k l = true ↔ ¬ (k = i ∧ l = j) ∧ b.test k l = true := by
  obtain ⟨hi, rfl⟩ := clearBit_eq_some_iff.mp h
  rw [test_set b hi]
  split
  · next hk =>
    subst hk
    rw [bit_andNotBit _ hj hl]
    simp [test]
  · next hk => simp [hk]

end Bytes

end Sjfs.Lib
