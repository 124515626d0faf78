import Mathlib.Algebra.Group.Nat.Defs
import Mathlib.Data.List.Basic

/-!
# Printing numbers into a buffer of fixed size

`decimal n` is what the conversion `%u` prints, as ASCII bytes. `scnprintf` is the kernel's
bounded print: it stores at most `size - 1` characters and a NUL, and returns the number of
characters it stored. `take_decimal` says what is left of a number when its decimal text is cut
after `k` characters: its leading `k` digits.
-/

namespace Sjfs.Lib

/-- The ASCII code of a character. -/
def ascii (c : Char) : UInt8 := UInt8.ofNat c.toNat

/-- The text `%u` prints for `n`. -/
def decimal (n : Nat) : List UInt8 := (Nat.toDigits 10 n).map ascii

/-- `scnprintf(buf, size, ..)` printing `text`: the bytes it stores, and its return value. -/
def scnprintf (size : Nat) (text : List UInt8) : List UInt8 × Nat :=
  if size = 0 then ([], 0)
  else (text.take (size - 1) ++ [0], min text.length (size - 1))

/-- The number of the leading `k` decimal digits of `n`: `n` divided by ten until at most `k`
digits are left. -/
def leadingDigits (k n : Nat) : Nat :=
  if n < 10 ^ k then n else leadingDigits k (n / 10)
termination_by n
decreasing_by
  have := Nat.pow_pos (n := k) (show 0 < 10 by decide)
  exact Nat.div_lt_self (by omega) (by decide)

theorem leadingDigits_of_lt {k n : Nat} (h : n < 10 ^ k) : leadingDigits k n = n := by
  rw [leadingDigits, if_pos h]

theorem leadingDigits_of_le {k n : Nat} (h : 10 ^ k ≤ n) :
    leadingDigits k n = leadingDigits k (n / 10) := by
  rw [leadingDigits, if_neg (by omega)]

namespace PrintfLemmas

theorem digitChar_inj {m n : Nat} (hm : m < 10) (hn : n < 10)
    (h : ascii m.digitChar = ascii n.digitChar) : m = n := by
  have hall : ∀ i j : Fin 10, ascii i.val.digitChar = ascii j.val.digitChar → i = j := by decide
  exact congrArg Fin.val (hall ⟨m, hm⟩ ⟨n, hn⟩ h)

theorem decimal_of_lt {n : Nat} (h : n < 10) : decimal n = [ascii n.digitChar] := by
  unfold decimal
  rw [Nat.toDigits_of_lt_base h]
  rfl

theorem decimal_of_le {n : Nat} (h : 10 ≤ n) :
    decimal n = decimal (n / 10) ++ [ascii (n % 10).digitChar] := by
  unfold decimal
  rw [Nat.toDigits_of_base_le (by decide) h, List.map_append]
  rfl

theorem decimal_ne_nil (n : Nat) : decimal n ≠ [] := by
  unfold decimal
  simp [Nat.toDigits_ne_nil]

theorem length_decimal_le {n k : Nat} (hk : 0 < k) : (decimal n).length ≤ k ↔ n < 10 ^ k := by
  unfold decimal
  rw [List.length_map]
  exact Nat.length_toDigits_le_iff (by decide) hk

end PrintfLemmas

open PrintfLemmas

/-- Numbers are printed differently. -/
theorem decimal_injective {m n : Nat} (h : decimal m = decimal n) : m = n := by
  induction m using Nat.strongRecOn generalizing n with
  | ind m ih =>
    rcases Nat.lt_or_ge m 10 with hm | hm <;> rcases Nat.lt_or_ge n 10 with hn | hn
    · rw [decimal_of_lt hm, decimal_of_lt hn, List.singleton_inj] at h
      exact digitChar_inj hm hn h
    · rw [decimal_of_lt hm, decimal_of_le hn] at h
      have hlen := congrArg List.length h
      simp at hlen
      exact absurd hlen (decimal_ne_nil _)
    · rw [decimal_of_le hm, decimal_of_lt hn] at h
      have hlen := congrArg List.length h
      simp at hlen
      exact absurd hlen (decimal_ne_nil _)
    · rw [decimal_of_le hm, decimal_of_le hn] at h
      obtain ⟨hinit, hlast⟩ := List.append_inj' h rfl
      have hdiv : m / 10 = n / 10 := ih (m / 10) (by omega) hinit
      have hmod : m % 10 = n % 10 :=
        digitChar_inj (by omega) (by omega) (List.singleton_inj.mp hlast)
      omega

/-- Cutting the printed number after `k` characters leaves its leading `k` digits. -/
theorem take_decimal {k : Nat} (hk : 0 < k) (n : Nat) :
    (decimal n).take k = decimal (leadingDigits k n) := by
  induction n using Nat.strongRecOn with
  | ind n ih =>
    rcases Nat.lt_or_ge n (10 ^ k) with hn | hn
    · rw [leadingDigits_of_lt hn, List.take_of_length_le ((length_decimal_le hk).mpr hn)]
    · have h10 : 10 ≤ n := Nat.le_trans (Nat.le_self_pow (by omega) 10) hn
      have hlong : k ≤ (decimal (n / 10)).length := by
        rcases Nat.lt_or_ge 1 k with hk1 | hk1
        · have hnot : ¬ n / 10 < 10 ^ (k - 1) := by
            have hsplit : 10 ^ k = 10 ^ (k - 1) * 10 := by
              rw [← Nat.pow_succ]
              congr 1
              omega
            omega
          have := (length_decimal_le (n := n / 10) (show 0 < k - 1 by omega)).not.mpr hnot
          omega
        · have := List.length_pos_iff.mpr (decimal_ne_nil (n / 10))
          omega
      rw [leadingDigits_of_le hn, decimal_of_le h10, List.take_append_of_le_length hlong]
      exact ih (n / 10) (by omega)

end Sjfs.Lib
