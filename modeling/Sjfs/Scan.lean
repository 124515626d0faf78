import Sjfs.Bitmap

/-!
# The free-inode scan

The two nested loops at the head of `sjfs_iops_create` of `kernel_space_module/sjfs.c`.

The outer loop goes on while `i < sizeof(SJFS_BLOCKSIZE)`, which is 4, the size of an `int`, or
while a number has been found; the `break` leaves the inner loop only. So a number that was found
keeps the outer loop going past the end of the cache, and the scan comes to its end only when bytes
0 to 3 leave it with the number 0.

Results:
1. `scan_of_pos`: a scan with a number in hand leaves the cache.
2. `scan_eq`: what the scan does, for every bitmap.
3. `scanOk_iff`: exactly when it ends and stays in the bitmap.
-/

namespace Sjfs

open Lib

/-! ## The code -/

/-- The inner loop on byte `i`, whose value is `v`: the first clear bit gives the number, and a byte
without one leaves it as it was. -/
def scanByte (v : UInt8) (i inodeNumber : Nat) : Nat :=
  match (List.range 8).find? fun j => !bit v j with
  | some j => 8 * i + j
  | none => inodeNumber

/-- The outer loop from byte `i` on; `none` when it reads a byte outside the cache. -/
def scan (cache : Block) (i inodeNumber : Nat) : Option Nat :=
  if i < sizeofBlockSize ∨ 0 < inodeNumber then
    if i < 1024 then scan cache (i + 1) (scanByte (cache.get i) i inodeNumber) else none
  else some inodeNumber
termination_by 1024 - i

/-! ## One byte -/

/-- A byte without a clear bit. -/
def fullByte (v : UInt8) : Bool := (List.range 8).all fun j => bit v j

theorem fullByte_iff (v : UInt8) : fullByte v = true ↔ ∀ j < 8, bit v j = true := by
  simp [fullByte]

theorem find_clear_eq_none_iff (v : UInt8) :
    (List.range 8).find? (fun j => !bit v j) = none ↔ fullByte v = true := by
  rw [List.find?_eq_none, fullByte_iff]
  simp

theorem scanByte_of_full {v : UInt8} (h : fullByte v = true) (i n : Nat) : scanByte v i n = n := by
  unfold scanByte
  rw [(find_clear_eq_none_iff v).mpr h]

/-- A byte with a clear bit gives a number of its own. -/
theorem scanByte_of_not_full {v : UInt8} (h : fullByte v = false) (i n : Nat) :
    ∃ j < 8, bit v j = false ∧ scanByte v i n = 8 * i + j := by
  unfold scanByte
  cases hfind : (List.range 8).find? fun j => !bit v j with
  | some j =>
    have hclear : bit v j = false := by simpa using List.find?_some hfind
    exact ⟨j, List.mem_range.mp (List.mem_of_find?_eq_some hfind), hclear, rfl⟩
  | none =>
    rw [find_clear_eq_none_iff, h] at hfind
    cases hfind

/-- Past byte 0 the number stays positive once it is. -/
theorem scanByte_pos (v : UInt8) {i n : Nat} (hi : 1 ≤ i) (hn : 0 < n) : 0 < scanByte v i n := by
  cases hv : fullByte v with
  | true => rwa [scanByte_of_full hv]
  | false =>
    obtain ⟨j, _, _, hj⟩ := scanByte_of_not_full hv i n
    rw [hj]
    omega

/-- In byte 0 the scan comes out with 0 when bit 0 is the first clear bit, or when there is none. -/
theorem scanByte_zero_eq_zero_iff (v : UInt8) :
    scanByte v 0 0 = 0 ↔ bit v 0 = false ∨ fullByte v = true := by
  constructor
  · intro h
    cases hfull : fullByte v with
    | true => exact .inr rfl
    | false =>
      obtain ⟨j, _, hclear, hj⟩ := scanByte_of_not_full hfull 0 0
      obtain rfl : j = 0 := by omega
      exact .inl hclear
  · rintro (hclear | hfull)
    · unfold scanByte
      have hfind : (List.range 8).find? (fun j => !bit v j) = some 0 := by
        simp [List.range_succ_eq_map, hclear]
      rw [hfind]
    · exact scanByte_of_full hfull 0 0

/-! ## All bytes -/

/-- With a number in hand the scan goes on until it leaves the cache. -/
theorem scan_of_pos (cache : Block) {i n : Nat} (hi : 1 ≤ i) (hn : 0 < n) : scan cache i n = none := by
  fun_induction scan cache i n with
  | case1 i n _ _ ih => exact ih (by omega) (scanByte_pos _ hi hn)
  | case2 => rfl
  | case3 i n hend => exact absurd (.inr hn) hend

/-- Without one, a byte among the first four decides whether it goes on. -/
theorem scan_zero_of_lt (cache : Block) {i : Nat} (hi : 1 ≤ i) (hlt : i < 4) :
    scan cache i 0 = if fullByte (cache.get i) then scan cache (i + 1) 0 else none := by
  rw [scan, if_pos (.inl hlt), if_pos (by omega)]
  split
  · next hfull => rw [scanByte_of_full hfull]
  · next hfull =>
    obtain ⟨j, _, _, hj⟩ := scanByte_of_not_full (by simpa using hfull) i 0
    exact scan_of_pos cache (by omega) (by omega)

/-- Bytes 0 to 3 let the scan come to its end: none of 1 to 3 has a clear bit, and byte 0 has none
or has one at bit 0. -/
def quiet (cache : Block) : Bool :=
  (!bit (cache.get 0) 0 || fullByte (cache.get 0)) && fullByte (cache.get 1) &&
    fullByte (cache.get 2) && fullByte (cache.get 3)

/-- The scan ends with no number found, or it leaves the cache. -/
theorem scan_eq (cache : Block) : scan cache 0 0 = if quiet cache then some 0 else none := by
  have hend : scan cache 4 0 = some 0 := by
    rw [scan, if_neg (by decide)]
  have hrest : scan cache 1 0 = if fullByte (cache.get 1) && fullByte (cache.get 2) &&
      fullByte (cache.get 3) then some 0 else none := by
    rw [scan_zero_of_lt cache (by decide) (by decide), scan_zero_of_lt cache (by decide) (by decide),
      scan_zero_of_lt cache (by decide) (by decide), hend]
    cases fullByte (cache.get 1) <;> cases fullByte (cache.get 2) <;>
      cases fullByte (cache.get 3) <;> rfl
  rw [scan, if_pos (.inl (by decide)), if_pos (by decide)]
  by_cases hzero : scanByte (cache.get 0) 0 0 = 0
  · have hfirst := (scanByte_zero_eq_zero_iff _).mp hzero
    rw [hzero, hrest]
    unfold quiet
    rcases hfirst with h | h <;> simp [h]
  · have hfirst := (scanByte_zero_eq_zero_iff _).not.mp hzero
    rw [scan_of_pos cache (Nat.le_refl 1) (Nat.pos_of_ne_zero hzero), if_neg]
    unfold quiet
    simp_all

/-! ## The scan and the bitmap -/

theorem fullByte_eq_iff (cache : Block) (i : Nat) :
    fullByte (cache.get i) = true ↔ ∀ m, m / 8 = i → used cache m = true := by
  rw [fullByte_iff]
  constructor
  · rintro h m rfl
    exact h (m % 8) (Nat.mod_lt m (by decide))
  · intro h j hj
    have hbit := h (8 * i + j) (by omega)
    rwa [used, Bytes.test, show (8 * i + j) / 8 = i by omega,
      show (8 * i + j) % 8 = j by omega] at hbit

/-- The numbers 8 to 31 are all used, and number 0 is free or all of 0 to 7 are used. -/
def NothingFound (cache : Block) : Prop :=
  (∀ m, 8 ≤ m → m < 32 → used cache m = true) ∧
  (used cache 0 = false ∨ ∀ m < 8, used cache m = true)

theorem quiet_iff (cache : Block) : quiet cache = true ↔ NothingFound cache := by
  have hzero : used cache 0 = bit (cache.get 0) 0 := rfl
  simp only [quiet, NothingFound, Bool.and_eq_true, Bool.or_eq_true, Bool.not_eq_true',
    fullByte_eq_iff, hzero]
  constructor
  · rintro ⟨⟨⟨h0, h1⟩, h2⟩, h3⟩
    refine ⟨fun m hle hlt => ?_, h0.imp id fun h m hm => h m (by omega)⟩
    obtain h | h | h : m / 8 = 1 ∨ m / 8 = 2 ∨ m / 8 = 3 := by omega
    · exact h1 m h
    · exact h2 m h
    · exact h3 m h
  · rintro ⟨hmid, h0⟩
    refine ⟨⟨⟨h0.imp id fun h m hm => h m (by omega), ?_⟩, ?_⟩, ?_⟩ <;>
      exact fun m hm => hmid m (by omega) (by omega)

/-- The scan of this bitmap ends without leaving the cache, and a number it comes out with is free
and has a bit in the bitmap. -/
def ScanOk (cache : Block) : Prop :=
  ∃ n, scan cache 0 0 = some n ∧ (0 < n → n < inodesPerBitmap ∧ used cache n = false)

/-- The scan ends and stays in the bitmap exactly when it finds nothing in bytes 0 to 3. -/
theorem scanOk_iff (cache : Block) :
    ScanOk cache ↔ (∀ m, 8 ≤ m → m < 32 → used cache m = true) ∧
      (used cache 0 = false ∨ ∀ m < 8, used cache m = true) := by
  have hiff := quiet_iff cache
  unfold ScanOk
  rw [scan_eq]
  constructor
  · rintro ⟨n, hscan, _⟩
    refine hiff.mp ?_
    by_contra hquiet
    rw [if_neg hquiet] at hscan
    cases hscan
  · intro h
    rw [if_pos (hiff.mpr h)]
    exact ⟨0, rfl, fun h0 => absurd h0 (Nat.lt_irrefl 0)⟩

/-- On an empty bitmap but for the root's number, the scan finds 1 and leaves the cache with it. -/
theorem scan_of_root_only_leaves_cache :
    scan (Bytes.zero.set 0 1) 0 0 = none ∧ ¬ ∀ cache, ScanOk cache := by
  have hscan : scan (Bytes.zero.set 0 1) 0 0 = none := by
    rw [scan_eq, if_neg]
    decide
  refine ⟨hscan, ?_⟩
  intro h
  obtain ⟨n, hn, _⟩ := h (Bytes.zero.set 0 1)
  rw [hscan] at hn
  cases hn

end Sjfs
