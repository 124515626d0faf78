import Sjfs.Format
import Sjfs.Options
import Mathlib.Data.Rat.Floor

/-!
# The size of a formatted disk, and what `format` reports

The loop of `format` runs over a count of bytes from `BLOCK_SIZE` to `size`, while `size` is a count
of blocks, and each round writes `sizeof(zeroBlock)` bytes, the size of a pointer. The result of the
`fwrite` of a round is stored in `bytes` and never looked at.

The counter of the loop is an `int` and is raised once more before it is found to be too large, so
the sizes within a block of the largest `int` take it out of its range. The option check lets these
sizes through.

Results:
1. `loopEnds_iff`: the loop ends exactly for sizes up to `2^31 - 1024`, and then it has made
   `⌈(size - 1024) / 1024⌉` writes.
2. `format_never_sized`: the file has `8 + 8 * zeroRounds` bytes and never `size * 1024`.
3. `format_reports_iff`: which failures of libc the result shows.
-/

namespace Sjfs

open Lib

/-! ## The loop -/

/-- How many rounds the loop makes from the counter `i` on: `(size - i) / BLOCK_SIZE` rounded up. -/
def roundsFrom (size i : Int) : Nat := ((size - i + (blockSize - 1)) / blockSize).toNat

/-- The rounds of one run of `format`. -/
def zeroRounds (size : Int) : Nat := roundsFrom size blockSize

/-- What `n` rounds from round `k` on leave in the file. -/
def zeroWrites (libc : Libc) (k n : Nat) : List UInt8 :=
  (List.range n).flatMap fun j => zeros (libc.fwriteZero (k + j))

theorem roundsFrom_of_lt {size i : Int} (h : i < size) :
    roundsFrom size i = roundsFrom size (i + blockSize) + 1 := by
  simp only [roundsFrom, blockSize]
  omega

theorem roundsFrom_of_le {size i : Int} (h : size ≤ i) : roundsFrom size i = 0 := by
  simp only [roundsFrom, blockSize]
  omega

theorem zeroWrites_succ (libc : Libc) (k n : Nat) :
    zeroWrites libc k (n + 1) = zeros (libc.fwriteZero k) ++ zeroWrites libc (k + 1) n := by
  unfold zeroWrites
  rw [List.range_succ_eq_map, List.flatMap_cons, List.flatMap_map]
  congr 1
  refine List.flatMap_congr ?_
  intro j _
  rw [show k + j.succ = k + 1 + j by omega]

/-- Up to `2^31 - 1024` the counter stays an `int`, and the loop appends its writes to the file. -/
theorem zeroLoop_ok {libc : Libc} {size i : Int} {k : Nat} {file : List UInt8}
    (hfits : size ≤ 2 ^ 31 - blockSize) :
    zeroLoop libc size i k file = .ok (file ++ zeroWrites libc k (roundsFrom size i)) := by
  fun_induction zeroLoop libc size i k file with
  | case1 i k file hlt _ ih =>
    rw [ih, roundsFrom_of_lt hlt, zeroWrites_succ, List.append_assoc]
  | case2 i k file hlt hbig => omega
  | case3 i k file hge =>
    rw [roundsFrom_of_le (by omega)]
    simp [zeroWrites]

/-- Beyond that, the counter comes to `2^31 - 1024`, is still below `size` and overflows. -/
theorem zeroLoop_overflows {libc : Libc} {size i : Int} {k : Nat} {file : List UInt8}
    (hbig : 2 ^ 31 - blockSize < size) (hi : i ≤ 2 ^ 31 - blockSize)
    (hmultiple : (blockSize : Int) ∣ i) :
    zeroLoop libc size i k file = .error .signedOverflow := by
  fun_induction zeroLoop libc size i k file with
  | case1 i k file _ hsmall ih =>
    refine ih ?_ (Int.dvd_add hmultiple (Int.dvd_refl _))
    simp only [blockSize] at *
    omega
  | case2 => rfl
  | case3 i k file hge => omega

/-! ## Its end -/

/-- The loop ends, with its counter an `int` throughout, after `⌈(size - BLOCK_SIZE) / BLOCK_SIZE⌉`
rounds, or none if that is negative: whatever libc stores, the writes of these rounds and no others
are in the file. -/
def LoopEnds (size : Int) : Prop :=
  ∃ n : Nat, (n : Int) = max 0 ⌈((size - blockSize : Int) : ℚ) / blockSize⌉ ∧
    ∀ libc file, zeroLoop libc size blockSize 0 file = .ok (file ++ zeroWrites libc 0 n)

theorem zeroRounds_eq_ceil (size : Int) :
    (zeroRounds size : Int) = max 0 ⌈((size - blockSize : Int) : ℚ) / blockSize⌉ := by
  rw [Rat.ceil_intCast_div_natCast]
  simp only [zeroRounds, roundsFrom, blockSize]
  omega

/-- The counter stays an `int` exactly for sizes that are at least a block away from its limit. -/
theorem loopEnds_iff (size : Int) : LoopEnds size ↔ size ≤ 2 ^ 31 - blockSize := by
  constructor
  · rintro ⟨n, _, hruns⟩
    by_contra hbig
    have hrun := hruns .works []
    rw [zeroLoop_overflows (Int.not_le.mp hbig) (by decide) (Int.dvd_refl _)] at hrun
    cases hrun
  · intro hfits
    exact ⟨zeroRounds size, zeroRounds_eq_ceil size, fun libc file => zeroLoop_ok hfits⟩

/-- `-n 2147483647` is let through, and the counter overflows. -/
theorem largest_size_overflows :
    mainOptions [.n ['2', '1', '4', '7', '4', '8', '3', '6', '4', '7']] (some "disk") =
      .format "disk" 2147483647 ∧
    zeroLoop .works 2147483647 blockSize 0 (zeros 8) = .error .signedOverflow ∧
    ¬ ∀ size : Int, minBlocks ≤ size → size < 2 ^ 31 → LoopEnds size := by
  have hover : ∀ file, zeroLoop .works 2147483647 blockSize 0 file = .error .signedOverflow :=
    fun file => zeroLoop_overflows (by decide) (by decide) (Int.dvd_refl _)
  refine ⟨by decide, hover _, ?_⟩
  intro h
  obtain ⟨n, _, hruns⟩ := h 2147483647 (by decide) (by decide)
  have hrun := hruns .works []
  rw [hover] at hrun
  cases hrun

/-! ## One run -/

/-- All calls up to the loop do what they were asked to. -/
structure Libc.ReachesLoop (libc : Libc) : Prop where
  callocSb : libc.callocSb = true
  fopen : libc.fopen = true
  fwriteSb : libc.fwriteSb = sizeofPointer
  callocZero : libc.callocZero = true

theorem Libc.works_reachesLoop : Libc.works.ReachesLoop := ⟨rfl, rfl, rfl, rfl⟩

/-- A call before the loop fails: the result is 0, and a file that was opened is closed. -/
theorem format_of_early {libc : Libc} (size : Int) (h : ¬ libc.ReachesLoop) :
    ∃ r, format libc size = .ok r ∧ r.ret = 0 ∧ (r.file.isSome → r.closes = 1) := by
  unfold format
  split
  · exact ⟨_, rfl, rfl, by simp⟩
  next hsb =>
  split
  · exact ⟨_, rfl, rfl, by simp⟩
  next hopen =>
  dsimp only
  split
  · exact ⟨_, rfl, rfl, fun _ => rfl⟩
  next hwrite =>
  split
  · exact ⟨_, rfl, rfl, fun _ => rfl⟩
  next hzero =>
  exact absurd ⟨by simpa using hsb, by simpa using hopen, by simpa using hwrite,
    by simpa using hzero⟩ h

theorem format_of_reachesLoop {libc : Libc} {size : Int} (h : libc.ReachesLoop) :
    format libc size = (zeroLoop libc size blockSize 0 (zeros sizeofPointer)).map fun file =>
      ⟨if libc.fclose then 1 else 0, some file, 1⟩ := by
  simp only [format, h.callocSb, h.fopen, h.fwriteSb, h.callocZero]
  simp only [Bool.not_true, Bool.false_eq_true, ite_false, ne_eq, not_true_eq_false]
  cases zeroLoop libc size blockSize 0 (zeros sizeofPointer) <;> rfl

theorem format_of_fits {libc : Libc} {size : Int} (h : libc.ReachesLoop)
    (hfits : size ≤ 2 ^ 31 - blockSize) :
    format libc size = .ok ⟨if libc.fclose then 1 else 0,
      some (zeros sizeofPointer ++ zeroWrites libc 0 (zeroRounds size)), 1⟩ := by
  rw [format_of_reachesLoop h, zeroLoop_ok hfits]
  rfl

theorem format_of_big {libc : Libc} {size : Int} (h : libc.ReachesLoop)
    (hbig : 2 ^ 31 - blockSize < size) : format libc size = .error .signedOverflow := by
  rw [format_of_reachesLoop h, zeroLoop_overflows hbig (by decide) (Int.dvd_refl _)]
  rfl

/-! ## The size of the file -/

/-- What the usage text promises for a disk of `size` blocks: the result is 1, and the file is a
superblock of one block followed by `size - 1` blocks of zeros. -/
def Sized (size : Int) : Prop :=
  ∃ r sb, format .works size = .ok r ∧ r.ret = 1 ∧ sb.length = blockSize ∧
    r.file = some (sb ++ List.replicate ((size - 1) * blockSize).toNat 0)

theorem length_zeroWrites_works (k n : Nat) : (zeroWrites .works k n).length = 8 * n := by
  induction n generalizing k with
  | zero => rfl
  | succ n ih =>
    rw [zeroWrites_succ, List.length_append, ih]
    simp only [zeros, Libc.works, sizeofPointer, List.length_replicate]
    omega

/-- With libc working, the file has 8 bytes for the superblock and 8 for each round. -/
theorem length_of_format {size : Int} {r : Formatted} {file : List UInt8}
    (h : format .works size = .ok r) (hfile : r.file = some file) :
    file.length = 8 + 8 * zeroRounds size := by
  rcases Int.lt_or_le (2 ^ 31 - blockSize) size with hbig | hfits
  · rw [format_of_big Libc.works_reachesLoop hbig] at h
    cases h
  · rw [format_of_fits Libc.works_reachesLoop hfits] at h
    cases h
    cases hfile
    rw [List.length_append, length_zeroWrites_works]
    rfl

/-- No size gives a disk of that size. -/
theorem format_never_sized (size : Int) : ¬ Sized size := by
  rintro ⟨r, sb, hrun, _, hsb, hfile⟩
  have hlength := length_of_format hrun hfile
  rw [List.length_append, List.length_replicate, hsb] at hlength
  simp only [zeroRounds, roundsFrom, blockSize] at hlength
  omega

/-- The smallest size the option check lets through leaves 8 bytes and not 6144. -/
theorem format_six_unsized :
    (∃ r file, format .works minBlocks = .ok r ∧ r.ret = 1 ∧ r.file = some file ∧
      file.length = 8) ∧
    ¬ ∀ size : Int, minBlocks ≤ size → size < 2 ^ 31 → Sized size := by
  refine ⟨⟨_, _, format_six, rfl, rfl, rfl⟩, ?_⟩
  intro h
  obtain ⟨r, sb, hrun, _, hsb, hfile⟩ := h 6 (by decide) (by decide)
  have hlength := length_of_format hrun hfile
  rw [List.length_append, List.length_replicate, hsb, show zeroRounds 6 = 0 by decide] at hlength
  simp only [blockSize] at hlength
  omega

/-! ## What the result shows -/

/-- Every call of the run did what it was asked to. The loop makes `zeroRounds` writes. -/
structure AllStored (libc : Libc) (size : Int) : Prop where
  reachesLoop : libc.ReachesLoop
  rounds : ∀ k < zeroRounds size, libc.fwriteZero k = sizeofPointer
  fclose : libc.fclose = true

/-- `format` returns, its result is 1 exactly when every call did its work, and a file that was
opened has been closed once. -/
def Reports (libc : Libc) (size : Int) : Prop :=
  ∃ r, format libc size = .ok r ∧ (r.ret = 1 ↔ AllStored libc size) ∧
    (r.file.isSome → r.closes = 1)

/-- A call before the loop fails, or the loop's counter stays an `int` and either `fclose` fails or
no round's `fwrite` is short. -/
def NoLostRound (libc : Libc) (size : Int) : Prop :=
  ¬ libc.ReachesLoop ∨
    (size ≤ 2 ^ 31 - blockSize ∧
      (libc.fclose = false ∨ ∀ k < zeroRounds size, libc.fwriteZero k = sizeofPointer))

theorem reports_of_early {libc : Libc} {size : Int} (h : ¬ libc.ReachesLoop) :
    Reports libc size := by
  obtain ⟨r, hrun, hret, hcloses⟩ := format_of_early size h
  refine ⟨r, hrun, ?_, hcloses⟩
  rw [hret]
  exact ⟨fun h01 => absurd h01 (by decide), fun hall => absurd hall.reachesLoop h⟩

theorem not_reports_of_big {libc : Libc} {size : Int} (h : libc.ReachesLoop)
    (hbig : 2 ^ 31 - blockSize < size) : ¬ Reports libc size := by
  rintro ⟨r, hrun, _⟩
  rw [format_of_big h hbig] at hrun
  cases hrun

theorem reports_of_fits_iff {libc : Libc} {size : Int} (h : libc.ReachesLoop)
    (hfits : size ≤ 2 ^ 31 - blockSize) :
    Reports libc size ↔
      libc.fclose = false ∨ ∀ k < zeroRounds size, libc.fwriteZero k = sizeofPointer := by
  cases hclose : libc.fclose with
  | false =>
    refine ⟨fun _ => .inl rfl, fun _ => ⟨_, format_of_fits h hfits, ?_, fun _ => rfl⟩⟩
    refine ⟨?_, fun hall => absurd hall.fclose (by simp [hclose])⟩
    intro hret
    simp [hclose] at hret
  | true =>
    constructor
    · rintro ⟨r, hrun, hret, _⟩
      rw [format_of_fits h hfits] at hrun
      cases hrun
      rw [hclose] at hret
      exact .inr (hret.mp rfl).rounds
    · rintro (hfalse | hrounds)
      · cases hfalse
      · refine ⟨_, format_of_fits h hfits, ?_, fun _ => rfl⟩
        rw [hclose]
        exact ⟨fun _ => ⟨h, hrounds, hclose⟩, fun _ => rfl⟩

/-- The result of `format` shows every failure exactly when none of them is a short write of the
loop under a successful `fclose`, and the counter does not overflow. -/
theorem format_reports_iff (libc : Libc) (size : Int) :
    Reports libc size ↔ NoLostRound libc size := by
  by_cases hloop : libc.ReachesLoop
  · rcases Int.lt_or_le (2 ^ 31 - blockSize) size with hbig | hfits
    · refine iff_of_false (not_reports_of_big hloop hbig) ?_
      rintro (hearly | ⟨hfits, _⟩)
      · exact hearly hloop
      · omega
    · rw [reports_of_fits_iff hloop hfits]
      exact ⟨fun h => .inr ⟨hfits, h⟩, fun h => (h.resolve_left (not_not_intro hloop)).2⟩
  · exact iff_of_true (reports_of_early hloop) (.inl hloop)

/-- The disk is full when the second block of a disk of size 2048 is written: the result is 1. -/
theorem full_disk_unreported :
    ¬ Reports { Libc.works with fwriteZero := fun _ => 0 } 2048 := by
  rintro ⟨r, hrun, hret, _⟩
  rw [format_of_fits ⟨rfl, rfl, rfl, rfl⟩ (by decide)] at hrun
  cases hrun
  exact absurd ((hret.mp rfl).rounds 0 (by decide)) (by decide)

end Sjfs
