import Sjfs.FillSuper
import Mathlib.Algebra.Group.Int.Defs

/-!
# Formatting a disk

`format` of `user_space_application/main.c`, with `BLOCK_SIZE` read as `SJFS_BLOCKSIZE`. What the
libc calls answer is an argument, and the loop counter is a 32-bit `int`.

`sb` and `zeroBlock` are pointers, so `sizeof(sb)` and `sizeof(zeroBlock)` are 8: the superblock and
each block of zeros leave 8 bytes in the file. The superblock is the cleared memory of `calloc`; no
field is set before it is written, the magic number included.

Results:
1. `file_of_format`: whatever the size and whatever libc does, the file holds zeros only.
2. `format_never_mountable`: so no disk that `format` makes is mounted.
-/

namespace Sjfs

open Lib

/-! ## The code -/

/-- What the libc calls of one run of `format` answer. `fwriteSb` and `fwriteZero k` are the numbers
of bytes that the first `fwrite` and the one of round `k` store. -/
structure Libc where
  callocSb : Bool
  fopen : Bool
  fwriteSb : Nat
  callocZero : Bool
  fwriteZero : Nat → Nat
  fclose : Bool

/-- Every call does what it was asked to. -/
def Libc.works : Libc := ⟨true, true, 8, true, fun _ => 8, true⟩

/-- What a run of `format` leaves: its result, the file (`none` when it was not opened), and how
often it was closed. -/
structure Formatted where
  ret : Int
  file : Option (List UInt8)
  closes : Nat

/-- `sizeof(sb)` and `sizeof(zeroBlock)`: the size of a pointer. -/
def sizeofPointer : Nat := 8

/-- The bytes an `fwrite` of `sizeofPointer` bytes of cleared memory stores, when it answers `n`. -/
def zeros (n : Nat) : List UInt8 := List.replicate (min n sizeofPointer) 0

/-- The loop that writes the blocks of zeros, from round `k` on with the counter at `i`. The number
of bytes each `fwrite` stored is not looked at. -/
def zeroLoop (libc : Libc) (size : Int) (i : Int) (k : Nat) (file : List UInt8) :
    Except Fault (List UInt8) :=
  if i < size then
    if i + blockSize < 2 ^ 31 then
      zeroLoop libc size (i + blockSize) (k + 1) (file ++ zeros (libc.fwriteZero k))
    else .error .signedOverflow
  else .ok file
termination_by (size - i).toNat
decreasing_by
  simp only [blockSize]
  omega

/-- `format(filename, size)`. -/
def format (libc : Libc) (size : Int) : Except Fault Formatted :=
  if !libc.callocSb then .ok ⟨0, none, 0⟩
  else if !libc.fopen then .ok ⟨0, none, 0⟩
  else
    let file := zeros libc.fwriteSb
    if libc.fwriteSb ≠ sizeofPointer then .ok ⟨0, some file, 1⟩
    else if !libc.callocZero then .ok ⟨0, some file, 1⟩
    else do
      let file ← zeroLoop libc size blockSize 0 file
      return ⟨if libc.fclose then 1 else 0, some file, 1⟩

/-- Block `a` of an image: its bytes from `1024 * a` on, zero past the end of the file. -/
def imageDisk (file : List UInt8) : Disk := fun a i => file.getD (blockSize * a + i.val) 0

/-! ## The file -/

theorem zeroLoop_zeros {libc : Libc} {size i : Int} {k : Nat} {file file' : List UInt8}
    (h : zeroLoop libc size i k file = .ok file') (hfile : ∀ v ∈ file, v = 0) :
    ∀ v ∈ file', v = 0 := by
  fun_induction zeroLoop libc size i k file with
  | case1 i k file hlt hsmall ih =>
    refine ih h ?_
    intro v hv
    rcases List.mem_append.mp hv with hv | hv
    · exact hfile v hv
    · exact List.eq_of_mem_replicate hv
  | case2 => cases h
  | case3 =>
    cases h
    exact hfile

/-- Whatever the size and whatever libc does, the file holds zeros only. -/
theorem file_of_format {libc : Libc} {size : Int} {r : Formatted} {file : List UInt8}
    (h : format libc size = .ok r) (hfile : r.file = some file) : ∀ v ∈ file, v = 0 := by
  have hzeros : ∀ v ∈ zeros libc.fwriteSb, v = 0 := fun v hv => List.eq_of_mem_replicate hv
  unfold format at h
  split at h
  · cases h
    cases hfile
  split at h
  · cases h
    cases hfile
  dsimp only at h
  split at h
  · cases h
    cases hfile
    exact hzeros
  split at h
  · cases h
    cases hfile
    exact hzeros
  cases hloop : zeroLoop libc size blockSize 0 (zeros libc.fwriteSb) with
  | error e =>
    rw [hloop] at h
    cases h
  | ok file' =>
    rw [hloop] at h
    cases h
    cases hfile
    exact zeroLoop_zeros hloop hzeros

theorem imageDisk_of_zeros {file : List UInt8} (h : ∀ v ∈ file, v = 0) (a : Nat) :
    imageDisk file a = Bytes.zero := by
  funext i
  unfold imageDisk
  rw [List.getD_eq_getElem?_getD]
  cases hv : file[blockSize * a + i.val]? with
  | none => rfl
  | some v => exact h v (List.mem_of_getElem? hv)

/-! ## Mounting it -/

/-- The disk `format` makes of `size` is one that the module mounts: with all libc calls and all
allocations succeeding, `sjfs_fill_super` finds the magic number and the root's bit and returns 0. -/
def Mountable (size : Int) : Prop :=
  ∃ r file, format .works size = .ok r ∧ r.ret = 1 ∧ r.file = some file ∧
    magicOf (imageDisk file) = sjfsMagic ∧ rootCheck (imageDisk file 1) = true ∧
    ∀ (s : Machine Volume) (sb : SuperBlock), s.Plenty → s.world.disk = imageDisk file →
      ∃ sb' t, (fillSuper sb).run s = .ok ((0, sb'), t)

/-- The module refuses the disk: it has neither the magic number nor the root's bit. -/
structure Refused (file : List UInt8) : Prop where
  magic : magicOf (imageDisk file) ≠ sjfsMagic
  root : rootCheck (imageDisk file 1) = false
  result : ∀ (s : Machine Volume) (sb : SuperBlock), s.Plenty → s.world.disk = imageDisk file →
    ∃ sb' t, (fillSuper sb).run s = .ok ((enomem, sb'), t)

theorem magicOf_of_zeros {file : List UInt8} (h : ∀ v ∈ file, v = 0) :
    magicOf (imageDisk file) = 0 := by
  refine loadLE_zero _ ?_
  intro i _ _
  rw [imageDisk_of_zeros h]
  exact Bytes.get_zero i

theorem refused_of_zeros {file : List UInt8} (h : ∀ v ∈ file, v = 0) : Refused file := by
  have hmagic : magicOf (imageDisk file) ≠ sjfsMagic := by
    rw [magicOf_of_zeros h]
    decide
  refine ⟨hmagic, ?_, fun s sb hplenty hdisk => fillSuper_of_magic hplenty (hdisk ▸ hmagic) sb⟩
  rw [imageDisk_of_zeros h]
  simp [rootCheck]

/-- No disk that `format` makes is mounted: of whatever size it is, the module refuses it at both
checks. -/
theorem format_never_mountable (size : Int) :
    ¬ Mountable size ∧
    ∀ r file, format .works size = .ok r → r.file = some file → Refused file := by
  refine ⟨?_, fun r file hrun hfile => refused_of_zeros (file_of_format hrun hfile)⟩
  rintro ⟨r, file, hrun, _, hfile, hmagic, _⟩
  exact (refused_of_zeros (file_of_format hrun hfile)).magic hmagic

theorem format_six : format .works 6 = .ok ⟨1, some (zeros 8), 1⟩ := by
  have hloop : zeroLoop .works 6 blockSize 0 (zeros 8) = .ok (zeros 8) := by
    rw [zeroLoop, if_neg (by decide)]
  simp only [format, Libc.works, sizeofPointer] at hloop ⊢
  simp [hloop]

/-- The smallest disk the option check lets through is formatted and then refused. -/
theorem formatted_six_refused :
    (∃ r file, format .works 6 = .ok r ∧ r.ret = 1 ∧ r.file = some file ∧ Refused file) ∧
    ¬ ∀ size : Int, minBlocks ≤ size → size < 2 ^ 31 → Mountable size := by
  have hrefused : Refused (zeros 8) := refused_of_zeros (file_of_format format_six rfl)
  refine ⟨⟨_, _, format_six, rfl, rfl, hrefused⟩, ?_⟩
  intro h
  obtain ⟨r, file, hrun, _, hfile, hmagic, _⟩ := h 6 (by decide) (by decide)
  exact (refused_of_zeros (file_of_format hrun hfile)).magic hmagic

end Sjfs
