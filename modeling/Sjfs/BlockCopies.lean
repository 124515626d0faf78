import Sjfs.FillSuper

/-!
# Which block copies stay inside their buffers

The three functions of the data structures level in `kernel_space_module/sjfs.c` that copy between
a block and a record, each with the buffers it allocates, for every content of the disk and for
every inode number of the bitmap.

`sizeof(inode_t)` is 200, which does not divide 1024, so that about one record in five crosses into
the next block. `sizeof(SJFS_BLOCKSIZE)` is 4: this is all that `sjfs_get_disk_superblock` asks for
before a block is stored there.

Results:
1. `getDiskSuperblock_staysInside_iff`: `sjfs_get_disk_superblock` never does.
2. `inOneBlock_iff`: which records lie in one block.
3. `blockCopies_iff`: all of this at once, which needs the allocation of the block to fail.
-/

namespace Sjfs

open Lib

section Parts

variable {s : Machine Volume} {n : Nat}

/-- `sjfs_get_disk_superblock` stays inside its buffers only when it gets none. -/
theorem getDiskSuperblock_staysInside_iff :
    StaysInside getDiskSuperblock s ↔ s.failsAt 0 = true := by
  cases h0 : s.failsAt 0 with
  | true =>
    rw [staysInside_iff_of_run (run_getDiskSuperblock_of_fails h0)]
    exact iff_of_true rfl rfl
  | false =>
    refine iff_of_false ?_ Bool.false_ne_true
    cases h1 : s.failsAt 1 with
    | true => exact not_staysInside_of_fault (run_getDiskSuperblock_of_null h0 h1)
    | false =>
      obtain ⟨diskSb, t, hrun, _, _, _, hstrays⟩ := run_getDiskSuperblock_of_ok h0 h1
      rw [staysInside_iff_of_run hrun]
      omega

/-- Every byte of the record of inode `n` is in the block that is read for it. The table starts in
block 2. -/
def InOneBlock (n : Nat) : Prop :=
  ∀ i < sizeofInode, 2 + (n * sizeofInode + i) / blockSize = tableBlock n

theorem inOneBlock_iff : InOneBlock n ↔ n * 200 % 1024 ≤ 824 := by
  simp only [InOneBlock, tableBlock, sizeofInode_eq, blockSize]
  constructor
  · intro h
    have hlast := h 199 (by decide)
    omega
  · intro h i hi
    omega

end Parts

/-! ## All of them -/

/-- The three functions, called in `s`, copy only inside their buffers, and the record of `inode`
lies in the block they read. -/
structure BlockCopies (s : Machine Volume) (inode : Inode) (now : Nat) : Prop where
  superblock : StaysInside getDiskSuperblock s
  reader : StaysInside (getDiskInode inode.ino) s
  writer : StaysInside (setDiskInode inode now) s
  record : InOneBlock inode.ino

section All

variable (s : Machine Volume) (inode : Inode) {p : Buffer}

/-- All copies stay inside only where none is made: the buffer for the block is not allocated. With
that buffer, the superblock never fits, the reader is right up to inode 4, and the writer for the
numbers up to 824 modulo 1024. -/
theorem blockCopies_iff (hino : inode.ino < inodesPerBitmap) (hp : inode.iPrivate = some p)
    (hsize : p.size = sizeofInode) (now : Nat) :
    (BlockCopies s inode now ↔ s.failsAt 0 = true ∧ inode.ino * 200 % 1024 ≤ 824) ∧
    (StaysInside getDiskSuperblock s ↔ s.failsAt 0 = true) ∧
    (StaysInside (getDiskInode inode.ino) s ↔
      s.failsAt 0 = true ∨ (s.failsAt 1 = false ∧ inode.ino ≤ 4)) ∧
    (StaysInside (setDiskInode inode now) s ↔ s.failsAt 0 = true ∨ inode.ino % 1024 ≤ 824) ∧
    (InOneBlock inode.ino ↔ inode.ino * 200 % 1024 ≤ 824) := by
  have hreader := getDiskInode_staysInside_iff (s := s) hino
  have hwriter := setDiskInode_staysInside_iff (s := s) inode hino hp hsize now
  refine ⟨⟨?_, ?_⟩, getDiskSuperblock_staysInside_iff, hreader, hwriter, inOneBlock_iff⟩
  · intro h
    exact ⟨getDiskSuperblock_staysInside_iff.mp h.superblock, inOneBlock_iff.mp h.record⟩
  · rintro ⟨hfails, hrecord⟩
    exact ⟨getDiskSuperblock_staysInside_iff.mpr hfails, hreader.mpr (.inl hfails),
      hwriter.mpr (.inl hfails), inOneBlock_iff.mpr hrecord⟩

end All

/-- A machine with an empty disk, on which no allocation succeeds. -/
def starved : Machine Volume where
  mem := ⟨0, fun _ => true, fun _ _ => 0, [], []⟩
  world := ⟨fun _ => Bytes.zero, none, none⟩

/-- Inode 4 without memory and, as far as it fits, with memory. -/
theorem blockCopies_four :
    BlockCopies starved (inodeOf 4 onesRecord) 0 ∧
    StaysInside (getDiskInode 4) (onDisk fun _ => Bytes.zero) ∧
    StaysInside (setDiskInode (inodeOf 4 onesRecord) 0) (onDisk fun _ => Bytes.zero) := by
  have hwithout := blockCopies_iff starved (inodeOf 4 onesRecord) (by decide) rfl rfl 0
  have hwith := blockCopies_iff (onDisk fun _ => Bytes.zero) (inodeOf 4 onesRecord) (by decide)
    rfl rfl 0
  exact ⟨hwithout.1.mpr ⟨rfl, by decide⟩, hwith.2.2.1.mpr (.inr ⟨rfl, by decide⟩),
    hwith.2.2.2.1.mpr (.inr (by decide))⟩

/-- On an empty disk and with memory, the superblock leaves its 4 bytes, inode 5 is read past the
end of its block and lies in two of them, and inode 825 is written past the end. -/
theorem copies_leave_buffers :
    ¬ StaysInside getDiskSuperblock (onDisk fun _ => Bytes.zero) ∧
    ¬ StaysInside (getDiskInode 5) (onDisk fun _ => Bytes.zero) ∧
    ¬ StaysInside (setDiskInode (inodeOf 825 onesRecord) 0) (onDisk fun _ => Bytes.zero) ∧
    ¬ InOneBlock 5 ∧
    ¬ ∀ (s : Machine Volume) (inode : Inode) (p : Buffer) (now : Nat),
      inode.ino < inodesPerBitmap → inode.iPrivate = some p → p.size = sizeofInode →
      BlockCopies s inode now := by
  have hsuper : ¬ StaysInside getDiskSuperblock (onDisk fun _ => Bytes.zero) := by
    rw [getDiskSuperblock_staysInside_iff]
    decide
  refine ⟨hsuper, ?_, ?_, ?_, ?_⟩
  · rw [getDiskInode_staysInside_iff (by decide)]
    rintro (h | ⟨_, h⟩) <;> revert h <;> decide
  · rw [setDiskInode_staysInside_iff (inodeOf 825 onesRecord) (by decide) rfl rfl 0]
    rintro (h | h) <;> revert h <;> decide
  · rw [inOneBlock_iff]
    decide
  · intro h
    exact hsuper (h (onDisk fun _ => Bytes.zero) (inodeOf 0 onesRecord) _ 0 (by decide) rfl
      rfl).superblock

end Sjfs
