import Sjfs.Lib.CMemory

/-!
# The on-disk format

`include/blocks.h` and `include/ipc.h`: the sizes, the two records and the opcodes that the kernel
module and the user space helper share. Sizes and offsets of the records are computed from the
declarations, with the padding a 64-bit C compiler puts in; the comments in `blocks.h` ("fill to
2**x = 64 bytes", "round out the block") do not describe what it makes of them
(`sizeofInode_eq`, `sizeofSuperblock_eq`).

Left out: `indirect_pointer_block_t`, `directory_t` and `sjfs_message`, which no code uses.
-/

namespace Sjfs

open Lib

/-! ## Sizes -/

/-- `SJFS_BLOCKSIZE`. -/
def blockSize : Nat := 1024

/-- `SJFS_MIN_BLOCKS`. -/
def minBlocks : Nat := 6

/-- `SJFS_BLOCKS_PER_BITMAP`, and `SJFS_INODES_PER_BITMAP`, which is defined by it. -/
def inodesPerBitmap : Nat := blockSize * 8

/-- `sizeof(SJFS_BLOCKSIZE)`: the size of the `int` constant `1024`, not of a block. -/
def sizeofBlockSize : Nat := 4

/-- `SJFS_MAGIC`. -/
def sjfsMagic : Nat := 0x534A5346

/-- One block of the disk. -/
abbrev Block := Bytes 1024

/-- The blocks of a disk, by block number. -/
abbrev Disk := Nat → Block

/-! ## Records -/

inductive SuperblockField
  | inodeBlocksCount
  | datablockBlocksCount
  | mtime
  | wtime
  | mntCount
  | magic
  | dirty
  | reserved
deriving DecidableEq, Repr

/-- `superblock_t`. -/
def superblockT : CStruct SuperblockField :=
  [(.inodeBlocksCount, .ushort), (.datablockBlocksCount, .ulong), (.mtime, .ulong),
    (.wtime, .ulong), (.mntCount, .ulong), (.magic, .ulong), (.dirty, .uchar),
    (.reserved, .array .uchar (1024 - 23))]

inductive InodeField
  | mode
  | uid
  | gid
  | size
  | atime
  | ctime
  | mtime
  | links
  | blocks
  | dbp
  | sidbp
  | didbp
  | reserved
deriving DecidableEq, Repr

/-- `inode_t`. -/
def inodeT : CStruct InodeField :=
  [(.mode, .ushort), (.uid, .ushort), (.gid, .ushort), (.size, .ulong), (.atime, .ulong),
    (.ctime, .ulong), (.mtime, .ulong), (.links, .uchar), (.blocks, .ulong),
    (.dbp, .array .ulong 12), (.sidbp, .ulong), (.didbp, .ulong), (.reserved, .array .uchar 25)]

/-- `sizeof(superblock_t)`. -/
def sizeofSuperblock : Nat := structSize superblockT

/-- `sizeof(inode_t)`. -/
def sizeofInode : Nat := structSize inodeT

/-- The record is 200 bytes long, not 64: a block holds five and a fraction of them. -/
theorem sizeofInode_eq : sizeofInode = 200 := by decide

/-- The record is longer than the block it is read from. -/
theorem sizeofSuperblock_eq : sizeofSuperblock = 1056 := by decide

theorem offsetOf_ctime : offsetOf inodeT .ctime = 24 := by decide

/-- The bytes of an `inode_t`. -/
abbrev InodeRecord := Bytes 200

/-! ## Opcodes -/

/-- `SJFS_OPCODE_READ`. -/
def opcodeRead : UInt8 := 0

end Sjfs
