import Sjfs.DiskInode
import Sjfs.Bitmap

/-!
# Filling the superblock

`sjfs_get_disk_superblock` and `sjfs_fill_super` of `kernel_space_module/sjfs.c`, over the block
layer, with C's integer widths (`int` 32 bits, `unsigned long` 64 bits) and with every allocation
able to fail. Nothing is freed on the error paths, and the returns of `sjfs_read_block` after the
first one are not looked at; the model keeps both.

`sjfs_get_disk_superblock` allocates `sizeof(SJFS_BLOCKSIZE)`, 4 bytes, for the block, and copies
1056 bytes of it into the record. Both copies leave their object (`Memory.overruns`) and go through.

Left out: `save_mount_options`, which copies the mount options for the VFS, and the operation tables
that are stored in the superblock and in the root inode.

Results:
1. `fillSuper_of_magic`: a volume without the magic number is refused.
2. `rootCheck_of_mounted`: a volume that is mounted has passed the root check.
-/

namespace Sjfs

open Lib

/-! ## The code -/

/-- `-ENOMEM`. -/
def enomem : Int := -12

/-- `sjfs_get_disk_superblock`; `none` is `NULL`. -/
def getDiskSuperblock : K Volume (Option Buffer) := do
  let blockZeroBuffer ← kmalloc sizeofBlockSize
  if blockZeroBuffer.isNone then
    return none
  let (r, blockZeroBuffer) ← readBlock 0 blockZeroBuffer 0
  if r < 0 then
    return none
  let diskSb ← kmalloc sizeofSuperblock
  let diskSb ← memcpy diskSb 0 (some blockZeroBuffer) 0 sizeofSuperblock
  kfree (some blockZeroBuffer)
  return some diskSb

/-- The fields of `struct super_block` that `sjfs_fill_super` sets. -/
structure SuperBlock where
  blocksizeBits : Nat
  blocksize : Nat
  maxbytes : Nat
  timeGran : Nat
  magic : Nat
  fsInfo : Option Buffer
  root : Option Inode

/-- `datablocks_bitmaps_offset`. -/
def datablocksBitmapsOffset : Nat := 2 + inodesPerBitmap * 1

/-- The loop that reads the data block bitmaps, from its `k`-th round on: `i` is
`datablocks_bitmaps_offset + k`. The bound is computed in `unsigned long`, and the offset into the
cache in `int`, where it overflows from round `2 ^ 21` on. -/
def loadBitmaps (count : Nat) (cache : Option Buffer) (k : Nat) : K Volume (Option Buffer) :=
  if datablocksBitmapsOffset + k < (datablocksBitmapsOffset + count) % 2 ^ 64 then
    if k * blockSize < 2 ^ 31 then do
      let (_, b) ← readBlock (datablocksBitmapsOffset + k) cache (k * blockSize)
      loadBitmaps count (some b) (k + 1)
    else throw .signedOverflow
  else return cache
termination_by 2 ^ 21 - k
decreasing_by
  simp only [blockSize] at *
  omega

/-- The root inode as the disk record has it. -/
def rootInode (inode : Inode) (diskRootInode : Buffer) : Inode :=
  { inode with
    ino := 0
    mode := diskRootInode.field inodeT .mode
    uid := diskRootInode.field inodeT .uid
    gid := diskRootInode.field inodeT .gid
    size := diskRootInode.field inodeT .size
    atime := diskRootInode.field inodeT .atime
    mtime := diskRootInode.field inodeT .mtime
    ctime := diskRootInode.field inodeT .ctime
    nlink := diskRootInode.field inodeT .links
    blocks := diskRootInode.field inodeT .blocks
    iPrivate := some diskRootInode }

/-- The part of `sjfs_fill_super` that loads the two bitmap caches. -/
def loadCaches (diskSb : Buffer) : K Volume Buffer := do
  let cache ← kmalloc blockSize
  let (_, inodesBitmapsCache) ← readBlock 1 cache 0
  let count := diskSb.field superblockT .datablockBlocksCount
  let cache ← kmalloc (blockSize * count % 2 ^ 64)
  let datablocksBitmapsCache ← loadBitmaps count cache 0
  modify fun s => { s with world := { s.world with
    inodesBitmapsCache := some inodesBitmapsCache
    datablocksBitmapsCache := datablocksBitmapsCache } }
  return inodesBitmapsCache

/-- The part of `sjfs_fill_super` behind the bitmaps: the root inode. -/
def makeRoot (sb : SuperBlock) (inodesBitmapsCache : Buffer) : K Volume (Int × SuperBlock) := do
  match ← getDiskInode 0 with
  | none => return (enomem, sb)
  | some diskRootInode =>
    if !rootCheck (inodesBitmapsCache.bytes 1024) then
      return (enomem, sb)
    -- `new_inode`
    if !(← attempt) then
      return (enomem, sb)
    let inode := rootInode Inode.fresh diskRootInode
    -- `d_make_root`
    if !(← attempt) then
      return (enomem, sb)
    return (0, { sb with root := some inode })

/-- `sjfs_fill_super`: its result and the superblock as it leaves it. -/
def fillSuper (sb : SuperBlock) : K Volume (Int × SuperBlock) := do
  match ← getDiskSuperblock with
  | none => return (enomem, sb)
  | some diskSb =>
    let sb := { sb with
      blocksizeBits := 8, blocksize := blockSize, maxbytes := 2 ^ 63 - 1, timeGran := 1 }
    let magic := diskSb.field superblockT .magic
    if magic ≠ sjfsMagic then
      return (enomem, sb)
    let sb := { sb with magic := magic, fsInfo := some diskSb }
    let inodesBitmapsCache ← loadCaches diskSb
    makeRoot sb inodesBitmapsCache

/-! ## The magic number -/

section Runs

variable {s : Machine Volume}

/-- Without memory for the block `sjfs_get_disk_superblock` returns `NULL`. -/
theorem run_getDiskSuperblock_of_fails (h0 : s.failsAt 0 = true) :
    getDiskSuperblock.run s = .ok (none, s.tried) := by
  unfold getDiskSuperblock
  rw [run_bind (run_kmalloc_of_fails h0 _), if_pos (by simp)]
  rfl

/-- Without memory for the record it copies to the null pointer. -/
theorem run_getDiskSuperblock_of_null (h0 : s.failsAt 0 = false) (h1 : s.failsAt 1 = true) :
    getDiskSuperblock.run s = .error .nullDereference := by
  unfold getDiskSuperblock
  rw [run_bind (run_kmalloc_of_ok h0 _), if_neg (by simp), run_bind (run_readBlock ..)]
  dsimp only
  rw [if_neg (by decide),
    run_bind (run_kmalloc_of_fails (by simpa [Machine.grown, Machine.failsAt] using h1) _),
    run_bind_error run_memcpy_null]

/-- With memory for both it returns a record that starts with block 0. The block went into 4 bytes,
and the record came out of them: two copies have left their object. -/
theorem run_getDiskSuperblock_of_ok (h0 : s.failsAt 0 = false) (h1 : s.failsAt 1 = false) :
    ∃ diskSb t, getDiskSuperblock.run s = .ok (some diskSb, t) ∧
      (∀ i < 1024, diskSb.mem i = (s.world.disk 0).get i) ∧
      s.Allocated t 2 [s.mem.allocs + 1] ∧ t.world = s.world ∧ t.strays = s.strays + 2 := by
  unfold getDiskSuperblock
  rw [run_bind (run_kmalloc_of_ok h0 _), if_neg (by simp), run_bind (run_readBlock ..)]
  dsimp only
  rw [if_neg (by decide),
    run_bind (run_kmalloc_of_ok (by simpa [Machine.grown, Machine.failsAt] using h1) _),
    run_bind (run_memcpy ..), run_bind (run_kfree _)]
  refine ⟨_, _, rfl, ?_, ⟨?_, ?_, ?_⟩, ?_, ?_⟩
  · intro i hi
    have hblock : i < blockSize := hi
    rw [Buffer.store_mem _ _ _ (Nat.zero_le _) (by rw [sizeofSuperblock_eq]; omega),
      Buffer.store_mem _ _ _ (Nat.zero_le _) (by omega)]
    simp [Machine.grown]
  · simp [Machine.grown]
  · simp [Machine.grown]
  · simp [Machine.grown, Buffer.store]
  · simp [Machine.grown]
  · have hblock : sizeofBlockSize < blockSize := by decide
    have hrecord : sizeofBlockSize < sizeofSuperblock := by decide
    show (Machine.noted _ _ 0 sizeofSuperblock).strays = _
    rw [Machine.strays_noted, if_pos (by simp), Machine.strays_noted,
      if_neg (by simpa using hrecord)]
    show (Machine.noted _ _ 0 blockSize).strays + 1 + 0 = _
    rw [Machine.strays_noted, if_neg (by simpa using hblock)]
    rfl

/-- The record that `sjfs_get_disk_superblock` returns starts with block 0. -/
theorem run_getDiskSuperblock (h : s.Plenty) :
    ∃ diskSb t, getDiskSuperblock.run s = .ok (some diskSb, t) ∧ t.Plenty ∧
      ∀ i < 1024, diskSb.mem i = (s.world.disk 0).get i := by
  obtain ⟨diskSb, t, hrun, hmem, halloc, _, _⟩ :=
    run_getDiskSuperblock_of_ok (h.failsAt 0) (h.failsAt 1)
  exact ⟨diskSb, t, hrun, halloc.plenty h, hmem⟩

/-- The magic number on a disk. -/
def magicOf (disk : Disk) : Nat :=
  loadLE (disk 0).get (offsetOf superblockT .magic) (fieldSize .magic superblockT)

theorem field_magic {diskSb : Buffer} (h : ∀ i < 1024, diskSb.mem i = (s.world.disk 0).get i) :
    diskSb.field superblockT .magic = magicOf s.world.disk := by
  have hend : offsetOf superblockT .magic + fieldSize .magic superblockT ≤ 1024 := by decide
  exact loadLE_congr _ fun i _ hi => h i (by omega)

/-- A volume without the magic number is refused. -/
theorem fillSuper_of_magic (h : s.Plenty) (hmagic : magicOf s.world.disk ≠ sjfsMagic)
    (sb : SuperBlock) : ∃ sb' t, (fillSuper sb).run s = .ok ((enomem, sb'), t) := by
  obtain ⟨diskSb, t, hrun, _, hmem⟩ := run_getDiskSuperblock h
  unfold fillSuper
  rw [run_bind hrun]
  dsimp only
  rw [field_magic hmem, if_pos hmagic]
  exact ⟨_, t, rfl⟩

/-! ## The root check -/

theorem world_of_run_readBlock {address offset : Nat} {block : Option Buffer} {p : Int × Buffer}
    {t : Machine Volume} (h : (readBlock address block offset).run s = .ok (p, t)) :
    t.world = s.world := by
  cases block with
  | none => cases h
  | some b =>
    rw [run_readBlock] at h
    cases h
    exact Machine.noted_world ..

theorem world_of_run_getDiskSuperblock {p : Option Buffer} {t : Machine Volume}
    (h : getDiskSuperblock.run s = .ok (p, t)) : t.world = s.world := by
  obtain ⟨b, s₁, h₁, h⟩ := exists_of_run_bind h
  have hw₁ := world_of_run_kmalloc h₁
  split at h
  · cases h
    exact hw₁
  · obtain ⟨⟨r, b'⟩, s₂, h₂, h⟩ := exists_of_run_bind h
    have hw₂ := world_of_run_readBlock h₂
    dsimp only at h
    split at h
    · cases h
      exact hw₂.trans hw₁
    · obtain ⟨d, s₃, h₃, h⟩ := exists_of_run_bind h
      have hw₃ := world_of_run_kmalloc h₃
      obtain ⟨d', s₄, h₄, h⟩ := exists_of_run_bind h
      have hw₄ := world_of_run_memcpy h₄
      obtain ⟨_, s₅, h₅, h⟩ := exists_of_run_bind h
      cases h₅
      cases h
      exact hw₄.trans (hw₃.trans (hw₂.trans hw₁))

theorem bytes_of_run_readBlock {address offset : Nat} {block : Option Buffer} {r : Int} {b : Buffer}
    {t : Machine Volume} (h : (readBlock address block offset).run s = .ok ((r, b), t)) :
    ∀ i < 1024, b.mem (offset + i) = (s.world.disk (address % 2 ^ 32)).get i := by
  cases block with
  | none => cases h
  | some b₀ =>
    rw [run_readBlock] at h
    cases h
    intro i hi
    have hblock : i < blockSize := hi
    rw [Buffer.store_mem _ _ _ (Nat.le_add_right _ _) (by omega)]
    simp

/-- The inode bitmap cache holds block 1. -/
theorem bytes_of_run_loadCaches {diskSb cache : Buffer} {t : Machine Volume}
    (h : (loadCaches diskSb).run s = .ok (cache, t)) : cache.bytes 1024 = s.world.disk 1 := by
  obtain ⟨p, s₁, hp, h⟩ := exists_of_run_bind h
  obtain ⟨⟨r, b⟩, s₂, hread, h⟩ := exists_of_run_bind h
  obtain ⟨q, s₃, _, h⟩ := exists_of_run_bind h
  obtain ⟨d, s₄, _, h⟩ := exists_of_run_bind h
  obtain ⟨_, s₅, _, h⟩ := exists_of_run_bind h
  cases h
  funext i
  have hbyte := bytes_of_run_readBlock hread i.val i.isLt
  rw [world_of_run_kmalloc hp, Nat.zero_add, Bytes.get_val] at hbyte
  exact hbyte

theorem rootCheck_of_makeRoot {sb sb' : SuperBlock} {cache : Buffer} {t : Machine Volume}
    (h : (makeRoot sb cache).run s = .ok ((0, sb'), t)) : rootCheck (cache.bytes 1024) = true := by
  obtain ⟨diskRootInode, s₁, _, h⟩ := exists_of_run_bind h
  cases diskRootInode with
  | none => cases h
  | some diskRootInode =>
    dsimp only at h
    split at h
    · cases h
    · next hcheck => simpa using hcheck

/-- A volume that is mounted has passed the root check, whatever else failed or not. -/
theorem rootCheck_of_mounted {sb sb' : SuperBlock} {t : Machine Volume}
    (h : (fillSuper sb).run s = .ok ((0, sb'), t)) : rootCheck (s.world.disk 1) = true := by
  obtain ⟨diskSb, s₁, hsb, h⟩ := exists_of_run_bind h
  cases diskSb with
  | none => cases h
  | some diskSb =>
    dsimp only at h
    split at h
    · cases h
    · obtain ⟨cache, s₂, hcache, h⟩ := exists_of_run_bind h
      rw [← world_of_run_getDiskSuperblock hsb, ← bytes_of_run_loadCaches hcache]
      exact rootCheck_of_makeRoot h

/-! ## A volume that is mounted -/

/-- The number of data block bitmaps on a disk. -/
def bitmapCountOf (disk : Disk) : Nat :=
  loadLE (disk 0).get (offsetOf superblockT .datablockBlocksCount)
    (fieldSize .datablockBlocksCount superblockT)

theorem run_loadCaches (h : s.Plenty) {diskSb : Buffer}
    (hcount : diskSb.field superblockT .datablockBlocksCount = 0) :
    ∃ cache t, (loadCaches diskSb).run s = .ok (cache, t) ∧ t.Plenty := by
  have hloop : ∀ cache, loadBitmaps 0 cache 0 = return cache := fun cache => by
    rw [loadBitmaps, if_neg (by decide)]
  unfold loadCaches
  rw [run_bind (run_kmalloc h _), run_bind (run_readBlock ..), Machine.noted_of_le (by simp)]
  dsimp only
  rw [hcount, run_bind (run_kmalloc h.grown _), hloop]
  exact ⟨_, _, rfl, h.grown.grown⟩

theorem run_makeRoot (h : s.Plenty) {cache : Buffer} (hroot : rootCheck (cache.bytes 1024) = true)
    (sb : SuperBlock) : ∃ sb' t, (makeRoot sb cache).run s = .ok ((0, sb'), t) := by
  have hfits : 0 * sizeofInode + sizeofInode ≤ blockSize := by decide
  have hget := run_getDiskInode h (m := 0) (by decide)
  rw [Machine.noted_of_le (b := loaded s (tableBlock 0)) hfits] at hget
  unfold makeRoot
  rw [run_bind hget]
  dsimp only
  rw [if_neg (by simp [hroot]), run_bind (run_attempt h.grown.grown), if_neg (by simp),
    run_bind (run_attempt h.grown.grown.tried), if_neg (by simp)]
  exact ⟨_, _, rfl⟩

/-- A volume with the magic number, without data block bitmaps and with the root's bit set is
mounted. -/
theorem fillSuper_mounts (h : s.Plenty) (hmagic : magicOf s.world.disk = sjfsMagic)
    (hcount : bitmapCountOf s.world.disk = 0) (hroot : rootCheck (s.world.disk 1) = true)
    (sb : SuperBlock) : ∃ sb' t, (fillSuper sb).run s = .ok ((0, sb'), t) := by
  obtain ⟨diskSb, s₁, hsb, hplenty, hmem⟩ := run_getDiskSuperblock h
  have hend : offsetOf superblockT .datablockBlocksCount +
      fieldSize .datablockBlocksCount superblockT ≤ 1024 := by decide
  have hfield : diskSb.field superblockT .datablockBlocksCount = 0 :=
    (loadLE_congr _ fun i _ hi => hmem i (by omega)).trans hcount
  obtain ⟨cache, s₂, hcache, hplenty'⟩ := run_loadCaches hplenty hfield
  have hbytes := bytes_of_run_loadCaches hcache
  rw [world_of_run_getDiskSuperblock hsb] at hbytes
  unfold fillSuper
  rw [run_bind hsb]
  dsimp only
  rw [field_magic hmem, if_neg (by simp [hmagic]), run_bind hcache]
  exact run_makeRoot hplenty' (hbytes ▸ hroot) _

end Runs

end Sjfs
