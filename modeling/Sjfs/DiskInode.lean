import Sjfs.Blocks
import Mathlib.Logic.Function.Basic

/-!
# The inode table

The data structures level of `kernel_space_module/sjfs.c` over the block layer:
`sjfs_get_disk_inode` and `sjfs_set_disk_inode`.

The block layer is taken at its word: `sjfs_read_block` stores the block it is asked for and
`sjfs_write_block` replaces one. For reads this is what the socket level does over a peer with a
disk; the body of `sjfs_write_block` sends nothing yet, so for writes it is an assumption.

Reader and writer find the record of an inode in different ways. Both go to block
`2 + ino * 200 / 1024`, but the reader then takes the bytes from `ino * 200` on, not reduced to the
block, and the writer puts them at `ino % 1024`, not multiplied by the size.

Results:
1. `getDiskInode_staysInside_iff`, `setDiskInode_staysInside_iff`: when no copy of the two leaves
   its buffer, and `clean_getDiskInode`, `clean_setDiskInode`: what they do then.
2. `tableLike_iff`: exactly for which pairs of inodes the table behaves as an array of records.
-/

namespace Sjfs

open Lib

/-! ## The block layer -/

/-- What the code above the socket level works on: the disk, and the two global caches. -/
structure Volume where
  disk : Disk
  inodesBitmapsCache : Option Buffer
  datablocksBitmapsCache : Option Buffer

/-- `sjfs_read_block(address, block + offset)`. The address is an `unsigned int`. -/
def readBlock (address : Nat) (block : Option Buffer) (offset : Nat) : K Volume (Int × Buffer) := do
  let b ← deref block
  touch b offset blockSize
  let s ← get
  return (0, b.store offset (s.world.disk (address % 2 ^ 32)).get 0 blockSize)

/-- `sjfs_write_block(address, block)`. -/
def writeBlock (address : Nat) (block : Option Buffer) : K Volume Int := do
  let b ← deref block
  touch b 0 blockSize
  modify fun s => { s with world := { s.world with
    disk := Function.update s.world.disk (address % 2 ^ 32) (b.bytes 1024) } }
  return 0

/-! ## The code -/

/-- The fields of the in-core inode that this code sets; `iPrivate` is the copy of the disk
record. -/
structure Inode where
  ino : Nat
  mode : Nat
  uid : Nat
  gid : Nat
  size : Nat
  atime : Nat
  mtime : Nat
  ctime : Nat
  nlink : Nat
  blocks : Nat
  iPrivate : Option Buffer

/-- What `new_inode` makes: one link, and nothing else. -/
def Inode.fresh : Inode := ⟨0, 0, 0, 0, 0, 0, 0, 0, 1, 0, none⟩

/-- `sjfs_get_disk_inode`; `none` is `NULL`. The block buffer is never freed. -/
def getDiskInode (inodeNumber : Nat) : K Volume (Option Buffer) := do
  let blockBuffer ← kmalloc blockSize
  if blockBuffer.isNone then
    return none
  let (r, blockBuffer) ← readBlock (2 + inodeNumber * sizeofInode / blockSize) blockBuffer 0
  if r < 0 then
    return none
  let diskInode ← kmalloc sizeofInode
  let diskInode ← memcpy diskInode 0 (some blockBuffer) (inodeNumber * sizeofInode) sizeofInode
  return some diskInode

/-- `inode->i_ctime = CURRENT_TIME` and the store of its seconds in the disk record; `now` are the
seconds. -/
def stampCtime (inode : Inode) (now : Nat) : K Volume Inode := do
  let p ← deref inode.iPrivate
  touch p (offsetOf inodeT .ctime) CType.ulong.size
  let p := { p with mem := storeLE p.mem (offsetOf inodeT .ctime) CType.ulong.size now }
  return { inode with ctime := now, iPrivate := some p }

/-- `sjfs_set_disk_inode`: the inode as it leaves it. `block_number` and `block_offset` are
`unsigned int`; the buffer is never freed, and a failed allocation goes unreported. -/
def setDiskInode (inode : Inode) (now : Nat) : K Volume Inode := do
  let inode ← stampCtime inode now
  let blockNumber := (2 + inode.ino * sizeofInode % 2 ^ 64 / blockSize) % 2 ^ 32
  let blockBuffer ← kmalloc blockSize
  if blockBuffer.isNone then
    return inode
  let (r, blockBuffer) ← readBlock blockNumber blockBuffer 0
  if r < 0 then
    return inode
  let blockOffset := inode.ino % blockSize
  let blockBuffer ← memcpy (some blockBuffer) blockOffset inode.iPrivate 0 sizeofInode
  let _ ← writeBlock blockNumber (some blockBuffer)
  return inode

/-! ## Runs -/

section Runs

variable {s : Machine Volume}

theorem run_readBlock (address : Nat) (b : Buffer) (offset : Nat) :
    (readBlock address (some b) offset).run s =
      .ok ((0, b.store offset (s.world.disk (address % 2 ^ 32)).get 0 blockSize),
        s.noted b offset blockSize) := by
  unfold readBlock
  rw [run_bind (run_deref b), run_bind (run_touch ..)]
  rw [← Machine.noted_world s b offset blockSize]
  rfl

/-- The state after a block was written. -/
def wrote (s : Machine Volume) (address : Nat) (block : Block) : Machine Volume :=
  { s with world := { s.world with disk := Function.update s.world.disk address block } }

theorem strays_wrote (s : Machine Volume) (address : Nat) (block : Block) :
    (wrote s address block).strays = s.strays := rfl

theorem run_writeBlock (address : Nat) (b : Buffer) (hb : blockSize ≤ b.size) :
    (writeBlock address (some b)).run s = .ok (0, wrote s (address % 2 ^ 32) (b.bytes 1024)) := by
  unfold writeBlock
  rw [run_bind (run_deref b), run_bind (run_touch ..), Machine.noted_of_le (by omega)]
  rfl

/-- The buffer an allocation of `size` bytes returns in `s`. -/
def fresh (s : Machine Volume) (size : Nat) : Buffer :=
  ⟨s.mem.allocs, size, s.mem.junk s.mem.allocs⟩

/-- A fresh buffer with a block of the disk in it. -/
def loaded (s : Machine Volume) (address : Nat) : Buffer :=
  (fresh s blockSize).store 0 (s.world.disk address).get 0 blockSize

/-- The block that the record of inode `n` is read from and written to. -/
def tableBlock (n : Nat) : Nat := 2 + n * sizeofInode / blockSize

/-- Without memory for the block the reader returns `NULL`. -/
theorem run_getDiskInode_of_fails (h0 : s.failsAt 0 = true) (m : Nat) :
    (getDiskInode m).run s = .ok (none, s.tried) := by
  unfold getDiskInode
  rw [run_bind (run_kmalloc_of_fails h0 _), if_pos (by simp)]
  rfl

/-- Without memory for the record it copies to the null pointer. -/
theorem run_getDiskInode_of_null (h0 : s.failsAt 0 = false) (h1 : s.failsAt 1 = true) (m : Nat) :
    (getDiskInode m).run s = .error .nullDereference := by
  have hnext : s.grown.mem.fails s.grown.mem.allocs = s.failsAt 1 := rfl
  unfold getDiskInode
  rw [run_bind (run_kmalloc_of_ok h0 _), if_neg (by simp), run_bind (run_readBlock ..),
    Machine.noted_of_le (by simp)]
  dsimp only
  rw [if_neg (by decide), run_bind (run_kmalloc_of_fails (hnext.trans h1) _),
    run_bind_error run_memcpy_null]

theorem run_getDiskInode_of_ok (h0 : s.failsAt 0 = false) (h1 : s.failsAt 1 = false) {m : Nat}
    (hm : m < inodesPerBitmap) :
    (getDiskInode m).run s =
      .ok (some ((fresh s.grown sizeofInode).store 0 (loaded s (tableBlock m)).mem
          (m * sizeofInode) sizeofInode),
        s.grown.grown.noted (loaded s (tableBlock m)) (m * sizeofInode) sizeofInode) := by
  have hnext : s.grown.mem.fails s.grown.mem.allocs = s.failsAt 1 := rfl
  have haddr : (2 + m * sizeofInode / blockSize) % 2 ^ 32 = tableBlock m := by
    refine Nat.mod_eq_of_lt ?_
    simp only [inodesPerBitmap, sizeofInode_eq, blockSize] at hm ⊢
    omega
  unfold getDiskInode
  rw [run_bind (run_kmalloc_of_ok h0 _), if_neg (by simp), run_bind (run_readBlock ..),
    Machine.noted_of_le (by simp)]
  dsimp only
  rw [if_neg (by decide), run_bind (run_kmalloc_of_ok (hnext.trans h1) _), run_bind (run_memcpy ..),
    haddr, Machine.noted_of_le (by simp)]
  rfl

theorem run_getDiskInode (h : s.Plenty) {m : Nat} (hm : m < inodesPerBitmap) :
    (getDiskInode m).run s =
      .ok (some ((fresh s.grown sizeofInode).store 0 (loaded s (tableBlock m)).mem
          (m * sizeofInode) sizeofInode),
        s.grown.grown.noted (loaded s (tableBlock m)) (m * sizeofInode) sizeofInode) :=
  run_getDiskInode_of_ok (h.failsAt 0) (h.failsAt 1) hm

/-- The record after the setter stamped `now` in it. -/
def stamp (v : InodeRecord) (now : Nat) : InodeRecord :=
  fun i => storeLE v.get (offsetOf inodeT .ctime) CType.ulong.size now i.val

theorem run_stampCtime {inode : Inode} {p : Buffer} (hp : inode.iPrivate = some p)
    (hsize : p.size = sizeofInode) (now : Nat) :
    ∃ p' : Buffer, (stampCtime inode now).run s =
        .ok ({ inode with ctime := now, iPrivate := some p' }, s) ∧
      p'.size = sizeofInode ∧ p'.bytes 200 = stamp (p.bytes 200) now := by
  have hfits : offsetOf inodeT .ctime + CType.ulong.size ≤ p.size := by
    rw [hsize]
    decide
  refine ⟨{ p with mem := storeLE p.mem (offsetOf inodeT .ctime) CType.ulong.size now }, ?_, hsize,
    ?_⟩
  · unfold stampCtime
    rw [hp, run_bind (run_deref p), run_bind (run_touch ..), Machine.noted_of_le hfits]
    rfl
  · funext i
    simp [Buffer.bytes, stamp, storeLE, Bytes.get]

/-- The block with the record `v` at `offset`. -/
def patch (b : Block) (offset : Nat) (v : InodeRecord) : Block :=
  fun i => if offset ≤ i.val ∧ i.val < offset + sizeofInode then v.get (i.val - offset) else b i

/-- A record copied into a block that was read is a patch of that block. -/
theorem bytes_store_loaded (address offset : Nat) {p : Buffer} {v : InodeRecord}
    (hv : p.bytes 200 = v) :
    ((loaded s address).store offset p.mem 0 sizeofInode).bytes 1024 =
      patch (s.world.disk address) offset v := by
  have hrecord : ∀ j, j < sizeofInode → p.mem j = v.get j := by
    intro j hj
    rw [← hv, Bytes.get_of_lt _ (sizeofInode_eq ▸ hj)]
    rfl
  funext i
  unfold patch
  show Buffer.mem _ i.val = _
  split
  · next hi => rw [Buffer.store_mem _ _ _ hi.1 hi.2, Nat.zero_add, hrecord _ (by omega)]
  · next hi =>
    rw [Buffer.store_mem_of_not _ _ _ hi, loaded,
      Buffer.store_mem _ _ _ (Nat.zero_le _) (by have := i.isLt; unfold blockSize; omega)]
    simp

theorem run_setDiskInode (inode : Inode) (h : s.mem.fails s.mem.allocs = false) {p : Buffer}
    (hino : inode.ino < inodesPerBitmap) (hp : inode.iPrivate = some p)
    (hsize : p.size = sizeofInode) (now : Nat) :
    ∃ inode' block, (setDiskInode inode now).run s = .ok (inode',
      wrote (s.grown.noted (loaded s (tableBlock inode.ino)) (inode.ino % blockSize) sizeofInode)
        (tableBlock inode.ino) block) ∧
      inode'.ino = inode.ino ∧
      (∃ p', inode'.iPrivate = some p' ∧ p'.bytes 200 = stamp (p.bytes 200) now) ∧
      block = patch (s.world.disk (tableBlock inode.ino)) (inode.ino % blockSize)
        (stamp (p.bytes 200) now) := by
  have haddr : (2 + inode.ino * sizeofInode % 2 ^ 64 / blockSize) % 2 ^ 32 =
      tableBlock inode.ino := by
    simp only [inodesPerBitmap, sizeofInode_eq, blockSize, tableBlock] at hino ⊢
    rw [Nat.mod_eq_of_lt (by omega : inode.ino * 200 < 2 ^ 64), Nat.mod_eq_of_lt (by omega)]
  have haddr' : tableBlock inode.ino % 2 ^ 32 = tableBlock inode.ino := by
    rw [← haddr, Nat.mod_mod]
  obtain ⟨p', hstamp, hsize', hbytes⟩ := run_stampCtime (s := s) hp hsize now
  refine ⟨{ inode with ctime := now, iPrivate := some p' }, _, ?_, rfl, ⟨p', rfl, hbytes⟩,
    bytes_store_loaded (tableBlock inode.ino) (inode.ino % blockSize) hbytes⟩
  unfold setDiskInode
  rw [run_bind hstamp]
  dsimp only
  rw [haddr, run_bind (run_kmalloc_of_ok h _), if_neg (by simp), run_bind (run_readBlock ..),
    Machine.noted_of_le (by simp)]
  dsimp only
  rw [if_neg (by decide), run_bind (run_memcpy ..), Machine.noted_of_le (b := p') (by simp [hsize']),
    run_bind (run_writeBlock _ _ (by simp)), haddr']
  rfl

/-- Without memory for the block the writer leaves the disk alone, and says nothing. -/
theorem run_setDiskInode_of_fails (inode : Inode) (h : s.mem.fails s.mem.allocs = true)
    {p : Buffer} (hp : inode.iPrivate = some p) (hsize : p.size = sizeofInode) (now : Nat) :
    ∃ inode', (setDiskInode inode now).run s = .ok (inode', s.tried) ∧ inode'.ino = inode.ino := by
  obtain ⟨p', hstamp, _, _⟩ := run_stampCtime (s := s) hp hsize now
  refine ⟨{ inode with ctime := now, iPrivate := some p' }, ?_, rfl⟩
  unfold setDiskInode
  rw [run_bind hstamp]
  dsimp only
  rw [run_bind (run_kmalloc_of_fails h _), if_pos (by simp)]
  rfl

/-- The bytes that the reader takes for inode `m`. -/
def recordAt (disk : Disk) (m : Nat) : InodeRecord :=
  fun i => (disk (tableBlock m)).get (m * sizeofInode + i.val)

/-- The reader stays inside its buffer for the first five inodes. -/
theorem clean_getDiskInode (h : s.Plenty) {m : Nat} (hm : m ≤ 4) :
    ∃ r t, clean (getDiskInode m) s = some (some r, t) ∧
      r.bytes 200 = recordAt s.world.disk m := by
  have hrun := run_getDiskInode h (m := m) (by simp only [inodesPerBitmap, blockSize]; omega)
  have hfits : m * sizeofInode + sizeofInode ≤ blockSize := by
    simp only [sizeofInode_eq, blockSize]
    omega
  rw [Machine.noted_of_le (b := loaded s (tableBlock m)) hfits] at hrun
  refine ⟨_, _, clean_of_run hrun rfl, ?_⟩
  funext i
  have hi : i.val < sizeofInode := by
    rw [sizeofInode_eq]
    exact i.isLt
  show Buffer.mem _ i.val = _
  rw [Buffer.store_mem _ _ _ (Nat.zero_le _) (by omega), loaded,
    Buffer.store_mem _ _ _ (Nat.zero_le _) (by omega)]
  simp [recordAt]

/-- The reader takes the record from `m * 200` on, so only those of the first block are inside. -/
theorem getDiskInode_staysInside_iff {m : Nat} (hm : m < inodesPerBitmap) :
    StaysInside (getDiskInode m) s ↔ s.failsAt 0 = true ∨ (s.failsAt 1 = false ∧ m ≤ 4) := by
  cases h0 : s.failsAt 0 with
  | true =>
    rw [staysInside_iff_of_run (run_getDiskInode_of_fails h0 m)]
    exact iff_of_true rfl (.inl rfl)
  | false =>
    cases h1 : s.failsAt 1 with
    | true =>
      refine iff_of_false (not_staysInside_of_fault (run_getDiskInode_of_null h0 h1 m)) ?_
      rintro (h | ⟨h, _⟩) <;> cases h
    | false =>
      have hsize : (loaded s (tableBlock m)).size = blockSize := rfl
      have hgrown : s.grown.grown.strays = s.strays := rfl
      rw [staysInside_iff_of_run (run_getDiskInode_of_ok h0 h1 hm), Machine.strays_noted, hsize,
        hgrown]
      simp only [sizeofInode_eq, blockSize, Bool.false_eq_true, false_or, true_and]
      split <;> omega

theorem le_of_clean_getDiskInode (h : s.Plenty) {m : Nat} (hm : m < inodesPerBitmap)
    {r : Option Buffer} {t : Machine Volume} (hclean : clean (getDiskInode m) s = some (r, t)) :
    m ≤ 4 := by
  rcases (getDiskInode_staysInside_iff hm).mp ⟨r, t, hclean⟩ with hfails | ⟨_, hle⟩
  · rw [h.failsAt] at hfails
    cases hfails
  · exact hle

variable (inode : Inode) {p : Buffer}

/-- The record leaves the block or not when it is put at `n % 1024`. -/
theorem strays_written (s : Machine Volume) (n : Nat) (block : Block) :
    (wrote (s.grown.noted (loaded s (tableBlock n)) (n % blockSize) sizeofInode) (tableBlock n)
      block).strays = s.strays + if n % blockSize + sizeofInode ≤ blockSize then 0 else 1 := by
  rw [strays_wrote, Machine.strays_noted]
  rfl

/-- What a caller of the writer sees of it. -/
theorem setDiskInode_spec (h : s.Plenty) (hino : inode.ino < inodesPerBitmap)
    (hp : inode.iPrivate = some p) (hsize : p.size = sizeofInode) (now : Nat) :
    ∃ inode' t, (setDiskInode inode now).run s = .ok (inode', t) ∧ inode'.ino = inode.ino ∧
      t.Plenty ∧ t.world.inodesBitmapsCache = s.world.inodesBitmapsCache ∧
      t.strays = s.strays + if inode.ino % blockSize + sizeofInode ≤ blockSize then 0 else 1 := by
  obtain ⟨inode', block, hrun, hino', _⟩ := run_setDiskInode inode h.next hino hp hsize now
  have hplenty := h.grown.noted (loaded s (tableBlock inode.ino)) (inode.ino % blockSize) sizeofInode
  refine ⟨inode', _, hrun, hino', fun k => hplenty k, ?_, strays_written ..⟩
  simp [wrote, Machine.grown]

/-- The writer stays inside its buffer when the record fits behind `ino % 1024`. -/
theorem clean_setDiskInode (h : s.Plenty) (hino : inode.ino < inodesPerBitmap)
    (hp : inode.iPrivate = some p) (hsize : p.size = sizeofInode) (now : Nat)
    (hfits : inode.ino % 1024 ≤ 824) :
    ∃ inode' t, clean (setDiskInode inode now) s = some (inode', t) ∧ t.Plenty ∧
      t.world.disk = Function.update s.world.disk (tableBlock inode.ino)
        (patch (s.world.disk (tableBlock inode.ino)) (inode.ino % 1024)
          (stamp (p.bytes 200) now)) := by
  obtain ⟨inode', block, hrun, _, _, rfl⟩ := run_setDiskInode inode h.next hino hp hsize now
  have hle : inode.ino % blockSize + sizeofInode ≤ (loaded s (tableBlock inode.ino)).size := by
    show _ ≤ blockSize
    simp only [sizeofInode_eq, blockSize]
    omega
  rw [Machine.noted_of_le hle] at hrun
  exact ⟨inode', _, clean_of_run hrun rfl, h.grown, rfl⟩

/-- The writer puts the record at `ino % 1024`, so it has to fit behind that. -/
theorem setDiskInode_staysInside_iff (hino : inode.ino < inodesPerBitmap)
    (hp : inode.iPrivate = some p) (hsize : p.size = sizeofInode) (now : Nat) :
    StaysInside (setDiskInode inode now) s ↔ s.failsAt 0 = true ∨ inode.ino % 1024 ≤ 824 := by
  cases h0 : s.failsAt 0 with
  | true =>
    obtain ⟨inode', hrun, _⟩ := run_setDiskInode_of_fails inode h0 hp hsize now
    rw [staysInside_iff_of_run hrun]
    exact iff_of_true rfl (.inl rfl)
  | false =>
    obtain ⟨inode', block, hrun, _⟩ := run_setDiskInode inode h0 hino hp hsize now
    rw [staysInside_iff_of_run hrun, strays_written]
    simp only [sizeofInode_eq, blockSize, Bool.false_eq_true, false_or]
    split <;> omega

end Runs

/-! ## The table as an array -/

/-- The blocks of the inode table. -/
def InTable (address : Nat) : Prop :=
  2 ≤ address ∧ address < 2 + inodesPerBitmap * sizeofInode / blockSize

/-- The table behaves as an array for the numbers `n` and `m`: whatever is on the disk, storing a
record for `n` stays inside its buffers and changes no block outside the table, and what is then
read for `m` is that record, with the stamp, if `m = n`, and what was read before if not. -/
def TableLike (n m : Nat) : Prop :=
  ∀ (s : Machine Volume) (inode : Inode) (p : Buffer) (now : Nat), s.Plenty → inode.ino = n →
    inode.iPrivate = some p → p.size = sizeofInode →
    ∃ inode' t, clean (setDiskInode inode now) s = some (inode', t) ∧
      (∀ address, ¬ InTable address → t.world.disk address = s.world.disk address) ∧
      ∃ r u, clean (getDiskInode m) t = some (some r, u) ∧
        (m = n → r.bytes 200 = stamp (p.bytes 200) now) ∧
        (m ≠ n → ∃ r₀ u₀, clean (getDiskInode m) s = some (some r₀, u₀) ∧
          r.bytes 200 = r₀.bytes 200)

/-- The disk after the record `v` was stored for inode `n`. -/
def stored (disk : Disk) (n : Nat) (v : InodeRecord) : Disk :=
  Function.update disk (tableBlock n) (patch (disk (tableBlock n)) (n % 1024) v)

/-- A machine with `disk`, on which every allocation succeeds. -/
def onDisk (disk : Disk) : Machine Volume where
  mem := ⟨0, fun _ => false, fun _ _ => 0, [], []⟩
  world := ⟨disk, none, none⟩

theorem plenty_onDisk (disk : Disk) : (onDisk disk).Plenty := fun _ _ => rfl

/-- An in-core inode with the record `v`. -/
def inodeOf (n : Nat) (v : InodeRecord) : Inode :=
  { Inode.fresh with ino := n, iPrivate := some ⟨0, sizeofInode, v.get⟩ }

theorem tableBlock_inTable {n : Nat} (hn : n < inodesPerBitmap) : InTable (tableBlock n) := by
  simp only [InTable, tableBlock, inodesPerBitmap, sizeofInode_eq, blockSize] at hn ⊢
  omega

theorem bytes_get (v : InodeRecord) (id size : Nat) : (Buffer.mk id size v.get).bytes 200 = v := by
  funext i
  simp [Buffer.bytes]

/-- When neither leaves its buffer, the table is a matter of the bytes on the disk. -/
theorem tableLike_iff_stored {n m : Nat} (hn : n < inodesPerBitmap) (hset : n % 1024 ≤ 824)
    (hget : m ≤ 4) :
    TableLike n m ↔ ∀ (disk : Disk) (v : InodeRecord) (now : Nat),
      (m = n → recordAt (stored disk n (stamp v now)) m = stamp v now) ∧
      (m ≠ n → recordAt (stored disk n (stamp v now)) m = recordAt disk m) := by
  constructor
  · intro h disk v now
    obtain ⟨inode', t, ht, _, r, u, hr, hsame, hother⟩ :=
      h (onDisk disk) (inodeOf n v) _ now (plenty_onDisk disk) rfl rfl rfl
    obtain ⟨_, _, ht', hplenty, hdisk⟩ := clean_setDiskInode (inodeOf n v)
      (plenty_onDisk disk) hn rfl rfl now hset
    rw [ht] at ht'
    cases ht'
    obtain ⟨_, _, hr', hbytes⟩ := clean_getDiskInode hplenty hget
    rw [hr] at hr'
    cases hr'
    rw [bytes_get] at hsame hdisk
    have hstored : t.world.disk = stored disk n (stamp v now) := hdisk
    rw [hstored] at hbytes
    refine ⟨fun he => hbytes ▸ hsame he, ?_⟩
    intro hne
    obtain ⟨_, _, hr₀, hbytes₀⟩ := hother hne
    obtain ⟨_, _, hr₀', hrecord⟩ := clean_getDiskInode (plenty_onDisk disk) hget
    rw [hr₀] at hr₀'
    cases hr₀'
    exact hbytes.symm.trans (hbytes₀.trans hrecord)
  · intro h s inode p now hplenty hino hp hsize
    subst hino
    obtain ⟨inode', t, ht, htplenty, hdisk⟩ := clean_setDiskInode inode hplenty hn hp hsize now hset
    obtain ⟨r, u, hr, hbytes⟩ := clean_getDiskInode htplenty hget
    obtain ⟨r₀, u₀, hr₀, hbytes₀⟩ := clean_getDiskInode hplenty hget
    have hstored : t.world.disk = stored s.world.disk inode.ino (stamp (p.bytes 200) now) := hdisk
    rw [hstored] at hbytes
    refine ⟨inode', t, ht, fun address ha => ?_, r, u, hr, fun he => ?_, fun hne => ?_⟩
    · rw [hdisk, Function.update_of_ne]
      rintro rfl
      exact ha (tableBlock_inTable hn)
    · exact hbytes.trans ((h s.world.disk (p.bytes 200) now).1 he)
    · have hsame := (h s.world.disk (p.bytes 200) now).2 hne
      exact ⟨r₀, u₀, hr₀, (hbytes.trans hsame).trans hbytes₀.symm⟩

theorem patch_get (b : Block) (offset : Nat) (v : InodeRecord) {i : Nat} (hi : i < 1024) :
    (patch b offset v).get i =
      if offset ≤ i ∧ i < offset + 200 then v.get (i - offset) else b.get i := by
  rw [Bytes.get_of_lt _ hi, Bytes.get_of_lt _ hi]
  unfold patch
  rw [sizeofInode_eq]

theorem tableBlock_of_le {n : Nat} (h : n ≤ 5) : tableBlock n = 2 := by
  simp only [tableBlock, sizeofInode_eq, blockSize]
  omega

theorem tableBlock_of_lt {n : Nat} (h : 5 < n) : 2 < tableBlock n := by
  simp only [tableBlock, sizeofInode_eq, blockSize]
  omega

/-- What is read for `m` after the first block of the table was written for `n`. -/
theorem recordAt_stored {n m : Nat} (hn : n ≤ 5) (hm : m ≤ 4) (disk : Disk) (v : InodeRecord)
    (i : Fin 200) :
    recordAt (stored disk n v) m i =
      if n ≤ m * 200 + i.val ∧ m * 200 + i.val < n + 200 then v.get (m * 200 + i.val - n)
      else recordAt disk m i := by
  have hlt : m * 200 + i.val < 1024 := by
    have := i.isLt
    omega
  have hmod : n % 1024 = n := Nat.mod_eq_of_lt (by omega)
  unfold recordAt stored
  rw [tableBlock_of_le hn, tableBlock_of_le (by omega), Function.update_self, sizeofInode_eq,
    patch_get _ _ _ hlt, hmod]

/-- A record that is stored in another block of the table is not in the way. -/
theorem recordAt_stored_of_lt {n m : Nat} (hn : 5 < n) (hm : m ≤ 4) (disk : Disk)
    (v : InodeRecord) : recordAt (stored disk n v) m = recordAt disk m := by
  have hne : tableBlock m ≠ tableBlock n := by
    rw [tableBlock_of_le (by omega)]
    exact Nat.ne_of_lt (tableBlock_of_lt hn)
  funext i
  unfold recordAt stored
  rw [Function.update_of_ne hne]

/-- A record of ones. -/
def onesRecord : InodeRecord := fun _ => 1

/-- Outside the stamp the record is as it was. -/
theorem stamp_get (v : InodeRecord) {j : Nat} (hj : j < 24 ∨ 32 ≤ j) (hlt : j < 200) (now : Nat) :
    (stamp v now).get j = v.get j := by
  rw [Bytes.get_of_lt _ hlt]
  have hout :
      ¬ (offsetOf inodeT .ctime ≤ j ∧ j < offsetOf inodeT .ctime + CType.ulong.size) := by
    simp only [offsetOf_ctime, CType.size]
    omega
  simp only [stamp, storeLE, if_neg hout]

theorem stamp_onesRecord {j : Nat} (hj : 32 ≤ j) (hlt : j < 200) (now : Nat) :
    (stamp onesRecord now).get j = 1 :=
  (stamp_get onesRecord (.inr hj) hlt now).trans (Bytes.get_of_lt _ hlt)

theorem recordAt_zero (m : Nat) (i : Fin 200) : recordAt (fun _ => Bytes.zero) m i = 0 :=
  Bytes.get_zero _

/-- What the copies of a table that behaves as an array need. -/
theorem bounds_of_tableLike {n m : Nat} (hn : n < inodesPerBitmap) (hm : m < inodesPerBitmap)
    (h : TableLike n m) : n % 1024 ≤ 824 ∧ m ≤ 4 := by
  obtain ⟨inode', t, ht, _, r, u, hr, _⟩ := h (onDisk fun _ => Bytes.zero)
    (inodeOf n onesRecord) _ 0 (plenty_onDisk _) rfl rfl rfl
  have hset : n % 1024 ≤ 824 := by
    refine ((setDiskInode_staysInside_iff (inodeOf n onesRecord) hn rfl rfl 0).mp
      ⟨_, _, ht⟩).resolve_left ?_
    rw [(plenty_onDisk _).failsAt]
    exact Bool.false_ne_true
  obtain ⟨_, _, ht', hplenty, _⟩ := clean_setDiskInode (inodeOf n onesRecord)
    (plenty_onDisk _) hn rfl rfl 0 hset
  rw [ht] at ht'
  cases ht'
  exact ⟨hset, le_of_clean_getDiskInode hplenty hm hr⟩

/-- Writer and reader disagree about the place of inodes 1 to 4. -/
theorem own_record_lost {n : Nat} (hpos : 1 ≤ n) (hn : n ≤ 4) :
    recordAt (stored (fun _ => Bytes.zero) n (stamp onesRecord 0)) n ≠ stamp onesRecord 0 := by
  intro h
  have hbyte := congrFun h ⟨199, by decide⟩
  have hone := stamp_onesRecord (j := 199) (by decide) (by decide) 0
  rw [Bytes.get_of_lt _ (by decide)] at hone
  rw [recordAt_stored (by omega) hn, if_neg (by simp only; omega), recordAt_zero, hone] at hbyte
  cases hbyte

/-- The records of inodes 1 to 5 are written over those of inodes 0 and 1. -/
theorem other_record_lost {n m : Nat} (hpos : 1 ≤ n) (hn : n ≤ 5) (hm : m ≤ 1) :
    recordAt (stored (fun _ => Bytes.zero) n (stamp onesRecord 0)) m ≠
      recordAt (fun _ => Bytes.zero) m := by
  intro h
  -- the last byte of inode 0, or the first byte of inode 1
  have hbyte := congrFun h ⟨199 * (1 - m), by omega⟩
  rw [recordAt_stored hn (by omega), if_pos (by simp only; omega), recordAt_zero,
    stamp_onesRecord (by simp only; omega) (by simp only; omega)] at hbyte
  cases hbyte

/-- The table behaves as an array of records exactly for the pairs in which the record of `n` fits
behind `n % 1024`, the record of `m` lies in the first block, and the two do not meet. -/
theorem tableLike_iff (n m : Nat) (hn : n < inodesPerBitmap) (hm : m < inodesPerBitmap) :
    TableLike n m ↔ n % 1024 ≤ 824 ∧ m ≤ 4 ∧
      ((m = n ∧ n = 0) ∨ (m ≠ n ∧ (2 ≤ m ∨ 6 ≤ n ∨ n = 0))) := by
  constructor
  · intro h
    obtain ⟨hset, hget⟩ := bounds_of_tableLike hn hm h
    refine ⟨hset, hget, ?_⟩
    have hstored := (tableLike_iff_stored hn hset hget).mp h (fun _ => Bytes.zero) onesRecord 0
    by_cases he : m = n
    · subst he
      refine .inl ⟨rfl, ?_⟩
      by_contra hpos
      exact own_record_lost (by omega) hget (hstored.1 rfl)
    · refine .inr ⟨he, ?_⟩
      by_contra hmeet
      exact other_record_lost (by omega) (by omega) (by omega) (hstored.2 he)
  · rintro ⟨hset, hget, hcase⟩
    refine (tableLike_iff_stored hn hset hget).mpr fun disk v now => ⟨fun he => ?_, fun hne => ?_⟩
    · obtain rfl : n = 0 := by omega
      subst he
      funext i
      rw [recordAt_stored (by decide) (by decide), if_pos (by have := i.isLt; omega)]
      simp
    · by_cases hfirst : n ≤ 5
      · funext i
        rw [recordAt_stored hfirst hget, if_neg (by omega)]
      · exact recordAt_stored_of_lt (by omega) hget disk _

theorem tableLike_zero_three : TableLike 0 3 :=
  (tableLike_iff 0 3 (by decide) (by decide)).mpr
    ⟨by decide, by decide, .inr ⟨by decide, .inl (by decide)⟩⟩

/-- On an empty disk, what is stored for inode 1 is not what is then read for it. -/
theorem inode_one_not_read_back :
    (∃ inode t r u, clean (setDiskInode (inodeOf 1 onesRecord) 0) (onDisk fun _ => Bytes.zero) =
        some (inode, t) ∧ clean (getDiskInode 1) t = some (some r, u) ∧
      r.bytes 200 ≠ stamp onesRecord 0) ∧
    ¬ ∀ n m, n < inodesPerBitmap → m < inodesPerBitmap → TableLike n m := by
  have hplenty := plenty_onDisk fun _ => Bytes.zero
  obtain ⟨inode, t, ht, htplenty, hdisk⟩ := clean_setDiskInode (inodeOf 1 onesRecord)
    hplenty (by decide) rfl rfl 0 (by decide)
  obtain ⟨r, u, hr, hbytes⟩ := clean_getDiskInode htplenty (m := 1) (by decide)
  rw [bytes_get] at hdisk
  have hlost : r.bytes 200 ≠ stamp onesRecord 0 := by
    rw [hbytes, hdisk]
    exact own_record_lost (by decide) (by decide)
  refine ⟨⟨inode, t, r, u, ht, hr, hlost⟩, ?_⟩
  intro h
  obtain ⟨_, _, ht', _, _, _, hr', hsame, _⟩ := h 1 1 (by decide) (by decide)
    (onDisk fun _ => Bytes.zero) (inodeOf 1 onesRecord) _ 0 hplenty rfl rfl rfl
  rw [ht] at ht'
  cases ht'
  rw [hr] at hr'
  cases hr'
  rw [bytes_get] at hsame
  exact hlost (hsame rfl)

end Sjfs
