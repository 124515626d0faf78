import Sjfs.DiskInode
import Sjfs.Bitmap

/-!
# Creating and unlinking a file

The part of `sjfs_iops_create` behind its free-inode scan, and `sjfs_iops_unlink`, of
`kernel_space_module/sjfs.c`. Both update the cached inode bitmap and write it to block 1.

`SJFS_INODE_SIZE`, which no header defines, is read as `sizeof(inode_t)`; `inode_bit` and
`inode_byte`, which `sjfs_iops_create` does not declare, as the locals of `sjfs_iops_unlink`.

Left out: the owner that `inode_init_owner` sets, and `update_time`, which does nothing.

Results:
1. `clean_iopsCreate`: for numbers up to 824 a create stays inside its buffers and marks its number.
2. `clean_iopsCreate_eq_none`: for the others it does not.
3. `clean_iopsUnlink`: an unlink clears the number it is given.
-/

namespace Sjfs

open Lib

/-! ## The code -/

/-- `S_IFREG`. -/
def sIfreg : Nat := 0x8000

/-- The cache `c` with the bit of `ino` updated. -/
def updated (c : Buffer) (ino : Nat) (update : UInt8 → Nat → UInt8) : Buffer :=
  { c with
    mem := Function.update c.mem (inodeByte ino) (update (c.mem (inodeByte ino)) (inodeBit ino)) }

/-- The update of the bit of `ino` in the inode bitmap cache, by `|=` or by `&= ~`, and the write of
the cache to block 1. -/
def updateCache (ino : Nat) (update : UInt8 → Nat → UInt8) : K Volume Unit := do
  let s ← get
  let c ← deref s.world.inodesBitmapsCache
  touch c (inodeByte ino) 1
  let c := updated c ino update
  modify fun s => { s with world := { s.world with inodesBitmapsCache := some c } }
  let _ ← writeBlock 1 (some c)

/-- The in-core inode of a create, before it goes to the disk. -/
def createdInode (inodeNumber now : Nat) (iPrivate : Option Buffer) : Inode :=
  { Inode.fresh with
    ino := inodeNumber, mode := sIfreg, atime := now, mtime := now, ctime := now,
    iPrivate := iPrivate }

/-- `sjfs_iops_create` behind the scan, when it chose `inodeNumber`: the inode it instantiates. -/
def iopsCreate (inodeNumber now : Nat) : K Volume Inode := do
  let iPrivate ← kzalloc sizeofInode
  let inode ← setDiskInode (createdInode inodeNumber now iPrivate) now
  updateCache inode.ino orBit
  return inode

/-- `sjfs_iops_unlink`, up to its `simple_unlink`. -/
def iopsUnlink (inode : Inode) : K Volume Unit := do
  updateCache inode.ino andNotBit
  kfree inode.iPrivate

/-- `sjfs_iops_rename`. -/
def iopsRename : K Volume Int := return 0

/-! ## The cache -/

/-- The inode bitmap is loaded: the cache is a buffer of one block. -/
def Loaded (s : Machine Volume) (c : Buffer) : Prop :=
  s.world.inodesBitmapsCache = some c ∧ c.size = blockSize

/-- The state after an update of the cache. -/
def cached (s : Machine Volume) (c : Buffer) : Machine Volume :=
  wrote { s with world := { s.world with inodesBitmapsCache := some c } } 1 (c.bytes 1024)

section Runs

variable {s : Machine Volume} {c : Buffer}

theorem run_updateCache (h : Loaded s c) (ino : Nat) (update : UInt8 → Nat → UInt8) :
    (updateCache ino update).run s =
      .ok ((), cached (s.noted c (inodeByte ino) 1) (updated c ino update)) := by
  have hsize : blockSize ≤ (updated c ino update).size := Nat.le_of_eq h.2.symm
  unfold updateCache
  rw [run_bind run_get, h.1, run_bind (run_deref c), run_bind (run_touch ..)]
  dsimp only
  rw [run_bind (run_modify _), run_bind (run_writeBlock 1 (updated c ino update) hsize)]
  rfl

theorem bytes_updated (c : Buffer) {ino : Nat} (h : ino < 1024) (update : UInt8 → Nat → UInt8) :
    (updated c ino update).bytes 1024 = (c.bytes 1024).set (inodeByte ino)
      (update ((c.bytes 1024).get (inodeByte ino)) (inodeBit ino)) := by
  have hbyte := (inodeByte_lt_iff ino).mpr h
  have hget : (c.bytes 1024).get (inodeByte ino) = c.mem (inodeByte ino) := Bytes.get_of_lt _ hbyte
  funext i
  rw [hget]
  simp only [Buffer.bytes, updated, Bytes.set, Function.update_apply]

theorem mark_updated (c : Buffer) {ino : Nat} (h : ino < 1024) :
    mark (c.bytes 1024) ino = some ((updated c ino orBit).bytes 1024) :=
  Bytes.setBit_eq_some_iff.mpr ⟨(inodeByte_lt_iff ino).mpr h, bytes_updated c h orBit⟩

theorem clear_updated (c : Buffer) {ino : Nat} (h : ino < 1024) :
    clear (c.bytes 1024) ino = some ((updated c ino andNotBit).bytes 1024) :=
  Bytes.clearBit_eq_some_iff.mpr ⟨(inodeByte_lt_iff ino).mpr h, bytes_updated c h andNotBit⟩

/-! ## Create and unlink -/

theorem updateCache_spec (h : s.Plenty) (hc : Loaded s c) (ino : Nat)
    (update : UInt8 → Nat → UInt8) :
    ∃ t, (updateCache ino update).run s = .ok ((), t) ∧ t.Plenty ∧
      Loaded t (updated c ino update) ∧
      t.strays = s.strays + if inodeByte ino + 1 ≤ blockSize then 0 else 1 := by
  refine ⟨_, run_updateCache hc ino update, h.noted _ _ _, ⟨rfl, hc.2⟩, ?_⟩
  have hstrays := Machine.strays_noted s c (inodeByte ino) 1
  rw [hc.2] at hstrays
  exact hstrays

/-- What a create leaves, and how many of its copies leave their buffers. -/
theorem iopsCreate_spec (h : s.Plenty) (hc : Loaded s c) {n : Nat} (hn : n < inodesPerBitmap)
    (now : Nat) :
    ∃ inode t, (iopsCreate n now).run s = .ok (inode, t) ∧ inode.ino = n ∧ t.Plenty ∧
      Loaded t (updated c n orBit) ∧
      t.strays = s.strays + (if n % blockSize + sizeofInode ≤ blockSize then 0 else 1) +
        (if inodeByte n + 1 ≤ blockSize then 0 else 1) := by
  obtain ⟨inode, t, hset, hino, hplenty, hcache, hstrays⟩ := setDiskInode_spec
    (createdInode n now (some ⟨s.mem.allocs, sizeofInode, _⟩)) h.grown hn rfl rfl now
  obtain ⟨u, hupdate, hplenty', hload, hstrays'⟩ :=
    updateCache_spec hplenty ⟨hcache.trans hc.1, hc.2⟩ n orBit
  refine ⟨inode, u, ?_, hino, hplenty', hload, hstrays'.trans ?_⟩
  · unfold iopsCreate
    rw [run_bind (run_kzalloc h _), run_bind hset, hino]
    exact run_bind hupdate
  · rw [hstrays]
    rfl

/-- For the numbers up to 824 a create stays inside its buffers and marks its number. -/
theorem clean_iopsCreate (h : s.Plenty) (hc : Loaded s c) {n : Nat} (hn : n ≤ 824) (now : Nat) :
    ∃ inode t, clean (iopsCreate n now) s = some (inode, t) ∧ inode.ino = n ∧ t.Plenty ∧
      Loaded t (updated c n orBit) := by
  obtain ⟨inode, t, hrun, hino, hplenty, hload, hstrays⟩ := iopsCreate_spec h hc (n := n)
    (by simp only [inodesPerBitmap, blockSize]; omega) now
  have hbyte := (inodeByte_lt_iff n).mpr (by omega)
  rw [if_pos (by simp only [blockSize, sizeofInode_eq]; omega),
    if_pos (by simp only [blockSize]; omega)] at hstrays
  exact ⟨inode, t, clean_of_run hrun hstrays, hino, hplenty, hload⟩

/-- For the others the record leaves the block, or the bit leaves the bitmap. -/
theorem clean_iopsCreate_eq_none (h : s.Plenty) (hc : Loaded s c) {n : Nat}
    (hn : n < inodesPerBitmap) (hlate : 824 < n) (now : Nat) :
    clean (iopsCreate n now) s = none := by
  obtain ⟨inode, t, hrun, _, _, _, hstrays⟩ := iopsCreate_spec h hc hn now
  refine clean_of_strays hrun ?_
  have hbyte := inodeByte_lt_iff n
  by_cases hfits : n < 1024
  · have hleaves : ¬ n % blockSize + sizeofInode ≤ blockSize := by
      simp only [blockSize, sizeofInode_eq]
      omega
    rw [if_neg hleaves] at hstrays
    omega
  · have hleaves : ¬ inodeByte n + 1 ≤ blockSize := by
      simp only [blockSize]
      omega
    rw [if_neg hleaves] at hstrays
    omega

/-- An unlink clears the number it is given. -/
theorem clean_iopsUnlink (inode : Inode) (h : s.Plenty) (hc : Loaded s c)
    (hino : inode.ino < 1024) :
    ∃ t, clean (iopsUnlink inode) s = some ((), t) ∧ t.Plenty ∧
      Loaded t (updated c inode.ino andNotBit) := by
  obtain ⟨t, hrun, hplenty, hload, hstrays⟩ := updateCache_spec h hc inode.ino andNotBit
  have hbyte := (inodeByte_lt_iff inode.ino).mpr hino
  rw [if_pos (by simp only [blockSize]; omega)] at hstrays
  have hall : ∃ u, (iopsUnlink inode).run s = .ok ((), u) ∧ u.Plenty ∧ u.world = t.world ∧
      u.mem.overruns = t.mem.overruns := by
    unfold iopsUnlink
    rw [run_bind hrun]
    cases inode.iPrivate with
    | none => exact ⟨t, rfl, hplenty, rfl, rfl⟩
    | some p => exact ⟨_, run_kfree p, hplenty, rfl, rfl⟩
  obtain ⟨u, hu, hplenty', hworld, hover⟩ := hall
  refine ⟨u, clean_of_run hu ?_, hplenty', hworld ▸ hload.1, hload.2⟩
  unfold Machine.strays at hstrays ⊢
  rw [hover]
  exact hstrays

end Runs

end Sjfs
