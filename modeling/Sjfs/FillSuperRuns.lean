import Sjfs.FillSuper

/-!
# How a mount can end

The three parts of `sjfs_fill_super`, each with everything it can do: which allocation fails, how
many rounds the loading loop makes, which objects are left allocated. Allocations are counted from
the state in which the part starts.

The bound of the loading loop is computed modulo `2^64`, so a superblock with 0 or with at least
`2^64 - 8194` data block bitmaps makes no round. The offset into the cache is an `int`, which
overflows in round `2^21`.

Results:
1. `superblockRun`: `sjfs_get_disk_superblock`.
2. `cachesRun`: the two bitmap caches, with the loading loop.
3. `rootRun`: the root inode.
4. `mountRun`: all of `sjfs_fill_super`.
-/

namespace Sjfs

open Lib

/-! ## The superblock -/

/-- How `sjfs_get_disk_superblock` ends. -/
inductive SuperblockRun (s : Machine Volume) :
    Except Fault (Option Buffer × Machine Volume) → Prop
  | noBuffer : s.failsAt 0 = true → SuperblockRun s (.ok (none, s.tried))
  | noRecord : s.failsAt 0 = false → s.failsAt 1 = true →
      SuperblockRun s (.error .nullDereference)
  | read {diskSb : Buffer} {t : Machine Volume} : s.failsAt 0 = false → s.failsAt 1 = false →
      (∀ i < 1024, diskSb.mem i = (s.world.disk 0).get i) →
      s.Allocated t 2 [s.mem.allocs + 1] → t.world = s.world →
      SuperblockRun s (.ok (some diskSb, t))

theorem superblockRun (s : Machine Volume) : SuperblockRun s (getDiskSuperblock.run s) := by
  cases h0 : s.failsAt 0 with
  | true =>
    rw [run_getDiskSuperblock_of_fails h0]
    exact .noBuffer h0
  | false =>
    cases h1 : s.failsAt 1 with
    | true =>
      rw [run_getDiskSuperblock_of_null h0 h1]
      exact .noRecord h0 h1
    | false =>
      obtain ⟨diskSb, t, hrun, hmem, halloc, hworld, _⟩ := run_getDiskSuperblock_of_ok h0 h1
      rw [hrun]
      exact .read h0 h1 hmem halloc hworld

/-! ## The loading loop -/

/-- The loop makes no round: there are no bitmaps, or so many that the bound wraps around. -/
def NoRound (count : Nat) : Prop :=
  count = 0 ∨ 2 ^ 64 - datablocksBitmapsOffset ≤ count

section Loop

variable {s : Machine Volume} {count : Nat}

theorem loadBitmaps_of_noRound (h : NoRound count) (hcount : count < 2 ^ 64)
    (cache : Option Buffer) : loadBitmaps count cache 0 = return cache := by
  rw [loadBitmaps, if_neg]
  rcases h with h | h <;> simp only [datablocksBitmapsOffset, inodesPerBitmap, blockSize] at h ⊢ <;>
    omega

/-- A round, while the bound is not reached. -/
theorem loadBitmaps_round (h : ¬ NoRound count) {k : Nat} (hk : k < count)
    (hsmall : k < 2 ^ 21) (cache : Option Buffer) :
    loadBitmaps count cache k =
      readBlock (datablocksBitmapsOffset + k) cache (k * blockSize) >>= fun p =>
        loadBitmaps count (some p.2) (k + 1) := by
  unfold NoRound at h
  have hbound : datablocksBitmapsOffset + k < (datablocksBitmapsOffset + count) % 2 ^ 64 := by
    simp only [datablocksBitmapsOffset, inodesPerBitmap, blockSize] at h ⊢
    omega
  have hoffset : k * blockSize < 2 ^ 31 := by
    simp only [blockSize]
    omega
  rw [loadBitmaps, if_pos hbound, if_pos hoffset]

theorem run_loadBitmaps_null (h : ¬ NoRound count) :
    (loadBitmaps count none 0).run s = .error .nullDereference := by
  have hpos : 0 < count := by
    unfold NoRound at h
    omega
  rw [loadBitmaps_round h hpos (by decide)]
  exact run_bind_error rfl

/-- The offset of round `2^21` is no `int`. -/
theorem run_loadBitmaps_overflow (h : ¬ NoRound count) (hmany : 2 ^ 21 < count) (d : Nat) :
    ∀ (k : Nat) (b : Buffer) (s : Machine Volume), 2 ^ 21 = k + d →
      (loadBitmaps count (some b) k).run s = .error .signedOverflow := by
  induction d with
  | zero =>
    rintro k b s rfl
    unfold NoRound at h
    rw [loadBitmaps, if_pos, if_neg]
    · rfl
    · decide
    · simp only [datablocksBitmapsOffset, inodesPerBitmap, blockSize] at h ⊢
      omega
  | succ d ih =>
    intro k b s hk
    rw [loadBitmaps_round h (by omega) (by omega), run_bind (run_readBlock ..)]
    exact ih (k + 1) _ _ (by omega)

/-- The cache holds the data block bitmaps from number `k` on. -/
def HoldsFrom (disk : Disk) (count k : Nat) (cache : Buffer) : Prop :=
  ∀ j, k ≤ j → j < count → ∀ i < blockSize,
    cache.mem (j * blockSize + i) = (disk (datablocksBitmapsOffset + j)).get i

/-- Up to `2^21` bitmaps are loaded, each into its place, and no store leaves a cache that has room
for them. -/
theorem run_loadBitmaps_loaded (h : ¬ NoRound count) (hfew : count ≤ 2 ^ 21) (d : Nat) :
    ∀ (k : Nat) (b : Buffer), count = k + d → count * blockSize ≤ b.size →
      ∃ cache, (loadBitmaps count (some b) k).run s = .ok (some cache, s) ∧ cache.size = b.size ∧
        (∀ i < k * blockSize, cache.mem i = b.mem i) ∧ HoldsFrom s.world.disk count k cache := by
  induction d with
  | zero =>
    intro k b hk _
    refine ⟨b, ?_, rfl, fun _ _ => rfl, fun j hj hlt => absurd hlt (by omega)⟩
    unfold NoRound at h
    rw [loadBitmaps, if_neg]
    · rfl
    · simp only [datablocksBitmapsOffset, inodesPerBitmap, blockSize] at h ⊢
      omega
  | succ d ih =>
    intro k b hk hsize
    have hinside : k * blockSize + blockSize ≤ b.size := by
      rw [← Nat.succ_mul]
      exact Nat.le_trans (Nat.mul_le_mul_right _ (by omega)) hsize
    have haddress : (datablocksBitmapsOffset + k) % 2 ^ 32 = datablocksBitmapsOffset + k := by
      simp only [datablocksBitmapsOffset, inodesPerBitmap, blockSize]
      omega
    rw [loadBitmaps_round h (by omega) (by omega), run_bind (run_readBlock ..),
      Machine.noted_of_le hinside, haddress]
    obtain ⟨cache, hrun, hcache, hbefore, hafter⟩ := ih (k + 1) (b.store (k * blockSize)
      (s.world.disk (datablocksBitmapsOffset + k)).get 0 blockSize) (by omega) hsize
    refine ⟨cache, hrun, hcache, ?_, ?_⟩
    · intro i hi
      rw [hbefore i (by rw [Nat.add_mul]; omega), Buffer.store_mem_of_not _ _ _ (by omega)]
    · intro j hj hlt i hi
      rcases Nat.eq_or_lt_of_le hj with rfl | hj
      · rw [hbefore _ (by rw [Nat.add_mul]; omega),
          Buffer.store_mem _ _ _ (Nat.le_add_right ..) (by omega)]
        congr 1
        omega
      · exact hafter j hj hlt i hi

end Loop

/-! ## The caches -/

/-- The number of data block bitmaps in the record of a superblock. -/
def countOf (diskSb : Buffer) : Nat := diskSb.field superblockT .datablockBlocksCount

theorem countOf_lt (diskSb : Buffer) : countOf diskSb < 2 ^ 64 := loadLE_lt _ _ 8

/-- What is left when the caches are loaded, `cache` being the one of the inode bitmap. -/
structure CachesLeft (s t : Machine Volume) (cache : Buffer) : Prop where
  allocated : ∃ ids, ids ≠ [] ∧ s.Allocated t 2 ids
  disk : t.world.disk = s.world.disk
  strays : t.strays = s.strays
  inodes : cache.bytes 1024 = s.world.disk 1
  small : ∀ data, t.world.datablocksBitmapsCache = some data → data.size < 2 ^ 64

/-- How the loading of the two caches ends. -/
inductive CachesRun (s : Machine Volume) (count : Nat) :
    Except Fault (Buffer × Machine Volume) → Prop
  | noInodes : s.failsAt 0 = true → CachesRun s count (.error .nullDereference)
  | noData : s.failsAt 0 = false → s.failsAt 1 = true → ¬ NoRound count →
      CachesRun s count (.error .nullDereference)
  | overflow : s.failsAt 0 = false → s.failsAt 1 = false → ¬ NoRound count → 2 ^ 21 < count →
      CachesRun s count (.error .signedOverflow)
  | skipped {cache : Buffer} {t : Machine Volume} : s.failsAt 0 = false → NoRound count →
      CachesLeft s t cache → CachesRun s count (.ok (cache, t))
  | loaded {cache data : Buffer} {t : Machine Volume} : s.failsAt 0 = false →
      s.failsAt 1 = false → ¬ NoRound count → count ≤ 2 ^ 21 → CachesLeft s t cache →
      t.world.datablocksBitmapsCache = some data → count * blockSize ≤ data.size →
      HoldsFrom s.world.disk count 0 data → CachesRun s count (.ok (cache, t))

/-- The state in which both caches are set. -/
def cachesSet (s : Machine Volume) (inodes : Buffer) (data : Option Buffer) : Machine Volume :=
  { s with world := { s.world with
    inodesBitmapsCache := some inodes, datablocksBitmapsCache := data } }

/-- The second cache, once the first one is loaded. -/
def loadData (count : Nat) (inodes : Buffer) : K Volume Buffer := do
  let cache ← kmalloc (blockSize * count % 2 ^ 64)
  let data ← loadBitmaps count cache 0
  modify fun s => cachesSet s inodes data
  return inodes

theorem run_loadCaches_of_ok {s : Machine Volume} (h0 : s.failsAt 0 = false) (diskSb : Buffer) :
    (loadCaches diskSb).run s = (loadData (countOf diskSb) (loaded s 1)).run s.grown := by
  unfold loadCaches
  rw [run_bind (run_kmalloc_of_ok h0 _), run_bind (run_readBlock ..), Machine.noted_of_le (by simp)]
  rfl

theorem bytes_loaded (s : Machine Volume) (address : Nat) :
    (loaded s address).bytes 1024 = s.world.disk address := by
  funext i
  have hi : i.val < blockSize := i.isLt
  show Buffer.mem _ i.val = _
  rw [loaded, Buffer.store_mem _ _ _ (Nat.zero_le _) (by omega)]
  simp

/-- After the loading, whatever became of the second allocation. -/
theorem cachesLeft_set {s u : Machine Volume} {data : Option Buffer} {ids : List Nat}
    (hids : ids ≠ []) (hu : s.Allocated u 2 ids) (hworld : u.world = s.world)
    (hstrays : u.strays = s.strays) (hsmall : ∀ b, data = some b → b.size < 2 ^ 64) :
    CachesLeft s (cachesSet u (loaded s 1) data) (loaded s 1) where
  allocated := ⟨ids, hids, hu.allocs, hu.fails, hu.live⟩
  disk := by simp [cachesSet, hworld]
  strays := hstrays
  inodes := bytes_loaded s 1
  small := hsmall

theorem cachesRun (s : Machine Volume) (diskSb : Buffer) :
    CachesRun s (countOf diskSb) ((loadCaches diskSb).run s) := by
  have hlt := countOf_lt diskSb
  cases h0 : s.failsAt 0 with
  | true =>
    unfold loadCaches
    rw [run_bind (run_kmalloc_of_fails h0 _), run_bind_error rfl]
    exact .noInodes h0
  | false =>
    have hnext : s.grown.mem.fails s.grown.mem.allocs = s.failsAt 1 := rfl
    rw [run_loadCaches_of_ok h0, loadData]
    cases h1 : s.failsAt 1 with
    | true =>
      rw [run_bind (run_kmalloc_of_fails (hnext.trans h1) _)]
      by_cases hround : NoRound (countOf diskSb)
      · rw [loadBitmaps_of_noRound hround hlt]
        have hgrown := s.allocated_grown.trans s.grown.allocated_tried
        refine .skipped h0 hround (cachesLeft_set (by simp) hgrown rfl rfl ?_)
        rintro b ⟨⟩
      · rw [run_bind_error (run_loadBitmaps_null hround)]
        exact .noData h0 h1 hround
    | false =>
      rw [run_bind (run_kmalloc_of_ok (hnext.trans h1) _)]
      have hgrown := s.allocated_grown.trans s.grown.allocated_grown
      have hsize : blockSize * countOf diskSb % 2 ^ 64 < 2 ^ 64 := Nat.mod_lt _ (by decide)
      by_cases hround : NoRound (countOf diskSb)
      · rw [loadBitmaps_of_noRound hround hlt]
        refine .skipped h0 hround (cachesLeft_set (by simp) hgrown rfl rfl ?_)
        rintro b ⟨⟩
        exact hsize
      · rcases Nat.lt_or_ge (2 ^ 21) (countOf diskSb) with hmany | hfew
        · rw [run_bind_error (run_loadBitmaps_overflow hround hmany (2 ^ 21) 0 _ _ (by simp))]
          exact .overflow h0 h1 hround hmany
        · have hroom : countOf diskSb * blockSize ≤ blockSize * countOf diskSb % 2 ^ 64 := by
            simp only [blockSize]
            omega
          obtain ⟨data, hrun, hdata, _, hholds⟩ := run_loadBitmaps_loaded hround hfew
            (countOf diskSb) 0 ⟨s.grown.mem.allocs, blockSize * countOf diskSb % 2 ^ 64,
              s.grown.mem.junk s.grown.mem.allocs⟩ (by simp) hroom
          have hfits : countOf diskSb * blockSize ≤ data.size := by
            rw [hdata]
            exact hroom
          rw [run_bind hrun]
          refine .loaded h0 h1 hround hfew (cachesLeft_set (by simp) hgrown rfl rfl ?_) rfl
            hfits hholds
          rintro b ⟨⟩
          rw [hdata]
          exact hsize

/-! ## The root -/

/-- How the making of the root ends, where `root` says that the root's bit is set. -/
inductive RootRun (s : Machine Volume) (root : Bool) :
    Except Fault ((Int × SuperBlock) × Machine Volume) → Prop
  | noBuffer {sb : SuperBlock} : s.failsAt 0 = true → RootRun s root (.ok ((enomem, sb), s.tried))
  | noRecord : s.failsAt 0 = false → s.failsAt 1 = true → RootRun s root (.error .nullDereference)
  | refused {sb : SuperBlock} {t : Machine Volume} {n : Nat} {ids : List Nat} :
      s.failsAt 0 = false → s.failsAt 1 = false →
      root = false ∨ s.failsAt 2 = true ∨ s.failsAt 3 = true →
      ids ≠ [] → s.Allocated t n ids → t.world = s.world → RootRun s root (.ok ((enomem, sb), t))
  | made {sb : SuperBlock} {t : Machine Volume} {ids : List Nat} :
      s.failsAt 0 = false → s.failsAt 1 = false → root = true → s.failsAt 2 = false →
      s.failsAt 3 = false → s.Allocated t 4 ids → RootRun s root (.ok ((0, sb), t))

/-- The record of the root lies in its block. -/
theorem run_getDiskInode_root {s : Machine Volume} (h0 : s.failsAt 0 = false)
    (h1 : s.failsAt 1 = false) :
    ∃ diskInode, (getDiskInode 0).run s = .ok (some diskInode, s.grown.grown) := by
  have hfits : 0 * sizeofInode + sizeofInode ≤ blockSize := by decide
  have hrun := run_getDiskInode_of_ok h0 h1 (show 0 < inodesPerBitmap by decide)
  rw [Machine.noted_of_le (b := loaded s (tableBlock 0)) hfits] at hrun
  exact ⟨_, hrun⟩

theorem rootRun (s : Machine Volume) (sb : SuperBlock) (cache : Buffer) :
    RootRun s (rootCheck (cache.bytes 1024)) ((makeRoot sb cache).run s) := by
  unfold makeRoot
  cases h0 : s.failsAt 0 with
  | true =>
    rw [run_bind (run_getDiskInode_of_fails h0 0)]
    exact .noBuffer h0
  | false =>
    cases h1 : s.failsAt 1 with
    | true =>
      rw [run_bind_error (run_getDiskInode_of_null h0 h1 0)]
      exact .noRecord h0 h1
    | false =>
      obtain ⟨diskInode, hget⟩ := run_getDiskInode_root h0 h1
      have hgrown := s.allocated_grown.trans s.grown.allocated_grown
      rw [run_bind hget]
      dsimp only
      cases hroot : rootCheck (cache.bytes 1024) with
      | false => exact .refused h0 h1 (.inl rfl) (by simp) hgrown rfl
      | true =>
        rw [if_neg (by simp), run_bind run_attempt_eq, show _ = s.failsAt 2 from hgrown.next]
        cases h2 : s.failsAt 2 with
        | true =>
          exact .refused h0 h1 (.inr (.inl h2)) (by simp)
            (hgrown.trans (Machine.allocated_tried _)) rfl
        | false =>
          have htried := hgrown.trans s.grown.grown.allocated_tried
          rw [if_neg (by simp), run_bind run_attempt_eq, show _ = s.failsAt 3 from htried.next]
          cases h3 : s.failsAt 3 with
          | true =>
            exact .refused h0 h1 (.inr (.inr h3)) (by simp)
              (htried.trans (Machine.allocated_tried _)) rfl
          | false => exact .made h0 h1 rfl h2 h3 (htried.trans (Machine.allocated_tried _))

/-! ## The whole mount -/

/-- Both caches are set and nothing has gone wrong so far: the one of the inode bitmap was allocated,
and the loading loop makes no round, or as many as it can and into a cache that was allocated. -/
def CachesOk (s : Machine Volume) : Prop :=
  s.failsAt 2 = false ∧ (NoRound (bitmapCountOf s.world.disk) ∨
    (s.failsAt 3 = false ∧ bitmapCountOf s.world.disk ≤ 2 ^ 21))

/-- Making the root fails with an error: the block buffer is not allocated, or the record is, but the
root's bit is not set or there is no inode or no dentry. -/
def RootFails (s : Machine Volume) : Prop :=
  s.failsAt 4 = true ∨ (s.failsAt 4 = false ∧ s.failsAt 5 = false ∧
    (rootCheck (s.world.disk 1) = false ∨ s.failsAt 6 = true ∨ s.failsAt 7 = true))

/-- How `sjfs_fill_super` ends. -/
inductive MountRun (s : Machine Volume) :
    Except Fault ((Int × SuperBlock) × Machine Volume) → Prop
  | noBuffer {sb : SuperBlock} : s.failsAt 0 = true → MountRun s (.ok ((enomem, sb), s.tried))
  | noSuperblock : s.failsAt 0 = false → s.failsAt 1 = true →
      MountRun s (.error .nullDereference)
  | unknown {sb : SuperBlock} {t : Machine Volume} {n : Nat} {ids : List Nat} :
      s.failsAt 0 = false → s.failsAt 1 = false → magicOf s.world.disk ≠ sjfsMagic →
      ids ≠ [] → s.Allocated t n ids → MountRun s (.ok ((enomem, sb), t))
  | noCache : s.failsAt 0 = false → s.failsAt 1 = false → magicOf s.world.disk = sjfsMagic →
      s.failsAt 2 = true ∨ s.failsAt 3 = true ∧ ¬ NoRound (bitmapCountOf s.world.disk) →
      MountRun s (.error .nullDereference)
  | overflow : s.failsAt 0 = false → s.failsAt 1 = false → magicOf s.world.disk = sjfsMagic →
      s.failsAt 2 = false → s.failsAt 3 = false → ¬ NoRound (bitmapCountOf s.world.disk) →
      2 ^ 21 < bitmapCountOf s.world.disk → MountRun s (.error .signedOverflow)
  | noRootRecord : s.failsAt 0 = false → s.failsAt 1 = false →
      magicOf s.world.disk = sjfsMagic → CachesOk s → s.failsAt 4 = false → s.failsAt 5 = true →
      MountRun s (.error .nullDereference)
  | noRoot {sb : SuperBlock} {t : Machine Volume} {n : Nat} {ids : List Nat} :
      s.failsAt 0 = false → s.failsAt 1 = false → magicOf s.world.disk = sjfsMagic → CachesOk s →
      RootFails s → ids ≠ [] → s.Allocated t n ids → MountRun s (.ok ((enomem, sb), t))
  | mounted {sb : SuperBlock} {t : Machine Volume} {ids : List Nat} :
      s.failsAt 0 = false → s.failsAt 1 = false → magicOf s.world.disk = sjfsMagic → CachesOk s →
      rootCheck (s.world.disk 1) = true → (∀ k, 4 ≤ k → k < 8 → s.failsAt k = false) →
      s.Allocated t 8 ids → MountRun s (.ok ((0, sb), t))

/-- The record of the superblock has the number of bitmaps that is on the disk. -/
theorem countOf_eq {s : Machine Volume} {diskSb : Buffer}
    (h : ∀ i < 1024, diskSb.mem i = (s.world.disk 0).get i) :
    countOf diskSb = bitmapCountOf s.world.disk := by
  have hend : offsetOf superblockT .datablockBlocksCount +
      fieldSize .datablockBlocksCount superblockT ≤ 1024 := by decide
  exact loadLE_congr _ fun i _ hi => h i (by omega)

/-- The last part, once the caches are set in state `u`. -/
theorem mountRun_of_rootRun {s u : Machine Volume} {ids : List Nat}
    {o : Except Fault ((Int × SuperBlock) × Machine Volume)} (h0 : s.failsAt 0 = false)
    (h1 : s.failsAt 1 = false) (hmagic : magicOf s.world.disk = sjfsMagic) (hcaches : CachesOk s)
    (hids : ids ≠ []) (hu : s.Allocated u 4 ids) (h : RootRun u (rootCheck (s.world.disk 1)) o) :
    MountRun s o := by
  have hat : ∀ k, u.failsAt k = s.failsAt (4 + k) := hu.failsAt
  cases h with
  | noBuffer h4 =>
    exact .noRoot h0 h1 hmagic hcaches (.inl (hat 0 ▸ h4)) (by simpa using hids)
      (hu.trans u.allocated_tried)
  | noRecord h4 h5 => exact .noRootRecord h0 h1 hmagic hcaches (hat 0 ▸ h4) (hat 1 ▸ h5)
  | refused h4 h5 hwhy hids' ht hw =>
    rw [hat] at h4 h5
    rw [hat, hat] at hwhy
    exact .noRoot h0 h1 hmagic hcaches (.inr ⟨h4, h5, hwhy⟩) (by simp [hids]) (hu.trans ht)
  | made h4 h5 hroot h6 h7 ht =>
    rw [hat] at h4 h5 h6 h7
    refine .mounted h0 h1 hmagic hcaches hroot ?_ (hu.trans ht)
    intro k hk hk'
    obtain rfl | rfl | rfl | rfl : k = 4 ∨ k = 5 ∨ k = 6 ∨ k = 7 := by omega
    all_goals assumption

theorem mountRun (s : Machine Volume) (sb : SuperBlock) : MountRun s ((fillSuper sb).run s) := by
  unfold fillSuper
  have hsb := superblockRun s
  cases hrun : getDiskSuperblock.run s with
  | error e =>
    rw [run_bind_error hrun]
    rw [hrun] at hsb
    cases hsb with
    | noRecord h0 h1 => exact .noSuperblock h0 h1
  | ok p =>
    obtain ⟨diskSb, s₁⟩ := p
    rw [run_bind hrun]
    rw [hrun] at hsb
    cases hsb with
    | noBuffer h0 => exact .noBuffer h0
    | @read diskSb _ h0 h1 hmem hs₁ hworld =>
      dsimp only
      rw [field_magic hmem]
      by_cases hmagic : magicOf s.world.disk = sjfsMagic
      · rw [if_neg (by simp [hmagic])]
        have hcaches := cachesRun s₁ diskSb
        rw [countOf_eq hmem] at hcaches
        have hat : ∀ k, s₁.failsAt k = s.failsAt (2 + k) := hs₁.failsAt
        cases hload : (loadCaches diskSb).run s₁ with
        | error e =>
          rw [run_bind_error hload]
          rw [hload] at hcaches
          cases hcaches with
          | noInodes h2 => exact .noCache h0 h1 hmagic (.inl (hat 0 ▸ h2))
          | noData h2 h3 hround => exact .noCache h0 h1 hmagic (.inr ⟨hat 1 ▸ h3, hround⟩)
          | overflow h2 h3 hround hmany =>
            exact .overflow h0 h1 hmagic (hat 0 ▸ h2) (hat 1 ▸ h3) hround hmany
        | ok q =>
          obtain ⟨cache, u⟩ := q
          rw [run_bind hload]
          rw [hload] at hcaches
          have hleft : CachesLeft s₁ u cache ∧ CachesOk s := by
            cases hcaches with
            | skipped h2 hround hleft => exact ⟨hleft, hat 0 ▸ h2, .inl hround⟩
            | loaded h2 h3 hround hfew hleft =>
              exact ⟨hleft, hat 0 ▸ h2, .inr ⟨hat 1 ▸ h3, hfew⟩⟩
          obtain ⟨hleft, hok⟩ := hleft
          obtain ⟨ids, hids, hu⟩ := hleft.allocated
          have hroot : cache.bytes 1024 = s.world.disk 1 := by rw [hleft.inodes, hworld]
          refine mountRun_of_rootRun h0 h1 hmagic hok (by simp [hids]) (hs₁.trans hu) ?_
          rw [← hroot]
          exact rootRun u _ cache
      · rw [if_pos hmagic]
        exact .unknown h0 h1 hmagic (by simp) hs₁

end Sjfs
