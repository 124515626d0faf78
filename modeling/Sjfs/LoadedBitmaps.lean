import Sjfs.FillSuperRuns

/-!
# Loading the data block bitmaps

What `sjfs_fill_super` does with the number `c` of data block bitmaps that a superblock claims. The
size of the cache and the bound of the loop are `unsigned long`, the offset into the cache is an
`int`, and the result of `kmalloc` is not looked at.

Results:
1. `loadsExactly_iff`: when the loop loads all bitmaps.
2. `returnsError_iff`: when the mount returns an error.
3. `bitmaps_loaded_iff`: when it does one of the two.
-/

namespace Sjfs

open Lib

/-- `sjfs_fill_super` returns an error. -/
def ReturnsError (s : Machine Volume) (sb : SuperBlock) : Prop :=
  ∃ r sb' t, (fillSuper sb).run s = .ok ((r, sb'), t) ∧ r ≠ 0

/-- The loading loop comes to its end, no store leaves its object, and then each bitmap of the disk
stands in its place inside the cache. -/
def LoadsExactly (s : Machine Volume) : Prop :=
  ∃ diskSb s₁ cache t, getDiskSuperblock.run s = .ok (some diskSb, s₁) ∧
    (loadCaches diskSb).run s₁ = .ok (cache, t) ∧ t.strays = s₁.strays ∧
    ∀ k < bitmapCountOf s.world.disk, ∃ data, t.world.datablocksBitmapsCache = some data ∧
      k * blockSize + blockSize ≤ data.size ∧
      ∀ i < blockSize, data.mem (k * blockSize + i) =
        (s.world.disk (datablocksBitmapsOffset + k)).get i

theorem bitmapCountOf_lt (disk : Disk) : bitmapCountOf disk < 2 ^ 64 := loadLE_lt _ _ 8

/-- A cache is smaller than `2^64` bytes, so it cannot hold as many bitmaps as make the bound wrap
around. -/
theorem not_holds_of_noRound {count : Nat} {data : Option Buffer} (h : NoRound count)
    (hcount : count ≠ 0) (hlt : count < 2 ^ 64) (hsmall : ∀ b, data = some b → b.size < 2 ^ 64)
    (hholds : ∀ k < count, ∃ b, data = some b ∧ k * blockSize + blockSize ≤ b.size) : False := by
  obtain ⟨b, hb, hinside⟩ := hholds (count - 1) (by omega)
  have hbound := hsmall b hb
  simp only [NoRound, datablocksBitmapsOffset, inodesPerBitmap, blockSize] at h hinside
  omega

/-- The loop loads all bitmaps exactly when the superblock and the first cache were allocated and
there are none, or at most `2^21` of them and the second cache was allocated. -/
theorem loadsExactly_iff (s : Machine Volume) :
    LoadsExactly s ↔ s.failsAt 0 = false ∧ s.failsAt 1 = false ∧ s.failsAt 2 = false ∧
      (bitmapCountOf s.world.disk = 0 ∨
        (bitmapCountOf s.world.disk ≤ 2 ^ 21 ∧ s.failsAt 3 = false)) := by
  constructor
  · rintro ⟨diskSb, s₁, cache, t, hsb, hload, _, hholds⟩
    have hsbRun := superblockRun s
    rw [hsb] at hsbRun
    cases hsbRun with
    | read h0 h1 hmem hs₁ hworld =>
      have hat : ∀ k, s₁.failsAt k = s.failsAt (2 + k) := hs₁.failsAt
      have hcaches := cachesRun s₁ diskSb
      rw [hload, countOf_eq hmem] at hcaches
      cases hcaches with
      | skipped h2 hround hleft =>
        refine ⟨h0, h1, hat 0 ▸ h2, .inl ?_⟩
        by_contra hcount
        refine not_holds_of_noRound hround hcount (bitmapCountOf_lt _) hleft.small ?_
        intro k hk
        obtain ⟨data, hdata, hinside, _⟩ := hholds k hk
        exact ⟨data, hdata, hinside⟩
      | loaded h2 h3 _ hfew => exact ⟨h0, h1, hat 0 ▸ h2, .inr ⟨hfew, hat 1 ▸ h3⟩⟩
  · rintro ⟨h0, h1, h2, hcount⟩
    have hsbRun := superblockRun s
    generalize hsb : getDiskSuperblock.run s = o at hsbRun
    cases hsbRun with
    | noBuffer h => simp [h0] at h
    | noRecord _ h => simp [h1] at h
    | @read diskSb s₁ _ _ hmem hs₁ hworld =>
      have hat : ∀ k, s₁.failsAt k = s.failsAt (2 + k) := hs₁.failsAt
      have hcaches := cachesRun s₁ diskSb
      rw [countOf_eq hmem] at hcaches
      generalize hload : (loadCaches diskSb).run s₁ = o at hcaches
      cases hcaches with
      | noInodes h => simp [hat, h2] at h
      | noData _ h hround =>
        rcases hcount with hzero | ⟨_, h3⟩
        · exact absurd (.inl hzero) hround
        · simp [hat, h3] at h
      | overflow _ _ _ hmany => omega
      | @skipped cache t _ hround hleft =>
        have hzero : bitmapCountOf s.world.disk = 0 := by
          rcases hcount with hzero | ⟨hfew, _⟩
          · exact hzero
          · simp only [NoRound, datablocksBitmapsOffset, inodesPerBitmap, blockSize] at hround
            omega
        exact ⟨diskSb, s₁, cache, t, hsb, hload, hleft.strays, fun k hk => absurd hk (by omega)⟩
      | @loaded cache data t _ _ _ _ hleft hdata hroom hholds =>
        refine ⟨diskSb, s₁, cache, t, hsb, hload, hleft.strays, fun k hk => ⟨data, hdata, ?_, ?_⟩⟩
        · rw [← Nat.succ_mul]
          exact Nat.le_trans (Nat.mul_le_mul_right _ hk) hroom
        · rw [← hworld]
          exact hholds k (Nat.zero_le k) hk

/-- With the magic number, an error is returned exactly when the first buffer is not allocated, or
when the caches are set and making the root fails. -/
theorem returnsError_iff {s : Machine Volume} (hmagic : magicOf s.world.disk = sjfsMagic)
    (sb : SuperBlock) :
    ReturnsError s sb ↔ s.failsAt 0 = true ∨
      (s.failsAt 0 = false ∧ s.failsAt 1 = false ∧ CachesOk s ∧ RootFails s) := by
  unfold ReturnsError
  have h := mountRun s sb
  generalize (fillSuper sb).run s = o at h
  cases h with
  | noBuffer h0 => exact iff_of_true ⟨_, _, _, rfl, by decide⟩ (.inl h0)
  | noSuperblock h0 h1 => exact iff_of_false (by simp) (by simp [h0, h1])
  | unknown _ _ hne => exact absurd hmagic hne
  | noCache h0 _ _ hwhy =>
    refine iff_of_false (by simp) ?_
    rintro (h | ⟨_, _, ⟨h2, hrounds⟩, _⟩)
    · simp [h0] at h
    · rcases hwhy with h | ⟨h, hround⟩
      · simp [h2] at h
      · exact hrounds.elim hround fun h3 => by simp [h3.1] at h
  | overflow h0 _ _ _ _ hround hmany =>
    refine iff_of_false (by simp) ?_
    rintro (h | ⟨_, _, ⟨_, hrounds⟩, _⟩)
    · simp [h0] at h
    · exact hrounds.elim hround fun hfew => by omega
  | noRootRecord h0 _ _ _ h4 h5 => exact iff_of_false (by simp) (by simp [h0, RootFails, h4, h5])
  | noRoot h0 h1 _ hcaches hroot =>
    exact iff_of_true ⟨_, _, _, rfl, by decide⟩ (.inr ⟨h0, h1, hcaches, hroot⟩)
  | mounted h0 _ _ _ hroot hok =>
    refine iff_of_false (by simp) ?_
    simp [h0, RootFails, hroot, hok 4, hok 5, hok 6, hok 7]

/-- The bitmaps are loaded or an error is returned. -/
def LoadedOrRefused (s : Machine Volume) (sb : SuperBlock) : Prop :=
  ReturnsError s sb ∨ LoadsExactly s

/-- The first buffer is not allocated; or it, the superblock and the first cache are, and there are no
bitmaps, or at most `2^21` of them and the second cache is allocated, or so many that the bound of
the loop wraps around and making the root fails. -/
def CountOk (s : Machine Volume) : Prop :=
  s.failsAt 0 = true ∨
  (s.failsAt 0 = false ∧ s.failsAt 1 = false ∧ s.failsAt 2 = false ∧
    (bitmapCountOf s.world.disk = 0 ∨
      (bitmapCountOf s.world.disk ≤ 2 ^ 21 ∧ s.failsAt 3 = false) ∨
      (2 ^ 64 - datablocksBitmapsOffset ≤ bitmapCountOf s.world.disk ∧ RootFails s)))

/-- The mount loads the bitmaps exactly, or fails with an error, exactly in these cases. -/
theorem bitmaps_loaded_iff {s : Machine Volume} (hmagic : magicOf s.world.disk = sjfsMagic)
    (sb : SuperBlock) : LoadedOrRefused s sb ↔ CountOk s := by
  unfold LoadedOrRefused CountOk
  rw [returnsError_iff hmagic, loadsExactly_iff]
  constructor
  · rintro ((h0 | ⟨h0, h1, ⟨h2, hcount⟩, hroot⟩) | ⟨h0, h1, h2, hcount⟩)
    · exact .inl h0
    · refine .inr ⟨h0, h1, h2, ?_⟩
      rcases hcount with (hzero | hwraps) | ⟨h3, hfew⟩
      · exact .inl hzero
      · exact .inr (.inr ⟨hwraps, hroot⟩)
      · exact .inr (.inl ⟨hfew, h3⟩)
    · exact .inr ⟨h0, h1, h2, hcount.imp_right .inl⟩
  · rintro (h0 | ⟨h0, h1, h2, hzero | hfew | ⟨hwraps, hroot⟩⟩)
    · exact .inl (.inl h0)
    · exact .inr ⟨h0, h1, h2, .inl hzero⟩
    · exact .inr ⟨h0, h1, h2, .inr hfew⟩
    · exact .inl (.inr ⟨h0, h1, ⟨h2, .inl (.inr hwraps)⟩, hroot⟩)

/-! ## Superblocks -/

/-- A superblock with the magic number and `count` data block bitmaps. -/
def superblockValues (count : Nat) : SuperblockField → Nat
  | .datablockBlocksCount => count
  | .magic => sjfsMagic
  | _ => 0

/-- A disk with that superblock, whose other blocks are zeros. -/
def superblockDisk (count : Nat) : Disk
  | 0 => fun i => storeStruct superblockT (superblockValues count) (fun _ => 0) i.val
  | _ => Bytes.zero

/-- A machine on which every allocation succeeds, with that disk. -/
def superblockMachine (count : Nat) : Machine Volume :=
  ⟨⟨0, fun _ => false, fun _ _ => 0, [], []⟩, ⟨superblockDisk count, none, none⟩⟩

/-- The superblock on that disk holds these values. -/
theorem load_superblockDisk (count : Nat) {f : SuperblockField}
    (hend : offsetOf superblockT f + fieldSize f superblockT ≤ 1024)
    (hf : f ∈ superblockT.map Prod.fst) :
    loadLE (superblockDisk count 0).get (offsetOf superblockT f) (fieldSize f superblockT) =
      superblockValues count f % 256 ^ fieldSize f superblockT := by
  rw [← loadField_storeStruct (superblockValues count) hf fun _ => 0]
  refine loadLE_congr _ fun i _ hi => ?_
  rw [Bytes.get_of_lt _ (by omega)]
  rfl

theorem magicOf_superblockDisk (count : Nat) : magicOf (superblockDisk count) = sjfsMagic := by
  unfold magicOf
  rw [load_superblockDisk count (by decide) (by decide)]
  exact Nat.mod_eq_of_lt (show sjfsMagic < 256 ^ 8 by decide)

theorem bitmapCountOf_superblockDisk {count : Nat} (h : count < 2 ^ 64) :
    bitmapCountOf (superblockDisk count) = count := by
  unfold bitmapCountOf
  rw [load_superblockDisk count (by decide) (by decide)]
  exact Nat.mod_eq_of_lt h

/-- One bitmap is loaded. -/
theorem one_bitmap_loaded :
    CountOk (superblockMachine 1) ∧
      ∀ sb, LoadedOrRefused (superblockMachine 1) sb := by
  have hmagic : magicOf (superblockMachine 1).world.disk = sjfsMagic := magicOf_superblockDisk 1
  have hcount : bitmapCountOf (superblockMachine 1).world.disk = 1 :=
    bitmapCountOf_superblockDisk (by decide)
  have hok : CountOk (superblockMachine 1) := by
    refine .inr ⟨rfl, rfl, rfl, .inr (.inl ⟨?_, rfl⟩)⟩
    rw [hcount]
    decide
  exact ⟨hok, fun sb => (bitmaps_loaded_iff hmagic sb).mpr hok⟩

/-- With `2^54` bitmaps the size of the cache wraps around to 0, and the loop runs until its offset
overflows. -/
theorem many_bitmaps_overflow :
    blockSize * 2 ^ 54 % 2 ^ 64 = 0 ∧
    magicOf (superblockMachine (2 ^ 54)).world.disk = sjfsMagic ∧
    ∀ sb, ¬ LoadedOrRefused (superblockMachine (2 ^ 54)) sb := by
  have hmagic : magicOf (superblockMachine (2 ^ 54)).world.disk = sjfsMagic :=
    magicOf_superblockDisk _
  have hcount : bitmapCountOf (superblockMachine (2 ^ 54)).world.disk = 2 ^ 54 :=
    bitmapCountOf_superblockDisk (by decide)
  refine ⟨by decide, hmagic, ?_⟩
  rintro sb (herror | hloads)
  · rcases (returnsError_iff hmagic sb).mp herror with h0 | ⟨_, _, ⟨_, hcaches⟩, _⟩
    · cases h0
    · simp only [NoRound, hcount, datablocksBitmapsOffset, inodesPerBitmap, blockSize] at hcaches
      omega
  · obtain ⟨_, _, _, hfew⟩ := (loadsExactly_iff _).mp hloads
    rw [hcount] at hfew
    omega

end Sjfs
