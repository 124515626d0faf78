import Sjfs.Create
import Sjfs.DirMemory
import Sjfs.RootNumber
import Sjfs.FailedMount

/-!
# Mounting a volume again

A volume of `kernel_space_module/sjfs.c` over many mounts: the operations of the root directory
(`Sjfs.RootDir`), and in between `sjfs_kill_sb` and `sjfs_fill_super`. There is memory to spare.

The inode bitmap is written to block 1 with every change, and no operation writes to block 0. The
names of the files are not written at all: after a mount the root directory is empty. So what a
mount finds is the bitmap, with the numbers of files that nobody can unlink any more.

The mount looks at bit 7 of the bitmap. It is the bit of the number 7, which is thus taken from the
first mount on, and nobody clears it.

Results:
1. `session_step`: one operation keeps block 0, the bitmap on disk and the numbers taken at the
   mount.
2. `mounts_again`: after any operations a mount succeeds and finds the bitmap as it was.
3. `life_run`: the numbers in use at a mount stay in use for good.
4. `nothing_created`: with the scan as it is, a mounted volume stays as it is, whatever is asked of
   it.
-/

namespace Sjfs

open Lib

/-! ## The mount -/

section Mount

variable {s t : Machine Volume}

theorem world_of_run_loadBitmaps {count k : Nat} {cache data : Option Buffer}
    (h : (loadBitmaps count cache k).run s = .ok (data, t)) : t.world = s.world := by
  induction cache, k using loadBitmaps.induct count generalizing s with
  | case1 cache k hround hsmall ih =>
    rw [loadBitmaps, if_pos hround, if_pos hsmall] at h
    obtain ⟨⟨r, b⟩, s₁, hread, h⟩ := exists_of_run_bind h
    exact (ih b h).trans (world_of_run_readBlock hread)
  | case2 cache k hround hlarge =>
    rw [loadBitmaps, if_pos hround, if_neg hlarge] at h
    cases h
  | case3 cache k hend =>
    rw [loadBitmaps, if_neg hend] at h
    cases h
    rfl

theorem world_of_run_getDiskInode {m : Nat} {p : Option Buffer}
    (h : (getDiskInode m).run s = .ok (p, t)) : t.world = s.world := by
  obtain ⟨b, s₁, h₁, h⟩ := exists_of_run_bind h
  have hw₁ := world_of_run_kmalloc h₁
  split at h
  · cases h
    exact hw₁
  · obtain ⟨⟨r, b'⟩, s₂, h₂, h⟩ := exists_of_run_bind h
    have hw₂ := world_of_run_readBlock h₂
    dsimp only at h
    split at h
    · cases h
      exact hw₂.trans hw₁
    · obtain ⟨d, s₃, h₃, h⟩ := exists_of_run_bind h
      have hw₃ := world_of_run_kmalloc h₃
      obtain ⟨d', s₄, h₄, h⟩ := exists_of_run_bind h
      cases h
      exact (world_of_run_memcpy h₄).trans (hw₃.trans (hw₂.trans hw₁))

theorem size_of_run_readBlock {address offset size : Nat} {block : Option Buffer} {r : Int}
    {b : Buffer} (hblock : ∀ b', block = some b' → b'.size = size)
    (h : (readBlock address block offset).run s = .ok ((r, b), t)) : b.size = size := by
  cases block with
  | none => cases h
  | some b₀ =>
    rw [run_readBlock] at h
    cases h
    exact hblock b₀ rfl

theorem size_of_run_kmalloc {size : Nat} {p : Option Buffer}
    (h : (kmalloc size).run s = .ok (p, t)) : ∀ b, p = some b → b.size = size := by
  rintro b rfl
  cases hfails : s.mem.fails s.mem.allocs with
  | true =>
    rw [run_kmalloc_of_fails hfails] at h
    cases h
  | false =>
    rw [run_kmalloc_of_ok hfails] at h
    cases h
    rfl

/-- The inode bitmap is loaded, and block 1 of the disk holds the same. -/
def Synced (s : Machine Volume) (c : Buffer) : Prop :=
  Loaded s c ∧ s.world.disk 1 = c.bytes 1024

/-- The caches are loaded from the disk, which stays as it is. -/
theorem synced_of_run_loadCaches {diskSb cache : Buffer}
    (h : (loadCaches diskSb).run s = .ok (cache, t)) :
    Synced t cache ∧ t.world.disk = s.world.disk := by
  have hbytes := bytes_of_run_loadCaches h
  obtain ⟨p, s₁, h₁, h⟩ := exists_of_run_bind h
  obtain ⟨⟨r, b⟩, s₂, h₂, h⟩ := exists_of_run_bind h
  obtain ⟨q, s₃, h₃, h⟩ := exists_of_run_bind h
  obtain ⟨d, s₄, h₄, h⟩ := exists_of_run_bind h
  have hworld : s₄.world = s.world := (world_of_run_loadBitmaps h₄).trans
    ((world_of_run_kmalloc h₃).trans ((world_of_run_readBlock h₂).trans (world_of_run_kmalloc h₁)))
  have hsize := size_of_run_readBlock (size_of_run_kmalloc h₁) h₂
  cases h
  have hdisk : s₄.world.disk = s.world.disk := congrArg Volume.disk hworld
  exact ⟨⟨⟨rfl, hsize⟩, (congrFun hdisk 1).trans hbytes.symm⟩, hdisk⟩

theorem world_of_run_makeRoot {sb : SuperBlock} {cache : Buffer} {p : Int × SuperBlock}
    (h : (makeRoot sb cache).run s = .ok (p, t)) : t.world = s.world := by
  obtain ⟨root, s₁, hroot, h⟩ := exists_of_run_bind h
  have hworld := world_of_run_getDiskInode hroot
  cases root with
  | none =>
    cases h
    exact hworld
  | some diskRootInode =>
    dsimp only at h
    split at h
    · cases h
      exact hworld
    · rw [run_bind run_attempt_eq] at h
      split at h
      · cases h
        exact hworld
      · rw [run_bind run_attempt_eq] at h
        split at h
        · cases h
          exact hworld
        · cases h
          exact hworld

/-- What a mount leaves. -/
theorem synced_of_mounted {sb sb' : SuperBlock} (h : (fillSuper sb).run s = .ok ((0, sb'), t)) :
    (∃ c, Synced t c) ∧ t.world.disk = s.world.disk := by
  obtain ⟨diskSb, s₁, hsb, h⟩ := exists_of_run_bind h
  have hdisk := congrArg Volume.disk (world_of_run_getDiskSuperblock hsb)
  cases diskSb with
  | none => cases h
  | some diskSb =>
    dsimp only at h
    split at h
    · cases h
    · obtain ⟨cache, s₂, hcaches, h⟩ := exists_of_run_bind h
      obtain ⟨hsynced, hdisk'⟩ := synced_of_run_loadCaches hcaches
      have hworld := world_of_run_makeRoot h
      unfold Synced Loaded
      rw [hworld]
      exact ⟨⟨cache, hsynced⟩, hdisk'.trans hdisk⟩

/-- What a mount has found. -/
theorem of_mounted {sb sb' : SuperBlock} (h : (fillSuper sb).run s = .ok ((0, sb'), t)) :
    magicOf s.world.disk = sjfsMagic ∧ CachesOk s ∧ ∃ ids, s.Allocated t 8 ids := by
  have hrun := mountRun s sb
  rw [h] at hrun
  generalize hr : (0 : Int) = r at hrun
  have hne : (0 : Int) ≠ enomem := by decide
  cases hrun with
  | noBuffer | unknown | noRoot => exact absurd hr hne
  | mounted _ _ hmagic hcaches _ _ ht => exact ⟨hmagic, hcaches, _, ht⟩

/-- The magic number is there, and the loading loop does not overflow. -/
def SuperblockOk (disk : Disk) : Prop :=
  magicOf disk = sjfsMagic ∧ (NoRound (bitmapCountOf disk) ∨ bitmapCountOf disk ≤ 2 ^ 21)

/-- It is block 0 that decides. -/
theorem SuperblockOk.congr {disk disk' : Disk} (h : SuperblockOk disk) (hzero : disk' 0 = disk 0) :
    SuperblockOk disk' := by
  unfold SuperblockOk magicOf bitmapCountOf at h ⊢
  rw [hzero]
  exact h

/-- With memory to spare a mount depends on the superblock and on the bit of the root alone. -/
theorem mounts_iff (hs : s.Plenty) (sb : SuperBlock) :
    (∃ sb' t, (fillSuper sb).run s = .ok ((0, sb'), t)) ↔
      SuperblockOk s.world.disk ∧ rootCheck (s.world.disk 1) = true := by
  have hfails : ∀ k, s.failsAt k = true → False := by
    intro k hk
    rw [hs.failsAt k] at hk
    cases hk
  constructor
  · rintro ⟨sb', t, h⟩
    obtain ⟨hmagic, ⟨_, hcaches⟩, _⟩ := of_mounted h
    exact ⟨⟨hmagic, hcaches.imp_right And.right⟩, rootCheck_of_mounted h⟩
  · rintro ⟨⟨hmagic, hcount⟩, hroot⟩
    have hrun := mountRun s sb
    generalize (fillSuper sb).run s = o at hrun ⊢
    cases hrun with
    | noBuffer h0 => exact (hfails _ h0).elim
    | noSuperblock _ h1 => exact (hfails _ h1).elim
    | unknown _ _ hother => exact absurd hmagic hother
    | noCache _ _ _ hwhy =>
      rcases hwhy with h2 | ⟨h3, _⟩
      · exact (hfails _ h2).elim
      · exact (hfails _ h3).elim
    | overflow _ _ _ _ _ hround hmany =>
      rcases hcount with hno | hfew
      · exact absurd hno hround
      · exact absurd hfew (Nat.not_le.mpr hmany)
    | noRootRecord _ _ _ _ _ h5 => exact (hfails _ h5).elim
    | noRoot _ _ _ _ hwhy =>
      rcases hwhy with h4 | ⟨_, _, hbit | h6 | h7⟩
      · exact (hfails _ h4).elim
      · rw [hroot] at hbit
        cases hbit
      · exact (hfails _ h6).elim
      · exact (hfails _ h7).elim
    | mounted => exact ⟨_, _, rfl⟩

end Mount

/-! ## One operation -/

section Operations

variable {s t : Machine Volume} {c : Buffer}

theorem disk_wrote (s : Machine Volume) (address : Nat) (block : Block) :
    (wrote s address block).world.disk = Function.update s.world.disk address block := rfl

theorem synced_cached (hsize : c.size = blockSize) : Synced (cached s c) c := by
  refine ⟨⟨rfl, hsize⟩, ?_⟩
  rw [cached, disk_wrote, Function.update_self]

theorem zero_cached : (cached s c).world.disk 0 = s.world.disk 0 := by
  rw [cached, disk_wrote, Function.update_of_ne (by decide)]

/-- The bit is changed in the cache and on the disk. -/
theorem synced_of_updateCache (h : s.Plenty) (hc : Loaded s c) {ino : Nat}
    {update : UInt8 → Nat → UInt8} {p : Unit} (hrun : (updateCache ino update).run s = .ok (p, t)) :
    t.Plenty ∧ Synced t (updated c ino update) ∧ t.world.disk 0 = s.world.disk 0 := by
  rw [run_updateCache hc] at hrun
  cases hrun
  refine ⟨h.noted _ _ _, synced_cached hc.2, zero_cached.trans ?_⟩
  rw [Machine.noted_world]

/-- The inode table does not reach down to block 0. -/
theorem zero_of_setDiskInode (h : s.Plenty) {inode inode' : Inode} {p : Buffer}
    (hino : inode.ino < inodesPerBitmap) (hp : inode.iPrivate = some p)
    (hsize : p.size = sizeofInode) {now : Nat}
    (hrun : (setDiskInode inode now).run s = .ok (inode', t)) :
    t.world.disk 0 = s.world.disk 0 := by
  obtain ⟨_, block, hset, _⟩ := run_setDiskInode inode h.next hino hp hsize now
  rw [hset] at hrun
  cases hrun
  have hne : 0 ≠ tableBlock inode.ino := by
    have := Nat.le_add_right 2 (inode.ino * sizeofInode / blockSize)
    unfold tableBlock
    omega
  rw [disk_wrote, Function.update_of_ne hne, Machine.noted_world]
  rfl

/-- A create writes to the inode table and to block 1. -/
theorem synced_of_create (h : s.Plenty) (hc : Loaded s c) {n now : Nat} (hn : n < inodesPerBitmap)
    {inode : Inode} (hrun : (iopsCreate n now).run s = .ok (inode, t)) :
    inode.ino = n ∧ t.Plenty ∧ Synced t (updated c n orBit) ∧
      t.world.disk 0 = s.world.disk 0 := by
  obtain ⟨inode', u, hset, hino, hplenty, hcache, _⟩ := setDiskInode_spec
    (createdInode n now (some ⟨s.mem.allocs, sizeofInode, _⟩)) h.grown hn rfl rfl now
  have hzero := zero_of_setDiskInode h.grown hn rfl rfl hset
  unfold iopsCreate at hrun
  rw [run_bind (run_kzalloc h _), run_bind hset] at hrun
  obtain ⟨_, v, hupdate, hrun⟩ := exists_of_run_bind hrun
  cases hrun
  obtain ⟨hplenty', hsynced, hzero'⟩ :=
    synced_of_updateCache (c := c) hplenty ⟨hcache.trans hc.1, hc.2⟩ hupdate
  rw [hino] at hsynced
  exact ⟨hino, hplenty', hsynced, hzero'.trans hzero⟩

theorem synced_of_unlink (h : s.Plenty) (hc : Loaded s c) {inode : Inode} {p : Unit}
    (hrun : (iopsUnlink inode).run s = .ok (p, t)) :
    t.Plenty ∧ Synced t (updated c inode.ino andNotBit) ∧ t.world.disk 0 = s.world.disk 0 := by
  obtain ⟨_, u, hupdate, hrun⟩ := exists_of_run_bind hrun
  obtain ⟨hplenty, hsynced, hzero⟩ := synced_of_updateCache h hc hupdate
  cases hp : inode.iPrivate with
  | none =>
    rw [hp] at hrun
    cases hrun
    exact ⟨hplenty, hsynced, hzero⟩
  | some b =>
    rw [hp, run_kfree] at hrun
    cases hrun
    exact ⟨hplenty, hsynced, hzero⟩

end Operations

/-! ## Between two mounts -/

namespace Dir

variable {ν : Type} {s t : Dir ν} {taken : Nat → Prop}

/-- The volume between two mounts: `taken` has the numbers that were in use at the first of them. No
file has one of them. -/
structure Session (taken : Nat → Prop) (s : Dir ν) : Prop where
  plenty : s.machine.Plenty
  synced : ∃ c, Synced s.machine c
  superblock : SuperblockOk s.machine.world.disk
  kept : ∀ n, taken n → s.bit n = true
  files : ∀ x i, s.names x = some i → s.ino i < 1024 ∧ ¬ taken (s.ino i)

section Session

variable [DecidableEq ν]

theorem session_create (hs : Session taken s) {x : ν} {n now : Nat} (hn : n < inodesPerBitmap)
    (hfree : s.bit n = false) {inode : Inode} {m : Machine Volume}
    (hclean : clean (iopsCreate n now) s.machine = some (inode, m)) :
    Session taken ({ s with machine := m }.instantiate x inode) := by
  obtain ⟨c, hc⟩ := hs.synced
  obtain ⟨hino, hplenty, hsynced, hzero⟩ :=
    synced_of_create hs.plenty hc.1 hn (clean_eq_some_iff.mp hclean).1
  have hsmall : n ≤ 824 := by
    by_contra hlarge
    rw [clean_iopsCreate_eq_none hs.plenty hc.1 hn (by omega)] at hclean
    cases hclean
  have hnew : ¬ taken n := by
    intro htaken
    rw [hs.kept n htaken] at hfree
    cases hfree
  refine ⟨hplenty, ⟨_, hsynced⟩, hs.superblock.congr hzero, ?_, ?_⟩
  · intro k hk
    exact (bit_marked (t := { s with machine := m }.instantiate x inode) hc.1 hsynced.1
      (by omega) k).mpr (.inr (hs.kept k hk))
  · intro y i hi
    by_cases hfresh : i = s.fresh
    · subst hfresh
      have hnumber : ({ s with machine := m }.instantiate x inode).ino s.fresh = n := by
        simp [ino, instantiate, hino]
      rw [hnumber]
      exact ⟨by omega, hnew⟩
    · have hold : s.names y = some i := by
        by_cases hy : y = x
        · subst hy
          simp only [instantiate, Function.update_self, Option.some.injEq] at hi
          exact absurd hi.symm hfresh
        · simpa [instantiate, hy] using hi
      have hnumber : ({ s with machine := m }.instantiate x inode).ino i = s.ino i := by
        simp [ino, instantiate, hfresh]
      rw [hnumber]
      exact hs.files y i hold

theorem session_unlink (hs : Session taken s) {x : ν} {i : Nat} (hx : s.names x = some i)
    {m : Machine Volume} (hclean : clean (iopsUnlink (s.inodes i)) s.machine = some ((), m)) :
    Session taken ({ s with machine := m }.removeName x) := by
  obtain ⟨c, hc⟩ := hs.synced
  obtain ⟨hplenty, hsynced, hzero⟩ :=
    synced_of_unlink hs.plenty hc.1 (clean_eq_some_iff.mp hclean).1
  obtain ⟨hsmall, hother⟩ := hs.files x i hx
  refine ⟨hplenty, ⟨_, hsynced⟩, hs.superblock.congr hzero, ?_, ?_⟩
  · intro k hk
    refine (bit_cleared (t := { s with machine := m }.removeName x) hc.1 hsynced.1
      hsmall k).mpr ⟨?_, hs.kept k hk⟩
    rintro rfl
    exact hother hk
  · intro y j hj
    refine hs.files y j ?_
    by_cases hy : y = x
    · subst hy
      simp [removeName] at hj
    · simpa [removeName, hy] using hj

theorem session_rename (hs : Session taken s) {x y : ν} {i : Nat} (hx : s.names x = some i) :
    Session taken (s.moveName x y i) := by
  refine ⟨hs.plenty, hs.synced, hs.superblock, hs.kept, ?_⟩
  intro z j hj
  have hnamed : s.names z = some j ∨ s.names x = some j := by
    by_cases hz : z = y
    · subst hz
      simp only [moveName, Function.update_self] at hj
      cases hj
      exact .inr hx
    · by_cases hzx : z = x
      · subst hzx
        simp [moveName, hz] at hj
      · exact .inl (by simpa [moveName, hz, hzx] using hj)
  rcases hnamed with h | h
  · exact hs.files z j h
  · exact hs.files x j h

theorem session_step (hs : Session taken s) {a : DirAction ν} (h : s.step a = some t) :
    Session taken t := by
  cases step_cases h with
  | kept hnames hinodes _ hmachine =>
    refine ⟨hmachine ▸ hs.plenty, hmachine ▸ hs.synced, hmachine ▸ hs.superblock, ?_, ?_⟩
    · intro n hn
      unfold bit
      rw [hmachine]
      exact hs.kept n hn
    · intro x i hi
      unfold ino
      rw [hinodes]
      exact hs.files x i (hnames ▸ hi)
  | create hpassed hclean => exact session_create hs hpassed.2.1 hpassed.2.2 hclean
  | unlink hx hclean => exact session_unlink hs hx hclean
  | rename hx _ => exact session_rename hs hx

end Session

/-! ## The life of a volume -/

/-- `sjfs_kill_sb` of the superblock `old` and `sjfs_fill_super` of `new`. The VFS refuses while a
file is open. There is no result when the mount fails. -/
def remount (s : Dir ν) (old new : SuperBlock) : Option (Dir ν) :=
  if ∀ i < s.fresh, s.handles i = 0 then
    match (killSb old >>= fun _ => fillSuper new).run s.machine with
    | .ok ((r, _), m) =>
      if r = 0 then some ⟨m, fun _ => none, fun _ => 0, s.inodes, s.fresh⟩ else none
    | .error _ => none
  else some s

inductive LifeAction (ν : Type)
  | op (a : DirAction ν)
  | remount (old new : SuperBlock)

def lifeStep [DecidableEq ν] (s : Dir ν) : LifeAction ν → Option (Dir ν)
  | .op a => s.step a
  | .remount old new => s.remount old new

/-- The directory after a mount with memory to spare. -/
def Mounted (s : Dir ν) : Prop :=
  (∃ sb sb' m, m.Plenty ∧ (fillSuper sb).run m = .ok ((0, sb'), s.machine)) ∧
    ∀ x, s.names x = none

/-- A mount begins a session, and the bit of the number 7 is set. -/
theorem session_of_mounted (h : Mounted s) : Session (s.bit · = true) s ∧ s.bit 7 = true := by
  obtain ⟨⟨sb, sb', m, hm, hrun⟩, hnames⟩ := h
  obtain ⟨⟨c, hc⟩, hdisk⟩ := synced_of_mounted hrun
  obtain ⟨_, _, _, hallocated⟩ := of_mounted hrun
  obtain ⟨hok, hroot⟩ := (mounts_iff hm sb).mp ⟨_, _, hrun⟩
  refine ⟨⟨hallocated.plenty hm, ⟨c, hc⟩, hdisk ▸ hok, fun _ h => h, ?_⟩, ?_⟩
  · intro x i hi
    rw [hnames x] at hi
    cases hi
  · rw [← hdisk, hc.2, rootCheck_eq] at hroot
    rw [bit_of_loaded hc.1]
    exact hroot

/-- After any operations a mount succeeds, and finds the bitmap as it was. -/
theorem mounts_again (hs : Session taken s) (hseven : taken 7)
    (hidle : ∀ i < s.fresh, s.handles i = 0) (old new : SuperBlock) :
    ∃ t, s.remount old new = some t ∧ Mounted t ∧ ∀ n, t.bit n = s.bit n := by
  obtain ⟨c, hc⟩ := hs.synced
  have hroot : rootCheck (s.machine.world.disk 1) = true := by
    rw [hc.2, rootCheck_eq]
    have hbit := hs.kept 7 hseven
    rw [bit_of_loaded hc.1] at hbit
    exact hbit
  obtain ⟨sb', m, hrun⟩ := (mounts_iff hs.plenty new).mpr ⟨hs.superblock, hroot⟩
  obtain ⟨⟨c', hc'⟩, hdisk⟩ := synced_of_mounted hrun
  refine ⟨⟨m, fun _ => none, fun _ => 0, s.inodes, s.fresh⟩, ?_, ?_, ?_⟩
  · unfold remount
    rw [if_pos hidle, run_bind (t := s.machine) rfl, hrun]
    exact if_pos rfl
  · exact ⟨⟨new, sb', s.machine, hs.plenty, hrun⟩, fun _ => rfl⟩
  · intro n
    have hsame : c'.bytes 1024 = c.bytes 1024 := by rw [← hc'.2, hdisk, hc.2]
    rw [bit_of_loaded hc.1, bit_of_loaded (s := ⟨m, _, _, _, _⟩) hc'.1, hsame]

/-- The volume is between two mounts, and the numbers in `lost` were in use at the first of them. -/
def Keeps (lost : Nat → Prop) (s : Dir ν) : Prop :=
  ∃ taken, (∀ n, lost n → taken n) ∧ taken 7 ∧ Session taken s

theorem keeps_of_mounted (h : Mounted s) : Keeps (s.bit · = true) s :=
  have ⟨hs, hseven⟩ := session_of_mounted h
  ⟨_, fun _ h => h, hseven, hs⟩

section Life

variable [DecidableEq ν]

theorem keeps_step {lost : Nat → Prop} (hs : Keeps lost s) {a : LifeAction ν}
    (h : s.lifeStep a = some t) : Keeps lost t := by
  obtain ⟨taken, hsub, hseven, hsession⟩ := hs
  cases a with
  | op a => exact ⟨taken, hsub, hseven, session_step hsession h⟩
  | remount old new =>
    by_cases hidle : ∀ i < s.fresh, s.handles i = 0
    · obtain ⟨u, hu, hmounted, hbits⟩ := mounts_again hsession hseven hidle old new
      obtain rfl : u = t := Option.some.inj (hu.symm.trans h)
      obtain ⟨hnext, hseven'⟩ := session_of_mounted hmounted
      refine ⟨_, fun n hn => ?_, hseven', hnext⟩
      exact (hbits n).trans (hsession.kept n (hsub n hn))
    · unfold lifeStep remount at h
      dsimp only at h
      rw [if_neg hidle] at h
      cases h
      exact ⟨taken, hsub, hseven, hsession⟩

theorem keeps_run {lost : Nat → Prop} (hs : Keeps lost s) {as : List (LifeAction ν)}
    (h : as.foldlM lifeStep s = some t) : Keeps lost t :=
  (Reach.of_foldlM h).invariant hs fun _ _ _ hI _ hstep => keeps_step hI hstep

/-- A volume that was mounted once can be mounted again, whatever was done to it and however often
it was mounted since. The bitmap comes back as it was, the files are gone, and the numbers that were
in use are never free again. -/
theorem life_run (hs : Mounted s) {before : List (LifeAction ν)}
    (hbefore : before.foldlM lifeStep s = some t) (hidle : ∀ i < t.fresh, t.handles i = 0)
    (old new : SuperBlock) :
    ∃ u, t.lifeStep (.remount old new) = some u ∧ (∀ x, u.names x = none) ∧
      (∀ n, u.bit n = t.bit n) ∧
      ∀ (after : List (LifeAction ν)) v, after.foldlM lifeStep u = some v →
        ∀ n, t.bit n = true → v.bit n = true := by
  obtain ⟨taken, _, hseven, hsession⟩ := keeps_run (keeps_of_mounted hs) hbefore
  obtain ⟨u, hu, hmounted, hbits⟩ := mounts_again hsession hseven hidle old new
  refine ⟨u, hu, hmounted.2, hbits, ?_⟩
  intro after v hafter n hn
  obtain ⟨_, hsub, _, hlast⟩ := keeps_run (keeps_of_mounted hmounted) hafter
  exact hlast.kept n (hsub n ((hbits n).trans hn))

end Life

/-- The bitmap of a volume that was never used: only the bit that the mount looks at is set. -/
def unusedBitmap : Block := fun i => if i.val = 0 then 128 else 0

theorem mounted_unused :
    ∃ s : Dir String, Mounted s ∧ s.machine.world.disk 1 = unusedBitmap ∧
      ∀ i, s.handles i = 0 := by
  have hplenty := plenty_onDisk (plainVolume unusedBitmap)
  have hmagic : magicOf (plainVolume unusedBitmap) = sjfsMagic := by
    show loadLE plainSuperblock.get _ _ = _
    decide
  have hcount : bitmapCountOf (plainVolume unusedBitmap) = 0 := by
    show loadLE plainSuperblock.get _ _ = _
    decide
  obtain ⟨sb', m, hrun⟩ := fillSuper_mounts hplenty hmagic hcount (by decide)
    ⟨0, 0, 0, 0, 0, none, none⟩
  obtain ⟨_, hdisk⟩ := synced_of_mounted hrun
  refine ⟨⟨m, fun _ => none, fun _ => 0, fun _ => Inode.fresh, 0⟩,
    ⟨⟨_, _, _, hplenty, hrun⟩, fun _ => rfl⟩, ?_, fun _ => rfl⟩
  exact congrFun hdisk 1

/-- One file is made on a new volume, and is gone after the next mount. Its number stays in use. -/
theorem life_oneFile :
    ∃ (s t u : Dir String) (sb : SuperBlock), Mounted s ∧
      [.op (.create "a" 3 0)].foldlM lifeStep s = some t ∧ t.names "a" ≠ none ∧
      t.lifeStep (.remount sb sb) = some u ∧ u.names "a" = none ∧
      ∀ (after : List (LifeAction String)) v, after.foldlM lifeStep u = some v →
        v.bit 3 = true := by
  obtain ⟨s, hs, hdisk, hhandles⟩ := mounted_unused
  obtain ⟨hsession, _⟩ := session_of_mounted hs
  obtain ⟨c, hc⟩ := hsession.synced
  have hfree : s.bit 3 = false := by
    rw [bit_of_loaded hc.1, ← hc.2, hdisk]
    decide
  obtain ⟨inode, m, hclean, _, _, hload⟩ :=
    clean_iopsCreate (n := 3) hsession.plenty hc.1 (by decide) 0
  have hrun : [LifeAction.op (.create "a" 3 0)].foldlM lifeStep s =
      some ({ s with machine := m }.instantiate "a" inode) := by
    have hpassed : s.names "a" = none ∧ 3 < inodesPerBitmap ∧ s.bit 3 = false :=
      ⟨hs.2 "a", by decide, hfree⟩
    simp only [List.foldlM_cons, List.foldlM_nil, lifeStep, step, if_pos hpassed, hclean,
      Option.map_some, Option.bind_eq_bind, Option.bind_some]
    rfl
  have hbit : ({ s with machine := m }.instantiate "a" inode).bit 3 = true :=
    (bit_marked (t := { s with machine := m }.instantiate "a" inode) hc.1 hload (by decide) 3).mpr
      (.inl rfl)
  obtain ⟨u, hu, hnames, _, hafter⟩ := life_run hs hrun (fun i _ => hhandles i)
    ⟨0, 0, 0, 0, 0, none, none⟩ ⟨0, 0, 0, 0, 0, none, none⟩
  refine ⟨s, _, u, _, hs, hrun, ?_, hu, hnames "a", fun after v hv => hafter after v hv 3 hbit⟩
  simp [instantiate]

end Dir

/-! ## With the scan as it is

So far a create was given the number that its scan should find. Here it is `Vfs.create`, with the
scan of the source. -/

inductive VfsAction (ν : Type)
  /-- `sjfs_iops_create` of a free name. `noInode` says that `new_inode` fails. -/
  | create (x : ν) (now : Nat) (noInode : Bool)
  | openFile (x : ν)
  | close (i : Nat)
  | unlink (x : ν)
  | rename (x y : ν)

/-- A create that gets its in-core inode. -/
def VfsAction.makesInode {ν : Type} : VfsAction ν → Bool
  | .create _ _ noInode => !noInode
  | _ => false

namespace Vfs

variable {ν : Type} [DecidableEq ν] {s t : Vfs ν}

def step (s : Vfs ν) : VfsAction ν → Option (Vfs ν)
  | .create x now noInode =>
    if s.dir.names x ≠ none ∨ noInode then some s else (s.create x now).map Prod.snd
  | .openFile x => (s.dir.step (.openFile x)).map fun d => { s with dir := d }
  | .close i => (s.dir.step (.close i)).map fun d => { s with dir := d }
  | .unlink x => (s.dir.step (.unlink x)).map fun d => { s with dir := d }
  | .rename x y => (s.dir.step (.rename x y)).map fun d => { s with dir := d }

/-- The directory is empty, and `m` is all that lies below it. -/
def Bare (m : Machine Volume) (s : Vfs ν) : Prop :=
  s.dir.machine = m ∧ ∀ x, s.dir.names x = none

theorem step_of_makesInode {m : Machine Volume} {c : Buffer} (hs : Bare m s) (hc : Loaded m c)
    {a : VfsAction ν} (ha : a.makesInode = true) :
    s.step a = if quiet (c.bytes 1024) then some s.newInode else none := by
  obtain ⟨rfl, hempty⟩ := hs
  cases a with
  | create x now noInode =>
    have hpassed : ¬ (s.dir.names x ≠ none ∨ noInode) := by
      simpa [hempty x, VfsAction.makesInode] using ha
    rw [step, if_neg hpassed, create_eq hc]
    split <;> rfl
  | _ => cases ha

theorem step_of_not_makesInode {m : Machine Volume} (hs : Bare m s) {a : VfsAction ν}
    (ha : a.makesInode = false) : ∃ t, s.step a = some t ∧ Bare m t ∧ t.inCore = s.inCore := by
  obtain ⟨hm, hempty⟩ := hs
  cases a with
  | create x now noInode =>
    obtain rfl : noInode = true := by simpa [VfsAction.makesInode] using ha
    exact ⟨s, if_pos (.inr rfl), ⟨hm, hempty⟩, rfl⟩
  | close i => exact ⟨_, rfl, ⟨hm, hempty⟩, rfl⟩
  | openFile x | unlink x | rename x y =>
    refine ⟨s, ?_, ⟨hm, hempty⟩, rfl⟩
    simp [step, Dir.step, hempty x]

theorem run_of_bare {m : Machine Volume} {c : Buffer} (hs : Bare m s) (hc : Loaded m c)
    (as : List (VfsAction ν)) :
    ((∃ t, as.foldlM step s = some t) ↔
      quiet (c.bytes 1024) = true ∨ ∀ a ∈ as, a.makesInode = false) ∧
    ∀ t, as.foldlM step s = some t →
      Bare m t ∧ t.inCore.length = s.inCore.length + as.countP VfsAction.makesInode := by
  induction as generalizing s with
  | nil =>
    refine ⟨iff_of_true ⟨s, rfl⟩ (.inr (by simp)), ?_⟩
    rintro t ⟨⟩
    exact ⟨hs, rfl⟩
  | cons a as ih =>
    cases ha : a.makesInode with
    | true =>
      have hstep := step_of_makesInode hs hc ha
      by_cases hquiet : quiet (c.bytes 1024) = true
      · rw [if_pos hquiet] at hstep
        obtain ⟨hends, hafter⟩ := ih (s := s.newInode) hs
        simp only [List.foldlM_cons, hstep, Option.bind_eq_bind, Option.bind_some]
        refine ⟨iff_of_true (hends.mpr (.inl hquiet)) (.inl hquiet), ?_⟩
        intro t ht
        obtain ⟨hbare, hlength⟩ := hafter t ht
        refine ⟨hbare, ?_⟩
        rw [hlength, List.countP_cons_of_pos ha]
        simp only [newInode, List.length_cons]
        omega
      · rw [if_neg hquiet] at hstep
        simp only [List.foldlM_cons, hstep, Option.bind_eq_bind, Option.bind_none]
        simp [hquiet, ha]
    | false =>
      obtain ⟨u, hstep, hu, hcore⟩ := step_of_not_makesInode hs ha
      obtain ⟨hends, hafter⟩ := ih hu
      simp only [List.foldlM_cons, hstep, Option.bind_eq_bind, Option.bind_some]
      refine ⟨by simpa [ha] using hends, ?_⟩
      intro t ht
      rw [List.countP_cons_of_neg (by simp [ha]), ← hcore]
      exact hafter t ht

/-- After a mount nothing is ever created. A run comes to its end when the scan finds nothing, or
when no create gets as far as the scan; the volume and the directory are as they were then, and each
create that got an in-core inode has kept it. -/
theorem nothing_created (hs : s.dir.Mounted) (as : List (VfsAction ν)) :
    ((∃ t, as.foldlM step s = some t) ↔
      NothingFound (s.dir.machine.world.disk 1) ∨ ∀ a ∈ as, a.makesInode = false) ∧
    ∀ t, as.foldlM step s = some t →
      t.dir.machine = s.dir.machine ∧ (∀ x, t.dir.names x = none) ∧
        t.inCore.length = s.inCore.length + as.countP VfsAction.makesInode := by
  obtain ⟨c, hc⟩ := (Dir.session_of_mounted hs).1.synced
  obtain ⟨hends, hafter⟩ := run_of_bare (s := s) ⟨rfl, hs.2⟩ hc.1 as
  rw [hc.2, ← quiet_iff]
  refine ⟨hends, ?_⟩
  intro t ht
  obtain ⟨⟨hmachine, hempty⟩, hlength⟩ := hafter t ht
  exact ⟨hmachine, hempty, hlength⟩

/-- On a new volume the first create that gets an inode leaves the cache. Without one it reports
that the disk is full. -/
theorem nothing_created_unused :
    ∃ s : Vfs String, s.dir.Mounted ∧ (∀ t, [.create "a" 0 false].foldlM step s ≠ some t) ∧
      ∃ t, [.create "a" 0 true].foldlM step s = some t ∧ t.dir.machine = s.dir.machine := by
  obtain ⟨d, hd, hdisk, _⟩ := Dir.mounted_unused
  have hfound : ¬ NothingFound (d.machine.world.disk 1) := by
    rw [hdisk]
    intro h
    exact absurd (h.1 8 (by decide) (by decide)) (by decide)
  refine ⟨⟨d, []⟩, hd, ?_, ?_⟩
  · intro t ht
    rcases (nothing_created (s := ⟨d, []⟩) hd _).1.mp ⟨t, ht⟩ with h | h
    · exact hfound h
    · exact absurd (h _ List.mem_cons_self) (by simp [VfsAction.makesInode])
  · obtain ⟨hends, hafter⟩ := nothing_created (s := ⟨d, []⟩) hd [.create "a" 0 true]
    obtain ⟨t, ht⟩ := hends.mpr (.inr (by simp [VfsAction.makesInode]))
    exact ⟨t, ht, (hafter t ht).1⟩

end Vfs

end Sjfs
