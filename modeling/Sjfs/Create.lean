import Sjfs.Scan
import Sjfs.RootDir

/-!
# The errors of create

`sjfs_iops_create` of `kernel_space_module/sjfs.c` as a whole: `new_inode`, the free-inode scan, and
the part behind the scan (`iopsCreate`).

A create that finds no number returns `-ENOSPC` and keeps the inode that `new_inode` made. A create
that finds one does not check its allocations: without memory for `i_private` it goes through a null
pointer, and without memory for the block it goes on, marks the number and returns 0.

Results:
1. `not_reportsFull`: on no bitmap does create return, report a full disk exactly when the disk is
   full, and leave nothing behind.
2. `storedOnDisk_iff`: exactly when a create that returns 0 left its file on the disk.
-/

namespace Sjfs

open Lib

/-- `-ENOSPC`. -/
def enospc : Int := -28

/-! ## The code -/

/-- The root directory and the in-core inodes that were made and not released. -/
structure Vfs (ν : Type) where
  dir : Dir ν
  inCore : List Nat

namespace Vfs

variable {ν : Type}

/-- `new_inode`. -/
def newInode (s : Vfs ν) : Vfs ν where
  dir := { s.dir with fresh := s.dir.fresh + 1 }
  inCore := s.dir.fresh :: s.inCore

/-- `sjfs_iops_create` of the free name `x`, when `new_inode` succeeds: its result and the state it
leaves. There is none when a read or a copy leaves its buffer. -/
def create [DecidableEq ν] (s : Vfs ν) (x : ν) (now : Nat) : Option (Int × Vfs ν) := do
  let c ← s.dir.machine.world.inodesBitmapsCache
  let inodeNumber ← scan (c.bytes 1024) 0 0
  if inodeNumber = 0 then
    return (enospc, s.newInode)
  let (inode, machine) ← clean (iopsCreate inodeNumber now) s.dir.machine
  return (0, { s.newInode with dir := { s.dir with machine := machine }.instantiate x inode })

/-! ## A full disk -/

/-- Every inode number but the root's is used. -/
def Full (b : Block) : Prop := ∀ m, 1 ≤ m → m < inodesPerBitmap → used b m = true

/-- A create in `s`, where the bitmap is `b`, returns; it reports a full disk exactly when the disk
is full; and then the bitmap, the disk and the directory are as before and the new inode has been
released. -/
structure ReportsFull [DecidableEq ν] (s : Vfs ν) (b : Block) (x : ν) (now : Nat) : Prop where
  returns : ∃ r t, s.create x now = some (r, t)
  enospc_iff : (∃ t, s.create x now = some (enospc, t)) ↔ Full b
  unchanged : ∀ t, s.create x now = some (enospc, t) →
    t.dir.machine = s.dir.machine ∧ t.dir.names = s.dir.names ∧ t.inCore = s.inCore

variable [DecidableEq ν] {s : Vfs ν} {c : Buffer}

/-- A create returns, with `-ENOSPC`, exactly when the scan finds nothing. -/
theorem create_eq (hc : Loaded s.dir.machine c) (x : ν) (now : Nat) :
    s.create x now = if quiet (c.bytes 1024) then some (enospc, s.newInode) else none := by
  unfold create
  rw [hc.1, Option.bind_eq_bind, Option.bind_some, scan_eq]
  split <;> rfl

theorem not_nothingFound_iff (b : Block) :
    ¬ NothingFound b ↔ (∃ m, 8 ≤ m ∧ m < 32 ∧ used b m = false) ∨
      (used b 0 = true ∧ ∃ m < 8, used b m = false) := by
  simp only [NothingFound, not_and_or, not_or, not_forall, Bool.not_eq_true, Bool.not_eq_false,
    exists_prop]

/-- No bitmap makes create both report rightly and leave nothing behind. Where the scan finds
nothing, it returns `-ENOSPC`, be the disk full or not, and keeps the inode it got; on all other
bitmaps its scan leaves the cache, and it does not return. -/
theorem not_reportsFull (s : Vfs ν) (c : Buffer) (hc : Loaded s.dir.machine c) (x : ν) (now : Nat) :
    ¬ ReportsFull s (c.bytes 1024) x now ∧
    (s.create x now = none ↔ (∃ m, 8 ≤ m ∧ m < 32 ∧ used (c.bytes 1024) m = false) ∨
      (used (c.bytes 1024) 0 = true ∧ ∃ m < 8, used (c.bytes 1024) m = false)) ∧
    ∀ r t, s.create x now = some (r, t) → r = enospc ∧ t.inCore = s.dir.fresh :: s.inCore := by
  rw [← not_nothingFound_iff, ← quiet_iff]
  have hrun := create_eq hc x now
  by_cases hquiet : quiet (c.bytes 1024) = true
  · rw [if_pos hquiet] at hrun
    refine ⟨fun h => ?_, ?_, fun r t ht => ?_⟩
    · have hsame := (h.unchanged _ hrun).2.2
      simp [newInode] at hsame
    · simp [hrun, hquiet]
    · rw [hrun] at ht
      cases ht
      exact ⟨rfl, rfl⟩
  · rw [if_neg hquiet] at hrun
    refine ⟨fun h => ?_, iff_of_true hrun hquiet, fun r t ht => ?_⟩
    · obtain ⟨r, t, ht⟩ := h.returns
      rw [hrun] at ht
      cases ht
    · rw [hrun] at ht
      cases ht

/-- A directory with one file, over a volume with the bitmap `b`. -/
def withBitmap (b : Block) : Vfs String where
  dir := { Dir.oneFile with
    machine := ⟨⟨0, fun _ => false, fun _ _ => 0, [], []⟩,
      ⟨fun _ => Bytes.zero, some ⟨0, 1024, b.get⟩, none⟩⟩ }
  inCore := [0]

theorem loaded_withBitmap (b : Block) :
    Loaded (withBitmap b).dir.machine ⟨0, 1024, b.get⟩ := ⟨rfl, rfl⟩

theorem bytes_withBitmap (b : Block) : (Buffer.mk 0 1024 b.get).bytes 1024 = b := by
  funext i
  simp [Buffer.bytes]

/-- On an empty bitmap create does not return. -/
theorem not_reportsFull_empty :
    ¬ ReportsFull (withBitmap Bytes.zero) Bytes.zero "b" 0 ∧
      (withBitmap Bytes.zero).create "b" 0 = none := by
  have hfree : used Bytes.zero 8 = false := Bytes.test_zero 1 0
  have h := not_reportsFull (withBitmap Bytes.zero) _ (loaded_withBitmap _) "b" 0
  rw [bytes_withBitmap] at h
  exact ⟨h.1, h.2.1.mpr (.inl ⟨8, by decide, by decide, hfree⟩)⟩

/-- The numbers 0 to 31 are used and no other. -/
def firstFour : Block := fun i => if i.val < 4 then 0xff else 0

/-- With 8160 numbers free, create reports a full disk, and keeps the inode it got. -/
theorem enospc_with_free_numbers :
    (∃ t, (withBitmap firstFour).create "b" 0 = some (enospc, t) ∧ t.inCore = [1, 0] ∧
      ∀ m, 32 ≤ m → m < inodesPerBitmap → used firstFour m = false) ∧
    ¬ ∀ (s : Vfs String) (c : Buffer), Loaded s.dir.machine c → ∀ x now,
      ReportsFull s (c.bytes 1024) x now := by
  have hrun : (withBitmap firstFour).create "b" 0 =
      some (enospc, (withBitmap firstFour).newInode) := by
    rw [create_eq (loaded_withBitmap _), bytes_withBitmap, if_pos (by decide)]
  refine ⟨⟨_, hrun, rfl, ?_⟩, ?_⟩
  · intro m hle hlt
    simp only [inodesPerBitmap, blockSize] at hlt
    have hbyte : firstFour.get (m / 8) = 0 := by
      rw [Bytes.get_of_lt _ (by omega)]
      exact if_neg (by simp only; omega)
    unfold used Bytes.test
    rw [hbyte]
    simp [bit]
  · intro h
    have hall := h (withBitmap firstFour) _ (loaded_withBitmap _) "b" 0
    have hsame := (hall.unchanged _ hrun).2.2
    simp [newInode] at hsame

end Vfs

/-! ## A file on the disk -/

/-- `sjfs_iops_create` behind the scan, with its result: `error` is 0 whatever happened. -/
def createTail (inodeNumber now : Nat) : K Volume (Int × Inode) := do
  let inode ← iopsCreate inodeNumber now
  return (0, inode)

/-- The part behind the scan, when it chose `n` and the cache is `c`: if it returns 0, the cache
with `n` marked is on the disk, and the record that is then read for `n` is the inode's; if one of
its two allocations fails, it returns an error and changes neither the cache nor the disk. -/
structure StoredOnDisk (s : Machine Volume) (c : Buffer) (n now : Nat) : Prop where
  success : ∀ inode t, (createTail n now).run s = .ok ((0, inode), t) →
    mark (c.bytes 1024) n = some (t.world.disk 1) ∧
    ∃ p r u, inode.iPrivate = some p ∧
      clean (getDiskInode n) (onDisk t.world.disk) = some (some r, u) ∧ r.bytes 200 = p.bytes 200
  failure : s.mem.fails s.mem.allocs = true ∨ s.mem.fails (s.mem.allocs + 1) = true →
    ∃ e inode t, (createTail n now).run s = .ok ((e, inode), t) ∧ e < 0 ∧
      t.world.inodesBitmapsCache = s.world.inodesBitmapsCache ∧ t.world.disk = s.world.disk

section Runs

variable {s : Machine Volume} {c : Buffer} {n : Nat}

/-- The record of a new file: zeros, and the time. -/
def newRecord (now : Nat) : InodeRecord := stamp Bytes.zero now

/-- The `i_private` of a new file, before the time is stamped in it. -/
def newPrivate (s : Machine Volume) : Buffer :=
  ⟨s.mem.allocs, sizeofInode, fun i => if i < sizeofInode then 0 else s.mem.junk s.mem.allocs i⟩

theorem bytes_newPrivate (s : Machine Volume) : (newPrivate s).bytes 200 = Bytes.zero := by
  funext i
  have hi : i.val < sizeofInode := by
    rw [sizeofInode_eq]
    exact i.isLt
  exact if_pos hi

/-- Without memory for `i_private` the call goes through a null pointer. -/
theorem run_createTail_of_no_private (h : s.mem.fails s.mem.allocs = true) (n now : Nat) :
    (createTail n now).run s = .error .nullDereference := by
  unfold createTail iopsCreate
  rw [StateT.run_bind, run_bind (run_kzalloc_of_fails h _)]
  rfl

/-- Once the inode is written, or was silently not written, the call marks its number and
returns 0. -/
theorem run_createTail {t : Machine Volume} {inode : Inode} {now : Nat}
    (h : s.mem.fails s.mem.allocs = false)
    (hset : (setDiskInode (createdInode n now (some (newPrivate s))) now).run s.grown =
      .ok (inode, t)) (hload : Loaded t c) :
    (createTail n now).run s = .ok ((0, inode),
      cached (t.noted c (inodeByte inode.ino) 1) (updated c inode.ino orBit)) := by
  unfold createTail iopsCreate
  rw [bind_assoc, run_bind (run_kzalloc_of_ok h _), bind_assoc]
  erw [run_bind hset]
  rw [bind_assoc, run_bind (run_updateCache hload _ _)]
  rfl

/-- Without memory for the block it returns 0 all the same. -/
theorem run_createTail_of_no_block (hc : Loaded s c) (h : s.mem.fails s.mem.allocs = false)
    (h' : s.mem.fails (s.mem.allocs + 1) = true) (n now : Nat) :
    ∃ inode t, (createTail n now).run s = .ok ((0, inode), t) ∧
      t.world.disk = Function.update s.world.disk 1 ((updated c n orBit).bytes 1024) := by
  have hfails : s.grown.mem.fails s.grown.mem.allocs = true := h'
  obtain ⟨inode, hset, hino⟩ :=
    run_setDiskInode_of_fails (createdInode n now (some (newPrivate s))) hfails rfl rfl now
  have hino' : inode.ino = n := hino
  have hload : Loaded s.grown.tried c := hc
  refine ⟨inode, _, run_createTail h hset hload, ?_⟩
  rw [hino']
  simp [cached, wrote, Machine.grown, Machine.tried]

/-- With memory for both, the record and the bitmap go to the disk. -/
theorem run_createTail_of_ok (hc : Loaded s c) (h : s.mem.fails s.mem.allocs = false)
    (h' : s.mem.fails (s.mem.allocs + 1) = false) (hn : n < inodesPerBitmap) (now : Nat) :
    ∃ inode t p, (createTail n now).run s = .ok ((0, inode), t) ∧ inode.iPrivate = some p ∧
      p.bytes 200 = newRecord now ∧
      t.world.disk = Function.update (stored s.world.disk n (newRecord now)) 1
        ((updated c n orBit).bytes 1024) := by
  have hok : s.grown.mem.fails s.grown.mem.allocs = false := h'
  obtain ⟨inode, block, hset, hino, ⟨p, hp, hbytes⟩, hblock⟩ :=
    run_setDiskInode (createdInode n now (some (newPrivate s))) hok hn rfl rfl now
  rw [bytes_newPrivate] at hbytes hblock
  have hino' : inode.ino = n := hino
  refine ⟨inode, _, p, run_createTail (c := c) h hset ⟨?_, hc.2⟩, hp, hbytes, ?_⟩
  · simpa [wrote, Machine.grown] using hc.1
  rw [hino', hblock]
  simp [cached, wrote, Machine.grown, stored, newRecord, createdInode, blockSize]

/-- What is then read for `n`, when the reader stays in its buffer. -/
theorem recordAt_created {disk : Disk} (hpos : 0 < n) (hn : n ≤ 4) (b : Block) (now : Nat)
    (i : Fin 200) :
    recordAt (Function.update (stored disk n (newRecord now)) 1 b) n i =
      if n = 1 ∧ i.val = 0 then 0 else recordAt disk n i := by
  have hblock : tableBlock n ≠ 1 := by
    rw [tableBlock_of_le (by omega)]
    decide
  have hframe : recordAt (Function.update (stored disk n (newRecord now)) 1 b) n =
      recordAt (stored disk n (newRecord now)) n := by
    unfold recordAt
    rw [Function.update_of_ne hblock]
  rw [hframe, recordAt_stored (by omega) hn]
  -- the bytes written for `n` and those read for it meet in byte 200 at most
  by_cases hmeet : n = 1 ∧ i.val = 0
  · obtain ⟨rfl, hi⟩ := hmeet
    rw [if_pos (by omega), if_pos ⟨rfl, hi⟩, hi]
    exact (stamp_get Bytes.zero (.inr (by decide)) (by decide) now).trans (Bytes.get_zero _)
  · rw [if_neg (by omega), if_neg hmeet]

/-- What the reader then has is the new record exactly when it was on the disk before. -/
theorem recordAt_created_iff {disk : Disk} (hpos : 0 < n) (hn : n ≤ 4) (b : Block) (now : Nat) :
    recordAt (Function.update (stored disk n (newRecord now)) 1 b) n = newRecord now ↔
      ∀ i : Fin 200, (n = 1 ∧ i.val = 0) ∨ recordAt disk n i = newRecord now i := by
  have hfirst : newRecord now ⟨0, by decide⟩ = 0 := by
    have h := stamp_get Bytes.zero (j := 0) (.inl (by decide)) (by decide) now
    rw [Bytes.get_zero, Bytes.get_of_lt _ (by decide)] at h
    exact h
  rw [funext_iff]
  refine forall_congr' fun i => ?_
  rw [recordAt_created hpos hn]
  by_cases hmeet : n = 1 ∧ i.val = 0
  · obtain ⟨hn1, hi⟩ := hmeet
    obtain rfl : i = ⟨0, by decide⟩ := Fin.ext hi
    rw [if_pos ⟨hn1, rfl⟩, hfirst]
    exact iff_of_true rfl (.inl ⟨hn1, rfl⟩)
  · rw [if_neg hmeet]
    exact ⟨.inr, fun h => h.resolve_left hmeet⟩

/-- With memory for both, all that is left to ask is what the reader finds. -/
theorem storedOnDisk_iff_of_ok (hc : Loaded s c) (h : s.mem.fails s.mem.allocs = false)
    (h' : s.mem.fails (s.mem.allocs + 1) = false) (hpos : 0 < n) (hn : n < inodesPerBitmap)
    (now : Nat) :
    StoredOnDisk s c n now ↔ n ≤ 4 ∧
      ∀ i : Fin 200, (n = 1 ∧ i.val = 0) ∨ recordAt s.world.disk n i = newRecord now i := by
  obtain ⟨inode, t, p, hrun, hp, hbytes, hdisk⟩ := run_createTail_of_ok hc h h' hn now
  have hiff : n ≤ 4 → (recordAt t.world.disk n = newRecord now ↔
      ∀ i : Fin 200, (n = 1 ∧ i.val = 0) ∨ recordAt s.world.disk n i = newRecord now i) := by
    intro hle
    rw [hdisk]
    exact recordAt_created_iff hpos hle _ now
  constructor
  · intro hs
    obtain ⟨_, p', r, u, hp', hread, hsame⟩ := hs.success inode t hrun
    have hle : n ≤ 4 := le_of_clean_getDiskInode (plenty_onDisk _) hn hread
    obtain ⟨r', u', hread', hrecord⟩ := clean_getDiskInode (plenty_onDisk t.world.disk) hle
    rw [hread] at hread'
    cases hread'
    rw [hp] at hp'
    cases hp'
    refine ⟨hle, (hiff hle).mp ?_⟩
    calc recordAt t.world.disk n = r.bytes 200 := hrecord.symm
      _ = p.bytes 200 := hsame
      _ = newRecord now := hbytes
  · rintro ⟨hle, hsame⟩
    refine ⟨fun inode' t' hrun' => ?_, fun hfail => ?_⟩
    · rw [hrun] at hrun'
      cases hrun'
      obtain ⟨r, u, hread, hrecord⟩ := clean_getDiskInode (plenty_onDisk t.world.disk) hle
      refine ⟨?_, p, r, u, hp, hread, ?_⟩
      · rw [mark_updated c (by omega), hdisk, Function.update_self]
      · calc r.bytes 200 = recordAt t.world.disk n := hrecord
          _ = newRecord now := (hiff hle).mpr hsame
          _ = p.bytes 200 := hbytes.symm
    · rw [h, h'] at hfail
      rcases hfail with hf | hf <;> cases hf

end Runs

/-- A create is all or nothing, and what it created is on the disk, exactly when both its
allocations succeed and the record that the reader finds for its number was there before: the writer
puts it elsewhere. From the number 5 on the reader leaves its buffer. -/
theorem storedOnDisk_iff (s : Machine Volume) (c : Buffer) (n now : Nat) (hc : Loaded s c)
    (hpos : 0 < n) (hn : n < inodesPerBitmap) :
    StoredOnDisk s c n now ↔ s.mem.fails s.mem.allocs = false ∧
      s.mem.fails (s.mem.allocs + 1) = false ∧ n ≤ 4 ∧
      ∀ i : Fin 200, (n = 1 ∧ i.val = 0) ∨ recordAt s.world.disk n i = newRecord now i := by
  cases hprivate : s.mem.fails s.mem.allocs with
  | true =>
    refine iff_of_false ?_ (by simp)
    intro h
    obtain ⟨e, inode, t, hrun, _⟩ := h.failure (.inl hprivate)
    rw [run_createTail_of_no_private hprivate] at hrun
    cases hrun
  | false =>
    cases hblock : s.mem.fails (s.mem.allocs + 1) with
    | true =>
      refine iff_of_false ?_ (by simp)
      intro h
      obtain ⟨inode, t, hrun, _⟩ := run_createTail_of_no_block hc hprivate hblock n now
      obtain ⟨e, inode', t', hrun', he, _⟩ := h.failure (.inr hblock)
      rw [hrun] at hrun'
      cases hrun'
      exact absurd he (by decide)
    | false => simpa using storedOnDisk_iff_of_ok hc hprivate hblock hpos hn now

/-- A machine with an empty disk and bitmap, on which the allocations in `fails` fail. -/
def emptyVolume (fails : Nat → Bool) : Machine Volume :=
  ⟨⟨0, fails, fun _ _ => 0, [], []⟩, ⟨fun _ => Bytes.zero, some ⟨0, 1024, fun _ => 0⟩, none⟩⟩

/-- On an empty disk at the time 0 the record of a new file is all zero, and so is what the reader
finds for number 2. -/
theorem storedOnDisk_emptyVolume :
    StoredOnDisk (emptyVolume fun _ => false) ⟨0, 1024, fun _ => 0⟩ 2 0 := by
  refine (storedOnDisk_iff _ _ 2 0 ⟨rfl, rfl⟩ (by decide) (by decide)).mpr
    ⟨rfl, rfl, by decide, fun i => .inr ?_⟩
  have hzero : newRecord 0 i = 0 := by
    simp only [newRecord, stamp, storeLE, Nat.zero_div]
    split
    · rfl
    · exact Bytes.get_zero _
  rw [hzero]
  exact recordAt_zero 2 i

/-- When only the block cannot be allocated, create marks the number and returns 0, and nothing
went to the inode table. -/
theorem created_without_record :
    (∃ inode t, (createTail 1 1).run (emptyVolume fun k => k == 1) = .ok ((0, inode), t) ∧
      t.world.disk 2 = Bytes.zero ∧ t.world.disk 1 ≠ Bytes.zero) ∧
    ¬ ∀ (s : Machine Volume) (c : Buffer) (n now : Nat), Loaded s c → 0 < n →
      n < inodesPerBitmap → StoredOnDisk s c n now := by
  have hload : Loaded (emptyVolume fun k => k == 1) ⟨0, 1024, fun _ => 0⟩ := ⟨rfl, rfl⟩
  obtain ⟨inode, t, hrun, hdisk⟩ := run_createTail_of_no_block hload rfl rfl 1 1
  refine ⟨⟨inode, t, hrun, ?_, ?_⟩, ?_⟩
  · rw [hdisk]
    rfl
  · rw [hdisk, Function.update_self]
    intro hzero
    have hbyte := congrFun hzero ⟨0, by decide⟩
    exact absurd hbyte (by decide)
  · intro h
    obtain ⟨e, inode', t', hrun', he, _⟩ :=
      (h _ _ 1 1 hload (by decide) (by decide)).failure (.inr rfl)
    rw [hrun] at hrun'
    cases hrun'
    exact absurd he (by decide)

end Sjfs
