import Sjfs.FillSuperRuns

/-!
# What a failed mount leaves

When `sjfs_fill_super` returns an error, the VFS calls `sjfs_kill_sb`. Neither of them frees a
buffer: `sjfs_fill_super` returns from where it is, and `sjfs_kill_sb` shuts down the link to user
space. The two caches keep what was stored in them. Of the allocations, only the first one of each
reader is looked at; the copies behind the others go through a null pointer when they fail. When
there are many bitmap blocks, the offset of the loading loop overflows. Neither such a copy nor such
an overflow leaves a clean mount.

Results:
1. `cleanMount_iff`: a mount is clean exactly when its very first allocation fails, or when nothing
   fails and nothing overflows.
-/

namespace Sjfs

open Lib

/-- `sjfs_kill_sb`, as far as memory goes: `kill_litter_super` drops the dentries and inodes of the
VFS, and no buffer of this module. -/
def killSb (_ : SuperBlock) : K Volume Unit := return ()

/-- The call returns, so that no copy goes through a null pointer and no offset overflows; a failed
allocation is reported as `-ENOMEM`; and after an error and `sjfs_kill_sb` every buffer of this
mount is freed and both caches are as before. -/
structure CleanMount (s : Machine Volume) (sb : SuperBlock) : Prop where
  returns : ∃ r sb' t, (fillSuper sb).run s = .ok ((r, sb'), t)
  reported : ∀ r sb' t, (fillSuper sb).run s = .ok ((r, sb'), t) →
    (∃ k, s.mem.allocs ≤ k ∧ k < t.mem.allocs ∧ s.mem.fails k = true) → r = enomem
  freed : ∀ r sb' t, (fillSuper sb).run s = .ok ((r, sb'), t) → r ≠ 0 →
    ∃ u, (killSb sb').run t = .ok ((), u) ∧ u.mem.live = s.mem.live ∧
      u.world.inodesBitmapsCache = s.world.inodesBitmapsCache ∧
      u.world.datablocksBitmapsCache = s.world.datablocksBitmapsCache

/-- The first allocation fails; or the superblock is good, the offset of the loading loop does not
overflow, the root is marked, and nothing fails. -/
def NothingToClean (s : Machine Volume) : Prop :=
  s.failsAt 0 = true ∨
  (magicOf s.world.disk = sjfsMagic ∧
    (NoRound (bitmapCountOf s.world.disk) ∨ bitmapCountOf s.world.disk ≤ 2 ^ 21) ∧
    rootCheck (s.world.disk 1) = true ∧ ∀ k < 8, s.failsAt k = false)

section Cases

variable {s : Machine Volume} {sb : SuperBlock}

theorem not_cleanMount_of_error {e : Fault} (h : (fillSuper sb).run s = .error e) :
    ¬ CleanMount s sb := by
  intro hclean
  obtain ⟨r, sb', t, hrun⟩ := hclean.returns
  rw [h] at hrun
  cases hrun

/-- An error that leaves an object allocated. -/
theorem not_cleanMount_of_live {sb' : SuperBlock} {t : Machine Volume} {n : Nat} {ids : List Nat}
    (h : (fillSuper sb).run s = .ok ((enomem, sb'), t)) (hids : ids ≠ [])
    (ht : s.Allocated t n ids) : ¬ CleanMount s sb := by
  intro hclean
  obtain ⟨u, hkill, hlive, _⟩ := hclean.freed enomem sb' t h (by decide)
  cases hkill
  rw [ht.live] at hlive
  exact hids (by simpa using hlive)

theorem cleanMount_of_first {sb' : SuperBlock}
    (h : (fillSuper sb).run s = .ok ((enomem, sb'), s.tried)) : CleanMount s sb := by
  refine ⟨⟨_, _, _, h⟩, ?_, ?_⟩
  · intro r sb'' t hrun _
    rw [h] at hrun
    cases hrun
    rfl
  · intro r sb'' t hrun _
    rw [h] at hrun
    cases hrun
    exact ⟨_, rfl, rfl, rfl, rfl⟩

/-- A mount that succeeds is clean exactly when no allocation failed on the way. -/
theorem cleanMount_of_mounted {sb' : SuperBlock} {t : Machine Volume} {ids : List Nat}
    (h : (fillSuper sb).run s = .ok ((0, sb'), t)) (ht : s.Allocated t 8 ids) :
    CleanMount s sb ↔ ∀ k < 8, s.failsAt k = false := by
  constructor
  · intro hclean k hk
    by_contra hfails
    have hr := hclean.reported 0 sb' t h ⟨s.mem.allocs + k, by omega, by rw [ht.allocs]; omega,
      by simpa [Machine.failsAt] using hfails⟩
    exact absurd hr (by decide)
  · intro hall
    refine ⟨⟨_, _, _, h⟩, ?_, ?_⟩
    · rintro r sb'' t' hrun ⟨k, hge, hlt, hfails⟩
      rw [h] at hrun
      cases hrun
      rw [ht.allocs] at hlt
      have hok := hall (k - s.mem.allocs) (by omega)
      rw [Machine.failsAt, Nat.add_sub_cancel' hge, hfails] at hok
      cases hok
    · intro r sb'' t' hrun hr
      rw [h] at hrun
      cases hrun
      exact absurd rfl hr

end Cases

/-- A mount is clean exactly when its first allocation fails, or nothing fails and nothing
overflows. -/
theorem cleanMount_iff (s : Machine Volume) (sb : SuperBlock) :
    CleanMount s sb ↔ NothingToClean s := by
  have hcases := mountRun s sb
  generalize hrun : (fillSuper sb).run s = o at hcases
  unfold NothingToClean
  cases hcases with
  | noBuffer h0 => exact iff_of_true (cleanMount_of_first hrun) (.inl h0)
  | noSuperblock h0 h1 =>
    refine iff_of_false (not_cleanMount_of_error hrun) ?_
    rintro (h | ⟨_, _, _, hall⟩)
    · simp [h0] at h
    · simp [hall 1] at h1
  | unknown h0 _ hmagic hids ht =>
    refine iff_of_false (not_cleanMount_of_live hrun hids ht) ?_
    simp [h0, hmagic]
  | noCache h0 _ _ hwhy =>
    refine iff_of_false (not_cleanMount_of_error hrun) ?_
    rintro (h | ⟨_, _, _, hall⟩)
    · simp [h0] at h
    · simp [hall 2, hall 3] at hwhy
  | overflow h0 _ _ _ _ hround hmany =>
    refine iff_of_false (not_cleanMount_of_error hrun) ?_
    rintro (h | ⟨_, hfits, _⟩)
    · simp [h0] at h
    · exact hfits.elim hround fun hfew => by omega
  | noRootRecord h0 _ _ _ _ h5 =>
    refine iff_of_false (not_cleanMount_of_error hrun) ?_
    rintro (h | ⟨_, _, _, hall⟩)
    · simp [h0] at h
    · simp [hall 5] at h5
  | noRoot h0 _ _ _ hroot hids ht =>
    refine iff_of_false (not_cleanMount_of_live hrun hids ht) ?_
    rintro (h | ⟨_, _, hcheck, hall⟩)
    · simp [h0] at h
    · simp [RootFails, hall 4, hall 6, hall 7, hcheck] at hroot
  | mounted h0 _ hmagic hcaches hcheck _ ht =>
    rw [cleanMount_of_mounted hrun ht]
    constructor
    · exact fun hall => .inr ⟨hmagic, hcaches.2.imp_right And.right, hcheck, hall⟩
    · rintro (h | ⟨_, _, _, hall⟩)
      · simp [h0] at h
      · exact hall

/-- A machine on which every allocation succeeds, with a disk of zeros. -/
def blankMachine : Machine Volume :=
  ⟨⟨0, fun _ => false, fun _ _ => 0, [], []⟩, ⟨fun _ => Bytes.zero, none, none⟩⟩

/-- A disk without the magic number is refused, and its superblock stays allocated. -/
theorem blank_mount_leaks : ¬ ∀ (s : Machine Volume) (sb : SuperBlock), CleanMount s sb := by
  intro h
  have hclean := h blankMachine ⟨0, 0, 0, 0, 0, none, none⟩
  have hmagic : magicOf blankMachine.world.disk ≠ sjfsMagic := by
    rw [show magicOf blankMachine.world.disk = 0 from
      loadLE_zero _ fun i _ _ => Bytes.get_zero i]
    decide
  have hcases := mountRun blankMachine ⟨0, 0, 0, 0, 0, none, none⟩
  generalize hrun : (fillSuper ⟨0, 0, 0, 0, 0, none, none⟩).run blankMachine = o at hcases
  cases hcases with
  | noBuffer h => cases h
  | noSuperblock _ h => cases h
  | unknown _ _ _ hids ht => exact not_cleanMount_of_live hrun hids ht hclean
  | noCache _ _ h | overflow _ _ h | noRootRecord _ _ h | noRoot _ _ h | mounted _ _ h =>
    exact absurd h hmagic

end Sjfs
