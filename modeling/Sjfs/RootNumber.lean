import Sjfs.FillSuper

/-!
# The root's number

The root directory has the inode number 0. `sjfs_fill_super` accepts a bitmap when bit 7 of its
first byte is set; the free-inode scan of `sjfs_iops_create` takes the number 0 for used when bit 0
of that byte is.

Results:
1. `accepted_iff`: the bitmaps of the volumes that are mounted.
2. `used_zero_updates`: no marking or clearing for another number touches the root's bit.
3. `rootReserved_iff`: exactly for which bitmaps the root's number stays reserved.
-/

namespace Sjfs

open Lib

/-! ## The bitmaps that are accepted -/

theorem rootCheck_eq (b : Block) : rootCheck b = b.test 0 7 := by
  have hlt : (b.get 0).toNat >>> 7 < 2 := by
    have := (b.get 0).toNat_lt
    rw [Nat.shiftRight_eq_div_pow]
    omega
  unfold rootCheck Bytes.test bit
  rw [Nat.and_one_is_mod, Nat.mod_eq_of_lt hlt]

theorem used_zero_eq (b : Block) : used b 0 = b.test 0 0 := rfl

/-- The mount accepts the inode bitmap `b`: a volume with it is mounted. -/
def Accepted (b : Block) : Prop :=
  ∃ (s t : Machine Volume) (sb sb' : SuperBlock), s.world.disk 1 = b ∧
    (fillSuper sb).run s = .ok ((0, sb'), t)

/-- A superblock with the magic number and nothing else. -/
def plainSuperblock : Block :=
  fun i => storeLE (fun _ => 0) (offsetOf superblockT .magic) 8 sjfsMagic i.val

/-- A volume with the inode bitmap `b`. -/
def plainVolume (b : Block) : Disk
  | 0 => plainSuperblock
  | 1 => b
  | _ => Bytes.zero

theorem accepted_iff (b : Block) : Accepted b ↔ rootCheck b = true := by
  constructor
  · rintro ⟨s, t, sb, sb', rfl, hrun⟩
    exact rootCheck_of_mounted hrun
  · intro hroot
    have hmagic : magicOf (plainVolume b) = sjfsMagic := by
      show loadLE plainSuperblock.get _ _ = _
      decide
    have hcount : bitmapCountOf (plainVolume b) = 0 := by
      show loadLE plainSuperblock.get _ _ = _
      decide
    obtain ⟨sb', t, hrun⟩ := fillSuper_mounts (s := onDisk (plainVolume b)) (plenty_onDisk _)
      hmagic hcount hroot ⟨0, 0, 0, 0, 0, none, none⟩
    exact ⟨_, t, _, sb', rfl, hrun⟩

/-! ## Updates for other numbers -/

/-- An update of the cached bitmap. -/
inductive Update
  | mark (ino : Nat)
  | clear (ino : Nat)
deriving DecidableEq, Repr

def Update.ino : Update → Nat
  | .mark ino => ino
  | .clear ino => ino

def Update.apply (b : Block) : Update → Option Block
  | .mark ino => Sjfs.mark b ino
  | .clear ino => Sjfs.clear b ino

/-- A sequence of markings and clearings. -/
def updates (b : Block) (us : List Update) : Option Block := us.foldlM Update.apply b

theorem slot_eq_zero_iff (n : Nat) : slot n = 0 ↔ n = 0 := by
  unfold slot
  omega

/-- The bit that the scan tests for the root is no other number's bit. -/
theorem used_zero_apply {b b' : Block} {u : Update} (hu : u.ino ≠ 0) (h : u.apply b = some b') :
    used b' 0 = used b 0 := by
  have hslot : 0 ≠ slot u.ino := fun h => hu ((slot_eq_zero_iff _).mp h.symm)
  rw [Bool.eq_iff_iff]
  cases u with
  | mark ino =>
    rw [used_mark h]
    exact or_iff_right hslot
  | clear ino =>
    rw [used_clear h]
    exact and_iff_right hslot

theorem used_zero_updates {b b' : Block} {us : List Update} (hus : ∀ u ∈ us, u.ino ≠ 0)
    (h : updates b us = some b') : used b' 0 = used b 0 := by
  induction us generalizing b with
  | nil =>
    cases h
    rfl
  | cons u us ih =>
    obtain ⟨b₁, hb₁, hrest⟩ := Option.bind_eq_some_iff.mp h
    rw [ih (fun v hv => hus v (List.mem_cons_of_mem u hv)) hrest]
    exact used_zero_apply (hus u List.mem_cons_self) hb₁

/-! ## The root stays reserved -/

/-- The root's number stays reserved on a volume with the bitmap `b`: if the mount accepts `b`, the
scan finds the number 0 used after any updates for other numbers; and if the scan finds it used in
`b`, `b` passes the root check. -/
def RootReserved (b : Block) : Prop :=
  (Accepted b → ∀ us b', (∀ u ∈ us, u.ino ≠ 0) → updates b us = some b' →
    used b' 0 = true) ∧
  (used b 0 = true → rootCheck b = true)

/-- The root check and the scan look at the two ends of the first byte, so they agree exactly on the
bitmaps that have the same bit there. -/
theorem rootReserved_iff (b : Block) : RootReserved b ↔ b.test 0 0 = b.test 0 7 := by
  constructor
  · rintro ⟨hkept, haccepted⟩
    rw [Bool.eq_iff_iff, ← rootCheck_eq, ← used_zero_eq]
    exact ⟨haccepted, fun h => hkept ((accepted_iff b).mpr h) [] b (by simp) rfl⟩
  · intro heq
    refine ⟨fun h us b' hus hrun => ?_, fun h => ?_⟩
    · rw [used_zero_updates hus hrun, used_zero_eq, heq, ← rootCheck_eq]
      exact (accepted_iff b).mp h
    · rwa [rootCheck_eq, ← heq, ← used_zero_eq]

/-- The bitmap with `v` as its first byte and nothing else. -/
def firstByte (v : UInt8) : Block := Bytes.zero.set 0 v

theorem test_firstByte (v : UInt8) (j : Nat) : (firstByte v).test 0 j = bit v j := by
  rw [firstByte, Bytes.test_set _ (by decide), if_pos rfl]

/-- The mount accepts a bitmap in which the root's number is free to the scan, and refuses one in
which it is used. -/
theorem root_check_differs :
    (rootCheck (firstByte 0x80) = true ∧ used (firstByte 0x80) 0 = false) ∧
    (used (firstByte 0x01) 0 = true ∧ rootCheck (firstByte 0x01) = false) ∧
    ¬ ∀ b, RootReserved b := by
  have h80 : rootCheck (firstByte 0x80) = true ∧ used (firstByte 0x80) 0 = false := by
    rw [rootCheck_eq, used_zero_eq, test_firstByte, test_firstByte]
    decide
  have h01 : used (firstByte 0x01) 0 = true ∧ rootCheck (firstByte 0x01) = false := by
    rw [rootCheck_eq, used_zero_eq, test_firstByte, test_firstByte]
    decide
  refine ⟨h80, h01, ?_⟩
  intro h
  have hused := (h (firstByte 0x80)).1 ((accepted_iff _).mpr h80.1) [] _ (by simp) rfl
  rw [h80.2] at hused
  cases hused

end Sjfs
