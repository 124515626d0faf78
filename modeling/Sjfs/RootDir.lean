import Sjfs.Iops
import Sjfs.Lib.Transition

/-!
# The root directory

Names, open files and inode numbers: `sjfs_iops_create`, `sjfs_iops_unlink` and `sjfs_iops_rename`
with what the VFS does around them. An in-core inode is alive while it has a name or an open handle.
Its number should be marked in the bitmap exactly that long (`Held`).

Three operations do not see to it. `sjfs_iops_unlink` clears the number of a file that is still
open; `sjfs_iops_rename` does not clear the number of a file it replaces; and nothing clears the
number of a file without a name when it is closed.

Results:
1. `step_held_iff`: exactly which step keeps the numbers right.
2. `always_held_iff`: exactly which sequences of operations do.
-/

namespace Sjfs

open Lib

/-! ## The directory -/

/-- The root directory over names `ν`. In-core inodes are known by identities: `inodes` has their
fields, `names` and `handles` refer to them, and `new_inode` makes `fresh`. -/
structure Dir (ν : Type) where
  machine : Machine Volume
  names : ν → Option Nat
  handles : Nat → Nat
  inodes : Nat → Inode
  fresh : Nat

inductive DirAction (ν : Type)
  /-- `sjfs_iops_create` of a free name, when its scan chose `n`. -/
  | create (x : ν) (n now : Nat)
  /-- Opens the file named `x`. -/
  | openFile (x : ν)
  /-- Closes a handle of the inode `i`. -/
  | close (i : Nat)
  /-- `sjfs_iops_unlink` of an existing name. -/
  | unlink (x : ν)
  /-- `sjfs_iops_rename` of an existing name. -/
  | rename (x y : ν)

namespace Dir

variable {ν : Type}

/-- The bit of the number `n`. -/
def bit (s : Dir ν) (n : Nat) : Bool :=
  match s.machine.world.inodesBitmapsCache with
  | some c => held (c.bytes 1024) n
  | none => false

/-- The number of an in-core inode. -/
def ino (s : Dir ν) (i : Nat) : Nat := (s.inodes i).ino

/-! What the VFS does to the names and the handles. -/

def instantiate [DecidableEq ν] (s : Dir ν) (x : ν) (inode : Inode) : Dir ν :=
  { s with
    names := Function.update s.names x (some s.fresh)
    inodes := Function.update s.inodes s.fresh inode
    fresh := s.fresh + 1 }

def openHandle (s : Dir ν) (i : Nat) : Dir ν :=
  { s with handles := Function.update s.handles i (s.handles i + 1) }

def closeHandle (s : Dir ν) (i : Nat) : Dir ν :=
  { s with handles := Function.update s.handles i (s.handles i - 1) }

def removeName [DecidableEq ν] (s : Dir ν) (x : ν) : Dir ν :=
  { s with names := Function.update s.names x none }

def moveName [DecidableEq ν] (s : Dir ν) (x y : ν) (i : Nat) : Dir ν :=
  { s with names := Function.update (Function.update s.names x none) y (some i) }

/-- One operation. What the VFS does not pass on to the file system changes nothing; there is no
result when a copy leaves its buffer. -/
def step [DecidableEq ν] (s : Dir ν) : DirAction ν → Option (Dir ν)
  | .create x n now =>
    if s.names x = none ∧ n < inodesPerBitmap ∧ s.bit n = false then
      (clean (iopsCreate n now) s.machine).map fun r =>
        { s with machine := r.2 }.instantiate x r.1
    else some s
  | .openFile x => match s.names x with
    | some i => some (s.openHandle i)
    | none => some s
  | .close i => some (s.closeHandle i)
  | .unlink x => match s.names x with
    | some i => (clean (iopsUnlink (s.inodes i)) s.machine).map fun r =>
        { s with machine := r.2 }.removeName x
    | none => some s
  | .rename x y => match s.names x with
    | some i =>
      -- the VFS does nothing when both names are of one file
      if s.names y = some i then some s
      else (clean iopsRename s.machine).map fun r =>
        if r.1 = 0 then { s with machine := r.2 }.moveName x y i else { s with machine := r.2 }
    | none => some s

/-! ## Numbers in use -/

/-- The inode `i` has a name or an open handle. -/
def Alive (s : Dir ν) (i : Nat) : Prop := (∃ x, s.names x = some i) ∨ 0 < s.handles i

/-- The numbers in `reserved` and those of the inodes that are alive are marked, and no other, and
two inodes that are alive do not share a number. The last three fields say that the volume is
mounted with memory to spare, and that `new_inode` makes new inodes. -/
structure Held (reserved : Nat → Prop) (s : Dir ν) : Prop where
  bit_iff : ∀ n, s.bit n = true ↔ reserved n ∨ ∃ i, s.Alive i ∧ s.ino i = n
  unique : ∀ i j, s.Alive i → s.Alive j → s.ino i = s.ino j → i = j
  loaded : ∃ c, Loaded s.machine c
  plenty : s.machine.Plenty
  lt_fresh : ∀ i, s.Alive i → i < s.fresh

/-- The condition on an operation. -/
def StepOk (reserved : Nat → Prop) (s : Dir ν) : DirAction ν → Prop
  | .create x n _ => s.names x = none → n < inodesPerBitmap → s.bit n = false → n ≤ 824
  | .openFile _ => True
  | .close i => s.handles i = 1 → (∃ x, s.names x = some i) ∨ reserved (s.ino i)
  | .unlink x => ∀ i, s.names x = some i →
      s.handles i = 0 ∧ (∀ y, s.names y = some i → y = x) ∧ ¬ reserved (s.ino i)
  | .rename x y => ∀ i j, s.names x = some i → s.names y = some j → i ≠ j →
      (∃ z, z ≠ y ∧ s.names z = some j) ∨ 0 < s.handles j ∨ reserved (s.ino j)

variable {reserved : Nat → Prop} {s t : Dir ν}

theorem bit_of_loaded {c : Buffer} (h : Loaded s.machine c) (n : Nat) :
    s.bit n = held (c.bytes 1024) n := by
  unfold bit
  rw [h.1]

theorem bit_marked {c : Buffer} {n : Nat} (hs : Loaded s.machine c)
    (ht : Loaded t.machine (updated c n orBit)) (hn : n < 1024) (k : Nat) :
    t.bit k = true ↔ k = n ∨ s.bit k = true := by
  rw [bit_of_loaded ht, bit_of_loaded hs, held_mark (mark_updated c hn)]

theorem bit_cleared {c : Buffer} {n : Nat} (hs : Loaded s.machine c)
    (ht : Loaded t.machine (updated c n andNotBit)) (hn : n < 1024) (k : Nat) :
    t.bit k = true ↔ k ≠ n ∧ s.bit k = true := by
  rw [bit_of_loaded ht, bit_of_loaded hs, held_clear (clear_updated c hn)]

/-- The number of an inode that is alive has a bit in the cache. -/
theorem ino_lt_of_alive (h : Held reserved s) {i : Nat} (hi : s.Alive i) : s.ino i < 1024 := by
  obtain ⟨c, hc⟩ := h.loaded
  have hset := (h.bit_iff (s.ino i)).mpr (.inr ⟨i, hi, rfl⟩)
  rw [bit_of_loaded hc] at hset
  exact lt_of_held hset

/-- No inode that is alive has a number whose bit is clear. -/
theorem ino_ne_of_alive (h : Held reserved s) {n k : Nat} (hbit : s.bit n = false)
    (hk : s.Alive k) : s.ino k ≠ n := by
  intro he
  have hset := (h.bit_iff n).mpr (.inr ⟨k, hk, he⟩)
  rw [hbit] at hset
  cases hset

/-- When no inode comes to life and none changes its number, only the bits are left to check. -/
theorem held_of_subset (h : Held reserved s) (hload : ∃ c, Loaded t.machine c)
    (hplenty : t.machine.Plenty) (hi : t.inodes = s.inodes) (hf : t.fresh = s.fresh)
    (hsub : ∀ k, t.Alive k → s.Alive k)
    (hbit : ∀ n, t.bit n = true ↔ reserved n ∨ ∃ i, t.Alive i ∧ s.ino i = n) :
    Held reserved t := by
  have hino : ∀ i, t.ino i = s.ino i := fun i => by
    unfold ino
    rw [hi]
  refine ⟨fun n => ?_, fun a b ha hb hab => ?_, hload, hplenty, fun k hk => ?_⟩
  · simp only [hino]
    exact hbit n
  · rw [hino, hino] at hab
    exact h.unique a b (hsub a ha) (hsub b hb) hab
  · rw [hf]
    exact h.lt_fresh k (hsub k hk)

/-- As long as the bitmap and the inodes stay, the numbers are right when the same inodes are
alive, or when one that is not any more has a reserved number. -/
theorem held_drop_iff (h : Held reserved s) (hm : t.machine = s.machine)
    (hi : t.inodes = s.inodes) (hf : t.fresh = s.fresh) {j : Nat} {stays : Prop} (hj : s.Alive j)
    (halive : ∀ i, t.Alive i ↔ s.Alive i ∧ (i = j → stays)) :
    Held reserved t ↔ stays ∨ reserved (s.ino j) := by
  have hbit : ∀ n, t.bit n = s.bit n := fun n => by
    unfold bit
    rw [hm]
  have hino : ∀ i, t.ino i = s.ino i := fun i => by
    unfold ino
    rw [hi]
  constructor
  · intro ht
    by_contra hnot
    obtain ⟨hstays, hres⟩ := not_or.mp hnot
    -- the bit of `j` is still set, but nothing accounts for it
    have hset : t.bit (s.ino j) = true := by
      rw [hbit, h.bit_iff]
      exact .inr ⟨j, hj, rfl⟩
    rcases (ht.bit_iff _).mp hset with hr | ⟨i, hia, hin⟩
    · exact hres hr
    · obtain ⟨his, hij⟩ := (halive i).mp hia
      rw [hino] at hin
      exact hstays (hij (h.unique i j his hj hin))
  · intro hcase
    refine held_of_subset h (hm ▸ h.loaded) (hm ▸ h.plenty) hi hf
      (fun k hk => ((halive k).mp hk).1) fun n => ?_
    rw [hbit, h.bit_iff]
    constructor
    · rintro (hr | ⟨i, hia, rfl⟩)
      · exact .inl hr
      · by_cases hij : i = j
        · subst hij
          rcases hcase with hs | hr
          · exact .inr ⟨i, (halive i).mpr ⟨hia, fun _ => hs⟩, rfl⟩
          · exact .inl hr
        · exact .inr ⟨i, (halive i).mpr ⟨hia, fun he => absurd he hij⟩, rfl⟩
    · rintro (hr | ⟨i, hia, rfl⟩)
      · exact .inl hr
      · exact .inr ⟨i, ((halive i).mp hia).1, rfl⟩

/-! ## The operations, one by one -/

theorem held_openHandle (h : Held reserved s) {x : ν} {i : Nat} (hx : s.names x = some i) :
    Held reserved (s.openHandle i) := by
  have halive : ∀ k, (s.openHandle i).Alive k ↔ s.Alive k ∧ (k = i → True) := by
    intro k
    by_cases hk : k = i
    · subst hk
      exact iff_of_true (.inl ⟨x, hx⟩) ⟨.inl ⟨x, hx⟩, fun _ => trivial⟩
    · simp [Alive, openHandle, hk]
  exact (held_drop_iff (t := s.openHandle i) h rfl rfl rfl (.inl ⟨x, hx⟩) halive).mpr
    (.inl trivial)

theorem held_closeHandle_iff (h : Held reserved s) (i : Nat) :
    Held reserved (s.closeHandle i) ↔
      (s.handles i = 1 → (∃ x, s.names x = some i) ∨ reserved (s.ino i)) := by
  rcases Nat.eq_zero_or_pos (s.handles i) with hz | hpos
  · have hsame : s.closeHandle i = s := by
      unfold closeHandle
      rw [hz, Nat.zero_sub, ← hz, Function.update_eq_self]
    rw [hsame]
    exact iff_of_true h fun h1 => by omega
  · have halive : ∀ k, (s.closeHandle i).Alive k ↔
        s.Alive k ∧ (k = i → (∃ x, s.names x = some i) ∨ s.handles i ≠ 1) := by
      intro k
      by_cases hk : k = i
      · subst hk
        simp only [Alive, closeHandle, Function.update_self, forall_const]
        constructor
        · rintro (hn | hp)
          · exact ⟨.inl hn, .inl hn⟩
          · exact ⟨.inr hpos, .inr (by omega)⟩
        · rintro ⟨_, hn | hp⟩
          · exact .inl hn
          · exact .inr (by omega)
      · simp [Alive, closeHandle, hk]
    rw [held_drop_iff (t := s.closeHandle i) h rfl rfl rfl (.inr hpos) halive]
    by_cases h1 : s.handles i = 1 <;> simp [h1]

variable [DecidableEq ν]

/-- After a rename onto `y`, the inodes with a name are those that had one other than `y`. -/
theorem named_moveName {x y : ν} {i : Nat} (hx : s.names x = some i) (hne : s.names y ≠ some i)
    (k : Nat) : (∃ z, (s.moveName x y i).names z = some k) ↔ ∃ z, z ≠ y ∧ s.names z = some k := by
  have hxy : x ≠ y := fun he => hne (he ▸ hx)
  simp only [moveName]
  constructor
  · rintro ⟨z, hz⟩
    by_cases hzy : z = y
    · subst hzy
      rw [Function.update_self] at hz
      exact ⟨x, hxy, hx.trans hz⟩
    · rw [Function.update_of_ne hzy] at hz
      by_cases hzx : z = x
      · subst hzx
        rw [Function.update_self] at hz
        cases hz
      · rw [Function.update_of_ne hzx] at hz
        exact ⟨z, hzy, hz⟩
  · rintro ⟨z, hzy, hz⟩
    by_cases hki : k = i
    · exact ⟨y, by rw [Function.update_self, hki]⟩
    · have hzx : z ≠ x := by
        rintro rfl
        rw [hx] at hz
        exact hki (Option.some.inj hz).symm
      exact ⟨z, by rw [Function.update_of_ne hzy, Function.update_of_ne hzx, hz]⟩

theorem alive_moveName {x y : ν} {i : Nat} (hx : s.names x = some i) (hne : s.names y ≠ some i)
    (k : Nat) :
    (s.moveName x y i).Alive k ↔ (∃ z, z ≠ y ∧ s.names z = some k) ∨ 0 < s.handles k :=
  or_congr_left (named_moveName hx hne k)

theorem held_moveName_of_free (h : Held reserved s) {x y : ν} {i : Nat} (hx : s.names x = some i)
    (hy : s.names y = none) : Held reserved (s.moveName x y i) := by
  have halive : ∀ k, (s.moveName x y i).Alive k ↔ s.Alive k ∧ (k = i → True) := by
    intro k
    rw [alive_moveName hx (by simp [hy])]
    simp only [implies_true, and_true, Alive]
    refine or_congr_left ⟨fun ⟨z, _, hz⟩ => ⟨z, hz⟩, fun ⟨z, hz⟩ => ⟨z, ?_, hz⟩⟩
    rintro rfl
    rw [hy] at hz
    cases hz
  exact (held_drop_iff (t := s.moveName x y i) h rfl rfl rfl (.inl ⟨x, hx⟩) halive).mpr
    (.inl trivial)

theorem held_moveName_iff (h : Held reserved s) {x y : ν} {i j : Nat} (hx : s.names x = some i)
    (hy : s.names y = some j) (hne : i ≠ j) :
    Held reserved (s.moveName x y i) ↔
      (∃ z, z ≠ y ∧ s.names z = some j) ∨ 0 < s.handles j ∨ reserved (s.ino j) := by
  have halive : ∀ k, (s.moveName x y i).Alive k ↔
      s.Alive k ∧ (k = j → (∃ z, z ≠ y ∧ s.names z = some j) ∨ 0 < s.handles j) := by
    intro k
    rw [alive_moveName hx (by simpa [hy] using Ne.symm hne)]
    constructor
    · rintro (⟨z, hzy, hz⟩ | hp)
      · exact ⟨.inl ⟨z, hz⟩, fun he => .inl ⟨z, hzy, he ▸ hz⟩⟩
      · exact ⟨.inr hp, fun he => .inr (he ▸ hp)⟩
    · rintro ⟨⟨z, hz⟩ | hp, hstays⟩
      · by_cases hzy : z = y
        · have hkj : k = j := by
            rw [hzy, hy] at hz
            exact (Option.some.inj hz).symm
          rw [hkj]
          exact hstays hkj
        · exact .inl ⟨z, hzy, hz⟩
      · exact .inr hp
  rw [held_drop_iff (t := s.moveName x y i) h rfl rfl rfl (.inl ⟨y, hy⟩) halive, or_assoc]

theorem alive_instantiate {x : ν} (hx : s.names x = none) (inode : Inode) (m : Machine Volume)
    (k : Nat) :
    ({ s with machine := m }.instantiate x inode).Alive k ↔ k = s.fresh ∨ s.Alive k := by
  simp only [Alive, instantiate]
  constructor
  · rintro (⟨z, hz⟩ | hp)
    · by_cases hzx : z = x
      · subst hzx
        rw [Function.update_self] at hz
        exact .inl (Option.some.inj hz).symm
      · rw [Function.update_of_ne hzx] at hz
        exact .inr (.inl ⟨z, hz⟩)
    · exact .inr (.inr hp)
  · rintro (rfl | ⟨z, hz⟩ | hp)
    · exact .inl ⟨x, Function.update_self ..⟩
    · have hzx : z ≠ x := by
        rintro rfl
        rw [hx] at hz
        cases hz
      exact .inl ⟨z, by rw [Function.update_of_ne hzx, hz]⟩
    · exact .inr hp

theorem held_create (h : Held reserved s) {x : ν} {n : Nat} (hx : s.names x = none)
    (hbit : s.bit n = false) (hn : n ≤ 824) (now : Nat) :
    ∃ inode m, clean (iopsCreate n now) s.machine = some (inode, m) ∧
      Held reserved ({ s with machine := m }.instantiate x inode) := by
  obtain ⟨c, hc⟩ := h.loaded
  obtain ⟨inode, m, hrun, hino, hplenty, hload⟩ := clean_iopsCreate h.plenty hc hn now
  have hlt : n < 1024 := by omega
  refine ⟨inode, m, hrun, ?_⟩
  have halive := alive_instantiate hx inode m
  have hold : ∀ k, s.Alive k → ({ s with machine := m }.instantiate x inode).ino k = s.ino k := by
    intro k hk
    have hne : k ≠ s.fresh := Nat.ne_of_lt (h.lt_fresh k hk)
    simp [ino, instantiate, hne]
  have hnew : ({ s with machine := m }.instantiate x inode).ino s.fresh = n := by
    simp [ino, instantiate, hino]
  have hunused : ∀ k, s.Alive k → s.ino k ≠ n := fun k hk => ino_ne_of_alive h hbit hk
  refine ⟨fun m' => ?_, fun i j hi hj hij => ?_, ⟨_, hload⟩, hplenty, fun i hi => ?_⟩
  · have hmark : ({ s with machine := m }.instantiate x inode).bit m' = true ↔
        m' = n ∨ s.bit m' = true := bit_marked hc hload hlt m'
    rw [hmark, h.bit_iff]
    constructor
    · rintro (rfl | hr | ⟨k, hk, rfl⟩)
      · exact .inr ⟨s.fresh, (halive _).mpr (.inl rfl), hnew⟩
      · exact .inl hr
      · exact .inr ⟨k, (halive k).mpr (.inr hk), hold k hk⟩
    · rintro (hr | ⟨k, hk, rfl⟩)
      · exact .inr (.inl hr)
      · rcases (halive k).mp hk with rfl | hk
        · exact .inl hnew
        · exact .inr (.inr ⟨k, hk, (hold k hk).symm⟩)
  · rcases (halive i).mp hi with rfl | hi <;> rcases (halive j).mp hj with rfl | hj
    · rfl
    · rw [hnew, hold j hj] at hij
      exact absurd hij.symm (hunused j hj)
    · rw [hnew, hold i hi] at hij
      exact absurd hij (hunused i hi)
    · rw [hold i hi, hold j hj] at hij
      exact h.unique i j hi hj hij
  · rcases (halive i).mp hi with rfl | hi
    · exact Nat.lt_succ_self _
    · exact Nat.lt_succ_of_lt (h.lt_fresh i hi)

theorem alive_removeName (x : ν) (m : Machine Volume) (k : Nat) :
    ({ s with machine := m }.removeName x).Alive k ↔
      (∃ z, z ≠ x ∧ s.names z = some k) ∨ 0 < s.handles k := by
  simp only [Alive, removeName]
  refine or_congr_left ⟨fun ⟨z, hz⟩ => ?_, fun ⟨z, hzx, hz⟩ => ⟨z, ?_⟩⟩
  · by_cases hzx : z = x
    · subst hzx
      rw [Function.update_self] at hz
      cases hz
    · rw [Function.update_of_ne hzx] at hz
      exact ⟨z, hzx, hz⟩
  · rw [Function.update_of_ne hzx, hz]

theorem held_unlink_iff (h : Held reserved s) {x : ν} {i : Nat} (hx : s.names x = some i) :
    ∃ m, clean (iopsUnlink (s.inodes i)) s.machine = some ((), m) ∧
      (Held reserved ({ s with machine := m }.removeName x) ↔
        s.handles i = 0 ∧ (∀ y, s.names y = some i → y = x) ∧ ¬ reserved (s.ino i)) := by
  have hi : s.Alive i := .inl ⟨x, hx⟩
  have hlt : (s.inodes i).ino < 1024 := ino_lt_of_alive h hi
  obtain ⟨c, hc⟩ := h.loaded
  obtain ⟨m, hrun, hplenty, hload⟩ := clean_iopsUnlink (s.inodes i) h.plenty hc hlt
  refine ⟨m, hrun, ?_⟩
  have halive := alive_removeName (s := s) x m
  have hsub : ∀ k, ({ s with machine := m }.removeName x).Alive k → s.Alive k := fun k hk =>
    ((halive k).mp hk).imp (fun ⟨z, _, hz⟩ => ⟨z, hz⟩) id
  have hclear : ∀ n, ({ s with machine := m }.removeName x).bit n = true ↔
      n ≠ s.ino i ∧ s.bit n = true := bit_cleared hc hload hlt
  constructor
  · intro ht
    -- the bit is clear, so the inode is not alive any more and its number is not reserved
    have hbit := (hclear (s.ino i)).not.mpr fun hb => hb.1 rfl
    rw [ht.bit_iff, not_or] at hbit
    have hdead : ¬ ({ s with machine := m }.removeName x).Alive i := fun ha =>
      hbit.2 ⟨i, ha, rfl⟩
    rw [halive, not_or] at hdead
    refine ⟨by omega, fun y hy => ?_, hbit.1⟩
    by_contra hne
    exact hdead.1 ⟨y, hne, hy⟩
  · rintro ⟨hz, honly, hres⟩
    have hdead : ¬ ({ s with machine := m }.removeName x).Alive i := by
      rw [halive]
      rintro (⟨z, hne, hz'⟩ | hp)
      · exact hne (honly z hz')
      · omega
    have hkeep : ∀ k, k ≠ i → s.Alive k → ({ s with machine := m }.removeName x).Alive k := by
      intro k hk ha
      rw [halive]
      refine ha.imp (fun ⟨z, hz'⟩ => ⟨z, ?_, hz'⟩) id
      rintro rfl
      rw [hx] at hz'
      exact hk (Option.some.inj hz').symm
    refine held_of_subset h ⟨_, hload⟩ hplenty rfl rfl hsub ?_
    intro n
    rw [hclear, h.bit_iff]
    constructor
    · rintro ⟨hne, hr | ⟨k, hk, rfl⟩⟩
      · exact .inl hr
      · exact .inr ⟨k, hkeep k (fun he => hne (he ▸ rfl)) hk, rfl⟩
    · rintro (hr | ⟨k, hk, rfl⟩)
      · exact ⟨fun he => hres (he ▸ hr), .inl hr⟩
      · refine ⟨fun he => ?_, .inr ⟨k, hsub k hk, rfl⟩⟩
        obtain rfl := h.unique k i (hsub k hk) hi he
        exact hdead hk

theorem clean_iopsRename (m : Machine Volume) : clean iopsRename m = some (0, m) :=
  clean_of_run rfl rfl

/-! ## Sequences of operations -/

theorem step_create_iff (h : Held reserved s) (x : ν) (n now : Nat) :
    (∃ t, s.step (.create x n now) = some t ∧ Held reserved t) ↔
      StepOk reserved s (.create x n now) := by
  simp only [step, StepOk]
  by_cases hallowed : s.names x = none ∧ n < inodesPerBitmap ∧ s.bit n = false
  · obtain ⟨hx, hn, hbit⟩ := hallowed
    rw [if_pos ⟨hx, hn, hbit⟩]
    by_cases hle : n ≤ 824
    · obtain ⟨inode, m, hrun, hheld⟩ := held_create h hx hbit hle now
      rw [hrun]
      exact iff_of_true ⟨_, rfl, hheld⟩ fun _ _ _ => hle
    · obtain ⟨c, hc⟩ := h.loaded
      rw [clean_iopsCreate_eq_none h.plenty hc hn (by omega)]
      exact iff_of_false (by simp) fun hok => hle (hok hx hn hbit)
  · rw [if_neg hallowed]
    exact iff_of_true ⟨s, rfl, h⟩ fun hx hn hbit => absurd ⟨hx, hn, hbit⟩ hallowed

theorem step_rename_iff (h : Held reserved s) (x y : ν) :
    (∃ t, s.step (.rename x y) = some t ∧ Held reserved t) ↔ StepOk reserved s (.rename x y) := by
  simp only [step, StepOk]
  cases hx : s.names x with
  | none => exact iff_of_true ⟨s, rfl, h⟩ fun i j hi => by cases hi
  | some i =>
    by_cases hsame : s.names y = some i
    · refine iff_of_true ⟨s, by simp [hsame], h⟩ ?_
      intro i' j hi hj hne
      rw [hsame] at hj
      exact absurd ((Option.some.inj hi).symm.trans (Option.some.inj hj)) hne
    · cases hy : s.names y with
      | none =>
        refine iff_of_true ⟨s.moveName x y i, ?_, held_moveName_of_free h hx hy⟩
          fun _ j _ hj => by cases hj
        simp [clean_iopsRename]
      | some j =>
        have hne : i ≠ j := fun he => hsame (he ▸ hy)
        have hiff := held_moveName_iff h hx hy hne
        simpa [clean_iopsRename, Ne.symm hne, hne] using hiff

/-- Exactly the operations that meet `StepOk` keep the numbers right. -/
theorem step_held_iff (s : Dir ν) (a : DirAction ν) (h : Held reserved s) :
    (∃ t, s.step a = some t ∧ Held reserved t) ↔ StepOk reserved s a := by
  cases a with
  | create x n now => exact step_create_iff h x n now
  | openFile x =>
    refine iff_of_true ?_ trivial
    simp only [step]
    cases hx : s.names x with
    | none => exact ⟨s, rfl, h⟩
    | some i => exact ⟨_, rfl, held_openHandle h hx⟩
  | close i =>
    simp only [step, StepOk, Option.some.injEq, exists_eq_left']
    exact held_closeHandle_iff h i
  | unlink x =>
    simp only [step, StepOk]
    cases hx : s.names x with
    | none => exact iff_of_true ⟨s, rfl, h⟩ fun i hi => by cases hi
    | some i =>
      obtain ⟨m, hrun, hiff⟩ := held_unlink_iff h hx
      simpa [hrun, eq_comm] using hiff
  | rename x y => exact step_rename_iff h x y

/-- A sequence of operations keeps the numbers right throughout exactly when each create chooses a
number up to 824, no close ends the life of an inode without a name, each unlink takes the last name
of a file that is not open, and each rename replaces only files that stay alive. The numbers of
inodes that are not reserved count. -/
theorem always_held_iff (reserved : Nat → Prop) (s : Dir ν) (h : Held reserved s)
    (as : List (DirAction ν)) :
    Always step (Held reserved) s as ↔ StepsOk step (StepOk reserved) s as :=
  always_iff step_held_iff h as

/-- A bitmap with the numbers 0 and 3. -/
def twoNumbers : Block := Bytes.zero.set 0 0x09

theorem held_twoNumbers (n : Nat) : held twoNumbers n = true ↔ n = 0 ∨ n = 3 := by
  have hsmall : ∀ k < 8, Lib.bit 0x09 (inodeBit k) = true ↔ k = 0 ∨ k = 3 := by decide
  unfold held twoNumbers
  rw [Bytes.test_set _ (by decide)]
  split
  · next hbyte =>
    refine hsmall n ?_
    unfold inodeByte inodeBit at hbyte
    omega
  · next hbyte =>
    rw [Bytes.test_zero]
    refine iff_of_false (by simp) ?_
    rintro (rfl | rfl) <;> exact hbyte rfl

/-- A directory with the file `a`, which has the number 3 and is not open. -/
def oneFile : Dir String where
  machine := ⟨⟨0, fun _ => false, fun _ _ => 0, [], []⟩,
    ⟨fun _ => Bytes.zero, some ⟨0, 1024, twoNumbers.get⟩, none⟩⟩
  names := fun x => if x = "a" then some 0 else none
  handles := fun _ => 0
  inodes := fun _ => inodeOf 3 Bytes.zero
  fresh := 1

theorem alive_oneFile (i : Nat) : oneFile.Alive i ↔ i = 0 := by
  simp [Alive, oneFile, eq_comm]

/-- The root's number is reserved. -/
def rootOnly (n : Nat) : Prop := n = 0

theorem held_oneFile : Held rootOnly oneFile := by
  have hbytes : (Buffer.mk 0 1024 twoNumbers.get).bytes 1024 = twoNumbers := by
    funext i
    simp [Buffer.bytes]
  refine ⟨fun n => ?_, fun i j hi hj _ => ?_, ⟨_, rfl, rfl⟩, fun _ _ => rfl, fun i hi => ?_⟩
  · show held ((Buffer.mk 0 1024 twoNumbers.get).bytes 1024) n = true ↔ _
    rw [hbytes, held_twoNumbers]
    refine or_congr_right ⟨fun h => ⟨0, (alive_oneFile 0).mpr rfl, h.symm⟩, ?_⟩
    rintro ⟨_, _, hn⟩
    exact hn.symm
  · exact ((alive_oneFile i).mp hi).trans ((alive_oneFile j).mp hj).symm
  · rw [(alive_oneFile i).mp hi]
    exact Nat.one_pos

/-- The file is opened and closed, renamed, and then unlinked. -/
def oneLife : List (DirAction String) :=
  [.openFile "a", .close 0, .rename "a" "b", .unlink "b"]

theorem oneLife_ok : StepsOk step (StepOk rootOnly) oneFile oneLife := by
  refine .cons trivial rfl ?_
  refine .cons (fun _ => .inl ⟨"a", rfl⟩) rfl ?_
  refine .cons (fun i j _ hj => ?_) rfl ?_
  · cases hj
  refine ⟨fun i hi => ?_, fun _ _ => trivial⟩
  cases hi
  refine ⟨rfl, fun y hy => ?_, fun h => by cases h⟩
  by_contra hne
  by_cases hya : y = "a" <;>
    simp [moveName, closeHandle, openHandle, oneFile, hya, hne] at hy

theorem held_oneLife : Always step (Held rootOnly) oneFile oneLife :=
  (always_held_iff rootOnly oneFile held_oneFile oneLife).mpr oneLife_ok

/-- An unlink of an open file frees its number: the file is opened, then unlinked, and its number is
free while its inode is alive. -/
theorem unlink_frees_open_number :
    (∃ m, clean (iopsUnlink ((oneFile.openHandle 0).inodes 0)) oneFile.machine = some ((), m) ∧
      ({ oneFile.openHandle 0 with machine := m }.removeName "a").Alive 0 ∧
      ({ oneFile.openHandle 0 with machine := m }.removeName "a").bit 3 = false) ∧
    ¬ ∀ (reserved : Nat → Prop) (s : Dir String), Held reserved s →
      ∀ as, Always step (Held reserved) s as := by
  have hcache : Loaded oneFile.machine ⟨0, 1024, twoNumbers.get⟩ := ⟨rfl, rfl⟩
  obtain ⟨m, hrun, _, hload⟩ := clean_iopsUnlink ((oneFile.openHandle 0).inodes 0)
    held_oneFile.plenty hcache (by decide)
  have halive : ({ oneFile.openHandle 0 with machine := m }.removeName "a").Alive 0 :=
    (alive_removeName ..).mpr (.inr (by decide))
  have hbit : ({ oneFile.openHandle 0 with machine := m }.removeName "a").bit 3 = false := by
    rw [← Bool.not_eq_true]
    exact fun h => ((bit_cleared hcache hload (by decide) 3).mp h).1 rfl
  refine ⟨⟨m, hrun, halive, hbit⟩, ?_⟩
  intro h
  have hstep : step (oneFile.openHandle 0) (.unlink "a") =
      some ({ oneFile.openHandle 0 with machine := m }.removeName "a") := by
    have hname : (oneFile.openHandle 0).names "a" = some 0 := rfl
    have hmachine : (oneFile.openHandle 0).machine = oneFile.machine := rfl
    simp only [step, hname, hmachine, hrun, Option.map_some]
  obtain ⟨_, t₁, ht₁, _, t₂, ht₂, hheld⟩ := h rootOnly oneFile held_oneFile
    [.openFile "a", .unlink "a"]
  cases ht₁
  rw [show step _ (.unlink "a") = _ from hstep] at ht₂
  cases ht₂
  have hset := (hheld.bit_iff 3).mpr (.inr ⟨0, halive, rfl⟩)
  rw [hbit] at hset
  cases hset

end Dir

end Sjfs
