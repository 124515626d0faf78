import Sjfs.RootDir

/-!
# What the root directory allocates

The objects that `sjfs_iops_create` and `sjfs_iops_unlink` of `kernel_space_module/sjfs.c` allocate
and free, over whole sequences of operations (`Sjfs.RootDir`). Any allocation may fail.

A create allocates two objects: `i_private`, and in `sjfs_set_disk_inode` a buffer for the block.
The buffer is not freed by anybody. `i_private` is freed by the unlink of the file, and not when a
rename replaces the file.

Results:
1. `objects_of_create`, `objects_of_unlink`: what one create and one unlink allocate and free.
2. `objects_run`: after any sequence of operations the `i_private` of every file with a name is
   there, and is that of no other file; so an unlink frees what is allocated, and frees it once. The
   number of objects has grown by one for each create and one for each of their buffers, less one
   for each unlink.
-/

namespace Sjfs

open Lib

/-! ## One operation -/

section Operations

variable {s t : Machine Volume}

/-- The state behind the loads and stores of `stampCtime`. -/
theorem run_stampCtime_private {inode : Inode} {p : Buffer} (hp : inode.iPrivate = some p)
    (now : Nat) :
    ∃ p' : Buffer, p'.id = p.id ∧ (stampCtime inode now).run s =
      .ok ({ inode with ctime := now, iPrivate := some p' },
        s.noted p (offsetOf inodeT .ctime) CType.ulong.size) := by
  refine ⟨{ p with mem := storeLE p.mem (offsetOf inodeT .ctime) CType.ulong.size now }, rfl, ?_⟩
  unfold stampCtime
  rw [hp, run_bind (run_deref p), run_bind (run_touch ..)]
  rfl

/-- The same objects are allocated, and the same allocations will fail. -/
structure SameObjects (m m' : Memory) : Prop where
  live : m'.live = m.live
  allocs : m'.allocs = m.allocs
  fails : m'.fails = m.fails

theorem SameObjects.trans {m m' m'' : Memory} (h : SameObjects m m') (h' : SameObjects m' m'') :
    SameObjects m m'' :=
  ⟨h'.live.trans h.live, h'.allocs.trans h.allocs, h'.fails.trans h.fails⟩

theorem sameObjects_noted (s : Machine Volume) (b : Buffer) (offset len : Nat) :
    SameObjects s.mem (s.noted b offset len).mem :=
  ⟨s.noted_live b offset len, s.noted_allocs b offset len, s.noted_fails b offset len⟩

theorem sameObjects_writeBlock {address : Nat} {b : Buffer} {r : Int}
    (h : (writeBlock address (some b)).run s = .ok (r, t)) : SameObjects s.mem t.mem := by
  unfold writeBlock at h
  rw [run_bind (run_deref b), run_bind (run_touch ..)] at h
  cases h
  exact sameObjects_noted s b 0 blockSize

theorem sameObjects_updateCache {ino : Nat} {update : UInt8 → Nat → UInt8}
    (h : (updateCache ino update).run s = .ok ((), t)) : SameObjects s.mem t.mem := by
  unfold updateCache at h
  rw [run_bind run_get] at h
  cases hc : s.world.inodesBitmapsCache with
  | none =>
    rw [hc, run_bind_error run_deref_null] at h
    cases h
  | some c =>
    rw [hc, run_bind (run_deref c), run_bind (run_touch ..)] at h
    dsimp only at h
    rw [run_bind (run_modify _)] at h
    obtain ⟨r, u, hwrite, h⟩ := exists_of_run_bind h
    cases h
    have hsame := sameObjects_writeBlock hwrite
    exact (sameObjects_noted s c _ _).trans hsame

/-- The objects after the block buffer was asked for. -/
def withBlock (s : Machine Volume) : List Nat :=
  if s.mem.fails s.mem.allocs then s.mem.live else s.mem.allocs :: s.mem.live

/-- `sjfs_set_disk_inode` keeps the object of `i_private`, and the buffer it allocates. -/
theorem objects_of_setDiskInode {inode inode' : Inode} {p : Buffer} (hp : inode.iPrivate = some p)
    {now : Nat} (h : (setDiskInode inode now).run s = .ok (inode', t)) :
    (∃ p', inode'.iPrivate = some p' ∧ p'.id = p.id) ∧ t.mem.live = withBlock s ∧
      t.mem.allocs = s.mem.allocs + 1 := by
  obtain ⟨p', hid, hstamp⟩ := run_stampCtime_private (s := s) hp now
  have hsame := sameObjects_noted s p (offsetOf inodeT .ctime) CType.ulong.size
  generalize hu : s.noted p (offsetOf inodeT .ctime) CType.ulong.size = u at hstamp hsame
  unfold setDiskInode at h
  rw [run_bind hstamp] at h
  dsimp only at h
  cases hfails : u.mem.fails u.mem.allocs with
  | true =>
    rw [run_bind (run_kmalloc_of_fails hfails _), if_pos (by simp)] at h
    cases h
    rw [hsame.fails, hsame.allocs] at hfails
    refine ⟨⟨p', rfl, hid⟩, ?_, ?_⟩
    · rw [withBlock, if_pos hfails]
      exact hsame.live
    · show u.mem.allocs + 1 = _
      rw [hsame.allocs]
  | false =>
    rw [run_bind (run_kmalloc_of_ok hfails _), if_neg (by simp), run_bind (run_readBlock ..)] at h
    dsimp only at h
    rw [if_neg (by decide), run_bind (run_memcpy ..)] at h
    obtain ⟨r, v, hwrite, h⟩ := exists_of_run_bind h
    cases h
    have hlast := (((sameObjects_noted _ _ _ _).trans (sameObjects_noted _ _ _ _)).trans
      (sameObjects_noted _ _ _ _)).trans (sameObjects_writeBlock hwrite)
    rw [hsame.fails, hsame.allocs] at hfails
    refine ⟨⟨p', rfl, hid⟩, ?_, ?_⟩
    · rw [withBlock, if_neg (by simp [hfails]), hlast.live]
      show u.mem.allocs :: u.mem.live = _
      rw [hsame.allocs, hsame.live]
    · rw [hlast.allocs]
      show u.mem.allocs + 1 = _
      rw [hsame.allocs]

/-- A create that comes to its end has allocated `i_private`, and a buffer if there was memory for
it. -/
theorem objects_of_create {n now : Nat} {inode : Inode}
    (h : (iopsCreate n now).run s = .ok (inode, t)) :
    (∃ p, inode.iPrivate = some p ∧ p.id = s.mem.allocs) ∧ t.mem.live = withBlock s.grown ∧
      t.mem.allocs = s.mem.allocs + 2 := by
  unfold iopsCreate at h
  cases hfails : s.mem.fails s.mem.allocs with
  | true =>
    -- without memory the stamp goes to the null pointer
    rw [run_bind (run_kzalloc_of_fails hfails _)] at h
    obtain ⟨_, _, hset, _⟩ := exists_of_run_bind h
    obtain ⟨_, _, hstamp, _⟩ := exists_of_run_bind hset
    cases hstamp
  | false =>
    rw [run_bind (run_kzalloc_of_ok hfails _)] at h
    obtain ⟨inode', u, hset, h⟩ := exists_of_run_bind h
    obtain ⟨⟨_, v⟩, w, hupdate, h⟩ := exists_of_run_bind h
    cases h
    obtain ⟨⟨p, hp, hid⟩, hlive, hallocs⟩ :=
      objects_of_setDiskInode (p := ⟨s.mem.allocs, _, _⟩) rfl hset
    have hsame := sameObjects_updateCache hupdate
    exact ⟨⟨p, hp, hid⟩, hsame.live.trans hlive, hsame.allocs.trans hallocs⟩

/-- An unlink frees `i_private`. -/
theorem objects_of_unlink {inode : Inode} {p : Buffer} (hp : inode.iPrivate = some p)
    (h : (iopsUnlink inode).run s = .ok ((), t)) :
    t.mem.live = s.mem.live.erase p.id ∧ t.mem.allocs = s.mem.allocs := by
  unfold iopsUnlink at h
  obtain ⟨⟨_, v⟩, u, hupdate, h⟩ := exists_of_run_bind h
  rw [hp, run_kfree] at h
  cases h
  have hsame := sameObjects_updateCache hupdate
  exact ⟨congrArg (List.erase · p.id) hsame.live, hsame.allocs⟩

end Operations

/-! ## Sequences of operations -/

namespace Dir

variable {ν : Type} [DecidableEq ν]

/-- The number of objects that are allocated. -/
def objects (s : Dir ν) : Nat := s.machine.mem.live.length

/-- The objects that a create allocates, if the VFS passes it on: `i_private`, and the buffer if
there is memory for it. -/
def allocated (s : Dir ν) : DirAction ν → Nat
  | .create x n _ =>
    if s.names x = none ∧ n < inodesPerBitmap ∧ s.bit n = false then
      if s.machine.mem.fails (s.machine.mem.allocs + 1) then 1 else 2
    else 0
  | _ => 0

/-- One for an unlink that the VFS passes on. -/
def unlinked (s : Dir ν) : DirAction ν → Nat
  | .unlink x => if (s.names x).isSome then 1 else 0
  | _ => 0

/-- The steps as a relation: the file system is not asked, or one of its functions runs to its
end. -/
inductive Step (s : Dir ν) : DirAction ν → Dir ν → Prop
  | kept {a : DirAction ν} {t : Dir ν} : t.names = s.names → t.inodes = s.inodes →
      t.fresh = s.fresh → t.machine = s.machine → s.allocated a = 0 → s.unlinked a = 0 → Step s a t
  | create {x : ν} {n now : Nat} {inode : Inode} {m : Machine Volume} :
      s.names x = none ∧ n < inodesPerBitmap ∧ s.bit n = false →
      clean (iopsCreate n now) s.machine = some (inode, m) →
      Step s (.create x n now) ({ s with machine := m }.instantiate x inode)
  | unlink {x : ν} {i : Nat} {m : Machine Volume} : s.names x = some i →
      clean (iopsUnlink (s.inodes i)) s.machine = some ((), m) →
      Step s (.unlink x) ({ s with machine := m }.removeName x)
  | rename {x y : ν} {i : Nat} : s.names x = some i → s.names y ≠ some i →
      Step s (.rename x y) (s.moveName x y i)

theorem step_cases {s t : Dir ν} {a : DirAction ν} (h : s.step a = some t) : Step s a t := by
  cases a with
  | create x n now =>
    simp only [step] at h
    split at h
    · next hpassed =>
      obtain ⟨⟨inode, m⟩, hclean, rfl⟩ := Option.map_eq_some_iff.mp h
      exact .create hpassed hclean
    · next hrefused =>
      cases h
      exact .kept rfl rfl rfl rfl (if_neg hrefused) rfl
  | openFile x =>
    simp only [step] at h
    split at h <;> cases h <;> exact .kept rfl rfl rfl rfl rfl rfl
  | close i =>
    cases h
    exact .kept rfl rfl rfl rfl rfl rfl
  | unlink x =>
    simp only [step] at h
    split at h
    · next i hx =>
      obtain ⟨⟨⟨⟩, m⟩, hclean, rfl⟩ := Option.map_eq_some_iff.mp h
      exact .unlink hx hclean
    · next hx =>
      cases h
      exact .kept rfl rfl rfl rfl rfl (by simp [unlinked, hx])
  | rename x y =>
    simp only [step] at h
    split at h
    · next i hx =>
      split at h
      · cases h
        exact .kept rfl rfl rfl rfl rfl rfl
      · next hy =>
        rw [clean_iopsRename] at h
        cases h
        exact .rename hx hy
    · cases h
      exact .kept rfl rfl rfl rfl rfl rfl

/-- The `i_private` of a file with a name is allocated, and is that of no other file. -/
structure Owned (s : Dir ν) : Prop where
  old : ∀ k ∈ s.machine.mem.live, k < s.machine.mem.allocs
  nodup : s.machine.mem.live.Nodup
  known : ∀ x i, s.names x = some i → i < s.fresh
  record : ∀ x i, s.names x = some i →
    ∃ p, (s.inodes i).iPrivate = some p ∧ p.id ∈ s.machine.mem.live
  apart : ∀ x y i j p q, s.names x = some i → s.names y = some j → (s.inodes i).iPrivate = some p →
    (s.inodes j).iPrivate = some q → p.id = q.id → x = y

/-- The objects after a create: the new `i_private` in front of the old ones, and perhaps a
buffer. -/
theorem withBlock_grown (m : Machine Volume) :
    withBlock m.grown = if m.mem.fails (m.mem.allocs + 1) then m.mem.allocs :: m.mem.live
      else (m.mem.allocs + 1) :: m.mem.allocs :: m.mem.live := rfl

section Steps

variable {s t : Dir ν}

theorem owned_create (hs : Owned s) {x : ν} {inode : Inode} {p : Buffer} (hx : s.names x = none)
    (hnames : t.names = Function.update s.names x (some s.fresh))
    (hinodes : t.inodes = Function.update s.inodes s.fresh inode) (hfresh : t.fresh = s.fresh + 1)
    (hp : inode.iPrivate = some p) (hid : p.id = s.machine.mem.allocs)
    (hlive : t.machine.mem.live = withBlock s.machine.grown)
    (hallocs : t.machine.mem.allocs = s.machine.mem.allocs + 2) : Owned t := by
  have hnew : s.machine.mem.allocs ∉ s.machine.mem.live := fun h => Nat.lt_irrefl _ (hs.old _ h)
  have hnext : s.machine.mem.allocs + 1 ∉ s.machine.mem.live := by
    intro h
    have := hs.old _ h
    omega
  have hmem : ∀ k, k = s.machine.mem.allocs ∨ k ∈ s.machine.mem.live → k ∈ t.machine.mem.live := by
    intro k hk
    rw [hlive, withBlock_grown]
    split <;> simp_all
  -- a file is the new one, or an old one whose inode is as before
  have hcases : ∀ z i, t.names z = some i → z = x ∧ t.inodes i = inode ∧ i = s.fresh ∨
      z ≠ x ∧ s.names z = some i ∧ t.inodes i = s.inodes i := by
    intro z i hz
    rw [hnames] at hz
    by_cases hzx : z = x
    · subst hzx
      rw [Function.update_self] at hz
      cases hz
      exact .inl ⟨rfl, by rw [hinodes, Function.update_self], rfl⟩
    · rw [Function.update_of_ne hzx] at hz
      have hlt := hs.known z i hz
      exact .inr ⟨hzx, hz, by rw [hinodes, Function.update_of_ne (Nat.ne_of_lt hlt)]⟩
  refine ⟨?_, ?_, ?_, ?_, ?_⟩
  · intro k hk
    have hone : k = s.machine.mem.allocs + 1 ∨ k = s.machine.mem.allocs ∨
        k ∈ s.machine.mem.live := by
      rw [hlive, withBlock_grown] at hk
      split at hk <;> simp only [List.mem_cons] at hk <;> tauto
    rw [hallocs]
    rcases hone with rfl | rfl | hk
    · omega
    · omega
    · have := hs.old k hk
      omega
  · rw [hlive, withBlock_grown]
    split <;> simp [hs.nodup, hnew, hnext]
  · intro z i hz
    rw [hfresh]
    rcases hcases z i hz with ⟨_, _, rfl⟩ | ⟨_, hz, _⟩
    · exact Nat.lt_succ_self _
    · exact Nat.lt_succ_of_lt (hs.known z i hz)
  · intro z i hz
    rcases hcases z i hz with ⟨_, hi, _⟩ | ⟨_, hz, hi⟩
    · exact ⟨p, by rw [hi, hp], hmem _ (.inl hid)⟩
    · obtain ⟨q, hq, hqmem⟩ := hs.record z i hz
      exact ⟨q, by rw [hi, hq], hmem _ (.inr hqmem)⟩
  · -- the number of the new object is larger than all old ones
    have hfar : ∀ z i q, s.names z = some i → (s.inodes i).iPrivate = some q → q.id ≠ p.id := by
      intro z i q hz hq heq
      obtain ⟨q', hq', hmem'⟩ := hs.record z i hz
      obtain rfl : q = q' := Option.some.inj (hq.symm.trans hq')
      rw [heq, hid] at hmem'
      exact hnew hmem'
    intro y z i j q r hy hz hq hr heq
    rcases hcases y i hy with ⟨rfl, hi, _⟩ | ⟨_, hy', hi⟩ <;>
      rcases hcases z j hz with ⟨rfl, hj, _⟩ | ⟨_, hz', hj⟩
    · rfl
    · rw [hi, hp] at hq
      cases hq
      exact absurd heq.symm (hfar z j r hz' (hj ▸ hr))
    · rw [hj, hp] at hr
      cases hr
      exact absurd heq (hfar y i q hy' (hi ▸ hq))
    · exact hs.apart y z i j q r hy' hz' (hi ▸ hq) (hj ▸ hr) heq

theorem owned_unlink (hs : Owned s) {x : ν} {i : Nat} {p : Buffer} (hx : s.names x = some i)
    (hp : (s.inodes i).iPrivate = some p) (hnames : t.names = Function.update s.names x none)
    (hinodes : t.inodes = s.inodes) (hfresh : t.fresh = s.fresh)
    (hlive : t.machine.mem.live = s.machine.mem.live.erase p.id)
    (hallocs : t.machine.mem.allocs = s.machine.mem.allocs) : Owned t := by
  have hother : ∀ z j, t.names z = some j → z ≠ x ∧ s.names z = some j := by
    intro z j hz
    rw [hnames] at hz
    by_cases hzx : z = x
    · subst hzx
      rw [Function.update_self] at hz
      cases hz
    · rw [Function.update_of_ne hzx] at hz
      exact ⟨hzx, hz⟩
  refine ⟨?_, ?_, ?_, ?_, ?_⟩
  · intro k hk
    rw [hlive] at hk
    rw [hallocs]
    exact hs.old k (List.mem_of_mem_erase hk)
  · rw [hlive]
    exact hs.nodup.erase _
  · intro z j hz
    rw [hfresh]
    exact hs.known z j (hother z j hz).2
  · intro z j hz
    obtain ⟨hzx, hz⟩ := hother z j hz
    obtain ⟨q, hq, hmem⟩ := hs.record z j hz
    have hne : q.id ≠ p.id := fun heq => hzx (hs.apart z x j i q p hz hx hq hp heq)
    exact ⟨q, by rw [hinodes, hq], by rw [hlive]; exact (List.mem_erase_of_ne hne).mpr hmem⟩
  · intro y z j k q r hy hz hq hr heq
    rw [hinodes] at hq hr
    exact hs.apart y z j k q r (hother y j hy).2 (hother z k hz).2 hq hr heq

theorem owned_rename (hs : Owned s) {x y : ν} {i : Nat} (hx : s.names x = some i)
    (hy : s.names y ≠ some i)
    (hnames : t.names = Function.update (Function.update s.names x none) y (some i))
    (hinodes : t.inodes = s.inodes) (hfresh : t.fresh = s.fresh)
    (hmachine : t.machine = s.machine) : Owned t := by
  -- the name a file had before
  have hbefore : ∀ z j, t.names z = some j →
      z = y ∧ s.names x = some j ∨ z ≠ y ∧ z ≠ x ∧ s.names z = some j := by
    intro z j hz
    rw [hnames] at hz
    by_cases hzy : z = y
    · subst hzy
      rw [Function.update_self] at hz
      cases hz
      exact .inl ⟨rfl, hx⟩
    · rw [Function.update_of_ne hzy] at hz
      by_cases hzx : z = x
      · subst hzx
        rw [Function.update_self] at hz
        cases hz
      · rw [Function.update_of_ne hzx] at hz
        exact .inr ⟨hzy, hzx, hz⟩
  have hnamed : ∀ z j, t.names z = some j → ∃ w, s.names w = some j := by
    intro z j hz
    rcases hbefore z j hz with ⟨_, h⟩ | ⟨_, _, h⟩
    · exact ⟨x, h⟩
    · exact ⟨z, h⟩
  refine ⟨hmachine ▸ hs.old, hmachine ▸ hs.nodup, ?_, ?_, ?_⟩
  · intro z j hz
    obtain ⟨w, hw⟩ := hnamed z j hz
    rw [hfresh]
    exact hs.known w j hw
  · intro z j hz
    obtain ⟨w, hw⟩ := hnamed z j hz
    rw [hinodes, hmachine]
    exact hs.record w j hw
  · intro z w j k q r hz hw hq hr heq
    rw [hinodes] at hq hr
    rcases hbefore z j hz with ⟨rfl, hz⟩ | ⟨_, hzx, hz⟩ <;>
      rcases hbefore w k hw with ⟨rfl, hw⟩ | ⟨_, hwx, hw⟩
    · rfl
    · exact absurd (hs.apart x w j k q r hz hw hq hr heq).symm hwx
    · exact absurd (hs.apart z x j k q r hz hw hq hr heq) hzx
    · exact hs.apart z w j k q r hz hw hq hr heq

theorem owned_step {a : DirAction ν} (hs : Owned s) (h : Step s a t) :
    Owned t ∧ t.objects + s.unlinked a = s.objects + s.allocated a := by
  cases h with
  | kept hnames hinodes hfresh hmachine hplus hminus =>
    refine ⟨⟨?_, ?_, ?_, ?_, ?_⟩, ?_⟩
    · exact hmachine ▸ hs.old
    · exact hmachine ▸ hs.nodup
    · exact hnames ▸ hfresh ▸ hs.known
    · exact hnames ▸ hinodes ▸ hmachine ▸ hs.record
    · exact hnames ▸ hinodes ▸ hs.apart
    · rw [objects, objects, hmachine, hplus, hminus]
  | @create x n now inode m hpassed hclean =>
    obtain ⟨⟨p, hp, hid⟩, hlive, hallocs⟩ := objects_of_create (clean_eq_some_iff.mp hclean).1
    refine ⟨owned_create hs hpassed.1 rfl rfl rfl hp hid hlive hallocs, ?_⟩
    have hplus : s.allocated (.create x n now) =
        if s.machine.mem.fails (s.machine.mem.allocs + 1) then 1 else 2 := if_pos hpassed
    have hgrown : ({ s with machine := m }.instantiate x inode).objects =
        (withBlock s.machine.grown).length := congrArg List.length hlive
    rw [hgrown, hplus, withBlock_grown, objects]
    split <;> simp [unlinked]
  | @unlink x i m hx hclean =>
    obtain ⟨p, hp, hmem⟩ := hs.record x i hx
    obtain ⟨hlive, hallocs⟩ := objects_of_unlink hp (clean_eq_some_iff.mp hclean).1
    refine ⟨owned_unlink hs hx hp rfl rfl rfl hlive hallocs, ?_⟩
    have hpos := List.length_pos_of_mem hmem
    have hshrunk : ({ s with machine := m }.removeName x).objects =
        (s.machine.mem.live.erase p.id).length := congrArg List.length hlive
    have hminus : s.unlinked (.unlink x) = 1 := by simp [unlinked, hx]
    rw [hshrunk, hminus, List.length_erase_of_mem hmem, objects]
    simp only [allocated]
    omega
  | rename hx hy => exact ⟨owned_rename hs hx hy rfl rfl rfl rfl, rfl⟩

/-- From an empty directory on, whatever allocations fail: every file with a name has its
`i_private`, which no other file has, and the number of objects is what the creates have allocated
less one for each unlink. The buffers of the creates, and the `i_private` of files that a rename
replaced, are still there. -/
theorem objects_run (hempty : ∀ x, s.names x = none)
    (hlive : s.machine.mem.live.Nodup) (hold : ∀ k ∈ s.machine.mem.live, k < s.machine.mem.allocs)
    {as : List (DirAction ν)} (hrun : as.foldlM step s = some t) :
    Owned t ∧
      t.objects + tally step unlinked s as = s.objects + tally step allocated s as := by
  have hs : Owned s := by
    refine ⟨hold, hlive, ?_, ?_, ?_⟩ <;> simp [hempty]
  have hstep : ∀ (s : Dir ν) a t, Owned s → s.step a = some t →
      Owned t ∧ t.objects + s.unlinked a = s.objects + s.allocated a :=
    fun _ _ _ hs h => owned_step hs (step_cases h)
  exact balance hstep hs hrun

end Steps

/-- An empty directory, with the bitmap loaded and one object allocated for it. -/
def noFiles : Dir String where
  machine := ⟨⟨1, fun _ => false, fun _ _ => 0, [0], []⟩,
    ⟨fun _ => Bytes.zero, some ⟨0, 1024, fun _ => 0⟩, none⟩⟩
  names := fun _ => none
  handles := fun _ => 0
  inodes := fun _ => Inode.fresh
  fresh := 0

/-- Two files are made, one is renamed over the other and then unlinked. -/
def twoFiles : List (DirAction String) :=
  [.create "a" 3 7, .create "b" 5 7, .rename "a" "b", .unlink "b"]

/-- Three objects are left that nobody refers to: two buffers, and the `i_private` of the file that
was replaced. -/
theorem objects_twoFiles :
    ∃ t, twoFiles.foldlM step noFiles = some t ∧ t.machine.mem.live = [4, 3, 2, 0] ∧ Owned t ∧
      t.objects + tally step unlinked noFiles twoFiles =
        noFiles.objects + tally step allocated noFiles twoFiles := by
  have hrun : ∃ t, twoFiles.foldlM step noFiles = some t ∧ t.machine.mem.live = [4, 3, 2, 0] :=
    ⟨_, rfl, rfl⟩
  obtain ⟨t, ht, hlive⟩ := hrun
  exact ⟨t, ht, hlive, objects_run (fun _ => rfl) (by decide) (by decide) ht⟩

end Dir

end Sjfs
