import Sjfs.PlanAB.Links

/-!
# Plans a and b: what a request does to the names

The requests of the VFS to the tree, with the operations behind them, as one relation (`Change`): one
case for each way a request can end, with what was checked before it and what it does to the list of
names and to the directories. The checks are those that the VFS is assumed to make. Link counts are
left to `Links`.

Result: `vfs_change`, everything a request can do to the names.
-/

namespace Sjfs

open Lib

namespace PlanAB

namespace Tree

variable {ν : Type} {s t : Tree ν} {e : Dentry ν} {i j : Nat}

/-- A directory that has not been removed. -/
def AliveDir (s : Tree ν) (i : Nat) : Prop := s.Alive i ∧ s.isDir i = true

/-- A change of an inode that brings nothing back. -/
theorem AliveDir.of_modifyInode {f : Inode → Inode} (h : (s.modifyInode i f).AliveDir j)
    (hmode : ∀ inode, (f inode).mode = inode.mode)
    (hdead : ∀ inode, (f inode).dead = false → inode.dead = false) : s.AliveDir j := by
  obtain ⟨⟨inode, hj, halive⟩, hdir⟩ := h
  rw [isDir_modifyInode hmode] at hdir
  refine ⟨?_, hdir⟩
  rw [modifyInode_inodes] at hj
  split at hj
  · next hji =>
    obtain ⟨old, hold, rfl⟩ := Option.map_eq_some_iff.mp hj
    exact ⟨old, hji ▸ hold, hdead old halive⟩
  · exact ⟨inode, hj, halive⟩

theorem AliveDir.of_incNlink (h : (s.incNlink i).AliveDir j) : s.AliveDir j := by
  unfold incNlink at h
  exact h.of_modifyInode (fun _ => rfl) fun _ => id

theorem AliveDir.of_dropNlink (h : (s.dropNlink i).AliveDir j) : s.AliveDir j := by
  unfold dropNlink at h
  exact h.of_modifyInode (fun _ => rfl) fun _ => id

theorem AliveDir.of_setDead (h : (s.setDead i).AliveDir j) : s.AliveDir j ∧ j ≠ i := by
  unfold setDead at h
  refine ⟨h.of_modifyInode (fun _ => rfl) fun _ hdead => (by cases hdead), ?_⟩
  rintro rfl
  obtain ⟨inode, hj, hdead⟩ := h.1
  rw [modifyInode_inodes, if_pos rfl] at hj
  obtain ⟨old, _, rfl⟩ := Option.map_eq_some_iff.mp hj
  cases hdead

theorem AliveDir.of_addInode {inode : Inode} (h : (s.addInode inode).AliveDir j) :
    j = s.next ∨ s.AliveDir j := by
  by_cases hj : j = s.next
  · exact .inl hj
  · obtain ⟨⟨old, hold, hdead⟩, hdir⟩ := h
    rw [addInode_inodes, if_neg hj] at hold
    exact .inr ⟨⟨old, hold, hdead⟩, isDir_addInode_of_ne inode hj ▸ hdir⟩

@[simp] theorem isDir_incNlink : (s.incNlink i).isDir = s.isDir := isDir_modifyInode fun _ => rfl

@[simp] theorem isDir_setDead : (s.setDead i).isDir = s.isDir := isDir_modifyInode fun _ => rfl

/-! ## Requests -/

/-- The requests that make a new inode, with its name; the flag is for a directory. -/
inductive Makes : Op ν → Nat → ν → Bool → Prop
  | create {dir : Nat} {name : ν} {mode : UInt16} {mem : Bool} :
      Makes (.create dir name mode mem) dir name false
  | mknod {dir : Nat} {name : ν} {mode : UInt16} {mem : Bool} :
      Makes (.mknod dir name mode mem) dir name false
  | mkdir {dir : Nat} {name : ν} {mode : UInt16} {mem : Bool} :
      Makes (.mkdir dir name mode mem) dir name true
  | symlink {dir : Nat} {name : ν} {mem : Bool} {result : Option Errno} :
      Makes (.symlink dir name mem result) dir name false

/-- What `simple_rename` does, when it succeeds, is to change link counts. -/
theorem simpleRename_cases {newDir : Nat} {target : Option (Dentry ν)} {u : Tree ν}
    (h : s.simpleRename e newDir target = (u, none)) :
    (∀ d, target = some d → ∀ x ∈ s.dentries, x.parent ≠ d.inode) ∧ u.dentries = s.dentries ∧
      u.isDir = s.isDir ∧ ∀ i, u.AliveDir i → s.AliveDir i := by
  cases target with
  | none =>
    unfold simpleRename at h
    cases hd : s.isDir e.inode with
    | true =>
      simp only [hd, if_true, Prod.mk.injEq, and_true] at h
      subst h
      exact ⟨fun _ hn => (by cases hn), rfl, by simp, fun i hi => hi.of_incNlink.of_dropNlink⟩
    | false =>
      simp only [hd, Bool.false_eq_true, if_false, Prod.mk.injEq, and_true] at h
      subst h
      exact ⟨fun _ hn => (by cases hn), rfl, rfl, fun _ => id⟩
  | some d =>
    unfold simpleRename at h
    cases hempty : s.simpleEmpty d.inode with
    | false => simp [hempty] at h
    | true =>
      have hin : ∀ d', some d = some d' → ∀ x ∈ s.dentries, x.parent ≠ d'.inode := by
        rintro _ ⟨⟩
        exact parent_ne_of_simpleEmpty hempty
      cases hd : s.isDir e.inode with
      | true =>
        simp only [hempty, hd, if_true, simpleUnlink, Prod.mk.injEq, and_true] at h
        subst h
        exact ⟨hin, rfl, by simp, fun i hi => hi.of_dropNlink.of_dropNlink.of_dropNlink⟩
      | false =>
        simp only [hempty, hd, if_true, Bool.false_eq_true, if_false, simpleUnlink, Prod.mk.injEq,
          and_true] at h
        subst h
        exact ⟨hin, rfl, by simp, fun i hi => hi.of_dropNlink⟩

theorem simpleRename_error {newDir : Nat} {target : Option (Dentry ν)} {u : Tree ν} {err : Errno}
    (h : s.simpleRename e newDir target = (u, some err)) : u = s := by
  unfold simpleRename at h
  cases target with
  | none => simp at h
  | some d =>
    cases hempty : s.simpleEmpty d.inode with
    | false =>
      simp only [hempty, Bool.false_eq_true, if_false, Prod.mk.injEq] at h
      exact h.1.symm
    | true => simp [hempty] at h

section Vfs

variable [DecidableEq ν]

/-- The names without the one that a rename replaces. -/
def without (s : Tree ν) : Option (Dentry ν) → List (Dentry ν)
  | none => s.dentries
  | some d => s.dentries.erase d

/-- What a request does to the names and the directories: one case for each way it can end. -/
inductive Change (s : Tree ν) : Op ν → Tree ν × Option Errno → Prop
  | fail {op : Op ν} {t : Tree ν} {err : Errno} : t.dentries = s.dentries → t.isDir = s.isDir →
      (∀ i, t.AliveDir i → s.AliveDir i) → Change s op (t, some err)
  | make {op : Op ν} {t : Tree ν} {dir : Nat} {name : ν} {isdir : Bool} : Makes op dir name isdir →
      s.lookup dir name = none → s.AliveDir dir → t.dentries = ⟨dir, name, s.next⟩ :: s.dentries →
      (∀ i, i ≠ s.next → t.isDir i = s.isDir i) → t.isDir s.next = isdir →
      (∀ i, t.AliveDir i → i = s.next ∨ s.AliveDir i) → Change s op (t, none)
  | link {t : Tree ν} {inode dir : Nat} {name : ν} : s.lookup dir name = none → s.AliveDir dir →
      s.isDir inode = false → t.dentries = ⟨dir, name, inode⟩ :: s.dentries → t.isDir = s.isDir →
      (∀ i, t.AliveDir i → s.AliveDir i) → Change s (.link inode dir name) (t, none)
  | unlink {t : Tree ν} {dir : Nat} {name : ν} {e : Dentry ν} : s.lookup dir name = some e →
      s.isDir e.inode = false → t.dentries = s.dentries.erase e → t.isDir = s.isDir →
      (∀ i, t.AliveDir i → s.AliveDir i) → Change s (.unlink dir name) (t, none)
  | rmdir {t : Tree ν} {dir : Nat} {name : ν} {e : Dentry ν} : s.lookup dir name = some e →
      (∀ d ∈ s.dentries, d.parent ≠ e.inode) → t.dentries = s.dentries.erase e → t.isDir = s.isDir →
      (∀ i, t.AliveDir i → s.AliveDir i ∧ i ≠ e.inode) → Change s (.rmdir dir name) (t, none)
  | stay {oldDir newDir : Nat} {oldName newName : ν} {e d : Dentry ν} :
      s.lookup oldDir oldName = some e → s.lookup newDir newName = some d → d.inode = e.inode →
      Change s (.rename oldDir oldName newDir newName) (s, none)
  | rename {t : Tree ν} {oldDir newDir : Nat} {oldName newName : ν} {e : Dentry ν} :
      s.lookup oldDir oldName = some e → s.isAncestor e.inode s.dentries.length newDir = false →
      s.AliveDir newDir →
      (∀ d, s.lookup newDir newName = some d → d.inode ≠ e.inode ∧
        ∀ x ∈ s.dentries, x.parent ≠ d.inode) →
      t.dentries = ⟨newDir, newName, e.inode⟩ ::
        (s.without (s.lookup newDir newName)).erase e → t.isDir = s.isDir →
      (∀ i, t.AliveDir i → s.AliveDir i ∧ ∀ d, s.lookup newDir newName = some d → i ≠ d.inode) →
      Change s (.rename oldDir oldName newDir newName) (t, none)

variable {op : Op ν}

theorem change_error (err : Errno) : Change s op (s, some err) :=
  .fail rfl rfl fun _ => id

theorem change_checked {check : Option Errno} {f : Tree ν → Tree ν × Option Errno}
    (hf : check = none → Change s op (f s)) : Change s op (s.checked check f) := by
  cases check with
  | none => exact hf rfl
  | some err => exact change_error err

theorem mayCreate_lookup {dir : Nat} {name : ν} (h : s.mayCreate dir name = none) :
    s.lookup dir name = none := by
  unfold mayCreate at h
  split at h
  · cases h
  · next hnone => simpa using hnone

theorem change_mknod {dir : Nat} {name : ν} {mode : UInt16} {isdir mem : Bool}
    (hop : Makes op dir name isdir) (hmode : sIsdir mode = isdir)
    (hcreate : s.mayCreate dir name = none) : Change s op (s.sjfsMknod dir name mode mem) := by
  cases mem with
  | false => exact change_error _
  | true =>
    rw [sjfsMknod, sjfsGetInode_eq]
    refine .make hop (mayCreate_lookup hcreate) (mayCreate_eq_none hcreate) rfl
      (fun i hi => isDir_addInode_of_ne _ hi) ?_ fun i hi => AliveDir.of_addInode hi
    exact (isDir_addInode_self _).trans ((sIsdir_initOwner ..).trans hmode)

theorem change_mkdir {dir : Nat} {name : ν} {mode : UInt16} {mem : Bool}
    (hop : Makes op dir name true) (hmode : sIsdir (mode ||| sIfdir) = true)
    (hcreate : s.mayCreate dir name = none) : Change s op (s.sjfsMkdir dir name mode mem) := by
  cases mem with
  | false => exact change_error _
  | true =>
    rw [sjfsMkdir, sjfsMknod, sjfsGetInode_eq]
    refine .make hop (mayCreate_lookup hcreate) (mayCreate_eq_none hcreate) rfl ?_ ?_ ?_
    · intro i hi
      rw [isDir_incNlink]
      exact isDir_addInode_of_ne _ hi
    · rw [isDir_incNlink]
      exact (isDir_addInode_self _).trans ((sIsdir_initOwner ..).trans hmode)
    · intro i hi
      exact AliveDir.of_addInode hi.of_incNlink

theorem change_symlink (hs : Linked s) {dir : Nat} {name : ν} {mem : Bool} {result : Option Errno}
    (hop : Makes op dir name false) (hcreate : s.mayCreate dir name = none) :
    Change s op (s.sjfsSymlink dir name mem result) := by
  cases mem with
  | false => exact change_error _
  | true =>
    rw [sjfsSymlink, sjfsGetInode_eq]
    cases result with
    | none =>
      refine .make hop (mayCreate_lookup hcreate) (mayCreate_eq_none hcreate) rfl
        (fun i hi => isDir_addInode_of_ne _ hi) ?_ fun i hi => AliveDir.of_addInode hi
      exact (isDir_addInode_self _).trans (sIsdir_initOwner ..)
    | some err =>
      show Change s op ((s.addInode _).iput s.next, some err)
      rw [iput_addInode_eq hs]
      exact .fail rfl rfl fun _ => id

theorem change_link (inode dir : Nat) (name : ν) :
    Change s (.link inode dir name) (s.vfsLink inode dir name) := by
  refine change_checked fun hcreate => ?_
  cases hi : s.inodes inode with
  | none => exact change_error _
  | some i =>
    simp only
    split
    · exact change_error _
    · next hmode =>
      split
      · exact change_error _
      · exact .link (mayCreate_lookup hcreate) (mayCreate_eq_none hcreate)
          (by simpa [isDir, hi] using hmode) rfl isDir_incNlink
          fun _ hj => AliveDir.of_incNlink hj

theorem change_unlink (dir : Nat) (name : ν) :
    Change s (.unlink dir name) (s.vfsUnlink dir name) := by
  unfold vfsUnlink
  split
  · exact change_error _
  · next e he =>
    refine change_checked fun hdelete => ?_
    exact .unlink he (mayDelete_eq_none hdelete).1 rfl isDir_dropNlink
      fun _ hj => AliveDir.of_dropNlink hj

theorem change_rmdir (dir : Nat) (name : ν) :
    Change s (.rmdir dir name) (s.vfsRmdir dir name) := by
  unfold vfsRmdir
  split
  · exact change_error _
  · next e he =>
    refine change_checked fun hdelete => ?_
    unfold simpleRmdir
    split
    · next hempty =>
      refine .rmdir he (parent_ne_of_simpleEmpty hempty) rfl ?_ ?_
      · simp [simpleUnlink]
      · intro j hj
        obtain ⟨h, hne⟩ := AliveDir.of_setDead hj
        exact ⟨h.of_dropNlink.of_dropNlink.of_dropNlink, hne⟩
    · exact change_error _

/-! A rename. The tree `u` is the one that `simple_rename` leaves. -/

theorem dMove_dentries {u : Tree ν} (h : u.dentries = s.dentries) (e : Dentry ν) (newDir : Nat)
    (newName : ν) (target : Option (Dentry ν)) :
    (u.dMove e newDir newName target).dentries =
      ⟨newDir, newName, e.inode⟩ :: (s.without target).erase e := by
  cases target with
  | none => simp [dMove, dDelete, dInstantiate, without, h]
  | some d =>
    cases hd : u.isDir d.inode <;>
      simp [dMove, dDelete, dInstantiate, without, h, hd, setDead, modifyInode]

theorem isDir_dMove (u : Tree ν) (e : Dentry ν) (newDir : Nat) (newName : ν)
    (target : Option (Dentry ν)) : (u.dMove e newDir newName target).isDir = u.isDir := by
  cases target with
  | none => rfl
  | some d =>
    cases hd : u.isDir d.inode
    · simp only [dMove, hd]
      rfl
    · simp only [dMove, hd, if_true]
      exact isDir_setDead

theorem AliveDir.of_dMove {u : Tree ν} {e : Dentry ν} {newDir : Nat} {newName : ν}
    {target : Option (Dentry ν)} (h : (u.dMove e newDir newName target).AliveDir j) :
    u.AliveDir j ∧ ∀ d, target = some d → j ≠ d.inode := by
  cases target with
  | none => exact ⟨h, fun _ hd => by cases hd⟩
  | some d =>
    cases hd : u.isDir d.inode
    · simp only [dMove, hd] at h
      have hu : u.AliveDir j := h
      refine ⟨hu, ?_⟩
      rintro _ ⟨⟩ rfl
      rw [hu.2] at hd
      cases hd
    · simp only [dMove, hd, if_true] at h
      obtain ⟨hu, hne⟩ := AliveDir.of_setDead h
      exact ⟨hu, fun _ hd => by cases hd; exact hne⟩

/-- A request that gets past the check of the new name has a directory to put it in. -/
theorem aliveDir_of_target (hs : Linked s) {newDir : Nat} {newName : ν} {isdir : Bool}
    (h : (match s.lookup newDir newName with
      | none => s.mayCreate newDir newName
      | some d => s.mayDelete d isdir) = none) : s.AliveDir newDir := by
  cases ht : s.lookup newDir newName with
  | none =>
    rw [ht] at h
    exact mayCreate_eq_none h
  | some d =>
    obtain ⟨hmem, rfl, _⟩ := lookup_eq_some ht
    exact hs.parents d hmem

theorem change_rename (hs : Linked s) (oldDir : Nat) (oldName : ν) (newDir : Nat) (newName : ν) :
    Change s (.rename oldDir oldName newDir newName)
      (s.vfsRename oldDir oldName newDir newName) := by
  unfold vfsRename
  split
  · exact change_error _
  · next e hlookup =>
    simp only
    split
    · exact change_error _
    · next hancestor =>
      split
      · exact change_error _
      · split
        · next hsame =>
          cases ht : s.lookup newDir newName with
          | none => simp [ht] at hsame
          | some d => exact .stay hlookup ht (by simpa [ht] using hsame)
        · next hdiffer =>
          refine change_checked fun _ => change_checked fun hnew => ?_
          cases hr : s.simpleRename e newDir (s.lookup newDir newName) with
          | mk u err =>
            cases err with
            | some err =>
              obtain rfl := simpleRename_error hr
              exact change_error err
            | none =>
              obtain ⟨hempty, hdentries, hdir, halive⟩ := simpleRename_cases hr
              refine .rename hlookup (by simpa using hancestor) (aliveDir_of_target hs hnew) ?_
                (dMove_dentries hdentries ..) ((isDir_dMove ..).trans hdir) ?_
              · intro d hd
                refine ⟨?_, hempty d hd⟩
                simpa [hd] using hdiffer
              · intro i hi
                obtain ⟨hu, hne⟩ := AliveDir.of_dMove hi
                exact ⟨halive i hu, hne⟩

/-- Everything a request can do to the names. -/
theorem vfs_change (hs : Linked s) (op : Op ν) : Change s op (s.vfs op) := by
  cases op with
  | create dir name mode mem =>
    rw [vfs]
    exact change_checked fun h => change_mknod .create (sIsdir_create mode) h
  | mknod dir name mode mem =>
    rw [vfs]
    split
    · exact change_error _
    · next hmode => exact change_checked fun h => change_mknod .mknod (by simpa using hmode) h
  | mkdir dir name mode mem =>
    rw [vfs]
    exact change_checked fun h => change_mkdir .mkdir (sIsdir_mkdir mode) h
  | symlink dir name mem result =>
    rw [vfs]
    exact change_checked fun h => change_symlink hs .symlink h
  | link inode dir name => exact change_link inode dir name
  | unlink dir name => exact change_unlink dir name
  | rmdir dir name => exact change_rmdir dir name
  | rename oldDir oldName newDir newName => exact change_rename hs oldDir oldName newDir newName

end Vfs

end Tree

end PlanAB

end Sjfs
