import Sjfs.PlanAB.Names

/-!
# The file system in memory

`ramfs_test/sjfs_ram.c`. Its functions are those of plans a and b (`Sjfs.PlanAB.Tree`) under other
names, with lines that print in between, but two: `ramfs2_mkdir` and `ramfs2_symlink` fail with
`-ENOSPC` before they do anything. Libfs and the VFS are assumed to behave as there.

Results:
1. `run_eq`: a run is one of the full tree with the requests for directories and symlinks left out.
2. `flat_run`: all files are in the root, the root keeps its two links, a file has a link for each
   of its names, as far as 32 bits go, and a request for a directory or a symlink changes nothing.

Left out, as for the plans: times, owners, `i_ino`, the tables of operations and the permissions.
-/

namespace Sjfs

open Lib

namespace Ram

open PlanAB PlanAB.Tree

/-! ## The code -/

section Code

variable {ν : Type}

/-- `ramfs2_get_inode`. -/
def ramfs2GetInode (s : PlanAB.Tree ν) (dir : Option Nat) (mode : UInt16) (mem : Bool) :
    PlanAB.Tree ν × Option Nat :=
  s.sjfsGetInode dir mode mem

/-- `ramfs2_mknod`. -/
def ramfs2Mknod (s : PlanAB.Tree ν) (dir : Nat) (name : ν) (mode : UInt16) (mem : Bool) :
    PlanAB.Tree ν × Option Errno :=
  match ramfs2GetInode s (some dir) mode mem with
  | (s, some i) => (s.dInstantiate ⟨dir, name, i⟩, none)
  | (s, none) => (s, some .nospc)

/-- `ramfs2_create`. -/
def ramfs2Create (s : PlanAB.Tree ν) (dir : Nat) (name : ν) (mode : UInt16) (mem : Bool) :
    PlanAB.Tree ν × Option Errno :=
  ramfs2Mknod s dir name (mode ||| PlanAB.sIfreg) mem

/-- `ramfs2_mkdir`. -/
def ramfs2Mkdir (s : PlanAB.Tree ν) (_dir : Nat) (_name : ν) (_mode : UInt16) :
    PlanAB.Tree ν × Option Errno :=
  (s, some .nospc)

/-- `ramfs2_symlink`. -/
def ramfs2Symlink (s : PlanAB.Tree ν) (_dir : Nat) (_name : ν) : PlanAB.Tree ν × Option Errno :=
  (s, some .nospc)

/-- `sjfs_fill_super`. -/
def sjfsFillSuper (mem : Bool) : Except Errno (PlanAB.Tree ν) :=
  match ramfs2GetInode ⟨[], fun _ => none, root⟩ none (sIfdir ||| 0o755) mem with
  | (s, some _) => .ok s
  | (_, none) => .error .nomem

variable [DecidableEq ν]

/-- One request to the VFS, with the operations of `sjfs_dir_inode_operations`. -/
def vfs (s : PlanAB.Tree ν) : Op ν → PlanAB.Tree ν × Option Errno
  | .create dir name mode mem => s.checked (s.mayCreate dir name) fun s =>
    ramfs2Create s dir name (mode &&& sIallugo ||| PlanAB.sIfreg) mem
  | .mknod dir name mode mem =>
    if sIsdir mode then (s, some .perm)
    else s.checked (s.mayCreate dir name) fun s => ramfs2Mknod s dir name mode mem
  | .mkdir dir name mode _ => s.checked (s.mayCreate dir name) fun s =>
    ramfs2Mkdir s dir name (mode &&& (sIrwxugo ||| sIsvtx))
  | .symlink dir name _ _ => s.checked (s.mayCreate dir name) fun s => ramfs2Symlink s dir name
  | .link inode dir name => s.vfsLink inode dir name
  | .unlink dir name => s.vfsUnlink dir name
  | .rmdir dir name => s.vfsRmdir dir name
  | .rename oldDir oldName newDir newName => s.vfsRename oldDir oldName newDir newName

def run (s : PlanAB.Tree ν) (ops : List (Op ν)) : PlanAB.Tree ν :=
  ops.foldl (fun s op => (vfs s op).1) s

end Code

/-! ## What one level is -/

section Shape

variable {ν : Type} {s : PlanAB.Tree ν}

/-- No entry is a directory. -/
def NoDirs (s : PlanAB.Tree ν) : Prop := ∀ e ∈ s.dentries, s.isDir e.inode = false

/-- What holds after every request: the full tree is in order, and has one level. -/
structure OneLevel (s : PlanAB.Tree ν) : Prop where
  linked : Linked s
  distinct : Distinct s
  connected : Connected s
  noDirs : NoDirs s

/-- All entries are files in the root, under different names, and the links are counted right, as
32-bit numbers. -/
structure Flat (s : PlanAB.Tree ν) : Prop where
  entries : ∀ e ∈ s.dentries, e.parent = root ∧ s.isDir e.inode = false
  names : (s.dentries.map Dentry.name).Nodup
  rootLinks : ∃ inode, s.inodes root = some inode ∧ inode.nlink = 2
  fileLinks : ∀ e ∈ s.dentries, ∃ inode, s.inodes e.inode = some inode ∧
    Counts inode.nlink (Lib.names Dentry.inode s.dentries e.inode)

/-- The root is the only directory that has not been removed. -/
theorem OneLevel.eq_root (hs : OneLevel s) {i : Nat} (hi : s.AliveDir i) : i = root := by
  have hdirs : s.dirs = [] :=
    List.filter_eq_nil_iff.mpr fun e he => by simp [hs.noDirs e he]
  have hunder := hs.connected i hi
  rw [Tree.Under, hdirs] at hunder
  cases hunder with
  | refl => rfl
  | tail _ hedge =>
    obtain ⟨e, he, _⟩ := hedge
    cases he

theorem OneLevel.flat (hs : OneLevel s) : Flat s := by
  have hparent : ∀ e ∈ s.dentries, e.parent = root :=
    fun e he => hs.eq_root (hs.linked.parents e he)
  refine ⟨fun e he => ⟨hparent e he, hs.noDirs e he⟩, ?_, ?_, ?_⟩
  · -- the names are different because the pairs of directory and name are
    refine (List.nodup_map_iff_inj_on (List.Nodup.of_map _ hs.distinct)).mpr ?_
    intro e he e' he' hname
    refine hs.distinct.eq he he' ?_
    rw [hparent e he, hparent e' he', hname]
  · obtain ⟨inode, hi, hcounts, _⟩ := hs.linked.counts hs.linked.root.1
    refine ⟨inode, hi, ?_⟩
    have hnone : subdirs Dentry.parent Dentry.inode s.isDir s.dentries root = 0 :=
      List.countP_eq_zero.mpr fun e he => by simp [hs.noDirs e he]
    rw [hcounts, Tree.links, Lib.links, if_pos hs.linked.root.2, hnone]
    rfl
  · intro e he
    obtain ⟨inode, hi, hcounts⟩ := hs.linked.counts (hs.linked.children e he)
    refine ⟨inode, hi, ?_⟩
    rwa [Tree.links, Lib.links, if_neg (by simp [hs.noDirs e he])] at hcounts

theorem oneLevel_fillSuper {mem : Bool} {s₀ : PlanAB.Tree ν} (h : sjfsFillSuper mem = .ok s₀) :
    OneLevel s₀ := by
  have hfill : Tree.sjfsFillSuper mem = .ok s₀ := h
  obtain ⟨hs, hd, hconn⟩ := shape_fillSuper hfill
  refine ⟨hs, hd, hconn, ?_⟩
  rw [sjfsFillSuper_eq hfill]
  intro e he
  cases he

end Shape

/-! ## The full tree -/

/-- The requests that are refused. -/
def refused {ν : Type} : Op ν → Bool
  | .mkdir _ _ _ _ | .symlink _ _ _ _ => true
  | _ => false

variable {ν : Type} [DecidableEq ν] {s : PlanAB.Tree ν} {op : Op ν}

theorem vfs_of_refused (h : refused op = true) : ∃ err, vfs s op = (s, some err) := by
  cases op with
  | mkdir dir name | symlink dir name =>
    cases hc : s.mayCreate dir name with
    | none => exact ⟨.nospc, by simp [vfs, checked, hc, ramfs2Mkdir, ramfs2Symlink]⟩
    | some err => exact ⟨err, by simp [vfs, checked, hc]⟩
  | _ => cases h

theorem vfs_of_not_refused (h : refused op = false) : vfs s op = s.vfs op := by
  cases op with
  | mkdir | symlink => cases h
  | _ => rfl

/-- A run is one of the full tree, without the requests that are refused. -/
theorem run_eq (s : PlanAB.Tree ν) (ops : List (Op ν)) :
    run s ops = s.run (ops.filter fun op => !refused op) := by
  induction ops generalizing s with
  | nil => rfl
  | cons op ops ih =>
    have hcons : run s (op :: ops) = run (vfs s op).1 ops := rfl
    rw [hcons, ih]
    cases hr : refused op with
    | true =>
      obtain ⟨err, hvfs⟩ := vfs_of_refused (s := s) hr
      rw [hvfs, List.filter_cons_of_neg (by simp [hr])]
    | false =>
      rw [vfs_of_not_refused hr, List.filter_cons_of_pos (by simp [hr])]
      rfl

/-! ## One level -/

theorem noDirs_change {t : PlanAB.Tree ν} {r : Option Errno} (hs : Linked s) (hd : Distinct s)
    (hn : NoDirs s) (hop : refused op = false) (h : Change s op (t, r)) : NoDirs t := by
  cases h with
  | fail hdentries hdir =>
    rw [NoDirs, hdentries, hdir]
    exact hn
  | make hmakes _ _ hdentries hkept hnew =>
    rw [NoDirs, hdentries]
    intro e he
    rcases List.mem_cons.mp he with rfl | he
    · cases hmakes with
      | create | mknod => exact hnew
      | mkdir | symlink => cases hop
    · rw [hkept e.inode (Nat.ne_of_lt (Alive.lt_next hs (hs.children e he)))]
      exact hn e he
  | link _ _ hfile hdentries hdir =>
    rw [NoDirs, hdentries, hdir]
    intro e he
    rcases List.mem_cons.mp he with rfl | he
    · exact hfile
    · exact hn e he
  | unlink _ _ hdentries hdir | rmdir _ _ hdentries hdir =>
    rw [NoDirs, hdentries, hdir]
    exact fun e he => hn e (List.mem_of_mem_erase he)
  | stay => exact hn
  | @rename _ _ _ _ _ old hlookup _ _ _ hdentries hdir =>
    rw [NoDirs, hdentries, hdir]
    intro e he
    rcases List.mem_cons.mp he with rfl | he
    · exact hn old (lookup_eq_some hlookup).1
    · exact hn e ((mem_without_iff hd).mp (List.mem_of_mem_erase he)).1

theorem oneLevel_run (hs : OneLevel s) {ops : List (Op ν)} (hops : ∀ op ∈ ops, refused op = false) :
    OneLevel (s.run ops) := by
  induction ops generalizing s with
  | nil => exact hs
  | cons op ops ih =>
    have h := vfs_change hs.linked op
    have hop := hops op List.mem_cons_self
    refine ih ⟨(keeps_vfs hs.linked op).1, distinct_change hs.distinct h,
      connected_change hs.linked hs.connected h, ?_⟩ fun o ho => hops o (List.mem_cons_of_mem op ho)
    exact noDirs_change hs.linked hs.distinct hs.noDirs hop h

/-- The requests that are about directories and symlinks. -/
def aboutDirs : Op ν → Bool
  | .mkdir _ _ _ _ | .symlink _ _ _ _ | .rmdir _ _ => true
  | _ => false

/-- There is nothing that could be removed as a directory. -/
theorem OneLevel.rmdir (hs : OneLevel s) (dir : Nat) (name : ν) :
    ∃ err, vfs s (.rmdir dir name) = (s, some err) := by
  show ∃ err, s.vfsRmdir dir name = (s, some err)
  unfold vfsRmdir
  cases hl : s.lookup dir name with
  | none => exact ⟨.noent, rfl⟩
  | some e =>
    have hfile := hs.noDirs e (lookup_eq_some hl).1
    exact ⟨.notdir, by simp [mayDelete, hfile, checked]⟩

/-- After any sequence of requests to a new file system all files are in the root, the root has its
two links, a file with fewer than 2^32 names has a link for each of them, and a request to make or
remove a directory or to make a symlink fails and changes nothing. -/
theorem flat_run {mem : Bool} {s₀ : PlanAB.Tree ν} (h : sjfsFillSuper mem = .ok s₀)
    (ops : List (Op ν)) :
    Flat (run s₀ ops) ∧ ∀ op, aboutDirs op = true →
      ∃ err, vfs (run s₀ ops) op = (run s₀ ops, some err) := by
  have hlevel : OneLevel (run s₀ ops) := by
    rw [run_eq]
    refine oneLevel_run (oneLevel_fillSuper h) ?_
    intro op hop
    simpa using (List.mem_filter.mp hop).2
  refine ⟨hlevel.flat, ?_⟩
  intro op hop
  cases op with
  | mkdir | symlink => exact vfs_of_refused rfl
  | rmdir dir name => exact hlevel.rmdir dir name
  | _ => cases hop

/-- A file with two names, one of them moved over another file, and an attempt at a directory. -/
def someOps : List (Op String) :=
  [.create root "a" 0o644 true, .mkdir root "d" 0o755 true, .link 1 root "b",
    .create root "c" 0o644 true, .rename root "b" root "c"]

theorem flat_someOps :
    ∃ s₀ : PlanAB.Tree String, sjfsFillSuper true = .ok s₀ ∧ Flat (run s₀ someOps) ∧
      (run s₀ someOps).dentries = [⟨root, "c", 1⟩, ⟨root, "a", 1⟩] ∧
      ((run s₀ someOps).inodes 1).map PlanAB.Inode.nlink = some 2 := by
  have hroot : sjfsFillSuper (ν := String) true =
      .ok (addInode ⟨[], fun _ => none, root⟩ ⟨sIfdir ||| 0o755, 2, false⟩) := rfl
  exact ⟨_, hroot, (flat_run hroot someOps).1, by decide, by decide⟩

end Ram

end Sjfs
