import Sjfs.Lib.LinkCount
import Mathlib.Logic.Function.Basic

/-!
# Plans a and b: the directory tree

`sjfs_get_inode`, `sjfs_mknod`, `sjfs_mkdir`, `sjfs_create`, `sjfs_symlink` and `sjfs_fill_super`,
which are the same in `backup_plans/a/sjfs.c` and `backup_plans/b/sjfs.c`, with the functions of libfs
that their tables of operations name (`simple_link`, `simple_unlink`, `simple_rmdir`,
`simple_rename`), and the checks that the VFS makes before it calls them (`Tree.vfs`).

Libfs and the VFS are kernel code and no part of the repository. The definitions here of
`simpleLink`, `simpleUnlink`, `simpleRmdir` and `simpleRename`, of `mayCreate` and `mayDelete`, of
`isAncestor`, `dMove`, `dDelete` and of `vfs` with the requests it is made of are what that code is
assumed to do.

A name is a dentry, and an inode is known by its place in the order of allocation. A removed
directory, and a file that has lost its last name, may still be open, so they stay. An operation
returns `none` for 0 and `some` error otherwise; whether `new_inode` finds memory and what
`page_symlink` returns are part of the request.

Left out: times, owners, `i_ino`, the tables of operations, and the permissions that the VFS checks.
-/

namespace Sjfs

open Lib

namespace PlanAB

/-! ## Modes -/

/-- `S_IFMT`. -/
def sIfmt : UInt16 := 0o170000

/-- `S_IFDIR`. -/
def sIfdir : UInt16 := 0o040000

/-- `S_IFREG`. -/
def sIfreg : UInt16 := 0o100000

/-- `S_IFLNK`. -/
def sIflnk : UInt16 := 0o120000

/-- `S_ISGID`. -/
def sIsgid : UInt16 := 0o002000

/-- `S_IALLUGO`. -/
def sIallugo : UInt16 := 0o007777

/-- `S_IRWXUGO`. -/
def sIrwxugo : UInt16 := 0o000777

/-- `S_ISVTX`. -/
def sIsvtx : UInt16 := 0o001000

/-- `S_ISDIR(mode)`. -/
def sIsdir (mode : UInt16) : Bool := mode &&& sIfmt == sIfdir

/-! ## The tree -/

structure Inode where
  mode : UInt16
  nlink : UInt32
  /-- `S_DEAD`: a removed directory. -/
  dead : Bool
deriving DecidableEq, Repr

structure Dentry (ν : Type) where
  parent : Nat
  name : ν
  inode : Nat
deriving DecidableEq, Repr

structure Tree (ν : Type) where
  dentries : List (Dentry ν)
  inodes : Nat → Option Inode
  /-- The number of inodes allocated so far; the next one gets this number. -/
  next : Nat

/-- What the operations fail with. -/
inductive Errno
  | perm
  | noent
  | exist
  | notdir
  | isdir
  | inval
  | nospc
  | nomem
  | notempty
  /-- An error of `page_symlink`. -/
  | symlink (code : Nat)
deriving DecidableEq, Repr

namespace Tree

variable {ν : Type}

def isDir (s : Tree ν) (i : Nat) : Bool := (s.inodes i).any fun inode => sIsdir inode.mode

def modifyInode (s : Tree ν) (i : Nat) (f : Inode → Inode) : Tree ν :=
  { s with inodes := Function.update s.inodes i ((s.inodes i).map f) }

/-- `inc_nlink(inode)`. -/
def incNlink (s : Tree ν) (i : Nat) : Tree ν :=
  s.modifyInode i fun inode => { inode with nlink := inode.nlink + 1 }

/-- `drop_nlink(inode)`. -/
def dropNlink (s : Tree ν) (i : Nat) : Tree ν :=
  s.modifyInode i fun inode => { inode with nlink := inode.nlink - 1 }

/-- `d_instantiate(dentry, inode)`, and the `dget` that keeps the name. -/
def dInstantiate (s : Tree ν) (e : Dentry ν) : Tree ν := { s with dentries := e :: s.dentries }

/-- The last `iput(inode)`. -/
def iput (s : Tree ν) (i : Nat) : Tree ν := { s with inodes := Function.update s.inodes i none }

/-- A new inode, under the next number. -/
def addInode (s : Tree ν) (inode : Inode) : Tree ν :=
  { s with inodes := Function.update s.inodes s.next (some inode), next := s.next + 1 }

/-! ## Creating -/

/-- The mode that `inode_init_owner(inode, dir, mode)` sets. -/
def initOwner (s : Tree ν) (dir : Option Nat) (mode : UInt16) : UInt16 :=
  match dir.bind s.inodes with
  | none => mode
  | some d => if d.mode &&& sIsgid ≠ 0 ∧ sIsdir mode = true then mode ||| sIsgid else mode

/-- `sjfs_get_inode`; `mem` says that `new_inode` found memory. A new inode has one link. -/
def sjfsGetInode (s : Tree ν) (dir : Option Nat) (mode : UInt16) (mem : Bool) :
    Tree ν × Option Nat :=
  if mem then
    let inode : Inode := ⟨s.initOwner dir mode, 1, false⟩
    let inode := if mode &&& sIfmt = sIfdir then { inode with nlink := inode.nlink + 1 } else inode
    (s.addInode inode, some s.next)
  else (s, none)

/-- `sjfs_mknod`. -/
def sjfsMknod (s : Tree ν) (dir : Nat) (name : ν) (mode : UInt16) (mem : Bool) :
    Tree ν × Option Errno :=
  match s.sjfsGetInode (some dir) mode mem with
  | (s, some i) => (s.dInstantiate ⟨dir, name, i⟩, none)
  | (s, none) => (s, some .nospc)

/-- `sjfs_mkdir`. -/
def sjfsMkdir (s : Tree ν) (dir : Nat) (name : ν) (mode : UInt16) (mem : Bool) :
    Tree ν × Option Errno :=
  match s.sjfsMknod dir name (mode ||| sIfdir) mem with
  | (s, none) => (s.incNlink dir, none)
  | (s, some e) => (s, some e)

/-- `sjfs_create`. -/
def sjfsCreate (s : Tree ν) (dir : Nat) (name : ν) (mode : UInt16) (mem : Bool) :
    Tree ν × Option Errno :=
  s.sjfsMknod dir name (mode ||| sIfreg) mem

/-- `sjfs_symlink`; `result` is what `page_symlink` returns. -/
def sjfsSymlink (s : Tree ν) (dir : Nat) (name : ν) (mem : Bool) (result : Option Errno) :
    Tree ν × Option Errno :=
  match s.sjfsGetInode (some dir) (sIflnk ||| sIrwxugo) mem with
  | (s, none) => (s, some .nospc)
  | (s, some i) => match result with
    | none => (s.dInstantiate ⟨dir, name, i⟩, none)
    | some e => (s.iput i, some e)

/-- The number of the root inode. -/
def root : Nat := 0

/-- `sjfs_fill_super`; without memory for the root there is no tree. -/
def sjfsFillSuper (mem : Bool) : Except Errno (Tree ν) :=
  match sjfsGetInode ⟨[], fun _ => none, root⟩ none (sIfdir ||| 0o755) mem with
  | (s, some _) => .ok s
  | (_, none) => .error .nomem

/-! ## Functions of libfs -/

/-- `simple_empty(dentry)`. -/
def simpleEmpty (s : Tree ν) (i : Nat) : Bool := s.dentries.all fun e => e.parent != i

/-- `simple_link(old_dentry, dir, dentry)`. -/
def simpleLink (s : Tree ν) (inode dir : Nat) (name : ν) : Tree ν × Option Errno :=
  ((s.incNlink inode).dInstantiate ⟨dir, name, inode⟩, none)

/-- `simple_unlink(dir, dentry)`. -/
def simpleUnlink (s : Tree ν) (e : Dentry ν) : Tree ν × Option Errno := (s.dropNlink e.inode, none)

/-- `simple_rmdir(dir, dentry)`. -/
def simpleRmdir (s : Tree ν) (e : Dentry ν) : Tree ν × Option Errno :=
  if s.simpleEmpty e.inode then
    ((((s.dropNlink e.inode).simpleUnlink e).1.dropNlink e.parent), none)
  else (s, some .notempty)

/-- `simple_rename(old_dir, old_dentry, new_dir, new_dentry)`; `target` is the new dentry when it has an
inode. -/
def simpleRename (s : Tree ν) (e : Dentry ν) (newDir : Nat) (target : Option (Dentry ν)) :
    Tree ν × Option Errno :=
  let theyAreDirs := s.isDir e.inode
  match target with
  | some t =>
    if s.simpleEmpty t.inode then
      let s := (s.simpleUnlink t).1
      (if theyAreDirs then (s.dropNlink t.inode).dropNlink e.parent else s, none)
    else (s, some .notempty)
  | none => (if theyAreDirs then (s.dropNlink e.parent).incNlink newDir else s, none)

/-! ## The VFS -/

section Vfs

variable [DecidableEq ν]

def lookup (s : Tree ν) (dir : Nat) (name : ν) : Option (Dentry ν) :=
  s.dentries.find? fun e => e.parent = dir ∧ e.name = name

/-- The name is no longer there. -/
def dDelete (s : Tree ν) (e : Dentry ν) : Tree ν := { s with dentries := s.dentries.erase e }

/-- The directory `i` is marked with `S_DEAD`. -/
def setDead (s : Tree ν) (i : Nat) : Tree ν :=
  s.modifyInode i fun inode => { inode with dead := true }

/-- `dir` is a directory that has not been removed. -/
def checkDir (s : Tree ν) (dir : Nat) : Option Errno :=
  match s.inodes dir with
  | none => some .noent
  | some d => if !sIsdir d.mode then some .notdir else if d.dead then some .noent else none

/-- `may_create(dir, dentry)`. -/
def mayCreate (s : Tree ν) (dir : Nat) (name : ν) : Option Errno :=
  if (s.lookup dir name).isSome then some .exist else s.checkDir dir

/-- `may_delete(dir, dentry, isdir)`. -/
def mayDelete (s : Tree ν) (e : Dentry ν) (isdir : Bool) : Option Errno :=
  if isdir && !s.isDir e.inode then some .notdir
  else if !isdir && s.isDir e.inode then some .isdir
  else s.checkDir e.parent

/-- `a` is the directory `d`, or one that `d` is in, at most `n` levels up. -/
def isAncestor (s : Tree ν) (a : Nat) : Nat → Nat → Bool
  | 0, d => d == a
  | n + 1, d => d == a || match s.dentries.find? fun e => e.inode = d with
    | none => false
    | some e => isAncestor s a n e.parent

inductive Op (ν : Type)
  | create (dir : Nat) (name : ν) (mode : UInt16) (mem : Bool)
  | mknod (dir : Nat) (name : ν) (mode : UInt16) (mem : Bool)
  | mkdir (dir : Nat) (name : ν) (mode : UInt16) (mem : Bool)
  | symlink (dir : Nat) (name : ν) (mem : Bool) (result : Option Errno)
  | link (inode dir : Nat) (name : ν)
  | unlink (dir : Nat) (name : ν)
  | rmdir (dir : Nat) (name : ν)
  | rename (oldDir : Nat) (oldName : ν) (newDir : Nat) (newName : ν)

/-- `f`, unless a check has failed. -/
def checked (s : Tree ν) (check : Option Errno) (f : Tree ν → Tree ν × Option Errno) :
    Tree ν × Option Errno :=
  match check with
  | some e => (s, some e)
  | none => f s

/-- `f`, and when it succeeds, `g`. -/
def andThen (r : Tree ν × Option Errno) (g : Tree ν → Tree ν) : Tree ν × Option Errno :=
  match r with
  | (s, none) => (g s, none)
  | (s, some e) => (s, some e)

/-- `vfs_link`. -/
def vfsLink (s : Tree ν) (inode dir : Nat) (name : ν) : Tree ν × Option Errno :=
  s.checked (s.mayCreate dir name) fun s => match s.inodes inode with
    | none => (s, some .noent)
    | some i =>
      if sIsdir i.mode then (s, some .perm)
      else if i.nlink = 0 then (s, some .noent)
      else s.simpleLink inode dir name

/-- `vfs_unlink`. -/
def vfsUnlink (s : Tree ν) (dir : Nat) (name : ν) : Tree ν × Option Errno :=
  match s.lookup dir name with
  | none => (s, some .noent)
  | some e => s.checked (s.mayDelete e false) fun s => andThen (s.simpleUnlink e) (dDelete · e)

/-- `vfs_rmdir`. -/
def vfsRmdir (s : Tree ν) (dir : Nat) (name : ν) : Tree ν × Option Errno :=
  match s.lookup dir name with
  | none => (s, some .noent)
  | some e => s.checked (s.mayDelete e true) fun s =>
    andThen (s.simpleRmdir e) fun s => (s.setDead e.inode).dDelete e

/-- `d_move`, and `S_DEAD` for a directory that is replaced. -/
def dMove (s : Tree ν) (e : Dentry ν) (newDir : Nat) (newName : ν) (target : Option (Dentry ν)) :
    Tree ν :=
  let s := match target with
    | some t => (if s.isDir t.inode then s.setDead t.inode else s).dDelete t
    | none => s
  (s.dDelete e).dInstantiate ⟨newDir, newName, e.inode⟩

/-- `renameat` and `vfs_rename`. -/
def vfsRename (s : Tree ν) (oldDir : Nat) (oldName : ν) (newDir : Nat) (newName : ν) :
    Tree ν × Option Errno :=
  match s.lookup oldDir oldName with
  | none => (s, some .noent)
  | some e =>
    let target := s.lookup newDir newName
    let isDir := s.isDir e.inode
    let levels := s.dentries.length
    if s.isAncestor e.inode levels newDir then (s, some .inval)
    else if target.any fun t => s.isAncestor t.inode levels oldDir then (s, some .notempty)
    -- two names of one file: there is nothing to do
    else if target.any fun t => t.inode = e.inode then (s, none)
    else s.checked (s.mayDelete e isDir) fun s =>
      s.checked (match target with
        | none => s.mayCreate newDir newName
        | some t => s.mayDelete t isDir) fun s =>
      andThen (s.simpleRename e newDir target) fun s => s.dMove e newDir newName target

/-- One request to the VFS. -/
def vfs (s : Tree ν) : Op ν → Tree ν × Option Errno
  | .create dir name mode mem => s.checked (s.mayCreate dir name) fun s =>
    s.sjfsCreate dir name (mode &&& sIallugo ||| sIfreg) mem
  | .mknod dir name mode mem =>
    if sIsdir mode then (s, some .perm)
    else s.checked (s.mayCreate dir name) fun s => s.sjfsMknod dir name mode mem
  | .mkdir dir name mode mem => s.checked (s.mayCreate dir name) fun s =>
    s.sjfsMkdir dir name (mode &&& (sIrwxugo ||| sIsvtx)) mem
  | .symlink dir name mem result => s.checked (s.mayCreate dir name) fun s =>
    s.sjfsSymlink dir name mem result
  | .link inode dir name => s.vfsLink inode dir name
  | .unlink dir name => s.vfsUnlink dir name
  | .rmdir dir name => s.vfsRmdir dir name
  | .rename oldDir oldName newDir newName => s.vfsRename oldDir oldName newDir newName

/-- The tree after the requests, one after the other. -/
def run (s : Tree ν) (ops : List (Op ν)) : Tree ν := ops.foldl (fun s op => (s.vfs op).1) s

end Vfs

end Tree

end PlanAB

end Sjfs
