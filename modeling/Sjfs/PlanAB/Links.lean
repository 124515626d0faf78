import Sjfs.PlanAB.Tree

/-!
# Plans a and b: link counts

Every operation on the tree is put together from four changes, each of which keeps the counts right:
a new inode without a name, a name that is attached (`Tree.attach`), a name that is detached
(`Tree.detach`), and a directory that is buried when it has neither names nor entries (`Tree.bury`).
The C code adds and subtracts links in its own order, and sometimes not at all where the steps cancel;
`*_eq` says that the result is the same. Libfs and the VFS are as assumed in `Sjfs.PlanAB.Tree`.

Results:
1. `Linked`: the invariant; `linked_attach`, `linked_detach`, `linked_bury`, `linked_addInode`.
2. `keeps_vfs`: every request keeps it, and one that fails changes no name and no count.
3. `linksRight_run`: the counts after any sequence of requests, as 32-bit numbers.
4. `count_wraps`: with 2^32 names for one file its count is 0.
-/

namespace Sjfs

open Lib

namespace PlanAB

/-! ## Modes -/

theorem or_type (a b : UInt16) : (a ||| b) &&& sIfmt = a &&& sIfmt ||| b &&& sIfmt :=
  UInt16.toBitVec_inj.1 BitVec.and_or_distrib_right

/-- Permission bits say nothing about the type. -/
theorem mask_type {a b : UInt16} (h : b &&& sIfmt = 0) : a &&& b &&& sIfmt = 0 := by
  rw [UInt16.and_assoc, h, UInt16.and_zero]

theorem sIsdir_mkdir (mode : UInt16) :
    sIsdir (mode &&& (sIrwxugo ||| sIsvtx) ||| sIfdir) = true := by
  rw [sIsdir, or_type, mask_type (by decide)]
  decide

theorem sIsdir_create (mode : UInt16) :
    sIsdir (mode &&& sIallugo ||| sIfreg ||| sIfreg) = false := by
  rw [sIsdir, or_type, or_type, mask_type (by decide)]
  decide

theorem sIsdir_or_sIsgid (mode : UInt16) : sIsdir (mode ||| sIsgid) = sIsdir mode := by
  have hgid : sIsgid &&& sIfmt = 0 := by decide
  rw [sIsdir, or_type, hgid, UInt16.or_zero, sIsdir]

namespace Tree

variable {ν : Type} {s t : Tree ν} {e : Dentry ν} {i j : Nat}

theorem sIsdir_initOwner (s : Tree ν) (dir : Option Nat) (mode : UInt16) :
    sIsdir (s.initOwner dir mode) = sIsdir mode := by
  unfold initOwner
  split
  · rfl
  · split
    · exact sIsdir_or_sIsgid mode
    · rfl

/-! ## Changes of one inode -/

theorem modifyInode_inodes (s : Tree ν) (i j : Nat) (f : Inode → Inode) :
    (s.modifyInode i f).inodes j = if j = i then (s.inodes i).map f else s.inodes j :=
  Function.update_apply ..

theorem modifyInode_modifyInode (s : Tree ν) (i : Nat) (f g : Inode → Inode) :
    (s.modifyInode i f).modifyInode i g = s.modifyInode i (g ∘ f) := by
  simp [modifyInode]

theorem modifyInode_comm (s : Tree ν) (h : i ≠ j) (f g : Inode → Inode) :
    (s.modifyInode i f).modifyInode j g = (s.modifyInode j g).modifyInode i f := by
  simp [modifyInode, Function.update_of_ne h, Function.update_of_ne h.symm, Function.update_comm h]

theorem modifyInode_id (s : Tree ν) (i : Nat) {f : Inode → Inode} (h : ∀ inode, f inode = inode) :
    s.modifyInode i f = s := by
  have hid : f = id := funext h
  simp [modifyInode, hid]

/-- A link that is dropped and taken again. -/
theorem incNlink_dropNlink (s : Tree ν) (i : Nat) : (s.dropNlink i).incNlink i = s := by
  rw [dropNlink, incNlink, modifyInode_modifyInode]
  refine modifyInode_id s i fun inode => ?_
  show { inode with nlink := inode.nlink - 1 + 1 } = inode
  rw [UInt32.sub_add_cancel]

theorem dropNlink_comm (s : Tree ν) (i j : Nat) :
    (s.dropNlink i).dropNlink j = (s.dropNlink j).dropNlink i := by
  by_cases h : i = j
  · rw [h]
  · exact modifyInode_comm s h _ _

/-- `i` is an inode that is not a removed directory. -/
def Alive (s : Tree ν) (i : Nat) : Prop := ∃ inode, s.inodes i = some inode ∧ inode.dead = false

theorem isDir_modifyInode {f : Inode → Inode} (hf : ∀ inode, (f inode).mode = inode.mode) :
    (s.modifyInode i f).isDir = s.isDir := by
  funext j
  simp only [isDir, modifyInode_inodes]
  by_cases hj : j = i
  · subst hj
    cases s.inodes j <;> simp [hf]
  · rw [if_neg hj]

theorem alive_modifyInode {f : Inode → Inode} (hf : ∀ inode, (f inode).dead = inode.dead)
    (h : s.Alive j) : (s.modifyInode i f).Alive j := by
  obtain ⟨inode, hj, hdead⟩ := h
  by_cases hji : j = i
  · subst hji
    exact ⟨f inode, by simp [modifyInode_inodes, hj], by rw [hf, hdead]⟩
  · exact ⟨inode, by simp [modifyInode_inodes, hji, hj], hdead⟩

theorem alive_modifyInode_of_ne {f : Inode → Inode} (hij : j ≠ i) (h : s.Alive j) :
    (s.modifyInode i f).Alive j := by
  obtain ⟨inode, hj, hdead⟩ := h
  exact ⟨inode, by simp [modifyInode_inodes, hij, hj], hdead⟩

@[simp] theorem isDir_dropNlink : (s.dropNlink i).isDir = s.isDir := isDir_modifyInode fun _ => rfl

@[simp] theorem isDir_dDelete [DecidableEq ν] : (s.dDelete e).isDir = s.isDir := rfl

/-! ## The invariant -/

/-- The link count that inode `i` should have. -/
abbrev links (s : Tree ν) (i : Nat) : Nat :=
  Lib.links Dentry.parent Dentry.inode s.isDir s.dentries i

/-- The inode whose count the name `e` is part of. -/
abbrev counter (s : Tree ν) (e : Dentry ν) : Nat :=
  Lib.counter Dentry.parent Dentry.inode s.isDir e

/-- The root is a directory without a name, every name stands in a directory and names an inode, neither
of them removed, a directory has one name at most, and the counts of all that is not removed are
right. -/
structure Linked (s : Tree ν) : Prop where
  fresh : ∀ i, s.next ≤ i → s.inodes i = none
  root : s.Alive root ∧ s.isDir root = true
  unnamed : ∀ e ∈ s.dentries, e.inode ≠ Tree.root
  parents : ∀ e ∈ s.dentries, s.Alive e.parent ∧ s.isDir e.parent = true
  children : ∀ e ∈ s.dentries, s.Alive e.inode
  files : ∀ i inode, s.inodes i = some inode → s.isDir i = false → inode.dead = false
  once : ∀ i, s.isDir i = true → names Dentry.inode s.dentries i ≤ 1
  links : ∀ i inode, s.inodes i = some inode → inode.dead = false → LinkedTo inode.nlink (s.links i)

theorem Alive.lt_next (hs : Linked s) (h : s.Alive i) : i < s.next := by
  obtain ⟨inode, hi, _⟩ := h
  by_contra hge
  rw [hs.fresh i (Nat.le_of_not_lt hge)] at hi
  cases hi

/-! ## Names that come and go -/

/-- A name is added, and counted. -/
def attach (s : Tree ν) (e : Dentry ν) : Tree ν := (s.incNlink (s.counter e)).dInstantiate e

/-- A name is taken away, and no longer counted. -/
def detach [DecidableEq ν] (s : Tree ν) (e : Dentry ν) : Tree ν :=
  (s.dropNlink (s.counter e)).dDelete e

/-- A directory is marked as removed; its count is of no interest any more. -/
def bury (s : Tree ν) (i : Nat) (f : UInt32 → UInt32) : Tree ν :=
  s.modifyInode i fun inode => { inode with nlink := f inode.nlink, dead := true }

@[simp] theorem isDir_detach [DecidableEq ν] : (s.detach e).isDir = s.isDir := isDir_dropNlink

@[simp] theorem isDir_bury {f : UInt32 → UInt32} : (s.bury i f).isDir = s.isDir :=
  isDir_modifyInode fun _ => rfl

/-- What has to be seen to when one inode and the list of names change. -/
theorem linked_modifyInode (hs : Linked s) {f : Inode → Inode} {ds : List (Dentry ν)}
    (hmode : ∀ inode, (f inode).mode = inode.mode)
    (hdead : s.isDir i = false → ∀ inode, (f inode).dead = inode.dead)
    (hroot : (s.modifyInode i f).Alive root)
    (hunnamed : ∀ e ∈ ds, e.inode ≠ root)
    (hparents : ∀ e ∈ ds, (s.modifyInode i f).Alive e.parent ∧ s.isDir e.parent = true)
    (hchildren : ∀ e ∈ ds, (s.modifyInode i f).Alive e.inode)
    (honce : ∀ j, s.isDir j = true → names Dentry.inode ds j ≤ 1)
    (hlinks : ∀ j inode, (s.modifyInode i f).inodes j = some inode → inode.dead = false →
      LinkedTo inode.nlink (Lib.links Dentry.parent Dentry.inode s.isDir ds j)) :
    Linked { s.modifyInode i f with dentries := ds } := by
  have hdir : ({ s.modifyInode i f with dentries := ds } : Tree ν).isDir = s.isDir :=
    isDir_modifyInode hmode
  refine ⟨?_, ⟨hroot, hdir ▸ hs.root.2⟩, hunnamed, hdir ▸ hparents, hchildren, ?_, hdir ▸ honce, ?_⟩
  · intro j hj
    show (s.modifyInode i f).inodes j = none
    have hnone := hs.fresh j hj
    rw [modifyInode_inodes]
    split
    · next hji => rw [← hji, hnone, Option.map_none]
    · exact hnone
  · intro j inode hj hfile
    have hj' : (s.modifyInode i f).inodes j = some inode := hj
    rw [hdir] at hfile
    rw [modifyInode_inodes] at hj'
    split at hj'
    · next hji =>
      subst hji
      obtain ⟨old, hold, rfl⟩ := Option.map_eq_some_iff.mp hj'
      rw [hdead hfile]
      exact hs.files j old hold hfile
    · exact hs.files j inode hj' hfile
  · intro j inode hj halive
    show LinkedTo _ (Lib.links _ _ (Tree.isDir _) ds j)
    rw [hdir]
    exact hlinks j inode hj halive

theorem linked_attach (hs : Linked s) (hparent : s.Alive e.parent) (hdir : s.isDir e.parent = true)
    (hchild : s.Alive e.inode) (hroot : e.inode ≠ root)
    (hone : s.isDir e.inode = true → names Dentry.inode s.dentries e.inode = 0) :
    Linked (s.attach e) := by
  have halive : ∀ {j}, s.Alive j → (s.incNlink (s.counter e)).Alive j :=
    fun h => alive_modifyInode (fun _ => rfl) h
  refine linked_modifyInode hs (fun _ => rfl) (fun _ _ => rfl) (halive hs.root.1)
    (List.forall_mem_cons.mpr ⟨hroot, hs.unnamed⟩) ?_ ?_ ?_ ?_
  · exact List.forall_mem_cons.mpr ⟨⟨halive hparent, hdir⟩,
      fun d hd => ⟨halive (hs.parents d hd).1, (hs.parents d hd).2⟩⟩
  · exact List.forall_mem_cons.mpr ⟨halive hchild, fun d hd => halive (hs.children d hd)⟩
  · intro j hj
    show names Dentry.inode (e :: s.dentries) j ≤ 1
    rw [names_cons]
    by_cases hej : e.inode = j
    · have hzero : names Dentry.inode s.dentries j = 0 := by
        rw [← hej] at hj ⊢
        exact hone hj
      rw [hzero, Nat.zero_add]
      exact Nat.le_of_eq (if_pos hej)
    · rw [if_neg hej]
      exact hs.once j hj
  · intro j inode hj hdead
    rw [links_cons hdir]
    rw [modifyInode_inodes] at hj
    split at hj
    · next hjc =>
      subst hjc
      obtain ⟨old, hold, rfl⟩ := Option.map_eq_some_iff.mp hj
      rw [if_pos rfl]
      exact (hs.links _ old hold hdead).inc
    · next hjc =>
      rw [if_neg (Ne.symm hjc)]
      exact hs.links j inode hj hdead

theorem linked_detach [DecidableEq ν] (hs : Linked s) (he : e ∈ s.dentries) :
    Linked (s.detach e) := by
  have halive : ∀ {j}, s.Alive j → (s.dropNlink (s.counter e)).Alive j :=
    fun h => alive_modifyInode (fun _ => rfl) h
  have hmem : ∀ {d}, d ∈ s.dentries.erase e → d ∈ s.dentries := List.mem_of_mem_erase
  have hperm : s.dentries.Perm (e :: s.dentries.erase e) := List.perm_cons_erase he
  refine linked_modifyInode hs (fun _ => rfl) (fun _ _ => rfl) (halive hs.root.1)
    (fun d hd => hs.unnamed d (hmem hd)) ?_ (fun d hd => halive (hs.children d (hmem hd))) ?_ ?_
  · exact fun d hd => ⟨halive (hs.parents d (hmem hd)).1, (hs.parents d (hmem hd)).2⟩
  · intro j hj
    have hle : names Dentry.inode s.dentries j ≤ 1 := hs.once j hj
    rw [names_perm hperm, names_cons] at hle
    exact Nat.le_trans (Nat.le_add_right ..) hle
  · intro j inode hj hdead
    have hcons : s.links j = Lib.links Dentry.parent Dentry.inode s.isDir (s.dentries.erase e) j +
        if s.counter e = j then 1 else 0 := by
      rw [← links_cons (hs.parents e he).2]
      exact links_perm hperm j
    rw [modifyInode_inodes] at hj
    split at hj
    · next hjc =>
      subst hjc
      obtain ⟨old, hold, rfl⟩ := Option.map_eq_some_iff.mp hj
      have hlinked := hs.links _ old hold hdead
      rw [hcons, if_pos rfl] at hlinked
      exact hlinked.dec
    · next hjc =>
      have hlinked := hs.links j inode hj hdead
      rwa [hcons, if_neg (Ne.symm hjc)] at hlinked

theorem linked_bury (hs : Linked s) (hdir : s.isDir i = true) (hroot : i ≠ root)
    (hempty : ∀ e ∈ s.dentries, e.parent ≠ i) (hnone : ∀ e ∈ s.dentries, e.inode ≠ i)
    (f : UInt32 → UInt32) : Linked (s.bury i f) := by
  have halive : ∀ {j}, j ≠ i → s.Alive j → (s.bury i f).Alive j := alive_modifyInode_of_ne
  refine linked_modifyInode hs (fun _ => rfl) ?_ (halive hroot.symm hs.root.1) hs.unnamed ?_
    (fun d hd => halive (hnone d hd) (hs.children d hd)) hs.once ?_
  · intro hfile
    rw [hdir] at hfile
    cases hfile
  · exact fun d hd => ⟨halive (hempty d hd) (hs.parents d hd).1, (hs.parents d hd).2⟩
  · intro j inode hj hdead
    rw [modifyInode_inodes] at hj
    split at hj
    · -- the buried directory is dead
      obtain ⟨old, _, rfl⟩ := Option.map_eq_some_iff.mp hj
      cases hdead
    · exact hs.links j inode hj hdead

/-! ## New inodes -/

/-- The links of a new inode that has no name yet. -/
def baseLinks (mode : UInt16) : UInt32 := if sIsdir mode then 2 else 0

theorem addInode_inodes (s : Tree ν) (inode : Inode) (j : Nat) :
    (s.addInode inode).inodes j = if j = s.next then some inode else s.inodes j :=
  Function.update_apply ..

theorem alive_addInode (hs : Linked s) (h : s.Alive j) (inode : Inode) :
    (s.addInode inode).Alive j := by
  have hlt := h.lt_next hs
  obtain ⟨old, hj, hdead⟩ := h
  exact ⟨old, by rw [addInode_inodes, if_neg (Nat.ne_of_lt hlt), hj], hdead⟩

theorem isDir_addInode_of_ne (inode : Inode) (h : j ≠ s.next) :
    (s.addInode inode).isDir j = s.isDir j := by
  rw [isDir, addInode_inodes, if_neg h, isDir]

theorem isDir_addInode_self (inode : Inode) :
    (s.addInode inode).isDir s.next = sIsdir inode.mode := by
  rw [isDir, addInode_inodes, if_pos rfl]
  rfl

/-- No entry names an inode that is not there yet. -/
theorem Linked.inode_ne_next (hs : Linked s) {d : Dentry ν} (hd : d ∈ s.dentries) :
    d.inode ≠ s.next :=
  Nat.ne_of_lt ((hs.children d hd).lt_next hs)

theorem names_next (hs : Linked s) : names Dentry.inode s.dentries s.next = 0 := by
  rw [names, List.countP_eq_zero]
  intro d hd
  simpa using hs.inode_ne_next hd

/-- Nothing is in a new inode, and nothing names it. -/
theorem links_addInode_self (hs : Linked s) (inode : Inode) :
    (s.addInode inode).links s.next = if sIsdir inode.mode then 2 else 0 := by
  have hzero : subdirs Dentry.parent Dentry.inode (s.addInode inode).isDir s.dentries s.next = 0 := by
    rw [subdirs, List.countP_eq_zero]
    intro d hd
    have hne := Nat.ne_of_lt ((hs.parents d hd).1.lt_next hs)
    simp [hne]
  show Lib.links _ _ _ s.dentries s.next = _
  rw [Lib.links, isDir_addInode_self, hzero, names_next hs]

theorem linked_addInode (hs : Linked s) (mode : UInt16) :
    Linked (s.addInode ⟨mode, baseLinks mode, false⟩) := by
  have halive : ∀ {j}, s.Alive j → (s.addInode ⟨mode, baseLinks mode, false⟩).Alive j :=
    fun h => alive_addInode hs h _
  have hdir : ∀ {j}, s.Alive j → (s.addInode ⟨mode, baseLinks mode, false⟩).isDir j = s.isDir j :=
    fun h => isDir_addInode_of_ne _ (Nat.ne_of_lt (h.lt_next hs))
  refine ⟨?_, ?_, hs.unnamed, ?_, fun d hd => halive (hs.children d hd), ?_, ?_, ?_⟩
  · intro j hj
    have hlt : s.next < j := hj
    rw [addInode_inodes, if_neg (Nat.ne_of_gt hlt)]
    exact hs.fresh j (Nat.le_of_lt hlt)
  · exact ⟨halive hs.root.1, (hdir hs.root.1).trans hs.root.2⟩
  · intro d hd
    exact ⟨halive (hs.parents d hd).1, (hdir (hs.parents d hd).1).trans (hs.parents d hd).2⟩
  · intro j inode hj hfile
    rw [addInode_inodes] at hj
    split at hj
    · cases hj
      rfl
    · next hjn =>
      rw [isDir_addInode_of_ne _ hjn] at hfile
      exact hs.files j inode hj hfile
  · intro j hj
    by_cases hjn : j = s.next
    · subst hjn
      show names Dentry.inode s.dentries s.next ≤ 1
      rw [names_next hs]
      exact Nat.zero_le 1
    · rw [isDir_addInode_of_ne _ hjn] at hj
      exact hs.once j hj
  · intro j inode hj hdead
    have hsame : ∀ {k}, k ≠ s.next →
        (s.addInode ⟨mode, baseLinks mode, false⟩).links k = s.links k := fun hk =>
      links_congr (isDir_addInode_of_ne _ hk) fun d hd => hdir (hs.children d hd)
    rw [addInode_inodes] at hj
    split at hj
    · next hjn =>
      subst hjn
      cases hj
      rw [links_addInode_self hs, baseLinks]
      cases sIsdir mode <;> rfl
    · next hjn =>
      rw [hsame hjn]
      exact hs.links j inode hj hdead

/-- A new inode gets its first name. -/
theorem linked_create (hs : Linked s) {dir : Nat} (hdir : s.Alive dir ∧ s.isDir dir = true) (name : ν)
    (mode : UInt16) :
    Linked ((s.addInode ⟨mode, baseLinks mode, false⟩).attach ⟨dir, name, s.next⟩) := by
  have hroot : s.next ≠ root := Nat.ne_of_gt (hs.root.1.lt_next hs)
  have hne := Nat.ne_of_lt (hdir.1.lt_next hs)
  refine linked_attach (linked_addInode hs mode) (alive_addInode hs hdir.1 _) ?_ ?_ hroot ?_
  · rw [isDir_addInode_of_ne _ hne]
    exact hdir.2
  · exact ⟨⟨mode, baseLinks mode, false⟩, by rw [addInode_inodes, if_pos rfl], rfl⟩
  · exact fun _ => names_next hs

/-! ## Requests -/

/-- No name and no link count differs. -/
structure Unchanged (s t : Tree ν) : Prop where
  dentries : t.dentries = s.dentries
  nlink : ∀ i, (t.inodes i).map Inode.nlink = (s.inodes i).map Inode.nlink

/-- The result of an operation keeps the counts right, and differs from `s` in neither names nor counts
if it is an error. -/
def Keeps (s : Tree ν) (r : Tree ν × Option Errno) : Prop :=
  Linked r.1 ∧ ∀ err, r.2 = some err → Unchanged s r.1

theorem keeps_ok (h : Linked t) : Keeps s (t, none) := ⟨h, fun _ he => by cases he⟩

theorem keeps_error (h : Linked s) (err : Errno) : Keeps s (s, some err) :=
  ⟨h, fun _ _ => ⟨rfl, fun _ => rfl⟩⟩

theorem keeps_checked (h : Linked s) {check : Option Errno} {f : Tree ν → Tree ν × Option Errno}
    (hf : check = none → Keeps s (f s)) : Keeps s (s.checked check f) := by
  cases check with
  | none => exact hf rfl
  | some err => exact keeps_error h err

/-- `sjfs_get_inode` with memory: a directory starts with two links, everything else with one. -/
theorem sjfsGetInode_eq (s : Tree ν) (dir : Option Nat) (mode : UInt16) :
    s.sjfsGetInode dir mode true =
      (s.addInode ⟨s.initOwner dir mode, if sIsdir mode then 2 else 1, false⟩, some s.next) := by
  unfold sjfsGetInode sIsdir
  by_cases h : mode &&& sIfmt = sIfdir <;> simp [h]

/-- A new file is counted when it is made. -/
theorem dInstantiate_addInode_eq {mode : UInt16} (h : sIsdir mode = false) (dir : Nat) (name : ν) :
    (s.addInode ⟨mode, 1, false⟩).dInstantiate ⟨dir, name, s.next⟩ =
      (s.addInode ⟨mode, baseLinks mode, false⟩).attach ⟨dir, name, s.next⟩ := by
  have hcounter : (s.addInode ⟨mode, baseLinks mode, false⟩).counter ⟨dir, name, s.next⟩ = s.next := by
    rw [counter, Lib.counter, isDir_addInode_self, h]
    rfl
  rw [attach, hcounter]
  simp [addInode, incNlink, modifyInode, dInstantiate, baseLinks, h]

theorem keeps_mknod (hs : Linked s) {dir : Nat} (hdir : s.Alive dir ∧ s.isDir dir = true) (name : ν)
    {mode : UInt16} (hmode : sIsdir mode = false) (mem : Bool) :
    Keeps s (s.sjfsMknod dir name mode mem) := by
  cases mem with
  | false => exact keeps_error hs _
  | true =>
    have hown := (s.sIsdir_initOwner (some dir) mode).trans hmode
    rw [sjfsMknod, sjfsGetInode_eq, hmode]
    refine keeps_ok ?_
    rw [if_neg Bool.false_ne_true, dInstantiate_addInode_eq hown]
    exact linked_create hs hdir name _

theorem keeps_mkdir (hs : Linked s) {dir : Nat} (hdir : s.Alive dir ∧ s.isDir dir = true) (name : ν)
    {mode : UInt16} (hmode : sIsdir (mode ||| sIfdir) = true) (mem : Bool) :
    Keeps s (s.sjfsMkdir dir name mode mem) := by
  cases mem with
  | false => exact keeps_error hs _
  | true =>
    have hown := (s.sIsdir_initOwner (some dir) (mode ||| sIfdir)).trans hmode
    rw [sjfsMkdir, sjfsMknod, sjfsGetInode_eq, hmode]
    refine keeps_ok ?_
    have hlinked := linked_create hs hdir name (s.initOwner (some dir) (mode ||| sIfdir))
    rw [attach, counter, Lib.counter, isDir_addInode_self, baseLinks, hown] at hlinked
    exact hlinked

/-- A new inode that is given back leaves nothing behind. -/
theorem iput_addInode_eq (hs : Linked s) (inode : Inode) :
    (s.addInode inode).iput s.next = { s with next := s.next + 1 } := by
  have hnone := hs.fresh s.next (Nat.le_refl _)
  have hself : Function.update s.inodes s.next none = s.inodes := by
    rw [← hnone, Function.update_eq_self]
  simp [addInode, iput, hself]

theorem keeps_symlink (hs : Linked s) {dir : Nat} (hdir : s.Alive dir ∧ s.isDir dir = true)
    (name : ν) (mem : Bool) (result : Option Errno) :
    Keeps s (s.sjfsSymlink dir name mem result) := by
  have hmode : sIsdir (sIflnk ||| sIrwxugo) = false := by decide
  have hown := (s.sIsdir_initOwner (some dir) (sIflnk ||| sIrwxugo)).trans hmode
  cases mem with
  | false => exact keeps_error hs _
  | true =>
    rw [sjfsSymlink, sjfsGetInode_eq, hmode]
    cases result with
    | none =>
      refine keeps_ok ?_
      rw [if_neg Bool.false_ne_true, dInstantiate_addInode_eq hown]
      exact linked_create hs hdir name _
    | some err =>
      have hskip : Linked { s with next := s.next + 1 } :=
        { hs with fresh := fun i hi => hs.fresh i (Nat.le_of_succ_le hi) }
      show Keeps s ((s.addInode _).iput s.next, some err)
      rw [iput_addInode_eq hs]
      exact ⟨hskip, fun _ _ => ⟨rfl, fun _ => rfl⟩⟩

/-! Links, unlinks and renames work on names that are there. -/

theorem checkDir_eq_none {dir : Nat} (h : s.checkDir dir = none) :
    s.Alive dir ∧ s.isDir dir = true := by
  unfold checkDir at h
  split at h
  · cases h
  · next d hd =>
    cases hmode : sIsdir d.mode <;> cases hdead : d.dead <;> simp [hmode, hdead] at h
    exact ⟨⟨d, hd, hdead⟩, by simp [isDir, hd, hmode]⟩

theorem mayDelete_eq_none {isdir : Bool} (h : s.mayDelete e isdir = none) :
    s.isDir e.inode = isdir ∧ s.Alive e.parent ∧ s.isDir e.parent = true := by
  unfold mayDelete at h
  cases isdir <;> cases hd : s.isDir e.inode <;> simp [hd] at h
  · exact ⟨rfl, checkDir_eq_none h⟩
  · exact ⟨rfl, checkDir_eq_none h⟩

/-- Nothing is in an empty directory. -/
theorem parent_ne_of_simpleEmpty (h : s.simpleEmpty i = true) : ∀ d ∈ s.dentries, d.parent ≠ i := by
  simpa [simpleEmpty] using h

theorem counter_eq_inode (h : s.isDir e.inode = false) : s.counter e = e.inode := by
  simp [Lib.counter, h]

theorem counter_eq_parent (h : s.isDir e.inode = true) : s.counter e = e.parent := by
  simp [Lib.counter, h]

/-- A directory that replaces another one: what the old one gave up in `newDir`, the new one takes. -/
theorem replace_dir_eq (s : Tree ν) {newDir old i : Nat} (hnew : newDir ≠ i) (hold : old ≠ i) :
    (((s.dropNlink newDir).setDead i).dropNlink old).incNlink newDir =
      (s.dropNlink old).setDead i := by
  have h1 : (s.dropNlink newDir).setDead i = (s.setDead i).dropNlink newDir :=
    modifyInode_comm s hnew _ _
  have h2 : (s.dropNlink old).setDead i = (s.setDead i).dropNlink old := modifyInode_comm s hold _ _
  rw [h1, dropNlink_comm, incNlink_dropNlink, h2]

section Vfs

variable [DecidableEq ν] {dir : Nat} {name : ν}

theorem mayCreate_eq_none (h : s.mayCreate dir name = none) : s.Alive dir ∧ s.isDir dir = true := by
  unfold mayCreate at h
  split at h
  · cases h
  · exact checkDir_eq_none h

theorem lookup_eq_some (h : s.lookup dir name = some e) :
    e ∈ s.dentries ∧ e.parent = dir ∧ e.name = name := by
  refine ⟨List.mem_of_find?_eq_some h, ?_⟩
  simpa using List.find?_some h

theorem keeps_link (hs : Linked s) (inode dir : Nat) (name : ν) :
    Keeps s (s.vfsLink inode dir name) := by
  refine keeps_checked hs fun hcreate => ?_
  have hdir := mayCreate_eq_none hcreate
  cases hi : s.inodes inode with
  | none => exact keeps_error hs _
  | some i =>
    simp only
    split
    · exact keeps_error hs _
    · next hmode =>
      split
      · exact keeps_error hs _
      · have hfile : s.isDir inode = false := by simpa [isDir, hi] using hmode
        have hroot : inode ≠ root := by
          rintro rfl
          rw [hs.root.2] at hfile
          cases hfile
        have hlinked : Linked (s.attach ⟨dir, name, inode⟩) := by
          refine linked_attach hs hdir.1 hdir.2 ⟨i, hi, hs.files _ i hi hfile⟩ hroot fun hd => ?_
          rw [hfile] at hd
          cases hd
        rw [attach, counter_eq_inode hfile] at hlinked
        exact keeps_ok hlinked

theorem linked_unlink (hs : Linked s) (he : e ∈ s.dentries) (hfile : s.isDir e.inode = false) :
    Linked ((s.dropNlink e.inode).dDelete e) := by
  have hlinked := linked_detach hs he
  rwa [detach, counter_eq_inode hfile] at hlinked

theorem keeps_unlink (hs : Linked s) (dir : Nat) (name : ν) : Keeps s (s.vfsUnlink dir name) := by
  unfold vfsUnlink
  split
  · exact keeps_error hs _
  · next e he =>
    refine keeps_checked hs fun hdelete => keeps_ok ?_
    exact linked_unlink hs (lookup_eq_some he).1 (mayDelete_eq_none hdelete).1

/-- A directory has one name only. -/
theorem names_detach (hs : Linked s) (he : e ∈ s.dentries) (hdir : s.isDir e.inode = true) :
    names Dentry.inode (s.detach e).dentries e.inode = 0 := by
  have hperm : s.dentries.Perm (e :: (s.detach e).dentries) := List.perm_cons_erase he
  have honce := hs.once e.inode hdir
  rw [names_perm hperm, names_cons, if_pos rfl] at honce
  omega

/-- The one name of an empty directory is taken away, and the directory is buried. -/
theorem linked_rmdir (hs : Linked s) (he : e ∈ s.dentries) (hdir : s.isDir e.inode = true)
    (hempty : s.simpleEmpty e.inode = true) (f : UInt32 → UInt32) :
    Linked ((s.detach e).bury e.inode f) := by
  have hmem : ∀ {d}, d ∈ (s.detach e).dentries → d ∈ s.dentries := List.mem_of_mem_erase
  refine linked_bury (linked_detach hs he) (by rwa [isDir_detach]) (hs.unnamed e he)
    (fun d hd => parent_ne_of_simpleEmpty hempty d (hmem hd)) ?_ f
  have hzero := names_detach hs he hdir
  rw [names, List.countP_eq_zero] at hzero
  intro d hd hde
  exact hzero d hd (by simpa using hde)

/-- `simple_rmdir` and what the VFS does behind it, as a detached name and a buried directory. -/
theorem rmdir_eq (hdir : s.isDir e.inode = true) :
    ((((s.dropNlink e.inode).dropNlink e.inode).dropNlink e.parent).setDead e.inode).dDelete e =
      (s.detach e).bury e.inode fun n => n - 1 - 1 := by
  have hbury : (s.dropNlink e.parent).bury e.inode (fun n => n - 1 - 1) =
      (((s.dropNlink e.parent).dropNlink e.inode).dropNlink e.inode).setDead e.inode := by
    simp only [bury, setDead, dropNlink, modifyInode_modifyInode]
    rfl
  have hmove : ((s.dropNlink e.inode).dropNlink e.inode).dropNlink e.parent =
      ((s.dropNlink e.parent).dropNlink e.inode).dropNlink e.inode := by
    rw [dropNlink_comm _ e.inode e.parent, dropNlink_comm s e.inode e.parent]
  rw [detach, counter_eq_parent hdir, hmove, ← hbury]
  rfl

theorem keeps_rmdir (hs : Linked s) (dir : Nat) (name : ν) : Keeps s (s.vfsRmdir dir name) := by
  unfold vfsRmdir
  split
  · exact keeps_error hs _
  · next e he =>
    refine keeps_checked hs fun hdelete => ?_
    have hdir := (mayDelete_eq_none hdelete).1
    unfold simpleRmdir
    split
    · next hempty =>
      refine keeps_ok ?_
      show Linked (dDelete (setDead _ e.inode) e)
      rw [simpleUnlink, rmdir_eq hdir]
      exact linked_rmdir hs (lookup_eq_some he).1 hdir hempty _
    · exact keeps_error hs _

/-! A rename moves the name `e`, behind the removal of the name that it replaces. -/

variable {newDir : Nat} {newName : ν} {target : Dentry ν}

theorem linked_move (hs : Linked s) (he : e ∈ s.dentries)
    (hdir : s.Alive newDir ∧ s.isDir newDir = true) (newName : ν) :
    Linked ((s.detach e).attach ⟨newDir, newName, e.inode⟩) := by
  have halive : ∀ {j}, s.Alive j → (s.detach e).Alive j := fun h => alive_modifyInode (fun _ => rfl) h
  refine linked_attach (linked_detach hs he) (halive hdir.1) ?_ (halive (hs.children e he))
    (hs.unnamed e he) ?_
  · rw [isDir_detach]
    exact hdir.2
  · rw [isDir_detach]
    exact names_detach hs he

/-- A file that moves keeps its links. -/
theorem move_file_eq (h : s.isDir e.inode = false) :
    (s.detach e).attach ⟨newDir, newName, e.inode⟩ =
      (s.dDelete e).dInstantiate ⟨newDir, newName, e.inode⟩ := by
  have hcounter : (s.detach e).counter ⟨newDir, newName, e.inode⟩ = e.inode :=
    counter_eq_inode (by rwa [isDir_detach])
  rw [attach, hcounter, detach, counter_eq_inode h]
  show (((s.dropNlink e.inode).incNlink e.inode).dDelete e).dInstantiate _ = _
  rw [incNlink_dropNlink]

/-- A directory that moves is counted by another directory. -/
theorem move_dir_eq (h : s.isDir e.inode = true) :
    (s.detach e).attach ⟨newDir, newName, e.inode⟩ =
      (((s.dropNlink e.parent).incNlink newDir).dDelete e).dInstantiate
        ⟨newDir, newName, e.inode⟩ := by
  have hcounter : (s.detach e).counter ⟨newDir, newName, e.inode⟩ = newDir :=
    counter_eq_parent (by rwa [isDir_detach])
  rw [attach, hcounter, detach, counter_eq_parent h]
  rfl

theorem mem_erase_of_inode_ne (he : e ∈ s.dentries) (hne : target.inode ≠ e.inode) :
    e ∈ s.dentries.erase target := by
  rw [List.mem_erase_of_ne]
  · exact he
  · rintro rfl
    exact hne rfl

theorem linked_rename_free (hs : Linked s) (he : e ∈ s.dentries)
    (hdir : s.Alive newDir ∧ s.isDir newDir = true) (newName : ν) :
    Linked ((s.simpleRename e newDir none).1.dMove e newDir newName none) := by
  have hlinked := linked_move hs he hdir newName
  cases hd : s.isDir e.inode with
  | true =>
    rw [move_dir_eq hd] at hlinked
    rw [simpleRename, hd]
    exact hlinked
  | false =>
    rw [move_file_eq hd] at hlinked
    rw [simpleRename, hd]
    exact hlinked

theorem linked_rename_file (hs : Linked s) (he : e ∈ s.dentries) (ht : target ∈ s.dentries)
    (hne : target.inode ≠ e.inode) (hfile : s.isDir e.inode = false)
    (htarget : s.isDir target.inode = false) (hdir : s.Alive newDir ∧ s.isDir newDir = true)
    (newName : ν) :
    Linked ((s.dropNlink target.inode).dMove e newDir newName (some target)) := by
  have hunlink := linked_unlink hs ht htarget
  have hmem : e ∈ ((s.dropNlink target.inode).dDelete target).dentries :=
    mem_erase_of_inode_ne he hne
  have hlinked := linked_move hunlink hmem
    ⟨alive_modifyInode (fun _ => rfl) hdir.1, by simpa using hdir.2⟩ newName
  rw [move_file_eq (by simpa using hfile)] at hlinked
  rw [dMove, isDir_dropNlink, htarget]
  exact hlinked

theorem linked_rename_dir (hs : Linked s) (he : e ∈ s.dentries) (ht : target ∈ s.dentries)
    (hne : target.inode ≠ e.inode) (hdir : s.isDir e.inode = true)
    (htarget : s.isDir target.inode = true) (hempty : s.simpleEmpty target.inode = true)
    (newName : ν) :
    Linked ((((s.dropNlink target.inode).dropNlink target.inode).dropNlink e.parent).dMove e
      target.parent newName (some target)) := by
  have hin := parent_ne_of_simpleEmpty hempty
  have hrmdir := linked_rmdir hs ht htarget hempty fun n => n - 1 - 1
  have hparent := hs.parents target ht
  have hmem : e ∈ ((s.detach target).bury target.inode fun n => n - 1 - 1).dentries :=
    mem_erase_of_inode_ne he hne
  have hlinked := linked_move hrmdir hmem
    ⟨alive_modifyInode_of_ne (hin target ht) (alive_modifyInode (fun _ => rfl) hparent.1),
      by simpa using hparent.2⟩ newName
  rw [move_dir_eq (by simpa using hdir), ← rmdir_eq htarget] at hlinked
  have hsame : (((((s.dropNlink target.inode).dropNlink target.inode).dropNlink
      target.parent).setDead target.inode).dropNlink e.parent).incNlink target.parent =
      (((s.dropNlink target.inode).dropNlink target.inode).dropNlink e.parent).setDead target.inode :=
    replace_dir_eq _ (hin target ht) (hin e he)
  rw [dMove]
  simp only [isDir_dropNlink, htarget]
  rw [if_pos trivial, ← hsame]
  exact hlinked

/-- The new name is taken, by a file or by a directory as the old one. -/
theorem keeps_rename_taken (hs : Linked s) (he : e ∈ s.dentries) (ht : target ∈ s.dentries)
    (hne : target.inode ≠ e.inode) (htype : s.isDir target.inode = s.isDir e.inode) (newName : ν) :
    Keeps s (andThen (s.simpleRename e target.parent (some target)) fun s =>
      s.dMove e target.parent newName (some target)) := by
  cases hempty : s.simpleEmpty target.inode with
  | false =>
    simp only [simpleRename, hempty, Bool.false_eq_true, if_false]
    exact keeps_error hs _
  | true =>
    simp only [simpleRename, hempty, if_true]
    cases hdir : s.isDir e.inode with
    | true =>
      rw [hdir] at htype
      exact keeps_ok (linked_rename_dir hs he ht hne hdir htype hempty newName)
    | false =>
      rw [hdir] at htype
      exact keeps_ok (linked_rename_file hs he ht hne hdir htype (hs.parents target ht) newName)

theorem keeps_rename (hs : Linked s) (oldDir : Nat) (oldName : ν) (newDir : Nat) (newName : ν) :
    Keeps s (s.vfsRename oldDir oldName newDir newName) := by
  unfold vfsRename
  split
  · exact keeps_error hs _
  · next e hlookup =>
    have he := (lookup_eq_some hlookup).1
    simp only
    split
    · exact keeps_error hs _
    · split
      · exact keeps_error hs _
      · split
        · exact keeps_ok hs
        · next hsame =>
          refine keeps_checked hs fun _ => keeps_checked hs fun hnew => ?_
          cases ht : s.lookup newDir newName with
          | none =>
            rw [ht] at hnew
            exact keeps_ok (linked_rename_free hs he (mayCreate_eq_none hnew) newName)
          | some target =>
            rw [ht] at hnew hsame
            obtain ⟨hmem, rfl, _⟩ := lookup_eq_some ht
            have hne : target.inode ≠ e.inode := by simpa using hsame
            exact keeps_rename_taken hs he hmem hne (mayDelete_eq_none hnew).1 newName

/-- Every request keeps the counts right, and changes nothing when it fails. -/
theorem keeps_vfs (hs : Linked s) (op : Op ν) : Keeps s (s.vfs op) := by
  cases op with
  | create dir name mode mem =>
    exact keeps_checked hs fun h => keeps_mknod hs (mayCreate_eq_none h) name (sIsdir_create mode) mem
  | mknod dir name mode mem =>
    rw [vfs]
    split
    · exact keeps_error hs _
    · next hmode =>
      exact keeps_checked hs fun h => keeps_mknod hs (mayCreate_eq_none h) name (by simpa using hmode) mem
  | mkdir dir name mode mem =>
    exact keeps_checked hs fun h => keeps_mkdir hs (mayCreate_eq_none h) name (sIsdir_mkdir mode) mem
  | symlink dir name mem result =>
    exact keeps_checked hs fun h => keeps_symlink hs (mayCreate_eq_none h) name mem result
  | link inode dir name => exact keeps_link hs inode dir name
  | unlink dir name => exact keeps_unlink hs dir name
  | rmdir dir name => exact keeps_rmdir hs dir name
  | rename oldDir oldName newDir newName => exact keeps_rename hs oldDir oldName newDir newName

theorem linked_run (hs : Linked s) (ops : List (Op ν)) : Linked (s.run ops) := by
  induction ops generalizing s with
  | nil => exact hs
  | cons op ops ih => exact ih (keeps_vfs hs op).1

end Vfs

/-! ## Whole runs -/

/-- The root of a new file system: a directory with two links. -/
theorem sjfsFillSuper_eq {mem : Bool} (h : sjfsFillSuper mem = .ok s) :
    s = addInode ⟨[], fun _ => none, root⟩ ⟨sIfdir ||| 0o755, 2, false⟩ := by
  cases mem <;> cases h
  rfl

theorem linked_fillSuper {mem : Bool} (h : sjfsFillSuper mem = .ok s) : Linked s := by
  rw [sjfsFillSuper_eq h]
  have hempty : ∀ {p : Dentry ν → Prop}, ∀ e ∈ ([] : List (Dentry ν)), p e := fun e he => by cases he
  refine ⟨?_, ⟨⟨_, rfl, rfl⟩, rfl⟩, hempty, hempty, hempty, ?_, fun _ _ => Nat.zero_le 1, ?_⟩
  · intro i hi
    rw [addInode_inodes, if_neg (Nat.ne_of_gt hi)]
  · intro i inode hi _
    rw [addInode_inodes] at hi
    split at hi <;> cases hi
    rfl
  · intro i inode hi _
    rw [addInode_inodes] at hi
    split at hi
    · next hroot =>
      subst hroot
      cases hi
      rfl
    · cases hi

/-- The directories that can be reached from the root. -/
inductive Reachable (s : Tree ν) : Nat → Prop
  | root : Reachable s root
  | child {e : Dentry ν} : e ∈ s.dentries → Reachable s e.parent → s.isDir e.inode = true →
      Reachable s e.inode

/-- The link count `n` is `k`: as a 32-bit number, and as a plain one as far as 32 bits go. -/
def Counts (n : UInt32) (k : Nat) : Prop := n = UInt32.ofNat k ∧ (k < 2 ^ 32 → n.toNat = k)

structure LinksRight (s : Tree ν) : Prop where
  directory : ∀ d, Reachable s d → ∃ inode, s.inodes d = some inode ∧
    Counts inode.nlink (2 + subdirs Dentry.parent Dentry.inode s.isDir s.dentries d)
  other : ∀ e ∈ s.dentries, s.isDir e.inode = false → ∃ inode, s.inodes e.inode = some inode ∧
    Counts inode.nlink (names Dentry.inode s.dentries e.inode)

theorem Linked.counts (hs : Linked s) (h : s.Alive i) : ∃ inode, s.inodes i = some inode ∧
    Counts inode.nlink (s.links i) := by
  obtain ⟨inode, hi, hdead⟩ := h
  have hlinked := hs.links i inode hi hdead
  exact ⟨inode, hi, hlinked, hlinked.toNat⟩

theorem Linked.linksRight (hs : Linked s) : LinksRight s where
  directory := by
    intro d hd
    have hdir : s.Alive d ∧ s.isDir d = true := by
      cases hd with
      | root => exact hs.root
      | child he _ hdir => exact ⟨hs.children _ he, hdir⟩
    have hlinks : s.links d = 2 + subdirs Dentry.parent Dentry.inode s.isDir s.dentries d := by
      simp [Lib.links, hdir.2]
    rw [← hlinks]
    exact hs.counts hdir.1
  other := by
    intro e he hfile
    have hlinks : s.links e.inode = names Dentry.inode s.dentries e.inode := by
      simp [Lib.links, hfile]
    rw [← hlinks]
    exact hs.counts (hs.children e he)

/-- After any sequence of requests to a new file system, the link counts are right, and a request that
fails then changes no name and no count. -/
theorem linksRight_run [DecidableEq ν] {mem : Bool} {s₀ : Tree ν} (h : sjfsFillSuper mem = .ok s₀)
    (ops : List (Op ν)) :
    LinksRight (s₀.run ops) ∧
    ∀ op err, ((s₀.run ops).vfs op).2 = some err → Unchanged (s₀.run ops) ((s₀.run ops).vfs op).1 := by
  have hs := linked_run (linked_fillSuper h) ops
  exact ⟨hs.linksRight, fun op => (keeps_vfs hs op).2⟩

/-- Two directories, a file with two names, a symlink that cannot be stored, a move of one directory into
the other, and attempts to remove it there and to move the outer one into it. -/
def someOps : List (Op String) :=
  [.mkdir root "a" 0o755 true, .mkdir root "b" 0o755 true, .create 1 "f" 0o644 true, .link 3 2 "g",
    .symlink 2 "l" true (some (.symlink 12)), .rename root "a" 2 "c", .rmdir 2 "c",
    .rename root "b" 1 "d"]

theorem linksRight_someOps :
    ∃ s₀ : Tree String, sjfsFillSuper true = .ok s₀ ∧ LinksRight (s₀.run someOps) ∧
      ((s₀.run someOps).inodes root).map Inode.nlink = some 3 ∧
      ((s₀.run someOps).inodes 2).map Inode.nlink = some 3 ∧
      ((s₀.run someOps).inodes 3).map Inode.nlink = some 2 ∧
      ((s₀.run someOps).vfs (.rmdir root "b")).2 = some .notempty ∧
      Unchanged (s₀.run someOps) ((s₀.run someOps).vfs (.rmdir root "b")).1 := by
  have hroot : sjfsFillSuper true =
      .ok (addInode ⟨[], fun _ => none, root⟩ ⟨sIfdir ||| 0o755, 2, false⟩ : Tree String) := rfl
  have hright := linksRight_run hroot someOps
  have hfail : (((addInode ⟨[], fun _ => none, root⟩ ⟨sIfdir ||| 0o755, 2, false⟩ : Tree String).run
      someOps).vfs (.rmdir root "b")).2 = some .notempty := by decide
  exact ⟨_, hroot, hright.1, by decide, by decide, by decide, hfail, hright.2 _ _ hfail⟩

/-! ## More names than a count holds -/

/-- The link counts as plain numbers, with no bound on the names. -/
structure LinksExact (s : Tree ν) : Prop where
  directory : ∀ d, Reachable s d → ∃ inode, s.inodes d = some inode ∧
    inode.nlink.toNat = 2 + subdirs Dentry.parent Dentry.inode s.isDir s.dentries d
  other : ∀ e ∈ s.dentries, s.isDir e.inode = false → ∃ inode, s.inodes e.inode = some inode ∧
    inode.nlink.toNat = names Dentry.inode s.dentries e.inode

/-- A file, and `n` further names for it. -/
def manyNames (n : Nat) : List (Op Nat) :=
  .create root 0 0o644 true :: (List.range n).map fun k => .link 1 root (k + 1)

/-- Inode 1 is a file with the names 0 to `n` and no others, all in the root. -/
structure HasNames (s : Tree Nat) (n : Nat) : Prop where
  linked : Linked s
  file : s.isDir 1 = false
  names : ∀ e ∈ s.dentries, e.name ≤ n ∧ e.inode = 1
  count : s.dentries.length = n + 1

theorem HasNames.names_eq {s : Tree Nat} {n : Nat} (h : HasNames s n) :
    Lib.names Dentry.inode s.dentries 1 = n + 1 := by
  rw [Lib.names, List.countP_eq_length.mpr fun e he => by simpa using (h.names e he).2, h.count]

/-- The count of the file wraps around at 2^32 names. -/
theorem HasNames.nlink {s : Tree Nat} {n : Nat} (h : HasNames s n) :
    ∃ inode, s.inodes 1 = some inode ∧ inode.nlink = UInt32.ofNat (n + 1) := by
  obtain ⟨e, he⟩ : ∃ e, e ∈ s.dentries := List.exists_mem_of_length_pos (by rw [h.count]; omega)
  obtain ⟨inode, hi, hcounts, _⟩ := h.linked.counts (h.linked.children e he)
  rw [(h.names e he).2] at hi hcounts
  refine ⟨inode, hi, ?_⟩
  rw [hcounts, links, Lib.links, h.file, h.names_eq]
  rfl

theorem checkDir_root (hs : Linked s) : s.checkDir root = none := by
  obtain ⟨⟨d, hd, hdead⟩, hdir⟩ := hs.root
  have hmode : sIsdir d.mode = true := by simpa [isDir, hd] using hdir
  simp [checkDir, hd, hdead, hmode]

theorem HasNames.link {s : Tree Nat} {n : Nat} (h : HasNames s n) (hn : n + 1 < 2 ^ 32) :
    HasNames (s.vfs (.link 1 root (n + 1))).1 (n + 1) := by
  obtain ⟨inode, hi, hlink⟩ := h.nlink
  have hfile : sIsdir inode.mode = false := by simpa [isDir, hi] using h.file
  have hpos : inode.nlink ≠ 0 := by
    intro hzero
    have := congrArg UInt32.toNat (hlink.symm.trans hzero)
    rw [UInt32.toNat_ofNat_of_lt' hn] at this
    cases this
  have hfree : s.lookup root (n + 1) = none := by
    refine List.find?_eq_none.mpr fun e he => ?_
    have hle := (h.names e he).1
    simp only [decide_eq_true_eq, not_and]
    omega
  have hvfs : s.vfs (.link 1 root (n + 1)) =
      ((s.incNlink 1).dInstantiate ⟨root, n + 1, 1⟩, none) := by
    simp [vfs, vfsLink, checked, mayCreate, hfree, checkDir_root h.linked, hi, hfile, hpos,
      simpleLink]
  have hlinked := (keeps_vfs h.linked (.link 1 root (n + 1))).1
  rw [hvfs] at hlinked ⊢
  refine ⟨hlinked, ?_, ?_, ?_⟩
  · have hdir : (s.incNlink 1).isDir = s.isDir := isDir_modifyInode fun _ => rfl
    show (s.incNlink 1).isDir 1 = false
    rw [hdir]
    exact h.file
  · refine List.forall_mem_cons.mpr ⟨⟨Nat.le_refl _, rfl⟩, fun e he => ?_⟩
    exact ⟨Nat.le_succ_of_le (h.names e he).1, (h.names e he).2⟩
  · exact congrArg Nat.succ h.count

theorem hasNames_run {s₀ : Tree Nat} (h : sjfsFillSuper true = .ok s₀) {n : Nat}
    (hn : n < 2 ^ 32) : HasNames (s₀.run (manyNames n)) n := by
  induction n with
  | zero =>
    have hlinked := linked_run (linked_fillSuper h) (manyNames 0)
    rw [sjfsFillSuper_eq h] at hlinked ⊢
    exact ⟨hlinked, by decide, by decide, rfl⟩
  | succ n ih =>
    have hrun : s₀.run (manyNames (n + 1)) =
        ((s₀.run (manyNames n)).vfs (.link 1 root (n + 1))).1 := by
      simp [run, manyNames, List.range_succ]
    rw [hrun]
    exact (ih (by omega)).link hn

/-- With 2^32 names the count is 0. -/
theorem HasNames.wrapped {s : Tree Nat} (h : HasNames s (2 ^ 32 - 1)) :
    (s.inodes 1).map Inode.nlink = some 0 ∧ Lib.names Dentry.inode s.dentries 1 = 2 ^ 32 ∧
      ¬ LinksExact s := by
  obtain ⟨inode, hi, hlink⟩ := h.nlink
  have hzero : inode.nlink = 0 := hlink
  have hnames : Lib.names Dentry.inode s.dentries 1 = 2 ^ 32 := h.names_eq
  refine ⟨by rw [hi, Option.map_some, hzero], hnames, fun hexact => ?_⟩
  have hlen : 0 < s.dentries.length := by rw [h.count]; omega
  obtain ⟨e, he⟩ := List.exists_mem_of_length_pos hlen
  obtain ⟨inode', hi', hcount⟩ := hexact.other e he ((h.names e he).2 ▸ h.file)
  rw [(h.names e he).2] at hi' hcount
  obtain rfl := Option.some.inj (hi.symm.trans hi')
  rw [hnames, hzero] at hcount
  cases hcount

/-- A file with 2^32 names, made by requests that all succeed, has the link count 0. -/
theorem count_wraps :
    ∃ s₀ : Tree Nat, sjfsFillSuper true = .ok s₀ ∧
      ((s₀.run (manyNames (2 ^ 32 - 1))).inodes 1).map Inode.nlink = some 0 ∧
      names Dentry.inode (s₀.run (manyNames (2 ^ 32 - 1))).dentries 1 = 2 ^ 32 ∧
      ¬ LinksExact (s₀.run (manyNames (2 ^ 32 - 1))) := by
  have hroot : sjfsFillSuper true =
      .ok (addInode ⟨[], fun _ => none, root⟩ ⟨sIfdir ||| 0o755, 2, false⟩ : Tree Nat) := rfl
  exact ⟨_, hroot, (hasNames_run hroot (n := 2 ^ 32 - 1) (by omega)).wrapped⟩

end Tree

end PlanAB

end Sjfs
