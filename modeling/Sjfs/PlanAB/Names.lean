import Sjfs.PlanAB.Change
import Sjfs.Lib.Hierarchy

/-!
# Plans a and b: the names

What the requests make of the names: a tree of directories, and a map from names to inodes. Both rest
on what libfs and the VFS are assumed to do (`Sjfs.PlanAB.Tree`).

Results:
1. `isTree_run`: after any sequence of requests to a new file system, no directory has two entries of
   one name, a directory has one name at most, every directory that has not been removed can be
   reached from the root, and none is below itself. The check of `rename` for a directory that would
   move below itself looks up as many levels as there are names; that is enough
   (`not_under_of_isAncestor`).
2. `resolve_run`: the map from names to inodes changes as the request says and not otherwise.
-/

namespace Sjfs

open Lib

namespace PlanAB

namespace Tree

variable {ν : Type} {s t : Tree ν} {e : Dentry ν} {i j : Nat}

/-! ## The directories -/

/-- The names of directories. -/
def dirs (s : Tree ν) : List (Dentry ν) := s.dentries.filter fun e => s.isDir e.inode

/-- Directory `i` is `a`, or somewhere below it. -/
abbrev Under (s : Tree ν) (a i : Nat) : Prop := Lib.Under Dentry.parent Dentry.inode s.dirs a i

/-- Every directory that has not been removed can be reached from the root. -/
def Connected (s : Tree ν) : Prop := ∀ i, s.AliveDir i → s.Under root i

theorem isAncestor_eq_climb (s : Tree ν) (a n d : Nat) :
    s.isAncestor a n d =
      climb Dentry.parent (fun d => s.dentries.find? fun e => e.inode = d) a n d := by
  induction n generalizing d with
  | zero => rfl
  | succ n ih =>
    unfold isAncestor climb
    cases s.dentries.find? fun e => e.inode = d with
    | none => rfl
    | some e => simp only [ih]

/-- The names of directories that a request leaves alone. -/
theorem mem_dirs_of_eq (hdir : t.isDir = s.isDir) {d : Dentry ν} (hd : d ∈ s.dirs)
    (hmem : d ∈ t.dentries) : d ∈ t.dirs :=
  List.mem_filter.mpr ⟨hmem, by rw [hdir]; exact (List.mem_filter.mp hd).2⟩

/-- No directory has two entries of one name. -/
def Distinct (s : Tree ν) : Prop := (s.dentries.map fun e => (e.parent, e.name)).Nodup

theorem Distinct.eq (hd : Distinct s) {e' : Dentry ν} (he : e ∈ s.dentries) (he' : e' ∈ s.dentries)
    (h : (e.parent, e.name) = (e'.parent, e'.name)) : e = e' :=
  List.inj_on_of_nodup_map hd he he' h

theorem distinct_cons {e' : Dentry ν} {ds : List (Dentry ν)} (hdentries : t.dentries = e' :: ds)
    (hds : (ds.map fun e => (e.parent, e.name)).Nodup)
    (hnew : ∀ x ∈ ds, (x.parent, x.name) ≠ (e'.parent, e'.name)) : Distinct t := by
  rw [Distinct, hdentries, List.map_cons, List.nodup_cons]
  refine ⟨?_, hds⟩
  intro hmem
  obtain ⟨x, hx, hxe⟩ := List.mem_map.mp hmem
  exact hnew x hx hxe

theorem shape_fillSuper {mem : Bool} (h : sjfsFillSuper mem = .ok s) :
    Linked s ∧ Distinct s ∧ Connected s := by
  refine ⟨linked_fillSuper h, ?_, ?_⟩
  · rw [sjfsFillSuper_eq h]
    exact List.nodup_nil
  · intro i hi
    rw [sjfsFillSuper_eq h] at hi
    rcases hi.of_addInode with rfl | ⟨⟨inode, hinode, _⟩, _⟩
    · exact .refl
    · cases hinode

section Vfs

variable [DecidableEq ν] {op : Op ν}

/-- A directory has one name at most. -/
theorem Linked.dirs_once (hs : Linked s) {d d' : Dentry ν} (hd : d ∈ s.dentries)
    (hd' : d' ∈ s.dentries) (hdir : s.isDir d.inode = true) (heq : d.inode = d'.inode) : d = d' := by
  by_contra hne
  have hperm : s.dentries.Perm (d :: s.dentries.erase d) := List.perm_cons_erase hd
  have hmem : d' ∈ s.dentries.erase d := (List.mem_erase_of_ne (Ne.symm hne)).mpr hd'
  have honce := hs.once d.inode hdir
  rw [names_perm hperm, names_cons, if_pos rfl] at honce
  have hpos : 0 < names Dentry.inode (s.dentries.erase d) d.inode :=
    List.countP_pos_iff.mpr ⟨d', hmem, by simpa using heq.symm⟩
  omega

/-- The check that `rename` makes finds a directory that is below the one that moves. -/
theorem not_under_of_isAncestor (hs : Linked s) {a d : Nat}
    (h : s.isAncestor a s.dentries.length d = false) : ¬ s.Under a d := by
  intro hunder
  have hfind : ∀ e ∈ s.dirs, (s.dentries.find? fun x => x.inode = e.inode) = some e := by
    intro e he
    obtain ⟨hmem, hdir⟩ := List.mem_filter.mp he
    cases hf : s.dentries.find? fun x => x.inode = e.inode with
    | none =>
      have hno := List.find?_eq_none.mp hf e hmem
      simp at hno
    | some x =>
      have hx : x.inode = e.inode := by simpa using List.find?_some hf
      rw [hs.dirs_once hmem (List.mem_of_find?_eq_some hf) hdir hx.symm]
  have hclimb := climb_of_under (fun d => s.dentries.find? fun x => x.inode = d) hfind hunder
    (List.length_filter_le _ s.dentries)
  rw [isAncestor_eq_climb, hclimb] at h
  cases h

/-- The names of directories but the one that a rename replaces. -/
def dirsBut (s : Tree ν) (target : Option (Dentry ν)) : List (Dentry ν) :=
  s.dirs.filter fun x => target ≠ some x

/-- An empty directory that is replaced is not needed to reach the others. -/
theorem under_dirsBut (hconn : Connected s) {target : Option (Dentry ν)}
    (hempty : ∀ d, target = some d → ∀ x ∈ s.dentries, x.parent ≠ d.inode) (hi : s.AliveDir i)
    (hne : ∀ d, target = some d → i ≠ d.inode) :
    Lib.Under Dentry.parent Dentry.inode (s.dirsBut target) root i := by
  cases target with
  | none =>
    refine (hconn i hi).mono fun d hd => List.mem_filter.mpr ⟨hd, ?_⟩
    simp
  | some d =>
    refine (hconn i hi).drop_leaf (d := d) ?_ ?_ (hne d rfl)
    · intro x hx hxd
      exact List.mem_filter.mpr ⟨hx, by simpa using Ne.symm hxd⟩
    · exact fun x hx => hempty d rfl x (List.mem_filter.mp hx).1

/-- The directories that a rename leaves under their names. -/
theorem mem_dirs_rename {e' x : Dentry ν} {target : Option (Dentry ν)}
    (hdentries : t.dentries = e' :: (s.without target).erase e) (hdir : t.isDir = s.isDir)
    (hx : x ∈ s.dirsBut target) (hne : x ≠ e) : x ∈ t.dirs := by
  obtain ⟨hxd, htarget⟩ := List.mem_filter.mp hx
  refine mem_dirs_of_eq hdir hxd ?_
  rw [hdentries]
  refine List.mem_cons_of_mem _ ((List.mem_erase_of_ne hne).mpr ?_)
  cases target with
  | none => exact (List.mem_filter.mp hxd).1
  | some d =>
    refine (List.mem_erase_of_ne ?_).mpr (List.mem_filter.mp hxd).1
    rintro rfl
    simp at htarget

theorem connected_change (hs : Linked s) (hconn : Connected s) {r : Tree ν × Option Errno}
    (h : Change s op r) : Connected r.1 := by
  cases h with
  | fail hdentries hdir halive =>
    intro i hi
    refine (hconn i (halive i hi)).mono fun d hd => mem_dirs_of_eq hdir hd ?_
    rw [hdentries]
    exact (List.mem_filter.mp hd).1
  | @make _ t dir name isdir hop hlookup hdir hdentries hold hnew halive =>
    have hkeep : ∀ d ∈ s.dirs, d ∈ t.dirs := by
      intro d hd
      obtain ⟨hmem, hd'⟩ := List.mem_filter.mp hd
      refine List.mem_filter.mpr ⟨by rw [hdentries]; exact List.mem_cons_of_mem _ hmem, ?_⟩
      rw [hold _ (hs.inode_ne_next hmem)]
      exact hd'
    intro i hi
    rcases halive i hi with rfl | hi'
    · refine ((hconn dir hdir).mono hkeep).tail ⟨⟨dir, name, s.next⟩, ?_, rfl, rfl⟩
      exact List.mem_filter.mpr ⟨by rw [hdentries]; exact List.mem_cons_self, hi.2⟩
    · exact (hconn i hi').mono hkeep
  | link _ _ _ hdentries hdir halive =>
    intro i hi
    refine (hconn i (halive i hi)).mono fun d hd => mem_dirs_of_eq hdir hd ?_
    rw [hdentries]
    exact List.mem_cons_of_mem _ (List.mem_filter.mp hd).1
  | unlink hlookup hfile hdentries hdir halive =>
    intro i hi
    refine (hconn i (halive i hi)).mono fun d hd => mem_dirs_of_eq hdir hd ?_
    obtain ⟨hmem, hd'⟩ := List.mem_filter.mp hd
    rw [hdentries, List.mem_erase_of_ne]
    · exact hmem
    · rintro rfl
      rw [hfile] at hd'
      cases hd'
  | @rmdir t dir name e hlookup hempty hdentries hdir halive =>
    intro i hi
    obtain ⟨hi', hne⟩ := halive i hi
    refine (hconn i hi').drop_leaf (d := e) ?_ ?_ hne
    · intro d hd hde
      refine mem_dirs_of_eq hdir hd ?_
      rw [hdentries, List.mem_erase_of_ne hde]
      exact (List.mem_filter.mp hd).1
    · exact fun d hd => hempty d (List.mem_filter.mp hd).1
  | stay => exact hconn
  | @rename t oldDir newDir oldName newName e hlookup hancestor hnew htarget hdentries hdir halive =>
    have hempty : ∀ d, s.lookup newDir newName = some d → ∀ x ∈ s.dentries, x.parent ≠ d.inode :=
      fun d hd => (htarget d hd).2
    have hkeep : ∀ x ∈ s.dirsBut (s.lookup newDir newName), x ≠ e → x ∈ t.dirs :=
      fun x hx hne => mem_dirs_rename hdentries hdir hx hne
    intro i hi
    obtain ⟨hi', hne⟩ := halive i hi
    have hunder := under_dirsBut hconn hempty hi' hne
    cases hde : s.isDir e.inode with
    | false =>
      refine hunder.mono fun x hx => hkeep x hx ?_
      rintro rfl
      have hxd := (List.mem_filter.mp (List.mem_filter.mp hx).1).2
      rw [hde] at hxd
      cases hxd
    | true =>
      have hin : ∀ d, s.lookup newDir newName = some d → newDir ≠ d.inode := by
        intro d hd
        obtain ⟨hmem, rfl, _⟩ := lookup_eq_some hd
        exact hempty d hd d hmem
      have hnot := not_under_of_isAncestor hs hancestor
      have hmoved : ⟨newDir, newName, e.inode⟩ ∈ t.dirs := by
        refine List.mem_filter.mpr ⟨by rw [hdentries]; exact List.mem_cons_self, ?_⟩
        rw [hdir]
        exact hde
      exact hunder.move hkeep hmoved rfl (under_dirsBut hconn hempty hnew hin)
        fun h => hnot (h.mono fun x hx => (List.mem_filter.mp hx).1)

/-! ## Distinct names -/

theorem lookup_eq_none {dir : Nat} {name : ν} (h : s.lookup dir name = none) :
    ∀ e ∈ s.dentries, (e.parent, e.name) ≠ (dir, name) := by
  intro e he heq
  have hno := List.find?_eq_none.mp h e he
  simp_all

theorem Distinct.erase (hd : Distinct s) (e : Dentry ν) (hdentries : t.dentries = s.dentries.erase e) :
    Distinct t := by
  rw [Distinct, hdentries]
  exact List.Nodup.sublist (List.erase_sublist.map _) hd

theorem Distinct.without (hd : Distinct s) (target : Option (Dentry ν)) :
    ((s.without target).map fun e => (e.parent, e.name)).Nodup := by
  cases target with
  | none => exact hd
  | some d => exact List.Nodup.sublist (List.erase_sublist.map _) hd

/-- What is left does not have the name that is replaced. -/
theorem Distinct.key_ne (hd : Distinct s) {newDir : Nat} {newName : ν} :
    ∀ x ∈ s.without (s.lookup newDir newName), (x.parent, x.name) ≠ (newDir, newName) := by
  cases ht : s.lookup newDir newName with
  | none => exact lookup_eq_none ht
  | some d =>
    obtain ⟨hmem, rfl, rfl⟩ := lookup_eq_some ht
    intro x hx hkey
    obtain rfl := hd.eq (List.mem_of_mem_erase hx) hmem hkey
    exact (List.Nodup.of_map _ hd).not_mem_erase hx

theorem distinct_change (hd : Distinct s) {r : Tree ν × Option Errno} (h : Change s op r) :
    Distinct r.1 := by
  cases h with
  | fail hdentries =>
    rw [Distinct, hdentries]
    exact hd
  | make _ hlookup _ hdentries | link hlookup _ _ hdentries =>
    exact distinct_cons hdentries hd (lookup_eq_none hlookup)
  | unlink _ _ hdentries | rmdir _ _ hdentries => exact hd.erase _ hdentries
  | stay => exact hd
  | rename _ _ _ _ hdentries =>
    refine distinct_cons hdentries ((hd.without _).sublist (List.erase_sublist.map _)) ?_
    exact fun x hx => hd.key_ne x (List.mem_of_mem_erase hx)

/-! ## The map from names to inodes -/

/-- The inode that `name` stands for in `dir`. -/
def resolve (s : Tree ν) (dir : Nat) (name : ν) : Option Nat :=
  (s.lookup dir name).map Dentry.inode

/-- The map with one name changed. -/
def put (m : Nat → ν → Option Nat) (dir : Nat) (name : ν) (o : Option Nat) : Nat → ν → Option Nat :=
  fun d n => if d = dir ∧ n = name then o else m d n

/-- What a request that succeeds should do to the map; `fresh` is the new inode. -/
def effect (m : Nat → ν → Option Nat) (fresh : Nat) : Op ν → Nat → ν → Option Nat
  | .create dir name _ _ | .mknod dir name _ _ | .mkdir dir name _ _ | .symlink dir name _ _ =>
    put m dir name (some fresh)
  | .link inode dir name => put m dir name (some inode)
  | .unlink dir name | .rmdir dir name => put m dir name none
  | .rename oldDir oldName newDir newName =>
    if m newDir newName = m oldDir oldName then m
    else put (put m newDir newName (m oldDir oldName)) oldDir oldName none

theorem resolve_eq_some (hd : Distinct s) {d : Nat} {n : ν} :
    s.resolve d n = some i ↔ ⟨d, n, i⟩ ∈ s.dentries := by
  unfold resolve
  constructor
  · intro h
    obtain ⟨e, he, rfl⟩ := Option.map_eq_some_iff.mp h
    obtain ⟨hmem, rfl, rfl⟩ := lookup_eq_some he
    exact hmem
  · intro hmem
    cases hl : s.lookup d n with
    | none => exact absurd rfl (lookup_eq_none hl _ hmem)
    | some e =>
      obtain ⟨he, hparent, hname⟩ := lookup_eq_some hl
      obtain rfl := hd.eq he hmem (by rw [hparent, hname])
      rfl

/-- The map and the list of names say the same. -/
theorem resolve_eq (ht : Distinct t) {m : Nat → ν → Option Nat}
    (h : ∀ d n i, ⟨d, n, i⟩ ∈ t.dentries ↔ m d n = some i) : t.resolve = m := by
  funext d n
  refine Option.ext fun i => ?_
  rw [resolve_eq_some ht]
  exact h d n i

/-- A new name. -/
theorem resolve_cons (hd : Distinct s) (ht : Distinct t) {dir : Nat} {name : ν}
    (hlookup : s.lookup dir name = none) (hdentries : t.dentries = ⟨dir, name, i⟩ :: s.dentries) :
    t.resolve = put s.resolve dir name (some i) := by
  refine resolve_eq ht fun d n j => ?_
  rw [hdentries, List.mem_cons, put]
  split
  · next hkey =>
    obtain ⟨rfl, rfl⟩ := hkey
    have hno : (⟨d, n, j⟩ : Dentry ν) ∉ s.dentries := fun hmem => lookup_eq_none hlookup _ hmem rfl
    simp [hno, eq_comm]
  · next hkey =>
    rw [resolve_eq_some hd]
    refine or_iff_right ?_
    rintro ⟨⟩
    exact hkey ⟨rfl, rfl⟩

/-- A name that is taken away. -/
theorem resolve_erase (hd : Distinct s) (ht : Distinct t) {dir : Nat} {name : ν}
    (hlookup : s.lookup dir name = some e) (hdentries : t.dentries = s.dentries.erase e) :
    t.resolve = put s.resolve dir name none := by
  obtain ⟨hmem, rfl, rfl⟩ := lookup_eq_some hlookup
  refine resolve_eq ht fun d n j => ?_
  rw [hdentries, (List.Nodup.of_map _ hd).mem_erase_iff, put]
  split
  · next hkey =>
    obtain ⟨rfl, rfl⟩ := hkey
    simp only [reduceCtorEq, iff_false, not_and]
    exact fun hne hj => hne (hd.eq hj hmem rfl)
  · next hkey =>
    rw [resolve_eq_some hd]
    refine and_iff_right ?_
    rintro rfl
    exact hkey ⟨rfl, rfl⟩

theorem mem_without_iff (hd : Distinct s) {target : Option (Dentry ν)} {x : Dentry ν} :
    x ∈ s.without target ↔ x ∈ s.dentries ∧ target ≠ some x := by
  cases target with
  | none => simp [without]
  | some d =>
    rw [without, (List.Nodup.of_map _ hd).mem_erase_iff, and_comm, ne_eq, ne_eq, Option.some.injEq,
      eq_comm]

/-- A name that moves, with the one that it replaces. -/
theorem resolve_move (hd : Distinct s) (ht : Distinct t) {oldDir newDir : Nat} {oldName newName : ν}
    (hlookup : s.lookup oldDir oldName = some e) (hkeys : (oldDir, oldName) ≠ (newDir, newName))
    (hdentries : t.dentries = ⟨newDir, newName, e.inode⟩ ::
      (s.without (s.lookup newDir newName)).erase e) :
    t.resolve = put (put s.resolve newDir newName (some e.inode)) oldDir oldName none := by
  obtain ⟨hmem, rfl, rfl⟩ := lookup_eq_some hlookup
  have hnodup : (s.without (s.lookup newDir newName)).Nodup := List.Nodup.of_map _ (hd.without _)
  refine resolve_eq ht fun d n j => ?_
  rw [hdentries, List.mem_cons, hnodup.mem_erase_iff, put, put]
  split
  · next hkey =>
    obtain ⟨rfl, rfl⟩ := hkey
    simp only [reduceCtorEq, iff_false, not_or, not_and]
    refine ⟨?_, fun hne hj => hne (hd.eq ((mem_without_iff hd).mp hj).1 hmem rfl)⟩
    intro heq
    exact hkeys (by rw [(Dentry.mk.inj heq).1, (Dentry.mk.inj heq).2.1])
  · next hold =>
    split
    · next hkey =>
      obtain ⟨rfl, rfl⟩ := hkey
      have hno : (⟨d, n, j⟩ : Dentry ν) ∉ s.without (s.lookup d n) := fun hj => hd.key_ne _ hj rfl
      simp [hno, eq_comm]
    · next hnew =>
      have hne : (⟨d, n, j⟩ : Dentry ν) ≠ e := by
        rintro rfl
        exact hold ⟨rfl, rfl⟩
      have htarget : s.lookup newDir newName ≠ some ⟨d, n, j⟩ := by
        intro hl
        obtain ⟨_, rfl, rfl⟩ := lookup_eq_some hl
        exact hnew ⟨rfl, rfl⟩
      rw [resolve_eq_some hd, mem_without_iff hd]
      simp only [Dentry.mk.injEq]
      tauto

/-- The map changes as the request says, and not at all when it fails. -/
theorem resolve_change (hd : Distinct s) {r : Tree ν × Option Errno} (h : Change s op r) :
    r.1.resolve = if r.2 = none then effect s.resolve s.next op else s.resolve := by
  have ht := distinct_change hd h
  cases h with
  | fail hdentries =>
    refine resolve_eq ht fun d n i => ?_
    rw [if_neg (by simp), resolve_eq_some hd, hdentries]
  | make hop hlookup _ hdentries =>
    rw [if_pos rfl]
    cases hop <;> exact resolve_cons hd ht hlookup hdentries
  | link hlookup _ _ hdentries => exact resolve_cons hd ht hlookup hdentries
  | unlink hlookup _ hdentries | rmdir hlookup _ hdentries =>
    exact resolve_erase hd ht hlookup hdentries
  | stay hlookup htarget hsame =>
    rw [if_pos rfl, effect, if_pos]
    rw [resolve, resolve, hlookup, htarget, Option.map_some, Option.map_some, hsame]
  | @rename t oldDir newDir oldName newName e hlookup _ _ htarget hdentries =>
    have hold : s.resolve oldDir oldName = some e.inode := by rw [resolve, hlookup, Option.map_some]
    have hnew : s.resolve newDir newName ≠ some e.inode := by
      intro h
      obtain ⟨d, hl, hde⟩ := Option.map_eq_some_iff.mp h
      exact (htarget d hl).1 hde
    rw [if_pos rfl, effect, hold, if_neg hnew]
    refine resolve_move hd ht hlookup ?_ hdentries
    intro hkeys
    obtain ⟨rfl, rfl⟩ := Prod.mk.inj hkeys
    exact hnew hold

/-! ## Whole runs -/

/-- The shape of the tree. -/
structure IsTree (s : Tree ν) : Prop where
  distinct : (s.dentries.map fun e => (e.parent, e.name)).Nodup
  single : ∀ e ∈ s.dentries, ∀ e' ∈ s.dentries, s.isDir e.inode = true → e.inode = e'.inode → e = e'
  connected : ∀ e ∈ s.dentries, s.Under root e.parent
  acyclic : ∀ e ∈ s.dentries, s.isDir e.inode = true → ¬ s.Under e.inode e.parent

theorem Linked.isTree (hs : Linked s) (hd : Distinct s) (hconn : Connected s) : IsTree s where
  distinct := hd
  single := fun _ he _ he' hdir heq => hs.dirs_once he he' hdir heq
  connected := fun e he => hconn _ (hs.parents e he)
  acyclic := by
    intro e he hdir
    have hmem : ∀ {d}, d ∈ s.dirs → d ∈ s.dentries := fun hd => (List.mem_filter.mp hd).1
    refine not_under_parent (fun d hd => hs.unnamed d (hmem hd)) ?_
      (List.mem_filter.mpr ⟨he, hdir⟩) (hconn _ (hs.parents e he))
    exact fun d hd d' hd' heq =>
      hs.dirs_once (hmem hd) (hmem hd') (List.mem_filter.mp hd).2 heq

theorem shape_run (hs : Linked s) (hd : Distinct s) (hconn : Connected s) (ops : List (Op ν)) :
    Linked (s.run ops) ∧ Distinct (s.run ops) ∧ Connected (s.run ops) := by
  induction ops generalizing s with
  | nil => exact ⟨hs, hd, hconn⟩
  | cons op ops ih =>
    have h := vfs_change hs op
    exact ih (keeps_vfs hs op).1 (distinct_change hd h) (connected_change hs hconn h)

/-- After any sequence of requests to a new file system the names form a tree: no directory has two
entries of one name, a directory has one name at most, every entry stands in a directory that can be
reached from the root, and no directory is below itself. -/
theorem isTree_run {mem : Bool} {s₀ : Tree ν} (h : sjfsFillSuper mem = .ok s₀) (ops : List (Op ν)) :
    IsTree (s₀.run ops) := by
  obtain ⟨hs, hd, hconn⟩ := shape_fillSuper h
  obtain ⟨hs, hd, hconn⟩ := shape_run hs hd hconn ops
  exact hs.isTree hd hconn

/-- The directory `1` has moved into the directory `2`, which cannot move below it then. -/
theorem isTree_someOps :
    ∃ s₀ : Tree String, sjfsFillSuper true = .ok s₀ ∧ IsTree (s₀.run someOps) ∧
      ⟨2, "c", 1⟩ ∈ (s₀.run someOps).dentries ∧ ⟨root, "b", 2⟩ ∈ (s₀.run someOps).dentries := by
  have hroot : sjfsFillSuper true =
      .ok (addInode ⟨[], fun _ => none, root⟩ ⟨sIfdir ||| 0o755, 2, false⟩ : Tree String) := rfl
  exact ⟨_, hroot, isTree_run hroot someOps, by decide, by decide⟩

/-- After any sequence of requests, one more request changes the map from names to inodes as it says,
with an inode that no name stands for yet if it makes one, and not at all when it fails. -/
theorem resolve_run {mem : Bool} {s₀ : Tree ν} (h : sjfsFillSuper mem = .ok s₀) (ops : List (Op ν))
    (op : Op ν) :
    ((s₀.run ops).vfs op).1.resolve =
        (if ((s₀.run ops).vfs op).2 = none then effect (s₀.run ops).resolve (s₀.run ops).next op
        else (s₀.run ops).resolve) ∧
      ∀ dir name, (s₀.run ops).resolve dir name ≠ some (s₀.run ops).next := by
  obtain ⟨hs, hd, hconn⟩ := shape_fillSuper h
  obtain ⟨hs, hd, _⟩ := shape_run hs hd hconn ops
  refine ⟨resolve_change hd (vfs_change hs op), ?_⟩
  intro dir name hnext
  exact hs.inode_ne_next ((resolve_eq_some hd).mp hnext) rfl

/-- The moved directory is renamed once more. -/
theorem resolve_someOps :
    ∃ s₀ : Tree String, sjfsFillSuper true = .ok s₀ ∧
      ((s₀.run someOps).vfs (.rename 2 "c" root "a")).1.resolve =
        effect (s₀.run someOps).resolve (s₀.run someOps).next (.rename 2 "c" root "a") ∧
      ((s₀.run someOps).vfs (.rename 2 "c" root "a")).1.resolve root "a" = some 1 := by
  have hroot : sjfsFillSuper true =
      .ok (addInode ⟨[], fun _ => none, root⟩ ⟨sIfdir ||| 0o755, 2, false⟩ : Tree String) := rfl
  have hresolve := (resolve_run hroot someOps (.rename 2 "c" root "a")).1
  rw [if_pos (by decide)] at hresolve
  exact ⟨_, hroot, hresolve, by decide⟩

end Vfs

end Tree

end PlanAB

end Sjfs
