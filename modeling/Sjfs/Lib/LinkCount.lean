import Mathlib.Algebra.Group.Nat.Defs
import Mathlib.Data.List.Perm.Basic
import Mathlib.Data.List.Count

/-!
# Link counts

A directory tree as a list of entries, each with the directory it stands in and the node it names,
and what the link count of a node should be: two and the number of subdirectories for a directory,
the number of names for everything else.

* `counter e`: the node whose count the entry `e` is part of. An entry for a directory counts for the
  directory it stands in, any other entry for the node it names.
* `names_cons`, `links_cons`, `links_perm`: how the counts change with the entries.
* `LinkedTo n k`: the 32-bit number `n` is the count `k`.
-/

namespace Sjfs.Lib

section Links

variable {ε ι : Type} [DecidableEq ι] (parent child : ε → ι) (isDir : ι → Bool)

/-- The number of entries that name `i`. -/
def names (es : List ε) (i : ι) : Nat := es.countP fun e => child e = i

/-- The number of entries in `d` that name a directory. -/
def subdirs (es : List ε) (d : ι) : Nat := es.countP fun e => parent e = d && isDir (child e)

/-- The link count that `i` should have. -/
def links (es : List ε) (i : ι) : Nat :=
  if isDir i then 2 + subdirs parent child isDir es i else names child es i

/-- The node whose link count the entry is part of. -/
def counter (e : ε) : ι := if isDir (child e) then parent e else child e

variable {parent child isDir} {e : ε} {es es' : List ε}

theorem names_cons (i : ι) :
    names child (e :: es) i = names child es i + if child e = i then 1 else 0 := by
  simp [names, List.countP_cons]

theorem links_cons (hparent : isDir (parent e) = true) (i : ι) :
    links parent child isDir (e :: es) i =
      links parent child isDir es i + if counter parent child isDir e = i then 1 else 0 := by
  unfold links counter subdirs names
  rw [List.countP_cons, List.countP_cons]
  cases hchild : isDir (child e) with
  | true =>
    cases hi : isDir i with
    | true => simp [Nat.add_assoc]
    | false =>
      have hp : parent e ≠ i := by
        rintro rfl
        simp [hparent] at hi
      have hc : child e ≠ i := by
        rintro rfl
        simp [hchild] at hi
      simp [hp, hc]
  | false =>
    cases hi : isDir i with
    | true =>
      have hc : child e ≠ i := by
        rintro rfl
        simp [hi] at hchild
      simp [hc]
    | false => simp

theorem names_perm (h : es.Perm es') (i : ι) : names child es i = names child es' i :=
  h.countP_eq _

theorem links_perm (h : es.Perm es') (i : ι) :
    links parent child isDir es i = links parent child isDir es' i := by
  unfold links subdirs names
  rw [h.countP_eq, h.countP_eq]

/-- The kinds of nodes that no entry names do not matter. -/
theorem links_congr {isDir' : ι → Bool} {i : ι} (hi : isDir i = isDir' i)
    (h : ∀ e ∈ es, isDir (child e) = isDir' (child e)) :
    links parent child isDir es i = links parent child isDir' es i := by
  unfold links subdirs
  rw [hi, List.countP_congr fun e he => by rw [h e he]]

end Links

/-- A link count of 32 bits. -/
def LinkedTo (n : UInt32) (k : Nat) : Prop := n = UInt32.ofNat k

namespace LinkedTo

variable {n : UInt32} {k : Nat}

theorem inc (h : LinkedTo n k) : LinkedTo (n + 1) (k + 1) := by
  rw [LinkedTo, h]
  exact (UInt32.ofNat_add k 1).symm

theorem dec (h : LinkedTo n (k + 1)) : LinkedTo (n - 1) k := by
  rw [LinkedTo, h, UInt32.ofNat_add]
  exact UInt32.add_sub_cancel ..

/-- As long as the count fits 32 bits, it is the number itself. -/
theorem toNat (h : LinkedTo n k) (hk : k < 2 ^ 32) : n.toNat = k := by
  rw [h, UInt32.toNat_ofNat', Nat.mod_eq_of_lt hk]

end LinkedTo

end Sjfs.Lib
