import Mathlib.Algebra.Group.Nat.Defs
import Mathlib.Data.List.Nodup

/-!
# Wrapping counters

A counter of 32 bits, and the numbers it gives to the members of a growing list.

* `ofNat_ne_of_lt`: two numbers less than 2^32 apart are different after wrapping.
* `Stamped order stamps`: the members of `order` come in that order, and `stamps` are the numbers
  some of them were given, each the place of its member in `order`.
-/

namespace Sjfs.Lib

theorem ofNat_ne_of_lt {m n : Nat} (h : m < n) (hnear : n < m + 2 ^ 32) :
    UInt32.ofNat m ≠ UInt32.ofNat n := by
  intro he
  have hmod := congrArg UInt32.toNat he
  rw [UInt32.toNat_ofNat', UInt32.toNat_ofNat'] at hmod
  omega

variable {ι : Type} [DecidableEq ι]

/-- Each stamp is the place of its member, wrapped, and the stamps were given in order. -/
structure Stamped (order : List ι) (stamps : List (ι × UInt32)) : Prop where
  nodup : order.Nodup
  place : ∀ p ∈ stamps, p.1 ∈ order ∧ p.2 = UInt32.ofNat (order.idxOf p.1)
  increasing : stamps.Pairwise fun p q => order.idxOf p.1 < order.idxOf q.1

namespace Stamped

variable {order pre : List ι} {stamps : List (ι × UInt32)} {i o : ι}

theorem nil : Stamped ([] : List ι) [] where
  nodup := List.nodup_nil
  place := fun _ h => by cases h
  increasing := .nil

/-- A new member comes last and changes no place. -/
theorem grow (h : Stamped order stamps) (hi : i ∉ order) : Stamped (order ++ [i]) stamps := by
  have hsame : ∀ p ∈ stamps, (order ++ [i]).idxOf p.1 = order.idxOf p.1 :=
    fun p hp => List.idxOf_append_of_mem (h.place p hp).1
  refine ⟨List.nodup_append.mpr ⟨h.nodup, List.nodup_singleton i, ?_⟩, fun p hp => ?_, ?_⟩
  · intro a ha b hb hab
    rw [List.mem_singleton] at hb
    subst hb hab
    exact hi ha
  · obtain ⟨hmem, hplace⟩ := h.place p hp
    rw [hsame p hp]
    exact ⟨List.mem_append_left _ hmem, hplace⟩
  · refine h.increasing.imp_of_mem ?_
    intro p q hp hq hlt
    rwa [hsame p hp, hsame q hq]

theorem idxOf_last (h : (pre ++ [o]).Nodup) : (pre ++ [o]).idxOf o = pre.length := by
  have ho : o ∉ pre := by
    intro hmem
    exact (List.nodup_append.mp h).2.2 o hmem o (List.mem_singleton_self o) rfl
  rw [List.idxOf_append_of_notMem ho, List.idxOf_cons_self, Nat.add_zero]

/-- The last member gets the number of those before it, if it has no stamp yet. -/
theorem stamp (h : Stamped (pre ++ [o]) stamps) (ho : ∀ p ∈ stamps, p.1 ≠ o) {n : UInt32}
    (hn : n = UInt32.ofNat pre.length) : Stamped (pre ++ [o]) (stamps ++ [(o, n)]) := by
  have hlast := idxOf_last h.nodup
  refine ⟨h.nodup, fun p hp => ?_, ?_⟩
  · rcases List.mem_append.mp hp with hp | hp
    · exact h.place p hp
    · rw [List.mem_singleton] at hp
      subst hp
      rw [hlast]
      exact ⟨List.mem_append_right _ (List.mem_singleton_self o), hn⟩
  · refine List.pairwise_append.mpr ⟨h.increasing, List.pairwise_singleton _ _, ?_⟩
    intro p hp q hq
    rw [List.mem_singleton] at hq
    subst hq
    -- an earlier stamp is at a place before the last one
    have hpre : p.1 ∈ pre := by
      rcases List.mem_append.mp (h.place p hp).1 with hmem | hmem
      · exact hmem
      · exact absurd (List.mem_singleton.mp hmem) (ho p hp)
    rw [hlast, List.idxOf_append_of_mem hpre]
    exact List.idxOf_lt_length_of_mem hpre

/-- Two stamps of members less than 2^32 places apart are different. -/
theorem distinct (h : Stamped order stamps) {j k : Nat} {p q : ι × UInt32} (hjk : j < k)
    (hp : stamps[j]? = some p) (hq : stamps[k]? = some q)
    (hnear : order.idxOf q.1 < order.idxOf p.1 + 2 ^ 32) : p.2 ≠ q.2 := by
  obtain ⟨hj, rfl⟩ := List.getElem?_eq_some_iff.mp hp
  obtain ⟨hk, rfl⟩ := List.getElem?_eq_some_iff.mp hq
  have hlt := List.pairwise_iff_getElem.mp h.increasing j k hj hk hjk
  rw [(h.place _ (List.getElem_mem hj)).2, (h.place _ (List.getElem_mem hk)).2]
  exact ofNat_ne_of_lt hlt hnear

end Stamped

end Sjfs.Lib
