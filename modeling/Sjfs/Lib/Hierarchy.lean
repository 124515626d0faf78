import Mathlib.Data.List.Nodup
import Mathlib.Data.List.Perm.Subperm
import Mathlib.Logic.Relation

/-!
# Hierarchies

Nodes below one another, as a list of entries, each of which stands in one node (`parent`) and names
another (`child`). `Under es a i` says that `i` is `a` or somewhere below it.

* `not_under_parent`: where every node has one entry at most and everything hangs on a root without
  one, nothing is below itself.
* `climb`: the search for an ancestor by going up, with a bound on the number of levels;
  `climb_of_under`: the number of entries is enough.
* `Under.move`: an entry is moved to a node that is not below it, and everything can still be reached
  from the root.
-/

namespace Sjfs.Lib

open Relation

section Hierarchy

variable {ε ι : Type} (parent child : ε → ι)

/-- An entry of `es` in `a` names `b`. -/
def Edge (es : List ε) (a b : ι) : Prop := ∃ e ∈ es, parent e = a ∧ child e = b

/-- `i` is `a`, or below it. -/
def Under (es : List ε) (a i : ι) : Prop := ReflTransGen (Edge parent child es) a i

/-- The entries from `a` down to `i`, the last one first. -/
inductive Path (es : List ε) (a : ι) : List ε → ι → Prop
  | nil : Path es a [] a
  | cons {e : ε} {p : List ε} : e ∈ es → Path es a p (parent e) → Path es a (e :: p) (child e)

/-- Going up from `d`, with `find` for the entry of a node: does one come to `a` within `n` levels? -/
def climb [DecidableEq ι] (find : ι → Option ε) (a : ι) : Nat → ι → Bool
  | 0, d => d == a
  | n + 1, d => d == a || match find d with
    | none => false
    | some e => climb find a n (parent e)

variable {parent child} {es es' : List ε} {a i root : ι} {e : ε} {p : List ε}

theorem Path.mem (h : Path parent child es a p i) : ∀ d ∈ p, d ∈ es := by
  induction h with
  | nil => exact fun _ hd => (nomatch hd)
  | cons he _ ih => exact List.forall_mem_cons.mpr ⟨he, ih⟩

/-- Every entry on the way down ends a way down. -/
theorem Path.suffix {q r : List ε} (h : Path parent child es a p i) (hp : p = q ++ e :: r) :
    Path parent child es a (e :: r) (child e) := by
  induction h generalizing q with
  | nil => simp at hp
  | @cons d p' hd hpath ih =>
    cases q with
    | nil =>
      obtain ⟨rfl, rfl⟩ := List.cons.inj hp
      exact .cons hd hpath
    | cons x q => exact ih (List.cons.inj hp).2

theorem exists_nodup_path (h : Under parent child es a i) :
    ∃ p, p.Nodup ∧ Path parent child es a p i := by
  induction h with
  | refl => exact ⟨[], List.nodup_nil, .nil⟩
  | tail _ hedge ih =>
    obtain ⟨p, hp, hpath⟩ := ih
    obtain ⟨d, hd, rfl, rfl⟩ := hedge
    by_cases hmem : d ∈ p
    · -- the way has come by this entry before, and is cut there
      obtain ⟨q, r, rfl⟩ := List.append_of_mem hmem
      exact ⟨d :: r, hp.sublist (List.sublist_append_right q _), hpath.suffix rfl⟩
    · exact ⟨d :: p, List.nodup_cons.mpr ⟨hmem, hp⟩, .cons hd hpath⟩

theorem climb_of_path [DecidableEq ι] {find : ι → Option ε} (h : Path parent child es a p i)
    (hfind : ∀ d ∈ p, find (child d) = some d) {n : Nat} (hn : p.length ≤ n) :
    climb parent find a n i = true := by
  induction h generalizing n with
  | nil => cases n <;> simp [climb]
  | @cons d q _ _ ih =>
    cases n with
    | zero => simp at hn
    | succ n =>
      have hup := ih (fun x hx => hfind x (List.mem_cons_of_mem d hx)) (Nat.le_of_succ_le_succ hn)
      simp [climb, hfind d List.mem_cons_self, hup]

/-- Going up as many levels as there are entries finds every ancestor. -/
theorem climb_of_under [DecidableEq ι] (find : ι → Option ε)
    (hfind : ∀ d ∈ es, find (child d) = some d) (h : Under parent child es a i) {n : Nat}
    (hn : es.length ≤ n) : climb parent find a n i = true := by
  obtain ⟨p, hnodup, hpath⟩ := exists_nodup_path h
  have hlen := (List.subperm_of_subset hnodup fun _ hd => hpath.mem _ hd).length_le
  exact climb_of_path hpath (fun d hd => hfind d (hpath.mem d hd)) (Nat.le_trans hlen hn)

/-! ## Cycles -/

/-- Nothing is below itself: the node that an entry names is not above the one that it stands in. -/
theorem not_under_parent (hroot : ∀ d ∈ es, child d ≠ root)
    (honce : ∀ d ∈ es, ∀ d' ∈ es, child d = child d' → d = d') (he : e ∈ es)
    (h : Under parent child es root (parent e)) : ¬ Under parent child es (child e) (parent e) := by
  -- by induction on the way from the root: a cycle through a node is one through the node above it
  have hall : ∀ q, Under parent child es root q → ∀ e ∈ es, parent e = q →
      ¬ Under parent child es (child e) q := by
    intro q hq
    induction hq with
    | refl =>
      rintro e he - hcycle
      rcases ReflTransGen.cases_tail hcycle with heq | ⟨x, _, d, hd, _, hchild⟩
      · exact hroot e he heq.symm
      · exact hroot d hd hchild
    | tail _ hedge ih =>
      obtain ⟨f, hf, rfl, rfl⟩ := hedge
      intro e he heq hcycle
      have hup : ¬ Under parent child es (child f) (parent f) := ih f hf rfl
      rcases ReflTransGen.cases_tail hcycle with hself | ⟨x, hx, g, hg, hgx, hgf⟩
      · obtain rfl := honce f hf e he hself
        rw [heq] at hup
        exact hup .refl
      · obtain rfl := honce g hg f hf hgf
        subst hgx
        exact hup (.head ⟨e, he, heq, rfl⟩ hx)
  exact hall _ h e he rfl

/-! ## Changes -/

theorem Under.mono (h : Under parent child es a i) (hsub : ∀ d ∈ es, d ∈ es') :
    Under parent child es' a i :=
  ReflTransGen.mono (fun _ _ ⟨d, hd, heq⟩ => ⟨d, hsub d hd, heq⟩) _ _ h

/-- Without the entry of an empty node, everything else can still be reached. -/
theorem Under.drop_leaf {d : ε} (h : Under parent child es a i)
    (hkeep : ∀ x ∈ es, x ≠ d → x ∈ es') (hleaf : ∀ x ∈ es, parent x ≠ child d)
    (hi : i ≠ child d) : Under parent child es' a i := by
  induction h with
  | refl => exact .refl
  | tail _ hedge ih =>
    obtain ⟨x, hx, rfl, rfl⟩ := hedge
    refine (ih (hleaf x hx)).tail ⟨x, hkeep x hx ?_, rfl, rfl⟩
    rintro rfl
    exact hi rfl

/-- Without the entry `e`, everything can still be reached but what is below it. -/
theorem Under.avoid (h : Under parent child es a i) (hkeep : ∀ x ∈ es, x ≠ e → x ∈ es') :
    Under parent child es' a i ∨ Under parent child es (child e) i := by
  classical
  induction h with
  | refl => exact .inl .refl
  | tail _ hedge ih =>
    obtain ⟨x, hx, rfl, rfl⟩ := hedge
    by_cases hxe : x = e
    · subst hxe
      exact .inr .refl
    · rcases ih with h | h
      · exact .inl (h.tail ⟨x, hkeep x hx hxe, rfl, rfl⟩)
      · exact .inr (h.tail ⟨x, hx, rfl, rfl⟩)

/-- What is below the node that `e` names does not need `e`. -/
theorem Under.below (h : Under parent child es (child e) i) (hkeep : ∀ x ∈ es, x ≠ e → x ∈ es') :
    Under parent child es' (child e) i := by
  classical
  induction h with
  | refl => exact .refl
  | tail _ hedge ih =>
    obtain ⟨x, hx, rfl, rfl⟩ := hedge
    by_cases hxe : x = e
    · subst hxe
      exact .refl
    · exact ih.tail ⟨x, hkeep x hx hxe, rfl, rfl⟩

/-- An entry `e` is replaced by one for the same node in `q`, which is not below it: everything is as
reachable as before. -/
theorem Under.move {e' : ε} (h : Under parent child es root i)
    (hkeep : ∀ x ∈ es, x ≠ e → x ∈ es') (he' : e' ∈ es') (hchild : child e' = child e)
    (hq : Under parent child es root (parent e'))
    (hnot : ¬ Under parent child es (child e) (parent e')) : Under parent child es' root i := by
  have hmoved : Under parent child es' root (child e) :=
    ((hq.avoid hkeep).resolve_right hnot).tail ⟨e', he', rfl, hchild⟩
  rcases h.avoid hkeep with h | h
  · exact h
  · exact hmoved.trans (h.below hkeep)

end Hierarchy

end Sjfs.Lib
