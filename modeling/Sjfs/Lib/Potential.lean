import Mathlib.Algebra.BigOperators.Finprod
import Mathlib.Algebra.Order.BigOperators.Group.Finset
import Mathlib.Algebra.BigOperators.Group.Finset.Piecewise
import Sjfs.Lib.Transition
import Sjfs.Lib.Semaphore

/-!
# Work left

How long the runs of a machine can be. Every state has some work left, every step does a piece of
it, and some actions bring new work; then a run has at most as many steps as work was brought
(`length_le_cost`).

The work of a machine with threads is the sum over its threads (`total`). Threads are numbered, and
only finitely many have been started.
-/

namespace Sjfs.Lib

variable {σ α ι τ : Type}

/-- If every step does one unit of the work `left`, and an action brings at most `cost` of it, then
a run is not longer than the work there was and the work it brought. -/
theorem length_le_cost {step : σ → α → Option σ} (I : σ → Prop) (left : σ → Nat) (cost : α → Nat)
    (hstep : ∀ s a t, I s → step s a = some t → I t ∧ left t + 1 ≤ left s + cost a)
    {s t : σ} (hs : I s) {as : List α} (hrun : as.foldlM step s = some t) :
    as.length + left t ≤ left s + (as.map cost).sum := by
  induction as generalizing s with
  | nil =>
    cases hrun
    simp
  | cons a as ih =>
    rw [List.foldlM_cons] at hrun
    obtain ⟨u, hu, hrest⟩ := Option.bind_eq_some_iff.mp hrun
    obtain ⟨hI, hle⟩ := hstep s a u hs hu
    have hlen := ih hI hrest
    rw [List.length_cons, List.map_cons, List.sum_cons]
    omega

/-! ## Threads -/

/-- What thread `i` adds to the sum: nothing when it was not started. -/
def share (weight : τ → Nat) (threads : ι → Option τ) (i : ι) : Nat := (threads i).elim 0 weight

/-- The sum of the weights of all threads. -/
noncomputable def total (weight : τ → Nat) (threads : ι → Option τ) : Nat :=
  finsum (share weight threads)

/-- Only finitely many threads were started. -/
def Finitely (threads : ι → Option τ) : Prop :=
  ∃ started : Finset ι, ∀ i, i ∉ started → threads i = none

variable {weight : τ → Nat} {threads : ι → Option τ}

theorem finitely_none : Finitely (fun _ : ι => (none : Option τ)) := ⟨∅, fun _ _ => rfl⟩

theorem Finitely.exists_none [Infinite ι] (h : Finitely threads) : ∃ i, threads i = none := by
  obtain ⟨started, hs⟩ := h
  obtain ⟨i, hi⟩ := Infinite.exists_notMem_finset started
  exact ⟨i, hs i hi⟩

theorem Finitely.update [DecidableEq ι] (h : Finitely threads) (i : ι) (o : Option τ) :
    Finitely (Function.update threads i o) := by
  obtain ⟨started, hs⟩ := h
  refine ⟨insert i started, ?_⟩
  intro j hj
  rw [Finset.mem_insert, not_or] at hj
  rw [Function.update_of_ne hj.1]
  exact hs j hj.2

/-- The sum may be taken over any set that holds all threads that were started. -/
theorem total_eq {started : Finset ι} (h : ∀ i, i ∉ started → threads i = none) :
    total weight threads = started.sum (share weight threads) := by
  refine finsum_eq_sum_of_support_subset _ ?_
  intro i hi
  by_contra hni
  exact hi (by simp [share, h i hni])

theorem total_none : total weight (fun _ : ι => none) = 0 := by
  have h : ∀ i : ι, i ∉ (∅ : Finset ι) → (fun _ => none : ι → Option τ) i = none := fun _ _ => rfl
  rw [total_eq h, Finset.sum_empty]

/-- The sum changes by what the one thread that moved gained or lost. -/
theorem total_update [DecidableEq ι] (weight : τ → Nat) (h : Finitely threads) (i : ι) (b : τ) :
    total weight (Function.update threads i (some b)) + share weight threads i =
      total weight threads + weight b := by
  obtain ⟨started, hs⟩ := h
  have hold : ∀ j, j ∉ insert i started → threads j = none := by
    intro j hj
    exact hs j fun hmem => hj (Finset.mem_insert_of_mem hmem)
  have hnew : ∀ j, j ∉ insert i started → Function.update threads i (some b) j = none := by
    intro j hj
    have hji : j ≠ i := fun he => hj (he ▸ Finset.mem_insert_self i started)
    rw [Function.update_of_ne hji]
    exact hold j hj
  have hshare : share weight (Function.update threads i (some b)) =
      Function.update (share weight threads) i (weight b) := by
    funext j
    by_cases hj : j = i
    · subst hj
      simp [share]
    · simp [share, hj]
  have hi : i ∈ insert i started := Finset.mem_insert_self i started
  rw [total_eq hold, total_eq hnew, hshare, Finset.sum_update_of_mem hi,
    ← Finset.add_sum_erase _ _ hi, Finset.sdiff_singleton_eq_erase]
  omega

theorem Finitely.wake [DecidableEq ι] (h : Finitely threads) (advance : τ → τ) (w : Option ι) :
    Finitely (Semaphore.wake advance threads w) := by
  cases w with
  | none => exact h
  | some j => exact h.update j _

/-- The return from a `down` is no work. -/
theorem total_wake [DecidableEq ι] {advance : τ → τ} {w : Option ι}
    (hw : ∀ j b, w = some j → threads j = some b → weight (advance b) = weight b) :
    total weight (Semaphore.wake advance threads w) = total weight threads := by
  refine finsum_congr ?_
  intro j
  unfold share
  rw [Semaphore.wake_apply]
  split
  · next hj =>
    cases hb : threads j with
    | none => rfl
    | some b => exact hw j b hj hb
  · rfl

end Sjfs.Lib
