import Mathlib.Data.List.Basic

/-!
# Runs of a state machine

A machine is a step function `step : σ → α → Option σ`: `step s a = some t` when the action `a`
is enabled in `s` and leads to `t`, and `none` when it is not enabled. Nothing here knows what
the states are.

* `Reach step ok s₀`: the states reached from `s₀` by steps that all meet `ok`. `Reach.invariant`
  is the induction rule every safety result uses.
* `StepsOk step ok s as`: every step of the run `as` from `s` meets `ok`; `checks` evaluates a test
  along a concrete run.
* `Always step I s as`: the run `as` from `s` can be carried out, and `I` holds in every state it
  visits. `always_iff` lifts an exact condition on one step to whole runs.
* `tally step weight s as`: the sum of `weight` over the steps of the run `as` from `s`;
  `balance` lifts what every step adds and takes away to whole runs.
-/

namespace Sjfs.Lib

variable {σ α : Type}

/-- The states reachable from `s₀` by steps of `step` that meet `ok` (a condition on the state
before the step and on the action). -/
inductive Reach (step : σ → α → Option σ) (ok : σ → α → Prop) (s₀ : σ) : σ → Prop
  | refl : Reach step ok s₀ s₀
  | tail {s t : σ} {a : α} : Reach step ok s₀ s → ok s a → step s a = some t →
      Reach step ok s₀ t

/-- Every step of the run `as` from `s` meets `ok`. -/
def StepsOk (step : σ → α → Option σ) (ok : σ → α → Prop) : σ → List α → Prop
  | _, [] => True
  | s, a :: as => ok s a ∧ ∀ t, step s a = some t → StepsOk step ok t as

/-- The run `as` from `s` can be carried out to its end, and `I` holds in every state on the
way, the first and the last included. -/
def Always (step : σ → α → Option σ) (I : σ → Prop) : σ → List α → Prop
  | s, [] => I s
  | s, a :: as => I s ∧ ∃ t, step s a = some t ∧ Always step I t as

/-- `check` says yes to every step of the run `as` from `s`. -/
def checks (step : σ → α → Option σ) (check : σ → α → Bool) : σ → List α → Bool
  | _, [] => true
  | s, a :: as => check s a && match step s a with
    | some t => checks step check t as
    | none => true

/-- The sum of `weight` over the steps of the run `as` from `s`. -/
def tally (step : σ → α → Option σ) (weight : σ → α → Nat) : σ → List α → Nat
  | _, [] => 0
  | s, a :: as => weight s a + match step s a with
    | some t => tally step weight t as
    | none => 0

variable {step : σ → α → Option σ} {ok : σ → α → Prop} {I : σ → Prop}

/-- The invariant rule: what holds at the start and is preserved by every admitted step holds in
every reachable state. -/
theorem Reach.invariant {s₀ s : σ} (h : Reach step ok s₀ s) (h0 : I s₀)
    (hstep : ∀ s a t, I s → ok s a → step s a = some t → I t) : I s := by
  induction h with
  | refl => exact h0
  | tail _ hok hs ih => exact hstep _ _ _ ih hok hs

theorem Reach.trans {s₀ s t : σ} (h : Reach step ok s₀ s) (h' : Reach step ok s t) :
    Reach step ok s₀ t := by
  induction h' with
  | refl => exact h
  | tail _ hok hs ih => exact ih.tail hok hs

/-- An executed run whose steps are all admitted ends in a reachable state. -/
theorem Reach.of_run {s t : σ} {as : List α} (hok : StepsOk step ok s as)
    (hrun : as.foldlM step s = some t) : Reach step ok s t := by
  induction as generalizing s with
  | nil =>
    cases hrun
    exact .refl
  | cons a as ih =>
    rw [List.foldlM_cons] at hrun
    obtain ⟨u, hu, hrest⟩ := Option.bind_eq_some_iff.mp hrun
    exact (Reach.refl.tail hok.1 hu).trans (ih (hok.2 u hu) hrest)

/-- A run without conditions on its steps. -/
theorem Reach.of_foldlM {s t : σ} {as : List α} (hrun : as.foldlM step s = some t) :
    Reach step (fun _ _ => True) s t := by
  refine .of_run ?_ hrun
  clear hrun
  induction as generalizing s with
  | nil => trivial
  | cons a as ih => exact ⟨trivial, fun _ _ => ih⟩

/-- A condition on the actions alone only has to be checked on the list of actions. -/
theorem StepsOk.of_forall {allowed : α → Prop} {s : σ} {as : List α} (h : ∀ a ∈ as, allowed a) :
    StepsOk step (fun _ a => allowed a) s as := by
  induction as generalizing s with
  | nil => trivial
  | cons a as ih =>
    exact ⟨h a List.mem_cons_self, fun t _ => ih fun b hb => h b (List.mem_cons_of_mem a hb)⟩

theorem StepsOk.cons {s t : σ} {a : α} {as : List α} (hok : ok s a) (hs : step s a = some t)
    (h : StepsOk step ok t as) : StepsOk step ok s (a :: as) := by
  refine ⟨hok, ?_⟩
  intro u hu
  rw [hs] at hu
  cases hu
  exact h

/-- A concrete run can be checked by evaluation, with a test that is enough for the condition, up to
the steps the test says nothing about. -/
theorem StepsOk.append_of_checks {check : σ → α → Bool} (hcheck : ∀ s a, check s a = true → ok s a)
    {s t : σ} {as bs : List α} (h : checks step check s as = true)
    (hrun : as.foldlM step s = some t) (hbs : StepsOk step ok t bs) :
    StepsOk step ok s (as ++ bs) := by
  induction as generalizing s with
  | nil =>
    cases hrun
    exact hbs
  | cons a as ih =>
    obtain ⟨ha, hrest⟩ := Bool.and_eq_true_iff.mp h
    rw [List.foldlM_cons] at hrun
    obtain ⟨u, hu, hrun⟩ := Option.bind_eq_some_iff.mp hrun
    rw [hu] at hrest
    exact .cons (hcheck s a ha) hu (ih hrest hrun)

/-- If, from a state with `I`, the condition `ok` says exactly when the step can be made and
leads to `I` again, then it says exactly when a whole run keeps `I`. -/
theorem always_iff (hstep : ∀ s a, I s → ((∃ t, step s a = some t ∧ I t) ↔ ok s a))
    {s : σ} (hs : I s) (as : List α) : Always step I s as ↔ StepsOk step ok s as := by
  induction as generalizing s with
  | nil => exact ⟨fun _ => trivial, fun _ => hs⟩
  | cons a as ih =>
    constructor
    · rintro ⟨_, t, ht, hrest⟩
      have hI : I t := by cases as with
        | nil => exact hrest
        | cons b bs => exact hrest.1
      refine ⟨(hstep s a hs).mp ⟨t, ht, hI⟩, ?_⟩
      intro u hu
      rw [ht] at hu
      cases hu
      exact (ih hI).mp hrest
    · rintro ⟨hok, hrest⟩
      obtain ⟨t, ht, hI⟩ := (hstep s a hs).mpr hok
      exact ⟨hs, t, ht, (ih hI).mpr (hrest t ht)⟩

/-- If every step from a state with `I` leads to `I`, adds `plus` to `size` and takes `minus` away,
then the same holds of a run with the sums over its steps. -/
theorem balance {size : σ → Nat} {plus minus : σ → α → Nat}
    (hstep : ∀ s a t, I s → step s a = some t → I t ∧ size t + minus s a = size s + plus s a)
    {s t : σ} (hs : I s) {as : List α} (hrun : as.foldlM step s = some t) :
    I t ∧ size t + tally step minus s as = size s + tally step plus s as := by
  induction as generalizing s with
  | nil =>
    cases hrun
    exact ⟨hs, rfl⟩
  | cons a as ih =>
    rw [List.foldlM_cons] at hrun
    obtain ⟨u, hu, hrest⟩ := Option.bind_eq_some_iff.mp hrun
    obtain ⟨hI, hsize⟩ := hstep s a u hs hu
    obtain ⟨ht, hrun⟩ := ih hI hrest
    refine ⟨ht, ?_⟩
    simp only [tally, hu]
    omega

end Sjfs.Lib
