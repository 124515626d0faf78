import Sjfs.Lib.Transition

/-!
# Mounting

`sjfs_mount` and `sjfs_kill_sb` of `kernel_space_module/sjfs.c`, and what the VFS does around them:
`mount_single` may fail before there is a superblock, and then calls nothing; it shares a superblock
that exists; it makes a new one with `sjfs_fill_super`, and calls `sjfs_kill_sb` if that fails. The
last unmount calls `sjfs_kill_sb`.

`sjfs_mount` registers the callback before it calls `mount_single`, and only `sjfs_kill_sb` removes
it again. So a mount that fails before there is a superblock leaves the callback behind, and every
later mount fails on it, returning `NULL`.

Left out: the blocks on `nls`, a static pointer that nothing ever sets.

Results:
1. `step_paired_iff`: exactly which step keeps registration and superblock together.
2. `always_paired_iff`: exactly which sequences of mounts and unmounts do.
-/

namespace Sjfs

open Lib

/-! ## The code -/

/-- What `sjfs_mount` returns: `NULL`, an error pointer, or the root. -/
inductive MountResult
  | null
  | error
  | root
deriving DecidableEq, Repr

/-- The registration of `cn_id` and the superblock. The superblock exists while it has active
mounts. `results` are the returns of `sjfs_mount` so far, the last one first. -/
structure Mounts where
  registered : Bool
  active : Nat
  results : List MountResult
deriving DecidableEq, Repr

/-- Before the first mount. -/
def Mounts.init : Mounts := ⟨false, 0, []⟩

/-- How `mount_single` goes: it fails before there is a superblock, or it gets there, and
`sjfs_fill_super` returns `result` if the superblock is new. -/
inductive Single
  | early
  | filled (result : Int)
deriving DecidableEq, Repr

namespace Mounts

/-- `cn_add_callback(&cn_id, ..)`: `none` is an error. It fails when the id is registered, and may
fail otherwise. -/
def cnAddCallback (s : Mounts) (fails : Bool) : Option Mounts :=
  if s.registered || fails then none else some { s with registered := true }

/-- `sjfs_kill_sb`: `kill_litter_super` and `cn_del_callback`. -/
def killSb (s : Mounts) : Mounts := { s with active := 0, registered := false }

def returned (s : Mounts) (r : MountResult) : Mounts := { s with results := r :: s.results }

/-- `mount_single(.., sjfs_fill_super)`. -/
def mountSingle (s : Mounts) : Single → Mounts
  | .early => s.returned .error
  | .filled result =>
    if 0 < s.active then { s with active := s.active + 1 }.returned .root
    else if result = 0 then { s with active := 1 }.returned .root
    else s.killSb.returned .error

/-- `sjfs_mount`. -/
def mount (s : Mounts) (addFails : Bool) (single : Single) : Mounts :=
  match s.cnAddCallback addFails with
  | none => s.returned .null
  | some s => s.mountSingle single

/-- An unmount; without a mount it fails. -/
def unmount (s : Mounts) : Mounts :=
  if s.active = 1 then s.killSb else { s with active := s.active - 1 }

inductive Action
  | mount (addFails : Bool) (single : Single)
  | unmount
deriving DecidableEq, Repr

def step (s : Mounts) : Action → Option Mounts
  | .mount addFails single => some (s.mount addFails single)
  | .unmount => some s.unmount

/-! ## Registration and superblock -/

/-- The callback is registered exactly while there is a superblock, and no mount has returned
`NULL`; so without a superblock a mount in which nothing fails gets the root. -/
structure Paired (s : Mounts) : Prop where
  registered_iff : s.registered = true ↔ 0 < s.active
  no_null : .null ∉ s.results
  mountable : s.active = 0 → (s.mount false (.filled 0)).results.head? = some .root

theorem mountable_of_unregistered {s : Mounts} (h : s.registered = false) :
    (s.mount false (.filled 0)).results.head? = some .root := by
  unfold mount cnAddCallback mountSingle returned
  rw [h]
  by_cases ha : 0 < s.active <;> simp [ha]

theorem Paired.mk_of {s : Mounts} (h : s.registered = true ↔ 0 < s.active)
    (hnull : .null ∉ s.results) : Paired s := by
  refine ⟨h, hnull, fun hz => mountable_of_unregistered ?_⟩
  rw [← Bool.not_eq_true, h]
  omega

theorem paired_init : Paired init := .mk_of (by decide) (by decide)

/-- The condition on a step: a mount is tried while there is no superblock, its `cn_add_callback`
does not fail, and its `mount_single` gets as far as to a superblock. Whether `sjfs_fill_super` then
fails does not matter. -/
def StepOk (s : Mounts) : Action → Prop
  | .mount addFails single => s.active = 0 ∧ addFails = false ∧ single ≠ .early
  | .unmount => True

theorem paired_unmount {s : Mounts} (h : Paired s) : Paired s.unmount := by
  unfold unmount
  split
  · exact .mk_of (by simp [killSb]) h.no_null
  · refine .mk_of ?_ h.no_null
    show s.registered = true ↔ _
    rw [h.registered_iff]
    simp only
    omega

/-- A mount that runs into the callback of another one, or whose `cn_add_callback` fails. -/
theorem mount_of_refused {s : Mounts} {addFails : Bool} (h : s.registered = true ∨ addFails = true)
    (single : Single) : s.mount addFails single = s.returned .null := by
  have hnone : s.cnAddCallback addFails = none := if_pos (by simpa using h)
  unfold mount
  rw [hnone]

theorem mount_of_added {s : Mounts} (h : s.registered = false) (single : Single) :
    s.mount false single = { s with registered := true }.mountSingle single := by
  unfold mount cnAddCallback
  rw [h]
  rfl

theorem paired_mountSingle_iff {s : Mounts} (h : Paired s) (hz : s.active = 0) (single : Single) :
    Paired ({ s with registered := true }.mountSingle single) ↔ single ≠ .early := by
  cases single with
  | early =>
    -- the callback stays behind
    refine iff_of_false (fun hp => ?_) (fun hne => hne rfl)
    have := hp.registered_iff.mp rfl
    simp only [mountSingle, returned] at this
    omega
  | filled result =>
    refine iff_of_true ?_ (by simp)
    unfold mountSingle
    dsimp only
    rw [if_neg (by omega)]
    split
    · exact .mk_of (by simp [returned]) (by simpa [returned] using h.no_null)
    · exact .mk_of (by simp [returned, killSb]) (by simpa [returned, killSb] using h.no_null)

/-- Exactly the steps that meet `StepOk` keep registration and superblock together. -/
theorem step_paired_iff (s : Mounts) (a : Action) (h : Paired s) :
    (∃ t, step s a = some t ∧ Paired t) ↔ StepOk s a := by
  cases a with
  | unmount => exact iff_of_true ⟨_, rfl, paired_unmount h⟩ trivial
  | mount addFails single =>
    simp only [step, Option.some.injEq, exists_eq_left', StepOk]
    by_cases hrefused : s.registered = true ∨ addFails = true
    · rw [mount_of_refused hrefused]
      refine iff_of_false (fun hp => hp.no_null List.mem_cons_self) ?_
      rintro ⟨hz, hadd, _⟩
      rcases hrefused with hr | hr
      · have := h.registered_iff.mp hr
        omega
      · rw [hadd] at hr
        cases hr
    · obtain ⟨hr, hadd⟩ := not_or.mp hrefused
      have hz : s.active = 0 := by
        have := h.registered_iff.not.mp hr
        omega
      obtain rfl : addFails = false := by simpa using hadd
      rw [mount_of_added (by simpa using hr), paired_mountSingle_iff h hz]
      simp [hz]

/-- A sequence of mounts and unmounts keeps registration and superblock together throughout exactly
when each of its mounts is tried while there is no superblock, registers its callback, and gets as
far as to a superblock. -/
theorem always_paired_iff (as : List Action) :
    Always step Paired init as ↔ StepsOk step StepOk init as :=
  always_iff step_paired_iff paired_init as

/-- A mount that fails before there is a superblock, and one in which nothing fails. -/
def earlyFailure : List Action := [.mount false .early, .mount false (.filled 0)]

/-- The first mount leaves its callback behind, and the second one returns `NULL`. -/
theorem early_failure_blocks_mounts :
    (∃ s, earlyFailure.foldlM step init = some s ∧ s.registered = true ∧ s.active = 0 ∧
      s.results = [.null, .error]) ∧
    ¬ ∀ as, Always step Paired init as := by
  refine ⟨⟨⟨true, 0, [.null, .error]⟩, rfl, rfl, rfl, rfl⟩, ?_⟩
  intro h
  obtain ⟨_, t, ht, hp, _⟩ := h earlyFailure
  cases ht
  have := hp.registered_iff.mp rfl
  exact absurd this (by decide)

end Mounts

end Sjfs
