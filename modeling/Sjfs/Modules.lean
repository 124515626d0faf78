import Sjfs.Mount

/-!
# Loading and unloading

`sjfs_init` and `sjfs_exit` of `kernel_space_module/sjfs.c`, `init_sjfs_fs` and `exit_sjfs_fs` of
`backup_plans/a/sjfs.c` and `backup_plans/b/sjfs.c`, with the mounts in between. The three modules
have the same name, so one of them is loaded at a time, and they register their callbacks under the
same id.

The kernel loads a module when its init function returns 0, and unloads it when it has no mounts. A
callback is a function of a module, and must not stay registered without it. There are two ways for
it to stay: the init functions of the plans do not remove it when `register_filesystem` fails; and
`sjfs_exit` does not remove one that a failed mount has left (`Sjfs.Mount`). It stays for good then,
because whoever wants to register its own fails, and only whoever has registered one removes it.

Besides, `exit_sjfs_fs` of plan a frees its two semaphores, which are static.

Left out: the flag `once`, which is new with every load; the start of the helper, whose result is
ignored; the blocks on `nls`, a static pointer that nothing ever sets.

Results:
1. `always_clean_iff`: exactly which sequences of loads, unloads, mounts and unmounts keep the
   callback with its module and free only what was allocated.
2. `left_for_good`: once a callback is left behind, no mount of any of the modules succeeds again,
   whatever is loaded later.
-/

namespace Sjfs

open Lib

/-! ## The code -/

inductive Variant
  /-- `kernel_space_module`. -/
  | main
  | planA
  | planB
deriving DecidableEq, Repr

/-- `loaded` is the number of the load and what was loaded, `callback` the number of the load whose
function is registered. `active` and `results` are as in `Mounts`; `badFrees` counts the calls of
`kfree` on objects that were not allocated. -/
structure Modules where
  loads : Nat
  loaded : Option (Nat × Variant)
  callback : Option Nat
  active : Nat
  results : List MountResult
  badFrees : Nat
deriving DecidableEq, Repr

/-- Before the first load. -/
def Modules.init : Modules := ⟨0, none, none, 0, [], 0⟩

namespace Modules

/-- `init_sjfs_fs` of the plans, and whether it returns 0. -/
def initSjfsFs (s : Modules) (addFails registerFails : Bool) : Modules × Bool :=
  if s.callback.isSome || addFails then (s, false)
  else ({ s with callback := some s.loads }, !registerFails)

/-- `sjfs_init`, and whether it returns 0. -/
def sjfsInit (s : Modules) (registerFails : Bool) : Modules × Bool := (s, !registerFails)

/-- The init function of a module. -/
def runInit (s : Modules) (addFails registerFails : Bool) : Variant → Modules × Bool
  | .main => s.sjfsInit registerFails
  | .planA | .planB => s.initSjfsFs addFails registerFails

/-- `insmod`. -/
def insmod (s : Modules) (v : Variant) (addFails registerFails : Bool) : Modules :=
  if s.loaded.isSome then s
  else
    let r := s.runInit addFails registerFails v
    { r.1 with
      loads := s.loads + 1
      loaded := if r.2 then some (s.loads, v) else none }

/-- The exit function of a module. -/
def runExit (s : Modules) : Variant → Modules
  | .main => s
  | .planA => { s with callback := none, badFrees := s.badFrees + 2 }
  | .planB => { s with callback := none }

/-- `rmmod`. -/
def rmmod (s : Modules) : Modules :=
  match s.loaded with
  | some (_, v) => if 0 < s.active then s else { s.runExit v with loaded := none }
  | none => s

/-- The mounts of `kernel_space_module`. -/
def mounts (s : Modules) : Mounts := ⟨s.callback.isSome, s.active, s.results⟩

/-- After a mount or an unmount by the load `n` of `kernel_space_module`. A callback it has
registered is its own. -/
def after (s : Modules) (n : Nat) (m : Mounts) : Modules :=
  { s with
    callback := if m.registered then s.callback <|> some n else none
    active := m.active
    results := m.results }

/-- `mount_nodev(.., sjfs_fill_super)` of the plans: each mount has a superblock of its own. -/
def mountNodev (s : Modules) : Single → Modules
  | .early => { s with results := .error :: s.results }
  | .filled result =>
    if result = 0 then { s with active := s.active + 1, results := .root :: s.results }
    else { s with results := .error :: s.results }

/-- `mount -t sjfs`. Without a module there is no such file system. -/
def mount (s : Modules) (addFails : Bool) (single : Single) : Modules :=
  match s.loaded with
  | some (n, .main) => s.after n (s.mounts.mount addFails single)
  | some (_, .planA) | some (_, .planB) => s.mountNodev single
  | none => s

def unmount (s : Modules) : Modules :=
  match s.loaded with
  | some (n, .main) => s.after n s.mounts.unmount
  | some (_, .planA) | some (_, .planB) => { s with active := s.active - 1 }
  | none => s

inductive Action
  | insmod (v : Variant) (addFails registerFails : Bool)
  | rmmod
  | mount (addFails : Bool) (single : Single)
  | unmount
deriving DecidableEq, Repr

def step (s : Modules) : Action → Option Modules
  | .insmod v addFails registerFails => some (s.insmod v addFails registerFails)
  | .rmmod => some s.rmmod
  | .mount addFails single => some (s.mount addFails single)
  | .unmount => some s.unmount

/-! ## What holds in every state -/

/-- Where the callback of a loaded module is, and where there are mounts. -/
structure Wf (s : Modules) : Prop where
  loaded_lt : ∀ n v, s.loaded = some (n, v) → n < s.loads
  callback_lt : ∀ n, s.callback = some n → n < s.loads
  plan : ∀ n v, s.loaded = some (n, v) → v ≠ .main → s.callback = some n
  mounted : ∀ n, s.loaded = some (n, .main) → 0 < s.active → s.callback = some n
  idle : s.loaded = none → s.active = 0

theorem wf_init : Wf init :=
  ⟨by simp [init], by simp [init], by simp [init], by simp [init], fun _ => rfl⟩

/-- The steps as a relation: one case for each way an action can go. -/
inductive Step (s : Modules) : Action → Modules → Prop
  | busy {v : Variant} {addFails registerFails : Bool} : s.loaded ≠ none →
      Step s (.insmod v addFails registerFails) s
  | initFails {v : Variant} {addFails registerFails : Bool} : s.loaded = none →
      (v = .main ∧ registerFails = true ∨ v ≠ .main ∧ (s.callback ≠ none ∨ addFails = true)) →
      Step s (.insmod v addFails registerFails) { s with loads := s.loads + 1 }
  /-- The init function of a plan fails and leaves its callback. -/
  | leaves {v : Variant} : s.loaded = none → v ≠ .main → s.callback = none →
      Step s (.insmod v false true) { s with loads := s.loads + 1, callback := some s.loads }
  | loadMain {addFails : Bool} : s.loaded = none →
      Step s (.insmod .main addFails false)
        { s with loads := s.loads + 1, loaded := some (s.loads, .main) }
  | loadPlan {v : Variant} : s.loaded = none → v ≠ .main → s.callback = none →
      Step s (.insmod v false false)
        { s with loads := s.loads + 1, loaded := some (s.loads, v), callback := some s.loads }
  | notUnloaded : s.loaded = none ∨ 0 < s.active → Step s .rmmod s
  | unloadMain {n : Nat} : s.loaded = some (n, .main) → s.active = 0 →
      Step s .rmmod { s with loaded := none }
  | unloadPlan {n : Nat} {v : Variant} : s.loaded = some (n, v) → v ≠ .main → s.active = 0 →
      Step s .rmmod { s with
        loaded := none
        callback := none
        badFrees := if v = .planA then s.badFrees + 2 else s.badFrees }
  | noModule {addFails : Bool} {single : Single} : s.loaded = none →
      Step s (.mount addFails single) s
  | notMounted {addFails : Bool} {single : Single} {r : MountResult} : s.loaded ≠ none → r ≠ .root →
      Step s (.mount addFails single) { s with results := r :: s.results }
  /-- A mount of `kernel_space_module` fails and leaves its callback. -/
  | early {n : Nat} : s.loaded = some (n, .main) → s.callback = none →
      Step s (.mount false .early)
        { s with callback := some n, results := .error :: s.results }
  | mountMain {n : Nat} : s.loaded = some (n, .main) → s.callback = none →
      Step s (.mount false (.filled 0))
        { s with callback := some n, active := 1, results := .root :: s.results }
  | mountPlan {addFails : Bool} {n : Nat} {v : Variant} : s.loaded = some (n, v) → v ≠ .main →
      Step s (.mount addFails (.filled 0))
        { s with active := s.active + 1, results := .root :: s.results }
  | nothingMounted : s.loaded = none → Step s .unmount s
  | unmountLast {n : Nat} : s.loaded = some (n, .main) → s.active = 1 →
      Step s .unmount { s with callback := none, active := 0 }
  | unmountOther {n : Nat} {v : Variant} : s.loaded = some (n, v) → (v = .main → s.active ≠ 1) →
      Step s .unmount { s with active := s.active - 1 }

theorem runInit_of_plan (s : Modules) {v : Variant} (h : v ≠ .main)
    (addFails registerFails : Bool) :
    s.runInit addFails registerFails v = s.initSjfsFs addFails registerFails := by
  cases v with
  | main => exact absurd rfl h
  | planA | planB => rfl

theorem insmod_cases (s : Modules) (v : Variant) (addFails registerFails : Bool) :
    Step s (.insmod v addFails registerFails) (s.insmod v addFails registerFails) := by
  unfold insmod
  split
  · next hl => exact .busy (Option.isSome_iff_ne_none.mp hl)
  · next hl =>
    have hl : s.loaded = none := by simpa using hl
    by_cases hv : v = .main
    · subst hv
      cases registerFails with
      | true => simpa [runInit, sjfsInit, hl] using Step.initFails (s := s) hl (.inl ⟨rfl, rfl⟩)
      | false => simpa [runInit, sjfsInit] using Step.loadMain (s := s) hl
    · rw [runInit_of_plan s hv, initSjfsFs]
      split
      · next hc =>
        have hc : s.callback ≠ none ∨ addFails = true := by
          simpa [Option.isSome_iff_ne_none] using hc
        simpa [hl] using Step.initFails (s := s) hl (.inr ⟨hv, hc⟩)
      · next hc =>
        obtain ⟨hfree, rfl⟩ : s.callback = none ∧ addFails = false := by simpa using hc
        cases registerFails with
        | true => simpa [hl] using Step.leaves (s := s) hl hv hfree
        | false => simpa using Step.loadPlan (s := s) hl hv hfree

theorem rmmod_cases (s : Modules) : Step s .rmmod s.rmmod := by
  unfold rmmod
  split
  · next n v hl =>
    split
    · next ha => exact .notUnloaded (.inr ha)
    · next ha =>
      have hz : s.active = 0 := by omega
      cases v with
      | main => exact .unloadMain hl hz
      | planA | planB => exact .unloadPlan hl (by simp) hz
  · next hl => exact .notUnloaded (.inl hl)

/-- A mount of `kernel_space_module`. -/
theorem mountMain_cases {s : Modules} (hs : Wf s) {n : Nat} (hl : s.loaded = some (n, .main))
    (addFails : Bool) (single : Single) :
    Step s (.mount addFails single) (s.after n (s.mounts.mount addFails single)) := by
  have hsome : s.loaded ≠ none := by simp [hl]
  by_cases hrefused : s.mounts.registered = true ∨ addFails = true
  · rw [Mounts.mount_of_refused hrefused]
    have hkept : s.after n (s.mounts.returned .null) = { s with results := .null :: s.results } := by
      cases hc : s.callback <;> simp [after, mounts, Mounts.returned, hc]
    rw [hkept]
    exact .notMounted hsome (by simp)
  · obtain ⟨hr, hadd⟩ := not_or.mp hrefused
    obtain rfl : addFails = false := by simpa using hadd
    have hc : s.callback = none := by simpa [mounts] using hr
    have hz : s.active = 0 := by
      by_contra hne
      have := hs.mounted n hl (Nat.pos_of_ne_zero hne)
      rw [hc] at this
      cases this
    rw [Mounts.mount_of_added (by simpa using hr)]
    cases single with
    | early => simpa [after, mounts, Mounts.mountSingle, Mounts.returned, hc] using Step.early hl hc
    | filled result =>
      by_cases hzero : result = 0
      · subst hzero
        simpa [after, mounts, Mounts.mountSingle, Mounts.returned, hc, hz] using
          Step.mountMain hl hc
      · -- `sjfs_kill_sb` has removed the callback again
        have hkept : s.after n
            (({ s.mounts with registered := true } : Mounts).mountSingle (.filled result)) =
              { s with results := .error :: s.results } := by
          cases s
          simp_all [after, mounts, Mounts.mountSingle, Mounts.returned, Mounts.killSb]
        rw [hkept]
        exact .notMounted hsome (by simp)

theorem mountNodev_cases {s : Modules} {n : Nat} {v : Variant} (hl : s.loaded = some (n, v))
    (hv : v ≠ .main) (addFails : Bool) (single : Single) :
    Step s (.mount addFails single) (s.mountNodev single) := by
  have hsome : s.loaded ≠ none := by simp [hl]
  cases single with
  | early => exact .notMounted hsome (by simp)
  | filled result =>
    unfold mountNodev
    dsimp only
    split
    · next hzero =>
      subst hzero
      exact .mountPlan hl hv
    · exact .notMounted hsome (by simp)

theorem unmountMain_cases {s : Modules} {n : Nat} (hl : s.loaded = some (n, .main)) :
    Step s .unmount (s.after n s.mounts.unmount) := by
  unfold Mounts.unmount
  split
  · next hone => exact .unmountLast hl hone
  · next hne =>
    have hkept : s.after n { s.mounts with active := s.mounts.active - 1 } =
        { s with active := s.active - 1 } := by
      cases hc : s.callback <;> simp [after, mounts, hc]
    rw [hkept]
    exact .unmountOther hl fun _ => hne

theorem step_cases {s t : Modules} {a : Action} (hs : Wf s) (h : step s a = some t) :
    Step s a t := by
  cases a with
  | insmod v addFails registerFails =>
    cases h
    exact insmod_cases s v addFails registerFails
  | rmmod =>
    cases h
    exact rmmod_cases s
  | mount addFails single =>
    cases h
    unfold mount
    split
    · next hl => exact mountMain_cases hs hl addFails single
    · next hl => exact mountNodev_cases hl (by simp) addFails single
    · next hl => exact mountNodev_cases hl (by simp) addFails single
    · next hl => exact .noModule hl
  | unmount =>
    cases h
    unfold unmount
    split
    · next hl => exact unmountMain_cases hl
    · next hl => exact .unmountOther hl (by simp)
    · next hl => exact .unmountOther hl (by simp)
    · next hl => exact .nothingMounted hl

theorem wf_step {s t : Modules} {a : Action} (hs : Wf s) (h : Step s a t) : Wf t := by
  obtain ⟨hloaded, hcallback, hplan, hmounted, hidle⟩ := hs
  have hlater : ∀ n, s.callback = some n → n < s.loads + 1 := by
    intro n hn
    have := hcallback n hn
    omega
  cases h with
  | busy | notUnloaded | noModule | nothingMounted =>
    exact ⟨hloaded, hcallback, hplan, hmounted, hidle⟩
  | initFails hl => exact ⟨by simp [hl], hlater, by simp [hl], by simp [hl], hidle⟩
  | leaves hl => exact ⟨by simp [hl], by simp, by simp [hl], by simp [hl], hidle⟩
  | loadMain hl => exact ⟨by simp, hlater, by simp_all, by simp [hidle hl], by simp⟩
  | loadPlan hl hv => exact ⟨by simp, by simp, by simp, by simp [hidle hl], by simp⟩
  | unloadMain hl hz => exact ⟨by simp, hcallback, by simp, by simp, fun _ => hz⟩
  | unloadPlan hl hv hz => exact ⟨by simp, by simp, by simp, by simp, fun _ => hz⟩
  | notMounted => exact ⟨hloaded, hcallback, hplan, hmounted, hidle⟩
  | early hl hc | mountMain hl hc =>
    exact ⟨hloaded, by simpa using hloaded _ _ hl, by simp_all, by simp [hl], by simp [hl]⟩
  | mountPlan hl hv =>
    exact ⟨hloaded, hcallback, hplan, by simp [hl, hv], by simp [hl]⟩
  | unmountLast hl => exact ⟨hloaded, by simp, by simp_all, by simp, by simp⟩
  | unmountOther hl hone =>
    refine ⟨hloaded, hcallback, hplan, fun n hn hpos => hmounted n hn ?_, by simp [hl]⟩
    exact Nat.lt_of_lt_of_le hpos (Nat.sub_le _ _)

/-! ## Callbacks and frees -/

/-- The registered callback is a function of the module that is loaded, and nothing was freed that
had not been allocated. -/
structure Clean (s : Modules) : Prop where
  wf : Wf s
  owned : ∀ n, s.callback = some n → ∃ v, s.loaded = some (n, v)
  frees : s.badFrees = 0

theorem clean_init : Clean init := ⟨wf_init, by simp [init], rfl⟩

/-- The condition on a step. A plan whose `cn_add_callback` succeeds can register its file system;
`kernel_space_module` is not unloaded with a callback, and plan a is not unloaded. -/
def StepOk (s : Modules) : Action → Prop
  | .insmod v addFails registerFails => s.loaded = none → v ≠ .main → s.callback = none →
      addFails = false → registerFails = false
  | .rmmod => ∀ n v, s.loaded = some (n, v) → s.active = 0 →
      v ≠ .planA ∧ (v = .main → s.callback = none)
  | .mount _ _ | .unmount => True

/-- Without a module there is no callback. -/
theorem Clean.callback_eq {s : Modules} (hs : Clean s) (hl : s.loaded = none) :
    s.callback = none := by
  by_contra hne
  obtain ⟨n, hn⟩ := Option.ne_none_iff_exists'.mp hne
  obtain ⟨v, hv⟩ := hs.owned n hn
  rw [hl] at hv
  cases hv

/-- Exactly the steps that meet `StepOk` keep the callback with its module and free nothing they
should not. -/
theorem step_clean_iff (s : Modules) (a : Action) (hs : Clean s) :
    (∃ t, step s a = some t ∧ Clean t) ↔ StepOk s a := by
  obtain ⟨t, ht⟩ : ∃ t, step s a = some t := by cases a <;> exact ⟨_, rfl⟩
  have h := step_cases hs.wf ht
  have hwf := wf_step hs.wf h
  rw [ht]
  simp only [Option.some.injEq, exists_eq_left']
  cases h with
  | busy hl => exact iff_of_true hs fun hnone => absurd hnone hl
  | initFails hl hwhy =>
    refine iff_of_true ⟨hwf, by simp [hs.callback_eq hl], hs.frees⟩ ?_
    intro _ hv hc hadd
    rcases hwhy with ⟨hmain, _⟩ | ⟨_, hsome | hfails⟩
    · exact absurd hmain hv
    · exact absurd hc hsome
    · rw [hadd] at hfails
      cases hfails
  | leaves hl hv hc =>
    refine iff_of_false ?_ fun hok => Bool.noConfusion (hok hl hv hc rfl)
    intro hclean
    obtain ⟨v, hv⟩ := hclean.owned s.loads rfl
    rw [hl] at hv
    cases hv
  | loadMain hl =>
    exact iff_of_true ⟨hwf, by simp [hs.callback_eq hl], hs.frees⟩ fun _ hv => absurd rfl hv
  | loadPlan => exact iff_of_true ⟨hwf, by simp, hs.frees⟩ fun _ _ _ _ => rfl
  | notUnloaded hwhy =>
    refine iff_of_true hs ?_
    intro n v hl hz
    rcases hwhy with hnone | hpos
    · rw [hl] at hnone
      cases hnone
    · omega
  | unloadMain hl hz =>
    constructor
    · intro hclean n v hl' _
      obtain ⟨rfl, rfl⟩ : _ = n ∧ _ = v := by simpa [hl] using hl'
      exact ⟨by simp, fun _ => hclean.callback_eq rfl⟩
    · intro hok
      have hc := (hok _ _ hl hz).2 rfl
      exact ⟨hwf, by simp [hc], hs.frees⟩
  | @unloadPlan n v hl hv hz =>
    constructor
    · intro hclean n' v' hl' _
      obtain ⟨rfl, rfl⟩ : n = n' ∧ v = v' := by simpa [hl] using hl'
      refine ⟨?_, fun hmain => absurd hmain hv⟩
      rintro rfl
      have hfrees := hclean.frees
      simp at hfrees
    · intro hok
      have hne := (hok n v hl hz).1
      exact ⟨hwf, by simp, by simpa [hne] using hs.frees⟩
  | noModule | nothingMounted => exact iff_of_true hs trivial
  | notMounted => exact iff_of_true ⟨hwf, hs.owned, hs.frees⟩ trivial
  | early hl | mountMain hl => exact iff_of_true ⟨hwf, by simp [hl], hs.frees⟩ trivial
  | mountPlan | unmountOther => exact iff_of_true ⟨hwf, hs.owned, hs.frees⟩ trivial
  | unmountLast => exact iff_of_true ⟨hwf, by simp, hs.frees⟩ trivial

/-- A sequence of loads, unloads, mounts and unmounts keeps every callback with its module, and
frees only what was allocated, exactly when no plan fails to register its file system behind its
callback, `kernel_space_module` is never unloaded with a callback that a mount has left, and plan a
is never unloaded. -/
theorem always_clean_iff (as : List Action) :
    Always step Clean init as ↔ StepsOk step StepOk init as :=
  always_iff step_clean_iff clean_init as

/-! ## A callback that is left behind -/

/-- The registered callback is a function of a module that is not loaded any more. -/
def LeftBehind (s : Modules) : Prop := ∃ n, s.callback = some n ∧ ∀ v, s.loaded ≠ some (n, v)

/-- There are no mounts beside such a callback. -/
theorem LeftBehind.active_eq {s : Modules} (hs : Wf s) (h : LeftBehind s) : s.active = 0 := by
  obtain ⟨n, hc, hn⟩ := h
  cases hl : s.loaded with
  | none => exact hs.idle hl
  | some p =>
    obtain ⟨m, v⟩ := p
    have hne : s.callback ≠ some m := by
      intro hm
      obtain rfl : n = m := Option.some.inj (hc.symm.trans hm)
      exact hn v hl
    by_contra hpos
    by_cases hv : v = .main
    · subst hv
      exact hne (hs.mounted m hl (Nat.pos_of_ne_zero hpos))
    · exact hne (hs.plan m v hl hv)

theorem leftBehind_step {s t : Modules} {a : Action} (hs : Wf s) (hleft : LeftBehind s)
    (h : Step s a t) : LeftBehind t ∧ t.results.count .root = s.results.count .root := by
  have hz := hleft.active_eq hs
  obtain ⟨n, hc, hn⟩ := hleft
  have hplan : ∀ m v, s.loaded = some (m, v) → v = .main := by
    intro m v hl
    by_contra hv
    obtain rfl : n = m := Option.some.inj (hc.symm.trans (hs.plan m v hl hv))
    exact hn v hl
  cases h with
  | busy | notUnloaded | noModule | nothingMounted => exact ⟨⟨n, hc, hn⟩, rfl⟩
  | initFails hl => exact ⟨⟨n, hc, hn⟩, rfl⟩
  | leaves _ _ hfree | loadPlan _ _ hfree | early _ hfree | mountMain _ hfree =>
    rw [hc] at hfree
    cases hfree
  | loadMain =>
    refine ⟨⟨n, hc, ?_⟩, rfl⟩
    rintro v ⟨⟩
    exact Nat.lt_irrefl _ (hs.callback_lt _ hc)
  | unloadMain => exact ⟨⟨n, hc, by simp⟩, rfl⟩
  | unloadPlan hl hv | mountPlan hl hv => exact absurd (hplan _ _ hl) hv
  | @notMounted _ _ r _ hr => exact ⟨⟨n, hc, hn⟩, List.count_cons_of_ne hr⟩
  | unmountLast _ hone => omega
  | unmountOther => exact ⟨⟨n, hc, hn⟩, rfl⟩

theorem wf_of_reach {s : Modules} (h : Reach step (fun _ _ => True) init s) : Wf s :=
  h.invariant wf_init fun _ _ _ hs _ hstep => wf_step hs (step_cases hs hstep)

/-- Once a callback is left behind it stays, and no mount of any of the modules succeeds again,
whatever is loaded, unloaded and mounted later. -/
theorem left_for_good {s t : Modules} (hs : Reach step (fun _ _ => True) init s)
    (hleft : LeftBehind s) (h : Reach step (fun _ _ => True) s t) :
    LeftBehind t ∧ t.active = 0 ∧ t.results.count .root = s.results.count .root := by
  have hinv : Wf t ∧ LeftBehind t ∧ t.results.count .root = s.results.count .root := by
    refine h.invariant
      (I := fun t => Wf t ∧ LeftBehind t ∧ t.results.count .root = s.results.count .root)
      ⟨wf_of_reach hs, hleft, rfl⟩ ?_
    rintro t a u ⟨hwf, hleft, hroots⟩ _ hstep
    have h := step_cases hwf hstep
    obtain ⟨hleft', hroots'⟩ := leftBehind_step hwf hleft h
    exact ⟨wf_step hwf h, hleft', hroots'.trans hroots⟩
  exact ⟨hinv.2.1, hinv.2.1.active_eq hinv.1, hinv.2.2⟩

/-- `kernel_space_module` is unloaded after a mount that failed early. -/
def unloadedTooSoon : List Action := [.insmod .main false false, .mount false .early, .rmmod]

/-- It is loaded again, and mounted. -/
def secondTry : List Action := [.insmod .main false false, .mount false (.filled 0)]

theorem left_secondTry :
    ∃ s t, unloadedTooSoon.foldlM step init = some s ∧ secondTry.foldlM step s = some t ∧
      LeftBehind s ∧ t.results.head? = some .null ∧
      LeftBehind t ∧ t.active = 0 ∧ t.results.count .root = s.results.count .root := by
  have hrun : ∃ s t, unloadedTooSoon.foldlM step init = some s ∧
      secondTry.foldlM step s = some t ∧ s.callback = some 0 ∧ s.loaded = none ∧
      t.results.head? = some .null := ⟨_, _, rfl, rfl, rfl, rfl, rfl⟩
  obtain ⟨s, t, hs, ht, hc, hl, hnull⟩ := hrun
  have hleft : LeftBehind s := ⟨0, hc, by simp [hl]⟩
  exact ⟨s, t, hs, ht, hleft, hnull, left_for_good (.of_foldlM hs) hleft (.of_foldlM ht)⟩

end Modules

end Sjfs
