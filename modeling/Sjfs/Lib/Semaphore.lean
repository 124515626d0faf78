import Mathlib.Logic.Function.Basic
import Mathlib.Data.List.Nodup

/-!
# Counting semaphores

A semaphore with the behaviour of the Linux kernel's `struct semaphore`: a count and a FIFO list
of waiters. `down` takes one unit, or puts the caller at the end of the list. `up` hands its unit
to the first waiter, if there is one (the count stays as it is), and increments the count
otherwise. `down_trylock` takes one unit or fails, and never waits.

The waiters are names of an arbitrary type `ι`; what a woken waiter does next is up to the caller.
-/

namespace Sjfs.Lib

structure Semaphore (ι : Type) where
  count : Nat
  waiters : List ι
deriving DecidableEq, Repr

namespace Semaphore

variable {ι : Type}

/-- `sema_init(sem, n)`. -/
def init (n : Nat) : Semaphore ι := ⟨n, []⟩

/-- `down(sem)` by `i`. The flag says that the unit was taken at once; if not, `i` now waits. -/
def down (s : Semaphore ι) (i : ι) : Semaphore ι × Bool :=
  if 0 < s.count then ({ s with count := s.count - 1 }, true)
  else ({ s with waiters := s.waiters ++ [i] }, false)

/-- `down_trylock(sem)`. The flag says that the unit was taken (the C function returns 0 then). -/
def downTrylock (s : Semaphore ι) : Semaphore ι × Bool :=
  if 0 < s.count then ({ s with count := s.count - 1 }, true) else (s, false)

/-- `up(sem)`: the new semaphore and the waiter that was released, if any. -/
def up (s : Semaphore ι) : Semaphore ι × Option ι :=
  match s.waiters with
  | [] => ({ s with count := s.count + 1 }, none)
  | i :: is => ({ s with waiters := is }, some i)

theorem down_of_pos {s : Semaphore ι} {i : ι} (h : 0 < s.count) :
    s.down i = ({ s with count := s.count - 1 }, true) := if_pos h

theorem down_of_zero {s : Semaphore ι} {i : ι} (h : s.count = 0) :
    s.down i = ({ s with waiters := s.waiters ++ [i] }, false) := by
  unfold down
  rw [if_neg (by omega)]

theorem downTrylock_of_pos {s : Semaphore ι} (h : 0 < s.count) :
    s.downTrylock = ({ s with count := s.count - 1 }, true) := if_pos h

theorem downTrylock_of_zero {s : Semaphore ι} (h : s.count = 0) :
    s.downTrylock = (s, false) := by
  unfold downTrylock
  rw [if_neg (by omega)]

theorem up_of_nil {s : Semaphore ι} (h : s.waiters = []) :
    s.up = ({ s with count := s.count + 1 }, none) := by
  unfold up
  rw [h]

theorem up_of_cons {s : Semaphore ι} {i : ι} {is : List ι} (h : s.waiters = i :: is) :
    s.up = ({ s with waiters := is }, some i) := by
  unfold up
  rw [h]

/-- A `down` always shows in the semaphore. -/
theorem down_ne (s : Semaphore ι) (i : ι) : (s.down i).1 ≠ s := by
  rcases Nat.eq_zero_or_pos s.count with hz | hp
  · rw [down_of_zero hz]
    intro h
    simpa using congrArg waiters h
  · rw [down_of_pos hp]
    intro h
    have := congrArg count h
    simp only at this
    omega

/-- So does an `up`. -/
theorem up_ne (s : Semaphore ι) : s.up.1 ≠ s := by
  cases hw : s.waiters with
  | nil =>
    rw [up_of_nil hw]
    intro h
    simpa using congrArg count h
  | cons i is =>
    rw [up_of_cons hw]
    intro h
    simpa [hw] using congrArg waiters h

/-- Nobody waits for a unit that is there. -/
def Tight (s : Semaphore ι) : Prop := 0 < s.count → s.waiters = []

namespace Tight

variable {s : Semaphore ι}

theorem down (h : Tight s) (i : ι) : Tight (s.down i).1 := by
  rcases Nat.eq_zero_or_pos s.count with hz | hp
  · rw [down_of_zero hz]
    intro hpos
    exact absurd hpos (by simp [hz])
  · rw [down_of_pos hp]
    intro _
    exact h hp

theorem up (h : Tight s) : Tight s.up.1 := by
  cases hw : s.waiters with
  | nil =>
    rw [up_of_nil hw]
    intro _
    exact hw
  | cons i is =>
    rw [up_of_cons hw]
    intro hpos
    rw [h hpos] at hw
    cases hw

end Tight

/-! ## Queues

The list of waiters against a description `waits` of who is blocked, which the users of the
semaphore keep in their own states. -/

/-- The waiters are exactly those that wait, each once. -/
structure Queue (s : Semaphore ι) (waits : ι → Prop) : Prop where
  nodup : s.waiters.Nodup
  mem : ∀ i, i ∈ s.waiters ↔ waits i

namespace Queue

variable {s : Semaphore ι} {waits waits' : ι → Prop}

theorem congr (h : Queue s waits) (hiff : ∀ i, waits' i ↔ waits i) : Queue s waits' :=
  ⟨h.nodup, fun i => (h.mem i).trans (hiff i).symm⟩

theorem up_waits {j : ι} (h : Queue s waits) (hj : s.up.2 = some j) : waits j := by
  cases hw : s.waiters with
  | nil =>
    rw [up_of_nil hw] at hj
    cases hj
  | cons i is =>
    rw [up_of_cons hw] at hj
    obtain rfl : i = j := Option.some.inj hj
    refine (h.mem i).mp ?_
    rw [hw]
    exact List.mem_cons_self

/-- A `down` that takes its unit leaves the queue alone; one that does not adds the caller. -/
theorem down {i : ι} (h : Queue s waits) (hi : ¬ waits i) :
    Queue (s.down i).1 fun j => waits j ∨ (j = i ∧ (s.down i).2 = false) := by
  rcases Nat.eq_zero_or_pos s.count with hz | hp
  · rw [down_of_zero hz]
    refine ⟨?_, fun j => ?_⟩
    · refine List.nodup_append.mpr ⟨h.nodup, List.nodup_singleton i, ?_⟩
      intro a ha b hb hab
      rw [List.mem_singleton] at hb
      subst hb hab
      exact hi ((h.mem _).mp ha)
    · simp only [List.mem_append, List.mem_singleton, and_true]
      exact or_congr_left (h.mem j)
  · rw [down_of_pos hp]
    exact ⟨h.nodup, fun j => by simpa using h.mem j⟩

/-- `up` takes the first waiter off the queue. -/
theorem up (h : Queue s waits) : Queue s.up.1 fun j => waits j ∧ s.up.2 ≠ some j := by
  cases hw : s.waiters with
  | nil =>
    rw [up_of_nil hw]
    refine ⟨h.nodup, ?_⟩
    intro j
    simpa using h.mem j
  | cons i is =>
    have hnd := h.nodup
    rw [hw, List.nodup_cons] at hnd
    rw [up_of_cons hw]
    refine ⟨hnd.2, ?_⟩
    intro j
    rw [← h.mem j, hw, List.mem_cons]
    constructor
    · intro hj
      refine ⟨Or.inr hj, ?_⟩
      intro he
      cases he
      exact hnd.1 hj
    · rintro ⟨rfl | hj, hne⟩
      · exact absurd rfl hne
      · exact hj

end Queue

/-! ## A semaphore used as a lock -/

/-- The semaphore is a lock held by `owner`: it started at 1 and only its owner releases it. -/
structure Mutex (s : Semaphore ι) (owner : Option ι) : Prop where
  free : owner = none → s.count = 1 ∧ s.waiters = []
  held : ∀ i, owner = some i → s.count = 0

namespace Mutex

variable {s : Semaphore ι} {owner : Option ι}

theorem count_le (h : Mutex s owner) : s.count ≤ 1 := by
  cases owner with
  | none => exact Nat.le_of_eq (h.free rfl).1
  | some i =>
    rw [h.held i rfl]
    exact Nat.zero_le 1

/-- Whoever takes the lock becomes its owner. -/
theorem down (h : Mutex s owner) (i : ι) :
    Mutex (s.down i).1 (if (s.down i).2 then some i else owner) := by
  cases owner with
  | none =>
    obtain ⟨hc, hw⟩ := h.free rfl
    rw [down_of_pos (by omega)]
    exact ⟨fun hn => by simp at hn, fun _ _ => by simp [hc]⟩
  | some o =>
    have hc := h.held o rfl
    rw [down_of_zero hc]
    exact ⟨fun hn => by simp at hn, fun _ _ => hc⟩

/-- Nobody takes a lock that is held. -/
theorem owner_none_of_down (h : Mutex s owner) {i : ι} (hd : (s.down i).2 = true) :
    owner = none := by
  cases owner with
  | none => rfl
  | some o =>
    rw [down_of_zero (h.held o rfl)] at hd
    cases hd

/-- The owner's `up` hands the lock to the first waiter, or frees it. -/
theorem up {o : ι} (h : Mutex s (some o)) : Mutex s.up.1 s.up.2 := by
  have hc := h.held o rfl
  cases hw : s.waiters with
  | nil =>
    rw [up_of_nil hw]
    exact ⟨fun _ => ⟨by simp [hc], hw⟩, fun _ hi => by cases hi⟩
  | cons i is =>
    rw [up_of_cons hw]
    exact ⟨fun hn => by simp at hn, fun _ _ => hc⟩

end Mutex

/-! ## Threads

The waiters of a semaphore as threads: `threads i` is the state of thread `i`, `waits` says which
states are blocked at the semaphore, and `advance` is what the return from the `down` does. -/

/-- The threads after an `up` released the waiter `w`: its `down` returns. -/
def wake {τ : Type} [DecidableEq ι] (advance : τ → τ) (threads : ι → Option τ) :
    Option ι → ι → Option τ
  | none => threads
  | some j => Function.update threads j ((threads j).map advance)

section Threads

variable {τ : Type} [DecidableEq ι] {advance : τ → τ} {threads : ι → Option τ}

theorem wake_apply (advance : τ → τ) (threads : ι → Option τ) (w : Option ι) (j : ι) :
    wake advance threads w j = if w = some j then (threads j).map advance else threads j := by
  cases w with
  | none => rfl
  | some i =>
    by_cases h : i = j
    · subst h
      simp [wake]
    · simp [wake, h, Function.update_of_ne (Ne.symm h)]

/-- A change of one thread that `p` does not see. -/
theorem update_iff {p : Option τ → Prop} {i : ι} {o : Option τ} (h : p o ↔ p (threads i)) (j : ι) :
    p (Function.update threads i o j) ↔ p (threads j) := by
  by_cases hj : j = i
  · subst hj
    rw [Function.update_self]
    exact h
  · rw [Function.update_of_ne hj]

/-- An `up` that `p` does not see. -/
theorem wake_iff {p : Option τ → Prop} {w : Option ι}
    (h : ∀ j, w = some j → (p ((threads j).map advance) ↔ p (threads j))) (j : ι) :
    p (wake advance threads w j) ↔ p (threads j) := by
  rw [wake_apply]
  split
  · next hj => exact h j hj
  · exact Iff.rfl

/-- A thread after a change of thread `i` is that thread, or as before. -/
theorem update_eq_some {i j : ι} {b c : τ} (h : Function.update threads i (some b) j = some c) :
    (j = i ∧ c = b) ∨ threads j = some c := by
  by_cases hj : j = i
  · subst hj
    rw [Function.update_self] at h
    exact .inl ⟨rfl, (Option.some.inj h).symm⟩
  · rw [Function.update_of_ne hj] at h
    exact .inr h

/-- A thread after an `up` is as before, or the waiter. -/
theorem wake_eq_some {w : Option ι} {j : ι} {c : τ} (h : wake advance threads w j = some c) :
    threads j = some c ∨ (w = some j ∧ ∃ b, threads j = some b ∧ c = advance b) := by
  rw [wake_apply] at h
  split at h
  · next hw =>
    obtain ⟨b, hb, rfl⟩ := Option.map_eq_some_iff.mp h
    exact .inr ⟨hw, b, hb, rfl⟩
  · exact .inl h

namespace Queue

variable {s : Semaphore ι} {waits : Option τ → Prop} {i : ι} {o : Option τ}

/-- A thread may change its state as long as it stays in the queue, or out of it. -/
theorem update (h : Queue s fun j => waits (threads j)) (hiff : waits o ↔ waits (threads i)) :
    Queue s fun j => waits (Function.update threads i o j) :=
  h.congr (update_iff hiff)

/-- The `up` of another semaphore, whose waiters are not in this queue. -/
theorem wake_other {w : Option ι} (h : Queue s fun j => waits (threads j))
    (hw : ∀ j, w = some j → ¬ waits (threads j)) (hadv : ∀ o : Option τ, ¬ waits (o.map advance)) :
    Queue s fun j => waits (wake advance threads w j) :=
  h.congr (wake_iff fun j hj => iff_of_false (hadv _) (hw j hj))

/-- A thread that makes a `down` is in the queue afterwards exactly when it did not get its unit. -/
theorem down_update (h : Queue s fun j => waits (threads j)) (hi : ¬ waits (threads i))
    (ho : waits o ↔ (s.down i).2 = false) :
    Queue (s.down i).1 fun j => waits (Function.update threads i o j) := by
  refine (h.down hi).congr ?_
  intro j
  by_cases hj : j = i
  · subst hj
    rw [Function.update_self]
    simp [hi, ho]
  · simp [hj]

/-- The waiter that an `up` releases leaves the queue. -/
theorem up_wake (h : Queue s fun j => waits (threads j))
    (hadv : ∀ o : Option τ, ¬ waits (o.map advance)) :
    Queue s.up.1 fun j => waits (wake advance threads s.up.2 j) := by
  refine h.up.congr ?_
  intro j
  rw [wake_apply]
  split
  · next hj => exact iff_of_false (hadv _) fun hw => hw.2 hj
  · next hj => exact ⟨fun hw => ⟨hw, hj⟩, And.left⟩

end Queue

/-- Some thread is in a state with `P`. -/
def Has (P : τ → Prop) (threads : ι → Option τ) : Prop := ∃ i b, threads i = some b ∧ P b

variable {P : τ → Prop}

theorem has_update_self {i : ι} {b : τ} (h : P b) : Has P (Function.update threads i (some b)) :=
  ⟨i, b, Function.update_self .., h⟩

/-- A thread with `P` may be replaced by one with `P`, and one without it by any other. -/
theorem Has.update {i : ι} {b' : τ} (h : Has P threads)
    (hi : ∀ b, threads i = some b → P b → P b') : Has P (Function.update threads i (some b')) := by
  obtain ⟨j, b, hb, hP⟩ := h
  by_cases hj : j = i
  · subst hj
    exact ⟨j, b', Function.update_self .., hi b hb hP⟩
  · exact ⟨j, b, (Function.update_of_ne hj ..).trans hb, hP⟩

/-- The same for the waiter that an `up` releases. -/
theorem Has.wake {w : Option ι} (h : Has P threads)
    (hw : ∀ j b, w = some j → threads j = some b → P b → P (advance b)) :
    Has P (wake advance threads w) := by
  obtain ⟨j, b, hb, hP⟩ := h
  by_cases hj : w = some j
  · exact ⟨j, advance b, by rw [wake_apply, if_pos hj, hb]; rfl, hw j b hj hb hP⟩
  · exact ⟨j, b, by rw [wake_apply, if_neg hj, hb], hP⟩

/-- An `up` leaves a unit, or it has released a waiter. -/
theorem has_of_up {s : Semaphore ι}
    (hw : ∀ j, s.up.2 = some j → ∃ b, threads j = some b ∧ P (advance b)) :
    0 < s.up.1.count ∨ Has P (wake advance threads s.up.2) := by
  cases hq : s.waiters with
  | nil =>
    rw [up_of_nil hq]
    exact .inl (Nat.succ_pos _)
  | cons j js =>
    have hj : s.up.2 = some j := by rw [up_of_cons hq]
    obtain ⟨b, hb, hP⟩ := hw j hj
    refine .inr ⟨j, advance b, ?_, hP⟩
    rw [wake_apply, if_pos hj, hb]
    rfl

end Threads

end Semaphore

/-! ## One exception

Families of states in which at most one member is not in its default state. -/

/-- `d` everywhere but at `i`. -/
def solo {β : Type} {ι : Type} [DecidableEq ι] (d : β) (i : ι) (b : β) : ι → β :=
  Function.update (fun _ => d) i b

section Solo

variable {β ι : Type} [DecidableEq ι] {d b b' : β} {i j : ι}

@[simp] theorem solo_self : solo d i b i = b := Function.update_self ..

theorem solo_of_ne (h : j ≠ i) : solo d i b j = d := Function.update_of_ne h ..

theorem eq_of_solo_ne (h : solo d i b j ≠ d) : j = i := by
  by_contra hne
  exact h (solo_of_ne hne)

@[simp] theorem update_solo_self : Function.update (solo d i b) i b' = solo d i b' :=
  Function.update_idem ..

@[simp] theorem solo_default : solo d i d = fun _ => d := Function.update_eq_self i _

theorem update_const : Function.update (fun _ : ι => d) i b = solo d i b := rfl

end Solo

end Sjfs.Lib
