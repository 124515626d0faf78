import Sjfs.Lib.Transition
import Sjfs.Options
import Sjfs.FormatResult
import Sjfs.PlanA.Helper

/-!
# Instances of the helper

`main` of `user_space_application/main.c`, run by any number of processes. It starts with a lock on
`/var/run/sjfs_helper.pid`, to "only allow a single instance of this program to be run at any given
time". After that it parses its options, formats the disk when it is asked to, opens the disk and a
socket, and waits for messages.

`main` looks at `errno` only for `EWOULDBLOCK`. When the file cannot be opened, or `flock` fails for
any other reason, it goes on without the lock. `main` does not give the lock back: the kernel takes
it when the process ends.

`format` is two steps here: it empties the file, and later on it is done with its writes. What
`do_work` does with a message is left out, as it has no code that reads or writes the disk.

Results:
1. `SingleInstance.alone`: at most one process is past the protection.
2. `SingleInstance.refused`: a process is turned away only because of another one that is running.
3. `always_single_iff`: exactly which runs keep the protection and what was formatted.
-/

namespace Sjfs

open Lib

/-! ## The code -/

/-- What a process does next. -/
inductive MainPc
  | openPid
  | flock
  | getopt
  | format (filename : String) (size : Int)
  /-- Inside `format`, with the file open and empty. -/
  | fill (filename : String) (size : Int) (libc : Libc)
  | fopen (filename : String)
  | socket (filename : String)
  | bind (filename : String)
  | loop (filename : String)
  | exited (status : Int)

/-- The process is past the protection and has not ended. -/
def MainPc.running : MainPc → Bool
  | .openPid | .flock | .exited _ => false
  | _ => true

/-- A process with its arguments. `pidFile` says whether the file of the lock was opened. -/
structure Instance where
  opts : List Getopt
  operand : Option String
  pc : MainPc
  pidFile : Bool

/-- The processes that were started, the one that has the lock, and the files. -/
structure Instances where
  procs : Nat → Option Instance
  lock : Option Nat
  files : String → Option (List UInt8)

/-- Before the first start. -/
def Instances.init (files : String → Option (List UInt8)) : Instances :=
  ⟨fun _ => none, none, files⟩

namespace Instances

/-- What the next system call of a process answers. -/
inductive Answer
  | openPid (fails : Bool)
  /-- `fails` is a failure that does not come from another holder. -/
  | flock (fails : Bool)
  | getopt
  | format (libc : Libc)
  | fill
  | fopen (fails : Bool)
  | socket (fails : Bool)
  | bind (fails : Bool)
  | poll (event : PlanA.Event)
  | kill

inductive Action
  | start (i : Nat) (opts : List Getopt) (operand : Option String)
  | go (i : Nat) (answer : Answer)

/-- The process `i` goes on at `pc`. -/
def goto (s : Instances) (i : Nat) (p : Instance) (pc : MainPc) : Instances :=
  { s with procs := Function.update s.procs i (some { p with pc := pc }) }

/-- `exit(status)`, or the end of the process from outside. -/
def exit (s : Instances) (i : Nat) (p : Instance) (status : Int) : Instances :=
  { s.goto i p (.exited status) with lock := if s.lock = some i then none else s.lock }

def write (s : Instances) (filename : String) (file : Option (List UInt8)) : Instances :=
  { s with files := Function.update s.files filename file }

/-- `flock(pid_file, LOCK_EX | LOCK_NB)` and the test of its result. -/
def flock (s : Instances) (i : Nat) (p : Instance) (fails : Bool) : Instances :=
  if !p.pidFile || fails then s.goto i p .getopt
  else if s.lock.isSome then s.exit i p 1
  else { s.goto i p .getopt with lock := some i }

/-- The options. -/
def getopt (s : Instances) (i : Nat) (p : Instance) : Instances :=
  match mainOptions p.opts p.operand with
  | .usage => s.exit i p 1
  | .format filename size => s.goto i p (.format filename size)
  | .plain filename => s.goto i p (.fopen filename)

/-- `format` up to `fopen(filename, "wb")`. -/
def formatOpen (s : Instances) (i : Nat) (p : Instance) (filename : String) (size : Int)
    (libc : Libc) : Instances :=
  if libc.callocSb && libc.fopen then
    (s.goto i p (.fill filename size libc)).write filename (some [])
  else s.exit i p 1

/-- The rest of `format`, and the test of its result. -/
def formatFill (s : Instances) (i : Nat) (p : Instance) (filename : String) (size : Int)
    (libc : Libc) : Option Instances :=
  match format libc size with
  | .error _ => none
  | .ok r =>
    if r.ret = 0 then some ((s.exit i p 1).write filename r.file)
    else some ((s.goto i p (.fopen filename)).write filename r.file)

/-- `fopen(filename, "a+b")`, which makes the file when there is none. -/
def fopen (s : Instances) (i : Nat) (p : Instance) (filename : String) (fails : Bool) : Instances :=
  if fails then s.exit i p 1
  else (s.goto i p (.socket filename)).write filename (s.files filename <|> some [])

/-- One round of the loop. A message does not end it, and neither does a failed `recv`. -/
def poll (s : Instances) (i : Nat) (p : Instance) : PlanA.Event → Instances
  | .timeout | .pollError false => s.exit i p 0
  | .pollError true | .recvError | .message _ => s

/-- A step of the process `i`. An answer to a call that it is not in changes nothing. -/
def go (s : Instances) (i : Nat) (p : Instance) (answer : Answer) : Option Instances :=
  match p.pc, answer with
  | .openPid, .openPid fails => some (s.goto i { p with pidFile := !fails } .flock)
  | .flock, .flock fails => some (s.flock i p fails)
  | .getopt, .getopt => some (s.getopt i p)
  | .format filename size, .format libc => some (s.formatOpen i p filename size libc)
  | .fill filename size libc, .fill => s.formatFill i p filename size libc
  | .fopen filename, .fopen fails => some (s.fopen i p filename fails)
  | .socket filename, .socket fails =>
    some (if fails then s.exit i p 1 else s.goto i p (.bind filename))
  | .bind filename, .bind fails =>
    some (if fails then s.exit i p 1 else s.goto i p (.loop filename))
  | .loop _, .poll event => some (s.poll i p event)
  | .exited _, .kill => some s
  | _, .kill => some (s.exit i p 9)
  | _, _ => some s

def step (s : Instances) : Action → Option Instances
  | .start i opts operand => match s.procs i with
    | none => some (s.goto i ⟨opts, operand, .openPid, false⟩ .openPid)
    | some _ => some s
  | .go i answer => match s.procs i with
    | none => some s
    | some p => s.go i p answer

/-! ## What the protection is for -/

/-- The process `i` is past the protection. -/
def Running (s : Instances) (i : Nat) : Prop := ∃ p, s.procs i = some p ∧ p.pc.running = true

/-- The disk that a process works on is the one its options name, and when they ask for a new disk
it holds what a successful `format` of that size has left. -/
def DiskReady (files : String → Option (List UInt8)) (p : Instance) : Prop :=
  match p.pc with
  | .format filename size | .fill filename size _ =>
    mainOptions p.opts p.operand = .format filename size
  | .fopen filename | .socket filename | .bind filename | .loop filename =>
    mainOptions p.opts p.operand = .plain filename ∨
    ∃ size libc r, mainOptions p.opts p.operand = .format filename size ∧
      format libc size = .ok r ∧ r.ret ≠ 0 ∧ files filename = r.file
  | .openPid | .flock | .getopt | .exited _ => True

/-- The process past the protection is the one that has the lock, and it has its disk. -/
structure SingleInstance (s : Instances) : Prop where
  locked : ∀ i, s.Running i ↔ s.lock = some i
  disks : ∀ i p, s.procs i = some p → DiskReady s.files p

theorem SingleInstance.alone {s : Instances} (h : SingleInstance s) {i j : Nat}
    (hi : s.Running i) (hj : s.Running j) : i = j := by
  have hlock := (h.locked i).mp hi
  rw [(h.locked j).mp hj] at hlock
  cases hlock
  rfl

theorem single_init (files : String → Option (List UInt8)) : SingleInstance (init files) := by
  refine ⟨?_, ?_⟩
  · intro i
    simp [Running, init]
  · intro i p hp
    cases hp

/-- A process is turned away only because of another one that is running. -/
theorem SingleInstance.refused {s : Instances} (h : SingleInstance s) {i : Nat} {p : Instance}
    (hp : s.procs i = some p) (hpc : p.pc = .flock) {t : Instances} {fails : Bool}
    (hstep : s.step (.go i (.flock fails)) = some t) (hout : ¬ t.Running i) :
    ∃ j, j ≠ i ∧ s.Running j := by
  simp only [step, hp, go, hpc, Option.some.injEq] at hstep
  subst hstep
  unfold flock at hout
  split at hout
  · exact absurd ⟨_, Function.update_self .., rfl⟩ hout
  split at hout
  · next hheld =>
    obtain ⟨j, hj⟩ := Option.isSome_iff_exists.mp hheld
    have hrunning := (h.locked j).mpr hj
    refine ⟨j, ?_, hrunning⟩
    rintro rfl
    obtain ⟨q, hq, hqrunning⟩ := hrunning
    rw [hp] at hq
    cases hq
    rw [hpc] at hqrunning
    cases hqrunning
  · exact absurd ⟨_, Function.update_self .., rfl⟩ hout

/-! ## One step -/

theorem running_iff {s : Instances} {i : Nat} {p : Instance} (hp : s.procs i = some p) :
    s.Running i ↔ p.pc.running = true := by
  simp [Running, hp]

theorem running_congr {s t : Instances} {i : Nat} (h : t.procs i = s.procs i) :
    t.Running i ↔ s.Running i := by
  simp [Running, h]

theorem diskReady_of_not_running {files : String → Option (List UInt8)} {p : Instance}
    (h : p.pc.running = false) : DiskReady files p := by
  unfold DiskReady
  cases hpc : p.pc <;> first | trivial | simp [hpc, MainPc.running] at h

/-- Where no other process is past the protection, a step of `i` keeps what the protection is for
when `i` has the lock afterwards exactly if it is past it, and its disk then. -/
theorem single_of_only {s t : Instances} {i : Nat} {p : Instance}
    (honly : ∀ j, j ≠ i → ¬ s.Running j) (hother : ∀ j, j ≠ i → t.procs j = s.procs j)
    (hp : t.procs i = some p) (hlock : t.lock = if p.pc.running then some i else none)
    (hdisk : DiskReady t.files p) : SingleInstance t := by
  refine ⟨?_, ?_⟩
  · intro j
    by_cases hj : j = i
    · subst hj
      rw [running_iff hp, hlock]
      split <;> simp_all
    · rw [running_congr (hother j hj), hlock]
      refine iff_of_false (honly j hj) ?_
      split <;> simp [Ne.symm hj]
  · intro j q hq
    by_cases hj : j = i
    · subst hj
      rw [hp] at hq
      cases hq
      exact hdisk
    · rw [hother j hj] at hq
      refine diskReady_of_not_running ?_
      simpa using mt (running_iff hq).mpr (honly j hj)

/-- A step of a process that is not past the protection, and does not get past it. -/
theorem SingleInstance.of_outside {s t : Instances} {i : Nat} {p : Instance} (hs : SingleInstance s)
    (hout : ¬ s.Running i) (hother : ∀ j, j ≠ i → t.procs j = s.procs j)
    (hp : t.procs i = some p) (hpc : p.pc.running = false) (hlock : t.lock = s.lock)
    (hfiles : t.files = s.files) : SingleInstance t := by
  refine ⟨?_, ?_⟩
  · intro j
    rw [hlock, ← hs.locked j]
    by_cases hj : j = i
    · subst hj
      refine iff_of_false ?_ hout
      rw [running_iff hp, hpc]
      exact Bool.false_ne_true
    · exact running_congr (hother j hj)
  · intro j q hq
    by_cases hj : j = i
    · subst hj
      rw [hp] at hq
      cases hq
      exact diskReady_of_not_running hpc
    · rw [hother j hj] at hq
      rw [hfiles]
      exact hs.disks j q hq

theorem goto_other (s : Instances) (p : Instance) (pc : MainPc) {i j : Nat} (h : j ≠ i) :
    (s.goto i p pc).procs j = s.procs j := Function.update_of_ne h ..

theorem goto_self (s : Instances) (i : Nat) (p : Instance) (pc : MainPc) :
    (s.goto i p pc).procs i = some { p with pc := pc } := Function.update_self ..

section

variable {s : Instances} {i : Nat} {p : Instance}

/-- The process that is past the protection ends. It may have written to its disk. -/
theorem SingleInstance.leave (hs : SingleInstance s) (hrun : s.Running i) (status : Int)
    (files : String → Option (List UInt8)) :
    SingleInstance { s.exit i p status with files := files } := by
  refine single_of_only (fun j hj hrunj => hj (hs.alone hrunj hrun))
    (fun j hj => goto_other s p _ hj) (goto_self ..) ?_ trivial
  simp [Instances.exit, (hs.locked i).mp hrun, MainPc.running]

theorem SingleInstance.exit (hs : SingleInstance s) (status : Int) :
    SingleInstance (s.exit i p status) := by
  by_cases hrun : s.Running i
  · exact hs.leave hrun status s.files
  · refine hs.of_outside hrun (fun j hj => goto_other s p _ hj) (goto_self ..) rfl ?_ rfl
    simp [Instances.exit, mt (hs.locked i).mpr hrun]

/-- The process stays past the protection. It may write to its disk. -/
theorem SingleInstance.goto (hs : SingleInstance s) (hrun : s.Running i) {pc : MainPc}
    (hpc : pc.running = true) {files : String → Option (List UInt8)}
    (hdisk : DiskReady files { p with pc := pc }) :
    SingleInstance { s.goto i p pc with files := files } := by
  refine single_of_only (fun j hj hrunj => hj (hs.alone hrunj hrun))
    (fun j hj => goto_other s p _ hj) (goto_self ..) ?_ hdisk
  rw [if_pos hpc]
  exact (hs.locked i).mp hrun

/-- The lock was asked for and `flock` did not fail otherwise. -/
theorem SingleInstance.flock (hs : SingleInstance s)
    (hfile : p.pidFile = true) : SingleInstance (s.flock i p false) := by
  unfold Instances.flock
  rw [if_neg (by simp [hfile])]
  split
  · exact hs.exit 1
  · next hfree =>
    have hnone : s.lock = none := by simpa using hfree
    refine single_of_only ?_ (fun j hj => goto_other s p _ hj) (goto_self ..) rfl trivial
    intro j _ hrun
    rw [(hs.locked j).mp hrun] at hnone
    cases hnone

/-- Without the lock, or with a failure of `flock`, the process goes on without it. -/
theorem not_single_of_flock (hs : SingleInstance s) (hout : ¬ s.Running i) {fails : Bool}
    (hfails : p.pidFile = false ∨ fails = true) : ¬ SingleInstance (s.flock i p fails) := by
  intro ht
  have hgo : s.flock i p fails = s.goto i p .getopt := by
    unfold Instances.flock
    rw [if_pos (by simpa using hfails)]
  rw [hgo] at ht
  exact hout ((hs.locked i).mpr ((ht.locked i).mp ⟨_, goto_self .., rfl⟩))

theorem SingleInstance.getopt (hs : SingleInstance s) (hrun : s.Running i) :
    SingleInstance (s.getopt i p) := by
  unfold Instances.getopt
  split
  · exact hs.exit 1
  · next hopts => exact hs.goto hrun rfl hopts
  · next hopts => exact hs.goto hrun rfl (.inl hopts)

theorem SingleInstance.formatOpen (hs : SingleInstance s) (hrun : s.Running i) {filename : String}
    {size : Int} (hopts : mainOptions p.opts p.operand = .format filename size) (libc : Libc) :
    SingleInstance (s.formatOpen i p filename size libc) := by
  unfold Instances.formatOpen
  split
  · exact hs.goto hrun rfl hopts
  · exact hs.exit 1

/-- `format` comes back when its counter does not overflow. -/
theorem exists_formatFill_iff (s : Instances) (i : Nat) (p : Instance) (filename : String)
    (size : Int) (libc : Libc) :
    (∃ t, s.formatFill i p filename size libc = some t) ↔
      (libc.ReachesLoop → size ≤ 2 ^ 31 - blockSize) := by
  unfold Instances.formatFill
  constructor
  · rintro ⟨t, ht⟩ hreaches
    by_contra hbig
    rw [format_of_big hreaches (by omega)] at ht
    cases ht
  · intro hfits
    have hok : ∃ r, format libc size = .ok r := by
      by_cases hreaches : libc.ReachesLoop
      · exact ⟨_, format_of_fits hreaches (hfits hreaches)⟩
      · obtain ⟨r, hr, _⟩ := format_of_early size hreaches
        exact ⟨r, hr⟩
    obtain ⟨r, hr⟩ := hok
    rw [hr]
    dsimp only
    split
    · exact ⟨_, rfl⟩
    · exact ⟨_, rfl⟩

/-- A `format` that worked has made a file. -/
theorem file_of_ret {libc : Libc} {size : Int} {r : Formatted} (h : format libc size = .ok r)
    (hret : r.ret ≠ 0) : ∃ bytes, r.file = some bytes := by
  by_cases hreaches : libc.ReachesLoop
  · rw [format_of_reachesLoop hreaches] at h
    cases hloop : zeroLoop libc size blockSize 0 (zeros sizeofPointer) with
    | error e =>
      rw [hloop] at h
      cases h
    | ok file =>
      rw [hloop] at h
      cases h
      exact ⟨file, rfl⟩
  · obtain ⟨r', hr', hzero, _⟩ := format_of_early size hreaches
    rw [h] at hr'
    cases hr'
    exact absurd hzero hret

theorem SingleInstance.formatFill (hs : SingleInstance s) (hrun : s.Running i) {filename : String}
    {size : Int} (hopts : mainOptions p.opts p.operand = .format filename size) {libc : Libc}
    {t : Instances} (ht : s.formatFill i p filename size libc = some t) : SingleInstance t := by
  unfold Instances.formatFill at ht
  split at ht
  · cases ht
  · next r hr =>
    split at ht
    · cases ht
      exact hs.leave hrun 1 _
    · next hret =>
      cases ht
      refine hs.goto hrun rfl (.inr ⟨size, libc, r, hopts, hr, hret, ?_⟩)
      exact Function.update_self ..

/-- The file that is opened to append keeps what it has. -/
theorem SingleInstance.fopen (hs : SingleInstance s) (hrun : s.Running i) (hp : s.procs i = some p)
    {filename : String} (hpc : p.pc = .fopen filename) (fails : Bool) :
    SingleInstance (s.fopen i p filename fails) := by
  unfold Instances.fopen
  split
  · exact hs.exit 1
  · refine hs.goto hrun rfl ?_
    have hdisk := hs.disks i p hp
    simp only [DiskReady, hpc] at hdisk ⊢
    refine hdisk.imp_right ?_
    rintro ⟨size, libc, r, hopts, hr, hret, hfile⟩
    refine ⟨size, libc, r, hopts, hr, hret, ?_⟩
    obtain ⟨bytes, hbytes⟩ := file_of_ret hr hret
    rw [Function.update_self, hfile, hbytes]
    rfl

/-- `socket` and `bind`. -/
theorem SingleInstance.call (hs : SingleInstance s) (hrun : s.Running i) {pc : MainPc}
    (hpc : pc.running = true) (hdisk : DiskReady s.files { p with pc := pc }) (fails : Bool) :
    SingleInstance (if fails then s.exit i p 1 else s.goto i p pc) := by
  split
  · exact hs.exit 1
  · exact hs.goto hrun hpc hdisk

theorem SingleInstance.poll (hs : SingleInstance s) (event : PlanA.Event) :
    SingleInstance (s.poll i p event) := by
  unfold Instances.poll
  split
  · exact hs.exit 0
  · exact hs.exit 0
  · exact hs
  · exact hs
  · exact hs

end

/-- The process asks for the lock of a file that was opened, and `flock` fails only because of
another holder; and `format` does not reach the end of an `int`. -/
def AnswerOk (p : Instance) : Answer → Prop
  | .flock fails => p.pc = .flock → p.pidFile = true ∧ fails = false
  | .fill => ∀ filename size libc, p.pc = .fill filename size libc → libc.ReachesLoop →
      size ≤ 2 ^ 31 - blockSize
  | _ => True

def StepOk (s : Instances) : Action → Prop
  | .go i answer => ∀ p, s.procs i = some p → AnswerOk p answer
  | .start _ _ _ => True

theorem go_single_iff {s : Instances} (hs : SingleInstance s) {i : Nat} {p : Instance}
    (hp : s.procs i = some p) (answer : Answer) :
    (∃ t, s.go i p answer = some t ∧ SingleInstance t) ↔ AnswerOk p answer := by
  have hdisk := hs.disks i p hp
  have hrunning := running_iff hp
  unfold go
  split
  · next fails hpc =>
    rw [hpc] at hrunning
    refine iff_of_true ⟨_, rfl, ?_⟩ trivial
    refine hs.of_outside (by simp [hrunning, MainPc.running]) (fun j hj => goto_other s _ _ hj)
      (goto_self ..) rfl rfl rfl
  · next fails hpc =>
    rw [hpc] at hrunning
    have hout : ¬ s.Running i := by simp [hrunning, MainPc.running]
    constructor
    · rintro ⟨t, ht, hsingle⟩ _
      cases ht
      by_contra hnot
      refine not_single_of_flock hs hout ?_ hsingle
      by_contra hneither
      exact hnot (by simpa using hneither)
    · intro hok
      obtain ⟨hfile, rfl⟩ := hok hpc
      exact ⟨_, rfl, hs.flock hfile⟩
  · next hpc =>
    rw [hpc] at hrunning
    exact iff_of_true ⟨_, rfl, hs.getopt (hrunning.mpr rfl)⟩ trivial
  · next filename size libc hpc =>
    rw [hpc] at hrunning
    simp only [DiskReady, hpc] at hdisk
    exact iff_of_true ⟨_, rfl, hs.formatOpen (hrunning.mpr rfl) hdisk libc⟩ trivial
  · next filename size libc hpc =>
    rw [hpc] at hrunning
    simp only [DiskReady, hpc] at hdisk
    constructor
    · rintro ⟨t, ht, _⟩ _ _ _ heq
      rw [hpc] at heq
      cases heq
      exact (exists_formatFill_iff ..).mp ⟨t, ht⟩
    · intro hok
      obtain ⟨t, ht⟩ := (exists_formatFill_iff s i p filename size libc).mpr (hok _ _ _ hpc)
      exact ⟨t, ht, hs.formatFill (hrunning.mpr rfl) hdisk ht⟩
  · next filename fails hpc =>
    rw [hpc] at hrunning
    exact iff_of_true ⟨_, rfl, hs.fopen (hrunning.mpr rfl) hp hpc fails⟩ trivial
  · next filename fails hpc =>
    rw [hpc] at hrunning
    simp only [DiskReady, hpc] at hdisk
    refine iff_of_true ⟨_, rfl, hs.call (hrunning.mpr rfl) rfl ?_ fails⟩ trivial
    exact hdisk
  · next filename fails hpc =>
    rw [hpc] at hrunning
    simp only [DiskReady, hpc] at hdisk
    refine iff_of_true ⟨_, rfl, hs.call (hrunning.mpr rfl) rfl ?_ fails⟩ trivial
    exact hdisk
  · exact iff_of_true ⟨_, rfl, hs.poll _⟩ trivial
  · exact iff_of_true ⟨_, rfl, hs⟩ trivial
  · exact iff_of_true ⟨_, rfl, hs.exit 9⟩ trivial
  · -- the answer is for another call than the next one
    next answer _ _ _ _ hflock _ _ hfill _ _ _ _ _ =>
    refine iff_of_true ⟨_, rfl, hs⟩ ?_
    cases answer with
    | flock fails => exact fun hpc => (hflock fails hpc rfl).elim
    | fill => exact fun filename size libc hpc => (hfill filename size libc hpc rfl).elim
    | _ => trivial

theorem step_single_iff {s : Instances} (hs : SingleInstance s) (a : Action) :
    (∃ t, s.step a = some t ∧ SingleInstance t) ↔ StepOk s a := by
  cases a with
  | start i opts operand =>
    refine iff_of_true ?_ trivial
    unfold step
    dsimp only
    split
    · next hnone =>
      refine ⟨_, rfl, hs.of_outside ?_ (fun j hj => goto_other s _ _ hj) (goto_self ..) rfl rfl rfl⟩
      simp [Running, hnone]
    · exact ⟨_, rfl, hs⟩
  | go i answer =>
    unfold step
    dsimp only
    split
    · next hnone => exact iff_of_true ⟨_, rfl, hs⟩ (by simp [StepOk, hnone])
    · next p hp => simpa [StepOk, hp] using go_single_iff hs hp answer

/-- Exactly the runs in which `open` gives a file to lock, `flock` fails only because of another
holder, and no `format` overflows its counter, keep one instance at a time. -/
theorem always_single_iff (files : String → Option (List UInt8)) (acts : List Action) :
    Always step SingleInstance (init files) acts ↔ StepsOk step StepOk (init files) acts :=
  always_iff (fun _ a hs => step_single_iff hs a) (single_init files) acts

end Instances

end Sjfs
