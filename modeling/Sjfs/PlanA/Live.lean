import Sjfs.PlanA.Owed
import Sjfs.Lib.Potential

/-!
# Plan a: how runs end

Every run of the channel ends, and there is one way for it to end badly. Nothing is assumed of the
allocations of a run. Two things are assumed, and both are in the machine: a send succeeds, and the
peer is able to answer a READ it was sent.

A read makes eleven steps, its answer six, and a write nine. A run that cannot go on has come to
rest, or a read whose `kzalloc` failed waits for the reply to a request it has not sent: all others
that took `cb_sem` are on the way to their `up`, or have sent a request whose answer leads to one.

Results:
1. `length_le_calls`: a run has at most 17 steps for each read and 9 for each write.
2. `halted_iff`: where nothing can go on, every call has returned, or one such read holds `cn_sem` and
   all other calls that have not returned are queued behind it.
-/

namespace Sjfs

open Lib

namespace PlanA

/-- The operations of reads and of writes, and where a call has no message yet. -/
structure Call.Fits (c : Call) : Prop where
  fresh : c.pc = .downCn ∨ c.pc = .downCb ∨ c.pc = .kzalloc → c.m = none
  reader : c.pc = .downCb ∨ c.pc = .downReply ∨ c.pc = .upCb ∨ c.pc = .copyToUser →
    c.kind.isRead = true
  writer : c.pc = .kzallocData ∨ c.pc = .copyFromUser → c.kind.isRead = false

theorem Call.Fits.advance {c : Call} (h : c.Fits) (hpc : c.pc.shared = true) : c.advance.Fits := by
  obtain ⟨hfresh, hreader, hwriter⟩ := h
  constructor <;> cases hp : c.pc <;> cases hk : c.kind.isRead <;>
    simp_all [Call.advance, Call.next, Pc.shared]

theorem Call.Fits.downed {c : Call} (h : c.Fits) (hpc : c.pc.shared = true) (took : Bool) :
    (c.downed took).Fits := by
  cases took with
  | true => exact h.advance hpc
  | false => exact ⟨h.fresh, h.reader, h.writer⟩

/-- A read that is on the way to an `up(&cb_sem)`: it has not sent its request, or it is past its second
`down`. A read without a message is counted among them until it is queued there; it is the one that
may wait for ever. -/
def Call.supplies (c : Call) : Bool :=
  c.kind.isRead && match c.pc with
    | .kzalloc | .sample | .send | .upCb => true
    | .count | .downReply => c.m.isNone
    | _ => false

/-! ## Work -/

/-- The steps from an operation to the end of the call, and for a read that has not sent its request
the steps of the answer: the peer's, the delivery and four of `cn_sjfs_callback`. -/
def Pc.work (isRead : Bool) : Pc → Nat
  | .downCn => if isRead then 16 else 8
  | .downCb => 15
  | .kzalloc => if isRead then 14 else 7
  | .kzallocData => 6
  | .sample => if isRead then 13 else 5
  | .copyFromUser => 4
  | .send => if isRead then 12 else 3
  | .count => if isRead then 5 else 2
  | .downReply => 4
  | .upCb => 3
  | .copyToUser => 2
  | .upCn => 1
  | .done => 0

/-- A call that is blocked has made the step of its `down`. -/
def Call.work (c : Call) : Nat :=
  match c.pc with
  | .downCn | .downCb | .downReply => c.pc.work c.kind.isRead - c.blocked.toNat
  | _ => c.pc.work c.kind.isRead

def CbPc.work : CbPc → Nat
  | .trylock => 4
  | .kzalloc => 3
  | .memcpy => 2
  | .release | .up => 1
  | .done => 0

def Callback.work (b : Callback) : Nat := b.pc.work

/-- The work an action brings, its own step included. -/
def Action.work : Action → Nat
  | .enter _ kind _ => if kind.isRead then 17 else 9
  | _ => 0

def Action.isEnter : Action → Bool
  | .enter _ _ _ => true
  | _ => false

/-- An operation of a call. -/
def Action.inCall : Action → Bool
  | .kzalloc _ _ | .copyFromUser _ _ | .call _ => true
  | _ => false

namespace Channel

theorem OwnStep.fits {i : Nat} {seq : UInt32} {buffer : Option ReadBuffer} {c c' : Call} {a : Action}
    (ho : OwnStep i seq buffer c a c') (h : c.Fits) : c'.Fits := by
  obtain ⟨hfresh, hreader, hwriter⟩ := h
  constructor <;> cases ho <;> cases hk : c.kind.isRead <;> simp_all [Call.advance, Call.next]

theorem fits_wake {calls : Nat → Option Call} {w : Option Nat}
    (hw : ∀ j, w = some j → WaitsCn (calls j) ∨ WaitsCb (calls j))
    (h : ∀ j c, calls j = some c → c.Fits) :
    ∀ j c, Semaphore.wake Call.advance calls w j = some c → c.Fits := by
  intro j c hc
  rw [Semaphore.wake_apply] at hc
  split at hc
  · next hj =>
    have hwaits := hw j hj
    obtain ⟨d, hd, rfl⟩ := Option.map_eq_some_iff.mp hc
    rw [hd] at hwaits
    refine (h j d hd).advance ?_
    rcases hwaits with ⟨_, hpc⟩ | ⟨_, hpc | hpc⟩ <;> simp [hpc, Pc.shared]
  · exact h j c hc

theorem fits_update {calls : Nat → Option Call} (hs : ∀ j c, calls j = some c → c.Fits) {i : Nat}
    {c' : Call} (hc' : c'.Fits) :
    ∀ j c, Function.update calls i (some c') j = some c → c.Fits := by
  intro j c hc
  by_cases hj : j = i
  · subst hj
    rw [Function.update_self] at hc
    cases hc
    exact hc'
  · rw [Function.update_of_ne hj] at hc
    exact hs j c hc

/-- At `up(&cn_sem)`, the call that makes it is not in the queue. -/
theorem Locked.queueCn {s : Channel} {owner : Option Nat} (hl : Locked s owner) {i : Nat} {c : Call}
    (hc : s.calls i = some c) (hb : c.blocked = false) :
    s.cnSem.Queue fun j => WaitsCn ((s.setCall i c.advance).calls j) :=
  hl.cn.update (iff_of_false (free_of_unblocked rfl).1 (hc ▸ (free_of_unblocked hb).1))

theorem fits_step {s t : Channel} {a : Action} {owner : Option Nat} (hl : Locked s owner)
    (hs : ∀ j c, s.calls j = some c → c.Fits) (h : Step s a t) :
    ∀ j c, t.calls j = some c → c.Fits := by
  have hset : ∀ {i : Nat} {c' : Call}, c'.Fits →
      ∀ j c, Function.update s.calls i (some c') j = some c → c.Fits := fits_update hs
  cases h with
  | enter => exact hset ⟨fun _ => rfl, by simp, by simp⟩
  | own hc ho => exact hset (ho.fits (hs _ _ hc))
  | downCn hc _ hpc => exact hset ((hs _ _ hc).downed (by simp [hpc, Pc.shared]) _)
  | downCb hc _ hpc =>
    exact hset ((hs _ _ hc).downed (by rcases hpc with hpc | hpc <;> simp [hpc, Pc.shared]) _)
  | send hc hpc | count hc hpc => exact hset ((hs _ _ hc).advance (by simp [hpc, Pc.shared]))
  | upCb hc hpc =>
    have hl' := hl.advance hc (.inr (.inr hpc))
    exact fits_wake (fun j hj => .inr (hl'.cb.up_waits hj))
      (hset ((hs _ _ hc).advance (by simp [hpc, Pc.shared])))
  | upCn hc hb hpc =>
    have hcn := hl.queueCn hc hb
    exact fits_wake (fun j hj => .inl (hcn.up_waits hj))
      (hset ((hs _ _ hc).advance (by simp [hpc, Pc.shared])))
  | answer | deliver | probe | need | callbackAlloc | callbackAllocFail | memcpy => exact hs
  | finish => exact fits_wake (fun j hj => .inr (hl.cb.up_waits hj)) hs

/-- The steps that are left, at most. -/
noncomputable def left (s : Channel) : Nat :=
  total Call.work s.calls + total Callback.work s.callbacks + 6 * s.wire.length +
    5 * s.inbox.length

theorem OwnStep.work {i : Nat} {seq : UInt32} {buffer : Option ReadBuffer} {c c' : Call} {a : Action}
    (ho : OwnStep i seq buffer c a c') (h : c.Fits) : c'.work + 1 ≤ c.work := by
  obtain ⟨_, hreader, hwriter⟩ := h
  cases ho <;> cases hk : c.kind.isRead <;>
    simp_all [Call.work, Pc.work, Call.advance, Call.next]

/-- The `down` of a call is one step, whether it blocks or not. -/
theorem work_downed {c : Call} (h : c.Fits) (hb : c.blocked = false)
    (hpc : c.pc = .downCn ∨ c.pc = .downCb ∨ c.pc = .downReply) (took : Bool) :
    (c.downed took).work + 1 = c.work := by
  have hreader := h.reader
  rcases hpc with hpc | hpc | hpc <;> cases took <;> cases hk : c.kind.isRead <;>
    simp_all [Call.downed, Call.work, Call.advance, Call.next, Pc.work]

/-- The `up` that ends a `down` is not a step of the call that waited. -/
theorem work_advance_of_waits {c : Call} (h : c.Fits) (hw : WaitsCn (some c) ∨ WaitsCb (some c)) :
    c.advance.work = c.work := by
  have hreader := h.reader
  rcases hw with ⟨hb, hpc⟩ | ⟨hb, hpc | hpc⟩ <;> cases hk : c.kind.isRead <;>
    simp_all [Call.work, Call.advance, Call.next, Pc.work]

/-- What every run keeps, with any allocations. -/
structure Steady (s : Channel) (owner : Option Nat) : Prop where
  locked : Locked s owner
  wf : ∀ i c, s.calls i = some c → c.Wf
  fits : ∀ i c, s.calls i = some c → c.Fits
  fresh : Fresh s
  calls : Finitely s.calls
  callbacks : Finitely s.callbacks

theorem finitely_step {s t : Channel} {a : Action} (h : Step s a t) (hcalls : Finitely s.calls)
    (hcallbacks : Finitely s.callbacks) : Finitely t.calls ∧ Finitely t.callbacks := by
  cases h with
  | @enter i | @own i | @downCn i | @downCb i | @send i | @count i =>
    exact ⟨hcalls.update i _, hcallbacks⟩
  | @upCb i | @upCn i => exact ⟨(hcalls.update i _).wake _ _, hcallbacks⟩
  | answer => exact ⟨hcalls, hcallbacks⟩
  | deliver => exact ⟨hcalls, hcallbacks.update s.delivered _⟩
  | @probe k | @need k | @callbackAlloc k | @callbackAllocFail k | @memcpy k =>
    exact ⟨hcalls, hcallbacks.update k _⟩
  | @finish k => exact ⟨hcalls.wake _ _, hcallbacks.update k _⟩

theorem steady_step {s t : Channel} {a : Action} {owner : Option Nat} (hs : Steady s owner)
    (h : Step s a t) : Steady t (s.ownerAfter a owner) where
  locked := locked_step hs.locked h
  wf := wf_step hs.locked hs.wf h
  fits := fits_step hs.locked hs.fits h
  fresh := fresh_step h hs.fresh
  calls := (finitely_step h hs.calls hs.callbacks).1
  callbacks := (finitely_step h hs.calls hs.callbacks).2

theorem steady_init : Steady init none where
  locked := locked_init
  wf := fun _ _ h => by cases h
  fits := fun _ _ h => by cases h
  fresh := fun _ _ => rfl
  calls := finitely_none
  callbacks := finitely_none

section Steps

variable {s : Channel} {owner : Option Nat} {i k : Nat} {c c' : Call} {b b' : Callback}

/-- A step of call `i`, in which it does at least one unit of its work. -/
theorem left_setCall (hs : Steady s owner) (hc : s.calls i = some c) (hwork : c'.work + 1 ≤ c.work) :
    (s.setCall i c').left + 1 ≤ s.left := by
  have h := total_update Call.work hs.calls i c'
  simp only [share, hc, Option.elim] at h
  simp only [left, setCall]
  omega

/-- A step of callback run `k`. -/
theorem left_setCallback (hs : Steady s owner) (hb : s.callbacks k = some b)
    (hwork : b'.work + 1 ≤ b.work) : (s.setCallback k b').left + 1 ≤ s.left := by
  have h := total_update Callback.work hs.callbacks k b'
  simp only [share, hb, Option.elim] at h
  simp only [left, setCallback]
  omega

/-- The waiter that an `up` releases. -/
theorem total_wake_waits {calls : Nat → Option Call} {w : Option Nat}
    (hf : ∀ j c, calls j = some c → c.Fits)
    (hw : ∀ j, w = some j → WaitsCn (calls j) ∨ WaitsCb (calls j)) :
    total Call.work (Semaphore.wake Call.advance calls w) = total Call.work calls := by
  refine total_wake ?_
  intro j c hj hc
  have hwaits := hw j hj
  rw [hc] at hwaits
  exact work_advance_of_waits (hf j c hc) hwaits

theorem left_upCb (hf : ∀ j c, s.calls j = some c → c.Fits)
    (hq : s.cbSem.Queue fun j => WaitsCb (s.calls j)) : s.upCb.left = s.left := by
  simp only [left, upCb]
  rw [total_wake_waits hf fun j hj => .inr (hq.up_waits hj)]

theorem left_upCn (hf : ∀ j c, s.calls j = some c → c.Fits)
    (hq : s.cnSem.Queue fun j => WaitsCn (s.calls j)) : s.upCn.left = s.left := by
  simp only [left, upCn]
  rw [total_wake_waits hf fun j hj => .inl (hq.up_waits hj)]

theorem work_advance (h : c.Fits) (hpc : c.pc = .count ∨ c.pc = .upCb ∨ c.pc = .upCn) :
    c.advance.work + 1 = c.work := by
  have hreader := h.reader
  rcases hpc with hpc | hpc | hpc <;> cases hk : c.kind.isRead <;>
    simp_all [Call.work, Call.advance, Call.next, Pc.work]

theorem left_send (hs : Steady s owner) (hc : s.calls i = some c) (hpc : c.pc = .send) (m : CnMsg) :
    ((s.setCall i c.advance).netlinkSend i c m).left + 1 ≤ s.left := by
  -- the request of a read takes over the work of its answer
  have h := total_update Call.work hs.calls i c.advance
  simp only [share, hc, Option.elim, Call.work, Call.advance, Call.next, Pc.work, hpc] at h
  simp only [left, setCall, netlinkSend, Call.advance, Call.next, hpc]
  cases hk : c.kind.isRead
  · simp only [hk, Bool.false_eq_true, ite_false] at h ⊢
    omega
  · simp only [hk, ite_true, List.length_append, List.length_singleton] at h ⊢
    omega

end Steps

theorem left_step {s t : Channel} {a : Action} {owner : Option Nat} (hs : Steady s owner)
    (h : Step s a t) : t.left + 1 ≤ s.left + a.work := by
  cases h with
  | @enter i kind io hc =>
    have h := total_update Call.work hs.calls i ⟨kind, io, .downCn, false, none, none⟩
    simp only [share, hc, Option.elim, Call.work, Pc.work, Bool.toNat_false] at h
    simp only [left, setCall, Action.work]
    cases hk : kind.isRead <;>
      simp only [hk, Bool.false_eq_true, ite_false, ite_true] at h ⊢ <;> omega
  | own hc ho =>
    have hle := left_setCall hs hc (ho.work (hs.fits _ _ hc))
    omega
  | downCn hc hb hpc =>
    exact left_setCall hs hc (Nat.le_of_eq (work_downed (hs.fits _ _ hc) hb (.inl hpc) _))
  | downCb hc hb hpc =>
    exact left_setCall hs hc (Nat.le_of_eq (work_downed (hs.fits _ _ hc) hb (.inr hpc) _))
  | send hc hpc => exact left_send hs hc hpc _
  | count hc hpc =>
    exact left_setCall hs hc (Nat.le_of_eq (work_advance (hs.fits _ _ hc) (.inl hpc)))
  | upCb hc hpc =>
    have hf := hs.fits _ _ hc
    have hl := hs.locked.advance hc (.inr (.inr hpc))
    rw [left_upCb (fits_update hs.fits (hf.advance (by simp [hpc, Pc.shared]))) hl.cb]
    exact left_setCall hs hc (Nat.le_of_eq (work_advance hf (.inr (.inl hpc))))
  | upCn hc hb hpc =>
    have hf := hs.fits _ _ hc
    rw [left_upCn (fits_update hs.fits (hf.advance (by simp [hpc, Pc.shared])))
      (hs.locked.queueCn hc hb)]
    exact left_setCall hs hc (Nat.le_of_eq (work_advance hf (.inr (.inr hpc))))
  | answer hk =>
    have hlt := (List.getElem?_eq_some_iff.mp hk).1
    simp only [left, Action.work, List.length_eraseIdx_of_lt hlt, List.length_append,
      List.length_singleton]
    omega
  | @deliver k r hk =>
    have hlt := (List.getElem?_eq_some_iff.mp hk).1
    have h := total_update Callback.work hs.callbacks s.delivered ⟨r.caller, r.msg, .trylock⟩
    simp only [share, hs.fresh s.delivered (Nat.le_refl _), Option.elim, Callback.work,
      CbPc.work] at h
    simp only [left, setCallback, Action.work, List.length_eraseIdx_of_lt hlt]
    omega
  | probe hb hpc | need hb hpc | callbackAlloc hb hpc | callbackAllocFail hb hpc | memcpy hb hpc =>
    refine left_setCallback hs hb ?_
    simp [Callback.work, CbPc.work, hpc]
  | @finish k b hb hpc =>
    rw [left_upCb (s := s.setCallback k { b with pc := .done }) hs.fits hs.locked.cb]
    refine left_setCallback hs hb ?_
    rcases hpc with hpc | hpc <;> simp [Callback.work, CbPc.work, hpc]

theorem steady_cost (s : Channel) (a : Action) (t : Channel) (hs : ∃ owner, Steady s owner)
    (hstep : step s a = some t) :
    (∃ owner, Steady t owner) ∧ t.left + 1 ≤ s.left + a.work := by
  obtain ⟨owner, hs⟩ := hs
  exact ⟨⟨_, steady_step hs (step_cases hstep)⟩, left_step hs (step_cases hstep)⟩

theorem left_init : init.left = 0 := by
  simp only [left, init, total_none, List.length_nil]

/-- The reads and writes of a run bound its length, whichever allocations fail. -/
theorem length_le_calls {t : Channel} {as : List Action} (h : as.foldlM step init = some t) :
    as.length ≤ (as.map Action.work).sum := by
  have hlen := length_le_cost (fun s => ∃ owner, Steady s owner) left Action.work steady_cost
    ⟨none, steady_init⟩ h
  rw [left_init] at hlen
  omega

theorem length_readAndWrites :
    ∃ t, readAndWrites.foldlM step init = some t ∧
      readAndWrites.length ≤ (readAndWrites.map Action.work).sum :=
  ⟨_, rfl, length_le_calls rfl⟩

/-! ## Deadlock -/

/-- Why a reader at `cb_sem` does not wait for ever: it has a unit, or somebody is on the way to an
`up` of it and needs no further unit for that. -/
inductive Supplied (s : Channel) : Prop
  | unit : 0 < s.cbSem.count → Supplied s
  | call : Semaphore.Has (fun c : Call => c.supplies = true) s.calls → Supplied s
  | callback {k : Nat} {b : Callback} : s.callbacks k = some b → b.pc ≠ .done → Supplied s
  | request : s.wire ≠ [] → Supplied s
  | answer : s.inbox ≠ [] → Supplied s

theorem OwnStep.supplies {i : Nat} {seq : UInt32} {buffer : Option ReadBuffer} {c c' : Call}
    {a : Action} (ho : OwnStep i seq buffer c a c') (h : c.Fits) (hc : c.supplies = true) :
    c'.supplies = true := by
  have hfresh := h.fresh
  cases ho <;> simp_all [Call.supplies, Call.advance, Call.next]

theorem supplies_advance_of_waitsCb {c : Call} (h : c.Fits)
    (hpc : c.pc = .downCb ∨ c.pc = .downReply) : c.advance.supplies = true := by
  have hreader := h.reader
  rcases hpc with hpc | hpc <;> simp_all [Call.supplies, Call.advance, Call.next]

/-- An `up(&cb_sem)` supplies, whatever was the case before it. -/
theorem supplied_upCb {s : Channel} (hf : ∀ j c, s.calls j = some c → c.Fits)
    (hq : s.cbSem.Queue fun j => WaitsCb (s.calls j)) : Supplied s.upCb := by
  have h : 0 < s.cbSem.up.1.count ∨ Semaphore.Has (fun c : Call => c.supplies = true)
      (Semaphore.wake Call.advance s.calls s.cbSem.up.2) := by
    refine Semaphore.has_of_up ?_
    intro j hj
    have hw := hq.up_waits hj
    cases hd : s.calls j with
    | none => simp [hd, WaitsCb] at hw
    | some d =>
      rw [hd] at hw
      exact ⟨d, rfl, supplies_advance_of_waitsCb (hf j d hd) hw.2⟩
  rcases h with hpos | ho
  · exact .unit hpos
  · exact .call ho

/-- A step that takes no unit and takes nobody off the way to an `up`. -/
theorem Supplied.frame {s t : Channel} (hs : Supplied s) (hsem : s.cbSem.count ≤ t.cbSem.count)
    (hcalls : Semaphore.Has (fun c : Call => c.supplies = true) s.calls →
      Semaphore.Has (fun c : Call => c.supplies = true) t.calls)
    (hcallbacks : t.callbacks = s.callbacks) (hwire : t.wire = s.wire)
    (hinbox : t.inbox = s.inbox) : Supplied t := by
  cases hs with
  | unit h => exact .unit (Nat.lt_of_lt_of_le h hsem)
  | call h => exact .call (hcalls h)
  | callback hb hpc => exact .callback (hcallbacks ▸ hb) hpc
  | request h => exact .request (hwire ▸ h)
  | answer h => exact .answer (hinbox ▸ h)

theorem supplied_step {s t : Channel} {a : Action} {owner : Option Nat} (hs : Steady s owner)
    (hsup : Supplied s) (h : Step s a t) : Supplied t := by
  have hset : ∀ {i : Nat} {c c' : Call}, s.calls i = some c →
      (c.supplies = true → c'.supplies = true) →
      Semaphore.Has (fun c : Call => c.supplies = true) s.calls →
      Semaphore.Has (fun c : Call => c.supplies = true) (Function.update s.calls i (some c')) := by
    intro i c c' hc himp hhas
    refine hhas.update ?_
    intro d hd hsupplies
    obtain rfl := Option.some.inj (hd.symm.trans hc)
    exact himp hsupplies
  cases h with
  | enter hc =>
    refine hsup.frame (Nat.le_refl _) (fun hhas => hhas.update ?_) rfl rfl rfl
    intro c hc'
    rw [hc] at hc'
    cases hc'
  | own hc ho =>
    exact hsup.frame (Nat.le_refl _) (hset hc (ho.supplies (hs.fits _ _ hc))) rfl rfl rfl
  | downCn hc hb hpc =>
    refine hsup.frame (Nat.le_refl _) (hset hc ?_) rfl rfl rfl
    simp [Call.supplies, hpc]
  | @downCb i c hc hb hpc =>
    rcases Nat.eq_zero_or_pos s.cbSem.count with hz | hp
    · refine hsup.frame ?_ (hset hc ?_) rfl rfl rfl
      · rw [hz]
        exact Nat.zero_le _
      · rw [Semaphore.down_of_zero hz]
        exact id
    · -- the unit is gone, and the call is on its way
      refine .call ⟨i, c.advance, ?_, supplies_advance_of_waitsCb (hs.fits _ _ hc) hpc⟩
      simp [Channel.downCb, setCall, Semaphore.down_of_pos hp, Call.downed]
  | @send i c m hc hpc hm =>
    cases hk : c.kind.isRead with
    | true => exact .request (by simp [netlinkSend, hk])
    | false =>
      refine hsup.frame (Nat.le_refl _) (hset hc ?_) rfl ?_ rfl
      · simp [Call.supplies, hk]
      · simp [netlinkSend, setCall, hk]
  | count hc hpc =>
    refine hsup.frame (Nat.le_refl _) (hset hc ?_) rfl rfl rfl
    intro hsupplies
    simp_all [Call.supplies, Call.advance, Call.next]
  | upCb hc hpc =>
    have hfits := (hs.fits _ _ hc).advance (by simp [hpc, Pc.shared])
    exact supplied_upCb (fits_update hs.fits hfits)
      (hs.locked.advance hc (.inr (.inr hpc))).cb
  | upCn hc hb hpc =>
    refine hsup.frame (Nat.le_refl _) (fun hhas => ?_) rfl rfl rfl
    refine (hset hc (by simp [Call.supplies, hpc]) hhas).wake ?_
    intro j d hj hd hsupplies
    have hw := (hs.locked.queueCn hc hb).up_waits hj
    simp only [setCall, hd] at hw
    simp [Call.supplies, hw.2] at hsupplies
  | answer => exact .answer (by simp)
  | deliver | probe | need | callbackAlloc | callbackAllocFail | memcpy =>
    exact .callback (Function.update_self ..) (by simp)
  | finish =>
    exact supplied_upCb hs.fits hs.locked.cb

theorem tight_step {s t : Channel} {a : Action} (hs : s.cbSem.Tight) (h : Step s a t) :
    t.cbSem.Tight := by
  cases h with
  | enter | own | downCn | send | count | upCn | answer | deliver | need | callbackAlloc
  | callbackAllocFail | memcpy => exact hs
  | downCb => exact hs.down _
  | upCb | finish => exact hs.up
  | probe _ _ hpos => exact fun _ => hs hpos

/-! ## The end of a run -/

/-- No call, no callback run and no message that is under way can make a step. -/
def Halted (s : Channel) : Prop := ∀ a t, step s a = some t → a.isEnter = true

/-- Every call has returned, and no message is left. -/
structure Rest (s : Channel) : Prop where
  calls : ∀ i c, s.calls i = some c → c.pc = .done
  calm : Calm s

/-- Reader `o`, whose `kzalloc` failed, waits with `cn_sem` in its hands for a reply that nobody will
send, and the other calls wait for `cn_sem`. -/
structure Deadlock (s : Channel) (o : Nat) : Prop where
  stuck : Stuck s o
  failed : ∃ c, s.calls o = some c ∧ c.kind.isRead = true ∧ c.pc = .downReply ∧ c.m = none
  queued : ∀ i c, s.calls i = some c → i ≠ o → c.pc = .done ∨ WaitsCn (some c)

theorem Halted.none {s : Channel} (hs : Halted s) {a : Action} (ha : a.isEnter = false) :
    step s a = none := by
  cases ht : step s a with
  | none => rfl
  | some t =>
    rw [hs a t ht] at ha
    cases ha

theorem Halted.calls {s : Channel} (hs : Halted s) (a : Action) (t : Channel)
    (h : step s a = some t) : a.inCall = false := by
  have ha := hs a t h
  cases a <;> first | rfl | cases ha

/-- A call that has not returned and is not blocked can make its next operation. -/
theorem exists_step_of_call {s : Channel} {i : Nat} {c : Call} (hc : s.calls i = some c) (hwf : c.Wf)
    (hfits : c.Fits) (hb : c.blocked = false) (hpc : c.pc ≠ .done) :
    ∃ a t, a.inCall = true ∧ step s a = some t := by
  by_contra hno
  have hnone : ∀ a : Action, a.inCall = true → step s a = none := by
    intro a ha
    by_contra hne
    obtain ⟨t, ht⟩ := Option.ne_none_iff_exists'.mp hne
    exact hno ⟨a, t, ha, ht⟩
  have halloc : s.stepKzalloc i true = none := hnone (.kzalloc i true) rfl
  have hcopy : s.stepCopyFromUser i 0 = none := hnone (.copyFromUser i 0) rfl
  have hcall : s.stepCall i = none := hnone (.call i) rfl
  unfold stepKzalloc at halloc
  unfold stepCopyFromUser at hcopy
  unfold stepCall at hcall
  cases hp : c.pc with
  | kzalloc => cases hk : c.kind <;> simp [hc, hp, hk] at halloc
  | kzallocData => simp [hc, hp] at halloc
  | copyFromUser =>
    have hk := hfits.writer (.inr hp)
    obtain ⟨m, hm⟩ := Option.ne_none_iff_exists'.mp (hwf.message (by simp [hp, Pc.sampled]))
    cases hkind : c.kind with
    | read => simp [hkind, Kind.isRead] at hk
    | write source => simp [hc, hp, hkind, hm] at hcopy
  | send =>
    obtain ⟨m, hm⟩ := Option.ne_none_iff_exists'.mp (hwf.message (by simp [hp, Pc.sampled]))
    simp [hc, hb, hp, hm] at hcall
  | done => exact hpc hp
  | downCn | downCb | sample | count | downReply | upCb | copyToUser | upCn =>
    simp [hc, hb, hp] at hcall

theorem calm_of_halted {s : Channel} (hs : Halted s) : Calm s := by
  refine ⟨?_, ?_, ?_⟩
  · have h : step s (.answer 0 ⟨0, fun _ => 0⟩) = none := hs.none rfl
    cases hw : s.wire with
    | nil => rfl
    | cons r rs => simp [step, hw] at h
  · have h : step s (.deliver 0) = none := hs.none rfl
    cases hi : s.inbox with
    | nil => rfl
    | cons r rs => simp [step, hi] at h
  · intro k b hb
    have h : s.stepCallback k = none := hs.none (a := .callback k) rfl
    have halloc : s.stepCallbackKzalloc k true = none := hs.none (a := .callbackKzalloc k true) rfl
    cases hp : b.pc with
    | done => rfl
    | kzalloc => simp [stepCallbackKzalloc, hb, hp] at halloc
    | trylock | release | memcpy | up => simp [stepCallback, hb, hp] at h

/-- No call can go on when every call is over or queued. -/
theorem inCall_of_queued {s t : Channel} {a : Action}
    (h : ∀ i c, s.calls i = some c → c.pc = .done ∨ WaitsCn (some c) ∨ WaitsCb (some c))
    (ht : step s a = some t) : a.inCall = false := by
  have hidle : ∀ {i : Nat} {c : Call}, s.calls i = some c → Free (some c) → c.pc = .done := by
    intro i c hc hfree
    rcases h i c hc with hpc | hw | hw
    · exact hpc
    · exact absurd hw hfree.1
    · exact absurd hw hfree.2
  cases step_cases ht with
  | own hc ho =>
    have hpc := ho.spec.2.2.1
    simp [hidle hc ho.spec.1, Pc.holds] at hpc
  | downCn hc hb hpc | upCn hc hb hpc =>
    rw [hidle hc (free_of_unblocked hb)] at hpc
    cases hpc
  | downCb hc hb hpc =>
    rw [hidle hc (free_of_unblocked hb)] at hpc
    rcases hpc with hpc | hpc <;> cases hpc
  | send hc hpc | count hc hpc | upCb hc hpc =>
    have hdone := hidle hc (free_of_pc (by simp [hpc]))
    simp [hpc] at hdone
  | enter | answer | deliver | probe | need | callbackAlloc | callbackAllocFail | memcpy
  | finish => rfl

/-- Nothing at all can go on when moreover no message is left. -/
theorem halted_of_queued {s : Channel} (hcalm : Calm s)
    (h : ∀ i c, s.calls i = some c → c.pc = .done ∨ WaitsCn (some c) ∨ WaitsCb (some c)) :
    Halted s := by
  intro a t ht
  have hcall := inCall_of_queued h ht
  cases step_cases ht with
  | enter => rfl
  | own _ ho => cases ho <;> cases hcall
  | downCn | downCb | send | count | upCb | upCn => cases hcall
  | answer hk => simp [hcalm.wire] at hk
  | deliver hk => simp [hcalm.inbox] at hk
  | probe hb hpc | need hb hpc | callbackAlloc hb hpc | callbackAllocFail hb hpc | memcpy hb hpc =>
    rw [hcalm.quiet _ _ hb] at hpc
    cases hpc
  | finish hb hpc =>
    rw [hcalm.quiet _ _ hb] at hpc
    rcases hpc with hpc | hpc <;> cases hpc

section Halted

variable {s : Channel} {owner : Option Nat}

/-- Where no call can go on, one that has not returned is queued. -/
theorem Steady.waits (hs : Steady s owner) (hh : ∀ a t, step s a = some t → a.inCall = false)
    {i : Nat} {c : Call} (hc : s.calls i = some c) (hpc : c.pc ≠ .done) :
    WaitsCn (some c) ∨ WaitsCb (some c) := by
  have hb : c.blocked = true := by
    by_contra hb
    obtain ⟨a, t, ha, ht⟩ :=
      exists_step_of_call hc (hs.wf i c hc) (hs.fits i c hc) (by simpa using hb) hpc
    rw [hh a t ht] at ha
    cases ha
  rcases (hs.wf i c hc).awake hb with hp | hp
  · exact .inl ⟨hb, hp⟩
  · exact .inr ⟨hb, hp⟩

/-- Nobody waits for `cb_sem`: then nobody waits for `cn_sem` either. -/
theorem Steady.rest (hs : Steady s owner) (hh : Halted s) (hw : s.cbSem.waiters = []) : Rest s := by
  have hcb : ∀ i, ¬ WaitsCb (s.calls i) := by
    intro i hi
    have hmem := (hs.locked.cb.mem i).mpr hi
    rw [hw] at hmem
    cases hmem
  have hnone : owner = none := by
    by_contra hsome
    obtain ⟨o, rfl⟩ := Option.ne_none_iff_exists'.mp hsome
    have hholds := (hs.locked.holds o).mpr rfl
    cases hc : s.calls o with
    | none => simp [hc, HoldsCn] at hholds
    | some c =>
      have hpc : c.pc.holds = true := by rwa [hc] at hholds
      rcases hs.waits hh.calls hc (by rintro hp; simp [hp, Pc.holds] at hpc) with hwcn | hwcb
      · simp [hwcn.2, Pc.holds] at hpc
      · exact hcb o (hc ▸ hwcb)
  refine ⟨?_, calm_of_halted hh⟩
  intro i c hc
  by_contra hpc
  rcases hs.waits hh.calls hc hpc with hwcn | hwcb
  · have hmem := (hs.locked.cn.mem i).mpr (hc ▸ hwcn)
    rw [(hs.locked.mutex.free hnone).2] at hmem
    cases hmem
  · exact hcb i (hc ▸ hwcb)

/-- The one reader that waits for `cb_sem` holds `cn_sem`. -/
theorem Steady.deadlock (hs : Steady s owner) (htight : s.cbSem.Tight) (hh : Halted s) {o : Nat}
    {c : Call} (hc : s.calls o = some c) (hsup : c.supplies = true) : Deadlock s o := by
  have hpc : c.pc ≠ .done := by
    intro hp
    simp [Call.supplies, hp] at hsup
  have hw : WaitsCb (some c) := by
    refine (hs.waits hh.calls hc hpc).resolve_left ?_
    rintro ⟨_, hp⟩
    simp [Call.supplies, hp] at hsup
  have hfailed : c.kind.isRead = true ∧ c.pc = .downReply ∧ c.m = none := by
    rcases hw.2 with hp | hp <;> simp_all [Call.supplies]
  have hholds := (holdsCn_of_waitsCb hw).1
  obtain rfl := (hs.locked.holds o).mp (hc ▸ hholds)
  have honly : ∀ i, WaitsCb (s.calls i) → i = o := by
    intro i hi
    have howner := (hs.locked.holds i).mp (holdsCn_of_waitsCb hi).1
    exact (Option.some.inj howner).symm
  have hmem : o ∈ s.cbSem.waiters := (hs.locked.cb.mem o).mpr (hc ▸ hw)
  have hwaiters : s.cbSem.waiters = [o] := by
    refine List.perm_singleton.mp ((List.perm_ext_iff_of_nodup hs.locked.cb.nodup
      (List.nodup_singleton o)).mpr fun i => ?_)
    rw [hs.locked.cb.mem i, List.mem_singleton]
    exact ⟨honly i, fun hi => hi ▸ hc ▸ hw⟩
  have hcount : s.cbSem.count = 0 := by
    by_contra hne
    simp [htight (Nat.pos_of_ne_zero hne)] at hwaiters
  refine ⟨⟨hs.locked, hc ▸ hw, ?_, calm_of_halted hh⟩, ⟨c, hc, hfailed⟩, ?_⟩
  · rw [← hcount, ← hwaiters]
  · intro i d hd hi
    by_cases hp : d.pc = .done
    · exact .inl hp
    · exact .inr ((hs.waits hh.calls hd hp).resolve_right fun hwd => hi (honly i (hd ▸ hwd)))

end Halted

/-- When sends succeed and the peer is able to answer, the only deadlock is the one a failed `kzalloc` of
`sjfs_fops_read` leads to: where nothing can go on, every call has returned and nothing is in flight, or
one such read keeps all others out. -/
theorem halted_iff {s : Channel} (h : Reach step (fun _ _ => True) init s) :
    Halted s ↔ Rest s ∨ ∃ o, Deadlock s o := by
  have hinv : (∃ owner, Steady s owner) ∧ s.cbSem.Tight ∧ Supplied s := by
    refine h.invariant (I := fun s => (∃ owner, Steady s owner) ∧ s.cbSem.Tight ∧ Supplied s)
      ⟨⟨none, steady_init⟩, fun _ => rfl, .unit (by decide)⟩ ?_
    rintro s a t ⟨⟨owner, hs⟩, htight, hsup⟩ _ hstep
    have h := step_cases hstep
    exact ⟨⟨_, steady_step hs h⟩, tight_step htight h, supplied_step hs hsup h⟩
  obtain ⟨⟨owner, hs⟩, htight, hsup⟩ := hinv
  constructor
  · intro hh
    have hcalm := calm_of_halted hh
    cases hsup with
    | unit hpos => exact .inl (hs.rest hh (htight hpos))
    | call hhas =>
      obtain ⟨o, c, hc, hsupplies⟩ := hhas
      exact .inr ⟨o, hs.deadlock htight hh hc hsupplies⟩
    | callback hb hpc => exact absurd (hcalm.quiet _ _ hb) hpc
    | request hne => exact absurd hcalm.wire hne
    | answer hne => exact absurd hcalm.inbox hne
  · rintro (hrest | ⟨o, hdead⟩)
    · exact halted_of_queued hrest.calm fun i c hc => .inl (hrest.calls i c hc)
    · refine halted_of_queued hdead.stuck.calm ?_
      intro i c hc
      by_cases hi : i = o
      · subst hi
        exact .inr (.inr (hc ▸ hdead.stuck.waits))
      · exact (hdead.queued i c hc hi).imp_right .inl

/-- The run of one such read, alone, ends in the deadlock. -/
theorem deadlock_lonelyFailure :
    ∃ s, (lonelyFailure 0).foldlM step init = some s ∧ Halted s ∧ ∃ o, Deadlock s o := by
  have hrun : ∃ s c, (lonelyFailure 0).foldlM step init = some s ∧ s.calls 0 = some c ∧
      c.pc = .downReply ∧ Calm s ∧ ∀ i c, s.calls i = some c →
        c.pc = .done ∨ WaitsCn (some c) ∨ WaitsCb (some c) := by
    refine ⟨_, _, rfl, rfl, rfl, ⟨rfl, rfl, fun _ _ hb => by cases hb⟩, ?_⟩
    intro i c hc
    match i with
    | 0 =>
      cases hc
      exact .inr (.inr ⟨rfl, .inr rfl⟩)
    | i + 1 => cases hc
  obtain ⟨s, c, hs, hc, hpc, hcalm, hqueued⟩ := hrun
  have hhalted := halted_of_queued hcalm hqueued
  refine ⟨s, hs, hhalted, ((halted_iff (.of_foldlM hs)).mp hhalted).resolve_left ?_⟩
  intro hrest
  rw [hrest.calls 0 c hc] at hpc
  cases hpc

end Channel

end PlanA

end Sjfs
