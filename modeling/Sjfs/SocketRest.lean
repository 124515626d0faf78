import Sjfs.SocketReply
import Sjfs.Lib.Potential

/-!
# The socket level at rest

What is left when every call of `sjfs_read_block` and `sjfs_write_block` and every run of
`cn_callback` is over. Nothing is assumed of the run that led there: allocations may have failed and
messages may have come that nobody asked for.

A call that takes a unit of a semaphore stays at operations that lead to an `up` of it until it has
made one, and so does a callback run (`Available`). So both semaphores can be taken at rest, and a
further call is not blocked for ever by what came before it.

Results:
1. `available_step`: a semaphore without a unit has somebody who is on the way to an `up`.
2. `idle_of_rest`: at rest both semaphores have a unit and no waiter.
-/

namespace Sjfs

open Lib

/-- The operations from which a call comes to `up(&cn_sem)` without another `down(&cn_sem)`. -/
def Pc.owesCn : Pc → Bool
  | .downCb | .send | .count | .downReply | .upCb | .copy | .upCn => true
  | _ => false

/-- The operations from which a call comes to `up(&cb_sem)`, and has made a `down(&cb_sem)` if its
message was allocated. -/
def Pc.owesCb : Pc → Bool
  | .send | .count | .downReply | .upCb => true
  | _ => false

namespace Socket

/-- Some call stands at one of the operations `owes`. -/
abbrev Owing (owes : Pc → Bool) (calls : Nat → Option Call) : Prop :=
  Semaphore.Has (fun c : Call => owes c.pc = true) calls

/-- A semaphore without a unit has somebody who is on the way to an `up` of it. -/
structure Available (s : Socket) : Prop where
  cn : 0 < s.cnSem.count ∨ Owing Pc.owesCn s.calls
  cb : 0 < s.cbSem.count ∨ Owing Pc.owesCb s.calls ∨ ∃ k b, s.callbacks k = some b ∧ b.busy

theorem advance_owesCn_of_waitsCn {d : Call} (h : WaitsCn (some d)) :
    d.advance.pc.owesCn = true := by
  cases hk : d.kind <;> simp [Call.advance, Call.next, h.2, hk, Pc.owesCn]

theorem advance_owes_of_waitsCb {d : Call} (h : WaitsCb (some d)) :
    d.advance.pc.owesCn = true ∧ d.advance.pc.owesCb = true := by
  rcases h.2 with hpc | hpc <;> simp [Call.advance, Call.next, hpc, Pc.owesCn, Pc.owesCb]

theorem not_owesCb_of_waitsCn {d : Call} (h : WaitsCn (some d)) : d.pc.owesCb = false := by
  simp [h.2, Pc.owesCb]

/-- `up(&cb_sem)`. Before it, only `cn_sem` has to be in order. -/
theorem available_upCb {s : Socket} (hq : Queues s)
    (hcn : 0 < s.cnSem.count ∨ Owing Pc.owesCn s.calls) : Available s.upCb := by
  have hwaiter : ∀ j, s.cbSem.up.2 = some j → ∃ d, s.calls j = some d ∧ WaitsCb (some d) :=
    fun _ hj => exists_of_waitsCb (hq.cb.up_waits hj)
  constructor
  · refine hcn.imp_right fun ho => ho.wake ?_
    intro j d hj hd _
    obtain ⟨d', hd', hw⟩ := hwaiter j hj
    obtain rfl : d' = d := Option.some.inj (hd'.symm.trans hd)
    exact (advance_owes_of_waitsCb hw).1
  · refine (Semaphore.has_of_up fun j hj => ?_).imp_right .inl
    obtain ⟨d, hd, hw⟩ := hwaiter j hj
    exact ⟨d, hd, (advance_owes_of_waitsCb hw).2⟩

/-- `up(&cn_sem)`. Before it, only `cb_sem` has to be in order. -/
theorem available_upCn {s : Socket} (hq : Queues s)
    (hcb : 0 < s.cbSem.count ∨ Owing Pc.owesCb s.calls ∨
      ∃ k b, s.callbacks k = some b ∧ b.busy) : Available s.upCn := by
  have hwaiter : ∀ j, s.cnSem.up.2 = some j → ∃ d, s.calls j = some d ∧ WaitsCn (some d) :=
    fun _ hj => exists_of_waitsCn (hq.cn.up_waits hj)
  constructor
  · refine Semaphore.has_of_up fun j hj => ?_
    obtain ⟨d, hd, hw⟩ := hwaiter j hj
    exact ⟨d, hd, advance_owesCn_of_waitsCn hw⟩
  · refine hcb.imp_right (Or.imp_left fun ho => ho.wake ?_)
    intro j d hj hd hod
    obtain ⟨d', hd', hw⟩ := hwaiter j hj
    obtain rfl : d' = d := Option.some.inj (hd'.symm.trans hd)
    rw [not_owesCb_of_waitsCn hw] at hod
    cases hod

/-- A `down` takes a unit, and the call owes it, or there was none and somebody else owes one. -/
theorem owing_down {owes : Pc → Bool} {s : Socket} {i : Nat} {c : Call} {sem : Semaphore Nat}
    (hc : s.calls i = some c) (hnext : owes c.advance.pc = true)
    (h : 0 < sem.count ∨ Owing owes s.calls) :
    Owing owes (Function.update s.calls i (some (c.downed (sem.down i).2))) := by
  rcases Nat.eq_zero_or_pos sem.count with hz | hp
  · rw [Semaphore.down_of_zero hz]
    refine (h.resolve_left (by omega)).update ?_
    intro c' hc' ho
    obtain rfl : c' = c := Option.some.inj (hc'.symm.trans hc)
    exact ho
  · rw [Semaphore.down_of_pos hp]
    exact Semaphore.has_update_self hnext

/-- A step of call `i` that makes no `up` and no `down`: what the call owes, it owes afterwards. -/
theorem Available.update {s t : Socket} (ha : Available s) {i : Nat} {c' : Call}
    (hcalls : t.calls = Function.update s.calls i (some c')) (hcn : t.cnSem = s.cnSem)
    (hcb : t.cbSem = s.cbSem) (hcallbacks : t.callbacks = s.callbacks)
    (hi : ∀ c, s.calls i = some c → (c.pc.owesCn = true → c'.pc.owesCn = true) ∧
      (c.pc.owesCb = true → c'.pc.owesCb = true)) : Available t := by
  constructor
  · rw [hcn, hcalls]
    exact ha.cn.imp_right fun ho => ho.update fun c hc => (hi c hc).1
  · rw [hcb, hcalls, hcallbacks]
    exact ha.cb.imp_right (Or.imp_left fun ho => ho.update fun c hc => (hi c hc).2)

/-- A step of callback run `k` that makes no `up`: it is busy afterwards. -/
theorem Available.busy {s t : Socket} (ha : Available s) {k : Nat} {b : Callback}
    (hcalls : t.calls = s.calls) (hcn : t.cnSem = s.cnSem) (hb : t.callbacks k = some b)
    (hbusy : b.busy) : Available t :=
  ⟨by rw [hcalls, hcn]; exact ha.cn, .inr (.inr ⟨k, b, hb, hbusy⟩)⟩

theorem Available.start {s : Socket} (ha : Available s)
    (hn : ∀ k b, s.callbacks k = some b → k < s.delivered) (msg : Msg) :
    Available (s.start msg) := by
  refine ⟨ha.cn, ha.cb.imp_right (Or.imp_right ?_)⟩
  rintro ⟨k, b, hb, hbusy⟩
  have hk : k ≠ s.delivered := Nat.ne_of_lt (hn k b hb)
  exact ⟨k, b, (Function.update_of_ne hk ..).trans hb, hbusy⟩

theorem available_step {s t : Socket} {a : Action} (hq : Queues s)
    (hn : ∀ k b, s.callbacks k = some b → k < s.delivered) (ha : Available s) (h : Step s a t) :
    Available t := by
  cases h with
  | readBlock hc | writeBlock hc =>
    refine ha.update rfl rfl rfl rfl ?_
    intro c hc'
    rw [hc] at hc'
    cases hc'
  | alloc hc hpc | allocFail hc hpc | sample hc _ hpc | send hc _ hpc | count hc _ hpc
  | copy hc _ hpc =>
    refine ha.update rfl rfl rfl rfl ?_
    intro c hc'
    obtain rfl := Option.some.inj (hc'.symm.trans hc)
    simp [Call.advance, Call.next, hpc, Pc.owesCn, Pc.owesCb]
  | @downCn i c hc hb hpc =>
    have hnext : c.advance.pc.owesCn = true := by
      cases hk : c.kind <;> simp [Call.advance, Call.next, hpc, hk, Pc.owesCn]
    refine ⟨.inr (owing_down hc hnext ha.cn), ha.cb.imp_right (Or.imp_left fun ho => ho.update ?_)⟩
    intro c' hc' ho
    obtain rfl := Option.some.inj (hc'.symm.trans hc)
    simp [hpc, Pc.owesCb] at ho
  | @downCb i c hc hb hpc =>
    have hcn : (c.downed (s.cbSem.down i).2).pc.owesCn = true := by
      cases (s.cbSem.down i).2 <;> rcases hpc with hpc | hpc <;>
        simp [Call.downed, Call.advance, Call.next, hpc, Pc.owesCn]
    have hnext : c.advance.pc.owesCb = true := by
      rcases hpc with hpc | hpc <;> simp [Call.advance, Call.next, hpc, Pc.owesCb]
    refine ⟨.inr (Semaphore.has_update_self hcn), .inr ?_⟩
    rcases ha.cb with hpos | ho | hbusy
    · exact .inl (owing_down hc hnext (.inl hpos))
    · exact .inl (owing_down hc hnext (.inr ho))
    · exact .inr hbusy
  | @upCb i c hc hb hpc =>
    have hq' : Queues (s.setCall i c.advance) :=
      hq.setCall (hc ▸ free_of_unblocked hb) (free_of_unblocked rfl)
    refine available_upCb hq' (.inr (Semaphore.has_update_self ?_))
    simp [Call.advance, Call.next, hpc, Pc.owesCn]
  | @upCn i c hc hb hpc =>
    have hq' : Queues (s.setCall i c.advance) :=
      hq.setCall (hc ▸ free_of_unblocked hb) (free_of_unblocked rfl)
    refine available_upCn hq' (ha.cb.imp_right (Or.imp_left fun ho => ho.update ?_))
    intro c' hc' ho
    obtain rfl := Option.some.inj (hc'.symm.trans hc)
    simp [hpc, Pc.owesCb] at ho
  | answer => exact ⟨ha.cn, ha.cb⟩
  | @deliver k =>
    have ha' : Available { s with inbox := s.inbox.eraseIdx k } := ⟨ha.cn, ha.cb⟩
    exact ha'.start hn _
  | inject => exact ha.start hn _
  | probe | need | fill =>
    exact ha.busy rfl rfl (Function.update_self ..) (by simp [Callback.busy])
  | @finish k b hb =>
    have hq' : Queues (s.setCallback k { b with pc := .done }) := ⟨hq.cn, hq.cb⟩
    exact available_upCb hq' ha.cn

theorem available_init : Available init := ⟨.inl (by decide), .inl (by decide)⟩

/-! ## Calls that were started -/

/-- Only finitely many calls and callback runs were started. -/
structure Started (s : Socket) : Prop where
  calls : Finitely s.calls
  callbacks : Finitely s.callbacks

theorem started_step {s t : Socket} {a : Action} (hs : Started s) (h : Step s a t) :
    Started t := by
  obtain ⟨hcalls, hcallbacks⟩ := hs
  cases h with
  | @readBlock i | @writeBlock i | @alloc i | @allocFail i | @sample i | @downCn i | @downCb i
  | @send i | @count i | @copy i => exact ⟨hcalls.update i _, hcallbacks⟩
  | @upCb i | @upCn i => exact ⟨(hcalls.update i _).wake _ _, hcallbacks⟩
  | answer => exact ⟨hcalls, hcallbacks⟩
  | deliver | inject => exact ⟨hcalls, hcallbacks.update s.delivered _⟩
  | @probe k | @need k | @fill k => exact ⟨hcalls, hcallbacks.update k _⟩
  | @finish k => exact ⟨hcalls.wake _ _, hcallbacks.update k _⟩

/-! ## Rest -/

/-- Every call and every callback run is over, and no message is on its way. -/
structure Rest (s : Socket) : Prop where
  calls : ∀ i c, s.calls i = some c → c.pc = .done
  calm : Calm s

/-- What a run of whatever steps leaves. -/
structure History (s : Socket) : Prop where
  queues : Queues s
  numbered : ∀ k b, s.callbacks k = some b → k < s.delivered
  available : Available s
  started : Started s

theorem history_of_reach {s : Socket} (h : Reach step (fun _ _ => True) init s) : History s := by
  refine h.invariant ⟨queues_init, ?_, available_init, finitely_none, finitely_none⟩ ?_
  · intro k b hb
    cases hb
  · intro s a t hs _ hstep
    have h := step_cases hstep
    exact ⟨queues_step hs.queues h, numbered_step h hs.numbered,
      available_step hs.queues hs.numbered hs.available h, started_step hs.started h⟩

/-- At rest, both semaphores have a unit and no waiter, and there is a number for one more call. -/
structure Idle (s : Socket) : Prop where
  rest : Rest s
  queues : Queues s
  numbered : ∀ k b, s.callbacks k = some b → k < s.delivered
  cnPos : 0 < s.cnSem.count
  cnWaiters : s.cnSem.waiters = []
  cbPos : 0 < s.cbSem.count
  cbWaiters : s.cbSem.waiters = []
  fresh : ∃ i, s.calls i = none

theorem not_owing_of_rest {s : Socket} (hr : Rest s) {owes : Pc → Bool}
    (hdone : owes .done = false) : ¬ Owing owes s.calls := by
  rintro ⟨i, c, hc, ho⟩
  rw [hr.calls i c hc, hdone] at ho
  cases ho

theorem idle_of_rest {s : Socket} (h : Reach step (fun _ _ => True) init s) (hr : Rest s) :
    Idle s := by
  have hs := history_of_reach h
  refine ⟨hr, hs.queues, hs.numbered, hs.available.cn.resolve_right (not_owing_of_rest hr rfl),
    ?_, ?_, ?_, hs.started.calls.exists_none⟩
  · refine List.eq_nil_iff_forall_not_mem.mpr fun i hi => ?_
    obtain ⟨c, hc, hw⟩ := exists_of_waitsCn ((hs.queues.cn.mem i).mp hi)
    simp [WaitsCn, hr.calls i c hc] at hw
  · refine hs.available.cb.resolve_right ?_
    rintro (ho | ⟨k, b, hb, hbusy⟩)
    · exact not_owing_of_rest hr rfl ho
    · simp [Callback.busy, hr.calm.quiet k b hb] at hbusy
  · refine List.eq_nil_iff_forall_not_mem.mpr fun i hi => ?_
    obtain ⟨c, hc, hw⟩ := exists_of_waitsCb ((hs.queues.cb.mem i).mp hi)
    simp [WaitsCb, hr.calls i c hc] at hw

end Socket

end Sjfs
