import Sjfs.SocketCalls

/-!
# The socket level goes on

That calls return. Allocations may fail, messages may come that nobody asked for, and the steps of
calls and callback runs interleave in any order. Two things are assumed, and both are in the machine:
a send succeeds, and the peer is able to answer a request it was sent.

A read makes eleven steps, a write three, and a message to `cn_callback` at most four; a `down` that
blocks is one step as well as one that does not, because the `up` that ends it moves the call on. So
the calls and messages of a run bound its length. A run that cannot go on has not come to a
deadlock: whoever took the last unit of `cb_sem` is on the way to the `up`, or has sent a request
whose answer leads to one.

Results:
1. `length_le_work`: a run has at most 16 steps for each read, 3 for each write and 4 for each
   message nobody asked for.
2. `stuck_iff_idle`: where no call, no callback run, not the peer and no delivery can go on, every
   call has returned and both semaphores are free.
-/

namespace Sjfs

open Lib

/-! ## Work -/

/-- The steps from an operation to the end of the call, and for a read that has not sent its request
the steps of the answer: the peer's, the delivery and three of `cn_callback`. -/
def Pc.work (kind : Kind) : Pc → Nat
  | .kzalloc => 15
  | .sample => 14
  | .downCn => match kind with
    | .read _ => 13
    | .write => 2
  | .downCb => 12
  | .send => 11
  | .count => 5
  | .downReply => 4
  | .upCb => 3
  | .copy => 2
  | .upCn => 1
  | .done => 0

/-- A call that is blocked has made the step of its `down`. -/
def Call.work (c : Call) : Nat :=
  match c.pc with
  | .downCn | .downCb | .downReply => c.pc.work c.kind - c.blocked.toNat
  | _ => c.pc.work c.kind

def CbPc.work : CbPc → Nat
  | .trylock => 3
  | .copy => 2
  | .release | .up => 1
  | .done => 0

def Callback.work (b : Callback) : Nat := b.pc.work

/-- The work an action brings, its own step included. -/
def Action.work : Action → Nat
  | .readBlock _ _ => 16
  | .writeBlock _ => 3
  | .inject _ => 4
  | _ => 0

/-- An action that brings a new call or a new message. -/
def Action.isNew : Action → Bool
  | .readBlock _ _ | .writeBlock _ | .inject _ => true
  | _ => false

namespace Socket

/-- The steps that are left, at most. -/
noncomputable def left (s : Socket) : Nat :=
  total Call.work s.calls + total Callback.work s.callbacks + 5 * s.wire.length +
    4 * s.inbox.length

/-- The `down` of a call is one step, whether it blocks or not. -/
theorem work_downed {c : Call} (hb : c.blocked = false)
    (hpc : c.pc = .downCn ∨ c.pc = .downCb ∨ c.pc = .downReply) (took : Bool) :
    (c.downed took).work + 1 = c.work := by
  rcases hpc with hpc | hpc | hpc <;> cases took <;> cases hk : c.kind <;>
    simp [Call.downed, Call.work, Call.advance, Call.next, Pc.work, hpc, hb, hk]

/-- The `up` that ends a `down` is not a step of the call that waited. -/
theorem work_advance_of_waits {c : Call} (h : WaitsCn (some c) ∨ WaitsCb (some c)) :
    c.advance.work = c.work := by
  rcases h with ⟨hb, hpc⟩ | ⟨hb, hpc | hpc⟩ <;> cases hk : c.kind <;>
    simp [Call.work, Call.advance, Call.next, Pc.work, hpc, hb, hk]

theorem total_wake_waiter {calls : Nat → Option Call} {w : Option Nat}
    (hw : ∀ j, w = some j → WaitsCn (calls j) ∨ WaitsCb (calls j)) :
    total Call.work (Semaphore.wake Call.advance calls w) = total Call.work calls := by
  refine total_wake ?_
  intro j c hj hc
  have hwaits := hw j hj
  rw [hc] at hwaits
  exact work_advance_of_waits hwaits

theorem total_upCb {s : Socket} (hq : Queues s) :
    total Call.work s.upCb.calls = total Call.work s.calls :=
  total_wake_waiter fun _ hj => .inr (hq.cb.up_waits hj)

theorem total_upCn {s : Socket} (hq : Queues s) :
    total Call.work s.upCn.calls = total Call.work s.calls :=
  total_wake_waiter fun _ hj => .inl (hq.cn.up_waits hj)

/-- A step of call `i`, in which it does at least one unit of its work. -/
theorem left_setCall {s : Socket} (hs : Started s) {i : Nat} {c c' : Call}
    (hc : s.calls i = some c) (hwork : c'.work + 1 ≤ c.work) :
    (s.setCall i c').left + 1 ≤ s.left := by
  have h := total_update Call.work hs.calls i c'
  simp only [share, hc, Option.elim] at h
  simp only [left, setCall]
  omega

/-- A step of callback run `k`. -/
theorem left_setCallback {s : Socket} (hs : Started s) {k : Nat} {b b' : Callback}
    (hb : s.callbacks k = some b) (hwork : b'.work + 1 ≤ b.work) :
    (s.setCallback k b').left + 1 ≤ s.left := by
  have h := total_update Callback.work hs.callbacks k b'
  simp only [share, hb, Option.elim] at h
  simp only [left, setCallback]
  omega

/-- A callback run has three steps before it. -/
theorem left_start {s : Socket} (hs : Started s)
    (hn : ∀ k b, s.callbacks k = some b → k < s.delivered) (msg : Msg) :
    (s.start msg).left = s.left + 3 := by
  have hnone : s.callbacks s.delivered = none := by
    cases hb : s.callbacks s.delivered with
    | none => rfl
    | some b => exact absurd (hn _ b hb) (Nat.lt_irrefl _)
  have h := total_update Callback.work hs.callbacks s.delivered ⟨msg, .trylock⟩
  simp only [share, hnone, Option.elim] at h
  simp only [left, start, setCallback]
  rw [Nat.add_zero] at h
  rw [h]
  simp only [Callback.work, CbPc.work]
  omega

theorem left_upCb {s : Socket} (hq : Queues s) : s.upCb.left = s.left := by
  have h := total_upCb hq
  simp only [left, upCb] at h ⊢
  rw [h]

theorem left_upCn {s : Socket} (hq : Queues s) : s.upCn.left = s.left := by
  have h := total_upCn hq
  simp only [left, upCn] at h ⊢
  rw [h]

theorem left_step {s t : Socket} {a : Action} (hq : Queues s)
    (hn : ∀ k b, s.callbacks k = some b → k < s.delivered) (hs : Started s) (h : Step s a t) :
    t.left + 1 ≤ s.left + a.work := by
  cases h with
  | @readBlock i address hc =>
    have h := total_update Call.work hs.calls i ⟨.read address, .kzalloc, false, none, none, none⟩
    simp only [share, hc, Option.elim, Call.work, Pc.work] at h
    simp only [left, setCall, Action.work]
    omega
  | @writeBlock i hc =>
    have h := total_update Call.work hs.calls i ⟨.write, .downCn, false, none, none, none⟩
    simp only [share, hc, Option.elim, Call.work, Pc.work, Bool.toNat_false] at h
    simp only [left, setCall, Action.work]
    omega
  | alloc hc hpc | allocFail hc hpc =>
    refine left_setCall hs hc ?_
    simp [Call.work, Call.advance, Call.next, Pc.work, hpc]
  | sample hc _ hpc hk =>
    refine left_setCall hs hc ?_
    simp [Call.work, Call.advance, Call.next, Pc.work, hpc, hk]
  | downCn hc hb hpc => exact left_setCall hs hc (Nat.le_of_eq (work_downed hb (.inl hpc) _))
  | downCb hc hb hpc => exact left_setCall hs hc (Nat.le_of_eq (work_downed hb (.inr hpc) _))
  | @send i c m hc hb hpc =>
    -- the request on the wire takes over the work of its answer
    have h := total_update Call.work hs.calls i { c.advance with sentAt := some s.delivered }
    simp only [share, hc, Option.elim, Call.work, Call.advance, Call.next, Pc.work, hpc] at h
    simp only [left, setCall, Action.work, Call.advance, Call.next, hpc, List.length_append,
      List.length_singleton]
    omega
  | count hc _ hpc | copy hc _ hpc =>
    refine left_setCall hs hc ?_
    simp [Call.work, Call.advance, Call.next, Pc.work, hpc]
  | @upCb i c hc hb hpc =>
    have hq' := hq.setCall (hc ▸ free_of_unblocked hb) (free_of_unblocked (c := c.advance) rfl)
    rw [left_upCb hq']
    refine left_setCall hs hc ?_
    simp [Call.work, Call.advance, Call.next, Pc.work, hpc]
  | @upCn i c hc hb hpc =>
    have hq' := hq.setCall (hc ▸ free_of_unblocked hb) (free_of_unblocked (c := c.advance) rfl)
    rw [left_upCn hq']
    refine left_setCall hs hc ?_
    simp [Call.work, Call.advance, Call.next, Pc.work, hpc]
  | @answer k msg r hr =>
    have hk := (List.getElem?_eq_some_iff.mp hr).1
    simp only [left, Action.work, List.length_eraseIdx_of_lt hk, List.length_append,
      List.length_singleton]
    omega
  | @deliver k r hr =>
    have hk := (List.getElem?_eq_some_iff.mp hr).1
    have hs' : Started { s with inbox := s.inbox.eraseIdx k } := ⟨hs.calls, hs.callbacks⟩
    rw [left_start hs' hn]
    simp only [left, Action.work, List.length_eraseIdx_of_lt hk]
    omega
  | inject =>
    rw [left_start hs hn]
    exact Nat.le_refl _
  | probe hb hpc | need hb hpc | fill hb hpc =>
    refine left_setCallback hs hb ?_
    simp [Callback.work, CbPc.work, hpc]
  | @finish k b hb hpc =>
    have hq' : Queues (s.setCallback k { b with pc := .done }) := ⟨hq.cn, hq.cb⟩
    rw [left_upCb hq']
    refine left_setCallback hs hb ?_
    rcases hpc with hpc | hpc <;> simp [Callback.work, CbPc.work, hpc]

/-- What the bound rests on. -/
structure Accounted (s : Socket) : Prop where
  queues : Queues s
  numbered : ∀ k b, s.callbacks k = some b → k < s.delivered
  started : Started s

theorem accounted_init : Accounted init :=
  ⟨queues_init, fun _ _ hb => (nomatch hb), finitely_none, finitely_none⟩

theorem accounted_step (s : Socket) (a : Action) (t : Socket) (hs : Accounted s)
    (hstep : step s a = some t) : Accounted t ∧ t.left + 1 ≤ s.left + a.work := by
  have h := step_cases hstep
  exact ⟨⟨queues_step hs.queues h, numbered_step h hs.numbered, started_step hs.started h⟩,
    left_step hs.queues hs.numbered hs.started h⟩

theorem left_init : init.left = 0 := by
  simp only [left, init, total_none, List.length_nil]

/-- The reads, writes and unasked messages of a run bound its length: no call waits in a loop, and
no message is handled twice. -/
theorem length_le_work {t : Socket} {as : List Action} (h : as.foldlM step init = some t) :
    as.length ≤ (as.map Action.work).sum := by
  have hlen := length_le_cost Accounted left Action.work accounted_step accounted_init h
  rw [left_init] at hlen
  omega

/-- A read that blocks in its second `down` and is woken by its answer. -/
def servedRead : List Action :=
  [.readBlock 0 5, .kzalloc 0 true, .call 0, .call 0, .call 0, .call 0, .answer 0 zeroMsg,
    .deliver 0, .callback 0, .call 0, .call 0, .callback 0, .callback 0, .call 0, .call 0, .call 0]

/-- A read that is answered makes all of its 16 steps. -/
theorem length_servedRead :
    ∃ t, servedRead.foldlM step init = some t ∧ servedRead.length = 16 ∧
      servedRead.length ≤ (servedRead.map Action.work).sum :=
  ⟨_, rfl, rfl, length_le_work rfl⟩

example : (servedRead.map Action.work).sum = 16 := rfl

/-! ## Deadlock -/

/-- Nobody waits for a unit that is there. -/
structure Tight (s : Socket) : Prop where
  cn : s.cnSem.Tight
  cb : s.cbSem.Tight

theorem tight_step {s t : Socket} {a : Action} (hs : Tight s) (h : Step s a t) : Tight t := by
  cases h with
  | readBlock | writeBlock | alloc | allocFail | sample | send | count | copy | answer | deliver
  | inject | need | fill => exact ⟨hs.cn, hs.cb⟩
  | downCn => exact ⟨hs.cn.down _, hs.cb⟩
  | downCb => exact ⟨hs.cn, hs.cb.down _⟩
  | upCb | finish => exact ⟨hs.cn, hs.cb.up⟩
  | upCn => exact ⟨hs.cn.up, hs.cb⟩
  | probe _ _ hpos => exact ⟨hs.cn, fun _ => hs.cb hpos⟩

end Socket

/-- The record of a call that is not stuck for ever: it is blocked only at a `down`, and a read has
its message from the sampling to the send. A failed allocation skips all of these operations. -/
def Call.Able (c : Call) : Prop :=
  match c.pc with
  | .kzalloc | .sample => c.blocked = false ∧ c.kind ≠ .write
  | .downCn => c.kind = .write ∨ c.m ≠ none
  | .downCb => c.m ≠ none
  | .send => c.blocked = false ∧ c.m ≠ none
  | .downReply => True
  | _ => c.blocked = false

theorem Call.Able.advance {c : Call} (h : c.Able) (hpc : c.pc ≠ .sample) : c.advance.Able := by
  unfold Call.Able at h ⊢
  cases hp : c.pc <;> cases hk : c.kind <;> simp_all [Call.advance, Call.next]

theorem Call.Able.downed {c : Call} (h : c.Able)
    (hpc : c.pc = .downCn ∨ c.pc = .downCb ∨ c.pc = .downReply) (took : Bool) :
    (c.downed took).Able := by
  cases took with
  | true => exact h.advance (by rcases hpc with hpc | hpc | hpc <;> simp [hpc])
  | false =>
    unfold Call.Able at h ⊢
    rcases hpc with hpc | hpc | hpc <;> simp_all [Call.downed]

namespace Socket

theorem CallMove.able {s : Socket} {a : Action} {o : Option Call} {c' : Call}
    (h : CallMove s a o c') (ho : ∀ c, o = some c → c.Able) : c'.Able := by
  cases h with
  | enterRead | enterWrite => simp [Call.Able]
  | @alloc c hpc | @allocFail _ c _ hpc =>
    have hc := ho c rfl
    simp_all [Call.Able, Call.advance, Call.next]
  | @sample c _ hpc hk => simp [Call.Able, Call.advance, Call.next, hpc]
  | @block c hpc => exact (ho c rfl).downed hpc false
  | @move c hpc =>
    refine (ho c rfl).advance ?_
    rcases hpc with hpc | hpc | hpc | hpc | hpc | hpc <;> simp [hpc]
  | @send c hpc | @copy c hpc => exact (ho c rfl).advance (by simp [hpc])

/-- Why the readers at `cb_sem` do not wait for ever: it has a unit, or somebody is on the way to an
`up` of it and needs no further unit for that. -/
inductive Supplied (s : Socket) : Prop
  | unit : 0 < s.cbSem.count → Supplied s
  | call : Owing (fun pc => pc = .send || pc = .upCb) s.calls → Supplied s
  | callback {k : Nat} {b : Callback} : s.callbacks k = some b → b.pc ≠ .done → Supplied s
  | request : s.wire ≠ [] → Supplied s
  | answer : s.inbox ≠ [] → Supplied s

/-- An `up(&cb_sem)` supplies, whatever was the case before it. -/
theorem supplied_upCb {s : Socket} (hq : Queues s) : Supplied s.upCb := by
  have h : 0 < s.cbSem.up.1.count ∨
      Owing (fun pc => pc = .send || pc = .upCb)
        (Semaphore.wake Call.advance s.calls s.cbSem.up.2) := by
    refine Semaphore.has_of_up ?_
    intro j hj
    obtain ⟨d, hd, hw⟩ := exists_of_waitsCb (hq.cb.up_waits hj)
    refine ⟨d, hd, ?_⟩
    rcases hw.2 with hpc | hpc <;> simp [Call.advance, Call.next, hpc]
  rcases h with hpos | ho
  · exact .unit hpos
  · exact .call ho

/-- A step that takes no unit and takes nobody off the way to an `up`. -/
theorem Supplied.frame {s t : Socket} (hs : Supplied s) (hsem : s.cbSem.count ≤ t.cbSem.count)
    (hcalls : Owing (fun pc => pc = .send || pc = .upCb) s.calls →
      Owing (fun pc => pc = .send || pc = .upCb) t.calls)
    (hcallbacks : t.callbacks = s.callbacks) (hwire : t.wire = s.wire)
    (hinbox : t.inbox = s.inbox) : Supplied t := by
  cases hs with
  | unit h => exact .unit (Nat.lt_of_lt_of_le h hsem)
  | call h => exact .call (hcalls h)
  | callback hb hpc => exact .callback (hcallbacks ▸ hb) hpc
  | request h => exact .request (hwire ▸ h)
  | answer h => exact .answer (hinbox ▸ h)

/-- A call that is on the way to an `up` is not at a `down`. -/
theorem owing_update_of_pc {calls : Nat → Option Call} {i : Nat} {c c' : Call}
    (hc : calls i = some c) (hpc : c.pc ≠ .send ∧ c.pc ≠ .upCb)
    (h : Owing (fun pc => pc = .send || pc = .upCb) calls) :
    Owing (fun pc => pc = .send || pc = .upCb) (Function.update calls i (some c')) := by
  refine h.update ?_
  intro d hd ho
  obtain rfl := Option.some.inj (hd.symm.trans hc)
  simp [hpc.1, hpc.2] at ho

theorem supplied_step {s t : Socket} {a : Action} (hq : Queues s) (hs : Supplied s)
    (h : Step s a t) : Supplied t := by
  cases h with
  | readBlock hc | writeBlock hc =>
    refine hs.frame (Nat.le_refl _) (fun ho => ho.update ?_) rfl rfl rfl
    intro c hc'
    rw [hc] at hc'
    cases hc'
  | alloc hc hpc | allocFail hc hpc | sample hc _ hpc | count hc _ hpc | copy hc _ hpc
  | downCn hc _ hpc =>
    exact hs.frame (Nat.le_refl _) (owing_update_of_pc hc (by simp [hpc])) rfl rfl rfl
  | @downCb i c hc hb hpc =>
    rcases Nat.eq_zero_or_pos s.cbSem.count with hz | hp
    · refine hs.frame ?_ (owing_update_of_pc hc ?_) rfl rfl rfl
      · rw [hz]
        exact Nat.zero_le _
      · rcases hpc with hpc | hpc <;> simp [hpc]
    · -- the unit is gone, and the call is on its way
      refine .call ⟨i, c.advance, ?_, ?_⟩
      · simp [downCb, setCall, Semaphore.down_of_pos hp, Call.downed]
      · rcases hpc with hpc | hpc <;> simp [Call.advance, Call.next, hpc]
  | send => exact .request (by simp)
  | upCb hc hb =>
    exact supplied_upCb (hq.setCall (hc ▸ free_of_unblocked hb) (free_of_unblocked rfl))
  | @upCn i c hc hb hpc =>
    have hq' := hq.setCall (hc ▸ free_of_unblocked hb) (free_of_unblocked (c := c.advance) rfl)
    refine hs.frame (Nat.le_refl _) (fun ho => ?_) rfl rfl rfl
    refine (owing_update_of_pc hc (by simp [hpc]) ho).wake ?_
    intro j d hj hd hod
    have hw := hq'.cn.up_waits hj
    rw [show (s.setCall i c.advance).calls j = some d from hd] at hw
    simp [hw.2] at hod
  | answer => exact .answer (by simp)
  | deliver | inject => exact .callback (Function.update_self ..) (by simp)
  | probe | need | fill => exact .callback (Function.update_self ..) (by simp)
  | finish => exact supplied_upCb ⟨hq.cn, hq.cb⟩

/-! ## Stuck states -/

/-- No call, no callback run and no message that is under way can make a step. -/
def Stuck (s : Socket) : Prop := ∀ a t, step s a = some t → a.isNew = true

/-- What a run of whatever steps keeps, for its calls to be able to go on. -/
structure Going (s : Socket) : Prop where
  queues : Queues s
  tight : Tight s
  able : ∀ j c, s.calls j = some c → c.Able
  supplied : Supplied s

theorem going_of_reach {s : Socket} (h : Reach step (fun _ _ => True) init s) : Going s := by
  refine h.invariant ⟨queues_init, ⟨fun _ => rfl, fun _ => rfl⟩, fun _ _ hc => (nomatch hc),
    .unit (by decide)⟩ ?_
  intro s a t hs _ hstep
  have h := step_cases hstep
  exact ⟨queues_step hs.queues h, tight_step hs.tight h,
    forall_calls_step hs.queues h hs.able fun _ _ ho hmove => hmove.able ho,
    supplied_step hs.queues hs.supplied h⟩

theorem Stuck.none {s : Socket} (hs : Stuck s) {a : Action} (ha : a.isNew = false) :
    step s a = none := by
  cases ht : step s a with
  | none => rfl
  | some t =>
    rw [hs a t ht] at ha
    cases ha

/-- A call that has not returned and is not blocked can make its next operation. -/
theorem not_stuck_of_call {s : Socket} {i : Nat} {c : Call} (hc : s.calls i = some c)
    (hable : c.Able) (hb : c.blocked = false) (hpc : c.pc ≠ .done) : ¬ Stuck s := by
  intro hs
  have halloc : step s (.kzalloc i true) = none := hs.none rfl
  have hcall : s.stepCall i = none := hs.none (a := .call i) rfl
  unfold Call.Able at hable
  unfold stepCall at hcall
  cases hp : c.pc with
  | kzalloc => simp [step, hc, hp] at halloc
  | sample =>
    cases hk : c.kind with
    | read address => simp [hc, hb, hp, hk] at hcall
    | write => simp [hp, hk] at hable
  | send =>
    simp only [hp] at hable
    obtain ⟨m, hm⟩ := Option.ne_none_iff_exists'.mp hable.2
    simp [hc, hb, hp, hm] at hcall
  | done => exact hpc hp
  | downCn | downCb | count | downReply | upCb | copy | upCn => simp [hc, hb, hp] at hcall

theorem calm_of_stuck {s : Socket} (hs : Stuck s) : Calm s := by
  refine ⟨?_, ?_, ?_⟩
  · have h : step s (.answer 0 ⟨[], by decide⟩) = none := hs.none rfl
    cases hw : s.wire with
    | nil => rfl
    | cons r rs => simp [step, hw] at h
  · have h : step s (.deliver 0) = none := hs.none rfl
    cases hi : s.inbox with
    | nil => rfl
    | cons r rs => simp [step, hi] at h
  · intro k b hb
    have h : s.cnCallback k = none := hs.none (a := .callback k) rfl
    cases hp : b.pc with
    | done => rfl
    | trylock | release | copy | up => simp [cnCallback, hb, hp] at h

/-- Where nothing can go on, nobody is left at `cb_sem`. -/
theorem Going.cbWaiters {s : Socket} (hg : Going s) (hs : Stuck s) : s.cbSem.waiters = [] := by
  have hcalm := calm_of_stuck hs
  cases hg.supplied with
  | unit h => exact hg.tight.cb h
  | call h =>
    obtain ⟨i, c, hc, ho⟩ := h
    refine absurd hs (not_stuck_of_call hc (hg.able i c hc) ?_ ?_)
    · have hable := hg.able i c hc
      simp only [Bool.or_eq_true, decide_eq_true_eq] at ho
      rcases ho with hpc | hpc <;> simp_all [Call.Able]
    · intro hpc
      simp [hpc] at ho
  | callback hb hpc => exact absurd (hcalm.quiet _ _ hb) hpc
  | request h => exact absurd hcalm.wire h
  | answer h => exact absurd hcalm.inbox h

/-- A call that has not returned waits for `cn_sem`. -/
theorem Going.waitsCn {s : Socket} (hg : Going s) (hs : Stuck s) {i : Nat} {c : Call}
    (hc : s.calls i = some c) (hpc : c.pc ≠ .done) : WaitsCn (some c) := by
  have hable := hg.able i c hc
  have hb : c.blocked = true := by
    by_contra hb
    exact not_stuck_of_call hc hable (by simpa using hb) hpc hs
  have hcb : ¬ WaitsCb (some c) := by
    intro hw
    have hmem := (hg.queues.cb.mem i).mpr (hc ▸ hw)
    rw [hg.cbWaiters hs] at hmem
    cases hmem
  unfold Call.Able at hable
  cases hp : c.pc <;> simp_all [WaitsCn, WaitsCb]

theorem idle_of_stuck {s : Socket} (h : Reach step (fun _ _ => True) init s) (hs : Stuck s) :
    Idle s := by
  have hg := going_of_reach h
  have hpos : 0 < s.cnSem.count := by
    refine (history_of_reach h).available.cn.resolve_right ?_
    rintro ⟨i, c, hc, ho⟩
    have hw := hg.waitsCn hs hc (by rintro hpc; simp [hpc, Pc.owesCn] at ho)
    simp [hw.2, Pc.owesCn] at ho
  refine idle_of_rest h ⟨?_, calm_of_stuck hs⟩
  intro i c hc
  by_contra hpc
  have hmem := (hg.queues.cn.mem i).mpr (hc ▸ hg.waitsCn hs hc hpc)
  rw [hg.tight.cn hpos] at hmem
  cases hmem

theorem stuck_of_rest {s : Socket} (hr : Rest s) : Stuck s := by
  intro a t ht
  cases step_cases ht with
  | readBlock | writeBlock | inject => rfl
  | alloc hc hpc | allocFail hc hpc | sample hc _ hpc | downCn hc _ hpc | send hc _ hpc
  | count hc _ hpc | upCb hc _ hpc | copy hc _ hpc | upCn hc _ hpc =>
    rw [hr.calls _ _ hc] at hpc
    cases hpc
  | downCb hc _ hpc =>
    rw [hr.calls _ _ hc] at hpc
    rcases hpc with hpc | hpc <;> cases hpc
  | answer hk =>
    rw [hr.calm.wire] at hk
    cases hk
  | deliver hk =>
    rw [hr.calm.inbox] at hk
    cases hk
  | probe hb hpc | need hb hpc | fill hb hpc =>
    rw [hr.calm.quiet _ _ hb] at hpc
    cases hpc
  | finish hb hpc =>
    rw [hr.calm.quiet _ _ hb] at hpc
    rcases hpc with hpc | hpc <;> cases hpc

/-- There is no deadlock, when sends succeed and the peer is able to answer: a state from which no
call, callback run, answer or delivery can go on is one in which every call has returned, no message
is left and both semaphores are free. -/
theorem stuck_iff_idle {s : Socket} (h : Reach step (fun _ _ => True) init s) :
    Stuck s ↔ Idle s :=
  ⟨idle_of_stuck h, fun hi => stuck_of_rest hi.rest⟩

/-- A read without a message and a message without a read: each takes the unit of the other. -/
def crossedRead : List Action :=
  [.readBlock 0 5, .kzalloc 0 false, .inject emptyMsg, .call 0, .call 0, .callback 0, .call 0,
    .callback 0, .callback 0, .call 0, .call 0]

theorem crossedRead_idle :
    ∃ s, crossedRead.foldlM step init = some s ∧ s.cnSem.count = 2 ∧ s.cbSem.count = 2 ∧
      (Stuck s ↔ Idle s) ∧ Stuck s := by
  have hrun : ∃ s, crossedRead.foldlM step init = some s ∧ s.cnSem.count = 2 ∧
      s.cbSem.count = 2 ∧ Rest s := by
    refine ⟨_, rfl, rfl, rfl, ?_, rfl, rfl, ?_⟩
    · intro i c hc
      match i with
      | 0 =>
        cases hc
        rfl
      | i + 1 => cases hc
    · intro k b hb
      match k with
      | 0 =>
        cases hb
        rfl
      | k + 1 => cases hb
  obtain ⟨s, hs, hcn, hcb, hrest⟩ := hrun
  exact ⟨s, hs, hcn, hcb, stuck_iff_idle (.of_foldlM hs), stuck_of_rest hrest⟩

end Socket

end Sjfs
