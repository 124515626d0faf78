import Sjfs.PlanA.Live
import Sjfs.PlanA.Helper

/-!
# Plan a: the kernel module with its helper

The channel of `Sjfs.PlanA.Channel`, with the program of `sjfs_helper.c` in the place of the peer.
The helper gets any netlink messages whatever, and what it sends goes to `cn_sjfs_callback`.

The channel lets the peer answer each READ. The helper answers none, as its loop does not get to
`do_work` (`mainLoop_sends_nothing`). The first read that takes `cn_sem` waits for its reply and
does not give the semaphore back.

Results:
1. `channel_of_reach`: the channel runs as it does without a peer.
2. `unserved_of_reach`: no read returns, and no call gets `cn_sem` after a read.
3. `standstill_of_reach`: where no call can go on, all calls have returned and none was a read, or
   one read holds `cn_sem` and the calls that have not returned are queued behind it.
-/

namespace Sjfs

open Lib

namespace PlanA

/-! ## The system -/

/-- `result` is what `main` of the helper returned, if it has. `passed` is the number of the
helper's messages that have gone to the kernel. -/
structure System where
  channel : Channel
  helper : Machine Helper
  result : Option Int
  passed : Nat

/-- Both sides before their first step. -/
def System.init (mem : Memory) (files : List UInt8 → List UInt8) : System :=
  ⟨.init, started mem files, none, 0⟩

inductive SystemAction
  /-- A step of the kernel module. -/
  | kernel (a : Action)
  /-- `poll` and `recv` of the helper come back with `event`. -/
  | helper (event : Event)
  /-- The next message of the helper goes to the kernel. The caller is history. -/
  | pass (caller : Nat)

def Action.isAnswer : Action → Bool
  | .answer _ _ => true
  | _ => false

/-- A netlink message as `cn_sjfs_callback` sees it. -/
def messageOf (bytes : List UInt8) : Response where
  count := sizeT 0 (asLongLong (loadLE (fun i => bytes.getD i 0) dataOffset sizeofResponse))
  data := fun i => bytes.getD (dataOffset + sizeofResponse + i) 0

namespace System

/-- One step of the system. Answers come from the helper only. -/
def step (e : Env) (s : System) : SystemAction → Option System
  | .kernel a =>
    if a.isAnswer then none
    else (s.channel.step a).map fun channel => { s with channel := channel }
  | .helper event =>
    if s.result.isSome then none
    else match (mainLoop e [event]).run s.helper with
      | .ok (result, helper) => some { s with helper := helper, result := result }
      | .error _ => none
  | .pass caller => match s.helper.world.sent[s.passed]? with
    | some bytes => some { s with
        channel := { s.channel with inbox := s.channel.inbox ++ [⟨caller, messageOf bytes⟩] }
        passed := s.passed + 1 }
    | none => none

end System

/-! ## The channel without a peer -/

/-- A read behind its first `down(&cb_sem)` and not behind its second one. -/
def Call.asked (c : Call) : Bool :=
  c.kind.isRead && match c.pc with
    | .kzalloc | .sample | .send | .count | .downReply => true
    | _ => false

/-- Where a read can be as long as nobody answers, when `units` of `cb_sem` are left. -/
def Call.Asks (c : Call) (units : Nat) : Prop :=
  c.pc = .downCn ∨ c.pc = .downCb ∨ c.asked = true ∧ units = 0

theorem Call.Asks.mono {c : Call} {m n : Nat} (h : c.Asks m) (hle : n ≤ m) : c.Asks n := by
  refine h.imp_right (Or.imp_right ?_)
  rintro ⟨hasked, rfl⟩
  exact ⟨hasked, Nat.le_zero.mp hle⟩

theorem Call.Asks.not_done {c : Call} {units : Nat} (h : c.Asks units) : c.pc ≠ .done := by
  rintro hpc
  simp [Call.Asks, Call.asked, hpc] at h

namespace Channel

/-- No message reaches the kernel, and no read is past its second `down(&cb_sem)`. -/
structure Unanswered (s : Channel) : Prop where
  inbox : s.inbox = []
  callbacks : ∀ k, s.callbacks k = none
  units : s.cbSem.count ≤ 1
  reads : ∀ i c, s.calls i = some c → c.kind.isRead = true → c.Asks s.cbSem.count

theorem unanswered_init : Unanswered init :=
  ⟨rfl, fun _ => rfl, Nat.le_refl 1, fun _ _ h => by cases h⟩

section Steps

variable {s t : Channel} {owner : Option Nat} {i : Nat} {c c' : Call}

/-- A step of call `i` in which `cb_sem` gets no unit. -/
theorem Unanswered.update (hs : Unanswered s) (hinbox : t.inbox = s.inbox)
    (hcallbacks : t.callbacks = s.callbacks) (hunits : t.cbSem.count ≤ s.cbSem.count)
    (hcalls : t.calls = Function.update s.calls i (some c'))
    (hc' : c'.kind.isRead = true → c'.Asks t.cbSem.count) : Unanswered t := by
  refine ⟨hinbox.trans hs.inbox, fun k => hcallbacks ▸ hs.callbacks k,
    Nat.le_trans hunits hs.units, ?_⟩
  intro j d hd hk
  rw [hcalls] at hd
  by_cases hj : j = i
  · subst hj
    rw [Function.update_self] at hd
    cases hd
    exact hc' hk
  · rw [Function.update_of_ne hj] at hd
    exact (hs.reads j d hd hk).mono hunits

theorem OwnStep.asks {seq : UInt32} {buffer : Option ReadBuffer} {a : Action} {units : Nat}
    (ho : OwnStep i seq buffer c a c') (h : c.kind.isRead = true → c.Asks units)
    (hk : c'.kind.isRead = true) : c'.Asks units := by
  cases ho <;> simp_all [Call.Asks, Call.asked, Call.advance, Call.next]

theorem asks_downCn {units : Nat} (hpc : c.pc = .downCn) (took : Bool)
    (hk : (c.downed took).kind.isRead = true) : (c.downed took).Asks units := by
  cases took <;> simp_all [Call.downed, Call.Asks, Call.advance, Call.next]

/-- The first `down(&cb_sem)` may take the unit. The second one finds none. -/
theorem asks_downCb (hs : Unanswered s) (hfits : c.Fits) (hc : s.calls i = some c)
    (hpc : c.pc = .downCb ∨ c.pc = .downReply) :
    (c.downed (s.cbSem.down i).2).Asks (s.cbSem.down i).1.count := by
  have hk := hfits.reader (hpc.imp_right .inl)
  have hasks := hs.reads i c hc hk
  rcases Nat.eq_zero_or_pos s.cbSem.count with hz | hp
  · rw [Semaphore.down_of_zero hz]
    rcases hpc with hpc | hpc <;> simp [Call.downed, Call.Asks, Call.asked, hpc, hk, hz]
  · rw [Semaphore.down_of_pos hp]
    have hunits := hs.units
    rcases hpc with hpc | hpc
    · refine .inr (.inr ⟨by simp [Call.downed, Call.asked, Call.advance, Call.next, hpc, hk], ?_⟩)
      show s.cbSem.count - 1 = 0
      omega
    · simp only [Call.Asks, hpc, reduceCtorEq, false_or] at hasks
      omega

theorem unanswered_upCn (hs : Unanswered s) (hq : s.cnSem.Queue fun j => WaitsCn (s.calls j)) :
    Unanswered s.upCn := by
  refine ⟨hs.inbox, hs.callbacks, hs.units, ?_⟩
  intro j d hd hk
  rw [upCn_calls] at hd
  split at hd
  · next hj =>
    -- the call that is released stood at `down(&cn_sem)`
    have hw := hq.up_waits hj
    obtain ⟨d', hd', rfl⟩ := Option.map_eq_some_iff.mp hd
    rw [hd'] at hw
    have hk' : d'.kind.isRead = true := hk
    simp [Call.Asks, Call.advance, Call.next, hw.2, hk']
  · exact hs.reads j d hd hk

end Steps

theorem unanswered_step {s t : Channel} {a : Action} {owner : Option Nat} (hsteady : Steady s owner)
    (hs : Unanswered s) (ha : a.isAnswer = false) (h : Step s a t) : Unanswered t := by
  cases h with
  | enter => exact hs.update rfl rfl (Nat.le_refl _) rfl fun _ => .inl rfl
  | own hc ho => exact hs.update rfl rfl (Nat.le_refl _) rfl (ho.asks (hs.reads _ _ hc))
  | @downCn i c hc hb hpc =>
    exact hs.update rfl rfl (Nat.le_refl _) rfl fun hk => asks_downCn hpc _ hk
  | @downCb i c hc hb hpc =>
    have hunits : (s.cbSem.down i).1.count ≤ s.cbSem.count := by
      rcases Nat.eq_zero_or_pos s.cbSem.count with hz | hp
      · rw [Semaphore.down_of_zero hz]
      · rw [Semaphore.down_of_pos hp]
        exact Nat.sub_le _ _
    exact hs.update rfl rfl hunits rfl fun _ => asks_downCb hs (hsteady.fits _ _ hc) hc hpc
  | @send _ c _ hc hpc | @count _ c hc hpc =>
    refine hs.update rfl rfl (Nat.le_refl _) rfl ?_
    show c.kind.isRead = true → c.advance.Asks s.cbSem.count
    intro hk
    have hasks := hs.reads _ _ hc hk
    simp_all [Call.Asks, Call.asked, Call.advance, Call.next]
  | upCb hc hpc =>
    have hk := (hsteady.fits _ _ hc).reader (by simp [hpc])
    have hasks := hs.reads _ _ hc hk
    simp [Call.Asks, Call.asked, hpc] at hasks
  | @upCn i c hc hb hpc =>
    refine unanswered_upCn (hs.update (i := i) rfl rfl (Nat.le_refl _) rfl ?_)
      (hsteady.locked.queueCn hc hb)
    intro hk
    have hasks := hs.reads _ _ hc hk
    simp [Call.Asks, Call.asked, hpc] at hasks
  | answer => cases ha
  | deliver hk => simp [hs.inbox] at hk
  | probe hb | need hb | callbackAlloc hb | callbackAllocFail hb | memcpy hb | finish hb =>
    rw [hs.callbacks] at hb
    cases hb

/-- Without answers only the calls make steps. -/
theorem Unanswered.isEnter {s t : Channel} {a : Action} (hs : Unanswered s)
    (ha : a.isAnswer = false) (hcall : a.inCall = false) (h : step s a = some t) :
    a.isEnter = true := by
  cases step_cases h with
  | enter => rfl
  | own _ ho => cases ho <;> cases hcall
  | downCn | downCb | send | count | upCb | upCn => cases hcall
  | answer => cases ha
  | deliver hk => simp [hs.inbox] at hk
  | probe hb | need hb | callbackAlloc hb | callbackAllocFail hb | memcpy hb | finish hb =>
    rw [hs.callbacks] at hb
    cases hb

/-- If the unit of `cb_sem` is gone, a read has taken it that is behind its first `down`. -/
def Taken (s : Channel) : Prop :=
  s.cbSem.count = 0 → Semaphore.Has (fun c : Call => c.asked = true) s.calls

theorem OwnStep.asked {i : Nat} {seq : UInt32} {buffer : Option ReadBuffer} {c c' : Call}
    {a : Action} (ho : OwnStep i seq buffer c a c') (h : c.asked = true) : c'.asked = true := by
  cases ho <;> simp_all [Call.asked, Call.advance, Call.next]

theorem taken_step {s t : Channel} {a : Action} {owner : Option Nat} (hsteady : Steady s owner)
    (hs : Unanswered s) (htaken : Taken s) (ha : a.isAnswer = false) (h : Step s a t) : Taken t := by
  have hset : ∀ {i : Nat} {c d : Call}, s.calls i = some c →
      (c.asked = true → d.asked = true) → s.cbSem.count = 0 →
      Semaphore.Has (fun c : Call => c.asked = true) (Function.update s.calls i (some d)) := by
    intro i c d hc himp hz
    refine (htaken hz).update ?_
    intro e he hasked
    obtain rfl := Option.some.inj (he.symm.trans hc)
    exact himp hasked
  cases h with
  | enter hc =>
    intro hz
    refine (htaken hz).update ?_
    intro c hc'
    rw [hc] at hc'
    cases hc'
  | own hc ho => exact hset hc ho.asked
  | downCn hc hb hpc => exact hset hc (by simp [Call.asked, hpc])
  | @downCb i c hc hb hpc =>
    rcases Nat.eq_zero_or_pos s.cbSem.count with hz | hp
    · refine fun _ => hset hc ?_ hz
      rw [Semaphore.down_of_zero hz]
      exact id
    · -- this call takes the unit, and it is its first `down`
      have hk := (hsteady.fits _ _ hc).reader (hpc.imp_right .inl)
      have hfirst : c.pc = .downCb := by
        refine hpc.resolve_right fun hpc => ?_
        have hasks := hs.reads _ _ hc hk
        simp only [Call.Asks, hpc, reduceCtorEq, false_or] at hasks
        omega
      refine fun _ => ⟨i, c.advance, ?_, ?_⟩
      · simp [Channel.downCb, setCall, Semaphore.down_of_pos hp, Call.downed]
      · simp [Call.asked, Call.advance, Call.next, hfirst, hk]
  | send hc hpc | count hc hpc =>
    refine hset hc ?_
    intro hasked
    simp_all [Call.asked, Call.advance, Call.next]
  | upCb hc hpc =>
    have hk := (hsteady.fits _ _ hc).reader (by simp [hpc])
    have hasks := hs.reads _ _ hc hk
    simp [Call.Asks, Call.asked, hpc] at hasks
  | @upCn i c hc hb hpc =>
    intro hz
    refine (hset hc (d := c.advance) (by simp [Call.asked, hpc]) hz).wake ?_
    intro j d hj hd hasked
    have hw := (hsteady.locked.queueCn hc hb).up_waits hj
    simp only [setCall, hd] at hw
    simp [Call.asked, hw.2] at hasked
  | answer => cases ha
  | deliver hk => simp [hs.inbox] at hk
  | probe hb | need hb | callbackAlloc hb | callbackAllocFail hb | memcpy hb | finish hb =>
    rw [hs.callbacks] at hb
    cases hb

/-- What holds of the channel when nobody answers. -/
structure Alone (s : Channel) (owner : Option Nat) : Prop where
  steady : Steady s owner
  ordered : Ordered s owner
  unanswered : Unanswered s
  tight : s.cbSem.Tight
  taken : Taken s

theorem alone_of_reach {s : Channel} (h : Reach step (fun _ a => a.isAnswer = false) init s) :
    ∃ owner, Alone s owner := by
  refine h.invariant (I := fun s => ∃ owner, Alone s owner)
    ⟨none, steady_init, ordered_init, unanswered_init, fun _ => rfl, fun hz => by cases hz⟩ ?_
  rintro s a t ⟨owner, hs⟩ ha hstep
  have h := step_cases hstep
  exact ⟨_, steady_step hs.steady h, ordered_step hs.steady.locked hs.ordered h,
    unanswered_step hs.steady hs.unanswered ha h, tight_step hs.tight h,
    taken_step hs.steady hs.unanswered hs.taken ha h⟩

/-- No read has returned, and no call took `cn_sem` after a read. -/
structure Unserved (s : Channel) : Prop where
  reads : ∀ i c, s.calls i = some c → c.kind.isRead = true → c.pc ≠ .done
  last : ∀ pre i post c, s.order = pre ++ i :: post → s.calls i = some c →
    c.kind.isRead = true → post = []

theorem Alone.not_done {s : Channel} {owner : Option Nat} (hs : Alone s owner) {i : Nat} {c : Call}
    (hc : s.calls i = some c) (hk : c.kind.isRead = true) : c.pc ≠ .done :=
  (hs.unanswered.reads i c hc hk).not_done

/-- A read that took `cn_sem` has it still. -/
theorem Alone.owner_of_read {s : Channel} {owner : Option Nat} (hs : Alone s owner) {i : Nat}
    {c : Call} (hc : s.calls i = some c) (hk : c.kind.isRead = true) (hi : i ∈ s.order) :
    owner = some i := by
  have htook := (hs.ordered.took i).mp hi
  rw [hc] at htook
  refine hs.steady.locked.owner_eq hc ?_
  have hdone := hs.not_done hc hk
  cases hpc : c.pc <;> simp_all [Took, Pc.holds]

theorem Alone.unserved {s : Channel} {owner : Option Nat} (hs : Alone s owner) : Unserved s := by
  refine ⟨fun i c hc hk => hs.not_done hc hk, ?_⟩
  intro pre i post c horder hc hk
  obtain rfl := hs.owner_of_read hc hk (by simp [horder])
  obtain ⟨pre', _, horder', _⟩ := hs.ordered.progress
  by_contra hpost
  obtain ⟨init, j, rfl⟩ := List.eq_nil_or_concat post |>.resolve_left hpost
  have hnodup := hs.ordered.stamped.nodup
  rw [horder] at horder' hnodup
  -- the order ends in `j`, and in the owner
  have hend : pre ++ i :: init.concat j = (pre ++ i :: init) ++ [j] := by simp
  rw [hend] at horder'
  obtain ⟨rfl⟩ : j = i := by simpa using (List.append_inj' horder' rfl).2
  simp [List.nodup_append] at hnodup

/-- Read `r` has taken `cn_sem` and waits in its second `down(&cb_sem)`; the other calls are over,
or wait for `cn_sem`. -/
structure HeldUp (s : Channel) (r : Nat) : Prop where
  reader : ∃ c, s.calls r = some c ∧ c.kind.isRead = true ∧ c.pc = .downReply ∧ c.blocked = true
  others : ∀ i c, s.calls i = some c → i ≠ r → c.pc = .done ∨ WaitsCn (some c)

/-- A call that is queued for `cb_sem` is a read that waits for its reply. -/
theorem Alone.downReply {s : Channel} {owner : Option Nat} (hs : Alone s owner) {i : Nat} {c : Call}
    (hc : s.calls i = some c) (hw : WaitsCb (some c)) :
    owner = some i ∧ c.kind.isRead = true ∧ c.pc = .downReply := by
  have howner := (hs.steady.locked.holds i).mp (hc ▸ (holdsCn_of_waitsCb hw).1)
  have hmem : i ∈ s.cbSem.waiters := (hs.steady.locked.cb.mem i).mpr (hc ▸ hw)
  have hz : s.cbSem.count = 0 := by
    by_contra hne
    simp [hs.tight (Nat.pos_of_ne_zero hne)] at hmem
  -- the read that took the unit holds `cn_sem`, so it is this one
  obtain ⟨j, d, hd, hasked⟩ := hs.taken hz
  have hholds : d.pc.holds = true := by
    cases hpc : d.pc <;> simp_all [Call.asked, Pc.holds]
  obtain rfl : i = j := Option.some.inj (howner.symm.trans (hs.steady.locked.owner_eq hd hholds))
  obtain rfl := Option.some.inj (hc.symm.trans hd)
  simp only [Call.asked, Bool.and_eq_true] at hasked
  refine ⟨howner, hasked.1, hw.2.resolve_left fun hpc => ?_⟩
  simp [hpc] at hasked

theorem Alone.standstill {s : Channel} {owner : Option Nat} (hs : Alone s owner)
    (hh : ∀ a t, step s a = some t → a.inCall = false) :
    (∀ i c, s.calls i = some c → c.pc = .done ∧ c.kind.isRead = false) ∨ ∃ r, HeldUp s r := by
  have hwaits : ∀ i c, s.calls i = some c → c.pc ≠ .done → WaitsCn (some c) ∨ WaitsCb (some c) :=
    fun i c hc hpc => hs.steady.waits hh hc hpc
  cases howner : owner with
  | none =>
    refine .inl fun i c hc => ?_
    have hdone : c.pc = .done := by
      by_contra hpc
      rcases hwaits i c hc hpc with hw | hw
      · have hmem := (hs.steady.locked.cn.mem i).mpr (hc ▸ hw)
        rw [(hs.steady.locked.mutex.free howner).2] at hmem
        cases hmem
      · rw [(hs.downReply hc hw).1] at howner
        cases howner
    refine ⟨hdone, ?_⟩
    by_contra hk
    exact hs.not_done hc (by simpa using hk) hdone
  | some r =>
    have hholds := (hs.steady.locked.holds r).mpr howner
    cases hc : s.calls r with
    | none => simp [hc, HoldsCn] at hholds
    | some c =>
      have hpc : c.pc.holds = true := by rwa [hc] at hholds
      have hw : WaitsCb (some c) := by
        refine (hwaits r c hc ?_).resolve_left ?_
        · rintro hdone
          simp [hdone, Pc.holds] at hpc
        · rintro ⟨_, hcn⟩
          simp [hcn, Pc.holds] at hpc
      obtain ⟨_, hk, hreply⟩ := hs.downReply hc hw
      refine .inr ⟨r, ⟨c, hc, hk, hreply, hw.1⟩, ?_⟩
      intro i d hd hi
      by_cases hdone : d.pc = .done
      · exact .inl hdone
      · refine .inr ((hwaits i d hd hdone).resolve_right fun hwd => hi ?_)
        exact Option.some.inj ((hs.downReply hd hwd).1.symm.trans howner)

end Channel

/-! ## The system as a whole -/

namespace System

variable {e : Env} {mem : Memory} {files : List UInt8 → List UInt8} {s : System}

/-- The helper has sent nothing, and the channel is where it can get without a peer. -/
theorem channel_of_reach (h : Reach (step e) (fun _ _ => True) (init mem files) s) :
    s.helper.world.sent = [] ∧
      Reach Channel.step (fun _ a => a.isAnswer = false) .init s.channel := by
  refine h.invariant (I := fun s => s.helper.world.sent = [] ∧
    Reach Channel.step (fun _ a => a.isAnswer = false) .init s.channel) ⟨rfl, .refl⟩ ?_
  rintro s a t ⟨hsent, hreach⟩ _ hstep
  cases a with
  | kernel a =>
    simp only [step] at hstep
    split at hstep
    · cases hstep
    · next ha =>
      obtain ⟨channel, hchannel, rfl⟩ := Option.map_eq_some_iff.mp hstep
      exact ⟨hsent, hreach.tail (by simpa using ha) hchannel⟩
  | helper event =>
    obtain ⟨result, helper, hrun, hsame, _⟩ := mainLoop_sends_nothing e [event] s.helper
    simp only [step, hrun] at hstep
    split at hstep
    · cases hstep
    · cases hstep
      exact ⟨hsame.trans hsent, hreach⟩
  | pass caller => simp [step, hsent] at hstep

theorem alone_of_reach (h : Reach (step e) (fun _ _ => True) (init mem files) s) :
    ∃ owner, s.channel.Alone owner :=
  Channel.alone_of_reach (channel_of_reach h).2

/-- With the helper as it is no read returns, whatever it is sent, and no call gets `cn_sem` after a
read. -/
theorem unserved_of_reach (h : Reach (step e) (fun _ _ => True) (init mem files) s) :
    s.channel.Unserved := by
  obtain ⟨owner, hs⟩ := alone_of_reach h
  exact hs.unserved

/-- No call and no callback of the kernel module can go on. -/
def Standstill (e : Env) (s : System) : Prop :=
  ∀ a t, step e s (.kernel a) = some t → a.isEnter = true

/-- Where the kernel module can not go on, every call has returned and none of them was a read, or
one read keeps `cn_sem` for ever, and the calls that have not returned wait for it. -/
theorem standstill_of_reach (h : Reach (step e) (fun _ _ => True) (init mem files) s) :
    Standstill e s ↔
      (∀ i c, s.channel.calls i = some c → c.pc = .done ∧ c.kind.isRead = false) ∨
        ∃ r, s.channel.HeldUp r := by
  obtain ⟨owner, hs⟩ := alone_of_reach h
  have hkernel : ∀ {a : Action} {channel : Channel}, a.isAnswer = false →
      s.channel.step a = some channel →
      step e s (.kernel a) = some { s with channel := channel } := by
    intro a channel ha hstep
    simp [step, ha, hstep]
  constructor
  · intro hstill
    refine hs.standstill fun a t ht => ?_
    by_contra hcall
    have hanswer : a.isAnswer = false := by
      cases a <;> simp_all [Action.inCall, Action.isAnswer]
    have henter := hstill a _ (hkernel hanswer ht)
    cases a <;> simp_all [Action.inCall, Action.isEnter]
  · intro hqueued a t ht
    have hcalls : ∀ i c, s.channel.calls i = some c →
        c.pc = .done ∨ Channel.WaitsCn (some c) ∨ Channel.WaitsCb (some c) := by
      intro i c hc
      rcases hqueued with hdone | ⟨r, ⟨d, hd, _, hpc, hb⟩, hothers⟩
      · exact .inl (hdone i c hc).1
      · by_cases hi : i = r
        · subst hi
          obtain rfl := Option.some.inj (hd.symm.trans hc)
          exact .inr (.inr ⟨hb, .inr hpc⟩)
        · exact (hothers i c hc hi).imp_right .inl
    simp only [step] at ht
    split at ht
    · cases ht
    · next ha =>
      obtain ⟨channel, hchannel, rfl⟩ := Option.map_eq_some_iff.mp ht
      exact hs.unanswered.isEnter (by simpa using ha)
        (Channel.inCall_of_queued hcalls hchannel) hchannel

/-- A helper with empty memory that can open no file. -/
def bareEnv : Env := ⟨fun _ => false, fun _ => 0, fun _ => 0, 0, 0⟩

def bareInit : System := init ⟨0, fun _ => false, fun _ _ => 0, [], []⟩ fun _ => []

/-- A read, a write behind it, and a message to the helper. -/
def lonelyRead : List SystemAction :=
  let io : Io := ⟨1, 0, 1, fun _ => 0⟩
  [.kernel (.enter 0 .read io), .kernel (.call 0), .kernel (.call 0), .kernel (.kzalloc 0 true),
    .kernel (.call 0), .kernel (.call 0), .kernel (.call 0), .helper (.message []),
    .kernel (.enter 1 (.write fun _ => 0) io), .kernel (.call 1), .kernel (.call 0)]

theorem unserved_lonelyRead :
    ∃ s, lonelyRead.foldlM (step bareEnv) bareInit = some s ∧ s.channel.order = [0] ∧
      s.channel.Unserved := by
  have hrun : ∃ s, lonelyRead.foldlM (step bareEnv) bareInit = some s ∧ s.channel.order = [0] :=
    ⟨_, rfl, rfl⟩
  obtain ⟨s, hs, horder⟩ := hrun
  exact ⟨s, hs, horder, unserved_of_reach (.of_foldlM hs)⟩

theorem standstill_lonelyRead :
    ∃ s, lonelyRead.foldlM (step bareEnv) bareInit = some s ∧ s.channel.HeldUp 0 ∧
      Standstill bareEnv s := by
  have hrun : ∃ s c d, lonelyRead.foldlM (step bareEnv) bareInit = some s ∧
      s.channel.calls 0 = some c ∧ s.channel.calls 1 = some d ∧
      (∀ i, s.channel.calls (i + 2) = none) ∧ c.kind.isRead = true ∧ c.pc = .downReply ∧
      c.blocked = true ∧ Channel.WaitsCn (some d) :=
    ⟨_, _, _, rfl, rfl, rfl, fun _ => rfl, rfl, rfl, rfl, rfl, rfl⟩
  obtain ⟨s, c, d, hs, hc, hd, hnone, hk, hpc, hb, hw⟩ := hrun
  have hheld : s.channel.HeldUp 0 := by
    refine ⟨⟨c, hc, hk, hpc, hb⟩, ?_⟩
    intro i c' hc' hi
    match i with
    | 0 => exact absurd rfl hi
    | 1 =>
      obtain rfl := Option.some.inj (hd.symm.trans hc')
      exact .inr hw
    | i + 2 =>
      rw [hnone i] at hc'
      cases hc'
  exact ⟨s, hs, hheld, (standstill_of_reach (.of_foldlM hs)).mpr (.inr ⟨0, hheld⟩)⟩

end System

end PlanA

end Sjfs
