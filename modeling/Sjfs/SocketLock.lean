import Sjfs.Socket
import Sjfs.Lib.Transition

/-!
# Locking at the socket level

The steps of the machine as a relation (`Step`, `step_cases`), and the invariants that hold without
any assumption on the peer:

1. `queues_step`: the wait queues hold exactly the blocked calls, in every run.
2. `locked_step`: when no allocation fails, `cn_sem` is a lock: its count is 0 or 1, and at most one
   call is between taking and releasing it.
3. `intact_iff`: the pattern of `kzalloc` results decides whether that is so. `sjfs_read_block`
   takes `cn_sem` inside `if (m)` and releases it outside, so one failure is enough
   (`failed_alloc_breaks_lock`).
-/

namespace Sjfs

open Lib

/-- The operations of `sjfs_read_block` behind its send. -/
def Pc.afterSend : Pc → Bool
  | .count | .downReply | .upCb | .copy | .upCn | .done => true
  | _ => false

/-- What the record of a call looks like when no allocation failed: a read that is past its
`kzalloc` has a message, and it has sent it exactly when it is past the send. -/
def Call.Wf (c : Call) : Prop :=
  match c.kind with
  | .read _ => (c.pc = .kzalloc ∨ c.m ≠ none) ∧ (c.sentAt ≠ none ↔ c.pc.afterSend = true)
  | .write => (c.pc = .downCn ∨ c.pc = .upCn ∨ c.pc = .done) ∧ c.sentAt = none

namespace Socket

/-! ## The steps, one by one -/

/-- The steps of the machine as a relation: one case for each operation, with its guard. -/
inductive Step (s : Socket) : Action → Socket → Prop
  | readBlock {i : Nat} {address : UInt32} : s.calls i = none →
      Step s (.readBlock i address) (s.setCall i ⟨.read address, .kzalloc, false, none, none, none⟩)
  | writeBlock {i : Nat} : s.calls i = none →
      Step s (.writeBlock i) (s.setCall i ⟨.write, .downCn, false, none, none, none⟩)
  | alloc {i : Nat} {c : Call} : s.calls i = some c → c.pc = .kzalloc →
      Step s (.kzalloc i true) (s.setCall i { c.advance with m := some ⟨0, 0, []⟩ })
  | allocFail {i : Nat} {c : Call} : s.calls i = some c → c.pc = .kzalloc →
      Step s (.kzalloc i false) (s.setCall i { c with pc := .count })
  | sample {i : Nat} {c : Call} {address : UInt32} : s.calls i = some c → c.blocked = false →
      c.pc = .sample → c.kind = .read address →
      Step s (.call i) (s.setCall i { c.advance with
        m := some ⟨s.cnCounter, (readPayload address).1, (readPayload address).2⟩ })
  | downCn {i : Nat} {c : Call} : s.calls i = some c → c.blocked = false → c.pc = .downCn →
      Step s (.call i) (s.downCn i c)
  | downCb {i : Nat} {c : Call} : s.calls i = some c → c.blocked = false →
      c.pc = .downCb ∨ c.pc = .downReply → Step s (.call i) (s.downCb i c)
  | send {i : Nat} {c : Call} {m : CnMsg} : s.calls i = some c → c.blocked = false →
      c.pc = .send → c.m = some m →
      Step s (.call i) { s.setCall i { c.advance with sentAt := some s.delivered } with
        wire := s.wire ++ [⟨i, m⟩], sent := s.sent ++ [⟨i, m⟩] }
  | count {i : Nat} {c : Call} : s.calls i = some c → c.blocked = false → c.pc = .count →
      Step s (.call i) { s.setCall i c.advance with cnCounter := s.cnCounter + 1 }
  | upCb {i : Nat} {c : Call} : s.calls i = some c → c.blocked = false → c.pc = .upCb →
      Step s (.call i) (s.setCall i c.advance).upCb
  | copy {i : Nat} {c : Call} : s.calls i = some c → c.blocked = false → c.pc = .copy →
      Step s (.call i) (s.setCall i { c.advance with block := some s.readBlockBuffer })
  | upCn {i : Nat} {c : Call} : s.calls i = some c → c.blocked = false → c.pc = .upCn →
      Step s (.call i) (s.setCall i c.advance).upCn
  | answer {k : Nat} {msg : Msg} {r : Request} : s.wire[k]? = some r →
      Step s (.answer k msg) { s with
        wire := s.wire.eraseIdx k
        inbox := s.inbox ++ [⟨r.caller, msg⟩]
        answer := Function.update s.answer r.caller (some msg) }
  | deliver {k : Nat} {r : Reply} : s.inbox[k]? = some r →
      Step s (.deliver k) ({ s with inbox := s.inbox.eraseIdx k }.start r.msg)
  | inject {msg : Msg} : Step s (.inject msg) (s.start msg)
  | probe {k : Nat} {b : Callback} : s.callbacks k = some b → b.pc = .trylock →
      0 < s.cbSem.count → Step s (.callback k)
        { s.setCallback k { b with pc := .release } with
          cbSem := { s.cbSem with count := s.cbSem.count - 1 } }
  | need {k : Nat} {b : Callback} : s.callbacks k = some b → b.pc = .trylock →
      s.cbSem.count = 0 → Step s (.callback k) (s.setCallback k { b with pc := .copy })
  | fill {k : Nat} {b : Callback} : s.callbacks k = some b → b.pc = .copy →
      Step s (.callback k) { s.setCallback k { b with pc := .up } with
        readBlockBuffer := fill s.readBlockBuffer b.msg }
  | finish {k : Nat} {b : Callback} : s.callbacks k = some b → b.pc = .release ∨ b.pc = .up →
      Step s (.callback k) (s.setCallback k { b with pc := .done }).upCb

theorem stepCall_cases {s t : Socket} {i : Nat} (h : s.stepCall i = some t) :
    Step s (.call i) t := by
  unfold stepCall at h
  split at h
  · cases h
  · next c hc =>
    split at h
    · cases h
    · next hb =>
      have hb' : c.blocked = false := by simpa using hb
      split at h <;> cases h
      · next hpc hk => exact .sample hc hb' hpc hk
      · next hpc => exact .downCn hc hb' hpc
      · next hpc => exact .downCb hc hb' (.inl hpc)
      · next hpc hm => exact .send hc hb' hpc hm
      · next hpc => exact .count hc hb' hpc
      · next hpc => exact .downCb hc hb' (.inr hpc)
      · next hpc => exact .upCb hc hb' hpc
      · next hpc => exact .copy hc hb' hpc
      · next hpc => exact .upCn hc hb' hpc

theorem cnCallback_cases {s t : Socket} {k : Nat} (h : s.cnCallback k = some t) :
    Step s (.callback k) t := by
  unfold cnCallback at h
  split at h
  · cases h
  · next b hb =>
    split at h <;> cases h
    · next hpc =>
      rcases Nat.eq_zero_or_pos s.cbSem.count with hz | hp
      · rw [Semaphore.downTrylock_of_zero hz]
        exact .need hb hpc hz
      · rw [Semaphore.downTrylock_of_pos hp]
        exact .probe hb hpc hp
    · next hpc => exact .finish hb (.inl hpc)
    · next hpc => exact .fill hb hpc
    · next hpc => exact .finish hb (.inr hpc)

/-- Everything a step can do. -/
theorem step_cases {s t : Socket} {a : Action} (h : step s a = some t) : Step s a t := by
  cases a with
  | readBlock i address =>
    simp only [step] at h
    split at h <;> cases h
    next hc => exact .readBlock hc
  | writeBlock i =>
    simp only [step] at h
    split at h <;> cases h
    next hc => exact .writeBlock hc
  | kzalloc i ok =>
    simp only [step] at h
    split at h
    · next c hc =>
      split at h <;> cases h
      next hpc =>
        cases ok with
        | true => exact .alloc hc hpc
        | false => exact .allocFail hc hpc
    · cases h
  | call i => exact stepCall_cases h
  | answer k msg =>
    simp only [step] at h
    split at h <;> cases h
    next r hr => exact .answer hr
  | deliver k =>
    simp only [step] at h
    split at h <;> cases h
    next r hr => exact .deliver hr
  | inject msg =>
    cases h
    exact .inject
  | callback k => exact cnCallback_cases h

/-! ## The wait queues

In every run whatever, the queues of the two semaphores hold exactly the calls that are blocked at
a `down` of them. -/

/-- Blocked in `down(&cn_sem)`. -/
def WaitsCn : Option Call → Prop
  | some c => c.blocked = true ∧ c.pc = .downCn
  | none => False

/-- Blocked in one of the two `down(&cb_sem)`. -/
def WaitsCb : Option Call → Prop
  | some c => c.blocked = true ∧ (c.pc = .downCb ∨ c.pc = .downReply)
  | none => False

theorem exists_of_waitsCn {o : Option Call} (h : WaitsCn o) :
    ∃ c, o = some c ∧ WaitsCn (some c) := by
  cases o with
  | none => exact h.elim
  | some c => exact ⟨c, rfl, h⟩

theorem exists_of_waitsCb {o : Option Call} (h : WaitsCb o) :
    ∃ c, o = some c ∧ WaitsCb (some c) := by
  cases o with
  | none => exact h.elim
  | some c => exact ⟨c, rfl, h⟩

structure Queues (s : Socket) : Prop where
  cn : s.cnSem.Queue fun i => WaitsCn (s.calls i)
  cb : s.cbSem.Queue fun i => WaitsCb (s.calls i)

theorem not_waitsCn_of_waitsCb {o : Option Call} (h : WaitsCb o) : ¬ WaitsCn o := by
  cases o with
  | none => exact id
  | some c =>
    rintro ⟨_, hpc⟩
    rcases h.2 with h1 | h1 <;> rw [hpc] at h1 <;> cases h1

/-- In neither queue. -/
def Free (o : Option Call) : Prop := ¬ WaitsCn o ∧ ¬ WaitsCb o

theorem free_none : Free none := ⟨id, id⟩

theorem free_of_unblocked {c : Call} (h : c.blocked = false) : Free (some c) :=
  ⟨fun hw => by simp [WaitsCn, h] at hw, fun hw => by simp [WaitsCb, h] at hw⟩

theorem free_kzalloc {c : Call} (h : c.pc = .kzalloc) : Free (some c) :=
  ⟨fun hw => by simp [WaitsCn, h] at hw, fun hw => by simp [WaitsCb, h] at hw⟩

theorem free_advance (o : Option Call) : Free (o.map Call.advance) := by
  cases o with
  | none => exact free_none
  | some c => exact free_of_unblocked rfl

/-- A call in neither queue may be replaced by one in neither queue. -/
theorem Queues.setCall {s : Socket} (hq : Queues s) {i : Nat} {c' : Call}
    (hold : Free (s.calls i)) (hnew : Free (some c')) : Queues (s.setCall i c') :=
  ⟨hq.cn.update (iff_of_false hnew.1 hold.1), hq.cb.update (iff_of_false hnew.2 hold.2)⟩

theorem Queues.upCn {s : Socket} (hq : Queues s) : Queues s.upCn where
  cn := hq.cn.up_wake fun o => (free_advance o).1
  cb := by
    refine hq.cb.wake_other (fun j hj hw => ?_) fun o => (free_advance o).2
    -- the waiter that was released stood at `down(&cn_sem)`
    exact not_waitsCn_of_waitsCb hw (hq.cn.up_waits hj)

theorem Queues.upCb {s : Socket} (hq : Queues s) : Queues s.upCb where
  cn := by
    refine hq.cn.wake_other (fun j hj => ?_) fun o => (free_advance o).1
    exact not_waitsCn_of_waitsCb (hq.cb.up_waits hj)
  cb := hq.cb.up_wake fun o => (free_advance o).2

theorem Queues.downCn {s : Socket} (hq : Queues s) {i : Nat} {c : Call} (hc : s.calls i = some c)
    (hb : c.blocked = false) (hpc : c.pc = .downCn) : Queues (s.downCn i c) := by
  have hfree : Free (s.calls i) := hc ▸ free_of_unblocked hb
  refine ⟨hq.cn.down_update hfree.1 ?_, hq.cb.update (iff_of_false ?_ hfree.2)⟩ <;>
    cases ht : (s.cnSem.down i).2 <;> simp [Call.downed, WaitsCn, WaitsCb, hpc, Call.advance]

theorem Queues.downCb {s : Socket} (hq : Queues s) {i : Nat} {c : Call} (hc : s.calls i = some c)
    (hb : c.blocked = false) (hpc : c.pc = .downCb ∨ c.pc = .downReply) :
    Queues (s.downCb i c) := by
  have hfree : Free (s.calls i) := hc ▸ free_of_unblocked hb
  refine ⟨hq.cn.update (iff_of_false ?_ hfree.1), hq.cb.down_update hfree.2 ?_⟩
  · cases ht : (s.cbSem.down i).2
    · rcases hpc with h | h <;> simp [Call.downed, WaitsCn, h]
    · simp [Call.downed, WaitsCn, Call.advance]
  · cases ht : (s.cbSem.down i).2 <;> simp [Call.downed, WaitsCb, hpc, Call.advance]

theorem queues_step {s t : Socket} {a : Action} (hq : Queues s) (h : Step s a t) : Queues t := by
  cases h with
  | readBlock hc | writeBlock hc => exact hq.setCall (hc ▸ free_none) (free_of_unblocked rfl)
  | alloc hc hpc => exact hq.setCall (hc ▸ free_kzalloc hpc) (free_of_unblocked rfl)
  | allocFail hc hpc =>
    refine hq.setCall (hc ▸ free_kzalloc hpc) ?_
    simp [Free, WaitsCn, WaitsCb]
  | sample hc hb | copy hc hb =>
    exact hq.setCall (hc ▸ free_of_unblocked hb) (free_of_unblocked rfl)
  | @send i c _ hc hb =>
    have h : Queues (s.setCall i { c.advance with sentAt := some s.delivered }) :=
      hq.setCall (hc ▸ free_of_unblocked hb) (free_of_unblocked rfl)
    exact ⟨h.cn, h.cb⟩
  | @count i c hc hb =>
    have h : Queues (s.setCall i c.advance) :=
      hq.setCall (hc ▸ free_of_unblocked hb) (free_of_unblocked rfl)
    exact ⟨h.cn, h.cb⟩
  | downCn hc hb hpc => exact hq.downCn hc hb hpc
  | downCb hc hb hpc => exact hq.downCb hc hb hpc
  | upCb hc hb => exact (hq.setCall (hc ▸ free_of_unblocked hb) (free_of_unblocked rfl)).upCb
  | upCn hc hb => exact (hq.setCall (hc ▸ free_of_unblocked hb) (free_of_unblocked rfl)).upCn
  | answer | deliver | inject | need | fill => exact ⟨hq.cn, hq.cb⟩
  | probe => exact ⟨hq.cn, ⟨hq.cb.nodup, hq.cb.mem⟩⟩
  | @finish k b =>
    have h : Queues (s.setCallback k { b with pc := .done }) := ⟨hq.cn, hq.cb⟩
    exact h.upCb

theorem queues_init : Queues init :=
  ⟨⟨List.nodup_nil, fun _ => by simp [init, Semaphore.init, WaitsCn]⟩,
    ⟨List.nodup_nil, fun _ => by simp [init, Semaphore.init, WaitsCb]⟩⟩

/-! ## One call in a step -/

/-- The ways the step `a` from `s` can change the record of one call. -/
inductive CallMove (s : Socket) (a : Action) : Option Call → Call → Prop
  | enterRead (address : UInt32) :
      CallMove s a none ⟨.read address, .kzalloc, false, none, none, none⟩
  | enterWrite : CallMove s a none ⟨.write, .downCn, false, none, none, none⟩
  | alloc {c : Call} : c.pc = .kzalloc →
      CallMove s a (some c) { c.advance with m := some ⟨0, 0, []⟩ }
  | allocFail {i : Nat} {c : Call} : a = .kzalloc i false → c.pc = .kzalloc →
      CallMove s a (some c) { c with pc := .count }
  | sample {c : Call} {address : UInt32} : c.pc = .sample → c.kind = .read address →
      CallMove s a (some c) { c.advance with
        m := some ⟨s.cnCounter, (readPayload address).1, (readPayload address).2⟩ }
  | block {c : Call} : c.pc = .downCn ∨ c.pc = .downCb ∨ c.pc = .downReply →
      CallMove s a (some c) { c with blocked := true }
  | move {c : Call} : c.pc = .downCn ∨ c.pc = .downCb ∨ c.pc = .downReply ∨ c.pc = .count ∨
      c.pc = .upCb ∨ c.pc = .upCn → CallMove s a (some c) c.advance
  | send {c : Call} : c.pc = .send →
      CallMove s a (some c) { c.advance with sentAt := some s.delivered }
  | copy {c : Call} : c.pc = .copy →
      CallMove s a (some c) { c.advance with block := some s.readBlockBuffer }

theorem callMove_update {s : Socket} {a : Action} {i j : Nat} {d c' : Call}
    (h : Function.update s.calls i (some d) j = some c') (hd : CallMove s a (s.calls i) d) :
    s.calls j = some c' ∨ CallMove s a (s.calls j) c' := by
  rcases Semaphore.update_eq_some h with ⟨rfl, rfl⟩ | h
  · exact .inr hd
  · exact .inl h

theorem callMove_downed {s : Socket} {a : Action} {c : Call} (took : Bool)
    (hpc : c.pc = .downCn ∨ c.pc = .downCb ∨ c.pc = .downReply) :
    CallMove s a (some c) (c.downed took) := by
  cases took with
  | true => exact .move (by tauto)
  | false => exact .block hpc

theorem callMove_waiter {s : Socket} {a : Action} {d : Call}
    (h : WaitsCn (some d) ∨ WaitsCb (some d)) : CallMove s a (some d) d.advance := by
  rcases h with ⟨_, hpc⟩ | ⟨_, hpc⟩ <;> exact .move (by tauto)

/-- The waiter an `up` released in the state left by call `i` has made its `down`. -/
theorem callMove_release {s : Socket} {a : Action} {i j : Nat} {c c' : Call} {w : Option Nat}
    (hc : s.calls i = some c) (hb : c.blocked = false)
    (hw : ∀ j, w = some j → WaitsCn (s.calls j) ∨ WaitsCb (s.calls j))
    (hmove : CallMove s a (some c) c.advance)
    (h : Semaphore.wake Call.advance (s.setCall i c.advance).calls w j = some c') :
    s.calls j = some c' ∨ CallMove s a (s.calls j) c' := by
  rcases Semaphore.wake_eq_some h with h | ⟨hj, d, hd, rfl⟩
  · exact callMove_update h (hc ▸ hmove)
  · have hwaits := hw j hj
    rcases Semaphore.update_eq_some hd with ⟨rfl, rfl⟩ | hd
    · -- the call that makes the `up` is not in a queue itself
      rw [hc] at hwaits
      exact absurd hwaits (not_or.mpr (free_of_unblocked hb))
    · rw [hd] at hwaits ⊢
      exact .inr (callMove_waiter hwaits)

/-- Everything a step can do to a call. -/
theorem step_move {s t : Socket} {a : Action} (hq : Queues s) (h : Step s a t) {j : Nat} {c' : Call}
    (hc' : t.calls j = some c') : s.calls j = some c' ∨ CallMove s a (s.calls j) c' := by
  cases h with
  | readBlock hc => exact callMove_update hc' (hc ▸ .enterRead _)
  | writeBlock hc => exact callMove_update hc' (hc ▸ .enterWrite)
  | alloc hc hpc => exact callMove_update hc' (hc ▸ .alloc hpc)
  | allocFail hc hpc => exact callMove_update hc' (hc ▸ .allocFail rfl hpc)
  | sample hc _ hpc hk => exact callMove_update hc' (hc ▸ .sample hpc hk)
  | downCn hc _ hpc => exact callMove_update hc' (hc ▸ callMove_downed _ (.inl hpc))
  | downCb hc _ hpc => exact callMove_update hc' (hc ▸ callMove_downed _ (.inr hpc))
  | send hc _ hpc => exact callMove_update hc' (hc ▸ .send hpc)
  | count hc _ hpc => exact callMove_update hc' (hc ▸ .move (by tauto))
  | copy hc _ hpc => exact callMove_update hc' (hc ▸ .copy hpc)
  | upCb hc hb hpc =>
    exact callMove_release hc hb (fun j hj => .inr (hq.cb.up_waits hj)) (.move (by tauto)) hc'
  | upCn hc hb hpc =>
    exact callMove_release hc hb (fun j hj => .inl (hq.cn.up_waits hj)) (.move (by tauto)) hc'
  | answer | deliver | inject | probe | need | fill => exact .inl hc'
  | finish =>
    rcases Semaphore.wake_eq_some hc' with h | ⟨hj, d, hd, rfl⟩
    · exact .inl h
    · have hd' : s.calls j = some d := hd
      exact .inr (hd' ▸ callMove_waiter (.inr (hd' ▸ hq.cb.up_waits hj)))

/-- What every move of a call keeps holds of all calls after a step. -/
theorem forall_calls_step {P : Call → Prop} {s t : Socket} {a : Action} (hq : Queues s)
    (h : Step s a t) (hs : ∀ j c, s.calls j = some c → P c)
    (hmove : ∀ o c', (∀ c, o = some c → P c) → CallMove s a o c' → P c') :
    ∀ j c, t.calls j = some c → P c := by
  intro j c hc
  rcases step_move hq h hc with hold | hnew
  · exact hs j c hold
  · exact hmove _ c (hs j) hnew

/-! ## Well-formed calls

From here on every `kzalloc` succeeds. -/

/-- No allocation fails in this step. -/
def AllocOk (a : Action) : Prop := ∀ i, a ≠ .kzalloc i false

theorem CallMove.wf {s : Socket} {a : Action} {o : Option Call} {c' : Call} (h : CallMove s a o c')
    (hok : AllocOk a) (hwf : ∀ c, o = some c → c.Wf) : c'.Wf := by
  cases h with
  | enterRead address => simp [Call.Wf, Pc.afterSend]
  | enterWrite => simp [Call.Wf]
  | allocFail ha => exact absurd ha (hok _)
  | @alloc c hpc | @sample c _ hpc | @send c hpc | @copy c hpc =>
    have h := hwf c rfl
    unfold Call.Wf at h ⊢
    cases hk : c.kind <;> simp_all [Call.advance, Call.next, Pc.afterSend]
  | @block c => exact hwf c rfl
  | @move c hpc =>
    have h := hwf c rfl
    unfold Call.Wf at h ⊢
    rcases hpc with hpc | hpc | hpc | hpc | hpc | hpc <;>
      cases hk : c.kind <;> simp_all [Call.advance, Call.next, Pc.afterSend]

theorem wf_step {s t : Socket} {a : Action} (hq : Queues s) (hok : AllocOk a) (h : Step s a t)
    (hwf : ∀ i c, s.calls i = some c → c.Wf) : ∀ i c, t.calls i = some c → c.Wf :=
  forall_calls_step hq h hwf fun _ _ ho hmove => hmove.wf hok ho

/-! ## Mutual exclusion -/

def HoldsCn : Option Call → Prop
  | some c => c.holdsCn
  | none => False

/-- The operations between taking and releasing `cn_sem` that only a call with a message, or a
write, gets to. -/
theorem holdsCn_of_wf {c : Call} (hwf : c.Wf) (hpc : c.pc = .downCb ∨ c.pc = .downReply ∨
    c.pc = .upCb ∨ c.pc = .copy ∨ c.pc = .upCn) : c.holdsCn := by
  unfold Call.Wf at hwf
  rcases hpc with hpc | hpc | hpc | hpc | hpc <;> cases hk : c.kind <;> simp_all [Call.holdsCn]

/-- None of them but the last releases it. -/
theorem holdsCn_advance_of_wf {c : Call} (hwf : c.Wf) (hpc : c.pc = .downCb ∨ c.pc = .downReply ∨
    c.pc = .upCb ∨ c.pc = .copy) : c.advance.holdsCn := by
  unfold Call.Wf at hwf
  rcases hpc with hpc | hpc | hpc | hpc <;> cases hk : c.kind <;>
    simp_all [Call.holdsCn, Call.advance, Call.next]

theorem holdsCn_downed_of_wf {c : Call} (hwf : c.Wf) (hpc : c.pc = .downCb ∨ c.pc = .downReply)
    (took : Bool) : (c.downed took).holdsCn := by
  cases took with
  | true => exact holdsCn_advance_of_wf hwf (by tauto)
  | false => exact holdsCn_of_wf hwf (by tauto)

/-- `cn_sem` is a lock, and `owner` is the call between taking and releasing it. -/
structure Locked (s : Socket) (owner : Option Nat) : Prop where
  mutex : s.cnSem.Mutex owner
  holds : ∀ i, HoldsCn (s.calls i) ↔ owner = some i

theorem Locked.frame {s t : Socket} {owner : Option Nat} (hl : Locked s owner)
    (hsem : t.cnSem = s.cnSem) (hcalls : ∀ j, HoldsCn (t.calls j) ↔ HoldsCn (s.calls j)) :
    Locked t owner :=
  ⟨hsem ▸ hl.mutex, fun i => (hcalls i).trans (hl.holds i)⟩

/-- Waking a call in the queue of `cb_sem` does not change who holds `cn_sem`. -/
theorem holdsCn_wake_cb {s : Socket} (hq : Queues s) (hwf : ∀ i c, s.calls i = some c → c.Wf)
    (j : Nat) :
    HoldsCn (Semaphore.wake Call.advance s.calls s.cbSem.up.2 j) ↔ HoldsCn (s.calls j) := by
  refine Semaphore.wake_iff (fun j hj => ?_) j
  have hw := hq.cb.up_waits hj
  cases hc : s.calls j with
  | none => exact Iff.rfl
  | some c =>
    have hcwf := hwf j c hc
    rw [hc] at hw
    obtain ⟨_, hpc⟩ := hw
    exact iff_of_true (holdsCn_advance_of_wf hcwf (by tauto)) (holdsCn_of_wf hcwf (by tauto))

theorem Locked.downCn {s : Socket} {owner : Option Nat} (hl : Locked s owner) {i : Nat} {c : Call}
    (hc : s.calls i = some c) (hpc : c.pc = .downCn) :
    Locked (s.downCn i c) (if (s.cnSem.down i).2 then some i else owner) := by
  refine ⟨hl.mutex.down i, ?_⟩
  intro j
  have hi : ¬ HoldsCn (s.calls i) := by simp [hc, HoldsCn, Call.holdsCn, hpc]
  cases ht : (s.cnSem.down i).2 with
  | true =>
    have hnone := hl.mutex.owner_none_of_down ht
    subst hnone
    by_cases hj : j = i
    · subst hj
      cases hk : c.kind <;> simp [Socket.downCn, Socket.setCall, ht, Call.downed, HoldsCn,
        Call.holdsCn, Call.advance, Call.next, hpc, hk]
    · have := (hl.holds j).not.mpr (by simp)
      simp [Socket.downCn, Socket.setCall, hj, this, Ne.symm hj]
  | false =>
    by_cases hj : j = i
    · subst hj
      have := (hl.holds j).not.mp hi
      simpa [Socket.downCn, Socket.setCall, ht, Call.downed, HoldsCn, Call.holdsCn, hpc] using this
    · simpa [Socket.downCn, Socket.setCall, hj] using hl.holds j

/-- The release: the lock goes to the first waiter, who then holds it. -/
theorem Locked.upCn {s : Socket} {owner : Option Nat} (hl : Locked s owner) (hq : Queues s)
    {i : Nat} {c : Call} (hc : s.calls i = some c) (hpc : c.pc = .upCn) (hb : c.blocked = false)
    (hwf : c.Wf) : Locked (s.setCall i c.advance).upCn s.cnSem.up.2 := by
  have hi : owner = some i := by
    refine (hl.holds i).mp ?_
    rw [hc]
    exact holdsCn_of_wf hwf (by tauto)
  subst hi
  refine ⟨hl.mutex.up, ?_⟩
  intro j
  have hne : s.cnSem.up.2 ≠ some i := by
    intro h
    have hw := hq.cn.up_waits h
    rw [hc] at hw
    simp [WaitsCn, hb] at hw
  simp only [Socket.upCn, Socket.setCall, Semaphore.wake_apply]
  by_cases hj : s.cnSem.up.2 = some j
  · have hji : j ≠ i := fun h => hne (h ▸ hj)
    have hw := hq.cn.up_waits hj
    cases hcj : s.calls j with
    | none => simp [hcj, WaitsCn] at hw
    | some d =>
      rw [hcj] at hw
      cases hk : d.kind <;> simp [hj, hji, hcj, HoldsCn, Call.holdsCn,
        Call.advance, Call.next, hw.2, hk]
  · rw [if_neg hj]
    refine iff_of_false ?_ hj
    by_cases hji : j = i
    · subst hji
      simp [HoldsCn, Call.holdsCn, Call.advance, Call.next, hpc]
    · rw [Function.update_of_ne hji]
      exact (hl.holds j).not.mpr (by simpa using Ne.symm hji)

theorem locked_step {s t : Socket} {a : Action} {owner : Option Nat} (hq : Queues s)
    (hwf : ∀ i c, s.calls i = some c → c.Wf) (hok : AllocOk a) (hl : Locked s owner)
    (h : Step s a t) : ∃ owner', Locked t owner' := by
  cases h with
  | readBlock hc | writeBlock hc =>
    refine ⟨owner, hl.frame rfl (Semaphore.update_iff ?_)⟩
    simp [hc, HoldsCn, Call.holdsCn]
  | alloc hc hpc | sample hc _ hpc =>
    refine ⟨owner, hl.frame rfl (Semaphore.update_iff ?_)⟩
    simp [hc, HoldsCn, Call.holdsCn, Call.advance, Call.next, hpc]
  | @allocFail i => exact absurd rfl (hok i)
  | downCn hc _ hpc => exact ⟨_, hl.downCn hc hpc⟩
  | @downCb i c hc _ hpc =>
    refine ⟨owner, hl.frame rfl (Semaphore.update_iff ?_)⟩
    rw [hc]
    exact iff_of_true (holdsCn_downed_of_wf (hwf i c hc) hpc _)
      (holdsCn_of_wf (hwf i c hc) (by tauto))
  | send hc _ hpc hm =>
    refine ⟨owner, hl.frame rfl (Semaphore.update_iff ?_)⟩
    simp [hc, HoldsCn, Call.holdsCn, Call.advance, Call.next, hpc, hm]
  | count hc _ hpc =>
    refine ⟨owner, hl.frame rfl (Semaphore.update_iff ?_)⟩
    simp [hc, HoldsCn, Call.holdsCn, Call.advance, Call.next, hpc]
  | @copy i c hc _ hpc =>
    refine ⟨owner, hl.frame rfl (Semaphore.update_iff ?_)⟩
    rw [hc]
    exact iff_of_true (holdsCn_advance_of_wf (hwf i c hc) (by tauto))
      (holdsCn_of_wf (hwf i c hc) (by tauto))
  | @upCb i c hc hb hpc =>
    have hq' : Queues (s.setCall i c.advance) :=
      hq.setCall (hc ▸ free_of_unblocked hb) (free_of_unblocked rfl)
    have hwf' : ∀ j d, (s.setCall i c.advance).calls j = some d → d.Wf := by
      intro j d hd
      rcases Semaphore.update_eq_some hd with ⟨_, rfl⟩ | hd
      · have hmove : CallMove s (.call i) (some c) c.advance := .move (by tauto)
        exact hmove.wf hok fun d hd => hwf i d (hc.trans hd)
      · exact hwf j d hd
    have hsame : HoldsCn (some c.advance) ↔ HoldsCn (s.calls i) := by
      simp [hc, HoldsCn, Call.holdsCn, Call.advance, Call.next, hpc]
    exact ⟨owner, hl.frame rfl fun j =>
      (holdsCn_wake_cb hq' hwf' j).trans (Semaphore.update_iff hsame j)⟩
  | @upCn i c hc hb hpc => exact ⟨_, hl.upCn hq hc hpc hb (hwf i c hc)⟩
  | answer | deliver | inject | probe | need | fill => exact ⟨owner, hl.frame rfl fun _ => Iff.rfl⟩
  | finish =>
    have hrel := holdsCn_wake_cb hq hwf
    exact ⟨owner, hl.frame rfl hrel⟩

/-- The invariant of the runs in which no allocation fails. -/
structure Base (s : Socket) : Prop where
  queues : Queues s
  wf : ∀ i c, s.calls i = some c → c.Wf
  locked : ∃ owner, Locked s owner

theorem base_init : Base init where
  queues := queues_init
  wf := fun _ _ h => by cases h
  locked := ⟨none, ⟨fun _ => ⟨rfl, rfl⟩, fun _ h => by cases h⟩, fun _ => by simp [init, HoldsCn]⟩

theorem base_step {s t : Socket} {a : Action} (hb : Base s) (hok : AllocOk a) (h : Step s a t) :
    Base t := by
  obtain ⟨owner, hl⟩ := hb.locked
  exact ⟨queues_step hb.queues h, wf_step hb.queues hok h hb.wf,
    locked_step hb.queues hb.wf hok hl h⟩

theorem Base.one_holder {s : Socket} (hb : Base s) {i j : Nat} {c d : Call}
    (hc : s.calls i = some c) (hd : s.calls j = some d) (hi : c.holdsCn) (hj : d.holdsCn) :
    i = j := by
  obtain ⟨owner, hl⟩ := hb.locked
  have h1 : owner = some i := (hl.holds i).mp (by rw [hc]; exact hi)
  have h2 : owner = some j := (hl.holds j).mp (by rw [hd]; exact hj)
  exact Option.some.inj (h1.symm.trans h2)

/-! ## Failed allocations -/

/-- The `kzalloc` of call `i` succeeds exactly when `π i` says so. -/
def AllocPattern (π : Nat → Bool) (_ : Socket) (a : Action) : Prop :=
  ∀ i ok, a = .kzalloc i ok → ok = π i

/-- A call that has sent a request and not yet released `cn_sem`. -/
def Sending (c : Call) : Prop := c.sentAt ≠ none ∧ c.pc ≠ .done

/-- The locking protocol is intact, and no call whose `kzalloc` returned `NULL` has returned with
anything but the content of the block it asked for. -/
structure Intact (content : UInt32 → Block) (s : Socket) : Prop where
  count_le : s.cnSem.count ≤ 1
  one_sender : ∀ i j c d, s.calls i = some c → s.calls j = some d → Sending c → Sending d → i = j
  content : ∀ i c address, s.calls i = some c → c.kind = .read address → c.m = none →
    c.pc = .done → c.block = some (content address)

theorem holdsCn_of_sending {c : Call} (hwf : c.Wf) (h : Sending c) : c.holdsCn := by
  obtain ⟨hs, hpc⟩ := h
  unfold Call.Wf at hwf
  cases hk : c.kind with
  | write =>
    simp only [hk] at hwf
    exact absurd hwf.2 hs
  | read address =>
    simp only [hk] at hwf
    have ha := hwf.2.mp hs
    cases hp : c.pc <;> simp_all [Pc.afterSend, Call.holdsCn]

theorem Base.intact {s : Socket} (hb : Base s) (content : UInt32 → Block) : Intact content s := by
  obtain ⟨owner, hl⟩ := hb.locked
  refine ⟨hl.mutex.count_le, fun i j c d hc hd hci hdj => ?_, fun i c address hc hk hm hpc => ?_⟩
  · exact hb.one_holder hc hd (holdsCn_of_sending (hb.wf i c hc) hci)
      (holdsCn_of_sending (hb.wf j d hd) hdj)
  · have hwf := hb.wf i c hc
    simp [Call.Wf, hk, hpc, hm] at hwf

/-- One call, alone, whose `kzalloc` fails: it skips both `down`s of the branch, finds `cb_sem`
free, and releases the `cn_sem` it never took. -/
def lonelyFailure (i : Nat) : List Action :=
  [.readBlock i 0, .kzalloc i false, .call i, .call i, .call i, .call i, .call i]

theorem lonelyFailure_run (i : Nat) :
    ∃ t, (lonelyFailure i).foldlM step init = some t ∧ t.cnSem.count = 2 := by
  unfold lonelyFailure
  -- action by action: with all of them unfolded, `simp` works on each under the binders of the rest
  iterate 7
    rw [List.foldlM_cons]
    simp only [step, init, stepCall, setCall, Socket.downCb, Socket.upCb, Socket.upCn, Call.advance,
      Call.next, Call.downed, Semaphore.init, Semaphore.down, Semaphore.up, Semaphore.wake,
      Function.update_self, Function.update_idem, Option.bind_eq_bind, Option.bind_some,
      Bool.false_eq_true, ite_true, ite_false, Nat.lt_add_one]
  exact ⟨_, rfl, rfl⟩

theorem lonelyFailure_ok {π : Nat → Bool} {i : Nat} (h : π i = false) :
    ∀ a ∈ lonelyFailure i, ∀ j ok, a = .kzalloc j ok → ok = π j := by
  intro a ha j ok he
  subst he
  simp only [lonelyFailure, List.mem_cons, Action.kzalloc.injEq, reduceCtorEq, false_or, or_false,
    List.not_mem_nil] at ha
  rw [ha.1, ha.2, h]

/-- The protocol survives every interleaving of reads, writes and messages exactly when no
`kzalloc` of `sjfs_read_block` fails: whatever call it is that gets `NULL`, the run of that call
alone already breaks the lock. -/
theorem intact_iff (π : Nat → Bool) (content : UInt32 → Block) :
    (∀ s, Reach step (AllocPattern π) init s → Intact content s) ↔ ∀ i, π i = true := by
  constructor
  · intro h i
    by_contra hi
    have hfail : π i = false := by simpa using hi
    obtain ⟨t, ht, hcount⟩ := lonelyFailure_run i
    have hreach : Reach step (AllocPattern π) init t :=
      Reach.of_run (StepsOk.of_forall (lonelyFailure_ok hfail)) ht
    have := (h t hreach).count_le
    omega
  · intro hall s hs
    have hbase : Base s := by
      refine hs.invariant base_init ?_
      intro s a t hb hok hstep
      refine base_step hb (fun i he => ?_) (step_cases hstep)
      have := hok i false he
      rw [hall i] at this
      cases this
    exact hbase.intact content

/-- With a failing `kzalloc` the protocol is not intact: after one call `cn_sem` is at 2. -/
theorem failed_alloc_breaks_lock :
    ¬ ∀ (π : Nat → Bool) (content : UInt32 → Block) (s : Socket),
      Reach step (AllocPattern π) init s → Intact content s := by
  intro h
  obtain ⟨t, ht, hcount⟩ := lonelyFailure_run 0
  have hreach : Reach step (AllocPattern fun _ => false) init t :=
    Reach.of_run (StepsOk.of_forall (lonelyFailure_ok rfl)) ht
  have := (h _ (fun _ => Bytes.zero) t hreach).count_le
  omega

end Socket

end Sjfs
