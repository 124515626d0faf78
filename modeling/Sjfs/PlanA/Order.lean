import Sjfs.PlanA.Channel
import Sjfs.Lib.Counter

/-!
# Plan a: the order of the calls

The steps of the channel as a relation (`Step`, `step_cases`), and what holds in every run, with any
pattern of failed allocations: `cn_sem` is a lock (`Locked`), and since a call reads and increments
`cn_sjfs_counter` while it holds it, a message carries the number of calls that took the lock before
its own (`Ordered`).

Results:
1. `locked_step`, `ordered_step`: the invariants.
2. `Ordered.distinct`: no two messages within 2^32 calls carry the same number.
-/

namespace Sjfs

open Lib

namespace PlanA

theorem Call.header_seq (c : Call) (seq : UInt32) : (c.header seq).seq = seq := by
  unfold Call.header
  split <;> rfl

/-- Between taking and releasing `cn_sem`. -/
def Pc.holds : Pc → Bool
  | .downCn | .done => false
  | _ => true

/-- Between taking `cn_sem` and `cn_sjfs_counter++`. -/
def Pc.uncounted : Pc → Bool
  | .downCb | .kzalloc | .kzallocData | .sample | .copyFromUser | .send | .count => true
  | _ => false

/-- Between taking `cn_sem` and the send. -/
def Pc.unsent : Pc → Bool
  | .downCb | .kzalloc | .kzallocData | .sample | .copyFromUser | .send => true
  | _ => false

/-- Between reading the counter into `m->seq` and the send. -/
def Pc.sampled : Pc → Bool
  | .copyFromUser | .send => true
  | _ => false

namespace Channel

/-! ## The steps, one by one -/

/-- The steps of call `i` that change nothing but its own record, when `cn_sjfs_counter` is at `seq`
and `sjfs_read_buffer` is `buffer`. -/
inductive OwnStep (i : Nat) (seq : UInt32) (buffer : Option ReadBuffer) (c : Call) :
    Action → Call → Prop
  | alloc : c.pc = .kzalloc → c.kind.isRead = true →
      OwnStep i seq buffer c (.kzalloc i true) { c.advance with m := some ⟨0, 0, []⟩ }
  | allocFail : c.pc = .kzalloc → c.kind.isRead = true →
      OwnStep i seq buffer c (.kzalloc i false) { c with pc := .count }
  | allocWrite (ok : Bool) : c.pc = .kzalloc → c.kind.isRead = false →
      OwnStep i seq buffer c (.kzalloc i ok)
        { c.advance with m := if ok then some ⟨0, 0, []⟩ else none }
  | allocData : c.pc = .kzallocData → OwnStep i seq buffer c (.kzalloc i true) c.advance
  | allocDataFail (ok : Bool) : c.pc = .kzallocData →
      OwnStep i seq buffer c (.kzalloc i ok) { c with pc := .count }
  | sample : c.pc = .sample →
      OwnStep i seq buffer c (.call i) { c.advance with m := some (c.header seq) }
  | copyAll {res : Nat} {m : CnMsg} {source : Nat → UInt8} : c.pc = .copyFromUser →
      c.kind.isRead = false → c.m = some m →
      OwnStep i seq buffer c (.copyFromUser i res)
        { c.advance with m := some (writeMsg m.seq c.io source res) }
  | copyPart {res : Nat} : c.pc = .copyFromUser → c.kind.isRead = false →
      OwnStep i seq buffer c (.copyFromUser i res) { c with pc := .count }
  | copyToUser : c.pc = .copyToUser →
      OwnStep i seq buffer c (.call i) { c.advance with copied := some buffer }

/-- The steps of the machine as a relation: one case for each operation, with its guard. -/
inductive Step (s : Channel) : Action → Channel → Prop
  | enter {i : Nat} {kind : Kind} {io : Io} : s.calls i = none →
      Step s (.enter i kind io) (s.setCall i ⟨kind, io, .downCn, false, none, none⟩)
  | own {i : Nat} {c c' : Call} {a : Action} : s.calls i = some c →
      OwnStep i s.counter s.readBuffer c a c' → Step s a (s.setCall i c')
  | downCn {i : Nat} {c : Call} : s.calls i = some c → c.blocked = false → c.pc = .downCn →
      Step s (.call i) (s.downCn i c)
  | downCb {i : Nat} {c : Call} : s.calls i = some c → c.blocked = false →
      c.pc = .downCb ∨ c.pc = .downReply → Step s (.call i) (s.downCb i c)
  | send {i : Nat} {c : Call} {m : CnMsg} : s.calls i = some c → c.pc = .send → c.m = some m →
      Step s (.call i) ((s.setCall i c.advance).netlinkSend i c m)
  | count {i : Nat} {c : Call} : s.calls i = some c → c.pc = .count →
      Step s (.call i) { s.setCall i c.advance with counter := s.counter + 1 }
  | upCb {i : Nat} {c : Call} : s.calls i = some c → c.pc = .upCb →
      Step s (.call i) (s.setCall i c.advance).upCb
  | upCn {i : Nat} {c : Call} : s.calls i = some c → c.blocked = false → c.pc = .upCn →
      Step s (.call i) (s.setCall i c.advance).upCn
  | answer {k i : Nat} {msg : Response} : s.wire[k]? = some i →
      Step s (.answer k msg) { s with wire := s.wire.eraseIdx k, inbox := s.inbox ++ [⟨i, msg⟩] }
  | deliver {k : Nat} {r : Mail} : s.inbox[k]? = some r →
      Step s (.deliver k) { s.setCallback s.delivered ⟨r.caller, r.msg, .trylock⟩ with
        inbox := s.inbox.eraseIdx k
        delivered := s.delivered + 1 }
  | probe {k : Nat} {b : Callback} : s.callbacks k = some b → b.pc = .trylock →
      0 < s.cbSem.count → Step s (.callback k)
        { s.setCallback k { b with pc := .release } with
          cbSem := { s.cbSem with count := s.cbSem.count - 1 } }
  | need {k : Nat} {b : Callback} : s.callbacks k = some b → b.pc = .trylock →
      s.cbSem.count = 0 → Step s (.callback k) (s.setCallback k { b with pc := .kzalloc })
  | callbackAlloc {k : Nat} {b : Callback} : s.callbacks k = some b → b.pc = .kzalloc →
      Step s (.callbackKzalloc k true) { s.setCallback k { b with pc := .memcpy } with
        readBuffer := some ⟨k, List.replicate b.msg.count 0⟩ }
  | callbackAllocFail {k : Nat} {b : Callback} : s.callbacks k = some b → b.pc = .kzalloc →
      Step s (.callbackKzalloc k false) { s.setCallback k { b with pc := .up } with
        readBuffer := none }
  | memcpy {k : Nat} {b : Callback} : s.callbacks k = some b → b.pc = .memcpy →
      Step s (.callback k) { s.setCallback k { b with pc := .up } with
        readBuffer := s.readBuffer.map fun buffer => { buffer with bytes := b.msg.bytes } }
  | finish {k : Nat} {b : Callback} : s.callbacks k = some b → b.pc = .release ∨ b.pc = .up →
      Step s (.callback k) (s.setCallback k { b with pc := .done }).upCb

theorem stepCall_cases {s t : Channel} {i : Nat} (h : s.stepCall i = some t) :
    Step s (.call i) t := by
  unfold stepCall at h
  split at h
  · cases h
  · next c hc =>
    split at h
    · cases h
    · next hb =>
      have hb' : c.blocked = false := by simpa using hb
      split at h <;> cases h
      · next hpc => exact .downCn hc hb' hpc
      · next hpc => exact .downCb hc hb' (.inl hpc)
      · next hpc => exact .own hc (.sample hpc)
      · next hpc hm => exact .send hc hpc hm
      · next hpc => exact .count hc hpc
      · next hpc => exact .downCb hc hb' (.inr hpc)
      · next hpc => exact .upCb hc hpc
      · next hpc => exact .own hc (.copyToUser hpc)
      · next hpc => exact .upCn hc hb' hpc

theorem stepKzalloc_cases {s t : Channel} {i : Nat} {ok : Bool} (h : s.stepKzalloc i ok = some t) :
    Step s (.kzalloc i ok) t := by
  unfold stepKzalloc at h
  split at h
  · cases h
  · next c hc =>
    split at h <;> cases h
    · next hpc hk =>
      cases ok with
      | true => exact .own hc (.alloc hpc (by simp [hk, Kind.isRead]))
      | false => exact .own hc (.allocFail hpc (by simp [hk, Kind.isRead]))
    · next hpc hk => exact .own hc (.allocWrite ok hpc (by simp [hk, Kind.isRead]))
    · next hpc =>
      split
      · next hboth =>
        obtain ⟨rfl, _⟩ := Bool.and_eq_true_iff.mp hboth
        exact .own hc (.allocData hpc)
      · exact .own hc (.allocDataFail ok hpc)

theorem stepCopyFromUser_cases {s t : Channel} {i res : Nat}
    (h : s.stepCopyFromUser i res = some t) : Step s (.copyFromUser i res) t := by
  unfold stepCopyFromUser at h
  split at h
  · cases h
  · next c hc =>
    split at h
    · next source m hpc hk hm =>
      split at h <;> cases h
      split
      · exact .own hc (.copyAll hpc (by simp [hk, Kind.isRead]) hm)
      · exact .own hc (.copyPart hpc (by simp [hk, Kind.isRead]))
    · cases h

theorem stepCallback_cases {s t : Channel} {k : Nat} (h : s.stepCallback k = some t) :
    Step s (.callback k) t := by
  unfold stepCallback at h
  split at h
  · cases h
  · next b hb =>
    split at h <;> cases h
    · next hpc =>
      rcases Nat.eq_zero_or_pos s.cbSem.count with hz | hp
      · rw [Semaphore.downTrylock_of_zero hz]
        exact .need hb hpc hz
      · rw [Semaphore.downTrylock_of_pos hp]
        exact .probe hb hpc hp
    · next hpc => exact .memcpy hb hpc
    · next hpc => exact .finish hb (.inl hpc)
    · next hpc => exact .finish hb (.inr hpc)

/-- Everything a step can do. -/
theorem step_cases {s t : Channel} {a : Action} (h : step s a = some t) : Step s a t := by
  cases a with
  | enter i kind io =>
    simp only [step] at h
    split at h <;> cases h
    next hc => exact .enter hc
  | kzalloc i ok => exact stepKzalloc_cases h
  | copyFromUser i res => exact stepCopyFromUser_cases h
  | call i => exact stepCall_cases h
  | answer k msg =>
    simp only [step] at h
    split at h <;> cases h
    next i hi => exact .answer hi
  | deliver k =>
    simp only [step] at h
    split at h <;> cases h
    next r hr => exact .deliver hr
  | callbackKzalloc k ok =>
    simp only [step, stepCallbackKzalloc] at h
    split at h
    · cases h
    · next b hb =>
      split at h <;> cases h
      next hpc =>
        cases ok with
        | true => exact .callbackAlloc hb hpc
        | false => exact .callbackAllocFail hb hpc
  | callback k => exact stepCallback_cases h

/-! ## The lock -/

/-- Blocked in `down(&cn_sem)`. -/
def WaitsCn : Option Call → Prop
  | some c => c.blocked = true ∧ c.pc = .downCn
  | none => False

/-- Blocked in one of the two `down(&cb_sem)`. -/
def WaitsCb : Option Call → Prop
  | some c => c.blocked = true ∧ (c.pc = .downCb ∨ c.pc = .downReply)
  | none => False

def HoldsCn : Option Call → Prop
  | some c => c.pc.holds = true
  | none => False

/-- The wait queues hold exactly the blocked calls, and `cn_sem` is a lock: `owner` is the call
between taking and releasing it. -/
structure Locked (s : Channel) (owner : Option Nat) : Prop where
  cn : s.cnSem.Queue fun i => WaitsCn (s.calls i)
  cb : s.cbSem.Queue fun i => WaitsCb (s.calls i)
  mutex : s.cnSem.Mutex owner
  holds : ∀ i, HoldsCn (s.calls i) ↔ owner = some i

theorem upCn_calls (s : Channel) (j : Nat) : s.upCn.calls j =
    if s.cnSem.up.2 = some j then (s.calls j).map Call.advance else s.calls j :=
  Semaphore.wake_apply ..

/-- In neither queue. -/
def Free (o : Option Call) : Prop := ¬ WaitsCn o ∧ ¬ WaitsCb o

theorem free_of_unblocked {c : Call} (h : c.blocked = false) : Free (some c) :=
  ⟨fun hw => by simp [WaitsCn, h] at hw, fun hw => by simp [WaitsCb, h] at hw⟩

/-- A call that stands at no `down` is in no queue. -/
theorem free_of_pc {c : Call} (h : c.pc ≠ .downCn ∧ c.pc ≠ .downCb ∧ c.pc ≠ .downReply) :
    Free (some c) :=
  ⟨fun hw => h.1 hw.2, fun hw => hw.2.elim h.2.1 h.2.2⟩

theorem free_advance (o : Option Call) : Free (o.map Call.advance) := by
  cases o with
  | none => exact ⟨id, id⟩
  | some c => exact free_of_unblocked rfl

theorem not_waitsCn_of_waitsCb {o : Option Call} (h : WaitsCb o) : ¬ WaitsCn o := by
  cases o with
  | none => exact id
  | some c =>
    rintro ⟨_, hpc⟩
    rcases h.2 with h1 | h1 <;> rw [hpc] at h1 <;> cases h1

/-- A call in the queue of `cb_sem` holds `cn_sem`, before it is released and after it. -/
theorem holdsCn_of_waitsCb {o : Option Call} (h : WaitsCb o) :
    HoldsCn o ∧ HoldsCn (o.map Call.advance) := by
  cases o with
  | none => exact h.elim
  | some c => rcases h.2 with hpc | hpc <;> simp [HoldsCn, Call.advance, Call.next, hpc, Pc.holds]

/-- The operations that change a call's own record only are made by the holder of the lock. -/
theorem OwnStep.spec {i : Nat} {seq : UInt32} {buffer : Option ReadBuffer} {c c' : Call} {a : Action}
    (h : OwnStep i seq buffer c a c') :
    Free (some c) ∧ Free (some c') ∧ c.pc.holds = true ∧ c'.pc.holds = true := by
  refine ⟨free_of_pc ?_, free_of_pc ?_, ?_, ?_⟩ <;> cases hk : c.kind.isRead <;>
    cases h <;> simp_all [Call.advance, Call.next, Pc.holds]

theorem holdsCn_update {calls : Nat → Option Call} {owner : Option Nat} {i : Nat} {o : Option Call}
    (h : ∀ j, HoldsCn (calls j) ↔ owner = some j) (ho : HoldsCn o ↔ HoldsCn (calls i)) (j : Nat) :
    HoldsCn (Function.update calls i o j) ↔ owner = some j :=
  (Semaphore.update_iff ho j).trans (h j)

namespace Locked

variable {s t : Channel} {owner : Option Nat} {i : Nat} {c c' : Call}

theorem owner_eq (h : Locked s owner) (hc : s.calls i = some c) (hpc : c.pc.holds = true) :
    owner = some i :=
  (h.holds i).mp (by rw [hc]; exact hpc)

/-- Steps that change neither a call nor who waits. -/
theorem frame (h : Locked s owner) (hcn : t.cnSem = s.cnSem)
    (hcb : t.cbSem.waiters = s.cbSem.waiters) (hcalls : t.calls = s.calls) : Locked t owner := by
  refine ⟨?_, ?_, hcn ▸ h.mutex, hcalls ▸ h.holds⟩
  · rw [hcn, hcalls]
    exact h.cn
  · rw [hcalls]
    exact ⟨hcb ▸ h.cb.nodup, hcb ▸ h.cb.mem⟩

/-- A call in no queue may change as long as it keeps, or does not get, the lock. -/
theorem setCall (h : Locked s owner) (hold : Free (s.calls i)) (hnew : Free (some c'))
    (hholds : HoldsCn (some c') ↔ HoldsCn (s.calls i)) : Locked (s.setCall i c') owner :=
  ⟨h.cn.update (iff_of_false hnew.1 hold.1), h.cb.update (iff_of_false hnew.2 hold.2), h.mutex,
    holdsCn_update h.holds hholds⟩

theorem upCb (h : Locked s owner) : Locked s.upCb owner := by
  refine ⟨h.cn.wake_other ?_ fun o => (free_advance o).1,
    h.cb.up_wake fun o => (free_advance o).2, h.mutex, fun j => ?_⟩
  · exact fun j hj => not_waitsCn_of_waitsCb (h.cb.up_waits hj)
  · refine (Semaphore.wake_iff (fun k hk => ?_) j).trans (h.holds j)
    have hboth := holdsCn_of_waitsCb (h.cb.up_waits hk)
    exact iff_of_true hboth.2 hboth.1

theorem downCb (h : Locked s owner) (hc : s.calls i = some c) (hb : c.blocked = false)
    (hpc : c.pc = .downCb ∨ c.pc = .downReply) : Locked (s.downCb i c) owner := by
  have hfree : Free (s.calls i) := hc ▸ free_of_unblocked hb
  refine ⟨h.cn.update (iff_of_false ?_ hfree.1), h.cb.down_update hfree.2 ?_, h.mutex,
    holdsCn_update h.holds ?_⟩
  · cases ht : (s.cbSem.down i).2 <;> rcases hpc with hpc | hpc <;>
      simp [Call.downed, WaitsCn, hpc, Call.advance]
  · cases ht : (s.cbSem.down i).2 <;> simp [Call.downed, WaitsCb, hpc, Call.advance]
  · rw [hc]
    cases ht : (s.cbSem.down i).2 <;> rcases hpc with hpc | hpc <;>
      simp [Call.downed, HoldsCn, hpc, Call.advance, Call.next, Pc.holds]

theorem downCn (h : Locked s owner) (hc : s.calls i = some c) (hb : c.blocked = false)
    (hpc : c.pc = .downCn) :
    Locked (s.downCn i c) (if (s.cnSem.down i).2 then some i else owner) := by
  have hfree : Free (s.calls i) := hc ▸ free_of_unblocked hb
  refine ⟨h.cn.down_update hfree.1 ?_, h.cb.update (iff_of_false ?_ hfree.2), h.mutex.down i, ?_⟩
  · cases ht : (s.cnSem.down i).2 <;> simp [Call.downed, WaitsCn, hpc, Call.advance]
  · cases ht : (s.cnSem.down i).2 <;> simp [Call.downed, WaitsCb, hpc, Call.advance]
  · intro j
    have hi : ¬ HoldsCn (s.calls i) := by simp [hc, HoldsCn, hpc, Pc.holds]
    cases ht : (s.cnSem.down i).2 with
    | true =>
      obtain rfl := h.mutex.owner_none_of_down ht
      by_cases hj : j = i
      · subst hj
        cases hk : c.kind.isRead <;> simp [Channel.downCn, Channel.setCall, ht, Call.downed, HoldsCn,
          Call.advance, Call.next, hpc, hk, Pc.holds]
      · have hno := (h.holds j).not.mpr (by simp)
        simp [Channel.downCn, Channel.setCall, hj, hno, Ne.symm hj]
    | false =>
      refine holdsCn_update h.holds (iff_of_false ?_ hi) j
      simp [ht, Call.downed, HoldsCn, hpc, Pc.holds]

/-- The release: the lock goes to the first waiter, who then holds it. -/
theorem upCn (h : Locked s owner) (hc : s.calls i = some c) (hb : c.blocked = false)
    (hpc : c.pc = .upCn) : Locked (s.setCall i c.advance).upCn s.cnSem.up.2 := by
  obtain rfl := h.owner_eq hc (by simp [hpc, Pc.holds])
  have hfree : Free (s.calls i) := hc ▸ free_of_unblocked hb
  have hcn := h.cn.update (i := i) (o := some c.advance)
    (iff_of_false (free_of_unblocked rfl).1 hfree.1)
  have hcb := h.cb.update (i := i) (o := some c.advance)
    (iff_of_false (free_of_unblocked rfl).2 hfree.2)
  have hne : s.cnSem.up.2 ≠ some i := fun hi => hfree.1 (h.cn.up_waits hi)
  refine ⟨hcn.up_wake fun o => (free_advance o).1,
    hcb.wake_other ?_ fun o => (free_advance o).2, h.mutex.up, fun j => ?_⟩
  · exact fun j hj hw => not_waitsCn_of_waitsCb hw (hcn.up_waits hj)
  · simp only [upCn_calls, Channel.setCall]
    by_cases hj : s.cnSem.up.2 = some j
    · have hji : j ≠ i := fun he => hne (he ▸ hj)
      have hw := h.cn.up_waits hj
      cases hcj : s.calls j with
      | none => simp [hcj, WaitsCn] at hw
      | some d =>
        rw [hcj] at hw
        cases hk : d.kind.isRead <;>
          simp [hj, hji, hcj, HoldsCn, Call.advance, Call.next, hw.2, hk, Pc.holds]
    · rw [if_neg hj]
      refine iff_of_false ?_ hj
      by_cases hji : j = i
      · subst hji
        simp [HoldsCn, Call.advance, Call.next, hpc, Pc.holds]
      · rw [Function.update_of_ne hji]
        exact (h.holds j).not.mpr (by simpa using Ne.symm hji)

end Locked

/-- Who holds the lock after the action `a`, when `owner` held it before: `down(&cn_sem)` and
`up(&cn_sem)` are the operations that change it. -/
def ownerAfter (s : Channel) (a : Action) (owner : Option Nat) : Option Nat :=
  match a with
  | .call i => match s.calls i with
    | some c => match c.pc with
      | .downCn => if (s.cnSem.down i).2 then some i else owner
      | .upCn => s.cnSem.up.2
      | _ => owner
    | none => owner
  | _ => owner

/-- The other operations of a call do not change it. -/
theorem ownerAfter_call {s : Channel} {i : Nat} {c : Call} (hc : s.calls i = some c)
    (hpc : c.pc ≠ .downCn ∧ c.pc ≠ .upCn) (owner : Option Nat) :
    s.ownerAfter (.call i) owner = owner := by
  simp only [ownerAfter, hc]
  split
  · next hp => exact absurd hp hpc.1
  · next hp => exact absurd hp hpc.2
  · rfl

theorem OwnStep.ownerAfter {s : Channel} {i : Nat} {c c' : Call} {a : Action}
    (hc : s.calls i = some c) (h : OwnStep i s.counter s.readBuffer c a c') (owner : Option Nat) :
    s.ownerAfter a owner = owner := by
  cases h with
  | sample hpc | copyToUser hpc => simp [Channel.ownerAfter, hc, hpc]
  | _ => rfl

theorem Locked.advance {s : Channel} {owner : Option Nat} (h : Locked s owner) {i : Nat} {c : Call}
    (hc : s.calls i = some c) (hpc : c.pc = .send ∨ c.pc = .count ∨ c.pc = .upCb) :
    Locked (s.setCall i c.advance) owner := by
  refine h.setCall (hc ▸ free_of_pc ?_) (free_of_unblocked rfl) (hc ▸ iff_of_true ?_ ?_) <;>
    cases hk : c.kind.isRead <;> rcases hpc with hpc | hpc | hpc <;>
    simp [HoldsCn, Call.advance, Call.next, hpc, hk, Pc.holds]

theorem locked_step {s t : Channel} {a : Action} {owner : Option Nat} (hl : Locked s owner)
    (h : Step s a t) : Locked t (s.ownerAfter a owner) := by
  cases h with
  | enter hc =>
    refine hl.setCall (hc ▸ ⟨id, id⟩) (free_of_unblocked rfl) ?_
    simp [hc, HoldsCn, Pc.holds]
  | own hc ho =>
    obtain ⟨hfree, hfree', hpc, hpc'⟩ := ho.spec
    rw [ho.ownerAfter hc]
    exact hl.setCall (hc ▸ hfree) hfree' (hc ▸ iff_of_true hpc' hpc)
  | downCn hc hb hpc =>
    simp only [ownerAfter, hc, hpc]
    exact hl.downCn hc hb hpc
  | downCb hc hb hpc =>
    rw [ownerAfter_call hc (by rcases hpc with hpc | hpc <;> simp [hpc])]
    exact hl.downCb hc hb hpc
  | send hc hpc =>
    simp only [ownerAfter, hc, hpc]
    exact (hl.advance hc (by simp [hpc])).frame rfl rfl rfl
  | count hc hpc =>
    simp only [ownerAfter, hc, hpc]
    exact (hl.advance hc (by simp [hpc])).frame rfl rfl rfl
  | upCb hc hpc =>
    simp only [ownerAfter, hc, hpc]
    exact (hl.advance hc (by simp [hpc])).upCb
  | upCn hc hb hpc =>
    simp only [ownerAfter, hc, hpc]
    exact hl.upCn hc hb hpc
  | answer | deliver | probe | need | callbackAlloc | callbackAllocFail | memcpy =>
    exact hl.frame rfl rfl rfl
  | @finish k b =>
    have hframe : Locked (s.setCallback k { b with pc := .done }) owner := hl.frame rfl rfl rfl
    exact hframe.upCb

theorem locked_init : Locked init none where
  cn := ⟨List.nodup_nil, fun _ => by simp [init, Semaphore.init, WaitsCn]⟩
  cb := ⟨List.nodup_nil, fun _ => by simp [init, Semaphore.init, WaitsCb]⟩
  mutex := ⟨fun _ => ⟨rfl, rfl⟩, fun _ h => by cases h⟩
  holds := fun _ => by simp [init, HoldsCn]

/-! ## The order -/

/-- Has taken `cn_sem`. -/
def Took : Option Call → Prop
  | some c => c.pc ≠ .downCn
  | none => False

/-- How `cn_sjfs_counter` and the message of the holder stand to the order of the calls. -/
def Progress (s : Channel) : Option Nat → Prop
  | none => s.counter = UInt32.ofNat s.order.length
  | some o => ∃ pre c, s.order = pre ++ [o] ∧ s.calls o = some c ∧
      s.counter = UInt32.ofNat (if c.pc.uncounted then pre.length else pre.length + 1) ∧
      (c.pc.sampled = true → ∀ m, c.m = some m → m.seq = s.counter) ∧
      (c.pc.unsent = true → ∀ r ∈ s.sent, r.caller ≠ o)

/-- The numbers on the wire, with the calls that sent them. -/
def stamps (s : Channel) : List (Nat × UInt32) := s.sent.map fun r => (r.caller, r.msg.seq)

/-- Every message carries the number of calls that took `cn_sem` before its own. -/
structure Ordered (s : Channel) (owner : Option Nat) : Prop where
  took : ∀ i, i ∈ s.order ↔ Took (s.calls i)
  stamped : Stamped s.order s.stamps
  progress : Progress s owner

theorem took_update {s : Channel} {i : Nat} {o : Option Call} (h : ∀ j, j ∈ s.order ↔ Took (s.calls j))
    (ho : Took o ↔ Took (s.calls i)) (j : Nat) :
    j ∈ s.order ↔ Took (Function.update s.calls i o j) := by
  by_cases hj : j = i
  · subst hj
    rw [Function.update_self, ho]
    exact h j
  · rw [Function.update_of_ne hj]
    exact h j

namespace Ordered

variable {s t : Channel} {owner : Option Nat} {i : Nat} {c c' : Call}

theorem frame (h : Ordered s owner) (horder : t.order = s.order) (hsent : t.sent = s.sent)
    (hcounter : t.counter = s.counter) (hcalls : t.calls = s.calls) : Ordered t owner := by
  refine ⟨horder ▸ hcalls ▸ h.took, ?_, ?_⟩
  · rw [stamps, hsent, horder]
    exact h.stamped
  · have hp := h.progress
    cases owner with
    | none =>
      simp only [Progress, horder, hcounter] at hp ⊢
      exact hp
    | some o =>
      simp only [Progress, horder, hcounter, hcalls, hsent] at hp ⊢
      exact hp

/-- A call that does not hold the lock, before and after. -/
theorem setOther (h : Ordered s owner) (hne : owner ≠ some i) (htook : Took (some c') ↔ Took (s.calls i)) :
    Ordered (s.setCall i c') owner := by
  refine ⟨took_update h.took htook, h.stamped, ?_⟩
  have hp := h.progress
  cases owner with
  | none => exact hp
  | some o =>
    obtain ⟨pre, d, horder, hd, hrest⟩ := hp
    have hoi : o ≠ i := fun he => hne (he ▸ rfl)
    exact ⟨pre, d, horder, (Function.update_of_ne hoi ..).trans hd, hrest⟩

/-- The holder of the lock, between two operations that neither send nor count. -/
theorem setOwner (h : Ordered s (some i)) (hc : s.calls i = some c) (hpc : c.pc ≠ .downCn)
    (hpc' : c'.pc ≠ .downCn) (hcounted : c'.pc.uncounted = c.pc.uncounted)
    (hunsent : c'.pc.unsent = true → c.pc.unsent = true)
    (hsampled : c'.pc.sampled = true → ∀ m, c'.m = some m → m.seq = s.counter) :
    Ordered (s.setCall i c') (some i) := by
  obtain ⟨pre, d, horder, hd, hcounter, _, hfresh⟩ := h.progress
  obtain rfl : c = d := Option.some.inj (hc.symm.trans hd)
  refine ⟨took_update h.took (hc ▸ iff_of_true hpc' hpc), h.stamped, pre, c', horder,
    Function.update_self .., ?_, hsampled, fun hu => hfresh (hunsent hu)⟩
  rw [hcounted]
  exact hcounter

end Ordered

/-- An operation that changes a call's own record only neither sends nor counts. -/
theorem OwnStep.stage {i : Nat} {seq : UInt32} {buffer : Option ReadBuffer} {c c' : Call} {a : Action}
    (h : OwnStep i seq buffer c a c') :
    c.pc ≠ .downCn ∧ c'.pc ≠ .downCn ∧ c'.pc.uncounted = c.pc.uncounted ∧
      (c'.pc.unsent = true → c.pc.unsent = true) := by
  refine ⟨?_, ?_, ?_, ?_⟩ <;> cases hk : c.kind.isRead <;> cases h <;>
    simp_all [Call.advance, Call.next, Pc.uncounted, Pc.unsent]

/-- The operations of the holder that change its own record only. -/
theorem Ordered.own {s : Channel} {i : Nat} {c c' : Call} {a : Action} (h : Ordered s (some i))
    (hc : s.calls i = some c) (ho : OwnStep i s.counter s.readBuffer c a c') :
    Ordered (s.setCall i c') (some i) := by
  obtain ⟨pre, d, _, hd, _, hsampled, _⟩ := h.progress
  obtain rfl : c = d := Option.some.inj (hc.symm.trans hd)
  obtain ⟨hpc, hpc', hcounted, hunsent⟩ := ho.stage
  refine h.setOwner hc hpc hpc' hcounted hunsent ?_
  intro hs m hm
  cases ho with
  | sample =>
    cases hm
    exact c.header_seq s.counter
  | @copyAll _ m' _ hpc _ hm' =>
    cases hm
    exact hsampled (by simp [hpc, Pc.sampled]) m' hm'
  | alloc hpc hk | allocWrite _ hpc hk => simp [Call.advance, Call.next, hpc, hk, Pc.sampled] at hs
  | allocData hpc | copyToUser hpc => simp [Call.advance, Call.next, hpc, Pc.sampled] at hs
  | allocFail | allocDataFail | copyPart => simp [Pc.sampled] at hs

/-- A call that was released in a queue of `cb_sem` is the holder. -/
theorem Ordered.upCb {s : Channel} {owner : Option Nat} (h : Ordered s owner) (hl : Locked s owner) :
    Ordered s.upCb owner := by
  cases hw : s.cbSem.up.2 with
  | none =>
    refine h.frame rfl rfl rfl ?_
    simp [Channel.upCb, hw, Semaphore.wake]
  | some j =>
    have hwaits := hl.cb.up_waits hw
    obtain rfl := (hl.holds j).mp (holdsCn_of_waitsCb hwaits).1
    cases hd : s.calls j with
    | none => simp [hd, WaitsCb] at hwaits
    | some d =>
      rw [hd] at hwaits
      obtain ⟨_, hpc⟩ := hwaits
      have hset : Ordered (s.setCall j d.advance) (some j) := by
        refine h.setOwner hd ?_ ?_ ?_ ?_ ?_ <;> rcases hpc with hpc | hpc <;>
          simp [hpc, Call.advance, Call.next, Pc.uncounted, Pc.unsent, Pc.sampled]
      refine hset.frame rfl rfl rfl ?_
      simp [Channel.upCb, Channel.setCall, hw, Semaphore.wake, hd]

/-- A call that takes the lock while the counter is at the number of all calls so far comes last, and
gets that number. -/
theorem ordered_of_take {s t : Channel} {j : Nat} {d : Call} (hstamped : Stamped s.order s.stamps)
    (hcounter : s.counter = UInt32.ofNat s.order.length) (hj : j ∉ s.order)
    (hpc : d.pc = .downCn) (hself : t.calls j = some d.advance)
    (htook : ∀ i, i ≠ j → (i ∈ s.order ↔ Took (t.calls i))) (horder : t.order = s.order ++ [j])
    (hsent : t.sent = s.sent) (hsame : t.counter = s.counter) : Ordered t (some j) := by
  have hnext : d.advance.pc = .downCb ∨ d.advance.pc = .kzalloc := by
    cases hk : d.kind.isRead <;> simp [Call.advance, Call.next, hpc, hk]
  refine ⟨fun i => ?_, ?_, s.order, d.advance, horder, hself, ?_, ?_, ?_⟩
  · rw [horder, List.mem_append, List.mem_singleton]
    by_cases hi : i = j
    · subst hi
      rw [hself]
      rcases hnext with hn | hn <;> simp [Took, hn]
    · rw [htook i hi]
      simp [hi]
  · rw [horder, stamps, hsent]
    exact hstamped.grow hj
  · rw [hsame, hcounter]
    rcases hnext with hn | hn <;> simp [hn, Pc.uncounted]
  · intro hs
    rcases hnext with hn | hn <;> simp [hn, Pc.sampled] at hs
  · rintro _ r hr rfl
    rw [hsent] at hr
    exact hj (hstamped.place (r.caller, r.msg.seq) (List.mem_map.mpr ⟨r, hr, rfl⟩)).1

theorem Ordered.downCn {s : Channel} {owner : Option Nat} (h : Ordered s owner) (hl : Locked s owner)
    {i : Nat} {c : Call} (hc : s.calls i = some c) (hpc : c.pc = .downCn) :
    Ordered (s.downCn i c) (if (s.cnSem.down i).2 then some i else owner) := by
  cases ht : (s.cnSem.down i).2 with
  | false =>
    have hne : owner ≠ some i := by
      rintro rfl
      have hh := (hl.holds i).mpr rfl
      simp [hc, HoldsCn, hpc, Pc.holds] at hh
    have hset : Ordered (s.setCall i { c with blocked := true }) owner :=
      h.setOther hne (by simp [hc, Took])
    refine hset.frame ?_ rfl rfl ?_
    · simp [Channel.downCn, Channel.setCall, ht]
    · simp [Channel.downCn, Channel.setCall, ht, Call.downed]
  | true =>
    obtain rfl := hl.mutex.owner_none_of_down ht
    refine ordered_of_take h.stamped h.progress ?_ hpc ?_ (fun j hj => ?_) ?_ rfl rfl
    · rw [h.took i, hc]
      exact fun hne => hne hpc
    · simp [Channel.downCn, Channel.setCall, ht, Call.downed]
    · rw [h.took j]
      simp [Channel.downCn, Channel.setCall, hj]
    · simp [Channel.downCn, ht]

/-- The release: the counter is at the number of all calls so far, and the next call comes last. -/
theorem Ordered.upCn {s : Channel} {i : Nat} (h : Ordered s (some i)) (hl : Locked s (some i))
    {c : Call} (hc : s.calls i = some c) (hb : c.blocked = false) (hpc : c.pc = .upCn) :
    Ordered (s.setCall i c.advance).upCn s.cnSem.up.2 := by
  obtain ⟨pre, d, horder, hd, hcounter, _⟩ := h.progress
  obtain rfl : c = d := Option.some.inj (hc.symm.trans hd)
  have hall : s.counter = UInt32.ofNat s.order.length := by
    rw [hcounter, horder]
    simp [hpc, Pc.uncounted]
  have htook := took_update h.took (i := i) (o := some c.advance)
    (hc ▸ iff_of_true (by simp [Took, Call.advance, Call.next, hpc]) (by simp [Took, hpc]))
  cases hw : s.cnSem.up.2 with
  | none =>
    refine ⟨fun j => ?_, ?_, ?_⟩
    · simpa [Channel.upCn, Channel.setCall, hw, Semaphore.wake] using htook j
    · simpa [Channel.upCn, Channel.setCall, hw, stamps] using h.stamped
    · simpa [Channel.upCn, Channel.setCall, hw, Progress] using hall
  | some j =>
    have hwaits := hl.cn.up_waits hw
    cases hj : s.calls j with
    | none => simp [hj, WaitsCn] at hwaits
    | some d =>
      rw [hj] at hwaits
      have hji : j ≠ i := by
        rintro rfl
        have hdc : d = c := Option.some.inj (hj.symm.trans hc)
        rw [hdc] at hwaits
        simp [WaitsCn, hb] at hwaits
      refine ordered_of_take h.stamped hall ?_ hwaits.2 ?_ (fun k hk => ?_) ?_ rfl rfl
      · rw [h.took j, hj]
        exact fun hne => hne hwaits.2
      · simp [Channel.upCn, Channel.setCall, hw, Semaphore.wake, hji, hj]
      · rw [htook k]
        simp [Channel.upCn, Channel.setCall, hw, Semaphore.wake, hk]
      · simp [Channel.upCn, Channel.setCall, hw]

/-- The message of the holder carries the number of the calls before it. -/
theorem Ordered.send {s : Channel} {i : Nat} (h : Ordered s (some i)) {c : Call} {m : CnMsg}
    (hc : s.calls i = some c) (hpc : c.pc = .send) (hm : c.m = some m) :
    Ordered ((s.setCall i c.advance).netlinkSend i c m) (some i) := by
  obtain ⟨pre, d, horder, hd, hcounter, hsampled, hfresh⟩ := h.progress
  obtain rfl : c = d := Option.some.inj (hc.symm.trans hd)
  have hseq := hsampled (by simp [hpc, Pc.sampled]) m hm
  have hnew := hfresh (by simp [hpc, Pc.unsent])
  simp only [hpc, Pc.uncounted, ↓reduceIte] at hcounter
  refine ⟨took_update h.took (hc ▸ ?_), ?_, pre, c.advance, horder, Function.update_self .., ?_, ?_, ?_⟩
  · exact iff_of_true (by simp [Took, Call.advance, Call.next, hpc]) (by simp [Took, hpc])
  · have hstamped := h.stamped
    simp only [netlinkSend, setCall, stamps, List.map_append, List.map_cons, List.map_nil, horder] at hstamped ⊢
    refine hstamped.stamp ?_ (hseq.trans hcounter)
    intro p hp
    obtain ⟨r, hr, rfl⟩ := List.mem_map.mp hp
    exact hnew r hr
  · show s.counter = _
    simpa [Call.advance, Call.next, hpc, Pc.uncounted] using hcounter
  · simp [Call.advance, Call.next, hpc, Pc.sampled]
  · simp [Call.advance, Call.next, hpc, Pc.unsent]

theorem Ordered.count {s : Channel} {i : Nat} (h : Ordered s (some i)) {c : Call}
    (hc : s.calls i = some c) (hpc : c.pc = .count) :
    Ordered { s.setCall i c.advance with counter := s.counter + 1 } (some i) := by
  obtain ⟨pre, d, horder, hd, hcounter, _⟩ := h.progress
  obtain rfl : c = d := Option.some.inj (hc.symm.trans hd)
  have hnext : c.advance.pc = .downReply ∨ c.advance.pc = .upCn := by
    cases hk : c.kind.isRead <;> simp [Call.advance, Call.next, hpc, hk]
  simp only [hpc, Pc.uncounted, ↓reduceIte] at hcounter
  refine ⟨took_update h.took (hc ▸ ?_), h.stamped, pre, c.advance, horder, Function.update_self .., ?_,
    ?_, ?_⟩
  · refine iff_of_true ?_ (by simp [Took, hpc])
    rcases hnext with hn | hn <;> simp [Took, hn]
  · show s.counter + 1 = _
    rw [hcounter]
    rcases hnext with hn | hn <;> simp [hn, Pc.uncounted]
  · rcases hnext with hn | hn <;> simp [hn, Pc.sampled]
  · rcases hnext with hn | hn <;> simp [hn, Pc.unsent]

theorem ordered_step {s t : Channel} {a : Action} {owner : Option Nat} (hl : Locked s owner)
    (ho : Ordered s owner) (h : Step s a t) : Ordered t (s.ownerAfter a owner) := by
  cases h with
  | @enter i _ _ hc =>
    refine ho.setOther ?_ (by simp [hc, Took])
    rintro rfl
    simpa [hc, HoldsCn] using hl.holds i
  | own hc hown =>
    rw [hown.ownerAfter hc]
    obtain rfl := hl.owner_eq hc hown.spec.2.2.1
    exact ho.own hc hown
  | downCn hc hb hpc =>
    simp only [ownerAfter, hc, hpc]
    exact ho.downCn hl hc hpc
  | @downCb i c hc hb hpc =>
    obtain rfl := hl.owner_eq hc (by rcases hpc with hpc | hpc <;> simp [hpc, Pc.holds])
    rw [ownerAfter_call hc (by rcases hpc with hpc | hpc <;> simp [hpc])]
    have hset : Ordered (s.setCall i (c.downed (s.cbSem.down i).2)) (some i) := by
      refine ho.setOwner hc ?_ ?_ ?_ ?_ ?_ <;> rcases hpc with hpc | hpc <;>
        cases (s.cbSem.down i).2 <;>
        simp [hpc, Call.downed, Call.advance, Call.next, Pc.uncounted, Pc.unsent, Pc.sampled]
    exact hset.frame rfl rfl rfl rfl
  | @send i c m hc hpc hm =>
    obtain rfl := hl.owner_eq hc (by simp [hpc, Pc.holds])
    simp only [ownerAfter, hc, hpc]
    exact ho.send hc hpc hm
  | @count i c hc hpc =>
    obtain rfl := hl.owner_eq hc (by simp [hpc, Pc.holds])
    simp only [ownerAfter, hc, hpc]
    exact ho.count hc hpc
  | @upCb i c hc hpc =>
    obtain rfl := hl.owner_eq hc (by simp [hpc, Pc.holds])
    simp only [ownerAfter, hc, hpc]
    have hset : Ordered (s.setCall i c.advance) (some i) := by
      refine ho.setOwner hc ?_ ?_ ?_ ?_ ?_ <;>
        simp [hpc, Call.advance, Call.next, Pc.uncounted, Pc.unsent, Pc.sampled]
    exact hset.upCb (hl.advance hc (by simp [hpc]))
  | upCn hc hb hpc =>
    obtain rfl := hl.owner_eq hc (by simp [hpc, Pc.holds])
    simp only [ownerAfter, hc, hpc]
    exact ho.upCn hl hc hb hpc
  | answer | deliver | probe | need | callbackAlloc | callbackAllocFail | memcpy =>
    exact ho.frame rfl rfl rfl rfl
  | @finish k b =>
    have hframe : Ordered (s.setCallback k { b with pc := .done }) owner := ho.frame rfl rfl rfl rfl
    exact hframe.upCb (hl.frame rfl rfl rfl)

theorem ordered_init : Ordered init none where
  took := fun _ => by simp [init, Took]
  stamped := .nil
  progress := rfl

end Channel

end PlanA

end Sjfs
