import Sjfs.PlanA.Order

/-!
# Plan a: requests and replies

With a peer that answers every READ once and sends nothing else, and as long as no `kzalloc` of
`sjfs_fops_read` fails, `cb_sem` is used by the holder of `cn_sem` alone, at most one message is in
flight, counting the callback run that handles it (`Flight`), and only while that holder expects it
(`Expects`). If, besides, no `kzalloc` of `cn_sjfs_callback` fails, the buffer that a read copies to
the user is the one its own reply was copied to.

Results:
1. `settled_step`: the invariant.
2. `totallyOrdered_of_allocOk`: the semaphores, the numbers on the wire and the buffers, in every run
   in which allocations succeed.
-/

namespace Sjfs

open Lib

namespace PlanA

/-- The operations on the semaphores, the wire and the counter. -/
def Pc.shared : Pc → Bool
  | .downCn | .downCb | .send | .count | .downReply | .upCb | .upCn => true
  | _ => false

/-- Where the holder of `cn_sem` stands with `cb_sem`: it has not taken it or is done with it, it has
taken it and not sent its request, it has sent it, it is queued in its second `down`, it is past
that, it has released it and not copied the buffer. -/
inductive Part
  | free
  | armed
  | sent
  | waits
  | passed
  | holding
  | outside
deriving DecidableEq, Repr

def Call.part (c : Call) : Part :=
  match c.kind.isRead, c.pc with
  | false, .kzalloc | false, .kzallocData | false, .sample | false, .copyFromUser | false, .send
  | false, .count | false, .upCn => .free
  | true, .downCb | true, .upCn => .free
  | true, .kzalloc | true, .sample | true, .send => .armed
  | true, .count => .sent
  | true, .downReply => if c.blocked then .waits else .sent
  | true, .upCb => .passed
  | true, .copyToUser => .holding
  | _, _ => .outside

namespace Channel

/-! ## What is in flight -/

/-- No message is on its way, and every callback run is over. -/
structure Calm (s : Channel) : Prop where
  wire : s.wire = []
  inbox : s.inbox = []
  quiet : ∀ k b, s.callbacks k = some b → b.pc = .done

/-- `sjfs_read_buffer` is the object that the callback run for the reply to call `o` has filled.
Nothing is said unless `lossless`, the assumption that no callback run lacked memory. -/
def Filled (lossless : Prop) (s : Channel) (o : Nat) : Prop :=
  lossless → ∃ k b, s.callbacks k = some b ∧ b.caller = o ∧ s.readBuffer = some ⟨k, b.msg.bytes⟩

/-- The callback run `k` handles the reply to call `o`, and it is the only one. -/
structure Run (lossless : Prop) (s : Channel) (o k : Nat) (b : Callback) : Prop where
  wire : s.wire = []
  inbox : s.inbox = []
  run : s.callbacks k = some b
  caller : b.caller = o
  pc : b.pc = .trylock ∨ b.pc = .kzalloc ∨ b.pc = .memcpy ∨ b.pc = .up
  others : ∀ l d, l ≠ k → s.callbacks l = some d → d.pc = .done
  buffer : b.pc = .memcpy → ∃ bytes, s.readBuffer = some ⟨k, bytes⟩
  filled : b.pc = .up → lossless → s.readBuffer = some ⟨k, b.msg.bytes⟩

/-- Exactly one message is in flight, and it is the request of `o` or the reply to it. -/
inductive Flight (lossless : Prop) (s : Channel) (o : Nat) : Prop
  | request : s.wire = [o] → s.inbox = [] → (∀ k b, s.callbacks k = some b → b.pc = .done) →
      Flight lossless s o
  | reply (r : Mail) : s.wire = [] → s.inbox = [r] → r.caller = o →
      (∀ k b, s.callbacks k = some b → b.pc = .done) → Flight lossless s o
  | run (k : Nat) (b : Callback) : Run lossless s o k b → Flight lossless s o

/-- What the progress of the holder `o` of `cn_sem` says about `cb_sem`, the messages and the buffer. -/
def Talk (lossless : Prop) (s : Channel) (o : Nat) : Part → Prop
  | .free => s.cbSem = ⟨1, []⟩ ∧ Calm s
  | .armed => s.cbSem = ⟨0, []⟩ ∧ Calm s
  | .sent => (s.cbSem = ⟨0, []⟩ ∧ Flight lossless s o) ∨
      (s.cbSem = ⟨1, []⟩ ∧ Calm s ∧ Filled lossless s o)
  | .waits => s.cbSem = ⟨0, [o]⟩ ∧ Flight lossless s o
  | .passed => s.cbSem = ⟨0, []⟩ ∧ Calm s ∧ Filled lossless s o
  | .holding => s.cbSem = ⟨1, []⟩ ∧ Calm s ∧ Filled lossless s o
  | .outside => False

/-- A holder that has sent its request and finds no unit in `cb_sem`. -/
def Expects (s : Channel) (o : Nat) (p : Part) : Prop :=
  (p = .sent ∧ s.cbSem = ⟨0, []⟩) ∨ (p = .waits ∧ s.cbSem = ⟨0, [o]⟩)

/-- The invariant, when `owner` holds `cn_sem`. -/
def Settled (lossless : Prop) (s : Channel) : Option Nat → Prop
  | none => s.cbSem = ⟨1, []⟩ ∧ Calm s
  | some o => ∃ c, s.calls o = some c ∧ Talk lossless s o c.part

/-! ## Steps that leave the messages alone -/

/-- `cb_sem`, the messages, the callback runs and the buffer are the same. -/
structure SameMessages (s t : Channel) : Prop where
  cbSem : t.cbSem = s.cbSem
  wire : t.wire = s.wire
  inbox : t.inbox = s.inbox
  callbacks : t.callbacks = s.callbacks
  buffer : t.readBuffer = s.readBuffer

section Frame

variable {lossless : Prop} {s t : Channel} {o : Nat} {c : Call}

theorem Calm.frame (h : Calm s) (hwire : t.wire = s.wire) (hinbox : t.inbox = s.inbox)
    (hcb : t.callbacks = s.callbacks) : Calm t :=
  ⟨hwire.trans h.wire, hinbox.trans h.inbox, hcb ▸ h.quiet⟩

theorem SameMessages.calm (h : SameMessages s t) (hc : Calm s) : Calm t :=
  hc.frame h.wire h.inbox h.callbacks

theorem SameMessages.flight (h : SameMessages s t) (hf : Flight lossless s o) :
    Flight lossless t o := by
  cases hf with
  | request hw hi hq => exact .request (h.wire.trans hw) (h.inbox.trans hi) (h.callbacks ▸ hq)
  | reply r hw hi hr hq =>
    exact .reply r (h.wire.trans hw) (h.inbox.trans hi) hr (h.callbacks ▸ hq)
  | run k b hr =>
    exact .run k b ⟨h.wire.trans hr.wire, h.inbox.trans hr.inbox, h.callbacks ▸ hr.run, hr.caller,
      hr.pc, h.callbacks ▸ hr.others, fun hpc => h.buffer ▸ hr.buffer hpc,
      fun hpc hl => h.buffer.trans (hr.filled hpc hl)⟩

theorem SameMessages.filled (h : SameMessages s t) (hf : Filled lossless s o) :
    Filled lossless t o := by
  intro hl
  obtain ⟨k, b, hb, hcaller, hbuffer⟩ := hf hl
  exact ⟨k, b, h.callbacks ▸ hb, hcaller, h.buffer.trans hbuffer⟩

theorem SameMessages.talk (h : SameMessages s t) {p : Part} (ht : Talk lossless s o p) :
    Talk lossless t o p := by
  cases p with
  | free | armed => exact ⟨h.cbSem.trans ht.1, h.calm ht.2⟩
  | waits => exact ⟨h.cbSem.trans ht.1, h.flight ht.2⟩
  | passed | holding => exact ⟨h.cbSem.trans ht.1, h.calm ht.2.1, h.filled ht.2.2⟩
  | sent =>
    rcases ht with ⟨hsem, hf⟩ | ⟨hsem, hc, hf⟩
    · exact .inl ⟨h.cbSem.trans hsem, h.flight hf⟩
    · exact .inr ⟨h.cbSem.trans hsem, h.calm hc, h.filled hf⟩
  | outside => exact ht

/-- A call that does not hold `cn_sem` is none of the invariant's business. -/
theorem Settled.frame {owner : Option Nat} (hs : Settled lossless s owner) (h : SameMessages s t)
    (hcalls : ∀ o, owner = some o → t.calls o = s.calls o) : Settled lossless t owner := by
  cases owner with
  | none => exact ⟨h.cbSem.trans hs.1, h.calm hs.2⟩
  | some o =>
    obtain ⟨c, hc, ht⟩ := hs
    exact ⟨c, (hcalls o rfl).trans hc, h.talk ht⟩

theorem Settled.talk (hs : Settled lossless s (some o)) (hc : s.calls o = some c) :
    Talk lossless s o c.part := by
  obtain ⟨d, hd, htalk⟩ := hs
  obtain rfl : c = d := Option.some.inj (hc.symm.trans hd)
  exact htalk

/-- While something is in flight, the holder of `cn_sem` expects it. -/
theorem Settled.flight {owner : Option Nat} (hs : Settled lossless s owner) (hn : ¬ Calm s) :
    ∃ o c, owner = some o ∧ s.calls o = some c ∧ Expects s o c.part ∧ Flight lossless s o := by
  cases owner with
  | none => exact absurd hs.2 hn
  | some o =>
    obtain ⟨c, hc, ht⟩ := hs
    refine ⟨o, c, rfl, hc, ?_⟩
    cases hp : c.part with
    | free | armed => exact absurd (hp ▸ ht).2 hn
    | passed | holding => exact absurd (hp ▸ ht).2.1 hn
    | outside => exact (hp ▸ ht).elim
    | waits => exact ⟨.inr ⟨rfl, (hp ▸ ht).1⟩, (hp ▸ ht).2⟩
    | sent =>
      rcases hp ▸ ht with ⟨hsem, hf⟩ | ⟨_, hcalm, _⟩
      · exact ⟨.inl ⟨rfl, hsem⟩, hf⟩
      · exact absurd hcalm hn

theorem Expects.talk {p : Part} (h : Expects s o p) (hf : Flight lossless s o) :
    Talk lossless s o p := by
  rcases h with ⟨rfl, hsem⟩ | ⟨rfl, hsem⟩
  · exact .inl ⟨hsem, hf⟩
  · exact ⟨hsem, hf⟩

theorem Expects.count_eq {p : Part} (h : Expects s o p) : s.cbSem.count = 0 := by
  rcases h with ⟨_, hsem⟩ | ⟨_, hsem⟩ <;> rw [hsem]

/-- A callback run that is not over handles the reply in flight. -/
theorem Settled.run {owner : Option Nat} (hs : Settled lossless s owner) {k : Nat} {b : Callback}
    (hb : s.callbacks k = some b) (hpc : b.pc ≠ .done) :
    ∃ o c, owner = some o ∧ s.calls o = some c ∧ Expects s o c.part ∧ Run lossless s o k b := by
  obtain ⟨o, c, rfl, hc, he, hf⟩ := hs.flight fun hcalm => hpc (hcalm.quiet k b hb)
  refine ⟨o, c, rfl, hc, he, ?_⟩
  cases hf with
  | request _ _ hq | reply _ _ _ _ hq => exact absurd (hq k b hb) hpc
  | run l d hr =>
    obtain rfl : k = l := by
      by_contra hne
      exact hpc (hr.others k b hne hb)
    obtain rfl : d = b := Option.some.inj (hr.run.symm.trans hb)
    exact hr

end Frame

/-! ## The invariant -/

/-- No `kzalloc` of `sjfs_fops_read` fails in this step. -/
def ReadAllocOk (s : Channel) (a : Action) : Prop :=
  ∀ i c, a = .kzalloc i false → s.calls i = some c → c.kind.isRead = false

/-- No `kzalloc` of `cn_sjfs_callback` fails in this step. -/
def CallbackAllocOk (a : Action) : Prop := ∀ k, a ≠ .callbackKzalloc k false

/-- The operations of the holder on its own record leave its part as it is, but for the copy to the
user, with which a read is done. -/
theorem OwnStep.part {i : Nat} {seq : UInt32} {buffer : Option ReadBuffer} {c c' : Call} {a : Action}
    (h : OwnStep i seq buffer c a c') (hok : a = .kzalloc i false → c.kind.isRead = false)
    (hin : c.part ≠ .outside) :
    c'.part = c.part ∨ (c.pc = .copyToUser ∧ c.part = .holding ∧ c'.part = .free) := by
  unfold Call.part at hin ⊢
  cases hk : c.kind.isRead <;> cases h <;> simp_all [Call.advance, Call.next]

section Steps

variable {lossless : Prop} {s t : Channel} {i : Nat} {c c' : Call} {a : Action}

theorem Talk.own (h : Talk lossless s i c.part) (ho : OwnStep i s.counter s.readBuffer c a c')
    (hok : a = .kzalloc i false → c.kind.isRead = false) : Talk lossless s i c'.part := by
  have hin : c.part ≠ .outside := fun hp => by simp [hp, Talk] at h
  rcases ho.part hok hin with hp | ⟨_, hp, hp'⟩
  · rwa [hp]
  · rw [hp] at h
    rw [hp']
    exact ⟨h.1, h.2.1⟩

/-- A call that takes `cn_sem` finds `cb_sem` free and nothing in flight. -/
theorem part_of_take (hpc : c.pc = .downCn) : c.advance.part = .free := by
  cases hk : c.kind.isRead <;> simp [Call.part, Call.advance, Call.next, hpc, hk]

theorem settled_downCn {owner : Option Nat} (hl : Locked s owner) (hs : Settled lossless s owner)
    (hc : s.calls i = some c) (hpc : c.pc = .downCn) :
    Settled lossless (s.downCn i c) (if (s.cnSem.down i).2 then some i else owner) := by
  have hsame : SameMessages s (s.downCn i c) := ⟨rfl, rfl, rfl, rfl, rfl⟩
  cases ht : (s.cnSem.down i).2 with
  | false =>
    refine hs.frame hsame fun o ho => Function.update_of_ne ?_ ..
    rintro rfl
    have hh := (hl.holds o).mpr ho
    simp [hc, HoldsCn, hpc, Pc.holds] at hh
  | true =>
    obtain rfl := hl.mutex.owner_none_of_down ht
    refine ⟨c.advance, ?_, hsame.talk ?_⟩
    · simp [Channel.downCn, Channel.setCall, ht, Call.downed]
    · rw [part_of_take hpc]
      exact hs

theorem settled_upCn (hl : Locked s (some i)) (hs : Settled lossless s (some i))
    (hc : s.calls i = some c) (hb : c.blocked = false) (hpc : c.pc = .upCn) :
    Settled lossless (s.setCall i c.advance).upCn s.cnSem.up.2 := by
  have hsame : SameMessages s (s.setCall i c.advance).upCn := ⟨rfl, rfl, rfl, rfl, rfl⟩
  have htalk := hs.talk hc
  have hfree : Talk lossless s i .free := by
    have hp : c.part = .free := by cases hk : c.kind.isRead <;> simp [Call.part, hpc, hk]
    rwa [hp] at htalk
  cases hw : s.cnSem.up.2 with
  | none => exact hsame.talk hfree
  | some j =>
    have hwaits := hl.cn.up_waits hw
    cases hj : s.calls j with
    | none => simp [hj, WaitsCn] at hwaits
    | some d =>
      rw [hj] at hwaits
      have hji : j ≠ i := by
        rintro rfl
        have hdc : d = c := Option.some.inj (hj.symm.trans hc)
        rw [hdc] at hwaits
        simp [WaitsCn, hb] at hwaits
      refine ⟨d.advance, ?_, hsame.talk ?_⟩
      · simp [Channel.upCn, Channel.setCall, hw, Semaphore.wake, hji, hj]
      · rw [part_of_take hwaits.2]
        exact hfree

/-- The two `down(&cb_sem)` of a read. The first one finds the unit of `init_sjfs_fs`; the second one
waits, unless the reply has been handled already. -/
theorem settled_downCb (h : Talk lossless s i c.part) (hb : c.blocked = false)
    (hpc : c.pc = .downCb ∨ c.pc = .downReply) : Settled lossless (s.downCb i c) (some i) := by
  refine ⟨c.downed (s.cbSem.down i).2, Function.update_self .., ?_⟩
  have hread : c.kind.isRead = true := by
    by_contra hk
    rcases hpc with hpc | hpc <;> simp [Call.part, hpc, hk, Talk] at h
  have htook : ∀ {n : Nat}, s.cbSem = ⟨n + 1, []⟩ → s.cbSem.down i = (⟨n, []⟩, true) := by
    intro n hsem
    rw [hsem]
    rfl
  rcases hpc with hpc | hpc
  · have hfree : Talk lossless s i .free := by simpa [Call.part, hpc, hread] using h
    have hdown := htook hfree.1
    have hpart : (c.downed true).part = .armed := by
      simp [Call.downed, Call.advance, Call.next, hpc, Call.part, hread]
    rw [hdown, hpart]
    refine ⟨?_, hfree.2.frame rfl rfl rfl⟩
    simp [Channel.downCb, hdown]
  · have hsent : Talk lossless s i .sent := by simpa [Call.part, hpc, hread, hb] using h
    rcases hsent with ⟨hsem, hf⟩ | ⟨hsem, hcalm, hf⟩
    · have hdown : s.cbSem.down i = (⟨0, [i]⟩, false) := by
        rw [hsem]
        rfl
      have hpart : (c.downed false).part = .waits := by simp [Call.downed, hpc, Call.part, hread]
      rw [hdown, hpart]
      refine ⟨?_, ?_⟩
      · simp [Channel.downCb, hdown]
      · cases hf with
        | request hw hi hq => exact .request hw hi hq
        | reply r hw hi hr hq => exact .reply r hw hi hr hq
        | run k b hr =>
          exact .run k b ⟨hr.wire, hr.inbox, hr.run, hr.caller, hr.pc, hr.others, hr.buffer, hr.filled⟩
    · have hdown := htook hsem
      have hpart : (c.downed true).part = .passed := by
        simp [Call.downed, Call.advance, Call.next, hpc, Call.part, hread]
      rw [hdown, hpart]
      refine ⟨?_, hcalm.frame rfl rfl rfl, hf⟩
      simp [Channel.downCb, hdown]

/-- The send puts the request of a read in flight, and leaves no trace of a write. -/
theorem settled_send {m : CnMsg} (h : Talk lossless s i c.part) (hpc : c.pc = .send) :
    Settled lossless ((s.setCall i c.advance).netlinkSend i c m) (some i) := by
  refine ⟨c.advance, Function.update_self .., ?_⟩
  cases hk : c.kind.isRead with
  | true =>
    have harmed : Talk lossless s i .armed := by simpa [Call.part, hpc, hk] using h
    have hpart : c.advance.part = .sent := by
      simp [Call.advance, Call.next, hpc, Call.part, hk]
    rw [hpart]
    refine .inl ⟨harmed.1, .request ?_ harmed.2.inbox harmed.2.quiet⟩
    simp [netlinkSend, setCall, hk, harmed.2.wire]
  | false =>
    have hfree : Talk lossless s i .free := by simpa [Call.part, hpc, hk] using h
    have hpart : c.advance.part = .free := by
      simp [Call.advance, Call.next, hpc, Call.part, hk]
    rw [hpart]
    refine ⟨hfree.1, hfree.2.frame ?_ rfl rfl⟩
    simp [netlinkSend, setCall, hk]

theorem part_count (hpc : c.pc = .count) : c.advance.part = c.part := by
  cases hk : c.kind.isRead <;> simp [Call.advance, Call.next, hpc, Call.part, hk]

theorem Talk.passed_of_upCb (h : Talk lossless s i c.part) (hpc : c.pc = .upCb) :
    c.kind.isRead = true ∧ Talk lossless s i .passed := by
  cases hk : c.kind.isRead with
  | true => exact ⟨rfl, by simpa [Call.part, hpc, hk] using h⟩
  | false => simp [Call.part, hpc, hk, Talk] at h

/-- Nobody is released by an `up(&cb_sem)` while nobody waits. -/
theorem upCb_of_nil {n : Nat} (h : s.cbSem = ⟨n, []⟩) :
    s.upCb.cbSem = ⟨n + 1, []⟩ ∧ s.upCb.calls = s.calls := by
  have hup : s.cbSem.up = (⟨n + 1, []⟩, none) := by
    rw [h]
    rfl
  simp [Channel.upCb, hup, Semaphore.wake]

/-- A read that was told of its reply releases `cb_sem`. -/
theorem settled_upCb (h : Talk lossless s i c.part) (hpc : c.pc = .upCb) :
    Settled lossless (s.setCall i c.advance).upCb (some i) := by
  obtain ⟨hread, hpassed⟩ := h.passed_of_upCb hpc
  have hset : (s.setCall i c.advance).cbSem = ⟨0, []⟩ := hpassed.1
  obtain ⟨hsem, hcalls⟩ := upCb_of_nil hset
  have hpart : c.advance.part = .holding := by
    simp [Call.advance, Call.next, hpc, Call.part, hread]
  refine ⟨c.advance, ?_, ?_⟩
  · rw [hcalls]
    exact Function.update_self ..
  · rw [hpart]
    exact ⟨hsem, hpassed.2.1.frame rfl rfl rfl, hpassed.2.2⟩

theorem settled_answer {owner : Option Nat} (hs : Settled lossless s owner) {k o : Nat}
    {msg : Response} (hk : s.wire[k]? = some o) :
    Settled lossless { s with wire := s.wire.eraseIdx k, inbox := s.inbox ++ [⟨o, msg⟩] } owner := by
  have hne : s.wire ≠ [] := fun h => by simp [h] at hk
  obtain ⟨o', c, rfl, hc, he, hf⟩ := hs.flight fun hcalm => hne hcalm.wire
  refine ⟨c, hc, Expects.talk he ?_⟩
  cases hf with
  | reply r hw => exact absurd hw hne
  | run l b hr => exact absurd hr.wire hne
  | request hw hi hq =>
    obtain ⟨rfl, rfl⟩ : k = 0 ∧ o' = o := by
      rw [hw] at hk
      cases k <;> simp_all
    refine .reply ⟨o', msg⟩ ?_ ?_ rfl hq
    · simp [hw]
    · simp [hi]

theorem settled_deliver {owner : Option Nat} (hs : Settled lossless s owner) {k : Nat} {r : Mail}
    (hk : s.inbox[k]? = some r) :
    Settled lossless { s.setCallback s.delivered ⟨r.caller, r.msg, .trylock⟩ with
      inbox := s.inbox.eraseIdx k
      delivered := s.delivered + 1 } owner := by
  have hne : s.inbox ≠ [] := fun h => by simp [h] at hk
  obtain ⟨o, c, rfl, hc, he, hf⟩ := hs.flight fun hcalm => hne hcalm.inbox
  refine ⟨c, hc, Expects.talk he ?_⟩
  cases hf with
  | request _ hi => exact absurd hi hne
  | run l b hr => exact absurd hr.inbox hne
  | reply r' hw hi hr hq =>
    obtain ⟨rfl, rfl⟩ : k = 0 ∧ r' = r := by
      rw [hi] at hk
      cases k <;> simp_all
    refine .run s.delivered ⟨r'.caller, r'.msg, .trylock⟩
      ⟨hw, ?_, Function.update_self .., hr, .inl rfl, fun l d hl hd => ?_, ?_, ?_⟩
    · simp [hi]
    · exact hq l d ((Function.update_of_ne hl ..).symm.trans hd)
    · intro hpc
      cases hpc
    · intro hpc
      cases hpc

/-- The run that handles the reply makes an operation that ends neither it nor the wait. -/
theorem Run.next {o k : Nat} {b : Callback} (hr : Run lossless s o k b) {pc : CbPc}
    {buffer : Option ReadBuffer} (hpc : pc = .kzalloc ∨ pc = .memcpy ∨ pc = .up)
    (hbuffer : pc = .memcpy → ∃ bytes, buffer = some ⟨k, bytes⟩)
    (hfilled : pc = .up → lossless → buffer = some ⟨k, b.msg.bytes⟩) :
    Run lossless { s.setCallback k { b with pc := pc } with readBuffer := buffer } o k
      { b with pc := pc } where
  wire := hr.wire
  inbox := hr.inbox
  run := Function.update_self ..
  caller := hr.caller
  pc := .inr hpc
  others := fun l d hl hd => hr.others l d hl ((Function.update_of_ne hl ..).symm.trans hd)
  buffer := hbuffer
  filled := hfilled

theorem settled_callback {owner : Option Nat} (hs : Settled lossless s owner) {k : Nat} {b : Callback}
    (hb : s.callbacks k = some b) (hne : b.pc ≠ .done) {pc : CbPc} {buffer : Option ReadBuffer}
    (hpc : pc = .kzalloc ∨ pc = .memcpy ∨ pc = .up)
    (hbuffer : ∀ o, Run lossless s o k b → pc = .memcpy → ∃ bytes, buffer = some ⟨k, bytes⟩)
    (hfilled : ∀ o, Run lossless s o k b → pc = .up → lossless →
      buffer = some ⟨k, b.msg.bytes⟩) :
    Settled lossless { s.setCallback k { b with pc := pc } with readBuffer := buffer } owner := by
  obtain ⟨o, c, rfl, hc, he, hr⟩ := hs.run hb hne
  exact ⟨c, hc, Expects.talk he (.run k _ (hr.next hpc (hbuffer o hr) (hfilled o hr)))⟩

/-- The run that handled the reply ends: its `up` is for the holder, which waits for it or will not
have to. -/
theorem settled_finish {owner : Option Nat} (hs : Settled lossless s owner) {k : Nat} {b : Callback}
    (hb : s.callbacks k = some b) (hpc : b.pc = .release ∨ b.pc = .up) :
    Settled lossless (s.setCallback k { b with pc := .done }).upCb owner := by
  have hne : b.pc ≠ .done := by rcases hpc with hpc | hpc <;> simp [hpc]
  obtain ⟨o, c, rfl, hc, he, hr⟩ := hs.run hb hne
  have hup : b.pc = .up := by
    rcases hpc with hpc | hpc
    · rcases hr.pc with hp | hp | hp | hp <;> simp [hpc] at hp
    · exact hpc
  have hcalm : Calm (s.setCallback k { b with pc := .done }).upCb := by
    refine ⟨hr.wire, hr.inbox, fun l d hd => ?_⟩
    by_cases hl : l = k
    · subst hl
      have hself : some { b with pc := .done } = some d :=
        (Function.update_self (f := s.callbacks) ..).symm.trans hd
      cases hself
      rfl
    · exact hr.others l d hl ((Function.update_of_ne hl ..).symm.trans hd)
  have hfill : Filled lossless (s.setCallback k { b with pc := .done }).upCb o :=
    fun hloss => ⟨k, { b with pc := .done }, Function.update_self .., hr.caller, hr.filled hup hloss⟩
  rcases he with ⟨hp, hsem⟩ | ⟨hp, hsem⟩
  · have hups : s.cbSem.up = (⟨1, []⟩, none) := by
      rw [hsem]
      rfl
    refine ⟨c, ?_, ?_⟩
    · simp [Channel.upCb, setCallback, hups, Semaphore.wake, hc]
    · rw [hp]
      refine .inr ⟨?_, hcalm, hfill⟩
      simp [Channel.upCb, setCallback, hups]
  · have hups : s.cbSem.up = (⟨0, []⟩, some o) := by
      rw [hsem]
      rfl
    have hpart : c.advance.part = .passed := by
      unfold Call.part at hp
      cases hk : c.kind.isRead <;> cases hpc : c.pc <;> cases hbl : c.blocked <;>
        simp_all [Call.part, Call.advance, Call.next]
    refine ⟨c.advance, ?_, ?_⟩
    · simp [Channel.upCb, setCallback, hups, Semaphore.wake, hc]
    · rw [hpart]
      refine ⟨?_, hcalm, hfill⟩
      simp [Channel.upCb, setCallback, hups]

theorem settled_step {owner : Option Nat} (hl : Locked s owner) (hs : Settled lossless s owner)
    (hread : ReadAllocOk s a) (hloss : lossless → CallbackAllocOk a) (h : Step s a t) :
    Settled lossless t (s.ownerAfter a owner) := by
  cases h with
  | @enter i _ _ hc =>
    refine hs.frame ⟨rfl, rfl, rfl, rfl, rfl⟩ fun o ho => Function.update_of_ne ?_ ..
    rintro rfl
    have hh := (hl.holds o).mpr ho
    simp [hc, HoldsCn] at hh
  | @own i c c' _ hc ho =>
    rw [ho.ownerAfter hc]
    obtain rfl := hl.owner_eq hc ho.spec.2.2.1
    have htalk := hs.talk hc
    have hsame : SameMessages s (s.setCall i c') := ⟨rfl, rfl, rfl, rfl, rfl⟩
    exact ⟨c', Function.update_self .., hsame.talk (htalk.own ho fun he => hread i c he hc)⟩
  | downCn hc hb hpc =>
    simp only [ownerAfter, hc, hpc]
    exact settled_downCn hl hs hc hpc
  | @downCb i c hc hb hpc =>
    obtain rfl := hl.owner_eq hc (by rcases hpc with hpc | hpc <;> simp [hpc, Pc.holds])
    have htalk := hs.talk hc
    rw [ownerAfter_call hc (by rcases hpc with hpc | hpc <;> simp [hpc])]
    exact settled_downCb htalk hb hpc
  | @send i c m hc hpc hm =>
    obtain rfl := hl.owner_eq hc (by simp [hpc, Pc.holds])
    have htalk := hs.talk hc
    simp only [ownerAfter, hc, hpc]
    exact settled_send htalk hpc
  | @count i c hc hpc =>
    obtain rfl := hl.owner_eq hc (by simp [hpc, Pc.holds])
    have htalk := hs.talk hc
    simp only [ownerAfter, hc, hpc]
    have hsame : SameMessages s { s.setCall i c.advance with counter := s.counter + 1 } :=
      ⟨rfl, rfl, rfl, rfl, rfl⟩
    exact ⟨c.advance, Function.update_self .., hsame.talk (part_count hpc ▸ htalk)⟩
  | @upCb i c hc hpc =>
    obtain rfl := hl.owner_eq hc (by simp [hpc, Pc.holds])
    have htalk := hs.talk hc
    simp only [ownerAfter, hc, hpc]
    exact settled_upCb htalk hpc
  | upCn hc hb hpc =>
    obtain rfl := hl.owner_eq hc (by simp [hpc, Pc.holds])
    simp only [ownerAfter, hc, hpc]
    exact settled_upCn hl hs hc hb hpc
  | answer hk => exact settled_answer hs hk
  | deliver hk => exact settled_deliver hs hk
  | probe hb hpc hpos =>
    obtain ⟨o, c, rfl, hc, he, hr⟩ := hs.run hb (by simp [hpc])
    have := he.count_eq
    omega
  | @need k b hb hpc hzero =>
    have hnext : Settled lossless { s.setCallback k { b with pc := .kzalloc } with
        readBuffer := s.readBuffer } owner :=
      settled_callback hs hb (by simp [hpc]) (.inl rfl) (by simp) (by simp)
    exact hnext
  | callbackAlloc hb hpc =>
    exact settled_callback hs hb (by simp [hpc]) (.inr (.inl rfl)) (fun _ _ _ => ⟨_, rfl⟩) (by simp)
  | @callbackAllocFail k b hb hpc =>
    refine settled_callback hs hb (by simp [hpc]) (.inr (.inr rfl)) (by simp) fun _ _ _ hl => ?_
    exact absurd rfl (hloss hl k)
  | memcpy hb hpc =>
    refine settled_callback hs hb (by simp [hpc]) (.inr (.inr rfl)) (by simp) fun o hr _ _ => ?_
    obtain ⟨bytes, hbuffer⟩ := hr.buffer hpc
    simp [hbuffer]
  | finish hb hpc => exact settled_finish hs hb hpc

theorem settled_init : Settled lossless init none :=
  ⟨rfl, rfl, rfl, fun _ _ h => by cases h⟩

end Steps

/-! ## What a read copied -/

/-- Callback runs are numbered in the order of their delivery. -/
def Fresh (s : Channel) : Prop := ∀ k, s.delivered ≤ k → s.callbacks k = none

theorem fresh_step {s t : Channel} {a : Action} (h : Step s a t) (hf : Fresh s) : Fresh t := by
  have hset : ∀ {k : Nat} {b b' : Callback}, s.callbacks k = some b →
      ∀ l, s.delivered ≤ l → Function.update s.callbacks k (some b') l = none := by
    intro k b b' hb l hl
    rw [Function.update_of_ne]
    · exact hf l hl
    · rintro rfl
      simp [hf l hl] at hb
  cases h with
  | deliver =>
    intro l hl
    have hlt : s.delivered < l := hl
    exact (Function.update_of_ne (Nat.ne_of_gt hlt) ..).trans (hf l (Nat.le_of_lt hlt))
  | probe hb | need hb | callbackAlloc hb | callbackAllocFail hb | memcpy hb | finish hb =>
    exact hset hb
  | enter | own | downCn | downCb | send | count | upCb | upCn | answer => exact hf

/-- A callback run keeps its message. -/
theorem callback_step {s t : Channel} {a : Action} (h : Step s a t) (hf : Fresh s) {k : Nat}
    {b : Callback} (hb : s.callbacks k = some b) :
    ∃ b', t.callbacks k = some b' ∧ b'.caller = b.caller ∧ b'.msg = b.msg := by
  have hset : ∀ {l : Nat} {d d' : Callback}, s.callbacks l = some d → d'.caller = d.caller →
      d'.msg = d.msg →
      ∃ b', Function.update s.callbacks l (some d') k = some b' ∧ b'.caller = b.caller ∧
        b'.msg = b.msg := by
    intro l d d' hd hcaller hmsg
    by_cases hl : k = l
    · subst hl
      rw [hb] at hd
      cases hd
      exact ⟨d', Function.update_self .., hcaller, hmsg⟩
    · exact ⟨b, (Function.update_of_ne hl ..).trans hb, rfl, rfl⟩
  cases h with
  | deliver =>
    have hne : k ≠ s.delivered := by
      rintro rfl
      simp [hf _ (Nat.le_refl _)] at hb
    exact ⟨b, (Function.update_of_ne hne ..).trans hb, rfl, rfl⟩
  | probe hd | need hd | callbackAlloc hd | callbackAllocFail hd | memcpy hd | finish hd =>
    exact hset hd rfl rfl
  | enter | own | downCn | downCb | send | count | upCb | upCn | answer => exact ⟨b, hb, rfl, rfl⟩

/-- Call `i` has copied the buffer that was filled from the reply to it. -/
def CopiedOwn (s : Channel) (i : Nat) (c : Call) : Prop :=
  ∃ k b, s.callbacks k = some b ∧ b.caller = i ∧ c.copied = some (some ⟨k, b.msg.bytes⟩)

/-- So has every read that is past its `copy_to_user`. -/
def Returned (s : Channel) : Prop :=
  ∀ i c, s.calls i = some c → c.kind.isRead = true → c.pc = .upCn ∨ c.pc = .done → CopiedOwn s i c

/-- The ways a step can change the record `o` of call `j` to `c'`, when `cn_sjfs_counter` is at `seq`
and `sjfs_read_buffer` is `buffer`. -/
inductive CallStep (j : Nat) (seq : UInt32) (buffer : Option ReadBuffer) (a : Action) :
    Option Call → Call → Prop
  | same {c : Call} : CallStep j seq buffer a (some c) c
  | before {o : Option Call} {c' : Call} : c'.pc = .downCn → CallStep j seq buffer a o c'
  | own {c c' : Call} : OwnStep j seq buffer c a c' → CallStep j seq buffer a (some c) c'
  | move {c : Call} : c.pc.shared = true → CallStep j seq buffer a (some c) c.advance
  | block {c : Call} : c.pc = .downCb ∨ c.pc = .downReply →
      CallStep j seq buffer a (some c) { c with blocked := true }

theorem callStep_update {s : Channel} {a : Action} {i j : Nat} {d c' : Call}
    (h : Function.update s.calls i (some d) j = some c')
    (hd : CallStep i s.counter s.readBuffer a (s.calls i) d) :
    CallStep j s.counter s.readBuffer a (s.calls j) c' := by
  rcases Semaphore.update_eq_some h with ⟨rfl, rfl⟩ | h
  · exact hd
  · rw [h]
    exact .same

/-- A waiter that is released has made its `down`. -/
theorem callStep_wake {s : Channel} {calls : Nat → Option Call} {a : Action} {j : Nat} {c' : Call}
    {w : Option Nat} (h : Semaphore.wake Call.advance calls w j = some c')
    (hw : ∀ i, w = some i → calls i = s.calls i ∧ (WaitsCn (s.calls i) ∨ WaitsCb (s.calls i)))
    (hrest : calls j = some c' → CallStep j s.counter s.readBuffer a (s.calls j) c') :
    CallStep j s.counter s.readBuffer a (s.calls j) c' := by
  rcases Semaphore.wake_eq_some h with h | ⟨hj, d, hd, rfl⟩
  · exact hrest h
  · obtain ⟨hsame, hwaits⟩ := hw j hj
    rw [← hsame, hd] at hwaits ⊢
    refine .move ?_
    rcases hwaits with ⟨_, hpc⟩ | ⟨_, hpc | hpc⟩ <;> simp [hpc, Pc.shared]

theorem step_call {s t : Channel} {a : Action} {owner : Option Nat} (hl : Locked s owner)
    (h : Step s a t) {j : Nat} {c' : Call} (hc' : t.calls j = some c') :
    CallStep j s.counter s.readBuffer a (s.calls j) c' := by
  have hother : ∀ {i : Nat} {c d : Call}, s.calls i = some c → Free (some c) →
      ∀ l, WaitsCn (s.calls l) ∨ WaitsCb (s.calls l) →
        Function.update s.calls i (some d) l = s.calls l := by
    intro i c d hc hfree l hwaits
    refine Function.update_of_ne ?_ ..
    rintro rfl
    rw [hc] at hwaits
    exact hwaits.elim hfree.1 hfree.2
  cases h with
  | enter hc => exact callStep_update hc' (.before rfl)
  | own hc ho => exact callStep_update hc' (hc ▸ .own ho)
  | @downCn i c hc hb hpc =>
    refine callStep_update hc' ?_
    rw [hc]
    cases (s.cnSem.down i).2 with
    | true => exact .move (by simp [hpc, Pc.shared])
    | false => exact .before hpc
  | @downCb i c hc hb hpc =>
    refine callStep_update hc' ?_
    rw [hc]
    cases (s.cbSem.down i).2 with
    | true => exact .move (by rcases hpc with hpc | hpc <;> simp [hpc, Pc.shared])
    | false => exact .block hpc
  | send hc hpc | count hc hpc => exact callStep_update hc' (hc ▸ .move (by simp [hpc, Pc.shared]))
  | @upCb i c hc hpc =>
    have hfree : Free (some c) := free_of_pc (by simp [hpc])
    refine callStep_wake hc' (fun l hl' => ?_) fun hset =>
      callStep_update hset (hc ▸ .move (by simp [hpc, Pc.shared]))
    have hwaits := hl.cb.up_waits hl'
    exact ⟨hother hc hfree l (.inr hwaits), .inr hwaits⟩
  | upCn hc hb hpc =>
    refine callStep_wake hc' (fun l hl' => ?_) fun hset =>
      callStep_update hset (hc ▸ .move (by simp [hpc, Pc.shared]))
    have hwaits := hl.cn.up_waits hl'
    exact ⟨hother hc (free_of_unblocked hb) l (.inl hwaits), .inl hwaits⟩
  | answer | deliver | probe | need | callbackAlloc | callbackAllocFail | memcpy =>
    have hsame : s.calls j = some c' := hc'
    exact hsame ▸ .same
  | finish =>
    refine callStep_wake hc' (fun l hl' => ⟨rfl, .inr (hl.cb.up_waits hl')⟩) fun hset => ?_
    have hsame : s.calls j = some c' := hset
    exact hsame ▸ .same

theorem returned_step {s t : Channel} {a : Action} {owner : Option Nat} (hl : Locked s owner)
    (hs : Settled True s owner) (hf : Fresh s) (hr : Returned s) (h : Step s a t) : Returned t := by
  intro i c' hc' hk hpc
  have hkeep : ∀ {c : Call}, CopiedOwn s i c → c'.copied = c.copied → CopiedOwn t i c' := by
    rintro c ⟨k, b, hb, hcaller, hcopied⟩ hsame
    obtain ⟨b', hb', hcaller', hmsg'⟩ := callback_step h hf hb
    exact ⟨k, b', hb', hcaller'.trans hcaller, by rw [hsame, hcopied, hmsg']⟩
  have hcall := step_call hl h hc'
  cases hc : s.calls i with
  | none =>
    rw [hc] at hcall
    cases hcall with
    | before hp => simp [hp] at hpc
  | some c =>
    rw [hc] at hcall
    cases hcall with
    | same => exact hkeep (hr i c' hc hk hpc) rfl
    | before hp => simp [hp] at hpc
    | block hp =>
      have hpc' : c.pc = .upCn ∨ c.pc = .done := hpc
      rcases hp with hp | hp <;> simp [hp] at hpc'
    | move hp =>
      have hk' : c.kind.isRead = true := hk
      have hold : c.pc = .upCn ∨ c.pc = .done := by
        cases hcpc : c.pc <;> simp_all [Call.advance, Call.next, Pc.shared]
      exact hkeep (hr i c hc hk' hold) rfl
    | own ho =>
      have hcopy : c.pc = .copyToUser ∧ c'.copied = some s.readBuffer := by
        cases ho with
        | copyToUser hp => exact ⟨hp, rfl⟩
        | sample hp => cases hkc : c.kind.isRead <;> simp [Call.advance, Call.next, hp, hkc] at hpc
        | _ => simp_all [Call.advance, Call.next]
      -- the holder has been told of its reply
      obtain rfl := hl.owner_eq hc (by simp [hcopy.1, Pc.holds])
      have htalk := hs.talk hc
      have hpart : c.part = .holding := by
        cases hkc : c.kind.isRead with
        | true => simp [Call.part, hcopy.1, hkc]
        | false => simp [Call.part, hcopy.1, hkc, Talk] at htalk
      rw [hpart] at htalk
      obtain ⟨k, b, hb, hcaller, hbuffer⟩ := htalk.2.2 trivial
      obtain ⟨b', hb', hcaller', hmsg'⟩ := callback_step h hf hb
      exact ⟨k, b', hb', hcaller'.trans hcaller, by rw [hcopy.2, hbuffer, hmsg']⟩

/-! ## Totally ordered requests -/

/-- No allocation fails in this step. -/
def AllocOk (a : Action) : Prop :=
  (∀ i, a ≠ .kzalloc i false) ∧ ∀ k, a ≠ .callbackKzalloc k false

/-- Requests are totally ordered, and each read gets its own reply. `order.idxOf i` is the number of
calls that took `cn_sem` before call `i`. -/
structure TotallyOrdered (s : Channel) : Prop where
  cn_le : s.cnSem.count ≤ 1
  cb_le : s.cbSem.count ≤ 1
  order_nodup : s.order.Nodup
  took : ∀ i, i ∈ s.order ↔ ∃ c, s.calls i = some c ∧ c.pc ≠ .downCn
  seq : ∀ r ∈ s.sent, r.caller ∈ s.order ∧ r.msg.seq = UInt32.ofNat (s.order.idxOf r.caller)
  increasing : s.sent.Pairwise fun r r' => s.order.idxOf r.caller < s.order.idxOf r'.caller
  distinct : ∀ (j k : Nat) (r r' : Request), j < k → s.sent[j]? = some r → s.sent[k]? = some r' →
    s.order.idxOf r'.caller < s.order.idxOf r.caller + 2 ^ 32 → r.msg.seq ≠ r'.msg.seq
  own_reply : ∀ i c, s.calls i = some c → c.kind.isRead = true → c.pc = .upCn ∨ c.pc = .done →
    ∃ k b, s.callbacks k = some b ∧ b.caller = i ∧ c.copied = some (some ⟨k, b.msg.bytes⟩)

/-- The invariant of the runs in which no allocation fails. -/
structure Served (s : Channel) (owner : Option Nat) : Prop where
  locked : Locked s owner
  ordered : Ordered s owner
  settled : Settled True s owner
  fresh : Fresh s
  returned : Returned s

theorem served_step {s t : Channel} {a : Action} {owner : Option Nat} (hs : Served s owner)
    (hok : AllocOk a) (h : Step s a t) : Served t (s.ownerAfter a owner) where
  locked := locked_step hs.locked h
  ordered := ordered_step hs.locked hs.ordered h
  settled := settled_step hs.locked hs.settled (fun i _ he => absurd he (hok.1 i)) (fun _ => hok.2) h
  fresh := fresh_step h hs.fresh
  returned := returned_step hs.locked hs.settled hs.fresh hs.returned h

theorem served_init : Served init none where
  locked := locked_init
  ordered := ordered_init
  settled := settled_init
  fresh := fun _ _ => rfl
  returned := fun _ _ h => by cases h

theorem Settled.count_le {lossless : Prop} {s : Channel} {owner : Option Nat}
    (hs : Settled lossless s owner) : s.cbSem.count ≤ 1 := by
  cases owner with
  | none => rw [hs.1]
  | some o =>
    obtain ⟨c, _, ht⟩ := hs
    cases hp : c.part with
    | outside => exact (hp ▸ ht).elim
    | sent => rcases hp ▸ ht with ⟨hsem, _⟩ | ⟨hsem, _⟩ <;> simp [hsem]
    | free | armed | waits | passed | holding =>
      have hsem := (hp ▸ ht).1
      simp [hsem]

theorem Served.totallyOrdered {s : Channel} {owner : Option Nat} (hs : Served s owner) :
    TotallyOrdered s := by
  have hst := hs.ordered.stamped
  refine ⟨hs.locked.mutex.count_le, hs.settled.count_le, hst.nodup, fun i => ?_, fun r hr => ?_,
    ?_, ?_, hs.returned⟩
  · rw [hs.ordered.took i]
    cases s.calls i <;> simp [Took]
  · exact hst.place (r.caller, r.msg.seq) (List.mem_map.mpr ⟨r, hr, rfl⟩)
  · have hincreasing := hst.increasing
    rwa [stamps, List.pairwise_map] at hincreasing
  · intro j k r r' hjk hr hr' hnear
    refine hst.distinct (p := (r.caller, r.msg.seq)) (q := (r'.caller, r'.msg.seq)) hjk ?_ ?_ hnear
    · simp [stamps, hr]
    · simp [stamps, hr']

/-- In every run in which allocations succeed, with any number of reads and writes under way, the
requests are totally ordered and each read gets its own reply. -/
theorem totallyOrdered_of_allocOk {s : Channel} (h : Reach step (fun _ a => AllocOk a) init s) :
    TotallyOrdered s := by
  have hinv : ∃ owner, Served s owner := by
    refine h.invariant (I := fun s => ∃ owner, Served s owner) ⟨none, served_init⟩ ?_
    rintro s a t ⟨owner, hs⟩ hok hstep
    exact ⟨_, served_step hs hok (step_cases hstep)⟩
  obtain ⟨owner, hs⟩ := hinv
  exact hs.totallyOrdered

/-- The arguments of a call that asks for `count` bytes of file 7. -/
def someIo (count : Nat) : Io := ⟨7, 0, count, fun _ => 0⟩

/-- A read of one byte, a write of one byte that is copied, so that nothing is sent for it, and a
write of no bytes. The first write is queued behind the read. -/
def readAndWrites : List Action :=
  [.enter 0 .read (someIo 1), .enter 1 (.write fun _ => 5) (someIo 1), .call 0, .call 1, .call 0,
    .kzalloc 0 true, .call 0, .call 0, .answer 0 ⟨1, fun _ => 9⟩, .call 0, .call 0, .deliver 0,
    .callback 0, .callbackKzalloc 0 true, .callback 0, .callback 0, .call 0, .call 0, .call 0,
    .kzalloc 1 true, .kzalloc 1 true, .call 1, .copyFromUser 1 0, .call 1, .call 1,
    .enter 2 (.write fun _ => 5) (someIo 0), .call 2, .kzalloc 2 true, .kzalloc 2 true, .call 2,
    .copyFromUser 2 0, .call 2]

theorem totallyOrdered_readAndWrites :
    ∃ s, Reach step (fun _ a => AllocOk a) init s ∧ s.sent.map Request.caller = [0, 2] ∧
      s.order = [0, 1, 2] ∧ TotallyOrdered s := by
  have hrun : ∃ t, readAndWrites.foldlM step init = some t ∧ t.sent.map Request.caller = [0, 2] ∧
      t.order = [0, 1, 2] := ⟨_, rfl, rfl, rfl⟩
  obtain ⟨s, hs, hsent, horder⟩ := hrun
  have hok : ∀ a ∈ readAndWrites, AllocOk a := by
    intro a ha
    refine ⟨fun i he => ?_, fun k he => ?_⟩ <;> subst he <;> simp [readAndWrites] at ha
  have hreach : Reach step (fun _ a => AllocOk a) init s := .of_run (.of_forall hok) hs
  exact ⟨s, hreach, hsent, horder, totallyOrdered_of_allocOk hreach⟩

end Channel

end PlanA

end Sjfs
