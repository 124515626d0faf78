import Sjfs.SocketProbe

/-!
# Replies

With a peer that answers every request once, with at least a block of bytes, and sends nothing else,
a block read returns the answer to its own request.

The argument: at most one message is in flight, counting the callback run that handles it
(`Flight`), and only while the reader that holds `cn_sem` waits for it. So `CopyOk` holds by itself
(`copyOk_of_phase`), and between the `up` of that callback run and the reader's copy nobody else
can touch `read_block_buffer` (`Holding`).

Results:
1. `served_step`: the invariant.
2. `serialised_of_peerOk`: the locking, the one message in flight, and the blocks that reads return.
3. `returns_diskBlock`: over a peer that serves a disk, `sjfs_read_block` returns the block of the
   disk it was asked for.
-/

namespace Sjfs

open Lib

namespace Socket

/-! ## The peer -/

/-- The assumptions on allocations and on the peer: every `kzalloc` succeeds, an answer has at least
a block of bytes, and nothing is delivered but answers. The machine lets the peer answer a request
once and delivers an answer once. -/
structure PeerOk (a : Action) : Prop where
  alloc : AllocOk a
  only_answers : ∀ msg, a ≠ .inject msg
  long : ∀ k msg, a = .answer k msg → blockSize ≤ msg.data.length

/-- The first 1024 bytes of a message. -/
def block (msg : Msg) : Block := fun i => msg.data.getD i.val 0

theorem fill_of_long {msg : Msg} (h : blockSize ≤ msg.data.length) (buffer : Block) :
    fill buffer msg = block msg := by
  funext i
  have hi : i.val < min msg.data.length blockSize := by
    have := i.isLt
    unfold blockSize at h ⊢
    omega
  simp [fill, block, hi]

theorem ofFn_block {msg : Msg} (h : blockSize ≤ msg.data.length) :
    List.ofFn (block msg) = msg.data.take blockSize := by
  apply List.ext_getElem
  · rw [List.length_ofFn, List.length_take, Nat.min_eq_left h]
    rfl
  · intro i h1 h2
    have hi : i < msg.data.length := by
      rw [List.length_take] at h2
      omega
    rw [List.getElem_ofFn, List.getElem_take]
    simp [block, hi]

/-! ## What is in flight -/

/-- Every callback run is over. -/
def Quiet (s : Socket) : Prop := ∀ k b, s.callbacks k = some b → b.pc = .done

/-- No message is on its way. -/
structure Calm (s : Socket) : Prop where
  wire : s.wire = []
  inbox : s.inbox = []
  quiet : Quiet s

/-- Reader `o` has sent its request, and `cb_sem` has no unit for it. -/
def Waiting (s : Socket) (o : Nat) : Prop :=
  (s.parts o = .sent ∨ s.parts o = .waitsReply) ∧ s.cbSem.count = 0

/-- Call `i` has been told of its answer and has not copied it. -/
def Holding (s : Socket) (i : Nat) : Prop :=
  s.parts i = .passed ∨ (s.parts i = .sent ∧ s.cbSem.count = 1) ∨
    ∃ c, s.calls i = some c ∧ c.pc = .copy

/-- `msg` is the answer to call `i`, and it fills a block. -/
def Answer (s : Socket) (i : Nat) (msg : Msg) : Prop :=
  s.answer i = some msg ∧ blockSize ≤ msg.data.length

/-- The request of call `o` was sent before the message of callback run `k` was delivered. -/
def SentBefore (s : Socket) (o k : Nat) : Prop :=
  ∃ c n, s.calls o = some c ∧ c.sentAt = some n ∧ n ≤ k

/-- The callback run `k` handles the answer to call `o`, and it is the only one. -/
structure Run (s : Socket) (o k : Nat) (b : Callback) : Prop where
  wire : s.wire = []
  inbox : s.inbox = []
  run : s.callbacks k = some b
  pc : b.pc = .trylock ∨ b.pc = .copy ∨ b.pc = .up
  others : ∀ l d, l ≠ k → s.callbacks l = some d → d.pc = .done
  answer : Answer s o b.msg
  buffer : b.pc = .up → s.readBlockBuffer = block b.msg
  sent : SentBefore s o k

/-- Exactly one message is in flight, and it is the request of `o` or the answer to it. -/
inductive Flight (s : Socket) (o : Nat) : Prop
  | request (r : Request) : s.wire = [r] → r.caller = o → s.inbox = [] → Quiet s →
      SentBefore s o s.delivered → Flight s o
  | reply (r : Reply) : s.wire = [] → s.inbox = [r] → r.caller = o → Answer s o r.msg →
      Quiet s → SentBefore s o s.delivered → Flight s o
  | run (k : Nat) (b : Callback) : Run s o k b → Flight s o

/-- Either the reader that waits is the one whose message is in flight, or nobody waits, nothing is
in flight, and a reader that was told of its answer finds it in the buffer. -/
inductive Phase (s : Socket) : Prop
  | flight (o : Nat) : Waiting s o → Flight s o → Phase s
  | calm : Calm s → (∀ o, ¬ Waiting s o) →
      (∀ i, Holding s i → ∃ msg, Answer s i msg ∧ s.readBlockBuffer = block msg) → Phase s

/-- The block of a read that has copied it is that of its answer. -/
def Returned (s : Socket) : Prop :=
  ∀ i c, s.calls i = some c → c.kind ≠ .write → c.pc = .upCn ∨ c.pc = .done →
    ∃ msg, Answer s i msg ∧ c.block = some (block msg)

/-- The invariant of the runs with a peer that keeps to `PeerOk`. -/
structure Served (s : Socket) : Prop where
  good : Good s
  phase : Phase s
  returned : Returned s

/-! ## The owner of `cn_sem` -/

theorem holdsCn_of_waiting {s : Socket} (hb : Base s) {o : Nat} (h : Waiting s o) :
    HoldsCn (s.calls o) := by
  refine holdsCn_of_cbPart (hb.wf o) ?_
  have hp : cbPart (s.calls o) = .sent ∨ cbPart (s.calls o) = .waitsReply := h.1
  rcases hp with hp | hp <;> simp [hp]

theorem holdsCn_of_holding {s : Socket} (hb : Base s) {i : Nat} (h : Holding s i) :
    HoldsCn (s.calls i) := by
  rcases h with h | h | ⟨c, hc, hpc⟩
  · have hp : cbPart (s.calls i) = .passed := h
    exact holdsCn_of_cbPart (hb.wf i) (by simp [hp])
  · have hp : cbPart (s.calls i) = .sent := h.1
    exact holdsCn_of_cbPart (hb.wf i) (by simp [hp])
  · rw [hc]
    exact holdsCn_of_wf (hb.wf i c hc) (by tauto)

theorem Base.holder_eq {s : Socket} (hb : Base s) {i j : Nat} (hi : HoldsCn (s.calls i))
    (hj : HoldsCn (s.calls j)) : i = j := by
  obtain ⟨owner, hl⟩ := hb.locked
  exact Option.some.inj (((hl.holds i).mp hi).symm.trans ((hl.holds j).mp hj))

/-- A reader does not wait for an answer it was told of, and two readers are not on `cb_sem`. -/
theorem not_holding_of_waiting {s : Socket} (hb : Base s) {o i : Nat} (hw : Waiting s o)
    (hh : Holding s i) : False := by
  obtain rfl := hb.holder_eq (holdsCn_of_waiting hb hw) (holdsCn_of_holding hb hh)
  obtain ⟨hp, hz⟩ := hw
  rcases hh with hh | hh | ⟨c, hc, hpc⟩
  · rw [hh] at hp
    simp at hp
  · omega
  · have hout : s.parts o = .out := by simp [parts, hc, cbPart, hpc]
    rw [hout] at hp
    simp at hp

/-- Whoever is to copy after a step was told of its answer before it. -/
theorem holding_of_copy {s t : Socket} {a : Action} (hq : Queues s) (hok : AllocOk a)
    (h : Step s a t) {i : Nat} {c' : Call} (hc' : t.calls i = some c') (hpc : c'.pc = .copy) :
    Holding s i := by
  rcases step_move hq h hc' with he | he
  · exact .inr (.inr ⟨c', he, hpc⟩)
  · cases hs : s.calls i with
    | none =>
      rw [hs] at he
      cases he <;> cases hpc
    | some c =>
      rw [hs] at he
      by_cases hcopy : c.pc = .copy
      · exact .inr (.inr ⟨c, hs, hcopy⟩)
      · have hup : c.pc = .upCb := by
          cases he with
          | allocFail ha => exact absurd ha (hok _)
          | alloc hp | sample hp | send hp | copy hp =>
            simp_all [Call.advance, Call.next]
          | block => exact absurd hpc hcopy
          | move hp =>
            rcases hp with hp | hp | hp | hp | hp | hp <;> cases hk : c.kind <;>
              simp_all [Call.advance, Call.next]
        exact .inl (by simp [parts, hs, cbPart, hup])

/-! ## Steps that leave the messages alone -/

/-- The messages, the callback runs and the buffer are the same. -/
structure SameMessages (s t : Socket) : Prop where
  wire : t.wire = s.wire
  inbox : t.inbox = s.inbox
  callbacks : t.callbacks = s.callbacks
  delivered : t.delivered = s.delivered
  answer : t.answer = s.answer
  buffer : t.readBlockBuffer = s.readBlockBuffer

namespace SameMessages

variable {s t : Socket} {o i : Nat}

theorem quiet (h : SameMessages s t) (hq : Quiet s) : Quiet t :=
  fun k b hb => hq k b (h.callbacks ▸ hb)

theorem calm (h : SameMessages s t) (hc : Calm s) : Calm t :=
  ⟨h.wire.trans hc.wire, h.inbox.trans hc.inbox, h.quiet hc.quiet⟩

theorem answered (h : SameMessages s t) {msg : Msg} (ha : Answer s i msg) : Answer t i msg :=
  ⟨h.answer ▸ ha.1, ha.2⟩

theorem flight (h : SameMessages s t) (hsent : ∀ k, SentBefore s o k → SentBefore t o k)
    (hf : Flight s o) : Flight t o := by
  cases hf with
  | request r hw hr hi hq hs =>
    exact .request r (h.wire.trans hw) hr (h.inbox.trans hi) (h.quiet hq)
      (h.delivered ▸ hsent _ hs)
  | reply r hw hi hr ha hq hs =>
    exact .reply r (h.wire.trans hw) (h.inbox.trans hi) hr (h.answered ha) (h.quiet hq)
      (h.delivered ▸ hsent _ hs)
  | run k b hr =>
    exact .run k b ⟨h.wire.trans hr.wire, h.inbox.trans hr.inbox, h.callbacks ▸ hr.run, hr.pc,
      fun l d hl hd => hr.others l d hl (h.callbacks ▸ hd), h.answered hr.answer,
      fun hup => h.buffer.trans (hr.buffer hup), hsent k hr.sent⟩

end SameMessages

theorem sentBefore_step {s t : Socket} {a : Action} (hb : Base s) (h : Step s a t) {o k : Nat}
    (hs : SentBefore s o k) : SentBefore t o k := by
  obtain ⟨c, n, hc, hn, hle⟩ := hs
  obtain ⟨c', hc', hn'⟩ := sentAt_step hb h hc hn
  exact ⟨c', n, hc', hn', hle⟩

section Steps

variable {s t : Socket} {a : Action}

/-- A step that touches neither the messages nor anyone's use of `cb_sem` keeps the phase. -/
theorem phase_frame (hb : Base s) (hok : AllocOk a) (h : Step s a t) (hp : t.parts = s.parts)
    (hcb : t.cbSem = s.cbSem) (hm : SameMessages s t) (hphase : Phase s) : Phase t := by
  cases hphase with
  | flight o hw hf =>
    refine .flight o ?_ (hm.flight (fun k => sentBefore_step hb h) hf)
    unfold Waiting
    rw [hp, hcb]
    exact hw
  | calm hc hw hh =>
    refine .calm (hm.calm hc) (fun o ho => hw o ?_) fun i hi => ?_
    · unfold Waiting at ho
      rw [hp, hcb] at ho
      exact ho
    · have hi' : Holding s i := by
        rcases hi with hi | hi | ⟨c, hc, hpc⟩
        · exact .inl (hp ▸ hi)
        · exact .inr (.inl (by rw [hp, hcb] at hi; exact hi))
        · exact holding_of_copy hb.queues hok h hc hpc
      obtain ⟨msg, ha, hbuf⟩ := hh i hi'
      exact ⟨msg, hm.answered ha, hm.buffer.trans hbuf⟩

/-- A callback run that is not over handles the answer in flight. -/
theorem run_of_phase (hp : Phase s) {k : Nat} {b : Callback} (hb : s.callbacks k = some b)
    (hpc : b.pc ≠ .done) : ∃ o, Waiting s o ∧ Run s o k b := by
  cases hp with
  | calm hc => exact absurd (hc.quiet k b hb) hpc
  | flight o hw hf =>
    cases hf with
    | request _ _ _ _ hq | reply _ _ _ _ _ hq => exact absurd (hq k b hb) hpc
    | run l d hr =>
      obtain rfl : k = l := by
        by_contra hne
        exact hpc (hr.others k b hne hb)
      obtain rfl : d = b := Option.some.inj (hr.run.symm.trans hb)
      exact ⟨o, hw, hr⟩

/-- A callback run that reaches its `down_trylock` while `cb_sem` is at 0 is the only one, and the
reader that waits has sent its request before. -/
theorem copyOk_of_phase (hp : Phase s) : CopyOk s a := by
  intro k b _ hb hpc hzero
  obtain ⟨o, hw, hr⟩ := run_of_phase hp hb (by simp [hpc])
  obtain ⟨c, n, hc, hn, hle⟩ := hr.sent
  refine ⟨fun j e he hbusy => ?_, o, c, n, hc, ?_, hn, hle⟩
  · by_cases hj : j = k
    · subst hj
      rw [hb] at he
      cases he
      simp [Callback.busy, hpc] at hbusy
    · have := hr.others j e hj he
      simp [Callback.busy, this] at hbusy
  · have hp : cbPart (s.calls o) = .sent ∨ cbPart (s.calls o) = .waitsReply := hw.1
    rw [hc] at hp
    unfold cbPart at hp
    cases hpc' : c.pc <;> cases hbl : c.blocked <;> simp_all

theorem parts_downCb_self (s : Socket) (i : Nat) (c : Call) :
    (s.downCb i c).parts i = cbPart (some (c.downed (s.cbSem.down i).2)) :=
  congrArg cbPart (Function.update_self ..)

/-- A call that makes its first `down(&cb_sem)` has not sent its request. -/
theorem parts_downCb_first {i : Nat} {c : Call} (hpc : c.pc = .downCb) :
    (s.downCb i c).parts i ≠ .sent ∧ (s.downCb i c).parts i ≠ .waitsReply ∧
      (s.downCb i c).parts i ≠ .passed := by
  rw [parts_downCb_self]
  cases ht : (s.cbSem.down i).2 <;> simp [Call.downed, cbPart, Call.advance, Call.next, hpc]

/-- A reader that makes its second one has its unit already, unless it waits. -/
theorem parts_downCb_second (hg : Good s) {i : Nat} {c : Call} (hc : s.calls i = some c)
    (hbl : c.blocked = false) (hpc : c.pc = .downReply) (hw : ¬ Waiting s i) :
    Holding s i ∧ (s.downCb i c).parts i = .passed := by
  have hsent : s.parts i = .sent := by simp [parts, hc, cbPart, hpc, hbl]
  have hpos : 0 < s.cbSem.count := by
    rcases Nat.eq_zero_or_pos s.cbSem.count with hz | hp
    · exact absurd ⟨.inl hsent, hz⟩ hw
    · exact hp
  have hone : s.cbSem.count = 1 := Nat.le_antisymm hg.harmless.count_le hpos
  refine ⟨.inr (.inl ⟨hsent, hone⟩), ?_⟩
  rw [parts_downCb_self, Semaphore.down_of_pos hpos]
  simp [Call.downed, cbPart, Call.advance, Call.next, hpc]

/-- A `down(&cb_sem)` while nothing is in flight. -/
theorem calm_downCb (hg : Good s) (hok : AllocOk a) {i : Nat} {c : Call}
    (h : Step s a (s.downCb i c)) (hc : s.calls i = some c) (hbl : c.blocked = false)
    (hpc : c.pc = .downCb ∨ c.pc = .downReply) (hcalm : Calm s) (hw : ∀ o, ¬ Waiting s o)
    (hh : ∀ i, Holding s i → ∃ msg, Answer s i msg ∧ s.readBlockBuffer = block msg) :
    Phase (s.downCb i c) := by
  have hm : SameMessages s (s.downCb i c) := ⟨rfl, rfl, rfl, rfl, rfl, rfl⟩
  have hb := base_step hg.base hok h
  have hholds : HoldsCn ((s.downCb i c).calls i) := by
    rw [show (s.downCb i c).calls i = some (c.downed (s.cbSem.down i).2) from
      Function.update_self ..]
    exact holdsCn_downed_of_wf (hg.base.wf i c hc) hpc _
  -- only the call itself can wait, or hold a block, afterwards
  refine .calm (hm.calm hcalm) (fun o ho => ?_) fun j hj => ?_
  · obtain rfl := hb.holder_eq (holdsCn_of_waiting hb ho) hholds
    rcases hpc with hpc | hpc
    · obtain ⟨hsent, hwaits, _⟩ := parts_downCb_first (s := s) (i := o) hpc
      rcases ho.1 with hp | hp
      · exact hsent hp
      · exact hwaits hp
    · obtain ⟨_, hpassed⟩ := parts_downCb_second hg hc hbl hpc (hw o)
      rcases ho.1 with hp | hp <;> rw [hpassed] at hp <;> cases hp
  · obtain rfl := hb.holder_eq (holdsCn_of_holding hb hj) hholds
    have hold : Holding s j := by
      rcases hpc with hpc | hpc
      · obtain ⟨hsent, _, hpassed⟩ := parts_downCb_first (s := s) (i := j) hpc
        rcases hj with hp | hp | ⟨d, hd, hcopy⟩
        · exact absurd hp hpassed
        · exact absurd hp.1 hsent
        · exact holding_of_copy hg.base.queues hok h hd hcopy
      · exact (parts_downCb_second hg hc hbl hpc (hw j)).1
    obtain ⟨msg, ha, hbuf⟩ := hh j hold
    exact ⟨msg, hm.answered ha, hbuf⟩

/-- A `down(&cb_sem)` while a message is in flight: it is the second one of the reader that waits
for it. -/
theorem flight_downCb (hg : Good s) {i o : Nat} {c : Call} (h : Step s a (s.downCb i c))
    (hc : s.calls i = some c) (hbl : c.blocked = false)
    (hpc : c.pc = .downCb ∨ c.pc = .downReply) (hw : Waiting s o) (hf : Flight s o) :
    Phase (s.downCb i c) := by
  have hm : SameMessages s (s.downCb i c) := ⟨rfl, rfl, rfl, rfl, rfl, rfl⟩
  have hholds : HoldsCn (s.calls i) := by
    rw [hc]
    exact holdsCn_of_wf (hg.base.wf i c hc) (by tauto)
  obtain rfl := hg.base.holder_eq hholds (holdsCn_of_waiting hg.base hw)
  have hreply : c.pc = .downReply := by
    rcases hpc with hpc | hpc
    · have hout : s.parts i = .out := by simp [parts, hc, cbPart, hpc, hbl]
      rcases hw.1 with hp | hp <;> rw [hout] at hp <;> cases hp
    · exact hpc
  refine .flight i ⟨.inr ?_, ?_⟩ (hm.flight (fun k => sentBefore_step hg.base h) hf)
  · rw [parts_downCb, Function.update_self, Semaphore.down_of_zero hw.2]
    simp [Call.downed, cbPart, hreply]
  · show ((s.cbSem.down i).1).count = 0
    rw [Semaphore.down_of_zero hw.2]
    exact hw.2

/-- A reader that is past its first `down` and has not sent finds no unit in `cb_sem`. -/
theorem count_of_armed (hg : Good s) {i : Nat} (hi : s.parts i = .armed) : s.cbSem.count = 0 := by
  obtain ⟨o, k, p, q, ans, hsh⟩ := hg.shape
  obtain ⟨rfl, rfl⟩ := hsh.reader hi (by decide)
  exact hsh.fits.count_of_armed

/-- Nothing is in flight while the reader has not sent. -/
theorem calm_of_armed (hg : Good s) (hp : Phase s) {i : Nat} (hi : s.parts i = .armed) :
    Calm s := by
  cases hp with
  | calm hc => exact hc
  | flight o hw =>
    have hholds : HoldsCn (s.calls i) := by
      have hpart : cbPart (s.calls i) = .armed := hi
      exact holdsCn_of_cbPart (hg.base.wf i) (by simp [hpart])
    obtain rfl := hg.base.holder_eq hholds (holdsCn_of_waiting hg.base hw)
    rcases hw.1 with hp | hp <;> rw [hi] at hp <;> cases hp

/-- The `up` of the reader: it is at its copy now, and nobody uses `cb_sem`. -/
theorem phase_upCb (hg : Good s) (hok : AllocOk a) {i : Nat} {c : Call}
    (h : Step s a (s.setCall i c.advance).upCb) (hc : s.calls i = some c) (hpc : c.pc = .upCb)
    (hp : Phase s) : Phase (s.setCall i c.advance).upCb := by
  have hm : SameMessages s (s.setCall i c.advance).upCb := ⟨rfl, rfl, rfl, rfl, rfl, rfl⟩
  have hpassed : s.parts i = .passed := by simp [parts, hc, cbPart, hpc]
  obtain ⟨o, k, p, q, ans, hsh⟩ := hg.shape
  have hout := (hsh.readerUp hc hpc).parts
  rw [solo_default] at hout
  cases hp with
  | flight o hw => exact (not_holding_of_waiting hg.base hw (.inl hpassed)).elim
  | calm hcalm hw hh =>
    refine .calm (hm.calm hcalm) (fun o ho => ?_) fun j hj => ?_
    · rcases ho.1 with hp | hp <;> rw [hout] at hp <;> cases hp
    · have hold : Holding s j := by
        rcases hj with hp | hp | ⟨d, hd, hcopy⟩
        · rw [hout] at hp
          cases hp
        · have hp' := hp.1
          rw [hout] at hp'
          cases hp'
        · exact holding_of_copy hg.base.queues hok h hd hcopy
      obtain ⟨msg, ha, hbuf⟩ := hh j hold
      exact ⟨msg, hm.answered ha, hbuf⟩

theorem quiet_update {k : Nat} {b : Callback}
    (hcb : t.callbacks = Function.update s.callbacks k (some b)) (hb : b.pc = .done)
    (hothers : ∀ l d, l ≠ k → s.callbacks l = some d → d.pc = .done) : Quiet t := by
  intro l d hd
  rw [hcb] at hd
  by_cases hl : l = k
  · subst hl
    rw [Function.update_self] at hd
    cases hd
    exact hb
  · rw [Function.update_of_ne hl] at hd
    exact hothers l d hl hd

/-- The end of a callback run: the reader that waited for it is told of its answer, which is in the
buffer. -/
theorem phase_finish (hg : Good s) (hok : AllocOk a) {k : Nat} {b : Callback}
    (h : Step s a (s.setCallback k { b with pc := .done }).upCb) (hb : s.callbacks k = some b)
    (hpc : b.pc = .release ∨ b.pc = .up) (hp : Phase s) :
    Phase (s.setCallback k { b with pc := .done }).upCb := by
  obtain ⟨o, hw, hr⟩ := run_of_phase hp hb (by rcases hpc with hpc | hpc <;> simp [hpc])
  have hup : b.pc = .up := by
    rcases hpc with hpc | hpc
    · have := hr.pc
      simp [hpc] at this
    · exact hpc
  -- the callback run was handling, so the reader is answered and finds a unit or is woken
  obtain ⟨o', k', p, q, ans, hsh⟩ := hg.shape
  obtain ⟨rfl, _⟩ := hsh.reader (i := o) rfl (by rcases hw.1 with hp | hp <;> simp [hp])
  obtain ⟨rfl, rfl⟩ := hsh.runner (l := k) (r := .handling)
    (by simp [stats, hb, cbStat, hup]) (by decide)
  obtain rfl := hsh.fits.answered_of_handling
  obtain ⟨p', hsh'⟩ := hsh.finish hb hpc fun i => answered_step hg.base h
  refine .calm ⟨hr.wire, hr.inbox, quiet_update rfl rfl hr.others⟩ (fun i hi => ?_) fun i hi => ?_
  · obtain ⟨rfl, hpart⟩ := hsh'.reader (i := i) rfl
      (by rcases hi.1 with hp | hp <;> simp [hp])
    exact hsh'.fits.not_waiting hi.2 (hpart ▸ hi.1)
  · have hreader : i = o := by
      rcases hi with hp | hp | ⟨c, hc, hcopy⟩
      · exact (hsh'.reader hp (by decide)).1
      · exact (hsh'.reader hp.1 (by decide)).1
      · have hold := holding_of_copy hg.base.queues hok h hc hcopy
        exact (not_holding_of_waiting hg.base hw hold).elim
    exact ⟨b.msg, hreader ▸ hr.answer, hr.buffer hup⟩

/-- An operation of the callback run in flight before its `up`. -/
theorem Run.next {o k : Nat} {b b' : Callback} (hr : Run s o k b) (hwire : t.wire = s.wire)
    (hinbox : t.inbox = s.inbox) (hcb : t.callbacks = Function.update s.callbacks k (some b'))
    (hcalls : t.calls = s.calls) (hans : t.answer = s.answer) (hmsg : b'.msg = b.msg)
    (hpc : b'.pc = .trylock ∨ b'.pc = .copy ∨ b'.pc = .up)
    (hbuf : b'.pc = .up → t.readBlockBuffer = block b'.msg) : Run t o k b' where
  wire := hwire.trans hr.wire
  inbox := hinbox.trans hr.inbox
  run := by rw [hcb, Function.update_self]
  pc := hpc
  others := fun l d hl hd => by
    rw [hcb, Function.update_of_ne hl] at hd
    exact hr.others l d hl hd
  answer := by
    rw [hmsg]
    exact ⟨hans ▸ hr.answer.1, hr.answer.2⟩
  buffer := hbuf
  sent := by
    obtain ⟨c, n, hc, hrest⟩ := hr.sent
    exact ⟨c, n, hcalls ▸ hc, hrest⟩

/-- A message to the peer is the request of the reader that waits, and nothing else is in flight. -/
theorem Phase.of_wire {k : Nat} {r : Request} (hp : Phase s) (hr : s.wire[k]? = some r) :
    k = 0 ∧ s.wire = [r] ∧ s.inbox = [] ∧ Quiet s ∧ Waiting s r.caller ∧
      SentBefore s r.caller s.delivered := by
  have hnil : ∀ {x : Prop}, s.wire = [] → x := fun h => by simp [h] at hr
  cases hp with
  | calm hc => exact hnil hc.wire
  | flight o hw hf =>
    cases hf with
    | reply _ hwire => exact hnil hwire
    | run _ _ hrun => exact hnil hrun.wire
    | request r' hwire hcaller hinbox hq hs =>
      obtain ⟨rfl, rfl⟩ : k = 0 ∧ r = r' := by
        rw [hwire] at hr
        cases k <;> simp_all
      subst hcaller
      exact ⟨rfl, hwire, hinbox, hq, hw, hs⟩

theorem phase_answer {k : Nat} {msg : Msg} {r : Request} (hr : s.wire[k]? = some r)
    (hlong : blockSize ≤ msg.data.length) (hp : Phase s) :
    Phase { s with
      wire := s.wire.eraseIdx k
      inbox := s.inbox ++ [⟨r.caller, msg⟩]
      answer := Function.update s.answer r.caller (some msg) } := by
  obtain ⟨rfl, hwire, hinbox, hq, hw, hs⟩ := hp.of_wire hr
  refine .flight r.caller hw (.reply ⟨r.caller, msg⟩ ?_ ?_ rfl ⟨?_, hlong⟩ hq hs)
  · simp [hwire]
  · simp [hinbox]
  · simp

theorem phase_deliver {k : Nat} {r : Reply} (hr : s.inbox[k]? = some r) (hp : Phase s) :
    Phase ({ s with inbox := s.inbox.eraseIdx k }.start r.msg) := by
  have hnil : ∀ {x : Prop}, s.inbox = [] → x := fun h => by simp [h] at hr
  cases hp with
  | calm hc => exact hnil hc.inbox
  | flight o hw hf =>
    cases hf with
    | request _ _ _ hinbox => exact hnil hinbox
    | run _ _ hrun => exact hnil hrun.inbox
    | reply r' hwire hinbox hcaller hans hq hs =>
      obtain ⟨rfl, rfl⟩ : k = 0 ∧ r = r' := by
        rw [hinbox] at hr
        cases k <;> simp_all
      refine .flight o hw (.run s.delivered ⟨r.msg, .trylock⟩ ?_)
      refine ⟨hwire, ?_, Function.update_self .., .inl rfl, fun l d hl hd => ?_, hans, ?_, hs⟩
      · show s.inbox.eraseIdx 0 = []
        simp [hinbox]
      · refine hq l d ?_
        rw [← hd]
        exact (Function.update_of_ne hl ..).symm
      · intro hup
        cases hup

theorem phase_step (hg : Good s) (hok : PeerOk a) (h : Step s a t) (hp : Phase s) : Phase t := by
  have hparts := step_parts hg.base.queues hok.alloc h
  have hframe := phase_frame hg.base hok.alloc h
  have h' := h
  cases h with
  | @allocFail i => exact absurd rfl (hok.alloc i)
  | readBlock | writeBlock | alloc | sample | downCn | count | copy | upCn =>
    exact hframe (hparts rfl rfl) rfl ⟨rfl, rfl, rfl, rfl, rfl, rfl⟩ hp
  | @downCb i c hc hbl hpc =>
    cases hp with
    | calm hcalm hw hh => exact calm_downCb hg hok.alloc h' hc hbl hpc hcalm hw hh
    | flight o hw hf => exact flight_downCb hg h' hc hbl hpc hw hf
  | @send i c m hc hbl hpc hm =>
    have harmed : s.parts i = .armed := by simp [parts, hc, cbPart, hpc]
    have hcalm := calm_of_armed hg hp harmed
    have hzero := count_of_armed hg harmed
    refine .flight i ⟨.inl ?_, hzero⟩
      (.request ⟨i, m⟩ ?_ rfl hcalm.inbox hcalm.quiet ?_)
    · refine (congrFun (parts_setCall s i _) i).trans ?_
      simp [cbPart, Call.advance, Call.next, hpc]
    · simp [hcalm.wire]
    · exact ⟨_, s.delivered, Function.update_self .., rfl, Nat.le_refl _⟩
  | upCb hc _ hpc => exact phase_upCb hg hok.alloc h' hc hpc hp
  | answer hr => exact phase_answer hr (hok.long _ _ rfl) hp
  | deliver hr => exact phase_deliver hr hp
  | @inject msg => exact absurd rfl (hok.only_answers msg)
  | @probe k b hb hpc hpos =>
    obtain ⟨o, hw, _⟩ := run_of_phase hp hb (by simp [hpc])
    have := hw.2
    omega
  | @need k b hb hpc hzero =>
    obtain ⟨o, hw, hr⟩ := run_of_phase hp hb (by simp [hpc])
    refine .flight o hw (.run k { b with pc := .copy }
      (hr.next rfl rfl rfl rfl rfl rfl (.inr (.inl rfl)) fun hup => ?_))
    cases hup
  | @fill k b hb hpc =>
    obtain ⟨o, hw, hr⟩ := run_of_phase hp hb (by simp [hpc])
    exact .flight o hw (.run k { b with pc := .up }
      (hr.next rfl rfl rfl rfl rfl rfl (.inr (.inr rfl))
        fun _ => fill_of_long hr.answer.2 s.readBlockBuffer))
  | finish hb hpc => exact phase_finish hg hok.alloc h' hb hpc hp

theorem answer_step (hp : Phase s) (h : Step s a t) {i : Nat} (hi : ¬ Waiting s i) :
    t.answer i = s.answer i := by
  cases h with
  | answer hr =>
    refine Function.update_of_ne ?_ ..
    rintro rfl
    obtain ⟨_, _, _, _, hw, _⟩ := hp.of_wire hr
    exact hi hw
  | _ => rfl

theorem not_waiting_of_out {i : Nat} (h : s.parts i = .out ∨ s.parts i = .passed) :
    ¬ Waiting s i := by
  rintro ⟨hp, _⟩
  rcases h with h | h <;> rw [h] at hp <;> simp at hp

theorem Phase.held (hp : Phase s) (hb : Base s) {i : Nat} (hi : Holding s i) :
    ∃ msg, Answer s i msg ∧ s.readBlockBuffer = block msg := by
  cases hp with
  | flight o hw => exact (not_holding_of_waiting hb hw hi).elim
  | calm _ _ hh => exact hh i hi

theorem returned_step (hs : Served s) (hok : AllocOk a) (h : Step s a t) : Returned t := by
  intro i c' hc' hk hpc
  have hkeep : ∀ {c : Call} {msg : Msg}, s.calls i = some c →
      c.pc = .copy ∨ c.pc = .upCn ∨ c.pc = .done → Answer s i msg → Answer t i msg := by
    intro c msg hc hp ha
    have hout : ¬ Waiting s i := by
      refine not_waiting_of_out (.inl ?_)
      rcases hp with hp | hp | hp <;> simp [parts, hc, cbPart, hp]
    exact ⟨(answer_step hs.phase h hout).trans ha.1, ha.2⟩
  rcases step_move hs.good.base.queues h hc' with he | he
  · obtain ⟨msg, ha, hb⟩ := hs.returned i c' he hk hpc
    exact ⟨msg, hkeep he (.inr hpc) ha, hb⟩
  · cases hs' : s.calls i with
    | none =>
      rw [hs'] at he
      cases he <;> simp at hpc hk
    | some c =>
      rw [hs'] at he
      by_cases hcopy : c.pc = .copy
      · obtain ⟨msg, ha, hbuf⟩ := hs.phase.held hs.good.base (.inr (.inr ⟨c, hs', hcopy⟩))
        refine ⟨msg, hkeep hs' (.inl hcopy) ha, ?_⟩
        rw [← hbuf]
        cases he with
        | copy => rfl
        | _ => simp_all
      · have hold : (c.pc = .upCn ∨ c.pc = .done) ∧ c.kind ≠ .write ∧ c'.block = c.block := by
          cases he with
          | allocFail ha => exact absurd ha (hok _)
          | alloc hp | sample hp | send hp | copy hp => simp_all [Call.advance, Call.next]
          | block => exact ⟨hpc, hk, rfl⟩
          | move hp =>
            rcases hp with hp | hp | hp | hp | hp | hp <;> cases hk' : c.kind <;>
              simp_all [Call.advance, Call.next]
        obtain ⟨msg, ha, hb⟩ := hs.returned i c hs' hold.2.1 hold.1
        exact ⟨msg, hkeep hs' (.inr hold.1) ha, hold.2.2.trans hb⟩

theorem served_step (hs : Served s) (hok : PeerOk a) (h : Step s a t) : Served t where
  good := good_step hs.good hok.alloc (copyOk_of_phase hs.phase) h
  phase := phase_step hs.good hok h hs.phase
  returned := returned_step hs hok.alloc h

end Steps

theorem served_init : Served init where
  good := good_init
  phase := by
    refine .calm ⟨rfl, rfl, fun _ _ h => by cases h⟩ (fun o ho => ?_) fun i hi => ?_
    · exact not_waiting_of_out (.inl rfl) ho
    · rcases hi with h | h | ⟨c, hc, _⟩
      · cases h
      · cases h.1
      · cases hc
  returned := fun _ _ h => by cases h

/-! ## Serialised reads -/

/-- What a reader blocked in its second `down(&cb_sem)` waits for: its request is with the peer, its
reply is on its way or not yet copied, or a callback run is between its copy and its `up`. -/
def Awaits (s : Socket) (i : Nat) : Prop :=
  (∃ r ∈ s.wire, r.caller = i) ∨
  (∃ r ∈ s.inbox, r.caller = i ∧ s.answer i = some r.msg) ∨
  (∃ k b, s.callbacks k = some b ∧ s.answer i = some b.msg ∧ (b.pc = .trylock ∨ b.pc = .copy)) ∨
  (∃ k b, s.callbacks k = some b ∧ s.answer i = some b.msg ∧ b.pc = .up)

/-- Block reads are serialised, and each reader gets its own reply. -/
structure Serialised (s : Socket) : Prop where
  cn_le : s.cnSem.count ≤ 1
  cb_le : s.cbSem.count ≤ 1
  one_holder : ∀ i j c d, s.calls i = some c → s.calls j = some d → c.holdsCn → d.holdsCn → i = j
  one_request : s.wire.length + s.inbox.length ≤ 1
  own_reply : ∀ i c address, s.calls i = some c → c.kind = .read address → c.pc = .done →
    ∃ msg b, s.answer i = some msg ∧ c.block = some b ∧ List.ofFn b = msg.data.take blockSize
  awaits : ∀ i c, s.calls i = some c → c.pc = .downReply → c.blocked = true → Awaits s i

theorem Flight.awaits {s : Socket} {o : Nat} (h : Flight s o) : Awaits s o := by
  cases h with
  | request r hw hr => exact .inl ⟨r, by simp [hw], hr⟩
  | reply r _ hi hr ha => exact .inr (.inl ⟨r, by simp [hi], hr, ha.1⟩)
  | run k b hr =>
    rcases hr.pc with hpc | hpc | hpc
    · exact .inr (.inr (.inl ⟨k, b, hr.run, hr.answer.1, .inl hpc⟩))
    · exact .inr (.inr (.inl ⟨k, b, hr.run, hr.answer.1, .inr hpc⟩))
    · exact .inr (.inr (.inr ⟨k, b, hr.run, hr.answer.1, hpc⟩))

theorem Phase.one_request {s : Socket} (hp : Phase s) : s.wire.length + s.inbox.length ≤ 1 := by
  cases hp with
  | calm hc => simp [hc.wire, hc.inbox]
  | flight o _ hf =>
    cases hf with
    | request r hw _ hi => simp [hw, hi]
    | reply r hw hi => simp [hw, hi]
    | run k b hr => simp [hr.wire, hr.inbox]

/-- A reader that is queued in its second `down` finds no unit. -/
theorem waiting_of_blocked {s : Socket} (hg : Good s) {i : Nat} {c : Call}
    (hc : s.calls i = some c) (hpc : c.pc = .downReply) (hb : c.blocked = true) : Waiting s i := by
  have hpart : s.parts i = .waitsReply := by simp [parts, hc, cbPart, hpc, hb]
  refine ⟨.inr hpart, ?_⟩
  obtain ⟨o, k, p, q, ans, hsh⟩ := hg.shape
  obtain ⟨rfl, rfl⟩ := hsh.reader hpart (by decide)
  exact hsh.fits.count_of_waitsReply

theorem Served.serialised {s : Socket} (hs : Served s) : Serialised s where
  cn_le := by
    obtain ⟨owner, hl⟩ := hs.good.base.locked
    exact hl.mutex.count_le
  cb_le := hs.good.harmless.count_le
  one_holder := fun i j c d hc hd hi hj => hs.good.base.one_holder hc hd hi hj
  one_request := hs.phase.one_request
  own_reply := fun i c address hc hk hpc => by
    obtain ⟨msg, ha, hb⟩ := hs.returned i c hc (by simp [hk]) (.inr hpc)
    exact ⟨msg, block msg, ha.1, hb, ofFn_block ha.2⟩
  awaits := fun i c hc hpc hb => by
    have hw := waiting_of_blocked hs.good hc hpc hb
    cases hs.phase with
    | calm _ hno => exact absurd hw (hno i)
    | flight o ho hf =>
      obtain rfl := hs.good.base.holder_eq (holdsCn_of_waiting hs.good.base hw)
        (holdsCn_of_waiting hs.good.base ho)
      exact hf.awaits

theorem served_of_reach {s : Socket} (h : Reach step (fun _ a => PeerOk a) init s) : Served s :=
  h.invariant served_init fun _ _ _ hs hok hstep => served_step hs hok (step_cases hstep)

/-- In every run in which allocations succeed and the peer keeps to its part, with any number of
reads and writes under way, block reads are serialised and each returns its own reply. -/
theorem serialised_of_peerOk {s : Socket} (h : Reach step (fun _ a => PeerOk a) init s) :
    Serialised s :=
  (served_of_reach h).serialised

/-- A block of zero bytes, as an answer. -/
def zeroMsg : Msg := ⟨List.replicate blockSize 0, by rw [List.length_replicate]; decide⟩

/-- Two reads: while one waits for its answer, the other is queued at `cn_sem`. -/
def overlap : List Action :=
  [.readBlock 0 5, .readBlock 1 7, .kzalloc 0 true, .call 0, .call 0, .kzalloc 1 true, .call 1,
    .call 1, .call 0, .call 0, .call 0, .call 0]

/-- The first one is answered and returns, and so does the second one. -/
def overlapServed : List Action :=
  overlap ++ [.answer 0 zeroMsg, .deliver 0, .callback 0, .callback 0, .callback 0, .call 0, .call 0,
    .call 0, .call 1, .call 1, .call 1, .call 1, .answer 0 zeroMsg, .deliver 0, .callback 1,
    .callback 1, .callback 1, .call 1, .call 1, .call 1]

theorem peerOk_overlapServed : ∀ a ∈ overlapServed, PeerOk a := by
  intro a ha
  refine ⟨fun i he => ?_, fun msg he => ?_, fun k msg he => ?_⟩ <;> subst he <;>
    simp [overlapServed, overlap] at ha
  rw [ha.2]
  simp [zeroMsg]

/-- In one state of the run the first read waits for its answer and the second one for `cn_sem`; in the
last one both have returned. -/
theorem serialised_overlap :
    ∃ s t, overlap.foldlM step init = some s ∧ s.cbSem.waiters = [0] ∧ s.cnSem.waiters = [1] ∧
      Serialised s ∧ overlapServed.foldlM step init = some t ∧
      (t.calls 0).map Call.pc = some .done ∧ (t.calls 1).map Call.pc = some .done ∧
      Serialised t := by
  have hmid : ∃ s, overlap.foldlM step init = some s ∧ s.cbSem.waiters = [0] ∧
      s.cnSem.waiters = [1] := ⟨_, rfl, rfl, rfl⟩
  have hend : ∃ t, overlapServed.foldlM step init = some t ∧ (t.calls 0).map Call.pc = some .done ∧
      (t.calls 1).map Call.pc = some .done := ⟨_, rfl, rfl, rfl⟩
  obtain ⟨s, hs, hcb, hcn⟩ := hmid
  obtain ⟨t, ht, h0, h1⟩ := hend
  have hok : ∀ a ∈ overlap, PeerOk a :=
    fun a ha => peerOk_overlapServed a (List.mem_append_left _ ha)
  exact ⟨s, t, hs, hcb, hcn, serialised_of_peerOk (.of_run (.of_forall hok) hs), ht, h0, h1,
    serialised_of_peerOk (.of_run (.of_forall peerOk_overlapServed) ht)⟩

/-! ## A peer with a disk

The rest of the module calls `sjfs_read_block` as a function from block numbers to blocks. This is
what it is over a peer that answers each request with the block the caller asked for. -/

/-- The peer answers with the block of `disk` that the caller asked for. -/
def ServesDisk (disk : Disk) (s : Socket) (a : Action) : Prop :=
  ∀ k msg r c address, a = .answer k msg → s.wire[k]? = some r → s.calls r.caller = some c →
    c.kind = .read address → block msg = disk address.toNat

/-- Every answer so far is a block of `disk`. -/
def FromDisk (disk : Disk) (s : Socket) : Prop :=
  ∀ i msg, s.answer i = some msg → ∃ c, s.calls i = some c ∧
    ∀ address, c.kind = .read address → block msg = disk address.toNat

theorem CallMove.kind {s : Socket} {a : Action} {c c' : Call} (h : CallMove s a (some c) c') :
    c'.kind = c.kind := by
  cases h <;> rfl

theorem fromDisk_step {disk : Disk} {s t : Socket} {a : Action} (hs : Served s) (hok : AllocOk a)
    (hdisk : ServesDisk disk s a) (h : Step s a t) (hf : FromDisk disk s) : FromDisk disk t := by
  intro i msg hmsg
  by_cases hold : s.answer i = some msg
  · -- an old answer: its call is still there, and asks for the same block
    obtain ⟨c, hc, hblock⟩ := hf i msg hold
    obtain ⟨c', hc'⟩ := step_some h hc
    refine ⟨c', hc', fun address hk => hblock address ?_⟩
    rcases step_move hs.good.base.queues h hc' with he | he
    · rw [hc] at he
      cases he
      exact hk
    · rw [hc] at he
      exact he.kind ▸ hk
  · cases h with
    | @answer k msg' r hr =>
      have hi : i = r.caller := by
        by_contra hne
        exact hold ((Function.update_of_ne hne ..).symm.trans hmsg)
      subst hi
      have hmsg' : Function.update s.answer r.caller (some msg') r.caller = some msg := hmsg
      rw [Function.update_self] at hmsg'
      cases hmsg'
      obtain ⟨_, _, _, _, hw, _⟩ := hs.phase.of_wire hr
      cases hc : s.calls r.caller with
      | none =>
        have hout : s.parts r.caller = .out := by simp [parts, hc, cbPart]
        exact absurd hw (not_waiting_of_out (.inl hout))
      | some c => exact ⟨c, rfl, fun address hk => hdisk k msg r c address rfl hr hc hk⟩
    | _ => exact absurd hmsg hold

/-- Over a peer that serves a disk, a block read returns the block it was asked for. -/
theorem returns_diskBlock {disk : Disk} {s : Socket}
    (h : Reach step (fun s a => PeerOk a ∧ ServesDisk disk s a) init s) {i : Nat} {c : Call}
    {address : UInt32} (hc : s.calls i = some c) (hk : c.kind = .read address)
    (hpc : c.pc = .done) : c.block = some (disk address.toNat) := by
  have hinv : Served s ∧ FromDisk disk s := by
    refine h.invariant (I := fun s => Served s ∧ FromDisk disk s)
      ⟨served_init, fun _ _ h => by cases h⟩ fun s a t hs hok hstep => ?_
    exact ⟨served_step hs.1 hok.1 (step_cases hstep),
      fromDisk_step hs.1 hok.1.alloc hok.2 (step_cases hstep) hs.2⟩
  obtain ⟨msg, ha, hb⟩ := hinv.1.returned i c hc (by simp [hk]) (.inr hpc)
  obtain ⟨d, hd, hblock⟩ := hinv.2 i msg ha.1
  rw [hc] at hd
  cases hd
  rw [hb, hblock address hk]

end Socket

end Sjfs
