import Sjfs.SocketRest

/-!
# A read call alone with its answer

One more call of `sjfs_read_block` when the socket level is at rest: its request is answered by one
message, and nothing else happens. Only the count of `cb_sem` and `read_block_buffer` show what came
before. Answers that nobody waited for raise the count (`crossed_probes_harm`). At 1 the call waits
for its answer. At 2 it does not, and it depends on the schedule whether the answer is copied in
time. From 3 on `cn_callback` always finds a unit and drops the answer.

The invariant (`Solo`) counts the units of `cb_sem`: those that are left, those of the call and those
of the callback run add up to the count at the start.

Results:
1. `solo_step`: every step of the call and its answer keeps the invariant.
2. `possible_of_readAfter`: what the call can return.
-/

namespace Sjfs

open Lib

/-- The units of `cb_sem` that a reader has taken and not given back when it stands at an operation.
It takes two and gives back one. -/
def Pc.cbUnits : Pc → Nat
  | .send | .count | .downReply | .copy | .upCn | .done => 1
  | .upCb => 2
  | _ => 0

/-- The operations of a reader behind its second `down(&cb_sem)`. -/
def Pc.passed : Pc → Bool
  | .upCb | .copy | .upCn | .done => true
  | _ => false

namespace Socket

/-! ## One more call -/

/-- The steps of one call `i` of `sjfs_read_block(address, ..)` whose message is allocated, and of its
answer `msg`. -/
def OnlyRead (i : Nat) (address : UInt32) (msg : Msg) (a : Action) : Prop :=
  a = .readBlock i address ∨ a = .kzalloc i true ∨ a = .call i ∨
    ∃ k, a = .answer k msg ∨ a = .deliver k ∨ a = .callback k

/-- After `s`, one more call that is answered by `msg` alone may return `blk`. -/
def ReadAfter (s : Socket) (msg : Msg) (blk : Block) : Prop :=
  ∃ i address t c, s.calls i = none ∧ Reach step (fun _ a => OnlyRead i address msg a) s t ∧
    Rest t ∧ t.calls i = some c ∧ c.block = some blk

/-- What the call can return: its answer over the old buffer when `cb_sem` was at 1, the old buffer
when it was at 3 or more, and either of them when it was at 2. -/
structure Possible (s : Socket) (msg : Msg) (blk : Block) : Prop where
  answered : s.cbSem.count = 1 → blk = fill s.readBlockBuffer msg
  dropped : 3 ≤ s.cbSem.count → blk = s.readBlockBuffer
  either : blk = s.readBlockBuffer ∨ blk = fill s.readBlockBuffer msg

/-! ## The invariant -/

/-- How far the callback run of the answer is: its next operation, and whether it has filled the
buffer. Which branch of `cn_callback` it takes depends on the count `n` of `cb_sem` at the start. -/
inductive RunOk (n : Nat) : Option (CbPc × Bool) → Prop
  | unsent : RunOk n none
  | trylock : RunOk n (some (.trylock, false))
  | release : 2 ≤ n → RunOk n (some (.release, false))
  | copy : n ≤ 2 → RunOk n (some (.copy, false))
  | up : n ≤ 2 → RunOk n (some (.up, true))
  | dropped : 2 ≤ n → RunOk n (some (.done, false))
  | taken : n ≤ 2 → RunOk n (some (.done, true))

/-- The unit that the run has taken with `down_trylock` and not given back. -/
def runHolds : Option (CbPc × Bool) → Nat
  | some (.release, _) => 1
  | _ => 0

/-- The unit that the run has given after a copy. -/
def runGives : Option (CbPc × Bool) → Nat
  | some (.done, true) => 1
  | _ => 0

def runFilled : Option (CbPc × Bool) → Bool
  | some (_, filled) => filled
  | none => false

/-- The callbacks of `t`: there is none for the answer yet, or it is number `k`; all others are
over. -/
def RunIs (k : Nat) (msg : Msg) (t : Socket) : Option (CbPc × Bool) → Prop
  | none => Quiet t ∧ t.delivered = k
  | some (pc, _) => t.callbacks k = some ⟨msg, pc⟩ ∧
      ∀ l b, l ≠ k → t.callbacks l = some b → b.pc = .done

def unitsOf : Option Call → Nat
  | some c => c.pc.cbUnits
  | none => 0

def sentOf : Option Call → Nat
  | some c => if c.pc.afterSend then 1 else 0
  | none => 0

/-- The record of the call. -/
structure ReaderOk (s : Socket) (msg : Msg) (run : Option (CbPc × Bool)) (c : Call) : Prop where
  read : c.kind ≠ .write
  blocked : c.blocked = true → c.pc = .downReply
  passed : s.cbSem.count = 1 → c.pc.passed = true → run = some (.done, true)
  block : c.pc = .upCn ∨ c.pc = .done → ∃ blk, c.block = some blk ∧ Possible s msg blk

/-- Call `i` is alone with its answer after `s`, and `t` is reached. -/
structure Solo (s : Socket) (i : Nat) (msg : Msg) (t : Socket) (run : Option (CbPc × Bool)) :
    Prop where
  others : ∀ j c, j ≠ i → t.calls j = some c → c.pc = .done
  reader : ∀ c, t.calls i = some c → ReaderOk s msg run c
  cnCount : (∀ c, t.calls i = some c → c.pc.owesCn = false ∧ c.pc ≠ .done) → 0 < t.cnSem.count
  runOk : RunOk s.cbSem.count run
  runIs : RunIs s.delivered msg t run
  flight : t.wire.length + t.inbox.length + run.toList.length = sentOf (t.calls i)
  inbox : ∀ r ∈ t.inbox, r.msg = msg
  units : t.cbSem.count + unitsOf (t.calls i) + runHolds run = s.cbSem.count + runGives run
  buffer : t.readBlockBuffer =
    if runFilled run then fill s.readBlockBuffer msg else s.readBlockBuffer

theorem solo_init {s : Socket} (hs : Idle s) {i : Nat} (hi : s.calls i = none) (msg : Msg) :
    Solo s i msg s none where
  others := fun j c _ hc => hs.rest.calls j c hc
  reader := by simp [hi]
  cnCount := fun _ => hs.cnPos
  runOk := .unsent
  runIs := ⟨hs.rest.calm.quiet, rfl⟩
  flight := by simp [hs.rest.calm.wire, hs.rest.calm.inbox, hi, sentOf]
  inbox := by simp [hs.rest.calm.inbox]
  units := by simp [hi, unitsOf, runHolds, runGives]
  buffer := rfl

section Steps

variable {s t t' : Socket} {i : Nat} {msg : Msg} {run : Option (CbPc × Bool)}

theorem Solo.done_of_ne (h : Solo s i msg t run) {j : Nat} {c : Call} (hc : t.calls j = some c)
    (hpc : c.pc ≠ .done) : j = i := by
  by_contra hj
  exact hpc (h.others j c hj hc)

/-- Nobody but the call can wait for `cb_sem`. -/
theorem Solo.cbWaiters (h : Solo s i msg t run) (hq : Queues t) : t.cbSem.waiters = [] ∨
    (t.cbSem.waiters = [i] ∧ ∃ c, t.calls i = some c ∧ c.blocked = true ∧ c.pc = .downReply) := by
  have hmem : ∀ j ∈ t.cbSem.waiters,
      j = i ∧ ∃ c, t.calls i = some c ∧ c.blocked = true ∧ c.pc = .downReply := by
    intro j hj
    have hw := (hq.cb.mem j).mp hj
    cases hc : t.calls j with
    | none => simp [hc, WaitsCb] at hw
    | some c =>
      rw [hc] at hw
      have hji : j = i := h.done_of_ne hc (by rcases hw.2 with hpc | hpc <;> simp [hpc])
      subst hji
      exact ⟨rfl, c, hc, hw.1, (h.reader c hc).blocked hw.1⟩
  have hnodup := hq.cb.nodup
  cases hw : t.cbSem.waiters with
  | nil => exact .inl rfl
  | cons j js =>
    rw [hw] at hmem hnodup
    obtain ⟨rfl, hcall⟩ := hmem j List.mem_cons_self
    cases js with
    | nil => exact .inr ⟨rfl, hcall⟩
    | cons k ks =>
      obtain rfl := (hmem k (by simp)).1
      simp at hnodup

/-- Nobody can wait for `cn_sem`. -/
theorem Solo.cnWaiters (h : Solo s i msg t run) (hq : Queues t) : t.cnSem.waiters = [] := by
  refine List.eq_nil_iff_forall_not_mem.mpr fun j hj => ?_
  have hw := (hq.cn.mem j).mp hj
  cases hc : t.calls j with
  | none => simp [hc, WaitsCn] at hw
  | some c =>
    rw [hc] at hw
    obtain rfl : j = i := h.done_of_ne hc (by simp [hw.2])
    have hpc := (h.reader c hc).blocked hw.1
    rw [hw.2] at hpc
    cases hpc

/-- A step of the call, with what it means for the two semaphores and the wire. -/
theorem Solo.move (h : Solo s i msg t run) {c' : Call}
    (hcalls : t'.calls = Function.update t.calls i (some c')) (hinbox : t'.inbox = t.inbox)
    (hcallbacks : t'.callbacks = t.callbacks) (hdelivered : t'.delivered = t.delivered)
    (hbuffer : t'.readBlockBuffer = t.readBlockBuffer) (hreader : ReaderOk s msg run c')
    (hcn : c'.pc.owesCn = false → c'.pc ≠ .done → 0 < t'.cnSem.count)
    (hunits : t'.cbSem.count + unitsOf (some c') = t.cbSem.count + unitsOf (t.calls i))
    (hwire : t'.wire.length + sentOf (t.calls i) = t.wire.length + sentOf (some c')) :
    Solo s i msg t' run := by
  have hself : t'.calls i = some c' := by rw [hcalls, Function.update_self]
  have hflight := h.flight
  have hold := h.units
  refine ⟨?_, ?_, ?_, h.runOk, ?_, ?_, ?_, ?_, ?_⟩
  · intro j c hj hc
    rw [hcalls, Function.update_of_ne hj] at hc
    exact h.others j c hj hc
  · intro c hc
    rw [hself] at hc
    cases hc
    exact hreader
  · intro hpc
    obtain ⟨howes, hdone⟩ := hpc c' hself
    exact hcn howes hdone
  · have hruns := h.runIs
    cases run with
    | none =>
      refine ⟨fun k b hb => hruns.1 k b ?_, hdelivered.trans hruns.2⟩
      rw [← hcallbacks]
      exact hb
    | some r => simpa only [RunIs, hcallbacks] using hruns
  · rw [hself, hinbox]
    omega
  · rw [hinbox]
    exact h.inbox
  · rw [hself]
    omega
  · rw [hbuffer]
    exact h.buffer

/-- A step of the callback run of the answer, without the wake-up that its `up` may make. -/
theorem Solo.runs {pc pc' : CbPc} {filled filled' : Bool} (h : Solo s i msg t (some (pc, filled)))
    (hpc : pc ≠ .done) (hcalls : t'.calls = t.calls) (hcn : t'.cnSem = t.cnSem)
    (hwire : t'.wire = t.wire) (hinbox : t'.inbox = t.inbox)
    (hcallbacks : t'.callbacks = Function.update t.callbacks s.delivered (some ⟨msg, pc'⟩))
    (hrun : RunOk s.cbSem.count (some (pc', filled')))
    (hunits : t'.cbSem.count + runHolds (some (pc', filled')) =
      t.cbSem.count + runHolds (some (pc, filled)) + runGives (some (pc', filled')))
    (hbuffer : t'.readBlockBuffer =
      if filled' then fill s.readBlockBuffer msg else s.readBlockBuffer) :
    Solo s i msg t' (some (pc', filled')) := by
  have hold := h.units
  have hgives : runGives (some (pc, filled)) = 0 := by
    cases pc <;> first | rfl | exact absurd rfl hpc
  refine ⟨?_, ?_, ?_, hrun, ⟨?_, ?_⟩, ?_, ?_, ?_, hbuffer⟩
  · rw [hcalls]
    exact h.others
  · intro c hc
    have hreader := h.reader c (hcalls ▸ hc)
    refine ⟨hreader.read, hreader.blocked, fun hone hp => ?_, hreader.block⟩
    -- with one unit the call has not passed its second `down` yet
    have hend := hreader.passed hone hp
    simp only [Option.some.injEq, Prod.mk.injEq] at hend
    exact absurd hend.1 hpc
  · rw [hcalls, hcn]
    exact h.cnCount
  · rw [hcallbacks, Function.update_self]
  · intro l b hl hb
    rw [hcallbacks, Function.update_of_ne hl] at hb
    exact h.runIs.2 l b hl hb
  · rw [hwire, hinbox, hcalls]
    exact h.flight
  · rw [hinbox]
    exact h.inbox
  · rw [hcalls]
    omega

/-- A callback run that is not over is the one of the answer. -/
theorem Solo.run_of_callback (h : Solo s i msg t run) {k : Nat} {b : Callback}
    (hb : t.callbacks k = some b) (hpc : b.pc ≠ .done) :
    k = s.delivered ∧ b.msg = msg ∧ ∃ filled, run = some (b.pc, filled) := by
  have hruns := h.runIs
  cases run with
  | none => exact absurd (hruns.1 k b hb) hpc
  | some r =>
    obtain ⟨hself, hothers⟩ := hruns
    obtain rfl : k = s.delivered := by
      by_contra hk
      exact hpc (hothers k b hk hb)
    rw [hself] at hb
    cases hb
    exact ⟨rfl, rfl, r.2, rfl⟩

/-- Before its request is sent, the call has no answer. -/
theorem Solo.run_none (h : Solo s i msg t run) (hsent : sentOf (t.calls i) = 0) : run = none := by
  have hflight := h.flight
  cases run with
  | none => rfl
  | some r =>
    rw [hsent] at hflight
    simp at hflight

/-- The call enters `sjfs_read_block`, allocates its message, or fills it in. -/
theorem Solo.prepare (h : Solo s i msg t run) {c' : Call}
    (hold : ∀ c, t.calls i = some c → c.pc = .kzalloc ∨ c.pc = .sample)
    (hpc : c'.pc = .kzalloc ∨ c'.pc = .sample ∨ c'.pc = .downCn) (hkind : c'.kind ≠ .write)
    (hblocked : c'.blocked = false) : Solo s i msg (t.setCall i c') run := by
  have hcn : 0 < t.cnSem.count := by
    refine h.cnCount fun c hc => ?_
    rcases hold c hc with hpc | hpc <;> simp [hpc, Pc.owesCn]
  have hzero : unitsOf (t.calls i) = 0 ∧ sentOf (t.calls i) = 0 := by
    cases hc : t.calls i with
    | none => exact ⟨rfl, rfl⟩
    | some c =>
      rcases hold c hc with hpc | hpc <;>
        simp [unitsOf, sentOf, hpc, Pc.cbUnits, Pc.afterSend]
  refine h.move rfl rfl rfl rfl rfl ⟨hkind, by simp [hblocked], fun _ hp => ?_, fun hp => ?_⟩
    (fun _ _ => hcn) ?_ ?_
  · rcases hpc with hpc | hpc | hpc <;> simp [hpc, Pc.passed] at hp
  · rcases hpc with hpc | hpc | hpc <;> simp [hpc] at hp
  · rw [hzero.1]
    rcases hpc with hpc | hpc | hpc <;> simp [unitsOf, hpc, Pc.cbUnits, setCall]
  · rw [hzero.2]
    rcases hpc with hpc | hpc | hpc <;> simp [sentOf, hpc, Pc.afterSend, setCall]

/-- The call goes on, not yet to where it has its block. -/
theorem ReaderOk.next {c c' : Call} (h : ReaderOk s msg run c) (hkind : c'.kind = c.kind)
    (hblocked : c'.blocked = false) (hpassed : c'.pc.passed = true → c.pc.passed = true)
    (hbefore : c'.pc ≠ .upCn ∧ c'.pc ≠ .done) : ReaderOk s msg run c' where
  read := hkind ▸ h.read
  blocked := by simp [hblocked]
  passed := fun hone hp => h.passed hone (hpassed hp)
  block := fun hp => absurd hp (by simp [hbefore])

/-- `down(&cn_sem)` does not block. -/
theorem Solo.downCn (h : Solo s i msg t run) {c : Call} (hc : t.calls i = some c)
    (hpc : c.pc = .downCn) : Solo s i msg (t.downCn i c) run := by
  have hreader := h.reader c hc
  have hpos : 0 < t.cnSem.count := by
    refine h.cnCount fun c' hc' => ?_
    obtain rfl : c' = c := Option.some.inj (hc'.symm.trans hc)
    simp [hpc, Pc.owesCn]
  have hnext : c.advance.pc = .downCb := by
    cases hk : c.kind with
    | read => simp [Call.advance, Call.next, hpc, hk]
    | write => exact absurd hk hreader.read
  have hcalls : (t.downCn i c).calls = Function.update t.calls i (some c.advance) := by
    simp [Socket.downCn, setCall, Semaphore.down_of_pos hpos, Call.downed]
  refine h.move hcalls rfl rfl rfl rfl (hreader.next rfl rfl ?_ ?_) ?_ ?_ ?_
  · simp [hnext, Pc.passed]
  · simp [hnext]
  · simp [hnext, Pc.owesCn]
  · simp [hc, hpc, hnext, unitsOf, Pc.cbUnits, Socket.downCn, setCall]
  · simp [hc, hpc, hnext, sentOf, Pc.afterSend, Socket.downCn, setCall]

/-- The first `down(&cb_sem)` does not block. -/
theorem Solo.downFirst (h : Solo s i msg t run) (hpos : 0 < s.cbSem.count) {c : Call}
    (hc : t.calls i = some c) (hpc : c.pc = .downCb) : Solo s i msg (t.downCb i c) run := by
  obtain rfl : run = none := h.run_none (by simp [hc, sentOf, hpc, Pc.afterSend])
  have hunits := h.units
  simp only [hc, unitsOf, hpc, Pc.cbUnits, runHolds, runGives] at hunits
  have hcount : 0 < t.cbSem.count := by omega
  have hnext : c.advance.pc = .send := by simp [Call.advance, Call.next, hpc]
  have hcalls : (t.downCb i c).calls = Function.update t.calls i (some c.advance) := by
    simp [Socket.downCb, setCall, Semaphore.down_of_pos hcount, Call.downed]
  refine h.move hcalls rfl rfl rfl rfl ((h.reader c hc).next rfl rfl ?_ ?_) ?_ ?_ ?_
  · simp [hnext, Pc.passed]
  · simp [hnext]
  · simp [hnext, Pc.owesCn]
  · simp only [hc, hpc, hnext, unitsOf, Pc.cbUnits, Socket.downCb, Semaphore.down_of_pos hcount]
    omega
  · simp [hc, hpc, hnext, sentOf, Pc.afterSend, Socket.downCb, setCall]

/-- The second one blocks until there is a unit. Where there was one at the start, it comes from the
callback run. -/
theorem Solo.downSecond (h : Solo s i msg t run) {c : Call} (hc : t.calls i = some c)
    (hpc : c.pc = .downReply) : Solo s i msg (t.downCb i c) run := by
  have hreader := h.reader c hc
  have hunits := h.units
  simp only [hc, unitsOf, hpc, Pc.cbUnits] at hunits
  rcases Nat.eq_zero_or_pos t.cbSem.count with hzero | hcount
  · have hcalls : (t.downCb i c).calls =
        Function.update t.calls i (some { c with blocked := true }) := by
      simp [Socket.downCb, setCall, Semaphore.down_of_zero hzero, Call.downed]
    refine h.move hcalls rfl rfl rfl rfl ⟨hreader.read, fun _ => hpc, hreader.passed,
      hreader.block⟩ ?_ ?_ ?_
    · simp [hpc, Pc.owesCn]
    · simp [hc, unitsOf, Socket.downCb, Semaphore.down_of_zero hzero]
    · simp [hc, sentOf, Socket.downCb, setCall]
  · have hnext : c.advance.pc = .upCb := by simp [Call.advance, Call.next, hpc]
    have hcalls : (t.downCb i c).calls = Function.update t.calls i (some c.advance) := by
      simp [Socket.downCb, setCall, Semaphore.down_of_pos hcount, Call.downed]
    refine h.move hcalls rfl rfl rfl rfl ⟨hreader.read, by simp [Call.advance], ?_, ?_⟩ ?_ ?_ ?_
    · intro hone _
      have hruns := h.runOk
      rw [hone] at hunits
      cases hruns <;> simp only [runHolds, runGives] at hunits <;> first | rfl | omega
    · simp [hnext]
    · simp [hnext, Pc.owesCn]
    · simp only [hc, hpc, hnext, unitsOf, Pc.cbUnits, Socket.downCb, Semaphore.down_of_pos hcount]
      omega
    · simp [hc, hpc, hnext, sentOf, Pc.afterSend, Socket.downCb, setCall]

/-- The call's `up(&cb_sem)` wakes nobody. -/
theorem Solo.upCb (h : Solo s i msg t run) (hq : Queues t) {c : Call} (hc : t.calls i = some c)
    (hpc : c.pc = .upCb) : Solo s i msg (t.setCall i c.advance).upCb run := by
  have hwaiters : t.cbSem.waiters = [] := by
    rcases h.cbWaiters hq with hw | ⟨_, d, hd, _, hdpc⟩
    · exact hw
    · obtain rfl : d = c := Option.some.inj (hd.symm.trans hc)
      rw [hpc] at hdpc
      cases hdpc
  have hnext : c.advance.pc = .copy := by simp [Call.advance, Call.next, hpc]
  have hcalls : (t.setCall i c.advance).upCb.calls = Function.update t.calls i (some c.advance) := by
    simp [Socket.upCb, setCall, Semaphore.up_of_nil hwaiters, Semaphore.wake]
  refine h.move hcalls rfl rfl rfl rfl ((h.reader c hc).next rfl rfl ?_ ?_) ?_ ?_ ?_
  · simp [hpc, Pc.passed]
  · simp [hnext]
  · simp [hnext, Pc.owesCn]
  · simp [hc, hpc, hnext, unitsOf, Pc.cbUnits, Socket.upCb, setCall,
      Semaphore.up_of_nil hwaiters]
  · simp [hc, hpc, hnext, sentOf, Pc.afterSend, Socket.upCb, setCall]

/-- What the buffer holds when the call copies it. -/
theorem Solo.possible (h : Solo s i msg t run) {c : Call} (hc : t.calls i = some c)
    (hpc : c.pc = .copy) : Possible s msg t.readBlockBuffer := by
  have hbuffer := h.buffer
  have hruns := h.runOk
  refine ⟨fun hone => ?_, fun hthree => ?_, ?_⟩
  · obtain rfl := (h.reader c hc).passed hone (by simp [hpc, Pc.passed])
    exact hbuffer
  · cases hruns with
    | up hle | taken hle => omega
    | unsent | trylock | release | copy | dropped => exact hbuffer
  · cases hfilled : runFilled run <;> rw [hfilled] at hbuffer
    · exact .inl hbuffer
    · exact .inr hbuffer

/-- The call's `up(&cn_sem)` wakes nobody. -/
theorem Solo.upCn (h : Solo s i msg t run) (hq : Queues t) {c : Call} (hc : t.calls i = some c)
    (hpc : c.pc = .upCn) : Solo s i msg (t.setCall i c.advance).upCn run := by
  have hreader := h.reader c hc
  have hnext : c.advance.pc = .done := by simp [Call.advance, Call.next, hpc]
  have hcalls : (t.setCall i c.advance).upCn.calls = Function.update t.calls i (some c.advance) := by
    simp [Socket.upCn, setCall, Semaphore.up_of_nil (h.cnWaiters hq), Semaphore.wake]
  refine h.move hcalls rfl rfl rfl rfl ⟨hreader.read, by simp [Call.advance], ?_, ?_⟩ ?_ ?_ ?_
  · exact fun hone _ => hreader.passed hone (by simp [hpc, Pc.passed])
  · exact fun _ => hreader.block (.inl hpc)
  · exact fun _ hne => absurd hnext hne
  · simp [hc, hpc, hnext, unitsOf, Pc.cbUnits, Socket.upCn, setCall]
  · simp [hc, hpc, hnext, sentOf, Pc.afterSend, Socket.upCn, setCall]

/-- When the answer has been delivered, the call has one or two units of `cb_sem`. -/
theorem Solo.units_of_run {r : CbPc × Bool} (h : Solo s i msg t (some r)) :
    1 ≤ unitsOf (t.calls i) ∧ unitsOf (t.calls i) ≤ 2 := by
  have hflight := h.flight
  simp only [Option.toList_some, List.length_singleton] at hflight
  cases hc : t.calls i with
  | none => simp [hc, sentOf] at hflight
  | some c =>
    rw [hc] at hflight
    cases hpc : c.pc <;> simp [sentOf, unitsOf, hpc, Pc.afterSend, Pc.cbUnits] at hflight ⊢

/-- The callback run looks whether somebody waits, and then fills the buffer. -/
theorem Solo.trylock_pos (h : Solo s i msg t run) {k : Nat} {b : Callback}
    (hb : t.callbacks k = some b) (hpc : b.pc = .trylock) (hcount : 0 < t.cbSem.count) :
    Solo s i msg { t.setCallback k { b with pc := .release } with
      cbSem := { t.cbSem with count := t.cbSem.count - 1 } } (some (.release, false)) := by
  obtain ⟨rfl, rfl, filled, rfl⟩ := h.run_of_callback hb (by simp [hpc])
  have hunits := h.units
  have hone := h.units_of_run.1
  have hruns := h.runOk
  rw [hpc] at hruns hunits
  cases hruns
  simp only [runHolds, runGives] at hunits
  refine h.runs (by simp [hpc]) rfl rfl rfl rfl rfl (.release (by omega)) ?_ h.buffer
  simp only [hpc, runHolds, runGives]
  omega

theorem Solo.trylock_zero (h : Solo s i msg t run) {k : Nat} {b : Callback}
    (hb : t.callbacks k = some b) (hpc : b.pc = .trylock) (hzero : t.cbSem.count = 0) :
    Solo s i msg (t.setCallback k { b with pc := .copy }) (some (.copy, false)) := by
  obtain ⟨rfl, rfl, filled, rfl⟩ := h.run_of_callback hb (by simp [hpc])
  have hunits := h.units
  have htwo := h.units_of_run.2
  have hruns := h.runOk
  rw [hpc] at hruns hunits
  cases hruns
  simp only [runHolds, runGives] at hunits
  refine h.runs (by simp [hpc]) rfl rfl rfl rfl rfl (.copy (by omega)) ?_ h.buffer
  simp [hpc, runHolds, runGives, setCallback]

theorem Solo.fill (h : Solo s i msg t run) {k : Nat} {b : Callback}
    (hb : t.callbacks k = some b) (hpc : b.pc = .copy) :
    Solo s i msg { t.setCallback k { b with pc := .up } with
      readBlockBuffer := Socket.fill t.readBlockBuffer b.msg } (some (.up, true)) := by
  obtain ⟨rfl, rfl, filled, rfl⟩ := h.run_of_callback hb (by simp [hpc])
  have hruns := h.runOk
  have hbuffer := h.buffer
  rw [hpc] at hruns
  cases hruns with
  | copy hle =>
    refine h.runs (by simp [hpc]) rfl rfl rfl rfl rfl (.up hle) ?_ ?_
    · simp [hpc, runHolds, runGives, setCallback]
    · rw [show t.readBlockBuffer = s.readBlockBuffer from hbuffer]
      rfl

/-- The end of the callback run. Its `up` gives the unit to the call when it waits, as if the call
had found it. -/
theorem Solo.finish (h : Solo s i msg t run) (hq : Queues t) {k : Nat} {b : Callback}
    (hb : t.callbacks k = some b) (hpc : b.pc = .release ∨ b.pc = .up) :
    ∃ run', Solo s i msg (t.setCallback k { b with pc := .done }).upCb run' := by
  have hne : b.pc ≠ .done := by rcases hpc with hpc | hpc <;> simp [hpc]
  obtain ⟨rfl, rfl, filled, rfl⟩ := h.run_of_callback hb hne
  have hend : RunOk s.cbSem.count (some (.done, filled)) ∧
      1 = runHolds (some (b.pc, filled)) + runGives (some (.done, filled)) := by
    have hruns := h.runOk
    rcases hpc with hpc | hpc
    · rw [hpc] at hruns ⊢
      cases hruns with
      | release hle => exact ⟨.dropped hle, rfl⟩
    · rw [hpc] at hruns ⊢
      cases hruns with
      | up hle => exact ⟨.taken hle, rfl⟩
  have hdone : ∀ {u : Socket}, u.calls = t.calls → u.cnSem = t.cnSem → u.wire = t.wire →
      u.inbox = t.inbox → u.callbacks = Function.update t.callbacks s.delivered
        (some ⟨b.msg, .done⟩) → u.cbSem.count = t.cbSem.count + 1 →
      u.readBlockBuffer = t.readBlockBuffer → Solo s i b.msg u (some (.done, filled)) := by
    intro u hcalls hcn hwire hinbox hcallbacks hcount hbuffer
    refine h.runs hne hcalls hcn hwire hinbox hcallbacks hend.1 ?_ (hbuffer.trans h.buffer)
    have hone := hend.2
    simp only [runHolds] at hone ⊢
    omega
  refine ⟨some (.done, filled), ?_⟩
  rcases h.cbWaiters hq with hw | ⟨hw, c, hc, hblocked, hcpc⟩
  · refine hdone ?_ rfl rfl rfl rfl ?_ rfl
    · simp [Socket.upCb, setCallback, Semaphore.up_of_nil hw, Semaphore.wake]
    · simp [Socket.upCb, setCallback, Semaphore.up_of_nil hw]
  · -- the state in which the unit is free and the call has not taken it yet
    have hfree : Solo s i b.msg { t.setCallback s.delivered { b with pc := .done } with
        cbSem := ⟨t.cbSem.count + 1, []⟩ } (some (.done, filled)) :=
      hdone rfl rfl rfl rfl rfl rfl rfl
    have hreader := hfree.reader c hc
    have hnext : c.advance.pc = .upCb := by simp [Call.advance, Call.next, hcpc]
    have hcalls : (t.setCallback s.delivered { b with pc := .done }).upCb.calls =
        Function.update t.calls i (some c.advance) := by
      simp [Socket.upCb, setCallback, Semaphore.up_of_cons hw, Semaphore.wake, hc]
    refine hfree.move hcalls rfl rfl rfl rfl ⟨hreader.read, by simp [Call.advance], ?_, ?_⟩ ?_ ?_ ?_
    · intro hone _
      have hruns := hend.1
      cases hruns with
      | dropped hle => omega
      | taken => rfl
    · simp [hnext]
    · simp [hnext, Pc.owesCn]
    · simp [setCallback, hc, hcpc, hnext, unitsOf, Pc.cbUnits, Socket.upCb,
        Semaphore.up_of_cons hw]
    · simp [setCallback, hc, hcpc, hnext, sentOf, Pc.afterSend, Socket.upCb]

/-- The peer's answer is on its way. -/
theorem Solo.answered (h : Solo s i msg t run) {k : Nat} {r : Request} (hr : t.wire[k]? = some r) :
    Solo s i msg { t with
      wire := t.wire.eraseIdx k
      inbox := t.inbox ++ [⟨r.caller, msg⟩]
      answer := Function.update t.answer r.caller (some msg) } run := by
  have hlt : k < t.wire.length := (List.getElem?_eq_some_iff.mp hr).1
  refine ⟨h.others, h.reader, h.cnCount, h.runOk, ?_, ?_, ?_, h.units, h.buffer⟩
  · cases run with
    | none => exact h.runIs
    | some r => exact h.runIs
  · have hflight := h.flight
    simp only [List.length_eraseIdx_of_lt hlt, List.length_append, List.length_singleton]
    omega
  · intro r' hr'
    rcases List.mem_append.mp hr' with hr' | hr'
    · exact h.inbox r' hr'
    · rw [List.mem_singleton.mp hr']

/-- The answer is delivered: its callback run starts. -/
theorem Solo.delivered (h : Solo s i msg t run) {k : Nat} {r : Reply} (hr : t.inbox[k]? = some r) :
    Solo s i msg ({ t with inbox := t.inbox.eraseIdx k }.start r.msg)
      (some (.trylock, false)) := by
  have hlt : k < t.inbox.length := (List.getElem?_eq_some_iff.mp hr).1
  have hflight := h.flight
  have hsent : sentOf (t.calls i) ≤ 1 := by
    unfold sentOf
    split
    · split <;> omega
    · omega
  obtain rfl : run = none := by
    cases run with
    | none => rfl
    | some r =>
      simp only [Option.toList_some, List.length_singleton] at hflight
      omega
  obtain ⟨hquiet, hnumber⟩ := h.runIs
  obtain rfl : r.msg = msg := h.inbox r (List.mem_of_getElem? hr)
  refine ⟨h.others, ?_, h.cnCount, .trylock, ⟨?_, ?_⟩, ?_, ?_, h.units, h.buffer⟩
  · intro c hc
    have hreader := h.reader c hc
    exact ⟨hreader.read, hreader.blocked, fun hone hp => absurd (hreader.passed hone hp) (by simp),
      hreader.block⟩
  · rw [← hnumber]
    exact Function.update_self ..
  · intro l b hl hb
    rw [← hnumber] at hl
    exact hquiet l b ((Function.update_of_ne hl ..).symm.trans hb)
  · simp only [start, setCallback, List.length_eraseIdx_of_lt hlt, Option.toList_some,
      List.length_singleton, Option.toList_none, List.length_nil] at hflight ⊢
    omega
  · intro r' hr'
    exact h.inbox r' (List.mem_of_mem_eraseIdx hr')

/-- Every step of the call and its answer keeps the invariant. -/
theorem solo_step (h : Solo s i msg t run) (hq : Queues t) (hpos : 0 < s.cbSem.count)
    {address : UInt32} {a : Action} (ha : OnlyRead i address msg a) (hstep : Step t a t') :
    ∃ run', Solo s i msg t' run' := by
  cases hstep with
  | @readBlock j ad hc =>
    obtain ⟨rfl, rfl⟩ : j = i ∧ ad = address := by simpa [OnlyRead] using ha
    exact ⟨run, h.prepare (by simp [hc]) (.inl rfl) (by simp) rfl⟩
  | writeBlock | allocFail | inject => simp [OnlyRead] at ha
  | @alloc j c hc hpc =>
    obtain rfl : j = i := by simpa [OnlyRead] using ha
    refine ⟨run, h.prepare ?_ (.inr (.inl ?_)) (h.reader c hc).read rfl⟩
    · intro c' hc'
      obtain rfl : c' = c := Option.some.inj (hc'.symm.trans hc)
      exact .inl hpc
    · simp [Call.advance, Call.next, hpc]
  | @sample j c ad hc hb hpc hk =>
    obtain rfl : j = i := by simpa [OnlyRead] using ha
    refine ⟨run, h.prepare ?_ (.inr (.inr ?_)) (h.reader c hc).read rfl⟩
    · intro c' hc'
      obtain rfl : c' = c := Option.some.inj (hc'.symm.trans hc)
      exact .inr hpc
    · simp [Call.advance, Call.next, hpc]
  | @downCn j c hc hb hpc =>
    obtain rfl : j = i := by simpa [OnlyRead] using ha
    exact ⟨run, h.downCn hc hpc⟩
  | @downCb j c hc hb hpc =>
    obtain rfl : j = i := by simpa [OnlyRead] using ha
    rcases hpc with hpc | hpc
    · exact ⟨run, h.downFirst hpos hc hpc⟩
    · exact ⟨run, h.downSecond hc hpc⟩
  | @send j c m hc hb hpc hm | @count j c hc hb hpc =>
    obtain rfl : j = i := by simpa [OnlyRead] using ha
    refine ⟨run, h.move rfl rfl rfl rfl rfl ((h.reader c hc).next rfl rfl ?_ ?_) ?_ ?_ ?_⟩
    all_goals simp [hc, hpc, Call.advance, Call.next, Pc.passed, Pc.owesCn, unitsOf, sentOf,
      Pc.cbUnits, Pc.afterSend, setCall]
  | @upCb j c hc hb hpc =>
    obtain rfl : j = i := by simpa [OnlyRead] using ha
    exact ⟨run, h.upCb hq hc hpc⟩
  | @copy j c hc hb hpc =>
    obtain rfl : j = i := by simpa [OnlyRead] using ha
    have hreader := h.reader c hc
    refine ⟨run, h.move rfl rfl rfl rfl rfl ⟨hreader.read, by simp [Call.advance], ?_, ?_⟩ ?_ ?_ ?_⟩
    · exact fun hone _ => hreader.passed hone (by simp [hpc, Pc.passed])
    · exact fun _ => ⟨_, rfl, h.possible hc hpc⟩
    all_goals simp [hc, hpc, Call.advance, Call.next, Pc.owesCn, unitsOf, sentOf, Pc.cbUnits,
      Pc.afterSend, setCall]
  | @upCn j c hc hb hpc =>
    obtain rfl : j = i := by simpa [OnlyRead] using ha
    exact ⟨run, h.upCn hq hc hpc⟩
  | @answer k m r hr =>
    obtain rfl : m = msg := by simpa [OnlyRead] using ha
    exact ⟨run, h.answered hr⟩
  | deliver hr => exact ⟨_, h.delivered hr⟩
  | probe hb hpc hcount => exact ⟨_, h.trylock_pos hb hpc hcount⟩
  | need hb hpc hzero => exact ⟨_, h.trylock_zero hb hpc hzero⟩
  | fill hb hpc => exact ⟨_, h.fill hb hpc⟩
  | finish hb hpc => exact h.finish hq hb hpc

end Steps

/-- Whatever one more call returns is possible in this sense. -/
theorem possible_of_readAfter {s : Socket} (hs : Idle s) {msg : Msg} {blk : Block}
    (h : ReadAfter s msg blk) : Possible s msg blk := by
  obtain ⟨i, address, t, c, hi, hreach, hrest, hc, hblk⟩ := h
  have hinv : Queues t ∧ ∃ run, Solo s i msg t run := by
    refine hreach.invariant (I := fun t => Queues t ∧ ∃ run, Solo s i msg t run)
      ⟨hs.queues, none, solo_init hs hi msg⟩ ?_
    rintro u a u' ⟨hq, run, hsolo⟩ ha hstep
    have hstep' := step_cases hstep
    exact ⟨queues_step hq hstep', solo_step hsolo hq hs.cbPos ha hstep'⟩
  obtain ⟨_, run, hsolo⟩ := hinv
  obtain ⟨blk', hblk', hpossible⟩ := (hsolo.reader c hc).block (.inr (hrest.calls i c hc))
  obtain rfl : blk' = blk := Option.some.inj (hblk'.symm.trans hblk)
  exact hpossible

end Socket

end Sjfs
