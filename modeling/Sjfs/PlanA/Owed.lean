import Sjfs.PlanA.Reply

/-!
# Plan a: replies that nobody owes

`sjfs_fops_read` takes both semaphores before it allocates its message. When the allocation fails it
goes on behind the branch, to its second `down(&cb_sem)`, and waits there for the reply to a request
it has not sent, with `cn_sem` in its hands.

Results:
1. `Holder.canRelease`: as long as no `kzalloc` of `sjfs_fops_read` fails, whoever holds `cn_sem` can
   get to its release, from every reachable state.
2. `owed_iff`: exactly for which patterns of failed allocations every reader that waits is owed a
   reply, and `cn_sem` is not held for ever.
3. `stuck_step`, `failed_alloc_blocks_all`: after one such failure no call ever gets `cn_sem` again.
-/

namespace Sjfs

open Lib

namespace PlanA

/-- A blocked call stands at a `down`, and a call that has filled in its message has one. -/
structure Call.Wf (c : Call) : Prop where
  awake : c.blocked = true → c.pc = .downCn ∨ c.pc = .downCb ∨ c.pc = .downReply
  message : c.pc.sampled = true → c.m ≠ none

namespace Channel

/-! ## Patterns of failed allocations -/

/-- Which allocations succeed: those of the reads, the two of the writes, by call, and those of the
callback runs. -/
structure Allocs where
  read : Nat → Bool
  writeM : Nat → Bool
  writeData : Nat → Bool
  callback : Nat → Bool

/-- The result of the `kzalloc` that call `i`, in state `c`, stands at. -/
def Allocs.result (π : Allocs) (i : Nat) (c : Call) : Bool :=
  if c.kind.isRead then π.read i else if c.pc = .kzalloc then π.writeM i else π.writeData i

/-- The allocations of this step go as `π` says. -/
structure AllocPattern (π : Allocs) (s : Channel) (a : Action) : Prop where
  call : ∀ i ok c, a = .kzalloc i ok → s.calls i = some c → ok = π.result i c
  callback : ∀ k ok, a = .callbackKzalloc k ok → ok = π.callback k

theorem readAllocOk_of_pattern {π : Allocs} (hπ : ∀ i, π.read i = true) {s : Channel} {a : Action}
    (h : AllocPattern π s a) : ReadAllocOk s a := by
  intro i c ha hc
  have hresult := h.call i false c ha hc
  by_contra hk
  simp [Allocs.result, hk, hπ i] at hresult

/-! ## What a blocked call and a message show -/

theorem OwnStep.unblocked {i : Nat} {seq : UInt32} {buffer : Option ReadBuffer} {c c' : Call}
    {a : Action} (h : OwnStep i seq buffer c a c') (hwf : c.Wf) : c.blocked = false := by
  by_contra hb
  have hb' : c.blocked = true := by simpa using hb
  rcases hwf.awake hb' with hpc | hpc
  · exact h.spec.1.1 ⟨hb', hpc⟩
  · exact h.spec.1.2 ⟨hb', hpc⟩

theorem CallStep.wf {j : Nat} {seq : UInt32} {buffer : Option ReadBuffer} {a : Action}
    {o : Option Call} {c' : Call} (h : CallStep j seq buffer a o c')
    (hwf : ∀ c, o = some c → c.Wf) : c'.Wf := by
  cases h with
  | same => exact hwf c' rfl
  | before hpc => exact ⟨fun _ => .inl hpc, by simp [hpc, Pc.sampled]⟩
  | @own c _ ho =>
    have hb := ho.unblocked (hwf c rfl)
    constructor
    · intro hb'
      cases ho <;> simp_all [Call.advance]
    · intro hs
      cases ho with
      | sample | copyAll => simp
      | alloc hpc hk | allocWrite _ hpc hk =>
        simp [Call.advance, Call.next, hpc, hk, Pc.sampled] at hs
      | allocData hpc | copyToUser hpc => simp [Call.advance, Call.next, hpc, Pc.sampled] at hs
      | allocFail | allocDataFail | copyPart => simp [Pc.sampled] at hs
  | @move c hpc =>
    constructor
    · intro hb
      cases hb
    · cases hp : c.pc <;> cases hk : c.kind.isRead <;>
        simp_all [Pc.shared, Pc.sampled, Call.advance, Call.next]
  | @block c hpc =>
    refine ⟨fun _ => .inr hpc, ?_⟩
    rcases hpc with hpc | hpc <;> simp [hpc, Pc.sampled]

/-- Whatever is in flight, a call has sent a request for it. -/
structure Traced (s : Channel) : Prop where
  wire : ∀ i ∈ s.wire, i ∈ s.sent.map Request.caller
  inbox : ∀ r ∈ s.inbox, r.caller ∈ s.sent.map Request.caller
  callbacks : ∀ k b, s.callbacks k = some b → b.caller ∈ s.sent.map Request.caller

theorem traced_step {s t : Channel} {a : Action} (h : Step s a t) (ht : Traced s) : Traced t := by
  have hset : ∀ {k : Nat} {b : Callback}, b.caller ∈ s.sent.map Request.caller →
      ∀ l d, Function.update s.callbacks k (some b) l = some d →
        d.caller ∈ s.sent.map Request.caller := by
    intro k b hb l d hd
    by_cases hl : l = k
    · subst hl
      rw [Function.update_self] at hd
      cases hd
      exact hb
    · rw [Function.update_of_ne hl] at hd
      exact ht.callbacks l d hd
  cases h with
  | @send i c m hc hpc hm =>
    have hmore : ∀ {j : Nat}, j ∈ s.sent.map Request.caller →
        j ∈ (s.sent ++ [(⟨i, m⟩ : Request)]).map Request.caller := by
      intro j hj
      rw [List.map_append]
      exact List.mem_append_left _ hj
    refine ⟨fun j hj => ?_, fun r hr => hmore (ht.inbox r hr), fun k b hb => hmore (ht.callbacks k b hb)⟩
    simp only [netlinkSend, setCall] at hj
    split at hj
    · rcases List.mem_append.mp hj with hj | hj
      · exact hmore (ht.wire j hj)
      · rw [List.mem_singleton] at hj
        simp [netlinkSend, setCall, hj]
    · exact hmore (ht.wire j hj)
  | @answer k i msg hk =>
    refine ⟨fun j hj => ht.wire j (List.mem_of_mem_eraseIdx hj), fun r hr => ?_, ht.callbacks⟩
    rcases List.mem_append.mp hr with hr | hr
    · exact ht.inbox r hr
    · rw [List.mem_singleton] at hr
      subst hr
      exact ht.wire i (List.mem_of_getElem? hk)
  | @deliver k r hk =>
    exact ⟨ht.wire, fun r' hr' => ht.inbox r' (List.mem_of_mem_eraseIdx hr'),
      hset (ht.inbox r (List.mem_of_getElem? hk))⟩
  | probe hb | need hb | callbackAlloc hb | callbackAllocFail hb | memcpy hb | finish hb =>
    have hcaller := ht.callbacks _ _ hb
    exact ⟨ht.wire, ht.inbox, hset hcaller⟩
  | enter | own | downCn | downCb | count | upCb | upCn => exact ⟨ht.wire, ht.inbox, ht.callbacks⟩

/-! ## Getting to the release -/

/-- `cn_sem` is held by `o`, in a run in which no `kzalloc` of `sjfs_fops_read` has failed. -/
structure Holder (s : Channel) (o : Nat) : Prop where
  locked : Locked s (some o)
  settled : Settled False s (some o)
  wf : ∀ i c, s.calls i = some c → c.Wf

/-- Some continuation gets call `o` past its `up(&cn_sem)`. -/
def CanRelease (π : Allocs) (s : Channel) (o : Nat) : Prop :=
  ∃ t, Reach step (AllocPattern π) s t ∧ ¬ HoldsCn (t.calls o)

theorem wf_step {s t : Channel} {a : Action} {owner : Option Nat} (hl : Locked s owner)
    (hwf : ∀ i c, s.calls i = some c → c.Wf) (h : Step s a t) : ∀ i c, t.calls i = some c → c.Wf :=
  fun i _ hc => (step_call hl h hc).wf (hwf i)

section Release

variable {π : Allocs} {s t : Channel} {o : Nat} {c : Call} {a : Action}

theorem CanRelease.of_step (hok : AllocPattern π s a) (hs : step s a = some t)
    (h : CanRelease π t o) : CanRelease π s o := by
  obtain ⟨u, hu, hrel⟩ := h
  exact ⟨u, (Reach.refl.tail hok hs).trans hu, hrel⟩

theorem holder_step (h : Holder s o) (hπ : ∀ i, π.read i = true) (hok : AllocPattern π s a)
    (hs : step s a = some t) (howner : s.ownerAfter a (some o) = some o) : Holder t o := by
  have hstep := step_cases hs
  have hl := locked_step h.locked hstep
  have hsettled := settled_step h.locked h.settled (readAllocOk_of_pattern hπ hok) False.elim hstep
  rw [howner] at hl hsettled
  exact ⟨hl, hsettled, wf_step h.locked h.wf hstep⟩

theorem pattern_call (i : Nat) : AllocPattern π s (.call i) :=
  ⟨fun _ _ _ h => (by cases h), fun _ _ h => by cases h⟩

/-- One operation of the holder on its way to the release. -/
theorem Holder.of_call (h : Holder s o) (hπ : ∀ i, π.read i = true) (hc : s.calls o = some c)
    (hpc : c.pc ≠ .downCn ∧ c.pc ≠ .upCn) (hs : step s (.call o) = some t)
    (hnext : Holder t o → CanRelease π t o) : CanRelease π s o := by
  have howner := ownerAfter_call hc hpc (some o)
  exact .of_step (pattern_call o) hs (hnext (holder_step h hπ (pattern_call o) hs howner))

/-- A holder that is not at a `down` is not blocked. -/
theorem Holder.unblocked (h : Holder s o) (hc : s.calls o = some c)
    (hpc : c.pc ≠ .downCn ∧ c.pc ≠ .downCb ∧ c.pc ≠ .downReply) : c.blocked = false := by
  by_contra hb
  rcases (h.wf o c hc).awake (by simpa using hb) with hp | hp | hp
  · exact hpc.1 hp
  · exact hpc.2.1 hp
  · exact hpc.2.2 hp

theorem Holder.upCn (h : Holder s o) (hc : s.calls o = some c) (hpc : c.pc = .upCn) :
    CanRelease π s o := by
  have hb := h.unblocked hc (by simp [hpc])
  have hs : step s (.call o) = some (s.setCall o c.advance).upCn := by
    simp [step, stepCall, hc, hb, hpc]
  refine ⟨_, Reach.refl.tail (pattern_call o) hs, ?_⟩
  rw [(h.locked.upCn hc hb hpc).holds o]
  intro hw
  have hwaits := h.locked.cn.up_waits hw
  simp [hc, WaitsCn, hb] at hwaits

theorem Holder.copyToUser (h : Holder s o) (hπ : ∀ i, π.read i = true) (hc : s.calls o = some c)
    (hpc : c.pc = .copyToUser) : CanRelease π s o := by
  have hb := h.unblocked hc (by simp [hpc])
  have hs : step s (.call o) =
      some (s.setCall o { c.advance with copied := some s.readBuffer }) := by
    simp [step, stepCall, hc, hb, hpc]
  refine h.of_call hπ hc (by simp [hpc]) hs fun ht => ht.upCn (Function.update_self ..) ?_
  simp [Call.advance, Call.next, hpc]

theorem Holder.upCb (h : Holder s o) (hπ : ∀ i, π.read i = true) (hc : s.calls o = some c)
    (hpc : c.pc = .upCb) : CanRelease π s o := by
  have hb := h.unblocked hc (by simp [hpc])
  have hs : step s (.call o) = some (s.setCall o c.advance).upCb := by
    simp [step, stepCall, hc, hb, hpc]
  have hpassed := ((h.settled.talk hc).passed_of_upCb hpc).2
  have hset : (s.setCall o c.advance).cbSem = ⟨0, []⟩ := hpassed.1
  refine h.of_call hπ hc (by simp [hpc]) hs fun ht => ht.copyToUser hπ (c := c.advance) ?_ ?_
  · rw [(upCb_of_nil hset).2]
    exact Function.update_self ..
  · simp [Call.advance, Call.next, hpc]

theorem pc_of_sent (h : c.part = .sent) :
    c.kind.isRead = true ∧ (c.pc = .count ∨ (c.pc = .downReply ∧ c.blocked = false)) := by
  unfold Call.part at h
  cases hk : c.kind.isRead <;> cases hpc : c.pc <;> cases hb : c.blocked <;> simp_all

theorem pc_of_waits (h : c.part = .waits) : c.kind.isRead = true ∧ c.pc = .downReply := by
  unfold Call.part at h
  cases hk : c.kind.isRead <;> cases hpc : c.pc <;> cases hb : c.blocked <;> simp_all

/-- A read that finds a unit for its second `down`. -/
theorem Holder.downReply (h : Holder s o) (hπ : ∀ i, π.read i = true) (hc : s.calls o = some c)
    (hpc : c.pc = .downReply) (hb : c.blocked = false) (hsem : s.cbSem = ⟨1, []⟩) :
    CanRelease π s o := by
  have hdown : s.cbSem.down o = (⟨0, []⟩, true) := by
    rw [hsem]
    rfl
  have hs : step s (.call o) = some (s.downCb o c) := by simp [step, stepCall, hc, hb, hpc]
  refine h.of_call hπ hc (by simp [hpc]) hs fun ht => ht.upCb hπ (c := c.advance) ?_ ?_
  · simp [Channel.downCb, setCall, hdown, Call.downed]
  · simp [Call.advance, Call.next, hpc]

theorem Holder.told (h : Holder s o) (hπ : ∀ i, π.read i = true) (hc : s.calls o = some c)
    (hp : c.part = .sent) (hsem : s.cbSem = ⟨1, []⟩) : CanRelease π s o := by
  obtain ⟨hk, hpc | ⟨hpc, hb⟩⟩ := pc_of_sent hp
  · have hb := h.unblocked hc (by simp [hpc])
    have hs : step s (.call o) = some { s.setCall o c.advance with counter := s.counter + 1 } := by
      simp [step, stepCall, hc, hb, hpc]
    refine h.of_call hπ hc (by simp [hpc]) hs fun ht =>
      ht.downReply hπ (c := c.advance) (Function.update_self ..) ?_ rfl hsem
    simp [Call.advance, Call.next, hpc, hk]
  · exact h.downReply hπ hc hpc hb hsem

/-! ## The reply on its way -/

/-- An operation of the peer or of a callback run. -/
theorem Holder.of_other (h : Holder s o) (hπ : ∀ i, π.read i = true) (hok : AllocPattern π s a)
    (hs : step s a = some t) (ha : ∀ i, a ≠ .call i) (hnext : Holder t o → CanRelease π t o) :
    CanRelease π s o := by
  refine .of_step hok hs (hnext (holder_step h hπ hok hs ?_))
  cases a with
  | call i => exact absurd rfl (ha i)
  | _ => rfl

theorem pattern_other (hcall : ∀ i ok, a ≠ .kzalloc i ok) (hcb : ∀ k ok, a ≠ .callbackKzalloc k ok) :
    AllocPattern π s a :=
  ⟨fun i ok _ h => absurd h (hcall i ok), fun k ok h => absurd h (hcb k ok)⟩

theorem Holder.run_up (h : Holder s o) (hπ : ∀ i, π.read i = true) {k : Nat} {b : Callback}
    (hb : s.callbacks k = some b) (hpc : b.pc = .up) : CanRelease π s o := by
  obtain ⟨o', c, ho, hc, he, _⟩ := h.settled.run hb (by simp [hpc])
  cases ho
  have hs : step s (.callback k) = some (s.setCallback k { b with pc := .done }).upCb := by
    simp [step, stepCallback, hb, hpc]
  refine h.of_other hπ (pattern_other (by simp) (by simp)) hs (by simp) fun ht => ?_
  rcases he with ⟨hp, hsem⟩ | ⟨hp, hsem⟩
  · have hset : (s.setCallback k { b with pc := .done }).cbSem = ⟨0, []⟩ := hsem
    obtain ⟨hsem', hcalls⟩ := upCb_of_nil hset
    exact ht.told hπ (hcalls ▸ hc) hp hsem'
  · have hups : s.cbSem.up = (⟨0, []⟩, some o) := by
      rw [hsem]
      rfl
    refine ht.upCb hπ (c := c.advance) ?_ ?_
    · simp [Channel.upCb, setCallback, hups, Semaphore.wake, hc]
    · simp [Call.advance, Call.next, (pc_of_waits hp).2]

theorem Holder.run_memcpy (h : Holder s o) (hπ : ∀ i, π.read i = true) {k : Nat} {b : Callback}
    (hb : s.callbacks k = some b) (hpc : b.pc = .memcpy) : CanRelease π s o := by
  have hs : step s (.callback k) = some { s.setCallback k { b with pc := .up } with
      readBuffer := s.readBuffer.map fun buffer => { buffer with bytes := b.msg.bytes } } := by
    simp [step, stepCallback, hb, hpc]
  exact h.of_other hπ (pattern_other (by simp) (by simp)) hs (by simp) fun ht =>
    ht.run_up hπ (Function.update_self ..) rfl

theorem Holder.run_kzalloc (h : Holder s o) (hπ : ∀ i, π.read i = true) {k : Nat} {b : Callback}
    (hb : s.callbacks k = some b) (hpc : b.pc = .kzalloc) : CanRelease π s o := by
  have hok : AllocPattern π s (.callbackKzalloc k (π.callback k)) :=
    ⟨fun _ _ _ h => (by cases h), fun _ _ h => by cases h; rfl⟩
  cases halloc : π.callback k with
  | true =>
    rw [halloc] at hok
    have hs : step s (.callbackKzalloc k true) = some { s.setCallback k { b with pc := .memcpy } with
        readBuffer := some ⟨k, List.replicate b.msg.count 0⟩ } := by
      simp [step, stepCallbackKzalloc, hb, hpc]
    exact h.of_other hπ hok hs (by simp) fun ht => ht.run_memcpy hπ (Function.update_self ..) rfl
  | false =>
    rw [halloc] at hok
    have hs : step s (.callbackKzalloc k false) = some { s.setCallback k { b with pc := .up } with
        readBuffer := none } := by
      simp [step, stepCallbackKzalloc, hb, hpc]
    exact h.of_other hπ hok hs (by simp) fun ht => ht.run_up hπ (Function.update_self ..) rfl

theorem Holder.run_trylock (h : Holder s o) (hπ : ∀ i, π.read i = true) {k : Nat} {b : Callback}
    (hb : s.callbacks k = some b) (hpc : b.pc = .trylock) : CanRelease π s o := by
  obtain ⟨_, _, _, _, he, _⟩ := h.settled.run hb (by simp [hpc])
  have hs : step s (.callback k) = some (s.setCallback k { b with pc := .kzalloc }) := by
    simp [step, stepCallback, hb, hpc, Semaphore.downTrylock_of_zero he.count_eq, setCallback]
  exact h.of_other hπ (pattern_other (by simp) (by simp)) hs (by simp) fun ht =>
    ht.run_kzalloc hπ (Function.update_self ..) rfl

theorem Holder.reply (h : Holder s o) (hπ : ∀ i, π.read i = true) {r : Mail} (hr : s.inbox = [r]) :
    CanRelease π s o := by
  have hs : step s (.deliver 0) = some { s.setCallback s.delivered ⟨r.caller, r.msg, .trylock⟩ with
      inbox := s.inbox.eraseIdx 0
      delivered := s.delivered + 1 } := by
    simp [step, hr]
  exact h.of_other hπ (pattern_other (by simp) (by simp)) hs (by simp) fun ht =>
    ht.run_trylock hπ (Function.update_self ..) rfl

/-- Whatever is in flight gets to the holder. -/
theorem Holder.flight (h : Holder s o) (hπ : ∀ i, π.read i = true) (hn : ¬ Calm s) :
    CanRelease π s o := by
  obtain ⟨_, _, ho, _, _, hf⟩ := h.settled.flight hn
  cases ho
  cases hf with
  | request hw hi =>
    have hs : step s (.answer 0 ⟨0, fun _ => 0⟩) = some { s with
        wire := s.wire.eraseIdx 0, inbox := s.inbox ++ [⟨o, ⟨0, fun _ => 0⟩⟩] } := by
      simp [step, hw]
    refine h.of_other hπ (pattern_other (by simp) (by simp)) hs (by simp) fun ht =>
      ht.reply hπ (r := ⟨o, ⟨0, fun _ => 0⟩⟩) ?_
    simp [hi]
  | reply r _ hi => exact h.reply hπ hi
  | run k b hr =>
    rcases hr.pc with hpc | hpc | hpc | hpc
    · exact h.run_trylock hπ hr.run hpc
    · exact h.run_kzalloc hπ hr.run hpc
    · exact h.run_memcpy hπ hr.run hpc
    · exact h.run_up hπ hr.run hpc

/-! ## Before the send -/

theorem Holder.countWrite (h : Holder s o) (hπ : ∀ i, π.read i = true) (hc : s.calls o = some c)
    (hk : c.kind.isRead = false) (hpc : c.pc = .count) : CanRelease π s o := by
  have hb := h.unblocked hc (by simp [hpc])
  have hs : step s (.call o) = some { s.setCall o c.advance with counter := s.counter + 1 } := by
    simp [step, stepCall, hc, hb, hpc]
  refine h.of_call hπ hc (by simp [hpc]) hs fun ht => ht.upCn (Function.update_self ..) ?_
  simp [Call.advance, Call.next, hpc, hk]

theorem Holder.send (h : Holder s o) (hπ : ∀ i, π.read i = true) (hc : s.calls o = some c)
    (hpc : c.pc = .send) : CanRelease π s o := by
  have hb := h.unblocked hc (by simp [hpc])
  obtain ⟨m, hm⟩ := Option.ne_none_iff_exists'.mp ((h.wf o c hc).message (by simp [hpc, Pc.sampled]))
  have hs : step s (.call o) = some ((s.setCall o c.advance).netlinkSend o c m) := by
    simp [step, stepCall, hc, hb, hpc, hm]
  refine h.of_call hπ hc (by simp [hpc]) hs fun ht => ?_
  cases hk : c.kind.isRead with
  | true =>
    refine ht.flight hπ fun hcalm => ?_
    have hwire := hcalm.wire
    simp [netlinkSend, setCall, hk] at hwire
  | false =>
    refine ht.countWrite hπ (Function.update_self ..) hk ?_
    simp [Call.advance, Call.next, hpc]

/-- These operations belong to `sjfs_fops_write`. -/
theorem Holder.isWrite (h : Holder s o) (hc : s.calls o = some c)
    (hpc : c.pc = .kzallocData ∨ c.pc = .copyFromUser) : c.kind.isRead = false := by
  by_contra hk
  have htalk := h.settled.talk hc
  rcases hpc with hpc | hpc <;> simp [Call.part, hpc, hk, Talk] at htalk

theorem Holder.copyFromUser (h : Holder s o) (hπ : ∀ i, π.read i = true) (hc : s.calls o = some c)
    (hpc : c.pc = .copyFromUser) : CanRelease π s o := by
  have hk := h.isWrite hc (.inr hpc)
  obtain ⟨m, hm⟩ := Option.ne_none_iff_exists'.mp ((h.wf o c hc).message (by simp [hpc, Pc.sampled]))
  cases hkind : c.kind with
  | read => simp [hkind, Kind.isRead] at hk
  | write source =>
    by_cases hres : c.io.count = 0
    · have hs : step s (.copyFromUser o 0) =
          some (s.setCall o { c.advance with m := some (writeMsg m.seq c.io source 0) }) := by
        simp [step, stepCopyFromUser, hc, hpc, hkind, hm, hres]
      refine h.of_other hπ (pattern_other (by simp) (by simp)) hs (by simp) fun ht =>
        ht.send hπ (Function.update_self ..) ?_
      simp [Call.advance, Call.next, hpc]
    · have hs : step s (.copyFromUser o 0) = some (s.setCall o { c with pc := .count }) := by
        simp [step, stepCopyFromUser, hc, hpc, hkind, hm, Ne.symm hres]
      exact h.of_other hπ (pattern_other (by simp) (by simp)) hs (by simp) fun ht =>
        ht.countWrite hπ (Function.update_self ..) hk rfl

theorem Holder.sample (h : Holder s o) (hπ : ∀ i, π.read i = true) (hc : s.calls o = some c)
    (hpc : c.pc = .sample) : CanRelease π s o := by
  have hb := h.unblocked hc (by simp [hpc])
  have hs : step s (.call o) =
      some (s.setCall o { c.advance with m := some (c.header s.counter) }) := by
    simp [step, stepCall, hc, hb, hpc]
  refine h.of_call hπ hc (by simp [hpc]) hs fun ht => ?_
  cases hk : c.kind.isRead with
  | true =>
    refine ht.send hπ (Function.update_self ..) ?_
    simp [Call.advance, Call.next, hpc, hk]
  | false =>
    refine ht.copyFromUser hπ (Function.update_self ..) ?_
    simp [Call.advance, Call.next, hpc, hk]

/-- The allocation that the holder stands at goes as the pattern says. -/
theorem pattern_kzalloc (hc : s.calls o = some c) :
    AllocPattern π s (.kzalloc o (π.result o c)) := by
  refine ⟨fun i ok d he hd => ?_, fun _ _ he => by cases he⟩
  cases he
  rw [hc] at hd
  cases hd
  rfl

theorem Holder.kzallocData (h : Holder s o) (hπ : ∀ i, π.read i = true) (hc : s.calls o = some c)
    (hpc : c.pc = .kzallocData) : CanRelease π s o := by
  have hk := h.isWrite hc (.inl hpc)
  have hs : step s (.kzalloc o (π.result o c)) = some (s.setCall o
      (if π.result o c && c.m.isSome then c.advance else { c with pc := .count })) := by
    simp [step, stepKzalloc, hc, hpc]
  cases hboth : π.result o c && c.m.isSome with
  | true =>
    rw [hboth] at hs
    refine h.of_other hπ (pattern_kzalloc hc) hs (by simp) fun ht =>
      ht.sample hπ (Function.update_self ..) ?_
    simp [Call.advance, Call.next, hpc]
  | false =>
    rw [hboth] at hs
    exact h.of_other hπ (pattern_kzalloc hc) hs (by simp) fun ht =>
      ht.countWrite hπ (Function.update_self ..) hk rfl

theorem Holder.kzalloc (h : Holder s o) (hπ : ∀ i, π.read i = true) (hc : s.calls o = some c)
    (hpc : c.pc = .kzalloc) : CanRelease π s o := by
  cases hkind : c.kind with
  | read =>
    have hresult : π.result o c = true := by simp [Allocs.result, hkind, Kind.isRead, hπ o]
    have hs : step s (.kzalloc o (π.result o c)) =
        some (s.setCall o { c.advance with m := some ⟨0, 0, []⟩ }) := by
      simp [step, stepKzalloc, hc, hpc, hkind, hresult]
    refine h.of_other hπ (pattern_kzalloc hc) hs (by simp) fun ht =>
      ht.sample hπ (Function.update_self ..) ?_
    simp [Call.advance, Call.next, hpc, hkind, Kind.isRead]
  | write source =>
    have hs : step s (.kzalloc o (π.result o c)) = some (s.setCall o
        { c.advance with m := if π.result o c then some ⟨0, 0, []⟩ else none }) := by
      simp [step, stepKzalloc, hc, hpc, hkind]
    refine h.of_other hπ (pattern_kzalloc hc) hs (by simp) fun ht =>
      ht.kzallocData hπ (Function.update_self ..) ?_
    simp [Call.advance, Call.next, hpc, hkind, Kind.isRead]

theorem Holder.downCb (h : Holder s o) (hπ : ∀ i, π.read i = true) (hc : s.calls o = some c)
    (hpc : c.pc = .downCb) : CanRelease π s o := by
  have htalk := h.settled.talk hc
  have hk : c.kind.isRead = true := by
    by_contra hk
    simp [Call.part, hpc, hk, Talk] at htalk
  have hfree : Talk False s o .free := by simpa [Call.part, hpc, hk] using htalk
  have hdown : s.cbSem.down o = (⟨0, []⟩, true) := by
    rw [hfree.1]
    rfl
  have hb : c.blocked = false := by
    by_contra hb
    have hmem := (h.locked.cb.mem o).mpr (hc ▸ ⟨by simpa using hb, .inl hpc⟩)
    simp [hfree.1] at hmem
  have hs : step s (.call o) = some (s.downCb o c) := by simp [step, stepCall, hc, hb, hpc]
  refine h.of_call hπ hc (by simp [hpc]) hs fun ht => ht.kzalloc hπ (c := c.advance) ?_ ?_
  · simp [Channel.downCb, setCall, hdown, Call.downed]
  · simp [Call.advance, Call.next, hpc]

theorem Flight.not_calm {lossless : Prop} (h : Flight lossless s o) : ¬ Calm s := by
  intro hcalm
  cases h with
  | request hw => simp [hcalm.wire] at hw
  | reply r _ hi => simp [hcalm.inbox] at hi
  | run k b hr =>
    have hdone := hcalm.quiet k b hr.run
    rcases hr.pc with hpc | hpc | hpc | hpc <;> simp [hdone] at hpc

/-- With nothing in flight, a read behind its send has been told of its reply. -/
theorem Holder.calm_sent (h : Holder s o) (hπ : ∀ i, π.read i = true) (hc : s.calls o = some c)
    (hcalm : Calm s) (hp : c.part = .sent) : CanRelease π s o := by
  have htalk := h.settled.talk hc
  rw [hp] at htalk
  rcases htalk with ⟨_, hf⟩ | ⟨hsem, _⟩
  · exact absurd hcalm hf.not_calm
  · exact h.told hπ hc hp hsem

/-- Whoever holds `cn_sem` can get to its release. -/
theorem Holder.canRelease (h : Holder s o) (hπ : ∀ i, π.read i = true) : CanRelease π s o := by
  obtain ⟨c, hc, htalk⟩ := h.settled
  have hholds : c.pc.holds = true := by
    have hh := (h.locked.holds o).mpr rfl
    rwa [hc] at hh
  by_cases hcalm : Calm s
  · cases hpc : c.pc with
    | downCn | done => simp [hpc, Pc.holds] at hholds
    | downCb => exact h.downCb hπ hc hpc
    | kzalloc => exact h.kzalloc hπ hc hpc
    | kzallocData => exact h.kzallocData hπ hc hpc
    | sample => exact h.sample hπ hc hpc
    | copyFromUser => exact h.copyFromUser hπ hc hpc
    | send => exact h.send hπ hc hpc
    | upCb => exact h.upCb hπ hc hpc
    | copyToUser => exact h.copyToUser hπ hc hpc
    | upCn => exact h.upCn hc hpc
    | count =>
      cases hk : c.kind.isRead with
      | true => exact h.calm_sent hπ hc hcalm (by simp [Call.part, hpc, hk])
      | false => exact h.countWrite hπ hc hk hpc
    | downReply =>
      cases hk : c.kind.isRead with
      | false => simp [Call.part, hpc, hk, Talk] at htalk
      | true =>
        cases hb : c.blocked with
        | false => exact h.calm_sent hπ hc hcalm (by simp [Call.part, hpc, hk, hb])
        | true =>
          have hwaits : Talk False s o .waits := by simpa [Call.part, hpc, hk, hb] using htalk
          exact absurd hcalm hwaits.2.not_calm
  · exact h.flight hπ hcalm

end Release

/-! ## Replies that are owed -/

/-- Call `i` has sent its request, and the reply to it has not been fully handled: the request is with
the peer, the reply is on its way, or a callback run that handles it is not over. -/
def Owes (s : Channel) (i : Nat) : Prop :=
  i ∈ s.sent.map Request.caller ∧
  (i ∈ s.wire ∨ (∃ r ∈ s.inbox, r.caller = i) ∨
    ∃ k b, s.callbacks k = some b ∧ b.caller = i ∧ b.pc ≠ .done)

/-- Every reader that is blocked in its second `down(&cb_sem)` is owed a reply; and no call that holds
`cn_sem` while nothing is in flight holds it in every continuation. -/
structure Owed (π : Allocs) (s : Channel) : Prop where
  reader : ∀ i c, s.calls i = some c → c.kind.isRead = true → c.pc = .downReply →
    c.blocked = true → Owes s i
  released : ∀ i, HoldsCn (s.calls i) → Calm s →
    ¬ ∀ t, Reach step (AllocPattern π) s t → HoldsCn (t.calls i)

/-- The invariant of the runs in which no `kzalloc` of `sjfs_fops_read` fails. -/
structure Sound (s : Channel) (owner : Option Nat) : Prop where
  locked : Locked s owner
  settled : Settled False s owner
  wf : ∀ i c, s.calls i = some c → c.Wf
  traced : Traced s

theorem sound_step {π : Allocs} (hπ : ∀ i, π.read i = true) {s t : Channel} {a : Action}
    {owner : Option Nat} (hs : Sound s owner) (hok : AllocPattern π s a) (h : Step s a t) :
    Sound t (s.ownerAfter a owner) where
  locked := locked_step hs.locked h
  settled := settled_step hs.locked hs.settled (readAllocOk_of_pattern hπ hok) False.elim h
  wf := wf_step hs.locked hs.wf h
  traced := traced_step h hs.traced

theorem sound_init : Sound init none where
  locked := locked_init
  settled := settled_init
  wf := fun _ _ h => by cases h
  traced := ⟨fun _ h => (by cases h), fun _ h => (by cases h), fun _ _ h => by cases h⟩

theorem Sound.owes {s : Channel} {owner : Option Nat} (hs : Sound s owner) {i : Nat} {c : Call}
    (hc : s.calls i = some c) (hk : c.kind.isRead = true) (hpc : c.pc = .downReply)
    (hb : c.blocked = true) : Owes s i := by
  obtain rfl := hs.locked.owner_eq hc (by simp [hpc, Pc.holds])
  have hwaits : Talk False s i .waits := by
    simpa [Call.part, hpc, hk, hb] using hs.settled.talk hc
  cases hwaits.2 with
  | request hw =>
    have hmem : i ∈ s.wire := by simp [hw]
    exact ⟨hs.traced.wire i hmem, .inl hmem⟩
  | reply r _ hi hr =>
    have hmem : r ∈ s.inbox := by simp [hi]
    exact ⟨hr ▸ hs.traced.inbox r hmem, .inr (.inl ⟨r, hmem, hr⟩)⟩
  | run k b hr =>
    refine ⟨hr.caller ▸ hs.traced.callbacks k b hr.run, .inr (.inr ⟨k, b, hr.run, hr.caller, ?_⟩)⟩
    rcases hr.pc with h | h | h | h <;> simp [h]

theorem Sound.owed {π : Allocs} (hπ : ∀ i, π.read i = true) {s : Channel} {owner : Option Nat}
    (hs : Sound s owner) : Owed π s := by
  refine ⟨fun i c hc hk hpc hb => hs.owes hc hk hpc hb, fun i hi _ hever => ?_⟩
  obtain rfl := (hs.locked.holds i).mp hi
  have hholder : Holder s i := ⟨hs.locked, hs.settled, hs.wf⟩
  obtain ⟨t, ht, hrel⟩ := hholder.canRelease hπ
  exact hrel (hever t ht)

/-- A read, alone, whose `kzalloc` fails. -/
def lonelyFailure (i : Nat) : List Action :=
  [.enter i .read (someIo 1), .call i, .call i, .kzalloc i false, .call i, .call i]

/-- It waits for a reply, and has sent nothing. -/
theorem lonelyFailure_run (i : Nat) :
    ∃ s c, (lonelyFailure i).foldlM step init = some s ∧ s.calls i = some c ∧
      c.kind.isRead = true ∧ c.pc = .downReply ∧ c.blocked = true ∧ s.cbSem = ⟨0, [i]⟩ ∧
      s.sent = [] ∧ Calm s := by
  have hcalm : ∀ {s : Channel}, s.wire = [] → s.inbox = [] → (s.callbacks = fun _ => none) →
      Calm s := by
    intro s hw hi hcb
    exact ⟨hw, hi, fun k b hb => by simp [hcb] at hb⟩
  unfold lonelyFailure
  -- action by action: with all of them unfolded, `simp` works on each under the binders of the rest
  iterate 6
    rw [List.foldlM_cons]
    simp only [step, init, stepCall, stepKzalloc, setCall, Channel.downCn, Channel.downCb,
      Call.advance, Call.next, Call.downed, Semaphore.init, Semaphore.down, Kind.isRead,
      Function.update_self, Function.update_idem, Option.bind_eq_bind, Option.bind_some,
      Bool.false_eq_true, ite_true, ite_false, Nat.lt_add_one]
  simp [hcalm]

theorem lonelyFailure_ok {π : Allocs} {i : Nat} (h : π.read i = false) :
    StepsOk step (AllocPattern π) init (lonelyFailure i) := by
  refine ⟨pattern_other (by simp) (by simp), fun s₁ h₁ => ⟨pattern_call i, fun s₂ h₂ =>
    ⟨pattern_call i, fun s₃ h₃ => ⟨⟨?_, by simp⟩, fun _ _ => ⟨pattern_call i, fun _ _ =>
      ⟨pattern_call i, fun _ _ => trivial⟩⟩⟩⟩⟩⟩
  -- the call that stands at its `kzalloc` is the read that entered
  rintro _ _ c ⟨⟩ hc
  have hkind : c.kind = .read := by
    simp only [step, init, Option.some.injEq] at h₁
    subst h₁
    simp [step, stepCall, setCall, Channel.downCn, Semaphore.init, Semaphore.down] at h₂
    subst h₂
    simp [step, stepCall, setCall, Channel.downCb, Call.advance, Call.next, Call.downed,
      Semaphore.down, Kind.isRead] at h₃
    subst h₃
    simp only [Function.update_self, Option.some.injEq] at hc
    subst hc
    rfl
  simp [Allocs.result, hkind, Kind.isRead, h]

/-- Every reader that waits is owed a reply, and `cn_sem` is not held for ever, in every run, exactly
when no `kzalloc` of `sjfs_fops_read` fails. The other allocations may fail as they like. -/
theorem owed_iff (π : Allocs) :
    (∀ s, Reach step (AllocPattern π) init s → Owed π s) ↔ ∀ i, π.read i = true := by
  constructor
  · intro h i
    by_contra hi
    obtain ⟨s, c, hrun, hc, hk, hpc, hb, _, hsent, _⟩ := lonelyFailure_run i
    have hreach := Reach.of_run (lonelyFailure_ok (by simpa using hi)) hrun
    have hmem := ((h s hreach).reader i c hc hk hpc hb).1
    simp [hsent] at hmem
  · intro hπ s hs
    have hinv : ∃ owner, Sound s owner := by
      refine hs.invariant (I := fun s => ∃ owner, Sound s owner) ⟨none, sound_init⟩ ?_
      rintro s a t ⟨owner, hsound⟩ hok hstep
      exact ⟨_, sound_step hπ hsound hok (step_cases hstep)⟩
    obtain ⟨owner, hsound⟩ := hinv
    exact hsound.owed hπ

/-! ## After a failure -/

/-- Reader `o` waits with `cn_sem` in its hands, and nothing is in flight. -/
structure Stuck (s : Channel) (o : Nat) : Prop where
  locked : Locked s (some o)
  waits : WaitsCb (s.calls o)
  sem : s.cbSem = ⟨0, [o]⟩
  calm : Calm s

/-- Nothing can change that: other calls queue up behind it. -/
theorem stuck_step {s t : Channel} {a : Action} {o : Nat} (hs : Stuck s o) (h : Step s a t) :
    Stuck t o := by
  have hl := locked_step hs.locked h
  have hwaits := hs.waits
  have hcalm := hs.calm
  -- no operation is made by the holder
  have hfree : ∀ {i : Nat} {c : Call}, s.calls i = some c → c.pc.holds = true → ¬ Free (some c) := by
    intro i c hc hpc hfree
    cases hs.locked.owner_eq hc hpc
    rw [hc] at hwaits
    exact hfree.2 hwaits
  have hdone : ∀ {k : Nat} {b : Callback} {x : Prop}, s.callbacks k = some b → b.pc ≠ .done → x :=
    fun hb hpc => absurd (hcalm.quiet _ _ hb) hpc
  cases h with
  | @enter i _ _ hc =>
    have hne : o ≠ i := by
      rintro rfl
      simp [hc, WaitsCb] at hwaits
    refine ⟨hl, ?_, hs.sem, hcalm.frame rfl rfl rfl⟩
    rwa [show (s.setCall i _).calls o = s.calls o from Function.update_of_ne hne ..]
  | own hc ho => exact absurd ho.spec.1 (hfree hc ho.spec.2.2.1)
  | @downCn i c hc hb hpc =>
    have hne : o ≠ i := by
      rintro rfl
      simp [hc, WaitsCb, hb] at hwaits
    have htook : (s.cnSem.down i).2 = false := by
      rw [Semaphore.down_of_zero (hs.locked.mutex.held o rfl)]
    simp only [ownerAfter, hc, hpc, htook] at hl
    refine ⟨hl, ?_, hs.sem, hcalm.frame rfl rfl rfl⟩
    rwa [show (s.downCn i c).calls o = s.calls o from Function.update_of_ne hne ..]
  | downCb hc hb hpc =>
    refine absurd (free_of_unblocked hb) (hfree hc ?_)
    rcases hpc with hpc | hpc <;> simp [hpc, Pc.holds]
  | send hc hpc | count hc hpc | upCb hc hpc =>
    exact absurd (free_of_pc (by simp [hpc])) (hfree hc (by simp [hpc, Pc.holds]))
  | upCn hc hb hpc => exact absurd (free_of_unblocked hb) (hfree hc (by simp [hpc, Pc.holds]))
  | answer hk => simp [hcalm.wire] at hk
  | deliver hk => simp [hcalm.inbox] at hk
  | probe hb hpc | need hb hpc | callbackAlloc hb hpc | callbackAllocFail hb hpc | memcpy hb hpc =>
    exact hdone hb (by simp [hpc])
  | finish hb hpc => exact hdone hb (by rcases hpc with hpc | hpc <;> simp [hpc])

theorem holdsCn_of_stuck {s t : Channel} {o : Nat} (hs : Stuck s o)
    (h : Reach step (fun _ _ => True) s t) : HoldsCn (t.calls o) := by
  have ht : Stuck t o := h.invariant hs fun _ _ _ hstuck _ hstep =>
    stuck_step hstuck (step_cases hstep)
  exact (holdsCn_of_waitsCb ht.waits).1

theorem stuck_lonelyFailure {π : Allocs} {i : Nat} (h : π.read i = false) :
    ∃ s, Reach step (AllocPattern π) init s ∧ s.sent = [] ∧ Stuck s i := by
  obtain ⟨s, c, hrun, hc, _, hpc, hb, hsem, hsent, hcalm⟩ := lonelyFailure_run i
  have hreach := Reach.of_run (lonelyFailure_ok h) hrun
  have hlocked : ∃ owner, Locked s owner := by
    refine hreach.invariant (I := fun s => ∃ owner, Locked s owner) ⟨none, locked_init⟩ ?_
    rintro s a t ⟨owner, hl⟩ _ hstep
    exact ⟨_, locked_step hl (step_cases hstep)⟩
  obtain ⟨owner, hl⟩ := hlocked
  obtain rfl := hl.owner_eq hc (by simp [hpc, Pc.holds])
  refine ⟨s, hreach, hsent, hl, ?_, hsem, hcalm⟩
  rw [hc]
  exact ⟨hb, .inr hpc⟩

/-- One read whose `kzalloc` fails is enough: it has sent nothing, nothing is in flight, and it keeps
`cn_sem` whatever happens afterwards, also with memory for all later allocations. -/
theorem failed_alloc_blocks_all :
    (∃ s, Reach step (AllocPattern ⟨(· ≠ 0), fun _ => true, fun _ => true, fun _ => true⟩) init s ∧
      s.sent = [] ∧ Calm s ∧ ∀ t, Reach step (fun _ _ => True) s t → HoldsCn (t.calls 0)) ∧
    ¬ ∀ π s, Reach step (AllocPattern π) init s → Owed π s := by
  have hfail : (⟨(· ≠ 0), fun _ => true, fun _ => true, fun _ => true⟩ : Allocs).read 0 = false :=
    rfl
  obtain ⟨s, hreach, hsent, hstuck⟩ := stuck_lonelyFailure hfail
  refine ⟨⟨s, hreach, hsent, hstuck.calm, fun t => holdsCn_of_stuck hstuck⟩, fun hall => ?_⟩
  -- the holder never releases, along the runs with this pattern in particular
  refine (hall _ s hreach).released 0 (holdsCn_of_waitsCb hstuck.waits).1 hstuck.calm ?_
  intro t ht
  refine holdsCn_of_stuck hstuck (ht.invariant .refl ?_)
  exact fun _ _ _ hr _ hstep => hr.tail trivial hstep

end Channel

end PlanA

end Sjfs
