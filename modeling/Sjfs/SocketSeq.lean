import Sjfs.SocketReply
import Sjfs.Lib.Counter

/-!
# Sequence numbers

`sjfs_read_block` reads `cn_counter` into `m->seq` before it takes `cn_sem`, and increments it after
the send. Two calls that read it before either of them increments it send the same number.

Results:
1. `stages_step`: what a step does to the calls between the two places.
2. `distinctSeqs_of_sampleOk`: in every run in which a call reads the counter only while no other call
   is between the two places, the numbers on the wire are those of the requests.
3. `overlapping_samples_collide`: without that condition two requests in a row have the same number.
-/

namespace Sjfs

open Lib

namespace Socket

/-! ## Between the sample and the increment -/

/-- What a call has in hand between reading the counter and incrementing it: its message, and
whether it was sent. -/
def stage : Option Call → Option (Option CnMsg × Bool)
  | none => none
  | some c =>
    match c.kind, c.pc with
    | .read _, .downCn | .read _, .downCb | .read _, .send => some (c.m, false)
    | .read _, .count => some (c.m, true)
    | _, _ => none

def stages (s : Socket) : Nat → Option (Option CnMsg × Bool) := stage ∘ s.calls

theorem stages_setCall (s : Socket) (i : Nat) (c : Call) :
    (s.setCall i c).stages = Function.update s.stages i (stage (some c)) :=
  Function.comp_update ..

theorem stages_setCall_of_eq {s : Socket} {i : Nat} {c : Call} (h : stage (some c) = s.stages i) :
    (s.setCall i c).stages = s.stages := by
  rw [stages_setCall, h, Function.update_eq_self]

/-- The `down` of a waiter that is released changes nothing about its message. -/
theorem stage_advance {o : Option Call} (h : WaitsCn o ∨ WaitsCb o) :
    stage (o.map Call.advance) = stage o := by
  cases o with
  | none => rfl
  | some c =>
    rcases h with ⟨_, hpc⟩ | ⟨_, hpc | hpc⟩ <;> cases hk : c.kind <;>
      simp [stage, Call.advance, Call.next, hpc, hk]

theorem stages_release {s : Socket} {w : Option Nat}
    (hw : ∀ j, w = some j → WaitsCn (s.calls j) ∨ WaitsCb (s.calls j)) :
    stage ∘ Semaphore.wake Call.advance s.calls w = s.stages := by
  funext j
  show stage (Semaphore.wake Call.advance s.calls w j) = stage (s.calls j)
  rw [Semaphore.wake_apply]
  split
  · next hj => exact stage_advance (hw j hj)
  · rfl

/-- An `up` changes the stage neither of the call that makes it nor of the one it releases. -/
theorem stages_up {s : Socket} {i : Nat} {c : Call} {w : Option Nat} (hc : s.calls i = some c)
    (hpc : c.pc = .upCb ∨ c.pc = .upCn)
    (hw : ∀ j, w = some j → WaitsCn ((s.setCall i c.advance).calls j) ∨
      WaitsCb ((s.setCall i c.advance).calls j)) :
    stage ∘ Semaphore.wake Call.advance (s.setCall i c.advance).calls w = s.stages := by
  have hsame : (s.setCall i c.advance).stages = s.stages := by
    refine stages_setCall_of_eq ?_
    rcases hpc with hpc | hpc <;> cases hk : c.kind <;>
      simp [stages, hc, stage, Call.advance, Call.next, hpc, hk]
  exact (stages_release hw).trans hsame

/-- The call that makes an `up` is not in a queue, before it and after it. -/
theorem Queues.advanced {s : Socket} (hq : Queues s) {i : Nat} {c : Call} (hc : s.calls i = some c)
    (hb : c.blocked = false) : Queues (s.setCall i c.advance) :=
  hq.setCall (hc ▸ free_of_unblocked hb) (free_of_unblocked rfl)

/-- A step that is no sample, no send and no increment changes nobody's stage. -/
theorem stages_step {s t : Socket} {a : Action} (hq : Queues s) (hok : AllocOk a) (h : Step s a t)
    (hsample : ∀ i c, a = .call i → s.calls i = some c → c.pc ≠ .sample)
    (hcounter : t.cnCounter = s.cnCounter) (hsent : t.sent = s.sent) : t.stages = s.stages := by
  cases h with
  | readBlock hc | writeBlock hc =>
    refine stages_setCall_of_eq (s := s) ?_
    simp [stages, hc, stage]
  | @alloc i c hc hpc | @copy i c hc _ hpc =>
    refine stages_setCall_of_eq (s := s) ?_
    cases hk : c.kind <;> simp [stages, hc, stage, Call.advance, Call.next, hpc, hk]
  | @allocFail i => exact absurd rfl (hok i)
  | @sample i c _ hc _ hpc => exact absurd hpc (hsample i c rfl hc)
  | @downCn i c hc _ hpc =>
    refine stages_setCall_of_eq (s := s) ?_
    cases hk : c.kind <;> cases ht : (s.cnSem.down i).2 <;>
      simp [stages, hc, stage, Call.downed, Call.advance, Call.next, hpc, hk]
  | @downCb i c hc _ hpc =>
    refine stages_setCall_of_eq (s := s) ?_
    rcases hpc with hpc | hpc <;> cases hk : c.kind <;> cases ht : (s.cbSem.down i).2 <;>
      simp [stages, hc, stage, Call.downed, Call.advance, Call.next, hpc, hk]
  | send => simp at hsent
  | count => simp at hcounter
  | @upCb i c hc hb hpc =>
    exact stages_up hc (.inl hpc) fun j hj => .inr ((hq.advanced hc hb).cb.up_waits hj)
  | @upCn i c hc hb hpc =>
    exact stages_up hc (.inr hpc) fun j hj => .inl ((hq.advanced hc hb).cn.up_waits hj)
  | answer | deliver | inject | probe | need | fill => rfl
  | finish => exact stages_release fun j hj => .inr (hq.cb.up_waits hj)

/-! ## One call at a time -/

/-- A call reads the counter only while no call is between reading and incrementing it. -/
def SampleOk (s : Socket) (a : Action) : Prop :=
  ∀ i c, a = .call i → s.calls i = some c → c.pc = .sample → ∀ j, s.stages j = none

/-- How the counter stands to the number `n` of requests sent, by the stage of the one call that is
between the two places. -/
def Fit (counter : UInt32) (n : Nat) : Option (Option CnMsg × Bool) → Prop
  | none => counter = UInt32.ofNat n
  | some (m, false) => counter = UInt32.ofNat n ∧ ∀ d, m = some d → d.seq = counter
  | some (_, true) => counter + 1 = UInt32.ofNat n

/-- The requests on the wire are numbered from 0 on, and at most one call has a number that is not
used up. -/
structure Counted (s : Socket) : Prop where
  base : Base s
  seq : ∀ k r, s.sent[k]? = some r → r.msg.seq = UInt32.ofNat k
  fit : ∃ o p, s.stages = solo none o p ∧ Fit s.cnCounter s.sent.length p

/-- Only a read gets to these operations. -/
theorem read_of_wf {c : Call} (hwf : c.Wf) (hpc : c.pc = .send ∨ c.pc = .count) :
    ∃ address, c.kind = .read address := by
  unfold Call.Wf at hwf
  cases hk : c.kind with
  | read address => exact ⟨address, rfl⟩
  | write => rcases hpc with hpc | hpc <;> simp [hk, hpc] at hwf

/-- Whoever is between the two places is the one of the invariant. -/
theorem fit_of_stage {s : Socket} (hn : Counted s) {i : Nat} {p : Option CnMsg × Bool}
    (hp : s.stages i = some p) :
    s.stages = solo none i (some p) ∧ Fit s.cnCounter s.sent.length (some p) := by
  obtain ⟨o, q, hstages, hfit⟩ := hn.fit
  have ho : i = o := by
    refine eq_of_solo_ne (d := none) (b := q) ?_
    rw [← hstages, hp]
    simp
  subst ho
  have hq : q = some p := by
    rw [← hp, hstages, solo_self]
  subst hq
  exact ⟨hstages, hfit⟩

/-- Nobody is between the two places: the counter is the number of requests sent. -/
theorem fit_of_none {s : Socket} (hn : Counted s) (hnone : ∀ j, s.stages j = none) :
    s.stages = (fun _ => none) ∧ s.cnCounter = UInt32.ofNat s.sent.length := by
  obtain ⟨o, q, hstages, hfit⟩ := hn.fit
  have hq : q = none := by
    rw [← hnone o, hstages, solo_self]
  subst hq
  exact ⟨funext hnone, hfit⟩

theorem fit_sample {s : Socket} (hn : Counted s) {i : Nat} {c : Call} {address : UInt32}
    {m : CnMsg} (hpc : c.pc = .sample) (hk : c.kind = .read address) (hm : m.seq = s.cnCounter)
    (hnone : ∀ j, s.stages j = none) :
    ∃ o p, (s.setCall i { c.advance with m := some m }).stages = solo none o p ∧
      Fit s.cnCounter s.sent.length p := by
  obtain ⟨hstages, hcounter⟩ := fit_of_none hn hnone
  refine ⟨i, some (some m, false), ?_, hcounter, ?_⟩
  · rw [stages_setCall, hstages]
    simp [stage, hk, Call.advance, Call.next, hpc, update_const]
  · intro d hd
    cases hd
    exact hm

/-- The request that is sent has the number of those before it. -/
theorem seq_send {s : Socket} (hn : Counted s) {r : Request}
    (hseq : r.msg.seq = UInt32.ofNat s.sent.length) {k : Nat} {r' : Request}
    (hr' : (s.sent ++ [r])[k]? = some r') : r'.msg.seq = UInt32.ofNat k := by
  rw [List.getElem?_append] at hr'
  split at hr'
  · exact hn.seq k r' hr'
  · next hge =>
    obtain ⟨hlast, rfl⟩ : k - s.sent.length = 0 ∧ r = r' := by
      simpa [List.getElem?_singleton] using hr'
    have hk : k = s.sent.length := by omega
    rw [hk, hseq]

theorem counted_step {s t : Socket} {a : Action} (hn : Counted s) (hok : AllocOk a)
    (hsample : SampleOk s a) (h : Step s a t) : Counted t := by
  have hbase := base_step hn.base hok h
  have hframe := stages_step hn.base.queues hok h
  have hsame : (∀ i c, a = .call i → s.calls i = some c → c.pc ≠ .sample) →
      t.cnCounter = s.cnCounter → t.sent = s.sent → Counted t := by
    intro hno hcounter hsent
    refine ⟨hbase, hsent ▸ hn.seq, ?_⟩
    rw [hframe hno hcounter hsent, hcounter, hsent]
    exact hn.fit
  cases h with
  | @sample i c address hc _ hpc hk =>
    exact ⟨hbase, hn.seq, fit_sample hn hpc hk rfl (hsample i c rfl hc hpc)⟩
  | @send i c m hc _ hpc hm =>
    obtain ⟨address, hk⟩ := read_of_wf (hn.base.wf i c hc) (.inl hpc)
    have hstage : s.stages i = some (some m, false) := by simp [stages, hc, stage, hk, hpc, hm]
    obtain ⟨hstages, hcounter, hseq⟩ := fit_of_stage hn hstage
    refine ⟨hbase, fun k r => seq_send hn ((hseq m rfl).trans hcounter), i, some (c.m, true), ?_, ?_⟩
    · refine (stages_setCall ..).trans ?_
      rw [hstages, update_solo_self]
      simp [stage, hk, Call.advance, Call.next, hpc]
    · show s.cnCounter + 1 = UInt32.ofNat (s.sent ++ [_]).length
      simp [hcounter]
  | @count i c hc _ hpc =>
    obtain ⟨address, hk⟩ := read_of_wf (hn.base.wf i c hc) (.inr hpc)
    have hstage : s.stages i = some (c.m, true) := by simp [stages, hc, stage, hk, hpc]
    obtain ⟨hstages, hfit⟩ := fit_of_stage hn hstage
    refine ⟨hbase, hn.seq, i, none, ?_, hfit⟩
    refine (stages_setCall ..).trans ?_
    rw [hstages, update_solo_self]
    simp [stage, hk, Call.advance, Call.next, hpc]
  | allocFail => exact absurd rfl (hok _)
  | readBlock | writeBlock | alloc | answer | deliver | inject | probe | need | fill | finish =>
    exact hsame (fun _ _ h => by cases h) rfl rfl
  | downCn hc _ hpc | copy hc _ hpc | upCb hc _ hpc | upCn hc _ hpc =>
    refine hsame (fun i c he hc' => ?_) rfl rfl
    cases he
    rw [hc] at hc'
    cases hc'
    simp [hpc]
  | downCb hc _ hpc =>
    refine hsame (fun i c he hc' => ?_) rfl rfl
    cases he
    rw [hc] at hc'
    cases hc'
    rcases hpc with hpc | hpc <;> simp [hpc]

theorem counted_init : Counted init where
  base := base_init
  seq := fun _ _ h => by simp [init] at h
  fit := ⟨0, none, by rw [solo_default]; rfl, rfl⟩

/-- No two requests among 2^32 consecutive ones have the same number. -/
def DistinctSeqs (s : Socket) : Prop :=
  ∀ i j r r', i < j → j < i + 2 ^ 32 → s.sent[i]? = some r → s.sent[j]? = some r' →
    r.msg.seq ≠ r'.msg.seq

theorem Counted.distinct {s : Socket} (hn : Counted s) : DistinctSeqs s := by
  intro i j r r' hlt hnear hr hr'
  rw [hn.seq i r hr, hn.seq j r' hr']
  exact ofNat_ne_of_lt hlt hnear

/-- In every run in which allocations succeed and no call reads the counter while another one is
between reading and incrementing it, the requests on the wire have distinct numbers. -/
theorem distinctSeqs_of_sampleOk {s : Socket}
    (h : Reach step (fun s a => AllocOk a ∧ SampleOk s a) init s) : DistinctSeqs s := by
  have hn : Counted s := h.invariant counted_init fun s a t hn hok hstep =>
    counted_step hn hok.1 hok.2 (step_cases hstep)
  exact hn.distinct

/-- No allocation fails and the counter is not read. -/
def plain (s : Socket) : Action → Bool
  | .kzalloc _ ok => ok
  | .call i => match s.calls i with
    | some c => c.pc != .sample
    | none => true
  | _ => true

theorem sampleOk_of_plain {s : Socket} {a : Action} (h : plain s a = true) :
    AllocOk a ∧ SampleOk s a := by
  constructor
  · rintro i rfl
    cases h
  · rintro i c rfl hc hpc
    simp [plain, hc, hpc] at h

/-- A read of block 5 that is answered, and then a read of block 6 up to its send. Calls 0 and 1 read
the counter in the first step of the second and of the third part. -/
def readsInTurn : List Action :=
  ([.readBlock 0 5, .kzalloc 0 true] : List Action) ++ .call 0 ::
    (([.call 0, .call 0, .call 0, .answer 0 zeroMsg, .deliver 0, .callback 0, .call 0, .call 0,
      .callback 0, .callback 0, .call 0, .call 0, .call 0, .readBlock 1 6, .kzalloc 1 true] :
        List Action) ++
    .call 1 :: (([.call 1, .call 1, .call 1] : List Action) ++ []))

theorem readsInTurn_ok :
    StepsOk step (fun s a => AllocOk a ∧ SampleOk s a) init readsInTurn := by
  have hplain : ∀ s a, plain s a = true → AllocOk a ∧ SampleOk s a := fun _ _ => sampleOk_of_plain
  have hidle : ∀ {s : Socket} {i : Nat}, (∀ j, s.stages j = none) →
      AllocOk (.call i) ∧ SampleOk s (.call i) :=
    fun h => ⟨by simp [AllocOk], fun _ _ _ _ _ => h⟩
  refine .append_of_checks hplain rfl rfl (.cons (hidle ?_) rfl ?_)
  · rintro (_ | j) <;> rfl
  refine .append_of_checks hplain rfl rfl (.cons (hidle ?_) rfl ?_)
  · rintro (_ | _ | j) <;> rfl
  exact .append_of_checks hplain rfl rfl trivial

theorem distinctSeqs_readsInTurn :
    ∃ s, Reach step (fun s a => AllocOk a ∧ SampleOk s a) init s ∧ s.sent.length = 2 ∧
      DistinctSeqs s := by
  have hrun : ∃ t, readsInTurn.foldlM step init = some t ∧ t.sent.length = 2 := ⟨_, rfl, rfl⟩
  obtain ⟨s, hs, hlen⟩ := hrun
  have hreach := Reach.of_run readsInTurn_ok hs
  exact ⟨s, hreach, hlen, distinctSeqs_of_sampleOk hreach⟩

/-! ## Two calls that overlap -/

/-- Calls 0 and 1 both read the counter before either takes `cn_sem`. Call 0 sends, is answered and
returns; then call 1 sends. -/
def overlappingReads : List Action :=
  [.readBlock 0 5, .kzalloc 0 true, .call 0, .readBlock 1 6, .kzalloc 1 true, .call 1, .call 0,
    .call 0, .call 0, .answer 0 zeroMsg, .deliver 0, .callback 0, .call 0, .call 0, .callback 0,
    .callback 0, .call 0, .call 0, .call 0, .call 1, .call 1, .call 1]

theorem peerOk_overlappingReads : ∀ a ∈ overlappingReads, PeerOk a := by
  intro a ha
  refine ⟨fun i he => ?_, fun msg he => ?_, fun k msg he => ?_⟩ <;> subst he <;>
    simp [overlappingReads] at ha
  rw [ha.2]
  simp [zeroMsg]

/-- With allocations that succeed and a peer that keeps to its part, two requests in a row can have
the same number. -/
theorem overlapping_samples_collide :
    ¬ ∀ s, Reach step (fun _ a => PeerOk a) init s → DistinctSeqs s := by
  intro h
  have hrun : ∃ s r r', overlappingReads.foldlM step init = some s ∧ s.sent[0]? = some r ∧
      s.sent[1]? = some r' ∧ r.msg.seq = r'.msg.seq := ⟨_, _, _, rfl, rfl, rfl, rfl⟩
  obtain ⟨s, r, r', hs, hr, hr', hseq⟩ := hrun
  have hreach : Reach step (fun _ a => PeerOk a) init s :=
    .of_run (.of_forall peerOk_overlappingReads) hs
  exact h s hreach 0 1 r r' (by decide) (by decide) hr hr' hseq

end Socket

end Sjfs
