import Sjfs.SocketLock

/-!
# Unneeded messages

`cn_callback` looks whether a read is under way by a `down_trylock(&cb_sem)`: if it succeeds, it
gives the unit back and does nothing. Between the two operations `cb_sem` is at 0, which another
callback run takes for a read under way.

Results:
1. `Fits`: the states of `cb_sem`, its reader and its callback run, as long as no callback run
   copies at a wrong time, and what each operation makes of them.
2. `good_step`, `harmless_of_copyOk`: in every run that meets `CopyOk`, `cb_sem` is at most 1 and a
   read returns only after a message that was delivered after its request.
3. `crossed_probes_harm`: without that condition neither holds.
-/

namespace Sjfs

open Lib

namespace Socket

/-! ## The use of `cb_sem` -/

/-- Where a call is in its use of `cb_sem`: before its first `down` or after its `up` (`out`),
queued in the first `down`, between it and the send (`armed`), between the send and the second
`down` (`sent`), queued there, or between the second `down` and the `up` (`passed`). -/
inductive CbPart
  | out
  | waitsFirst
  | armed
  | sent
  | waitsReply
  | passed
deriving DecidableEq, Repr

def cbPart : Option Call → CbPart
  | none => .out
  | some c =>
    match c.pc, c.blocked with
    | .downCb, true => .waitsFirst
    | .send, _ => .armed
    | .count, _ => .sent
    | .downReply, false => .sent
    | .downReply, true => .waitsReply
    | .upCb, _ => .passed
    | _, _ => .out

/-- What a callback run does to `cb_sem`: `probing` while it holds the unit its `down_trylock`
took, `handling` while it owes the `up` of the branch that copies. -/
inductive CbStat
  | idle
  | probing
  | handling
deriving DecidableEq, Repr

def cbStat : Option Callback → CbStat
  | none => .idle
  | some b =>
    match b.pc with
    | .release => .probing
    | .copy | .up => .handling
    | .trylock | .done => .idle

def parts (s : Socket) : Nat → CbPart := cbPart ∘ s.calls

def stats (s : Socket) : Nat → CbStat := cbStat ∘ s.callbacks

theorem parts_setCall (s : Socket) (i : Nat) (c : Call) :
    (s.setCall i c).parts = Function.update s.parts i (cbPart (some c)) :=
  Function.comp_update ..

theorem parts_of_calls {s t : Socket} (h : t.calls = s.calls) : t.parts = s.parts :=
  congrArg (cbPart ∘ ·) h

theorem stats_setCallback (s : Socket) (k : Nat) (b : Callback) :
    (s.setCallback k b).stats = Function.update s.stats k (cbStat (some b)) :=
  Function.comp_update ..

theorem parts_downCb (s : Socket) (i : Nat) (c : Call) :
    (s.downCb i c).parts = Function.update s.parts i (cbPart (some (c.downed (s.cbSem.down i).2))) :=
  parts_setCall s i _

/-- A call that uses `cb_sem` holds `cn_sem`. -/
theorem holdsCn_of_cbPart {o : Option Call} (hwf : ∀ c, o = some c → c.Wf)
    (h : cbPart o ≠ .out) : HoldsCn o := by
  cases o with
  | none => exact absurd rfl h
  | some c =>
    have hc := hwf c rfl
    unfold Call.Wf at hc
    unfold HoldsCn Call.holdsCn
    unfold cbPart at h
    cases hk : c.kind <;> cases hp : c.pc <;> cases hb : c.blocked <;> simp_all

/-! ## Deliveries after a send -/

/-- A message has been delivered after call `i` sent its request. -/
def Answered (s : Socket) (i : Nat) : Prop :=
  ∃ c n, s.calls i = some c ∧ c.sentAt = some n ∧ n < s.delivered

theorem CallMove.sentAt {s : Socket} {a : Action} {c c' : Call} (h : CallMove s a (some c) c')
    (hwf : c.Wf) {n : Nat} (hn : c.sentAt = some n) : c'.sentAt = some n := by
  cases h with
  | send hpc =>
    -- a call that still has to send has not sent
    unfold Call.Wf at hwf
    cases hk : c.kind <;> simp_all [Pc.afterSend]
  | _ => exact hn

theorem update_some {calls : Nat → Option Call} {i j : Nat} {c d : Call}
    (h : calls j = some c) : ∃ c', Function.update calls i (some d) j = some c' := by
  by_cases hj : j = i
  · exact ⟨d, by rw [hj, Function.update_self]⟩
  · exact ⟨c, by rw [Function.update_of_ne hj, h]⟩

theorem wake_some {calls : Nat → Option Call} {w : Option Nat} {j : Nat} {c : Call}
    (h : calls j = some c) : ∃ c', Semaphore.wake Call.advance calls w j = some c' := by
  rw [Semaphore.wake_apply, h]
  split
  · exact ⟨c.advance, rfl⟩
  · exact ⟨c, rfl⟩

/-- Calls are never forgotten. -/
theorem step_some {s t : Socket} {a : Action} (h : Step s a t) {j : Nat} {c : Call}
    (hc : s.calls j = some c) : ∃ c', t.calls j = some c' := by
  cases h with
  | upCb | upCn =>
    obtain ⟨d, hd⟩ := update_some hc
    exact wake_some hd
  | finish => exact wake_some hc
  | answer | deliver | inject | probe | need | fill => exact ⟨c, hc⟩
  | _ => exact update_some hc

theorem delivered_le {s t : Socket} {a : Action} (h : Step s a t) : s.delivered ≤ t.delivered := by
  cases h with
  | deliver | inject => exact Nat.le_succ _
  | _ => exact Nat.le_refl _

/-- The time of the send is never changed. -/
theorem sentAt_step {s t : Socket} {a : Action} (hb : Base s) (h : Step s a t)
    {i n : Nat} {c : Call} (hc : s.calls i = some c) (hn : c.sentAt = some n) :
    ∃ c', t.calls i = some c' ∧ c'.sentAt = some n := by
  obtain ⟨c', hc'⟩ := step_some h hc
  refine ⟨c', hc', ?_⟩
  rcases step_move hb.queues h hc' with he | he
  · rw [hc] at he
    cases he
    exact hn
  · rw [hc] at he
    exact he.sentAt (hb.wf i c hc) hn

theorem answered_step {s t : Socket} {a : Action} (hb : Base s) (h : Step s a t) {i : Nat}
    (hi : Answered s i) : Answered t i := by
  obtain ⟨c, n, hc, hn, hlt⟩ := hi
  obtain ⟨c', hc', hn'⟩ := sentAt_step hb h hc hn
  exact ⟨c', n, hc', hn', Nat.lt_of_lt_of_le hlt (delivered_le h)⟩

/-! ## The protocol on `cb_sem`

An abstract view of the states in which nothing has gone wrong: one reader `o` at most uses
`cb_sem`, and one callback run at most is between its `down_trylock` and its `up`. -/

/-- The part of the reader, what the callback run does, the semaphore, and whether a message was
delivered since the reader sent its request. -/
inductive Fits (o : Nat) : CbPart → CbStat → Semaphore Nat → Bool → Prop
  | rest : Fits o .out .idle ⟨1, []⟩ false
  | probe : Fits o .out .probing ⟨0, []⟩ false
  | queued : Fits o .waitsFirst .probing ⟨0, [o]⟩ false
  | armed : Fits o .armed .idle ⟨0, []⟩ false
  | pending : Fits o .sent .idle ⟨0, []⟩ false
  | pendingWait : Fits o .waitsReply .idle ⟨0, [o]⟩ false
  | handling : Fits o .sent .handling ⟨0, []⟩ true
  | handlingWait : Fits o .waitsReply .handling ⟨0, [o]⟩ true
  | ready : Fits o .sent .idle ⟨1, []⟩ true
  | probed : Fits o .sent .probing ⟨0, []⟩ true
  | probedWait : Fits o .waitsReply .probing ⟨0, [o]⟩ true
  | passed : Fits o .passed .idle ⟨0, []⟩ true

namespace Fits

variable {o : Nat} {p : CbPart} {q : CbStat} {sem : Semaphore Nat} {ans : Bool}

theorem count_le (h : Fits o p q sem ans) : sem.count ≤ 1 := by
  cases h <;> simp

theorem count_of_armed (h : Fits o .armed q sem ans) : sem.count = 0 := by
  cases h
  rfl

theorem count_of_waitsReply (h : Fits o .waitsReply q sem ans) : sem.count = 0 := by
  cases h <;> rfl

/-- A callback run that handles a message was given one after the send. -/
theorem answered_of_handling (h : Fits o p .handling sem ans) : ans = true := by
  cases h <;> rfl

/-- With its answer there and no callback run under way, the reader has a unit to take. -/
theorem not_waiting (h : Fits o p .idle sem true) (hzero : sem.count = 0) :
    ¬ (p = .sent ∨ p = .waitsReply) := by
  cases h <;> simp at hzero ⊢

/-- The first `down`, by a call `i` while nobody uses `cb_sem`. -/
theorem downFirst (h : Fits o .out q sem ans) (i : Nat) :
    Fits i (if (sem.down i).2 then .armed else .waitsFirst) q (sem.down i).1 false := by
  cases h with
  | rest => exact .armed
  | probe => exact .queued

/-- The second `down`. -/
theorem downSecond (h : Fits o .sent q sem ans) :
    Fits o (if (sem.down o).2 then .passed else .waitsReply) q (sem.down o).1 ans := by
  cases h with
  | pending => exact .pendingWait
  | handling => exact .handlingWait
  | ready => exact .passed
  | probed => exact .probedWait

theorem send (h : Fits o .armed q sem ans) : Fits o .sent q sem false := by
  cases h
  exact .pending

/-- The `up` of the reader finds nobody in the queue. -/
theorem readerUp (h : Fits o .passed q sem ans) :
    sem.up.2 = none ∧ Fits o .out q sem.up.1 false ∧ ans = true := by
  cases h
  exact ⟨rfl, .rest, rfl⟩

/-- A `down_trylock` that succeeds. -/
theorem trylock (h : Fits o p q sem ans) (hpos : 0 < sem.count) :
    q = .idle ∧ Fits o p .probing { sem with count := sem.count - 1 } ans := by
  cases h <;> simp at hpos
  · exact ⟨rfl, .probe⟩
  · exact ⟨rfl, .probed⟩

/-- A `down_trylock` that fails while the reader waits for a message and no other callback run is
under way. -/
theorem need (h : Fits o p .idle sem ans) (hp : p = .sent ∨ p = .waitsReply)
    (hzero : sem.count = 0) : Fits o p .handling sem true := by
  cases h <;> simp at hp hzero
  · exact .handling
  · exact .handlingWait

/-- The part of a reader that was woken. -/
def woken : CbPart → CbPart
  | .waitsFirst => .armed
  | .waitsReply => .passed
  | p => p

theorem cbPart_woken {x : Option Call} (hx : cbPart x = p)
    (hp : p = .waitsFirst ∨ p = .waitsReply) : cbPart (x.map Call.advance) = woken p := by
  cases x with
  | none => rcases hp with rfl | rfl <;> cases hx
  | some c =>
    unfold cbPart at hx
    cases hpc : c.pc <;> cases hb : c.blocked <;> rcases hp with rfl | rfl <;>
      simp_all [cbPart, woken, Call.advance, Call.next]

/-- The `up` that ends a callback run wakes the reader if it is queued. -/
theorem finish (h : Fits o p q sem ans) (hq : q ≠ .idle) :
    (sem.up.2 = none ∧ Fits o p .idle sem.up.1 ans) ∨
    (sem.up.2 = some o ∧ (p = .waitsFirst ∨ p = .waitsReply) ∧
      Fits o (woken p) .idle sem.up.1 ans) := by
  cases h <;> first | exact absurd rfl hq | skip
  · exact .inl ⟨rfl, .rest⟩
  · exact .inr ⟨rfl, .inl rfl, .armed⟩
  · exact .inl ⟨rfl, .ready⟩
  · exact .inr ⟨rfl, .inr rfl, .passed⟩
  · exact .inl ⟨rfl, .ready⟩
  · exact .inr ⟨rfl, .inr rfl, .passed⟩

end Fits

/-- The reader `o` and the callback run `k` are the only users of `cb_sem`, and they fit. -/
structure Shape (s : Socket) (o k : Nat) (p : CbPart) (q : CbStat) (ans : Bool) : Prop where
  parts : s.parts = solo .out o p
  stats : s.stats = solo .idle k q
  fits : Fits o p q s.cbSem ans
  answered : ans = true → Answered s o

namespace Shape

variable {s t : Socket} {o k i : Nat} {p : CbPart} {q : CbStat} {ans : Bool}

/-- A step that changes nobody's use of `cb_sem` keeps the shape. -/
theorem frame (h : Shape s o k p q ans) (hp : t.parts = s.parts) (hs : t.stats = s.stats)
    (hc : t.cbSem = s.cbSem) (ha : ∀ i, Answered s i → Answered t i) : Shape t o k p q ans :=
  ⟨hp.trans h.parts, hs.trans h.stats, hc ▸ h.fits, fun hans => ha o (h.answered hans)⟩

/-- A call that uses `cb_sem` is the reader. -/
theorem reader (h : Shape s o k p q ans) {r : CbPart} (hi : s.parts i = r) (hr : r ≠ .out) :
    i = o ∧ r = p := by
  rw [h.parts] at hi
  obtain rfl := eq_of_solo_ne (hi ▸ hr)
  exact ⟨rfl, by rw [← hi, solo_self]⟩

/-- A callback run that uses `cb_sem` is the one. -/
theorem runner (h : Shape s o k p q ans) {l : Nat} {r : CbStat} (hl : s.stats l = r)
    (hr : r ≠ .idle) : l = k ∧ r = q := by
  rw [h.stats] at hl
  obtain rfl := eq_of_solo_ne (hl ▸ hr)
  exact ⟨rfl, by rw [← hl, solo_self]⟩

/-- Only the call that holds `cn_sem` uses `cb_sem`. -/
theorem out_of_holds (h : Shape s o k p q ans) (hb : Base s) (hi : HoldsCn (s.calls i))
    (hout : s.parts i = .out) : p = .out := by
  by_contra hne
  have ho : s.parts o ≠ .out := by
    rw [h.parts, solo_self]
    exact hne
  obtain ⟨owner, hl⟩ := hb.locked
  have h1 := (hl.holds o).mp (holdsCn_of_cbPart (hb.wf o) ho)
  have h2 := (hl.holds i).mp hi
  have hoi : o = i := Option.some.inj (h1.symm.trans h2)
  exact ho (hoi ▸ hout)

theorem downFirst (h : Shape s o k p q ans) (hb : Base s) {c : Call} (hc : s.calls i = some c)
    (hbl : c.blocked = false) (hpc : c.pc = .downCb) :
    ∃ p', Shape (s.downCb i c) i k p' q false := by
  have hout : s.parts i = .out := by simp [Socket.parts, hc, cbPart, hpc, hbl]
  obtain rfl := h.out_of_holds hb (by simp [hc, HoldsCn, Call.holdsCn, hpc]) hout
  refine ⟨_, ?_, h.stats, h.fits.downFirst i, fun hf => by cases hf⟩
  rw [parts_downCb, h.parts, solo_default]
  cases ht : (s.cbSem.down i).2 <;>
    simp [solo, Call.downed, cbPart, Call.advance, Call.next, hpc]

theorem downSecond (h : Shape s o k p q ans) {c : Call} (hc : s.calls i = some c)
    (hbl : c.blocked = false) (hpc : c.pc = .downReply)
    (ha : ∀ j, Answered s j → Answered (s.downCb i c) j) :
    ∃ p', Shape (s.downCb i c) i k p' q ans := by
  have hsent : s.parts i = .sent := by simp [Socket.parts, hc, cbPart, hpc, hbl]
  obtain ⟨rfl, rfl⟩ := h.reader hsent (by decide)
  refine ⟨_, ?_, h.stats, h.fits.downSecond, fun hans => ha i (h.answered hans)⟩
  rw [parts_downCb, h.parts, update_solo_self]
  cases ht : (s.cbSem.down i).2 <;> simp [Call.downed, cbPart, Call.advance, Call.next, hpc]

theorem send (h : Shape s o k p q ans) (hi : s.parts i = .armed)
    (hp : t.parts = Function.update s.parts i .sent) (hs : t.stats = s.stats)
    (hcb : t.cbSem = s.cbSem) : Shape t i k .sent q false := by
  obtain ⟨rfl, rfl⟩ := h.reader hi (by decide)
  exact ⟨by rw [hp, h.parts, update_solo_self], hs.trans h.stats, hcb ▸ h.fits.send,
    fun hf => by cases hf⟩

theorem readerUp (h : Shape s o k p q ans) {c : Call} (hc : s.calls i = some c)
    (hpc : c.pc = .upCb) : Shape (s.setCall i c.advance).upCb i k .out q false := by
  obtain ⟨rfl, rfl⟩ := h.reader (i := i) (r := .passed)
    (by simp [Socket.parts, hc, cbPart, hpc]) (by decide)
  obtain ⟨hw, hfits, _⟩ := h.fits.readerUp
  refine ⟨?_, h.stats, hfits, fun hf => by cases hf⟩
  have hcalls : (s.setCall i c.advance).upCb.calls = (s.setCall i c.advance).calls := by
    simp only [Socket.upCb, Socket.setCall, hw]
    rfl
  rw [parts_of_calls hcalls, parts_setCall, h.parts, update_solo_self]
  simp [cbPart, Call.advance, Call.next, hpc]

theorem trylock (h : Shape s o k p q ans) (hpos : 0 < s.cbSem.count) {l : Nat}
    (hp : t.parts = s.parts) (hs : t.stats = Function.update s.stats l .probing)
    (hcb : t.cbSem = { s.cbSem with count := s.cbSem.count - 1 })
    (ha : ∀ j, Answered s j → Answered t j) : Shape t o l p .probing ans := by
  obtain ⟨rfl, hfits⟩ := h.fits.trylock hpos
  refine ⟨hp.trans h.parts, ?_, hcb ▸ hfits, fun hans => ha o (h.answered hans)⟩
  rw [hs, h.stats, solo_default, update_const]

theorem need (h : Shape s o k p q ans) (hzero : s.cbSem.count = 0) {l : Nat}
    (hquiet : s.stats = fun _ => .idle) (hi : s.parts i = .sent ∨ s.parts i = .waitsReply)
    (hp : t.parts = s.parts) (hs : t.stats = Function.update s.stats l .handling)
    (hcb : t.cbSem = s.cbSem) (hans : Answered t i) : Shape t i l p .handling true := by
  have hq : q = .idle := by
    have := congrFun (h.stats.symm.trans hquiet) k
    rwa [solo_self] at this
  obtain ⟨rfl, hpart⟩ := h.reader (i := i) rfl (by rcases hi with hi | hi <;> rw [hi] <;> decide)
  subst hq
  refine ⟨hp.trans h.parts, ?_, hcb ▸ h.fits.need (hpart ▸ hi) hzero, fun _ => hans⟩
  rw [hs, hquiet, update_const]

/-- The end of a callback run; `s` is the state in which the run is over but for its `up`. -/
theorem finish (h : Shape s o k p q ans) {l : Nat} {b : Callback} (hb : s.callbacks l = some b)
    (hpc : b.pc = .release ∨ b.pc = .up)
    (ha : ∀ j, Answered s j → Answered (s.setCallback l { b with pc := .done }).upCb j) :
    ∃ p', Shape (s.setCallback l { b with pc := .done }).upCb o k p' .idle ans := by
  obtain ⟨rfl, hq⟩ := h.runner (l := l) rfl
    (by rcases hpc with hpc | hpc <;> simp [Socket.stats, hb, cbStat, hpc])
  have hbusy : q ≠ .idle := by
    rw [← hq]
    rcases hpc with hpc | hpc <;> simp [Socket.stats, hb, cbStat, hpc]
  have hstats : (s.setCallback l { b with pc := .done }).upCb.stats = solo .idle l .idle := by
    have : (s.setCallback l { b with pc := .done }).upCb.stats =
        (s.setCallback l { b with pc := .done }).stats := rfl
    rw [this, stats_setCallback, h.stats, update_solo_self]
    rfl
  rcases h.fits.finish hbusy with ⟨hw, hfits⟩ | ⟨hw, hp, hfits⟩
  · refine ⟨p, ?_, hstats, hfits, fun hans => ha o (h.answered hans)⟩
    refine (parts_of_calls ?_).trans h.parts
    simp only [Socket.upCb, Socket.setCallback, hw]
    rfl
  · refine ⟨Fits.woken p, ?_, hstats, hfits, fun hans => ha o (h.answered hans)⟩
    have hcalls : (s.setCallback l { b with pc := .done }).upCb.calls =
        Function.update s.calls o ((s.calls o).map Call.advance) := by
      simp only [Socket.upCb, Socket.setCallback, hw]
      rfl
    have hpart : cbPart (s.calls o) = p := by
      have := congrFun h.parts o
      rwa [solo_self] at this
    calc Socket.parts _ = cbPart ∘ Function.update s.calls o ((s.calls o).map Call.advance) :=
          congrArg (cbPart ∘ ·) hcalls
      _ = Function.update s.parts o (cbPart ((s.calls o).map Call.advance)) :=
          Function.comp_update ..
      _ = solo .out o (Fits.woken p) := by
          rw [h.parts, update_solo_self, Fits.cbPart_woken hpart hp]

end Shape

/-! ## Runs with unneeded messages -/

/-- The condition on a run: `cn_callback` takes its copying branch (its `down_trylock` fails) only
while no other callback run is between its `down_trylock` and its `up`, and while some reader is
between its send and the end of its second `down(&cb_sem)`, having sent its request before the
message was delivered. -/
def CopyOk (s : Socket) (a : Action) : Prop :=
  ∀ k b, a = .callback k → s.callbacks k = some b → b.pc = .trylock → s.cbSem.count = 0 →
    (∀ l d, s.callbacks l = some d → ¬ d.busy) ∧
    ∃ i c n, s.calls i = some c ∧ (c.pc = .count ∨ c.pc = .downReply) ∧ c.sentAt = some n ∧ n ≤ k

/-- A read that has made its second `down` and its `up`. -/
def Late (c : Call) : Prop := c.kind ≠ .write ∧ (c.pc = .copy ∨ c.pc = .upCn ∨ c.pc = .done)

/-- The invariant of the runs that meet `CopyOk`. -/
structure Good (s : Socket) : Prop where
  base : Base s
  numbered : ∀ k b, s.callbacks k = some b → k < s.delivered
  shape : ∃ o k p q ans, Shape s o k p q ans
  late : ∀ i c, s.calls i = some c → Late c → Answered s i

theorem numbered_step {s t : Socket} {a : Action} (h : Step s a t)
    (hn : ∀ k b, s.callbacks k = some b → k < s.delivered) :
    ∀ k b, t.callbacks k = some b → k < t.delivered := by
  have hset : ∀ {l : Nat} {d d' : Callback}, s.callbacks l = some d →
      ∀ k b, Function.update s.callbacks l (some d') k = some b → k < s.delivered := by
    intro l d d' hl k b hk
    by_cases he : k = l
    · subst he
      exact hn k d hl
    · rw [Function.update_of_ne he] at hk
      exact hn k b hk
  cases h with
  | deliver | inject =>
    intro k b hk
    by_cases he : k = s.delivered
    · subst he
      exact Nat.lt_succ_self _
    · have hk' : s.callbacks k = some b := by
        simpa [start, setCallback, Function.update_of_ne he] using hk
      exact Nat.lt_succ_of_lt (hn k b hk')
  | probe hb | need hb | fill hb | finish hb => exact hset hb
  | _ => exact hn

/-- A call that does not change its part. -/
theorem parts_setCall_of_eq {s : Socket} {i : Nat} {c : Call} (h : cbPart (some c) = s.parts i) :
    (s.setCall i c).parts = s.parts := by
  rw [parts_setCall, h, Function.update_eq_self]

theorem stats_start {s : Socket} (hn : ∀ k b, s.callbacks k = some b → k < s.delivered)
    (msg : Msg) : (s.start msg).stats = s.stats := by
  have hnone : s.callbacks s.delivered = none := by
    cases hc : s.callbacks s.delivered with
    | none => rfl
    | some b => exact absurd (hn _ b hc) (Nat.lt_irrefl _)
  have hidle : cbStat (some ⟨msg, .trylock⟩) = s.stats s.delivered := by
    simp [stats, hnone, cbStat]
  calc stats _ = (s.setCallback s.delivered ⟨msg, .trylock⟩).stats := rfl
    _ = s.stats := by rw [stats_setCallback, hidle, Function.update_eq_self]

/-- Handing `cn_sem` over changes nobody's use of `cb_sem`. -/
theorem parts_upCn {s : Socket} (hq : Queues s) {i : Nat} {c : Call} (hc : s.calls i = some c)
    (hpc : c.pc = .upCn) : (s.setCall i c.advance).upCn.parts = s.parts := by
  funext j
  show cbPart (Semaphore.wake Call.advance (s.setCall i c.advance).calls s.cnSem.up.2 j) =
    cbPart (s.calls j)
  have hset : ∀ j, cbPart ((s.setCall i c.advance).calls j) = cbPart (s.calls j) := by
    refine congrFun (parts_setCall_of_eq (s := s) ?_)
    simp [parts, hc, cbPart, Call.advance, Call.next, hpc]
  rw [Semaphore.wake_apply]
  split
  · next hj =>
    have hw := hq.cn.up_waits hj
    have hji : j ≠ i := by
      rintro rfl
      rw [hc] at hw
      simp [WaitsCn, hpc] at hw
    cases hd : s.calls j with
    | none => simp [setCall, Function.update_of_ne hji, hd]
    | some d =>
      rw [hd] at hw
      cases hk : d.kind <;>
        simp [setCall, Function.update_of_ne hji, hd, cbPart, Call.advance, Call.next, hw.2, hk]
  · exact hset j

/-- A step that leaves `cb_sem` alone and sends nothing changes nobody's use of `cb_sem`. -/
theorem step_parts {s t : Socket} {a : Action} (hq : Queues s) (hok : AllocOk a) (h : Step s a t)
    (hcb : t.cbSem = s.cbSem) (hsent : t.sent = s.sent) : t.parts = s.parts := by
  cases h with
  | readBlock hc | writeBlock hc =>
    refine parts_setCall_of_eq ?_
    simp [parts, hc, cbPart]
  | alloc hc hpc | sample hc _ hpc | copy hc _ hpc | count hc _ hpc =>
    refine parts_setCall_of_eq (s := s) ?_
    simp [parts, hc, cbPart, Call.advance, Call.next, hpc]
  | @allocFail i => exact absurd rfl (hok i)
  | @downCn i c hc hb hpc =>
    refine parts_setCall_of_eq (s := s) ?_
    cases hk : c.kind <;> cases ht : (s.cnSem.down i).2 <;>
      simp [parts, hc, cbPart, Call.downed, Call.advance, Call.next, hpc, hb, hk]
  | upCn hc _ hpc => exact parts_upCn hq hc hpc
  | downCb => exact absurd hcb (Semaphore.down_ne _ _)
  | upCb | finish => exact absurd hcb (Semaphore.up_ne _)
  | send => simp at hsent
  | answer | deliver | inject | probe | need | fill => rfl

theorem stats_idle {s : Socket} (h : ∀ l d, s.callbacks l = some d → ¬ d.busy) :
    s.stats = fun _ => .idle := by
  funext l
  cases hd : s.callbacks l with
  | none => simp [stats, hd, cbStat]
  | some d =>
    have hl := h l d hd
    unfold Callback.busy at hl
    cases hp : d.pc <;> simp_all [stats, cbStat]

theorem shape_step {s t : Socket} {a : Action} (hg : Good s) (hok : AllocOk a)
    (hcopy : CopyOk s a) (h : Step s a t) : ∃ o k p q ans, Shape t o k p q ans := by
  have ha : ∀ i, Answered s i → Answered t i := fun i => answered_step hg.base h
  have hparts := step_parts hg.base.queues hok h
  obtain ⟨o, k, p, q, ans, hsh⟩ := hg.shape
  cases h with
  | @allocFail i => exact absurd rfl (hok i)
  | readBlock | writeBlock | alloc | sample | downCn | count | copy | upCn | answer =>
    exact ⟨o, k, p, q, ans, hsh.frame (hparts rfl rfl) rfl rfl ha⟩
  | @downCb i c hc hb hpc =>
    rcases hpc with hpc | hpc
    · obtain ⟨p', h'⟩ := hsh.downFirst hg.base hc hb hpc
      exact ⟨i, k, p', q, false, h'⟩
    · obtain ⟨p', h'⟩ := hsh.downSecond hc hb hpc ha
      exact ⟨i, k, p', q, ans, h'⟩
  | @send i c m hc hb hpc hm =>
    refine ⟨i, k, .sent, q, false, hsh.send (i := i) ?_ ?_ rfl rfl⟩
    · simp [parts, hc, cbPart, hpc]
    · refine (parts_setCall s i _).trans ?_
      simp [cbPart, Call.advance, Call.next, hpc]
  | @upCb i c hc hb hpc => exact ⟨i, k, .out, q, false, hsh.readerUp hc hpc⟩
  | @deliver n r =>
    exact ⟨o, k, p, q, ans, hsh.frame rfl (stats_start hg.numbered r.msg) rfl ha⟩
  | @inject msg => exact ⟨o, k, p, q, ans, hsh.frame rfl (stats_start hg.numbered msg) rfl ha⟩
  | @probe l b hb hpc hpos =>
    exact ⟨o, l, p, .probing, ans, hsh.trylock hpos rfl (stats_setCallback s l _) rfl ha⟩
  | @need l b hb hpc hzero =>
    obtain ⟨hquiet, i, c, n, hc, hpart, hn, hle⟩ := hcopy l b rfl hb hpc hzero
    refine ⟨i, l, p, .handling, true, hsh.need hzero (stats_idle hquiet) ?_ rfl
      (stats_setCallback s l _) rfl ⟨c, n, hc, hn, ?_⟩⟩
    · rcases hpart with hpart | hpart <;> cases hb : c.blocked <;>
        simp [parts, hc, cbPart, hpart, hb]
    · exact Nat.lt_of_le_of_lt hle (hg.numbered l b hb)
  | @fill l b hb hpc =>
    have hsame : cbStat (some { b with pc := .up }) = s.stats l := by
      simp [stats, hb, cbStat, hpc]
    refine ⟨o, k, p, q, ans, hsh.frame rfl ?_ rfl ha⟩
    exact (stats_setCallback s l _).trans (by rw [hsame, Function.update_eq_self])
  | finish hb hpc =>
    obtain ⟨p', h'⟩ := hsh.finish hb hpc ha
    exact ⟨o, k, p', .idle, ans, h'⟩

/-- A read that has just become late has made its `up`, so it was past its second `down`. -/
theorem late_step {s t : Socket} {a : Action} (hg : Good s) (hok : AllocOk a) (h : Step s a t) :
    ∀ i c, t.calls i = some c → Late c → Answered t i := by
  have ha : ∀ i, Answered s i → Answered t i := fun i => answered_step hg.base h
  intro i c' hc' hlate
  rcases step_move hg.base.queues h hc' with he | he
  · exact ha i (hg.late i c' he hlate)
  · cases hs : s.calls i with
    | none =>
      rw [hs] at he
      cases he <;> simp [Late] at hlate
    | some c =>
      rw [hs] at he
      by_cases hpast : Late c
      · exact ha i (hg.late i c hs hpast)
      · have hup : c.pc = .upCb := by
          cases he with
          | allocFail ha => exact absurd ha (hok _)
          | alloc hpc | sample hpc | send hpc | copy hpc =>
            simp_all [Late, Call.advance, Call.next]
          | block => exact absurd hlate hpast
          | move hpc =>
            rcases hpc with hpc | hpc | hpc | hpc | hpc | hpc <;> cases hk : c.kind <;>
              simp_all [Late, Call.advance, Call.next]
        obtain ⟨o, k, p, q, ans, hsh⟩ := hg.shape
        obtain ⟨rfl, rfl⟩ := hsh.reader (i := i) (r := .passed)
          (by simp [parts, hs, cbPart, hup]) (by decide)
        exact ha i (hsh.answered hsh.fits.readerUp.2.2)

theorem good_init : Good init where
  base := base_init
  numbered := fun _ _ h => by cases h
  shape := ⟨0, 0, .out, .idle, false, by rw [solo_default]; rfl, by rw [solo_default]; rfl, .rest,
    fun h => by cases h⟩
  late := fun _ _ h => by cases h

theorem good_step {s t : Socket} {a : Action} (hg : Good s) (hok : AllocOk a)
    (hcopy : CopyOk s a) (h : Step s a t) : Good t where
  base := base_step hg.base hok h
  numbered := numbered_step h hg.numbered
  shape := shape_step hg hok hcopy h
  late := late_step hg hok h

/-- Unneeded messages have done no harm: `cb_sem` is at most 1, and every read that returned did so
after a message that was delivered after its own request. -/
structure Harmless (s : Socket) : Prop where
  count_le : s.cbSem.count ≤ 1
  answered : ∀ i c address, s.calls i = some c → c.kind = .read address → c.pc = .done →
    ∃ n, c.sentAt = some n ∧ n < s.delivered

theorem Good.harmless {s : Socket} (hg : Good s) : Harmless s := by
  obtain ⟨o, k, p, q, ans, hsh⟩ := hg.shape
  refine ⟨hsh.fits.count_le, ?_⟩
  intro i c address hc hk hpc
  obtain ⟨d, n, hd, hn, hlt⟩ := hg.late i c hc ⟨by simp [hk], .inr (.inr hpc)⟩
  rw [hc] at hd
  cases hd
  exact ⟨n, hn, hlt⟩

/-- In every run in which allocations succeed and no callback copies at a wrong time, unneeded
messages do no harm, whatever they are and whenever they come. -/
theorem harmless_of_copyOk {s : Socket}
    (h : Reach step (fun s a => AllocOk a ∧ CopyOk s a) init s) : Harmless s :=
  Good.harmless <| h.invariant good_init fun _ _ _ hg hok hstep =>
    good_step hg hok.1 hok.2 (step_cases hstep)

/-- A message of no bytes. -/
def emptyMsg : Msg := ⟨[], by decide⟩

/-- A read that is answered, with an unneeded message before it: the first callback run finds
`cb_sem` free, the second one copies and wakes the reader. -/
def answeredRead : List Action :=
  [.inject emptyMsg, .readBlock 0 5, .kzalloc 0 true, .call 0, .callback 0, .callback 0, .call 0,
    .call 0, .call 0, .call 0, .call 0, .answer 0 emptyMsg, .deliver 0, .callback 1, .callback 1,
    .callback 1, .call 0, .call 0, .call 0]

/-- No allocation fails, and no callback run takes the branch that copies. -/
def noCopy (s : Socket) : Action → Bool
  | .kzalloc _ ok => ok
  | .callback k => 0 < s.cbSem.count || match s.callbacks k with
    | some b => b.pc != .trylock
    | none => true
  | _ => true

theorem copyOk_of_noCopy {s : Socket} {a : Action} (h : noCopy s a = true) :
    AllocOk a ∧ CopyOk s a := by
  constructor
  · rintro i rfl
    cases h
  · rintro k b rfl hb hpc hzero
    simp [noCopy, hb, hpc, hzero] at h

theorem answeredRead_ok :
    StepsOk step (fun s a => AllocOk a ∧ CopyOk s a) init answeredRead := by
  have hnoCopy : ∀ s a, noCopy s a = true → AllocOk a ∧ CopyOk s a := fun _ _ => copyOk_of_noCopy
  -- the second callback run copies in its first step: the first run is over, and the reader has
  -- sent its request when one message had been delivered
  show StepsOk _ _ _ (answeredRead.take 13 ++ .callback 1 :: (answeredRead.drop 14 ++ []))
  refine .append_of_checks hnoCopy rfl rfl (.cons ⟨by simp [AllocOk], ?_⟩ rfl
    (.append_of_checks hnoCopy rfl rfl trivial))
  intro k b hk _ _ _
  refine ⟨fun l d hd => ?_, 0, _, 1, rfl, .inr rfl, rfl, ?_⟩
  · match l with
    | 0 =>
      cases hd
      simp [Callback.busy]
    | 1 =>
      cases hd
      simp [Callback.busy]
    | l + 2 => cases hd
  · cases hk
    exact Nat.le_refl 1

theorem harmless_answeredRead :
    ∃ s c, Reach step (fun s a => AllocOk a ∧ CopyOk s a) init s ∧ s.calls 0 = some c ∧
      c.pc = .done ∧ Harmless s := by
  have hrun : ∃ t c, answeredRead.foldlM step init = some t ∧ t.calls 0 = some c ∧ c.pc = .done :=
    ⟨_, _, rfl, rfl, rfl⟩
  obtain ⟨s, c, hs, hc, hpc⟩ := hrun
  exact ⟨s, c, .of_run answeredRead_ok hs, hc, hpc,
    harmless_of_copyOk (.of_run answeredRead_ok hs)⟩

/-- Two unneeded messages and no reader: while the first callback run holds the unit it probed, the
second one takes the copying branch and adds a unit of its own. -/
def crossedProbes : List Action :=
  [.inject emptyMsg, .inject emptyMsg, .callback 0, .callback 1, .callback 1, .callback 1,
    .callback 0]

/-- A later read takes that unit for its reply. -/
def staleRead : List Action :=
  crossedProbes ++ [.readBlock 0 5, .kzalloc 0 true, .call 0, .call 0, .call 0, .call 0, .call 0,
    .call 0, .call 0, .call 0, .call 0]

theorem allocOk_staleRead : ∀ a ∈ staleRead, AllocOk a := by
  intro a ha i he
  subst he
  simp [staleRead, crossedProbes] at ha

/-- The race the source marks with a FIXME: `cb_sem` reaches 2, and a read returns although no
message was delivered after its request. -/
theorem crossed_probes_harm :
    (∃ s, Reach step (fun _ a => AllocOk a) init s ∧ s.cbSem.count = 2) ∧
    (∃ s c, Reach step (fun _ a => AllocOk a) init s ∧ s.calls 0 = some c ∧ c.kind = .read 5 ∧
      c.pc = .done ∧ c.sentAt = some s.delivered) ∧
    ¬ ∀ s, Reach step (fun _ a => AllocOk a) init s → Harmless s := by
  have hcrossed : ∃ s, crossedProbes.foldlM step init = some s ∧ s.cbSem.count = 2 :=
    ⟨_, rfl, rfl⟩
  have hstale : ∃ s c, staleRead.foldlM step init = some s ∧ s.calls 0 = some c ∧
      c.kind = .read 5 ∧ c.pc = .done ∧ c.sentAt = some s.delivered :=
    ⟨_, _, rfl, rfl, rfl, rfl, rfl⟩
  obtain ⟨s, hs, hcount⟩ := hcrossed
  have hreach : Reach step (fun _ a => AllocOk a) init s := by
    refine .of_run (.of_forall fun a ha => allocOk_staleRead a ?_) hs
    exact List.mem_append_left _ ha
  refine ⟨⟨s, hreach, hcount⟩, ?_, fun h => ?_⟩
  · obtain ⟨t, c, ht, hrest⟩ := hstale
    exact ⟨t, c, .of_run (.of_forall allocOk_staleRead) ht, hrest⟩
  · have := (h s hreach).count_le
    omega

end Socket

end Sjfs
