import Sjfs.SocketSolo

/-!
# What a read call returns besides its answer

`cn_callback` copies as many bytes as its message has, up to a block, and `sjfs_read_block` returns
all 1024 bytes of `read_block_buffer`. So what earlier messages have left behind a short answer is
returned with it.

Two histories are compared, each at rest, and one more call after each of them that is answered by
the same message.

Results:
1. `readAfter_fill`, `readAfter_stale`: the blocks that `Possible` allows are returned in some run.
2. `noLeftover_iff`: when the call returns the same block after both histories.
3. `hides_histories_iff`: after histories that left `cb_sem` at 1, the answers for which it always
   does are those that fill a block.
-/

namespace Sjfs

open Lib

namespace Socket

/-! ## Runs of the call -/

/-- The request of a call that reads the counter in `s`. -/
def request (s : Socket) (address : UInt32) : CnMsg :=
  ⟨s.cnCounter, (readPayload address).1, (readPayload address).2⟩

/-- Call `i` has sent its request and is about to wait for the answer. -/
def asked (s : Socket) (i : Nat) (address : UInt32) : Socket :=
  { s with
    cnSem := { s.cnSem with count := s.cnSem.count - 1 }
    cbSem := { s.cbSem with count := s.cbSem.count - 1 }
    cnCounter := s.cnCounter + 1
    calls := Function.update s.calls i
      (some ⟨.read address, .downReply, false, some (s.request address), none, some s.delivered⟩)
    wire := [⟨i, s.request address⟩]
    sent := s.sent ++ [⟨i, s.request address⟩] }

/-- The callback run of the answer has started. -/
def handed (s : Socket) (i : Nat) (address : UInt32) (msg : Msg) : Socket :=
  { s.asked i address with
    wire := []
    callbacks := Function.update s.callbacks s.delivered (some ⟨msg, .trylock⟩)
    delivered := s.delivered + 1
    answer := Function.update s.answer i (some msg) }

/-- The call is past its second `down(&cb_sem)`, and the callback run is over. There are `n` units of
`cb_sem` and `buffer` left. -/
def waited (s : Socket) (i : Nat) (address : UInt32) (msg : Msg) (n : Nat) (buffer : Block) :
    Socket :=
  { s.handed i address msg with
    cbSem := { s.cbSem with count := n }
    readBlockBuffer := buffer
    calls := Function.update s.calls i (some ⟨.read address, .upCb, false,
      some (s.request address), none, some s.delivered⟩)
    callbacks := Function.update s.callbacks s.delivered (some ⟨msg, .done⟩) }

/-- The call has returned `blk`, with `n` units of `cb_sem` and `buffer` left. -/
def returned (s : Socket) (i : Nat) (address : UInt32) (msg : Msg) (blk : Block) (n : Nat)
    (buffer : Block) : Socket :=
  { s.handed i address msg with
    cnSem := s.cnSem
    cbSem := { s.cbSem with count := n }
    readBlockBuffer := buffer
    calls := Function.update s.calls i (some ⟨.read address, .done, false,
      some (s.request address), some blk, some s.delivered⟩)
    callbacks := Function.update s.callbacks s.delivered (some ⟨msg, .done⟩) }

/-- The call, up to its second `down(&cb_sem)`. -/
def askSteps (i : Nat) (address : UInt32) : List Action :=
  [.readBlock i address, .kzalloc i true, .call i, .call i, .call i, .call i, .call i]

section Runs

variable {s : Socket} (hs : Idle s)
include hs

theorem Idle.cnSem_eq : ∃ n, s.cnSem = ⟨n + 1, []⟩ := by
  have hpos := hs.cnPos
  refine ⟨s.cnSem.count - 1, ?_⟩
  rw [Nat.sub_add_cancel hpos, ← hs.cnWaiters]

theorem run_asked {i : Nat} (hi : s.calls i = none) (address : UInt32) :
    (askSteps i address).foldlM step s = some (s.asked i address) := by
  unfold askSteps
  -- action by action: with all of them unfolded, `simp` works on each under the binders of the rest
  iterate 7
    rw [List.foldlM_cons]
    simp only [step, stepCall, hi, setCall, downCn, downCb, Semaphore.down, hs.cnPos, hs.cbPos,
      hs.rest.calm.wire, Call.downed, Call.advance, Call.next, Function.update_self,
      Function.update_idem, Option.bind_eq_bind, Option.bind_some, Bool.false_eq_true, ite_true,
      ite_false, List.nil_append]
  rfl

theorem run_handed (i : Nat) (address : UInt32) (msg : Msg) :
    [.answer 0 msg, .deliver 0].foldlM step (s.asked i address) =
      some (s.handed i address msg) := by
  simp [step, asked, hs.rest.calm.inbox, start, setCallback, handed]

/-- With one unit of `cb_sem`, the answer comes, is copied, and ends the wait. -/
theorem run_taken (hone : s.cbSem.count = 1) (i : Nat) (address : UInt32) (msg : Msg) :
    [.callback s.delivered, .callback s.delivered, .callback s.delivered, .call i].foldlM step
      (s.handed i address msg) =
    some (s.waited i address msg 0 (fill s.readBlockBuffer msg)) := by
  simp [step, stepCall, cnCallback, handed, asked, waited, setCall, setCallback, upCb, downCb,
    Semaphore.down, Semaphore.downTrylock, Semaphore.up, hone, hs.cbWaiters, Semaphore.wake,
    Call.downed, Call.advance, Call.next]

/-- With two, the call does not wait, and the answer is copied between its `down` and its `up`. -/
theorem run_late (htwo : s.cbSem.count = 2) (i : Nat) (address : UInt32) (msg : Msg) :
    [.call i, .callback s.delivered, .callback s.delivered, .callback s.delivered].foldlM step
      (s.handed i address msg) =
    some (s.waited i address msg 1 (fill s.readBlockBuffer msg)) := by
  simp [step, stepCall, cnCallback, handed, asked, waited, setCall, setCallback, upCb, downCb,
    Semaphore.down, Semaphore.downTrylock, Semaphore.up, htwo, hs.cbWaiters, Semaphore.wake,
    Call.downed, Call.advance, Call.next]

/-- With two or more, the answer can come while there is a unit, and is dropped. -/
theorem run_dropped {m : Nat} (hmany : s.cbSem.count = m + 2) (i : Nat) (address : UInt32)
    (msg : Msg) :
    [.callback s.delivered, .callback s.delivered, .call i].foldlM step (s.handed i address msg) =
    some (s.waited i address msg m s.readBlockBuffer) := by
  simp [step, stepCall, cnCallback, handed, asked, waited, setCall, setCallback, upCb, downCb,
    Semaphore.down, Semaphore.downTrylock, Semaphore.up, hmany, hs.cbWaiters, Semaphore.wake,
    Call.downed, Call.advance, Call.next]

/-- What is left of the call copies the buffer as it is. -/
theorem run_returned (i : Nat) (address : UInt32) (msg : Msg) (n : Nat) (buffer : Block) :
    [.call i, .call i, .call i].foldlM step (s.waited i address msg n buffer) =
      some (s.returned i address msg buffer (n + 1) buffer) := by
  obtain ⟨m, hm⟩ := hs.cnSem_eq
  simp [step, stepCall, handed, asked, waited, returned, setCall, upCb, upCn, Semaphore.up,
    hs.cbWaiters, hm, Semaphore.wake, Call.advance, Call.next]

theorem rest_returned (i : Nat) (address : UInt32) (msg : Msg) (blk : Block) (n : Nat)
    (buffer : Block) : Rest (s.returned i address msg blk n buffer) := by
  refine ⟨?_, rfl, hs.rest.calm.inbox, ?_⟩
  · intro j c hc
    rcases Semaphore.update_eq_some hc with ⟨_, rfl⟩ | hc
    · rfl
    · exact hs.rest.calls j c hc
  · intro k b hb
    by_cases hk : k = s.delivered
    · subst hk
      rw [show (s.returned i address msg blk n buffer).callbacks s.delivered = _ from
        Function.update_self ..] at hb
      cases hb
      rfl
    · exact hs.rest.calm.quiet k b ((Function.update_of_ne hk ..).symm.trans hb)

/-- A run of the call in which the actions `as` bring it past its wait. -/
theorem reach_returned {i : Nat} (hi : s.calls i = none) {address : UInt32} {msg : Msg} {n : Nat}
    {buffer : Block} {as : List Action}
    (hrun : as.foldlM step (s.handed i address msg) = some (s.waited i address msg n buffer))
    (has : ∀ a ∈ as, a = .call i ∨ a = .callback s.delivered) :
    Reach step (fun _ a => OnlyRead i address msg a) s
      (s.returned i address msg buffer (n + 1) buffer) := by
  have hall : ∀ a ∈ askSteps i address ++ ([.answer 0 msg, .deliver 0] ++
      (as ++ [.call i, .call i, .call i])), OnlyRead i address msg a := by
    intro a ha
    simp only [askSteps, List.mem_append, List.mem_cons, List.not_mem_nil, or_false] at ha
    rcases ha with ha | (rfl | rfl) | ha | ha
    · unfold OnlyRead
      tauto
    · exact .inr (.inr (.inr ⟨0, .inl rfl⟩))
    · exact .inr (.inr (.inr ⟨0, .inr (.inl rfl)⟩))
    · rcases has a ha with rfl | rfl
      · exact .inr (.inr (.inl rfl))
      · exact .inr (.inr (.inr ⟨_, .inr (.inr rfl)⟩))
    · exact .inr (.inr (.inl (by simpa using ha)))
  refine Reach.of_run (.of_forall hall) ?_
  rw [List.foldlM_append, run_asked hs hi, Option.bind_eq_bind, Option.bind_some,
    List.foldlM_append, run_handed hs, Option.bind_eq_bind, Option.bind_some,
    List.foldlM_append, hrun, Option.bind_eq_bind, Option.bind_some, run_returned hs]

theorem readAfter_of_run {address : UInt32} {msg : Msg} {n : Nat} {buffer : Block}
    {as : Nat → List Action}
    (hrun : ∀ i, (as i).foldlM step (s.handed i address msg) =
      some (s.waited i address msg n buffer))
    (has : ∀ i, ∀ a ∈ as i, a = .call i ∨ a = .callback s.delivered) :
    ReadAfter s msg buffer := by
  obtain ⟨i, hi⟩ := hs.fresh
  exact ⟨i, address, _, _, hi, reach_returned hs hi (hrun i) (has i),
    rest_returned hs i address msg buffer (n + 1) buffer, Function.update_self .., rfl⟩

/-- With at most two units of `cb_sem`, the call may return its answer over the old buffer. -/
theorem readAfter_fill (hfew : s.cbSem.count ≤ 2) (msg : Msg) :
    ReadAfter s msg (fill s.readBlockBuffer msg) := by
  have hpos := hs.cbPos
  rcases Nat.lt_or_ge s.cbSem.count 2 with hone | htwo
  · exact readAfter_of_run hs (fun i => run_taken hs (by omega) i 0 msg) (by simp)
  · exact readAfter_of_run hs (fun i => run_late hs (by omega) i 0 msg) (by simp)

/-- With at least two, it may return the old buffer. -/
theorem readAfter_stale (hmany : 2 ≤ s.cbSem.count) (msg : Msg) :
    ReadAfter s msg s.readBlockBuffer := by
  obtain ⟨m, hm⟩ := Nat.exists_eq_add_of_le' hmany
  exact readAfter_of_run hs (fun i => run_dropped hs hm i 0 msg) (by simp)

end Runs

/-! ## Two histories -/

/-- What the call returns is the same after `s₁` and after `s₂`. -/
def NoLeftover (s₁ s₂ : Socket) (msg : Msg) : Prop :=
  ∀ blk₁ blk₂, ReadAfter s₁ msg blk₁ → ReadAfter s₂ msg blk₂ → blk₁ = blk₂

/-- The buffer already starts with the message. -/
def StartsWith (buffer : Block) (msg : Msg) : Prop :=
  ∀ j : Fin 1024, j.val < msg.data.length → buffer j = msg.data.getD j.val 0

/-- The buffers hold the same bytes from byte `n` on. -/
def AgreeFrom (n : Nat) (buffer₁ buffer₂ : Block) : Prop :=
  ∀ j : Fin 1024, n ≤ j.val → buffer₁ j = buffer₂ j

theorem fill_apply (buffer : Block) (msg : Msg) (j : Fin 1024) :
    fill buffer msg j = if j.val < msg.data.length then msg.data.getD j.val 0 else buffer j := by
  have hj := j.isLt
  unfold fill
  congr 1
  simp only [blockSize]
  exact propext ⟨fun h => by omega, fun h => by omega⟩

theorem fill_eq_self_iff {buffer : Block} {msg : Msg} :
    fill buffer msg = buffer ↔ StartsWith buffer msg := by
  constructor
  · intro h j hj
    rw [← congrFun h j, fill_apply, if_pos hj]
  · intro h
    funext j
    rw [fill_apply]
    split
    next hj => exact (h j hj).symm
    next => rfl

theorem fill_eq_fill_iff {buffer₁ buffer₂ : Block} {msg : Msg} :
    fill buffer₁ msg = fill buffer₂ msg ↔ AgreeFrom msg.data.length buffer₁ buffer₂ := by
  constructor
  · intro h j hj
    have hfill := congrFun h j
    rw [fill_apply, fill_apply, if_neg (by omega), if_neg (by omega)] at hfill
    exact hfill
  · intro h
    funext j
    rw [fill_apply, fill_apply]
    split
    next => rfl
    next hj => exact h j (by omega)

theorem fill_fill (buffer : Block) (msg : Msg) : fill (fill buffer msg) msg = fill buffer msg := by
  refine fill_eq_self_iff.mpr fun j hj => ?_
  rw [fill_apply, if_pos hj]

/-- `cb_sem` is at 1, so that the call waits for its answer, or its answer changes nothing. -/
def Settled (s : Socket) (msg : Msg) : Prop :=
  s.cbSem.count = 1 ∨ StartsWith s.readBlockBuffer msg

/-- Both calls take their answers, and the buffers agree behind it; or `cb_sem` is so high after both
histories that neither call takes its answer, and the buffers are the same. -/
def Indistinct (s₁ s₂ : Socket) (msg : Msg) : Prop :=
  (AgreeFrom msg.data.length s₁.readBlockBuffer s₂.readBlockBuffer ∧ Settled s₁ msg ∧
    Settled s₂ msg) ∨
  (3 ≤ s₁.cbSem.count ∧ 3 ≤ s₂.cbSem.count ∧ s₁.readBlockBuffer = s₂.readBlockBuffer)

/-- Where the history is settled, the call returns its answer over the old buffer. -/
theorem Settled.eq_fill {s : Socket} {msg : Msg} {blk : Block} (h : Settled s msg)
    (hblk : Possible s msg blk) : blk = fill s.readBlockBuffer msg := by
  rcases h with hone | hstarts
  · exact hblk.answered hone
  · rcases hblk.either with hblk | hblk
    · rw [hblk, fill_eq_self_iff.mpr hstarts]
    · exact hblk

theorem noLeftover_of_indistinct {s₁ s₂ : Socket} {msg : Msg} (hs₁ : Idle s₁) (hs₂ : Idle s₂)
    (h : Indistinct s₁ s₂ msg) : NoLeftover s₁ s₂ msg := by
  intro blk₁ blk₂ hread₁ hread₂
  have hblk₁ := possible_of_readAfter hs₁ hread₁
  have hblk₂ := possible_of_readAfter hs₂ hread₂
  rcases h with ⟨hagree, hset₁, hset₂⟩ | ⟨hmany₁, hmany₂, hsame⟩
  · rw [hset₁.eq_fill hblk₁, hset₂.eq_fill hblk₂]
    exact fill_eq_fill_iff.mpr hagree
  · rw [hblk₁.dropped hmany₁, hblk₂.dropped hmany₂, hsame]

/-- If what the call returns after `s` is always `blk`, then `s` is settled, or `cb_sem` is at 3 or
more and `blk` is the old buffer. -/
theorem settled_of_unique {s : Socket} {msg : Msg} {blk : Block} (hs : Idle s)
    (h : ∀ blk', ReadAfter s msg blk' → blk' = blk) :
    (Settled s msg ∧ blk = fill s.readBlockBuffer msg) ∨
      (3 ≤ s.cbSem.count ∧ blk = s.readBlockBuffer) := by
  rcases Nat.lt_or_ge s.cbSem.count 2 with hone | htwo
  · have hcount : s.cbSem.count = 1 := by
      have hpos := hs.cbPos
      omega
    exact .inl ⟨.inl hcount, (h _ (readAfter_fill hs (by omega) msg)).symm⟩
  · have hstale := h _ (readAfter_stale hs htwo msg)
    rcases Nat.lt_or_ge s.cbSem.count 3 with hlt | hthree
    · have hfill := h _ (readAfter_fill hs (by omega) msg)
      exact .inl ⟨.inr (fill_eq_self_iff.mp (hfill.trans hstale.symm)), hfill.symm⟩
    · exact .inr ⟨hthree, hstale.symm⟩

theorem readAfter_exists {s : Socket} (hs : Idle s) (msg : Msg) : ∃ blk, ReadAfter s msg blk := by
  rcases Nat.le_total s.cbSem.count 2 with hfew | hmany
  · exact ⟨_, readAfter_fill hs hfew msg⟩
  · exact ⟨_, readAfter_stale hs hmany msg⟩

theorem indistinct_of_noLeftover {s₁ s₂ : Socket} {msg : Msg} (hs₁ : Idle s₁) (hs₂ : Idle s₂)
    (h : NoLeftover s₁ s₂ msg) : Indistinct s₁ s₂ msg := by
  obtain ⟨blk₁, hread₁⟩ := readAfter_exists hs₁ msg
  obtain ⟨blk₂, hread₂⟩ := readAfter_exists hs₂ msg
  obtain rfl : blk₁ = blk₂ := h blk₁ blk₂ hread₁ hread₂
  have hall₁ := settled_of_unique hs₁ fun blk hread => h blk blk₁ hread hread₂
  have hall₂ := settled_of_unique hs₂ fun blk hread => (h blk₁ blk hread₁ hread).symm
  rcases hall₁ with ⟨hset₁, hfill₁⟩ | ⟨hthree₁, hstale₁⟩ <;>
    rcases hall₂ with ⟨hset₂, hfill₂⟩ | ⟨hthree₂, hstale₂⟩
  · exact .inl ⟨fill_eq_fill_iff.mp (hfill₁.symm.trans hfill₂), hset₁, hset₂⟩
  · -- the old buffer of the second history is the answer over the first one
    have hself : fill s₂.readBlockBuffer msg = s₂.readBlockBuffer := by
      rw [← hstale₂, hfill₁, fill_fill]
    refine .inl ⟨fill_eq_fill_iff.mp ?_, hset₁, .inr (fill_eq_self_iff.mp hself)⟩
    rw [hself, ← hfill₁, hstale₂]
  · have hself : fill s₁.readBlockBuffer msg = s₁.readBlockBuffer := by
      rw [← hstale₁, hfill₂, fill_fill]
    refine .inl ⟨fill_eq_fill_iff.mp ?_, .inr (fill_eq_self_iff.mp hself), hset₂⟩
    rw [hself, ← hfill₂, hstale₁]
  · exact .inr ⟨hthree₁, hthree₂, hstale₁.symm.trans hstale₂⟩

/-- One more call returns the same block after two histories exactly when the answer covers what they
have left differently, and the call takes it. -/
theorem noLeftover_iff {s₁ s₂ : Socket} (h₁ : Reach step (fun _ _ => True) init s₁)
    (h₂ : Reach step (fun _ _ => True) init s₂) (hr₁ : Rest s₁) (hr₂ : Rest s₂) (msg : Msg) :
    NoLeftover s₁ s₂ msg ↔ Indistinct s₁ s₂ msg :=
  ⟨indistinct_of_noLeftover (idle_of_rest h₁ hr₁) (idle_of_rest h₂ hr₂),
    noLeftover_of_indistinct (idle_of_rest h₁ hr₁) (idle_of_rest h₂ hr₂)⟩

theorem rest_init : Rest init :=
  ⟨fun _ _ hc => (Option.some_ne_none _ hc.symm).elim, rfl, rfl,
    fun _ _ hb => (Option.some_ne_none _ hb.symm).elim⟩

theorem idle_init : Idle init := idle_of_rest .refl rest_init

/-- A block of bytes 255. -/
def onesMsg : Msg := ⟨List.replicate blockSize 255, by rw [List.length_replicate]; decide⟩

/-- After one read that was answered by it. -/
def onesRead : Socket :=
  init.returned 0 0 onesMsg (fill Bytes.zero onesMsg) 1 (fill Bytes.zero onesMsg)

theorem reach_onesRead : Reach step (fun _ _ => True) init onesRead :=
  (reach_returned idle_init rfl (run_taken idle_init rfl 0 0 onesMsg) (by simp)).invariant
    .refl fun _ _ _ hreach _ hstep => hreach.tail trivial hstep

theorem rest_onesRead : Rest onesRead := rest_returned idle_init 0 0 onesMsg _ 1 _

theorem onesRead_buffer (j : Fin 1024) : onesRead.readBlockBuffer j = 255 := by
  have hj : j.val < blockSize := j.isLt
  simp only [onesRead, returned]
  rw [fill_apply, onesMsg, List.length_replicate, if_pos hj, List.getD_eq_getElem?_getD,
    List.getElem?_replicate, if_pos hj]
  rfl

/-- An answer of a full block hides what came before it. -/
theorem noLeftover_zeroMsg : NoLeftover init onesRead zeroMsg := by
  refine (noLeftover_iff .refl reach_onesRead rest_init rest_onesRead zeroMsg).mpr
    (.inl ⟨?_, .inl rfl, .inl rfl⟩)
  intro j hj
  have hlt := j.isLt
  rw [zeroMsg, List.length_replicate, blockSize] at hj
  omega

/-- An empty answer returns the block of the answer before it, and the zeros of the first buffer when
there was none. -/
theorem emptyMsg_leaves_ones :
    Reach step (fun _ _ => True) init onesRead ∧ Rest init ∧ Rest onesRead ∧
    ¬ NoLeftover init onesRead emptyMsg := by
  refine ⟨reach_onesRead, rest_init, rest_onesRead, ?_⟩
  intro h
  have hidle : Idle onesRead := idle_of_rest reach_onesRead rest_onesRead
  have heq := h _ _ (readAfter_fill idle_init (by decide) emptyMsg)
    (readAfter_fill hidle (by decide) emptyMsg)
  have hbyte := fill_eq_fill_iff.mp heq ⟨0, by decide⟩ (Nat.zero_le _)
  rw [onesRead_buffer] at hbyte
  exact absurd hbyte (by decide)

/-- With `cb_sem` at 1, as `sjfs_init` left it, the messages that hide every history are those of at
least a block. -/
theorem hides_histories_iff (msg : Msg) :
    (∀ s₁ s₂, Reach step (fun _ _ => True) init s₁ → Reach step (fun _ _ => True) init s₂ →
      Rest s₁ → Rest s₂ → s₁.cbSem.count = 1 → s₂.cbSem.count = 1 → NoLeftover s₁ s₂ msg) ↔
    blockSize ≤ msg.data.length := by
  constructor
  · intro h
    by_contra hshort
    have hsame := h init onesRead .refl reach_onesRead rest_init rest_onesRead rfl rfl
    have hidle : Idle onesRead := idle_of_rest reach_onesRead rest_onesRead
    rcases indistinct_of_noLeftover idle_init hidle hsame with ⟨hagree, _⟩ | ⟨hmany, _⟩
    · have hbyte := hagree ⟨msg.data.length, Nat.lt_of_not_le hshort⟩ (Nat.le_refl _)
      rw [onesRead_buffer] at hbyte
      exact absurd hbyte (by simp [init, Bytes.zero])
    · exact absurd hmany (by decide)
  · intro hlong s₁ s₂ h₁ h₂ hr₁ hr₂ hone₁ hone₂
    refine noLeftover_of_indistinct (idle_of_rest h₁ hr₁) (idle_of_rest h₂ hr₂)
      (.inl ⟨?_, .inl hone₁, .inl hone₂⟩)
    intro j hj
    have hlt : j.val < blockSize := j.isLt
    omega

end Socket

end Sjfs
