import Sjfs.SocketRest

/-!
# The requests of the socket level

What the module sends, in any run: failed allocations, messages nobody asked for and a peer of any
kind included. A send is taken to succeed.

Results:
1. `names_step`: a request keeps the call that sent it.
2. `asked_of_reach`: every message the module sends is the READ request of one call of
   `sjfs_read_block`, with the text of its block number, cut to three digits; no call sends two, and
   `sjfs_write_block` sends none.
-/

namespace Sjfs

open Lib

/-- A read that has filled in its message and not sent it has the text of its block number there; a
write stands at no send. -/
structure Call.Asks (c : Call) : Prop where
  text : ∀ address, c.kind = .read address → c.pc = .downCn ∨ c.pc = .downCb ∨ c.pc = .send →
    ∃ m, c.m = some m ∧ (m.len, m.data) = readPayload address
  write : c.kind = .write → c.pc = .downCn ∨ c.pc = .upCn ∨ c.pc = .done

namespace Socket

/-! ## Requests -/

/-- A call keeps what every move keeps. -/
theorem call_kept {P : Call → Prop} {s t : Socket} {a : Action} (hq : Queues s) (h : Step s a t)
    (hmove : ∀ c c', P c → CallMove s a (some c) c' → P c') {i : Nat} {c : Call}
    (hc : s.calls i = some c) (hP : P c) : ∃ c', t.calls i = some c' ∧ P c' := by
  obtain ⟨c', hc'⟩ := step_some h hc
  refine ⟨c', hc', ?_⟩
  rcases step_move hq h hc' with hold | hnew
  · obtain rfl := Option.some.inj (hold.symm.trans hc)
    exact hP
  · rw [hc] at hnew
    exact hmove c c' hP hnew

theorem CallMove.asks {s : Socket} {a : Action} {o : Option Call} {c' : Call}
    (h : CallMove s a o c') (ho : ∀ c, o = some c → c.Asks) : c'.Asks := by
  cases h with
  | enterRead | enterWrite => constructor <;> simp
  | @sample c address hpc hk =>
    refine ⟨fun address' hk' _ => ⟨_, rfl, ?_⟩, fun hw => ?_⟩
    · have hsame : c.kind = .read address' := hk'
      rw [hk] at hsame
      cases hsame
      rfl
    · simp [Call.advance, hk] at hw
  | @alloc c hpc | @allocFail _ c _ hpc =>
    have hc := ho c rfl
    refine ⟨fun _ _ h => ?_, fun hw => ?_⟩
    · simp [Call.advance, Call.next, hpc] at h
    · have := hc.write hw
      simp [hpc] at this
  | @block c hpc => exact ⟨(ho c rfl).text, (ho c rfl).write⟩
  | @move c hpc =>
    obtain ⟨htext, hwrite⟩ := ho c rfl
    refine ⟨fun address hk h => ?_, fun hw => ?_⟩
    · refine htext address hk ?_
      rcases hpc with hpc | hpc | hpc | hpc | hpc | hpc <;> simp_all [Call.advance, Call.next]
    · have hk : c.kind = .write := hw
      have := hwrite hk
      rcases hpc with hpc | hpc | hpc | hpc | hpc | hpc <;> simp_all [Call.advance, Call.next]
  | @send c hpc | @copy c hpc =>
    have hc := ho c rfl
    refine ⟨fun _ _ h => ?_, fun hw => ?_⟩
    · simp [Call.advance, Call.next, hpc] at h
    · have := hc.write hw
      simp [hpc] at this

/-- The request `r` was sent by a read of the block it names. -/
def Names (s : Socket) (r : Request) : Prop :=
  ∃ c address, s.calls r.caller = some c ∧ c.kind = .read address ∧ c.pc.afterSend = true ∧
    (r.msg.len, r.msg.data) = readPayload address

/-- What the module has sent: for each read at most one request, with the text of its block number,
and nothing for a write. -/
structure Asked (s : Socket) : Prop where
  names : ∀ r ∈ s.sent, Names s r
  once : (s.sent.map Request.caller).Nodup
  wire : ∀ r ∈ s.wire, r ∈ s.sent

theorem names_step {s t : Socket} {a : Action} (hq : Queues s) (h : Step s a t) {r : Request}
    (hr : Names s r) : Names t r := by
  obtain ⟨c, address, hc, hk, hpc, hmsg⟩ := hr
  obtain ⟨c', hc', hk', hpc'⟩ : ∃ c', t.calls r.caller = some c' ∧ c'.kind = .read address ∧
      c'.pc.afterSend = true := by
    refine call_kept (P := fun c => c.kind = .read address ∧ c.pc.afterSend = true) hq h ?_ hc
      ⟨hk, hpc⟩
    rintro c c' ⟨hk, hpc⟩ hmove
    cases hmove with
    | alloc hp | allocFail _ hp | sample hp | send hp | copy hp =>
      simp_all [Call.advance, Call.next, Pc.afterSend]
    | block => exact ⟨hk, hpc⟩
    | move hp =>
      refine ⟨hk, ?_⟩
      rcases hp with hp | hp | hp | hp | hp | hp <;>
        simp_all [Call.advance, Call.next, Pc.afterSend]
  exact ⟨c', address, hc', hk', hpc', hmsg⟩

theorem names_send {s : Socket} {i : Nat} {c : Call} {m : CnMsg} (hasks : c.Asks)
    (hpc : c.pc = .send) (hm : c.m = some m) {t : Socket}
    (ht : t.calls i = some { c.advance with sentAt := some s.delivered }) :
    Names t ⟨i, m⟩ := by
  cases hk : c.kind with
  | write =>
    have := hasks.write hk
    simp [hpc] at this
  | read address =>
    obtain ⟨m', hm', hmsg⟩ := hasks.text address hk (by simp [hpc])
    obtain rfl : m' = m := Option.some.inj (hm'.symm.trans hm)
    exact ⟨_, address, ht, hk, by simp [Call.advance, Call.next, hpc, Pc.afterSend], hmsg⟩

theorem asked_step {s t : Socket} {a : Action} (hq : Queues s)
    (hasks : ∀ j c, s.calls j = some c → c.Asks) (hs : Asked s) (h : Step s a t) : Asked t := by
  have hkept : ∀ r ∈ s.sent, Names t r := fun r hr => names_step hq h (hs.names r hr)
  cases h with
  | @send i c m hc hb hpc hm =>
    have hnot : i ∉ s.sent.map Request.caller := by
      intro hi
      obtain ⟨r, hr, hri⟩ := List.mem_map.mp hi
      obtain ⟨d, _, hd, _, hdpc, _⟩ := hs.names r hr
      rw [hri, hc] at hd
      obtain rfl := Option.some.inj hd
      simp [hpc, Pc.afterSend] at hdpc
    refine ⟨?_, ?_, ?_⟩
    · intro r hr
      rcases List.mem_append.mp hr with hr | hr
      · exact hkept r hr
      · obtain rfl := List.mem_singleton.mp hr
        exact names_send (hasks i c hc) hpc hm (Function.update_self ..)
    · rw [List.map_append]
      exact List.nodup_append'.mpr ⟨hs.once, List.nodup_singleton _, by simpa using hnot⟩
    · intro r hr
      rcases List.mem_append.mp hr with hr | hr
      · exact List.mem_append_left _ (hs.wire r hr)
      · exact List.mem_append_right _ hr
  | answer => exact ⟨hkept, hs.once, fun r hr => hs.wire r (List.mem_of_mem_eraseIdx hr)⟩
  | readBlock | writeBlock | alloc | allocFail | sample | downCn | downCb | count | upCb | copy
  | upCn | deliver | inject | probe | need | fill | finish => exact ⟨hkept, hs.once, hs.wire⟩

/-- In every run, whatever the allocations, the peer and the messages that come. -/
theorem asked_of_reach {s : Socket} (h : Reach step (fun _ _ => True) init s) : Asked s := by
  have hinv : Queues s ∧ (∀ j c, s.calls j = some c → c.Asks) ∧ Asked s := by
    refine h.invariant (I := fun s => Queues s ∧ (∀ j c, s.calls j = some c → c.Asks) ∧ Asked s)
      ⟨queues_init, fun _ _ hc => (nomatch hc), fun _ hr => (nomatch hr), List.nodup_nil,
        fun _ hr => (nomatch hr)⟩ ?_
    rintro s a t ⟨hq, hasks, hs⟩ _ hstep
    have h := step_cases hstep
    exact ⟨queues_step hq h, forall_calls_step hq h hasks fun _ _ ho hmove => hmove.asks ho,
      asked_step hq hasks hs h⟩
  exact hinv.2.2

/-- A read, a read whose allocation failed and a write: the first one has sent its request. -/
theorem asked_threeCalls :
    ∃ s, [.readBlock 0 5, .readBlock 1 7, .writeBlock 2, .kzalloc 0 true, .kzalloc 1 false, .call 0,
        .call 0, .call 2, .call 0, .call 0, .call 1].foldlM step init = some s ∧
      s.sent.map Request.caller = [0] ∧ Asked s := by
  have hrun : ∃ s, [.readBlock 0 5, .readBlock 1 7, .writeBlock 2, .kzalloc 0 true, .kzalloc 1 false,
      .call 0, .call 0, .call 2, .call 0, .call 0, .call 1].foldlM step init = some s ∧
      s.sent.map Request.caller = [0] := ⟨_, rfl, rfl⟩
  obtain ⟨s, hs, hsent⟩ := hrun
  exact ⟨s, hs, hsent, asked_of_reach (.of_foldlM hs)⟩

end Socket

end Sjfs
