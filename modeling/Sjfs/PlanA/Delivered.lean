import Sjfs.PlanA.Channel
import Sjfs.PlanA.Helper

/-!
# Plan a: what a call delivers

`sjfs_fops_write` and `sjfs_fops_read` return `count`, whatever happened. This module asks when that
number is the truth: for a write, that the bytes were sent, and for a read, that they are bytes of
the reply.

For the read the two functions that share `sjfs_read_buffer` are modelled once more, now with the
objects they copy from and to (`Sjfs.Lib.CMemory`). The reply is an object of `msg->len` bytes, and
its memory goes on behind them. `packet->count` is a signed number in the first 8 of its bytes, and
what it says is checked against nothing: not by the callback against `msg->len`, and not by the read
against `count`. `filled_bytes` connects this with the machine of `Sjfs.PlanA.Channel`, where a
reply is a count and the bytes behind it.

Left out: a `copy_to_user` that fails at the user's side.

Results:
1. `claimsOnlySent_iff`: exactly which writes sent what they return.
2. `deliversReply_iff`: exactly which reads get the bytes of the reply and nothing else.
-/

namespace Sjfs

open Lib

namespace PlanA

theorem asLongLong_of_le {n : Nat} (h : n ≤ maxRwCount) : asLongLong n = n :=
  if_pos (Nat.lt_of_le_of_lt h (by decide))

/-! ## Writes -/

/-- A WRITE message whose data start with the first `n` bytes of `source`. -/
structure WriteOf (msg : CnMsg) (source : Nat → UInt8) (n : Nat) : Prop where
  opcode : (readPacket (payload msg)).opcode = opcodeWrite.toNat
  data : ∀ j < n, msg.data[sizeofRequest + j]? = some (source j)

/-- What a write that returns `o` owes to its caller, whose buffer is `source`: the bytes it returns
were sent, and without a message the result is an error. -/
structure ClaimsOnlySent (o : Outcome) (source : Nat → UInt8) : Prop where
  sent : 0 < asLongLong o.ret →
    ∃ msg, o.sent = some msg ∧ WriteOf msg source (asLongLong o.ret).toNat
  failed : o.sent = none → asLongLong o.ret < 0

/-- The byte behind `copy_from_user`, when it has copied nothing. -/
theorem writeData_of_nothing (io : Io) (source : Nat → UInt8) (j : Nat) :
    writeData io source io.count (sizeofRequest + j) = 0 := by
  unfold writeData
  rw [if_neg (by omega), if_neg (by omega)]

theorem writeMsg_data (seq : UInt32) (io : Io) (source : Nat → UInt8) (j : Nat) :
    (writeMsg seq io source io.count).data[sizeofRequest + j]? =
      if sizeofRequest + j < (sizeofRequest + io.count) % 2 ^ 16 then some 0 else none := by
  simp only [writeMsg, List.getElem?_map]
  by_cases hj : sizeofRequest + j < (sizeofRequest + io.count) % 2 ^ 16
  · rw [if_pos hj, List.getElem?_range hj, Option.map_some, writeData_of_nothing]
  · rw [if_neg hj, List.getElem?_eq_none (by simpa using hj), Option.map_none]

/-- A message that is sent carries zeros, as far as its length goes. -/
theorem writeOf_iff (seq : UInt32) {io : Io} (hpos : 0 < io.count) (hcount : io.count ≤ maxRwCount)
    (source : Nat → UInt8) :
    WriteOf (writeMsg seq io source io.count) source io.count ↔
      sizeofRequest + io.count < 2 ^ 16 ∧ ∀ j < io.count, source j = 0 := by
  constructor
  · intro h
    have hbyte : ∀ j < io.count, sizeofRequest + j < (sizeofRequest + io.count) % 2 ^ 16 ∧
        source j = 0 := by
      intro j hj
      have hdata := h.data j hj
      rw [writeMsg_data, Option.ite_none_right_eq_some] at hdata
      exact ⟨hdata.1, (Option.some.inj hdata.2).symm⟩
    refine ⟨?_, fun j hj => (hbyte j hj).2⟩
    -- the last byte is in the message, so the length was not cut
    have hlast := (hbyte (io.count - 1) (by omega)).1
    have hmod := Nat.mod_lt (sizeofRequest + io.count) (show 0 < 2 ^ 16 by decide)
    omega
  · rintro ⟨hlen, hzero⟩
    constructor
    · rw [readPacket_writeMsg seq source io.count hlen,
        readPacket_packet opcodeWrite (Nat.lt_of_le_of_lt hcount (by decide))]
    · intro j hj
      rw [writeMsg_data, Nat.mod_eq_of_lt hlen, if_pos (by omega), hzero j hj]

/-- A write returns only what it sent exactly when both allocations succeed, `copy_from_user` copies
nothing, the message fits 16 bits of length, and the bytes to be written are zeros, as the message
then holds nothing else. -/
theorem claimsOnlySent_iff (m data : Bool) (io : Io) (hpos : 0 < io.count)
    (hcount : io.count ≤ maxRwCount) (source : Nat → UInt8) (res : Nat) (counter : UInt32) :
    ClaimsOnlySent (fopsWrite m data io source res counter) source ↔
      m = true ∧ data = true ∧ res = io.count ∧ sizeofRequest + io.count < 2 ^ 16 ∧
        ∀ j < io.count, source j = 0 := by
  have hret : asLongLong (fopsWrite m data io source res counter).ret = io.count :=
    asLongLong_of_le hcount
  constructor
  · rintro ⟨hsent, _⟩
    rw [hret, Int.toNat_natCast] at hsent
    obtain ⟨msg, hmsg, hwrite⟩ := hsent (by omega)
    simp only [fopsWrite, Option.ite_none_right_eq_some, Bool.and_eq_true] at hmsg
    obtain ⟨⟨hm, hdata⟩, rfl, ⟨⟩⟩ := hmsg
    exact ⟨hm, hdata, rfl, (writeOf_iff counter hpos hcount source).mp hwrite⟩
  · rintro ⟨rfl, rfl, rfl, hzero⟩
    have hmsg : (fopsWrite true true io source io.count counter).sent =
        some (writeMsg counter io source io.count) := by simp [fopsWrite]
    refine ⟨fun _ => ⟨_, hmsg, ?_⟩, fun hnone => ?_⟩
    · rw [hret, Int.toNat_natCast]
      exact (writeOf_iff counter hpos hcount source).mpr hzero
    · rw [hmsg] at hnone
      cases hnone

theorem claimsOnlySent_zero :
    ClaimsOnlySent (fopsWrite true true ⟨7, 0, 1, fun _ => 0⟩ (fun _ => 0) 1 0) fun _ => 0 :=
  (claimsOnlySent_iff true true ⟨7, 0, 1, fun _ => 0⟩ (by decide) (by decide) (fun _ => 0) 1 0).mpr
    ⟨rfl, rfl, rfl, by decide, fun _ _ => rfl⟩

/-- A write of one byte, which is copied from the user, returns 1 and sends nothing. -/
theorem copied_write_sends_nothing :
    ¬ ∀ (m data : Bool) (io : Io) (source : Nat → UInt8) (res : Nat) (counter : UInt32),
      0 < io.count → io.count ≤ maxRwCount → res ≤ io.count →
      ClaimsOnlySent (fopsWrite m data io source res counter) source := by
  intro h
  have hfailed := (h true true ⟨7, 0, 1, fun _ => 0⟩ (fun _ => 65) 0 0 (by decide) (by decide)
    (by decide)).failed rfl
  exact absurd hfailed (by decide)

/-! ## Reads -/

/-- What `cn_sjfs_callback` and a waiting `sjfs_fops_read` share: `cb_sem` and `sjfs_read_buffer`.
`user` is what the caller of the read has got. -/
structure Reader where
  cbSem : Semaphore Unit
  readBuffer : Option Buffer
  user : List UInt8

/-- `up(&cb_sem)`. -/
def upCbSem : K Reader Unit := change fun w => { w with cbSem := w.cbSem.up.1 }

/-- `packet->count`, where `data` is `msg->data`: an object of `msg->len` bytes. -/
def replyCount (data : Buffer) : Int := asLongLong (loadLE data.mem 0 sizeofResponse)

/-- The object that `cn_sjfs_callback` allocates for the message with these `data`, with the copy
made into it. The allocation and the copy take the count as a `size_t`. -/
def copyReply (data : Buffer) : K Reader (Option Buffer) := do
  let size := sizeT 0 (replyCount data)
  match ← kzalloc size with
  | none => return none
  | some buffer => return some (← memcpy (some buffer) 0 (some data) sizeofResponse size)

/-- `cn_sjfs_callback`. -/
def cnSjfsCallback (data : Buffer) : K Reader Unit := do
  let trylock := (← get).world.cbSem.downTrylock
  change fun w => { w with cbSem := trylock.1 }
  if trylock.2 then upCbSem
  else
    let buffer ← copyReply data
    change fun w => { w with readBuffer := buffer }
    upCbSem

/-- `copy_to_user(to, from, n)`. From the null pointer nothing is copied. -/
def copyToUser (src : Option Buffer) (n : Nat) : K Reader Unit :=
  match src with
  | none => return
  | some b => do
    touch b 0 n
    change fun w => { w with user := (List.range n).map b.mem }

/-- `sjfs_fops_read` from its second `down(&cb_sem)` on, which the callback has made possible. -/
def fopsReadEnd (count : Nat) : K Reader Int := do
  change fun w => { w with cbSem := (w.cbSem.down ()).1 }
  upCbSem
  copyToUser (← get).world.readBuffer count
  return asLongLong count

/-- A read has sent its request and holds `cb_sem`. What `sjfs_read_buffer` points to is left from
an earlier reply. -/
def expecting (mem : Memory) (readBuffer : Option Buffer) : Machine Reader :=
  ⟨mem, ⟨0, []⟩, readBuffer, []⟩

/-- The copies that took a byte from outside their object. -/
def outside (mem : Memory) : List Overrun := mem.overruns.filter (0 < ·.len)

/-- The number of bytes that the reply has for a read of `count` bytes. -/
def available (count : Nat) (data : Buffer) : Int :=
  min count (min (replyCount data) (data.size - sizeofResponse : Nat))

/-- The reply `data` reaches the caller of the read that waits for it: the callback copies no byte
from outside it, and the caller gets the bytes it has and their number, or an error when there is no
buffer. -/
def DeliversReply (s : Machine Reader) (data : Buffer) (count : Nat) : Prop :=
  ∃ t ret u, (cnSjfsCallback data).run s = .ok ((), t) ∧ outside t.mem = outside s.mem ∧
    (fopsReadEnd count).run t = .ok (ret, u) ∧
    match t.world.readBuffer with
    | none => ret < 0
    | some _ => ∃ k : Nat, k = available count data ∧ ret = k ∧
        u.world.user = (List.range k).map fun i => data.mem (sizeofResponse + i)

/-- The object that the callback fills. Its bytes behind the copy are whatever the memory held. -/
def filled (mem : Memory) (data : Buffer) : Buffer where
  id := mem.allocs
  size := sizeT 0 (replyCount data)
  mem := fun i => if i < sizeT 0 (replyCount data) then data.mem (sizeofResponse + i)
    else mem.junk mem.allocs i

/-- The copy fills the cleared object. -/
theorem store_eq_filled (mem : Memory) (data : Buffer) :
    Buffer.store ⟨mem.allocs, sizeT 0 (replyCount data),
      fun i => if i < sizeT 0 (replyCount data) then 0 else mem.junk mem.allocs i⟩
      0 data.mem sizeofResponse (sizeT 0 (replyCount data)) = filled mem data := by
  simp only [Buffer.store, filled, Buffer.mk.injEq, true_and]
  funext i
  by_cases hi : i < sizeT 0 (replyCount data)
  · simp [hi]
  · simp [hi]

theorem run_copyReply_of_fails {s : Machine Reader} (h : s.mem.fails s.mem.allocs = true)
    (data : Buffer) : (copyReply data).run s = .ok (none, s.tried) :=
  run_bind (run_kzalloc_of_fails h _)

theorem run_copyReply_of_ok {s : Machine Reader} (h : s.mem.fails s.mem.allocs = false)
    (data : Buffer) : (copyReply data).run s =
      .ok (some (filled s.mem data),
        s.grown.noted data sizeofResponse (sizeT 0 (replyCount data))) := by
  unfold copyReply
  rw [run_bind (run_kzalloc_of_ok h _), run_bind (run_memcpy ..), store_eq_filled,
    Machine.noted_of_le (Nat.le_of_eq (Nat.zero_add _))]
  rfl

/-- The callback leaves the object that its allocation came back with. -/
theorem run_cnSjfsCallback {mem : Memory} {readBuffer buffer : Option Buffer} {data : Buffer}
    {t : Machine Reader}
    (h : (copyReply data).run (expecting mem readBuffer) = .ok (buffer, t)) :
    ∃ u, (cnSjfsCallback data).run (expecting mem readBuffer) = .ok ((), u) ∧ u.mem = t.mem ∧
      u.world.readBuffer = buffer := by
  unfold cnSjfsCallback
  rw [run_bind run_get, run_bind (run_change ..)]
  exact ⟨_, run_bind h, rfl, rfl⟩

theorem filled_mem {mem : Memory} {data : Buffer} {i : Nat} (h : i < sizeT 0 (replyCount data)) :
    (filled mem data).mem i = data.mem (sizeofResponse + i) := by
  simp only [filled, if_pos h]

/-- The message as the machine of `Sjfs.PlanA.Channel` has it. -/
def responseOf (data : Buffer) : Response where
  count := sizeT 0 (replyCount data)
  data := fun i => data.mem (sizeofResponse + i)

/-- The bytes in the buffer are those that the machine has there. -/
theorem filled_bytes (mem : Memory) (data : Buffer) :
    (List.range (responseOf data).count).map (filled mem data).mem = (responseOf data).bytes := by
  simp only [Response.bytes, responseOf]
  refine List.map_congr_left fun i hi => ?_
  rw [filled_mem (List.mem_range.mp hi)]

theorem run_copyToUser (b : Buffer) (n : Nat) (s : Machine Reader) :
    (copyToUser (some b) n).run s = .ok ((), { s.noted b 0 n with
      world := { (s.noted b 0 n).world with user := (List.range n).map b.mem } }) :=
  run_bind (run_touch ..)

/-- The `down` and the `up` are over, and what remains of the read is the copy. -/
theorem run_fopsReadEnd_eq (count : Nat) (t : Machine Reader) :
    (fopsReadEnd count).run t =
      (copyToUser t.world.readBuffer count >>= fun _ => pure (asLongLong count) : K Reader Int).run
        { t with world := { t.world with cbSem := (t.world.cbSem.down ()).1.up.1 } } := rfl

theorem run_fopsReadEnd_null {t : Machine Reader} (hnull : t.world.readBuffer = none)
    (count : Nat) :
    ∃ u, (fopsReadEnd count).run t = .ok (asLongLong count, u) := by
  rw [run_fopsReadEnd_eq, hnull]
  exact ⟨_, rfl⟩

theorem run_fopsReadEnd_buffer {t : Machine Reader} {b : Buffer}
    (hbuffer : t.world.readBuffer = some b) (count : Nat) :
    ∃ u, (fopsReadEnd count).run t = .ok (asLongLong count, u) ∧
      u.world.user = (List.range count).map b.mem := by
  rw [run_fopsReadEnd_eq, hbuffer]
  exact ⟨_, run_bind (run_copyToUser ..), rfl⟩

theorem replyCount_bounds (data : Buffer) :
    -2 ^ 63 ≤ replyCount data ∧ replyCount data < 2 ^ 63 :=
  asLongLong_bounds (loadLE_lt data.mem 0 sizeofResponse)

theorem sizeT_replyCount {data : Buffer} (h : 0 ≤ replyCount data) :
    (sizeT 0 (replyCount data) : Int) = replyCount data := by
  have hbounds := replyCount_bounds data
  unfold sizeT
  omega

/-- The copy of the callback takes bytes from outside exactly when it takes some, and leaves `data`.
-/
theorem outside_noted (s : Machine Reader) (data : Buffer) (offset len : Nat) :
    outside (s.noted data offset len).mem = outside s.mem ↔ len = 0 ∨ offset + len ≤ data.size := by
  by_cases hin : offset + len ≤ data.size
  · rw [Machine.noted_of_le hin]
    simp [hin]
  · rw [Machine.noted_of_lt (by omega)]
    simp only [outside, List.filter_cons]
    by_cases hlen : len = 0
    · simp [hlen]
    · simp [hlen, hin, Nat.pos_of_ne_zero hlen]

theorem outside_grown (s : Machine Reader) : outside s.grown.mem = outside s.mem := rfl

/-- The callback without memory. -/
theorem run_cnSjfsCallback_of_fails {mem : Memory} (h : mem.fails mem.allocs = true)
    (readBuffer : Option Buffer) (data : Buffer) :
    ∃ t, (cnSjfsCallback data).run (expecting mem readBuffer) = .ok ((), t) ∧
      t.world.readBuffer = none := by
  obtain ⟨t, ht, _, hbuffer⟩ := run_cnSjfsCallback (run_copyReply_of_fails h data)
  exact ⟨t, ht, hbuffer⟩

/-- The callback with memory. -/
theorem run_cnSjfsCallback_of_ok {mem : Memory} (h : mem.fails mem.allocs = false)
    (readBuffer : Option Buffer) (data : Buffer) :
    ∃ t, (cnSjfsCallback data).run (expecting mem readBuffer) = .ok ((), t) ∧
      t.world.readBuffer = some (filled mem data) ∧
      (outside t.mem = outside (expecting mem readBuffer).mem ↔ sizeT 0 (replyCount data) = 0 ∨
        sizeofResponse + sizeT 0 (replyCount data) ≤ data.size) := by
  obtain ⟨t, ht, hmem, hbuffer⟩ := run_cnSjfsCallback (run_copyReply_of_ok h data)
  refine ⟨t, ht, hbuffer, ?_⟩
  rw [hmem, ← outside_grown (expecting mem readBuffer), outside_noted]

/-- The runs of the callback and of the read behind it decide. -/
theorem deliversReply_of_run {s t u : Machine Reader} {data : Buffer} {count : Nat} {ret : Int}
    (ht : (cnSjfsCallback data).run s = .ok ((), t))
    (hu : (fopsReadEnd count).run t = .ok (ret, u)) :
    DeliversReply s data count ↔ outside t.mem = outside s.mem ∧
      match t.world.readBuffer with
      | none => ret < 0
      | some _ => ∃ k : Nat, k = available count data ∧ ret = k ∧
          u.world.user = (List.range k).map fun i => data.mem (sizeofResponse + i) := by
  constructor
  · rintro ⟨t', ret', u', ht', hout, hu', hmatch⟩
    rw [ht] at ht'
    cases ht'
    rw [hu] at hu'
    cases hu'
    exact ⟨hout, hmatch⟩
  · rintro ⟨hout, hmatch⟩
    exact ⟨t, ret, u, ht, hout, hu, hmatch⟩

/-- A read gets the bytes of the reply and nothing else exactly when the callback has memory for
them, `packet->count` is not larger than the message, and the caller did not ask for more than it.
-/
theorem deliversReply_iff (mem : Memory) (readBuffer : Option Buffer) (data : Buffer) (count : Nat)
    (hcount : count ≤ maxRwCount) :
    DeliversReply (expecting mem readBuffer) data count ↔
      mem.fails mem.allocs = false ∧ count ≤ replyCount data ∧
        replyCount data ≤ (data.size - sizeofResponse : Nat) := by
  have hret : asLongLong count = count := asLongLong_of_le hcount
  cases hfails : mem.fails mem.allocs with
  | true =>
    obtain ⟨t, ht, hnull⟩ := run_cnSjfsCallback_of_fails hfails readBuffer data
    obtain ⟨u, hu⟩ := run_fopsReadEnd_null hnull count
    rw [deliversReply_of_run ht hu, hnull, hret]
    simp
  | false =>
    obtain ⟨t, ht, hbuffer, hout⟩ := run_cnSjfsCallback_of_ok hfails readBuffer data
    obtain ⟨u, hu, huser⟩ := run_fopsReadEnd_buffer hbuffer count
    rw [deliversReply_of_run ht hu, hbuffer, hret, hout]
    simp only [true_and]
    constructor
    · rintro ⟨hin, k, hk, hkc, _⟩
      have hsize := @sizeT_replyCount data
      unfold available at hk
      omega
    · rintro ⟨hle, hlen⟩
      have hsize : sizeT 0 (replyCount data) = replyCount data := sizeT_replyCount (by omega)
      refine ⟨by omega, count, ?_, rfl, ?_⟩
      · unfold available
        omega
      · rw [huser]
        refine List.map_congr_left fun i hi => ?_
        have hlt := List.mem_range.mp hi
        exact filled_mem (by omega)

/-- A reply of `len` bytes whose `packet->count` is `n`, with the byte 65 behind it as far as the
memory goes. -/
def replyOf (len n : Nat) : Buffer := ⟨staticId, len, storeLE (fun _ => 65) 0 sizeofResponse n⟩

theorem deliversReply_one :
    DeliversReply (expecting ⟨0, fun _ => false, fun _ _ => 0, [], []⟩ none) (replyOf 9 1) 1 :=
  (deliversReply_iff ⟨0, fun _ => false, fun _ _ => 0, [], []⟩ none (replyOf 9 1) 1 (by decide)).mpr
    ⟨rfl, by decide, by decide⟩

/-- A reply of one byte that says 100 makes the callback copy 99 bytes from behind the message. -/
theorem long_count_leaves_message :
    ¬ ∀ (mem : Memory) (readBuffer : Option Buffer) (data : Buffer) (count : Nat),
      count ≤ maxRwCount → data.size < 2 ^ 16 →
      DeliversReply (expecting mem readBuffer) data count := by
  intro h
  obtain ⟨t', _, _, ht', hinside, _⟩ := h ⟨0, fun _ => false, fun _ _ => 0, [], []⟩ none
    (replyOf 9 100) 1 (by decide) (by decide)
  obtain ⟨t, ht, _, hout⟩ := @run_cnSjfsCallback_of_ok ⟨0, fun _ => false, fun _ _ => 0, [], []⟩
    rfl none (replyOf 9 100)
  rw [ht'] at ht
  cases ht
  exact absurd (hout.mp hinside) (by decide)

end PlanA

end Sjfs
