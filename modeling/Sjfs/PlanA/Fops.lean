import Sjfs.Socket
import Mathlib.Algebra.Group.Int.Defs
import Mathlib.Algebra.GroupWithZero.Nat

/-!
# Plan a: requests

`sjfs_fops_read` and `sjfs_fops_write` of `backup_plans/a/sjfs.c` and the packets of
`backup_plans/a/ipc.h`: what one call puts into its message, what it returns, and what it does to
the file position. `Sjfs.PlanA.Channel` has the calls as they run side by side.

The position is a 64-bit number and the field for it has 32 bits; the length of a message has 16
bits; a write sends only when `copy_from_user` copied nothing, because its result, the number of
bytes that were not copied, is compared with `count`; and `*ppos` is never set.

Results:
1. `readPacket_packet`, `pos_payload`: what the other side reads.
2. `survives_iff`: exactly which requests survive the trip.
3. `sequential_iff`: exactly which sequences of calls on a file move through it.
-/

namespace Sjfs

open Lib

namespace PlanA

/-! ## Packets -/

inductive RequestField
  | opcode
  | inode
  | pos
  | count
deriving DecidableEq, Repr

/-- `sjfs_request_packet_t`. A `long long` is laid out like an `unsigned long`. -/
def requestPacketT : CStruct RequestField :=
  [(.opcode, .uchar), (.inode, .ulong), (.pos, .uint), (.count, .ulong)]

/-- `sizeof(sjfs_request_packet_t)`. -/
def sizeofRequest : Nat := structSize requestPacketT

theorem sizeofRequest_eq : sizeofRequest = 32 := by decide

/-- `SJFS_OPCODE_WRITE`. -/
def opcodeWrite : UInt8 := 1

/-- The value of a `long long` with these 64 bits. -/
def asLongLong (n : Nat) : Int := if n < 2 ^ 63 then n else n - 2 ^ 64

theorem asLongLong_bounds {n : Nat} (h : n < 2 ^ 64) :
    -2 ^ 63 ≤ asLongLong n ∧ asLongLong n < 2 ^ 63 := by
  unfold asLongLong
  split <;> omega

/-- A `sjfs_request_packet_t` as it is read. -/
structure RequestPacket where
  opcode : Nat
  inode : Nat
  pos : Nat
  count : Int
deriving DecidableEq, Repr

/-- The packet at the start of `mem`. -/
def readPacket (mem : Nat → UInt8) : RequestPacket where
  opcode := loadField requestPacketT mem .opcode
  inode := loadField requestPacketT mem .inode
  pos := loadField requestPacketT mem .pos
  count := asLongLong (loadField requestPacketT mem .count)

/-! ## Calls -/

/-- What the VFS passes to `sjfs_fops_read` and `sjfs_fops_write`: `f->f_inode->i_ino`, `*ppos` and
`count`. `stack` is what the padding of the local variable `packet` happens to hold. -/
structure Io where
  inode : UInt64
  pos : Nat
  count : Nat
  stack : Nat → UInt8

/-- What the fields of the local variable `packet` are initialised with. -/
def packetValues (opcode : UInt8) (io : Io) : RequestField → Nat
  | .opcode => opcode.toNat
  | .inode => io.inode.toNat
  | .pos => io.pos
  | .count => io.count

/-- The local variable `packet`. -/
def packet (opcode : UInt8) (io : Io) : Nat → UInt8 :=
  storeStruct requestPacketT (packetValues opcode io) io.stack

/-- The message of `sjfs_fops_read`. -/
def readMsg (seq : UInt32) (io : Io) : CnMsg :=
  let len := sizeofRequest % 2 ^ 16
  ⟨seq, len, (List.range len).map (packet opcodeRead io)⟩

/-- The buffer `data` of `sjfs_fops_write` behind `copy_from_user`, which has copied all bytes of
`source` but the last `res`. -/
def writeData (io : Io) (source : Nat → UInt8) (res : Nat) : Nat → UInt8 := fun i =>
  if i < sizeofRequest then packet opcodeWrite io i
  else if i < sizeofRequest + (io.count - res) then source (i - sizeofRequest)
  else 0

/-- The message of `sjfs_fops_write`. -/
def writeMsg (seq : UInt32) (io : Io) (source : Nat → UInt8) (res : Nat) : CnMsg :=
  let len := (sizeofRequest + io.count) % 2 ^ 16
  ⟨seq, len, (List.range len).map (writeData io source res)⟩

/-- What a call returns, where it leaves `*ppos` and `cn_sjfs_counter`, and the message it sent. -/
structure Outcome where
  ret : Nat
  ppos : Nat
  counter : UInt32
  sent : Option CnMsg

/-- `sjfs_fops_read`; `m` says that its `kzalloc` succeeded. -/
def fopsRead (m : Bool) (io : Io) (counter : UInt32) : Outcome where
  ret := io.count
  ppos := io.pos
  counter := counter + 1
  sent := if m then some (readMsg counter io) else none

/-- `sjfs_fops_write`; `m` and `data` say that its two `kzalloc` succeeded, and `res` is the result of
`copy_from_user`, the number of bytes it could not copy. -/
def fopsWrite (m data : Bool) (io : Io) (source : Nat → UInt8) (res : Nat) (counter : UInt32) :
    Outcome where
  ret := io.count
  ppos := io.pos
  counter := counter + 1
  sent := if m && data then
      if res = io.count then some (writeMsg counter io source res) else none
    else none

/-- The payload of a received message; the rest of the receive buffer is zero. -/
def payload (m : CnMsg) : Nat → UInt8 := fun i => m.data.getD i 0

/-! ## What the other side reads -/

theorem mem_requestPacketT (f : RequestField) : f ∈ requestPacketT.map Prod.fst := by
  cases f <;> decide

/-- The position is cut to 32 bits. -/
theorem readPacket_packet (opcode : UInt8) {io : Io} (hcount : io.count < 2 ^ 63) :
    readPacket (packet opcode io) =
      ⟨opcode.toNat, io.inode.toNat, io.pos % 2 ^ 32, io.count⟩ := by
  have hinode : io.inode.toNat < 2 ^ 64 := io.inode.toNat_lt
  have hopcode : opcode.toNat < 2 ^ 8 := opcode.toNat_lt
  simp only [readPacket, packet, loadField_storeStruct _ (mem_requestPacketT _), RequestPacket.mk.injEq]
  refine ⟨Nat.mod_eq_of_lt hopcode, Nat.mod_eq_of_lt hinode, rfl, ?_⟩
  have hfits : io.count % 256 ^ fieldSize .count requestPacketT = io.count :=
    Nat.mod_eq_of_lt (Nat.lt_trans hcount (by decide))
  rw [packetValues, hfits, asLongLong, if_pos hcount]

theorem payload_of_map (seq : UInt32) (len : Nat) (mem : Nat → UInt8) (i : Nat) :
    payload ⟨seq, len, (List.range len).map mem⟩ i = if i < len then mem i else 0 := by
  by_cases hi : i < len
  · simp [payload, hi]
  · simp [payload, hi]

/-- What is read of a packet only depends on its bytes. -/
theorem readPacket_congr {mem mem' : Nat → UInt8} (h : ∀ i < sizeofRequest, mem i = mem' i) :
    readPacket mem = readPacket mem' := by
  have hfield : ∀ f, loadField requestPacketT mem f = loadField requestPacketT mem' f := by
    intro f
    refine loadLE_congr _ fun i _ hi => h i (Nat.lt_of_lt_of_le hi ?_)
    cases f <;> decide
  simp only [readPacket, hfield]

theorem readPacket_readMsg (seq : UInt32) (io : Io) :
    readPacket (payload (readMsg seq io)) = readPacket (packet opcodeRead io) := by
  refine readPacket_congr fun i hi => ?_
  have hlen : i < sizeofRequest % 2 ^ 16 := by
    rwa [Nat.mod_eq_of_lt (by decide)]
  rw [readMsg, payload_of_map, if_pos hlen]

theorem readPacket_writeMsg (seq : UInt32) {io : Io} (source : Nat → UInt8) (res : Nat)
    (hlen : sizeofRequest + io.count < 2 ^ 16) :
    readPacket (payload (writeMsg seq io source res)) = readPacket (packet opcodeWrite io) := by
  refine readPacket_congr fun i hi => ?_
  have hlt : i < (sizeofRequest + io.count) % 2 ^ 16 := by
    rw [Nat.mod_eq_of_lt hlen]
    omega
  rw [writeMsg, payload_of_map, if_pos hlt, writeData, if_pos hi]

/-! ## The trip to the helper -/

/-- `MAX_RW_COUNT`: the VFS passes no larger count. -/
def maxRwCount : Nat := 0x7ffff000

/-- A call sent the message of its request: `m->len` is the size of the packet and of `extra` bytes of
data behind it, all of them are in the message, and the packet reads as the arguments of the call. -/
def Survives (sent : Option CnMsg) (opcode : UInt8) (io : Io) (extra : Nat) : Prop :=
  ∃ m, sent = some m ∧ m.len = sizeofRequest + extra ∧ m.data.length = m.len ∧
    readPacket (payload m) = ⟨opcode.toNat, io.inode.toNat, io.pos, io.count⟩

theorem readSurvives_iff {io : Io} (hcount : io.count < 2 ^ 63) (counter : UInt32) :
    Survives (fopsRead true io counter).sent opcodeRead io 0 ↔ io.pos < 2 ^ 32 := by
  have hread := (readPacket_readMsg counter io).trans (readPacket_packet opcodeRead hcount)
  constructor
  · rintro ⟨m, hm, _, _, hpacket⟩
    obtain rfl : readMsg counter io = m := Option.some.inj hm
    rw [hread] at hpacket
    have hpos : io.pos % 2 ^ 32 = io.pos := congrArg RequestPacket.pos hpacket
    exact Nat.mod_eq_iff_lt (by decide) |>.mp hpos
  · intro hpos
    refine ⟨_, rfl, Nat.mod_eq_of_lt (by decide), by simp [readMsg], ?_⟩
    rw [hread, Nat.mod_eq_of_lt hpos]

theorem writeSurvives_iff {io : Io} (hcount : io.count < 2 ^ 63) (source : Nat → UInt8) (res : Nat)
    (counter : UInt32) :
    Survives (fopsWrite true true io source res counter).sent opcodeWrite io io.count ↔
      res = io.count ∧ io.pos < 2 ^ 32 ∧ sizeofRequest + io.count < 2 ^ 16 := by
  by_cases hres : res = io.count
  · have hsent : (fopsWrite true true io source res counter).sent =
        some (writeMsg counter io source res) := by simp [fopsWrite, hres]
    rw [hsent]
    constructor
    · rintro ⟨m, hm, hlen, _, hpacket⟩
      obtain rfl : writeMsg counter io source res = m := Option.some.inj hm
      have hmod : (sizeofRequest + io.count) % 2 ^ 16 = sizeofRequest + io.count := hlen
      have hlt := (Nat.mod_eq_iff_lt (by decide)).mp hmod
      rw [readPacket_writeMsg counter source res hlt, readPacket_packet _ hcount] at hpacket
      have hpos : io.pos % 2 ^ 32 = io.pos := congrArg RequestPacket.pos hpacket
      exact ⟨hres, (Nat.mod_eq_iff_lt (by decide)).mp hpos, hlt⟩
    · rintro ⟨_, hpos, hlt⟩
      refine ⟨_, rfl, Nat.mod_eq_of_lt hlt, by simp [writeMsg], ?_⟩
      rw [readPacket_writeMsg counter source res hlt, readPacket_packet _ hcount,
        Nat.mod_eq_of_lt hpos]
  · have hnone : (fopsWrite true true io source res counter).sent = none := by
      simp [fopsWrite, hres]
    rw [hnone]
    refine iff_of_false ?_ fun h => hres h.1
    rintro ⟨m, hm, _⟩
    cases hm

/-- A read's request survives the trip exactly when its position fits 32 bits. A write's does exactly
when, besides, the message fits 16 bits of length and `copy_from_user` copied nothing of the data:
with any byte copied (and a count that is not 0) the write sends no request. -/
theorem survives_iff (io : Io) (hcount : io.count ≤ maxRwCount) (source : Nat → UInt8) (res : Nat)
    (counter : UInt32) :
    (Survives (fopsRead true io counter).sent opcodeRead io 0 ↔ io.pos < 2 ^ 32) ∧
    (Survives (fopsWrite true true io source res counter).sent opcodeWrite io io.count ↔
      res = io.count ∧ io.pos < 2 ^ 32 ∧ sizeofRequest + io.count < 2 ^ 16) := by
  have hlt : io.count < 2 ^ 63 := Nat.lt_of_le_of_lt hcount (by decide)
  exact ⟨readSurvives_iff hlt counter, writeSurvives_iff hlt source res counter⟩

theorem survives_at_zero :
    Survives (fopsRead true ⟨7, 0, 1, fun _ => 0⟩ 0).sent opcodeRead ⟨7, 0, 1, fun _ => 0⟩ 0 :=
  (survives_iff ⟨7, 0, 1, fun _ => 0⟩ (by decide) (fun _ => 0) 0 0).1.mpr (by decide)

/-- A read from position 2^32 on asks for position 0, and a write of one byte, which is copied, sends
no request. -/
theorem large_position_is_lost :
    ¬ (∀ (io : Io) (counter : UInt32), io.count ≤ maxRwCount → io.pos < 2 ^ 63 →
      Survives (fopsRead true io counter).sent opcodeRead io 0) ∧
    ¬ (∀ (io : Io) (source : Nat → UInt8) (res : Nat) (counter : UInt32), io.count ≤ maxRwCount →
      io.pos < 2 ^ 63 → res ≤ io.count →
      Survives (fopsWrite true true io source res counter).sent opcodeWrite io io.count) := by
  constructor
  · intro h
    have hlt := (readSurvives_iff (by decide) 0).mp (h ⟨7, 2 ^ 32, 1, fun _ => 0⟩ 0 (by decide)
      (by decide))
    exact absurd hlt (by decide)
  · intro h
    obtain ⟨m, hm, _⟩ := h ⟨7, 0, 1, fun _ => 0⟩ (fun _ => 0) 0 0 (by decide) (by decide) (by decide)
    cases hm

/-! ## Sequences of calls -/

/-- A call on an open file, with what the allocator and `copy_from_user` do in it. -/
inductive FileCall
  | read (count : Nat) (m : Bool) (stack : Nat → UInt8)
  | write (count : Nat) (m data : Bool) (source : Nat → UInt8) (res : Nat) (stack : Nat → UInt8)

namespace FileCall

def count : FileCall → Nat
  | read count _ _ => count
  | write count _ _ _ _ _ => count

/-- The call, when the position variable of the file is at `pos`. -/
def run (inode : UInt64) (pos : Nat) (counter : UInt32) : FileCall → Outcome
  | read count m stack => fopsRead m ⟨inode, pos, count, stack⟩ counter
  | write count m data source res stack =>
    fopsWrite m data ⟨inode, pos, count, stack⟩ source res counter

/-- The call sends its request. -/
def sends : FileCall → Bool
  | read _ m _ => m
  | write count m data _ res _ => m && data && (res == count)

/-- How many bytes of the field `pos` are in the message. -/
def posBytes : FileCall → Nat
  | read _ _ _ => 4
  | write count _ _ _ _ _ => min 4 ((sizeofRequest + count) % 2 ^ 16 - 16)

end FileCall

/-- The calls one after the other, each with the position variable as the one before left it. -/
def runCalls (inode : UInt64) : Nat → UInt32 → List FileCall → List Outcome
  | _, _, [] => []
  | pos, counter, c :: cs =>
    let o := c.run inode pos counter
    o :: runCalls inode o.ppos o.counter cs

/-- Every request carries the initial position plus what the calls before it returned. -/
def Sequential (init : Nat) (outs : List Outcome) : Prop :=
  ∀ k o m, outs[k]? = some o → o.sent = some m →
    (readPacket (payload m)).pos = init + ((outs.take k).map Outcome.ret).sum

namespace FileCall

theorem run_ret (c : FileCall) (inode : UInt64) (pos : Nat) (counter : UInt32) :
    (c.run inode pos counter).ret = c.count := by
  cases c <;> rfl

theorem run_ppos (c : FileCall) (inode : UInt64) (pos : Nat) (counter : UInt32) :
    (c.run inode pos counter).ppos = pos := by
  cases c <;> rfl

end FileCall

/-- The position in a message that starts with the packet `io`, as far as it is in the message. -/
theorem pos_payload (opcode : UInt8) (io : Io) (seq : UInt32) (len : Nat) {mem : Nat → UInt8}
    (hmem : ∀ i < sizeofRequest, mem i = packet opcode io i) :
    (readPacket (payload ⟨seq, len, (List.range len).map mem⟩)).pos =
      io.pos % 256 ^ min 4 (len - 16) := by
  have hoffset : offsetOf requestPacketT .pos = 16 := by decide
  have hsize : fieldSize .pos requestPacketT = 4 := by decide
  have hfield : loadLE (packet opcode io) (offsetOf requestPacketT .pos) (min 4 (len - 16)) =
      io.pos % 256 ^ min 4 (len - 16) := by
    have hle : min 4 (len - 16) ≤ fieldSize .pos requestPacketT := hsize ▸ Nat.min_le_left ..
    rw [packet, storeStruct, offsetOf,
      loadLE_storeFrom (packetValues opcode io) (mem_requestPacketT .pos) hle, packetValues]
  show loadLE (payload _) (offsetOf requestPacketT .pos) (fieldSize .pos requestPacketT) = _
  rw [funext (payload_of_map seq len mem), loadLE_cut, hsize, hoffset, ← hfield, hoffset]
  refine loadLE_congr _ fun i _ hi => hmem i ?_
  rw [sizeofRequest_eq]
  omega

namespace FileCall

/-- A call that sends carries the position variable, as far as the message has room for it. -/
theorem sent_iff (c : FileCall) (inode : UInt64) (pos : Nat) (counter : UInt32) :
    (c.sends = true ↔ ∃ m, (c.run inode pos counter).sent = some m) ∧
    ∀ m, (c.run inode pos counter).sent = some m →
      (readPacket (payload m)).pos = pos % 256 ^ c.posBytes := by
  cases c with
  | read count m stack =>
    cases m with
    | false => simp [sends, run, fopsRead]
    | true =>
      refine ⟨by simp [sends, run, fopsRead], ?_⟩
      rintro _ ⟨⟩
      exact pos_payload opcodeRead ⟨inode, pos, count, stack⟩ counter _ fun _ _ => rfl
  | write count m data source res stack =>
    refine ⟨by simp [sends, run, fopsWrite, and_assoc], ?_⟩
    intro msg hmsg
    simp only [run, fopsWrite, Option.ite_none_right_eq_some] at hmsg
    obtain ⟨_, _, ⟨⟩⟩ := hmsg
    exact pos_payload opcodeWrite ⟨inode, pos, count, stack⟩ counter _ fun i hi => if_pos hi

end FileCall

/-- No call moves the position variable. -/
theorem runCalls_getElem? (inode : UInt64) (pos : Nat) (counter : UInt32) (calls : List FileCall)
    (k : Nat) : ∃ counter', (runCalls inode pos counter calls)[k]? =
      calls[k]?.map fun c => c.run inode pos counter' := by
  induction calls generalizing counter k with
  | nil => exact ⟨0, rfl⟩
  | cons c cs ih =>
    cases k with
    | zero => exact ⟨counter, rfl⟩
    | succ k =>
      obtain ⟨counter', h⟩ := ih (c.run inode pos counter).counter k
      refine ⟨counter', ?_⟩
      rw [runCalls, List.getElem?_cons_succ, List.getElem?_cons_succ, c.run_ppos, h]

/-- The values returned are the counts. -/
theorem runCalls_map_ret (inode : UInt64) (pos : Nat) (counter : UInt32) (calls : List FileCall) :
    (runCalls inode pos counter calls).map Outcome.ret = calls.map FileCall.count := by
  induction calls generalizing pos counter with
  | nil => rfl
  | cons c cs ih => rw [runCalls, List.map_cons, List.map_cons, c.run_ret, ih]

theorem mod_eq_add_iff {pos m n : Nat} (hm : 0 < m) :
    pos % m = pos + n ↔ n = 0 ∧ pos < m := by
  constructor
  · intro h
    have hle := Nat.mod_le pos m
    have hlt := Nat.mod_lt pos hm
    omega
  · rintro ⟨rfl, hlt⟩
    exact Nat.mod_eq_of_lt hlt

/-- Calls on an open file move through it exactly when no call that returned more than 0 comes before
one that sends a request, and the position fits the bytes that the requests have for it. -/
theorem sequential_iff (inode : UInt64) (init : Nat) (counter : UInt32) (calls : List FileCall) :
    Sequential init (runCalls inode init counter calls) ↔
      ∀ k c, calls[k]? = some c → c.sends = true →
        (∀ d ∈ calls.take k, d.count = 0) ∧ init < 256 ^ c.posBytes := by
  have hsum : ∀ k, (((runCalls inode init counter calls).take k).map Outcome.ret).sum =
      ((calls.take k).map FileCall.count).sum := by
    intro k
    rw [List.map_take, runCalls_map_ret, List.map_take]
  have hiff : ∀ k (c : FileCall), (init % 256 ^ c.posBytes = init + ((calls.take k).map FileCall.count).sum ↔
      (∀ d ∈ calls.take k, d.count = 0) ∧ init < 256 ^ c.posBytes) := by
    intro k c
    rw [mod_eq_add_iff (Nat.pow_pos (by decide)), List.sum_eq_zero_iff_forall_eq_nat,
      List.forall_mem_map]
  constructor
  · intro hseq k c hc hsends
    obtain ⟨counter', hout⟩ := runCalls_getElem? inode init counter calls k
    rw [hc] at hout
    obtain ⟨m, hm⟩ := (c.sent_iff inode init counter').1.mp hsends
    have hpos := (c.sent_iff inode init counter').2 m hm
    rw [← hiff, ← hpos, ← hsum]
    exact hseq k _ m hout hm
  · intro hall k o m ho hm
    obtain ⟨counter', hout⟩ := runCalls_getElem? inode init counter calls k
    rw [ho] at hout
    obtain ⟨c, hc, rfl⟩ := Option.map_eq_some_iff.mp hout.symm
    rw [(c.sent_iff inode init counter').2 m hm, hsum, hiff]
    exact hall k c hc ((c.sent_iff inode init counter').1.mpr ⟨m, hm⟩)

/-- Two reads of ten bytes from the start of a file ask for the same piece. -/
theorem second_read_asks_again :
    ¬ ∀ (inode : UInt64) (init : Nat) (counter : UInt32) (calls : List FileCall),
      Sequential init (runCalls inode init counter calls) := by
  intro h
  have hpos := h 7 0 0 [.read 10 true fun _ => 0, .read 10 true fun _ => 0] 1 _ _ rfl rfl
  exact absurd hpos (by decide)

end PlanA

end Sjfs
