import Sjfs.Request
import Sjfs.Lib.Semaphore
import Mathlib.Logic.Function.Basic

/-!
# The socket level

`sjfs_read_block`, `sjfs_write_block` and `cn_callback` of `kernel_space_module/sjfs.c`, as one
machine whose steps are the atomic operations of these functions: each `down`, `up`,
`down_trylock`, send, buffer copy and counter update is one step, and the steps of any number of
calls and callbacks interleave freely. Calls and callbacks are numbered; a number is used once.

The user space peer is part of the machine: it answers a request it was sent (`Action.answer`) and
the answer is delivered to `cn_callback` later (`Action.deliver`). `Action.inject` is a message
nobody asked for. What a peer or an allocator may do in a run is a condition on the actions; the
machine itself allows everything.

`cn_netlink_send` is taken to succeed. `sjfs_read_block` ignores its result, so a request that was not
sent, for want of memory or of a listener, would leave its call waiting as one that is not answered.

Three parts of the state are history only, and no step depends on them: `Socket.answer` (which
message answered which call), `Call.sentAt` (how many messages had been delivered when the call
sent its request) and `Socket.sent` (all requests, in sending order).

Left out: the message id, which is the same constant everywhere, the `printk` lines, and `kfree(m)`.
-/

namespace Sjfs

open Lib

/-! ## Messages -/

/-- A message to `cn_callback`: the `msg->len` bytes of `msg->data`. The length is 16 bits wide. -/
structure Msg where
  data : List UInt8
  len_lt : data.length < 2 ^ 16

/-- The `struct cn_msg` a request is sent in. -/
structure CnMsg where
  seq : UInt32
  len : Nat
  data : List UInt8
deriving DecidableEq, Repr

/-- A request on its way to the peer, or at the peer, with the call that sent it. -/
structure Request where
  caller : Nat
  msg : CnMsg

/-- An answer on its way to `cn_callback`, with the call whose request it answers. -/
structure Reply where
  caller : Nat
  msg : Msg

/-! ## Calls -/

inductive Kind
  | read (address : UInt32)
  | write
deriving DecidableEq, Repr

/-- The operation a call makes next. `downCb` is the first `down(&cb_sem)` of `sjfs_read_block`
and `downReply` the second one. -/
inductive Pc
  | kzalloc
  | sample
  | downCn
  | downCb
  | send
  | count
  | downReply
  | upCb
  | copy
  | upCn
  | done
deriving DecidableEq, Repr

/-- A call of `sjfs_read_block` or `sjfs_write_block`. `m` is the local pointer of that name
(`none` is `NULL`), `block` what the call stored through its argument. A call that is `blocked`
is queued in the `down` it stands at. -/
structure Call where
  kind : Kind
  pc : Pc
  blocked : Bool
  m : Option CnMsg
  block : Option Block
  sentAt : Option Nat

/-- Where a call goes on after the operation it stands at. `kzalloc` goes on in the branch for a
message that was allocated. -/
def Call.next (c : Call) : Pc :=
  match c.pc with
  | .kzalloc => .sample
  | .sample => .downCn
  | .downCn => match c.kind with
    | .read _ => .downCb
    | .write => .upCn
  | .downCb => .send
  | .send => .count
  | .count => .downReply
  | .downReply => .upCb
  | .upCb => .copy
  | .copy => .upCn
  | .upCn => .done
  | .done => .done

/-- The call past the operation it stands at. -/
def Call.advance (c : Call) : Call := { c with pc := c.next, blocked := false }

/-- The call after a `down`, which took its unit or not. -/
def Call.downed (c : Call) (took : Bool) : Call :=
  if took then c.advance else { c with blocked := true }

/-- A call that has taken `cn_sem` and not released it. -/
def Call.holdsCn (c : Call) : Prop :=
  match c.pc with
  | .downCb | .send => True
  | .count | .downReply | .upCb | .copy => c.m ≠ none
  | .upCn => c.kind = .write ∨ c.m ≠ none
  | _ => False

/-! ## Callbacks -/

/-- The operation a run of `cn_callback` makes next: `release` is the `up` after a `down_trylock`
that took the semaphore, `copy` and `up` are the operations of the other branch. -/
inductive CbPc
  | trylock
  | release
  | copy
  | up
  | done
deriving DecidableEq, Repr

structure Callback where
  msg : Msg
  pc : CbPc

/-- Between `down_trylock` and the `up` that ends the run. -/
def Callback.busy (b : Callback) : Prop := b.pc = .release ∨ b.pc = .copy ∨ b.pc = .up

/-! ## The machine -/

structure Socket where
  cnSem : Semaphore Nat
  cbSem : Semaphore Nat
  cnCounter : UInt32
  readBlockBuffer : Block
  calls : Nat → Option Call
  callbacks : Nat → Option Callback
  /-- The number of messages delivered to `cn_callback`; the next one gets this number. -/
  delivered : Nat
  /-- Requests the peer has not answered. -/
  wire : List Request
  /-- Answers that have not been delivered. -/
  inbox : List Reply
  answer : Nat → Option Msg
  sent : List Request

/-- After `sjfs_init`: both semaphores at 1. -/
def Socket.init : Socket where
  cnSem := .init 1
  cbSem := .init 1
  cnCounter := 0
  readBlockBuffer := Bytes.zero
  calls := fun _ => none
  callbacks := fun _ => none
  delivered := 0
  wire := []
  inbox := []
  answer := fun _ => none
  sent := []

inductive Action
  /-- Call `i` enters `sjfs_read_block(address, ..)`. -/
  | readBlock (i : Nat) (address : UInt32)
  /-- Call `i` enters `sjfs_write_block`. -/
  | writeBlock (i : Nat)
  /-- The `kzalloc` of call `i` returns a message, or `NULL`. -/
  | kzalloc (i : Nat) (ok : Bool)
  /-- Call `i` makes its next operation. -/
  | call (i : Nat)
  /-- The peer answers the `k`-th request it has. -/
  | answer (k : Nat) (msg : Msg)
  /-- The `k`-th answer is delivered: a run of `cn_callback` starts. -/
  | deliver (k : Nat)
  /-- A message that answers no request is delivered. -/
  | inject (msg : Msg)
  /-- Callback run `k` makes its next operation. -/
  | callback (k : Nat)

namespace Socket

def setCall (s : Socket) (i : Nat) (c : Call) : Socket :=
  { s with calls := Function.update s.calls i (some c) }

def setCallback (s : Socket) (k : Nat) (b : Callback) : Socket :=
  { s with callbacks := Function.update s.callbacks k (some b) }

/-- `down(&cn_sem)` by call `i`, which is in state `c`. -/
def downCn (s : Socket) (i : Nat) (c : Call) : Socket :=
  let r := s.cnSem.down i
  { s.setCall i (c.downed r.2) with cnSem := r.1 }

/-- `down(&cb_sem)` by call `i`, which is in state `c`. -/
def downCb (s : Socket) (i : Nat) (c : Call) : Socket :=
  let r := s.cbSem.down i
  { s.setCall i (c.downed r.2) with cbSem := r.1 }

/-- `up(&cn_sem)`. -/
def upCn (s : Socket) : Socket :=
  let r := s.cnSem.up
  { s with cnSem := r.1, calls := Semaphore.wake Call.advance s.calls r.2 }

/-- `up(&cb_sem)`. -/
def upCb (s : Socket) : Socket :=
  let r := s.cbSem.up
  { s with cbSem := r.1, calls := Semaphore.wake Call.advance s.calls r.2 }

/-- `memcpy(read_block_buffer, msg->data, msg->len > SJFS_BLOCKSIZE ? SJFS_BLOCKSIZE : msg->len)`:
what the buffer held before stays behind a short message. -/
def fill (buffer : Block) (msg : Msg) : Block :=
  fun i => if i.val < min msg.data.length blockSize then msg.data.getD i.val 0 else buffer i

/-- A run of `cn_callback` starts on `msg`. -/
def start (s : Socket) (msg : Msg) : Socket :=
  { s.setCallback s.delivered ⟨msg, .trylock⟩ with delivered := s.delivered + 1 }

/-- The next operation of call `i`. -/
def stepCall (s : Socket) (i : Nat) : Option Socket :=
  match s.calls i with
  | none => none
  | some c =>
    if c.blocked then none
    else match c.pc, c.kind, c.m with
      | .sample, .read address, _ =>
        let m : CnMsg := ⟨s.cnCounter, (readPayload address).1, (readPayload address).2⟩
        some (s.setCall i { c.advance with m := some m })
      | .downCn, _, _ => some (s.downCn i c)
      | .downCb, _, _ => some (s.downCb i c)
      | .send, _, some m =>
        some { s.setCall i { c.advance with sentAt := some s.delivered } with
          wire := s.wire ++ [⟨i, m⟩], sent := s.sent ++ [⟨i, m⟩] }
      | .count, _, _ => some { s.setCall i c.advance with cnCounter := s.cnCounter + 1 }
      | .downReply, _, _ => some (s.downCb i c)
      | .upCb, _, _ => some (s.setCall i c.advance).upCb
      | .copy, _, _ => some (s.setCall i { c.advance with block := some s.readBlockBuffer })
      | .upCn, _, _ => some (s.setCall i c.advance).upCn
      | _, _, _ => none

/-- The next operation of callback run `k`. -/
def cnCallback (s : Socket) (k : Nat) : Option Socket :=
  match s.callbacks k with
  | none => none
  | some b =>
    match b.pc with
    | .trylock =>
      let r := s.cbSem.downTrylock
      some { s.setCallback k { b with pc := if r.2 then .release else .copy } with cbSem := r.1 }
    | .release => some (s.setCallback k { b with pc := .done }).upCb
    | .copy =>
      some { s.setCallback k { b with pc := .up } with
        readBlockBuffer := fill s.readBlockBuffer b.msg }
    | .up => some (s.setCallback k { b with pc := .done }).upCb
    | .done => none

/-- One step of the machine, `none` when the action is not enabled. -/
def step (s : Socket) : Action → Option Socket
  | .readBlock i address => match s.calls i with
    | none => some (s.setCall i ⟨.read address, .kzalloc, false, none, none, none⟩)
    | some _ => none
  | .writeBlock i => match s.calls i with
    | none => some (s.setCall i ⟨.write, .downCn, false, none, none, none⟩)
    | some _ => none
  | .kzalloc i ok => match s.calls i with
    | some c =>
      if c.pc = .kzalloc then
        some (s.setCall i (if ok then { c.advance with m := some ⟨0, 0, []⟩ }
          else { c with pc := .count }))
      else none
    | none => none
  | .call i => s.stepCall i
  | .answer k msg => match s.wire[k]? with
    | some r => some { s with
        wire := s.wire.eraseIdx k
        inbox := s.inbox ++ [⟨r.caller, msg⟩]
        answer := Function.update s.answer r.caller (some msg) }
    | none => none
  | .deliver k => match s.inbox[k]? with
    | some r => some ({ s with inbox := s.inbox.eraseIdx k }.start r.msg)
    | none => none
  | .inject msg => some (s.start msg)
  | .callback k => s.cnCallback k

end Socket

end Sjfs
