import Sjfs.PlanA.Fops
import Sjfs.Lib.Transition

/-!
# Plan a: the channel

`sjfs_fops_read`, `sjfs_fops_write` and `cn_sjfs_callback` of `backup_plans/a/sjfs.c`, as one machine
whose steps are the atomic operations of these functions: each `down`, `up`, `down_trylock`,
allocation, send, copy and counter update is one step, and the steps of any number of calls and
callbacks interleave freely. Calls and callbacks are numbered; a number is used once.

The user space peer is part of the machine: it answers a READ request it was sent
(`Action.answer`), and the answer is delivered to `cn_sjfs_callback` later (`Action.deliver`). It
answers each READ at most once, answers no WRITE, and sends nothing else. Which allocations fail in
a run is a condition on the actions.

`cn_netlink_send` is taken to succeed. Both calls ignore its result, so a READ that was not sent, for
want of memory or of a listener, would leave its call waiting as one that is not answered.

Four parts of the state are history only, and no step depends on them: `Channel.sent` (all messages
in sending order), `Channel.order` (the calls that took `cn_sem`, in that order), `Call.copied` (the
buffer a read copied to the user) and the callers in `Mail` and `Callback`.

Left out: the message id, which is the same constant everywhere, `kfree(m)`, and the result of
`copy_to_user`, which the code ignores.
-/

namespace Sjfs

open Lib

namespace PlanA

/-! ## Messages -/

/-- A message to `cn_sjfs_callback`: `packet->count`, and the memory from `packet + 1` on. -/
structure Response where
  count : Nat
  data : Nat → UInt8

/-- The bytes that `memcpy(sjfs_read_buffer, packet + 1, packet->count)` copies. -/
def Response.bytes (r : Response) : List UInt8 := (List.range r.count).map r.data

/-- An answer on its way to `cn_sjfs_callback`, with the call whose request it answers. -/
structure Mail where
  caller : Nat
  msg : Response

/-- What `sjfs_read_buffer` points to: the object that callback run `run` allocated. -/
structure ReadBuffer where
  run : Nat
  bytes : List UInt8

/-! ## Calls -/

/-- A write comes with the user's buffer. -/
inductive Kind
  | read
  | write (source : Nat → UInt8)

def Kind.isRead : Kind → Bool
  | read => true
  | write _ => false

/-- The operation a call makes next. `downCb` is the first `down(&cb_sem)` of `sjfs_fops_read` and
`downReply` the second one; `kzallocData` is the second allocation of `sjfs_fops_write`. -/
inductive Pc
  | downCn
  | downCb
  | kzalloc
  | kzallocData
  | sample
  | copyFromUser
  | send
  | count
  | downReply
  | upCb
  | copyToUser
  | upCn
  | done
deriving DecidableEq, Repr

/-- A call of `sjfs_fops_read` or `sjfs_fops_write`. `m` is the local pointer of that name (`none` is
`NULL`). A call that is `blocked` is queued in the `down` it stands at. -/
structure Call where
  kind : Kind
  io : Io
  pc : Pc
  blocked : Bool
  m : Option CnMsg
  copied : Option (Option ReadBuffer)

/-- Where a call goes on after the operation it stands at, in the branch in which allocations
succeed and the message is sent. -/
def Call.next (c : Call) : Pc :=
  match c.pc with
  | .downCn => if c.kind.isRead then .downCb else .kzalloc
  | .downCb => .kzalloc
  | .kzalloc => if c.kind.isRead then .sample else .kzallocData
  | .kzallocData => .sample
  | .sample => if c.kind.isRead then .send else .copyFromUser
  | .copyFromUser => .send
  | .send => .count
  | .count => if c.kind.isRead then .downReply else .upCn
  | .downReply => .upCb
  | .upCb => .copyToUser
  | .copyToUser => .upCn
  | .upCn => .done
  | .done => .done

/-- The call past the operation it stands at. -/
def Call.advance (c : Call) : Call := { c with pc := c.next, blocked := false }

/-- The call after a `down`, which took its unit or not. -/
def Call.downed (c : Call) (took : Bool) : Call :=
  if took then c.advance else { c with blocked := true }

/-- The message a call has filled in when `cn_sjfs_counter` is at `seq`: all of it for a read; for a
write the bytes behind the header are still those of `kzalloc`. -/
def Call.header (c : Call) (seq : UInt32) : CnMsg :=
  match c.kind with
  | .read => readMsg seq c.io
  | .write _ =>
    let len := (sizeofRequest + c.io.count) % 2 ^ 16
    ⟨seq, len, List.replicate len 0⟩

/-! ## Callbacks -/

/-- The operation a run of `cn_sjfs_callback` makes next: `release` is the `up` after a
`down_trylock` that took the semaphore, `kzalloc`, `memcpy` and `up` are the operations of the other
branch. -/
inductive CbPc
  | trylock
  | release
  | kzalloc
  | memcpy
  | up
  | done
deriving DecidableEq, Repr

structure Callback where
  caller : Nat
  msg : Response
  pc : CbPc

/-! ## The machine -/

structure Channel where
  cnSem : Semaphore Nat
  cbSem : Semaphore Nat
  /-- `cn_sjfs_counter`. -/
  counter : UInt32
  /-- `sjfs_read_buffer`. -/
  readBuffer : Option ReadBuffer
  calls : Nat → Option Call
  callbacks : Nat → Option Callback
  /-- The number of messages delivered to `cn_sjfs_callback`; the next one gets this number. -/
  delivered : Nat
  /-- The callers of the READ requests that the peer has not answered. -/
  wire : List Nat
  /-- Answers that have not been delivered. -/
  inbox : List Mail
  sent : List Request
  order : List Nat

/-- After `init_sjfs_fs`: both semaphores at 1. -/
def Channel.init : Channel where
  cnSem := .init 1
  cbSem := .init 1
  counter := 0
  readBuffer := none
  calls := fun _ => none
  callbacks := fun _ => none
  delivered := 0
  wire := []
  inbox := []
  sent := []
  order := []

inductive Action
  /-- Call `i` enters `sjfs_fops_read` or `sjfs_fops_write`. -/
  | enter (i : Nat) (kind : Kind) (io : Io)
  /-- The `kzalloc` that call `i` stands at returns an object, or `NULL`. -/
  | kzalloc (i : Nat) (ok : Bool)
  /-- The `copy_from_user` of call `i` leaves `res` bytes uncopied. -/
  | copyFromUser (i : Nat) (res : Nat)
  /-- Call `i` makes its next operation, another one than these. -/
  | call (i : Nat)
  /-- The peer answers the `k`-th READ request it has. -/
  | answer (k : Nat) (msg : Response)
  /-- The `k`-th answer is delivered: a run of `cn_sjfs_callback` starts. -/
  | deliver (k : Nat)
  /-- The `kzalloc` of callback run `k` returns an object, or `NULL`. -/
  | callbackKzalloc (k : Nat) (ok : Bool)
  /-- Callback run `k` makes its next operation, another one than this. -/
  | callback (k : Nat)

namespace Channel

def setCall (s : Channel) (i : Nat) (c : Call) : Channel :=
  { s with calls := Function.update s.calls i (some c) }

def setCallback (s : Channel) (k : Nat) (b : Callback) : Channel :=
  { s with callbacks := Function.update s.callbacks k (some b) }

/-- `down(&cn_sem)` by call `i`, which is in state `c`. -/
def downCn (s : Channel) (i : Nat) (c : Call) : Channel :=
  let r := s.cnSem.down i
  { s.setCall i (c.downed r.2) with
    cnSem := r.1
    order := if r.2 then s.order ++ [i] else s.order }

/-- `down(&cb_sem)` by call `i`, which is in state `c`. -/
def downCb (s : Channel) (i : Nat) (c : Call) : Channel :=
  let r := s.cbSem.down i
  { s.setCall i (c.downed r.2) with cbSem := r.1 }

/-- `up(&cn_sem)`. The waiter it releases takes the semaphore. -/
def upCn (s : Channel) : Channel :=
  let r := s.cnSem.up
  { s with cnSem := r.1, calls := Semaphore.wake Call.advance s.calls r.2, order := s.order ++ r.2.toList }

/-- `up(&cb_sem)`. -/
def upCb (s : Channel) : Channel :=
  let r := s.cbSem.up
  { s with cbSem := r.1, calls := Semaphore.wake Call.advance s.calls r.2 }

/-- `cn_netlink_send`, which is taken to succeed: the peer gets the message, and can answer it if it is
a READ. -/
def netlinkSend (s : Channel) (i : Nat) (c : Call) (m : CnMsg) : Channel :=
  { s with
    sent := s.sent ++ [⟨i, m⟩]
    wire := if c.kind.isRead then s.wire ++ [i] else s.wire }

/-- The next operation of call `i`. -/
def stepCall (s : Channel) (i : Nat) : Option Channel :=
  match s.calls i with
  | none => none
  | some c =>
    if c.blocked then none
    else match c.pc, c.m with
      | .downCn, _ => some (s.downCn i c)
      | .downCb, _ => some (s.downCb i c)
      | .sample, _ => some (s.setCall i { c.advance with m := some (c.header s.counter) })
      | .send, some m => some ((s.setCall i c.advance).netlinkSend i c m)
      | .count, _ => some { s.setCall i c.advance with counter := s.counter + 1 }
      | .downReply, _ => some (s.downCb i c)
      | .upCb, _ => some (s.setCall i c.advance).upCb
      | .copyToUser, _ => some (s.setCall i { c.advance with copied := some s.readBuffer })
      | .upCn, _ => some (s.setCall i c.advance).upCn
      | _, _ => none

/-- The `kzalloc` of call `i`. A read without a message goes on behind the branch; a write makes
both its allocations first. -/
def stepKzalloc (s : Channel) (i : Nat) (ok : Bool) : Option Channel :=
  match s.calls i with
  | none => none
  | some c =>
    match c.pc, c.kind with
    | .kzalloc, .read =>
      some (s.setCall i (if ok then { c.advance with m := some ⟨0, 0, []⟩ }
        else { c with pc := .count }))
    | .kzalloc, .write _ =>
      some (s.setCall i { c.advance with m := if ok then some ⟨0, 0, []⟩ else none })
    | .kzallocData, _ =>
      some (s.setCall i (if ok && c.m.isSome then c.advance else { c with pc := .count }))
    | _, _ => none

/-- `res = copy_from_user(..); if (res == count) ..`. -/
def stepCopyFromUser (s : Channel) (i res : Nat) : Option Channel :=
  match s.calls i with
  | none => none
  | some c =>
    match c.pc, c.kind, c.m with
    | .copyFromUser, .write source, some m =>
      if res ≤ c.io.count then
        some (s.setCall i (if res = c.io.count then
            { c.advance with m := some (writeMsg m.seq c.io source res) }
          else { c with pc := .count }))
      else none
    | _, _, _ => none

/-- The next operation of callback run `k`. -/
def stepCallback (s : Channel) (k : Nat) : Option Channel :=
  match s.callbacks k with
  | none => none
  | some b =>
    match b.pc with
    | .trylock =>
      let r := s.cbSem.downTrylock
      some { s.setCallback k { b with pc := if r.2 then .release else .kzalloc } with cbSem := r.1 }
    | .memcpy =>
      some { s.setCallback k { b with pc := .up } with
        readBuffer := s.readBuffer.map fun buffer => { buffer with bytes := b.msg.bytes } }
    | .release | .up => some (s.setCallback k { b with pc := .done }).upCb
    | .kzalloc | .done => none

/-- `sjfs_read_buffer = kzalloc(packet->count, GFP_ATOMIC)` in callback run `k`. -/
def stepCallbackKzalloc (s : Channel) (k : Nat) (ok : Bool) : Option Channel :=
  match s.callbacks k with
  | none => none
  | some b =>
    if b.pc = .kzalloc then
      some { s.setCallback k { b with pc := if ok then .memcpy else .up } with
        readBuffer := if ok then some ⟨k, List.replicate b.msg.count 0⟩ else none }
    else none

/-- One step of the machine, `none` when the action is not enabled. -/
def step (s : Channel) : Action → Option Channel
  | .enter i kind io => match s.calls i with
    | none => some (s.setCall i ⟨kind, io, .downCn, false, none, none⟩)
    | some _ => none
  | .kzalloc i ok => s.stepKzalloc i ok
  | .copyFromUser i res => s.stepCopyFromUser i res
  | .call i => s.stepCall i
  | .answer k msg => match s.wire[k]? with
    | some i => some { s with wire := s.wire.eraseIdx k, inbox := s.inbox ++ [⟨i, msg⟩] }
    | none => none
  | .deliver k => match s.inbox[k]? with
    | some r => some { s.setCallback s.delivered ⟨r.caller, r.msg, .trylock⟩ with
        inbox := s.inbox.eraseIdx k
        delivered := s.delivered + 1 }
    | none => none
  | .callbackKzalloc k ok => s.stepCallbackKzalloc k ok
  | .callback k => s.stepCallback k

end Channel

end PlanA

end Sjfs
