import Sjfs.PlanA.Fops

/-!
# Plan a: the helper

`main`, `do_work` and `netlink_send` of `backup_plans/a/sjfs_helper.c`. The helper is meant to be a
file store: it gets the requests of the kernel module as netlink messages, keeps one file for each
inode, and answers READ requests.

The loop of `main` never calls `do_work`: in the `case NLMSG_DONE` the `break` stands in front of the
call. The statements of that `switch` are data here (`switchBody`), the call behind the `break`
included, and a case runs up to its first `break`.

`do_work` is modelled with its C arithmetic: `"/tmp/" + packet->inode` moves a pointer into the string
literal or past its end, `msg + sizeof(struct cn_msg)` counts in units of `struct cn_msg`, and the
result of `fseek` is tested the wrong way round. A copy that leaves its object is recorded, as
everywhere (`Sjfs.Lib.CMemory`).

Left out: what is printed, and the set-up of the socket before the loop.

Results:
1. `replies_iff`: exactly which sequences of messages the helper answers as the store it is meant to
   be.
2. `doWork_sends_nothing`: a call of `do_work` would not help. It changes and sends nothing, unless a
   copy or a pointer leaves its object.
-/

namespace Sjfs

open Lib

namespace PlanA

/-! ## Netlink messages -/

inductive NlField
  | len
  | type
  | flags
  | seq
  | pid
deriving DecidableEq, Repr

/-- `struct nlmsghdr`. -/
def nlmsghdrT : CStruct NlField :=
  [(.len, .uint), (.type, .ushort), (.flags, .ushort), (.seq, .uint), (.pid, .uint)]

inductive CnField
  | idx
  | val
  | seq
  | ack
  | len
  | flags
deriving DecidableEq, Repr

/-- `struct cn_msg`, without the data behind it. -/
def cnMsgT : CStruct CnField :=
  [(.idx, .uint), (.val, .uint), (.seq, .uint), (.ack, .uint), (.len, .ushort), (.flags, .ushort)]

/-- `sizeof(struct nlmsghdr)`, which is also `NLMSG_HDRLEN`. -/
def sizeofNlmsghdr : Nat := structSize nlmsghdrT

/-- `sizeof(struct cn_msg)`. -/
def sizeofCnMsg : Nat := structSize cnMsgT

/-- `sizeof(sjfs_response_packet_t)`: a `long long`. -/
def sizeofResponse : Nat := 8

/-- `NLMSG_ERROR`. -/
def nlmsgError : Nat := 2

/-- `NLMSG_DONE`. -/
def nlmsgDone : Nat := 3

/-- `NLMSG_SPACE(len)`. -/
def nlmsgSpace (len : Nat) : Nat := alignUp (sizeofNlmsghdr + len) 4

/-- Where `data->data` is in a message: behind the two headers. -/
def dataOffset : Nat := sizeofNlmsghdr + sizeofCnMsg

/-! ## The world of the helper -/

/-- What the helper finds and does not change. -/
structure Env where
  /-- `fopen(path, "wb")` succeeds. -/
  openable : List UInt8 → Bool
  /-- The memory behind the literal `"/tmp/"`. -/
  rodata : Nat → UInt8
  /-- The memory that local variables are placed in. -/
  stack : Nat → UInt8
  pid : Nat
  cnNetlinkUsers : Nat

/-- `fopen` as documented: there is no file to write at the empty path and at a path that ends in a
slash. -/
structure Env.Documented (e : Env) : Prop where
  empty : e.openable [] = false
  directory : ∀ path, path.getLast? = some 47 → e.openable path = false

/-- What the helper changes outside its memory: its variables `seq` and `need_exit`, the files by their
paths, the number of files it has open, and the messages it has sent. -/
structure Helper where
  seq : UInt32
  needExit : Bool
  files : List UInt8 → List UInt8
  handles : Nat
  sent : List (List UInt8)

/-- `seq++`. -/
def nextSeq : K Helper UInt32 := do
  let s ← get
  change fun w => { w with seq := w.seq + 1 }
  return s.world.seq

/-! ## Standard input and output -/

/-- A stream opened with `"wb"`: the path of its file, and the position. -/
structure Stream where
  path : List UInt8
  pos : Nat

/-- The string at the start of `mem`. A path of 4096 bytes or more is too long to open. -/
def cString (mem : Nat → UInt8) : List UInt8 :=
  ((List.range 4096).map mem).takeWhile (· ≠ 0)

/-- `fopen(path, "wb")`, which empties the file. -/
def fopen (e : Env) (path : List UInt8) : K Helper (Option Stream) := do
  if path.length < 4096 ∧ e.openable path then
    change fun w => { w with
      files := Function.update w.files path []
      handles := w.handles + 1 }
    return some ⟨path, 0⟩
  return none

/-- `fclose(fd)`. -/
def fclose (_fd : Stream) : K Helper Unit := change fun w => { w with handles := w.handles - 1 }

/-- `fseek(fd, offset, SEEK_SET)`: the stream, and the result. -/
def fseek (fd : Stream) (offset : Int) : Stream × Int :=
  if offset < 0 then (fd, -1) else ({ fd with pos := offset.toNat }, 0)

/-- `old` with `count` bytes of `data` at `pos`. A gap before them is filled with zeros. -/
def overwrite (old : List UInt8) (pos count : Nat) (data : Nat → UInt8) : List UInt8 :=
  if count = 0 then old
  else (List.range (max old.length (pos + count))).map fun i =>
    if pos ≤ i ∧ i < pos + count then data (i - pos) else old.getD i 0

example : overwrite [1, 2] 4 1 (fun _ => 9) = [1, 2, 0, 0, 9] := by decide

/-- `fwrite(buf + off, 1, count, fd)`. -/
def fwrite (buf : Buffer) (off count : Nat) (fd : Stream) : K Helper Unit := do
  touch buf off count
  change fun w => { w with
    files := Function.update w.files fd.path
      (overwrite (w.files fd.path) fd.pos count fun i => buf.mem (off + i)) }

/-- `fread(buf + off, 1, count, fd)` on a stream that was opened for writing: an error, and nothing is
stored. -/
def fread (buf : Buffer) (_off _count : Nat) (_fd : Stream) : K Helper Buffer := return buf

/-! ## `netlink_send` and `do_work` -/

/-- A number for an object that is not allocated, but a variable or a literal. -/
def staticId : Nat := 0

/-- `b` with the field `f` set to `v`. -/
def setField {φ : Type} [DecidableEq φ] (fs : CStruct φ) (b : Buffer) (f : φ) (v : Nat) : Buffer :=
  { b with mem := storeLE b.mem (offsetOf fs f) (fieldSize f fs) v }

/-- `netlink_send(s, msg)`. The socket takes the message. -/
def netlinkSend (e : Env) (msg : Buffer) : K Helper Int := do
  let len := msg.field cnMsgT .len
  let size := nlmsgSpace (sizeofCnMsg + len)
  let seq ← nextSeq
  let buf : Buffer := ⟨staticId, 128, e.stack⟩
  let buf := setField nlmsghdrT buf .seq seq.toNat
  let buf := setField nlmsghdrT buf .pid e.pid
  let buf := setField nlmsghdrT buf .type nlmsgDone
  let buf := setField nlmsghdrT buf .len size
  let buf := setField nlmsghdrT buf .flags 0
  let buf ← memcpy (some buf) sizeofNlmsghdr (some msg) 0 (sizeofCnMsg + len)
  touch buf 0 size
  change fun w => { w with sent := w.sent ++ [(List.range size).map buf.mem] }
  return size

/-- `CN_TEST_VAL`. -/
def cnTestVal : Nat := 0x456

/-- `n + count` as a `size_t`. -/
def sizeT (n : Nat) (count : Int) : Nat := ((n + count) % 2 ^ 64).toNat

/-- The `case SJFS_OPCODE_READ` of `do_work` up to the call of `netlink_send`: the message it
passes. -/
def buildResponse (e : Env) (packet : RequestPacket) (fd : Stream) : K Helper Buffer := do
  let size := sizeT (sizeofCnMsg + sizeofResponse) packet.count
  let msg ← deref (← kzalloc size)
  touch msg 0 sizeofCnMsg
  let msg := setField cnMsgT msg .idx (e.cnNetlinkUsers + 3)
  let msg := setField cnMsgT msg .val cnTestVal
  let seq ← nextSeq
  let msg := setField cnMsgT msg .seq seq.toNat
  let msg := setField cnMsgT msg .ack 0
  let msg := setField cnMsgT msg .len size
  let outPacket ← deref (← kzalloc sizeofResponse)
  let outPacket := { outPacket with
    mem := storeLE outPacket.mem 0 sizeofResponse (sizeT 0 packet.count) }
  -- `msg + n` is `n` times the size of `*msg` further on
  let msg ← memcpy (some msg) (sizeofCnMsg * sizeofCnMsg) (some outPacket) 0 sizeofResponse
  fread msg ((sizeofCnMsg + sizeofResponse) * sizeofCnMsg) (sizeT 0 packet.count) fd

/-- The `case SJFS_OPCODE_READ` of `do_work`. -/
def sendResponse (e : Env) (packet : RequestPacket) (fd : Stream) : K Helper Unit := do
  let msg ← buildResponse e packet fd
  let _ ← netlinkSend e msg

/-- The literal `"/tmp/"`. -/
def tmpLiteral (e : Env) : Buffer :=
  ⟨staticId, 6, fun i => [47, 116, 109, 112, 47, 0].getD i (e.rodata i)⟩

/-- The `switch` of `do_work`. -/
def switchOpcode (e : Env) (buf : Buffer) (off : Nat) (packet : RequestPacket) (fd : Stream) :
    K Helper Unit :=
  if packet.opcode = opcodeRead.toNat then sendResponse e packet fd
  else if packet.opcode = opcodeWrite.toNat then
    fwrite buf (off + sizeofRequest) (sizeT 0 packet.count) fd
  else return

/-- `do_work` behind its `fopen`. The file is closed in the `default` case and behind the `switch`. -/
def doWorkOn (e : Env) (buf : Buffer) (off : Nat) (packet : RequestPacket) (fd : Stream) :
    K Helper Unit := do
  let (fd, result) := fseek fd packet.count
  -- `fseek` returns 0 when it succeeds
  if result = 0 then return
  else
    switchOpcode e buf off packet fd
    fclose fd

/-- `do_work(buf + off)`. -/
def doWork (e : Env) (buf : Buffer) (off : Nat) : K Helper Unit := do
  let packet := readPacket fun i => buf.mem (off + i)
  -- the name of the file is what stands `packet->inode` bytes behind the start of the literal
  touch (tmpLiteral e) packet.inode 1
  match ← fopen e (cString fun i => (tmpLiteral e).mem (packet.inode + i)) with
  | none => return
  | some fd => doWorkOn e buf off packet fd

/-! ## `main` -/

/-- The statements in the `switch` of the loop. -/
inductive Stmt
  | printfError
  | setData
  | printfHeader
  | breakSwitch
  | doWork
deriving DecidableEq, Repr

/-- `switch (reply->nlmsg_type)`: the labels, and the statements behind each one up to the next.
`none` is `default`. -/
def switchBody : List (Option Nat × List Stmt) :=
  [(some nlmsgError, [.printfError, .breakSwitch]),
   (some nlmsgDone, [.setData, .printfHeader, .breakSwitch, .doWork]),
   (none, [.breakSwitch])]

/-- The statements from the label for `v` on, the ones behind later labels included. -/
def entered (v : Nat) (body : List (Option Nat × List Stmt)) : List Stmt :=
  let label := if (body.map Prod.fst).contains (some v) then some v else none
  ((body.dropWhile fun c => c.1 != label).map Prod.snd).flatten

/-- The statements that are executed for `v`. -/
def executed (v : Nat) : List Stmt := (entered v switchBody).takeWhile (· ≠ .breakSwitch)

/-- `buf` of `main` behind `memset` and a `recv` of `bytes`. -/
def recvBuffer (e : Env) (bytes : List UInt8) : Buffer :=
  ⟨staticId, 65536, fun i => if i < 65536 then bytes.getD i 0 else e.stack i⟩

/-- `reply->nlmsg_type`. -/
def nlmsgType (e : Env) (bytes : List UInt8) : Nat := (recvBuffer e bytes).field nlmsghdrT .type

/-- One statement of the `switch`, for the message `bytes`. -/
def runStmt (e : Env) (bytes : List UInt8) : Stmt → K Helper Unit
  | .doWork => doWork e (recvBuffer e bytes) dataOffset
  | .printfError | .setData | .printfHeader | .breakSwitch => return

/-- What `poll`, and the `recv` behind it, come back with. -/
inductive Event
  | timeout
  | pollError (eintr : Bool)
  | recvError
  | message (bytes : List UInt8)

/-- The loop of `main`, on the events to come. The result is that of `main`; `none` means that the loop
waits in `poll`. -/
def mainLoop (e : Env) : List Event → K Helper (Option Int)
  | [] => return none
  | event :: events => do
    if (← get).world.needExit then return some 0
    match event with
    | .timeout | .pollError false =>
      change fun w => { w with needExit := true }
      return some 0
    | .pollError true => mainLoop e events
    | .recvError => return some (-1)
    | .message bytes =>
      (executed (nlmsgType e bytes)).forM (runStmt e bytes)
      mainLoop e events

/-! ## The store it is meant to be -/

/-- One byte string for each inode number. -/
abbrev FileStore := Nat → List UInt8

/-- A request is carried out: the store behind it, and the bytes of the reply to it, if there is one. The
data of a WRITE stand behind the packet. -/
def FileStore.serve (st : FileStore) (mem : Nat → UInt8) : FileStore × Option (List UInt8) :=
  let packet := readPacket mem
  if packet.opcode = opcodeRead.toNat then
    (st, some (((st packet.inode).drop packet.pos).take packet.count.toNat))
  else if packet.opcode = opcodeWrite.toNat then
    (Function.update st packet.inode (overwrite (st packet.inode) packet.pos packet.count.toNat
      fun i => mem (sizeofRequest + i)), none)
  else (st, none)

/-- The request in a received message. -/
def requestOf (e : Env) (bytes : List UInt8) : Nat → UInt8 :=
  fun i => (recvBuffer e bytes).mem (dataOffset + i)

/-- The replies to the messages, in the order of their arrival. -/
def FileStore.replies (e : Env) : FileStore → List (List UInt8) → List (List UInt8)
  | _, [] => []
  | st, bytes :: messages =>
    if nlmsgType e bytes = nlmsgDone then
      let r := st.serve (requestOf e bytes)
      r.2.toList ++ FileStore.replies e r.1 messages
    else FileStore.replies e st messages

/-- The messages that are received before the loop ends. -/
def received : List Event → List (List UInt8)
  | [] => []
  | .message bytes :: events => bytes :: received events
  | .pollError true :: events => received events
  | .timeout :: _ | .pollError false :: _ | .recvError :: _ => []

/-- The message `sent` is a reply with the bytes `data`: its `count` is their number, and they stand
behind it. -/
def Carries (sent data : List UInt8) : Prop :=
  loadLE (fun i => sent.getD i 0) dataOffset sizeofResponse = data.length ∧
  (sent.drop (dataOffset + sizeofResponse)).take data.length = data

/-- The helper before its loop, with `files` as they are. -/
def started (mem : Memory) (files : List UInt8 → List UInt8) : Machine Helper :=
  ⟨mem, ⟨0, false, files, 0, []⟩⟩

/-- The helper, run on `events`, sends the replies of the store `st`, and nothing else. -/
def ActsAs (e : Env) (s : Machine Helper) (st : FileStore) (events : List Event) : Prop :=
  ∃ result t, (mainLoop e events).run s = .ok (result, t) ∧
    List.Forall₂ Carries t.world.sent (st.replies e (received events))

/-! ## What the loop does -/

/-- The call of `do_work` is not executed, whatever the type of the message. -/
theorem doWork_not_mem_executed (v : Nat) : Stmt.doWork ∉ executed v := by
  by_cases herror : v = nlmsgError
  · subst herror
    decide
  · by_cases hdone : v = nlmsgDone
    · subst hdone
      decide
    · have hlabel : (switchBody.map Prod.fst).contains (some v) = false := by
        simp [switchBody, herror, hdone]
      rw [executed, entered, hlabel, if_neg Bool.false_ne_true]
      decide

theorem run_forM_of_not_mem (e : Env) (bytes : List UInt8) {stmts : List Stmt}
    (h : Stmt.doWork ∉ stmts) (s : Machine Helper) :
    (stmts.forM (runStmt e bytes)).run s = .ok ((), s) := by
  induction stmts with
  | nil => rfl
  | cons x xs ih =>
    have hx : (runStmt e bytes x).run s = .ok ((), s) := by
      cases x with
      | doWork => exact absurd List.mem_cons_self h
      | _ => rfl
    rw [List.forM, run_bind hx]
    exact ih fun hmem => h (List.mem_cons_of_mem x hmem)

/-- Whatever happens, the loop sends nothing and changes no file. -/
theorem mainLoop_sends_nothing (e : Env) (events : List Event) (s : Machine Helper) :
    ∃ result t, (mainLoop e events).run s = .ok (result, t) ∧ t.world.sent = s.world.sent ∧
      t.world.files = s.world.files := by
  induction events with
  | nil => exact ⟨none, s, rfl, rfl, rfl⟩
  | cons event events ih =>
    unfold mainLoop
    rw [run_bind run_get]
    cases hexit : s.world.needExit with
    | true => exact ⟨some 0, s, rfl, rfl, rfl⟩
    | false =>
      cases event with
      | timeout => exact ⟨some 0, _, rfl, rfl, rfl⟩
      | pollError eintr =>
        cases eintr with
        | true => exact ih
        | false => exact ⟨some 0, _, rfl, rfl, rfl⟩
      | recvError => exact ⟨some (-1), s, rfl, rfl, rfl⟩
      | message bytes =>
        have hskip := run_forM_of_not_mem e bytes (doWork_not_mem_executed (nlmsgType e bytes)) s
        obtain ⟨result, t, hrun, hworld⟩ := ih
        exact ⟨result, t, (run_bind hskip).trans hrun, hworld⟩

/-- The message carries a READ request. -/
def IsRead (e : Env) (bytes : List UInt8) : Prop :=
  nlmsgType e bytes = nlmsgDone ∧ (readPacket (requestOf e bytes)).opcode = opcodeRead.toNat

theorem FileStore.serve_snd_eq_none_iff (st : FileStore) (mem : Nat → UInt8) :
    (st.serve mem).2 = none ↔ (readPacket mem).opcode ≠ opcodeRead.toNat := by
  simp only [serve]
  split
  · next hread => simp [hread]
  · next hread => split <;> simp [hread]

/-- A store has nothing to reply exactly when nothing is read. -/
theorem FileStore.replies_eq_nil_iff (e : Env) (st : FileStore) (messages : List (List UInt8)) :
    st.replies e messages = [] ↔ ∀ bytes ∈ messages, ¬ IsRead e bytes := by
  induction messages generalizing st with
  | nil => simp [replies]
  | cons bytes messages ih =>
    rw [replies, List.forall_mem_cons]
    by_cases hdone : nlmsgType e bytes = nlmsgDone
    · have hnone := st.serve_snd_eq_none_iff (requestOf e bytes)
      simp [hdone, ih, IsRead, hnone]
    · simp [hdone, ih, IsRead]

/-- The helper acts as the store it is meant to be exactly on the sequences in which it is never asked to
read. -/
theorem replies_iff (e : Env) (mem : Memory) (files : List UInt8 → List UInt8) (st : FileStore)
    (events : List Event) :
    ActsAs e (started mem files) st events ↔ ∀ bytes ∈ received events, ¬ IsRead e bytes := by
  obtain ⟨result, t, hrun, hsent, _⟩ := mainLoop_sends_nothing e events (started mem files)
  have hnil : t.world.sent = [] := hsent
  rw [← st.replies_eq_nil_iff]
  constructor
  · rintro ⟨result', t', hrun', hcarries⟩
    rw [hrun] at hrun'
    cases hrun'
    rw [hnil] at hcarries
    exact List.forall₂_nil_left_iff.mp hcarries
  · intro h
    refine ⟨result, t, hrun, ?_⟩
    rw [hnil, h]
    exact .nil

/-- A message of the kernel module, as it arrives at the helper. -/
def netlinkMessage (m : CnMsg) : List UInt8 :=
  let size := sizeofNlmsghdr + sizeofCnMsg + m.len
  let header := storeStruct nlmsghdrT (fun
    | .len => size
    | .type => nlmsgDone
    | .flags | .seq | .pid => 0) fun _ => 0
  let msg := storeStruct cnMsgT (fun
    | .len => m.len
    | .seq => m.seq.toNat
    | .idx | .val | .ack | .flags => 0) fun _ => 0
  (List.range sizeofNlmsghdr).map header ++ (List.range sizeofCnMsg).map msg ++ m.data

/-- One read of one byte is not answered. -/
theorem read_is_not_answered :
    ¬ ∀ (e : Env) (mem : Memory) (files : List UInt8 → List UInt8) (st : FileStore)
      (events : List Event), ActsAs e (started mem files) st events := by
  intro h
  let e : Env := ⟨fun _ => false, fun _ => 0, fun _ => 0, 1, 8⟩
  let bytes := netlinkMessage (readMsg 0 ⟨7, 0, 1, fun _ => 0⟩)
  have hread : IsRead e bytes := by
    constructor <;> decide
  obtain ⟨result, t, hrun, hcarries⟩ := h e ⟨0, fun _ => false, fun _ _ => 0, [], []⟩ (fun _ => [])
    (fun _ => []) [.message bytes]
  obtain ⟨result', t', hrun', hsent, _⟩ := mainLoop_sends_nothing e [.message bytes]
    (started ⟨0, fun _ => false, fun _ _ => 0, [], []⟩ fun _ => [])
  rw [hrun] at hrun'
  cases hrun'
  rw [hsent] at hcarries
  have hnil := List.forall₂_nil_left_iff.mp hcarries
  exact (FileStore.replies_eq_nil_iff e _ _).mp hnil bytes List.mem_cons_self hread

/-! ## What `do_work` would do -/

theorem grows_nextSeq : Grows nextSeq :=
  grows_get.bind fun _ => (grows_change _).bind fun _ => .pure _

theorem grows_netlinkSend (e : Env) (msg : Buffer) : Grows (netlinkSend e msg) :=
  grows_nextSeq.bind fun _ => (grows_memcpy ..).bind fun _ => (grows_touch ..).bind fun _ =>
    (grows_change _).bind fun _ => .pure _

theorem grows_buildResponse (e : Env) (packet : RequestPacket) (fd : Stream) :
    Grows (buildResponse e packet fd) :=
  (grows_kzalloc _).bind fun p => (grows_deref p).bind fun _ => (grows_touch ..).bind fun _ =>
    grows_nextSeq.bind fun _ => (grows_kzalloc _).bind fun q => (grows_deref q).bind fun _ =>
      (grows_memcpy ..).bind fun _ => .pure _

theorem grows_sendResponse (e : Env) (packet : RequestPacket) (fd : Stream) :
    Grows (sendResponse e packet fd) :=
  (grows_buildResponse ..).bind fun _ => (grows_netlinkSend ..).bind fun _ => .pure _

theorem grows_fopen (e : Env) (path : List UInt8) : Grows (fopen e path) := by
  unfold fopen
  split
  · exact (grows_change _).bind fun _ => .pure _
  · exact .pure _

theorem run_fopen_of_not {e : Env} {path : List UInt8}
    (h : ¬ (path.length < 4096 ∧ e.openable path = true)) (s : Machine Helper) :
    (fopen e path).run s = .ok (none, s) := by
  unfold fopen
  rw [if_neg h]
  rfl

theorem grows_switchOpcode (e : Env) (buf : Buffer) (off : Nat) (packet : RequestPacket)
    (fd : Stream) : Grows (switchOpcode e buf off packet fd) := by
  unfold switchOpcode
  split
  · exact grows_sendResponse ..
  · split
    · exact (grows_touch ..).bind fun _ => grows_change _
    · exact .pure _

theorem grows_doWorkOn (e : Env) (buf : Buffer) (off : Nat) (packet : RequestPacket) (fd : Stream) :
    Grows (doWorkOn e buf off packet fd) := by
  simp only [doWorkOn]
  split
  · exact .pure _
  · exact (grows_switchOpcode ..).bind fun _ => grows_change _

/-- A string that ends before the path gets too long. -/
theorem cString_eq {mem : Nat → UInt8} {l : List UInt8} (hl : l.length < 4096) (h0 : 0 ∉ l)
    (hmem : ∀ i (hi : i < l.length), mem i = l[i]) (hend : mem l.length = 0) : cString mem = l := by
  have hsplit : 4096 = l.length + (4095 - l.length + 1) := by omega
  have hfront : (List.range l.length).map mem = l := by
    refine List.ext_getElem (by simp) fun i h1 h2 => ?_
    simp [hmem i h2]
  obtain ⟨rest, hback⟩ : ∃ rest, ((List.range (4095 - l.length + 1)).map (l.length + ·)).map mem =
      0 :: rest := by
    rw [List.range_succ_eq_map, List.map_cons, List.map_cons, Nat.add_zero, hend]
    exact ⟨_, rfl⟩
  have hall : ∀ b ∈ l, decide (b ≠ 0) = true := by
    intro b hb
    exact decide_eq_true fun hb0 => h0 (hb0 ▸ hb)
  rw [cString, hsplit, List.range_add, List.map_append, hfront, hback,
    List.takeWhile_append_of_pos hall]
  simp

/-- A pointer into the literal `"/tmp/"` names no file that can be opened. -/
theorem not_openable_of_le {e : Env} (he : e.Documented) {k : Nat} (hk : k ≤ 5) :
    e.openable (cString fun i => (tmpLiteral e).mem (k + i)) = false := by
  have hpath : cString (fun i => (tmpLiteral e).mem (k + i)) = [47, 116, 109, 112, 47].drop k := by
    refine cString_eq ?_ ?_ ?_ ?_
    · simp
      omega
    · intro h
      exact absurd (List.mem_of_mem_drop h) (by decide)
    · intro i hi
      rw [List.length_drop] at hi
      rw [List.getElem_drop]
      show [47, 116, 109, 112, 47, 0].getD (k + i) _ = _
      have hlt : k + i < [47, 116, 109, 112, (47 : UInt8)].length := by omega
      rw [List.getD_eq_getElem?_getD,
        show [47, 116, 109, 112, 47, (0 : UInt8)] = [47, 116, 109, 112, 47] ++ [0] from rfl,
        List.getElem?_append_left hlt, List.getElem?_eq_getElem hlt]
      rfl
    · rw [List.length_drop, show k + ([47, 116, 109, 112, (47 : UInt8)].length - k) = 5 by
        simp only [List.length_cons, List.length_nil]
        omega]
      rfl
  rw [hpath]
  by_cases h5 : k = 5
  · subst h5
    exact he.empty
  · refine he.directory _ ?_
    rw [List.getLast?_drop, if_neg (by simp only [List.length_cons, List.length_nil]; omega)]
    rfl

/-- With a call of `do_work` the helper would be no better: a run that stays within its objects opens
no file, and sends and changes nothing. -/
theorem doWork_sends_nothing {e : Env} (he : e.Documented) (buf : Buffer) (off : Nat)
    {s t : Machine Helper} {u : Unit} (h : clean (doWork e buf off) s = some (u, t)) : t = s := by
  by_cases hk : (readPacket fun i => buf.mem (off + i)).inode ≤ 5
  · have hin : (readPacket fun i => buf.mem (off + i)).inode + 1 ≤ (tmpLiteral e).size :=
      Nat.succ_le_succ hk
    have hrun : (doWork e buf off).run s = .ok ((), s) := by
      rw [doWork, run_bind (run_touch ..), Machine.noted_of_le hin,
        run_bind (run_fopen_of_not (by simp [not_openable_of_le he hk]) s)]
      rfl
    rw [clean_of_run hrun rfl] at h
    cases h
    rfl
  · have hout : (tmpLiteral e).size < (readPacket fun i => buf.mem (off + i)).inode + 1 :=
      Nat.succ_lt_succ (Nat.lt_of_not_le hk)
    rw [doWork, clean_touch_bind_of_lt hout] at h
    · cases h
    · refine (grows_fopen ..).bind fun fd => ?_
      cases fd with
      | none => exact .pure _
      | some fd => exact grows_doWorkOn ..

end PlanA

end Sjfs
