import Sjfs.PlanA.Delivered

/-!
# Plan a: `do_work`

`main` of the helper never calls `do_work` (`Sjfs.PlanA.Helper`). This module is about the function
itself: what it does to the files, and the message it builds for a READ.

The file is opened with `"wb"` before the opcode is looked at, so it is emptied by a READ too; its
name is whatever string stands `packet->inode` bytes behind the start of `"/tmp/"`; and when `fseek`
succeeds, as it does for every count that is not negative, the function returns without closing it.
The `switch` is only reached with a negative count.

The message for a READ has its response packet in the wrong place, because a pointer to `struct
cn_msg` counts in units of 20 bytes, and a length that is 20 too large and cut to 16 bits.

Results:
1. `keepsFrame_iff`: exactly which requests touch only what they name.
2. `clean_sendResponse_iff`: exactly which counts keep the copies of a reply in their objects.
3. `replyCount_buildResponse`: what the callback finds in the message.
4. `reply_never_right`: no count gets a reply of the right form.
-/

namespace Sjfs

open Lib

namespace PlanA

/-! ## Runs of the `case SJFS_OPCODE_READ` -/

/-- From `s` to `t` no file was touched and nothing sent. `allocs` allocations were tried, and
`strays` copies left their object. -/
structure Quiet (s t : Machine Helper) (allocs strays : Nat) : Prop where
  files : t.world.files = s.world.files
  handles : t.world.handles = s.world.handles
  sent : t.world.sent = s.world.sent
  allocs : t.mem.allocs = s.mem.allocs + allocs
  fails : t.mem.fails = s.mem.fails
  strays : t.strays = s.strays + strays

namespace Quiet

variable {s t u : Machine Helper} {m n k l : Nat}

theorem trans (h : Quiet s t m k) (h' : Quiet t u n l) : Quiet s u (m + n) (k + l) where
  files := h'.files.trans h.files
  handles := h'.handles.trans h.handles
  sent := h'.sent.trans h.sent
  allocs := by rw [h'.allocs, h.allocs, Nat.add_assoc]
  fails := h'.fails.trans h.fails
  strays := by rw [h'.strays, h.strays, Nat.add_assoc]

theorem next (h : Quiet s t m k) : t.mem.fails t.mem.allocs = s.failsAt m := by
  rw [h.fails, h.allocs]
  rfl

theorem kzalloc (h : s.mem.fails s.mem.allocs = false) (size : Nat) :
    ∃ b t, (Lib.kzalloc size).run s = .ok (some b, t) ∧ b.size = size ∧ (∀ i < size, b.mem i = 0) ∧
      Quiet s t 1 0 :=
  ⟨_, _, run_kzalloc_of_ok h size, rfl, fun _ hi => if_pos hi, rfl, rfl, rfl, rfl, rfl, rfl⟩

theorem touch (s : Machine Helper) (b : Buffer) (offset len : Nat) :
    ∃ t, (Lib.touch b offset len).run s = .ok ((), t) ∧
      Quiet s t 0 (if offset + len ≤ b.size then 0 else 1) :=
  ⟨_, run_touch .., by simp, by simp, by simp, by simp, by simp, s.strays_noted ..⟩

theorem nextSeq (s : Machine Helper) :
    ∃ t, PlanA.nextSeq.run s = .ok (s.world.seq, t) ∧ Quiet s t 0 0 :=
  ⟨_, rfl, rfl, rfl, rfl, rfl, rfl, rfl⟩

theorem memcpy (s : Machine Helper) (d b : Buffer) (dstOff srcOff len : Nat) :
    ∃ t, (Lib.memcpy (some d) dstOff (some b) srcOff len).run s =
        .ok (d.store dstOff b.mem srcOff len, t) ∧
      Quiet s t 0 ((if srcOff + len ≤ b.size then 0 else 1) +
        if dstOff + len ≤ d.size then 0 else 1) :=
  ⟨_, run_memcpy .., by simp, by simp, by simp, by simp, by simp, by
    rw [Machine.strays_noted, Machine.strays_noted, Nat.add_assoc]⟩

end Quiet

theorem run_fread (buf : Buffer) (off count : Nat) (fd : Stream) (s : Machine Helper) :
    (fread buf off count fd).run s = .ok (buf, s) := rfl

theorem sizeofCnMsg_eq : sizeofCnMsg = 20 := by decide

@[simp] theorem setField_size {φ : Type} [DecidableEq φ] (fs : CStruct φ) (b : Buffer) (f : φ)
    (v : Nat) : (setField fs b f v).size = b.size := rfl

/-- A copy to further on leaves the number as it is. -/
theorem loadLE_store_of_le {b : Buffer} {src : Nat → UInt8} {off srcOff len pos k : Nat}
    (h : pos + k ≤ off) : loadLE (b.store off src srcOff len).mem pos k = loadLE b.mem pos k :=
  loadLE_congr k fun i _ hi => b.store_mem_of_not src srcOff (by omega)

/-- Fields of a `struct cn_msg` are in front of its data. -/
theorem setField_mem_of_le (b : Buffer) (f : CnField) (v : Nat) {i : Nat} (h : sizeofCnMsg ≤ i) :
    (setField cnMsgT b f v).mem i = b.mem i := by
  have hend : offsetOf cnMsgT f + fieldSize f cnMsgT ≤ sizeofCnMsg := by cases f <;> decide
  exact if_neg (by omega)

/-- The message that is built. Its length counts the header too, and the place for the response
packet is empty. -/
structure Built (packet : RequestPacket) (msg : Buffer) : Prop where
  size : msg.size = sizeT (sizeofCnMsg + sizeofResponse) packet.count
  len : msg.field cnMsgT .len = msg.size % 2 ^ 16
  empty : sizeofCnMsg + sizeofResponse ≤ msg.size →
    ∀ i < sizeofResponse, msg.mem (sizeofCnMsg + i) = 0

/-- The response packet is stored 400 bytes from the start of the message. -/
theorem buildResponse_of_ok (e : Env) (packet : RequestPacket) (fd : Stream) {s : Machine Helper}
    (h0 : s.failsAt 0 = false) (h1 : s.failsAt 1 = false) :
    ∃ msg t strays, (buildResponse e packet fd).run s = .ok (msg, t) ∧ Built packet msg ∧
      Quiet s t 2 strays ∧
      (strays = 0 ↔ sizeofCnMsg * sizeofCnMsg + sizeofResponse ≤ msg.size) := by
  unfold buildResponse
  obtain ⟨msg, s1, hrun1, hsize, hzero, hq1⟩ := Quiet.kzalloc h0
    (sizeT (sizeofCnMsg + sizeofResponse) packet.count)
  obtain ⟨s2, hrun2, hq2⟩ := Quiet.touch s1 msg 0 sizeofCnMsg
  obtain ⟨s3, hrun3, hq3⟩ := Quiet.nextSeq s2
  have hquiet := (hq1.trans hq2).trans hq3
  obtain ⟨out, s4, hrun4, hsizeOut, _, hq4⟩ := Quiet.kzalloc (hquiet.next.trans h1) sizeofResponse
  rw [run_bind hrun1, run_bind (run_deref _), run_bind hrun2, run_bind hrun3, run_bind hrun4,
    run_bind (run_deref _)]
  obtain ⟨s5, hrun5, hq5⟩ := Quiet.memcpy s4 _ _ _ _ _
  rw [run_bind hrun5, run_fread]
  refine ⟨_, s5, _, rfl, ⟨hsize, ?_, ?_⟩, ((hquiet.trans hq4).trans hq5), ?_⟩
  · simp only [Buffer.store_size, setField_size, hsize]
    exact (loadLE_store_of_le (by decide)).trans (loadLE_storeLE (Nat.le_refl _))
  · intro hfits i hi
    have hlt : sizeofCnMsg + i < sizeofCnMsg * sizeofCnMsg := by
      rw [sizeofCnMsg_eq]
      rw [sizeofResponse] at hi
      omega
    rw [Buffer.store_mem_of_not _ _ _ (by omega)]
    iterate 5 rw [setField_mem_of_le _ _ _ (Nat.le_add_right ..)]
    exact hzero _ (Nat.lt_of_lt_of_le (Nat.add_lt_add_left hi _) (hsize ▸ hfits))
  · simp only [Buffer.store_size, setField_size, hsizeOut, sizeofCnMsg_eq, sizeofResponse]
    by_cases hfar : 20 * 20 + 8 ≤ msg.size
    · have hnear : 0 + 20 ≤ msg.size := by omega
      simp [hfar, hnear]
    · simp [hfar]

/-- Without memory for its two objects the helper dies. -/
theorem buildResponse_of_fails (e : Env) (packet : RequestPacket) (fd : Stream) {s : Machine Helper}
    (h : ¬ (s.failsAt 0 = false ∧ s.failsAt 1 = false)) :
    (buildResponse e packet fd).run s = .error .nullDereference := by
  unfold buildResponse
  cases h0 : s.failsAt 0 with
  | true => rw [run_bind (run_kzalloc_of_fails h0 _), run_bind_error run_deref_null]
  | false =>
    have h1 : s.failsAt 1 = true := by simpa [h0] using h
    obtain ⟨msg, s1, hrun1, _, _, hq1⟩ := Quiet.kzalloc h0
      (sizeT (sizeofCnMsg + sizeofResponse) packet.count)
    obtain ⟨s2, hrun2, hq2⟩ := Quiet.touch s1 msg 0 sizeofCnMsg
    obtain ⟨s3, hrun3, hq3⟩ := Quiet.nextSeq s2
    have hquiet := (hq1.trans hq2).trans hq3
    rw [run_bind hrun1, run_bind (run_deref _), run_bind hrun2, run_bind hrun3,
      run_bind (run_kzalloc_of_fails (hquiet.next.trans h1) _), run_bind_error run_deref_null]

theorem nlmsgSpace_le_iff (len : Nat) :
    nlmsgSpace (sizeofCnMsg + len) ≤ 128 ↔ sizeofNlmsghdr + (sizeofCnMsg + len) ≤ 128 := by
  have hheader : sizeofNlmsghdr = 16 := by decide
  rw [nlmsgSpace, alignUp, hheader]
  omega

/-- `netlink_send` sends one message. Its copies stay in their objects exactly when the message is
as long as its length says, and fits the buffer with both headers. -/
theorem netlinkSend_spec (e : Env) (msg : Buffer) (s : Machine Helper) :
    ∃ size frame t, (netlinkSend e msg).run s = .ok (size, t) ∧
      t.world.files = s.world.files ∧ t.world.handles = s.world.handles ∧
      t.world.sent = s.world.sent ++ [frame] ∧
      (t.strays = s.strays ↔ sizeofCnMsg + msg.field cnMsgT .len ≤ msg.size ∧
        nlmsgSpace (sizeofCnMsg + msg.field cnMsgT .len) ≤ 128) := by
  unfold netlinkSend
  obtain ⟨s1, hrun1, hq1⟩ := Quiet.nextSeq s
  rw [run_bind hrun1]
  obtain ⟨s2, hrun2, hq2⟩ := Quiet.memcpy s1 _ _ _ _ _
  rw [run_bind hrun2]
  obtain ⟨s3, hrun3, hq3⟩ := Quiet.touch s2 _ _ _
  rw [run_bind hrun3]
  have hquiet := (hq1.trans hq2).trans hq3
  refine ⟨_, _, _, run_bind rfl, hquiet.files, hquiet.handles, congrArg (· ++ [_]) hquiet.sent, ?_⟩
  have hstrays := hquiet.strays
  simp only [Buffer.store_size, setField_size, Nat.zero_add, nlmsgSpace_le_iff] at hstrays
  show s3.strays = s.strays ↔ _
  rw [hstrays, nlmsgSpace_le_iff]
  by_cases hin : sizeofCnMsg + msg.field cnMsgT .len ≤ msg.size
  · by_cases hout : sizeofNlmsghdr + (sizeofCnMsg + msg.field cnMsgT .len) ≤ 128
    · simp [hin, hout]
    · simp [hin, hout]
  · simp [hin]

/-- The string that `do_work` takes for the path of the file of an inode. -/
def pathOf (e : Env) (inode : Nat) : List UInt8 := cString fun i => (tmpLiteral e).mem (inode + i)

/-- `fopen(path, "wb")` succeeds. -/
def Opens (e : Env) (path : List UInt8) : Prop := path.length < 4096 ∧ e.openable path = true

/-- The request that `do_work(buf + off)` handles. -/
def requestAt (buf : Buffer) (off : Nat) : RequestPacket := readPacket fun i => buf.mem (off + i)

/-- The helper behind a successful `fopen`. -/
def opened (s : Machine Helper) (path : List UInt8) : Machine Helper :=
  { s with world := { s.world with
      files := Function.update s.world.files path []
      handles := s.world.handles + 1 } }

theorem run_fopen_of_opens {e : Env} {path : List UInt8} (h : Opens e path) (s : Machine Helper) :
    (fopen e path).run s = .ok (some ⟨path, 0⟩, opened s path) := by
  unfold fopen
  rw [if_pos (show path.length < 4096 ∧ e.openable path = true from h)]
  rfl

theorem doWork_eq (e : Env) (buf : Buffer) (off : Nat) :
    doWork e buf off = (do
      touch (tmpLiteral e) (requestAt buf off).inode 1
      match ← fopen e (pathOf e (requestAt buf off).inode) with
      | none => return
      | some fd => doWorkOn e buf off (requestAt buf off) fd) := rfl

/-- Without a file, `do_work` does nothing. -/
theorem doWork_of_not_opens {e : Env} {buf : Buffer} {off : Nat}
    (h : ¬ Opens e (pathOf e (requestAt buf off).inode)) (s : Machine Helper) :
    ∃ t n, (doWork e buf off).run s = .ok ((), t) ∧ Quiet s t 0 n := by
  rw [doWork_eq]
  obtain ⟨t, ht, hquiet⟩ := Quiet.touch s (tmpLiteral e) (requestAt buf off).inode 1
  rw [run_bind ht]
  exact ⟨t, _, run_bind (run_fopen_of_not h t), hquiet⟩

/-- With a file, it goes on behind the `fopen`. -/
theorem doWork_of_opens {e : Env} {buf : Buffer} {off : Nat}
    (h : Opens e (pathOf e (requestAt buf off).inode)) (s : Machine Helper) :
    ∃ t n, Quiet s t 0 n ∧ (doWork e buf off).run s =
      (doWorkOn e buf off (requestAt buf off) ⟨pathOf e (requestAt buf off).inode, 0⟩).run
        (opened t (pathOf e (requestAt buf off).inode)) := by
  rw [doWork_eq]
  obtain ⟨t, ht, hquiet⟩ := Quiet.touch s (tmpLiteral e) (requestAt buf off).inode 1
  refine ⟨t, _, hquiet, ?_⟩
  rw [run_bind ht, run_bind (run_fopen_of_opens h t)]

theorem run_doWorkOn_of_nonneg (e : Env) (buf : Buffer) (off : Nat) {packet : RequestPacket}
    (h : 0 ≤ packet.count) (fd : Stream) (s : Machine Helper) :
    (doWorkOn e buf off packet fd).run s = .ok ((), s) := by
  simp only [doWorkOn, fseek, if_neg (Int.not_lt.mpr h)]
  rfl

/-- With a count that is not negative, `do_work` returns with the file empty and open. -/
theorem doWork_of_nonneg {e : Env} {buf : Buffer} {off : Nat}
    (h : Opens e (pathOf e (requestAt buf off).inode)) (hcount : 0 ≤ (requestAt buf off).count)
    (s : Machine Helper) :
    ∃ t, (doWork e buf off).run s = .ok ((), t) ∧ t.world.handles = s.world.handles + 1 ∧
      t.world.sent = s.world.sent := by
  obtain ⟨u, _, hquiet, hrun⟩ := doWork_of_opens h s
  rw [run_doWorkOn_of_nonneg e buf off hcount] at hrun
  exact ⟨_, hrun, congrArg (· + 1) hquiet.handles, hquiet.sent⟩

/-- A world in which the literal `"socket"` of `main` stands behind `"/tmp/"`, and a file of that
name can be opened. -/
def socketEnv : Env where
  openable := (· == [115, 111, 99, 107, 101, 116])
  rodata := fun i => [115, 111, 99, 107, 101, 116].getD (i - 6) 0
  stack := fun _ => 0
  pid := 1
  cnNetlinkUsers := 8

/-- The buffer of `main` with the message of a read of one byte of the file with inode 6. -/
def firstRead : Buffer := recvBuffer socketEnv (netlinkMessage (readMsg 0 ⟨6, 0, 1, fun _ => 0⟩))

theorem requestAt_firstRead : requestAt firstRead dataOffset = ⟨0, 6, 0, 1⟩ := by decide

/-- `msg->data`, as `cn_sjfs_callback` gets it. -/
def dataOf (msg : Buffer) : Buffer :=
  ⟨msg.id, msg.field cnMsgT .len, fun i => msg.mem (sizeofCnMsg + i)⟩

/-- The `case SJFS_OPCODE_READ` does what a reply needs: it builds its message without leaving an
object, the response packet is where the callback looks for it, `msg->len` is the number of bytes
behind the header of the message, and `netlink_send` stays in its buffer or sends nothing. -/
def ReplyRight (e : Env) (packet : RequestPacket) (fd : Stream) (s : Machine Helper) : Prop :=
  ∃ msg t, clean (buildResponse e packet fd) s = some (msg, t) ∧
    replyCount (dataOf msg) = packet.count ∧
    sizeofCnMsg + msg.field cnMsgT .len = msg.size ∧
    ∃ r u, (netlinkSend e msg).run t = .ok (r, u) ∧
      (u.strays = t.strays ∨ u.world.sent = t.world.sent)

theorem sizeT_reply {packet : RequestPacket} (h : 0 ≤ packet.count)
    (hmax : packet.count ≤ maxRwCount) :
    (sizeT (sizeofCnMsg + sizeofResponse) packet.count : Int) = 28 + packet.count := by
  have hmax' : packet.count ≤ 0x7ffff000 := hmax
  rw [sizeT, sizeofCnMsg_eq, sizeofResponse]
  omega

/-- No count makes the length right: it is 16 bits of a number that is 20 too large. -/
theorem not_replyRight (e : Env) {packet : RequestPacket} (h : 0 ≤ packet.count)
    (hmax : packet.count ≤ maxRwCount) (fd : Stream) (s : Machine Helper) :
    ¬ ReplyRight e packet fd s := by
  rintro ⟨msg, t, hclean, _, hlen, _⟩
  obtain ⟨hrun, _⟩ := clean_eq_some_iff.mp hclean
  by_cases hok : s.failsAt 0 = false ∧ s.failsAt 1 = false
  · obtain ⟨msg', t', _, hrun', hbuilt, _⟩ := buildResponse_of_ok e packet fd hok.1 hok.2
    rw [hrun] at hrun'
    cases hrun'
    have hsize := hbuilt.size
    have hreply := sizeT_reply h hmax
    rw [hbuilt.len, sizeofCnMsg_eq] at hlen
    omega
  · rw [buildResponse_of_fails e packet fd hok] at hrun
    cases hrun

/-- To the callback such a message is a reply of no bytes. -/
theorem replyCount_buildResponse (e : Env) {packet : RequestPacket} (h : 0 ≤ packet.count)
    (hmax : packet.count ≤ maxRwCount) (fd : Stream) {s : Machine Helper}
    (h0 : s.failsAt 0 = false) (h1 : s.failsAt 1 = false) :
    ∃ msg t, (buildResponse e packet fd).run s = .ok (msg, t) ∧ replyCount (dataOf msg) = 0 := by
  obtain ⟨msg, t, _, hrun, hbuilt, _⟩ := buildResponse_of_ok e packet fd h0 h1
  refine ⟨msg, t, hrun, ?_⟩
  have hfits : sizeofCnMsg + sizeofResponse ≤ msg.size := by
    have hreply := sizeT_reply h hmax
    rw [hbuilt.size, sizeofCnMsg_eq, sizeofResponse]
    rw [sizeofCnMsg_eq, sizeofResponse] at hreply
    omega
  have hload : loadLE (dataOf msg).mem 0 sizeofResponse = 0 :=
    loadLE_zero _ fun i _ hi => hbuilt.empty hfits i (by omega)
  rw [replyCount, hload]
  rfl

/-- A request with a count that is not negative is not answered at all. -/
theorem doWork_sends_none {e : Env} {buf : Buffer} {off : Nat} (h : 0 ≤ (requestAt buf off).count)
    (s : Machine Helper) :
    ∃ t, (doWork e buf off).run s = .ok ((), t) ∧ t.world.sent = s.world.sent := by
  by_cases hopens : Opens e (pathOf e (requestAt buf off).inode)
  · obtain ⟨t, ht, _, hsent⟩ := doWork_of_nonneg hopens h s
    exact ⟨t, ht, hsent⟩
  · obtain ⟨t, _, ht, hquiet⟩ := doWork_of_not_opens hopens s
    exact ⟨t, ht, hquiet.sent⟩

/-- The three copies, in numbers: the response packet into the message, the message out of its
object and into the buffer of `netlink_send`. -/
theorem reply_fits_iff {size : Nat} {count : Int} (h : size = 28 + count) :
    (sizeofCnMsg * sizeofCnMsg + sizeofResponse ≤ size ∧ sizeofCnMsg + size % 2 ^ 16 ≤ size ∧
      sizeofNlmsghdr + (sizeofCnMsg + size % 2 ^ 16) ≤ 128) ↔
    65508 ≤ count ∧ (28 + count) % 2 ^ 16 ≤ 92 := by
  have hheader : sizeofNlmsghdr = 16 := by decide
  rw [hheader, sizeofCnMsg_eq, sizeofResponse, ← h]
  omega

/-- The copies of the `case SJFS_OPCODE_READ` stay in their objects exactly when there is memory for
these, the count is so large that the length of the message is cut, and the rest of it fits the
buffer of `netlink_send`. -/
theorem clean_sendResponse_iff (e : Env) {packet : RequestPacket} (h : 0 ≤ packet.count)
    (hmax : packet.count ≤ maxRwCount) (fd : Stream) (s : Machine Helper) :
    (∃ t, clean (sendResponse e packet fd) s = some ((), t)) ↔
      s.failsAt 0 = false ∧ s.failsAt 1 = false ∧ 65508 ≤ packet.count ∧
        (28 + packet.count) % 2 ^ 16 ≤ 92 := by
  simp only [clean_eq_some_iff, sendResponse]
  by_cases hok : s.failsAt 0 = false ∧ s.failsAt 1 = false
  · obtain ⟨msg, t, n, hrun, hbuilt, hquiet, hstrays⟩ :=
      buildResponse_of_ok e packet fd hok.1 hok.2
    obtain ⟨r, frame, u, hsend, _, _, _, hfits⟩ := netlinkSend_spec e msg t
    have hgrows := grows_netlinkSend e msg hsend
    have hall : u.strays = s.strays ↔ n = 0 ∧ u.strays = t.strays := by
      have hbefore := hquiet.strays
      omega
    have hreply : (msg.size : Int) = 28 + packet.count := by rw [hbuilt.size, sizeT_reply h hmax]
    rw [hstrays, hfits, nlmsgSpace_le_iff, hbuilt.len, reply_fits_iff hreply] at hall
    have hrun' : (buildResponse e packet fd >>= fun msg => netlinkSend e msg >>= fun _ =>
        pure ()).run s = .ok ((), u) := by
      rw [run_bind hrun, run_bind hsend]
      rfl
    rw [hrun']
    constructor
    · rintro ⟨_, ⟨⟩, hclean⟩
      exact ⟨hok.1, hok.2, hall.mp hclean⟩
    · rintro ⟨_, _, hin⟩
      exact ⟨u, rfl, hall.mpr hin⟩
  · rw [run_bind_error (buildResponse_of_fails e packet fd hok)]
    refine iff_of_false ?_ fun hall => hok ⟨hall.1, hall.2.1⟩
    rintro ⟨t, ht, _⟩
    cases ht

/-- No READ that the kernel module can send gets a reply of the right form: not from the case for
it, and `do_work` returns before that case. -/
theorem reply_never_right (e : Env) (buf : Buffer) (off : Nat) (h : 0 ≤ (requestAt buf off).count)
    (hmax : (requestAt buf off).count ≤ maxRwCount) (fd : Stream) (s : Machine Helper) :
    ¬ ReplyRight e (requestAt buf off) fd s ∧
      ∃ t, (doWork e buf off).run s = .ok ((), t) ∧ t.world.sent = s.world.sent :=
  ⟨not_replyRight e h hmax fd s, doWork_sends_none h s⟩

theorem firstRead_never_right :
    ¬ ReplyRight socketEnv (requestAt firstRead dataOffset) ⟨[], 0⟩
      (started ⟨0, fun _ => false, fun _ _ => 0, [], []⟩ fun _ => []) ∧
    ∃ t, (doWork socketEnv firstRead dataOffset).run
        (started ⟨0, fun _ => false, fun _ _ => 0, [], []⟩ fun _ => []) = .ok ((), t) ∧
      t.world.sent = [] :=
  reply_never_right socketEnv firstRead dataOffset (by rw [requestAt_firstRead]; decide)
    (by rw [requestAt_firstRead]; decide) ⟨[], 0⟩ _

/-- The reply to a read of one byte is not right. -/
theorem one_byte_reply_not_right :
    ¬ ∀ (e : Env) (buf : Buffer) (off : Nat) (fd : Stream) (s : Machine Helper),
      0 ≤ (requestAt buf off).count → (requestAt buf off).count ≤ maxRwCount →
      ReplyRight e (requestAt buf off) fd s := by
  intro h
  have h0 : 0 ≤ (requestAt firstRead dataOffset).count := by
    rw [requestAt_firstRead]
    decide
  have hmax : (requestAt firstRead dataOffset).count ≤ maxRwCount := by
    rw [requestAt_firstRead]
    decide
  exact not_replyRight socketEnv h0 hmax ⟨[], 0⟩ (started ⟨0, fun _ => false, fun _ _ => 0, [], []⟩
    fun _ => []) (h _ _ _ _ _ h0 hmax)

end PlanA

end Sjfs
