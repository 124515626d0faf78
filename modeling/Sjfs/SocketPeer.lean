import Sjfs.SocketCalls
import Sjfs.SocketLeftover

/-!
# The socket level over a peer that reads its requests

The peer has nothing but the bytes of a request to choose its answer by. Here it is a function from
these bytes to blocks, and `sjfs_read_block`, with any number of calls under way, is compared with
reading a disk.

Results:
1. `PeerRun.block_eq`: a read returns what the peer serves for the text of its block number, in every
   run in which allocations succeed and the peer keeps to its part.
2. `servable_iff`: some peer makes every read of the blocks in `S` return its block of the disk exactly
   when blocks of `S` whose numbers have the same three leading digits are equal.
-/

namespace Sjfs

open Lib

namespace Socket

/-- The peer answers a request with the block that `serve` gives for its bytes. -/
def Serves (serve : List UInt8 → Block) (s : Socket) (a : Action) : Prop :=
  ∀ k msg r, a = .answer k msg → s.wire[k]? = some r → block msg = serve r.msg.data

/-- The runs over such a peer: allocations succeed, answers have at least a block of bytes, and nothing
else is delivered. -/
def PeerRun (serve : List UInt8 → Block) : Socket → Prop :=
  Reach step (fun s a => PeerOk a ∧ Serves serve s a) init

theorem PeerRun.reach {serve : List UInt8 → Block} {s : Socket} (h : PeerRun serve s) :
    Reach step (fun _ _ => True) init s :=
  h.invariant .refl fun _ _ _ hr _ hstep => hr.tail trivial hstep

/-- The disk that such a peer makes of itself. -/
def served (serve : List UInt8 → Block) : Disk := fun n => serve (readPayload (UInt32.ofNat n)).2

theorem served_toNat (serve : List UInt8 → Block) (address : UInt32) :
    served serve address.toNat = serve (readPayload address).2 := by
  rw [served, UInt32.ofNat_toNat]

/-- The block number a READ request is sent for decides its bytes. -/
theorem servesDisk_of_serves {serve : List UInt8 → Block} {s : Socket} {a : Action}
    (hs : Asked s) (ha : Serves serve s a) :
    ServesDisk (served serve) s a := by
  intro k msg r c address hk hr hc hkind
  obtain ⟨d, address', hd, hkind', _, hmsg⟩ := hs.names r (hs.wire r (List.mem_of_getElem? hr))
  obtain rfl := Option.some.inj (hd.symm.trans hc)
  have hsame : address' = address := by
    rw [hkind] at hkind'
    cases hkind'
    rfl
  subst hsame
  rw [ha k msg r hk hr, served_toNat, ← hmsg]

theorem PeerRun.servesDisk {serve : List UInt8 → Block} {s : Socket} (h : PeerRun serve s) :
    Reach step (fun s a => PeerOk a ∧ ServesDisk (served serve) s a) init s := by
  induction h with
  | refl => exact .refl
  | tail hr hok hstep ih =>
    exact ih.tail ⟨hok.1, servesDisk_of_serves (asked_of_reach (PeerRun.reach hr)) hok.2⟩ hstep

/-- Over a peer that reads its requests, a block read returns what the peer serves for the text of its
block number. -/
theorem PeerRun.block_eq {serve : List UInt8 → Block} {s : Socket} (h : PeerRun serve s) {i : Nat}
    {c : Call} {address : UInt32} (hc : s.calls i = some c) (hk : c.kind = .read address)
    (hpc : c.pc = .done) : c.block = some (serve (readPayload address).2) := by
  rw [returns_diskBlock h.servesDisk hc hk hpc, served_toNat]

/-! ## Disks a peer can serve -/

/-- Every read of a block in `S` returns its block of `disk`, over a peer that serves `serve`. -/
def ReadsDisk (serve : List UInt8 → Block) (disk : Disk) (S : Set UInt32) : Prop :=
  ∀ s i c address, PeerRun serve s → s.calls i = some c → c.kind = .read address → address ∈ S →
    c.pc = .done → c.block = some (disk address.toNat)

/-- A block as an answer. -/
def blockMsg (blk : Block) : Msg := ⟨List.ofFn blk, by rw [List.length_ofFn]; decide⟩

theorem getD_ofFn {n : Nat} (f : Fin n → UInt8) (i : Fin n) : (List.ofFn f).getD i.val 0 = f i := by
  rw [List.getD_eq_getElem?_getD, List.getElem?_ofFn, dif_pos i.isLt]
  rfl

theorem block_blockMsg (blk : Block) : block (blockMsg blk) = blk := by
  funext i
  simp only [block, blockMsg, getD_ofFn]

theorem length_blockMsg (blk : Block) : (blockMsg blk).data.length = blockSize := by
  simp only [blockMsg, List.length_ofFn, blockSize]

/-- An action that is no answer, no unasked message and no failed allocation. -/
def Plain (a : Action) : Prop :=
  AllocOk a ∧ (∀ msg, a ≠ .inject msg) ∧ ∀ k msg, a ≠ .answer k msg

/-- It asks nothing of the peer. -/
theorem Plain.peerOk {a : Action} (h : Plain a) (serve : List UInt8 → Block) (s : Socket) :
    PeerOk a ∧ Serves serve s a :=
  ⟨⟨h.1, h.2.1, fun k msg he => absurd he (h.2.2 k msg)⟩,
    fun k msg _ he => absurd he (h.2.2 k msg)⟩

theorem reach_of_plain {serve : List UInt8 → Block} {s t : Socket} {as : List Action}
    (has : ∀ a ∈ as, Plain a) (hrun : as.foldlM step s = some t) :
    Reach step (fun s a => PeerOk a ∧ Serves serve s a) s t := by
  refine .of_run ?_ hrun
  clear hrun
  induction as generalizing s with
  | nil => trivial
  | cons a as ih =>
    exact ⟨(has a List.mem_cons_self).peerOk serve s,
      fun t _ => ih fun b hb => has b (List.mem_cons_of_mem a hb)⟩

/-- A read, alone, that is answered. -/
theorem exists_read (serve : List UInt8 → Block) (address : UInt32) :
    ∃ s c, PeerRun serve s ∧ s.calls 0 = some c ∧ c.kind = .read address ∧ c.pc = .done := by
  let msg := blockMsg (serve (readPayload address).2)
  have hask : Reach step (fun s a => PeerOk a ∧ Serves serve s a) init (init.asked 0 address) :=
    reach_of_plain (by simp [askSteps, Plain, AllocOk]) (run_asked idle_init rfl address)
  have hanswer : PeerOk (.answer 0 msg) ∧ Serves serve (init.asked 0 address) (.answer 0 msg) := by
    refine ⟨⟨by simp [AllocOk], by simp, ?_⟩, ?_⟩
    · rintro k m ⟨⟩
      exact Nat.le_of_eq (length_blockMsg _).symm
    · rintro k m r ⟨⟩ hr
      obtain rfl : (⟨0, init.request address⟩ : Request) = r := by simpa [asked] using hr
      exact block_blockMsg _
  have hrest : Reach step (fun s a => PeerOk a ∧ Serves serve s a) (init.handed 0 address msg)
      (init.returned 0 address msg (fill init.readBlockBuffer msg) 1
        (fill init.readBlockBuffer msg)) := by
    refine (reach_of_plain ?_ (run_taken idle_init rfl 0 address msg)).trans
      (reach_of_plain ?_ (run_returned idle_init 0 address msg 0 _)) <;> simp [Plain, AllocOk]
  have hhand : Reach step (fun s a => PeerOk a ∧ Serves serve s a) (init.asked 0 address)
      (init.handed 0 address msg) := by
    have hdeliver : Plain (.deliver 0) := by simp [Plain, AllocOk]
    have hok : StepsOk step (fun s a => PeerOk a ∧ Serves serve s a) (init.asked 0 address)
        [.answer 0 msg, .deliver 0] :=
      ⟨hanswer, fun t _ => ⟨hdeliver.peerOk serve t, fun _ _ => trivial⟩⟩
    exact .of_run hok (run_handed idle_init 0 address msg)
  exact ⟨_, _, hask.trans (hhand.trans hrest), rfl, rfl, rfl⟩

theorem readPayload_eq_of_data {a b : UInt32} (h : (readPayload a).2 = (readPayload b).2) :
    readPayload a = readPayload b := by
  refine (readPayload_eq_iff a b).mpr ?_
  rw [readPayload_eq, readPayload_eq] at h
  exact decimal_injective (List.append_cancel_right (List.cons.inj h).2)

/-- In the runs of `PeerRun`, a peer can serve the blocks in `S` of a disk exactly when the disk does not
tell apart two of them whose numbers have the same three leading digits. -/
theorem servable_iff (disk : Disk) (S : Set UInt32) :
    (∃ serve, ReadsDisk serve disk S) ↔
      ∀ a ∈ S, ∀ b ∈ S, leadingDigits 3 a.toNat = leadingDigits 3 b.toNat →
        disk a.toNat = disk b.toNat := by
  constructor
  · rintro ⟨serve, hserve⟩ a ha b hb hdigits
    have hread : ∀ address ∈ S, serve (readPayload address).2 = disk address.toNat := by
      intro address hS
      obtain ⟨s, c, hrun, hc, hk, hpc⟩ := exists_read serve address
      have hdisk := hserve s 0 c address hrun hc hk hS hpc
      rw [hrun.block_eq hc hk hpc] at hdisk
      exact Option.some.inj hdisk
    rw [← hread a ha, ← hread b hb, (readPayload_eq_iff a b).mpr hdigits]
  · intro h
    classical
    refine ⟨fun data => if hd : ∃ a ∈ S, (readPayload a).2 = data then disk hd.choose.toNat
      else Bytes.zero, ?_⟩
    intro s i c address hrun hc hk hS hpc
    have hd : ∃ a ∈ S, (readPayload a).2 = (readPayload address).2 := ⟨address, hS, rfl⟩
    rw [hrun.block_eq hc hk hpc, dif_pos hd]
    have hdigits := (readPayload_eq_iff _ _).mp (readPayload_eq_of_data hd.choose_spec.2)
    rw [h _ hd.choose_spec.1 address hS hdigits]

end Socket

end Sjfs
