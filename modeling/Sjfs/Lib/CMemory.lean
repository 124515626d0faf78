import Mathlib.Algebra.Group.Nat.Defs
import Mathlib.Data.List.Basic
import Mathlib.Data.Fin.Basic

/-!
# Bytes, C structs and kernel allocations

What the C code of a kernel module can say about memory, on a 64-bit little-endian machine.

* `Bytes n`: `n` bytes, of a block or of a record.
* `CType`, `offsetOf`, `structSize`: the layout of a C struct (LP64), padding included.
* `Buffer`: an allocated object. It has a size, and it also keeps what the code stores past its
  end: a copy that leaves the object is not stopped, it is recorded (`Memory.overruns`), as on
  the real machine the copy goes through and the damage shows later.
* `K γ`: code that allocates, copies and frees, over a further state `γ`. A copy through a null
  pointer ends the run with a `Fault`.
* `clean`: the result of a run in which no copy left its object.
-/

namespace Sjfs.Lib

/-! ## Bytes -/

/-- A sequence of `n` bytes. -/
abbrev Bytes (n : Nat) := Fin n → UInt8

namespace Bytes

variable {n : Nat}

def zero : Bytes n := fun _ => 0

/-- The byte at position `i`, `0` past the end. -/
def get (b : Bytes n) (i : Nat) : UInt8 := if h : i < n then b ⟨i, h⟩ else 0

/-- `b` with byte `i` replaced. A position past the end changes nothing. -/
def set (b : Bytes n) (i : Nat) (v : UInt8) : Bytes n := fun j => if j.val = i then v else b j

theorem get_of_lt (b : Bytes n) {i : Nat} (h : i < n) : b.get i = b ⟨i, h⟩ := dif_pos h

@[simp] theorem get_val (b : Bytes n) (i : Fin n) : b.get i.val = b i := b.get_of_lt i.isLt

@[simp] theorem get_zero (i : Nat) : (zero : Bytes n).get i = 0 := by
  unfold get zero
  split <;> rfl

theorem get_set (b : Bytes n) {i j : Nat} {v : UInt8} (h : j < n) :
    (b.set i v).get j = if j = i then v else b.get j := by
  rw [get_of_lt _ h, get_of_lt _ h]
  rfl

end Bytes

/-! ## Struct layout -/

/-- The C types that occur in the records. -/
inductive CType
  | uchar
  | ushort
  | uint
  | ulong
  | array (elem : CType) (n : Nat)
deriving DecidableEq, Repr

/-- `sizeof` on an LP64 machine. -/
def CType.size : CType → Nat
  | .uchar => 1
  | .ushort => 2
  | .uint => 4
  | .ulong => 8
  | .array elem n => elem.size * n

/-- `_Alignof` on an LP64 machine. -/
def CType.align : CType → Nat
  | .uchar => 1
  | .ushort => 2
  | .uint => 4
  | .ulong => 8
  | .array elem _ => elem.align

/-- The least multiple of `a` that is not below `n`. -/
def alignUp (n a : Nat) : Nat := (n + a - 1) / a * a

/-- A struct: its fields in the order of their declaration. -/
abbrev CStruct (φ : Type) := List (φ × CType)

variable {φ : Type}

/-- The offset just past the last field, when the fields start at `off`. -/
def fieldsEnd : Nat → CStruct φ → Nat
  | off, [] => off
  | off, (_, t) :: fs => fieldsEnd (alignUp off t.align + t.size) fs

/-- The alignment of a struct: the largest one of its fields. -/
def structAlign : CStruct φ → Nat
  | [] => 1
  | (_, t) :: fs => max t.align (structAlign fs)

/-- `sizeof` of a struct: the fields, and the padding behind the last one. -/
def structSize (fs : CStruct φ) : Nat := alignUp (fieldsEnd 0 fs) (structAlign fs)

/-- The offset of the field `f` when the fields start at `off`. -/
def offsetFrom [DecidableEq φ] (f : φ) : Nat → CStruct φ → Nat
  | off, [] => off
  | off, (g, t) :: fs =>
    if f = g then alignUp off t.align else offsetFrom f (alignUp off t.align + t.size) fs

/-- `offsetof`. -/
def offsetOf [DecidableEq φ] (fs : CStruct φ) (f : φ) : Nat := offsetFrom f 0 fs

/-- `sizeof` of the field `f`. -/
def fieldSize [DecidableEq φ] (f : φ) : CStruct φ → Nat
  | [] => 0
  | (g, t) :: fs => if f = g then t.size else fieldSize f fs

/-! ## Little-endian numbers -/

/-- The number in the `k` bytes of `mem` from `off` on. -/
def loadLE (mem : Nat → UInt8) (off : Nat) : Nat → Nat
  | 0 => 0
  | k + 1 => (mem off).toNat + 256 * loadLE mem (off + 1) k

/-- `mem` with the low `k` bytes of `v` stored from `off` on. -/
def storeLE (mem : Nat → UInt8) (off k v : Nat) : Nat → UInt8 :=
  fun i => if off ≤ i ∧ i < off + k then UInt8.ofNat (v / 256 ^ (i - off)) else mem i

theorem loadLE_zero {mem : Nat → UInt8} {off : Nat} (k : Nat)
    (h : ∀ i, off ≤ i → i < off + k → mem i = 0) : loadLE mem off k = 0 := by
  induction k generalizing off with
  | zero => rfl
  | succ k ih =>
    have hhead : mem off = 0 := h off (by omega) (by omega)
    have htail : loadLE mem (off + 1) k = 0 := ih fun i h1 h2 => h i (by omega) (by omega)
    simp [loadLE, hhead, htail]

theorem loadLE_congr {mem mem' : Nat → UInt8} {off : Nat} (k : Nat)
    (h : ∀ i, off ≤ i → i < off + k → mem i = mem' i) : loadLE mem off k = loadLE mem' off k := by
  induction k generalizing off with
  | zero => rfl
  | succ k ih =>
    have hhead := h off (by omega) (by omega)
    have htail : loadLE mem (off + 1) k = loadLE mem' (off + 1) k :=
      ih fun i h1 h2 => h i (by omega) (by omega)
    simp only [loadLE, hhead, htail]

/-- A run of bytes that are the low digits of `v` reads as `v`, cut to their number. -/
theorem loadLE_of_digits {mem : Nat → UInt8} {off v : Nat} (k : Nat)
    (h : ∀ i < k, mem (off + i) = UInt8.ofNat (v / 256 ^ i)) : loadLE mem off k = v % 256 ^ k := by
  induction k generalizing off v with
  | zero => simp [loadLE, Nat.mod_one]
  | succ k ih =>
    have hhead : (mem off).toNat = v % 256 := by
      have h0 := h 0 (by omega)
      rw [Nat.add_zero, Nat.pow_zero, Nat.div_one] at h0
      rw [h0, UInt8.toNat_ofNat']
    have htail : loadLE mem (off + 1) k = v / 256 % 256 ^ k := by
      refine ih fun i hi => ?_
      rw [show off + 1 + i = off + (i + 1) by omega, h (i + 1) (by omega), Nat.pow_succ',
        Nat.div_div_eq_div_mul]
    rw [loadLE, hhead, htail, Nat.pow_succ', Nat.mod_mul]

theorem loadLE_lt (mem : Nat → UInt8) (off k : Nat) : loadLE mem off k < 256 ^ k := by
  induction k generalizing off with
  | zero => simp [loadLE]
  | succ k ih =>
    have hhead := (mem off).toNat_lt
    have htail := ih (off + 1)
    rw [loadLE, Nat.pow_succ']
    omega

/-- What was stored is read back, as far as it is read. -/
theorem loadLE_storeLE {mem : Nat → UInt8} {off j k v : Nat} (h : j ≤ k) :
    loadLE (storeLE mem off k v) off j = v % 256 ^ j := by
  refine loadLE_of_digits j fun i hi => ?_
  unfold storeLE
  rw [if_pos (by omega), show off + i - off = i by omega]

/-- Bytes stored elsewhere do not change what is read. -/
theorem loadLE_storeLE_of_disjoint {mem : Nat → UInt8} {off off' j k v : Nat}
    (h : off + j ≤ off' ∨ off' + k ≤ off) :
    loadLE (storeLE mem off' k v) off j = loadLE mem off j := by
  refine loadLE_congr j fun i h1 h2 => ?_
  unfold storeLE
  exact if_neg (by omega)

/-- A number that is cut off at `len` reads as its first bytes. -/
theorem loadLE_cut (mem : Nat → UInt8) (off k len : Nat) :
    loadLE (fun i => if i < len then mem i else 0) off k = loadLE mem off (min k (len - off)) := by
  induction k generalizing off with
  | zero =>
    rw [Nat.zero_min]
    rfl
  | succ k ih =>
    rw [loadLE, ih]
    by_cases hlt : off < len
    · rw [if_pos hlt, show min (k + 1) (len - off) = min k (len - (off + 1)) + 1 by omega]
      rfl
    · rw [if_neg hlt, show min (k + 1) (len - off) = 0 by omega,
        show min k (len - (off + 1)) = 0 by omega]
      rfl

/-! ## Values of a struct -/

theorem CType.align_pos (t : CType) : 0 < t.align := by
  induction t with
  | array elem n ih => exact ih
  | _ => decide

theorem le_alignUp (n : Nat) {a : Nat} (h : 0 < a) : n ≤ alignUp n a := by
  unfold alignUp
  have hdiv := Nat.div_add_mod (n + a - 1) a
  have hmod := Nat.mod_lt (n + a - 1) h
  rw [Nat.mul_comm] at hdiv
  omega

/-- `mem` with the fields `fs`, which start at `off`, set to `values`. Each value is cut to the type of
its field, and the padding stays as it was. -/
def storeFrom (values : φ → Nat) : Nat → CStruct φ → (Nat → UInt8) → Nat → UInt8
  | _, [], mem => mem
  | off, (f, t) :: fs, mem =>
    storeFrom values (alignUp off t.align + t.size) fs
      (storeLE mem (alignUp off t.align) t.size (values f))

/-- A struct variable initialised with `values`, where `mem` is what was there before. -/
def storeStruct (fs : CStruct φ) (values : φ → Nat) (mem : Nat → UInt8) : Nat → UInt8 :=
  storeFrom values 0 fs mem

/-- The field `f` of the struct at the start of `mem`. -/
def loadField [DecidableEq φ] (fs : CStruct φ) (mem : Nat → UInt8) (f : φ) : Nat :=
  loadLE mem (offsetOf fs f) (fieldSize f fs)

/-- Fields are stored from their start on. -/
theorem loadLE_storeFrom_of_le (values : φ → Nat) (fs : CStruct φ) {off pos k : Nat}
    {mem : Nat → UInt8} (h : pos + k ≤ off) :
    loadLE (storeFrom values off fs mem) pos k = loadLE mem pos k := by
  induction fs generalizing off mem with
  | nil => rfl
  | cons p fs ih =>
    obtain ⟨f, t⟩ := p
    have hle := le_alignUp off t.align_pos
    rw [storeFrom, ih (by omega), loadLE_storeLE_of_disjoint (.inl (by omega))]

/-- A field reads as the value it was given, as far as it is read. -/
theorem loadLE_storeFrom [DecidableEq φ] (values : φ → Nat) {fs : CStruct φ} {f : φ}
    (hf : f ∈ fs.map Prod.fst) {off j : Nat} {mem : Nat → UInt8} (hj : j ≤ fieldSize f fs) :
    loadLE (storeFrom values off fs mem) (offsetFrom f off fs) j = values f % 256 ^ j := by
  induction fs generalizing off mem with
  | nil => cases hf
  | cons p fs ih =>
    obtain ⟨g, t⟩ := p
    rw [storeFrom, offsetFrom]
    rw [fieldSize] at hj
    by_cases hfg : f = g
    · subst hfg
      rw [if_pos rfl] at hj ⊢
      rw [loadLE_storeFrom_of_le values fs (by omega), loadLE_storeLE hj]
    · rw [if_neg hfg] at hj ⊢
      refine ih ?_ hj
      simpa [hfg] using hf

/-- A struct variable holds the values it was initialised with, cut to the types of its fields. -/
theorem loadField_storeStruct [DecidableEq φ] (values : φ → Nat) {fs : CStruct φ} {f : φ}
    (hf : f ∈ fs.map Prod.fst) (mem : Nat → UInt8) :
    loadField fs (storeStruct fs values mem) f = values f % 256 ^ fieldSize f fs :=
  loadLE_storeFrom values hf (Nat.le_refl _)

/-! ## Allocated objects -/

/-- An object returned by an allocation. `mem` also holds what was stored past `size`. -/
structure Buffer where
  id : Nat
  size : Nat
  mem : Nat → UInt8

/-- A copy of `len` bytes at `offset` that left the object `id`. -/
structure Overrun where
  id : Nat
  offset : Nat
  len : Nat
deriving DecidableEq, Repr

/-- The allocator's bookkeeping. `fails` says which allocations will fail and `junk` what a fresh
object holds; both are chosen by the environment, by the number of the allocation. -/
structure Memory where
  allocs : Nat
  fails : Nat → Bool
  junk : Nat → Nat → UInt8
  live : List Nat
  overruns : List Overrun

/-- A run that cannot go on. -/
inductive Fault
  | nullDereference
  | signedOverflow
deriving DecidableEq, Repr

/-- The memory and the rest of the state. -/
structure Machine (γ : Type) where
  mem : Memory
  world : γ

/-- Kernel code over the state `γ`. -/
abbrev K (γ : Type) := StateT (Machine γ) (Except Fault)

section Operations

variable {γ : Type}

/-- The next allocation of `size` bytes with contents `mem`; `none` is the null pointer. -/
def alloc (size : Nat) (contents : (Nat → UInt8) → Nat → UInt8) : K γ (Option Buffer) :=
  fun s =>
    let m := s.mem
    if m.fails m.allocs then .ok (none, { s with mem := { m with allocs := m.allocs + 1 } })
    else .ok (some ⟨m.allocs, size, contents (m.junk m.allocs)⟩,
      { s with mem := { m with allocs := m.allocs + 1, live := m.allocs :: m.live } })

/-- `kmalloc(size, flags)`: the contents are whatever the memory held. -/
def kmalloc (size : Nat) : K γ (Option Buffer) := alloc size id

/-- `kzalloc(size, flags)`: the object is cleared. -/
def kzalloc (size : Nat) : K γ (Option Buffer) :=
  alloc size fun junk i => if i < size then 0 else junk i

/-- An allocation made outside this code: only whether it succeeds matters here. -/
def attempt : K γ Bool :=
  fun s => .ok (!s.mem.fails s.mem.allocs, { s with mem := { s.mem with allocs := s.mem.allocs + 1 } })

/-- `kfree(p)`; freeing the null pointer does nothing. -/
def kfree (p : Option Buffer) : K γ Unit :=
  fun s => match p with
    | none => .ok ((), s)
    | some b => .ok ((), { s with mem := { s.mem with live := s.mem.live.erase b.id } })

/-- Notes a copy of `len` bytes at `offset` of `b` if it leaves `b`. -/
def touch (b : Buffer) (offset len : Nat) : K γ Unit :=
  fun s => if offset + len ≤ b.size then .ok ((), s)
    else .ok ((), { s with mem := { s.mem with overruns := ⟨b.id, offset, len⟩ :: s.mem.overruns } })

/-- The object behind a pointer. -/
def deref (p : Option Buffer) : K γ Buffer :=
  fun s => match p with
    | none => .error .nullDereference
    | some b => .ok (b, s)

/-- `b` with `len` bytes of `src`, from `srcOff` on, stored at `off`. -/
def Buffer.store (b : Buffer) (off : Nat) (src : Nat → UInt8) (srcOff len : Nat) : Buffer :=
  { b with mem := fun i => if off ≤ i ∧ i < off + len then src (srcOff + (i - off)) else b.mem i }

/-- `memcpy(dst + dstOff, src + srcOff, len)`: the object `dst` as the copy leaves it. -/
def memcpy (dst : Option Buffer) (dstOff : Nat) (src : Option Buffer) (srcOff len : Nat) :
    K γ Buffer := do
  let d ← deref dst
  let s ← deref src
  touch s srcOff len
  touch d dstOff len
  return d.store dstOff s.mem srcOff len

/-- A change of what is not memory. -/
def change (f : γ → γ) : K γ Unit := modify fun s => { s with world := f s.world }

/-- The field `f` of the struct an object holds. -/
def Buffer.field {φ : Type} [DecidableEq φ] (b : Buffer) (fs : CStruct φ) (f : φ) : Nat :=
  loadLE b.mem (offsetOf fs f) (fieldSize f fs)

/-- The first `n` bytes of an object. -/
def Buffer.bytes (b : Buffer) (n : Nat) : Bytes n := fun i => b.mem i.val

/-- How many copies left their object. -/
def Machine.strays (s : Machine γ) : Nat := s.mem.overruns.length

/-- The result of a run that ends without a fault and in which no copy left its object. -/
def clean {α : Type} (x : K γ α) (s : Machine γ) : Option (α × Machine γ) :=
  match x.run s with
  | .ok (a, t) => if t.strays = s.strays then some (a, t) else none
  | .error _ => none

/-- Every allocation from now on succeeds. -/
def Machine.Plenty (s : Machine γ) : Prop := ∀ k, s.mem.allocs ≤ k → s.mem.fails k = false

end Operations

/-! ## Runs, step by step

One equation for each operation, to be used from left to right through a sequence of them. -/

section Runs

variable {γ α β : Type} {s t : Machine γ}

/-- The state after an allocation that succeeded. -/
def Machine.grown (s : Machine γ) : Machine γ :=
  { s with mem := { s.mem with allocs := s.mem.allocs + 1, live := s.mem.allocs :: s.mem.live } }

/-- The state after a copy of `len` bytes at `offset` of `b`. -/
def Machine.noted (s : Machine γ) (b : Buffer) (offset len : Nat) : Machine γ :=
  if offset + len ≤ b.size then s
  else { s with mem := { s.mem with overruns := ⟨b.id, offset, len⟩ :: s.mem.overruns } }

theorem run_bind {x : K γ α} {f : α → K γ β} {a : α} (h : x.run s = .ok (a, t)) :
    (x >>= f).run s = (f a).run t := by
  rw [StateT.run_bind, h]
  rfl

theorem exists_of_run_bind {x : K γ α} {f : α → K γ β} {r : β × Machine γ}
    (h : (x >>= f).run s = .ok r) : ∃ a t, x.run s = .ok (a, t) ∧ (f a).run t = .ok r := by
  rw [StateT.run_bind] at h
  cases hx : x.run s with
  | error e =>
    rw [hx] at h
    cases h
  | ok p =>
    rw [hx] at h
    exact ⟨p.1, p.2, rfl, h⟩

theorem run_bind_error {x : K γ α} {f : α → K γ β} {e : Fault} (h : x.run s = .error e) :
    (x >>= f).run s = .error e := by
  rw [StateT.run_bind, h]
  rfl

theorem Machine.Plenty.grown (h : s.Plenty) : s.grown.Plenty :=
  fun k hk => h k (Nat.le_of_succ_le hk)

theorem Machine.Plenty.noted (h : s.Plenty) (b : Buffer) (offset len : Nat) :
    (s.noted b offset len).Plenty := by
  unfold Machine.noted
  split
  · exact h
  · exact fun k hk => h k hk

/-- The next allocation succeeds. -/
theorem Machine.Plenty.next (h : s.Plenty) : s.mem.fails s.mem.allocs = false := h _ (Nat.le_refl _)

theorem run_kmalloc_of_ok (h : s.mem.fails s.mem.allocs = false) (size : Nat) :
    (kmalloc size).run s = .ok (some ⟨s.mem.allocs, size, s.mem.junk s.mem.allocs⟩, s.grown) := by
  simp only [kmalloc, alloc, StateT.run, h]
  rfl

theorem run_kmalloc (h : s.Plenty) (size : Nat) :
    (kmalloc size).run s = .ok (some ⟨s.mem.allocs, size, s.mem.junk s.mem.allocs⟩, s.grown) :=
  run_kmalloc_of_ok h.next size

theorem run_kzalloc_of_ok (h : s.mem.fails s.mem.allocs = false) (size : Nat) :
    (kzalloc size).run s = .ok (some ⟨s.mem.allocs, size,
      fun i => if i < size then 0 else s.mem.junk s.mem.allocs i⟩, s.grown) := by
  simp only [kzalloc, alloc, StateT.run, h]
  rfl

theorem run_kzalloc (h : s.Plenty) (size : Nat) :
    (kzalloc size).run s = .ok (some ⟨s.mem.allocs, size,
      fun i => if i < size then 0 else s.mem.junk s.mem.allocs i⟩, s.grown) :=
  run_kzalloc_of_ok h.next size

/-- The state after an allocation that failed, or that was made outside this code. -/
def Machine.tried (s : Machine γ) : Machine γ :=
  { s with mem := { s.mem with allocs := s.mem.allocs + 1 } }

theorem run_kmalloc_of_fails (h : s.mem.fails s.mem.allocs = true) (size : Nat) :
    (kmalloc size).run s = .ok (none, s.tried) := by
  simp only [kmalloc, alloc, StateT.run, h]
  rfl

theorem run_kzalloc_of_fails (h : s.mem.fails s.mem.allocs = true) (size : Nat) :
    (kzalloc size).run s = .ok (none, s.tried) := by
  simp only [kzalloc, alloc, StateT.run, h]
  rfl

theorem Machine.Plenty.tried (h : s.Plenty) : s.tried.Plenty :=
  fun k hk => h k (Nat.le_of_succ_le hk)

theorem run_attempt (h : s.Plenty) : attempt.run s = .ok (true, s.tried) := by
  simp only [attempt, StateT.run, h.next]
  rfl

theorem run_attempt_eq :
    attempt.run s = .ok (!s.mem.fails s.mem.allocs, s.tried) := rfl

theorem run_get : (get : K γ (Machine γ)).run s = .ok (s, s) := rfl

theorem run_modify (f : Machine γ → Machine γ) : (modify f : K γ PUnit).run s = .ok ((), f s) := rfl

theorem run_change (f : γ → γ) :
    (change f).run s = .ok ((), { s with world := f s.world }) := rfl

theorem run_touch (b : Buffer) (offset len : Nat) :
    (touch b offset len).run s = .ok ((), s.noted b offset len) := by
  unfold touch Machine.noted
  simp only [StateT.run]
  split <;> rfl

theorem run_deref (b : Buffer) : (deref (some b)).run s = .ok (b, s) := rfl

theorem run_deref_null : (deref none).run s = .error .nullDereference := rfl

theorem run_kfree (b : Buffer) : (kfree (some b)).run s =
    .ok ((), { s with mem := { s.mem with live := s.mem.live.erase b.id } }) := rfl

theorem run_memcpy (d b : Buffer) (dstOff srcOff len : Nat) :
    (memcpy (some d) dstOff (some b) srcOff len).run s =
      .ok (d.store dstOff b.mem srcOff len, (s.noted b srcOff len).noted d dstOff len) := by
  unfold memcpy
  rw [run_bind (run_deref d), run_bind (run_deref b), run_bind (run_touch ..),
    run_bind (run_touch ..)]
  rfl

theorem run_memcpy_null {src : Option Buffer} {dstOff srcOff len : Nat} :
    (memcpy none dstOff src srcOff len).run s = .error .nullDereference := rfl

theorem Machine.noted_of_le {b : Buffer} {offset len : Nat} (h : offset + len ≤ b.size) :
    s.noted b offset len = s := if_pos h

theorem Machine.noted_of_lt {b : Buffer} {offset len : Nat} (h : b.size < offset + len) :
    s.noted b offset len =
      { s with mem := { s.mem with overruns := ⟨b.id, offset, len⟩ :: s.mem.overruns } } :=
  if_neg (by omega)

@[simp] theorem Machine.noted_world (s : Machine γ) (b : Buffer) (offset len : Nat) :
    (s.noted b offset len).world = s.world := by
  unfold Machine.noted
  split <;> rfl

@[simp] theorem Machine.noted_allocs (s : Machine γ) (b : Buffer) (offset len : Nat) :
    (s.noted b offset len).mem.allocs = s.mem.allocs := by
  unfold Machine.noted
  split <;> rfl

@[simp] theorem Machine.noted_fails (s : Machine γ) (b : Buffer) (offset len : Nat) :
    (s.noted b offset len).mem.fails = s.mem.fails := by
  unfold Machine.noted
  split <;> rfl

@[simp] theorem Machine.noted_live (s : Machine γ) (b : Buffer) (offset len : Nat) :
    (s.noted b offset len).mem.live = s.mem.live := by
  unfold Machine.noted
  split <;> rfl

/-! What is not part of the memory, an allocation or a copy leaves alone. -/

theorem world_of_run_kmalloc {size : Nat} {p : Option Buffer}
    (h : (kmalloc size).run s = .ok (p, t)) : t.world = s.world := by
  simp only [kmalloc, alloc, StateT.run] at h
  split at h <;> cases h <;> rfl

theorem world_of_run_memcpy {dst src : Option Buffer} {dstOff srcOff len : Nat} {b : Buffer}
    (h : (memcpy dst dstOff src srcOff len).run s = .ok (b, t)) : t.world = s.world := by
  cases dst with
  | none => cases h
  | some d =>
    cases src with
    | none => cases h
    | some c =>
      rw [run_memcpy] at h
      cases h
      simp

theorem Machine.strays_noted (s : Machine γ) (b : Buffer) (offset len : Nat) :
    (s.noted b offset len).strays = s.strays + if offset + len ≤ b.size then 0 else 1 := by
  unfold Machine.noted Machine.strays
  split <;> rfl

theorem clean_of_run {x : K γ α} {a : α} (h : x.run s = .ok (a, t))
    (hstrays : t.strays = s.strays) : clean x s = some (a, t) := by
  unfold clean
  rw [h]
  exact if_pos hstrays

theorem clean_eq_some_iff {x : K γ α} {a : α} :
    clean x s = some (a, t) ↔ x.run s = .ok (a, t) ∧ t.strays = s.strays := by
  constructor
  · intro h
    unfold clean at h
    cases hrun : x.run s with
    | error e =>
      rw [hrun] at h
      cases h
    | ok p =>
      rw [hrun] at h
      obtain ⟨hstrays, ⟨⟩⟩ := Option.ite_none_right_eq_some.mp h
      exact ⟨rfl, hstrays⟩
  · rintro ⟨hrun, hstrays⟩
    exact clean_of_run hrun hstrays

theorem clean_of_strays {x : K γ α} {a : α} (h : x.run s = .ok (a, t))
    (hmore : s.strays < t.strays) : clean x s = none := by
  unfold clean
  rw [h]
  exact if_neg (Nat.ne_of_gt hmore)

/-- A run of `x` from `s` ends without a fault, and no copy of it leaves its object. -/
def StaysInside (x : K γ α) (s : Machine γ) : Prop := ∃ a t, clean x s = some (a, t)

theorem staysInside_iff_of_run {x : K γ α} {a : α} (h : x.run s = .ok (a, t)) :
    StaysInside x s ↔ t.strays = s.strays := by
  constructor
  · rintro ⟨b, u, hclean⟩
    obtain ⟨hrun, hstrays⟩ := clean_eq_some_iff.mp hclean
    rw [h] at hrun
    cases hrun
    exact hstrays
  · intro hstrays
    exact ⟨a, t, clean_of_run h hstrays⟩

theorem not_staysInside_of_fault {x : K γ α} {e : Fault} (h : x.run s = .error e) :
    ¬ StaysInside x s := by
  rintro ⟨a, t, hclean⟩
  rw [(clean_eq_some_iff.mp hclean).1] at h
  cases h

/-! What has left its object is not forgotten. -/

/-- No run of `x` takes back a stray copy. -/
def Grows (x : K γ α) : Prop := ∀ ⦃s a t⦄, x.run s = .ok (a, t) → s.strays ≤ t.strays

theorem Grows.pure (a : α) : Grows (Pure.pure a : K γ α) := by
  rintro s b t ⟨⟩
  exact Nat.le_refl _

theorem Grows.bind {x : K γ α} {f : α → K γ β} (hx : Grows x) (hf : ∀ a, Grows (f a)) :
    Grows (x >>= f) := by
  intro s b t h
  obtain ⟨a, u, hu, hrest⟩ := exists_of_run_bind h
  exact Nat.le_trans (hx hu) (hf a hrest)

theorem grows_get : Grows (get : K γ (Machine γ)) := by
  rintro s a t ⟨⟩
  exact Nat.le_refl _

theorem grows_modify {f : Machine γ → Machine γ} (h : ∀ s, (f s).mem = s.mem) :
    Grows (modify f : K γ PUnit) := by
  rintro s a t ⟨⟩
  simp only [Machine.strays, h]
  exact Nat.le_refl _

theorem grows_change (f : γ → γ) : Grows (change f) := grows_modify fun _ => rfl

theorem grows_touch (b : Buffer) (offset len : Nat) : Grows (touch b offset len : K γ Unit) := by
  intro s a t h
  rw [run_touch] at h
  cases h
  rw [Machine.strays_noted]
  exact Nat.le_add_right ..

theorem grows_deref (p : Option Buffer) : Grows (deref p : K γ Buffer) := by
  intro s a t h
  cases p with
  | none => cases h
  | some b =>
    rw [run_deref] at h
    cases h
    exact Nat.le_refl _

theorem grows_kzalloc (size : Nat) : Grows (kzalloc size : K γ (Option Buffer)) := by
  intro s a t h
  simp only [kzalloc, alloc, StateT.run] at h
  split at h <;> cases h <;> exact Nat.le_refl _

theorem grows_memcpy (dst : Option Buffer) (dstOff : Nat) (src : Option Buffer) (srcOff len : Nat) :
    Grows (memcpy dst dstOff src srcOff len : K γ Buffer) :=
  (grows_deref dst).bind fun d => (grows_deref src).bind fun b =>
    (grows_touch b srcOff len).bind fun _ => (grows_touch d dstOff len).bind fun _ => .pure _

/-- A run that starts outside an object is not clean. -/
theorem clean_touch_bind_of_lt {b : Buffer} {offset len : Nat} {f : Unit → K γ α}
    (h : b.size < offset + len) (hf : Grows (f ())) : clean (touch b offset len >>= f) s = none := by
  have hnoted := Machine.strays_noted s b offset len
  rw [if_neg (Nat.not_le_of_lt h)] at hnoted
  unfold clean
  rw [run_bind (run_touch ..)]
  cases hrun : (f ()).run (s.noted b offset len) with
  | error e => rfl
  | ok p =>
    have hle := hf hrun
    exact if_neg (by omega)

@[simp] theorem Buffer.store_size (b : Buffer) (off : Nat) (src : Nat → UInt8) (srcOff len : Nat) :
    (b.store off src srcOff len).size = b.size := rfl

/-- The bytes of the copy. -/
theorem Buffer.store_mem (b : Buffer) {off len i : Nat} (src : Nat → UInt8) (srcOff : Nat)
    (h : off ≤ i) (h' : i < off + len) :
    (b.store off src srcOff len).mem i = src (srcOff + (i - off)) := if_pos ⟨h, h'⟩

/-- The other bytes stay. -/
theorem Buffer.store_mem_of_not (b : Buffer) {off len i : Nat} (src : Nat → UInt8) (srcOff : Nat)
    (h : ¬ (off ≤ i ∧ i < off + len)) : (b.store off src srcOff len).mem i = b.mem i := if_neg h

/-! ## The allocations of a run

Which of the allocations from now on fail is fixed in the state, so a run can be told apart by the
numbers of those that do. -/

/-- Allocation `k`, counted from now, will fail. -/
def Machine.failsAt (s : Machine γ) (k : Nat) : Bool := s.mem.fails (s.mem.allocs + k)

theorem Machine.Plenty.failsAt (h : s.Plenty) (k : Nat) : s.failsAt k = false :=
  h _ (Nat.le_add_right ..)

/-- From `s` to `t`, `n` allocations were tried, and the objects `ids` have been allocated and not
freed. -/
structure Machine.Allocated (s t : Machine γ) (n : Nat) (ids : List Nat) : Prop where
  allocs : t.mem.allocs = s.mem.allocs + n
  fails : t.mem.fails = s.mem.fails
  live : t.mem.live = ids ++ s.mem.live

namespace Machine.Allocated

variable {u : Machine γ} {n m : Nat} {ids ids' : List Nat}

theorem failsAt (h : s.Allocated t n ids) (k : Nat) : t.failsAt k = s.failsAt (n + k) := by
  unfold Machine.failsAt
  rw [h.allocs, h.fails, Nat.add_assoc]

theorem next (h : s.Allocated t n ids) : t.mem.fails t.mem.allocs = s.failsAt n := h.failsAt 0

theorem plenty (h : s.Allocated t n ids) (hs : s.Plenty) : t.Plenty := by
  intro k hk
  rw [h.fails]
  exact hs k (Nat.le_trans (h.allocs ▸ Nat.le_add_right ..) hk)

theorem trans (h : s.Allocated t n ids) (h' : t.Allocated u m ids') :
    s.Allocated u (n + m) (ids' ++ ids) where
  allocs := by rw [h'.allocs, h.allocs, Nat.add_assoc]
  fails := h'.fails.trans h.fails
  live := by rw [h'.live, h.live, List.append_assoc]

end Machine.Allocated

theorem Machine.allocated_grown (s : Machine γ) : s.Allocated s.grown 1 [s.mem.allocs] :=
  ⟨rfl, rfl, rfl⟩

theorem Machine.allocated_tried (s : Machine γ) : s.Allocated s.tried 1 [] := ⟨rfl, rfl, rfl⟩

end Runs

end Sjfs.Lib
