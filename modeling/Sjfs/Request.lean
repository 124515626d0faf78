import Sjfs.Blocks
import Sjfs.Lib.Printf
import Mathlib.Data.Set.Function

/-!
# The READ request

`sjfs_read_block` prints the opcode and the block number into the five bytes of `data`
(`"%c%u"`) and sends what was printed, with its NUL. Five bytes hold the opcode, the NUL and three
digits.

Results:
1. `readPayload_eq`: the bytes that are sent, for every block number.
2. `readPayload_eq_iff`: two requests are the same exactly when the block numbers have the same
   leading three digits.
3. `readPayload_identifies_iff`: when a request identifies its block;
   `bitmap_requests_collide`: the module's own requests for the first two data bitmap blocks are
   the same message.
-/

namespace Sjfs

open Lib

/-- The body of the request `sjfs_read_block(address)` sends: `m->len`, and the `m->len` bytes
behind the header. -/
def readPayload (address : UInt32) : Nat × List UInt8 :=
  let printed := scnprintf 5 (opcodeRead :: decimal address.toNat)
  let len := printed.2 + 1
  (len, printed.1.take len)

/-- The text `"%c%u"` is cut after the opcode and three digits, and the NUL follows. -/
theorem readPayload_eq (address : UInt32) :
    readPayload address =
      ((decimal (leadingDigits 3 address.toNat)).length + 2,
        opcodeRead :: decimal (leadingDigits 3 address.toNat) ++ [0]) := by
  have hcut := take_decimal (k := 3) (by decide) address.toNat
  have hlen : min (decimal address.toNat).length 3 =
      (decimal (leadingDigits 3 address.toNat)).length := by
    rw [← hcut, List.length_take, Nat.min_comm]
  have hprint : scnprintf 5 (opcodeRead :: decimal address.toNat) =
      (opcodeRead :: decimal (leadingDigits 3 address.toNat) ++ [0],
        (decimal (leadingDigits 3 address.toNat)).length + 1) := by
    simp only [scnprintf, Nat.reduceEqDiff, ↓reduceIte, Nat.reduceSub, List.take_succ_cons, hcut,
      List.length_cons, Prod.mk.injEq, true_and]
    omega
  unfold readPayload
  rw [hprint]
  simp only [Prod.mk.injEq]
  refine ⟨trivial, List.take_of_length_le ?_⟩
  simp

/-- Two requests are the same message exactly when the leading three digits of the block numbers
agree. -/
theorem readPayload_eq_iff (a b : UInt32) :
    readPayload a = readPayload b ↔ leadingDigits 3 a.toNat = leadingDigits 3 b.toNat := by
  rw [readPayload_eq, readPayload_eq]
  constructor
  · intro h
    have hdata := (Prod.mk.inj h).2
    have hdigits := List.append_cancel_right (List.cons.inj hdata).2
    exact decimal_injective hdigits
  · intro h
    rw [h]

/-- A peer that is asked for addresses of `S` only can recover each from its request exactly when
no two of them have the same leading three digits. -/
theorem recoverable_iff (S : Set UInt32) :
    (∃ recover : Nat × List UInt8 → UInt32, ∀ a ∈ S, recover (readPayload a) = a) ↔
      Set.InjOn (fun a : UInt32 => leadingDigits 3 a.toNat) S := by
  constructor
  · rintro ⟨recover, hrec⟩ a ha b hb hab
    calc a = recover (readPayload a) := (hrec a ha).symm
      _ = recover (readPayload b) := by rw [(readPayload_eq_iff a b).mpr hab]
      _ = b := hrec b hb
  · intro hinj
    have hpay : Set.InjOn readPayload S :=
      fun a ha b hb hab => hinj ha hb ((readPayload_eq_iff a b).mp hab)
    exact ⟨Function.invFunOn readPayload S, fun a ha => hpay.leftInvOn_invFunOn ha⟩

/-- The requests for two distinct addresses differ exactly when the addresses differ in their
leading three digits; and on a set of addresses that is what the peer needs to recover the
address. -/
theorem readPayload_identifies_iff (a b : UInt32) (S : Set UInt32) :
    ((a ≠ b → readPayload a ≠ readPayload b) ↔
      (a = b ∨ leadingDigits 3 a.toNat ≠ leadingDigits 3 b.toNat)) ∧
    ((∃ recover : Nat × List UInt8 → UInt32, ∀ a ∈ S, recover (readPayload a) = a) ↔
      Set.InjOn (fun a : UInt32 => leadingDigits 3 a.toNat) S) := by
  refine ⟨?_, recoverable_iff S⟩
  rw [ne_eq, ne_eq, ne_eq, ← readPayload_eq_iff a b]
  exact Decidable.imp_iff_not_or.trans (or_congr_left Decidable.not_not)

/-- The requests for the first two data bitmap blocks, 8194 and 8195, are the same message. -/
theorem bitmap_requests_collide :
    ¬ ∀ a b : UInt32, a ≠ b → readPayload a ≠ readPayload b := by
  intro h
  exact h 8194 8195 (by decide) (by decide)

end Sjfs
