import Mathlib.Algebra.Group.Int.Defs
import Mathlib.Data.List.TakeWhile

/-!
# Reading a number off a text

`strtol` of the C library for base 10 and a `long` of 64 bits, in the "C" locale. White space is
skipped, then comes an optional sign and as many digits as there are. What follows is handed back,
and a value that does not fit is clipped, with `errno` set to `ERANGE`. A text without digits gives 0.

`DecimalText s v` is the grammar for whole texts, and `decimalText_iff` compares the two: `strtol`
has read a decimal integer exactly when it has found a digit and nothing is left over.
-/

namespace Sjfs.Lib

/-- `isspace`: blank, tab, line feed, vertical tab, form feed, carriage return. -/
def isSpace (c : Char) : Bool := c == ' ' || (9 ≤ c.toNat && c.toNat ≤ 13)

/-- The number a string of decimal digits stands for. -/
def digitsValue (digits : List Char) : Nat :=
  digits.foldl (fun v c => 10 * v + (c.toNat - '0'.toNat)) 0

/-- A sign and the digits behind it, and the text that is left. -/
structure Numeral where
  negative : Bool
  digits : List Char
  rest : List Char
  deriving DecidableEq, Repr

def Numeral.value (n : Numeral) : Int :=
  if n.negative then - (digitsValue n.digits : Int) else digitsValue n.digits

/-- An optional sign: whether it is a minus, and the text behind it. -/
def readSign : List Char → Bool × List Char
  | '+' :: t => (false, t)
  | '-' :: t => (true, t)
  | t => (false, t)

def readNumeral (s : List Char) : Numeral :=
  let (negative, t) := readSign (s.dropWhile isSpace)
  ⟨negative, t.takeWhile Char.isDigit, t.dropWhile Char.isDigit⟩

def longMin : Int := - 2 ^ 63

def longMax : Int := 2 ^ 63 - 1

/-- What `strtol` leaves: its result, the text behind the end pointer, and whether it has set `errno`
to `ERANGE`. -/
structure StrtolResult where
  value : Int
  endptr : List Char
  erange : Bool
  deriving DecidableEq, Repr

/-- `strtol(s, &end, 10)`. -/
def strtol (s : List Char) : StrtolResult :=
  let n := readNumeral s
  if n.digits = [] then ⟨0, s, false⟩
  else if n.value < longMin then ⟨longMin, n.rest, true⟩
  else if longMax < n.value then ⟨longMax, n.rest, true⟩
  else ⟨n.value, n.rest, false⟩

/-- The whole of `s` is a decimal integer with optional white space and sign in front, and `v` is the
integer. -/
def DecimalText (s : List Char) (v : Int) : Prop :=
  ∃ spaces sign digits, s = spaces ++ (sign ++ digits) ∧
    (∀ c ∈ spaces, isSpace c = true) ∧ digits ≠ [] ∧ (∀ c ∈ digits, c.isDigit = true) ∧
    ((sign = [] ∨ sign = ['+']) ∧ v = digitsValue digits ∨
      sign = ['-'] ∧ v = - (digitsValue digits : Int))

namespace StrtolLemmas

theorem isSpace_of_isDigit {c : Char} (h : c.isDigit = true) : isSpace c = false := by
  simp only [Char.isDigit, Bool.and_eq_true, decide_eq_true_eq, UInt32.le_iff_toNat_le] at h
  have hblank : c ≠ ' ' := by
    rintro rfl
    exact absurd h.1 (by decide)
  have hlow : 48 ≤ c.toNat := h.1
  simp [isSpace, hblank]
  omega

/-- A text that starts with a digit has no sign. -/
theorem readSign_of_digits {digits : List Char} (hne : digits ≠ [])
    (h : ∀ c ∈ digits, c.isDigit = true) : readSign digits = (false, digits) := by
  cases digits with
  | nil => exact absurd rfl hne
  | cons c t =>
    have hc := h c List.mem_cons_self
    unfold readSign
    split
    next heq =>
      cases heq
      exact absurd hc (by decide)
    next heq =>
      cases heq
      exact absurd hc (by decide)
    next => rfl

theorem readSign_cases (t : List Char) :
    ∃ sign, t = sign ++ (readSign t).2 ∧
      ((sign = [] ∨ sign = ['+']) ∧ (readSign t).1 = false ∨
        sign = ['-'] ∧ (readSign t).1 = true) := by
  unfold readSign
  split
  · exact ⟨['+'], rfl, .inl ⟨.inr rfl, rfl⟩⟩
  · exact ⟨['-'], rfl, .inr ⟨rfl, rfl⟩⟩
  · exact ⟨[], rfl, .inl ⟨.inl rfl, rfl⟩⟩

/-- White space is skipped up to the first character that is none. -/
theorem dropWhile_spaces {spaces t : List Char} (hspaces : ∀ c ∈ spaces, isSpace c = true)
    (ht : ∀ c ∈ t.head?, isSpace c = false) : (spaces ++ t).dropWhile isSpace = t := by
  rw [List.dropWhile_append_of_pos hspaces]
  cases t with
  | nil => rfl
  | cons c t => exact List.dropWhile_cons_of_neg (by simp [ht c rfl])

/-- Where only digits follow the sign, they are read to the end. -/
theorem readNumeral_of_sign {s digits : List Char} {negative : Bool}
    (hsign : readSign (s.dropWhile isSpace) = (negative, digits))
    (hdigits : ∀ c ∈ digits, c.isDigit = true) : readNumeral s = ⟨negative, digits, []⟩ := by
  have htake : digits.takeWhile Char.isDigit = digits := List.takeWhile_eq_self_iff.mpr hdigits
  have hdrop : digits.dropWhile Char.isDigit = [] := List.dropWhile_eq_nil_iff.mpr hdigits
  simp only [readNumeral, hsign, htake, hdrop]

end StrtolLemmas

open StrtolLemmas

/-- A decimal integer is read to its end. -/
theorem readNumeral_of_decimalText {s : List Char} {v : Int} (h : DecimalText s v) :
    (readNumeral s).digits ≠ [] ∧ (readNumeral s).rest = [] ∧ (readNumeral s).value = v := by
  obtain ⟨spaces, sign, digits, rfl, hspaces, hne, hdigits, hsign⟩ := h
  have hhead : ∀ c ∈ digits.head?, isSpace c = false := fun c hc =>
    isSpace_of_isDigit (hdigits c (List.mem_of_mem_head? hc))
  rcases hsign with ⟨rfl | rfl, rfl⟩ | ⟨rfl, rfl⟩
  · have hskip : (spaces ++ ([] ++ digits)).dropWhile isSpace = digits :=
      dropWhile_spaces hspaces hhead
    rw [readNumeral_of_sign (by rw [hskip, readSign_of_digits hne hdigits]) hdigits]
    exact ⟨hne, rfl, rfl⟩
  · have hskip : (spaces ++ (['+'] ++ digits)).dropWhile isSpace = '+' :: digits :=
      dropWhile_spaces hspaces (by rintro c ⟨⟩; rfl)
    rw [readNumeral_of_sign (show _ = (false, digits) by rw [hskip, readSign]) hdigits]
    exact ⟨hne, rfl, rfl⟩
  · have hskip : (spaces ++ (['-'] ++ digits)).dropWhile isSpace = '-' :: digits :=
      dropWhile_spaces hspaces (by rintro c ⟨⟩; rfl)
    rw [readNumeral_of_sign (show _ = (true, digits) by rw [hskip, readSign]) hdigits]
    exact ⟨hne, rfl, rfl⟩

theorem decimalText_of_readNumeral {s : List Char} (hne : (readNumeral s).digits ≠ [])
    (hrest : (readNumeral s).rest = []) : DecimalText s (readNumeral s).value := by
  obtain ⟨sign, ht, hsign⟩ := readSign_cases (s.dropWhile isSpace)
  have hdigits : (readSign (s.dropWhile isSpace)).2 = (readNumeral s).digits := by
    have happend := List.takeWhile_append_dropWhile (p := Char.isDigit)
      (l := (readSign (s.dropWhile isSpace)).2)
    rw [show (readSign (s.dropWhile isSpace)).2.dropWhile Char.isDigit = [] from hrest,
      List.append_nil] at happend
    exact happend.symm
  refine ⟨s.takeWhile isSpace, sign, (readNumeral s).digits, ?_, ?_, hne, ?_, ?_⟩
  · rw [← hdigits, ← ht, List.takeWhile_append_dropWhile]
  · exact fun c hc => List.mem_takeWhile_imp hc
  · exact fun c hc => List.mem_takeWhile_imp hc
  · have hnegative : (readNumeral s).negative = (readSign (s.dropWhile isSpace)).1 := rfl
    rcases hsign with ⟨hplus, hpos⟩ | ⟨hminus, hneg⟩
    · exact .inl ⟨hplus, by rw [Numeral.value, hnegative, hpos]; rfl⟩
    · exact .inr ⟨hminus, by rw [Numeral.value, hnegative, hneg]; rfl⟩

/-- `strtol` reads a decimal integer exactly when it finds a digit and leaves nothing over. -/
theorem decimalText_iff {s : List Char} {v : Int} :
    DecimalText s v ↔
      (readNumeral s).digits ≠ [] ∧ (readNumeral s).rest = [] ∧ (readNumeral s).value = v := by
  refine ⟨readNumeral_of_decimalText, ?_⟩
  rintro ⟨hne, hrest, rfl⟩
  exact decimalText_of_readNumeral hne hrest

/-- Every number has a text. -/
theorem decimalText_toDigits (n : Nat) : DecimalText (Nat.toDigits 10 n) n := by
  refine ⟨[], [], Nat.toDigits 10 n, rfl, by simp, Nat.toDigits_ne_nil, ?_, .inl ⟨.inl rfl, ?_⟩⟩
  · intro c hc
    exact Nat.isDigit_of_mem_toDigits (by decide) (by decide) hc
  · have hread : digitsValue (Nat.toDigits 10 n) = n := Nat.ofDigitChars_ten_toDigits
    rw [hread]

end Sjfs.Lib
