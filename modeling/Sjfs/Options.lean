import Sjfs.Blocks
import Sjfs.Lib.Strtol

/-!
# The options of the helper

The part of `main` of `user_space_application/main.c` from the `getopt` loop to the call of `format`,
with `MIN_BLOCKS` read as `SJFS_MIN_BLOCKS`. The input is what `getopt` returns, call after call, and
`argv[optind]` when there is one.

The `long` of `strtol` is stored in the `int` `size` before it is compared, and the end pointer goes
to `optarg`, where nobody looks at it.

Results:
1. `optionAccepted_iff`: which texts the check after `strtol` lets through.
2. `formatted_size_iff`: so `format` can be called with every size from `MIN_BLOCKS` to the largest
   `int`, and with no other.
3. `options_mean_iff`: the sizes that `format` is called with are the ones asked for exactly when no
   accepted text has characters behind its number or a number beyond an `int`.
-/

namespace Sjfs

open Lib

/-! ## The code -/

/-- What one call of `getopt(argc, argv, "n:")` returns before it returns -1: `'n'` with `optarg` set,
or `'?'`. -/
inductive Getopt where
  | n (optarg : List Char)
  | other
  deriving DecidableEq, Repr

/-- How `main` goes on: the usage text and `exit(EXIT_FAILURE)`, a call of `format`, or neither. -/
inductive Started where
  | usage
  | format (filename : String) (size : Int)
  | plain (filename : String)
  deriving DecidableEq, Repr

/-- A `long` stored in an `int`: its low 32 bits, with the sign. -/
def toInt (v : Int) : Int := v.bmod (2 ^ 32)

/-- The check of case `'n'`. Before the loop only `open` and `flock` have set `errno`, and neither
sets `ERANGE`; inside it, `main` exits once it is set. -/
def Getopt.accepted : Getopt → Bool
  | .n optarg => !((strtol optarg).erange || toInt (strtol optarg).value < minBlocks)
  | .other => false

/-- The `getopt` loop: the final `size`, or `none` when it exits. -/
def getoptLoop : List Getopt → Int → Option Int
  | [], size => some size
  | .n optarg :: opts, _ =>
    if (Getopt.n optarg).accepted then getoptLoop opts (toInt (strtol optarg).value) else none
  | .other :: _, _ => none

/-- `main` up to the call of `format`. `operand` is `argv[optind]`, if `optind < argc`. -/
def mainOptions (opts : List Getopt) (operand : Option String) : Started :=
  match getoptLoop opts 0, operand with
  | none, _ => .usage
  | some _, none => .usage
  | some size, some filename => if size ≠ 0 then .format filename size else .plain filename

/-! ## The loop -/

theorem getoptLoop_eq_none_iff {opts : List Getopt} {size : Int} :
    getoptLoop opts size = none ↔ ∃ o ∈ opts, o.accepted = false := by
  induction opts generalizing size with
  | nil => simp [getoptLoop]
  | cons o opts ih =>
    cases o with
    | n optarg => cases h : (Getopt.n optarg).accepted <;> simp [getoptLoop, h, ih]
    | other => simp [getoptLoop, Getopt.accepted]

/-- The last option decides. -/
theorem getoptLoop_last {opts : List Getopt} {optarg : List Char} {size : Int}
    (h : ∀ o ∈ opts ++ [.n optarg], o.accepted = true) :
    getoptLoop (opts ++ [.n optarg]) size = some (toInt (strtol optarg).value) := by
  induction opts generalizing size with
  | nil => simp [getoptLoop, h (.n optarg) List.mem_cons_self]
  | cons o opts ih =>
    have ho : o.accepted = true := h o List.mem_cons_self
    cases o with
    | n a =>
      rw [List.cons_append, getoptLoop, if_pos ho]
      exact ih fun o' ho' => h o' (List.mem_cons_of_mem _ ho')
    | other => cases ho

/-! ## One option -/

/-- The number fits in an `int`. -/
def FitsInt (v : Int) : Prop := -2 ^ 31 ≤ v ∧ v < 2 ^ 31

theorem toInt_of_fits {v : Int} (h : FitsInt v) : toInt v = v := by
  unfold FitsInt at h
  exact Int.bmod_eq_of_le (by omega) (by omega)

/-- The check lets a text through when it starts with a number of a `long` whose low 32 bits are at
least `MIN_BLOCKS`. -/
theorem optionAccepted_iff {optarg : List Char} :
    (Getopt.n optarg).accepted = true ↔
      (readNumeral optarg).digits ≠ [] ∧ longMin ≤ (readNumeral optarg).value ∧
      (readNumeral optarg).value ≤ longMax ∧ minBlocks ≤ toInt (readNumeral optarg).value := by
  simp only [Getopt.accepted, strtol]
  split
  next hnil => simp [hnil, minBlocks, toInt]
  next hne =>
  split
  next hlow =>
    simp only [Bool.true_or, Bool.not_true, Bool.false_eq_true, false_iff]
    omega
  next hlow =>
  split
  next hhigh =>
    simp only [Bool.true_or, Bool.not_true, Bool.false_eq_true, false_iff]
    omega
  next hhigh =>
    simp only [Bool.false_or, Bool.not_eq_true', decide_eq_false_iff_not, not_lt, not_false_eq_true,
      hne, ne_eq, true_and]
    omega

/-- Where the number fits in an `int`, it is what `size` holds. -/
theorem size_of_accepted {optarg : List Char} (h : (Getopt.n optarg).accepted = true)
    (hfits : FitsInt (readNumeral optarg).value) :
    toInt (strtol optarg).value = (readNumeral optarg).value ∧
      minBlocks ≤ (readNumeral optarg).value := by
  obtain ⟨hne, hlow, hhigh, hmin⟩ := optionAccepted_iff.mp h
  have hvalue : (strtol optarg).value = (readNumeral optarg).value := by
    simp only [strtol, if_neg hne, if_neg (Int.not_lt.mpr hlow), if_neg (Int.not_lt.mpr hhigh)]
  rw [toInt_of_fits hfits] at hmin
  rw [hvalue, toInt_of_fits hfits]
  exact ⟨rfl, hmin⟩

/-! ## The sizes that reach `format` -/

theorem toInt_lt (v : Int) : toInt v < 2 ^ 31 := by
  have h := Int.bmod_lt (x := v) (m := 2 ^ 32) (by decide)
  unfold toInt
  omega

/-- The loop leaves the size as it was or sets it to one that the check lets through. -/
theorem getoptLoop_bounds {opts : List Getopt} {size size' : Int}
    (h : getoptLoop opts size = some size') :
    size' = size ∨ (minBlocks ≤ size' ∧ size' < 2 ^ 31) := by
  induction opts generalizing size with
  | nil =>
    cases h
    exact .inl rfl
  | cons o opts ih =>
    cases o with
    | n optarg =>
      rw [getoptLoop] at h
      obtain ⟨haccepted, hrest⟩ := Option.ite_none_right_eq_some.mp h
      simp only [Getopt.accepted, Bool.not_eq_true', Bool.or_eq_false_iff,
        decide_eq_false_iff_not, Int.not_lt] at haccepted
      rcases ih hrest with rfl | hbounds
      · exact .inr ⟨haccepted.2, toInt_lt _⟩
      · exact .inr hbounds
    | other => cases h

/-- The option check lets the number `n` through, and `format` is called with it. -/
theorem mainOptions_toDigits {n : Nat} (hmin : minBlocks ≤ (n : Int)) (hmax : (n : Int) < 2 ^ 31)
    (filename : String) :
    mainOptions [.n (Nat.toDigits 10 n)] (some filename) = .format filename n := by
  obtain ⟨hne, _, hvalue⟩ := decimalText_iff.mp (decimalText_toDigits n)
  have hfits : FitsInt (readNumeral (Nat.toDigits 10 n)).value := by
    rw [hvalue]
    exact ⟨by omega, hmax⟩
  have haccepted : (Getopt.n (Nat.toDigits 10 n)).accepted = true := by
    refine optionAccepted_iff.mpr ⟨hne, ?_, ?_, ?_⟩
    · simp only [hvalue, longMin]
      omega
    · simp only [hvalue, longMax]
      omega
    · rw [toInt_of_fits hfits, hvalue]
      exact hmin
  have hpos : (n : Int) ≠ 0 := Int.ne_of_gt (Int.lt_of_lt_of_le (by decide) hmin)
  simp only [mainOptions, getoptLoop, if_pos haccepted, (size_of_accepted haccepted hfits).1,
    hvalue]
  rw [if_pos hpos]

/-- The sizes that `format` can be called with are those from `MIN_BLOCKS` to the largest `int`. -/
theorem formatted_size_iff {size : Int} :
    (∃ opts operand filename, mainOptions opts operand = .format filename size) ↔
      minBlocks ≤ size ∧ size < 2 ^ 31 := by
  constructor
  · rintro ⟨opts, operand, filename, h⟩
    unfold mainOptions at h
    cases hloop : getoptLoop opts 0 with
    | none =>
      rw [hloop] at h
      cases h
    | some size' =>
      rw [hloop] at h
      cases operand with
      | none => cases h
      | some name =>
        dsimp only at h
        split at h
        next hset =>
          cases h
          exact (getoptLoop_bounds hloop).resolve_left hset
        next => cases h
  · rintro ⟨hmin, hmax⟩
    have hpos : 0 < size := Int.lt_of_lt_of_le (by decide) hmin
    obtain ⟨n, rfl⟩ := Int.eq_ofNat_of_zero_le hpos.le
    exact ⟨_, _, "disk", mainOptions_toDigits hmin hmax "disk"⟩

/-! ## What the options mean -/

/-- `main` prints the usage text, or the text of every `-n` is a decimal integer from `MIN_BLOCKS` to
the largest `int`, and the last one is the size that `format` is called with. -/
def OptionsMean (opts : List Getopt) (operand : Option String) : Prop :=
  mainOptions opts operand = .usage ∨
  ∀ before optarg after, opts = before ++ .n optarg :: after →
    ∃ v, DecimalText optarg v ∧ minBlocks ≤ v ∧ v < 2 ^ 31 ∧
      (after = [] → ∃ filename, operand = some filename ∧
        mainOptions opts operand = .format filename v)

/-- There is no file name, or the check refuses an option, or the number that each `-n` starts with
fits in an `int` and ends its text. -/
def PlainSizes (opts : List Getopt) (operand : Option String) : Prop :=
  operand = none ∨ (∃ o ∈ opts, o.accepted = false) ∨
  ∀ optarg, .n optarg ∈ opts →
    (readNumeral optarg).rest = [] ∧ FitsInt (readNumeral optarg).value

theorem usage_iff {opts : List Getopt} {operand : Option String} :
    mainOptions opts operand = .usage ↔ operand = none ∨ ∃ o ∈ opts, o.accepted = false := by
  rw [← show getoptLoop opts 0 = none ↔ _ from getoptLoop_eq_none_iff]
  unfold mainOptions
  cases getoptLoop opts 0 <;> cases operand <;> simp
  split <;> simp

theorem optionsMean_of_plain {opts : List Getopt} {filename : String}
    (hall : ∀ o ∈ opts, o.accepted = true)
    (hplain : ∀ optarg, .n optarg ∈ opts →
      (readNumeral optarg).rest = [] ∧ FitsInt (readNumeral optarg).value) :
    OptionsMean opts (some filename) := by
  refine .inr ?_
  rintro before optarg after rfl
  have hmem : Getopt.n optarg ∈ before ++ .n optarg :: after := by simp
  obtain ⟨hrest, hfits⟩ := hplain optarg hmem
  obtain ⟨hsize, hmin⟩ := size_of_accepted (hall _ hmem) hfits
  have hne := (optionAccepted_iff.mp (hall _ hmem)).1
  refine ⟨_, decimalText_of_readNumeral hne hrest, hmin, hfits.2, ?_⟩
  rintro rfl
  refine ⟨filename, rfl, ?_⟩
  have hpos : (readNumeral optarg).value ≠ 0 := by
    simp only [minBlocks] at hmin
    omega
  simp only [mainOptions, getoptLoop_last hall, hsize]
  rw [if_pos hpos]

/-- The options mean what they say exactly when none that is let through has a number beyond an `int`
or characters behind its number. -/
theorem options_mean_iff (opts : List Getopt) (operand : Option String) :
    OptionsMean opts operand ↔ PlainSizes opts operand := by
  constructor
  · rintro (husage | hmean)
    · rcases usage_iff.mp husage with hnone | hrefused
      · exact .inl hnone
      · exact .inr (.inl hrefused)
    · refine .inr (.inr ?_)
      intro optarg hmem
      obtain ⟨before, after, rfl⟩ := List.append_of_mem hmem
      obtain ⟨v, htext, hmin, hmax, _⟩ := hmean before optarg after rfl
      obtain ⟨_, hrest, rfl⟩ := decimalText_iff.mp htext
      simp only [minBlocks] at hmin
      exact ⟨hrest, by omega, hmax⟩
  · rintro (hnone | hrefused | hplain)
    · exact .inl (usage_iff.mpr (.inl hnone))
    · exact .inl (usage_iff.mpr (.inr hrefused))
    · by_cases hrefused : operand = none ∨ ∃ o ∈ opts, o.accepted = false
      · exact .inl (usage_iff.mpr hrefused)
      · obtain ⟨hsome, hall⟩ := not_or.mp hrefused
        obtain ⟨filename, rfl⟩ := Option.ne_none_iff_exists'.mp hsome
        refine optionsMean_of_plain ?_ hplain
        intro o ho
        exact Bool.eq_true_of_not_eq_false fun hfalse => hall ⟨o, ho, hfalse⟩

/-- `-n 6abc` and `-n 4294967302` both call `format` with size 6. -/
theorem wrapped_and_trailing_sizes :
    (mainOptions [.n ['6', 'a', 'b', 'c']] (some "disk") = .format "disk" 6 ∧
      ¬ OptionsMean [.n ['6', 'a', 'b', 'c']] (some "disk")) ∧
    (mainOptions [.n ['4', '2', '9', '4', '9', '6', '7', '3', '0', '2']] (some "disk") =
        .format "disk" 6 ∧
      ¬ OptionsMean [.n ['4', '2', '9', '4', '9', '6', '7', '3', '0', '2']] (some "disk")) := by
  have habc : mainOptions [.n ['6', 'a', 'b', 'c']] (some "disk") = .format "disk" 6 := by decide
  have hwrap : mainOptions [.n ['4', '2', '9', '4', '9', '6', '7', '3', '0', '2']] (some "disk") =
      .format "disk" 6 := by decide
  refine ⟨⟨habc, ?_⟩, ⟨hwrap, ?_⟩⟩
  · rintro (husage | hmean)
    · rw [habc] at husage
      cases husage
    · obtain ⟨v, htext, _⟩ := hmean [] _ [] rfl
      exact absurd (decimalText_iff.mp htext).2.1 (by decide)
  · rintro (husage | hmean)
    · rw [hwrap] at husage
      cases husage
    · obtain ⟨v, htext, _, hmax, _⟩ := hmean [] _ [] rfl
      rw [← (decimalText_iff.mp htext).2.2] at hmax
      exact absurd hmax (by decide)

end Sjfs
