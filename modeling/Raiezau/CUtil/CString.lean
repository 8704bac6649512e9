import Mathlib.Algebra.Group.Int.Defs
import Mathlib.Algebra.Group.Nat.Defs
import Mathlib.Data.Int.Init
import Mathlib.Data.List.TakeWhile

/-!
# CString — C strings and the libc functions on them

A C string is the list of its characters before the terminating NUL.  Integers are `Int`, cut to their
C type where the code converts them: `toUInt32` for a `uint32_t` parameter, `toInt32` for the `int` that
`atoi` makes of a `long`, `toUInt64` for a `long` compared with a `uint64_t`.
-/

namespace Raiezau
namespace CUtil

abbrev CString := List Char

instance : LawfulBEq CString := inferInstanceAs (LawfulBEq (List Char))

/-- What holds of every character of a text is decided by looking at the text, not at every character. -/
instance (priority := 2000) decidableForallMem (s : CString) (p : Char → Prop) [DecidablePred p] :
    Decidable (∀ c ∈ s, p c) := List.decidableBAll p s

instance (priority := 2000) decidableExistsMem (s : CString) (p : Char → Prop) [DecidablePred p] :
    Decidable (∃ c ∈ s, p c) := List.decidableBEx p s

/-- `isspace` in the C locale. -/
def isspace (c : Char) : Bool :=
  c = ' ' || c = '\t' || c = '\n' || c = '\x0b' || c = '\x0c' || c = '\r'

/-! ## Integer conversions -/

def toUInt16 (n : Int) : Nat := (n % 2 ^ 16).toNat
def toUInt32 (n : Int) : Nat := (n % 2 ^ 32).toNat
def toUInt64 (n : Int) : Nat := (n % 2 ^ 64).toNat
def toInt32 (n : Int) : Int := n.bmod (2 ^ 32)

def longMax : Int := 2 ^ 63 - 1
def longMin : Int := -(2 ^ 63)

/-! ## Numerals -/

/-- The text `printf` makes of an unsigned number. -/
def decimal (n : Nat) : CString := Nat.toDigits 10 n

/-- The number at the start of a text, `0` when there is none. -/
def digitsValue (s : CString) : Nat := Nat.ofDigitChars 10 (s.takeWhile Char.isDigit) 0

/-- `atol`: blanks, an optional sign, digits; saturating like `strtol`. -/
def atol (s : CString) : Int :=
  match s.dropWhile isspace with
  | '-' :: t => max longMin (-(digitsValue t : Int))
  | '+' :: t => min longMax (digitsValue t)
  | t => min longMax (digitsValue t)

/-- `atoi`, which glibc computes as `(int) strtol`. -/
def atoi (s : CString) : Int := toInt32 (atol s)

/-! ## Copies and scans -/

/-- `strndup(s + so, eo - so)`. -/
def substr (s : CString) (so eo : Nat) : CString := (s.drop so).take (eo - so)

/-- What a buffer reads as: the characters before its first NUL. -/
def asCString (b : List Char) : CString := b.takeWhile (fun c => c ≠ '\x00')

/-- `sscanf(s, " %ms %n", &word, &len)`: the word, and the rest of the text from `len` on; `none` when
the conversion fails, which is when the text is blank. -/
def sscanfWord (s : CString) : Option (CString × CString) :=
  let t := s.dropWhile isspace
  match t.takeWhile (fun c => !isspace c) with
  | [] => none
  | w => some (w, (t.dropWhile (fun c => !isspace c)).dropWhile isspace)

/-! ## Reading back what was printed -/

theorem isDigit_of_mem_decimal {n : Nat} {c : Char} (hc : c ∈ decimal n) : c.isDigit = true :=
  Nat.isDigit_of_mem_toDigits (by decide) (by decide) hc

theorem decimal_ne_nil (n : Nat) : decimal n ≠ [] := Nat.toDigits_ne_nil

theorem isspace_of_isDigit {c : Char} (hc : c.isDigit = true) : isspace c = false := by
  unfold isspace
  simp only [Bool.or_eq_false_iff, decide_eq_false_iff_not]
  refine ⟨⟨⟨⟨⟨?_, ?_⟩, ?_⟩, ?_⟩, ?_⟩, ?_⟩ <;> rintro rfl <;> revert hc <;> decide

/-- A run of digits is read up to its end. -/
theorem digitsValue_append {w t : CString} (hw : ∀ c ∈ w, c.isDigit = true) (ht : ∀ c ∈ t.head?, c.isDigit = false) :
    digitsValue (w ++ t) = Nat.ofDigitChars 10 w 0 := by
  have hstop : t.takeWhile Char.isDigit = [] := by
    cases t with
    | nil => rfl
    | cons c t =>
        have hc : c.isDigit = false := ht c (by simp)
        simp [hc]
  rw [digitsValue, List.takeWhile_append_of_pos hw, hstop, List.append_nil]

/-- The digits of a number followed by something that is no digit read back as the number. -/
theorem digitsValue_decimal_append {n : Nat} {t : CString} (ht : ∀ c ∈ t.head?, c.isDigit = false) :
    digitsValue (decimal n ++ t) = n := by
  rw [digitsValue_append (fun c hc => isDigit_of_mem_decimal hc) ht]
  exact Nat.ofDigitChars_ten_toDigits

theorem digitsValue_eq {w : CString} (hw : ∀ c ∈ w, c.isDigit = true) : digitsValue w = Nat.ofDigitChars 10 w 0 := by
  have h := digitsValue_append (t := []) hw (by simp)
  rwa [List.append_nil] at h

theorem ofDigitChars_lt {w : CString} (hw : ∀ c ∈ w, c.isDigit = true) (n : Nat) :
    Nat.ofDigitChars 10 w n < 10 ^ w.length * (n + 1) := by
  induction w generalizing n with
  | nil =>
      rw [Nat.ofDigitChars_nil, List.length_nil, Nat.pow_zero, Nat.one_mul]
      exact Nat.lt_succ_self n
  | cons c w ih =>
      obtain ⟨-, hc⟩ := Char.isDigit_iff_toNat.1 (hw c List.mem_cons_self)
      have hnine : '9'.toNat = 57 := rfl
      have hzero : '0'.toNat = 48 := rfl
      have hstep : 10 * n + (c.toNat - '0'.toNat) + 1 ≤ 10 * (n + 1) := by omega
      rw [Nat.ofDigitChars_cons, List.length_cons, Nat.pow_succ, Nat.mul_assoc]
      exact Nat.lt_of_lt_of_le (ih (fun c hc => hw c (List.mem_cons_of_mem _ hc)) _) (Nat.mul_le_mul_left _ hstep)

/-- A number of `n` digits is below `10 ^ n`. -/
theorem digitsValue_lt {w : CString} (hw : ∀ c ∈ w, c.isDigit = true) : digitsValue w < 10 ^ w.length := by
  rw [digitsValue_eq hw]
  have h := ofDigitChars_lt hw 0
  rwa [Nat.zero_add, Nat.mul_one] at h

theorem atol_of_isDigit {c : Char} (hc : c.isDigit = true) (t : CString) :
    atol (c :: t) = min longMax (digitsValue (c :: t)) := by
  have hskip : (c :: t).dropWhile isspace = c :: t :=
    List.dropWhile_cons_of_neg (by rw [isspace_of_isDigit hc]; exact Bool.false_ne_true)
  rw [atol, hskip]
  split
  · next heq =>
      obtain rfl := (List.cons.inj heq).1
      cases hc
  · next heq =>
      obtain rfl := (List.cons.inj heq).1
      cases hc
  · rfl

theorem atol_decimal_append {n : Nat} {t : CString} (ht : ∀ c ∈ t.head?, c.isDigit = false) :
    atol (decimal n ++ t) = min longMax n := by
  have hval := digitsValue_decimal_append (n := n) ht
  cases hd : decimal n with
  | nil => exact absurd hd (decimal_ne_nil n)
  | cons c w =>
      have hc : c.isDigit = true := isDigit_of_mem_decimal (n := n) (by simp [hd])
      rw [hd] at hval
      rw [List.cons_append, atol_of_isDigit hc, ← List.cons_append, hval]

theorem atol_decimal {n : Nat} (hn : n < 2 ^ 63) : atol (decimal n) = n := by
  have h := atol_decimal_append (n := n) (t := []) (by simp)
  rw [List.append_nil] at h
  rw [h, longMax]
  omega

theorem toInt32_of_lt {n : Nat} (hn : n < 2 ^ 31) : toInt32 n = n := by
  unfold toInt32
  rw [Int.bmod_eq_of_le] <;> omega

theorem toInt32_bounds (n : Int) : -(2 ^ 31) ≤ toInt32 n ∧ toInt32 n < 2 ^ 31 := by
  have hle := Int.le_bmod (x := n) (m := 2 ^ 32) (by decide)
  have hlt := Int.bmod_lt (x := n) (m := 2 ^ 32) (by decide)
  unfold toInt32
  omega

theorem toInt32_of_range {n : Int} (hle : -(2 ^ 31) ≤ n) (hlt : n < 2 ^ 31) : toInt32 n = n := by
  unfold toInt32
  exact Int.bmod_eq_of_le (by omega) (by omega)

/-- A sum of two `int`s that is too large for one. -/
theorem toInt32_of_wrap {n : Int} (hle : 2 ^ 31 ≤ n) (hlt : n < 3 * 2 ^ 31) : toInt32 n = n - 2 ^ 32 := by
  unfold toInt32
  rw [Int.bmod_eq_emod]
  split <;> omega

theorem atoi_decimal_append {n : Nat} (hn : n < 2 ^ 31) {t : CString}
    (ht : ∀ c ∈ t.head?, c.isDigit = false) : atoi (decimal n ++ t) = n := by
  have h : min longMax (n : Int) = n := by
    unfold longMax
    omega
  rw [atoi, atol_decimal_append ht, h, toInt32_of_lt hn]

theorem atoi_decimal {n : Nat} (hn : n < 2 ^ 31) : atoi (decimal n) = n := by
  simpa using atoi_decimal_append (t := []) hn (by simp)

theorem toUInt32_natCast (n : Nat) : toUInt32 n = n % 2 ^ 32 := by
  unfold toUInt32
  omega

theorem toUInt16_natCast (n : Nat) : toUInt16 n = n % 2 ^ 16 := by
  unfold toUInt16
  omega

/-! ## Written numbers -/

/-- Digits, at least one, and nothing else. -/
def IsNumeral (t : CString) : Prop := t ≠ [] ∧ ∀ c ∈ t, c.isDigit = true

instance (t : CString) : Decidable (IsNumeral t) := inferInstanceAs (Decidable (_ ∧ _))

/-- The number a text writes out: a sign if it has one, and digits. -/
def writtenNumber : CString → Option Int
  | '-' :: t => if IsNumeral t then some (-(digitsValue t : Int)) else none
  | '+' :: t => if IsNumeral t then some (digitsValue t) else none
  | t => if IsNumeral t then some (digitsValue t) else none

/-- `atol` reads a number that is not too long for it as written. -/
theorem atol_of_written {s : CString} {n : Int} (h : writtenNumber s = some n) (h₀ : longMin ≤ n) (h₁ : n ≤ longMax) :
    atol s = n := by
  have hread : ∀ {m : Nat} {t : CString}, (if IsNumeral t then some (m : Int) else none) = some n →
      min longMax (m : Int) = n := by
    intro m t hm
    split at hm
    · obtain rfl := Option.some.inj hm
      exact Int.min_eq_right h₁
    · cases hm
  unfold writtenNumber at h
  split at h
  · next t =>
      split at h
      · obtain rfl := Option.some.inj h
        exact Int.max_eq_right h₀
      · cases h
  · exact hread h
  · have hnum : IsNumeral s := by
      by_contra hno
      rw [if_neg hno] at h
      cases h
    obtain ⟨c, t, rfl⟩ := List.exists_cons_of_ne_nil hnum.1
    rw [atol_of_isDigit (hnum.2 c List.mem_cons_self)]
    exact hread h

/-! ## Cutting at a NUL -/

theorem asCString_eq_self {s : CString} (h : '\x00' ∉ s) : asCString s = s := by
  refine List.takeWhile_eq_self_iff.2 fun ch hch => ?_
  have hne : ch ≠ '\x00' := fun heq => h (heq ▸ hch)
  simpa using hne

theorem not_mem_asCString (b : List Char) : '\x00' ∉ asCString b := by
  intro hmem
  have hne := List.mem_takeWhile_imp hmem
  simp at hne

theorem asCString_append {s : CString} (h : '\x00' ∉ s) (t : CString) :
    asCString (s ++ t) = s ++ asCString t := by
  refine List.takeWhile_append_of_pos fun ch hch => ?_
  have hne : ch ≠ '\x00' := fun heq => h (heq ▸ hch)
  simpa using hne

/-- Nothing after a NUL is read. -/
theorem asCString_append_of_mem {s : CString} (h : '\x00' ∈ s) (t : CString) :
    asCString (s ++ t) = asCString s := by
  rw [asCString, asCString, List.takeWhile_append, if_neg]
  intro hlen
  have hall := List.takeWhile_eq_self_iff.1 ((List.takeWhile_prefix _).eq_of_length hlen) '\x00' h
  simp at hall

/-! ## Splitting off the first word -/

theorem sscanfWord_append {w t : CString} (hne : w ≠ []) (hw : ∀ c ∈ w, isspace c = false)
    (ht : ∀ c ∈ t.head?, isspace c = false) : sscanfWord (w ++ ' ' :: t) = some (w, t) := by
  have hskip : (w ++ ' ' :: t).dropWhile isspace = w ++ ' ' :: t := by
    cases w with
    | nil => exact absurd rfl hne
    | cons c w => simp [hw c (by simp)]
  have htake : w.takeWhile (fun c => !isspace c) = w :=
    List.takeWhile_eq_self_iff.2 (fun c hc => by simp [hw c hc])
  have hdrop : w.dropWhile (fun c => !isspace c) = [] :=
    List.dropWhile_eq_nil_iff.2 (fun c hc => by simp [hw c hc])
  have hsp : isspace ' ' = true := by decide
  have hword : (w ++ ' ' :: t).takeWhile (fun c => !isspace c) = w := by
    rw [List.takeWhile_append, htake]
    simp [hsp]
  have hrest : (w ++ ' ' :: t).dropWhile (fun c => !isspace c) = ' ' :: t := by
    rw [List.dropWhile_append, hdrop]
    simp [hsp]
  have htail : (' ' :: t).dropWhile isspace = t := by
    rw [List.dropWhile_cons_of_pos hsp]
    cases t with
    | nil => rfl
    | cons c t =>
        have hc : isspace c = false := ht c (by simp)
        simp [hc]
  unfold sscanfWord
  simp only [hskip, hword, hrest, htail]

end CUtil
end Raiezau
