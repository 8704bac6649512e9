import Raiezau.CUtil.CString

/-!
# Basic — exceptions, keys and numerals of the Java client

Strings are lists of characters, as on the C side.
-/

namespace Raiezau
namespace JavaClient

open CUtil

/-- The exceptions the modelled methods throw. -/
inductive JavaError
  | arithmetic
  | negativeArraySize
  | arrayIndex
  | numberFormat
  | io
  | noPart
  | noFile
  | invalidResponse
  | noMatch
  | wrongKey
  | noPeer
  | invalidParameter
  deriving DecidableEq, Repr

@[simp] theorem ok_bind {α β : Type} (x : α) (f : α → Except JavaError β) :
    (Except.ok x >>= f) = f x := rfl

@[simp] theorem error_bind {α β : Type} (e : JavaError) (f : α → Except JavaError β) :
    (Except.error e >>= f) = .error e := rfl

def isHexDigit (c : Char) : Bool := c.isDigit || ('a' ≤ c && c ≤ 'f') || ('A' ≤ c && c ≤ 'F')

/-- A key of 32 hexadecimal digits. -/
def IsKey (k : CString) : Prop := k.length = 32 ∧ ∀ c ∈ k, isHexDigit c = true

/-- `Integer.toString` and `Long.toString`. -/
def integerToString (n : Int) : CString :=
  if n < 0 then '-' :: decimal n.natAbs else decimal n.toNat

def parseDigits (s : CString) : Except JavaError Nat :=
  if s ≠ [] ∧ s.all Char.isDigit then .ok (Nat.ofDigitChars 10 s 0) else .error .numberFormat

/-- `Integer.parseInt`, with the ASCII digits only: Java takes the decimal digits of every script, and a text with one
of the others, which no program here writes, throws in the model. -/
def parseInt (s : CString) : Except JavaError Int := do
  let n ← match s with
    | '-' :: t => (parseDigits t).map fun n : Nat => -(n : Int)
    | '+' :: t => (parseDigits t).map fun n : Nat => (n : Int)
    | t => (parseDigits t).map fun n : Nat => (n : Int)
  if -(2 ^ 31) ≤ n ∧ n < 2 ^ 31 then .ok n else .error .numberFormat

theorem integerToString_of_nonneg {n : Int} (hn : 0 ≤ n) : integerToString n = decimal n.toNat := by
  rw [integerToString, if_neg (by omega)]

theorem parseDigits_decimal (n : Nat) : parseDigits (decimal n) = .ok n := by
  have hall : (decimal n).all Char.isDigit = true :=
    List.all_eq_true.2 fun c hc => isDigit_of_mem_decimal hc
  unfold parseDigits
  rw [if_pos ⟨decimal_ne_nil n, hall⟩]
  exact congrArg Except.ok Nat.ofDigitChars_ten_toDigits

/-- Unsigned numerals are read up to the largest `int`. -/
theorem parseInt_decimal_eq (n : Nat) :
    parseInt (decimal n) = if (n : Int) < 2 ^ 31 then .ok (n : Int) else .error .numberFormat := by
  have hdigits : (parseDigits (decimal n)).map (fun n : Nat => (n : Int)) = .ok (n : Int) := by
    rw [parseDigits_decimal]
    rfl
  have hsign : ∀ c ∈ decimal n, c ≠ '-' ∧ c ≠ '+' := by
    intro c hc
    have hdigit := isDigit_of_mem_decimal hc
    constructor <;> rintro rfl <;> cases hdigit
  unfold parseInt
  split
  · next t heq => exact absurd rfl (hsign '-' (heq ▸ List.mem_cons_self)).1
  · next t heq => exact absurd rfl (hsign '+' (heq ▸ List.mem_cons_self)).2
  · rw [hdigits, ok_bind]
    exact if_congr (and_iff_right (by omega)) rfl rfl

theorem parseInt_decimal {n : Nat} (hn : n < 2 ^ 31) : parseInt (decimal n) = .ok (n : Int) := by
  rw [parseInt_decimal_eq, if_pos (by omega)]

/-- The values of an `int`. -/
def IsInt (i : Int) : Prop := -(2 ^ 31) ≤ i ∧ i < 2 ^ 31

theorem parseInt_integerToString {i : Int} (hi : IsInt i) : parseInt (integerToString i) = .ok i := by
  obtain ⟨hlow, hhigh⟩ := hi
  by_cases hneg : i < 0
  · have habs : -(i.natAbs : Int) = i := by omega
    have hdigits : (parseDigits (decimal i.natAbs)).map (fun n : Nat => -(n : Int)) = .ok i := by
      rw [parseDigits_decimal]
      exact congrArg Except.ok habs
    rw [integerToString, if_pos hneg, parseInt]
    simp only [hdigits, ok_bind]
    exact if_pos ⟨hlow, hhigh⟩
  · have hlt : i.toNat < 2 ^ 31 := by omega
    rw [integerToString, if_neg hneg, parseInt_decimal hlt, Int.toNat_of_nonneg (Int.not_lt.1 hneg)]

theorem mem_integerToString {i : Int} {c : Char} (hc : c ∈ integerToString i) : c.isDigit = true ∨ c = '-' := by
  unfold integerToString at hc
  split at hc
  · rcases List.mem_cons.1 hc with hsign | hdigit
    · exact .inr hsign
    · exact .inl (isDigit_of_mem_decimal hdigit)
  · exact .inl (isDigit_of_mem_decimal hc)

end JavaClient
end Raiezau
