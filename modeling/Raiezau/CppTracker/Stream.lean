import Raiezau.CUtil.CString
import Raiezau.Text.Lines
import Raiezau.Text.Runs

/-!
# Stream — reading strings and numbers in the C++ tracker

The handlers read a request from a `stringstream` with `>>` and `getline` and never look at its state.
An extraction from a stream that is no longer good leaves its target as it was, so a keyword or an
argument can be seen twice; the model keeps the target as a parameter for that reason.
-/

namespace Raiezau
namespace CppTracker

open CUtil Text

/-- A `stringstream`: what is left to read, and `good()`.  Its flags are never cleared. -/
structure IStream where
  rest : CString
  good : Bool
  deriving DecidableEq, Repr

def IStream.ofString (s : CString) : IStream := ⟨s, true⟩

/-- `line >> str`.  Blanks are skipped first; when nothing else is left `str` keeps its value. -/
def IStream.readWord (line : IStream) (str : CString) : IStream × CString :=
  if line.good then
    match line.rest.dropWhile isspace with
    | [] => (⟨[], false⟩, str)
    | t =>
        let rest := t.dropWhile fun c => !isspace c
        (⟨rest, !rest.isEmpty⟩, t.takeWhile fun c => !isspace c)
  else (line, str)

/-- `getline(line, str, delim)`.  Without a delimiter the text is read to its end. -/
def IStream.getline (line : IStream) (str : CString) (delim : Char) : IStream × CString :=
  if line.good then
    match line.rest.dropWhile (fun c => c ≠ delim) with
    | [] => (⟨[], false⟩, line.rest.takeWhile fun c => c ≠ delim)
    | _ :: rest => (⟨rest, true⟩, line.rest.takeWhile fun c => c ≠ delim)
  else (line, str)

/-! ## What is read -/

section Reading

variable {b w r t str : CString} {d : Char}

def Blank (s : CString) : Prop := ∀ c ∈ s, isspace c = true

def IsWord (w : CString) : Prop := w ≠ [] ∧ ∀ c ∈ w, isspace c = false

/-- What may come after a word. -/
def Ends (s : CString) : Prop := ∀ c ∈ s.head?, isspace c = true

instance : DecidablePred Blank := fun s => inferInstanceAs (Decidable (∀ c ∈ s, _))

instance : DecidablePred IsWord := fun w => inferInstanceAs (Decidable (w ≠ [] ∧ ∀ c ∈ w, _))

instance : DecidablePred Ends := fun s => Option.decidableForallMem s.head?

theorem IsWord.maximalRun (hw : IsWord w) (hr : Ends r) : MaximalRun (fun c => !isspace c) w r := by
  refine ⟨fun c hc => ?_, fun c hc => ?_⟩
  · rw [hw.2 c hc]
    rfl
  · rw [hr c hc]
    rfl

theorem Blank.maximalRun (hb : Blank b) (hw : IsWord w) (r : CString) : MaximalRun isspace b (w ++ r) := by
  refine ⟨hb, fun c hc => ?_⟩
  obtain ⟨x, w, rfl⟩ := List.exists_cons_of_ne_nil hw.1
  obtain rfl := Option.some.inj hc
  exact hw.2 x List.mem_cons_self

/-- What does not start with a blank starts with a word. -/
theorem exists_word {c : Char} (hc : isspace c = false) (t : CString) :
    ∃ w r, c :: t = w ++ r ∧ IsWord w ∧ Ends r := by
  obtain ⟨w, r, heq, hrun⟩ := exists_maximalRun (fun c => !isspace c) (c :: t)
  refine ⟨w, r, heq, ⟨?_, fun d hd => by simpa using hrun.inside d hd⟩, fun d hd => by simpa using hrun.stops d hd⟩
  rintro rfl
  have hstop : (!isspace c) = false := by
    refine hrun.stops c ?_
    rw [List.nil_append] at heq
    rw [← heq]
    rfl
  rw [hc] at hstop
  cases hstop

theorem IStream.readWord_word (hb : Blank b) (hw : IsWord w) (hr : Ends r) (str : CString) :
    (IStream.mk (b ++ (w ++ r)) true).readWord str = (⟨r, !r.isEmpty⟩, w) := by
  obtain ⟨x, t, ht⟩ := List.exists_cons_of_ne_nil (List.append_ne_nil_of_left_ne_nil hw.1 r)
  have hskip : (b ++ (w ++ r)).dropWhile isspace = x :: t := (hb.maximalRun hw r).dropWhile.trans ht
  have hword := hw.maximalRun hr
  rw [IStream.readWord, if_pos rfl]
  simp only [hskip]
  rw [← ht, hword.takeWhile, hword.dropWhile]

theorem IStream.readWord_blank (ht : Blank t) (str : CString) :
    (IStream.mk t true).readWord str = (⟨[], false⟩, str) := by
  have hskip : t.dropWhile isspace = [] := List.dropWhile_eq_nil_iff.2 ht
  rw [IStream.readWord, if_pos rfl]
  simp only [hskip]

theorem IStream.getline_delim (hb : d ∉ b) (r str : CString) :
    (IStream.mk (b ++ d :: r) true).getline str d = (⟨r, true⟩, b) := by
  have hrun : MaximalRun (fun c => decide (c ≠ d)) b (d :: r) := by
    refine ⟨fun c hc => decide_eq_true fun h => hb (h ▸ hc), fun c hc => ?_⟩
    obtain rfl := Option.some.inj hc
    exact decide_eq_false fun h => h rfl
  simp only [IStream.getline, if_true, hrun.dropWhile, hrun.takeWhile]

theorem IStream.getline_of_not_mem (ht : d ∉ t) (str : CString) :
    (IStream.mk t true).getline str d = (⟨[], false⟩, t) := by
  have hall : ∀ c ∈ t, decide (c ≠ d) = true := fun c hc => decide_eq_true fun h => ht (h ▸ hc)
  simp only [IStream.getline, if_true, List.dropWhile_eq_nil_iff.2 hall, List.takeWhile_eq_self_iff.2 hall]

end Reading

/-! ## `split` -/

/-- `getline` fails when there is nothing left to extract. -/
def splitLoop (delimiter : Char) : Nat → IStream → CString → List CString
  | 0, _, _ => []
  | n + 1, ss, tok =>
      if ss.good = false ∨ ss.rest = [] then []
      else
        let (ss, tok) := ss.getline tok delimiter
        tok :: splitLoop delimiter n ss tok

def split (str : CString) (delimiter : Char) : List CString :=
  splitLoop delimiter (str.length + 1) (IStream.ofString str) []

theorem splitLoop_eq {d : Char} {n : Nat} {s tok : CString} (hn : s.length < n) :
    splitLoop d n ⟨s, true⟩ tok =
      completeLines d s ++ if lastLine d s = [] then [] else [lastLine d s] := by
  induction n generalizing s tok with
  | zero => omega
  | succ n ih =>
      rw [splitLoop]
      by_cases hnil : s = []
      · subst hnil
        simp
      · have hgo : ¬ ((IStream.mk s true).good = false ∨ (IStream.mk s true).rest = []) := by
          simp [hnil]
        rw [if_neg hgo]
        -- Up to the next delimiter, or, without one, up to the end of the text: then the stream is no longer good.
        by_cases hd : d ∈ s
        · obtain ⟨hl, hs⟩ := exists_line hd
          generalize s.takeWhile (fun c => c ≠ d) = l at hl hs
          generalize (s.dropWhile (fun c => c ≠ d)).drop 1 = t at hs
          subst hs
          rw [IStream.getline_delim hl, completeLines_line hl, lastLine_line hl]
          simp only [List.length_append, List.length_cons] at hn
          simp only [ih (show t.length < n by omega), List.cons_append]
        · rw [IStream.getline_of_not_mem hd, completeLines_of_not_mem hd, lastLine_of_not_mem hd, if_neg hnil]
          cases n with
          | zero => rfl
          | succ n =>
              show s :: splitLoop d (n + 1) ⟨[], false⟩ s = [s]
              rw [splitLoop, if_pos (.inl rfl)]

/-- The parts between the delimiters; an empty one at the end is not seen. -/
theorem split_eq (s : CString) (d : Char) :
    split s d = completeLines d s ++ if lastLine d s = [] then [] else [lastLine d s] :=
  splitLoop_eq (Nat.lt_succ_self _)

/-- Words joined by single delimiters. -/
theorem split_intercalate {ws : List CString} {d : Char} (hws : ∀ w ∈ ws, w ≠ [] ∧ d ∉ w) :
    split ([d].intercalate ws) d = ws := by
  rw [split_eq]
  induction ws with
  | nil => rfl
  | cons w ws ih =>
      obtain ⟨hne, hd⟩ := hws w (by simp)
      cases ws with
      | nil => simp [completeLines_of_not_mem hd, lastLine_of_not_mem hd, hne]
      | cons v vs =>
          have htail := ih fun u hu => hws u (by simp [hu])
          rw [List.intercalate_cons_cons, List.append_assoc, List.singleton_append,
            completeLines_line hd, lastLine_line hd, List.cons_append, htail]

/-! ## Numbers -/

/-- Blanks, an optional sign and at least one digit: whether the sign is a minus, and the digits' value. -/
def scanNumber (s : CString) : Option (Bool × Nat) :=
  let scanDigits (neg : Bool) (t : CString) : Option (Bool × Nat) :=
    if t.takeWhile Char.isDigit = [] then none else some (neg, digitsValue t)
  match s.dropWhile isspace with
  | '-' :: t => scanDigits true t
  | '+' :: t => scanDigits false t
  | t => scanDigits false t

/-- `stoul`; `none` when it throws.  A minus sign negates modulo 2^64. -/
def stoul (s : CString) : Option Nat :=
  match scanNumber s with
  | none => none
  | some (neg, n) =>
      if 2 ^ 64 ≤ n then none else some (if neg then (2 ^ 64 - n) % 2 ^ 64 else n)

/-- `stoi`; `none` when it throws. -/
def stoi (s : CString) : Option Int :=
  match scanNumber s with
  | none => none
  | some (neg, n) =>
      let v : Int := if neg then -n else n
      if -(2 ^ 31) ≤ v ∧ v < 2 ^ 31 then some v else none

theorem scanNumber_digits {s : CString} (hne : s ≠ []) (hs : ∀ c ∈ s, c.isDigit = true) :
    scanNumber s = some (false, digitsValue s) := by
  cases s with
  | nil => exact absurd rfl hne
  | cons c s =>
      have hc : c.isDigit = true := hs c (by simp)
      have hskip : (c :: s).dropWhile isspace = c :: s :=
        List.dropWhile_cons_of_neg (by simp [isspace_of_isDigit hc])
      have htake : (c :: s).takeWhile Char.isDigit ≠ [] := by
        rw [List.takeWhile_cons_of_pos hc]
        exact List.cons_ne_nil _ _
      have hminus : c ≠ '-' := by
        rintro rfl
        revert hc
        decide
      have hplus : c ≠ '+' := by
        rintro rfl
        revert hc
        decide
      simp only [scanNumber, hskip]
      split
      · next h => exact absurd (List.cons.inj h).1 hminus
      · next h => exact absurd (List.cons.inj h).1 hplus
      · rw [if_neg htake]

theorem stoul_digits {s : CString} (hne : s ≠ []) (hs : ∀ c ∈ s, c.isDigit = true) :
    stoul s = if 2 ^ 64 ≤ digitsValue s then none else some (digitsValue s) := by
  rw [stoul, scanNumber_digits hne hs]
  rfl

end CppTracker
end Raiezau
