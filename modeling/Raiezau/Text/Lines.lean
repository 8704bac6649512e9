import Mathlib.Data.List.TakeWhile

/-!
# Lines — a stream cut at its terminators

`completeLines nl s` are the parts of `s` that a terminator ends, each without it, and `lastLine nl s` is
what comes after the last terminator.  The rules say what a stream that goes on adds to them.
-/

namespace Raiezau
namespace Text

universe u

variable {α : Type u} [DecidableEq α] {nl : α} {s t l : List α}

/-- The complete lines of a stream, and what follows the last of them. -/
def cutLines (nl : α) : List α → List (List α) × List α
  | [] => ([], [])
  | c :: s =>
      if c = nl then ([] :: (cutLines nl s).1, (cutLines nl s).2)
      else
        match cutLines nl s with
        | ([], rest) => ([], c :: rest)
        | (l :: ls, rest) => ((c :: l) :: ls, rest)

def completeLines (nl : α) (s : List α) : List (List α) := (cutLines nl s).1

def lastLine (nl : α) (s : List α) : List α := (cutLines nl s).2

theorem cutLines_of_not_mem (hs : nl ∉ s) : cutLines nl s = ([], s) := by
  induction s with
  | nil => rfl
  | cons c s ih =>
      rw [List.mem_cons, not_or] at hs
      rw [cutLines, if_neg (Ne.symm hs.1), ih hs.2]

theorem cutLines_line (hl : nl ∉ l) :
    cutLines nl (l ++ nl :: s) = (l :: completeLines nl s, lastLine nl s) := by
  induction l with
  | nil => exact if_pos rfl
  | cons c l ih =>
      rw [List.mem_cons, not_or] at hl
      rw [List.cons_append, cutLines, if_neg (Ne.symm hl.1), ih hl.2]

@[simp] theorem completeLines_nil : completeLines nl [] = [] := rfl

@[simp] theorem lastLine_nil : lastLine nl [] = [] := rfl

theorem completeLines_of_not_mem (hs : nl ∉ s) : completeLines nl s = [] :=
  congrArg Prod.fst (cutLines_of_not_mem hs)

theorem lastLine_of_not_mem (hs : nl ∉ s) : lastLine nl s = s :=
  congrArg Prod.snd (cutLines_of_not_mem hs)

theorem length_completeLines (s : List α) : (completeLines nl s).length = s.count nl := by
  induction s with
  | nil => rfl
  | cons c s ih =>
      rw [completeLines] at ih ⊢
      rw [cutLines]
      by_cases hc : c = nl
      · rw [if_pos hc, List.length_cons, ih, hc, List.count_cons_self]
      · rw [if_neg hc, List.count_cons_of_ne hc, ← ih]
        cases hcut : cutLines nl s with
        | mk lines rest => cases lines <;> rfl

theorem completeLines_line (hl : nl ∉ l) :
    completeLines nl (l ++ nl :: s) = l :: completeLines nl s :=
  congrArg Prod.fst (cutLines_line hl)

theorem lastLine_line (hl : nl ∉ l) : lastLine nl (l ++ nl :: s) = lastLine nl s := by
  rw [lastLine, cutLines_line hl]

/-- A stream with a terminator starts with a line. -/
theorem exists_line (h : nl ∈ s) :
    nl ∉ s.takeWhile (fun c => c ≠ nl) ∧
      s = s.takeWhile (fun c => c ≠ nl) ++ nl :: (s.dropWhile (fun c => c ≠ nl)).drop 1 := by
  refine ⟨fun hmem => ?_, ?_⟩
  · simpa using List.mem_takeWhile_imp hmem
  · cases hd : s.dropWhile (fun c => c ≠ nl) with
    | nil =>
        have hall := List.dropWhile_eq_nil_iff.1 hd nl h
        simp at hall
    | cons c t =>
        have hc : c = nl := by
          have hne : s.dropWhile (fun c => decide (c ≠ nl)) ≠ [] := by rw [hd]; exact List.cons_ne_nil c t
          have hhead := List.head_dropWhile_not (fun c => decide (c ≠ nl)) hne
          simpa only [hd, List.head_cons, decide_eq_false_iff_not, not_not] using hhead
        have hsplit := List.takeWhile_append_dropWhile (p := fun c => decide (c ≠ nl)) (l := s)
        rw [hd, hc] at hsplit
        exact hsplit.symm

theorem not_mem_lastLine : nl ∉ lastLine nl s := by
  induction hn : s.length using Nat.strong_induction_on generalizing s with
  | _ n ih =>
      by_cases h : nl ∈ s
      · obtain ⟨hl, hs⟩ := exists_line h
        have hshort := congrArg List.length hs
        rw [List.length_append, List.length_cons] at hshort
        rw [hs, lastLine_line hl]
        exact ih _ (by omega) rfl
      · rw [lastLine_of_not_mem h]
        exact h

/-- What comes later goes on with the last line. -/
theorem cutLines_append :
    cutLines nl (s ++ t) =
      (completeLines nl s ++ completeLines nl (lastLine nl s ++ t), lastLine nl (lastLine nl s ++ t)) := by
  -- The induction is on the length: a first line is cut off both sides.
  induction hn : s.length using Nat.strong_induction_on generalizing s with
  | _ n ih =>
      by_cases h : nl ∈ s
      · obtain ⟨hl, hs⟩ := exists_line h
        generalize s.takeWhile (fun c => c ≠ nl) = l at hl hs
        generalize (s.dropWhile (fun c => c ≠ nl)).drop 1 = s' at hs
        subst hs
        have hrest := ih s'.length (by simp at hn; omega) rfl
        have hlines := congrArg Prod.fst hrest
        have hlast := congrArg Prod.snd hrest
        rw [List.append_assoc, List.cons_append, cutLines_line hl, completeLines_line hl, lastLine_line hl]
        exact Prod.ext (congrArg (List.cons l) hlines) hlast
      · rw [completeLines_of_not_mem h, lastLine_of_not_mem h]
        rfl

theorem completeLines_append :
    completeLines nl (s ++ t) = completeLines nl s ++ completeLines nl (lastLine nl s ++ t) :=
  congrArg Prod.fst cutLines_append

theorem lastLine_append : lastLine nl (s ++ t) = lastLine nl (lastLine nl s ++ t) := by
  rw [lastLine, cutLines_append]

/-- Lines that are each sent with a terminator are what comes out. -/
theorem completeLines_flatMap {lines : List (List α)} (h : ∀ l ∈ lines, nl ∉ l) :
    completeLines nl (lines.flatMap fun l => l ++ [nl]) = lines := by
  induction lines with
  | nil => rfl
  | cons l lines ih =>
      rw [List.flatMap_cons, List.append_assoc, List.singleton_append,
        completeLines_line (h l List.mem_cons_self), ih fun l' hl' => h l' (List.mem_cons_of_mem _ hl')]

theorem not_mem_of_mem_completeLines (h : l ∈ completeLines nl s) : nl ∉ l := by
  induction hn : s.length using Nat.strong_induction_on generalizing s with
  | _ n ih =>
      by_cases hnl : nl ∈ s
      · obtain ⟨hfree, hs⟩ := exists_line hnl
        have hshort := congrArg List.length hs
        rw [List.length_append, List.length_cons] at hshort
        rw [hs, completeLines_line hfree, List.mem_cons] at h
        rcases h with rfl | h
        · exact hfree
        · exact ih _ (by omega) h rfl
      · rw [completeLines_of_not_mem hnl] at h
        cases h

theorem completeLines_ne_nil (h : nl ∈ s) : completeLines nl s ≠ [] := by
  obtain ⟨hfree, hs⟩ := exists_line h
  rw [hs, completeLines_line hfree]
  exact List.cons_ne_nil _ _

/-- Two terminators in a row enclose an empty line. -/
theorem nil_mem_completeLines : [] ∈ completeLines nl (s ++ nl :: nl :: t) := by
  have hlast : lastLine nl (s ++ [nl]) = [] := by
    rw [lastLine_append, lastLine_line not_mem_lastLine]
    rfl
  have hsplit : s ++ nl :: nl :: t = (s ++ [nl]) ++ nl :: t := by simp
  have hempty : completeLines nl (nl :: t) = [] :: completeLines nl t :=
    completeLines_line (l := []) List.not_mem_nil
  rw [hsplit, completeLines_append, hlast, List.nil_append, hempty]
  exact List.mem_append_right _ List.mem_cons_self

end Text
end Raiezau
