import Mathlib.Data.List.TakeWhile

/-!
# Runs — the longest run of a class at the start of a text

`MaximalRun cls a b` says that `a` is all of a class and that `b` does not go on with it.  A text is cut so in one way
only, and this is the cut that `takeWhile` and `dropWhile` make.
-/

namespace Raiezau
namespace Text

universe u

variable {α : Type u} {cls : α → Bool} {a a' b b' : List α}

structure MaximalRun (cls : α → Bool) (a b : List α) : Prop where
  inside : ∀ c ∈ a, cls c = true
  stops : ∀ c ∈ b.head?, cls c = false

namespace MaximalRun

theorem takeWhile (h : MaximalRun cls a b) : (a ++ b).takeWhile cls = a := by
  have hstop : b.takeWhile cls = [] := by
    cases b with
    | nil => rfl
    | cons c b => exact List.takeWhile_cons_of_neg (by simp [h.stops c rfl])
  rw [List.takeWhile_append_of_pos h.inside, hstop, List.append_nil]

theorem dropWhile (h : MaximalRun cls a b) : (a ++ b).dropWhile cls = b := by
  rw [List.dropWhile_append_of_pos h.inside]
  cases b with
  | nil => rfl
  | cons c b => exact List.dropWhile_cons_of_neg (by simp [h.stops c rfl])

/-- A text has one longest run. -/
theorem append_inj (h : MaximalRun cls a b) (h' : MaximalRun cls a' b') (heq : a ++ b = a' ++ b') :
    a = a' ∧ b = b' := by
  constructor
  · rw [← h.takeWhile, heq, h'.takeWhile]
  · rw [← h.dropWhile, heq, h'.dropWhile]

end MaximalRun

/-- Every text starts with one, empty or not. -/
theorem exists_maximalRun (cls : α → Bool) (t : List α) : ∃ a b, t = a ++ b ∧ MaximalRun cls a b := by
  refine ⟨t.takeWhile cls, t.dropWhile cls, List.takeWhile_append_dropWhile.symm, ?_, ?_⟩
  · exact fun c hc => List.mem_takeWhile_imp hc
  · intro c hc
    have hhead := List.head?_dropWhile_not cls t
    rw [Option.mem_def.1 hc] at hhead
    simpa using hhead

end Text
end Raiezau
