import Raiezau.Text.Pattern

/-!
# FullMatch — backtracking matching of a whole text

The patterns of `Text.Pattern` under another reading: letters match exactly, the text has to be used up,
and the groups are those of the first success of a search that tries the longest run first at every
repetition.
-/

namespace Raiezau
namespace Text

variable {p : Pattern} {r : Repeat} {s w l : List Char} {c : Char} {gs : List (List Char)}

/-- A group adds the text it matched. -/
def Repeat.capture (r : Repeat) (w : List Char) (gs : List (List Char)) : List (List Char) :=
  if r.group then w :: gs else gs

/-- The texts of the groups. -/
def fullMatch : Pattern → List Char → Option (List (List Char))
  | [], s => if s = [] then some [] else none
  | .char _ :: _, [] => none
  | .char c :: p, d :: s => if c = d then fullMatch p s else none
  | .rep r :: p, s =>
      (r.counts s).findSome? fun k => (fullMatch p (s.drop k)).map (r.capture (s.take k))

theorem fullMatch_char (c : Char) (p : Pattern) (s : List Char) :
    fullMatch (.char c :: p) (c :: s) = fullMatch p s :=
  if_pos rfl

theorem fullMatch_lits (l : List Char) (p : Pattern) (s : List Char) :
    fullMatch (lits l ++ p) (l ++ s) = fullMatch p s := by
  induction l with
  | nil => rfl
  | cons c l ih =>
      calc
        fullMatch (.char c :: (lits l ++ p)) (c :: (l ++ s)) = fullMatch (lits l ++ p) (l ++ s) :=
          fullMatch_char _ _ _
        _ = fullMatch p s := ih

/-- The run of a class at the start of a text. -/
theorem takeWhile_run {cls : Char → Bool} (hw : ∀ c ∈ w, cls c = true) (hs : ∀ c ∈ s.head?, cls c = false) :
    (w ++ s).takeWhile cls = w := by
  rw [List.takeWhile_append_of_pos hw]
  cases s with
  | nil => simp
  | cons c s => simp [hs c rfl]

/-- The lengths an unbounded repetition tries, the longest in front. -/
theorem counts_run (hhi : r.hi = none) (hw : ∀ c ∈ w, r.cls c = true) (hs : ∀ c ∈ s.head?, r.cls c = false)
    (hlo : r.lo ≤ w.length) :
    r.counts (w ++ s) = w.length :: (List.range w.length).reverse.filter fun k => decide (r.lo ≤ k) := by
  simp [Repeat.counts, hhi, takeWhile_run hw hs, List.range_succ, hlo]

/-- A repetition that takes the whole run, when the rest goes on from there. -/
theorem fullMatch_greedy (hhi : r.hi = none) (hw : ∀ c ∈ w, r.cls c = true)
    (hs : ∀ c ∈ s.head?, r.cls c = false) (hlo : r.lo ≤ w.length) (h : fullMatch p s = some gs) :
    fullMatch (.rep r :: p) (w ++ s) = some (r.capture w gs) := by
  rw [fullMatch, counts_run hhi hw hs hlo, List.findSome?_cons, List.drop_left, List.take_left, h]
  rfl

/-- A run up to a letter of another kind. -/
theorem fullMatch_greedy_char (hhi : r.hi = none) (hw : ∀ c ∈ w, r.cls c = true) (hc : r.cls c = false)
    (hlo : r.lo ≤ w.length) (h : fullMatch p s = some gs) :
    fullMatch (.rep r :: .char c :: p) (w ++ c :: s) = some (r.capture w gs) := by
  have hhead : ∀ d ∈ (c :: s).head?, r.cls d = false := by simpa using hc
  exact fullMatch_greedy hhi hw hhead hlo ((fullMatch_char c p s).trans h)

/-- A wildcard that has to leave the last letter to the rest of the pattern. -/
theorem fullMatch_greedy_last (hhi : r.hi = none) (hlo : r.lo = 0) (hw : ∀ c ∈ w, r.cls c = true)
    (hc : r.cls c = true) (hnil : fullMatch p [] = none) (h : fullMatch p [c] = some gs) :
    fullMatch (.rep r :: p) (w ++ [c]) = some (r.capture w gs) := by
  have hall : ∀ d ∈ w ++ [c], r.cls d = true := by
    intro d hd
    rcases List.mem_append.1 hd with hd | hd
    · exact hw d hd
    · rw [List.mem_singleton.1 hd]
      exact hc
  have hcounts := counts_run (s := []) hhi hall (by simp) (by simp [hlo])
  rw [List.append_nil] at hcounts
  rw [fullMatch, hcounts, List.findSome?_cons, List.drop_length, hnil, List.length_append,
    List.length_singleton, List.range_succ, List.reverse_append, List.filter_append]
  -- the first attempt uses the text up, the second leaves one letter
  simp [hlo, h]

end Text
end Raiezau
