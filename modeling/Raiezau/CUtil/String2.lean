import Raiezau.CUtil.CString
import Raiezau.Text.Split

/-!
# String2 — the string helpers of `cutil/string2.c`

The splitters collect their parts with `list_add`, which puts the newest in front, and then fill the
result array from the back.  They are translated with that list as an accumulator; `stringSplit_eq_words`
and `stringSplit2_eq_splitSub` say what they compute.
-/

namespace Raiezau
namespace CUtil

open Text

/-- `strstripc`: drops one trailing `c`.  The code reads `str[l - 1]`, which lies outside the string
when it is empty. -/
def strstripc (str : CString) (c : Char) : Option CString :=
  match str.getLast? with
  | none => none
  | some l => some (if l = c then str.dropLast else str)

/-- `str_replace_char`; replaced by NUL, a character ends the copy. -/
def strReplaceChar (str : CString) (old new : Char) : CString :=
  asCString (str.map (fun c => if c = old then new else c))

/-- `strtok_r`: the next token and what `saveptr` then points at. -/
def strtokR (str delim : CString) : Option (CString × CString) :=
  match str.dropWhile (fun c => delim.contains c) with
  | [] => none
  | t => some (t.takeWhile (fun c => !delim.contains c),
      (t.dropWhile (fun c => !delim.contains c)).tail)

def stringSplitLoop (delim : CString) : Nat → CString → List CString → List CString
  | 0, _, li => li
  | n + 1, strw, li =>
      match strtokR strw delim with
      | none => li
      | some (p, saveptr) => stringSplitLoop delim n saveptr (p :: li)

def stringSplit (str delim : CString) : List CString :=
  (stringSplitLoop delim (str.length + 1) str []).reverse

/-- `strstr`, as an offset. -/
def strstr (str delim : CString) : Option Nat := findSub delim str

def stringSplit2Loop (delim : CString) : Nat → CString → List CString → List CString
  | 0, ptr, li => ptr :: li
  | n + 1, ptr, li =>
      match strstr ptr delim with
      | none => ptr :: li
      | some k => stringSplit2Loop delim n (ptr.drop (k + delim.length)) (ptr.take k :: li)

def stringSplit2 (str delim : CString) : List CString :=
  (stringSplit2Loop delim (str.length + 1) str []).reverse

/-! ## What they compute -/

theorem stringSplitLoop_eq {delim : CString} {n : Nat} {s : CString} {li : List CString}
    (hn : s.length < n) :
    stringSplitLoop delim n s li = (words (fun c => delim.contains c) s).reverse ++ li := by
  induction n generalizing s li with
  | zero => omega
  | succ n ih =>
      rw [stringSplitLoop, words_step, strtokR]
      have hle := List.length_dropWhile_le (fun c => delim.contains c) s
      cases hd : s.dropWhile (fun c => delim.contains c) with
      | nil => rfl
      | cons c t =>
          rw [hd] at hle
          simp only
          rw [ih]
          · simp
          · have hc : delim.contains c = false := @not_sep_of_dropWhile _ (fun c => delim.contains c) _ _ _ hd
            have hshort := List.length_dropWhile_le (fun c => !delim.contains c) t
            have hstep : (c :: t).dropWhile (fun c => !delim.contains c) =
                t.dropWhile (fun c => !delim.contains c) := by
              rw [List.dropWhile_cons_of_pos (by simpa using hc)]
            rw [hstep, List.length_tail]
            simp only [List.length_cons] at hle
            omega

/-- `string_split` returns the maximal non-empty runs of non-delimiters, in order. -/
theorem stringSplit_eq_words (str delim : CString) :
    stringSplit str delim = words (fun c => delim.contains c) str := by
  rw [stringSplit, stringSplitLoop_eq (Nat.lt_succ_self _)]
  simp

theorem stringSplit2Loop_eq (delim : CString) (n : Nat) (s : CString) (li : List CString) :
    stringSplit2Loop delim n s li = (splitSubAux delim n s).reverse ++ li := by
  induction n generalizing s li with
  | zero => rfl
  | succ n ih =>
      rw [stringSplit2Loop, splitSubAux, strstr]
      cases findSub delim s with
      | none => rfl
      | some k => simp [ih]

/-- `string_split2` returns the parts between the leftmost non-overlapping occurrences. -/
theorem stringSplit2_eq_splitSub (str delim : CString) :
    stringSplit2 str delim = splitSub delim str := by
  rw [stringSplit2, stringSplit2Loop_eq, splitSub]
  simp

/-! ## Splitting at single spaces -/

/-- Splitting what the clients write: tokens, each followed by one space. -/
theorem stringSplit_space_flatMap {ws : List CString}
    (hws : ∀ w ∈ ws, w ≠ [] ∧ ' ' ∉ w) :
    stringSplit (ws.flatMap (fun w => w ++ [' '])) [' '] = ws := by
  rw [stringSplit_eq_words]
  refine words_flatMap_append (by simp) (fun w hw => ⟨(hws w hw).1, fun x hx => ?_⟩)
  have hne : x ≠ ' ' := fun h => (hws w hw).2 (h ▸ hx)
  simpa using hne

theorem stringSplit_space_intercalate_filter {ws : List CString} (hws : ∀ w ∈ ws, ' ' ∉ w) :
    stringSplit ([' '].intercalate ws) [' '] = ws.filter (fun w => !w.isEmpty) := by
  rw [stringSplit_eq_words]
  refine words_intercalate_filter (by simp) fun w hw x hx => ?_
  have hne : x ≠ ' ' := fun h => hws w hw (h ▸ hx)
  simpa using hne

theorem stringSplit_space_intercalate {ws : List CString}
    (hws : ∀ w ∈ ws, w ≠ [] ∧ ' ' ∉ w) :
    stringSplit ([' '].intercalate ws) [' '] = ws := by
  rw [stringSplit_space_intercalate_filter fun w hw => (hws w hw).2, List.filter_eq_self]
  intro w hw
  simpa using (hws w hw).1

end CUtil
end Raiezau
