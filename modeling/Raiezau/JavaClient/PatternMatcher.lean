import Mathlib.Data.List.DropRight
import Raiezau.JavaClient.Basic
import Raiezau.Text.FullMatch

/-!
# PatternMatcher — the patterns of the tracker's replies

`PatternMatcher` and the two calls of `String.split`.  `\s` is the six ASCII blanks, `.` everything but
the line ends, and a split drops the empty parts at its end.
-/

namespace Raiezau
namespace JavaClient

open CUtil Text

variable {s b : CString}

/-! ## Model -/

/-- `\s` is what `isspace` accepts. -/
def isBlank (c : Char) : Bool := isspace c

/-- What `.` does not match. -/
def isLineEnd (c : Char) : Bool := ['\n', '\r', '\u0085', '\u2028', '\u2029'].contains c

/-- `\s*` and `\s+`. -/
def blanks (lo : Nat) : Item := .rep { cls := isBlank, lo := lo, hi := none, group := false }

/-- `([a-fA-F0-9]*)`. -/
def hexGroup : Item := .rep { cls := isHexDigit, lo := 0, hi := none, group := true }

/-- `(.*)`. -/
def wildcard : Item := .rep { cls := fun c => !isLineEnd c, lo := 0, hi := none, group := true }

/-- `\s*(.*)\s*\]`. -/
def listRest : Pattern := [blanks 0, wildcard, blanks 0, .char ']']

inductive PatternMatcher
  | ok
  | getfile
  | look
  | empty
  deriving DecidableEq, Repr

namespace PatternMatcher

def pattern : PatternMatcher → Pattern
  | ok => lits "ok".toList
  | getfile => lits "peers".toList ++ blanks 1 :: hexGroup :: blanks 0 :: .char '[' :: listRest
  | look => lits "list".toList ++ blanks 0 :: .char '[' :: listRest
  | empty => [blanks 0]

def Matches (m : PatternMatcher) (s : CString) : Prop := (fullMatch m.pattern s).isSome = true

instance (m : PatternMatcher) (s : CString) : Decidable (m.Matches s) :=
  inferInstanceAs (Decidable (_ = true))

/-- The groups of the match, the first one at index 0. -/
def getMatcher (m : PatternMatcher) (s : CString) : Except JavaError (List CString) :=
  match fullMatch m.pattern s with
  | some groups => .ok groups
  | none => .error .noMatch

end PatternMatcher

def dropTrailingEmpty (parts : List CString) : List CString := parts.rdropWhile fun w => w = []

/-- `split("\s+")`: blanks in front leave an empty part. -/
def splitBlanks (s : CString) : List CString :=
  if s.any isBlank then
    dropTrailingEmpty (if s.head?.any isBlank then [] :: words isBlank s else words isBlank s)
  else [s]

/-- `split(":")`. -/
def splitColon (s : CString) : List CString :=
  if ':' ∈ s then dropTrailingEmpty (s.splitOn ':') else [s]

/-! ## What they match -/

theorem fullMatch_listRest (hb : ∀ c ∈ b, isLineEnd c = false) :
    fullMatch listRest (b ++ [']']) = some [b.dropWhile isBlank] := by
  have hlast : fullMatch [wildcard, blanks 0, .char ']'] (b.dropWhile isBlank ++ [']']) =
      some [b.dropWhile isBlank] := by
    refine fullMatch_greedy_last rfl rfl (fun c hc => ?_) (by decide) (by decide) (by decide)
    have hmem : c ∈ b := (List.dropWhile_suffix isBlank).subset hc
    simp [hb c hmem]
  have hhead : ∀ c ∈ (b.dropWhile isBlank ++ [']']).head?, isBlank c = false := by
    intro c hc
    cases hd : b.dropWhile isBlank with
    | nil =>
        rw [hd] at hc
        obtain rfl : ']' = c := by simpa using hc
        decide
    | cons d t =>
        rw [hd] at hc
        obtain rfl : d = c := by simpa using hc
        exact not_sep_of_dropWhile hd
  calc
    fullMatch listRest (b ++ [']'])
        = fullMatch listRest (b.takeWhile isBlank ++ (b.dropWhile isBlank ++ [']'])) := by
          rw [← List.append_assoc, List.takeWhile_append_dropWhile]
    _ = some [b.dropWhile isBlank] :=
          fullMatch_greedy rfl (fun c hc => List.mem_takeWhile_imp hc) hhead (Nat.zero_le _) hlast

/-- `list [` … `]`. -/
theorem look_getMatcher (hb : ∀ c ∈ b, isLineEnd c = false) :
    PatternMatcher.look.getMatcher ("list [".toList ++ b ++ "]".toList) = .ok [b.dropWhile isBlank] := by
  have hmatch : fullMatch PatternMatcher.look.pattern ("list".toList ++ ([' '] ++ '[' :: (b ++ [']']))) =
      some [b.dropWhile isBlank] := by
    refine (fullMatch_lits _ _ _).trans ?_
    exact fullMatch_greedy_char rfl (by decide) (by decide) (Nat.zero_le _) (fullMatch_listRest hb)
  have htext : "list [".toList ++ b ++ "]".toList = "list".toList ++ ([' '] ++ '[' :: (b ++ [']'])) := by
    simp
  rw [PatternMatcher.getMatcher, htext, hmatch]

theorem isBlank_of_isHexDigit {c : Char} (h : isHexDigit c = true) : isBlank c = false := by
  by_contra hb
  have hall : ∀ c ∈ [' ', '\t', '\n', '\x0b', '\x0c', '\r'], isHexDigit c = false := by decide
  have hmem : c ∈ [' ', '\t', '\n', '\x0b', '\x0c', '\r'] := by
    have hb : isspace c = true := Bool.eq_true_of_not_eq_false hb
    simpa [isspace, or_assoc] using hb
  rw [hall c hmem] at h
  cases h

/-- `peers ` key ` [` … `]`. -/
theorem getfile_getMatcher {key : CString} (hne : key ≠ []) (hkey : ∀ c ∈ key, isHexDigit c = true)
    (hb : ∀ c ∈ b, isLineEnd c = false) :
    PatternMatcher.getfile.getMatcher ("peers ".toList ++ key ++ " [".toList ++ b ++ "]".toList) =
      .ok [key, b.dropWhile isBlank] := by
  have hbracket : fullMatch (blanks 0 :: .char '[' :: listRest) ([' '] ++ '[' :: (b ++ [']'])) =
      some [b.dropWhile isBlank] :=
    fullMatch_greedy_char rfl (by decide) (by decide) (Nat.zero_le _) (fullMatch_listRest hb)
  have hgroup : fullMatch (hexGroup :: blanks 0 :: .char '[' :: listRest)
      (key ++ ([' '] ++ '[' :: (b ++ [']']))) = some [key, b.dropWhile isBlank] :=
    fullMatch_greedy rfl hkey (fun c hc => Option.some.inj hc ▸ rfl) (Nat.zero_le _) hbracket
  have hmatch : fullMatch PatternMatcher.getfile.pattern
      ("peers".toList ++ ([' '] ++ (key ++ ([' '] ++ '[' :: (b ++ [']']))))) =
      some [key, b.dropWhile isBlank] := by
    refine (fullMatch_lits _ _ _).trans ?_
    refine fullMatch_greedy rfl (by decide) (fun c hc => ?_) le_rfl hgroup
    obtain ⟨d, t, rfl⟩ := List.exists_cons_of_ne_nil hne
    obtain rfl : d = c := by simpa using hc
    exact isBlank_of_isHexDigit (hkey d List.mem_cons_self)
  have htext : "peers ".toList ++ key ++ " [".toList ++ b ++ "]".toList =
      "peers".toList ++ ([' '] ++ (key ++ ([' '] ++ '[' :: (b ++ [']'])))) := by
    simp
  rw [PatternMatcher.getMatcher, htext, hmatch]

theorem empty_matches_iff : PatternMatcher.empty.Matches s ↔ ∀ c ∈ s, isBlank c = true := by
  constructor
  · intro h
    obtain ⟨groups, hg⟩ := Option.isSome_iff_exists.1 h
    obtain ⟨k, hk, hrest⟩ := List.exists_of_findSome?_eq_some hg
    obtain ⟨gs, hgs, -⟩ := Option.map_eq_some_iff.1 hrest
    obtain ⟨-, haccepts⟩ := mem_counts_iff.1 hk
    have hdrop : s.drop k = [] := by
      by_contra hne
      rw [fullMatch, if_neg hne] at hgs
      cases hgs
    have htake : s.take k = s := by
      have hsplit := List.take_append_drop k s
      rwa [hdrop, List.append_nil] at hsplit
    rw [htake] at haccepts
    exact haccepts.1
  · intro hall
    have hmatch : fullMatch [blanks 0] (s ++ []) = some [] :=
      fullMatch_greedy rfl hall (by simp) (Nat.zero_le _) rfl
    rw [List.append_nil] at hmatch
    exact Option.isSome_iff_exists.2 ⟨_, hmatch⟩

/-! ## What they split -/

theorem dropTrailingEmpty_of_forall {parts : List CString} (h : ∀ w ∈ parts, w ≠ []) :
    dropTrailingEmpty parts = parts := by
  refine List.rdropWhile_eq_self_iff.2 fun hne => ?_
  simpa using h _ (List.getLast_mem hne)

/-- A text that starts with a word is split into its words. -/
theorem splitBlanks_eq_words (hs : s ≠ []) (hhead : ∀ c ∈ s.head?, isBlank c = false) :
    splitBlanks s = words isBlank s := by
  unfold splitBlanks
  split
  · have hno : ¬ s.head?.any isBlank = true := by
      rw [Option.any_eq_true]
      rintro ⟨c, hc, hb⟩
      rw [hhead c hc] at hb
      cases hb
    rw [if_neg hno]
    exact dropTrailingEmpty_of_forall fun w hw => ne_nil_of_mem_words hw
  · next hany =>
      refine (words_of_no_sep (fun c hc => ?_) hs).symm
      by_contra hb
      exact hany (List.any_eq_true.2 ⟨c, hc, by simpa using hb⟩)

end JavaClient
end Raiezau
