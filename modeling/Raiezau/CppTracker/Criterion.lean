import Mathlib.Data.List.Find
import Raiezau.CppTracker.State
import Raiezau.CppTracker.Stream
import Raiezau.Text.Split

/-!
# Criterion — what a search request of the C++ tracker selects

`Criterion.cpp` and `Peer::parseLook`.  The criteria are tried in the order of a vector, and one matches
when the text before the first occurrence of its delimiter is its keyword.  Every delimiter ends in the
quote that opens the value, so a match is decided by what stands before that quote (`matches_iff`), and
the table of `chosen` says which predicate each field and operator gets.
-/

namespace Raiezau
namespace CppTracker

open Memory CUtil Text

variable {st : Tracker}

/-! ## Predicates -/

/-- The text of the exceptions `stoul` throws. -/
def stoulWhat : CString := "stoul".toList

def stoulOrThrow (s : CString) : Except CString Nat :=
  match stoul s with
  | none => .error stoulWhat
  | some n => .ok n

def GEQ (field : File → Nat) (f : File) (ssize : CString) : Except CString Bool := do
  let n ← stoulOrThrow ssize
  pure (field f ≥ n)

def LEQ (field : File → Nat) (f : File) (ssize : CString) : Except CString Bool := do
  let n ← stoulOrThrow ssize
  pure (field f ≤ n)

def GT (field : File → Nat) (f : File) (ssize : CString) : Except CString Bool := do
  let n ← stoulOrThrow ssize
  pure (field f > n)

def LT (field : File → Nat) (f : File) (ssize : CString) : Except CString Bool := do
  let n ← stoulOrThrow ssize
  pure (field f < n)

def EQI (field : File → Nat) (reversed : Bool) (f : File) (ssize : CString) : Except CString Bool := do
  let s ← stoulOrThrow ssize
  pure ((s == field f) != reversed)

def EQS (field : File → CString) (reversed : Bool) (f : File) (name : CString) :
    Except CString Bool :=
  pure ((name == field f) != reversed)

/-! ## Criteria -/

structure Criterion where
  delim : CString
  keyword : CString
  predicate : File → CString → Except CString Bool

/-- `Criterion::match`. -/
def Criterion.matches (c : Criterion) (value : CString) : Bool :=
  match findSub c.delim value with
  | none => false
  | some pos => value.take pos = c.keyword

/-- One file of the loop of `applyCriterion`: inserted into the result when it passes. -/
def Criterion.visit (c : Criterion) (st : Tracker) (argument : CString) (r : PtrSet) (f : Addr) :
    ExceptT CString Option PtrSet := do
  let x ← ExceptT.lift (st.file f)
  let keep ← ExceptT.mk (some (c.predicate x argument))
  pure (if keep then r ++ [f] else r)

/-- `Criterion::applyCriterion`, on a value that matches.  The set is visited, and the result built, in
the order of the pointers. -/
def Criterion.applyCriterion (c : Criterion) (st : Tracker) (value : CString) (s : PtrSet) :
    ExceptT CString Option PtrSet :=
  let pos := (findSub c.delim value).getD 0
  let v := value.drop (pos + c.delim.length)
  let argument := v.takeWhile fun ch => ch ≠ '"'
  s.foldlM (c.visit st argument) []

def makeNumField (field : File → Nat) (name : CString) : List Criterion :=
  let eq := EQI field true
  let neq := EQI field false
  [⟨"=\"".toList, name, eq⟩, ⟨"!=\"".toList, name, neq⟩, ⟨">=\"".toList, name, GEQ field⟩,
    ⟨"<=\"".toList, name, LEQ field⟩, ⟨">\"".toList, name, GT field⟩, ⟨"<\"".toList, name, LT field⟩]

def makeStringField (field : File → CString) (name : CString) : List Criterion :=
  let neq := EQS field true
  let eq := EQS field false
  [⟨"!=\"".toList, name, neq⟩, ⟨"=\"".toList, name, eq⟩]

def initCriterions : List Criterion :=
  makeNumField File.fileSize "filesize".toList ++ makeNumField File.pieceSize "piecesize".toList ++
    makeStringField File.fileName "filename".toList ++ makeStringField File.hash "hash".toList

/-! ## `look` -/

def parseCriterion (st : Tracker) (criterion : CString) (s : PtrSet) : ExceptT CString Option PtrSet :=
  match initCriterions.find? fun c => c.matches criterion with
  | some c => c.applyCriterion st criterion s
  | none => pure []

def fileListString (st : Tracker) (s : PtrSet) : Option CString := do
  let xs ← s.mapM st.file
  pure ("list [".toList ++ [' '].intercalate (xs.map File.toString) ++ "]\n".toList)

/-- The set `parseLook` writes. -/
def lookSet (st : Tracker) (look : CString) : ExceptT CString Option PtrSet :=
  (split look ' ').foldlM (fun s criterion => parseCriterion st criterion s) st.fileSet

def parseLook (st : Tracker) (look : CString) : ExceptT CString Option CString := do
  let s ← lookSet st look
  ExceptT.lift (fileListString st s)

/-! ## Criteria as a client writes them -/

inductive NumField
  | filesize
  | piecesize
  deriving DecidableEq, Repr

inductive StringField
  | filename
  | hash
  deriving DecidableEq, Repr

inductive NumOp
  | eq
  | ne
  | ge
  | le
  | gt
  | lt
  deriving DecidableEq, Repr

inductive StringOp
  | eq
  | ne
  deriving DecidableEq, Repr

/-- Field, operator and the text between the quotes. -/
inductive LookCriterion
  | num (field : NumField) (op : NumOp) (value : CString)
  | string (field : StringField) (op : StringOp) (value : CString)
  deriving DecidableEq, Repr

def NumField.name : NumField → CString
  | .filesize => "filesize".toList
  | .piecesize => "piecesize".toList

def NumField.get : NumField → File → Nat
  | .filesize => File.fileSize
  | .piecesize => File.pieceSize

def StringField.name : StringField → CString
  | .filename => "filename".toList
  | .hash => "hash".toList

def StringField.get : StringField → File → CString
  | .filename => File.fileName
  | .hash => File.hash

def NumOp.text : NumOp → CString
  | .eq => "=".toList
  | .ne => "!=".toList
  | .ge => ">=".toList
  | .le => "<=".toList
  | .gt => ">".toList
  | .lt => "<".toList

def StringOp.text : StringOp → CString
  | .eq => "=".toList
  | .ne => "!=".toList

namespace LookCriterion

def head : LookCriterion → CString
  | num field op _ => field.name ++ op.text
  | string field op _ => field.name ++ op.text

def value : LookCriterion → CString
  | num _ _ value => value
  | string _ _ value => value

def toString (c : LookCriterion) : CString := c.head ++ '"' :: (c.value ++ ['"'])

/-- A decimal value, or a text without spaces and quotes. -/
def Valid : LookCriterion → Prop
  | num _ _ value => value ≠ [] ∧ ∀ ch ∈ value, ch.isDigit = true
  | string _ _ value => ' ' ∉ value ∧ '"' ∉ value

instance : ∀ c : LookCriterion, Decidable c.Valid
  | num _ _ value => inferInstanceAs (Decidable (value ≠ [] ∧ ∀ ch ∈ value, ch.isDigit = true))
  | string _ _ value => inferInstanceAs (Decidable (' ' ∉ value ∧ '"' ∉ value))

/-- The usual meaning. -/
def Holds (x : File) : LookCriterion → Prop
  | num field .eq value => field.get x = digitsValue value
  | num field .ne value => field.get x ≠ digitsValue value
  | num field .ge value => digitsValue value ≤ field.get x
  | num field .le value => field.get x ≤ digitsValue value
  | num field .gt value => digitsValue value < field.get x
  | num field .lt value => field.get x < digitsValue value
  | string field .eq value => field.get x = value
  | string field .ne value => field.get x ≠ value

instance (x : File) : ∀ c : LookCriterion, Decidable (c.Holds x)
  | num field .eq value => inferInstanceAs (Decidable (field.get x = digitsValue value))
  | num field .ne value => inferInstanceAs (Decidable (field.get x ≠ digitsValue value))
  | num field .ge value => inferInstanceAs (Decidable (digitsValue value ≤ field.get x))
  | num field .le value => inferInstanceAs (Decidable (field.get x ≤ digitsValue value))
  | num field .gt value => inferInstanceAs (Decidable (digitsValue value < field.get x))
  | num field .lt value => inferInstanceAs (Decidable (field.get x < digitsValue value))
  | string field .eq value => inferInstanceAs (Decidable (field.get x = value))
  | string field .ne value => inferInstanceAs (Decidable (field.get x ≠ value))

/-- A number that `stoul` takes. -/
def Fits : LookCriterion → Prop
  | num _ _ value => digitsValue value < 2 ^ 64
  | string _ _ _ => True

instance : ∀ c : LookCriterion, Decidable c.Fits
  | num _ _ value => inferInstanceAs (Decidable (digitsValue value < 2 ^ 64))
  | string _ _ _ => .isTrue trivial

/-- A test for equality or inequality of numbers. -/
def Swapped : LookCriterion → Prop
  | num _ .eq _ => True
  | num _ .ne _ => True
  | _ => False

instance : ∀ c : LookCriterion, Decidable c.Swapped
  | num _ .eq _ => .isTrue trivial
  | num _ .ne _ => .isTrue trivial
  | num _ .ge _ => .isFalse id
  | num _ .le _ => .isFalse id
  | num _ .gt _ => .isFalse id
  | num _ .lt _ => .isFalse id
  | string _ _ _ => .isFalse id

end LookCriterion

/-! ## Which criterion is chosen -/

def NumOp.predicate : NumOp → (File → Nat) → File → CString → Except CString Bool
  | .eq, field => EQI field true
  | .ne, field => EQI field false
  | .ge, field => GEQ field
  | .le, field => LEQ field
  | .gt, field => GT field
  | .lt, field => LT field

def StringOp.predicate : StringOp → (File → CString) → File → CString → Except CString Bool
  | .eq, field => EQS field false
  | .ne, field => EQS field true

/-- The entry of the vector that a criterion is meant for. -/
def LookCriterion.chosen : LookCriterion → Criterion
  | num field op _ => ⟨op.text ++ ['"'], field.name, op.predicate field.get⟩
  | string field op _ => ⟨op.text ++ ['"'], field.name, op.predicate field.get⟩

/-- The delimiters end in their only quote, and keywords have none. -/
structure Criterion.Quoted (c : Criterion) : Prop where
  delim : c.delim = c.delim.dropLast ++ ['"']
  free : '"' ∉ c.delim.dropLast
  keyword : '"' ∉ c.keyword

theorem quoted_of_mem {c : Criterion} (hc : c ∈ initCriterions) : c.Quoted := by
  have hall : ∀ c ∈ initCriterions, c.delim = c.delim.dropLast ++ ['"'] ∧ '"' ∉ c.delim.dropLast ∧
      '"' ∉ c.keyword := by decide
  obtain ⟨hdelim, hfree, hkeyword⟩ := hall c hc
  exact ⟨hdelim, hfree, hkeyword⟩

/-- A match is decided by what stands before the first quote of the text. -/
theorem matches_iff {c : Criterion} (hc : c.Quoted) {A s : CString} (hA : '"' ∉ A) :
    c.matches (A ++ '"' :: s) = decide (A = c.keyword ++ c.delim.dropLast) := by
  have hfind := findSub_mark (q := '"') (s := s) hc.free hA
  rw [← hc.delim] at hfind
  unfold Criterion.matches
  rw [hfind]
  -- The delimiter ends in a quote: its first match ends at the first quote of the text, or at a later one.
  by_cases hsuf : c.delim.dropLast <:+ A
  · obtain ⟨B, rfl⟩ := hsuf
    simp only [List.suffix_append, if_true, List.length_append, Nat.add_sub_cancel]
    rw [List.append_assoc, List.take_left']
    · simp
    · rfl
  · have hne : A ≠ c.keyword ++ c.delim.dropLast := by
      rintro rfl
      exact hsuf (List.suffix_append _ _)
    rw [if_neg hsuf]
    cases hlater : findSub c.delim s with
    | none => simp [hne]
    | some k =>
        -- a later occurrence leaves the quote in front of it, which no keyword has
        have hquote : '"' ∈ (A ++ '"' :: s).take (A.length + 1 + k) := by
          rw [Nat.add_assoc, List.take_length_add_append, Nat.add_comm, List.take_succ_cons]
          simp
        have hdiff : (A ++ '"' :: s).take (A.length + 1 + k) ≠ c.keyword := by
          intro heq
          exact hc.keyword (heq ▸ hquote)
        simp [hdiff, hne]

theorem head_no_quote (c : LookCriterion) : '"' ∉ c.head := by
  have hnum : ∀ (field : NumField) (op : NumOp), '"' ∉ field.name ++ op.text := by
    intro field op
    cases field <;> cases op <;> decide
  have hstring : ∀ (field : StringField) (op : StringOp), '"' ∉ field.name ++ op.text := by
    intro field op
    cases field <;> cases op <;> decide
  cases c with
  | num field op value => exact hnum field op
  | string field op value => exact hstring field op

/-- The first entry whose keyword and operator make up the head is the one meant. -/
theorem find_head (c : LookCriterion) :
    (initCriterions.find? fun d => decide (c.head = d.keyword ++ d.delim.dropLast)) =
      some c.chosen := by
  cases c with
  | num field op value => cases field <;> cases op <;> rfl
  | string field op value => cases field <;> cases op <;> rfl

theorem find_chosen (c : LookCriterion) :
    (initCriterions.find? fun d => d.matches c.toString) = some c.chosen := by
  rw [← find_head c]
  refine List.find?_congr fun d hd => ?_
  exact matches_iff (quoted_of_mem hd) (head_no_quote c)

/-! ## One criterion -/

/-- All pointers of the set refer to files. -/
def AllFiles (st : Tracker) (s : PtrSet) : Prop := ∀ f ∈ s, ∃ x, st.file f = some x

/-- The files of a set that pass a test. -/
def passing (st : Tracker) (test : File → Bool) (s : PtrSet) : PtrSet :=
  s.filter fun f => (st.file f).any test

theorem allFiles_passing {s : PtrSet} (hs : AllFiles st s) (test : File → Bool) :
    AllFiles st (passing st test s) := fun f hf => hs f (List.mem_filter.1 hf).1

theorem passing_passing (st : Tracker) (t u : File → Bool) (s : PtrSet) :
    passing st u (passing st t s) = passing st (fun x => t x && u x) s := by
  unfold passing
  rw [List.filter_filter]
  refine List.filter_congr fun f _ => ?_
  cases st.file f with
  | none => rfl
  | some x => simp [Bool.and_comm]

theorem visit_ok {c : Criterion} {argument : CString} {r : PtrSet} {f : Addr} {x : File} {b : Bool}
    (hx : st.file f = some x) (hp : c.predicate x argument = .ok b) :
    c.visit st argument r f = pure (if b then r ++ [f] else r) := by
  rw [Criterion.visit, hx]
  show ExceptT.bind (ExceptT.mk (some (c.predicate x argument))) _ = _
  rw [hp]
  rfl

theorem visit_throws {c : Criterion} {argument what : CString} {r : PtrSet} {f : Addr} {x : File}
    (hx : st.file f = some x) (hp : c.predicate x argument = .error what) :
    c.visit st argument r f = throw what := by
  rw [Criterion.visit, hx]
  show ExceptT.bind (ExceptT.mk (some (c.predicate x argument))) _ = _
  rw [hp]
  rfl

theorem visits_ok {s : PtrSet} (hs : AllFiles st s) {c : Criterion} {argument : CString}
    {test : File → Bool} (hp : ∀ x, c.predicate x argument = .ok (test x)) (r : PtrSet) :
    s.foldlM (c.visit st argument) r = pure (r ++ passing st test s) := by
  induction s generalizing r with
  | nil => simp [passing]
  | cons f s ih =>
      obtain ⟨x, hx⟩ := hs f (by simp)
      have hrest := ih fun g hg => hs g (by simp [hg])
      rw [List.foldlM_cons, visit_ok hx (hp x), pure_bind, hrest]
      cases ht : test x <;> simp [passing, hx, ht]

theorem visits_throw {f : Addr} {s : PtrSet} (hs : AllFiles st (f :: s)) {c : Criterion}
    {argument what : CString} (hp : ∀ x, c.predicate x argument = .error what) (r : PtrSet) :
    (f :: s).foldlM (c.visit st argument) r = throw what := by
  obtain ⟨x, hx⟩ := hs f (by simp)
  rw [List.foldlM_cons, visit_throws hx (hp x)]
  rfl

theorem head_chosen (c : LookCriterion) :
    c.head = c.chosen.keyword ++ c.chosen.delim.dropLast := by
  have hsome := List.find?_some (find_head c)
  exact of_decide_eq_true hsome

/-- The value a criterion is applied to is what stands between its quotes. -/
theorem argument_chosen {c : LookCriterion} (hv : '"' ∉ c.value) :
    (c.toString.drop ((findSub c.chosen.delim c.toString).getD 0 + c.chosen.delim.length)).takeWhile
      (fun ch => ch ≠ '"') = c.value := by
  have hmem : c.chosen ∈ initCriterions := List.mem_of_find?_eq_some (find_chosen c)
  have hq := quoted_of_mem hmem
  have hsuf : c.chosen.delim.dropLast <:+ c.head := ⟨_, (head_chosen c).symm⟩
  have hfind := findSub_mark (q := '"') (s := c.value ++ ['"']) hq.free (head_no_quote c)
  rw [← hq.delim, if_pos hsuf] at hfind
  have hlen : c.chosen.delim.length = c.chosen.delim.dropLast.length + 1 := by
    conv_lhs => rw [hq.delim]
    simp
  have hle := hsuf.length_le
  have hoff : c.head.length - c.chosen.delim.dropLast.length + c.chosen.delim.length =
      (c.head ++ ['"']).length := by
    rw [hlen, List.length_append, List.length_singleton]
    omega
  have hdrop : c.toString = (c.head ++ ['"']) ++ (c.value ++ ['"']) := by
    simp [LookCriterion.toString]
  rw [show c.toString = c.head ++ '"' :: (c.value ++ ['"']) from rfl, hfind, Option.getD_some, hoff]
  rw [show c.head ++ '"' :: (c.value ++ ['"']) = (c.head ++ ['"']) ++ (c.value ++ ['"']) from hdrop,
    List.drop_left]
  have hall : ∀ ch ∈ c.value, decide (ch ≠ '"') = true := by
    intro ch hch
    exact decide_eq_true fun h => hv (h ▸ hch)
  rw [List.takeWhile_append_of_pos hall]
  simp

namespace LookCriterion

/-- What the chosen predicate tests. -/
def applied (x : File) : LookCriterion → Bool
  | num field .eq value => !decide (field.get x = digitsValue value)
  | num field .ne value => decide (field.get x = digitsValue value)
  | num field .ge value => decide (field.get x ≥ digitsValue value)
  | num field .le value => decide (field.get x ≤ digitsValue value)
  | num field .gt value => decide (field.get x > digitsValue value)
  | num field .lt value => decide (field.get x < digitsValue value)
  | string field .eq value => decide (field.get x = value)
  | string field .ne value => !decide (field.get x = value)

/-- The predicates of numeric equality and inequality are exchanged. -/
theorem applied_iff (x : File) (c : LookCriterion) :
    c.applied x = true ↔ if c.Swapped then ¬ c.Holds x else c.Holds x := by
  cases c with
  | num field op value => cases op <;> simp [applied, Holds, Swapped]
  | string field op value => cases op <;> simp [applied, Holds, Swapped]

theorem Valid.value_no_quote {c : LookCriterion} (hc : c.Valid) : '"' ∉ c.value := by
  cases c with
  | num field op value =>
      intro hq
      have hdigit : ('"').isDigit = true := hc.2 _ hq
      revert hdigit
      decide
  | string field op value => exact hc.2

theorem Valid.value_no_space {c : LookCriterion} (hc : c.Valid) : ' ' ∉ c.value := by
  cases c with
  | num field op value =>
      intro hq
      have hdigit : (' ').isDigit = true := hc.2 _ hq
      revert hdigit
      decide
  | string field op value => exact hc.1

theorem beq_eq_decide_symm {α : Type} [BEq α] [LawfulBEq α] [DecidableEq α] (a b : α) :
    (a == b) = decide (b = a) := by
  rw [Bool.eq_iff_iff, beq_iff_eq, decide_eq_true_eq, eq_comm]

theorem predicate_ok {c : LookCriterion} (hc : c.Valid) (hfits : c.Fits) (x : File) :
    c.chosen.predicate x c.value = .ok (c.applied x) := by
  cases c with
  | num field op value =>
      have hstoul : stoulOrThrow value = .ok (digitsValue value) := by
        rw [stoulOrThrow, stoul_digits hc.1 hc.2, if_neg (Nat.not_le.2 hfits)]
      cases op <;>
        simp only [chosen, NumOp.predicate, LookCriterion.value, EQI, GEQ, LEQ, GT, LT, hstoul, beq_eq_decide_symm,
          applied, Bool.bne_true, Bool.bne_false] <;> rfl
  | string field op value =>
      cases op <;>
        simp only [chosen, StringOp.predicate, LookCriterion.value, EQS, beq_eq_decide_symm, applied, Bool.bne_true,
          Bool.bne_false] <;> rfl

theorem predicate_throws {c : LookCriterion} (hc : c.Valid) (hfits : ¬ c.Fits) (x : File) :
    c.chosen.predicate x c.value = .error stoulWhat := by
  cases c with
  | num field op value =>
      have hstoul : stoulOrThrow value = .error stoulWhat := by
        rw [stoulOrThrow, stoul_digits hc.1 hc.2, if_pos (Nat.le_of_not_lt hfits)]
      cases op <;>
        simp only [chosen, NumOp.predicate, LookCriterion.value, EQI, GEQ, LEQ, GT, LT, hstoul] <;> rfl
  | string field op value => exact absurd trivial hfits

end LookCriterion

theorem parseCriterion_chosen (st : Tracker) {c : LookCriterion} (hc : c.Valid) (s : PtrSet) :
    parseCriterion st c.toString s = s.foldlM (c.chosen.visit st c.value) [] := by
  rw [parseCriterion, find_chosen]
  simp only [Criterion.applyCriterion, argument_chosen hc.value_no_quote]

theorem parseCriterion_ok {c : LookCriterion} (hc : c.Valid) (hfits : c.Fits) {s : PtrSet}
    (hs : AllFiles st s) : parseCriterion st c.toString s = pure (passing st (c.applied ·) s) := by
  rw [parseCriterion_chosen st hc, visits_ok hs (LookCriterion.predicate_ok hc hfits), List.nil_append]

/-! ## The whole argument -/

/-- The criteria separated by single spaces. -/
def lookText (cs : List LookCriterion) : CString := [' '].intercalate (cs.map LookCriterion.toString)

theorem head_no_space (c : LookCriterion) : ' ' ∉ c.head := by
  have hnum : ∀ (field : NumField) (op : NumOp), ' ' ∉ field.name ++ op.text := by
    intro field op
    cases field <;> cases op <;> decide
  have hstring : ∀ (field : StringField) (op : StringOp), ' ' ∉ field.name ++ op.text := by
    intro field op
    cases field <;> cases op <;> decide
  cases c with
  | num field op value => exact hnum field op
  | string field op value => exact hstring field op

theorem split_lookText {cs : List LookCriterion} (hcs : ∀ c ∈ cs, c.Valid) :
    split (lookText cs) ' ' = cs.map LookCriterion.toString := by
  refine split_intercalate fun w hw => ?_
  obtain ⟨c, hc, rfl⟩ := List.mem_map.1 hw
  refine ⟨by simp [LookCriterion.toString], ?_⟩
  simp [LookCriterion.toString, head_no_space c, (hcs c hc).value_no_space]

theorem lookSet_ok {cs : List LookCriterion} (hcs : ∀ c ∈ cs, c.Valid) (hfits : ∀ c ∈ cs, c.Fits)
    (hall : AllFiles st st.fileSet) :
    lookSet st (lookText cs) = pure (passing st (fun x => cs.all (LookCriterion.applied x)) st.fileSet) := by
  rw [lookSet, split_lookText hcs]
  generalize st.fileSet = s at hall
  -- Each criterion is applied to what those before it let through.
  induction cs generalizing s with
  | nil =>
      have hkeep : passing st (fun x => ([] : List LookCriterion).all (LookCriterion.applied x)) s = s := by
        refine List.filter_eq_self.2 fun f hf => ?_
        obtain ⟨x, hx⟩ := hall f hf
        simp [hx]
      rw [hkeep]
      rfl
  | cons c cs ih =>
      have hrest := ih (fun d hd => hcs d (by simp [hd])) (fun d hd => hfits d (by simp [hd]))
        (passing st (c.applied ·) s) (allFiles_passing hall _)
      rw [List.map_cons, List.foldlM_cons, parseCriterion_ok (hcs c (by simp)) (hfits c (by simp)) hall,
        pure_bind, hrest, passing_passing]
      rfl

/-- A number too large for `stoul` is only noticed when there is a file to test. -/
theorem lookSet_throws {c : LookCriterion} {cs : List LookCriterion} (hcs : ∀ d ∈ c :: cs, d.Valid)
    (hbig : ¬ c.Fits) (hall : AllFiles st st.fileSet) (hne : st.fileSet ≠ []) :
    lookSet st (lookText (c :: cs)) = throw stoulWhat := by
  obtain ⟨f, s, hfs⟩ := List.exists_cons_of_ne_nil hne
  rw [hfs] at hall
  have hc : c.Valid := hcs c (by simp)
  rw [lookSet, split_lookText hcs, List.map_cons, List.foldlM_cons, parseCriterion_chosen st hc, hfs,
    visits_throw hall (LookCriterion.predicate_throws hc hbig)]
  rfl

theorem lookSet_empty {cs : List LookCriterion} (hcs : ∀ c ∈ cs, c.Valid) (hnil : st.fileSet = []) :
    lookSet st (lookText cs) = pure [] := by
  rw [lookSet, split_lookText hcs, hnil]
  induction cs with
  | nil => rfl
  | cons c cs ih =>
      have hrest := ih fun d hd => hcs d (by simp [hd])
      rw [List.map_cons, List.foldlM_cons, parseCriterion_chosen st (hcs c (by simp)), List.foldlM_nil,
        pure_bind, hrest]

/-- The files of the set for which every criterion holds. -/
def satisfying (st : Tracker) (cs : List LookCriterion) : PtrSet :=
  passing st (fun x => cs.all fun c => decide (c.Holds x)) st.fileSet

/-- Whatever the order of the criteria, the set written is the set of files for which all hold. -/
def LookMeans (st : Tracker) (cs : List LookCriterion) : Prop :=
  ∀ cs', cs'.Perm cs → lookSet st (lookText cs') = pure (satisfying st cs)

/-- There are no files; or all numbers fit, and no number is tested for equality or inequality, unless
each file that passes the other criteria passes one of these tests and fails one. -/
def LookCondition (st : Tracker) (cs : List LookCriterion) : Prop :=
  st.fileSet = [] ∨ ((∀ c ∈ cs, c.Fits) ∧
    ((∀ c ∈ cs, ¬ c.Swapped) ∨
      ∀ f ∈ st.fileSet, ∀ x ∈ st.file f, (∀ c ∈ cs, ¬ c.Swapped → c.Holds x) →
        (∃ c ∈ cs, c.Swapped ∧ c.Holds x) ∧ ∃ c ∈ cs, c.Swapped ∧ ¬ c.Holds x))

/-- Testing with the exchanged predicates comes to the same as testing with the meant ones. -/
theorem applied_all_iff {cs : List LookCriterion} (hswap : ∃ c ∈ cs, c.Swapped) (x : File) :
    (cs.all (LookCriterion.applied x) = cs.all fun c => decide (c.Holds x)) ↔
      ((∀ c ∈ cs, ¬ c.Swapped → c.Holds x) →
        (∃ c ∈ cs, c.Swapped ∧ c.Holds x) ∧ ∃ c ∈ cs, c.Swapped ∧ ¬ c.Holds x) := by
  obtain ⟨s, hs, hsw⟩ := hswap
  rw [Bool.eq_iff_iff]
  simp only [List.all_eq_true, LookCriterion.applied_iff, decide_eq_true_eq]
  constructor
  · intro hiff hplain
    constructor
    · by_contra hnone
      push Not at hnone
      have happ : ∀ c ∈ cs, if c.Swapped then ¬ c.Holds x else c.Holds x := by
        intro c hc
        split
        · next h => exact hnone c hc h
        · next h => exact hplain c hc h
      exact hnone s hs hsw (hiff.1 happ s hs)
    · by_contra hnone
      push Not at hnone
      have hholds : ∀ c ∈ cs, c.Holds x := by
        intro c hc
        by_cases h : c.Swapped
        · exact hnone c hc h
        · exact hplain c hc h
      have happ := hiff.2 hholds s hs
      rw [if_pos hsw] at happ
      exact happ (hholds s hs)
  · intro hmixed
    constructor
    · intro happ
      have hplain : ∀ c ∈ cs, ¬ c.Swapped → c.Holds x := by
        intro c hc h
        have := happ c hc
        rwa [if_neg h] at this
      obtain ⟨⟨c, hc, hcs, hholds⟩, -⟩ := hmixed hplain
      have := happ c hc
      rw [if_pos hcs] at this
      exact absurd hholds this
    · intro hholds
      obtain ⟨-, c, hc, -, hnot⟩ := hmixed fun c hc _ => hholds c hc
      exact absurd (hholds c hc) hnot

theorem passing_congr_iff {s : PtrSet} {t u : File → Bool} (hs : AllFiles st s) :
    passing st t s = passing st u s ↔ ∀ f ∈ s, ∀ x ∈ st.file f, t x = u x := by
  constructor
  · intro heq f hf x hx
    have hx' : st.file f = some x := hx
    have hmem : f ∈ passing st t s ↔ f ∈ passing st u s := by rw [heq]
    simp only [passing, List.mem_filter, hf, true_and, hx', Option.any_some] at hmem
    exact Bool.eq_iff_iff.2 hmem
  · intro h
    refine List.filter_congr fun f hf => ?_
    obtain ⟨x, hx⟩ := hs f hf
    rw [hx, Option.any_some, Option.any_some]
    exact h f hf x hx

/-- The set written is the meant one, in every order, exactly under the condition. -/
theorem lookCriteria_iff (hall : AllFiles st st.fileSet) {cs : List LookCriterion}
    (hcs : ∀ c ∈ cs, c.Valid) : LookMeans st cs ↔ LookCondition st cs := by
  -- Without files no predicate is called, so nothing throws.
  by_cases hnil : st.fileSet = []
  · have hsat : satisfying st cs = [] := by
      rw [satisfying, hnil]
      rfl
    refine iff_of_true (fun cs' hperm => ?_) (.inl hnil)
    rw [hsat]
    exact lookSet_empty (fun c hc => hcs c (hperm.subset hc)) hnil
  by_cases hfits : ∀ c ∈ cs, c.Fits
  · have hset : ∀ cs', cs'.Perm cs → lookSet st (lookText cs') =
        pure (passing st (fun x => cs.all (LookCriterion.applied x)) st.fileSet) := by
      intro cs' hperm
      rw [lookSet_ok (fun c hc => hcs c (hperm.subset hc)) (fun c hc => hfits c (hperm.subset hc)) hall]
      congr 2
      funext x
      exact hperm.all_eq
    have hmeans : LookMeans st cs ↔ ∀ f ∈ st.fileSet, ∀ x ∈ st.file f,
        cs.all (LookCriterion.applied x) = cs.all fun c => decide (c.Holds x) := by
      rw [← passing_congr_iff hall]
      constructor
      · intro h
        have heq := (hset cs (List.Perm.refl _)).symm.trans (h cs (List.Perm.refl _))
        exact Except.ok.inj (Option.some.inj heq)
      · intro heq cs' hperm
        rw [hset cs' hperm, heq]
        rfl
    rw [hmeans, LookCondition, or_iff_right hnil, and_iff_right hfits]
    by_cases hswap : ∃ c ∈ cs, c.Swapped
    · have hnot : ¬ ∀ c ∈ cs, ¬ c.Swapped := by
        push Not
        exact hswap
      rw [or_iff_right hnot]
      exact forall₂_congr fun f _ => forall₂_congr fun x _ => applied_all_iff hswap x
    · have hplain : ∀ c ∈ cs, ¬ c.Swapped := by
        push Not at hswap
        exact hswap
      refine iff_of_true (fun f _ x _ => ?_) (.inl hplain)
      rw [Bool.eq_iff_iff]
      simp only [List.all_eq_true, LookCriterion.applied_iff, decide_eq_true_eq]
      refine forall₂_congr fun c hc => ?_
      rw [if_neg (hplain c hc)]
  · -- with the number that does not fit in front, `stoul` throws at the first file
    refine iff_of_false (fun h => ?_) ?_
    · push Not at hfits
      obtain ⟨c, hc, hbig⟩ := hfits
      have hperm : (c :: cs.erase c).Perm cs := (List.perm_cons_erase hc).symm
      have hvalid : ∀ d ∈ c :: cs.erase c, d.Valid := fun d hd => hcs d (hperm.subset hd)
      have hthrow := lookSet_throws hvalid hbig hall hnil
      rw [h _ hperm] at hthrow
      cases hthrow
    · rintro (h | ⟨h, -⟩)
      · exact hnil h
      · exact hfits h

/-! ## Two searches -/

/-- One file of ten bytes. -/
def oneFile : Tracker :=
  (registerFile Tracker.init
    { fileName := "film".toList, fileSize := 10, pieceSize := 4, hash := "0a".toList, peers := [] }).1

theorem allFiles_oneFile : AllFiles oneFile oneFile.fileSet := by
  intro f hf
  obtain rfl : f = 0 := List.mem_singleton.1 hf
  exact ⟨_, rfl⟩

/-- `filename="film"` and `filesize>="7"`. -/
def nameAndSize : List LookCriterion :=
  [.string .filename .eq "film".toList, .num .filesize .ge "7".toList]

theorem lookCriteria_iff_name_and_size : satisfying oneFile nameAndSize = [0] ∧
    LookMeans oneFile nameAndSize := by
  refine ⟨by decide, (lookCriteria_iff allFiles_oneFile (by decide)).2 (.inr ⟨by decide, .inl (by decide)⟩)⟩

/-- `filesize="10"` does not find a file of ten bytes. -/
theorem equal_size_not_found : LookCriterion.Valid (.num .filesize .eq "10".toList) ∧
    lookSet oneFile (lookText [.num .filesize .eq "10".toList]) = pure [] ∧
    satisfying oneFile [.num .filesize .eq "10".toList] = [0] ∧
    ¬ LookMeans oneFile [.num .filesize .eq "10".toList] := by
  have hset : lookSet oneFile (lookText [.num .filesize .eq "10".toList]) = pure [] := by
    rfl
  refine ⟨by decide, hset, by decide, fun h => ?_⟩
  have hmeant := h _ (List.Perm.refl _)
  rw [hset] at hmeant
  have hlists : [] = satisfying oneFile [.num .filesize .eq "10".toList] :=
    Except.ok.inj (Option.some.inj hmeant)
  revert hlists
  decide

end CppTracker
end Raiezau
