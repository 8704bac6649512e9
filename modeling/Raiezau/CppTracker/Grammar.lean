import Raiezau.Text.Split
import Raiezau.CppTracker.Relation
import Raiezau.CppTracker.Totality

/-!
# Grammar — the announces that are accepted

What an announce should look like is `InGrammar`.  What `handleAnnounce` takes is more, as it never looks at the state
of its stream: a `Reading` is a text as it takes it, and a text has one at most.
-/

namespace Raiezau
namespace CppTracker

open CUtil Text Machine

/-! ## The grammar -/

inductive Keyword
  | listen
  | seed
  | leech
  deriving DecidableEq, Repr

namespace Keyword

def text : Keyword → CString
  | listen => listenKeyword
  | seed => seedKeyword
  | leech => leechKeyword

def clause : Keyword → CString → Clause
  | listen, argument => .listen argument
  | seed, argument => .seed argument
  | leech, argument => .leech argument

end Keyword

/-- A clause as it is written: what stands before its argument is the gap. -/
structure ClauseText where
  keyword : Keyword
  gap : CString
  argument : CString
  deriving DecidableEq, Repr

namespace ClauseText

/-- What follows the keyword.  A list has its brackets. -/
def body (w : ClauseText) : CString :=
  w.gap ++ if w.keyword = .listen then w.argument else '[' :: (w.argument ++ [']'])

def text (w : ClauseText) : CString := w.keyword.text ++ w.body

/-- The argument that a clause should have. -/
def ArgumentOk (argument : CString) : Keyword → Prop
  | .listen => IsNumeral argument ∧ PortOk (digitsValue argument)
  | .seed => ']' ∉ argument ∧ (words (fun c => c = ' ') argument).length % 4 = 0
  | .leech => ']' ∉ argument

/-- The gap is not empty: `seed[...]` in one word is not a clause of the grammar. -/
def Proper (w : ClauseText) : Prop := w.gap ≠ [] ∧ Blank w.gap ∧ ArgumentOk w.argument w.keyword

end ClauseText

/-- One clause of each kind in some order, with blanks between them. -/
def InGrammar (text : CString) : Prop :=
  ∃ (w₁ w₂ w₃ : ClauseText) (b₀ b₁ b₂ b₃ : CString),
    text = b₀ ++ w₁.text ++ b₁ ++ w₂.text ++ b₂ ++ w₃.text ++ b₃ ∧
      (∀ b ∈ [b₀, b₁, b₂, b₃], Blank b) ∧ b₁ ≠ [] ∧ b₂ ≠ [] ∧ (∀ w ∈ [w₁, w₂, w₃], w.Proper) ∧
      [w₁.keyword, w₂.keyword, w₃.keyword].Perm [.listen, .seed, .leech]

/-! ## What is taken -/

/-- What lies ahead in the stream where a clause is read: one and the rest, or one that the text ends in. -/
inductive Ahead
  | whole (w : ClauseText) (rest : CString)
  | cut (keyword : Keyword) (gap : CString)
  | unclosed (keyword : Keyword) (gap argument : CString)
  deriving DecidableEq, Repr

namespace Ahead

def keyword : Ahead → Keyword
  | whole w _ => w.keyword
  | cut keyword _ => keyword
  | unclosed keyword _ _ => keyword

/-- What follows the keyword. -/
def tail : Ahead → CString
  | whole w rest => w.body ++ rest
  | cut _ gap => gap
  | unclosed _ gap argument => gap ++ '[' :: argument

def text (e : Ahead) : CString := e.keyword.text ++ e.tail

/-- The argument that is read.  Where there is none the variable keeps its value. -/
def argument (stale : CString) : Ahead → CString
  | whole w _ => w.argument
  | cut _ _ => stale
  | unclosed _ _ argument => argument

def clause (stale : CString) (e : Ahead) : Clause := e.keyword.clause (e.argument stale)

/-- The stream after it. -/
def line : Ahead → IStream
  | whole w rest => ⟨rest, w.keyword ≠ .listen || !rest.isEmpty⟩
  | cut _ _ => ⟨[], false⟩
  | unclosed _ _ _ => ⟨[], false⟩

/-- The text is cut where the stream is.  Anything may stand before a bracket. -/
def Readable : Ahead → Prop
  | whole w rest => w.gap ≠ [] ∧ Ends w.gap ∧
      if w.keyword = .listen then Blank w.gap ∧ IsWord w.argument ∧ Ends rest else '[' ∉ w.gap ∧ ']' ∉ w.argument
  | cut keyword gap => Ends gap ∧ if keyword = .listen then Blank gap else '[' ∉ gap
  | unclosed keyword gap argument => keyword ≠ .listen ∧ gap ≠ [] ∧ Ends gap ∧ '[' ∉ gap ∧ ']' ∉ argument

instance : DecidablePred Readable
  | whole w rest => inferInstanceAs (Decidable (w.gap ≠ [] ∧ Ends w.gap ∧
      if w.keyword = .listen then Blank w.gap ∧ IsWord w.argument ∧ Ends rest else '[' ∉ w.gap ∧ ']' ∉ w.argument))
  | cut keyword gap => inferInstanceAs (Decidable (Ends gap ∧ if keyword = .listen then Blank gap else '[' ∉ gap))
  | unclosed keyword gap argument =>
      inferInstanceAs (Decidable (keyword ≠ .listen ∧ gap ≠ [] ∧ Ends gap ∧ '[' ∉ gap ∧ ']' ∉ argument))

end Ahead

/-- Three clauses, the last of them perhaps cut off. -/
structure Reading where
  before : CString
  first : ClauseText
  between : CString
  second : ClauseText
  between' : CString
  last : Ahead
  deriving DecidableEq, Repr

namespace Reading

def atSecond (r : Reading) : Ahead := .whole r.second (r.between' ++ r.last.text)

def atFirst (r : Reading) : Ahead := .whole r.first (r.between ++ r.atSecond.text)

def text (r : Reading) : CString := r.before ++ r.atFirst.text

/-- The clauses that are read.  The last may have the argument of the one before it. -/
def clauses (r : Reading) : List Clause :=
  [r.first.keyword.clause r.first.argument, r.second.keyword.clause r.second.argument,
    r.last.clause r.second.argument]

/-- The text is read so, and the clauses are taken. -/
structure Taken (r : Reading) : Prop where
  blank : Blank r.before ∧ Blank r.between ∧ Blank r.between'
  readable : r.atFirst.Readable ∧ r.atSecond.Readable ∧ r.last.Readable
  fine : ∀ c ∈ r.clauses, c.Fine true
  keywords : [r.first.keyword, r.second.keyword, r.last.keyword].Perm [.listen, .seed, .leech]

end Reading

/-- Nothing but blanks in the gap, and a number of digits. -/
def ClauseText.Tidy (w : ClauseText) : Prop := Blank w.gap ∧ (w.keyword = .listen → IsNumeral w.argument)

instance (w : ClauseText) : Decidable w.Tidy :=
  inferInstanceAs (Decidable (Blank w.gap ∧ (w.keyword = .listen → IsNumeral w.argument)))

/-- A whole clause with nothing after it. -/
def Ahead.Tidy : Ahead → Prop
  | whole w rest => w.Tidy ∧ Blank rest
  | cut _ _ => False
  | unclosed _ _ _ => False

instance : DecidablePred Ahead.Tidy
  | .whole w rest => inferInstanceAs (Decidable (w.Tidy ∧ Blank rest))
  | .cut _ _ => .isFalse id
  | .unclosed _ _ _ => .isFalse id

/-- The clauses are written in full, and with blanks between them. -/
structure Reading.Tidy (r : Reading) : Prop where
  apart : r.between ≠ [] ∧ r.between' ≠ []
  first : r.first.Tidy
  second : r.second.Tidy
  last : r.last.Tidy

/-- The announce with this text after its keyword is accepted. -/
def Accepts (st : Tracker) (p : Memory.Addr) (text : CString) : Prop :=
  ∃ st' reply, handleAnnounce st p ⟨text, !text.isEmpty⟩ = some (st', .ok reply)

variable {b b' t : CString} {e e' : Ahead} {r r' : Reading} {s : Scan} {k : Keyword}

/-! ## Clauses in the stream -/

theorem Keyword.isWord (k : Keyword) : IsWord k.text := by
  cases k <;> decide

theorem Keyword.text_injective : Function.Injective Keyword.text := by
  intro k k' h
  revert h
  cases k <;> cases k' <;> decide

theorem Ends.append (hne : t ≠ []) (h : Ends t) (u : CString) : Ends (t ++ u) := by
  obtain ⟨c, t, rfl⟩ := List.exists_cons_of_ne_nil hne
  exact h

namespace Ahead

theorem Readable.ends_tail (h : e.Readable) : Ends e.tail := by
  cases e with
  | whole w rest =>
      rw [tail, ClauseText.body, List.append_assoc]
      exact h.2.1.append h.1 _
  | cut keyword gap => exact h.1
  | unclosed keyword gap argument => exact h.2.2.1.append h.2.1 _

theorem Readable.readWord_text (h : e.Readable) (hb : Blank b) (kw : CString) :
    (IStream.mk (b ++ e.text) true).readWord kw = (⟨e.tail, !e.tail.isEmpty⟩, e.keyword.text) :=
  IStream.readWord_word hb e.keyword.isWord h.ends_tail kw

/-- The number of a `listen` clause. -/
theorem Readable.readWord_tail (h : e.Readable) (hk : e.keyword = .listen) (arg : CString) :
    (IStream.mk e.tail (!e.tail.isEmpty)).readWord arg = (e.line, e.argument arg) := by
  cases e with
  | whole w rest =>
      have hk : w.keyword = .listen := hk
      obtain ⟨hgap, -, hrest⟩ := h
      rw [if_pos hk] at hrest
      obtain ⟨hblank, hword, hends⟩ := hrest
      have htail : (whole w rest).tail = w.gap ++ (w.argument ++ rest) := by
        rw [tail, ClauseText.body, if_pos hk, List.append_assoc]
      have hgood : (!(whole w rest).tail.isEmpty) = true := by
        rw [htail]
        simp [hgap]
      rw [hgood, htail, IStream.readWord_word hblank hword hends]
      simp [line, argument, hk]
  | cut keyword gap =>
      have hblank : Blank gap := by
        have hgap := h.2
        rwa [if_pos (show keyword = .listen from hk)] at hgap
      cases gap with
      | nil => rfl
      | cons c gap => exact IStream.readWord_blank hblank arg
  | unclosed keyword gap argument => exact absurd hk h.1

/-- The list of a clause. -/
theorem Readable.readBrackets_tail (h : e.Readable) (hk : e.keyword ≠ .listen) (kw arg : CString) :
    Scan.readBrackets ⟨⟨e.tail, !e.tail.isEmpty⟩, kw, arg⟩ = ⟨e.line, kw, e.argument arg⟩ := by
  cases e with
  | whole w rest =>
      have hk : w.keyword ≠ .listen := hk
      obtain ⟨hgap, -, hrest⟩ := h
      rw [if_neg hk] at hrest
      -- The first `getline` takes the gap with its bracket, the second one the list.
      have htail : (whole w rest).tail = w.gap ++ '[' :: (w.argument ++ ']' :: rest) := by
        simp [tail, ClauseText.body, hk]
      have hgood : (!(whole w rest).tail.isEmpty) = true := by
        rw [htail]
        simp
      rw [hgood, htail]
      simp only [Scan.readBrackets, IStream.getline_delim hrest.1, IStream.getline_delim hrest.2]
      simp [line, argument, hk]
  | cut keyword gap =>
      have hopen : '[' ∉ gap := by
        have hgap := h.2
        rwa [if_neg (show keyword ≠ .listen from hk)] at hgap
      cases gap with
      | nil => rfl
      | cons c gap =>
          simp only [Scan.readBrackets, tail, List.isEmpty_cons, Bool.not_false,
            IStream.getline_of_not_mem hopen]
          rfl
  | unclosed keyword gap argument =>
      obtain ⟨-, hgap, -, hopen, hclose⟩ := h
      have hgood : (!(unclosed keyword gap argument).tail.isEmpty) = true := by
        simp [tail]
      rw [hgood]
      simp only [Scan.readBrackets, tail, IStream.getline_delim hopen, IStream.getline_of_not_mem hclose]
      rfl

end Ahead

theorem readClause_eq (hb : Blank b) (he : e.Readable) (kw arg : CString) :
    readClause true ⟨⟨b ++ e.text, true⟩, kw, arg⟩ =
      (⟨e.line, e.keyword.text, e.argument arg⟩, e.clause arg) := by
  have hword := he.readWord_text hb kw
  unfold readClause
  simp only [hword]
  cases hk : e.keyword with
  | listen =>
      simp only [Keyword.text, true_and, if_true, he.readWord_tail hk arg]
      simp [Ahead.clause, hk, Keyword.clause]
  | seed =>
      have hlist := he.readBrackets_tail (by simp [hk]) seedKeyword arg
      have hne : seedKeyword ≠ listenKeyword := by decide
      simp only [Keyword.text, hne, and_false, if_false, if_true, hlist]
      simp [Ahead.clause, hk, Keyword.clause]
  | leech =>
      have hlist := he.readBrackets_tail (by simp [hk]) leechKeyword arg
      have hne : leechKeyword ≠ listenKeyword := by decide
      have hne' : leechKeyword ≠ seedKeyword := by decide
      simp only [Keyword.text, hne, hne', and_false, if_false, if_true, hlist]
      simp [Ahead.clause, hk, Keyword.clause]

/-- What lies ahead is determined by the text: it is what the tracker makes of it. -/
theorem Ahead.text_inj (hb : Blank b) (he : e.Readable) (hb' : Blank b') (he' : e'.Readable)
    (h : b ++ e.text = b' ++ e'.text) : b = b' ∧ e = e' := by
  obtain ⟨rfl, htext⟩ := (hb.maximalRun e.keyword.isWord e.tail).append_inj (hb'.maximalRun e'.keyword.isWord e'.tail) h
  refine ⟨rfl, ?_⟩
  -- Both are what `readClause` gives for the same stream.
  have hread : ∀ arg, e.argument arg = e'.argument arg ∧ e.line = e'.line ∧ e.keyword.text = e'.keyword.text := by
    intro arg
    have heq := congrArg Prod.fst ((readClause_eq hb he [] arg).symm.trans (h ▸ readClause_eq hb he' [] arg))
    exact ⟨congrArg Scan.argument heq, congrArg Scan.line heq, congrArg Scan.keyword heq⟩
  obtain ⟨-, hline, hkw⟩ := hread []
  have hkey : e.keyword = e'.keyword := Keyword.text_injective hkw
  have htail : e.tail = e'.tail := by
    have happend : e.keyword.text ++ e.tail = e'.keyword.text ++ e'.tail := htext
    rw [hkey] at happend
    exact List.append_cancel_left happend
  have hne : (['x'] : CString) ≠ [] := List.cons_ne_nil _ _
  -- An argument that is stale is told from one that is read by changing it.
  cases e with
  | whole w rest =>
      cases e' with
      | whole w' rest' =>
          obtain ⟨keyword, gap, argument⟩ := w
          obtain ⟨keyword', gap', argument'⟩ := w'
          obtain rfl : keyword = keyword' := hkey
          obtain rfl : argument = argument' := (hread []).1
          obtain rfl : rest = rest' := congrArg IStream.rest hline
          obtain rfl : gap = gap' := List.append_cancel_right (List.append_cancel_right htail)
          rfl
      | cut keyword' gap' => exact absurd ((hread ['x']).1.symm.trans (hread []).1) hne
      | unclosed keyword' gap' argument' =>
          have hlist : w.keyword ≠ .listen := fun hk => he'.1 (hkey.symm.trans hk)
          have hgood := congrArg IStream.good hline
          simp [Ahead.line, hlist] at hgood
  | cut keyword gap =>
      cases e' with
      | whole w' rest' => exact absurd ((hread ['x']).1.trans (hread []).1.symm) hne
      | cut keyword' gap' =>
          obtain rfl : keyword = keyword' := hkey
          obtain rfl : gap = gap' := htail
          rfl
      | unclosed keyword' gap' argument' => exact absurd ((hread ['x']).1.trans (hread []).1.symm) hne
  | unclosed keyword gap argument =>
      cases e' with
      | whole w' rest' =>
          have hlist : w'.keyword ≠ .listen := fun hk => he.1 (hkey.trans hk)
          have hgood := congrArg IStream.good hline
          simp [Ahead.line, hlist] at hgood
      | cut keyword' gap' => exact absurd ((hread ['x']).1.symm.trans (hread []).1) hne
      | unclosed keyword' gap' argument' =>
          obtain rfl : keyword = keyword' := hkey
          obtain rfl : argument = argument' := (hread []).1
          obtain rfl : gap = gap' := List.append_cancel_right htail
          rfl

/-! ## Finding a clause -/

/-- After a keyword there is always something to read. -/
theorem exists_readable (k : Keyword) (ht : Ends t) : ∃ e : Ahead, e.keyword = k ∧ e.tail = t ∧ e.Readable := by
  have hgap : ∀ {gap u : CString} {c : Char}, t = gap ++ c :: u → isspace c = false → gap ≠ [] ∧ Ends gap := by
    rintro gap u c rfl hc
    cases gap with
    | nil =>
        have hspace : isspace c = true := ht c rfl
        rw [hc] at hspace
        cases hspace
    | cons d gap => exact ⟨List.cons_ne_nil _ _, ht⟩
  -- A number is read up to a blank; a list is looked for up to its brackets, or to the end of the text.
  by_cases hk : k = .listen
  · obtain ⟨gap, u, rfl, hblank⟩ := exists_maximalRun isspace t
    cases u with
    | nil =>
        refine ⟨.cut k gap, rfl, (List.append_nil gap).symm, ?_, ?_⟩
        · rwa [List.append_nil] at ht
        · rw [if_pos hk]
          exact hblank.inside
    | cons c u =>
        have hc : isspace c = false := hblank.stops c rfl
        obtain ⟨argument, rest, hu, hword, hrest⟩ := exists_word hc u
        obtain ⟨hgapne, hends⟩ := hgap rfl hc
        refine ⟨.whole ⟨k, gap, argument⟩ rest, rfl, ?_, hgapne, hends, ?_⟩
        · simp [Ahead.tail, ClauseText.body, hk, hu]
        · rw [if_pos hk]
          exact ⟨hblank.inside, hword, hrest⟩
  · by_cases hopen : '[' ∈ t
    · obtain ⟨gap, u, rfl, hgapopen⟩ := List.eq_append_cons_of_mem hopen
      obtain ⟨hgapne, hends⟩ := hgap rfl (by decide)
      by_cases hclose : ']' ∈ u
      · obtain ⟨argument, rest, rfl, hargument⟩ := List.eq_append_cons_of_mem hclose
        refine ⟨.whole ⟨k, gap, argument⟩ rest, rfl, ?_, hgapne, hends, ?_⟩
        · simp [Ahead.tail, ClauseText.body, hk]
        · rw [if_neg hk]
          exact ⟨hgapopen, hargument⟩
      · exact ⟨.unclosed k gap u, rfl, rfl, hk, hgapne, hends, hgapopen, hclose⟩
    · refine ⟨.cut k t, rfl, rfl, ht, ?_⟩
      rw [if_neg hk]
      exact hopen

/-- A clause that is fine has one of the keywords. -/
theorem exists_keyword_of_fine (h : (readClause true s).2.Fine true) :
    ∃ k : Keyword, (s.line.readWord s.keyword).2 = k.text := by
  by_cases hlisten : (s.line.readWord s.keyword).2 = listenKeyword
  · exact ⟨.listen, hlisten⟩
  by_cases hseed : (s.line.readWord s.keyword).2 = seedKeyword
  · exact ⟨.seed, hseed⟩
  by_cases hleech : (s.line.readWord s.keyword).2 = leechKeyword
  · exact ⟨.leech, hleech⟩
  simp [readClause, hlisten, hseed, hleech, Clause.Fine] at h

theorem readClause_keyword (h : (s.line.readWord s.keyword).2 = k.text) :
    ∃ argument, (readClause true s).2 = k.clause argument := by
  have hne : seedKeyword ≠ listenKeyword ∧ leechKeyword ≠ listenKeyword ∧ leechKeyword ≠ seedKeyword := by decide
  unfold readClause
  cases k with
  | listen => simp [h, Keyword.text, Keyword.clause]
  | seed => simp [h, Keyword.text, Keyword.clause, hne.1]
  | leech => simp [h, Keyword.text, Keyword.clause, hne.2.1, hne.2.2]

/-- A clause that is fine, and not only because the keyword before it was left in its variable. -/
theorem exists_ahead (h : (readClause true s).2.Fine true) (hnew : (s.line.readWord s.keyword).2 ≠ s.keyword) :
    s.line.good = true ∧ ∃ b e, s.line.rest = b ++ Ahead.text e ∧ Blank b ∧ e.Readable := by
  obtain ⟨k, hk⟩ := exists_keyword_of_fine h
  obtain ⟨⟨t, good⟩, kw, arg⟩ := s
  -- A stream that is not good leaves the keyword as it was.
  cases good with
  | false => exact absurd rfl hnew
  | true =>
      refine ⟨rfl, ?_⟩
      obtain ⟨b, u, rfl, hblank⟩ := exists_maximalRun isspace t
      have hb : Blank b := hblank.inside
      cases u with
      | nil =>
          rw [List.append_nil] at hnew
          exact absurd (congrArg Prod.snd (IStream.readWord_blank hb kw)) hnew
      | cons c u =>
          have hc : isspace c = false := hblank.stops c rfl
          obtain ⟨w, rest, hu, hword, hends⟩ := exists_word hc u
          have hread : w = k.text := by
            rw [hu] at hk
            exact (congrArg Prod.snd (IStream.readWord_word hb hword hends kw)).symm.trans hk
          obtain ⟨e, hkey, htail, he⟩ := exists_readable k hends
          refine ⟨b, e, ?_, hb, he⟩
          show b ++ c :: u = b ++ (e.keyword.text ++ e.tail)
          rw [hu, hkey, htail, hread]

/-! ## Readings -/

theorem seen_all_iff (k₁ k₂ k₃ : Keyword) (a₁ a₂ a₃ : CString) :
    ([k₁.clause a₁, k₂.clause a₂, k₃.clause a₃].foldl Seen.mark Seen.none).All true ↔
      [k₁, k₂, k₃].Perm [.listen, .seed, .leech] := by
  have hmark : ∀ (seen : Seen) (k : Keyword) (a : CString), seen.mark (k.clause a) = seen.mark (k.clause []) := by
    intro seen k a
    cases k <;> rfl
  simp only [List.foldl_cons, List.foldl_nil, hmark _ k₁ a₁, hmark _ k₂ a₂, hmark _ k₃ a₃]
  cases k₁ <;> cases k₂ <;> cases k₃ <;> decide

theorem clausesOf_three (s : Scan) : clausesOf true 3 s =
    [(readClause true s).2, (readClause true (readClause true s).1).2,
      (readClause true (readClause true (readClause true s).1).1).2] := rfl

theorem Ahead.text_ne_nil (e : Ahead) : e.text ≠ [] :=
  List.append_ne_nil_of_left_ne_nil e.keyword.isWord.1 _

/-- The stream goes on after a clause if the text does. -/
theorem Ahead.line_whole (w : ClauseText) {rest : CString} (hrest : rest ≠ []) :
    (Ahead.whole w rest).line = ⟨rest, true⟩ := by
  simp [Ahead.line, hrest]

theorem Reading.Taken.declaredClauses_eq (h : r.Taken) :
    declaredClauses true ⟨r.text, !r.text.isEmpty⟩ = r.clauses := by
  obtain ⟨⟨hb₀, hb₁, hb₂⟩, ⟨hfirst, hsecond, hlast⟩, -, -⟩ := h
  have hgood : (!r.text.isEmpty) = true := by
    simp [Reading.text, Ahead.text_ne_nil]
  have hline₁ : r.atFirst.line = ⟨r.between ++ r.atSecond.text, true⟩ :=
    Ahead.line_whole _ (List.append_ne_nil_of_right_ne_nil _ (Ahead.text_ne_nil _))
  have hline₂ : r.atSecond.line = ⟨r.between' ++ r.last.text, true⟩ :=
    Ahead.line_whole _ (List.append_ne_nil_of_right_ne_nil _ (Ahead.text_ne_nil _))
  have hone : readClause true (Scan.start ⟨r.text, true⟩) =
      (⟨⟨r.between ++ r.atSecond.text, true⟩, r.first.keyword.text, r.first.argument⟩,
        r.first.keyword.clause r.first.argument) := hline₁ ▸ readClause_eq hb₀ hfirst [] []
  have htwo := readClause_eq hb₁ hsecond r.first.keyword.text r.first.argument
  rw [hline₂] at htwo
  have hthree := readClause_eq hb₂ hlast r.second.keyword.text r.second.argument
  rw [declaredClauses, hgood, clauseCount, if_pos rfl, clausesOf_three]
  simp only [hone, htwo]
  exact congrArg (fun c => [_, _, c]) (congrArg Prod.snd hthree)

/-- A text is taken in one way at most. -/
theorem Reading.Taken.unique (h : r.Taken) (h' : r'.Taken) (heq : r.text = r'.text) : r = r' := by
  obtain ⟨before, first, between, second, between', last⟩ := r
  obtain ⟨before', first', sep, second', sep', last'⟩ := r'
  obtain ⟨⟨hb₀, hb₁, hb₂⟩, ⟨hfirst, hsecond, hlast⟩, -, -⟩ := h
  obtain ⟨⟨hb₀', hb₁', hb₂'⟩, ⟨hfirst', hsecond', hlast'⟩, -, -⟩ := h'
  -- Clause by clause, what lies ahead is determined by what is left of the text.
  obtain ⟨rfl, h₁⟩ := Ahead.text_inj hb₀ hfirst hb₀' hfirst' heq
  obtain ⟨rfl, hrest⟩ := Ahead.whole.inj h₁
  obtain ⟨rfl, h₂⟩ := Ahead.text_inj hb₁ hsecond hb₁' hsecond' hrest
  obtain ⟨rfl, hrest'⟩ := Ahead.whole.inj h₂
  obtain ⟨rfl, rfl⟩ := Ahead.text_inj hb₂ hlast hb₂' hlast' hrest'
  rfl

/-- The clause after another one of a different kind. -/
theorem exists_next (hkw : s.keyword = k.text) (h : (readClause true s).2.Fine true) {a : CString}
    (hkind : Seen.none.mark (k.clause a) ≠ Seen.none.mark (readClause true s).2) :
    s.line.good = true ∧ ∃ b e, s.line.rest = b ++ Ahead.text e ∧ Blank b ∧ e.Readable := by
  refine exists_ahead h fun hsame => hkind ?_
  obtain ⟨argument, hclause⟩ := readClause_keyword (hsame.trans hkw)
  rw [hclause]
  cases k <;> rfl

theorem Ahead.eq_whole_of_good (h : e.line.good = true) : ∃ w, e = .whole w e.line.rest := by
  cases e with
  | whole w rest => exact ⟨w, rfl⟩
  | cut keyword gap => cases h
  | unclosed keyword gap argument => cases h

/-- What goes through has been read so. -/
theorem exists_taken (h : GoesThrough true (declaredClauses true ⟨t, !t.isEmpty⟩)) :
    ∃ r : Reading, r.Taken ∧ r.text = t := by
  obtain ⟨hfine, hall⟩ := h
  have hcls : declaredClauses true ⟨t, !t.isEmpty⟩ = clausesOf true 3 (Scan.start ⟨t, !t.isEmpty⟩) := rfl
  rw [hcls] at hfine hall
  have hdistinct := distinctKinds_of_all (length_clausesOf _ _ _) hall
  rw [clausesOf_three] at hfine hall hdistinct
  generalize hs₁ : Scan.start ⟨t, !t.isEmpty⟩ = s₁ at hfine hall hdistinct
  -- The variable of the keyword is empty at first, and no keyword is.
  have hnew : (s₁.line.readWord s₁.keyword).2 ≠ s₁.keyword := by
    obtain ⟨k, hk⟩ := exists_keyword_of_fine (hfine _ List.mem_cons_self)
    rw [hk, ← hs₁]
    exact k.isWord.1
  obtain ⟨hgood₁, b₀, e₁, hrest₁, hb₀, he₁⟩ := exists_ahead (hfine _ List.mem_cons_self) hnew
  rw [← hs₁] at hgood₁ hrest₁
  obtain rfl : t = b₀ ++ e₁.text := hrest₁
  have hone : readClause true s₁ = (⟨e₁.line, e₁.keyword.text, e₁.argument []⟩, e₁.clause []) := by
    rw [← hs₁, Scan.start, show (!(b₀ ++ e₁.text).isEmpty) = true from hgood₁]
    exact readClause_eq hb₀ he₁ [] []
  simp only [hone] at hfine hall hdistinct
  obtain ⟨hfine₁, hfine₂, hfine₃⟩ : _ ∧ _ ∧ _ := by simpa using hfine
  obtain ⟨⟨hkind₁₂, -⟩, hkind₂₃⟩ : (_ ∧ _) ∧ _ := by simpa [DistinctKinds] using hdistinct
  -- The stream goes on, so the clause before was whole.
  obtain ⟨hgood₂, b₁, e₂, hrest₂, hb₁, he₂⟩ := exists_next rfl hfine₂ hkind₁₂
  obtain ⟨w₁, hw₁⟩ := Ahead.eq_whole_of_good hgood₂
  obtain rfl : e₁ = .whole w₁ (b₁ ++ e₂.text) := hw₁.trans (congrArg (Ahead.whole w₁) hrest₂)
  have hline₁ : (Ahead.whole w₁ (b₁ ++ e₂.text)).line = ⟨b₁ ++ e₂.text, true⟩ :=
    Ahead.line_whole w₁ (List.append_ne_nil_of_right_ne_nil _ e₂.text_ne_nil)
  simp only [hline₁, readClause_eq hb₁ he₂] at hfine₂ hfine₃ hkind₂₃ hall
  -- And once more for the third one.
  obtain ⟨hgood₃, b₂, e₃, hrest₃, hb₂, he₃⟩ := exists_next rfl hfine₃ hkind₂₃
  obtain ⟨w₂, hw₂⟩ := Ahead.eq_whole_of_good hgood₃
  obtain rfl : e₂ = .whole w₂ (b₂ ++ e₃.text) := hw₂.trans (congrArg (Ahead.whole w₂) hrest₃)
  have hline₂ : (Ahead.whole w₂ (b₂ ++ e₃.text)).line = ⟨b₂ ++ e₃.text, true⟩ :=
    Ahead.line_whole w₂ (List.append_ne_nil_of_right_ne_nil _ e₃.text_ne_nil)
  simp only [hline₂, readClause_eq hb₂ he₃] at hfine₃ hall
  refine ⟨⟨b₀, w₁, b₁, w₂, b₂, e₃⟩, ⟨⟨hb₀, hb₁, hb₂⟩, ⟨he₁, he₂, he₃⟩, ?_, ?_⟩, rfl⟩
  · intro c hc
    rcases List.mem_cons.1 hc with rfl | hc
    · exact hfine₁
    rcases List.mem_cons.1 hc with rfl | hc
    · exact hfine₂
    · obtain rfl := List.mem_singleton.1 hc
      exact hfine₃
  · exact (seen_all_iff _ _ _ _ _ _).1 hall

theorem goesThrough_iff : GoesThrough true (declaredClauses true ⟨t, !t.isEmpty⟩) ↔
    ∃ r : Reading, r.Taken ∧ r.text = t := by
  constructor
  · exact exists_taken
  · rintro ⟨r, hr, rfl⟩
    rw [hr.declaredClauses_eq]
    exact ⟨hr.fine, (seen_all_iff _ _ _ _ _ _).2 hr.keywords⟩

/-! ## Arguments -/

theorem stoi_numeral {argument : CString} (h : IsNumeral argument) :
    stoi argument = if digitsValue argument < 2 ^ 31 then some (digitsValue argument : Int) else none := by
  rw [stoi, scanNumber_digits h.1 h.2]
  refine if_congr ?_ rfl rfl
  simp only [Bool.false_eq_true, if_false]
  omega

theorem listenPort_numeral {argument : CString} (h : IsNumeral argument) :
    listenPort argument = if PortOk (digitsValue argument) then some (digitsValue argument) else none := by
  rw [listenPort, stoi_numeral h]
  by_cases hport : PortOk (digitsValue argument)
  · obtain ⟨hlo, hhi⟩ := hport
    rw [if_pos (by omega), if_pos ⟨hlo, hhi⟩]
    exact if_neg (by omega)
  · rw [if_neg hport]
    split
    · next port hstoi =>
        split at hstoi
        · obtain rfl := Option.some.inj hstoi
          refine if_pos ?_
          unfold PortOk at hport
          omega
        · cases hstoi
    · rfl

theorem tokens_eq_words (s : CString) : tokens s = words (fun c => c = ' ') s := by
  induction hn : s.length using Nat.strong_induction_on generalizing s with
  | _ n ih =>
      -- The induction is on the length: up to the next blank there is one token, or none.
      by_cases hspace : ' ' ∈ s
      · obtain ⟨l, u, rfl, hl⟩ := List.eq_append_cons_of_mem hspace
        have htail := ih u.length (by rw [← hn, List.length_append, List.length_cons]; omega) u rfl
        have hsep : ∀ x ∈ l, decide (x = ' ') = false := fun x hx => decide_eq_false fun h => hl (h ▸ hx)
        have htokens : tokens (l ++ ' ' :: u) = (if l = [] then [] else [l]) ++ tokens u := by
          simp only [tokens, split_eq, completeLines_line hl, lastLine_line hl, List.cons_append, List.filter_cons]
          by_cases hne : l = [] <;> simp [hne]
        rw [htokens, htail]
        by_cases hne : l = []
        · subst hne
          exact (words_cons_of_sep (by simp) u).symm
        · rw [if_neg hne, words_append_sep hsep hne (by simp)]
          rfl
      · have hsep : ∀ x ∈ s, decide (x = ' ') = false := fun x hx => decide_eq_false fun h => hspace (h ▸ hx)
        by_cases hne : s = []
        · subst hne
          rfl
        · rw [words_of_no_sep hsep hne, tokens, split_eq, completeLines_of_not_mem hspace, lastLine_of_not_mem hspace]
          simp [hne]

namespace ClauseText

variable {w : ClauseText} {rest : CString}

/-- A number is taken exactly if it is one of a port, and a list if its words can be counted off. -/
theorem argumentOk_iff (hlisten : w.keyword = .listen → IsNumeral w.argument)
    (hlist : w.keyword ≠ .listen → ']' ∉ w.argument) :
    ArgumentOk w.argument w.keyword ↔ (w.keyword.clause w.argument).Fine true := by
  cases hk : w.keyword with
  | listen =>
      have hnum := hlisten hk
      have hport : listenPort w.argument ≠ none ↔ PortOk (digitsValue w.argument) := by
        rw [listenPort_numeral hnum]
        split <;> simp_all
      exact ⟨fun h => ⟨rfl, hport.2 h.2⟩, fun h => ⟨hnum, hport.1 h.2⟩⟩
  | seed =>
      have hclose := hlist (by simp [hk])
      rw [ArgumentOk, ← tokens_eq_words]
      exact ⟨fun h _ => h.2, fun h => ⟨hclose, h rfl⟩⟩
  | leech => exact ⟨fun _ => trivial, fun _ => hlist (by simp [hk])⟩

theorem text_append (w : ClauseText) (rest : CString) : (Ahead.whole w rest).text = w.text ++ rest :=
  (List.append_assoc _ _ _).symm

theorem Proper.tidy (h : w.Proper) : w.Tidy := by
  refine ⟨h.2.1, fun hk => ?_⟩
  have harg := h.2.2
  rw [hk] at harg
  exact harg.1

theorem Proper.not_mem_argument (h : w.Proper) (hk : w.keyword ≠ .listen) : ']' ∉ w.argument := by
  have harg := h.2.2
  cases hw : w.keyword with
  | listen => exact absurd hw hk
  | seed =>
      rw [hw] at harg
      exact harg.1
  | leech =>
      rw [hw] at harg
      exact harg

theorem Proper.fine (h : w.Proper) : (w.keyword.clause w.argument).Fine true :=
  (argumentOk_iff h.tidy.2 h.not_mem_argument).1 h.2.2

theorem Proper.readable (h : w.Proper) (hrest : Ends rest) : (Ahead.whole w rest).Readable := by
  have hblank : Blank w.gap := h.2.1
  refine ⟨h.1, fun c hc => hblank c (List.mem_of_mem_head? hc), ?_⟩
  split
  · next hk =>
      obtain ⟨hne, hdigits⟩ := h.tidy.2 hk
      exact ⟨hblank, ⟨hne, fun c hc => isspace_of_isDigit (hdigits c hc)⟩, hrest⟩
  · next hk =>
      refine ⟨fun hopen => ?_, h.not_mem_argument hk⟩
      have hspace := hblank '[' hopen
      revert hspace
      decide

theorem proper_of_readable (h : (Ahead.whole w rest).Readable) (htidy : w.Tidy)
    (hfine : (w.keyword.clause w.argument).Fine true) : w.Proper := by
  refine ⟨h.1, htidy.1, (argumentOk_iff htidy.2 fun hk => ?_).2 hfine⟩
  have hrest := h.2.2
  rw [if_neg hk] at hrest
  exact hrest.2

end ClauseText

/-! ## Announces -/

theorem Blank.ends (h : Blank b) : Ends b := fun c hc => h c (List.mem_of_mem_head? hc)

/-- A text of the grammar is taken, and tidily. -/
theorem exists_tidy (h : InGrammar t) : ∃ r : Reading, r.Taken ∧ r.Tidy ∧ r.text = t := by
  obtain ⟨w₁, w₂, w₃, b₀, b₁, b₂, b₃, rfl, hb, hne₁, hne₂, hw, hkeys⟩ := h
  obtain ⟨hb₀, hb₁, hb₂, hb₃⟩ : Blank b₀ ∧ Blank b₁ ∧ Blank b₂ ∧ Blank b₃ := by simpa using hb
  obtain ⟨hw₁, hw₂, hw₃⟩ : w₁.Proper ∧ w₂.Proper ∧ w₃.Proper := by simpa using hw
  refine ⟨⟨b₀, w₁, b₁, w₂, b₂, .whole w₃ b₃⟩, ⟨⟨hb₀, hb₁, hb₂⟩, ⟨?_, ?_, ?_⟩, ?_, hkeys⟩,
    ⟨⟨hne₁, hne₂⟩, hw₁.tidy, hw₂.tidy, hw₃.tidy, hb₃⟩, ?_⟩
  · exact hw₁.readable (hb₁.ends.append hne₁ _)
  · exact hw₂.readable (hb₂.ends.append hne₂ _)
  · exact hw₃.readable hb₃.ends
  · intro c hc
    rcases List.mem_cons.1 hc with rfl | hc
    · exact hw₁.fine
    rcases List.mem_cons.1 hc with rfl | hc
    · exact hw₂.fine
    · obtain rfl := List.mem_singleton.1 hc
      exact hw₃.fine
  · simp only [Reading.text, Reading.atFirst, Reading.atSecond, ClauseText.text_append, List.append_assoc]

theorem Reading.Taken.inGrammar (h : r.Taken) (htidy : r.Tidy) : InGrammar r.text := by
  obtain ⟨before, first, between, second, between', last⟩ := r
  obtain ⟨⟨hb₀, hb₁, hb₂⟩, ⟨hfirst, hsecond, hlast⟩, hfine, hkeys⟩ := h
  obtain ⟨⟨hne₁, hne₂⟩, htidy₁, htidy₂, htidy₃⟩ := htidy
  -- A tidy reading ends in a whole clause.
  cases last with
  | whole w rest =>
      obtain ⟨hwtidy, hrest⟩ := htidy₃
      obtain ⟨hfine₁, hfine₂, hfine₃⟩ : _ ∧ _ ∧ _ := by simpa [clauses] using hfine
      have hw₁ := ClauseText.proper_of_readable hfirst htidy₁ hfine₁
      have hw₂ := ClauseText.proper_of_readable hsecond htidy₂ hfine₂
      have hw₃ := ClauseText.proper_of_readable hlast hwtidy hfine₃
      refine ⟨first, second, w, before, between, between', rest, ?_, ?_, hne₁, hne₂, ?_, hkeys⟩
      · simp only [text, atFirst, atSecond, ClauseText.text_append, List.append_assoc]
      · simp [hb₀, hb₁, hb₂, hrest]
      · simp [hw₁, hw₂, hw₃]
  | cut keyword gap => exact htidy₃.elim
  | unclosed keyword gap argument => exact htidy₃.elim

theorem accepts_iff {st : Tracker} {p : Memory.Addr} {q : Peer} (hreg : Registry st) (hq : st.peer p = some q)
    (hann : q.announced = false) : Accepts st p t ↔ ∃ r : Reading, r.Taken ∧ r.text = t :=
  (handleAnnounce_ok_iff hreg hq hann).trans goesThrough_iff

/-- Announces are accepted exactly by the grammar as long as what is taken is tidy. -/
theorem accepts_grammar_iff {h : TrackerHistory} {st : Tracker} {p : Memory.Addr} {q : Peer} (hrun : TrackerRun h st)
    (hq : st.peer p = some q) (hann : q.announced = false) (text : CString) :
    (Accepts st p text ↔ InGrammar text) ↔ ∀ r : Reading, r.Taken → r.text = text → r.Tidy := by
  have hacc := accepts_iff (t := text) (completedAnnounce_of_announced hrun).1 hq hann
  constructor
  · rintro heq r hr rfl
    obtain ⟨r', hr', htidy, htext⟩ := exists_tidy (heq.1 (hacc.2 ⟨r, hr, rfl⟩))
    exact hr'.unique hr htext ▸ htidy
  · intro htidy
    constructor
    · intro haccepts
      obtain ⟨r, hr, rfl⟩ := hacc.1 haccepts
      exact hr.inGrammar (htidy r hr rfl)
    · intro hgrammar
      obtain ⟨r, hr, -, htext⟩ := exists_tidy hgrammar
      exact hacc.2 ⟨r, hr, htext⟩

/-- An announce as it should be. -/
def properReading : Reading :=
  { before := [' ']
    first := ⟨.listen, [' '], "5000".toList⟩
    between := [' ']
    second := ⟨.seed, [' '], "film 10 5 k".toList⟩
    between' := [' ']
    last := .whole ⟨.leech, [' '], []⟩ [] }

theorem accepts_grammar_properReading : ∃ h st q, TrackerRun h st ∧ st.peer 0 = some q ∧
    properReading.text = " listen 5000 seed [film 10 5 k] leech []".toList ∧
    (Accepts st 0 properReading.text ↔ InGrammar properReading.text) := by
  obtain ⟨h, st, hrun, q, hq, hann⟩ := exists_run_of_replay [.connect ⟨127, 0, 0, 1⟩]
    (P := fun _ st => ∃ q ∈ st.peer 0, q.announced = false) (by decide)
  have htaken : properReading.Taken :=
    ⟨by decide, ⟨by decide, by decide, by decide⟩, by decide, by decide⟩
  have htidy : properReading.Tidy := ⟨by decide, by decide, by decide, by decide⟩
  refine ⟨h, st, q, hrun, hq, by decide, (accepts_grammar_iff hrun hq hann _).2 fun r hr htext => ?_⟩
  exact htaken.unique hr htext.symm ▸ htidy

/-- A seed clause without brackets: it is given the list of the leech clause before it. -/
def cutReading : Reading :=
  { before := [' ']
    first := ⟨.listen, [' '], "5000".toList⟩
    between := [' ']
    second := ⟨.leech, [' '], []⟩
    between' := [' ']
    last := .cut .seed [] }

theorem cut_announce_accepted : ∃ h st q, TrackerRun h st ∧ st.peer 0 = some q ∧ q.announced = false ∧
    Accepts st 0 " listen 5000 leech [] seed".toList ∧ ¬ InGrammar " listen 5000 leech [] seed".toList := by
  obtain ⟨h, st, hrun, q, hq, hann⟩ := exists_run_of_replay [.connect ⟨127, 0, 0, 1⟩]
    (P := fun _ st => ∃ q ∈ st.peer 0, q.announced = false) (by decide)
  have htaken : cutReading.Taken :=
    ⟨by decide, ⟨by decide, by decide, by decide⟩, by decide, by decide⟩
  have htext : cutReading.text = " listen 5000 leech [] seed".toList := by decide
  refine ⟨h, st, q, hrun, hq, hann, ?_, fun hgrammar => ?_⟩
  · exact (accepts_iff (completedAnnounce_of_announced hrun).1 hq hann).2 ⟨cutReading, htaken, htext⟩
  -- A text of the grammar has a tidy reading, but this one has been read as cut.
  · obtain ⟨r, hr, htidy, hrtext⟩ := exists_tidy hgrammar
    obtain rfl := htaken.unique hr (htext.trans hrtext.symm)
    exact htidy.last

end CppTracker
end Raiezau
