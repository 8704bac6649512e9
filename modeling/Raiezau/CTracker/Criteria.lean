import Raiezau.CTracker.Replies

/-!
# Criteria — what a token does to the list of a search

Six processors try each token, one for each operator.  A token that is a field, an operator the field knows
and a text without another such operator is taken by the processor of that operator and by no other; the
rest of the tokens are taken by none.  `Reads` says what a token is taken for, `Test.Accepts` what it keeps.
-/

namespace Raiezau
namespace CTracker

open Memory CUtil Text JavaClient

variable {st : Tracker} {cr rest : CString} {l : List Addr}

/-! ## The processors as one -/

/-- An operator and the quote behind it. -/
def delim (op : CriterionOP) : CString := op.toString ++ ['"']

def operatorCode : CriterionOP → CString → Option (CString → File → Bool)
  | .eq => eqCode
  | .ne => neqCode
  | .lt => ltCode
  | .le => leqCode
  | .gt => gtCode
  | .ge => geqCode

/-- The processor of an operator. -/
def process (st : Tracker) (cr : CString) (l : List Addr) (op : CriterionOP) : Option (List Addr) :=
  criterionProcessor (delim op) (operatorCode op) st cr l

/-- The operators in the order their processors run. -/
def operators : List CriterionOP := [.ne, .ge, .le, .eq, .lt, .gt]

theorem mem_operators (op : CriterionOP) : op ∈ operators := by
  cases op <;> decide

theorem processCriterion_eq_foldlM (st : Tracker) (cr : CString) (l : List Addr) :
    processCriterion st cr l = operators.foldlM (process st cr) l := by
  simp only [operators, List.foldlM_cons, List.foldlM_nil, Option.bind_eq_bind, Option.pure_def,
    Option.bind_fun_some]
  rfl

/-! ## What a token is taken for -/

/-- What a list of files can be searched for. -/
inductive Test
  | filename (equal : Bool)
  | filesize (op : CriterionOP)
  deriving DecidableEq, Repr

def Test.op : Test → CriterionOP
  | .filename true => .eq
  | .filename false => .ne
  | .filesize op => op

def Test.field : Test → CString
  | .filename _ => filenameField
  | .filesize _ => filesizeField

/-- The file stands in the relation of the test to the value. -/
def Test.Accepts : Test → CString → File → Prop
  | .filename true, value, x => x.filename = value
  | .filename false, value, x => x.filename ≠ value
  | .filesize op, value, x => sizeRelation op x.length (toUInt64 (atol value)) = true

/-- A text without one quote at its end. -/
def unquote (rest : CString) : CString := if rest.getLast? = some '"' then rest.dropLast else rest

/-- The token is the field of the test, its operator with a quote, and a rest without another of these. -/
structure Reads (cr : CString) (t : Test) (rest : CString) : Prop where
  eq : cr = t.field ++ (delim t.op ++ rest)
  once : ¬ delim t.op <:+: rest

def Test.head (t : Test) : CString := t.field ++ delim t.op

def tests : List Test :=
  [.filename true, .filename false, .filesize .eq, .filesize .ne, .filesize .lt, .filesize .le, .filesize .gt,
    .filesize .ge]

theorem mem_tests (t : Test) : t ∈ tests := by
  cases t with
  | filename equal => cases equal <;> decide
  | filesize op => cases op <;> decide

theorem eq_of_head {t t' : Test} (h : t.head <+: t'.head) : t = t' := by
  have hall : ∀ t ∈ tests, ∀ t' ∈ tests, t.head <+: t'.head → t = t' := by decide
  exact hall t (mem_tests t) t' (mem_tests t') h

/-- A token is taken for one test at most. -/
theorem Reads.unique {t t' : Test} {rest' : CString} (h : Reads cr t rest) (h' : Reads cr t' rest') :
    t = t' := by
  have hpre : t.head <+: cr := ⟨rest, by rw [h.eq, Test.head, List.append_assoc]⟩
  have hpre' : t'.head <+: cr := ⟨rest', by rw [h'.eq, Test.head, List.append_assoc]⟩
  -- Both heads are prefixes of the token, so one of them is a prefix of the other.
  rcases List.prefix_or_prefix_of_prefix hpre hpre' with hle | hle
  · exact eq_of_head hle
  · exact (eq_of_head hle).symm

/-! ## What a processor does -/

/-- The processor of the operator goes through the list. -/
def Acts (op : CriterionOP) (cr : CString) : Prop :=
  ∃ field rest test, stringSplit2 cr (delim op) = [field, rest] ∧ operatorCode op field = some test

theorem delim_ne_nil (op : CriterionOP) : delim op ≠ [] := List.append_ne_nil_of_right_ne_nil _ (by simp)

theorem delim_mem (op : CriterionOP) : delim op ∈ operatorDelims := by
  cases op <;> decide

/-- What the processor of a test runs. -/
def Test.code : Test → CString → File → Bool
  | .filename true, value, x => value = x.filename
  | .filename false, value, x => value ≠ x.filename
  | .filesize op, value, x => sizeTest (sizeRelation op) value x

theorem Test.code_iff (t : Test) (value : CString) (x : File) : t.code value x = true ↔ t.Accepts value x := by
  cases t with
  | filename equal =>
      cases equal with
      | true => exact decide_eq_true_iff.trans eq_comm
      | false => exact decide_eq_true_iff.trans ne_comm
  | filesize op => rfl

theorem operatorCode_test (t : Test) : operatorCode t.op t.field = some t.code := by
  cases t with
  | filename equal => cases equal <;> rfl
  | filesize op => cases op <;> rfl

/-- The fields an operator knows are those of its tests. -/
theorem test_of_operatorCode {op : CriterionOP} {field : CString} (h : operatorCode op field ≠ none) :
    ∃ t : Test, t.op = op ∧ t.field = field := by
  -- Every operator knows the size, and two of them the name.
  by_cases hsize : field = filesizeField
  · exact ⟨.filesize op, rfl, hsize.symm⟩
  by_cases hname : field = filenameField
  · cases op with
    | eq => exact ⟨.filename true, rfl, hname.symm⟩
    | ne => exact ⟨.filename false, rfl, hname.symm⟩
    | lt => exact absurd (if_neg hsize) h
    | le => exact absurd (if_neg hsize) h
    | gt => exact absurd (if_neg hsize) h
    | ge => exact absurd (if_neg hsize) h
  · cases op with
    | eq => exact absurd ((if_neg hname).trans (if_neg hsize)) h
    | ne => exact absurd ((if_neg hname).trans (if_neg hsize)) h
    | lt => exact absurd (if_neg hsize) h
    | le => exact absurd (if_neg hsize) h
    | gt => exact absurd (if_neg hsize) h
    | ge => exact absurd (if_neg hsize) h

/-- A field has no character that an operator starts with. -/
theorem findSub_field (t : Test) (rest : CString) :
    findSub (delim t.op) (t.field ++ (delim t.op ++ rest)) = some t.field.length := by
  have hstart : ∀ t ∈ tests, ∀ ch ∈ (delim t.op).take 1, ch ∉ t.field := by decide
  obtain ⟨ch, d, hd⟩ := List.exists_cons_of_ne_nil (delim_ne_nil t.op)
  have hch : ch ∉ t.field := hstart t (mem_tests t) ch (by rw [hd]; exact List.mem_cons_self)
  rw [hd]
  exact findSub_append hch d rest

theorem stringSplit2_iff {t : Test} : stringSplit2 cr (delim t.op) = [t.field, rest] ↔ Reads cr t rest := by
  rw [stringSplit2_eq_splitSub, splitSub_pair_iff (delim_ne_nil _)]
  constructor
  · rintro ⟨-, heq, honce⟩
    exact ⟨heq, honce⟩
  · intro h
    refine ⟨?_, h.eq, h.once⟩
    rw [h.eq]
    exact findSub_field t rest

theorem acts_iff {op : CriterionOP} : Acts op cr ↔ ∃ t rest, t.op = op ∧ Reads cr t rest := by
  constructor
  · rintro ⟨field, rest, test, hsplit, hcode⟩
    obtain ⟨t, rfl, rfl⟩ := test_of_operatorCode (by rw [hcode]; exact Option.some_ne_none test)
    exact ⟨t, rest, rfl, stringSplit2_iff.1 hsplit⟩
  · rintro ⟨t, rest, rfl, h⟩
    exact ⟨t.field, rest, t.code, stringSplit2_iff.2 h, operatorCode_test t⟩

/-- One processor at most acts on a token. -/
theorem Acts.unique {op op' : CriterionOP} (h : Acts op cr) (h' : Acts op' cr) : op = op' := by
  obtain ⟨t, rest, rfl, hread⟩ := acts_iff.1 h
  obtain ⟨t', rest', rfl, hread'⟩ := acts_iff.1 h'
  rw [hread.unique hread']

theorem strstripc_quote (hrest : rest ≠ []) : strstripc rest '"' = some (unquote rest) := by
  rw [strstripc, unquote, List.getLast?_eq_some_getLast hrest]
  simp only [Option.some.injEq]

/-- A token that does not end in the delimiter has a text behind it. -/
theorem rest_ne_nil {op : CriterionOP} {field : CString} (hend : ¬ delim op <:+ cr)
    (h : stringSplit2 cr (delim op) = [field, rest]) : rest ≠ [] := by
  rintro rfl
  rw [stringSplit2_eq_splitSub] at h
  exact hend ⟨field, by rw [splitSub_pair (delim_ne_nil op) h, List.append_nil]⟩

theorem process_idle {op : CriterionOP} (hend : ¬ delim op <:+ cr) (h : ¬ Acts op cr) (l : List Addr) :
    process st cr l op = some l := by
  unfold process criterionProcessor
  split
  · next field rest hsplit =>
      rw [strstripc_quote (rest_ne_nil hend hsplit), Option.bind_eq_bind, Option.bind_some]
      cases hcode : operatorCode op field with
      | none => rfl
      | some test => exact absurd ⟨field, rest, test, hsplit, hcode⟩ h
  · rfl

theorem process_reads {t : Test} (hend : ¬ delim t.op <:+ cr) (h : Reads cr t rest) (hl : AllFiles st l) :
    ∃ l', process st cr l t.op = some l' ∧ Selects st l (t.Accepts (unquote rest)) l' := by
  have hsplit := stringSplit2_iff.2 h
  obtain ⟨l', heq, hsel⟩ := processList_spec hl (t.code (unquote rest))
  refine ⟨l', ?_, hsel.congr (t.code_iff (unquote rest))⟩
  rw [process, criterionProcessor, hsplit]
  simp only [strstripc_quote (rest_ne_nil hend hsplit), Option.bind_eq_bind, Option.bind_some,
    operatorCode_test, heq]

/-! ## A token, and a list of them -/

/-- The file passes the test that the token is taken for, if it is. -/
def Passes (cr : CString) (x : File) : Prop := ∀ t rest, Reads cr t rest → t.Accepts (unquote rest) x

/-- The token ends in no operator with its quote. -/
def Whole (cr : CString) : Prop := ∀ d ∈ operatorDelims, ¬ d <:+ cr

instance (cr : CString) : Decidable (Whole cr) := inferInstanceAs (Decidable (∀ d ∈ operatorDelims, ¬ d <:+ cr))

theorem processCriterion_idle (hend : Whole cr) (h : ∀ op, ¬ Acts op cr) (l : List Addr) :
    processCriterion st cr l = some l := by
  rw [processCriterion_eq_foldlM]
  exact Machine.foldlM_idle (fun op _ l => process_idle (hend _ (delim_mem op)) (h op) l) l

theorem processCriterion_reads {t : Test} (hend : Whole cr) (h : Reads cr t rest) (hl : AllFiles st l) :
    ∃ l', processCriterion st cr l = some l' ∧ Selects st l (t.Accepts (unquote rest)) l' := by
  have hothers : ∀ op ∈ operators, op ≠ t.op → ∀ l, process st cr l op = some l := by
    intro op _ hne l
    refine process_idle (hend _ (delim_mem op)) (fun hacts => hne ?_) l
    exact hacts.unique (acts_iff.2 ⟨t, rest, rfl, h⟩)
  rw [processCriterion_eq_foldlM, Machine.foldlM_only (mem_operators t.op) (by decide) hothers]
  exact process_reads (hend _ (delim_mem t.op)) h hl

theorem processCriterion_passes (hend : Whole cr) (hl : AllFiles st l) :
    ∃ l', processCriterion st cr l = some l' ∧ Selects st l (Passes cr) l' := by
  -- At most one of the operators acts; the others leave the list.
  by_cases h : ∃ t rest, Reads cr t rest
  · obtain ⟨t, rest, hread⟩ := h
    obtain ⟨l', heq, hsel⟩ := processCriterion_reads hend hread hl
    refine ⟨l', heq, hsel.congr fun x => ?_⟩
    constructor
    · intro hacc t' rest' hread'
      obtain rfl := hread.unique hread'
      have hsame : rest ++ [] = rest' ++ [] := by
        have heqs := hread.eq.symm.trans hread'.eq
        simpa using heqs
      rw [List.append_nil, List.append_nil] at hsame
      exact hsame ▸ hacc
    · exact fun hpasses => hpasses t rest hread
  · push Not at h
    refine ⟨l, processCriterion_idle hend (fun op hacts => ?_) l, (Selects.refl hl).congr fun x => ?_⟩
    · obtain ⟨t, rest, -, hread⟩ := acts_iff.1 hacts
      exact h t rest hread
    · exact iff_of_true trivial fun t rest hread => absurd hread (h t rest)

/-- What a search leaves of the files, given the tokens of its text. -/
theorem protLookProcessCriterions_selects (hreg : Registry st) {str : CString}
    (hend : ∀ cr ∈ stringSplit str [' '], Whole cr) :
    ∃ l, protLookProcessCriterions st str = some l ∧
      Selects st (fileList st) (fun x => ∀ cr ∈ stringSplit str [' '], Passes cr x) l :=
  foldlM_selects (p := Passes) (fun cr hcr _ hl => processCriterion_passes (hend cr hcr) hl) fun _ hf =>
    (mem_fileList_iff hreg).1 hf

/-- The empty token is taken for nothing. -/
theorem passes_nil (x : File) : Passes [] x := by
  intro t rest h
  have hfields : ∀ t ∈ tests, t.field ≠ [] := by decide
  exact absurd (List.append_eq_nil_iff.1 h.eq.symm).1 (hfields t (mem_tests t))

/-- The criteria of a request, with a space between each two. -/
def criterionsStr (tokens : List CString) : CString := [' '].intercalate tokens

theorem criterionsStr_selects (hreg : Registry st) {tokens : List CString}
    (htokens : ∀ cr ∈ tokens, ' ' ∉ cr ∧ Whole cr) :
    ∃ l, protLookProcessCriterions st (criterionsStr tokens) = some l ∧ l.Nodup ∧
      ∀ f, f ∈ l ↔ f ∈ fileList st ∧ ∃ x, st.file f = some x ∧ ∀ cr ∈ tokens, Passes cr x := by
  have hsplit : stringSplit (criterionsStr tokens) [' '] = tokens.filter fun w => !w.isEmpty :=
    stringSplit_space_intercalate_filter fun cr hcr => (htokens cr hcr).1
  have hend : ∀ cr ∈ stringSplit (criterionsStr tokens) [' '], Whole cr :=
    fun cr hcr => (htokens cr (List.mem_of_mem_filter (hsplit ▸ hcr))).2
  obtain ⟨l, heq, hsel⟩ := protLookProcessCriterions_selects hreg hend
  refine ⟨l, heq, hsel.nodup (fileList_nodup hreg), fun f => ?_⟩
  have hall : ∀ x, (∀ cr ∈ stringSplit (criterionsStr tokens) [' '], Passes cr x) ↔
      ∀ cr ∈ tokens, Passes cr x := by
    intro x
    rw [hsplit]
    refine ⟨fun h cr hcr => ?_, fun h cr hcr => h cr (List.mem_of_mem_filter hcr)⟩
    by_cases hnil : cr = []
    · exact hnil ▸ passes_nil x
    · exact h cr (List.mem_filter.2 ⟨hcr, by simpa using hnil⟩)
  exact hsel.mem.trans (and_congr_right fun _ => exists_congr fun x => and_congr_right fun _ => hall x)

/-- The list has each registered file once if every token that is taken for a test accepts it, and not
otherwise; one processor at most acts on a token; order and repetition of the tokens do not matter. -/
theorem protLookProcessCriterions_exact (hreg : Registry st) {tokens : List CString}
    (htokens : ∀ cr ∈ tokens, ' ' ∉ cr ∧ Whole cr) :
    ∃ l, protLookProcessCriterions st (criterionsStr tokens) = some l ∧ l.Nodup ∧
      (∀ f, f ∈ l ↔ f ∈ fileList st ∧ ∃ x, st.file f = some x ∧ ∀ cr ∈ tokens, Passes cr x) ∧
      (∀ cr ∈ tokens,
        (∀ op, Acts op cr ↔ ∃ t rest, t.op = op ∧ Reads cr t rest) ∧
        (∀ op op', Acts op cr → Acts op' cr → op = op') ∧
        (∀ op, ¬ Acts op cr → ∀ l, process st cr l op = some l) ∧
        ((∀ op, ¬ Acts op cr) → ∀ l, processCriterion st cr l = some l)) ∧
      ∀ tokens', (∀ cr, cr ∈ tokens' ↔ cr ∈ tokens) →
        ∃ l', protLookProcessCriterions st (criterionsStr tokens') = some l' ∧ ∀ f, f ∈ l' ↔ f ∈ l := by
  obtain ⟨l, heq, hnodup, hmem⟩ := criterionsStr_selects hreg htokens
  refine ⟨l, heq, hnodup, hmem, fun cr hcr => ?_, fun tokens' hsame => ?_⟩
  · have hend : Whole cr := (htokens cr hcr).2
    exact ⟨fun _ => acts_iff, fun _ _ h h' => h.unique h', fun op h => process_idle (hend _ (delim_mem op)) h,
      fun h => processCriterion_idle hend h⟩
  · obtain ⟨l', heq', -, hmem'⟩ := criterionsStr_selects hreg fun cr hcr => htokens cr ((hsame cr).1 hcr)
    refine ⟨l', heq', fun f => ?_⟩
    rw [hmem, hmem']
    simp only [hsame]

/-- A name, a size, and a token that no processor takes. -/
def filmTokens : List CString :=
  ["filename=\"film\"".toList, "filesize>=\"5\"".toList, "key<\"a!=\"b".toList]

theorem protLookProcessCriterions_exact_film : ∃ h st, TrackerRun h st ∧ st.file 0 ≠ none ∧
    ∃ l, protLookProcessCriterions st (criterionsStr filmTokens) = some l ∧ l.Nodup := by
  obtain ⟨h, st, hrun, hfile⟩ :=
    exists_run_of_replay [.connect 5 ⟨loopback, 4000⟩, .request 0 (announceFilm "6881".toList)]
      (P := fun _ st => st.file 0 ≠ none) (by decide +kernel)
  have htokens : ∀ cr ∈ filmTokens, ' ' ∉ cr ∧ Whole cr := by decide
  obtain ⟨l, heq, hnodup, -⟩ :=
    protLookProcessCriterions_exact (wellFormed_of_run hrun).toRegistry htokens
  exact ⟨h, st, hrun, hfile, l, heq, hnodup⟩

end CTracker
end Raiezau
