import Raiezau.CTracker.Criteria
import Raiezau.CUtil.StringCells

/-!
# LookCells — the strings a search goes through

`prot_look` on the array its request lies in: the criteria are copied out of it, cut into tokens, and every token is
cut again by each of the six processors, in arrays of their own.  An access outside an array fails the request, as
one of a file that is not there does.
-/

namespace Raiezau
namespace CTracker

open Memory CUtil Text JavaClient

namespace Cells

/-! ## Model -/

def criterionProcessor (delim : CString) (code : CString → Option (CString → File → Bool)) (st : Tracker)
    (criterion : Block Char) (l : List Addr) : Option (List Addr) := do
  match ← Cells.stringSplit2 criterion delim with
  | [field, value] => do
      let value ← Cells.strstripc value '"'
      let field ← Cells.stringFrom field 0
      let value ← Cells.stringFrom value 0
      match code field with
      | none => pure l
      | some test => processList st l (test value)
  | _ => pure l

def processCriterion (st : Tracker) (criterion : Block Char) (l : List Addr) : Option (List Addr) :=
  operators.foldlM (fun l op => criterionProcessor (delim op) (operatorCode op) st criterion l) l

def protLookProcessCriterions (st : Tracker) (criterionsStr : Block Char) : Option (List Addr) := do
  let criterions ← Cells.stringSplit criterionsStr [' ']
  criterions.foldlM (fun l cr => processCriterion st cr l) (fileList st)

/-- The files a request selects, when it has the form of a search. -/
def lookFiles (st : Tracker) (reqValue : Block Char) : Option (Option (List Addr)) := do
  let v ← Cells.stringFrom reqValue 0
  match regexec lookRegexp v with
  | none => pure none
  | some pmatch => do
      let m := slot pmatch 1
      let criterions ← Cells.strndup reqValue m.so (m.eo - m.so)
      let l ← protLookProcessCriterions st criterions
      pure (some l)

end Cells

/-! ## The same search on lists -/

variable {st : Tracker} {b : Block Char} {v cr : CString} {l : List Addr}

/-- The parts of a token are read back as they were written. -/
theorem not_nul_mem_of_split2 {op : CriterionOP} {field rest : CString} (hcr : '\x00' ∉ cr)
    (h : stringSplit2 cr (delim op) = [field, rest]) : '\x00' ∉ field ∧ '\x00' ∉ rest := by
  rw [stringSplit2_eq_splitSub] at h
  have hparts := splitSub_pair (delim_ne_nil op) h
  constructor <;> intro hmem <;> exact hcr (by rw [hparts]; simp [hmem])

theorem cells_criterionProcessor {op : CriterionOP} (h : Cells.stringFrom b 0 = some cr) (l : List Addr) :
    Cells.criterionProcessor (delim op) (operatorCode op) st b l = process st cr l op := by
  rw [Cells.criterionProcessor, process, criterionProcessor, Cells.stringSplit2_eq h, Option.bind_eq_bind,
    Option.bind_some]
  rcases hsplit : stringSplit2 cr (delim op) with _ | ⟨field, _ | ⟨rest, _ | ⟨third, parts⟩⟩⟩
  · rfl
  · rfl
  · obtain ⟨hfield, hrest⟩ := not_nul_mem_of_split2 (Cells.not_nul_mem h) hsplit
    have hstrip := Cells.strstripc_spec (Cells.stringFrom_newString hrest) '"'
    simp only [List.map_cons, List.map_nil, ← hstrip, Cells.stringFrom_newString hfield, Option.bind_eq_bind,
      Option.bind_assoc]
    rfl
  · rfl

theorem cells_processCriterion (h : Cells.stringFrom b 0 = some cr) (l : List Addr) :
    Cells.processCriterion st b l = processCriterion st cr l := by
  rw [Cells.processCriterion, processCriterion_eq_foldlM]
  exact Machine.foldlM_congr (fun op _ l => cells_criterionProcessor h l) l

theorem cells_protLookProcessCriterions (h : Cells.stringFrom b 0 = some v) :
    Cells.protLookProcessCriterions st b = protLookProcessCriterions st v := by
  rw [Cells.protLookProcessCriterions, Cells.stringSplit_eq h, Option.bind_eq_bind, Option.bind_some,
    List.foldlM_map, protLookProcessCriterions]
  refine Machine.foldlM_congr (fun cr hcr l => cells_processCriterion (Cells.stringFrom_newString ?_) l) _
  rw [stringSplit_eq_words] at hcr
  exact fun hmem => Cells.not_nul_mem h (mem_of_mem_words hcr hmem)

/-- On a request that is a string the search does the same. -/
theorem cells_lookFiles (h : Cells.stringFrom b 0 = some v) : Cells.lookFiles st b = lookFiles st v := by
  unfold Cells.lookFiles lookFiles
  rw [h, Option.bind_eq_bind, Option.bind_some]
  cases hre : regexec lookRegexp v with
  | none => rfl
  | some pm =>
      have hso : (slot pm 1).so ≤ v.length := by
        unfold slot
        rcases Nat.lt_or_ge 1 pm.length with hlt | hge
        · obtain ⟨-, hle, hin⟩ := regexec_within hre (pm.getD 1 ⟨0, 0⟩) (by simp [hlt])
          exact Nat.le_trans hle hin
        · simp [hge]
      have hfrom := Cells.stringFrom_drop h hso
      rw [Nat.zero_add] at hfrom
      have hcopy : Cells.strndup b (slot pm 1).so ((slot pm 1).eo - (slot pm 1).so) =
          some (Cells.newString (substr v (slot pm 1).so (slot pm 1).eo)) := by
        rw [Cells.strndup, hfrom]
        rfl
      have hnul : '\x00' ∉ substr v (slot pm 1).so (slot pm 1).eo :=
        fun hmem => Cells.not_nul_mem h (substr_subset hmem)
      simp only [hcopy, cells_protLookProcessCriterions (Cells.stringFrom_newString hnul), Option.bind_eq_bind,
        Option.bind_some]
      rw [Option.map_eq_bind]
      rfl

/-! ## When the search stays inside its strings -/

/-- The token ends in the delimiter and has no other. -/
def EndsOnce (d cr : CString) : Prop := d <:+ cr ∧ ¬ d <:+: cr.take (cr.length - d.length)

instance (d cr : CString) : Decidable (EndsOnce d cr) := inferInstanceAs (Decidable (_ ∧ _))

theorem endsOnce_iff {d cr : CString} : EndsOnce d cr ↔ ∃ field, cr = field ++ d ∧ ¬ d <:+: field := by
  constructor
  · rintro ⟨⟨field, rfl⟩, hno⟩
    refine ⟨field, rfl, ?_⟩
    simpa using hno
  · rintro ⟨field, rfl, hno⟩
    exact ⟨List.suffix_append field d, by simpa using hno⟩

theorem quote_not_mem_operator (op : CriterionOP) : '"' ∉ op.toString := by
  cases op <;> decide

/-- The text that the processor of the operator strips is empty. -/
theorem stringSplit2_last_iff {op : CriterionOP} :
    (∃ field, stringSplit2 cr (delim op) = [field, []]) ↔ EndsOnce (delim op) cr := by
  rw [endsOnce_iff, stringSplit2_eq_splitSub]
  exact splitSub_last_iff (quote_not_mem_operator op)

theorem process_faults {op : CriterionOP} (h : EndsOnce (delim op) cr) (l : List Addr) :
    process st cr l op = none := by
  obtain ⟨field, hsplit⟩ := stringSplit2_last_iff.2 h
  rw [process, criterionProcessor, hsplit]
  rfl

theorem process_total {op : CriterionOP} (h : ¬ EndsOnce (delim op) cr) (hl : AllFiles st l) :
    ∃ l', process st cr l op = some l' ∧ AllFiles st l' := by
  unfold process criterionProcessor
  split
  · next field rest hsplit =>
      have hrest : rest ≠ [] := by
        rintro rfl
        exact h (stringSplit2_last_iff.1 ⟨field, hsplit⟩)
      rw [strstripc_quote hrest, Option.bind_eq_bind, Option.bind_some]
      cases operatorCode op field with
      | none => exact ⟨l, rfl, hl⟩
      | some test =>
          obtain ⟨l', heq, hsel⟩ := processList_spec hl (test (unquote rest))
          exact ⟨l', heq, hsel.allFiles⟩
  · exact ⟨l, rfl, hl⟩

/-- No operator with its quote closes the token alone. -/
def Strippable (cr : CString) : Prop := ∀ op ∈ operators, ¬ EndsOnce (delim op) cr

instance (cr : CString) : Decidable (Strippable cr) :=
  inferInstanceAs (Decidable (∀ op ∈ operators, ¬ EndsOnce (delim op) cr))

theorem processCriterion_isSome (hl : AllFiles st l) : (processCriterion st cr l).isSome ↔ Strippable cr := by
  rw [processCriterion_eq_foldlM]
  exact Machine.foldlM_isSome_iff (fun _ hl hop => process_total hop hl)
    (fun _ _ hop => process_faults (not_not.1 hop) _) hl

theorem processCriterion_strippable (hcr : Strippable cr) (hl : AllFiles st l) :
    ∃ l', processCriterion st cr l = some l' ∧ AllFiles st l' := by
  rw [processCriterion_eq_foldlM]
  exact Machine.foldlM_total (fun hop hl => process_total (hcr _ hop) hl) hl

theorem protLookProcessCriterions_isSome (hreg : Registry st) {str : CString} :
    (protLookProcessCriterions st str).isSome ↔ ∀ cr ∈ stringSplit str [' '], Strippable cr := by
  refine Machine.foldlM_isSome_iff (I := AllFiles st) (fun _ hl hcr => processCriterion_strippable hcr hl)
    (fun _ hl hcr => ?_) fun f hf => (mem_fileList_iff hreg).1 hf
  exact Option.not_isSome_iff_eq_none.1 (mt (processCriterion_isSome hl).1 hcr)

/-- The search reads and writes inside its strings unless one of the tokens ends in one of the six operators with
its quote, and has that nowhere else: what is to be stripped is then empty. -/
theorem lookFiles_inside_iff (hreg : Registry st) (h : Cells.stringFrom b 0 = some v) :
    (Cells.lookFiles st b).isSome ↔
      ∀ pm ∈ regexec lookRegexp v, ∀ cr ∈ clauseTab v (slot pm 1), Strippable cr := by
  rw [cells_lookFiles h, lookFiles]
  cases regexec lookRegexp v with
  | none => simp
  | some pm =>
      simp only [Option.isSome_map, Option.mem_def, Option.some.injEq, forall_eq']
      exact protLookProcessCriterions_isSome hreg

/-- A name and a size, both closed by their quotes. -/
def closedSearch : CString := "[filename=\"film\" filesize>\"5\"]".toList

/-- A name that is not given. -/
def openSearch : CString := "[filename=\"]".toList

theorem lookFiles_inside_closed : ∃ h st, TrackerRun h st ∧ st.file 0 ≠ none ∧
    (Cells.lookFiles st (Cells.newString closedSearch)).isSome := by
  obtain ⟨h, st, hrun, hfile⟩ :=
    exists_run_of_replay [.connect 5 ⟨loopback, 4000⟩, .request 0 (announceFilm "6881".toList)]
      (P := fun _ st => st.file 0 ≠ none) (by decide +kernel)
  have hre : regexec lookRegexp closedSearch = some [⟨0, 30⟩, ⟨1, 29⟩] := by decide +kernel
  have htokens : ∀ cr ∈ clauseTab closedSearch ⟨1, 29⟩, Strippable cr := by decide +kernel
  refine ⟨h, st, hrun, hfile, (lookFiles_inside_iff (wellFormed_of_run hrun).toRegistry
    (Cells.stringFrom_newString (by decide))).2 fun pm hpm => ?_⟩
  obtain rfl : _ = pm := Option.some.inj (hre.symm.trans hpm)
  exact htokens

/-- The empty text behind the last quote is stripped. -/
theorem search_reads_outside : ¬ ∀ (st : Tracker) (b : Block Char) (v : CString), Registry st →
    Cells.stringFrom b 0 = some v → (Cells.lookFiles st b).isSome := by
  intro h
  have hin := h Tracker.init (Cells.newString openSearch) openSearch wellFormed_init.toRegistry
    (Cells.stringFrom_newString (by decide))
  have hout : Cells.lookFiles Tracker.init (Cells.newString openSearch) = none := by decide +kernel
  rw [hout] at hin
  cases hin

end CTracker
end Raiezau
