import Raiezau.CTracker.State
import Raiezau.CUtil.String2
import Raiezau.Text.Pattern

/-!
# Protocol — request handling of the C tracker

A translation of `tracker/protocol.c`.  A request is the string `socket_read_string` delivers; handling
it yields the new state and the replies written to the requesting socket, or a fault (`none`).  The patterns are
matched in the C locale, which is what `setlocale(LC_ALL, "")` in `main` gives where the environment names no other.

A list has fewer than `2 ^ 31` files and a reply fewer bytes: the loop of `PROCESS_LIST` counts with an `int`, and
`asprintf` returns the length of a reply as one.
-/

namespace Raiezau
namespace CTracker

open Memory CUtil Text

/-! ## Request patterns -/

/-- A group `([0-9]{1,5})`. -/
def portGroup : Item := .rep { cls := Char.isDigit, lo := 1, hi := some 5, group := true }

/-- A trailing ` *`. -/
def spaces : Item := .rep { cls := fun c => c = ' ', lo := 0, hi := none, group := false }

/-- `listen ([0-9]{1,5}) seed \[(.*)\] leech \[(.*)\]` -/
def announceRegexp : Pattern :=
  lits "listen ".toList ++ portGroup :: (lits " seed [".toList ++ anyGroup ::
    (lits "] leech [".toList ++ anyGroup :: lits "]".toList))

/-- `seed \[(.*)\] leech \[(.*)\] *` -/
def updateRegexp : Pattern :=
  lits "seed [".toList ++ anyGroup :: (lits "] leech [".toList ++ anyGroup ::
    (lits "]".toList ++ [spaces]))

/-- `\[(.*)\] *` -/
def lookRegexp : Pattern := lits "[".toList ++ anyGroup :: (lits "]".toList ++ [spaces])

theorem bracket_caseless : Caseless ']' := caseless_of_not_letter rfl rfl

theorem space_caseless : Caseless ' ' := caseless_of_not_letter rfl rfl

/-- A slot of the `regmatch_t` array. -/
def slot (pmatch : List RegMatch) (i : Nat) : RegMatch := pmatch.getD i ⟨0, 0⟩

/-! ## Declarations: `announce` and `update` -/

def getSeedFiles : Tracker → List CString → Option (Tracker × List Addr)
  | st, name :: size :: piece :: key :: tab => do
      let (st, f) ← fileGetOrCreate st name (atol size) (atoi piece) key
      let (st, l) ← getSeedFiles st tab
      pure (st, f :: l)
  | st, _ => pure (st, [])

def getSeedFileList (st : Tracker) (seedStr : CString) : Option (Tracker × List Addr) :=
  let tab := stringSplit seedStr [' ']
  if tab.length % 4 ≠ 0 then some (st, []) else getSeedFiles st tab

def getLeechFileList (st : Tracker) (leechStr : CString) : List Addr :=
  (stringSplit leechStr [' ']).filterMap (fileGetByKey st)

/-- The old lists are freed and replaced; the new ones add the client to each file's table. -/
def seedLeechMatchAndParse (st : Tracker) (c : Addr) (req : CString) (pmatch : List RegMatch) :
    Option Tracker := do
  let seedStr := substr req (slot pmatch 1).so (slot pmatch 1).eo
  let leechStr := substr req (slot pmatch 2).so (slot pmatch 2).eo
  let (st, seeds) ← getSeedFileList st seedStr
  let leeches := getLeechFileList st leechStr
  let st := st.modifyClient c fun cl => { cl with filesSeed := seeds, filesLeech := leeches }
  let st ← seeds.foldlM (fileAddClient c) st
  leeches.foldlM (fileAddClient c) st

/-- `pmatch[1] = pmatch[0]` and `&pmatch[1]` hand the last two groups down as slots 1 and 2. -/
def announceMatchAndParse (st : Tracker) (c : Addr) (req : CString) (pmatch : List RegMatch) :
    Option Tracker :=
  let port := toUInt16 (atoi (req.drop (slot pmatch 1).so))
  let st := clientSetListeningPort st c port
  seedLeechMatchAndParse st c req ((pmatch.set 1 (slot pmatch 0)).drop 1)

def updateMatchAndParse (st : Tracker) (c : Addr) (req : CString) (pmatch : List RegMatch) :
    Option Tracker :=
  seedLeechMatchAndParse st c req pmatch

/-! ## Replies and handlers -/

/-- What a handler leaves: the state, its return value, and the replies it wrote. -/
structure Outcome where
  st : Tracker
  ret : Int
  out : List CString

def okReply : CString := "ok\n".toList
def errorReply : CString := "error\n".toList

def protAnnounce (st : Tracker) (c : Addr) (reqValue : CString) : Option Outcome :=
  match regexec announceRegexp reqValue with
  | none => some ⟨st, -1, []⟩
  | some pmatch => do
      let st ← announceMatchAndParse st c reqValue pmatch
      pure ⟨st, 0, [okReply]⟩

def protUpdate (st : Tracker) (c : Addr) (reqValue : CString) : Option Outcome :=
  match regexec updateRegexp reqValue with
  | none => some ⟨st, -1, []⟩
  | some pmatch => do
      let st ← updateMatchAndParse st c reqValue pmatch
      pure ⟨st, 0, [okReply]⟩

/-! ### `look` -/

/-- `PROCESS_LIST`: `list_add` reverses the order of the files kept.  The loop counts up to the length of the list,
which has to fit its `int`. -/
def processList (st : Tracker) (l : List Addr) (criterion : File → Bool) : Option (List Addr) :=
  l.foldlM (fun newList f => do
    let x ← st.file f
    pure (if criterion x then f :: newList else newList)) []

/-- The common body of the criterion processors.  `code` is the processor's own part: the test it runs
for a field, or none when no branch of it takes the field. -/
def criterionProcessor (delim : CString) (code : CString → Option (CString → File → Bool))
    (st : Tracker) (criterion : CString) (l : List Addr) : Option (List Addr) :=
  match stringSplit2 criterion delim with
  | [field, rest] => do
      let value ← strstripc rest '"'
      match code field with
      | none => pure l
      | some test => processList st l (test value)
  | _ => some l

def filenameField : CString := "filename".toList
def filesizeField : CString := "filesize".toList

/-- `file_size(f)` compared with `atol(value)`, both as `unsigned long`. -/
def sizeTest (r : Nat → Nat → Bool) (value : CString) (f : File) : Bool :=
  r f.length (toUInt64 (atol value))

/-- The processors that only know `filesize`. -/
def sizeCode (r : Nat → Nat → Bool) (field : CString) : Option (CString → File → Bool) :=
  if field = filesizeField then some (sizeTest r) else none

def eqDelim : CString := "=\"".toList
def neqDelim : CString := "!=\"".toList
def geqDelim : CString := ">=\"".toList
def leqDelim : CString := "<=\"".toList
def ltDelim : CString := "<\"".toList
def gtDelim : CString := ">\"".toList

def eqCode (field : CString) : Option (CString → File → Bool) :=
  if field = filenameField then some (fun value f => value = f.filename)
  else if field = filesizeField then some (sizeTest fun m n => m = n)
  else none

def neqCode (field : CString) : Option (CString → File → Bool) :=
  if field = filenameField then some (fun value f => value ≠ f.filename)
  else if field = filesizeField then some (sizeTest fun m n => m ≠ n)
  else none

def geqCode : CString → Option (CString → File → Bool) := sizeCode fun m n => n ≤ m
def leqCode : CString → Option (CString → File → Bool) := sizeCode fun m n => m ≤ n
def ltCode : CString → Option (CString → File → Bool) := sizeCode fun m n => m < n
def gtCode : CString → Option (CString → File → Bool) := sizeCode fun m n => n < m

def processCriterionEq := criterionProcessor eqDelim eqCode
def processCriterionNeq := criterionProcessor neqDelim neqCode
def processCriterionGeq := criterionProcessor geqDelim geqCode
def processCriterionLeq := criterionProcessor leqDelim leqCode
def processCriterionLt := criterionProcessor ltDelim ltCode
def processCriterionGt := criterionProcessor gtDelim gtCode

def processCriterion (st : Tracker) (criterion : CString) (l : List Addr) : Option (List Addr) := do
  let l ← processCriterionNeq st criterion l
  let l ← processCriterionGeq st criterion l
  let l ← processCriterionLeq st criterion l
  let l ← processCriterionEq st criterion l
  let l ← processCriterionLt st criterion l
  processCriterionGt st criterion l

def protLookProcessCriterions (st : Tracker) (criterionsStr : CString) : Option (List Addr) :=
  (stringSplit criterionsStr [' ']).foldlM (fun l cr => processCriterion st cr l) (fileList st)

/-- One entry of a list reply, `"%s %lu %u %s"`. -/
def fileEntry (x : File) : CString :=
  x.filename ++ ' ' :: (decimal x.length ++ ' ' :: (decimal x.pieceSize ++ ' ' :: x.md5Str))

def protLookBuildFileList (st : Tracker) (l : List Addr) : Option CString := do
  let xs ← l.mapM st.file
  pure ([' '].intercalate (xs.map fileEntry))

/-- The files a `look` request selects, when the request has its form. -/
def lookFiles (st : Tracker) (reqValue : CString) : Option (Option (List Addr)) :=
  match regexec lookRegexp reqValue with
  | none => some none
  | some pmatch =>
      (protLookProcessCriterions st (substr reqValue (slot pmatch 1).so (slot pmatch 1).eo)).map some

def protLook (st : Tracker) (_c : Addr) (reqValue : CString) : Option Outcome := do
  match ← lookFiles st reqValue with
  | none => pure ⟨st, -1, []⟩
  | some l =>
      let s ← protLookBuildFileList st l
      pure ⟨st, 0, ["list [".toList ++ s ++ "]\n".toList]⟩

/-! ### `getfile` -/

def keyhashStrsize : Nat := 32

def strTrimProtGetfile (req : CString) : CString := req.takeWhile (fun c => c ≠ '\n')

/-- Each entry's client is dereferenced for its endpoint, except the requester's own. -/
def protGetfileBuildPeerStringList (st : Tracker) (current : Addr) (cli : HashTable Addr) :
    Option CString :=
  cli.foldlM (fun output e =>
    if e.2 = current then pure output
    else do
      let cl ← st.client e.2
      let key ← cl.listenAddrKey
      pure (output ++ ' ' :: key)) []

def protGetfile (st : Tracker) (c : Addr) (reqValue : CString) : Option Outcome :=
  let key := strTrimProtGetfile reqValue
  if key.length ≠ keyhashStrsize then some ⟨st, -1, []⟩
  else do
    let endpoints ←
      match fileGetByKey st key with
      | none => pure []
      | some f => do
          let x ← st.file f
          protGetfileBuildPeerStringList st c x.clients
    pure ⟨st, 0, ["peers ".toList ++ key ++ " [".toList ++ endpoints ++ "]\n".toList]⟩

/-! ### Dispatch -/

inductive Handler
  | announce
  | update
  | look
  | getfile
  deriving DecidableEq, Repr

def Handler.call : Handler → Tracker → Addr → CString → Option Outcome
  | .announce => protAnnounce
  | .update => protUpdate
  | .look => protLook
  | .getfile => protGetfile

def requestHandlers : HashTable Handler :=
  [("announce".toList, .announce), ("update".toList, .update), ("look".toList, .look),
    ("getfile".toList, .getfile)]

def getRequestHandler (reqName : CString) : Option Handler :=
  htGetEntry requestHandlers (strReplaceChar (strReplaceChar reqName ' ' '\x00') '\n' '\x00')

def getAndCallHandler (st : Tracker) (c : Addr) (reqName reqValue : CString) :
    Option (Tracker × List CString) :=
  match getRequestHandler reqName with
  | none => some (st, [errorReply])
  | some h => do
      let o ← h.call st c reqValue
      pure (o.st, if o.ret < 0 then o.out ++ [errorReply] else o.out)

/-- `handle_request` from the string that was read on; an empty or blank one is refused. -/
def handleRequest (st : Tracker) (c : Addr) (clientReq : CString) :
    Option (Tracker × List CString) :=
  match sscanfWord clientReq with
  | none => some (st, [errorReply])
  | some (reqName, reqValue) => getAndCallHandler st c reqName reqValue

/-- A request whose first word names a handler is that handler's. -/
theorem handleRequest_word {st : Tracker} {c : Addr} {w v : CString} {h : Handler} (hne : w ≠ [])
    (hw : ∀ ch ∈ w, isspace ch = false) (hv : ∀ ch ∈ v.head?, isspace ch = false)
    (hh : getRequestHandler w = some h) :
    handleRequest st c (w ++ ' ' :: v) =
      (h.call st c v).map fun o => (o.st, if o.ret < 0 then o.out ++ [errorReply] else o.out) := by
  rw [handleRequest, sscanfWord_append hne hw hv]
  simp only [getAndCallHandler, hh]
  cases h.call st c v <;> rfl

theorem handleRequest_getfile_word {st : Tracker} {c : Addr} {key : CString}
    (hkey : ∀ ch ∈ key.head?, isspace ch = false) :
    handleRequest st c ("getfile ".toList ++ key) =
      (protGetfile st c key).map fun o => (o.st, if o.ret < 0 then o.out ++ [errorReply] else o.out) := by
  have hblank : "getfile ".toList ++ key = "getfile".toList ++ ' ' :: key := by simp
  rw [hblank]
  exact handleRequest_word (h := .getfile) (by decide) (by decide) hkey (by decide)

end CTracker
end Raiezau
