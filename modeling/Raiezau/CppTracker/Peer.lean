import Raiezau.CppTracker.Criterion
import Raiezau.Machine.Run

/-!
# Peer — the requests of the C++ tracker

A translation of `Peer.cpp`.  A handler may throw after it has changed the tracker, so what it leaves is
a state together with a value or the text of an exception; `none` is a fault.  The loops of
`handleAnnounce` and `handleUpdate` read a fixed number of clauses and apply each one as it is read.
-/

namespace Raiezau
namespace CppTracker

open Memory CUtil Machine

variable {st st' : Tracker} {p f : Addr}

/-- A state, and a value or what was thrown. -/
abbrev Result (α : Type) := Tracker × Except CString α

/-! ## Declarations -/

/-- The parts of a clause, without the empty ones. -/
def tokens (s : CString) : List CString := (split s ' ').filter fun w => w ≠ []

/-- The body of the loop of `parseAnnounceSeed`; an entry whose numbers `stoul` refuses is skipped. -/
def seedEntry (p : Addr) (st : Tracker) (name size piece hash : CString) : Option Tracker :=
  match stoul size, stoul piece with
  | some fileSize, some pieceSize => do
      let (st, f) ← getFile st name fileSize pieceSize hash
      let x ← st.file f
      let st := st.modifyPeer p fun q => { q with seed := q.seed.insert x.hash f }
      addPeer st p f
  | _, _ => some st

def seedEntries (p : Addr) : Tracker → List CString → Option Tracker
  | st, name :: size :: piece :: hash :: v => do
      let st ← seedEntry p st name size piece hash
      seedEntries p st v
  | st, _ => some st

def parseAnnounceSeed (st : Tracker) (p : Addr) (seed : CString) : Option (Result Unit) :=
  let st := st.modifyPeer p fun q => { q with seed := [] }
  let v := tokens seed
  if v.length % 4 ≠ 0 then some (st, .error "invalid seed argument count".toList)
  else (seedEntries p st v).map fun st => (st, .ok ())

/-- The body of the loop of `parseAnnounceLeech`; a hash that is not registered is skipped. -/
def leechEntry (p : Addr) (st : Tracker) (hash : CString) : Option Tracker :=
  match st.fileMap.get hash with
  | none => some st
  | some f => do
      let x ← st.file f
      let st := st.modifyPeer p fun q => { q with leech := q.leech.insert x.hash f }
      addPeer st p f

def parseAnnounceLeech (st : Tracker) (p : Addr) (leech : CString) : Option Tracker :=
  let st := st.modifyPeer p fun q => { q with leech := [] }
  (tokens leech).foldlM (leechEntry p) st

/-! ## Clauses -/

def listenKeyword : CString := "listen".toList
def seedKeyword : CString := "seed".toList
def leechKeyword : CString := "leech".toList

inductive Clause
  | listen (argument : CString)
  | seed (argument : CString)
  | leech (argument : CString)
  | unexpected (keyword : CString)
  deriving DecidableEq, Repr

/-- The stream and the two variables it is read into. -/
structure Scan where
  line : IStream
  keyword : CString
  argument : CString
  deriving DecidableEq, Repr

def Scan.start (line : IStream) : Scan := ⟨line, [], []⟩

/-- `getline(line, garbage, '['); getline(line, argument, ']');` -/
def Scan.readBrackets (s : Scan) : Scan :=
  let line := (s.line.getline [] '[').1
  let (line, argument) := line.getline s.argument ']'
  { s with line := line, argument := argument }

/-- The keyword of a clause and its argument.  Only an announce has a `listen` clause. -/
def readClause (announce : Bool) (s : Scan) : Scan × Clause :=
  let (line, keyword) := s.line.readWord s.keyword
  let s := { s with line := line, keyword := keyword }
  if announce ∧ keyword = listenKeyword then
    let (line, argument) := s.line.readWord s.argument
    ({ s with line := line, argument := argument }, .listen argument)
  else if keyword = seedKeyword then (s.readBrackets, .seed s.readBrackets.argument)
  else if keyword = leechKeyword then (s.readBrackets, .leech s.readBrackets.argument)
  else (s, .unexpected keyword)

/-- The flags `listen`, `seed` and `leech`. -/
structure Seen where
  listen : Bool
  seed : Bool
  leech : Bool
  deriving DecidableEq, Repr

def Seen.none : Seen := ⟨false, false, false⟩

def Seen.mark (seen : Seen) : Clause → Seen
  | .listen _ => { seen with listen := true }
  | .seed _ => { seen with seed := true }
  | .leech _ => { seen with leech := true }
  | .unexpected _ => seen

def unexpectedToken (keyword : CString) : CString :=
  "unexpected token '".toList ++ keyword ++ "'".toList

/-- A port that the listen clause takes. -/
def listenPort (argument : CString) : Option Nat :=
  match stoi argument with
  | some port => if port ≤ 0 ∨ 65535 < port then none else some port.toNat
  | none => none

/-- What `handleAnnounce` does with a clause. -/
def announceClause (p : Addr) (st : Tracker) : Clause → Option (Result Unit)
  | .listen argument =>
      match listenPort argument with
      | some port => some (st.modifyPeer p fun q => { q with listeningPort := port }, .ok ())
      | none => some (st, .error "invalid listening port".toList)
  | .seed argument => parseAnnounceSeed st p argument
  | .leech argument => (parseAnnounceLeech st p argument).map fun st => (st, .ok ())
  | .unexpected keyword => some (st, .error (unexpectedToken keyword))

/-- What `handleUpdate` does with a clause: both lists go through `parseAnnounceLeech`. -/
def updateClause (p : Addr) (st : Tracker) : Clause → Option (Result Unit)
  | .seed argument => (parseAnnounceLeech st p argument).map fun st => (st, .ok ())
  | .leech argument => (parseAnnounceLeech st p argument).map fun st => (st, .ok ())
  | .listen _ => some (st, .error (unexpectedToken listenKeyword))
  | .unexpected keyword => some (st, .error (unexpectedToken keyword))

/-- The `while` loop of a handler. -/
def clauseLoop (apply : Tracker → Clause → Option (Result Unit)) (announce : Bool) :
    Nat → Tracker → Scan → Seen → Option (Result Seen)
  | 0, st, _, seen => some (st, .ok seen)
  | n + 1, st, s, seen =>
      let (s, clause) := readClause announce s
      match apply st clause with
      | none => none
      | some (st, .error what) => some (st, .error what)
      | some (st, .ok ()) => clauseLoop apply announce n st s (seen.mark clause)

/-! ## Handlers -/

def okReply : CString := "ok\n".toList

def invalidRequest : CString := "invalid request".toList

def notAnnounced : CString := "not announced.".toList

def handleAnnounce (st : Tracker) (p : Addr) (line : IStream) : Option (Result CString) := do
  let q ← st.peer p
  if q.announced then pure (st, .error "already announced".toList)
  else
    match ← clauseLoop (announceClause p) true 3 st (Scan.start line) Seen.none with
    | (st, .error what) => pure (st, .error what)
    | (st, .ok seen) =>
        if !seen.listen || !seen.seed || !seen.leech then pure (st, .error invalidRequest)
        else pure (st.modifyPeer p fun q => { q with announced := true }, .ok okReply)

def handleUpdate (st : Tracker) (p : Addr) (line : IStream) : Option (Result CString) := do
  let q ← st.peer p
  if !q.announced then pure (st, .error notAnnounced)
  else
    match ← clauseLoop (updateClause p) false 2 st (Scan.start line) Seen.none with
    | (st, .error what) => pure (st, .error what)
    | (st, .ok seen) =>
        if !seen.seed || !seen.leech then pure (st, .error invalidRequest)
        else pure (st, .ok okReply)

def handleLook (st : Tracker) (p : Addr) (line : IStream) : Option (Result CString) := do
  let q ← st.peer p
  if !q.announced then pure (st, .error notAnnounced)
  else
    let argument := (Scan.start line).readBrackets.argument
    let r ← (parseLook st argument).run
    pure (st, r)

/-- The endpoints of a peer set, but for the asking peer's own; a destroyed peer cannot be printed. -/
def peerEndpoints (st : Tracker) (p : Addr) (peers : PtrSet) : Option (List CString) :=
  (peers.filter fun e => e ≠ p).mapM fun e => (st.peer e).map Peer.toString

def peerListString (st : Tracker) (p : Addr) (f : File) : Option CString := do
  let endpoints ← peerEndpoints st p f.peers
  pure ("peers ".toList ++ f.hash ++ " [".toList ++ [' '].intercalate endpoints ++ "]\n".toList)

/-- For an unknown key the code prints the hash of a null pointer. -/
def handleGetfile (st : Tracker) (p : Addr) (line : IStream) : Option (Result CString) := do
  let q ← st.peer p
  if !q.announced then pure (st, .error notAnnounced)
  else
    let key := (line.readWord []).2
    let f ← st.fileMap.get key
    let x ← st.file f
    let reply ← peerListString st p x
    pure (st, .ok reply)

inductive Handler
  | announce
  | update
  | look
  | getfile
  deriving DecidableEq, Repr

def Handler.call : Handler → Tracker → Addr → IStream → Option (Result CString)
  | .announce => handleAnnounce
  | .update => handleUpdate
  | .look => handleLook
  | .getfile => handleGetfile

def handlerOf (keyword : CString) : Option Handler :=
  if keyword = "announce".toList then some .announce
  else if keyword = "update".toList then some .update
  else if keyword = "look".toList then some .look
  else if keyword = "getfile".toList then some .getfile
  else none

/-! ## One line of a peer -/

def maxSeqErrorCount : Nat := 5

/-- `sendErrorNotice`. -/
def errorNotice (notice : CString) : CString := "error: ".toList ++ notice ++ "\n".toList

def countError (st : Tracker) (p : Addr) : Tracker :=
  st.modifyPeer p fun q => { q with seqErrorCount := q.seqErrorCount + 1 }

def clearErrors (st : Tracker) (p : Addr) : Tracker :=
  st.modifyPeer p fun q => { q with seqErrorCount := 0 }

/-- The handler a line goes to, with what follows its keyword. -/
def dispatch (line : CString) : Option (Handler × IStream) := do
  let (ss, keyword) := (IStream.ofString line).readWord []
  let handler ← handlerOf keyword
  pure (handler, ss)

/-- A pass of the loop of `readHandler`: the tracker after it, and the reply unless the line is blank. -/
def handleLine (st : Tracker) (p : Addr) (line : CString) : Option (Tracker × Option CString) :=
  let keyword := ((IStream.ofString line).readWord []).2
  if keyword = [] then some (st, none)
  else
    match dispatch line with
    | none =>
        some (countError st p, some (errorNotice ("unexpected keyword '".toList ++ keyword ++ "'".toList)))
    | some (handler, ss) =>
        match handler.call st p ss with
        | none => none
        | some (st, .error what) => some (countError st p, some (errorNotice what))
        | some (st, .ok reply) => some (clearErrors st p, some reply)

/-! ## Runs -/

inductive Event
  | connect (remoteIP : CTracker.InAddr)
  | request (p : Addr) (line : CString)
  | disconnect (p : Addr)
  deriving DecidableEq, Repr

def newPeer (remoteIP : CTracker.InAddr) : Peer :=
  { remoteIP := remoteIP
    listeningPort := 0
    announced := false
    leech := []
    seed := []
    seqErrorCount := 0 }

/-- One event; `none` when it is not possible in the state or faults.  A peer with too many errors in a
row is not heard any more.  Deleting a peer leaves the files' peer sets as they are. -/
def stepFn (st : Tracker) : Event → Option Tracker
  | .connect remoteIP => some { st with peerHeap := st.peerHeap.alloc (newPeer remoteIP) }
  | .request p line => do
      let q ← st.peer p
      if maxSeqErrorCount < q.seqErrorCount then none
      else
        let (st, _) ← handleLine st p line
        pure st
  | .disconnect p => do
      let _ ← st.peer p
      pure { st with peerHeap := st.peerHeap.free p }

def Step (st : Tracker) (e : Event) (st' : Tracker) : Prop := stepFn st e = some st'

abbrev TrackerHistory := History Tracker Event

abbrev TrackerRun (h : TrackerHistory) (st : Tracker) : Prop := Machine.Run Step Tracker.init h st

/-- A session that replays without a fault is a run. -/
theorem exists_run_of_replay (es : List Event) {P : TrackerHistory → Tracker → Prop} [∀ h st, Decidable (P h st)]
    (hre : (replay stepFn [] Tracker.init es).any (fun r => P r.1 r.2) = true) : ∃ h st, TrackerRun h st ∧ P h st :=
  Run.exists_of_replay id es hre

end CppTracker
end Raiezau
