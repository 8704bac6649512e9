import Raiezau.Assoc.Table
import Raiezau.JavaClient.PatternMatcher
import Raiezau.JavaClient.Tracker
import Raiezau.Machine.Proc
import Raiezau.Text.Lines

/-!
# Reception — how the Java client takes the tracker's replies

The rest of `Tracker.java`: a call sends a line, waits for one, and sends `error` when that one is not what
it expects.  The symbols of the two streams are lines.  `FileManager.addFile` is a parameter; it acts on a
state of its own and may throw.
-/

namespace Raiezau
namespace JavaClient

open CUtil Text Machine Assoc

/-- A method that talks to the tracker, with the state it acts on. -/
abbrev TrackerM (σ α : Type) := Proc σ CString JavaError α

variable {σ φ : Type}

/-! ## Sockets -/

namespace TrackerM

/-- `socket.send` of a text whose last line is complete. -/
def send (text : CString) : TrackerM σ Unit := Proc.write (completeLines '\n' text)

def sendError : TrackerM σ Unit := send "error\n".toList

/-- `receiveAndGetMatcher`. -/
def receiveAndGetMatcher (m : PatternMatcher) : TrackerM σ (List CString) := do
  let response ← Proc.read
  Proc.ofExcept (m.getMatcher response)

end TrackerM

open TrackerM

/-- `match.group(i + 1)`. -/
def group (groups : List CString) (i : Nat) : CString := groups.getD i []

/-! ## Peers of a file -/

structure FilePeer where
  ip : CString
  port : Int
  bm : BufferMap
  deriving DecidableEq, Repr

/-- The text of a peer that has no socket yet. -/
def FilePeer.toString (peer : FilePeer) : CString :=
  "[peer: ".toList ++ peer.ip ++ ':' :: (integerToString peer.port ++ "]".toList)

/-- A file with its map of peers. -/
structure PeerFile where
  file : File
  peers : Table CString FilePeer
  deriving DecidableEq, Repr

/-- `new FilePeer(peerSockAddr, file)`. -/
def newFilePeer (peerSockAddr : CString) (file : File) : Except JavaError FilePeer :=
  match splitColon peerSockAddr with
  | [ip, portText] => do
      let port ← parseInt portText
      let bm ← BufferMap.ofFile file.length file.pieceSize file.seeded
      pure ⟨ip, port, bm⟩
  | _ => .error .invalidParameter

namespace PeerFile

def isKey (f : PeerFile) (key2 : CString) : Prop := f.file.key = key2

instance (f : PeerFile) (key2 : CString) : Decidable (f.isKey key2) :=
  inferInstanceAs (Decidable (_ = _))

def addPeer (f : PeerFile) (peer : FilePeer) : PeerFile :=
  { f with peers := f.peers.insertNew peer.toString peer }

end PeerFile

/-! ## Replies -/

def receiveDeclare : TrackerM σ Unit := do
  let _ ← receiveAndGetMatcher .ok
  pure ()

/-- A peer that is not of the form `addr:port` is answered with `error` and left out. -/
def parseGetfilePeers : List CString → TrackerM PeerFile Unit
  | [] => pure ()
  | peer :: peers => do
      let f ← Proc.getState
      match newFilePeer peer f.file with
      | .ok fp => Proc.setState (f.addPeer fp)
      | .error .invalidParameter => sendError
      | .error e => throw e
      parseGetfilePeers peers

def receiveGetfile : TrackerM PeerFile Unit := do
  let groups ← receiveAndGetMatcher .getfile
  let f ← Proc.getState
  if ¬ f.isKey (group groups 0) then throw .wrongKey
  if PatternMatcher.empty.Matches (group groups 1) then throw .noPeer
  parseGetfilePeers (splitBlanks (group groups 1))

/-- What is passed to `FileManager.addFile`. -/
structure LookEntry where
  name : CString
  length : Int
  pieceSize : Int
  key : CString
  deriving DecidableEq, Repr

section Look

variable (addFile : σ → LookEntry → Except JavaError φ × σ)

/-- One call of `FileManager.addFile`. -/
def callAddFile (e : LookEntry) : TrackerM σ φ := do
  let s ← Proc.getState
  Proc.setState (addFile s e).2
  Proc.ofExcept (addFile s e).1

def parseLookFiles : List CString → TrackerM σ (List φ)
  | name :: length :: pieceSize :: key :: filesStr => do
      let length ← Proc.ofExcept (parseInt length)
      let pieceSize ← Proc.ofExcept (parseInt pieceSize)
      let file ← callAddFile addFile ⟨name, length, pieceSize, key⟩
      let files ← parseLookFiles filesStr
      pure (file :: files)
  | _ => pure []

def receiveLook : TrackerM σ (List φ) := do
  let groups ← receiveAndGetMatcher .look
  if PatternMatcher.empty.Matches (group groups 0) then throw .noFile
  let filesStr := splitBlanks (group groups 0)
  if filesStr.length % 4 ≠ 0 then throw .invalidResponse
  parseLookFiles addFile filesStr

end Look

/-! ## Calls -/

/-- The subclasses of `RZInvalidResponseException`. -/
def JavaError.isInvalidResponse : JavaError → Bool
  | .invalidResponse | .noMatch | .wrongKey => true
  | _ => false

/-- What `doDeclare` does once the declaration is sent. -/
def afterDeclare : TrackerM σ Unit :=
  tryCatch receiveDeclare fun e => if e.isInvalidResponse then sendError else throw e

/-- What `doGetfile` does once the request is sent. -/
def afterGetfile : TrackerM PeerFile Unit :=
  tryCatch receiveGetfile fun e =>
    if e.isInvalidResponse then sendError
    else if e = .noPeer then pure ()
    else throw e

/-- What `doLook` does once the request is sent. -/
def afterLook (addFile : σ → LookEntry → Except JavaError φ × σ) : TrackerM σ (List φ) :=
  tryCatch (receiveLook addFile) fun e =>
    if e.isInvalidResponse then do
      sendError
      pure []
    else if e = .noFile then pure []
    else throw e

/-- The line `doGetfile` sends. -/
def doGetfile (file : File) : CString := "getfile ".toList ++ file.key ++ ['\n']

end JavaClient
end Raiezau
