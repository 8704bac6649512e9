import Raiezau.JavaClient.Socket

/-!
# Peer — the messages two clients exchange

`Peer` with its two sides: `FilePeer`, which asks, and `ServerPeer`, which answers.  A message mixes words
ended by a blank with bytes whose number both sides compute for themselves.
-/

namespace Raiezau
namespace JavaClient

open CUtil Machine Assoc Socket

/-! ## Sending -/

namespace Peer

def sendInterested (file : File) : SocketM Unit := send ("interested ".toList ++ (file.key ++ [' ']))

def sendHave (file : File) : SocketM Unit := do
  send ("have ".toList ++ (file.key ++ [' ']))
  sendByte file.bufferMap.toByteArray

def indexString (index : List Int) : CString :=
  index.foldl (fun out i => out ++ (integerToString i ++ [' '])) []

def sendGetpieces (file : File) (index : List Int) : SocketM Unit :=
  send ("getpieces ".toList ++ (file.key ++ (" [".toList ++ (indexString index ++ "] ".toList))))

/-- One pass of the loop in `sendData`. -/
def sendPiece (file : File) (i : Int) : SocketM Unit := do
  send (integerToString i ++ [':'])
  match file.readPiece i with
  | .ok data => sendByte data
  | .error .noPart => sendError
  | .error e => throw e

def sendData (file : File) (index : List Int) : SocketM Unit := do
  send ("data ".toList ++ (file.key ++ " [".toList))
  index.forM (sendPiece file)
  send "] ".toList

/-! ## Reception -/

def getFileWithReception : SocketM File := do
  let hash ← receiveHash
  match (← Proc.getState).lookup hash with
  | some file => pure file
  | none => do
      sendError
      throw .noFile

def receiveError : SocketM Unit := pure ()

/-- `callBack` is what `sendCallBack()` returns: true on the side of the server. -/
def receiveHave (callBack : Bool) : SocketM (List UInt8) := do
  let file ← getFileWithReception
  let bufferMap ← receiveByte file.getBufferMapSize
  let _ ← Proc.ofExcept file.getPieceCount
  if callBack then sendHave file
  pure bufferMap

def receiveInterested : SocketM Unit := do
  let file ← getFileWithReception
  sendHave file

/-- One pass of the loop in `receiveGetpieces`. -/
def receiveIndex (indexList : List Int) : SocketM (List Int ⊕ List Int) := do
  let str ← receiveWord
  if str = [']'] then pure (.inr indexList)
  else do
    let i ← Proc.ofExcept (parseInt str)
    pure (.inl (indexList ++ [i]))

def receiveGetpieces : SocketM Unit := do
  let file ← getFileWithReception
  let _ ← receiveByte 1
  let index ← Proc.loop receiveIndex []
  sendData file index

/-- `file.writePiece(index, piece)`, on the file registered under its key.  What it has written stays when it
throws. -/
def writePiece (file : File) (index : Int) (piece : List UInt8) : SocketM Unit := do
  let files ← Proc.getState
  match files.lookup file.key with
  | some f => do
      Proc.setState (files.update file.key fun _ => f.writtenPiece index piece)
      Proc.ofExcept ((f.writePiece index piece).map fun _ => ())
  | none => pure ()

/-- One pass of the loop in `receiveData`. -/
def receivePiece (file : File) (_ : Unit) : SocketM (Unit ⊕ Unit) := do
  let str ← receiveUntil [':', ' ', '\n']
  if str = [']'] then pure (.inr ())
  else do
    let index ← Proc.ofExcept (parseInt str)
    let piece ← receiveByte file.pieceSize
    writePiece file index piece
    pure (.inl ())

def receiveData : SocketM Unit := do
  let file ← getFileWithReception
  let _ ← receiveByte 1
  Proc.loop (receivePiece file) ()

end Peer

open Peer

/-! ## The two sides -/

namespace FilePeer

def checkProtocolKey (expected : CString) : SocketM Unit := do
  let protocolKey ← receiveWord
  if protocolKey = expected then pure () else throw .invalidResponse

/-- The peer's map is returned: the one received, or the old one when the reply is of no use. -/
def handleHaveReception (bm : BufferMap) : SocketM BufferMap :=
  tryCatch
    (do
      checkProtocolKey "have".toList
      let bufferMap ← receiveHave false
      pure (BufferMap.fromByteArray bufferMap))
    fun
      | .invalidResponse => do
          sendError
          pure bm
      | .noFile => pure bm
      | e => throw e

def handleDataReception : SocketM Unit :=
  tryCatch
    (do
      checkProtocolKey "data".toList
      receiveData)
    fun
      | .invalidResponse => sendError
      | .noFile => pure ()
      | e => throw e

def doInterested (bm : BufferMap) (file : File) : SocketM BufferMap := do
  sendInterested file
  handleHaveReception bm

def doHave (bm : BufferMap) (file : File) : SocketM BufferMap := do
  sendHave file
  handleHaveReception bm

def doGetpieces (file : File) (index : List Int) : SocketM Unit := do
  sendGetpieces file index
  handleDataReception

end FilePeer

namespace ServerPeer

/-- The methods of `protocol`, found by their name without `receive`. -/
def handleRequest : SocketM Unit := do
  let protocolKey ← receiveWord
  if protocolKey = "error".toList then receiveError
  else if protocolKey = "have".toList then do
    let _ ← receiveHave true
    pure ()
  else if protocolKey = "interested".toList then receiveInterested
  else if protocolKey = "getpieces".toList then receiveGetpieces
  else throw .noMatch

end ServerPeer

end JavaClient
end Raiezau
