import Raiezau.Assoc.Table
import Raiezau.JavaClient.File
import Raiezau.Machine.Proc

/-!
# Socket — the text and byte streams between two clients

A connection carries characters: bytes are sent as characters too, sign-extended, and cut to their low
eight bits on arrival.  Every read returns as many characters as it asks for.
-/

namespace Raiezau
namespace JavaClient

open CUtil Machine Assoc

/-- `FileManager.filesByKey`. -/
abbrev FileManager := Table CString File

abbrev SocketM (α : Type) := Proc FileManager Char JavaError α

/-! ## Model -/

namespace Socket

/-- `(char) t[i]`. -/
def byteToChar (b : UInt8) : Char :=
  if b < 128 then Char.ofNat b.toNat else Char.ofNat (0xFF00 + b.toNat)

/-- `(byte) t[i]`. -/
def charToByte (c : Char) : UInt8 := UInt8.ofNat c.toNat

def sendByte (bytes : List UInt8) : SocketM Unit := Proc.write (bytes.map byteToChar)

def send (text : CString) : SocketM Unit := Proc.write text

def sendError : SocketM Unit := send "error\n".toList

def receiveByte (length : Int) : SocketM (List UInt8) :=
  if length < 0 then throw .negativeArraySize
  else do
    let t ← Proc.readMany length.toNat
    pure (t.map charToByte)

def maxBufferSize : Nat := 256

/-- The character that stops the loop is taken from the stream; the limit stops it without one. -/
def receiveUntilLoop (t : List Char) : Nat → CString → SocketM CString
  | 0, sb => pure sb
  | i + 1, sb => do
      let tmp ← Proc.read
      if t.contains tmp then pure sb else receiveUntilLoop t i (sb ++ [tmp])

def receiveUntil (t : List Char) : SocketM CString := receiveUntilLoop t maxBufferSize []

def receiveWord : SocketM CString := receiveUntil [' ', '\n']

def receiveHash : SocketM CString := receiveWord

/-! ## What is sent is received -/

theorem charToByte_byteToChar (b : UInt8) : charToByte (byteToChar b) = b := by
  have hall : ∀ n : Fin 256, charToByte (byteToChar (UInt8.ofNat n)) = UInt8.ofNat n := by
    decide +kernel
  have hb := hall ⟨b.toNat, b.toNat_lt⟩
  rwa [UInt8.ofNat_toNat] at hb

variable {fm : FileManager}

theorem send_spec (text : CString) : Transfers (send text) fm [] (.ok ()) text fm := Transfers.write

theorem sendByte_spec (bytes : List UInt8) :
    Transfers (sendByte bytes) fm [] (.ok ()) (bytes.map byteToChar) fm :=
  Transfers.write

/-- Bytes are read by their number, whatever they are. -/
theorem receiveByte_spec {bytes : List UInt8} {length : Int} (hlen : length = bytes.length) :
    Transfers (receiveByte length) fm (bytes.map byteToChar) (.ok bytes) [] fm := by
  subst hlen
  have hback : (bytes.map byteToChar).map charToByte = bytes := by
    rw [List.map_map]
    exact (List.map_congr_left fun b _ => charToByte_byteToChar b).trans bytes.map_id
  unfold receiveByte
  rw [if_neg (by omega)]
  refine (Transfers.readMany (List.length_map _)).bind_last ?_
  rw [hback]
  exact Transfers.pure bytes

theorem receiveUntilLoop_spec {t : List Char} {w sb : CString} {c : Char} {i : Nat} (hc : c ∈ t)
    (hw : ∀ d ∈ w, d ∉ t) (hi : w.length < i) :
    Transfers (receiveUntilLoop t i sb) fm (w ++ [c]) (.ok (sb ++ w)) [] fm := by
  induction w generalizing sb i with
  | nil =>
      obtain ⟨i, rfl⟩ : ∃ k, i = k + 1 := ⟨i - 1, by simp at hi; omega⟩
      have hstop : t.contains c = true := List.contains_iff_mem.2 hc
      refine (Transfers.read c).bind_last ?_
      rw [if_pos hstop, List.append_nil]
      exact Transfers.pure sb
  | cons d w ih =>
      obtain ⟨i, rfl⟩ : ∃ k, i = k + 1 := ⟨i - 1, by simp at hi; omega⟩
      have hgo : ¬ t.contains d = true := fun h => hw d (by simp) (List.contains_iff_mem.1 h)
      refine (Transfers.read d).bind_read ?_
      rw [if_neg hgo, List.append_cons sb d w]
      exact ih (fun e he => hw e (by simp [he])) (by simp at hi; omega)

/-- A word without the stopping characters, and shorter than the limit, is received as it was sent. -/
theorem receiveUntil_spec {t : List Char} {w : CString} {c : Char} (hc : c ∈ t)
    (hw : ∀ d ∈ w, d ∉ t) (hlen : w.length < maxBufferSize) :
    Transfers (receiveUntil t) fm (w ++ [c]) (.ok w) [] fm :=
  receiveUntilLoop_spec hc hw hlen

/-- The words of the session. -/
def IsWord (w : CString) : Prop := (∀ c ∈ w, c ≠ ' ' ∧ c ≠ '\n') ∧ w.length < maxBufferSize

theorem receiveWord_spec {w : CString} (hw : IsWord w) :
    Transfers receiveWord fm (w ++ [' ']) (.ok w) [] fm := by
  refine receiveUntil_spec (by simp) (fun c hc => ?_) hw.2
  have hne := hw.1 c hc
  simp [hne.1, hne.2]

end Socket

end JavaClient
end Raiezau
