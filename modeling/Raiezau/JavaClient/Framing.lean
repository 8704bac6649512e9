import Raiezau.JavaClient.Peer

/-!
# Framing — every message is read exactly as far as it was written

For each message its text, the sending method that writes it, and the receiving method that takes it from
the stream.  `Request` is what a server understands of a message before it answers.
-/

namespace Raiezau
namespace JavaClient

open CUtil Machine Assoc Socket Peer

variable {fm : FileManager} {file : File} {k : CString}

/-! ## Texts -/

def word (w : CString) : CString := w ++ [' ']

def interestedText (key : CString) : CString := word "interested".toList ++ word key

def haveText (key : CString) (bufferMap : List UInt8) : CString :=
  word "have".toList ++ (word key ++ bufferMap.map byteToChar)

def indexText (i : Int) : CString := word (integerToString i)

def getpiecesText (key : CString) (index : List Int) : CString :=
  word "getpieces".toList ++ (word key ++ ('[' :: (index.flatMap indexText ++ word [']'])))

def pieceText (piece : Int × List UInt8) : CString :=
  integerToString piece.1 ++ [':'] ++ piece.2.map byteToChar

def dataText (key : CString) (pieces : List (Int × List UInt8)) : CString :=
  word "data".toList ++ (word key ++ ('[' :: (pieces.flatMap pieceText ++ word [']'])))

/-! ## Words -/

theorem length_decimal_le {n : Nat} (hn : n ≤ 2 ^ 31) : (decimal n).length ≤ 10 :=
  (Nat.length_toDigits_le_iff (by decide) (by decide)).2 (Nat.lt_of_le_of_lt hn (by decide))

theorem length_integerToString_le {i : Int} (hi : IsInt i) : (integerToString i).length ≤ 11 := by
  obtain ⟨hlow, hhigh⟩ := hi
  unfold integerToString
  split
  · rw [List.length_cons]
    exact Nat.succ_le_succ (length_decimal_le (by omega))
  · exact Nat.le_succ_of_le (length_decimal_le (by omega))

/-- Nothing that ends a word stands in a numeral. -/
theorem not_mem_integerToString {i : Int} {c : Char} (hdigit : c.isDigit = false) (hsign : c ≠ '-') :
    c ∉ integerToString i := by
  intro hc
  rcases mem_integerToString hc with hd | rfl
  · rw [hdigit] at hd
    cases hd
  · exact hsign rfl

theorem isWord_integerToString {i : Int} (hi : IsInt i) : IsWord (integerToString i) := by
  have hlen := length_integerToString_le hi
  refine ⟨fun c hc => ⟨?_, ?_⟩, ?_⟩
  · rintro rfl
    exact not_mem_integerToString rfl (by decide) hc
  · rintro rfl
    exact not_mem_integerToString rfl (by decide) hc
  · unfold maxBufferSize
    omega

theorem integerToString_ne_bracket (i : Int) : integerToString i ≠ [']'] := by
  intro h
  have hmem : ']' ∈ integerToString i := h ▸ List.mem_singleton_self _
  exact not_mem_integerToString rfl (by decide) hmem

/-- The indices that a file can have. -/
def IsIndex (i : Int) : Prop := 0 ≤ i ∧ i < 2 ^ 31

theorem IsIndex.isInt {i : Int} (hi : IsIndex i) : IsInt i := ⟨Int.le_trans (by decide) hi.1, hi.2⟩

/-! ## Sending -/

theorem sendInterested_spec :
    Transfers (sendInterested file) fm [] (.ok ()) (interestedText file.key) fm :=
  send_spec _

theorem sendHave_spec : Transfers (sendHave file) fm [] (.ok ())
    (haveText file.key file.bufferMap.toByteArray) fm := by
  have htext : "have ".toList ++ (file.key ++ [' ']) ++ file.bufferMap.toByteArray.map byteToChar =
      haveText file.key file.bufferMap.toByteArray := by
    simp [haveText, word]
  rw [← htext]
  exact (send_spec _).bind (sendByte_spec _)

theorem indexString_eq (index : List Int) : indexString index = index.flatMap indexText := by
  have hloop : ∀ out : CString,
      index.foldl (fun out i => out ++ (integerToString i ++ [' '])) out =
        out ++ index.flatMap indexText := by
    induction index with
    | nil => simp
    | cons i index ih =>
        intro out
        rw [List.foldl_cons, ih, List.flatMap_cons, List.append_assoc]
        rfl
  exact hloop []

theorem sendGetpieces_spec {index : List Int} :
    Transfers (sendGetpieces file index) fm [] (.ok ()) (getpiecesText file.key index) fm := by
  have htext : "getpieces ".toList ++ (file.key ++ (" [".toList ++
      (index.flatMap indexText ++ "] ".toList))) = getpiecesText file.key index := by
    simp [getpiecesText, word]
  unfold sendGetpieces
  rw [indexString_eq, htext]
  exact send_spec _

theorem sendPiece_spec {piece : Int × List UInt8} (hread : file.readPiece piece.1 = .ok piece.2) :
    Transfers (sendPiece file piece.1) fm [] (.ok ()) (pieceText piece) fm := by
  refine (send_spec (integerToString piece.1 ++ [':'])).bind ?_
  rw [hread]
  exact sendByte_spec piece.2

/-- All the pieces asked for can be read: they are sent in the order of the indices. -/
theorem sendData_spec {pieces : List (Int × List UInt8)}
    (hread : ∀ x ∈ pieces, file.readPiece x.1 = .ok x.2) :
    Transfers (sendData file (pieces.map Prod.fst)) fm [] (.ok ()) (dataText file.key pieces) fm := by
  have hpieces : Transfers ((pieces.map Prod.fst).forM (sendPiece file)) fm [] (.ok ())
      (pieces.flatMap pieceText) fm :=
    Transfers.forM fun x hx => sendPiece_spec (hread x hx)
  have htext : "data ".toList ++ (file.key ++ " [".toList) ++
      (pieces.flatMap pieceText ++ "] ".toList) = dataText file.key pieces := by
    simp [dataText, word]
  rw [← htext]
  exact (send_spec _).bind (hpieces.bind (send_spec _))

/-! ## Receiving -/

theorem getFileWithReception_spec (hk : IsWord k) (hfile : fm.lookup k = some file) :
    Transfers getFileWithReception fm (word k) (.ok file) [] fm := by
  refine (receiveWord_spec hk).bind_last (Transfers.getState.bind_last ?_)
  rw [hfile]
  exact Transfers.pure file

theorem receiveBracket_spec : Transfers (receiveByte 1) fm ['['] (.ok [91]) [] fm :=
  receiveByte_spec (show (1 : Int) = ([91] : List UInt8).length from rfl)

theorem receiveIndex_spec {i : Int} {indexList : List Int} (hi : IsInt i) :
    Transfers (receiveIndex indexList) fm (indexText i) (.ok (.inl (indexList ++ [i]))) [] fm := by
  refine (receiveWord_spec (isWord_integerToString hi)).bind_last ?_
  rw [if_neg (integerToString_ne_bracket i)]
  exact (Transfers.ofExcept (parseInt_integerToString hi)).bind_last (Transfers.pure _)

theorem isWord_bracket : IsWord [']'] := by
  unfold IsWord maxBufferSize
  decide

theorem receiveIndex_bracket {indexList : List Int} :
    Transfers (receiveIndex indexList) fm (word [']']) (.ok (.inr indexList)) [] fm := by
  refine (receiveWord_spec isWord_bracket).bind_last ?_
  rw [if_pos rfl]
  exact Transfers.pure _

theorem word_ne_nil (w : CString) : word w ≠ [] := by simp [word]

theorem receiveIndexes_spec {index indexList : List Int} (hindex : ∀ i ∈ index, IsInt i) :
    Transfers (Proc.loop receiveIndex indexList) fm (index.flatMap indexText ++ word [']'])
      (.ok (indexList ++ index)) [] fm := by
  -- An index ends at its blank, and the list at its bracket.
  induction index generalizing indexList with
  | nil =>
      rw [List.append_nil]
      exact Transfers.loop_inr receiveIndex_bracket
  | cons i index ih =>
      rw [List.flatMap_cons, List.append_assoc, List.append_cons indexList i index]
      exact (receiveIndex_spec (hindex i (by simp))).loop_inl (word_ne_nil _)
        (ih fun j hj => hindex j (by simp [hj]))

/-! ## What a server understands -/

inductive Request
  | error
  | have (file : File) (bufferMap : List UInt8)
  | interested (file : File)
  | getpieces (file : File) (index : List Int)
  deriving DecidableEq, Repr

/-- The part of `handleRequest` that reads. -/
def receiveRequest : SocketM Request := do
  let protocolKey ← receiveWord
  if protocolKey = "error".toList then pure .error
  else if protocolKey = "have".toList then do
    let file ← getFileWithReception
    let bufferMap ← receiveByte file.getBufferMapSize
    pure (.have file bufferMap)
  else if protocolKey = "interested".toList then do
    let file ← getFileWithReception
    pure (.interested file)
  else if protocolKey = "getpieces".toList then do
    let file ← getFileWithReception
    let _ ← receiveByte 1
    let index ← Proc.loop receiveIndex []
    pure (.getpieces file index)
  else throw .noMatch

/-- The part of `handleRequest` that answers. -/
def serve : Request → SocketM Unit
  | .error => pure ()
  | .have file _ => do
      let _ ← Proc.ofExcept file.getPieceCount
      sendHave file
  | .interested file => sendHave file
  | .getpieces file index => sendData file index

theorem handleRequest_eq : ServerPeer.handleRequest = receiveRequest >>= serve := by
  unfold ServerPeer.handleRequest receiveRequest
  rw [bind_assoc]
  refine congrArg (receiveWord >>= ·) (funext fun protocolKey => ?_)
  split_ifs with herror hhave hinterested hgetpieces
  · rfl
  · simp only [receiveHave, serve, bind_assoc, pure_bind, if_true]
    simp only [bind_pure_unit]
  · simp only [receiveInterested, serve, bind_assoc, pure_bind]
  · simp only [receiveGetpieces, serve, bind_assoc, pure_bind]
  · rfl

theorem isWord_keyword {w : CString}
    (hw : w ∈ ["have".toList, "interested".toList, "getpieces".toList, "data".toList]) : IsWord w := by
  unfold IsWord maxBufferSize
  revert w
  decide

theorem receiveRequest_interested (hk : IsWord k) (hfile : fm.lookup k = some file) :
    Transfers receiveRequest fm (interestedText k) (.ok (.interested file)) [] fm := by
  refine (receiveWord_spec (w := "interested".toList) (isWord_keyword (by simp))).bind_read ?_
  rw [if_neg (by decide), if_neg (by decide), if_pos rfl]
  exact (getFileWithReception_spec hk hfile).bind_last (Transfers.pure _)

theorem receiveRequest_have {bufferMap : List UInt8} (hk : IsWord k)
    (hfile : fm.lookup k = some file) (hsize : file.getBufferMapSize = bufferMap.length) :
    Transfers receiveRequest fm (haveText k bufferMap) (.ok (.have file bufferMap)) [] fm := by
  refine (receiveWord_spec (w := "have".toList) (isWord_keyword (by simp))).bind_read ?_
  rw [if_neg (by decide), if_pos rfl]
  exact (getFileWithReception_spec hk hfile).bind
    ((receiveByte_spec (congrArg Int.ofNat hsize)).bind_last (Transfers.pure _))

theorem receiveRequest_getpieces {index : List Int} (hk : IsWord k)
    (hfile : fm.lookup k = some file) (hindex : ∀ i ∈ index, IsInt i) :
    Transfers receiveRequest fm (getpiecesText k index) (.ok (.getpieces file index)) [] fm := by
  refine (receiveWord_spec (w := "getpieces".toList) (isWord_keyword (by simp))).bind_read ?_
  rw [if_neg (by decide), if_neg (by decide), if_neg (by decide), if_pos rfl]
  exact (getFileWithReception_spec hk hfile).bind
    (receiveBracket_spec.bind ((receiveIndexes_spec hindex).bind_last (Transfers.pure _)))

/-! ## What a client obtains -/

theorem checkProtocolKey_spec {expected : CString} (hw : IsWord expected) :
    Transfers (FilePeer.checkProtocolKey expected) fm (word expected) (.ok ()) [] fm := by
  refine (receiveWord_spec hw).bind_last ?_
  rw [if_pos rfl]
  exact Transfers.pure _

theorem handleHaveReception_spec {bm : BufferMap} {bufferMap : List UInt8} {n : Int}
    (hk : IsWord k) (hfile : fm.lookup k = some file)
    (hsize : file.getBufferMapSize = bufferMap.length) (hcount : file.getPieceCount = .ok n) :
    Transfers (FilePeer.handleHaveReception bm) fm (haveText k bufferMap)
      (.ok (BufferMap.fromByteArray bufferMap)) [] fm := by
  have hhave : Transfers (receiveHave false) fm (word k ++ bufferMap.map byteToChar)
      (.ok bufferMap) [] fm :=
    (getFileWithReception_spec hk hfile).bind
      ((receiveByte_spec (congrArg Int.ofNat hsize)).bind_last
        ((Transfers.ofExcept hcount).bind_last (Transfers.pure bufferMap)))
  refine Transfers.tryCatch ?_
  exact (checkProtocolKey_spec (isWord_keyword (by simp))).bind (hhave.bind_last (Transfers.pure _))

/-- Write pieces into a file, in order. -/
def File.writePieces (f : File) (pieces : List (Int × List UInt8)) : Except JavaError File :=
  pieces.foldlM (fun f x => f.writePiece x.1 x.2) f

/-- `fm'` is `fm` with another file under `k`. -/
def Replaces (fm : FileManager) (k : CString) (f : File) (fm' : FileManager) : Prop :=
  fm'.lookup k = some f ∧ ∀ j ≠ k, fm'.lookup j = fm.lookup j

theorem replaces_update {f f' : File} (hf : fm.lookup k = some f) :
    Replaces fm k f' (fm.update k fun _ => f') := by
  refine ⟨?_, fun j hj => ?_⟩
  · rw [Table.lookup_update, if_pos rfl, hf]
    rfl
  · rw [Table.lookup_update, if_neg hj]

theorem Replaces.trans {s s' s'' : FileManager} {f f' : File} (h : Replaces s k f s')
    (h' : Replaces s' k f' s'') : Replaces s k f' s'' :=
  ⟨h'.1, fun j hj => (h'.2 j hj).trans (h.2 j hj)⟩

theorem writePiece_transfers {f f' : File} {i : Int} {data : List UInt8}
    (hf : fm.lookup file.key = some f) (hwrite : f.writePiece i data = .ok f') :
    Transfers (Peer.writePiece file i data) fm [] (.ok ()) [] (fm.update file.key fun _ => f') := by
  refine Transfers.getState.bind_last ?_
  rw [hf, ← File.writtenPiece_of_ok hwrite]
  refine Transfers.setState.bind_last (Transfers.ofExcept ?_)
  rw [hwrite]
  rfl

theorem receiveHeader_spec {i : Int} (hi : IsInt i) : Transfers (receiveUntil [':', ' ', '\n']) fm
    (integerToString i ++ [':']) (.ok (integerToString i)) [] fm := by
  refine receiveUntil_spec (by simp) (fun c hc hmem => ?_) (isWord_integerToString hi).2
  simp only [List.mem_cons, List.not_mem_nil, or_false] at hmem
  rcases hmem with rfl | rfl | rfl <;> exact not_mem_integerToString rfl (by decide) hc

theorem receivePiece_spec {f f' : File} {piece : Int × List UInt8}
    (hf : fm.lookup file.key = some f) (hwrite : f.writePiece piece.1 piece.2 = .ok f')
    (hi : IsInt piece.1) (hsize : file.pieceSize = piece.2.length) :
    Transfers (receivePiece file ()) fm (pieceText piece) (.ok (.inl ())) []
      (fm.update file.key fun _ => f') := by
  obtain ⟨i, data⟩ := piece
  refine (receiveHeader_spec hi).bind_read ?_
  rw [if_neg (integerToString_ne_bracket i)]
  exact (Transfers.ofExcept (parseInt_integerToString hi)).bind
    ((receiveByte_spec hsize).bind_last ((writePiece_transfers hf hwrite).bind_last (Transfers.pure _)))

theorem receivePiece_bracket :
    Transfers (receivePiece file ()) fm (word [']']) (.ok (.inr ())) [] fm := by
  refine (receiveUntil_spec (c := ' ') (by simp) (by decide) (by decide)).bind_last ?_
  rw [if_pos rfl]
  exact Transfers.pure _

/-- The pieces of a reply are written in the order they come. -/
theorem receivePieces_spec {f f' : File} {pieces : List (Int × List UInt8)}
    (hf : fm.lookup file.key = some f) (hwrite : f.writePieces pieces = .ok f')
    (hindex : ∀ x ∈ pieces, IsInt x.1) (hsize : ∀ x ∈ pieces, file.pieceSize = x.2.length) :
    ∃ fm', Replaces fm file.key f' fm' ∧ Transfers (Proc.loop (receivePiece file) ()) fm
      (pieces.flatMap pieceText ++ word [']']) (.ok ()) [] fm' := by
  -- Each pass reads the number up to its colon, and then as many bytes as a piece has.
  induction pieces generalizing f fm with
  | nil =>
      obtain rfl := Except.ok.inj hwrite
      exact ⟨fm, ⟨hf, fun _ _ => rfl⟩, Transfers.loop_inr receivePiece_bracket⟩
  | cons x pieces ih =>
      rw [File.writePieces, List.foldlM_cons] at hwrite
      cases hx : f.writePiece x.1 x.2 with
      | error e =>
          rw [hx] at hwrite
          cases hwrite
      | ok f₁ =>
          rw [hx] at hwrite
          have hstep : Replaces fm file.key f₁ (fm.update file.key fun _ => f₁) := replaces_update hf
          have hpass := receivePiece_spec hf hx (hindex x (by simp)) (hsize x (by simp))
          obtain ⟨fm', hreplaces, hrest⟩ := ih hstep.1 hwrite (fun y hy => hindex y (by simp [hy]))
            fun y hy => hsize y (by simp [hy])
          refine ⟨fm', hstep.trans hreplaces, ?_⟩
          rw [List.flatMap_cons, List.append_assoc]
          refine hpass.loop_inl ?_ hrest
          simp [pieceText]

theorem handleDataReception_spec {f' : File} {pieces : List (Int × List UInt8)} (hk : IsWord k)
    (hfile : fm.lookup k = some file) (hkey : file.key = k) (hwrite : file.writePieces pieces = .ok f')
    (hindex : ∀ x ∈ pieces, IsInt x.1) (hsize : ∀ x ∈ pieces, file.pieceSize = x.2.length) :
    ∃ fm', Replaces fm k f' fm' ∧ Transfers FilePeer.handleDataReception fm (dataText k pieces)
      (.ok ()) [] fm' := by
  subst hkey
  obtain ⟨fm', hreplaces, hpieces⟩ := receivePieces_spec hfile hwrite hindex hsize
  refine ⟨fm', hreplaces, Transfers.tryCatch ?_⟩
  exact (checkProtocolKey_spec (isWord_keyword (by simp))).bind
    ((getFileWithReception_spec hk hfile).bind (receiveBracket_spec.bind hpieces))

end JavaClient
end Raiezau
