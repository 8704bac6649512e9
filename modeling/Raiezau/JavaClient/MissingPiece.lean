import Raiezau.JavaClient.DataReply
import Raiezau.JavaClient.Session

/-!
# MissingPiece — a call for pieces that the server does not have

`sendData` sends the head of a piece before it looks the piece up, and for a piece that is missing an error follows
where the bytes of the piece belong.  The client knows nothing of that: it takes as many characters as a piece has.
-/

namespace Raiezau
namespace JavaClient

open CUtil Machine Assoc Bytes Socket Peer

variable {fm : FileManager} {file file' f f' : File} {k text : CString} {i p : Int} {index : List Int}
  {good pieces : List (Int × List UInt8)} {rest out : List Char} {s s' : Session}

/-! ## An aligned call -/

/-- What is on the stream of the client when it starts to read the reply. -/
def Call.reply (c : Call) (s : Session) : Option CString := do
  let file ← s.client.lookup c.key
  let (_, s₁) ← s.onClient (c.send file)
  let (_, s₂) ← s₁.onServer ServerPeer.handleRequest
  some s₂.toClient

/-- The call returns.  What it wrote is pieces that the server has, each under its own index; nothing is left on the
streams, and the next call is delivered. -/
structure Aligned (s : Session) (k : CString) (index : List Int) (file file' : File) (s' : Session) : Prop where
  returns : exchange (.getpieces k index) s = some s'
  writes : ∃ text pieces, (Call.getpieces k index).reply s = some text ∧
    broughtPieces s.client text = some (file, pieces) ∧
    (∀ x ∈ pieces, HasPiece file' x.1 ∧ file'.readPiece x.1 = .ok x.2) ∧
    Replaces s.client k (file.writtenPieces pieces) s'.client
  idle : s'.Idle
  next : ∀ c : Call, c.Admissible s'.client s'.server → ∃ s'', Delivered s' c s''

/-! ## Reading off a stream -/

/-- A word that the client receives is what stands on the stream. -/
theorem untilText_of_transfers {t : List Char} {w xs : CString}
    (h : Transfers (receiveUntil t) ([] : FileManager) xs (.ok w) [] []) (rest : List Char) :
    untilText t maxBufferSize (xs ++ rest) = some (w, rest) := by
  have hrun := h rest []
  rw [receiveUntil_run] at hrun
  obtain ⟨⟨w', rest'⟩, htext, heq⟩ := Option.map_eq_some_iff.1 hrun
  obtain ⟨hword, hport⟩ := Prod.mk.inj heq
  obtain rfl : w' = w := Except.ok.inj hword
  obtain rfl : rest' = rest := congrArg Port.input hport
  exact htext

theorem wordText_word {w : CString} (hw : IsWord w) (rest : List Char) : wordText (word w ++ rest) = some (w, rest) :=
  untilText_of_transfers (receiveWord_spec hw) rest

/-- A `data` message up to its pieces. -/
def dataHead (k : CString) (rest : List Char) : CString := word "data".toList ++ (word k ++ ('[' :: rest))

theorem dataHeader_dataHead (hk : IsWord k) (hfile : fm.lookup k = some file) (rest : List Char) :
    dataHeader fm (dataHead k rest) = some (file, rest) := by
  have hdata := wordText_word (isWord_keyword (w := "data".toList) (by simp)) (word k ++ ('[' :: rest))
  have hkey := wordText_word hk ('[' :: rest)
  rw [dataHeader, dataHead, hdata, Option.bind_eq_bind, Option.bind_some, if_pos rfl]
  simp only [hkey, hfile, Option.bind_eq_bind, Option.bind_some]
  exact if_pos (Nat.succ_le_succ (Nat.zero_le _))

/-- Behind the head of a piece, as many characters as a piece has are its bytes. -/
theorem nextPiece_header (hi : IsInt i) (p : Int) (rest : List Char) :
    nextPiece p (integerToString i ++ ':' :: rest) = if 0 ≤ p ∧ p.toNat ≤ rest.length then
      some ((i, (rest.take p.toNat).map charToByte), rest.drop p.toNat) else none := by
  have hhead := untilText_of_transfers (receiveHeader_spec hi) rest
  rw [List.append_assoc, List.singleton_append] at hhead
  rw [nextPiece, hhead]
  simp only [Option.bind_eq_bind, Option.bind_some, if_neg (integerToString_ne_bracket i),
    parseInt_integerToString hi, Except.toOption]

theorem nextPiece_piece {x : Int × List UInt8} (hi : IsInt x.1) (hsize : p = x.2.length) (rest : List Char) :
    nextPiece p (pieceText x ++ rest) = some (x, rest) := by
  have hback : (x.2.map byteToChar).map charToByte = x.2 := by
    rw [List.map_map]
    exact (List.map_congr_left fun b _ => charToByte_byteToChar b).trans x.2.map_id
  have hlen : p.toNat = (x.2.map byteToChar).length := by
    rw [List.length_map]
    omega
  have htext : pieceText x ++ rest = integerToString x.1 ++ ':' :: (x.2.map byteToChar ++ rest) := by
    simp [pieceText]
  rw [htext, nextPiece_header hi, hlen, List.take_left, List.drop_left, hback]
  refine if_pos ⟨by omega, ?_⟩
  rw [List.length_append]
  exact Nat.le_add_right _ _

theorem nextPiece_bracket (p : Int) (rest : List Char) : nextPiece p (word [']'] ++ rest) = none := by
  have hend : untilText [':', ' ', '\n'] maxBufferSize (word [']'] ++ rest) = some ([']'], rest) :=
    untilText_of_transfers (receiveUntil_spec (by simp) (by decide) (by decide)) rest
  rw [nextPiece, hend]
  rfl

/-! ## The pieces that are there -/

theorem takenPieces_piece {x : Int × List UInt8} (hi : IsInt x.1) (hsize : p = x.2.length)
    (hwrite : f.writePiece x.1 x.2 = .ok f') (n : Nat) (rest : List Char) :
    takenPieces p (n + 1) f (pieceText x ++ rest) = x :: takenPieces p n f' rest :=
  takenPieces_of_ok (nextPiece_piece hi hsize rest) hwrite

theorem takenPieces_pieces {n : Nat} (hints : ∀ x ∈ pieces, IsInt x.1) (hsize : ∀ x ∈ pieces, p = x.2.length)
    (hwrite : f.writePieces pieces = .ok f') (hn : pieces.length < n) :
    takenPieces p n f (pieces.flatMap pieceText ++ word [']']) = pieces := by
  -- The loop takes one piece at each pass, and a last pass for the bracket.
  induction pieces generalizing n f with
  | nil =>
      obtain ⟨n, rfl⟩ := Nat.exists_eq_succ_of_ne_zero (Nat.ne_of_gt hn)
      have hnone := nextPiece_bracket p []
      rw [List.append_nil] at hnone
      exact takenPieces_of_none hnone
  | cons x pieces ih =>
      obtain ⟨n, rfl⟩ := Nat.exists_eq_succ_of_ne_zero (Nat.ne_of_gt (Nat.zero_lt_of_lt hn))
      rw [File.writePieces, List.foldlM_cons] at hwrite
      cases hx : f.writePiece x.1 x.2 with
      | error e =>
          rw [hx] at hwrite
          cases hwrite
      | ok f₁ =>
          rw [hx] at hwrite
          have hrest := ih (fun y hy => hints y (List.mem_cons_of_mem x hy))
            (fun y hy => hsize y (List.mem_cons_of_mem x hy)) hwrite (Nat.lt_of_succ_lt_succ hn)
          rw [List.flatMap_cons, List.append_assoc,
            takenPieces_piece (hints x List.mem_cons_self) (hsize x List.mem_cons_self) hx, hrest]

theorem broughtPieces_dataText (hk : IsWord k) (hfile : fm.lookup k = some file) (hints : ∀ x ∈ pieces, IsInt x.1)
    (hsize : ∀ x ∈ pieces, file.pieceSize = x.2.length) (hwrite : file.writePieces pieces = .ok f') :
    broughtPieces fm (dataText k pieces) = some (file, pieces) := by
  have hlen : ∀ pieces : List (Int × List UInt8), pieces.length ≤ (pieces.flatMap pieceText).length := by
    intro pieces
    induction pieces with
    | nil => exact Nat.le_refl 0
    | cons x pieces ih =>
        rw [List.flatMap_cons, List.length_append, List.length_cons, Nat.add_comm]
        exact Nat.add_le_add (by simp [pieceText]; omega) ih
  rw [broughtPieces, show dataText k pieces = dataHead k _ from rfl, dataHeader_dataHead hk hfile, Option.map_some,
    takenPieces_pieces hints hsize hwrite]
  rw [List.length_append]
  exact Nat.lt_succ_of_le (Nat.le_add_right_of_le (hlen pieces))

theorem File.writtenPieces_of_ok (h : f.writePieces pieces = .ok f') : f.writtenPieces pieces = f' := by
  induction pieces generalizing f with
  | nil => exact Except.ok.inj h
  | cons x pieces ih =>
      rw [File.writePieces, List.foldlM_cons] at h
      cases hx : f.writePiece x.1 x.2 with
      | error e =>
          rw [hx] at h
          cases h
      | ok f₁ =>
          rw [hx] at h
          rw [File.writtenPieces, List.foldl_cons, File.writtenPiece_of_ok hx]
          exact ih h

/-! ## A piece that is missing -/

/-- What a server sends behind the head of a piece. -/
def sendBody (file : File) (i : Int) : SocketM Unit :=
  match file.readPiece i with
  | .ok data => sendByte data
  | .error .noPart => sendError
  | .error e => throw e

theorem sendPiece_eq (file : File) (i : Int) :
    sendPiece file i = send (integerToString i ++ [':']) >>= fun _ => sendBody file i := rfl

theorem emits_sendBody (file : File) (i : Int) : Emits (sendBody file i) fm := by
  unfold sendBody
  split
  · exact Emits.write
  · exact Emits.write
  · exact Emits.throw _

theorem emits_sendPiece (file : File) (i : Int) : Emits (sendPiece file i) fm :=
  Emits.bind Emits.write fun _ => emits_sendBody file i

/-- The pieces before the one that is missing are sent as they should be, and then its head. -/
theorem sendData_missing (hread : ∀ x ∈ good, file.readPiece x.1 = .ok x.2) (i : Int) (others : List Int) :
    ∃ r body, sendData file (good.map Prod.fst ++ i :: others) ⟨fm, [], []⟩ =
      some (r, ⟨fm, [], dataHead file.key (good.flatMap pieceText ++ (integerToString i ++ ':' :: body))⟩) := by
  have hgood : Transfers ((good.map Prod.fst).forM (sendPiece file)) fm [] (.ok ()) (good.flatMap pieceText) fm :=
    Transfers.forM fun x hx => sendPiece_spec (hread x hx)
  have hhead : Transfers (send ("data ".toList ++ (file.key ++ " [".toList)) >>= fun _ =>
      (good.map Prod.fst).forM (sendPiece file) >>= fun _ => send (integerToString i ++ [':'])) fm [] (.ok ())
      ("data ".toList ++ (file.key ++ " [".toList) ++ (good.flatMap pieceText ++ (integerToString i ++ [':']))) fm :=
    (send_spec _).bind (hgood.bind (send_spec _))
  have hall : (good.map Prod.fst ++ i :: others).forM (sendPiece file) =
      (good.map Prod.fst).forM (sendPiece file) >>= fun _ => sendPiece file i >>= fun _ =>
        others.forM (sendPiece file) :=
    List.forM_append
  have hsplit : sendData file (good.map Prod.fst ++ i :: others) =
      (send ("data ".toList ++ (file.key ++ " [".toList)) >>= fun _ =>
        (good.map Prod.fst).forM (sendPiece file) >>= fun _ => send (integerToString i ++ [':'])) >>= fun _ =>
      sendBody file i >>= fun _ => others.forM (sendPiece file) >>= fun _ => send "] ".toList := by
    rw [sendData, hall, sendPiece_eq]
    simp only [bind_assoc]
  have hrest : Emits (sendBody file i >>= fun _ => others.forM (sendPiece file) >>= fun _ => send "] ".toList) fm :=
    (emits_sendBody file i).bind fun _ => (Emits.forM (emits_sendPiece file) others).bind fun _ => Emits.write
  obtain ⟨r, body, hrun⟩ := hhead.emits (f := fun _ => _) hrest
  refine ⟨r, body, ?_⟩
  rw [hsplit, hrun]
  simp [dataHead, word]

/-- The client takes for the missing piece whatever follows its head, if that is long enough. -/
theorem receivePiece_header {r : Except JavaError (Unit ⊕ Unit)} {s₁ : FileManager} {p' : Port FileManager Char}
    (hi : IsInt i) (h : receivePiece file () ⟨s₁, integerToString i ++ ':' :: rest, out⟩ = some (r, p')) :
    (∃ data more, nextPiece file.pieceSize (integerToString i ++ ':' :: rest) = some ((i, data), more)) ∨
      r = .error .negativeArraySize := by
  have hhead : receiveUntil [':', ' ', '\n'] ⟨s₁, integerToString i ++ [':'] ++ rest, out⟩ =
      some (.ok (integerToString i), ⟨s₁, rest, out ++ []⟩) := receiveHeader_spec hi rest out
  rw [List.append_assoc, List.singleton_append, List.append_nil] at hhead
  unfold receivePiece at h
  rw [Proc.bind_run_ok hhead, if_neg (integerToString_ne_bracket i)] at h
  have hparse : (Proc.ofExcept (parseInt (integerToString i)) : SocketM Int) ⟨s₁, rest, out⟩ =
      some (.ok i, ⟨s₁, rest, out⟩) := by
    rw [parseInt_integerToString hi]
    rfl
  rw [Proc.bind_run_ok hparse] at h
  rcases Proc.bind_run_inv h with ⟨e, hbytes, rfl⟩ | ⟨data, p₁, hbytes, -⟩
  · rcases receiveByte_run_inv hbytes with ⟨-, herror, -⟩ | ⟨-, hok, -⟩
    · exact .inr (congrArg Except.error (Except.error.inj herror))
    · cases hok
  · rcases receiveByte_run_inv hbytes with ⟨-, herror, -⟩ | ⟨hlen, -, -⟩
    · cases herror
    · exact .inl ⟨_, _, (nextPiece_header hi _ _).trans (if_pos hlen)⟩

theorem receivePieces_missing {n : Nat} {r : Except JavaError Unit} {s₁ : FileManager} {p' : Port FileManager Char}
    (hf : s₁.lookup file.key = some f) (hints : ∀ x ∈ good, IsInt x.1)
    (hsize : ∀ x ∈ good, file.pieceSize = x.2.length) (hwrite : f.writePieces good = .ok f') (hi : IsInt i)
    (h : Proc.iterate (receivePiece file) n ()
      ⟨s₁, good.flatMap pieceText ++ (integerToString i ++ ':' :: rest), out⟩ = some (r, p')) :
    (∃ data, (i, data) ∈ takenPieces file.pieceSize n f
        (good.flatMap pieceText ++ (integerToString i ++ ':' :: rest))) ∨ r = .error .negativeArraySize := by
  -- The pieces before the missing one are read as they were sent.
  induction good generalizing n f s₁ with
  | nil =>
      cases n with
      | zero => cases h
      | succ n =>
          rw [Proc.iterate] at h
          have hpass : ∃ r₁ p₁, receivePiece file () ⟨s₁, integerToString i ++ ':' :: rest, out⟩ = some (r₁, p₁) ∧
              (r₁ = .error .negativeArraySize → r = .error .negativeArraySize) := by
            rcases Proc.bind_run_inv h with ⟨e, hpass, rfl⟩ | ⟨next, p₁, hpass, -⟩
            · exact ⟨_, _, hpass, fun heq => congrArg Except.error (Except.error.inj heq)⟩
            · exact ⟨_, _, hpass, fun heq => by cases heq⟩
          obtain ⟨r₁, p₁, hpass, hthrown⟩ := hpass
          rcases receivePiece_header hi hpass with ⟨data, more, hnext⟩ | hneg
          · refine .inl ⟨data, ?_⟩
            rw [List.flatMap_nil, List.nil_append, takenPieces, hnext]
            exact List.mem_cons_self
          · exact .inr (hthrown hneg)
  | cons x good ih =>
      cases n with
      | zero => cases h
      | succ n =>
          rw [File.writePieces, List.foldlM_cons] at hwrite
          cases hx : f.writePiece x.1 x.2 with
          | error e =>
              rw [hx] at hwrite
              cases hwrite
          | ok f₁ =>
              rw [hx] at hwrite
              have hpass := receivePiece_spec hf hx (hints x List.mem_cons_self) (hsize x List.mem_cons_self)
                (good.flatMap pieceText ++ (integerToString i ++ ':' :: rest)) out
              rw [List.append_nil] at hpass
              rw [List.flatMap_cons, List.append_assoc] at h ⊢
              rw [Proc.iterate, Proc.bind_run_ok hpass] at h
              have hlater := ih (replaces_update hf).1 (fun y hy => hints y (List.mem_cons_of_mem x hy))
                (fun y hy => hsize y (List.mem_cons_of_mem x hy)) hwrite h
              rw [takenPieces_piece (hints x List.mem_cons_self) (hsize x List.mem_cons_self) hx]
              rcases hlater with ⟨data, hmem⟩ | hneg
              · exact .inl ⟨data, List.mem_cons_of_mem x hmem⟩
              · exact .inr hneg

/-- Of a list whose elements do not all have a property, there is a first one without it. -/
theorem forall_or_first {α : Type} (l : List α) (P : α → Prop) : (∀ a ∈ l, P a) ∨
    ∃ front a rest, l = front ++ a :: rest ∧ (∀ b ∈ front, P b) ∧ ¬ P a := by
  induction l with
  | nil => exact .inl fun a ha => absurd ha List.not_mem_nil
  | cons a l ih =>
      by_cases ha : P a
      · rcases ih with hall | ⟨front, b, rest, rfl, hfront, hb⟩
        · exact .inl (List.forall_mem_cons.2 ⟨ha, hall⟩)
        · exact .inr ⟨a :: front, b, rest, rfl, List.forall_mem_cons.2 ⟨ha, hfront⟩, hb⟩
      · exact .inr ⟨[], a, l, rfl, fun b hb => absurd hb List.not_mem_nil, ha⟩

/-! ## One call -/

theorem receiveData_dataHead (hk : IsWord k) (hfile : fm.lookup k = some file) (rest : List Char) :
    (FilePeer.checkProtocolKey "data".toList >>= fun _ => receiveData) ⟨fm, dataHead k rest, []⟩ =
      Proc.iterate (receivePiece file) (rest.length + 1) () ⟨fm, rest, []⟩ := by
  have hdata : FilePeer.checkProtocolKey "data".toList ⟨fm, dataHead k rest, []⟩ =
      some (.ok (), ⟨fm, word k ++ ('[' :: rest), []⟩) :=
    checkProtocolKey_spec (isWord_keyword (by simp)) (word k ++ ('[' :: rest)) []
  have hhash : getFileWithReception ⟨fm, word k ++ ('[' :: rest), []⟩ = some (.ok file, ⟨fm, '[' :: rest, []⟩) :=
    getFileWithReception_spec hk hfile ('[' :: rest) []
  have hbracket : receiveByte 1 (⟨fm, '[' :: rest, []⟩ : Port FileManager Char) = some (.ok [91], ⟨fm, rest, []⟩) :=
    receiveBracket_spec rest []
  rw [Proc.bind_run_ok hdata, receiveData, Proc.bind_run_ok hhash, Proc.bind_run_ok hbracket]
  rfl

section Call

variable (hs : s.Idle) (hk : IsKey k) (h : Shares s.client s.server k file file') (hints : ∀ i ∈ index, IsInt i)

include hs hk h hints

/-- The server answers what the client has sent. -/
theorem handles_getpieces {r : Except JavaError Unit}
    (hsent : sendData file' index ⟨s.server, [], []⟩ = some (r, ⟨s.server, [], text⟩)) : ∃ s₁ : Session,
      s.onClient ((Call.getpieces k index).send file) = some ((), s₁) ∧ s₁.client = s.client ∧
      s₁.onServer ServerPeer.handleRequest =
        r.toOption.map fun u => (u, { s₁ with toServer := [], toClient := text }) := by
  have hsend : Transfers ((Call.getpieces k index).send file) s.client [] (.ok ()) (getpiecesText k index) s.client :=
    h.client_key ▸ sendGetpieces_spec
  have hcall := onClient_spec hsend hs.2
  rw [hs.1, List.nil_append] at hcall
  refine ⟨_, hcall, rfl, ?_⟩
  have hrequest := (receiveRequest_getpieces hk.isWord h.on_server hints).run
  have hhandle : ServerPeer.handleRequest ⟨s.server, getpiecesText k index, []⟩ = some (r, ⟨s.server, [], text⟩) := by
    rw [handleRequest_eq, Proc.bind_run_ok hrequest]
    exact hsent
  rw [Session.onServer, hhandle]
  cases r <;> rfl

theorem reply_getpieces
    (hsent : sendData file' index ⟨s.server, [], []⟩ = some (.ok (), ⟨s.server, [], text⟩)) :
    (Call.getpieces k index).reply s = some text := by
  obtain ⟨s₁, hcall, -, hhandle⟩ := handles_getpieces hs hk h hints hsent
  have hfile : s.client.lookup (Call.getpieces k index).key = some file := h.on_client
  rw [Call.reply, hfile]
  simp only [Option.bind_eq_bind, Option.bind_some, hcall, hhandle]
  rfl

/-- A call that returns has read a reply that the server has sent to its end. -/
theorem exchange_getpieces {r : Except JavaError Unit}
    (hsent : sendData file' index ⟨s.server, [], []⟩ = some (r, ⟨s.server, [], text⟩))
    (hex : exchange (.getpieces k index) s = some s') :
    r = .ok () ∧ ∃ p', FilePeer.handleDataReception ⟨s.client, text, []⟩ = some (.ok (), p') := by
  obtain ⟨s₁, hcall, hclient, hhandle⟩ := handles_getpieces hs hk h hints hsent
  have hfile : s.client.lookup (Call.getpieces k index).key = some file := h.on_client
  rw [exchange, hfile] at hex
  simp only [Option.bind_eq_bind, Option.bind_some, hcall, hhandle] at hex
  cases r with
  | error e => cases hex
  | ok u =>
      refine ⟨rfl, ?_⟩
      simp only [Except.toOption, Option.map_some, Option.bind_some] at hex
      obtain ⟨⟨bm, s₃⟩, hreceive, -⟩ := Option.bind_eq_some_iff.1 hex
      unfold Session.onClient at hreceive
      split at hreceive
      · next a p hrun =>
          rcases Proc.bind_run_inv hrun with ⟨e, -, herror⟩ | ⟨v, p', hdata, -⟩
          · cases herror
          · rw [← hclient]
            exact ⟨p', hdata⟩
      · cases hreceive

/-- The head of a missing piece is read for that of a piece, so the call does not return or writes it. -/
theorem hasPiece_of_aligned (ha : Aligned s k index file file' s') : ∀ i ∈ index, HasPiece file' i := by
  rcases forall_or_first index (HasPiece file') with hall | ⟨front, i, others, rfl, hfront, hmissing⟩
  · exact hall
  · exfalso
    obtain ⟨good, rfl, hread⟩ := exists_pieces hfront
    have hhas : ∀ x ∈ good, HasPiece file' x.1 := fun x hx => hfront x.1 (List.mem_map_of_mem hx)
    obtain ⟨f₁, hwrite, -⟩ := writePieces_spec hhas h.client_built h.pieceSize_eq h.size_eq
    obtain ⟨r, body, hsent⟩ := @sendData_missing s.server file' good (fun x hx => (hread x hx).1) i others
    rw [h.server_key] at hsent
    obtain ⟨rfl, p', hdata⟩ := exchange_getpieces hs hk h hints hsent ha.returns
    obtain ⟨text, pieces, hreply, hbrought, hpieces, -⟩ := ha.writes
    rw [reply_getpieces hs hk h hints hsent] at hreply
    obtain rfl := Option.some.inj hreply
    rw [broughtPieces, dataHeader_dataHead hk.isWord h.on_client] at hbrought
    obtain ⟨-, rfl⟩ := Prod.mk.inj (Option.some.inj hbrought)
    have hi : IsInt i := hints i (by simp)
    have hgood : ∀ x ∈ good, IsInt x.1 := fun x hx => (hhas x hx).isIndex.isInt
    have hsize : ∀ x ∈ good, file.pieceSize = x.2.length := fun x hx => h.pieceSize_eq.trans (hread x hx).2
    have hfile : s.client.lookup file.key = some file := by rw [h.client_key, h.on_client]
    have hloop : ∀ {r : Except JavaError Unit} {p₁ : Port FileManager Char},
        (FilePeer.checkProtocolKey "data".toList >>= fun _ => receiveData)
          ⟨s.client, dataHead k (good.flatMap pieceText ++ (integerToString i ++ ':' :: body)), []⟩ = some (r, p₁) →
        r = .error .negativeArraySize := by
      intro r p₁ hrun
      rw [receiveData_dataHead hk.isWord h.on_client] at hrun
      rcases receivePieces_missing hfile hgood hsize hwrite hi hrun with ⟨data, hmem⟩ | hneg
      · exact absurd (hpieces _ hmem).1 hmissing
      · exact hneg
    unfold FilePeer.handleDataReception at hdata
    rcases Proc.tryCatch_run_inv hdata with ⟨u, hrun, -⟩ | ⟨e, p₁, hrun, hhandler⟩
    · cases hloop hrun
    · obtain rfl := Except.error.inj (hloop hrun)
      cases hhandler

theorem aligned_of_hasPiece (hindex : ∀ i ∈ index, HasPiece file' i) : ∃ s', Aligned s k index file file' s' := by
  obtain ⟨f₁, fm, -, -, hdelivered⟩ := getpieces_delivered hs hk h hindex
  obtain ⟨file₁, file₁', hshares, -, -, pieces, f', hfst, hread, hwrite, hreplaces⟩ := hdelivered.files
  obtain rfl : file₁ = file := Option.some.inj (hshares.on_client.symm.trans h.on_client)
  obtain rfl : file₁' = file' := Option.some.inj (hshares.on_server.symm.trans h.on_server)
  have hhas : ∀ x ∈ pieces, HasPiece file₁' x.1 := fun x hx => hindex x.1 (hfst ▸ List.mem_map_of_mem hx)
  have hsize : ∀ x ∈ pieces, file₁.pieceSize = x.2.length := by
    intro x hx
    obtain ⟨data, hdata, hlen⟩ := (hhas x hx).readPiece
    obtain rfl := Except.ok.inj (hdata.symm.trans (hread x hx))
    exact h.pieceSize_eq.trans hlen
  have hsend : Transfers (sendData file₁' (pieces.map Prod.fst)) s.server [] (.ok ()) (dataText file₁'.key pieces)
      s.server := sendData_spec hread
  have hsent := hsend.run
  rw [hfst, h.server_key] at hsent
  have hbrought : broughtPieces s.client (dataText k pieces) = some (file₁, pieces) :=
    broughtPieces_dataText hk.isWord h.on_client (fun x hx => (hhas x hx).isIndex.isInt) hsize hwrite
  refine ⟨_,
    { returns := hdelivered.exchanged
      writes := ⟨_, pieces, reply_getpieces hs hk h hints hsent, hbrought,
        fun x hx => ⟨hhas x hx, hread x hx⟩, ?_⟩
      idle := hdelivered.idle
      next := fun c hc => ?_ }⟩
  · rw [File.writtenPieces_of_ok hwrite]
    exact hreplaces
  · obtain ⟨s'', hnext, -⟩ := call_delivered hdelivered.idle hc
    exact ⟨s'', hnext⟩

/-- A call returns aligned, and with pieces of the server only, exactly when the server has every piece asked for. -/
theorem getpieces_aligned_iff : (∃ s', Aligned s k index file file' s') ↔ ∀ i ∈ index, HasPiece file' i :=
  ⟨fun ⟨_, ha⟩ => hasPiece_of_aligned hs hk h hints ha, aligned_of_hasPiece hs hk h hints⟩

end Call

theorem getpieces_aligned_iff_five_bytes :
    ∃ s', Aligned sharedSession sharedKey [2, 0, 1] (sharedFile false) (sharedFile true) s' :=
  (getpieces_aligned_iff ⟨rfl, rfl⟩ isKey_sharedKey (shares_sharedFile true)
    (fun i hi => (hasPiece_sharedFile i hi).isIndex.isInt)).2 hasPiece_sharedFile

/-- Neither side has any of the pieces. -/
def missingSession : Session := { sharedSession with server := [(sharedKey, sharedFile false)] }

/-- Two characters of the error are written as the piece, and the client stops at the rest. -/
theorem missing_piece_written :
    Shares missingSession.client missingSession.server sharedKey (sharedFile false) (sharedFile false) ∧
    (Call.getpieces sharedKey [0]).reply missingSession = some (dataHead sharedKey "0:error\n] ".toList) ∧
    (FilePeer.handleDataReception ⟨missingSession.client, dataHead sharedKey "0:error\n] ".toList, []⟩).map
        (fun p => (p.1, p.2.state.lookup sharedKey)) =
      some (.error .numberFormat, some { sharedFile false with content := [101, 114], bufferMap := ⟨⟨[1]⟩⟩ }) ∧
    ¬ ∃ s', Aligned missingSession sharedKey [0] (sharedFile false) (sharedFile false) s' := by
  refine ⟨shares_sharedFile false, by decide +kernel, by decide +kernel, ?_⟩
  rintro ⟨s', haligned⟩
  have hnone : (exchange (.getpieces sharedKey [0]) missingSession).isNone = true := by decide +kernel
  rw [haligned.returns] at hnone
  cases hnone

end JavaClient
end Raiezau
