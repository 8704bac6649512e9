import Raiezau.JavaClient.Framing

/-!
# Session — the calls a client makes on one connection

A session is the two sides with the two directions of their stream.  `exchange` is one call: the client
sends, the server handles one request, the client takes the reply.  Between calls nothing is left in
either direction (`Session.Idle`), whatever was asked for and whatever the bytes of pieces and maps are.
-/

namespace Raiezau
namespace JavaClient

open CUtil Machine Assoc Bytes Socket Peer

/-! ## Model -/

inductive Call
  | interested (key : CString)
  | have (key : CString)
  | getpieces (key : CString) (index : List Int)
  deriving DecidableEq, Repr

namespace Call

def key : Call → CString
  | .interested key => key
  | .have key => key
  | .getpieces key _ => key

/-- The indices asked for. -/
def index : Call → List Int
  | .interested _ => []
  | .have _ => []
  | .getpieces _ index => index

/-- The call on a file; `bm` is the map of the peer, before and after. -/
def run (c : Call) (bm : BufferMap) (file : File) : SocketM BufferMap :=
  match c with
  | .interested _ => FilePeer.doInterested bm file
  | .have _ => FilePeer.doHave bm file
  | .getpieces _ index => do
      FilePeer.doGetpieces file index
      pure bm

/-- What a call does before its first read. -/
def send (c : Call) (file : File) : SocketM Unit :=
  match c with
  | .interested _ => sendInterested file
  | .have _ => sendHave file
  | .getpieces _ index => sendGetpieces file index

/-- What a call does from its first read on. -/
def receive (c : Call) (bm : BufferMap) : SocketM BufferMap :=
  match c with
  | .interested _ => FilePeer.handleHaveReception bm
  | .have _ => FilePeer.handleHaveReception bm
  | .getpieces _ _ => do
      FilePeer.handleDataReception
      pure bm

theorem run_eq (c : Call) (bm : BufferMap) (file : File) :
    c.run bm file = c.send file >>= fun _ => c.receive bm := by
  cases c with
  | interested key => rfl
  | «have» key => rfl
  | getpieces key index => simp only [run, send, receive, FilePeer.doGetpieces, bind_assoc]

end Call

/-- The two sides of a connection, the map the `FilePeer` keeps, and what is sent and not yet read. -/
structure Session where
  client : FileManager
  bm : BufferMap
  server : FileManager
  toServer : List Char
  toClient : List Char

namespace Session

def onClient {α : Type} (s : Session) (m : SocketM α) : Option (α × Session) :=
  match m ⟨s.client, s.toClient, s.toServer⟩ with
  | some (.ok a, p) => some (a, { s with client := p.state, toClient := p.input, toServer := p.output })
  | _ => none

def onServer {α : Type} (s : Session) (m : SocketM α) : Option (α × Session) :=
  match m ⟨s.server, s.toServer, s.toClient⟩ with
  | some (.ok a, p) => some (a, { s with server := p.state, toServer := p.input, toClient := p.output })
  | _ => none

def Idle (s : Session) : Prop := s.toServer = [] ∧ s.toClient = []

end Session

/-- One call, and the one request it makes the server handle. -/
def exchange (c : Call) (s : Session) : Option Session := do
  let file ← s.client.lookup c.key
  let (_, s₁) ← s.onClient (c.send file)
  let (_, s₂) ← s₁.onServer ServerPeer.handleRequest
  let (bm, s₃) ← s₂.onClient (c.receive s.bm)
  pure { s₃ with bm := bm }

variable {client server : FileManager} {file file' f f' : File} {k : CString} {i : Int}

/-! ## Files as they are built -/

/-- The piece map has the size the constructors give it. -/
def File.Built (f : File) : Prop :=
  ∃ bm, BufferMap.ofFile f.length f.pieceSize f.seeded = .ok bm ∧ f.getBufferMapSize = bm.size

theorem ofFile_eq_ok {L p : Int} {seeded : Bool} {bm : BufferMap}
    (h : BufferMap.ofFile L p seeded = .ok bm) : ∃ n bitSet, pieceCountOf L p = .ok n ∧
      BitSet.new n = .ok bitSet ∧ bm.size = bitSet.size := by
  unfold BufferMap.ofFile at h
  cases hn : pieceCountOf L p with
  | error e =>
      rw [hn] at h
      cases h
  | ok n =>
      rw [hn, ok_bind] at h
      cases hnew : BitSet.new n with
      | error e =>
          rw [hnew] at h
          cases h
      | ok bitSet =>
          rw [hnew, ok_bind] at h
          obtain rfl := Except.ok.inj h
          refine ⟨n, bitSet, rfl, hnew, ?_⟩
          cases seeded with
          | false => rfl
          | true => exact List.length_map _

/-- The two sides compute the same size for the piece map. -/
theorem File.Built.size_eq (hf : f.Built) (hf' : f'.Built) (hlen : f.length = f'.length)
    (hsize : f.pieceSize = f'.pieceSize) : f.getBufferMapSize = f'.getBufferMapSize := by
  obtain ⟨bm, hbm, hmap⟩ := hf
  obtain ⟨bm', hbm', hmap'⟩ := hf'
  obtain ⟨n, bitSet, hn, hnew, heq⟩ := ofFile_eq_ok hbm
  obtain ⟨n', bitSet', hn', hnew', heq'⟩ := ofFile_eq_ok hbm'
  rw [hlen, hsize, hn'] at hn
  obtain rfl := Except.ok.inj hn
  rw [hnew] at hnew'
  obtain rfl := Except.ok.inj hnew'
  rw [hmap, hmap', heq, heq']

theorem File.Built.getPieceCount_eq_ok (hf : f.Built) : ∃ n, f.getPieceCount = .ok n := by
  obtain ⟨bm, hbm, -⟩ := hf
  obtain ⟨n, _, hn, -⟩ := ofFile_eq_ok hbm
  exact ⟨n, hn⟩

theorem built_incomplete {name key : CString} {L p : Int} {content : List UInt8}
    (h : File.incomplete name L p key content = .ok f) : f.Built := by
  obtain ⟨bm, hbm, rfl⟩ := File.incomplete_eq_ok h
  exact ⟨bm, hbm, rfl⟩

theorem built_seed {md5Hash : List UInt8 → CString} {name : CString} {p : Int} {content : List UInt8}
    (h : File.seed md5Hash name p content = .ok f) : f.Built := by
  obtain ⟨bm, hbm, rfl⟩ := File.seed_eq_ok h
  exact ⟨bm, hbm, rfl⟩

/-- What a write leaves alone. -/
structure SameShape (f f' : File) : Prop where
  key_eq : f'.key = f.key
  length_eq : f'.length = f.length
  pieceSize_eq : f'.pieceSize = f.pieceSize
  seeded_eq : f'.seeded = f.seeded
  size_eq : f'.getBufferMapSize = f.getBufferMapSize

theorem SameShape.trans {f'' : File} (h : SameShape f f') (h' : SameShape f' f'') : SameShape f f'' :=
  ⟨h'.key_eq.trans h.key_eq, h'.length_eq.trans h.length_eq, h'.pieceSize_eq.trans h.pieceSize_eq,
    h'.seeded_eq.trans h.seeded_eq, h'.size_eq.trans h.size_eq⟩

theorem SameShape.built (h : SameShape f f') (hf : f.Built) : f'.Built := by
  obtain ⟨bm, hbm, hsize⟩ := hf
  refine ⟨bm, ?_, h.size_eq.trans hsize⟩
  rw [h.length_eq, h.pieceSize_eq, h.seeded_eq]
  exact hbm

/-! ## Pieces that can be sent -/

/-- A piece the side has: one of those the file is counted to have, and its bit is set. -/
structure HasPiece (f : File) (i : Int) : Prop where
  size_pos : 0 < f.pieceSize
  nonneg : 0 ≤ i
  counted : ∃ n, f.getPieceCount = .ok n ∧ i < n
  completed : f.bufferMap.isCompleted i = .ok true

theorem HasPiece.isIndex (h : HasPiece f i) : IsIndex i := by
  obtain ⟨n, hn, hi⟩ := h.counted
  have hp := h.size_pos
  unfold File.getPieceCount pieceCountOf at hn
  rw [if_neg (by omega)] at hn
  have hbound := toInt32_bounds ((toInt32 (f.length + toInt32 (f.pieceSize - 1))).tdiv f.pieceSize)
  rw [Except.ok.inj hn] at hbound
  exact ⟨h.nonneg, by omega⟩

/-- The position of a piece fits in an `int`. -/
theorem HasPiece.position (h : HasPiece f i) :
    0 ≤ f.pieceSize * i ∧ toInt32 (f.pieceSize * i) = f.pieceSize * i := by
  obtain ⟨n, hn, hi⟩ := h.counted
  have hp := h.size_pos
  have hi0 := h.nonneg
  have hpos : 0 ≤ f.pieceSize * i := Int.mul_nonneg (by omega) hi0
  unfold File.getPieceCount pieceCountOf at hn
  rw [if_neg (by omega)] at hn
  have hcount := Except.ok.inj hn
  have hX := toInt32_bounds (f.length + toInt32 (f.pieceSize - 1))
  generalize toInt32 (f.length + toInt32 (f.pieceSize - 1)) = X at hcount hX
  -- A negative sum gives a count that is not positive.
  have hX0 : 0 ≤ X := by
    by_contra hneg
    have hle : 0 ≤ -(X.tdiv f.pieceSize) := by
      rw [← Int.neg_tdiv]
      exact Int.tdiv_nonneg (by omega) (by omega)
    have habs : (X.tdiv f.pieceSize).natAbs ≤ X.natAbs := by
      rw [Int.natAbs_tdiv]
      exact Nat.div_le_self _ _
    rw [toInt32_of_range (by omega) (by omega)] at hcount
    omega
  have hle : X / f.pieceSize ≤ X := Int.ediv_le_self _ hX0
  have hdiv0 : 0 ≤ X / f.pieceSize := Int.ediv_nonneg hX0 (by omega)
  rw [Int.tdiv_eq_ediv_of_nonneg hX0, toInt32_of_range (by omega) (by omega)] at hcount
  have hmul : f.pieceSize * i ≤ X :=
    calc f.pieceSize * i ≤ f.pieceSize * (X / f.pieceSize) :=
          Int.mul_le_mul_of_nonneg_left (by omega) (by omega)
      _ ≤ X := Int.mul_ediv_self_le (by omega)
  exact ⟨hpos, toInt32_of_range (by omega) (by omega)⟩

theorem HasPiece.readPiece (h : HasPiece f i) :
    ∃ data, f.readPiece i = .ok data ∧ f.pieceSize = data.length := by
  obtain ⟨hpos, hint⟩ := h.position
  have hp := h.size_pos
  refine ⟨readAt 0 f.content (f.pieceSize * i).toNat f.pieceSize.toNat, ?_, ?_⟩
  · simp only [File.readPiece, h.completed, hint]
    rw [if_neg (by omega), if_neg (by omega)]
    rfl
  · rw [length_readAt]
    omega

theorem BitSet.lt_size_of_test {b : BitSet} {n : Nat} {x : Bool} (h : b.test n = .ok x) :
    n / 8 < b.size := by
  rw [test_natCast] at h
  split at h
  · next hget => exact (List.getElem?_eq_some_iff.1 hget).1
  · cases h

/-- A piece of the other side can be written. -/
theorem HasPiece.writePiece (h : HasPiece file' i) (data : List UInt8) (hf : f.Built)
    (hsize : f.pieceSize = file'.pieceSize) (hmap : f.getBufferMapSize = file'.getBufferMapSize) :
    ∃ f', f.writePiece i data = .ok f' ∧ SameShape f f' := by
  obtain ⟨hpos, hint⟩ := h.position
  obtain ⟨count, hcount⟩ := hf.getPieceCount_eq_ok
  obtain ⟨n, rfl⟩ := Int.eq_ofNat_of_zero_le h.nonneg
  have hin : n / 8 < f.bufferMap.bitSet.size :=
    (BitSet.lt_size_of_test h.completed).trans_eq hmap.symm
  obtain ⟨bitSet, hset⟩ := BitSet.exists_set hin
  have hadd : f.bufferMap.addCompletedPart n = .ok ⟨bitSet⟩ := by
    rw [BufferMap.addCompletedPart, hset]
    rfl
  simp only [File.writePiece, hsize, hint, hcount, hadd, bind, Except.bind]
  rw [if_neg (by omega)]
  exact ⟨_, rfl, rfl, rfl, hsize.symm, rfl, BitSet.size_set hset⟩

theorem writePieces_spec {pieces : List (Int × List UInt8)} (hpieces : ∀ x ∈ pieces, HasPiece file' x.1)
    (hf : f.Built) (hsize : f.pieceSize = file'.pieceSize)
    (hmap : f.getBufferMapSize = file'.getBufferMapSize) :
    ∃ f', f.writePieces pieces = .ok f' ∧ SameShape f f' := by
  -- A write leaves the size of the pieces and the places of the map as they are.
  induction pieces generalizing f with
  | nil => exact ⟨f, rfl, rfl, rfl, rfl, rfl, rfl⟩
  | cons x pieces ih =>
      obtain ⟨f₁, hwrite, hshape⟩ := (hpieces x (by simp)).writePiece x.2 hf hsize hmap
      obtain ⟨f', hrest, hshape'⟩ := ih (fun y hy => hpieces y (by simp [hy])) (hshape.built hf)
        (hshape.pieceSize_eq.trans hsize) (hshape.size_eq.trans hmap)
      refine ⟨f', ?_, hshape.trans hshape'⟩
      rw [File.writePieces, List.foldlM_cons, hwrite]
      exact hrest

/-- What `readPiece` returns for each index. -/
theorem exists_pieces {index : List Int} (hindex : ∀ i ∈ index, HasPiece f i) :
    ∃ pieces : List (Int × List UInt8), pieces.map Prod.fst = index ∧
      ∀ x ∈ pieces, f.readPiece x.1 = .ok x.2 ∧ f.pieceSize = x.2.length := by
  induction index with
  | nil => exact ⟨[], rfl, by simp⟩
  | cons i index ih =>
      obtain ⟨pieces, hfst, hread⟩ := ih fun j hj => hindex j (by simp [hj])
      obtain ⟨data, hdata⟩ := (hindex i (by simp)).readPiece
      refine ⟨(i, data) :: pieces, by simp [hfst], fun x hx => ?_⟩
      rcases List.mem_cons.1 hx with rfl | hx
      · exact hdata
      · exact hread x hx

/-! ## One call -/

theorem IsKey.isWord (hk : IsKey k) : IsWord k := by
  refine ⟨fun c hc => ?_, ?_⟩
  · have hhex := hk.2 c hc
    constructor <;> rintro rfl <;> revert hhex <;> decide
  · rw [hk.1]
    decide

/-- A file both sides have under the same key, with the same length and piece size. -/
structure Shares (client server : FileManager) (k : CString) (file file' : File) : Prop where
  on_client : client.lookup k = some file
  on_server : server.lookup k = some file'
  client_key : file.key = k
  server_key : file'.key = k
  length_eq : file.length = file'.length
  pieceSize_eq : file.pieceSize = file'.pieceSize
  client_built : file.Built
  server_built : file'.Built

theorem Shares.size_eq (h : Shares client server k file file') :
    file.getBufferMapSize = file'.getBufferMapSize :=
  h.client_built.size_eq h.server_built h.length_eq h.pieceSize_eq

/-- A call on a file both sides know, for pieces the server has. -/
def Call.Admissible (c : Call) (client server : FileManager) : Prop :=
  IsKey c.key ∧ ∃ file file', Shares client server c.key file file' ∧ ∀ i ∈ c.index, HasPiece file' i

namespace Call

/-- What the server should understand: the same kind of call, its own file of that key, and what the
client put into the message. -/
def request (c : Call) (file file' : File) : Request :=
  match c with
  | .interested _ => .interested file'
  | .have _ => .have file' file.bufferMap.toByteArray
  | .getpieces _ index => .getpieces file' index

/-- What the client should have afterwards: the map of the server, or the pieces as the server reads
them, written in the order they were asked for. -/
def Obtained (c : Call) (file file' : File) (s s' : Session) : Prop :=
  match c with
  | .interested _ => s'.bm = file'.bufferMap ∧ s'.client = s.client
  | .have _ => s'.bm = file'.bufferMap ∧ s'.client = s.client
  | .getpieces key index => s'.bm = s.bm ∧ ∃ pieces : List (Int × List UInt8), ∃ f,
      pieces.map Prod.fst = index ∧ (∀ x ∈ pieces, file'.readPiece x.1 = .ok x.2) ∧
      file.writePieces pieces = .ok f ∧ Replaces s.client key f s'.client

end Call

/-- The call did what it is for, and left nothing in the streams. -/
structure Delivered (s : Session) (c : Call) (s' : Session) : Prop where
  exchanged : exchange c s = some s'
  files : ∃ file file', Shares s.client s.server c.key file file' ∧
    (∃ s₁ s₂, s.onClient (c.send file) = some ((), s₁) ∧
      s₁.onServer receiveRequest = some (c.request file file', s₂) ∧ s₂.toServer = []) ∧
    c.Obtained file file' s s'
  server_eq : s'.server = s.server
  idle : s'.Idle
  waits : s'.onServer ServerPeer.handleRequest = none

theorem onClient_spec {α : Type} {s : Session} {m : SocketM α} {xs ys : List Char} {a : α}
    {fm : FileManager} (hm : Transfers m s.client xs (.ok a) ys fm) (hin : s.toClient = xs) :
    s.onClient m = some (a, { s with client := fm, toClient := [], toServer := s.toServer ++ ys }) := by
  have hrun := hm [] s.toServer
  rw [List.append_nil] at hrun
  rw [Session.onClient, hin, hrun]

theorem onServer_spec {α : Type} {s : Session} {m : SocketM α} {xs ys : List Char} {a : α}
    {fm : FileManager} (hm : Transfers m s.server xs (.ok a) ys fm) (hin : s.toServer = xs) :
    s.onServer m = some (a, { s with server := fm, toServer := [], toClient := s.toClient ++ ys }) := by
  have hrun := hm [] s.toClient
  rw [List.append_nil] at hrun
  rw [Session.onServer, hin, hrun]

/-- A server whose input is empty waits. -/
theorem Session.Idle.waits {s : Session} (hs : s.Idle) : s.onServer ServerPeer.handleRequest = none := by
  have hword : receiveWord ⟨s.server, [], s.toClient⟩ = none := Proc.bind_run_none rfl
  rw [Session.onServer, hs.1]
  unfold ServerPeer.handleRequest
  rw [Proc.bind_run_none hword]

/-- A call is delivered when the server understands its text and the client its reply. -/
theorem delivered_of_transfers {s : Session} {c : Call} (request reply : CString) {bm : BufferMap}
    {fm : FileManager} (hs : s.Idle) (hshares : Shares s.client s.server c.key file file')
    (hsend : Transfers (c.send file) s.client [] (.ok ()) request s.client)
    (hrequest : Transfers receiveRequest s.server request (.ok (c.request file file')) [] s.server)
    (hserve : Transfers (serve (c.request file file')) s.server [] (.ok ()) reply s.server)
    (hreceive : Transfers (c.receive s.bm) s.client reply (.ok bm) [] fm)
    (hobtained : c.Obtained file file' s { s with client := fm, bm := bm }) :
    Delivered s c { s with client := fm, bm := bm } := by
  have hidle : Session.Idle { s with client := fm, bm := bm } := hs
  have hhandle : Transfers ServerPeer.handleRequest s.server request (.ok ()) reply s.server := by
    rw [handleRequest_eq, ← List.append_nil request]
    exact hrequest.bind_read hserve
  have hsent := onClient_spec hsend hs.2
  rw [hs.1, List.nil_append] at hsent
  refine ⟨?_, ⟨file, file', hshares, ⟨_, _, hsent, onServer_spec hrequest rfl, rfl⟩, hobtained⟩, rfl,
    hidle, hidle.waits⟩
  have hhandled := onServer_spec (s := { s with toClient := [], toServer := request }) hhandle rfl
  have hreceived := onClient_spec
    (s := { s with toServer := [], toClient := [] ++ reply }) hreceive rfl
  rw [exchange, hshares.on_client]
  simp only [Option.bind_eq_bind, Option.bind_some, hsent, hhandled, hreceived]
  obtain ⟨client, bm₀, server, toServer, toClient⟩ := s
  obtain ⟨rfl, rfl⟩ : toServer = [] ∧ toClient = [] := hs
  rfl

/-- The reply to the first two kinds of call is the map of the server. -/
theorem handleHaveReception_shared {bm : BufferMap} (hk : IsKey k)
    (h : Shares client server k file file') :
    Transfers (FilePeer.handleHaveReception bm) client
      (haveText file'.key file'.bufferMap.toByteArray) (.ok file'.bufferMap) [] client := by
  obtain ⟨n, hcount⟩ := h.client_built.getPieceCount_eq_ok
  rw [h.server_key]
  exact handleHaveReception_spec hk.isWord h.on_client h.size_eq hcount

theorem interested_delivered {s : Session} (hs : s.Idle) (hk : IsKey k)
    (h : Shares s.client s.server k file file') :
    Delivered s (.interested k) { s with bm := file'.bufferMap } := by
  refine delivered_of_transfers (interestedText k) _ hs h ?_ ?_ sendHave_spec
    (handleHaveReception_shared hk h) ⟨rfl, rfl⟩
  · exact h.client_key ▸ sendInterested_spec
  · exact receiveRequest_interested hk.isWord h.on_server

theorem have_delivered {s : Session} (hs : s.Idle) (hk : IsKey k)
    (h : Shares s.client s.server k file file') :
    Delivered s (.have k) { s with bm := file'.bufferMap } := by
  obtain ⟨n, hcount⟩ := h.server_built.getPieceCount_eq_ok
  refine delivered_of_transfers (haveText k file.bufferMap.toByteArray) _ hs h ?_ ?_ ?_
    (handleHaveReception_shared hk h) ⟨rfl, rfl⟩
  · exact h.client_key ▸ sendHave_spec
  · exact receiveRequest_have hk.isWord h.on_server h.size_eq.symm
  · exact (Transfers.ofExcept hcount).bind_read sendHave_spec

theorem getpieces_delivered {s : Session} {index : List Int} (hs : s.Idle) (hk : IsKey k)
    (h : Shares s.client s.server k file file') (hindex : ∀ i ∈ index, HasPiece file' i) :
    ∃ f fm, SameShape file f ∧ Replaces s.client k f fm ∧
      Delivered s (.getpieces k index) { s with client := fm } := by
  obtain ⟨pieces, rfl, hread⟩ := exists_pieces hindex
  have hhas : ∀ x ∈ pieces, HasPiece file' x.1 := fun x hx => hindex x.1 (List.mem_map_of_mem hx)
  obtain ⟨f, hwrite, hshape⟩ := writePieces_spec hhas h.client_built h.pieceSize_eq h.size_eq
  obtain ⟨fm, hreplaces, hreceive⟩ := handleDataReception_spec hk.isWord h.on_client h.client_key
    hwrite (fun x hx => (hhas x hx).isIndex.isInt) fun x hx => h.pieceSize_eq.trans (hread x hx).2
  refine ⟨f, fm, hshape, hreplaces, delivered_of_transfers
    (getpiecesText k (pieces.map Prod.fst)) (dataText k pieces) hs h ?_ ?_ ?_
    (hreceive.bind_last (Transfers.pure s.bm))
    ⟨rfl, pieces, f, rfl, fun x hx => (hread x hx).1, hwrite, hreplaces⟩⟩
  · exact h.client_key ▸ sendGetpieces_spec
  · exact receiveRequest_getpieces hk.isWord h.on_server fun i hi => (hindex i hi).isIndex.isInt
  · exact h.server_key ▸ sendData_spec fun x hx => (hread x hx).1

/-! ## A whole session -/

theorem Shares.replaces {fm : FileManager} {j : CString} (h : Shares client server j file file')
    (hshape : SameShape f f') (hf : client.lookup k = some f) (hfm : Replaces client k f' fm) :
    ∃ file₁, Shares fm server j file₁ file' := by
  -- The file that is written, and all others.
  by_cases hj : j = k
  · subst hj
    obtain rfl := Option.some.inj (h.on_client.symm.trans hf)
    exact ⟨f', hfm.1, h.on_server, hshape.key_eq.trans h.client_key, h.server_key,
      hshape.length_eq.trans h.length_eq, hshape.pieceSize_eq.trans h.pieceSize_eq,
      hshape.built h.client_built, h.server_built⟩
  · exact ⟨file, (hfm.2 j hj).trans h.on_client, h.on_server, h.client_key, h.server_key,
      h.length_eq, h.pieceSize_eq, h.client_built, h.server_built⟩

/-- One call is delivered, and the calls that were admissible still are. -/
theorem call_delivered {s : Session} {c : Call} (hs : s.Idle) (hc : c.Admissible s.client s.server) :
    ∃ s', Delivered s c s' ∧
      ∀ c' : Call, c'.Admissible s.client s.server → c'.Admissible s'.client s'.server := by
  obtain ⟨hk, file, file', hshares, hindex⟩ := hc
  cases c with
  | interested k => exact ⟨_, interested_delivered hs hk hshares, fun _ h => h⟩
  | «have» k => exact ⟨_, have_delivered hs hk hshares, fun _ h => h⟩
  | getpieces k index =>
      obtain ⟨f, fm, hshape, hreplaces, hdelivered⟩ := getpieces_delivered hs hk hshares hindex
      refine ⟨_, hdelivered, ?_⟩
      rintro c' ⟨hk', file₁, file₁', hshares', hindex'⟩
      obtain ⟨file₂, hafter⟩ := hshares'.replaces hshape hshares.on_client hreplaces
      exact ⟨hk', file₂, file₁', hafter, hindex'⟩

/-- Every call of a session is delivered, one after the other. -/
inductive Framed : Session → List Call → Session → Prop where
  | nil {s : Session} : Framed s [] s
  | cons {s s₁ s₂ : Session} {c : Call} {calls : List Call} :
      Delivered s c s₁ → Framed s₁ calls s₂ → Framed s (c :: calls) s₂

/-- Whatever is asked for, in whatever order, every message is read exactly as far as it was written. -/
theorem session_framed {s : Session} {calls : List Call} (hs : s.Idle)
    (hcalls : ∀ c ∈ calls, c.Admissible s.client s.server) : ∃ s', Framed s calls s' ∧ s'.Idle := by
  -- After a call both ends are idle again, and the files are still of the same shape.
  induction calls generalizing s with
  | nil => exact ⟨s, .nil, hs⟩
  | cons c calls ih =>
      obtain ⟨s₁, hdelivered, hkeep⟩ := call_delivered hs (hcalls c (by simp))
      obtain ⟨s', hrest, hidle⟩ := ih hdelivered.idle fun c' hc' => hkeep c' (hcalls c' (by simp [hc']))
      exact ⟨s', .cons hdelivered hrest, hidle⟩

def sharedKey : CString := "0123456789abcdef0123456789ABCDEF".toList

/-- A file of five bytes in pieces of two, complete on one side and empty on the other; its bytes are
the characters the messages are made of. -/
def sharedFile (seeded : Bool) : File :=
  { name := "f".toList
    key := sharedKey
    length := 5
    seeded := seeded
    pieceSize := 2
    bufferMap := ⟨⟨if seeded then [0xFF] else [0]⟩⟩
    content := if seeded then [32, 58, 93, 10, 255] else [] }

def sharedSession : Session :=
  { client := [(sharedKey, sharedFile false)]
    bm := ⟨⟨[]⟩⟩
    server := [(sharedKey, sharedFile true)]
    toServer := []
    toClient := [] }

theorem isKey_sharedKey : IsKey sharedKey := by
  unfold IsKey sharedKey
  decide

theorem shares_sharedFile (seeded : Bool) : Shares [(sharedKey, sharedFile false)] [(sharedKey, sharedFile seeded)]
    sharedKey (sharedFile false) (sharedFile seeded) :=
  ⟨rfl, rfl, rfl, rfl, rfl, rfl, ⟨_, rfl, rfl⟩, by cases seeded <;> exact ⟨_, rfl, rfl⟩⟩

theorem hasPiece_sharedFile : ∀ i ∈ [(2 : Int), 0, 1], HasPiece (sharedFile true) i := by
  intro i hi
  have hmem : i = 2 ∨ i = 0 ∨ i = 1 := by simpa using hi
  rcases hmem with rfl | rfl | rfl <;>
    exact ⟨by decide, by decide, ⟨3, rfl, by decide⟩, rfl⟩

theorem session_framed_five_bytes : ∃ s', Framed sharedSession [.interested sharedKey,
    .getpieces sharedKey [2, 0, 1], .have sharedKey, .getpieces sharedKey []] s' ∧ s'.Idle := by
  have hkey := isKey_sharedKey
  have hshares := shares_sharedFile true
  refine session_framed ⟨rfl, rfl⟩ fun c hc => ?_
  simp only [List.mem_cons, List.not_mem_nil, or_false] at hc
  rcases hc with rfl | rfl | rfl | rfl
  · exact ⟨hkey, _, _, hshares, by simp [Call.index]⟩
  · exact ⟨hkey, _, _, hshares, hasPiece_sharedFile⟩
  · exact ⟨hkey, _, _, hshares, by simp [Call.index]⟩
  · exact ⟨hkey, _, _, hshares, by simp [Call.index]⟩

end JavaClient
end Raiezau
