import Raiezau.CTracker.Reachable
import Raiezau.JavaClient.ListReply
import Raiezau.JavaClient.Session

/-!
# PeersReply — from the endpoints a tracker lists to the peers of a file

A peers reply is a list of endpoints with blanks around them.  The C tracker puts a blank before every
endpoint, the C++ tracker between them; `Padded` covers both.  `receiveGetfile_padded` says what the client
makes of such a line, `handleRequest_getfile` which endpoints the C tracker puts in it.
-/

namespace Raiezau
namespace JavaClient

open CUtil Text Machine Assoc TrackerM

/-! ## Endpoints -/

/-- A dotted address and a port. -/
structure Endpoint where
  ip : CString
  port : Nat
  ip_ne_nil : ip ≠ []
  dotted : ∀ c ∈ ip, c.isDigit = true ∨ c = '.'
  port_lt : port < 2 ^ 16
  deriving DecidableEq

namespace Endpoint

variable {e e' : Endpoint}

def text (e : Endpoint) : CString := e.ip ++ ':' :: decimal e.port

theorem colon_not_mem_ip (e : Endpoint) : ':' ∉ e.ip := by
  intro h
  rcases e.dotted _ h with hdigit | hdot
  · cases hdigit
  · exact absurd hdot (by decide)

theorem colon_not_mem_port (e : Endpoint) : ':' ∉ decimal e.port := by
  intro h
  have hdigit := isDigit_of_mem_decimal h
  cases hdigit

theorem plainWord (e : Endpoint) : PlainWord e.text := by
  refine ⟨by simp [text], fun c hc => ?_⟩
  rcases List.mem_append.1 hc with hip | hport
  · rcases e.dotted c hip with hdigit | rfl
    · exact ⟨isspace_of_isDigit hdigit, isLineEnd_of_isDigit hdigit⟩
    · decide
  · rcases List.mem_cons.1 hport with rfl | hport
    · decide
    · exact (plainWord_decimal e.port).2 c hport

theorem splitOn_text (e : Endpoint) : e.text.splitOn ':' = [e.ip, decimal e.port] := by
  have hip : ∀ c ∈ e.ip, (c == ':') = false := by
    intro c hc
    rw [beq_eq_false_iff_ne]
    rintro rfl
    exact e.colon_not_mem_ip hc
  have hport : ∀ c ∈ decimal e.port, (c == ':') = false := by
    intro c hc
    rw [beq_eq_false_iff_ne]
    rintro rfl
    exact e.colon_not_mem_port hc
  calc
    e.text.splitOn ':' = e.ip :: (decimal e.port).splitOnP (· == ':') :=
      List.splitOnP_append_cons_of_forall_mem hip ':' rfl _
    _ = [e.ip, decimal e.port] := by rw [List.splitOnP_eq_singleton hport]

theorem text_injective : Function.Injective text := by
  intro e e' h
  have hsplit : [e.ip, decimal e.port] = [e'.ip, decimal e'.port] := by
    rw [← splitOn_text, ← splitOn_text, h]
  obtain ⟨hip, hports⟩ := List.cons.inj hsplit
  have hport : e.port = e'.port := by
    have hread := congrArg (fun s => Nat.ofDigitChars 10 s 0) (List.cons.inj hports).1
    simpa only [decimal, Nat.ofDigitChars_ten_toDigits] using hread
  cases e
  cases e'
  obtain rfl := hip
  obtain rfl := hport
  rfl

theorem splitColon_text (e : Endpoint) : splitColon e.text = [e.ip, decimal e.port] := by
  have hcolon : ':' ∈ e.text := by simp [text]
  rw [splitColon, if_pos hcolon, splitOn_text]
  refine dropTrailingEmpty_of_forall fun w hw => ?_
  rcases List.mem_cons.1 hw with rfl | hw
  · exact e.ip_ne_nil
  · obtain rfl := List.mem_singleton.1 hw
    exact decimal_ne_nil _

/-- The peer at an endpoint. -/
def peer (e : Endpoint) (bm : BufferMap) : FilePeer := ⟨e.ip, e.port, bm⟩

/-- The name under which a file keeps the peer. -/
def name (e : Endpoint) : CString := "[peer: ".toList ++ (e.text ++ "]".toList)

theorem toString_peer (e : Endpoint) (bm : BufferMap) : (e.peer bm).toString = e.name := by
  have hport : integerToString (e.peer bm).port = decimal e.port :=
    integerToString_of_nonneg (Int.natCast_nonneg _)
  have hassoc : ∀ p q : CString, p ++ e.ip ++ ':' :: (decimal e.port ++ q) = p ++ (e.text ++ q) := by
    intro p q
    simp [text]
  calc
    (e.peer bm).toString = "[peer: ".toList ++ e.ip ++ ':' :: (decimal e.port ++ "]".toList) := by
      rw [← hport]
      rfl
    _ = e.name := hassoc _ _

theorem name_injective : Function.Injective name := by
  intro e e' h
  have hsame : "[peer: ".toList ++ (e.text ++ "]".toList) = "[peer: ".toList ++ (e'.text ++ "]".toList) := h
  exact text_injective (List.append_cancel_right (List.append_cancel_left hsame))

theorem newFilePeer_text {file : File} {bm : BufferMap} (e : Endpoint)
    (hbm : BufferMap.ofFile file.length file.pieceSize file.seeded = .ok bm) :
    newFilePeer e.text file = .ok (e.peer bm) := by
  have hport : parseInt (decimal e.port) = .ok (e.port : Int) :=
    parseInt_decimal (lt_trans e.port_lt (by decide))
  unfold newFilePeer
  rw [splitColon_text]
  dsimp only
  rw [hport, ok_bind, hbm]
  rfl

end Endpoint

/-! ## The text of a reply -/

/-- A run of blanks inside a line. -/
def Gap (s : CString) : Prop := ∀ c ∈ s, isBlank c = true ∧ isLineEnd c = false

/-- Endpoints with the blanks before the first one and behind each. -/
def peersBody (pad : CString) (l : List (Endpoint × CString)) : CString :=
  pad ++ l.flatMap fun p => p.1.text ++ p.2

structure Padded (pad : CString) (l : List (Endpoint × CString)) : Prop where
  pad : Gap pad
  gaps : ∀ p ∈ l, Gap p.2
  between : ∀ p ∈ l.dropLast, p.2 ≠ []

def peersLine (key body : CString) : CString := "peers ".toList ++ key ++ " [".toList ++ body ++ "]".toList

variable {f : PeerFile} {bm : BufferMap} {pad : CString} {l : List (Endpoint × CString)}

theorem Padded.no_lineEnd (hp : Padded pad l) : ∀ c ∈ peersBody pad l, isLineEnd c = false := by
  intro c hc
  rcases List.mem_append.1 hc with hpad | hrest
  · exact (hp.pad c hpad).2
  · obtain ⟨p, hmem, hc⟩ := List.mem_flatMap.1 hrest
    rcases List.mem_append.1 hc with htext | hgap
    · exact (p.1.plainWord.2 c htext).2
    · exact (hp.gaps p hmem c hgap).2

theorem Padded.words (hp : Padded pad l) : words isBlank (peersBody pad l) = l.map fun p => p.1.text := by
  have htexts := @words_flatMap_gaps _ isBlank (l.map fun p => (p.1.text, p.2)) ?_ ?_ ?_
  · rw [peersBody, words_seps_append fun c hc => (hp.pad c hc).1]
    rw [List.flatMap_map, List.map_map] at htexts
    exact htexts
  · intro q hq
    obtain ⟨p, -, rfl⟩ := List.mem_map.1 hq
    exact ⟨p.1.plainWord.1, fun c hc => (p.1.plainWord.2 c hc).1⟩
  · intro q hq
    obtain ⟨p, hmem, rfl⟩ := List.mem_map.1 hq
    exact fun c hc => (hp.gaps p hmem c hc).1
  · intro q hq
    rw [← List.map_dropLast] at hq
    obtain ⟨p, hmem, rfl⟩ := List.mem_map.1 hq
    exact hp.between p hmem

/-! ## Receiving it -/

/-- The file with the peers at some endpoints. -/
def PeerFile.addPeers (f : PeerFile) (bm : BufferMap) (es : List Endpoint) : PeerFile :=
  es.foldl (fun f e => f.addPeer (e.peer bm)) f

theorem PeerFile.addPeers_eq (f : PeerFile) (bm : BufferMap) (es : List Endpoint) :
    f.addPeers bm es =
      { f with peers := es.foldl (fun t e => t.insertNew e.name (e.peer bm)) f.peers } := by
  -- An endpoint that is known already is passed over.
  induction es generalizing f with
  | nil => rfl
  | cons e es ih =>
      have hadd : f.addPeer (e.peer bm) = { f with peers := f.peers.insertNew e.name (e.peer bm) } := by
        rw [PeerFile.addPeer, e.toString_peer]
      calc
        f.addPeers bm (e :: es) = (f.addPeer (e.peer bm)).addPeers bm es := rfl
        _ = _ := by rw [ih, hadd, List.foldl_cons]

theorem parseGetfilePeers_spec (hbm : BufferMap.ofFile f.file.length f.file.pieceSize f.file.seeded = .ok bm)
    (es : List Endpoint) :
    Transfers (parseGetfilePeers (es.map Endpoint.text)) f [] (.ok ()) [] (f.addPeers bm es) := by
  induction es generalizing f with
  | nil => exact Transfers.pure ()
  | cons e es ih =>
      have hrest := ih (f := f.addPeer (e.peer bm)) hbm
      refine Transfers.getState.bind_last ?_
      dsimp only
      rw [e.newFilePeer_text hbm]
      exact Transfers.setState.bind_last hrest

/-- What a list of endpoints adds to the peers of a file. -/
def Adds (es : List Endpoint) (f f' : PeerFile) : Prop :=
  f'.file = f.file ∧ ∃ (bm : BufferMap) (new : List Endpoint),
    BufferMap.ofFile f.file.length f.file.pieceSize f.file.seeded = .ok bm ∧
    new.Nodup ∧ (∀ e, e ∈ new ↔ e ∈ es ∧ f.peers.lookup e.name = none) ∧
    f'.peers = f.peers ++ new.map fun e => (e.name, e.peer bm)

theorem adds_addPeers (hbm : BufferMap.ofFile f.file.length f.file.pieceSize f.file.seeded = .ok bm)
    (es : List Endpoint) : Adds es f (f.addPeers bm es) := by
  obtain ⟨new, hnodup, hmem, hfold⟩ :=
    Table.foldl_insertNew Endpoint.name_injective (fun e => e.peer bm) es f.peers
  rw [PeerFile.addPeers_eq]
  exact ⟨rfl, bm, new, hbm, hnodup, hmem, hfold⟩

/-- An empty list is reported as such; any other one adds the peers that are not there yet. -/
def Receives (f : PeerFile) (line : CString) (es : List Endpoint) : Prop :=
  if es = [] then Transfers receiveGetfile f [line] (.error .noPeer) [] f
  else ∃ f', Transfers receiveGetfile f [line] (.ok ()) [] f' ∧ Adds es f f'

theorem receives_padded (hkey : IsKey f.file.key) (hbuilt : f.file.Built) (hp : Padded pad l) :
    Receives f (peersLine f.file.key (peersBody pad l)) (l.map Prod.fst) := by
  have hne : f.file.key ≠ [] := by
    intro hnil
    have hlen := hkey.1
    rw [hnil] at hlen
    cases hlen
  have hmatch : PatternMatcher.getfile.getMatcher (peersLine f.file.key (peersBody pad l)) =
      .ok [f.file.key, (peersBody pad l).dropWhile isBlank] :=
    getfile_getMatcher hne hkey.2 hp.no_lineEnd
  have hwords : words isBlank ((peersBody pad l).dropWhile isBlank) = l.map fun p => p.1.text := by
    rw [words_dropWhile, hp.words]
  have hisKey : f.isKey (group [f.file.key, (peersBody pad l).dropWhile isBlank] 0) := rfl
  unfold Receives
  split
  · next hnil =>
      obtain rfl : l = [] := List.map_eq_nil_iff.1 hnil
      have hempty : PatternMatcher.empty.Matches
          (group [f.file.key, (peersBody pad []).dropWhile isBlank] 1) := by
        refine empty_matches_iff.2 fun c hc => (hp.pad c ?_).1
        have hsub : c ∈ (peersBody pad []) := (List.dropWhile_suffix isBlank).subset hc
        simpa [peersBody] using hsub
      refine (receiveAndGetMatcher_spec hmatch).bind_last (Transfers.getState.bind_last ?_)
      dsimp only
      rw [if_neg (not_not.2 hisKey), if_pos hempty]
      exact (Transfers.throw _).bind_error
  · next hne' =>
      obtain ⟨p, t, rfl⟩ := List.exists_cons_of_ne_nil (mt (congrArg (List.map Prod.fst)) hne')
      obtain ⟨bm, hbm, -⟩ := hbuilt
      have hbody : (peersBody pad (p :: t)).dropWhile isBlank ≠ [] := by
        intro hnil
        rw [hnil] at hwords
        cases hwords
      have hhead : ∀ c ∈ ((peersBody pad (p :: t)).dropWhile isBlank).head?, isBlank c = false := by
        obtain ⟨c, s, hc⟩ := List.exists_cons_of_ne_nil hbody
        rw [hc]
        intro d hd
        obtain rfl : c = d := by simpa using hd
        exact not_sep_of_dropWhile hc
      have hempty : ¬ PatternMatcher.empty.Matches
          (group [f.file.key, (peersBody pad (p :: t)).dropWhile isBlank] 1) := by
        intro hm
        obtain ⟨c, s, hc⟩ := List.exists_cons_of_ne_nil hbody
        have hblank := empty_matches_iff.1 hm c (by simp [group, hc])
        rw [hhead c (by rw [hc]; rfl)] at hblank
        cases hblank
      have hsplit : splitBlanks (group [f.file.key, (peersBody pad (p :: t)).dropWhile isBlank] 1) =
          ((p :: t).map Prod.fst).map Endpoint.text := by
        rw [List.map_map]
        exact (splitBlanks_eq_words hbody hhead).trans hwords
      refine ⟨_, ?_, adds_addPeers hbm _⟩
      refine (receiveAndGetMatcher_spec hmatch).bind_last (Transfers.getState.bind_last ?_)
      dsimp only
      rw [if_neg (not_not.2 hisKey), if_neg hempty, hsplit]
      exact parseGetfilePeers_spec hbm _

/-! ## The C tracker's replies -/

open CTracker (Tracker TrackerRun TrackerHistory)

variable {st : Tracker} {h : TrackerHistory} {c : Memory.Addr} {key : CString}

/-- The endpoint of an address and a listening port. -/
def Endpoint.ofAddr (a : CTracker.InAddr) {port : Nat} (hport : port < 2 ^ 16) : Endpoint where
  ip := CTracker.ipStringify a
  port := port
  ip_ne_nil := List.append_ne_nil_of_left_ne_nil (decimal_ne_nil _) _
  dotted := CTracker.dotted_ipStringify a
  port_lt := hport

theorem declaration_port_lt {req : CString} {d : CTracker.Declaration} {port : Nat}
    (hd : CTracker.declaration req = some d) (hport : d.port = some port) : port < 2 ^ 16 := by
  unfold CTracker.declaration at hd
  split at hd
  · cases hd
  · next reqName reqValue _ =>
      split at hd
      · obtain ⟨pm, -, rfl⟩ := Option.map_eq_some_iff.1 hd
        obtain rfl := Option.some.inj hport
        unfold toUInt16
        omega
      · obtain ⟨pm, -, rfl⟩ := Option.map_eq_some_iff.1 hd
        cases hport
      · cases hd

/-- Endpoint keys are endpoints. -/
def EndpointKeys (st : Tracker) : Prop :=
  ∀ {c cl key}, st.client c = some cl → cl.listenAddrKey = some key → ∃ e : Endpoint, key = e.text

theorem endpointKeys_of_run (hrun : TrackerRun h st) : EndpointKeys st := by
  refine hrun.invariant_history (I := fun _ st => EndpointKeys st) ?_ ?_
  · intro c cl key hc
    cases hc
  · intro h st ev st' hr hkeys hs c cl key hc hkey
    -- A key is only set by an announce, and from a port of sixteen bits.
    cases hs.cases (CTracker.wellFormed_of_run hr) with
    | idle _ hidle =>
        rw [hidle] at hc
        exact hkeys hc hkey
    | joins _ hj =>
        rcases hj.client_cases hc with hold | ⟨-, -, hnone⟩
        · exact hkeys hold hkey
        · rw [hnone] at hkey
          cases hkey
    | @declares e req d cle cle' _ hreq hd =>
        by_cases hce : c = e
        · subst hce
          obtain rfl := Option.some.inj (hd.after.symm.trans hc)
          rw [hd.endpoint, CTracker.Declaration.endpoint] at hkey
          split at hkey
          · next port hport =>
              obtain rfl := Option.some.inj hkey
              exact ⟨Endpoint.ofAddr cle.addr.sinAddr (declaration_port_lt hreq hport), rfl⟩
          · exact hkeys hd.before hkey
        · exact hkeys ((hd.others hce).symm.trans hc) hkey
    | leaves _ hl => exact hkeys (hl.client_cases hc).2 hkey

/-- The clients in the table of the file registered under a key, but for the requester. -/
def peersOf (st : Tracker) (c : Memory.Addr) (key : CString) : List Memory.Addr :=
  match (CTracker.fileGetByKey st key).bind st.file with
  | none => []
  | some x => x.clients.values.filter (fun a => a ≠ c)

theorem holds_of_mem_peersOf {a : Memory.Addr} (ha : a ∈ peersOf st c key) : ∃ f k, st.Holds f k a := by
  unfold peersOf at ha
  split at ha
  · cases ha
  · next x hx =>
      obtain ⟨f, -, hf⟩ := Option.bind_eq_some_iff.1 hx
      obtain ⟨p, hp, rfl⟩ := List.mem_map.1 (List.mem_filter.1 ha).1
      exact ⟨f, p.1, x, hf, hp⟩

/-- The client is announced under the endpoint. -/
def Listens (st : Tracker) (a : Memory.Addr) (e : Endpoint) : Prop :=
  ∃ cl, st.client a = some cl ∧ cl.listenAddrKey = some e.text

/-- A blank before every endpoint. -/
def blankBefore (es : List Endpoint) : CString := es.flatMap fun e => ' ' :: e.text

theorem peerStringList_eq (hkeys : EndpointKeys st) (cli : HashTable Memory.Addr) (acc s : CString) :
    cli.foldlM (fun output e =>
      if e.2 = c then pure output
      else do
        let cl ← st.client e.2
        let key ← cl.listenAddrKey
        pure (output ++ ' ' :: key)) acc = some s ↔
      ∃ es, List.Forall₂ (Listens st) (cli.values.filter (fun a => a ≠ c)) es ∧
        s = acc ++ blankBefore es := by
  induction cli generalizing acc with
  | nil => simp [Table.values, blankBefore, eq_comm]
  | cons e cli ih =>
      obtain ⟨k, a⟩ := e
      have hvalues : Table.values ((k, a) :: cli) = a :: Table.values cli := rfl
      rw [List.foldlM_cons, hvalues]
      by_cases hac : a = c
      · rw [if_pos hac, List.filter_cons_of_neg (by simp [hac])]
        exact ih acc
      · rw [if_neg hac, List.filter_cons_of_pos (by simp [hac])]
        simp only [Option.bind_eq_bind, Option.bind_eq_some_iff, List.forall₂_cons_left_iff]
        constructor
        · rintro ⟨out, ⟨cl, hcl, key, hkey, hpure⟩, hrest⟩
          obtain rfl := Option.some.inj hpure
          obtain ⟨es, hes, rfl⟩ := (ih _).1 hrest
          obtain ⟨e, rfl⟩ := hkeys hcl hkey
          exact ⟨e :: es, ⟨e, es, ⟨cl, hcl, hkey⟩, hes, rfl⟩, by simp [blankBefore]⟩
        · rintro ⟨_, ⟨e, es, ⟨cl, hcl, hkey⟩, hes, rfl⟩, rfl⟩
          refine ⟨acc ++ ' ' :: e.text, ⟨cl, hcl, e.text, hkey, rfl⟩, (ih _).2 ⟨es, hes, ?_⟩⟩
          simp [blankBefore]

theorem protGetfile_eq_some (hrun : TrackerRun h st) (hkey : IsKey key) {o : CTracker.Outcome} :
    CTracker.protGetfile st c key = some o ↔
      ∃ es, List.Forall₂ (Listens st) (peersOf st c key) es ∧
        o = ⟨st, 0, ["peers ".toList ++ key ++ " [".toList ++ blankBefore es ++ "]\n".toList]⟩ := by
  have htrim : CTracker.strTrimProtGetfile key = key := by
    refine List.takeWhile_eq_self_iff.2 fun ch hch => decide_eq_true ?_
    rintro rfl
    have hdigit := hkey.2 _ hch
    cases hdigit
  have hlen : ¬ key.length ≠ CTracker.keyhashStrsize := not_not.2 hkey.1
  unfold CTracker.protGetfile
  rw [htrim]
  dsimp only
  rw [if_neg hlen, peersOf]
  -- The reply to an unknown key has an empty list.
  cases hf : CTracker.fileGetByKey st key with
  | none =>
      refine ⟨fun ho => ⟨[], .nil, (Option.some.inj ho).symm⟩, ?_⟩
      rintro ⟨es, hes, rfl⟩
      obtain rfl := List.forall₂_nil_left_iff.1 hes
      rfl
  | some f =>
      obtain ⟨x, hx, -⟩ := (CTracker.wellFormed_of_run hrun).file_of_key hf
      simp only [Option.bind_eq_bind, Option.bind_some, hx]
      change (CTracker.protGetfileBuildPeerStringList st c x.clients).bind _ = some o ↔ _
      rw [Option.bind_eq_some_iff]
      constructor
      · rintro ⟨s, hs, hpure⟩
        obtain ⟨es, hes, rfl⟩ := (peerStringList_eq (endpointKeys_of_run hrun) _ _ _).1 hs
        exact ⟨es, hes, (Option.some.inj hpure).symm⟩
      · rintro ⟨es, hes, rfl⟩
        exact ⟨_, (peerStringList_eq (endpointKeys_of_run hrun) _ _ _).2 ⟨es, hes, rfl⟩, rfl⟩

theorem peersLine_newline (key body : CString) :
    peersLine key body ++ ['\n'] = "peers ".toList ++ key ++ " [".toList ++ body ++ "]\n".toList := by
  have hend : "]".toList ++ ['\n'] = "]\n".toList := by decide
  calc
    peersLine key body ++ ['\n']
        = "peers ".toList ++ key ++ " [".toList ++ body ++ ("]".toList ++ ['\n']) := List.append_assoc _ _ _
    _ = "peers ".toList ++ key ++ " [".toList ++ body ++ "]\n".toList := by rw [hend]

/-- The reply to a request for the peers of a key. -/
theorem handleRequest_getfile (hrun : TrackerRun h st) (hkey : IsKey key) {st' : Tracker} {out : List CString} :
    CTracker.handleRequest st c ("getfile ".toList ++ key) = some (st', out) ↔
      st' = st ∧ ∃ es, List.Forall₂ (Listens st) (peersOf st c key) es ∧
        out = [peersLine key (blankBefore es) ++ ['\n']] := by
  have hhead : ∀ ch ∈ key.head?, isspace ch = false := by
    intro ch hch
    exact isBlank_of_isHexDigit (hkey.2 ch (List.mem_of_mem_head? hch))
  rw [CTracker.handleRequest_getfile_word hhead, Option.map_eq_some_iff]
  constructor
  · rintro ⟨o, ho, hpair⟩
    obtain ⟨es, hes, rfl⟩ := (protGetfile_eq_some hrun hkey).1 ho
    obtain ⟨rfl, rfl⟩ := Prod.mk.inj hpair
    exact ⟨rfl, es, hes, by rw [peersLine_newline]; rfl⟩
  · rintro ⟨rfl, es, hes, rfl⟩
    refine ⟨_, (protGetfile_eq_some hrun hkey).2 ⟨es, hes, rfl⟩, ?_⟩
    rw [peersLine_newline]
    rfl

/-- The gaps behind the endpoints when there is a blank before each. -/
def spaced : List Endpoint → List (Endpoint × CString)
  | [] => []
  | [e] => [(e, [])]
  | e :: e' :: es => (e, [' ']) :: spaced (e' :: es)

/-- The C tracker's list is a padded one. -/
theorem blankBefore_padded (es : List Endpoint) :
    ∃ pad l, Padded pad l ∧ l.map Prod.fst = es ∧ blankBefore es = peersBody pad l := by
  have hblank : Gap [' '] := by
    unfold Gap
    decide
  have hspaced : ∀ e es, Padded [' '] (spaced (e :: es)) ∧ (spaced (e :: es)).map Prod.fst = e :: es ∧
      blankBefore (e :: es) = peersBody [' '] (spaced (e :: es)) := by
    intro e es
    -- The blank before an endpoint is the gap of the one in front of it.
    induction es generalizing e with
    | nil =>
        refine ⟨⟨hblank, ?_, ?_⟩, rfl, by simp [blankBefore, peersBody, spaced]⟩
        · intro p hp
          obtain rfl := List.mem_singleton.1 hp
          exact fun c hc => (by cases hc)
        · intro p hp
          cases hp
    | cons e' es ih =>
        obtain ⟨hp, hmap, hbody⟩ := ih e'
        refine ⟨⟨hblank, ?_, ?_⟩, by rw [spaced, List.map_cons, hmap], ?_⟩
        · intro p hmem
          rcases List.mem_cons.1 hmem with rfl | hmem
          · exact hblank
          · exact hp.gaps p hmem
        · intro p hmem
          have hne : spaced (e' :: es) ≠ [] := by
            intro hnil
            rw [hnil] at hmap
            cases hmap
          rw [spaced, List.dropLast_cons_of_ne_nil hne] at hmem
          rcases List.mem_cons.1 hmem with rfl | hmem
          · exact List.cons_ne_nil _ _
          · exact hp.between p hmem
        · have hrest : blankBefore (e' :: es) = ' ' :: (spaced (e' :: es)).flatMap fun p => p.1.text ++ p.2 :=
            hbody
          calc
            blankBefore (e :: e' :: es) = ' ' :: e.text ++ blankBefore (e' :: es) := rfl
            _ = peersBody [' '] (spaced (e :: e' :: es)) := by
              rw [hrest]
              simp [peersBody, spaced]
  cases es with
  | nil => exact ⟨[], [], ⟨fun c hc => (by cases hc), fun p hp => (by cases hp), fun p hp => (by cases hp)⟩, rfl, rfl⟩
  | cons e es =>
      obtain ⟨hp, hmap, hbody⟩ := hspaced e es
      exact ⟨[' '], spaced (e :: es), hp, hmap, hbody⟩

/-- Every padded list is received as the peers at its endpoints; the C tracker's reply is such a list, of the
keys of the clients in the table, and is given whenever these clients are there. -/
theorem peersReply_roundTrip :
    (∀ {f : PeerFile} {pad : CString} {l : List (Endpoint × CString)}, IsKey f.file.key → f.file.Built →
      Padded pad l → Receives f (peersLine f.file.key (peersBody pad l)) (l.map Prod.fst)) ∧
    ∀ {h : TrackerHistory} {st : Tracker} {c : Memory.Addr} {key : CString}, TrackerRun h st → IsKey key →
      (∀ st' out, CTracker.handleRequest st c ("getfile ".toList ++ key) = some (st', out) →
        st' = st ∧ ∃ pad l, Padded pad l ∧ out = [peersLine key (peersBody pad l) ++ ['\n']] ∧
          List.Forall₂ (Listens st) (peersOf st c key) (l.map Prod.fst)) ∧
      ((∀ a ∈ peersOf st c key, ∃ cl, st.client a = some cl) →
        CTracker.handleRequest st c ("getfile ".toList ++ key) ≠ none) := by
  refine ⟨receives_padded, fun {h st c key} hrun hkey => ⟨fun st' out hreq => ?_, fun hlive => ?_⟩⟩
  · obtain ⟨rfl, es, hes, rfl⟩ := (handleRequest_getfile hrun hkey).1 hreq
    obtain ⟨pad, l, hp, rfl, hbody⟩ := blankBefore_padded es
    exact ⟨rfl, pad, l, hp, by rw [hbody], hes⟩
  · have hlistens : ∀ a ∈ peersOf st c key, ∃ e, Listens st a e := by
      intro a ha
      obtain ⟨cl, hcl⟩ := hlive a ha
      obtain ⟨f, k, hholds⟩ := holds_of_mem_peersOf ha
      obtain ⟨key, hkey⟩ := Option.ne_none_iff_exists'.1 ((CTracker.wellFormed_of_run hrun).endpoint hholds hcl)
      obtain ⟨e, rfl⟩ := endpointKeys_of_run hrun hcl hkey
      exact ⟨e, cl, hcl, hkey⟩
    obtain ⟨es, hes⟩ := exists_forall₂ hlistens
    rw [(handleRequest_getfile hrun hkey).2 ⟨rfl, es, hes, rfl⟩]
    exact Option.some_ne_none _

/-- An endpoint on the local host. -/
def localEndpoint (port : Nat) (hport : port < 2 ^ 16) : Endpoint := Endpoint.ofAddr CTracker.loopback hport

theorem peersReply_roundTrip_film :
    Receives ⟨sharedFile false, []⟩
      (peersLine sharedKey (peersBody [] [(localEndpoint 6881 (by decide), [' ']),
        (localEndpoint 0 (by decide), [])]))
      [localEndpoint 6881 (by decide), localEndpoint 0 (by decide)] ∧
    ∃ h st st' pad l, TrackerRun h st ∧ peersOf st 1 CTracker.filmKey = [0] ∧ Padded pad l ∧
      CTracker.handleRequest st 1 ("getfile ".toList ++ CTracker.filmKey) =
        some (st', [peersLine CTracker.filmKey (peersBody pad l) ++ ['\n']]) ∧
      List.Forall₂ (Listens st) [0] (l.map Prod.fst) := by
  have hfilm : IsKey CTracker.filmKey := by
    unfold IsKey
    decide
  have hshared : IsKey sharedKey := by
    unfold IsKey sharedKey
    decide
  constructor
  · refine peersReply_roundTrip.1 (f := ⟨sharedFile false, []⟩) (l := [(_, [' ']), (_, [])]) hshared
      ⟨_, rfl, rfl⟩ ⟨?_, ?_, ?_⟩
    · exact fun c hc => (by cases hc)
    · intro p hp
      unfold Gap
      rcases List.mem_cons.1 hp with rfl | hp
      · decide
      · obtain rfl := List.mem_singleton.1 hp
        decide
    · intro p hp
      obtain rfl := List.mem_singleton.1 hp
      exact List.cons_ne_nil _ _
  · obtain ⟨h, st, hrun, hpeers, hlive⟩ := CTracker.exists_run_of_replay
      [.connect 7 ⟨CTracker.loopback, 4000⟩, .request 0 (CTracker.announceFilm "6881".toList),
        .connect 8 ⟨CTracker.loopback, 4001⟩]
      (P := fun _ st => peersOf st 1 CTracker.filmKey = [0] ∧ (st.client 0).isSome = true) (by decide +kernel)
    have hround := peersReply_roundTrip.2 (c := 1) hrun hfilm
    have hanswers := hround.2 (by
      intro a ha
      rw [hpeers] at ha
      obtain rfl := List.mem_singleton.1 ha
      exact Option.isSome_iff_exists.1 hlive)
    obtain ⟨⟨st', out⟩, hreq⟩ := Option.ne_none_iff_exists'.1 hanswers
    obtain ⟨-, pad, l, hp, rfl, hes⟩ := hround.1 _ _ hreq
    rw [hpeers] at hes
    exact ⟨h, st, st', pad, l, hrun, hpeers, hp, hreq, hes⟩

end JavaClient
end Raiezau
