import Raiezau.CTracker.Announce
import Raiezau.CppTracker.Faults
import Raiezau.CppTracker.Grammar
import Raiezau.JavaClient.PeersReply
import Raiezau.Trackers.Getfile

/-!
# Discovery — how Java clients find each other through the C++ tracker

One client announces its files, another asks for a key and takes the peers from the reply.  The announce is read as it
was meant (`declaredOf_announce`), the tracker keeps it (`CppTracker.bookOf`), and the reply is what the book has
(`getfile_received_iff`).  So a client that has announced a file is found, as long as nobody announced the hash with
other sizes before.
-/

namespace Raiezau
namespace Trackers

open CUtil Memory Text Machine
open CppTracker (Book Left bookOf TrackerHistory TrackerRun Clause Keyword Reading Ahead Blank Ends IsWord PortOk
  declaredOf listenPort listenedPort tokens entries handleLine)
open CTracker (FileOk WordOk seedTokens leechTokens seedText leechText)
open JavaClient (doAnnounce doGetfile Endpoint PeerFile Padded Receives IsKey peersLine peersBody)

/-! ## The announce -/

section Announce

variable {files : List JavaClient.File} {f : JavaClient.File} {port : Nat} {line : CString}

/-- The announce of a client as the tracker takes it. -/
def announceReading (files : List JavaClient.File) (port : Nat) : Reading :=
  { before := [' ']
    first := ⟨.listen, [' '], decimal port⟩
    between := [' ']
    second := ⟨.seed, [' '], seedText files⟩
    between' := [' ']
    last := .whole ⟨.leech, [' '], leechText files⟩ [] }

/-- The entry of a seeded file. -/
def entryOf (f : JavaClient.File) : CppTracker.Entry := ⟨f.length.toNat, f.pieceSize.toNat, f.key⟩

theorem text_announceReading (files : List JavaClient.File) (port : Nat) :
    (announceReading files port).text ++ ['\n'] =
      ' ' :: CTracker.announceValue (decimal port) (seedText files) (leechText files) := by
  unfold announceReading CTracker.announceValue
  generalize decimal port = P
  generalize seedText files = S
  generalize leechText files = L
  have hlisten : "listen ".toList = CppTracker.listenKeyword ++ [' '] := rfl
  have hseed : "seed [".toList = CppTracker.seedKeyword ++ [' ', '['] := rfl
  have hleech : " leech [".toList = ' ' :: (CppTracker.leechKeyword ++ [' ', '[']) := rfl
  simp [Reading.text, Reading.atFirst, Reading.atSecond, Ahead.text, Ahead.tail, Ahead.keyword,
    CppTracker.ClauseText.body, Keyword.text, hlisten, hseed, hleech, -String.toList_ofList]

theorem line_eq (hline : doAnnounce files port = line ++ ['\n']) :
    line = "announce".toList ++ (announceReading files port).text := by
  have htext : line ++ ['\n'] = "announce".toList ++ (announceReading files port).text ++ ['\n'] := by
    rw [← hline, CTracker.doAnnounce_eq, List.append_assoc, text_announceReading]
  exact List.append_cancel_right htext

theorem tokens_words {ws : List CString} (hws : ∀ w ∈ ws, WordOk w) : tokens (ws.flatMap fun w => w ++ [' ']) = ws := by
  rw [CppTracker.tokens_eq_words]
  refine words_flatMap_append (by decide) fun w hw => ⟨(hws w hw).1, fun c hc => decide_eq_false ?_⟩
  rintro rfl
  exact (hws w hw).no_space.2 hc

theorem isNumeral_decimal (n : Nat) : IsNumeral (decimal n) := ⟨decimal_ne_nil n, fun _ hc => isDigit_of_mem_decimal hc⟩

theorem length_seedTokens (files : List JavaClient.File) : (seedTokens files).length % 4 = 0 := by
  unfold seedTokens
  induction JavaClient.seededFiles files with
  | nil => rfl
  | cons f l ih =>
      have hfour : f.tokens.length = 4 := rfl
      rw [List.flatMap_cons, List.length_append, hfour]
      omega

theorem listenPort_decimal (hport : PortOk port) : listenPort (decimal port) = some port := by
  have hvalue : digitsValue (decimal port) = port := by
    have happend := digitsValue_decimal_append (n := port) (t := []) nofun
    rwa [List.append_nil] at happend
  rw [CppTracker.listenPort_numeral (isNumeral_decimal port), hvalue, if_pos hport]

theorem taken_announceReading (hok : ∀ f ∈ files, FileOk f) (hport : PortOk port) :
    (announceReading files port).Taken := by
  have hseed := FileOk.seedTokens hok
  have hleech := FileOk.leechTokens hok
  have hgap : ([' '] : CString) ≠ [] ∧ Ends [' '] := by decide
  have hblank : Blank [' '] := by decide
  have hopen : '[' ∉ ([' '] : CString) := by decide
  have hends : ∀ t : CString, Ends (' ' :: t) := by
    intro t c hc
    obtain rfl := Option.some.inj hc
    rfl
  have hword : IsWord (decimal port) :=
    ⟨decimal_ne_nil port, fun c hc => isspace_of_isDigit (isDigit_of_mem_decimal hc)⟩
  refine ⟨⟨hblank, hblank, hblank⟩, ⟨?_, ?_, ?_⟩, ?_, .refl _⟩
  · exact ⟨hgap.1, hgap.2, hblank, hword, hends _⟩
  · exact ⟨hgap.1, hgap.2, hopen, CTracker.bracket_not_mem_words hseed⟩
  · exact ⟨hgap.1, hgap.2, hopen, CTracker.bracket_not_mem_words hleech⟩
  · intro c hc
    have hc : c ∈ [Clause.listen (decimal port), .seed (seedText files), .leech (leechText files)] := hc
    rcases List.mem_cons.1 hc with rfl | hc
    · refine ⟨rfl, ?_⟩
      rw [listenPort_decimal hport]
      exact Option.some_ne_none port
    rcases List.mem_cons.1 hc with rfl | hc
    · intro _
      rw [seedText, tokens_words hseed]
      exact length_seedTokens files
    · obtain rfl := List.mem_singleton.1 hc
      trivial

/-- The announce is read as it was meant. -/
theorem declaredOf_announce (hok : ∀ f ∈ files, FileOk f) (hport : PortOk port)
    (hline : doAnnounce files port = line ++ ['\n']) :
    declaredOf line = some (true, [.listen (decimal port), .seed (seedText files), .leech (leechText files)]) := by
  have htaken := taken_announceReading hok hport
  have hword : (CppTracker.IStream.ofString line).readWord [] =
      (⟨(announceReading files port).text, true⟩, "announce".toList) := by
    have hannounce : IsWord "announce".toList := by decide
    have hends : Ends (announceReading files port).text := by
      intro c hc
      obtain rfl := Option.some.inj hc
      rfl
    have hnil : Blank [] := nofun
    rw [line_eq hline]
    exact CppTracker.IStream.readWord_word hnil hannounce hends []
  have hdispatch : CppTracker.dispatch line = some (.announce, ⟨(announceReading files port).text, true⟩) := by
    rw [CppTracker.dispatch, hword]
    rfl
  rw [declaredOf, hdispatch]
  exact congrArg (fun cls => some (true, cls)) htaken.declaredClauses_eq

theorem stoul_decimal {n : Nat} (hn : n < 2 ^ 64) : CppTracker.stoul (decimal n) = some n := by
  have hvalue : digitsValue (decimal n) = n := by
    have happend := digitsValue_decimal_append (n := n) (t := []) nofun
    rwa [List.append_nil] at happend
  rw [CppTracker.stoul_digits (decimal_ne_nil n) fun c hc => isDigit_of_mem_decimal hc, hvalue]
  exact if_neg (Nat.not_le.2 hn)

theorem entries_seedText (hok : ∀ f ∈ files, FileOk f) :
    entries (tokens (seedText files)) = (JavaClient.seededFiles files).map entryOf := by
  rw [seedText, tokens_words (FileOk.seedTokens hok)]
  have hall : ∀ f ∈ JavaClient.seededFiles files, FileOk f := fun f hf => hok f (List.mem_filter.1 hf).1
  unfold seedTokens
  generalize JavaClient.seededFiles files = l at hall
  induction l with
  | nil => rfl
  | cons f l ih =>
      obtain ⟨hf, hl⟩ := List.forall_mem_cons.1 hall
      have hlen := hf.length_lt
      have hpos := hf.pieceSize_pos
      have hpiece := hf.pieceSize_lt
      have htokens : f.tokens = [f.name, decimal f.length.toNat, decimal f.pieceSize.toNat, f.key] := by
        rw [JavaClient.File.tokens, JavaClient.integerToString_of_nonneg hf.length_nonneg,
          JavaClient.integerToString_of_nonneg (by omega)]
      rw [List.flatMap_cons, List.map_cons, ← ih hl, htokens]
      simp only [List.cons_append, List.nil_append, entries, stoul_decimal (show f.length.toNat < 2 ^ 64 by omega),
        stoul_decimal (show f.pieceSize.toNat < 2 ^ 64 by omega)]
      rfl

end Announce

/-! ## The reply -/

section Reply

variable {st : CppTracker.Tracker} {p : Addr} {q : CppTracker.Peer} {h : TrackerHistory} {f : PeerFile}

/-- The request for a key is answered with a line that the client takes for the peers of its file: they are at the
endpoints of those that the book lists, without the one that asks. -/
def Found (b : Book) (st : CppTracker.Tracker) (p : Addr) (f : PeerFile) : Prop :=
  ∃ request st' line es, doGetfile f.file = request ++ ['\n'] ∧
    handleLine st p request = some (st', some (line ++ ['\n'])) ∧ Receives f line es ∧
    ∀ e : Endpoint, e ∈ es ↔ ∃ l ∈ b.directory f.file.key, ∃ a ∈ l.peers, a ≠ p ∧
      ∃ r, st.peer a = some r ∧ e.text = r.toString

/-- Endpoints with a blank between them. -/
theorem exists_padded (es : List Endpoint) : ∃ l, Padded [] l ∧ l.map Prod.fst = es ∧
    peersBody [] l = [' '].intercalate (es.map Endpoint.text) := by
  induction es with
  | nil => exact ⟨[], ⟨List.forall_mem_nil _, List.forall_mem_nil _, List.forall_mem_nil _⟩, rfl, rfl⟩
  | cons e es ih =>
      obtain ⟨l, ⟨-, hgaps, hbetween⟩, rfl, hbody⟩ := ih
      have hgap : JavaClient.Gap [' '] := by
        intro c hc
        obtain rfl := List.mem_singleton.1 hc
        decide
      -- The last endpoint has nothing behind it.
      cases l with
      | nil =>
          refine ⟨[(e, [])], ⟨List.forall_mem_nil _, ?_, List.forall_mem_nil _⟩, rfl, by simp [peersBody]⟩
          exact List.forall_mem_singleton.2 (List.forall_mem_nil _)
      | cons y l =>
          refine ⟨(e, [' ']) :: y :: l, ⟨List.forall_mem_nil _, List.forall_mem_cons.2 ⟨hgap, hgaps⟩, ?_⟩, rfl, ?_⟩
          · rw [List.dropLast_cons_of_ne_nil (List.cons_ne_nil y l)]
            exact List.forall_mem_cons.2 ⟨List.cons_ne_nil _ _, hbetween⟩
          · have hbody : (y :: l).flatMap (fun x => x.1.text ++ x.2) =
                [' '].intercalate (y.1.text :: (l.map Prod.fst).map Endpoint.text) := hbody
            rw [List.map_cons, List.map_cons, List.map_cons, List.intercalate_cons_cons, ← hbody]
            exact List.append_assoc _ _ _ |>.symm

theorem exists_endpoint (hlt : q.listeningPort < 2 ^ 16) : ∃ e : Endpoint, q.toString = e.text :=
  ⟨Endpoint.ofAddr q.remoteIP hlt, rfl⟩

theorem doGetfile_eq (file : JavaClient.File) : doGetfile file = getfileRequest file.key ++ ['\n'] := rfl

/-- The reply is the line of some endpoints. -/
theorem peerListString_eq (hlt : ∀ {a r}, st.peer a = some r → r.listeningPort < 2 ^ 16) {x : CppTracker.File}
    {reply : CString} (h : CppTracker.peerListString st p x = some reply) : ∃ es : List Endpoint,
      reply = peersLine x.hash ([' '].intercalate (es.map Endpoint.text)) ++ ['\n'] ∧
      ∀ e : Endpoint, e ∈ es ↔ ∃ a ∈ x.peers, a ≠ p ∧ ∃ r, st.peer a = some r ∧ e.text = r.toString := by
  obtain ⟨ws, hws, h⟩ := Option.bind_eq_some_iff.1 h
  obtain rfl := Option.some.inj h
  have hall := forall₂_of_mapM hws
  have hmem : ∀ w, w ∈ ws ↔ ∃ a ∈ x.peers, a ≠ p ∧ ∃ r, st.peer a = some r ∧ w = r.toString := by
    intro w
    constructor
    · intro hw
      obtain ⟨a, ha, htext⟩ := exists_of_mem_left hall.flip hw
      obtain ⟨ha, hne⟩ := List.mem_filter.1 ha
      obtain ⟨r, hr, rfl⟩ := Option.map_eq_some_iff.1 htext
      exact ⟨a, ha, of_decide_eq_true hne, r, hr, rfl⟩
    · rintro ⟨a, ha, hne, r, hr, rfl⟩
      obtain ⟨w, hw, hr'⟩ := exists_of_mem_left hall (List.mem_filter.2 ⟨ha, decide_eq_true hne⟩)
      rw [hr, Option.map_some] at hr'
      exact Option.some.inj hr' ▸ hw
  obtain ⟨es, hes⟩ := exists_forall₂ (R := fun w (e : Endpoint) => w = e.text) (l := ws) fun w hw => by
    obtain ⟨a, -, -, r, hr, rfl⟩ := (hmem w).1 hw
    exact exists_endpoint (hlt hr)
  obtain rfl : ws = es.map Endpoint.text := by
    have heq : List.Forall₂ (· = ·) ws (es.map Endpoint.text) := List.forall₂_map_right_iff.2 hes
    rwa [List.forall₂_eq_eq_eq] at heq
  refine ⟨es, ?_, fun e => ?_⟩
  · exact (List.append_assoc _ "]".toList ['\n']).symm
  · rw [← hmem, List.mem_map_of_injective Endpoint.text_injective]

theorem found_of_listed (hrun : TrackerRun h st) (hq : st.peer p = some q) (hann : q.announced = true)
    (hkey : IsKey f.file.key) (hbuilt : f.file.Built) {l : CppTracker.Listing}
    (hl : (bookOf h).directory f.file.key = some l) (hall : ∀ a ∈ l.peers, a ≠ p → ¬ Left h a) :
    Found (bookOf h) st p f := by
  have hkeeps := CppTracker.keeps_bookOf hrun
  have hhere : ∀ a ∈ l.peers, a ≠ p → st.peer a ≠ none :=
    fun a ha hne => mt (CppTracker.gone_iff_left hrun hl ha).1 (hall a ha hne)
  have hline := handleLine_getfile f.file.key st p
  rw [handleGetfile_eq hkey hq hann] at hline
  rw [← hkeeps.directory] at hl
  obtain ⟨g, x, hget, hx, rfl⟩ := CppTracker.file_of_directory hl
  obtain ⟨y, hy, hhash⟩ := hkeeps.registry hget
  obtain rfl := Option.some.inj (hx.symm.trans hy)
  obtain ⟨reply, hlist⟩ := Option.isSome_iff_exists.1 (CppTracker.peerListString_isSome_iff.2 hhere)
  obtain ⟨es, rfl, hes⟩ := peerListString_eq hkeeps.port_lt hlist
  obtain ⟨l, hpadded, rfl, hbody⟩ := exists_padded es
  rw [hget, Option.bind_some, hx, Option.bind_some, hlist] at hline
  refine ⟨_, _, _, _, doGetfile_eq f.file, hline, ?_, fun e => (hes e).trans ?_⟩
  · rw [hhash, ← hbody]
    exact JavaClient.receives_padded hkey hbuilt hpadded
  · rw [← hkeeps.directory, hl]
    simp

theorem listed_of_found (hrun : TrackerRun h st) (hq : st.peer p = some q) (hann : q.announced = true)
    (hkey : IsKey f.file.key) (hfound : Found (bookOf h) st p f) :
    ∃ l, (bookOf h).directory f.file.key = some l ∧ ∀ a ∈ l.peers, a ≠ p → ¬ Left h a := by
  have hkeeps := CppTracker.keeps_bookOf hrun
  obtain ⟨request, st', line, es, hreq, hhandle, -⟩ := hfound
  obtain rfl := List.append_cancel_right ((doGetfile_eq f.file).symm.trans hreq)
  rw [handleLine_getfile, handleGetfile_eq hkey hq hann] at hhandle
  cases hget : (st.fileMap.get f.file.key).bind st.file with
  | none =>
      -- The map gives a null pointer for the file.
      rw [hget] at hhandle
      cases hhandle
  | some x =>
      obtain ⟨g, hg, hx⟩ := Option.bind_eq_some_iff.1 hget
      have hl := CppTracker.directory_of_get hg hx
      rw [hkeeps.directory] at hl
      refine ⟨_, hl, fun a ha hne => mt (CppTracker.gone_iff_left hrun hl ha).2 ?_⟩
      rw [hget, Option.bind_some] at hhandle
      cases hlist : CppTracker.peerListString st p x with
      | none =>
          rw [hlist] at hhandle
          cases hhandle
      | some reply => exact CppTracker.peerListString_isSome_iff.1 (Option.isSome_iff_exists.2 ⟨reply, hlist⟩) a ha hne

theorem getfile_received_iff (hrun : TrackerRun h st) (hq : st.peer p = some q) (hann : q.announced = true)
    (hkey : IsKey f.file.key) (hbuilt : f.file.Built) : Found (bookOf h) st p f ↔
      ∃ l, (bookOf h).directory f.file.key = some l ∧ ∀ a ∈ l.peers, a ≠ p → ¬ Left h a :=
  ⟨listed_of_found hrun hq hann hkey, fun ⟨_, hl, hall⟩ => found_of_listed hrun hq hann hkey hbuilt hl hall⟩

/-- A client that has the shared file, and one that has nothing yet. -/
def twoClients : List CppTracker.Event :=
  [.connect CTracker.loopback, .connect CTracker.loopback,
    .request 0 (doAnnounce [JavaClient.sharedFile true] 6881).dropLast, .request 1 (doAnnounce [] 6882).dropLast]

theorem exists_twoClients : ∃ h st q, TrackerRun h st ∧ st.peer 1 = some q ∧ q.announced = true ∧
    (∃ st₀, (st₀, .request 0 (doAnnounce [JavaClient.sharedFile true] 6881).dropLast) ∈ h ∧
      ∀ q₀ ∈ st₀.peer 0, q₀.announced = false) ∧
    (bookOf h).directory JavaClient.sharedKey = some ⟨5, 2, {0}⟩ ∧ ∀ a, ¬ Left h a := by
  obtain ⟨h, st, hrun, ⟨q, hq, hann⟩, ⟨⟨st₀, ev⟩, hmem, rfl, hfirst⟩, hfile, hstay⟩ :=
    CppTracker.exists_run_of_replay twoClients
      (P := fun h st => (∃ q ∈ st.peer 1, q.announced = true) ∧
        (∃ x ∈ h, x.2 = .request 0 (doAnnounce [JavaClient.sharedFile true] 6881).dropLast ∧
          ∀ q₀ ∈ x.1.peer 0, q₀.announced = false) ∧
        (st.fileMap.get JavaClient.sharedKey).bind st.file = some ⟨"f".toList, 5, 2, JavaClient.sharedKey, [0]⟩ ∧
        ∀ x ∈ h, x.2 ∈ twoClients)
      (by decide +kernel)
  have hnobody : ∀ a, .disconnect a ∉ twoClients := by
    intro a
    simp [twoClients]
  refine ⟨h, st, q, hrun, hq, hann, ⟨st₀, hmem, hfirst⟩, ?_, fun a ⟨x, hx, ha⟩ => hnobody a (ha ▸ hstay x hx)⟩
  rw [← (CppTracker.keeps_bookOf hrun).directory, CppTracker.Tracker.directory, hfile]
  simp

theorem isKey_sharedKey : IsKey JavaClient.sharedKey := by
  unfold IsKey JavaClient.sharedKey
  decide

theorem getfile_received_iff_twoClients : ∃ h st, TrackerRun h st ∧
    Found (bookOf h) st 1 ⟨JavaClient.sharedFile false, []⟩ := by
  obtain ⟨h, st, q, hrun, hq, hann, -, hdir, hstay⟩ := exists_twoClients
  refine ⟨h, st, hrun, (getfile_received_iff hrun hq hann isKey_sharedKey ⟨_, rfl, rfl⟩).2 ⟨_, hdir, ?_⟩⟩
  exact fun a _ _ => hstay a

end Reply

/-! ## From the announce to the reply -/

section Found

variable {files : List JavaClient.File} {f : JavaClient.File} {port : Nat} {line : CString} {b : Book} {e p : Addr}
  {st st₀ : CppTracker.Tracker} {q : CppTracker.Peer} {h : TrackerHistory}

theorem goesThrough_announce (hok : ∀ f ∈ files, FileOk f) (hport : PortOk port) :
    CppTracker.GoesThrough true [.listen (decimal port), .seed (seedText files), .leech (leechText files)] := by
  have htaken := taken_announceReading hok hport
  exact ⟨htaken.fine, (CppTracker.seen_all_iff _ _ _ _ _ _).2 htaken.keywords⟩

/-- A first announce is in the book, with the port and each seeded file. -/
theorem book_of_announce (hok : ∀ f ∈ files, FileOk f) (hport : PortOk port)
    (hline : doAnnounce files port = line ++ ['\n']) (hnew : b.ports e = none) (hf : f ∈ files)
    (hseeded : f.seeded = true) : (b.step (.request e line)).ports e = some port ∧
      ∃ l, (b.step (.request e line)).directory f.key = some l ∧
        (l.fileSize = f.length.toNat → l.pieceSize = f.pieceSize.toNat → e ∈ l.peers) := by
  have hgoes := goesThrough_announce hok hport
  have hread : (b.ports e).isSome = !true := by
    rw [hnew]
    rfl
  rw [CppTracker.Book.step_read (declaredOf_announce hok hport hline) hread, if_pos ⟨rfl, hgoes⟩,
    CppTracker.readBefore_of_fine hgoes.1]
  refine ⟨?_, ?_⟩
  · dsimp only
    rw [Function.update_self]
    exact listenPort_decimal hport
  · have hentry : entryOf f ∈ entries (tokens (seedText files)) := by
      rw [entries_seedText hok]
      exact List.mem_map_of_mem (List.mem_filter.2 ⟨hf, hseeded⟩)
    obtain ⟨l, hl, hlisted⟩ := CppTracker.Directory.listed_of_mem hentry e b.directory
    obtain ⟨l', hl', hle⟩ :=
      CppTracker.Directory.le_foldl (CppTracker.Directory.le_leech e) (tokens (leechText files)) _ hl
    refine ⟨l', hl', fun hfile hpiece => hle.peers (hlisted ?_ ?_)⟩
    · exact hle.fileSize.symm.trans hfile
    · exact hle.pieceSize.symm.trans hpiece

/-- Whoever has announced a file to the tracker is found by those who ask for it: the reply has the endpoint that it
has announced. -/
theorem announced_found (hrun : TrackerRun h st) (hok : ∀ f ∈ files, FileOk f) (hport : PortOk port)
    (hline : doAnnounce files port = line ++ ['\n']) (hann : (st₀, .request e line) ∈ h)
    (hfirst : ∀ q₀ ∈ st₀.peer e, q₀.announced = false) (hf : f ∈ files) (hseeded : f.seeded = true)
    (hsizes : ∀ l ∈ (bookOf h).directory f.key, l.fileSize = f.length.toNat ∧ l.pieceSize = f.pieceSize.toNat)
    (hstay : ∀ l ∈ (bookOf h).directory f.key, ∀ a ∈ l.peers, a ≠ p → ¬ Left h a) (hq : st.peer p = some q)
    (hqann : q.announced = true) (hne : e ≠ p) {g : PeerFile} (hg : g.file.key = f.key) (hkey : IsKey f.key)
    (hbuilt : g.file.Built) :
    ∃ request st' reply es, doGetfile g.file = request ++ ['\n'] ∧
      handleLine st p request = some (st', some (reply ++ ['\n'])) ∧ Receives g reply es ∧
      ∃ r, st.peer e = some r ∧ ∃ d ∈ es, d.ip = CTracker.ipStringify r.remoteIP ∧ d.port = port := by
  obtain ⟨newer, older, rfl⟩ := List.append_of_mem hann
  obtain ⟨hr₀, st₁, hstep₀⟩ := Run.of_append hrun
  obtain ⟨q₀, -, hq₀, -⟩ := CppTracker.step_request hstep₀
  have hnew : (bookOf older).ports e = none := by
    rw [(CppTracker.keeps_bookOf hr₀).ports hq₀, hfirst q₀ hq₀]
    rfl
  -- What the announce has put in the book stays there.
  obtain ⟨hports, l₀, hl₀, hlisted⟩ := book_of_announce hok hport hline hnew hf hseeded
  have hle := CppTracker.bookOf_le newer ((st₀, .request e line) :: older)
  obtain ⟨l, hl, hll⟩ := hle.directory hl₀
  obtain ⟨hfile, hpiece⟩ := hsizes l hl
  have he : e ∈ l.peers := hll.peers (hlisted (hll.fileSize.symm.trans hfile) (hll.pieceSize.symm.trans hpiece))
  obtain ⟨r, hr⟩ := Option.ne_none_iff_exists'.1 (mt (CppTracker.gone_iff_left hrun hl he).1 (hstay l hl e he hne))
  have hkeeps := CppTracker.keeps_bookOf hrun
  have hsame : r.listeningPort = port := by
    have hkept := (hle.ports hports).symm.trans (hkeeps.ports hr)
    split at hkept
    · exact (Option.some.inj hkept).symm
    · cases hkept
  obtain ⟨request, st', reply, es, hreq, hhandle, hreceived, hmem⟩ :=
    found_of_listed hrun hq hqann (hg ▸ hkey) hbuilt (hg ▸ hl) (hstay l hl)
  exact ⟨request, st', reply, es, hreq, hhandle, hreceived, r, hr, Endpoint.ofAddr r.remoteIP (hkeeps.port_lt hr),
    (hmem _).2 ⟨l, hg ▸ hl, e, he, hne, r, hr, rfl⟩, rfl, hsame⟩

theorem announced_found_twoClients : ∃ h st st' request reply es, TrackerRun h st ∧
    doGetfile (JavaClient.sharedFile false) = request ++ ['\n'] ∧
    handleLine st 1 request = some (st', some (reply ++ ['\n'])) ∧
    Receives ⟨JavaClient.sharedFile false, []⟩ reply es ∧ ∃ d ∈ es, d.port = 6881 := by
  obtain ⟨h, st, q, hrun, hq, hqann, ⟨st₀, hann, hfirst⟩, hdir, hstay⟩ := exists_twoClients
  have hok : ∀ f ∈ [JavaClient.sharedFile true], FileOk f := by
    intro f hf
    obtain rfl := List.mem_singleton.1 hf
    exact ⟨by decide, by decide, by decide, by decide, by decide, by decide⟩
  have hline : doAnnounce [JavaClient.sharedFile true] (6881 : Nat) =
      (doAnnounce [JavaClient.sharedFile true] 6881).dropLast ++ ['\n'] := by
    decide +kernel
  obtain ⟨request, st', reply, es, hreq, hhandle, hreceived, r, -, d, hd, -, hport⟩ :=
    announced_found hrun hok (by decide) hline hann hfirst List.mem_cons_self rfl
      (fun l hl => by
        obtain rfl := Option.some.inj (hdir.symm.trans hl)
        exact ⟨rfl, rfl⟩)
      (fun l hl a _ _ => hstay a)
      hq hqann (by decide) (g := ⟨JavaClient.sharedFile false, []⟩) rfl isKey_sharedKey ⟨_, rfl, rfl⟩
  exact ⟨h, st, st', request, reply, es, hrun, hreq, hhandle, hreceived, d, hd, hport⟩

end Found

end Trackers
end Raiezau
