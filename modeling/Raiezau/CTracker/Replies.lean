import Raiezau.Machine.Fold
import Raiezau.CTracker.Look
import Raiezau.CTracker.Refusal
import Raiezau.CTracker.Membership

/-!
# Replies — every request is answered by one line

The names, keys and endpoints the tracker stores come from earlier requests and go out in later replies.
`Clean` is the invariant that carries the one-line shape from the ones to the others; whether a handler
gets as far as a reply is a separate matter.
-/

namespace Raiezau
namespace CTracker

open Memory CUtil Text Machine Assoc

variable {st st' st₁ : Tracker} {h : TrackerHistory} {ev : Event} {c f : Addr} {cl : Client}
  {req v key : CString}

/-! ## Texts of one line -/

/-- A reply is a line with one of the four beginnings. -/
def IsReply (s : CString) : Prop :=
  (∃ body, s = body ++ ['\n'] ∧ '\n' ∉ body) ∧
    ("ok".toList <+: s ∨ "list [".toList <+: s ∨ "peers".toList <+: s ∨ "error".toList <+: s)

theorem isReply_ok : IsReply okReply :=
  ⟨⟨"ok".toList, rfl, by decide⟩, .inl ⟨['\n'], rfl⟩⟩

theorem isReply_error : IsReply errorReply :=
  ⟨⟨"error".toList, rfl, by decide⟩, .inr (.inr (.inr ⟨['\n'], rfl⟩))⟩

theorem decimal_no_newline (n : Nat) : '\n' ∉ decimal n := by
  intro hn
  have := isDigit_of_mem_decimal hn
  cases this

theorem listenKey_no_newline (addr : SockAddr) (port : Nat) : '\n' ∉ listenKey addr port := by
  simp only [listenKey, ipStringify, List.mem_append, List.mem_cons, decimal_no_newline, false_or,
    or_false]
  decide

/-- No stored name, key or endpoint contains a newline. -/
structure Clean (st : Tracker) : Prop where
  file : ∀ {f x}, st.file f = some x → '\n' ∉ x.filename ∧ '\n' ∉ x.md5Str
  endpoint : ∀ {c cl key}, st.client c = some cl → cl.listenAddrKey = some key → '\n' ∉ key

/-! ## What a request stores -/

theorem substr_subset {s : CString} {so eo : Nat} {ch : Char} (hch : ch ∈ substr s so eo) : ch ∈ s :=
  List.mem_of_mem_drop (List.mem_of_mem_take hch)

/-- The tokens of a clause are pieces of the request. -/
theorem no_newline_of_mem_clauseTab (hv : '\n' ∉ v) {m : RegMatch} {w : CString}
    (hw : w ∈ clauseTab v m) : '\n' ∉ w := by
  intro hn
  rw [clauseTab, stringSplit_eq_words] at hw
  exact hv (substr_subset (mem_of_mem_words hw hn))

theorem Clean.retabled (hst : Clean st) (hret : Retabled st st') : Clean st' where
  file := by
    intro f x hx
    obtain ⟨y, hy, heq⟩ := hret.of_file_some hx
    have hold := hst.file hy
    rw [heq]
    exact hold
  endpoint := fun hc => hst.endpoint ((hret.client _).symm.trans hc)

theorem Clean.fileNew (hst : Clean st) {filename : CString} {length pieceSize : Nat}
    (hname : '\n' ∉ filename) (hkey : '\n' ∉ key)
    (h : fileNew st filename length pieceSize key = some (st', f)) : Clean st' := by
  unfold CTracker.fileNew at h
  split at h
  · cases h
  · obtain ⟨rfl, -⟩ := Prod.mk.inj (Option.some.inj h)
    refine ⟨?_, hst.endpoint⟩
    intro g x hx
    have hread := (Heap.read_alloc _ _ _).symm.trans hx
    split at hread
    · obtain rfl := Option.some.inj hread
      exact ⟨hname, hkey⟩
    · exact hst.file hread

theorem Clean.fileGetOrCreate (hst : Clean st) {filename : CString} {length pieceSize : Int}
    (hname : '\n' ∉ filename) (hkey : '\n' ∉ key)
    (h : fileGetOrCreate st filename length pieceSize key = some (st', f)) : Clean st' := by
  unfold CTracker.fileGetOrCreate at h
  split at h
  · obtain ⟨rfl, -⟩ := Prod.mk.inj (Option.some.inj h)
    exact hst
  · exact hst.fileNew hname hkey h

theorem Clean.getSeedFiles {tab : List CString} {l : List Addr} (hst : Clean st)
    (htab : ∀ w ∈ tab, '\n' ∉ w) (h : getSeedFiles st tab = some (st', l)) : Clean st' := by
  -- Four tokens at a time, and the name and the key are two of them.
  induction st, tab using getSeedFiles.induct generalizing l with
  | case1 st name size piece key tab ih =>
      simp only [CTracker.getSeedFiles, Option.bind_eq_bind, Option.bind_eq_some_iff] at h
      obtain ⟨⟨st₁, f⟩, hget, ⟨st₂, l'⟩, hrest, hpure⟩ := h
      obtain ⟨rfl, -⟩ := Prod.mk.inj (Option.some.inj hpure)
      have hst₁ : Clean st₁ := hst.fileGetOrCreate (htab _ (by simp)) (htab _ (by simp)) hget
      exact ih st₁ hst₁ (fun w hw => htab w (by simp [hw])) hrest
  | case2 tab st hshort =>
      rw [CTracker.getSeedFiles] at h
      · obtain ⟨rfl, -⟩ := Prod.mk.inj (Option.some.inj h)
        exact hst
      · exact hshort

theorem Clean.modifyClient (hst : Clean st) (c : Addr) {u : Client → Client}
    (hu : ∀ cl key, (u cl).listenAddrKey = some key → cl.listenAddrKey = some key ∨ '\n' ∉ key) :
    Clean (st.modifyClient c u) where
  file := hst.file
  endpoint := by
    intro e cl key he hkey
    rw [client_modifyClient] at he
    split at he
    · obtain ⟨cl₀, hcl₀, rfl⟩ := Option.map_eq_some_iff.1 he
      rcases hu cl₀ key hkey with hold | hnew
      · exact hst.endpoint hcl₀ hold
      · exact hnew
    · exact hst.endpoint he hkey

theorem Clean.seedLeech {pm : List RegMatch} (hst : Clean st) (hv : '\n' ∉ v)
    (hc : st.client c = some cl) (hreg : Registry st)
    (h : seedLeechMatchAndParse st c v pm = some st') : Clean st' := by
  simp only [seedLeechMatchAndParse, Option.bind_eq_bind, Option.bind_eq_some_iff] at h
  obtain ⟨⟨st₁, seeds⟩, hseed, st₂, hadd₁, hadd₂⟩ := h
  have hst₁ : Clean st₁ := by
    simp only [getSeedFileList] at hseed
    split at hseed
    · obtain ⟨rfl, -⟩ := Prod.mk.inj (Option.some.inj hseed)
      exact hst
    · exact hst.getSeedFiles (fun w hw => no_newline_of_mem_clauseTab (m := slot pm 1) hv hw) hseed
  obtain ⟨-, hg, -, -⟩ := getSeedFileList_spec hreg hseed
  let leeches := getLeechFileList st₁ (substr v (slot pm 2).so (slot pm 2).eo)
  have hst₁' : Clean (st₁.modifyClient c fun cl =>
      { cl with filesSeed := seeds, filesLeech := leeches }) :=
    hst₁.modifyClient c fun _ _ hkey => .inl hkey
  have hc₁ : (st₁.modifyClient c fun cl =>
      { cl with filesSeed := seeds, filesLeech := leeches }).client c =
        some { cl with filesSeed := seeds, filesLeech := leeches } := by
    rw [client_modifyClient, if_pos rfl, hg.client, hc]
    rfl
  have hret₁ := (foldlM_fileAddClient_spec hc₁ hadd₁).toRetabled
  have hret₂ := (foldlM_fileAddClient_spec ((hret₁.client c).trans hc₁) hadd₂).toRetabled
  exact hst₁'.retabled (hret₁.trans hret₂)

theorem Clean.announce {pm : List RegMatch} (hst : Clean st) (hv : '\n' ∉ v)
    (hc : st.client c = some cl) (hreg : Registry st)
    (h : announceMatchAndParse st c v pm = some st') : Clean st' := by
  let port := toUInt16 (atoi (v.drop (slot pm 1).so))
  have hst₀ : Clean (clientSetListeningPort st c port) := by
    refine hst.modifyClient c fun cl key hkey => .inr ?_
    obtain rfl : listenKey cl.addr port = key := Option.some.inj hkey
    exact listenKey_no_newline _ _
  have hc₀ : (clientSetListeningPort st c port).client c =
      some { cl with listeningPort := port, listenAddrKey := some (listenKey cl.addr port) } := by
    have hmod := client_modifyClient st c c fun cl =>
      { cl with listeningPort := port, listenAddrKey := some (listenKey cl.addr port) }
    rw [if_pos rfl, hc] at hmod
    exact hmod
  have hreg₀ : Registry (clientSetListeningPort st c port) := hreg.congr (fun _ => rfl) rfl
  exact hst₀.seedLeech hv hc₀ hreg₀ h

/-! ## What the handlers answer -/

/-- An outcome that has been, or will be, answered by one line. -/
def Answered (o : Outcome) : Prop :=
  (o.ret < 0 ∧ o.out = []) ∨ (¬ o.ret < 0 ∧ ∃ s, o.out = [s] ∧ IsReply s)

theorem Answered.refused (st : Tracker) : Answered ⟨st, -1, []⟩ :=
  .inl ⟨show (-1 : Int) < 0 by decide, rfl⟩

theorem Answered.line {s : CString} (hs : IsReply s) (st : Tracker) : Answered ⟨st, 0, [s]⟩ :=
  .inr ⟨show ¬ (0 : Int) < 0 by decide, s, rfl, hs⟩

theorem Answered.reply {o : Outcome} (ho : Answered o) :
    ∃ s, (if o.ret < 0 then o.out ++ [errorReply] else o.out) = [s] ∧ IsReply s := by
  rcases ho with ⟨hret, hout⟩ | ⟨hret, s, hout, hs⟩
  · exact ⟨errorReply, by rw [if_pos hret, hout]; rfl, isReply_error⟩
  · exact ⟨s, by rw [if_neg hret, hout], hs⟩

theorem isReply_brackets {p body : CString} (hp : '\n' ∉ p) (hbody : '\n' ∉ body)
    (hpre : ∀ t, "ok".toList <+: p ++ t ∨ "list [".toList <+: p ++ t ∨ "peers".toList <+: p ++ t ∨
      "error".toList <+: p ++ t) : IsReply (p ++ body ++ "]\n".toList) := by
  refine ⟨⟨p ++ body ++ [']'], by simp, ?_⟩, ?_⟩
  · simp [hp, hbody]
  · rw [List.append_assoc]
    exact hpre _

theorem mem_of_mapM {l : List Addr} {xs : List File} (h : l.mapM st.file = some xs) {x : File}
    (hx : x ∈ xs) : ∃ f, st.file f = some x := by
  induction l generalizing xs with
  | nil =>
      obtain rfl : [] = xs := Option.some.inj h
      cases hx
  | cons g l ih =>
      simp only [List.mapM_cons, Option.bind_eq_bind, Option.bind_eq_some_iff] at h
      obtain ⟨y, hy, ys, hys, hpure⟩ := h
      obtain rfl : y :: ys = xs := Option.some.inj hpure
      rcases List.mem_cons.1 hx with rfl | hx
      · exact ⟨g, hy⟩
      · exact ih hys hx

theorem fileEntry_no_newline {x : File} (hname : '\n' ∉ x.filename) (hkey : '\n' ∉ x.md5Str) :
    '\n' ∉ fileEntry x := by
  simp [fileEntry, hname, hkey, decimal_no_newline]

theorem Clean.look (hst : Clean st) {o : Outcome} (h : protLook st c v = some o) : Answered o := by
  simp only [protLook, Option.bind_eq_bind, Option.bind_eq_some_iff] at h
  obtain ⟨sel, -, h⟩ := h
  cases sel with
  | none =>
      obtain rfl := Option.some.inj h
      exact Answered.refused st
  | some l =>
      simp only [Option.bind_eq_some_iff] at h
      obtain ⟨s, hs, h⟩ := h
      obtain rfl := Option.some.inj h
      refine Answered.line (isReply_brackets (by decide) ?_ fun t => .inr (.inl ⟨t, rfl⟩)) st
      simp only [protLookBuildFileList, Option.bind_eq_bind, Option.bind_eq_some_iff] at hs
      obtain ⟨xs, hxs, hpure⟩ := hs
      obtain rfl := Option.some.inj hpure
      intro hn
      rcases mem_intercalate hn with hsep | ⟨w, hw, hn⟩
      · revert hsep
        decide
      · obtain ⟨x, hx, rfl⟩ := List.mem_map.1 hw
        obtain ⟨f, hf⟩ := mem_of_mapM hxs hx
        exact fileEntry_no_newline (hst.file hf).1 (hst.file hf).2 hn

/-- What every step of a fold keeps, the fold keeps. -/
theorem Clean.peerStringList (hst : Clean st) {cli : HashTable Addr} {s : CString}
    (h : protGetfileBuildPeerStringList st c cli = some s) : '\n' ∉ s := by
  refine foldlM_invariant (I := fun s => '\n' ∉ s) ?_ List.not_mem_nil h
  intro output e output' hout hstep
  split at hstep
  · obtain rfl := Option.some.inj hstep
    exact hout
  · simp only [Option.bind_eq_bind, Option.bind_eq_some_iff] at hstep
    obtain ⟨cl, hcl, key, hkey, hpure⟩ := hstep
    obtain rfl := Option.some.inj hpure
    simp [hout, hst.endpoint hcl hkey]

theorem strTrim_no_newline (v : CString) : '\n' ∉ strTrimProtGetfile v := by
  intro hn
  simpa using List.all_eq_true.1 List.all_takeWhile _ hn

theorem isReply_peers {s : CString} (hs : '\n' ∉ s) : IsReply
    ("peers ".toList ++ strTrimProtGetfile v ++ " [".toList ++ s ++ "]\n".toList) := by
  refine isReply_brackets ?_ hs fun t => .inr (.inr (.inl ?_))
  · simp [strTrim_no_newline v]
  · exact ⟨' ' :: (strTrimProtGetfile v ++ " [".toList ++ t), by simp⟩

theorem Clean.getfile (hst : Clean st) {o : Outcome} (h : protGetfile st c v = some o) :
    Answered o := by
  simp only [protGetfile] at h
  split at h
  · obtain rfl := Option.some.inj h
    exact Answered.refused st
  · cases hk : fileGetByKey st (strTrimProtGetfile v) with
    | none =>
        rw [hk] at h
        obtain rfl := Option.some.inj h
        exact Answered.line (isReply_peers List.not_mem_nil) st
    | some f =>
        simp only [hk, Option.bind_eq_bind, Option.bind_eq_some_iff] at h
        obtain ⟨x, -, s, hs, hpure⟩ := h
        obtain rfl := Option.some.inj hpure
        exact Answered.line (isReply_peers (hst.peerStringList hs)) st

/-! ## One request -/

theorem subset_of_dispatch {handler : Handler} (hd : dispatch req = some (handler, v)) {ch : Char}
    (hch : ch ∈ v) : ch ∈ req := by
  simp only [dispatch, Option.bind_eq_bind, Option.bind_eq_some_iff] at hd
  obtain ⟨⟨reqName, reqValue⟩, hscan, handler', -, hpure⟩ := hd
  obtain ⟨-, rfl⟩ : handler' = handler ∧ reqValue = v := by simpa using hpure
  simp only [sscanfWord] at hscan
  split at hscan
  · cases hscan
  · obtain ⟨-, rfl⟩ := Prod.mk.inj (Option.some.inj hscan)
    have h₁ := (List.dropWhile_sublist _).subset hch
    exact (List.dropWhile_sublist _).subset ((List.dropWhile_sublist _).subset h₁)

theorem Clean.call (hst : Clean st) (hreg : Registry st) (hc : st.client c = some cl)
    (hv : '\n' ∉ v) {handler : Handler} {o : Outcome} (h : handler.call st c v = some o) :
    Clean o.st ∧ Answered o := by
  -- The declaring handlers store tokens; the others only put together what is stored.
  cases handler with
  | announce =>
      simp only [Handler.call, protAnnounce] at h
      split at h
      · obtain rfl := Option.some.inj h
        exact ⟨hst, Answered.refused st⟩
      · simp only [Option.bind_eq_bind, Option.bind_eq_some_iff] at h
        obtain ⟨st₁, hann, hpure⟩ := h
        obtain rfl := Option.some.inj hpure
        exact ⟨hst.announce hv hc hreg hann, Answered.line isReply_ok st₁⟩
  | update =>
      simp only [Handler.call, protUpdate] at h
      split at h
      · obtain rfl := Option.some.inj h
        exact ⟨hst, Answered.refused st⟩
      · simp only [Option.bind_eq_bind, Option.bind_eq_some_iff] at h
        obtain ⟨st₁, hupd, hpure⟩ := h
        obtain rfl := Option.some.inj hpure
        exact ⟨hst.seedLeech hv hc hreg hupd, Answered.line isReply_ok st₁⟩
  | look =>
      have hsame := protLook_st (c := c) h
      exact ⟨hsame ▸ hst, hst.look (c := c) h⟩
  | getfile =>
      have hsame := protGetfile_st (c := c) h
      exact ⟨hsame ▸ hst, hst.getfile (c := c) h⟩

/-- A request that is handled is answered by one line, and stores no newline. -/
theorem Clean.request (hst : Clean st) (hreg : Registry st) (hc : st.client c = some cl)
    (hreq : '\n' ∉ req) {out : List CString} (h : handleRequest st c req = some (st', out)) :
    Clean st' ∧ ∃ s, out = [s] ∧ IsReply s := by
  rw [handleRequest_dispatch] at h
  cases hd : dispatch req with
  | none =>
      rw [hd] at h
      obtain ⟨rfl, rfl⟩ := Prod.mk.inj (Option.some.inj h)
      exact ⟨hst, errorReply, rfl, isReply_error⟩
  | some p =>
      obtain ⟨handler, v⟩ := p
      simp only [hd, Option.map_eq_some_iff] at h
      obtain ⟨o, hcall, hpair⟩ := h
      obtain ⟨rfl, rfl⟩ := Prod.mk.inj hpair
      have hv : '\n' ∉ v := fun hn => hreq (subset_of_dispatch hd hn)
      obtain ⟨hclean, hans⟩ := hst.call hreg hc hv hcall
      exact ⟨hclean, hans.reply⟩

/-! ## Requests that do not fault -/

/-- The tokens of a `look` request that has its form. -/
def criterionTokens (req : CString) : List CString :=
  match dispatch req with
  | some (.look, v) =>
      match regexec lookRegexp v with
      | none => []
      | some pm => clauseTab v (slot pm 1)
  | _ => []

def operatorDelims : List CString := [neqDelim, geqDelim, leqDelim, eqDelim, ltDelim, gtDelim]

/-- The piece sizes of a seed clause cut into entries of four tokens. -/
def entryPieces : List CString → List CString
  | _ :: _ :: piece :: _ :: tab => piece :: entryPieces tab
  | _ => []

/-- The request is one line.  An `update` comes after an accepted declaration, a seed clause that is
taken announces no piece size of zero, and no criterion ends in an operator with its quote. -/
def TameRequest (h : TrackerHistory) (c : Addr) (req : CString) : Prop :=
  '\n' ∉ req ∧ (∀ d ∈ declaration req, d.port = none → latest c h ≠ none) ∧
    (∀ tab ∈ seedTab req, tab.length % 4 = 0 →
      ∀ piece ∈ entryPieces tab, toUInt32 (atoi piece) ≠ 0) ∧
    ∀ cr ∈ criterionTokens req, ∀ delim ∈ operatorDelims, ¬ delim <:+ cr

instance (h : TrackerHistory) (c : Addr) (req : CString) : Decidable (TameRequest h c req) :=
  inferInstanceAs (Decidable (_ ∧ _ ∧ _ ∧ _))

/-- No client disconnects, and every request is tame. -/
def Tame (h : TrackerHistory) (_ : Tracker) : Event → Prop
  | .connect _ _ => True
  | .request c req => TameRequest h c req
  | .disconnect _ => False

instance (h : TrackerHistory) (st : Tracker) : ∀ ev, Decidable (Tame h st ev)
  | .connect _ _ => .isTrue trivial
  | .request c req => inferInstanceAs (Decidable (TameRequest h c req))
  | .disconnect _ => .isFalse id

theorem piecesOk_of_entryPieces {seen tab : List CString}
    (hp : ∀ piece ∈ entryPieces tab, toUInt32 (atoi piece) ≠ 0) : PiecesOk st seen tab := by
  induction seen, tab using PiecesOk.induct with
  | case1 seen _ _ piece key tab ih =>
      rw [PiecesOk]
      exact ⟨.inr (.inr (hp piece (by simp [entryPieces]))),
        ih fun p hmem => hp p (by simp [entryPieces, hmem])⟩
  | case2 seen tab hshort =>
      rw [PiecesOk]
      · trivial
      · exact hshort

theorem criterionProcessor_total {delim cr : CString} (hd : delim ≠ []) (hcr : ¬ delim <:+ cr)
    (code : CString → Option (CString → File → Bool)) {l : List Addr} (hl : AllFiles st l) :
    ∃ l', criterionProcessor delim code st cr l = some l' ∧ AllFiles st l' := by
  unfold criterionProcessor
  split
  · next field rest hsplit =>
      rw [stringSplit2_eq_splitSub] at hsplit
      have hrest : rest ≠ [] := by
        rintro rfl
        refine hcr ⟨field, ?_⟩
        rw [splitSub_pair hd hsplit, List.append_nil]
      obtain ⟨value, hvalue⟩ : ∃ value, strstripc rest '"' = some value := by
        rw [strstripc, List.getLast?_eq_some_getLast hrest]
        exact ⟨_, rfl⟩
      simp only [hvalue, Option.bind_eq_bind, Option.bind_some]
      cases code field with
      | none => exact ⟨l, rfl, hl⟩
      | some test =>
          obtain ⟨l', heq, hsel⟩ := processList_spec hl (test value)
          exact ⟨l', heq, hsel.allFiles⟩
  · exact ⟨l, rfl, hl⟩

theorem processCriterion_total {cr : CString} (hcr : ∀ delim ∈ operatorDelims, ¬ delim <:+ cr)
    {l : List Addr} (hl : AllFiles st l) :
    ∃ l', processCriterion st cr l = some l' ∧ AllFiles st l' := by
  have hone : ∀ delim ∈ operatorDelims, delim ≠ [] → ∀ code, ∀ {l}, AllFiles st l →
      ∃ l', criterionProcessor delim code st cr l = some l' ∧ AllFiles st l' :=
    fun delim hdelim hd code _ hl => criterionProcessor_total hd (hcr delim hdelim) code hl
  obtain ⟨l₁, h₁, hl₁⟩ := hone neqDelim (by decide) (by decide) neqCode hl
  obtain ⟨l₂, h₂, hl₂⟩ := hone geqDelim (by decide) (by decide) geqCode hl₁
  obtain ⟨l₃, h₃, hl₃⟩ := hone leqDelim (by decide) (by decide) leqCode hl₂
  obtain ⟨l₄, h₄, hl₄⟩ := hone eqDelim (by decide) (by decide) eqCode hl₃
  obtain ⟨l₅, h₅, hl₅⟩ := hone ltDelim (by decide) (by decide) ltCode hl₄
  obtain ⟨l₆, h₆, hl₆⟩ := hone gtDelim (by decide) (by decide) gtCode hl₅
  refine ⟨l₆, ?_, hl₆⟩
  simp only [processCriterion, processCriterionNeq, processCriterionGeq, processCriterionLeq,
    processCriterionEq, processCriterionLt, processCriterionGt, h₁, h₂, h₃, h₄, h₅, h₆,
    Option.bind_eq_bind, Option.bind_some]

theorem protLook_total (c : Addr) (hreg : Registry st)
    (hcr : ∀ pm ∈ regexec lookRegexp v, ∀ cr ∈ clauseTab v (slot pm 1),
      ∀ delim ∈ operatorDelims, ¬ delim <:+ cr) : ∃ o, protLook st c v = some o := by
  unfold protLook lookFiles
  cases hre : regexec lookRegexp v with
  | none => exact ⟨_, rfl⟩
  | some pm =>
      have hall : AllFiles st (fileList st) := fun f hf => (mem_fileList_iff hreg).1 hf
      obtain ⟨l, hl, hfiles⟩ := foldlM_total (I := AllFiles st) (l := clauseTab v (slot pm 1))
        (fun hmem hI => processCriterion_total (hcr pm hre _ hmem) hI) hall
      obtain ⟨xs, hxs⟩ := hfiles.mapM
      have hsel : protLookProcessCriterions st (substr v (slot pm 1).so (slot pm 1).eo) = some l := hl
      simp [hsel, protLookBuildFileList, hxs]

/-- A client whose requests are tame has its endpoint once it has declared anything. -/
def Keyed (h : TrackerHistory) (st : Tracker) : Prop :=
  ∀ c cl, st.client c = some cl → latest c h ≠ none → cl.listenAddrKey ≠ none

theorem handleRequest_total (hw : WellFormed st) (hn : NoDangling st) (hk : Keyed h st)
    (hc : st.client c = some cl) (hreq : TameRequest h c req) :
    ∃ st' out, handleRequest st c req = some (st', out) := by
  obtain ⟨-, hann, hpieces, hcr⟩ := hreq
  -- A declaration has an endpoint and no size of zero, so it goes through; the other requests only read.
  by_cases hdecl : IsDeclaring req
  · rcases declaring_cases hw hc hdecl with ⟨-, herr⟩ | ⟨tab, d, r, htab, hdec, hreply, hsome⟩
    · exact ⟨_, _, herr⟩
    · have hend : d.endpoint cl ≠ none := by
        unfold Declaration.endpoint
        split
        · exact Option.some_ne_none _
        · next hport => exact hk c cl hc (hann d hdec hport)
      have htabOk : tab.length % 4 ≠ 0 ∨ PiecesOk st [] tab := by
        by_cases hfour : tab.length % 4 = 0
        · exact .inr (piecesOk_of_entryPieces (hpieces tab htab hfour))
        · exact .inl hfour
      obtain ⟨st', hst'⟩ := Option.isSome_iff_exists.1 (hsome.2 ⟨htabOk, .inl hend⟩)
      exact ⟨st', _, by rw [hreply, hst']; rfl⟩
  · rw [handleRequest_dispatch]
    cases hd : dispatch req with
    | none => exact ⟨_, _, rfl⟩
    | some p =>
        obtain ⟨handler, v⟩ := p
        have hcall : ∃ o, handler.call st c v = some o := by
          cases handler with
          | announce => exact absurd ⟨_, hd, .inl rfl⟩ hdecl
          | update => exact absurd ⟨_, hd, .inr rfl⟩ hdecl
          | look =>
              refine protLook_total c hw.toRegistry fun pm hpm cr hmem => hcr cr ?_
              have hpm' : regexec lookRegexp v = some pm := hpm
              simpa [criterionTokens, hd, hpm'] using hmem
          | getfile => exact Option.ne_none_iff_exists'.1 (getfileSafe_of_noDangling hw hn c v)
        obtain ⟨o, ho⟩ := hcall
        exact ⟨_, _, by simp only [ho]; rfl⟩

/-! ## Runs -/

theorem leavesNothing_of_tame (hok : Tame h st ev) : LeavesNothing h st ev := by
  cases ev with
  | disconnect c => exact hok.elim
  | _ => trivial

theorem Joins.clean (hj : Joins st st') (hst : Clean st) : Clean st' where
  file := fun hx => hst.file ((hj.file _).symm.trans hx)
  endpoint := by
    intro c cl key hc hkey
    rcases hj.client_cases hc with hold | ⟨-, -, hnone⟩
    · exact hst.endpoint hold hkey
    · rw [hnone] at hkey
      cases hkey

theorem clean_init : Clean Tracker.init where
  file := by
    intro f x hx
    cases hx
  endpoint := by
    intro c cl key hc
    cases hc

theorem clean_step (hw : WellFormed st) (hst : Clean st) (hok : Tame h st ev) (hs : Step st ev st') :
    Clean st' := by
  cases ev with
  | connect socket addr =>
      obtain rfl : (clientGetOrCreate st socket addr).1 = st' := Option.some.inj hs
      rcases clientGetOrCreate_spec st socket addr with hidle | hjoin
      · rw [hidle]
        exact hst
      · exact hjoin.clean hst
  | request c req =>
      simp only [Step, stepFn, Option.bind_eq_bind, Option.bind_eq_some_iff] at hs
      obtain ⟨cl, hc, ⟨st₁, out⟩, hreq, hpure⟩ := hs
      obtain rfl : st₁ = st' := Option.some.inj hpure
      exact (hst.request hw.toRegistry hc hok.1 hreq).1
  | disconnect c => exact hok.elim

theorem keyed_step (hr : TrackerRun h st) (hk : Keyed h st) (hok : Tame h st ev)
    (hs : Step st ev st') : Keyed ((st, ev) :: h) st' := by
  intro e cle he hlat
  -- A client has a key from its first announce on.
  cases hs.cases (wellFormed_of_run hr) with
  | idle hq hidle =>
      rw [latest_quiet hq] at hlat
      exact hk e cle (hidle ▸ he) hlat
  | joins hq hj =>
      rw [latest_quiet hq] at hlat
      rcases hj.client_cases he with hold | ⟨rfl, -, -⟩
      · exact hk e cle hold hlat
      · exact absurd (latest_unborn hr (Nat.le_refl _)) hlat
  | @declares c req d cl cl' hev hreq hd =>
      subst hev
      by_cases hec : e = c
      · subst hec
        obtain rfl := Option.some.inj (hd.after.symm.trans he)
        rw [hd.endpoint, Declaration.endpoint]
        split
        · exact Option.some_ne_none _
        · next hport => exact hk e cl hd.before (hok.2.1 d hreq hport)
      · rw [latest_other hec] at hlat
        exact hk e cle ((hd.others hec).symm.trans he) hlat
  | leaves hev _ =>
      subst hev
      exact hok.elim

theorem clean_of_tame (hrun : TrackerRun h st) : StepsMeet Tame h → Clean st ∧ Keyed h st := by
  refine hrun.invariant_history ?_ ?_
  · intro _
    refine ⟨clean_init, fun c cl hc => ?_⟩
    cases hc
  · intro h st ev st' hr ih hs hok
    obtain ⟨hst, hk⟩ := ih hok.2
    exact ⟨clean_step (wellFormed_of_run hr) hst hok.1 hs, keyed_step hr hk hok.1 hs⟩

/-- Along a tame run every tame request of a connected client is answered by exactly one line. -/
theorem handleRequest_one_reply (hrun : TrackerRun h st) (hok : StepsMeet Tame h)
    (hc : st.client c = some cl) (hreq : TameRequest h c req) :
    ∃ st' s, handleRequest st c req = some (st', [s]) ∧ IsReply s := by
  have hw := wellFormed_of_run hrun
  obtain ⟨hst, hk⟩ := clean_of_tame hrun hok
  have hn : NoDangling st := ((noDangling_iff hrun).2 (hok.mono leavesNothing_of_tame)).last.1
  obtain ⟨st', out, hans⟩ := handleRequest_total hw hn hk hc hreq
  obtain ⟨-, s, rfl, hs⟩ := hst.request hw.toRegistry hc hreq.1 hans
  exact ⟨st', s, hans, hs⟩

/-- A search by size over one announced file. -/
def lookTen : CString := "look [filesize=\"10\"]".toList

theorem handleRequest_one_reply_look : ∃ h st, TrackerRun h st ∧ h.length = 2 ∧
    ∃ st' s, handleRequest st 0 lookTen = some (st', [s]) ∧ IsReply s := by
  obtain ⟨h, st, hrun, hlen, hok, cl, hc, hreq⟩ :=
    exists_run_of_replay
      [.connect 7 ⟨loopback, 4000⟩, .request 0 (announceFilm "6881".toList)]
      (P := fun h st => h.length = 2 ∧ StepsMeet Tame h ∧ ∃ cl ∈ st.client 0,
        TameRequest h 0 lookTen)
      (by decide +kernel)
  exact ⟨h, st, hrun, hlen, handleRequest_one_reply hrun hok hc hreq⟩

end CTracker
end Raiezau
