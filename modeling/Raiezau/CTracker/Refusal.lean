import Raiezau.CTracker.Announce

/-!
# Refusal — malformed `announce` and `update` requests

Each validation sits at its own depth: the regular expression in the handler, the number of tokens in
`get_seed_file_list`, the key lookup of a leech clause one token at a time.  Only the first one refuses.
The second is logged and answered like a well-formed request.
-/

namespace Raiezau
namespace CTracker

open Memory CUtil Text Machine Assoc

variable {st st' st₁ : Tracker} {h : TrackerHistory} {c f : Addr} {cl : Client} {req : CString}

/-! ## Declaring requests -/

/-- The handler a request goes to, with its argument. -/
def dispatch (req : CString) : Option (Handler × CString) := do
  let (reqName, reqValue) ← sscanfWord req
  let handler ← getRequestHandler reqName
  pure (handler, reqValue)

theorem handleRequest_dispatch (st : Tracker) (c : Addr) (req : CString) :
    handleRequest st c req =
      match dispatch req with
      | none => some (st, [errorReply])
      | some (handler, v) => (handler.call st c v).map fun o =>
          (o.st, if o.ret < 0 then o.out ++ [errorReply] else o.out) := by
  unfold handleRequest dispatch
  -- The three ways a request goes: no word, no known word, a handler.
  cases sscanfWord req with
  | none => rfl
  | some p =>
      obtain ⟨reqName, reqValue⟩ := p
      simp only [getAndCallHandler, Option.bind_eq_bind, Option.bind_some]
      cases getRequestHandler reqName with
      | none => rfl
      | some handler =>
          simp only [Option.bind_some, Option.pure_def]
          cases handler.call st c reqValue <;> rfl

theorem declaration_dispatch (req : CString) :
    declaration req =
      match dispatch req with
      | some (.announce, v) => (regexec announceRegexp v).map fun pm =>
          declarationOf (some (toUInt16 (atoi (v.drop (slot pm 1).so)))) v (slot pm 2) (slot pm 3)
      | some (.update, v) => (regexec updateRegexp v).map fun pm =>
          declarationOf none v (slot pm 1) (slot pm 2)
      | _ => none := by
  unfold declaration dispatch
  cases sscanfWord req with
  | none => rfl
  | some p =>
      obtain ⟨reqName, reqValue⟩ := p
      simp only [Option.bind_eq_bind, Option.bind_some]
      cases getRequestHandler reqName with
      | none => rfl
      | some handler => cases handler <;> rfl

/-- An `announce` or an `update`. -/
def IsDeclaring (req : CString) : Prop :=
  ∃ p ∈ dispatch req, p.1 = .announce ∨ p.1 = .update

instance (req : CString) : Decidable (IsDeclaring req) :=
  inferInstanceAs (Decidable (∃ p ∈ dispatch req, p.1 = .announce ∨ p.1 = .update))

/-- The tokens of the seed clause of a declaring request that matches its pattern. -/
def seedTab (req : CString) : Option (List CString) :=
  match dispatch req with
  | some (.announce, v) => (regexec announceRegexp v).map fun pm =>
      stringSplit (substr v (slot pm 2).so (slot pm 2).eo) [' ']
  | some (.update, v) => (regexec updateRegexp v).map fun pm =>
      stringSplit (substr v (slot pm 1).so (slot pm 1).eo) [' ']
  | _ => none

/-- No match, or a seed clause whose tokens do not come in fours. -/
def Malformed (req : CString) : Prop := ∀ tab ∈ seedTab req, tab.length % 4 ≠ 0

instance (req : CString) : Decidable (Malformed req) :=
  inferInstanceAs (Decidable (∀ tab ∈ seedTab req, tab.length % 4 ≠ 0))

/-- Registry, client tables and what the client has declared are the same. -/
structure SameDeclarations (c : Addr) (st st' : Tracker) : Prop where
  fileByHash : st'.fileByHash = st.fileByHash
  fileByName : st'.fileByName = st.fileByName
  file : ∀ f, st'.file f = st.file f
  port : (st'.client c).map Client.listeningPort = (st.client c).map Client.listeningPort
  key : (st'.client c).map Client.listenAddrKey = (st.client c).map Client.listenAddrKey
  seed : (st'.client c).map Client.filesSeed = (st.client c).map Client.filesSeed
  leech : (st'.client c).map Client.filesLeech = (st.client c).map Client.filesLeech

/-- A malformed request is refused and leaves everything as it was; every other one is accepted. -/
def RefusedAtomically (st : Tracker) (c : Addr) (req : CString) : Prop :=
  (Malformed req → ∃ st', handleRequest st c req = some (st', [errorReply]) ∧
    SameDeclarations c st st') ∧
  (¬ Malformed req → ∃ st', handleRequest st c req = some (st', [okReply]))

/-! ## Where the handlers fault -/

/-- An entry that registers a new key gives a piece size other than zero.  `seen` holds the keys of the
entries before. -/
def PiecesOk (st : Tracker) : List CString → List CString → Prop
  | seen, _ :: _ :: piece :: key :: tab =>
      (fileGetByKey st key ≠ none ∨ key ∈ seen ∨ toUInt32 (atoi piece) ≠ 0) ∧
        PiecesOk st (key :: seen) tab
  | _, _ => True

instance decidablePiecesOk (st : Tracker) : ∀ seen tab, Decidable (PiecesOk st seen tab)
  | seen, _ :: _ :: _ :: key :: tab =>
      have := decidablePiecesOk st (key :: seen) tab
      inferInstanceAs (Decidable (_ ∧ _))
  | _, [] => .isTrue trivial
  | _, [_] => .isTrue trivial
  | _, [_, _] => .isTrue trivial
  | _, [_, _, _] => .isTrue trivial

/-- The client has an endpoint to be listed under, or there is no file to list it. -/
def EndpointOk (st : Tracker) (cl : Client) (d : Declaration) : Prop :=
  d.endpoint cl ≠ none ∨ (d.seedKeys = [] ∧ ∀ k ∈ d.leechKeys, fileGetByKey st k = none)

instance (st : Tracker) (cl : Client) (d : Declaration) : Decidable (EndpointOk st cl d) :=
  inferInstanceAs (Decidable (_ ∨ _))

theorem fileNew_isSome {filename key : CString} {length pieceSize : Nat} :
    (fileNew st filename length pieceSize key).isSome ↔ pieceSize ≠ 0 := by
  unfold fileNew
  split
  · next h => simp [h]
  · next h => simp [h]

theorem fileGetOrCreate_isSome {filename key : CString} {length pieceSize : Int} :
    (fileGetOrCreate st filename length pieceSize key).isSome ↔
      fileGetByKey st key ≠ none ∨ toUInt32 pieceSize ≠ 0 := by
  unfold fileGetOrCreate
  cases hk : fileGetByKey st key with
  | some f => simp
  | none => simpa using fileNew_isSome

/-- One entry more has registered its key. -/
theorem seen_of_get {name key : CString} {length pieceSize : Int} {seen : List CString} {f : Addr} {st₂ : Tracker}
    (hreg : Registry st₁) (hseen : ∀ k, fileGetByKey st₁ k ≠ none ↔ fileGetByKey st k ≠ none ∨ k ∈ seen)
    (hget : fileGetOrCreate st₁ name length pieceSize key = some (st₂, f)) (k : CString) :
    fileGetByKey st₂ k ≠ none ↔ fileGetByKey st k ≠ none ∨ k ∈ key :: seen := by
  obtain ⟨-, -, -, hdom⟩ := fileGetOrCreate_spec hreg hget
  rw [hdom, hseen, List.mem_cons, or_assoc, @or_comm (k ∈ seen)]

/-- The entries read so far have registered their keys, and nothing else. -/
theorem getSeedFiles_isSome {seen tab : List CString} (hreg : Registry st₁)
    (hseen : ∀ k, fileGetByKey st₁ k ≠ none ↔ fileGetByKey st k ≠ none ∨ k ∈ seen) :
    (getSeedFiles st₁ tab).isSome ↔ PiecesOk st seen tab := by
  -- Four tokens at a time: each entry goes by what those before it have registered.
  induction st₁, tab using getSeedFiles.induct generalizing seen with
  | case1 st₁ name size piece key tab ih =>
      have hone : (fileGetOrCreate st₁ name (atol size) (atoi piece) key).isSome ↔
          fileGetByKey st key ≠ none ∨ key ∈ seen ∨ toUInt32 (atoi piece) ≠ 0 := by
        rw [fileGetOrCreate_isSome, hseen, or_assoc]
      rw [getSeedFiles, PiecesOk, ← hone]
      cases hget : fileGetOrCreate st₁ name (atol size) (atoi piece) key with
      | none => simp
      | some p =>
          obtain ⟨st₂, f⟩ := p
          have hrest := ih st₂ (fileGetOrCreate_spec hreg hget).1 (seen_of_get hreg hseen hget)
          simp only [Option.isSome_some, true_and, ← hrest, Option.bind_eq_bind, Option.bind_some]
          cases getSeedFiles st₂ tab <;> simp
  | case2 tab st₁ hshort =>
      rw [getSeedFiles]
      · rw [PiecesOk]
        · simp
        · exact hshort
      · exact hshort

theorem getSeedFileList_isSome {seedStr : CString} (hreg : Registry st) :
    (getSeedFileList st seedStr).isSome ↔ (stringSplit seedStr [' ']).length % 4 ≠ 0 ∨
      PiecesOk st [] (stringSplit seedStr [' ']) := by
  unfold getSeedFileList
  by_cases hfour : (stringSplit seedStr [' ']).length % 4 ≠ 0
  · simp [hfour]
  · simp only [hfour, if_false, false_or]
    exact getSeedFiles_isSome hreg (by simp)

/-- A declaration that went through had an endpoint for the files it names. -/
theorem Declares.endpointOk {d : Declaration} {cl' : Client} (hd : Declares c d cl cl' st st') :
    EndpointOk st cl d := by
  -- Without an endpoint the client has been entered nowhere.
  by_cases hend : d.endpoint cl = none
  · have hfiles : cl'.files = [] := by
      by_contra hne
      exact hd.keyed hne (hd.endpoint.trans hend)
    -- a key that is named would be registered by now, and its file listed
    have hunnamed : ∀ {k}, fileGetByKey st' k ≠ none → ¬ d.Names st k := by
      intro k hk hn
      obtain ⟨f, hf⟩ := Option.ne_none_iff_exists'.1 hk
      obtain ⟨x, hx, rfl⟩ := hd.registry.file_of_key hf
      have hlist : f ∈ cl'.files := (hd.names hx).2 hn
      simp [hfiles] at hlist
    refine .inr ⟨?_, fun k hk => ?_⟩
    · refine List.eq_nil_iff_forall_not_mem.2 fun k hk => ?_
      exact hunnamed (hd.domain.2 (.inr hk)) (.inl hk)
    · by_contra hold
      exact hunnamed (hd.domain.2 (.inl hold)) (.inr ⟨hk, hold⟩)
  · exact .inl hend

/-- The tokens of a clause. -/
def clauseTab (v : CString) (m : RegMatch) : List CString := stringSplit (substr v m.so m.eo) [' ']

/-- The two lists are empty if no entry is given and no key of the leech clause is known. -/
theorem lists_eq_nil_iff {seedStr leechStr : CString} {seeds : List Addr} (hreg : Registry st)
    (hseed : getSeedFileList st seedStr = some (st₁, seeds)) :
    seeds ++ getLeechFileList st₁ leechStr = [] ↔
      seedKeys seedStr = [] ∧ ∀ k ∈ stringSplit leechStr [' '], fileGetByKey st k = none := by
  obtain ⟨-, -, hall, hdom⟩ := getSeedFileList_spec hreg hseed
  have hseeds : seeds = [] ↔ seedKeys seedStr = [] := by
    rw [← List.length_eq_zero_iff, ← List.length_eq_zero_iff, hall.length_eq]
  rw [List.append_eq_nil_iff, hseeds]
  refine and_congr_right fun hnil => ?_
  rw [getLeechFileList, List.filterMap_eq_nil_iff]
  refine forall₂_congr fun k _ => ?_
  have hk := hdom k
  rw [hnil] at hk
  simpa using not_congr hk

theorem seedLeech_isSome {v : CString} {pm : List RegMatch} (hreg : Registry st)
    (ht : ∀ {f x}, st.file f = some x → x.clients.UniqueKeys) (hc : st.client c = some cl) :
    (seedLeechMatchAndParse st c v pm).isSome ↔
      ((clauseTab v (slot pm 1)).length % 4 ≠ 0 ∨ PiecesOk st [] (clauseTab v (slot pm 1))) ∧
        EndpointOk st cl (declarationOf none v (slot pm 1) (slot pm 2)) := by
  have hlist : (getSeedFileList st (substr v (slot pm 1).so (slot pm 1).eo)).isSome ↔ _ :=
    getSeedFileList_isSome hreg
  unfold clauseTab
  rw [← hlist]
  constructor
  · intro hsome
    obtain ⟨st', hst'⟩ := Option.isSome_iff_exists.1 hsome
    obtain ⟨cl', hd⟩ := seedLeech_spec hreg ht hc hst'
    refine ⟨?_, hd.endpointOk⟩
    simp only [seedLeechMatchAndParse, Option.bind_eq_bind, Option.bind_eq_some_iff] at hst'
    obtain ⟨p, hseed, -⟩ := hst'
    simp [hseed]
  · rintro ⟨hsome, hend⟩
    obtain ⟨⟨st₁, seeds⟩, hseed⟩ := Option.isSome_iff_exists.1 hsome
    rcases hend with hkey | ⟨hseedKeys, hleechKeys⟩
    · obtain ⟨key, hkey⟩ := Option.ne_none_iff_exists'.1 hkey
      obtain ⟨st', hst', -⟩ := seedLeech_total hreg hc hkey hseed
      simp [hst']
    · obtain ⟨rfl, hleech⟩ :=
        List.append_eq_nil_iff.1 ((lists_eq_nil_iff hreg hseed).2 ⟨hseedKeys, hleechKeys⟩)
      simp [seedLeechMatchAndParse, hseed, hleech]

theorem announce_isSome {v : CString} {pm : List RegMatch} (hw : WellFormed st)
    (hc : st.client c = some cl) :
    (announceMatchAndParse st c v pm).isSome ↔
      (clauseTab v (slot pm 2)).length % 4 ≠ 0 ∨ PiecesOk st [] (clauseTab v (slot pm 2)) := by
  let port := toUInt16 (atoi (v.drop (slot pm 1).so))
  let st₀ := clientSetListeningPort st c port
  let cl₀ : Client := { cl with listeningPort := port, listenAddrKey := some (listenKey cl.addr port) }
  have hc₀ : st₀.client c = some cl₀ := by
    have hmod := client_modifyClient st c c fun cl =>
      { cl with listeningPort := port, listenAddrKey := some (listenKey cl.addr port) }
    rw [if_pos rfl, hc] at hmod
    exact hmod
  have hpieces : ∀ seen tab, PiecesOk st₀ seen tab ↔ PiecesOk st seen tab := by
    intro seen tab
    induction seen, tab using PiecesOk.induct with
    | case1 seen _ _ piece key tab ih => exact and_congr Iff.rfl ih
    | case2 seen tab hshort => rw [PiecesOk, PiecesOk] <;> exact hshort
  have hend : ∀ seed leech, EndpointOk st₀ cl₀ (declarationOf none v seed leech) := fun _ _ =>
    .inl (Option.some_ne_none _)
  have hreg₀ : Registry st₀ := hw.toRegistry.congr (fun _ => rfl) rfl
  have ht₀ : ∀ {f x}, st₀.file f = some x → x.clients.UniqueKeys := hw.tables
  rw [announceMatchAndParse, seedLeech_isSome hreg₀ ht₀ hc₀, slot_shifted _ _ (by decide),
    slot_shifted _ _ (by decide), hpieces]
  exact and_iff_left (hend _ _)

/-! ## The two outcomes -/

/-- A handler that succeeds writes its own reply, and no other is added. -/
theorem reply_ok (r : Option Tracker) :
    (r.bind fun st => some (Outcome.mk st 0 [okReply])).map
      (fun o => (o.st, if o.ret < 0 then o.out ++ [errorReply] else o.out)) =
      r.map fun st => (st, [okReply]) := by
  cases r <;> rfl

/-- A declaring request that does not match is refused; one that does is carried out, and answered
`ok` whatever the number of its tokens. -/
theorem declaring_cases (hw : WellFormed st) (hc : st.client c = some cl) (hreq : IsDeclaring req) :
    (seedTab req = none ∧ handleRequest st c req = some (st, [errorReply])) ∨
      ∃ tab d r, seedTab req = some tab ∧ declaration req = some d ∧
        handleRequest st c req = Option.map (fun st' => (st', [okReply])) r ∧
        (r.isSome ↔ (tab.length % 4 ≠ 0 ∨ PiecesOk st [] tab) ∧ EndpointOk st cl d) := by
  obtain ⟨⟨handler, v⟩, hdisp, hkind⟩ := hreq
  have hdisp' : dispatch req = some (handler, v) := hdisp
  rw [handleRequest_dispatch, declaration_dispatch]
  simp only [seedTab, hdisp']
  rcases hkind with rfl | rfl
  · simp only [Handler.call, protAnnounce]
    cases hre : regexec announceRegexp v with
    | none => exact .inl ⟨rfl, rfl⟩
    | some pm =>
        refine .inr ⟨_, _, announceMatchAndParse st c v pm, rfl, rfl, reply_ok _, ?_⟩
        exact (announce_isSome hw hc).trans (and_iff_left (.inl (Option.some_ne_none _))).symm
  · simp only [Handler.call, protUpdate]
    cases hre : regexec updateRegexp v with
    | none => exact .inl ⟨rfl, rfl⟩
    | some pm =>
        refine .inr ⟨_, _, updateMatchAndParse st c v pm, rfl, rfl, reply_ok _, ?_⟩
        exact seedLeech_isSome hw.toRegistry hw.tables hc

theorem SameDeclarations.refl (c : Addr) (st : Tracker) : SameDeclarations c st st where
  fileByHash := rfl
  fileByName := rfl
  file := fun _ => rfl
  port := rfl
  key := rfl
  seed := rfl
  leech := rfl

/-- The request does not match, or it matches with tokens in fours and does not fault. -/
def Acceptable (st : Tracker) (cl : Client) (req : CString) : Prop :=
  ∀ tab ∈ seedTab req, tab.length % 4 = 0 ∧ PiecesOk st [] tab ∧
    ∀ d ∈ declaration req, EndpointOk st cl d

instance (st : Tracker) (cl : Client) (req : CString) : Decidable (Acceptable st cl req) :=
  inferInstanceAs (Decidable (∀ tab ∈ seedTab req, _))

/-- Refusal is atomic, and every other declaring request accepted, exactly for acceptable requests. -/
theorem refusedAtomically_iff (hrun : TrackerRun h st) (hc : st.client c = some cl)
    (hreq : IsDeclaring req) : RefusedAtomically st c req ↔ Acceptable st cl req := by
  rcases declaring_cases (wellFormed_of_run hrun) hc hreq with
    ⟨hnone, herr⟩ | ⟨tab, d, r, htab, hdec, hreply, hsome⟩
  · have hmal : Malformed req := by simp [Malformed, hnone]
    have hacc : Acceptable st cl req := by simp [Acceptable, hnone]
    refine iff_of_true ⟨fun _ => ⟨st, herr, SameDeclarations.refl c st⟩, fun hn => ?_⟩ hacc
    exact absurd hmal hn
  · have hmal : Malformed req ↔ tab.length % 4 ≠ 0 := by simp [Malformed, htab]
    have hacc : Acceptable st cl req ↔
        tab.length % 4 = 0 ∧ PiecesOk st [] tab ∧ EndpointOk st cl d := by
      simp [Acceptable, htab, hdec]
    rw [RefusedAtomically, hmal, hacc, hreply]
    by_cases hfour : tab.length % 4 = 0
    · have hok : (∃ st', r.map (fun st' => (st', [okReply])) = some (st', [okReply])) ↔ r.isSome := by
        cases r <;> simp
      rw [hok, hsome]
      simp [hfour]
    · -- the reply to a matching request is never `error`
      refine iff_of_false ?_ fun h => hfour h.1
      rintro ⟨hrefused, -⟩
      obtain ⟨st', heq, -⟩ := hrefused hfour
      obtain ⟨st₁, -, hpair⟩ := Option.map_eq_some_iff.1 heq
      have : [okReply] = [errorReply] := (Prod.mk.inj hpair).2
      revert this
      decide

/-- A second file, and a leech clause with one known key. -/
def updateSong : CString :=
  "update seed [song 9 2 ".toList ++ songKey ++ "] leech [".toList ++ filmKey ++ "]".toList

theorem refusedAtomically_iff_update : ∃ h st, TrackerRun h st ∧ h.length = 2 ∧
    ¬ Malformed updateSong ∧ RefusedAtomically st 0 updateSong := by
  obtain ⟨h, st, hrun, hlen, cl, hc, hmal, hacc⟩ :=
    exists_run_of_replay
      [.connect 7 ⟨loopback, 4000⟩, .request 0 (announceFilm "6881".toList)]
      (P := fun h st => h.length = 2 ∧ ∃ cl ∈ st.client 0, ¬ Malformed updateSong ∧
        Acceptable st cl updateSong)
      (by decide +kernel)
  exact ⟨h, st, hrun, hlen, hmal, (refusedAtomically_iff hrun hc (by decide +kernel)).2 hacc⟩

/-- The seed clause has three tokens. -/
def announceThree : CString := "announce listen 6881 seed [film 10 4] leech []".toList

/-- A seed clause of three tokens is answered `ok`, and the announcing client gets its port. -/
theorem malformed_seed_accepted : ∃ h st, TrackerRun h st ∧ IsDeclaring announceThree ∧
    Malformed announceThree ∧ ¬ RefusedAtomically st 0 announceThree ∧
    ∃ st', handleRequest st 0 announceThree = some (st', [okReply]) ∧
      ¬ SameDeclarations 0 st st' := by
  obtain ⟨h, st, hrun, r, hr, hout, hport⟩ :=
    exists_run_of_replay [.connect 7 ⟨loopback, 4000⟩]
      (P := fun _ st => ∃ r ∈ handleRequest st 0 announceThree, r.2 = [okReply] ∧
        (r.1.client 0).map Client.listeningPort ≠ (st.client 0).map Client.listeningPort)
      (by decide +kernel)
  have hmal : Malformed announceThree := by decide +kernel
  have hrep : handleRequest st 0 announceThree = some (r.1, [okReply]) := by
    rw [← hout]
    exact hr
  refine ⟨h, st, hrun, by decide +kernel, hmal, ?_, r.1, hrep, fun hsame => hport hsame.port⟩
  rintro ⟨hrefused, -⟩
  obtain ⟨st', heq, -⟩ := hrefused hmal
  rw [hrep] at heq
  have : [okReply] = [errorReply] := (Prod.mk.inj (Option.some.inj heq)).2
  revert this
  decide

end CTracker
end Raiezau
