import Raiezau.CppTracker.Grammar

/-!
# Kept — what no request can break

A handler changes the tracker by three operations and with parts of its request only.  So what these keep, every request
keeps, whether its handler throws or not (`Kept.handleLine`).
-/

namespace Raiezau
namespace CppTracker

open Memory CUtil Text Machine

variable {st st' : Tracker} {p f : Addr} {s t line : CString} {announce : Bool}

/-! ## Parts of a request -/

theorem dropWhile_subset (q : Char → Bool) (s : CString) : s.dropWhile q ⊆ s := (List.dropWhile_sublist q).subset

theorem takeWhile_subset (q : Char → Bool) (s : CString) : s.takeWhile q ⊆ s := (List.takeWhile_sublist q).subset

/-- A stream and what has been read from it are made of the characters of a line. -/
def IStream.Within (line : CString) (x : IStream × CString) : Prop := x.1.rest ⊆ line ∧ x.2 ⊆ line

theorem within_readWord {x : IStream} (hx : x.rest ⊆ line) (hs : s ⊆ line) : IStream.Within line (x.readWord s) := by
  unfold IStream.readWord
  split
  · split
    · exact ⟨List.nil_subset _, hs⟩
    · next t _ heq =>
        have ht : x.rest.dropWhile isspace ⊆ line := List.Subset.trans (dropWhile_subset _ _) hx
        exact ⟨List.Subset.trans (dropWhile_subset _ _) ht, List.Subset.trans (takeWhile_subset _ _) ht⟩
  · exact ⟨hx, hs⟩

theorem within_getline {x : IStream} (d : Char) (hx : x.rest ⊆ line) (hs : s ⊆ line) :
    IStream.Within line (x.getline s d) := by
  unfold IStream.getline
  split
  · split
    · exact ⟨List.nil_subset _, List.Subset.trans (takeWhile_subset _ _) hx⟩
    · next c rest heq =>
        have hrest : rest ⊆ x.rest := by
          refine List.Subset.trans ?_ (dropWhile_subset (fun c => c ≠ d) x.rest)
          rw [heq]
          exact List.subset_cons_self c rest
        exact ⟨List.Subset.trans hrest hx, List.Subset.trans (takeWhile_subset _ _) hx⟩
  · exact ⟨hx, hs⟩

structure Scan.Within (line : CString) (s : Scan) : Prop where
  rest : s.line.rest ⊆ line
  keyword : s.keyword ⊆ line
  argument : s.argument ⊆ line

/-- What a clause was read from. -/
def Clause.text : Clause → CString
  | .listen argument => argument
  | .seed argument => argument
  | .leech argument => argument
  | .unexpected keyword => keyword

theorem Scan.Within.start {x : IStream} (hx : x.rest ⊆ line) : (Scan.start x).Within line :=
  ⟨hx, List.nil_subset _, List.nil_subset _⟩

theorem Scan.Within.readBrackets {s : Scan} (hs : s.Within line) : s.readBrackets.Within line := by
  have hgarbage := within_getline '[' hs.rest (List.nil_subset line)
  have hargument := within_getline ']' hgarbage.1 hs.argument
  exact ⟨hargument.1, hs.keyword, hargument.2⟩

theorem Scan.Within.readClause {s : Scan} (hs : s.Within line) (announce : Bool) :
    (readClause announce s).1.Within line ∧ (readClause announce s).2.text ⊆ line := by
  have hword := within_readWord hs.rest hs.keyword
  have hkeyword : Scan.Within line
      { s with line := (s.line.readWord s.keyword).1, keyword := (s.line.readWord s.keyword).2 } :=
    ⟨hword.1, hword.2, hs.argument⟩
  unfold CppTracker.readClause
  dsimp only
  split
  · have hargument := within_readWord hkeyword.rest hs.argument
    exact ⟨⟨hargument.1, hword.2, hargument.2⟩, hargument.2⟩
  · split
    · exact ⟨hkeyword.readBrackets, hkeyword.readBrackets.argument⟩
    · split
      · exact ⟨hkeyword.readBrackets, hkeyword.readBrackets.argument⟩
      · exact ⟨hkeyword, hword.2⟩

theorem text_subset_of_mem_clausesOf {n : Nat} {s : Scan} (hs : s.Within line) {c : Clause}
    (hc : c ∈ clausesOf announce n s) : c.text ⊆ line := by
  induction n generalizing s with
  | zero => cases hc
  | succ n ih =>
      obtain ⟨hs', htext⟩ := hs.readClause announce
      rcases List.mem_cons.1 hc with rfl | hc
      · exact htext
      · exact ih hs' hc

theorem rest_subset_of_dispatch {handler : Handler} {ss : IStream} (h : dispatch line = some (handler, ss)) :
    ss.rest ⊆ line := by
  obtain ⟨handler', -, h⟩ := Option.bind_eq_some_iff.1 h
  obtain ⟨-, rfl⟩ := Prod.mk.inj (Option.some.inj h)
  exact (within_readWord (x := IStream.ofString line) (List.Subset.refl line) (List.nil_subset line)).1

theorem text_subset_of_declaredOf {cls : List Clause} (hd : declaredOf line = some (announce, cls)) {c : Clause}
    (hc : c ∈ cls) : c.text ⊆ line := by
  obtain ⟨handler, ss, hdisp, rfl, -⟩ := handlerCall_of_declaredOf hd
  exact text_subset_of_mem_clausesOf (Scan.Within.start (rest_subset_of_dispatch hdisp)) hc

theorem subset_of_mem_tokens {w : CString} (hw : w ∈ tokens t) : w ⊆ t := by
  rw [tokens_eq_words] at hw
  exact fun c => mem_of_mem_words hw

/-! ## The operations -/

/-- The operations of a peer keep `I`.  A new file has no peers, and a name and a hash that are part of the request. -/
structure Kept (I : Tracker → Prop) (line : CString) (p : Addr) : Prop where
  modifyPeer : ∀ {st : Tracker} (u : Peer → Peer), I st → I (st.modifyPeer p u)
  addPeer : ∀ {st st' f}, I st → addPeer st p f = some st' → I st'
  registerFile : ∀ {st x}, I st → x.peers = [] → x.fileName ⊆ line → x.hash ⊆ line → I (registerFile st x).1

namespace Kept

variable {I : Tracker → Prop} (hk : Kept I line p)

include hk

theorem getFile {name hash : CString} {size piece : Nat} (hI : I st) (hname : name ⊆ line) (hhash : hash ⊆ line)
    (h : getFile st name size piece hash = some (st', f)) : I st' := by
  have hnew := hk.registerFile (x := ⟨name, size, piece, hash, []⟩) hI rfl hname hhash
  unfold CppTracker.getFile at h
  dsimp only at h
  split at h
  · obtain rfl := congrArg Prod.fst (Option.some.inj h)
    exact hnew
  · obtain ⟨y, -, h⟩ := Option.bind_eq_some_iff.1 h
    split at h
    · obtain rfl := congrArg Prod.fst (Option.some.inj h)
      exact hI
    · obtain rfl := congrArg Prod.fst (Option.some.inj h)
      exact hnew

theorem seedEntry {name size piece hash : CString} (hI : I st) (hname : name ⊆ line) (hhash : hash ⊆ line)
    (h : seedEntry p st name size piece hash = some st') : I st' := by
  unfold CppTracker.seedEntry at h
  split at h
  · obtain ⟨⟨st₁, f⟩, hget, h⟩ := Option.bind_eq_some_iff.1 h
    obtain ⟨x, -, h⟩ := Option.bind_eq_some_iff.1 h
    exact hk.addPeer (hk.modifyPeer _ (hk.getFile hI hname hhash hget)) h
  · obtain rfl := Option.some.inj h
    exact hI

theorem seedEntries {v : List CString} (hI : I st) (hv : ∀ w ∈ v, w ⊆ line) (h : seedEntries p st v = some st') :
    I st' := by
  -- Four tokens at a time, as `seedEntries` takes them.
  induction st, v using seedEntries.induct with
  | case1 st name size piece hash v ih =>
      rw [CppTracker.seedEntries] at h
      obtain ⟨st₁, hone, hrest⟩ := Option.bind_eq_some_iff.1 h
      have hst₁ := hk.seedEntry hI (hv name (by simp)) (hv hash (by simp)) hone
      exact ih st₁ hst₁ (fun w hw => hv w (by simp [hw])) hrest
  | case2 v st hshort =>
      rw [CppTracker.seedEntries] at h
      · obtain rfl := Option.some.inj h
        exact hI
      · exact hshort

theorem parseAnnounceSeed {r : Except CString Unit} (hI : I st) (ht : t ⊆ line)
    (h : parseAnnounceSeed st p t = some (st', r)) : I st' := by
  have hwords : ∀ w ∈ tokens t, w ⊆ line := fun w hw => List.Subset.trans (subset_of_mem_tokens hw) ht
  unfold CppTracker.parseAnnounceSeed at h
  dsimp only at h
  split at h
  · obtain ⟨rfl, -⟩ := Prod.mk.inj (Option.some.inj h)
    exact hk.modifyPeer _ hI
  · obtain ⟨st₁, hseed, h⟩ := Option.map_eq_some_iff.1 h
    obtain ⟨rfl, -⟩ := Prod.mk.inj h
    exact hk.seedEntries (hk.modifyPeer _ hI) hwords hseed

theorem parseAnnounceLeech (hI : I st) (h : parseAnnounceLeech st p t = some st') : I st' := by
  refine foldlM_invariant (I := I) ?_ (hk.modifyPeer _ hI) h
  intro st hash st' hI h
  unfold leechEntry at h
  split at h
  · obtain rfl := Option.some.inj h
    exact hI
  · obtain ⟨x, -, h⟩ := Option.bind_eq_some_iff.1 h
    exact hk.addPeer (hk.modifyPeer _ hI) h

theorem applyClause {c : Clause} {r : Except CString Unit} (hI : I st) (hc : c.text ⊆ line)
    (h : applyClause announce p st c = some (st', r)) : I st' := by
  have hleech : ∀ {text}, (CppTracker.parseAnnounceLeech st p text).map (fun st => (st, (.ok () : Except CString Unit))) =
      some (st', r) → I st' := by
    intro text h
    obtain ⟨st₁, hleech, h⟩ := Option.map_eq_some_iff.1 h
    obtain ⟨rfl, -⟩ := Prod.mk.inj h
    exact hk.parseAnnounceLeech hI hleech
  cases announce with
  | true =>
      cases c with
      | listen argument =>
          rw [CppTracker.applyClause, if_pos rfl, announceClause] at h
          split at h
          · obtain ⟨rfl, -⟩ := Prod.mk.inj (Option.some.inj h)
            exact hk.modifyPeer _ hI
          · obtain ⟨rfl, -⟩ := Prod.mk.inj (Option.some.inj h)
            exact hI
      | seed text => exact hk.parseAnnounceSeed hI hc h
      | leech text => exact hleech h
      | unexpected keyword =>
          obtain ⟨rfl, -⟩ := Prod.mk.inj (Option.some.inj h)
          exact hI
  | false =>
      cases c with
      | seed text => exact hleech h
      | leech text => exact hleech h
      | listen argument =>
          obtain ⟨rfl, -⟩ := Prod.mk.inj (Option.some.inj h)
          exact hI
      | unexpected keyword =>
          obtain ⟨rfl, -⟩ := Prod.mk.inj (Option.some.inj h)
          exact hI

theorem clauses {cls : List Clause} (hI : I st) (hcls : ∀ c ∈ cls, c.text ⊆ line)
    (h : cls.foldlM (accept (CppTracker.applyClause announce p)) st = some st') : I st' := by
  refine foldlM_done (P := fun _ st => I st) hI ?_ h
  rintro done rest c st st' rfl hI hc
  exact hk.applyClause hI (hcls c (by simp)) (accept_eq_some.1 hc)

/-- A request keeps what the operations keep. -/
theorem handleLine {reply : Option CString} (hI : I st) (h : handleLine st p line = some (st', reply)) : I st' := by
  cases hd : declaredOf line with
  | none =>
      rcases handleLine_other h hd with rfl | ⟨n, rfl⟩
      · exact hI
      · exact hk.modifyPeer _ hI
  | some d =>
      obtain ⟨announce, cls⟩ := d
      have htexts : ∀ c ∈ cls, c.text ⊆ line := fun c hc => text_subset_of_declaredOf hd hc
      obtain ⟨ss, -, ⟨st₁, -, -, rfl⟩ | ⟨st₁, what, -, -, rfl⟩⟩ := handleLine_declared h hd
      · obtain ⟨q, st₂, -, -, hfold, -, rfl⟩ := handleLine_ok h hd
        have hI₂ := hk.clauses hI htexts hfold
        cases announce with
        | true => exact hk.modifyPeer _ (hk.modifyPeer _ hI₂)
        | false => exact hk.modifyPeer _ hI₂
      -- The clauses before the one that throws have been applied, and it may have changed something itself.
      · obtain ⟨q, st₂, -, rfl, ⟨-, rfl⟩ | ⟨-, ⟨done, c, rest, st₃, what', rfl, hfold, hc⟩ | ⟨-, hfold⟩⟩⟩ :=
          handleLine_error h hd
        · exact hk.modifyPeer _ hI
        · have hI₃ := hk.clauses hI (fun c hc => htexts c (List.mem_append_left _ hc)) hfold
          exact hk.modifyPeer _ (hk.applyClause hI₃ (htexts c (by simp)) hc)
        · exact hk.modifyPeer _ (hk.clauses hI htexts hfold)

end Kept

end CppTracker
end Raiezau
